import MirrorRust.Contract
import MirrorRust.Decoding
import MirrorRust.JsonSpelling
import MirrorRust.Itf

/-! The checks of a contract as runs with a counter, and the records they take apart. -/
namespace MirrorRust

/-! ### Runs of a counting check -/

namespace Tally
variable {α β : Type}

@[simp] theorem outcome_pure (a : α) (n : ℕ) : (pure a : Tally α).outcome n = (.ok a, n) := rfl

@[simp] theorem outcome_throw (e : NegotiatedError) (n : ℕ) :
    (throw e : Tally α).outcome n = (.error e, n) := rfl

@[simp] theorem outcome_lift (y : Negotiated α) (n : ℕ) :
    (liftM y : Tally α).outcome n = (y, n) := by
  cases y <;> rfl

theorem outcome_bind (x : Tally α) (f : α → Tally β) (n : ℕ) :
    (x >>= f).outcome n = match x.outcome n with
      | (.ok a, m) => (f a).outcome m
      | (.error e, m) => (.error e, m) := by
  unfold outcome
  rw [ExceptT.run_bind, StateT.run_bind]
  change StateT.run _ (StateT.run x.run n).2 = match StateT.run x.run n with
    | (.ok a, m) => StateT.run (f a).run m
    | (.error e, m) => (.error e, m)
  obtain ⟨result, m⟩ := StateT.run x.run n
  cases result <;> rfl

theorem outcome_tallyNode (bound : ℕ) (message : String) (n : ℕ) :
    (tallyNode bound message).outcome n =
      if n + 1 > bound then (.error (unexpected message), n + 1) else (.ok (), n + 1) := by
  have hrun : (tallyNode bound message).outcome n =
      (if n + 1 > bound then throw (unexpected message) else pure () : Tally Unit).outcome (n + 1) :=
    rfl
  rw [hrun]
  split_ifs <;> rfl

/-- The check returns `a`, and counts from `n` to `m`. -/
def Gives (x : Tally α) (n : ℕ) (a : α) (m : ℕ) : Prop := x.outcome n = (.ok a, m)

theorem gives_pure {a b : α} {n m : ℕ} : Gives (pure a : Tally α) n b m ↔ a = b ∧ n = m := by
  simp [Gives]

theorem gives_bind {x : Tally α} {f : α → Tally β} {n m : ℕ} {b : β} :
    Gives (x >>= f) n b m ↔ ∃ a k, Gives x n a k ∧ Gives (f a) k b m := by
  unfold Gives
  rw [outcome_bind]
  split
  · next a k h =>
    rw [h]
    constructor
    · exact fun hf => ⟨a, k, rfl, hf⟩
    · rintro ⟨a', k', hx, hf⟩
      cases hx
      exact hf
  · next e k h =>
    rw [h]
    exact ⟨nofun, fun ⟨_, _, hx, _⟩ => nomatch hx⟩

theorem gives_lift {y : Negotiated α} {n m : ℕ} {a : α} :
    Gives (liftM y : Tally α) n a m ↔ y = .ok a ∧ n = m := by
  rw [Gives, outcome_lift, Prod.mk.injEq]

theorem not_gives_throw {e : NegotiatedError} {n m : ℕ} {a : α} :
    ¬ Gives (throw e : Tally α) n a m := nofun

theorem outcome_eq_ok {x : Tally α} {n : ℕ} {a : α} :
    (x.outcome n).1 = .ok a ↔ ∃ m, Gives x n a m := by
  unfold Gives
  constructor
  · exact fun h => ⟨(x.outcome n).2, Prod.ext h rfl⟩
  · rintro ⟨m, h⟩
    rw [h]

theorem gives_tallyNode {bound : ℕ} {message : String} {n m : ℕ} {u : Unit} :
    Gives (tallyNode bound message) n u m ↔ m = n + 1 ∧ n + 1 ≤ bound := by
  rw [Gives, outcome_tallyNode]
  split_ifs with h
  · exact iff_of_false nofun fun hm => by omega
  · simp [Prod.ext_iff, eq_comm, not_lt.mp h]

theorem gives_forM_nil {f : β → Tally Unit} {n m : ℕ} {u : Unit} :
    Gives (([] : List β).forM f) n u m ↔ n = m := by
  change Gives (pure () : Tally Unit) n u m ↔ n = m
  rw [gives_pure]
  exact and_iff_right rfl

theorem gives_forM_cons {f : β → Tally Unit} {x : β} {xs : List β} {n m : ℕ} {u : Unit} :
    Gives ((x :: xs).forM f) n u m ↔ ∃ k, Gives (f x) n () k ∧ Gives (xs.forM f) k u m := by
  change Gives (f x >>= fun _ => xs.forM f) n u m ↔ _
  rw [gives_bind]
  exact ⟨fun ⟨_, k, h⟩ => ⟨k, h⟩, fun ⟨k, h⟩ => ⟨(), k, h⟩⟩

end Tally

/-! ### The strict parser -/

theorem strictParse_nodes {text : String} {value : Json} (h : strictParse text = .ok value) :
    value.nodes ≤ 16_384 := by
  unfold strictParse at h
  cases hparse : parse text strictLimits with
  | error e =>
    rw [hparse] at h
    cases h
  | ok j =>
    rw [hparse] at h
    cases h
    obtain ⟨-, raw, -, hfits, rfl⟩ := parse_eq_ok.mp hparse
    rw [(Json.denote_size (hfits.distinct rfl)).2]
    exact hfits.nodes

theorem strictParse_render {j : Json} (htokens : j.Tokens) (hfits : j.Fits strictLimits)
    (hsize : 4 * j.chars.length ≤ strictLimits.maxBytes) :
    strictParse j.render = .ok j.denote := by
  have hparse := parse_render_ok htokens hfits ((utf8ByteSize_le j.chars).trans hsize)
  rw [strictParse, hparse]

/-! ### Objects and strings -/

theorem orUnexpected_eq_ok {α : Type} {value : Option α} {message : String} {a : α} :
    orUnexpected value message = .ok a ↔ value = some a := by
  cases value <;> simp [orUnexpected]

theorem asObject_eq_some {j : Json} {fields : Fields} :
    j.asObject = some fields ↔ j = .object fields := by
  cases j <;> simp [Json.asObject]

theorem asArray_eq_some {j : Json} {items : List Json} :
    j.asArray = some items ↔ j = .array items := by
  cases j <;> simp [Json.asArray]

theorem object_eq_ok {value : Json} {path : String} {allowed required : List String}
    {map : Fields} :
    object value path allowed required = .ok map ↔ value = .object map ∧
      (∀ p ∈ map, p.1 ∈ allowed) ∧ ∀ key ∈ required, map.get key ≠ none := by
  cases value with
  | object fields =>
    have hallowed : (fields.map Prod.fst).find? (fun key => decide (key ∉ allowed)) = none ↔
        ∀ p ∈ fields, p.1 ∈ allowed := by
      simp [List.find?_eq_none]
    have hrequired : required.find? (fun key => decide (Fields.get fields key = none)) = none ↔
        ∀ key ∈ required, Fields.get fields key ≠ none := by
      simp [List.find?_eq_none]
    unfold object
    simp only [Json.asObject, orUnexpected, bind, Except.bind]
    cases hunknown : (fields.map Prod.fst).find? fun key => decide (key ∉ allowed) with
    | some key =>
      refine iff_of_false (fun h => by cases h) fun h => ?_
      obtain ⟨hfields, hall, -⟩ := h
      cases hfields
      rw [hallowed.mpr hall] at hunknown
      cases hunknown
    | none =>
      cases hmissing : required.find? fun key => decide (Fields.get fields key = none) with
      | some key =>
        refine iff_of_false (fun h => by cases h) fun h => ?_
        obtain ⟨hfields, -, hall⟩ := h
        cases hfields
        rw [hrequired.mpr hall] at hmissing
        cases hmissing
      | none =>
        constructor
        · intro h
          cases h
          exact ⟨rfl, hallowed.mp hunknown, hrequired.mp hmissing⟩
        · rintro ⟨hfields, -, -⟩
          cases hfields
          rfl
  | _ => exact iff_of_false (fun h => by cases h) fun h => by cases h.1

theorem shortString_eq_ok {value : Json} {path text : String} :
    shortString value path = .ok text ↔ value = .string text ∧ text.utf8ByteSize ≤ 256 := by
  cases value with
  | string s =>
    unfold shortString
    simp only [Json.asStr, orUnexpected, bind, Except.bind]
    split_ifs with hsize
    · refine iff_of_false (fun h => by cases h) ?_
      rintro ⟨hs, hle⟩
      cases hs
      omega
    · constructor
      · intro h
        cases h
        exact ⟨rfl, not_lt.mp hsize⟩
      · rintro ⟨hs, -⟩
        cases hs
        rfl
  | _ => exact iff_of_false (fun h => by cases h) fun h => by cases h.1

/-! ### Records of a contract -/

/-- A value of a contract is a record with exactly these keys. -/
theorem object_exact {value : Json} (hvalue : value.Ordered) {path : String} {keys : List String}
    {map : Fields} :
    object value path keys keys = .ok map ↔
      value = .object map ∧ map = Assoc.ofList (keys.map fun key => (key, map.item key)) := by
  rw [object_eq_ok]
  refine and_congr_right fun hmap => ?_
  subst hmap
  have hsorted : Assoc.Sorted map := hvalue.1
  have hmem : ∀ p, p ∈ Assoc.ofList (keys.map fun key => (key, map.item key)) ↔
      p.1 ∈ keys ∧ p.2 = map.item p.1 := by
    intro p
    rw [Assoc.mem_ofList]
    · rw [List.mem_map]
      constructor
      · rintro ⟨key, hkey, rfl⟩
        exact ⟨hkey, rfl⟩
      · rintro ⟨hkey, hitem⟩
        exact ⟨p.1, hkey, Prod.ext rfl hitem.symm⟩
    · simp only [List.mem_map]
      rintro _ ⟨key, -, rfl⟩ _ ⟨key', -, rfl⟩ hkey
      cases hkey
      rfl
  have hget : ∀ p ∈ map, map.get p.1 = some p.2 := fun p hp => (Assoc.get?_eq_some hsorted).mpr hp
  constructor
  · rintro ⟨hallowed, hrequired⟩
    refine hsorted.ext (Assoc.ofList_sorted _) fun p => ?_
    rw [hmem]
    constructor
    · intro hp
      refine ⟨hallowed p hp, ?_⟩
      rw [Fields.item, hget p hp, Option.getD_some]
    · rintro ⟨hkey, hitem⟩
      obtain ⟨j, hj⟩ := Option.ne_none_iff_exists'.mp (hrequired _ hkey)
      rw [Fields.item, hj, Option.getD_some] at hitem
      rw [← Assoc.get?_eq_some hsorted, hitem]
      exact hj
  · intro hmap
    constructor
    · intro p hp
      rw [hmap] at hp
      exact ((hmem p).mp hp).1
    · intro key hkey
      have hp := (hmem (key, map.item key)).mpr ⟨hkey, rfl⟩
      rw [← hmap] at hp
      rw [hget _ hp]
      exact nofun

/-- A member of a record that is built from its members. -/
theorem item_ofList (xs : List (String × Json)) (key : String) :
    Fields.item (Assoc.ofList xs) key = (Assoc.get? key xs.reverse).getD .null := by
  rw [Fields.item, Fields.get, Assoc.get?_ofList]

theorem item_last (xs : List (String × Json)) (key : String) (b : Json) :
    Fields.item (Assoc.ofList (xs ++ [(key, b)])) key = b := by
  simp [item_ofList, Assoc.get?_cons]

theorem item_pair_left {key key' : String} (h : key ≠ key') (a b : Json) :
    Fields.item (Assoc.ofList [(key, a), (key', b)]) key = a := by
  simp [item_ofList, Assoc.get?_cons, h]

theorem item_pair_right (key key' : String) (a b : Json) :
    Fields.item (Assoc.ofList [(key, a), (key', b)]) key' = b := item_last [(key, a)] key' b

theorem item_middle {key' key'' : String} (h : key' ≠ key'') (key : String) (a b c : Json) :
    Fields.item (Assoc.ofList [(key, a), (key', b), (key'', c)]) key' = b := by
  simp [item_ofList, Assoc.get?_cons, h]

theorem item_third (key key' key'' : String) (a b c : Json) :
    Fields.item (Assoc.ofList [(key, a), (key', b), (key'', c)]) key'' = c :=
  item_last [(key, a), (key', b)] key'' c

theorem ordered_get {map : Fields} (h : (Json.object map).Ordered) {key : String} {j : Json}
    (hj : map.get key = some j) : j.Ordered :=
  orderedFields_mem h.2 _ ((Assoc.get?_eq_some h.1).mp hj)

theorem ordered_item {map : Fields} (h : (Json.object map).Ordered) (key : String) :
    (map.item key).Ordered := by
  unfold Fields.item
  cases hj : map.get key with
  | none => trivial
  | some j => exact ordered_get h hj

theorem orderedItems_of_mem {items : List Json} (h : ∀ j ∈ items, j.Ordered) :
    Json.OrderedItems items := by
  induction items with
  | nil => trivial
  | cons j items ih =>
    obtain ⟨hj, hitems⟩ := List.forall_mem_cons.mp h
    exact ⟨hj, ih hitems⟩

theorem orderedFields_of_mem {fields : List (String × Json)} (h : ∀ p ∈ fields, p.2.Ordered) :
    Json.OrderedFields fields := by
  induction fields with
  | nil => trivial
  | cons p fields ih =>
    obtain ⟨hp, hfields⟩ := List.forall_mem_cons.mp h
    exact ⟨hp, ih hfields⟩

/-- A record that is built from well-formed members is well formed. -/
theorem obj_ordered {xs : List (String × Json)} (h : ∀ p ∈ xs, p.2.Ordered) :
    (Json.obj xs).Ordered := by
  refine ⟨Assoc.ofList_sorted xs, orderedFields_of_mem fun p hp => ?_⟩
  have hget : Assoc.get? p.1 (Assoc.ofList xs) = some p.2 :=
    (Assoc.get?_eq_some (Assoc.ofList_sorted xs)).mpr hp
  rw [Assoc.get?_ofList] at hget
  exact h _ (List.mem_reverse.mp (Assoc.mem_of_get? hget))

theorem ordered_pair {key key' : String} {a b : Json}
    (h : (Json.obj [(key, a), (key', b)]).Ordered) : b.Ordered :=
  item_pair_right key key' a b ▸ ordered_item h key'

theorem ordered_middle {key key' key'' : String} (hkeys : key' ≠ key'') {a b c : Json}
    (h : (Json.obj [(key, a), (key', b), (key'', c)]).Ordered) : b.Ordered :=
  item_middle hkeys key a b c ▸ ordered_item h key'

theorem ordered_third {key key' key'' : String} {a b c : Json}
    (h : (Json.obj [(key, a), (key', b), (key'', c)]).Ordered) : c.Ordered :=
  item_third key key' key'' a b c ▸ ordered_item h key''

/-- A record with a text under `kind`. -/
def Tagged (value : Json) (kind : String) : Prop :=
  ∃ map : Fields, value = .object map ∧ map.get "kind" = some (.string kind)

namespace Tally
variable {β : Type} {value : Json} {path kind : String} {f : Fields → Tally β} {n m : ℕ} {r : β}

theorem gives_object {keys : List String} (hvalue : value.Ordered) :
    Gives (do f (← object value path keys keys)) n r m ↔
      ∃ map : Fields, value = .object map ∧
        map = Assoc.ofList (keys.map fun key => (key, map.item key)) ∧ Gives (f map) n r m := by
  rw [gives_bind]
  constructor
  · rintro ⟨map, k, hmap, hf⟩
    obtain ⟨hobject, rfl⟩ := gives_lift.mp hmap
    obtain ⟨hvalue', hkeys⟩ := (object_exact hvalue).mp hobject
    exact ⟨map, hvalue', hkeys, hf⟩
  · rintro ⟨map, hvalue', hkeys, hf⟩
    exact ⟨map, n, gives_lift.mpr ⟨(object_exact hvalue).mpr ⟨hvalue', hkeys⟩, rfl⟩, hf⟩

/-- A record with two members. -/
theorem gives_pair {key key' : String} (hkeys : key ≠ key') (hvalue : value.Ordered) :
    Gives (do f (← object value path [key, key'] [key, key'])) n r m ↔
      ∃ a b, value = Json.obj [(key, a), (key', b)] ∧
        Gives (f (Assoc.ofList [(key, a), (key', b)])) n r m := by
  rw [gives_object hvalue]
  constructor
  · rintro ⟨map, rfl, hmap, hf⟩
    refine ⟨map.item key, map.item key', congrArg Json.object hmap, ?_⟩
    rwa [hmap] at hf
  · rintro ⟨a, b, rfl, hf⟩
    refine ⟨_, rfl, ?_, hf⟩
    simp [item_ofList, Assoc.get?_cons, hkeys]

/-- A record with nothing but its kind. -/
theorem gives_bare (hvalue : value.Ordered) (hkind : Tagged value kind) :
    Gives (do f (← object value path ["kind"] ["kind"])) n r m ↔
      value = Json.obj [("kind", .string kind)] ∧
        Gives (f (Assoc.ofList [("kind", .string kind)])) n r m := by
  obtain ⟨tagged, rfl, htag⟩ := hkind
  have hitem : tagged.item "kind" = .string kind := by rw [Fields.item, htag, Option.getD_some]
  rw [gives_object hvalue]
  constructor
  · rintro ⟨map, hmap, hkeys, hf⟩
    cases hmap
    rw [List.map_singleton, hitem] at hkeys
    refine ⟨congrArg Json.object hkeys, ?_⟩
    rwa [hkeys] at hf
  · rintro ⟨hmap, hf⟩
    cases hmap
    refine ⟨_, rfl, ?_, hf⟩
    rw [List.map_singleton, hitem]

/-- A record with its kind and one more member. -/
theorem gives_tagged {key : String} (hkey : key ≠ "kind") (hvalue : value.Ordered)
    (hkind : Tagged value kind) :
    Gives (do f (← object value path ["kind", key] ["kind", key])) n r m ↔
      ∃ b, value = Json.obj [("kind", .string kind), (key, b)] ∧
        Gives (f (Assoc.ofList [("kind", .string kind), (key, b)])) n r m := by
  rw [gives_pair hkey.symm hvalue]
  constructor
  · rintro ⟨a, b, rfl, hf⟩
    obtain ⟨tagged, hmap, htag⟩ := hkind
    cases hmap
    rw [Fields.get, Assoc.get?_ofList] at htag
    simp [Assoc.get?_cons, hkey.symm] at htag
    subst htag
    exact ⟨b, rfl, hf⟩
  · rintro ⟨b, rfl, hf⟩
    exact ⟨_, b, rfl, hf⟩

/-- A record with its kind and two more members. -/
theorem gives_tagged_pair {key key' : String} (hkey : key ≠ "kind") (hkey' : key' ≠ "kind")
    (hkeys : key ≠ key') (hvalue : value.Ordered) (hkind : Tagged value kind) :
    Gives (do f (← object value path ["kind", key, key'] ["kind", key, key'])) n r m ↔
      ∃ b c, value = Json.obj [("kind", .string kind), (key, b), (key', c)] ∧
        Gives (f (Assoc.ofList [("kind", .string kind), (key, b), (key', c)])) n r m := by
  obtain ⟨tagged, rfl, htag⟩ := hkind
  have hitem : tagged.item "kind" = .string kind := by rw [Fields.item, htag, Option.getD_some]
  rw [gives_object hvalue]
  constructor
  · rintro ⟨map, hmap, hfields, hf⟩
    cases hmap
    simp only [List.map_cons, List.map_nil, hitem] at hfields
    refine ⟨tagged.item key, tagged.item key', congrArg Json.object hfields, ?_⟩
    rwa [hfields] at hf
  · rintro ⟨b, c, hmap, hf⟩
    cases hmap
    refine ⟨_, rfl, ?_, hf⟩
    simp [item_ofList, Assoc.get?_cons, hkey.symm, hkey'.symm, hkeys]

theorem gives_lift_bind {α : Type} {y : Negotiated α} {g : α → Tally β} :
    Gives (do g (← y)) n r m ↔ ∃ a, y = .ok a ∧ Gives (g a) n r m := by
  rw [gives_bind]
  constructor
  · rintro ⟨a, k, hy, hg⟩
    obtain ⟨hy', rfl⟩ := gives_lift.mp hy
    exact ⟨a, hy', hg⟩
  · rintro ⟨a, hy, hg⟩
    exact ⟨a, n, gives_lift.mpr ⟨hy, rfl⟩, hg⟩

theorem gives_shortString {j : Json} {g : String → Tally β} :
    Gives (do g (← shortString j path)) n r m ↔
      ∃ text, j = .string text ∧ text.utf8ByteSize ≤ 256 ∧ Gives (g text) n r m := by
  rw [gives_lift_bind]
  exact exists_congr fun text => by rw [shortString_eq_ok, and_assoc]

theorem gives_array {j : Json} {message : String} {g : List Json → Tally β} :
    Gives (do g (← orUnexpected j.asArray message)) n r m ↔
      ∃ items, j = .array items ∧ Gives (g items) n r m := by
  rw [gives_lift_bind]
  exact exists_congr fun items => by rw [orUnexpected_eq_ok, asArray_eq_some]

theorem gives_unit {u : Unit} : Gives (pure () : Tally Unit) n u m ↔ n = m := by
  rw [gives_pure]
  exact and_iff_right rfl

theorem gives_unless {c : Prop} [Decidable c] {e : NegotiatedError} {u : Unit} :
    Gives (if c then throw e else pure ()) n u m ↔ ¬ c ∧ n = m := by
  split_ifs with h
  · exact iff_of_false not_gives_throw fun h' => h'.1 h
  · rw [gives_unit]
    exact (and_iff_right h).symm

theorem gives_unless_bind {c : Prop} [Decidable c] {e : NegotiatedError} {x : Tally β} :
    Gives (do
        if c then throw e
        x) n r m ↔ ¬ c ∧ Gives x n r m := by
  split_ifs with h
  · refine iff_of_false (fun h' => ?_) fun h' => h'.1 h
    obtain ⟨_, _, hthrow, -⟩ := gives_bind.mp h'
    exact not_gives_throw hthrow
  · exact (and_iff_right h).symm

/-- A record is counted before its kind decides. -/
theorem gives_body {bound : ℕ} {message message' message'' : String} {body : String → Tally β} :
    Gives (do
        tallyNode bound message
        let tagged ← orUnexpected value.asObject message'
        let kind ← orUnexpected ((Fields.get tagged "kind").bind Json.asStr) message''
        body kind) n r m ↔
      n + 1 ≤ bound ∧ ∃ kind, Tagged value kind ∧ Gives (body kind) (n + 1) r m := by
  constructor
  · intro h
    obtain ⟨_, k, hnode, h⟩ := gives_bind.mp h
    obtain ⟨rfl, hbound⟩ := gives_tallyNode.mp hnode
    obtain ⟨tagged, htagged, h⟩ := gives_lift_bind.mp h
    obtain ⟨kind, hkind, h⟩ := gives_lift_bind.mp h
    exact ⟨hbound, kind, ⟨tagged, asObject_eq_some.mp (orUnexpected_eq_ok.mp htagged),
      bind_asStr.mp (orUnexpected_eq_ok.mp hkind)⟩, h⟩
  · rintro ⟨hbound, kind, ⟨tagged, rfl, hkind⟩, h⟩
    exact gives_bind.mpr ⟨(), n + 1, gives_tallyNode.mpr ⟨rfl, hbound⟩,
      gives_lift_bind.mpr ⟨tagged, rfl,
        gives_lift_bind.mpr ⟨kind, orUnexpected_eq_ok.mpr (bind_asStr.mpr hkind), h⟩⟩⟩

/-- The check accepts the encodings of the fitting trees and no others, from every count within the
bound, and counts their nodes. -/
def Counts {T : Type} (check : Json → Tally Unit) (encode : T → Json) (fits : T → Prop)
    (nodes : T → ℕ) (bound : ℕ) (value : Json) : Prop :=
  ∀ n m, n ≤ bound → (Gives (check value) n () m ↔
    ∃ t, encode t = value ∧ fits t ∧ m = n + nodes t ∧ m ≤ bound)

theorem counts_forM {T : Type} {check : Json → Tally Unit} {encode : T → Json} {fits : T → Prop}
    {nodes : T → ℕ} {bound : ℕ} {values : List Json}
    (h : ∀ v ∈ values, Counts check encode fits nodes bound v) {n m : ℕ} (hn : n ≤ bound) :
    Gives (values.forM check) n () m ↔ ∃ ts : List T, ts.map encode = values ∧
      (∀ t ∈ ts, fits t) ∧ m = n + (ts.map nodes).sum ∧ m ≤ bound := by
  induction values generalizing n with
  | nil =>
    rw [gives_forM_nil]
    constructor
    · rintro rfl
      exact ⟨[], rfl, nofun, rfl, hn⟩
    · rintro ⟨ts, hts, -, hm, -⟩
      rw [List.map_eq_nil_iff.mp hts] at hm
      exact hm.symm
  | cons v values ih =>
    obtain ⟨hv, hvalues⟩ := List.forall_mem_cons.mp h
    rw [gives_forM_cons]
    constructor
    · rintro ⟨k, hfirst, hrest⟩
      obtain ⟨t, ht, hfits, hk, hkbound⟩ := (hv n k hn).mp hfirst
      obtain ⟨ts, hts, hall, hm, hmbound⟩ := (ih hvalues hkbound).mp hrest
      refine ⟨t :: ts, by rw [List.map_cons, ht, hts], List.forall_mem_cons.mpr ⟨hfits, hall⟩, ?_,
        hmbound⟩
      rw [List.map_cons, List.sum_cons]
      omega
    · rintro ⟨ts, hts, hall, hm, hmbound⟩
      obtain ⟨t, ts, rfl, ht, hts⟩ := List.map_eq_cons_iff.mp hts
      obtain ⟨hfits, hall⟩ := List.forall_mem_cons.mp hall
      rw [List.map_cons, List.sum_cons] at hm
      have hk : n + nodes t ≤ bound := by omega
      exact ⟨n + nodes t, (hv n _ hn).mpr ⟨t, ht, hfits, rfl, hk⟩,
        (ih hvalues hk).mpr ⟨ts, hts, hall, by omega, hmbound⟩⟩

end Tally

end MirrorRust
