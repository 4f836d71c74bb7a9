import MirrorRust.Tally
import Mathlib.Algebra.Order.BigOperators.Group.List

/-! The weight of a contract bounds the count of nodes that its parts share: two values of the
contract pay for each node that is counted. -/
namespace MirrorRust

/-! ### What the counter can refuse -/

/-- What follows the path in the refusals of a full counter. -/
def nodeLimits : List String :=
  [": canonical ITF literal nodes exceed 16384", ": type nodes exceed 8192"]

/-- A refusal of a full counter. -/
def NodeLimit (path : String) (e : NegotiatedError) : Prop :=
  ∃ limit ∈ nodeLimits, e = unexpected (path ++ limit)

theorem not_nodeLimit {path s t : String} (h : ∀ limit ∈ nodeLimits, ¬ s.toList <+: limit.toList) :
    ¬ NodeLimit path (unexpected (path ++ s ++ t)) := by
  rintro ⟨limit, hlimit, he⟩
  injection he with _ hmessage
  have hlist := congrArg String.toList hmessage
  simp only [String.toList_append, List.append_assoc, List.append_cancel_left_eq] at hlist
  exact h limit hlimit ⟨_, hlist⟩

theorem not_nodeLimit_fixed {path s : String} (h : s ∉ nodeLimits) :
    ¬ NodeLimit path (unexpected (path ++ s)) := by
  rintro ⟨limit, hlimit, he⟩
  injection he with _ hmessage
  have hlist := congrArg String.toList hmessage
  rw [String.toList_append, String.toList_append, List.append_cancel_left_eq] at hlist
  exact h (String.toList_injective hlist ▸ hlimit)

theorem not_nodeLimit_message {path message : String} (h : ∀ limit ∈ nodeLimits, message ≠ path ++ limit) :
    ¬ NodeLimit path (unexpected message) := by
  rintro ⟨limit, hlimit, he⟩
  injection he with _ hmessage
  exact h limit hlimit hmessage

/-! ### Checks with a weight -/

/-- The check does the same from every count that leaves room for its weight: it counts one node
for every two units, and never finds the counter full. A refusal may have counted the node it
refuses. -/
def Metered {α : Type} (path : String) (weight : ℕ) (x : Tally α) : Prop :=
  ∃ (r : Negotiated α) (k : ℕ), (∀ n, 2 * n + weight ≤ 16_383 → x.outcome n = (r, n + k)) ∧
    2 * k ≤ weight + 1 ∧ (∀ a, r = .ok a → 2 * k ≤ weight) ∧ ∀ e, r = .error e → ¬ NodeLimit path e

namespace Metered
variable {α β : Type} {path : String} {w v : ℕ} {x : Tally α}

theorem mono (h : Metered path w x) (hw : w ≤ v) : Metered path v x := by
  obtain ⟨r, k, hrun, hcount, hok, herror⟩ := h
  exact ⟨r, k, fun n hn => hrun n (by omega), by omega, fun a ha => (hok a ha).trans hw, herror⟩

theorem returned (a : α) : Metered path 0 (pure a : Tally α) :=
  ⟨.ok a, 0, fun _ _ => rfl, Nat.zero_le _, fun _ _ => le_rfl, nofun⟩

theorem thrown {e : NegotiatedError} (he : ¬ NodeLimit path e) :
    Metered path 0 (throw e : Tally α) :=
  ⟨.error e, 0, fun _ _ => rfl, Nat.zero_le _, nofun, fun _ h => Except.error.inj h ▸ he⟩

theorem lift_bind {y : Negotiated α} {f : α → Tally β}
    (herror : ∀ e, y = .error e → ¬ NodeLimit path e)
    (hf : ∀ a, y = .ok a → Metered path w (f a)) : Metered path w (do f (← y)) := by
  cases y with
  | error e =>
    refine ⟨.error e, 0, fun n _ => ?_, Nat.zero_le _, nofun, fun _ h => Except.error.inj h ▸ herror e rfl⟩
    rw [Tally.outcome_bind, Tally.outcome_lift, Nat.add_zero]
  | ok a =>
    obtain ⟨r, k, hrun, hrest⟩ := hf a rfl
    refine ⟨r, k, fun n hn => ?_, hrest⟩
    rw [Tally.outcome_bind, Tally.outcome_lift]
    exact hrun n hn

theorem andThen {f : α → Tally β} (hx : Metered path w x) (hf : ∀ a, Metered path v (f a)) :
    Metered path (w + v) (x >>= f) := by
  obtain ⟨r, k, hrun, hcount, hok, herror⟩ := hx
  cases r with
  | error e =>
    refine ⟨.error e, k, fun n hn => ?_, by omega, nofun, fun _ h => Except.error.inj h ▸ herror e rfl⟩
    rw [Tally.outcome_bind, hrun n (by omega)]
  | ok a =>
    obtain ⟨s, l, hrun', hcount', hok', herror'⟩ := hf a
    have hk := hok a rfl
    refine ⟨s, k + l, fun n hn => ?_, by omega, fun b hb => by have := hok' b hb; omega, herror'⟩
    rw [Tally.outcome_bind, hrun n (by omega)]
    simp only
    rw [hrun' (n + k) (by omega), Nat.add_assoc]

theorem branch {c : Prop} [Decidable c] {y : Tally α} (hx : c → Metered path w x)
    (hy : ¬ c → Metered path w y) : Metered path w (if c then x else y) := by
  split_ifs with h
  · exact hx h
  · exact hy h

theorem each {γ : Type} {f : γ → Tally Unit} {weight : γ → ℕ} {items : List γ}
    (h : ∀ c ∈ items, Metered path (weight c) (f c)) :
    Metered path (items.map weight).sum (items.forM f) := by
  induction items with
  | nil => exact returned ()
  | cons c items ih =>
    obtain ⟨hc, hitems⟩ := List.forall_mem_cons.mp h
    rw [List.map_cons, List.sum_cons]
    exact hc.andThen fun _ => ih hitems

theorem fold {γ σ : Type} {f : σ → γ → Tally σ} {weight : γ → ℕ} {items : List γ} (s : σ)
    (h : ∀ c ∈ items, ∀ s, Metered path (weight c) (f s c)) :
    Metered path (items.map weight).sum (items.foldlM f s) := by
  induction items generalizing s with
  | nil => exact returned s
  | cons c items ih =>
    obtain ⟨hc, hitems⟩ := List.forall_mem_cons.mp h
    rw [List.map_cons, List.sum_cons, List.foldlM_cons]
    exact (hc s).andThen fun s' => ih s' hitems

/-- Where there is room, the check starts anywhere. -/
theorem gives_iff (h : Metered path w x) {n : ℕ} (hn : 2 * n + w ≤ 16_383) {a : α} :
    (∃ m, Tally.Gives x n a m) ↔ ∃ m, Tally.Gives x 0 a m := by
  obtain ⟨r, k, hrun, -⟩ := h
  unfold Tally.Gives
  rw [hrun n hn, hrun 0 (by omega)]
  simp

theorem gives_le (h : Metered path w x) {n m : ℕ} (hn : 2 * n + w ≤ 16_383) {a : α}
    (hgives : Tally.Gives x n a m) : 2 * m ≤ 2 * n + w := by
  obtain ⟨r, k, hrun, -, hok, -⟩ := h
  unfold Tally.Gives at hgives
  rw [hrun n hn, Prod.mk.injEq] at hgives
  have := hok a hgives.1
  omega

theorem count_le (h : Metered path w x) (hw : w ≤ 16_383) : (x.outcome 0).2 ≤ 8_192 := by
  obtain ⟨r, k, hrun, hcount, -⟩ := h
  rw [hrun 0 (by omega)]
  simp only
  omega

theorem not_limit (h : Metered path w x) (hw : w ≤ 16_383) {e : NegotiatedError}
    (he : (x.outcome 0).1 = .error e) : ¬ NodeLimit path e := by
  obtain ⟨r, k, hrun, -, -, herror⟩ := h
  rw [hrun 0 (by omega)] at he
  exact herror e he

end Metered

/-! ### The weight of a record -/

namespace Json

theorem nodesItems_eq (items : List Json) : nodesItems items = (items.map nodes).sum := by
  induction items with
  | nil => rfl
  | cons j items ih => rw [nodesItems, ih, List.map_cons, List.sum_cons]

theorem nodesFields_eq (fields : List (String × Json)) :
    nodesFields fields = (fields.map fun p => p.2.nodes).sum := by
  induction fields with
  | nil => rfl
  | cons p fields ih => rw [nodesFields, ih, List.map_cons, List.sum_cons]

theorem nodes_pos (j : Json) : 0 < j.nodes := by
  cases j <;> simp only [nodes] <;> omega

theorem boundedArray_nodes {j : Json} {bound : ℕ} {items : List Json}
    (h : boundedArray j bound = some items) : (items.map nodes).sum < j.nodes := by
  rw [asArray_eq_some.mp (Option.filter_eq_some_iff.mp h).1, nodes, nodesItems_eq]
  exact Nat.lt_succ_self _

theorem nodesItems_lt {j : Json} {items : List Json} (h : j.asArray = some items) :
    nodesItems items < j.nodes := by
  rw [asArray_eq_some.mp h, nodes]
  exact Nat.lt_succ_self _

end Json

theorem Fields.present_eq_some {map : Fields} {key : String} {j : Json}
    (h : map.present key = some j) : map.get key ≠ none ∧ map.item key = j := by
  have hget := (Option.filter_eq_some_iff.mp h).1
  rw [Fields.item, hget]
  exact ⟨(fun h => by cases h), rfl⟩

/-- Different members of a record weigh no more than the record. -/
theorem Fields.weigh {map : Fields} {keys : List String} (hkeys : keys.Nodup)
    (hall : ∀ key ∈ keys, map.get key ≠ none) :
    (keys.map fun key => (map.item key).nodes).sum ≤ Json.nodesFields map := by
  have hnodup : (keys.map fun key => (key, map.item key)).Nodup :=
    hkeys.map fun _ _ h => congrArg Prod.fst h
  have hsubset : keys.map (fun key => (key, map.item key)) ⊆ map := by
    intro p hp
    obtain ⟨key, hkey, rfl⟩ := List.mem_map.mp hp
    obtain ⟨j, hj⟩ := Option.ne_none_iff_exists'.mp (hall key hkey)
    rw [Fields.item, hj]
    exact Assoc.mem_of_get? hj
  obtain ⟨found, hperm, hsub⟩ := List.subperm_of_subset hnodup hsubset
  have hsum := (hsub.map fun p : String × Json => p.2.nodes).sum_le_sum fun _ _ => Nat.zero_le _
  rw [(hperm.map _).sum_eq, List.map_map] at hsum
  rw [Json.nodesFields_eq]
  exact hsum

/-! ### The checks have a weight -/

namespace Metered
variable {β : Type} {path : String} {w : ℕ} {value : Json}

theorem option_bind {α : Type} {y : Option α} {message : String} {g : α → Tally β}
    (h : ¬ NodeLimit path (unexpected message)) (hg : ∀ a, y = some a → Metered path w (g a)) :
    Metered path w (do g (← orUnexpected y message)) := by
  refine lift_bind (fun e he => ?_) fun a ha => hg a (orUnexpected_eq_ok.mp ha)
  cases y with
  | none =>
    cases he
    exact h
  | some a => cases he

theorem orUnexpected_bind {α : Type} {y : Option α} {s : String} {g : α → Tally β}
    (h : s ∉ nodeLimits)
    (hg : ∀ a, y = some a → Metered path w (g a)) :
    Metered path w (do g (← orUnexpected y (path ++ s))) := option_bind (not_nodeLimit_fixed h) hg

theorem shortString_bind {g : String → Tally β}
    (hg : ∀ text, Metered path w (g text)) :
    Metered path w (do g (← shortString value path)) := by
  refine lift_bind (fun e he => ?_) fun text _ => hg text
  unfold shortString at he
  cases value with
  | string text =>
    simp only [Json.asStr, orUnexpected, bind, Except.bind] at he
    split_ifs at he
    · cases he
      exact not_nodeLimit_fixed (by simp [nodeLimits])
    · cases he
  | _ =>
    cases he
    exact not_nodeLimit_fixed (by simp [nodeLimits])

theorem object_bind {allowed required : List String} {g : Fields → Tally β}
    (hg : ∀ map : Fields, value = .object map → (∀ key ∈ required, map.get key ≠ none) →
      Metered path w (g map)) :
    Metered path w (do g (← object value path allowed required)) := by
  refine lift_bind (fun e he => ?_) fun map hmap => ?_
  · unfold object at he
    cases value with
    | object map =>
      simp only [Json.asObject, orUnexpected, bind, Except.bind] at he
      split at he
      · cases he
        rw [String.append_assoc]
        exact not_nodeLimit (by simp [nodeLimits])
      · split at he
        · cases he
          rw [String.append_assoc]
          exact not_nodeLimit (by simp [nodeLimits])
        · cases he
    | _ =>
      cases he
      exact not_nodeLimit_fixed (by simp [nodeLimits])
  · obtain ⟨hvalue, -, hrequired⟩ := object_eq_ok.mp hmap
    exact hg map hvalue hrequired

theorem ticked {bound : ℕ} (hbound : 8_192 ≤ bound) {message : String} :
    Metered path 2 (tallyNode bound message) := by
  refine ⟨.ok (), 1, fun n hn => ?_, by omega, fun _ _ => le_rfl, nofun⟩
  rw [Tally.outcome_tallyNode, if_neg (by omega)]

/-- A refusal right after the count. -/
theorem refused {α : Type} {x : Tally Unit} {f : Unit → Tally α} {e : NegotiatedError} {n k : ℕ}
    (hx : x.outcome n = (.ok (), k)) (hf : (f ()).outcome k = (.error e, k)) :
    (x >>= f).outcome n = (.error e, k) := by
  rw [Tally.outcome_bind, hx]
  exact hf

/-- A record with a kind is one node for two values, itself and the text under its kind. -/
theorem record {bound : ℕ} (hbound : 8_192 ≤ bound) {message s s' : String}
    {rest : String → Tally β} (hs : s ∉ nodeLimits)
    (hs' : s' ∉ nodeLimits)
    (h : ∀ kind, Tagged value kind → Metered path (value.nodes - 2) (rest kind)) :
    Metered path value.nodes (do
        tallyNode bound message
        let tagged ← orUnexpected value.asObject (path ++ s)
        let kind ← orUnexpected ((Fields.get tagged "kind").bind Json.asStr) (path ++ s')
        rest kind) := by
  by_cases htag : ∃ kind, Tagged value kind
  · obtain ⟨kind, map, rfl, hkind⟩ := htag
    have hnodes : 2 ≤ (Json.object map).nodes := by
      have hweigh := @Fields.weigh map ["kind"] (by simp)
        (by simp [hkind])
      rw [List.map_singleton, List.sum_singleton] at hweigh
      have hpos := Json.nodes_pos (map.item "kind")
      rw [Json.nodes]
      omega
    have hweight : (Json.object map).nodes = 2 + ((Json.object map).nodes - 2) := by omega
    rw [hweight]
    refine (ticked hbound).andThen fun _ => ?_
    refine orUnexpected_bind hs fun tagged htagged => orUnexpected_bind hs' fun kind' hkind' => ?_
    cases htagged
    exact h kind' ⟨map, rfl, bind_asStr.mp hkind'⟩
  · have hrest : ∃ e, ¬ NodeLimit path e ∧ ∀ n, Tally.outcome (do
        let tagged ← orUnexpected value.asObject (path ++ s)
        let kind ← orUnexpected ((Fields.get tagged "kind").bind Json.asStr) (path ++ s')
        rest kind) n = (.error e, n) := by
      cases hobject : value.asObject with
      | none => exact ⟨_, not_nodeLimit_fixed hs, fun n => rfl⟩
      | some map =>
        have hkind : (Fields.get map "kind").bind Json.asStr = none := by
          refine Option.eq_none_iff_forall_ne_some.mpr fun kind hkind => htag ⟨kind, map, ?_⟩
          exact ⟨asObject_eq_some.mp hobject, bind_asStr.mp hkind⟩
        refine ⟨_, not_nodeLimit_fixed hs', fun n => ?_⟩
        rw [Tally.outcome_bind, Tally.outcome_lift]
        simp only [orUnexpected]
        rw [hkind, Tally.outcome_bind, Tally.outcome_lift]
    obtain ⟨e, he, hrest⟩ := hrest
    have hpos := value.nodes_pos
    refine ⟨.error e, 1, fun n hn => refused ?_ (hrest _), by omega, (fun _ h => by cases h),
      fun _ h => Except.error.inj h ▸ he⟩
    rw [Tally.outcome_tallyNode, if_neg (by omega)]

theorem guarded_andThen {c : Prop} [Decidable c] {e : NegotiatedError} {x : Tally β}
    (he : ¬ NodeLimit path e) (hx : Metered path w x) :
    Metered path w (do
      if c then throw e
      x) := by
  refine branch (fun _ => ?_) fun _ => hx
  exact ((thrown he).andThen fun _ => hx).mono (Nat.zero_add w).le

theorem guarded {c : Prop} [Decidable c] {s : String}
    (hs : s ∉ nodeLimits) :
    Metered path w (if c then throw (unexpected (path ++ s)) else pure () : Tally Unit) :=
  branch (fun _ => (thrown (not_nodeLimit_fixed hs)).mono (Nat.zero_le w))
    fun _ => (returned ()).mono (Nat.zero_le w)

theorem text : Metered path w (do
    let _ ← shortString value path) :=
  shortString_bind fun _ => (returned ()).mono (Nat.zero_le w)

theorem finished : Metered path w (pure () : Tally Unit) :=
  (returned ()).mono (Nat.zero_le w)

/-- The members of a record that are walked weigh less than the record. -/
theorem members {map : Fields} (hvalue : value = .object map) (keys : List String)
    (hkeys : keys.Nodup) (hall : ∀ key ∈ keys, map.get key ≠ none) :
    (keys.map fun key => (map.item key).nodes).sum + 1 ≤ value.nodes := by
  rw [hvalue, Json.nodes]
  exact Nat.succ_le_succ (Fields.weigh hkeys hall)

theorem tagged_member {map : Fields} (hvalue : value = .object map) {key : String}
    (hkey : key ≠ "kind") (hall : ∀ k ∈ ["kind", key], map.get k ≠ none) :
    (map.item key).nodes ≤ value.nodes - 2 := by
  have hweigh := members hvalue _ (by simp [hkey.symm]) hall
  have hpos := Json.nodes_pos (map.item "kind")
  simp only [List.map_cons, List.map_nil, List.sum_cons, List.sum_nil] at hweigh
  omega

theorem tagged_members {map : Fields} (hvalue : value = .object map) {key key' : String}
    (hkey : key ≠ "kind") (hkey' : key' ≠ "kind") (hkeys : key ≠ key')
    (hall : ∀ k ∈ ["kind", key, key'], map.get k ≠ none) :
    (map.item key).nodes + (map.item key').nodes ≤ value.nodes - 2 := by
  have hweigh := members hvalue _ (by simp [hkey.symm, hkey'.symm, hkeys]) hall
  have hpos := Json.nodes_pos (map.item "kind")
  simp only [List.map_cons, List.map_nil, List.sum_cons, List.sum_nil] at hweigh
  omega

/-- Walking an array costs the weights of its items. -/
theorem walked {bound : ℕ} {j : Json} {s : String} {f : Json → Tally Unit}
    (hs : s ∉ nodeLimits)
    (hf : ∀ item, Metered path item.nodes (f item)) (hbound : j.nodes ≤ bound) :
    Metered path bound (do
      let items ← orUnexpected j.asArray (path ++ s)
      items.forM f) := by
  refine orUnexpected_bind hs fun items hitems => (each fun item _ => hf item).mono ?_
  rw [← Json.nodesItems_eq]
  exact (Json.nodesItems_lt hitems).le.trans hbound

theorem literal (levels : ℕ) (value : Json) :
    Metered path value.nodes (validateItfLiteral levels value path) := by
  induction levels generalizing value with
  | zero => exact (thrown (not_nodeLimit_fixed (by simp [nodeLimits]))).mono (Nat.zero_le _)
  | succ levels ih =>
    unfold validateItfLiteral
    refine record (by decide) (by simp [nodeLimits]) (by simp [nodeLimits]) fun kind _ => ?_
    split
    · exact object_bind fun _ _ _ => shortString_bind fun _ => guarded (by simp [nodeLimits])
    · exact object_bind fun _ _ _ => guarded (by simp [nodeLimits])
    · exact object_bind fun _ _ _ => text
    · exact object_bind fun _ _ _ => finished
    · exact object_bind fun map hmap hall =>
        walked (by simp [nodeLimits]) (fun item => ih item) (tagged_member hmap (by decide) hall)
    · exact object_bind fun map hmap hall =>
        walked (by simp [nodeLimits]) (fun item => ih item) (tagged_member hmap (by decide) hall)
    · exact object_bind fun map hmap hall =>
        walked (by simp [nodeLimits]) (fun item => ih item) (tagged_member hmap (by decide) hall)
    · refine object_bind fun map hmap hall =>
        walked (by simp [nodeLimits]) (fun entry => ?_) (tagged_member hmap (by decide) hall)
      refine object_bind fun fields hfields hentry => shortString_bind fun _ => (ih _).mono ?_
      have hweigh := members hfields _ (by decide) hentry
      simp only [List.map_cons, List.map_nil, List.sum_cons, List.sum_nil] at hweigh
      omega
    · refine object_bind fun map hmap hall =>
        walked (by simp [nodeLimits]) (fun entry => ?_) (tagged_member hmap (by decide) hall)
      refine object_bind fun fields hfields hentry => ((ih _).andThen fun _ => ih _).mono ?_
      have hweigh := members hfields _ (by decide) hentry
      simp only [List.map_cons, List.map_nil, List.sum_cons, List.sum_nil] at hweigh
      omega
    · refine object_bind fun map hmap hall => shortString_bind fun _ => (ih _).mono ?_
      exact (Nat.le_add_left _ _).trans
        (tagged_members hmap (by decide) (by decide) (by decide) hall)
    · rw [String.append_assoc]
      exact (thrown (not_nodeLimit (by simp [nodeLimits]))).mono (Nat.zero_le _)

/-- Walking the labelled parts of a record or variant. -/
theorem labelled (listName name payload : String) {levels : ℕ}
    (hs : ": " ++ listName ++ " array expected" ∉ nodeLimits)
    (hlist : listName ≠ "kind") (hname : name ≠ payload)
    (ih : ∀ item, Metered path item.nodes (validateModelType levels item path)) :
    Metered path (value.nodes - 2) (do
      let tagged ← object value path ["kind", listName] ["kind", listName]
      let entries ← orUnexpected (tagged.item listName).asArray
        (path ++ ": " ++ listName ++ " array expected")
      let _ ← entries.foldlM (fun names entry => do
        let entry ← object entry path [name, payload] [name, payload]
        let label ← shortString (entry.item name) path
        if label = "" ∨ label ∈ names then
          throw (unexpected (path ++ ": duplicate or empty label"))
        validateModelType levels (entry.item payload) path
        return label :: names) ([] : List String)) := by
  refine object_bind fun map hmap hall => ?_
  have hmessage : path ++ ": " ++ listName ++ " array expected" =
      path ++ (": " ++ listName ++ " array expected") := by
    rw [String.append_assoc, String.append_assoc, String.append_assoc]
  rw [hmessage]
  refine orUnexpected_bind hs fun items hitems => ?_
  have hsum : (items.map Json.nodes).sum ≤ value.nodes - 2 := by
    rw [← Json.nodesItems_eq]
    exact (Json.nodesItems_lt hitems).le.trans (tagged_member hmap hlist hall)
  refine ((fold ([] : List String) fun entry _ names => ?_).andThen fun _ => returned ()).mono
    (by simpa using hsum)
  refine object_bind fun fields hfields hentry => shortString_bind fun label =>
    guarded_andThen (not_nodeLimit_fixed (by simp [nodeLimits])) (((ih _).andThen fun _ => returned _).mono ?_)
  have hweigh := members hfields _ (by simpa using hname) hentry
  simp only [List.map_cons, List.map_nil, List.sum_cons, List.sum_nil] at hweigh
  omega

theorem modelType (levels : ℕ) (value : Json) :
    Metered path value.nodes (validateModelType levels value path) := by
  induction levels generalizing value with
  | zero => exact (thrown (not_nodeLimit_fixed (by simp [nodeLimits]))).mono (Nat.zero_le _)
  | succ levels ih =>
    unfold validateModelType
    refine record (by decide) (by simp [nodeLimits]) (by simp [nodeLimits]) fun kind _ => ?_
    split
    · exact object_bind fun _ _ _ => finished
    · exact object_bind fun _ _ _ => finished
    · exact object_bind fun _ _ _ => finished
    · exact object_bind fun _ _ _ => finished
    · exact object_bind fun map hmap hall =>
        (ih _).mono (tagged_member hmap (by decide) hall)
    · exact object_bind fun map hmap hall =>
        (ih _).mono (tagged_member hmap (by decide) hall)
    · exact object_bind fun map hmap hall =>
        walked (by simp [nodeLimits]) (fun item => ih item) (tagged_member hmap (by decide) hall)
    · simp only [↓reduceIte]
      exact labelled "fields" "wireName" "type" (by simp [nodeLimits]) (by decide) (by decide) ih
    · simp only [String.reduceEq, ↓reduceIte]
      exact labelled "cases" "tag" "payload" (by simp [nodeLimits]) (by decide) (by decide) ih
    · exact object_bind fun map hmap hall => ((ih _).andThen fun _ => ih _).mono
        (tagged_members hmap (by decide) (by decide) (by decide) hall)
    · exact object_bind fun _ _ _ => text
    · exact (thrown (not_nodeLimit (by simp [nodeLimits]))).mono (Nat.zero_le _)

theorem selector (value : Json) : Metered path value.nodes (validatePath value path) := by
  unfold validatePath
  split
  · next kind inner =>
    split
    · exact text
    · exact text
    · exact branch (fun _ => finished) fun _ =>
        (thrown (not_nodeLimit_fixed (by simp [nodeLimits]))).mono (Nat.zero_le _)
    · exact (literal 128 inner).mono (by simp only [Json.nodes, Json.nodesFields]; omega)
    · exact (thrown (not_nodeLimit_fixed (by simp [nodeLimits]))).mono (Nat.zero_le _)
  · exact (thrown (not_nodeLimit_fixed (by simp [nodeLimits]))).mono (Nat.zero_le _)

theorem input (value : Json) : Metered path value.nodes (validateInput value path) := by
  refine object_bind fun map hmap hall => shortString_bind fun _ =>
    object_bind fun source hsource hsall => ?_
  refine guarded_andThen (not_nodeLimit_fixed (by simp [nodeLimits]))
    (orUnexpected_bind (by simp [nodeLimits]) fun segments hsegments => ?_)
  have hsegments' : Metered path (segments.map Json.nodes).sum
      (segments.forM fun segment => validatePath segment path) := each fun segment _ => selector segment
  have hpath := members hsource ["path"] (by simp) (by simp [hsall])
  have hsum := Json.boundedArray_nodes hsegments
  simp only [List.map_cons, List.map_nil, List.sum_cons, List.sum_nil] at hpath
  cases hexpected : map.present "expectedType" with
  | none =>
    have hfrom := members hmap ["from"] (by simp) (by simp [hall])
    simp only [List.map_cons, List.map_nil, List.sum_cons, List.sum_nil] at hfrom
    exact (hsegments'.andThen fun _ => returned ()).mono (by omega)
  | some expected =>
    obtain ⟨hpresent, hitem⟩ := Fields.present_eq_some hexpected
    have hboth := members hmap ["from", "expectedType"] (by simp) (by simp [hall, hpresent])
    simp only [List.map_cons, List.map_nil, List.sum_cons, List.sum_nil, hitem] at hboth
    exact (hsegments'.andThen fun _ => modelType 32 expected).mono (by omega)

/-- Walking a bounded list costs the weights of its items. -/
theorem bounded {j : Json} {bound limit : ℕ} {message : String} {f : Json → Tally Unit}
    (hmessage : ¬ NodeLimit path (unexpected message))
    (hf : ∀ item, Metered path item.nodes (f item)) (hlimit : j.nodes ≤ limit) :
    Metered path limit (do
      let items ← orUnexpected (boundedArray j bound) message
      items.forM f) := by
  refine option_bind hmessage fun items hitems => (each fun item _ => hf item).mono ?_
  exact (Json.boundedArray_nodes hitems).le.trans hlimit

theorem action (value : Json) : Metered path value.nodes (validateAction value path) := by
  refine object_bind fun map hmap hall => shortString_bind fun _ => shortString_bind fun _ =>
    orUnexpected_bind (by simp [nodeLimits]) fun aliases _ => ?_
  have haliases : Metered path 0 (aliases.forM fun item => do
      let _ ← shortString item path) :=
    (@each path _ _ (fun _ => 0) aliases fun item _ => text).mono (by simp)
  have hmember := members hmap ["inputs"] (by simp) (by simp [hall])
  simp only [List.map_cons, List.map_nil, List.sum_cons, List.sum_nil] at hmember
  refine (haliases.andThen fun _ => bounded (not_nodeLimit_fixed (by simp [nodeLimits])) input ?_).mono
    (Nat.zero_add _).le
  omega

end Metered

/-- The path in the refusals of a contract. -/
def contractPath : String := "modelInterface.contract.inline"

namespace Metered

theorem observation (value : Json) :
    Metered contractPath value.nodes (validateObservation value contractPath) := by
  refine object_bind fun map hmap hall => shortString_bind fun _ => shortString_bind fun _ => ?_
  refine guarded_andThen (not_nodeLimit_message (by simp [nodeLimits, contractPath])) ?_
  cases hexpected : map.present "expectedType" with
  | none => exact finished
  | some expected =>
    obtain ⟨hpresent, hitem⟩ := Fields.present_eq_some hexpected
    have hmember := members hmap ["expectedType"] (by simp) (by simp [hpresent])
    simp only [List.map_cons, List.map_nil, List.sum_cons, List.sum_nil, hitem] at hmember
    exact (modelType 32 expected).mono (by omega)

/-- The check of a contract weighs what the contract holds. -/
theorem contract (value : Json) :
    Metered contractPath (value.nodes - 1) (countContract value) := by
  refine object_bind fun map hmap hall => ?_
  refine guarded_andThen (not_nodeLimit_message (by simp [nodeLimits, contractPath])) (shortString_bind fun _ => ?_)
  refine object_bind fun model _ _ => shortString_bind fun _ => shortString_bind fun _ => ?_
  refine object_bind fun wire _ _ => shortString_bind fun _ => ?_
  have hparts : Metered contractPath (value.nodes - 1) (do
      let initializers ← orUnexpected (boundedArray (map.item "initializers") 32)
        "modelInterface initializers limit exceeded"
      let actions ← orUnexpected (boundedArray (map.item "actions") 256)
        "modelInterface actions limit exceeded"
      let observations ← orUnexpected (boundedArray (map.item "observations") 1024)
        "modelInterface observations limit exceeded"
      (initializers ++ actions).forM fun action => validateAction action contractPath
      observations.forM fun observation => validateObservation observation contractPath) := by
    refine option_bind (not_nodeLimit_message (by simp [nodeLimits, contractPath])) fun initializers hi =>
      option_bind (not_nodeLimit_message (by simp [nodeLimits, contractPath])) fun actions ha =>
        option_bind (not_nodeLimit_message (by simp [nodeLimits, contractPath])) fun observations ho => ?_
    refine ((each fun item _ => action item).andThen fun _ =>
      each fun item _ => observation item).mono ?_
    have hweigh := members hmap ["initializers", "actions", "observations"] (by simp)
      (by simp [hall])
    simp only [List.map_cons, List.map_nil, List.sum_cons, List.sum_nil] at hweigh
    have hi := Json.boundedArray_nodes hi
    have ha := Json.boundedArray_nodes ha
    have ho := Json.boundedArray_nodes ho
    rw [List.map_append, List.sum_append]
    omega
  refine branch (fun _ => ?_) fun _ => hparts
  exact shortString_bind fun _ => hparts

end Metered

end MirrorRust
