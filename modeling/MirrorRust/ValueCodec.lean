import MirrorRust.Value

/-! Round trip of the ITF codec. Decoding inverts encoding exactly on the values
without a record that looks like a wire marker. -/
namespace MirrorRust

/-! ### Decimal integers -/

theorem toDigits_digits (n : ℕ) :
    Nat.toDigits 10 n ≠ [] ∧ ∀ c ∈ Nat.toDigits 10 n, c.isDigit = true :=
  ⟨Nat.toDigits_ne_nil, fun _ hc => Nat.isDigit_of_mem_toDigits (by decide) (by decide) hc⟩

theorem isDigit_ne {c d : Char} (hc : c.isDigit = true) (hd : d.isDigit = false) : c ≠ d := by
  rintro rfl
  simp [hc] at hd

/-- A word of digits is read as the number it denotes, with the sign in front of it. -/
theorem parseBigInt_digits {ds : List Char} (hne : ds ≠ []) (hall : ∀ c ∈ ds, c.isDigit = true) :
    parseBigInt (String.ofList ds) = some (Nat.ofDigitChars 10 ds 0 : ℤ) ∧
      parseBigInt (String.ofList ('-' :: ds)) = some (-(Nat.ofDigitChars 10 ds 0 : ℤ)) := by
  obtain ⟨c, cs, rfl⟩ := List.exists_cons_of_ne_nil hne
  have hc : c.isDigit = true := hall c (by simp)
  have hfilter : (c :: cs).filter (· != '_') = c :: cs :=
    List.filter_eq_self.mpr fun d hd => by simpa using isDigit_ne (hall d hd) (by decide)
  have hword : (c :: cs).all (fun c => c.isDigit || c == '_') = true :=
    List.all_eq_true.mpr fun d hd => by simp [hall d hd]
  have hplus : c ≠ '+' := isDigit_ne hc (by decide)
  have hminus : c ≠ '-' := isDigit_ne hc (by decide)
  have hunder : c ≠ '_' := isDigit_ne hc (by decide)
  constructor <;> simp only [parseBigInt, String.toList_ofList] <;> split <;> simp_all <;>
    rw [List.filter_eq_self.mpr (by simpa using hfilter)]

theorem parseBigInt_toString (n : ℤ) : parseBigInt (toString n) = some n := by
  cases n with
  | ofNat m =>
    obtain ⟨hne, hall⟩ := toDigits_digits m
    have h := (parseBigInt_digits hne hall).1
    rw [← Nat.toString_eq_ofList_toDigits, Nat.ofDigitChars_ten_toDigits] at h
    exact h
  | negSucc m =>
    obtain ⟨hne, hall⟩ := toDigits_digits (m + 1)
    have h := (parseBigInt_digits hne hall).2
    rw [Nat.ofDigitChars_ten_toDigits] at h
    have htext : toString (Int.negSucc m) = String.ofList ('-' :: Nat.toDigits 10 (m + 1)) := by
      rw [show toString (Int.negSucc m) = "-" ++ toString (m + 1) from rfl,
        Nat.toString_eq_ofList_toDigits]
      simp
    rw [htext, h]
    rfl

namespace Value

/-- `w` is `v` or a part of `v` at some depth. -/
inductive Occurs (w : Value) : Value → Prop
  | refl : Occurs w w
  | set {items v} : v ∈ items → Occurs w v → Occurs w (.set items)
  | seq {items v} : v ∈ items → Occurs w v → Occurs w (.seq items)
  | tuple {items v} : v ∈ items → Occurs w v → Occurs w (.tuple items)
  | mapKey {entries p} : p ∈ entries → Occurs w p.1 → Occurs w (.map entries)
  | mapValue {entries p} : p ∈ entries → Occurs w p.2 → Occurs w (.map entries)
  | record {fields p} : p ∈ fields → Occurs w p.2 → Occurs w (.record fields)
  | variant {tag v} : Occurs w v → Occurs w (.variant tag v)

/-- Every record inside `v` has the property. -/
def Everywhere (P : State → Prop) (v : Value) : Prop :=
  ∀ fields, Occurs (.record fields) v → P fields

/-- Every record inside the value lists its fields in key order, as a `BTreeMap` does. -/
def Ordered (v : Value) : Prop := v.Everywhere Assoc.Sorted

/-- A record whose wire form is the shape of a marker. -/
def Collides : State → Prop
  | [(key, .str _)] => key = "#bigint" ∨ key = "#unserializable"
  | [(key, .seq _)] => key = "#tup" ∨ key = "#set" ∨ key = "#map"
  | [(k, _), (l, _)] => k = "tag" ∧ l = "value"
  | _ => False

/-- Some record inside the value collides with a marker. -/
def HasCollision (v : Value) : Prop := ∃ fields, Occurs (.record fields) v ∧ Collides fields

theorem not_hasCollision {v : Value} : ¬ v.HasCollision ↔ v.Everywhere (fun f => ¬ Collides f) := by
  simp only [HasCollision, Everywhere, not_exists, not_and]

section Everywhere
variable {P : State → Prop}

@[simp] theorem everywhere_int (n : ℤ) : (int n).Everywhere P := by rintro _ ⟨⟩
@[simp] theorem everywhere_bool (b : Bool) : (bool b).Everywhere P := by rintro _ ⟨⟩
@[simp] theorem everywhere_str (s : String) : (str s).Everywhere P := by rintro _ ⟨⟩
@[simp] theorem everywhere_null : null.Everywhere P := by rintro _ ⟨⟩
@[simp] theorem everywhere_unserializable (s : String) : (unserializable s).Everywhere P := by
  rintro _ ⟨⟩

@[simp] theorem everywhere_set {items : List Value} :
    (set items).Everywhere P ↔ ∀ v ∈ items, v.Everywhere P :=
  ⟨fun h _ hv f hf => h f (.set hv hf), fun h f hf => by cases hf with | set hv hf => exact h _ hv f hf⟩

@[simp] theorem everywhere_seq {items : List Value} :
    (seq items).Everywhere P ↔ ∀ v ∈ items, v.Everywhere P :=
  ⟨fun h _ hv f hf => h f (.seq hv hf), fun h f hf => by cases hf with | seq hv hf => exact h _ hv f hf⟩

@[simp] theorem everywhere_tuple {items : List Value} :
    (tuple items).Everywhere P ↔ ∀ v ∈ items, v.Everywhere P :=
  ⟨fun h _ hv f hf => h f (.tuple hv hf), fun h f hf => by cases hf with | tuple hv hf => exact h _ hv f hf⟩

@[simp] theorem everywhere_map {entries : List (Value × Value)} :
    (map entries).Everywhere P ↔ ∀ p ∈ entries, p.1.Everywhere P ∧ p.2.Everywhere P := by
  refine ⟨fun h p hp => ⟨fun f hf => h f (.mapKey hp hf), fun f hf => h f (.mapValue hp hf)⟩, ?_⟩
  intro h f hf
  cases hf with
  | mapKey hp hf => exact (h _ hp).1 f hf
  | mapValue hp hf => exact (h _ hp).2 f hf

@[simp] theorem everywhere_record {fields : State} :
    (record fields).Everywhere P ↔ P fields ∧ ∀ p ∈ fields, p.2.Everywhere P := by
  refine ⟨fun h => ⟨h fields .refl, fun p hp f hf => h f (.record hp hf)⟩, ?_⟩
  rintro ⟨h, hs⟩ f hf
  cases hf with
  | refl => exact h
  | record hp hf => exact hs _ hp f hf

@[simp] theorem everywhere_variant {tag : String} {v : Value} :
    (variant tag v).Everywhere P ↔ v.Everywhere P :=
  ⟨fun h f hf => h f (.variant hf), fun h f hf => by cases hf with | variant hf => exact h f hf⟩

end Everywhere
end Value

/-! ### The traversals of the codec are elementwise -/

@[simp] theorem encodeItems_eq (items : List Value) : encodeItems items = items.map encodeValue := by
  induction items with
  | nil => rfl
  | cons v items ih => rw [encodeItems, ih, List.map_cons]

@[simp] theorem encodeEntries_eq (entries : List (Value × Value)) :
    encodeEntries entries =
      entries.map fun p => .array [encodeValue p.1, encodeValue p.2] := by
  induction entries with
  | nil => rfl
  | cons p entries ih => rw [encodeEntries, ih, List.map_cons]

@[simp] theorem encodeFields_eq (fields : State) :
    encodeFields fields = fields.map fun p => (p.1, encodeValue p.2) := by
  induction fields with
  | nil => rfl
  | cons p fields ih => rw [encodeFields, ih, List.map_cons]

@[simp] theorem walkItems_eq (items : List Json) : walkItems items = items.mapM walk := by
  induction items with
  | nil => rfl
  | cons j items ih => rw [walkItems, ih, List.mapM_cons]; rfl

/-- One pair of a `#map` array. -/
def walkEntry : Json → Except (Fault Error) (Value × Value)
  | .array [k, v] => do
    let key ← walk k
    .ok (key, ← walk v)
  | .array _ => .error (invalidValue "#map entry must have exactly two elements")
  | _ => .error (invalidValue "#map entry must be a two-element array")

theorem walkEntries_cons (j : Json) (entries : List Json) :
    walkEntries (j :: entries) =
      (walkEntry j).bind fun p => (walkEntries entries).map (p :: ·) := by
  cases j with
  | array items =>
    match items with
    | [k, v] =>
      rw [walkEntries, walkEntry]
      cases walk k <;> cases walk v <;> rfl
    | [] | [_] | _ :: _ :: _ :: _ => rfl
  | _ => rfl

theorem walkEntries_eq (entries : List Json) : walkEntries entries = entries.mapM walkEntry := by
  induction entries with
  | nil => rfl
  | cons j entries ih => rw [walkEntries_cons, ih, List.mapM_cons]; rfl

/-- One member of an object that is decoded as a record. -/
def walkField (p : String × Json) : Except (Fault Error) (String × Value) :=
  (walk p.2).map fun v => (p.1, v)

theorem walkFields_eq (fields : List (String × Json)) :
    walkFields fields = fields.mapM walkField := by
  induction fields with
  | nil => rfl
  | cons p fields ih =>
    rw [walkFields, ih, List.mapM_cons, walkField]
    cases walk p.2 <;> rfl

/-! ### Markers -/

/-- The members of an object that is decoded as a marker instead of a record. -/
def IsMarker : List (String × Json) → Prop
  | [(key, .string _)] => key = "#bigint" ∨ key = "#unserializable"
  | [(key, .array _)] => key = "#tup" ∨ key = "#set" ∨ key = "#map"
  | [(k, _), (l, _)] => k = "tag" ∧ l = "value"
  | _ => False

theorem walk_record {fields : List (String × Json)} (h : ¬ IsMarker fields) :
    walk (.object fields) = (walkFields fields).map fun fs => .record (Assoc.ofList fs) := by
  match fields with
  | [] => rfl
  | [(key, .string raw)] =>
    simp only [IsMarker, not_or] at h
    rw [walk, if_neg h.1, if_neg h.2]
    rfl
  | [(key, .array items)] =>
    simp only [IsMarker, not_or] at h
    rw [walk, if_neg h.1, if_neg h.2.1, if_neg h.2.2, walkFields, walkFields, walk]
    cases walkItems items <;> rfl
  | [(_, .null)] | [(_, .bool _)] => rfl
  | [(_, .number n)] =>
    rw [walk]
    cases walkFields [(_, .number n)] <;> rfl
    all_goals simp
  | [(_, .object fs)] =>
    rw [walk]
    cases walkFields [(_, .object fs)] <;> rfl
    all_goals simp
  | [(k, t), (l, w)] =>
    have hne : ¬ (k = "tag" ∧ l = "value") := by simpa [IsMarker] using h
    have hpair : walk (.object [(k, t), (l, w)]) = (walk t).bind fun v => (walk w).map fun u =>
        .record (Assoc.ofList [(k, v), (l, u)]) := by
      cases t <;> simp only [walk, if_neg hne] <;> rfl
    rw [hpair, walkFields, walkFields, walkFields]
    cases walk t <;> cases walk w <;> rfl
  | a :: b :: c :: fs =>
    rw [walk]
    · cases walkFields (a :: b :: c :: fs) <;> rfl
    all_goals simp

/-- A marker never decodes to a record. -/
theorem walk_marker_ne_record {fields : List (String × Json)} (h : IsMarker fields) (r : State) :
    walk (.object fields) ≠ .ok (.record r) := by
  unfold IsMarker at h
  split at h
  · rename_i key raw
    rcases h with rfl | rfl
    · rw [walk, if_pos rfl]
      split_ifs
      · simp
      · cases parseBigInt raw <;> simp
    · simp [walk]
  · rename_i key items
    rcases h with rfl | rfl | rfl
    · rw [walk, if_pos rfl]
      cases walkItems items <;> simp [bind, Except.bind]
    · rw [walk, if_neg (by decide), if_pos rfl]
      cases walkItems items <;> simp [bind, Except.bind]
    · rw [walk, if_neg (by decide), if_neg (by decide), if_pos rfl]
      cases walkEntries items <;> simp [bind, Except.bind]
  · rename_i k t l w
    cases t <;> simp only [walk, if_pos h] <;> try simp
    cases walk w <;> simp [bind, Except.bind]
  · exact h.elim

/-- The object written for a record is a marker exactly when the record collides. -/
theorem isMarker_encode (fields : State) :
    IsMarker (fields.map fun p => (p.1, encodeValue p.2)) ↔ Value.Collides fields := by
  match fields with
  | [] | _ :: _ :: _ :: _ => simp [IsMarker, Value.Collides]
  | [(_, v)] => cases v <;> simp [encodeValue, Json.obj, IsMarker, Value.Collides]
  | [(k, v), (l, w)] => simp [IsMarker, Value.Collides]

/-! ### The round trip -/

theorem map_eq_ok {ε α β : Type*} {f : α → β} (hf : f.Injective) {r : Except ε α} {a : α} :
    r.map f = .ok (f a) ↔ r = .ok a := by
  cases r with
  | error e => simp [Except.map]
  | ok b => simp [Except.map, hf.eq_iff]

theorem walkEntry_encode {p : Value × Value} :
    walkEntry (.array [encodeValue p.1, encodeValue p.2]) = .ok p ↔
      walk (encodeValue p.1) = .ok p.1 ∧ walk (encodeValue p.2) = .ok p.2 := by
  rw [walkEntry]
  cases walk (encodeValue p.1) <;> cases walk (encodeValue p.2) <;>
    simp [bind, Except.bind, Prod.ext_iff]

theorem walkField_encode {p : String × Value} :
    walkField (p.1, encodeValue p.2) = .ok p ↔ walk (encodeValue p.2) = .ok p.2 := by
  rw [walkField]
  cases walk (encodeValue p.2) <;> simp [Except.map, Prod.ext_iff]

/-- The fields of an ordered record are decoded to themselves exactly when each value is. -/
theorem walkFields_encode {fields : State} (hs : Assoc.Sorted fields) :
    (walkFields (fields.map fun p => (p.1, encodeValue p.2))).map
        (fun fs => Value.record (Assoc.ofList fs)) = .ok (.record fields) ↔
      ∀ p ∈ fields, walk (encodeValue p.2) = .ok p.2 := by
  rw [walkFields_eq]
  simp only [← walkField_encode]
  rw [← mapM_map_eq_ok]
  constructor
  · intro h
    cases hw : (fields.map fun p => (p.1, encodeValue p.2)).mapM walkField with
    | error e => simp [hw, Except.map] at h
    | ok fs =>
      -- the decoded keys are the encoded ones, so no field was merged or moved
      have hkeys : fs.map Prod.fst = fields.map Prod.fst := by
        have hall := List.forall₂_map_left_iff.mp (mapM_eq_ok.mp hw)
        have hfst : List.Forall₂ (fun p q : String × Value => q.1 = p.1) fields fs := by
          refine hall.imp fun p q hq => ?_
          rw [walkField] at hq
          cases hv : walk (encodeValue p.2) <;> simp [hv, Except.map] at hq
          rw [← hq]
        clear hw h hall
        induction hfst with
        | nil => rfl
        | cons h _ ih => simp [h, ih (List.Pairwise.of_cons hs)]
      have hsort : Assoc.Sorted fs := by rw [Assoc.Sorted, hkeys]; exact hs
      simpa [hw, Except.map, Assoc.ofList_of_sorted hsort] using h
  · intro h
    rw [h]
    simp [Except.map, Assoc.ofList_of_sorted hs]

theorem walk_encodeValue_ok {v : Value} (hv : v.Everywhere Assoc.Sorted) :
    walk (encodeValue v) = .ok v ↔ v.Everywhere fun fields => ¬ Value.Collides fields := by
  induction v with
  | int n =>
    have hne : toString n ≠ "" := by
      intro h
      have hp : parseBigInt "" = some n := h ▸ parseBigInt_toString n
      simp [show parseBigInt "" = none from rfl] at hp
    rw [encodeValue, Json.obj_singleton, walk, if_pos rfl, if_neg hne, parseBigInt_toString]
    simp
  | bool b => simp [encodeValue, walk]
  | str s => simp [encodeValue, walk]
  | null => simp [encodeValue, walk]
  | unserializable s => simp [encodeValue, walk]
  | set items ih =>
    rw [Value.everywhere_set] at hv ⊢
    have hwalk : walk (encodeValue (.set items)) =
        ((items.map encodeValue).mapM walk).map Value.set := by
      rw [encodeValue, Json.obj_singleton, walk, encodeItems_eq, walkItems_eq]
      rfl
    rw [hwalk, map_eq_ok fun _ _ => Value.set.inj, mapM_map_eq_ok]
    exact forall₂_congr fun w hw => ih w hw (hv w hw)
  | seq items ih =>
    rw [Value.everywhere_seq] at hv ⊢
    have hwalk : walk (encodeValue (.seq items)) =
        ((items.map encodeValue).mapM walk).map Value.seq := by
      rw [encodeValue, walk, encodeItems_eq, walkItems_eq]
      rfl
    rw [hwalk, map_eq_ok fun _ _ => Value.seq.inj, mapM_map_eq_ok]
    exact forall₂_congr fun w hw => ih w hw (hv w hw)
  | tuple items ih =>
    rw [Value.everywhere_tuple] at hv ⊢
    have hwalk : walk (encodeValue (.tuple items)) =
        ((items.map encodeValue).mapM walk).map Value.tuple := by
      rw [encodeValue, Json.obj_singleton, walk, encodeItems_eq, walkItems_eq]
      rfl
    rw [hwalk, map_eq_ok fun _ _ => Value.tuple.inj, mapM_map_eq_ok]
    exact forall₂_congr fun w hw => ih w hw (hv w hw)
  | map entries ih =>
    rw [Value.everywhere_map] at hv ⊢
    have hwalk : walk (encodeValue (.map entries)) =
        ((entries.map fun p => .array [encodeValue p.1, encodeValue p.2]).mapM walkEntry).map
          Value.map := by
      rw [encodeValue, Json.obj_singleton, walk, encodeEntries_eq, walkEntries_eq]
      rfl
    rw [hwalk, map_eq_ok fun _ _ => Value.map.inj, mapM_map_eq_ok]
    simp only [walkEntry_encode]
    exact forall₂_congr fun p hp => and_congr ((ih p hp).1 (hv p hp).1) ((ih p hp).2 (hv p hp).2)
  | record fields ih =>
    obtain ⟨hs, hf⟩ := Value.everywhere_record.mp hv
    rw [Value.everywhere_record, encodeValue, encodeFields_eq, Json.obj,
      Assoc.ofList_of_sorted ((Assoc.sorted_map_snd encodeValue).mpr hs)]
    by_cases hc : Value.Collides fields
    · simp [hc, walk_marker_ne_record ((isMarker_encode fields).mpr hc)]
    · rw [walk_record (mt (isMarker_encode fields).mp hc), walkFields_encode hs]
      simp only [hc, not_false_eq_true, true_and]
      exact forall₂_congr fun p hp => ih p hp (hf p hp)
  | variant tag w ih =>
    rw [Value.everywhere_variant] at hv ⊢
    have hwalk : walk (encodeValue (.variant tag w)) =
        (walk (encodeValue w)).map (Value.variant tag) := by
      rw [encodeValue, Json.obj_tag_value, walk, if_pos ⟨rfl, rfl⟩]
      rfl
    rw [hwalk, map_eq_ok fun _ _ h => (Value.variant.inj h).2, ih hv]

/-- Decoding inverts encoding exactly on the values without a colliding record. -/
theorem walk_encodeValue_iff (v : Value) (hv : v.Ordered) :
    walk (encodeValue v) = .ok v ↔ ¬ v.HasCollision := by
  rw [Value.not_hasCollision]
  exact walk_encodeValue_ok hv

/-- A marker key with another payload type stays a record. -/
theorem walk_encodeValue_near_miss :
    walk (encodeValue (.set [.record [("#tup", .int 1)]])) =
      .ok (.set [.record [("#tup", .int 1)]]) :=
  (walk_encodeValue_iff (.set [.record [("#tup", .int 1)]])
    (by simp [Value.Ordered, Assoc.Sorted])).mpr
    (Value.not_hasCollision.mpr (by simp [Value.Collides]))

end MirrorRust
