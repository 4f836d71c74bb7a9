import MirrorRust.JsonSpelling
import MirrorRust.ValueCodec

/-! What `walk` accepts, and that a decoded value is decoded again from its own encoding. -/
namespace MirrorRust

/-! ### What `walk` accepts -/

/-- An object that is decoded as a marker, and what it is decoded to. -/
inductive Marker : List (String × Json) → Value → Prop
  | absent : Marker [("#bigint", .string "")] .null
  | bigint {raw n} (parsed : parseBigInt raw = some n) : Marker [("#bigint", .string raw)] (.int n)
  | unserializable {raw} : Marker [("#unserializable", .string raw)] (.unserializable raw)
  | tuple {items vs} (walked : walkItems items = .ok vs) :
      Marker [("#tup", .array items)] (.tuple vs)
  | set {items vs} (walked : walkItems items = .ok vs) : Marker [("#set", .array items)] (.set vs)
  | map {items ps} (walked : walkEntries items = .ok ps) :
      Marker [("#map", .array items)] (.map ps)
  | variant {tag j v} (walked : walk j = .ok v) :
      Marker [("tag", .string tag), ("value", j)] (.variant tag v)

theorem parseBigInt_empty : parseBigInt "" = none := rfl

theorem Marker.walk {fields : List (String × Json)} {v : Value} (h : Marker fields v) :
    walk (.object fields) = .ok v := by
  cases h with
  | absent => rfl
  | @bigint raw n parsed =>
    have hne : raw ≠ "" := by
      rintro rfl
      rw [parseBigInt_empty] at parsed
      cases parsed
    rw [MirrorRust.walk, if_pos rfl, if_neg hne, parsed]
  | unserializable => rw [MirrorRust.walk, if_neg (by decide), if_pos rfl]
  | tuple walked =>
    rw [MirrorRust.walk, if_pos rfl, walked]
    rfl
  | set walked =>
    rw [MirrorRust.walk, if_neg (by decide), if_pos rfl, walked]
    rfl
  | map walked =>
    rw [MirrorRust.walk, if_neg (by decide), if_neg (by decide), if_pos rfl, walked]
    rfl
  | variant walked =>
    rw [MirrorRust.walk, if_pos ⟨rfl, rfl⟩, walked]
    rfl

theorem Marker.isMarker {fields : List (String × Json)} {v : Value} (h : Marker fields v) :
    IsMarker fields := by
  cases h <;> simp [IsMarker]

theorem marker_of_walk {fields : List (String × Json)} (h : IsMarker fields) {v : Value}
    (hwalk : walk (.object fields) = .ok v) : Marker fields v := by
  unfold IsMarker at h
  split at h
  · rename_i key raw
    rcases h with rfl | rfl
    · rw [walk, if_pos rfl] at hwalk
      split_ifs at hwalk with hempty
      · cases hwalk
        rw [hempty]
        exact .absent
      · cases hparse : parseBigInt raw with
        | none => simp [hparse] at hwalk
        | some n =>
          rw [hparse] at hwalk
          cases hwalk
          exact .bigint hparse
    · rw [walk, if_neg (by decide), if_pos rfl] at hwalk
      cases hwalk
      exact .unserializable
  · rename_i key items
    rcases h with rfl | rfl | rfl
    · rw [walk, if_pos rfl] at hwalk
      obtain ⟨vs, hvs, hv⟩ := bind_ok_iff.mp hwalk
      cases hv
      exact .tuple hvs
    · rw [walk, if_neg (by decide), if_pos rfl] at hwalk
      obtain ⟨vs, hvs, hv⟩ := bind_ok_iff.mp hwalk
      cases hv
      exact .set hvs
    · rw [walk, if_neg (by decide), if_neg (by decide), if_pos rfl] at hwalk
      obtain ⟨ps, hps, hv⟩ := bind_ok_iff.mp hwalk
      cases hv
      exact .map hps
  · rename_i k t l w
    obtain ⟨rfl, rfl⟩ := h
    cases t with
    | string tag =>
      rw [walk, if_pos ⟨rfl, rfl⟩] at hwalk
      obtain ⟨u, hu, hv⟩ := bind_ok_iff.mp hwalk
      cases hv
      exact .variant hu
    | _ =>
      rw [walk, if_pos ⟨rfl, rfl⟩] at hwalk
      · cases hwalk
      all_goals simp
  · exact h.elim

/-- An object is a marker, or a record of its members. -/
theorem walk_object {fields : List (String × Json)} {v : Value} :
    walk (.object fields) = .ok v ↔ Marker fields v ∨
      ¬ IsMarker fields ∧ ∃ fs, walkFields fields = .ok fs ∧ v = .record (Assoc.ofList fs) := by
  by_cases hmarker : IsMarker fields
  · constructor
    · intro h
      exact Or.inl (marker_of_walk hmarker h)
    · rintro (h | ⟨hnot, -⟩)
      · exact h.walk
      · exact absurd hmarker hnot
  · rw [walk_record hmarker]
    constructor
    · intro h
      cases hfields : walkFields fields with
      | error e => simp [hfields, Except.map] at h
      | ok fs =>
        rw [hfields] at h
        cases h
        exact Or.inr ⟨hmarker, fs, rfl, rfl⟩
    · rintro (h | ⟨-, fs, hfields, rfl⟩)
      · exact absurd h.isMarker hmarker
      · rw [hfields]
        rfl

theorem walk_array {items : List Json} {v : Value} :
    walk (.array items) = .ok v ↔ ∃ vs, walkItems items = .ok vs ∧ v = .seq vs := by
  rw [walk]
  refine bind_ok_iff.trans (exists_congr fun vs => and_congr_right fun _ => ?_)
  rw [Except.ok.injEq, eq_comm]

theorem walk_number {n : String} {v : Value} :
    walk (.number n) = .ok v ↔ ∃ z, numberToBigint n = .ok z ∧ v = .int z := by
  rw [walk]
  refine bind_ok_iff.trans (exists_congr fun z => and_congr_right fun _ => ?_)
  rw [Except.ok.injEq, eq_comm]

theorem walk_str {j : Json} {s : String} : walk j = .ok (.str s) ↔ j = .string s := by
  cases j with
  | null => simp [walk]
  | bool b => simp [walk]
  | string t => simp [walk]
  | number n => simp [walk_number]
  | array items => simp [walk_array]
  | object fields =>
    rw [walk_object]
    constructor
    · rintro (h | ⟨-, fs, -, h⟩)
      · cases h
      · cases h
    · intro h
      cases h

theorem walk_seq {j : Json} {vs : List Value} :
    walk j = .ok (.seq vs) ↔ ∃ items, j = .array items ∧ walkItems items = .ok vs := by
  cases j with
  | null => simp [walk]
  | bool b => simp [walk]
  | string t => simp [walk]
  | number n => simp [walk_number]
  | array items => simp [walk_array, eq_comm]
  | object fields =>
    rw [walk_object]
    constructor
    · rintro (h | ⟨-, fs, -, h⟩)
      · cases h
      · cases h
    · rintro ⟨items, h, -⟩
      cases h

/-- The members that a record is decoded from: its keys, and a value for each. -/
theorem walkFields_ok {fields : List (String × Json)} {fs : State} :
    walkFields fields = .ok fs ↔
      List.Forall₂ (fun p q => q.1 = p.1 ∧ walk p.2 = .ok q.2) fields fs := by
  have hfield : ∀ (p : String × Json) (q : String × Value),
      walkField p = .ok q ↔ q.1 = p.1 ∧ walk p.2 = .ok q.2 := by
    intro p q
    rw [walkField]
    cases walk p.2 with
    | error e => simp [Except.map]
    | ok v => simp [Except.map, Prod.ext_iff, eq_comm]
  rw [walkFields_eq, mapM_eq_ok]
  simp only [hfield]

theorem walkItems_ok {items : List Json} {vs : List Value} :
    walkItems items = .ok vs ↔ List.Forall₂ (fun j v => walk j = .ok v) items vs := by
  rw [walkItems_eq, mapM_eq_ok]

theorem walkEntries_ok {items : List Json} {ps : List (Value × Value)} :
    walkEntries items = .ok ps ↔
      List.Forall₂ (fun j p => walk j = .ok (.seq [p.1, p.2])) items ps := by
  have hentry : ∀ (j : Json) (p : Value × Value),
      walkEntry j = .ok p ↔ walk j = .ok (.seq [p.1, p.2]) := by
    intro j p
    rw [walk_seq]
    constructor
    · intro h
      match j with
      | .array [k, v] =>
        obtain ⟨key, hkey, h⟩ := bind_ok_iff.mp h
        obtain ⟨value, hvalue, h⟩ := bind_ok_iff.mp h
        cases h
        exact ⟨_, rfl, walkItems_ok.mpr (.cons hkey (.cons hvalue .nil))⟩
      | .null | .bool _ | .number _ | .string _ | .object _ => simp [walkEntry] at h
      | .array [] | .array [_] | .array (_ :: _ :: _ :: _) => simp [walkEntry] at h
    · rintro ⟨items, rfl, h⟩
      obtain hall := walkItems_ok.mp h
      cases hall with
      | cons hkey hall =>
        cases hall with
        | cons hvalue hall =>
          cases hall
          rw [walkEntry, hkey, hvalue]
          rfl
  rw [walkEntries_eq, mapM_eq_ok]
  simp only [hentry]

theorem walkFields_sorted {fields : List (String × Json)} {fs : State}
    (h : walkFields fields = .ok fs) (hs : Assoc.Sorted fields) : Assoc.Sorted fs :=
  Assoc.sorted_of_keys (walkFields_ok.mp h) (fun _ _ h => h.1) hs

/-! ### What is decoded can be reported back -/

/-- The fields of a record that its wire form gives back. -/
structure State.Reportable (fields : State) : Prop where
  sorted : Assoc.Sorted fields
  clean : ¬ Value.Collides fields

theorem isMarker_of_collides {fields : List (String × Json)} {fs : State}
    (h : walkFields fields = .ok fs) (hcollides : Value.Collides fs) : IsMarker fields := by
  have hall := walkFields_ok.mp h
  unfold Value.Collides at hcollides
  split at hcollides
  · rename_i key s
    obtain ⟨⟨name, j⟩, rest, ⟨hname, hj⟩, hrest, rfl⟩ := List.forall₂_cons_right_iff.mp hall
    cases hrest
    have hkey : key = name := hname
    have hstring : j = .string s := walk_str.mp hj
    subst hkey hstring
    exact hcollides
  · rename_i key vs
    obtain ⟨⟨name, j⟩, rest, ⟨hname, hj⟩, hrest, rfl⟩ := List.forall₂_cons_right_iff.mp hall
    cases hrest
    obtain ⟨items, hitems, -⟩ := walk_seq.mp hj
    have hkey : key = name := hname
    have hitems : j = .array items := hitems
    subst hkey hitems
    exact hcollides
  · rename_i k u l w
    obtain ⟨⟨name, j⟩, rest, ⟨hname, -⟩, hrest, rfl⟩ := List.forall₂_cons_right_iff.mp hall
    obtain ⟨⟨name', j'⟩, rest', ⟨hname', -⟩, hrest', rfl⟩ := List.forall₂_cons_right_iff.mp hrest
    cases hrest'
    have hk : k = name := hname
    have hl : l = name' := hname'
    subst hk hl
    simpa [IsMarker] using hcollides
  · exact hcollides.elim

theorem orderedItems_mem {items : List Json} (h : Json.OrderedItems items) :
    ∀ j ∈ items, j.Ordered := by
  induction items with
  | nil => simp
  | cons j items ih => exact List.forall_mem_cons.mpr ⟨h.1, ih h.2⟩

theorem orderedFields_mem {fields : List (String × Json)} (h : Json.OrderedFields fields) :
    ∀ p ∈ fields, p.2.Ordered := by
  induction fields with
  | nil => simp
  | cons p fields ih => exact List.forall_mem_cons.mpr ⟨h.1, ih h.2⟩

/-- Every record that is decoded, at any depth, can be reported back. -/
theorem walk_reportable {j : Json} {v : Value} (hj : j.Ordered) (h : walk j = .ok v) :
    v.Everywhere State.Reportable := by
  induction j generalizing v with
  | null =>
    cases h
    exact Value.everywhere_null
  | bool b =>
    cases h
    exact Value.everywhere_bool b
  | string s =>
    cases h
    exact Value.everywhere_str s
  | number n =>
    obtain ⟨z, -, rfl⟩ := walk_number.mp h
    exact Value.everywhere_int z
  | array items ih =>
    obtain ⟨vs, hvs, rfl⟩ := walk_array.mp h
    rw [Value.everywhere_seq]
    intro v hv
    obtain ⟨j, hj', hwalk⟩ := exists_of_mem_image (walkItems_ok.mp hvs) hv
    exact ih j hj' (orderedItems_mem hj j hj') hwalk
  | object fields ih =>
    have hmembers := orderedFields_mem hj.2
    rcases walk_object.mp h with hmarker | ⟨hrecord, fs, hfs, rfl⟩
    · cases hmarker with
      | absent => exact Value.everywhere_null
      | bigint => exact Value.everywhere_int _
      | unserializable => exact Value.everywhere_unserializable _
      | @tuple items vs walked =>
        have hseq := ih _ (List.mem_singleton_self _) (hmembers _ (List.mem_singleton_self _))
          (walk_array.mpr ⟨vs, walked, rfl⟩)
        rw [Value.everywhere_seq] at hseq
        exact Value.everywhere_tuple.mpr hseq
      | @set items vs walked =>
        have hseq := ih _ (List.mem_singleton_self _) (hmembers _ (List.mem_singleton_self _))
          (walk_array.mpr ⟨vs, walked, rfl⟩)
        rw [Value.everywhere_seq] at hseq
        exact Value.everywhere_set.mpr hseq
      | @map items ps walked =>
        -- the array itself is decoded to the sequence of its pairs
        have hpairs : walkItems items = .ok (ps.map fun p => .seq [p.1, p.2]) :=
          walkItems_ok.mpr (List.forall₂_map_right_iff.mpr (walkEntries_ok.mp walked))
        have hseq := ih _ (List.mem_singleton_self _) (hmembers _ (List.mem_singleton_self _))
          (walk_array.mpr ⟨_, hpairs, rfl⟩)
        rw [Value.everywhere_map]
        intro p hp
        have hpair := Value.everywhere_seq.mp hseq _ (List.mem_map_of_mem hp)
        rw [Value.everywhere_seq] at hpair
        exact ⟨hpair _ (by simp), hpair _ (by simp)⟩
      | variant walked =>
        rw [Value.everywhere_variant]
        exact ih ("value", _) (by simp) (hmembers ("value", _) (by simp)) walked
    · have hsorted := walkFields_sorted hfs hj.1
      rw [Assoc.ofList_of_sorted hsorted, Value.everywhere_record]
      refine ⟨⟨hsorted, fun hcollides => hrecord (isMarker_of_collides hfs hcollides)⟩, ?_⟩
      intro q hq
      obtain ⟨p, hp, -, hwalk⟩ := exists_of_mem_image (walkFields_ok.mp hfs) hq
      exact ih p hp (hmembers p hp) hwalk

/-- A value that was decoded is decoded again from its own encoding. -/
theorem walk_echo {j : Json} (hj : j.Ordered) {v : Value} (h : walk j = .ok v) :
    walk (encodeValue v) = .ok v := by
  have hreportable := walk_reportable hj h
  have hordered : v.Ordered := fun fields hoccurs => (hreportable fields hoccurs).sorted
  exact (walk_encodeValue_ok hordered).mpr fun fields hoccurs => (hreportable fields hoccurs).clean

/-- A near miss: the marker key holds no array. -/
theorem walk_echo_near_miss :
    walk (encodeValue (.seq [.record [("#set", .int 10)], .null])) =
      .ok (.seq [.record [("#set", .int 10)], .null]) :=
  walk_echo (j := .array [.object [("#set", .number "1e1")], .object [("#bigint", .string "")]])
    (by simp [Json.Ordered, Json.OrderedItems, Json.OrderedFields, Assoc.Sorted]) rfl

end MirrorRust
