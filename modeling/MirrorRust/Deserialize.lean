import MirrorRust.Artifact
import MirrorRust.Itf

/-! The other decoder of model values: `Deserialize`, which reads the tree again through the generic
deserializer before it is walked. -/
namespace MirrorRust

/-! ### `Deserialize` -/

/-- `D::Error::custom`: the message of the error. `walk` returns protocol errors only. -/
def custom : Error → Error
  | .protocolError message => .json message
  | e => e

section Deserialize
variable (serde : Serde)

/-- `Deserialize for Value` on a tree in memory. -/
def deserializeValue (j : Json) : Except (Fault Error) Value :=
  match fromValue serde j with
  | none => .error (.error (.json "invalid serde"))
  | some j => (walk j).mapError (Fault.map custom)

/-- The generic deserializer keeps the integer that a number denotes. -/
def Lossless : Prop :=
  ∀ n z, IsNumberToken n.toList → (numberToBigint (serde.visited n) = .ok z ↔ numberToBigint n = .ok z)

variable {serde}

theorem deserializeValue_ok {j : Json} {v : Value} :
    deserializeValue serde j = .ok v ↔ ∃ j', fromValue serde j = some j' ∧ walk j' = .ok v := by
  unfold deserializeValue
  cases fromValue serde j with
  | none => simp
  | some j' => cases hwalk : walk j' <;> simp [Except.mapError, hwalk]

theorem fromItems_ok {items items' : List Json} :
    fromItems serde items = some items' ↔
      List.Forall₂ (fun i j => fromValue serde i = some j) items items' := by
  induction items generalizing items' with
  | nil => simp [fromItems, eq_comm]
  | cons i items ih =>
    rw [fromItems]
    cases hi : fromValue serde i with
    | none => simp [List.forall₂_cons_left_iff, hi]
    | some j =>
      cases hitems : fromItems serde items with
      | none => simp [List.forall₂_cons_left_iff, hi, ← ih, hitems]
      | some js => simp [List.forall₂_cons_left_iff, hi, ← ih, hitems, eq_comm]

theorem fromFields_ok {fields fields' : List (String × Json)} :
    fromFields serde fields = some fields' ↔
      List.Forall₂ (fun p q => q.1 = p.1 ∧ fromValue serde p.2 = some q.2) fields fields' := by
  induction fields generalizing fields' with
  | nil => simp [fromFields, eq_comm]
  | cons p fields ih =>
    obtain ⟨key, i⟩ := p
    rw [fromFields]
    cases hi : fromValue serde i with
    | none => simp [List.forall₂_cons_left_iff, hi]
    | some j =>
      cases hfields : fromFields serde fields with
      | none => simp [List.forall₂_cons_left_iff, hi, ← ih, hfields]
      | some js =>
        simp only [List.forall₂_cons_left_iff, hi, ← ih, hfields, Option.some.injEq]
        constructor
        · intro h
          cases h
          exact ⟨(key, j), js, ⟨rfl, rfl⟩, rfl, rfl⟩
        · rintro ⟨⟨key', j'⟩, js', ⟨hkey, hj⟩, hjs, rfl⟩
          have hkey : key' = key := hkey
          have hj : j = j' := hj
          subst hkey hj hjs
          rfl

/-- An object is read as a number when it is one under the token, and member by member when it does
not start with the token. -/
theorem fromValue_object {fields : List (String × Json)} {j : Json} :
    fromValue serde (.object fields) = some j ↔
      (∃ n, fields = [(NUMBER_TOKEN, .string n)] ∧ isNumber n.toList = true ∧
          j = .number (serde.parsed n)) ∨
        fields.head?.map Prod.fst ≠ some NUMBER_TOKEN ∧
          ∃ fields', fromFields serde fields = some fields' ∧ j = .object fields' := by
  cases fields with
  | nil =>
    rw [fromValue, Option.some.injEq]
    constructor
    · rintro rfl
      exact Or.inr ⟨(fun h => by cases h), [], rfl, rfl⟩
    · rintro (⟨n, h, -⟩ | ⟨-, fields', hfields, rfl⟩)
      · cases h
      · cases hfields
        rfl
  | cons p fields =>
    obtain ⟨key, item⟩ := p
    by_cases hkey : key = NUMBER_TOKEN
    · subst hkey
      simp only [List.head?_cons, Option.map_some, ne_eq, not_true_eq_false, false_and, or_false,
        List.cons.injEq, Prod.mk.injEq, true_and]
      rw [fromValue.eq_def]
      simp only [if_true]
      constructor
      · intro h
        split at h
        · rename_i n
          split_ifs at h with hnumber
          cases h
          exact ⟨n, ⟨rfl, rfl⟩, hnumber, rfl⟩
        · cases h
      · rintro ⟨n, ⟨rfl, rfl⟩, hnumber, rfl⟩
        exact if_pos hnumber
    · rw [fromValue_fields hkey, Option.map_eq_some_iff]
      constructor
      · rintro ⟨fields', hfields, rfl⟩
        exact Or.inr ⟨by simpa using hkey, fields', hfields, rfl⟩
      · rintro (⟨n, h, -⟩ | ⟨-, fields', hfields, rfl⟩)
        · cases h
          exact absurd rfl hkey
        · exact ⟨fields', hfields, rfl⟩

theorem fromValue_string {j : Json} {s : String} :
    fromValue serde j = some (.string s) ↔ j = .string s := by
  cases j with
  | null | bool | number | string => simp [fromValue]
  | array items => simp [fromValue]
  | object fields => simp [fromValue_object]

theorem fromValue_array {j : Json} {items' : List Json} :
    fromValue serde j = some (.array items') ↔
      ∃ items, j = .array items ∧ fromItems serde items = some items' := by
  cases j with
  | null | bool | number | string => simp [fromValue]
  | array items => simp [fromValue]
  | object fields => simp [fromValue_object]

theorem isMarker_fromFields {fields fields' : List (String × Json)}
    (h : fromFields serde fields = some fields') : IsMarker fields ↔ IsMarker fields' := by
  have hall := fromFields_ok.mp h
  rcases fields with _ | ⟨⟨k, i⟩, _ | ⟨⟨l, w⟩, _ | ⟨r, fields⟩⟩⟩
  · cases hall
    rfl
  · obtain ⟨⟨k', j⟩, _, ⟨hk, hj⟩, hrest, rfl⟩ := List.forall₂_cons_left_iff.mp hall
    cases hrest
    have hk : k' = k := hk
    have hj : fromValue serde i = some j := hj
    subst hk
    cases i with
    | null | bool | number | string =>
      cases hj
      rfl
    | array items =>
      obtain ⟨items', -, rfl⟩ := Option.map_eq_some_iff.mp hj
      rfl
    | object fields =>
      rcases fromValue_object.mp hj with ⟨n, -, -, rfl⟩ | ⟨-, fields', -, rfl⟩
      · rfl
      · rfl
  · obtain ⟨⟨k', j⟩, _, ⟨hk, -⟩, hrest, rfl⟩ := List.forall₂_cons_left_iff.mp hall
    obtain ⟨⟨l', u⟩, _, ⟨hl, -⟩, hrest', rfl⟩ := List.forall₂_cons_left_iff.mp hrest
    cases hrest'
    have hk : k' = k := hk
    have hl : l' = l := hl
    subst hk hl
    simp [IsMarker]
  · obtain ⟨p, _, -, hrest, rfl⟩ := List.forall₂_cons_left_iff.mp hall
    obtain ⟨q, _, -, hrest', rfl⟩ := List.forall₂_cons_left_iff.mp hrest
    obtain ⟨r', rest, -, -, rfl⟩ := List.forall₂_cons_left_iff.mp hrest'
    simp [IsMarker]

/-- An array of pairs that is decoded, is decoded to the sequence of its pairs. -/
theorem walkItems_pairs {items : List Json} {vs : List Value}
    (hpairs : ∀ j ∈ items, ∃ k w, j = .array [k, w]) (h : walkItems items = .ok vs) :
    ∃ ps, walkEntries items = .ok ps ∧ vs = ps.map fun p => .seq [p.1, p.2] := by
  simp only [walkEntries_ok]
  have hall := walkItems_ok.mp h
  clear h
  induction hall with
  | nil => exact ⟨[], .nil, rfl⟩
  | @cons j v items vs hj hrest ih =>
    obtain ⟨hpair, hothers⟩ := List.forall_mem_cons.mp hpairs
    obtain ⟨k, w, rfl⟩ := hpair
    obtain ⟨ps, hps, rfl⟩ := ih hothers
    obtain ⟨us, hus, rfl⟩ := walk_array.mp hj
    obtain ⟨x, _, hx, htail, rfl⟩ := List.forall₂_cons_left_iff.mp (walkItems_ok.mp hus)
    obtain ⟨y, _, hy, hnil, rfl⟩ := List.forall₂_cons_left_iff.mp htail
    cases hnil
    exact ⟨(x, y) :: ps, .cons hj hps, rfl⟩

theorem kept_items {items : List Json} : Json.KeptItems serde items ↔ ∀ j ∈ items, j.Kept serde := by
  induction items with
  | nil => simp [Json.KeptItems]
  | cons j items ih => rw [Json.KeptItems, ih, List.forall_mem_cons]

theorem kept_fields {fields : List (String × Json)} :
    Json.KeptFields serde fields ↔ ∀ p ∈ fields, p.2.Kept serde := by
  induction fields with
  | nil => simp [Json.KeptFields]
  | cons p fields ih => rw [Json.KeptFields, ih, List.forall_mem_cons]

/-- No object, at any depth, starts with the number token. -/
abbrev Json.TokenFree (j : Json) : Prop := j.Kept .plain

theorem tokens_items {items : List Json} (h : Json.TokensItems items) : ∀ j ∈ items, j.Tokens :=
  (Json.tokensItems_iff items).mp h

theorem tokens_fields {fields : List (String × Json)} (h : Json.TokensFields fields) :
    ∀ p ∈ fields, p.2.Tokens :=
  (Json.tokensFields_iff fields).mp h

theorem tokenFree_array {items : List Json} :
    (Json.array items).TokenFree ↔ ∀ j ∈ items, j.TokenFree := kept_items

theorem tokenFree_object {fields : List (String × Json)} : (Json.object fields).TokenFree ↔
    fields.head?.map Prod.fst ≠ some NUMBER_TOKEN ∧ ∀ p ∈ fields, p.2.TokenFree :=
  and_congr_right fun _ => kept_fields

theorem pair_of_fromValue {j e : Json} {x y : Value} (hread : fromValue serde j = some e)
    (h : walk e = .ok (.seq [x, y])) : ∃ k w, j = .array [k, w] := by
  obtain ⟨items', rfl, hvs⟩ := walk_seq.mp h
  obtain ⟨items, rfl, hitems⟩ := fromValue_array.mp hread
  have hlength := (walkItems_ok.mp hvs).length_eq
  rw [← (fromItems_ok.mp hitems).length_eq] at hlength
  obtain ⟨k, w, rfl⟩ := List.length_eq_two.mp hlength
  exact ⟨k, w, rfl⟩

/-- What the deserialized tree is decoded to differs from what the tree itself is decoded to exactly
when an object starts with the number token. -/
theorem walk_of_fromValue (hnumber : Lossless serde) {j j' : Json} {v' : Value}
    (hj : j.Tokens) (hs : j.Ordered) (hread : fromValue serde j = some j')
    (h : walk j' = .ok v') : ∃ v, walk j = .ok v ∧ (v = v' ↔ j.TokenFree) := by
  induction j generalizing j' v' with
  | null | bool | string =>
    cases hread
    exact ⟨v', h, by simp [Json.TokenFree, Json.Kept]⟩
  | number n =>
    cases hread
    obtain ⟨z, hz, rfl⟩ := walk_number.mp h
    have hn := (hnumber n z hj).mp hz
    exact ⟨.int z, walk_number.mpr ⟨z, hn, rfl⟩, iff_of_true rfl rfl⟩
  | array items ih =>
    obtain ⟨items', hitems, rfl⟩ := Option.map_eq_some_iff.mp hread
    obtain ⟨vs', hvs, rfl⟩ := walk_array.mp h
    obtain ⟨vs, hwalk, hsame⟩ := exists_images
      (forall₂_comp (fromItems_ok.mp hitems) (walkItems_ok.mp hvs))
      (fun i hi v hv => ih i hi (tokens_items hj i hi) (orderedItems_mem hs i hi)
        hv.choose_spec.1 hv.choose_spec.2)
    refine ⟨.seq vs, walk_array.mpr ⟨vs, walkItems_ok.mpr hwalk, rfl⟩, ?_⟩
    rw [Value.seq.injEq, hsame, tokenFree_array]
  | object fields ih =>
    have htokens := tokens_fields hj
    have hordered := orderedFields_mem hs.2
    rcases fromValue_object.mp hread with ⟨n, rfl, -, rfl⟩ | ⟨hhead, fields', hfields, rfl⟩
    · obtain ⟨z, -, rfl⟩ := walk_number.mp h
      have hrecord : walk (.object [(NUMBER_TOKEN, .string n)]) =
          .ok (.record [(NUMBER_TOKEN, .str n)]) := by
        refine walk_object.mpr (Or.inr ⟨?_, [(NUMBER_TOKEN, .str n)], ?_, rfl⟩)
        · simp [IsMarker, NUMBER_TOKEN]
        · exact walkFields_ok.mpr (.cons ⟨rfl, rfl⟩ .nil)
      refine ⟨_, hrecord, iff_of_false (fun h => by cases h) ?_⟩
      rw [tokenFree_object]
      exact fun hfree => hfree.1 rfl
    have hall := fromFields_ok.mp hfields
    rcases walk_object.mp h with hmarker | ⟨hrecord, fs', hfs', rfl⟩
    · have hone : ∀ {key : String} {item : Json}, fields' = [(key, item)] →
          ∃ i, fields = [(key, i)] ∧ fromValue serde i = some item := by
        rintro key item rfl
        obtain ⟨⟨k, i⟩, _, ⟨hk, hi⟩, hnil, rfl⟩ := List.forall₂_cons_right_iff.mp hall
        cases hnil
        have hk : key = k := hk
        exact ⟨i, by rw [hk], hi⟩
      -- strings are read as they are, and an array is read item by item
      have hstring : ∀ {key s : String}, fields' = [(key, .string s)] →
          ∃ v, walk (.object fields) = .ok v ∧ (v = v' ↔ (Json.object fields).TokenFree) := by
        rintro key s rfl
        obtain ⟨i, rfl, hi⟩ := hone rfl
        rw [fromValue_string] at hi
        subst hi
        refine ⟨v', h, iff_of_true rfl (tokenFree_object.mpr ⟨hhead, ?_⟩)⟩
        simp [Json.TokenFree, Json.Kept]
      have harray : ∀ {key : String} {items' : List Json} {vs' : List Value},
          fields' = [(key, .array items')] → walkItems items' = .ok vs' →
          ∃ items vs, fields = [(key, .array items)] ∧ fromItems serde items = some items' ∧
            walkItems items = .ok vs ∧ (vs = vs' ↔ (Json.object fields).TokenFree) := by
        rintro key items' vs' rfl hvs
        obtain ⟨i, rfl, hi⟩ := hone rfl
        obtain ⟨items, rfl, hitems⟩ := fromValue_array.mp hi
        have hmem : ∀ p ∈ [(key, Json.array items)], p = (key, .array items) := by simp
        obtain ⟨v, hv, hsame⟩ := ih _ (List.mem_singleton_self _)
          (htokens _ (List.mem_singleton_self _)) (hordered _ (List.mem_singleton_self _)) hi
          (walk_array.mpr ⟨vs', hvs, rfl⟩)
        obtain ⟨vs, hwalk, rfl⟩ := walk_array.mp hv
        refine ⟨items, vs, rfl, hitems, hwalk, ?_⟩
        rw [Value.seq.injEq] at hsame
        rw [hsame, tokenFree_object, List.forall_mem_singleton]
        exact (and_iff_right hhead).symm
      cases hmarker with
      | absent => exact hstring rfl
      | bigint => exact hstring rfl
      | unserializable => exact hstring rfl
      | tuple walked =>
        obtain ⟨items, vs, rfl, -, hvs, hsame⟩ := harray rfl walked
        exact ⟨.tuple vs, (Marker.tuple hvs).walk, by rw [Value.tuple.injEq, hsame]⟩
      | set walked =>
        obtain ⟨items, vs, rfl, -, hvs, hsame⟩ := harray rfl walked
        exact ⟨.set vs, (Marker.set hvs).walk, by rw [Value.set.injEq, hsame]⟩
      | @map items' ps' walked =>
        have hpairs : walkItems items' = .ok (ps'.map fun p => .seq [p.1, p.2]) :=
          walkItems_ok.mpr (List.forall₂_map_right_iff.mpr (walkEntries_ok.mp walked))
        obtain ⟨items, vs, rfl, hitems, hvs, hsame⟩ := harray rfl hpairs
        have hitem : ∀ j ∈ items, ∃ k w, j = .array [k, w] := by
          intro j hj
          obtain ⟨p, -, e, he, hp⟩ := exists_image_of_mem
            (forall₂_comp (fromItems_ok.mp hitems) (walkEntries_ok.mp walked)) hj
          exact pair_of_fromValue he hp
        obtain ⟨ps, hps, rfl⟩ := walkItems_pairs hitem hvs
        refine ⟨.map ps, (Marker.map hps).walk, ?_⟩
        have hinj : Function.Injective fun p : Value × Value => Value.seq [p.1, p.2] := by
          intro p q hpq
          simpa [Prod.ext_iff] using hpq
        rw [← hsame, Value.map.injEq, (List.map_injective_iff.mpr hinj).eq_iff]
      | @variant tag w' u' walked =>
        obtain ⟨⟨k, i⟩, _, ⟨hk, hi⟩, htail, rfl⟩ := List.forall₂_cons_right_iff.mp hall
        obtain ⟨⟨l, w⟩, _, ⟨hl, hw⟩, hnil, rfl⟩ := List.forall₂_cons_right_iff.mp htail
        cases hnil
        have hk : "tag" = k := hk
        have hl : "value" = l := hl
        have htag : i = .string tag := fromValue_string.mp hi
        subst hk hl htag
        obtain ⟨u, hu, hsame⟩ := ih ("value", w) (by simp) (htokens ("value", w) (by simp))
          (hordered ("value", w) (by simp)) hw walked
        refine ⟨.variant tag u, (Marker.variant hu).walk, ?_⟩
        rw [Value.variant.injEq, hsame, tokenFree_object]
        have htag : "tag" ≠ NUMBER_TOKEN := by decide
        simp [htag, Json.TokenFree, Json.Kept]
    · have hmember : ∀ p ∈ fields, ∀ q', (∃ q : String × Json,
            (q.1 = p.1 ∧ fromValue serde p.2 = some q.2) ∧ q'.1 = q.1 ∧ walk q.2 = .ok q'.2) →
          ∃ q : String × Value, (q.1 = p.1 ∧ walk p.2 = .ok q.2) ∧ (q = q' ↔ p.2.TokenFree) := by
        rintro p hp q' ⟨q, ⟨hkey, hq⟩, hkey', hq'⟩
        obtain ⟨v, hv, hsame⟩ := ih p hp (htokens p hp) (hordered p hp) hq hq'
        refine ⟨(p.1, v), ⟨rfl, hv⟩, ?_⟩
        rw [← hsame, Prod.ext_iff]
        simp [hkey', hkey]
      obtain ⟨fs, hwalk, hsame⟩ := exists_images (forall₂_comp hall (walkFields_ok.mp hfs')) hmember
      have hfs := walkFields_ok.mpr hwalk
      refine ⟨.record (Assoc.ofList fs), walk_object.mpr (Or.inr ⟨?_, fs, hfs, rfl⟩), ?_⟩
      · rwa [isMarker_fromFields hfields]
      · have hsorted := walkFields_sorted hfs hs.1
        have hsorted' := walkFields_sorted hfs' (Assoc.sorted_of_keys hall (fun _ _ h => h.1) hs.1)
        rw [Assoc.ofList_of_sorted hsorted, Assoc.ofList_of_sorted hsorted', Value.record.injEq,
          hsame, tokenFree_object]
        exact (and_iff_right hhead).symm

theorem fromValue_of_walk (hnumber : Lossless serde) {j : Json} {v : Value} (hj : j.Tokens)
    (hfree : j.TokenFree) (h : walk j = .ok v) :
    ∃ j', fromValue serde j = some j' ∧ walk j' = .ok v := by
  induction j generalizing v with
  | null | bool | string => exact ⟨_, rfl, h⟩
  | number n =>
    obtain ⟨z, hz, rfl⟩ := walk_number.mp h
    exact ⟨.number (serde.visited n), rfl, walk_number.mpr ⟨z, (hnumber n z hj).mpr hz, rfl⟩⟩
  | array items ih =>
    obtain ⟨vs, hvs, rfl⟩ := walk_array.mp h
    obtain ⟨items', hread, hwalk⟩ := exists_middle (walkItems_ok.mp hvs) fun i hi v hv =>
      ih i hi (tokens_items hj i hi) (tokenFree_array.mp hfree i hi) hv
    refine ⟨.array items', ?_, walk_array.mpr ⟨vs, walkItems_ok.mpr hwalk, rfl⟩⟩
    rw [fromValue, fromItems_ok.mpr hread]
    rfl
  | object fields ih =>
    obtain ⟨hhead, hmembers⟩ := tokenFree_object.mp hfree
    have htokens := tokens_fields hj
    have hobject : ∀ {fields'}, fromFields serde fields = some fields' →
        fromValue serde (.object fields) = some (.object fields') :=
      fun hfields => fromValue_object.mpr (Or.inr ⟨hhead, _, hfields, rfl⟩)
    rcases walk_object.mp h with hmarker | ⟨hrecord, fs, hfs, rfl⟩
    · have hstring : ∀ {key s : String}, fields = [(key, .string s)] →
          fromValue serde (.object fields) = some (.object fields) := by
        rintro key s rfl
        exact hobject (fromFields_ok.mpr (.cons ⟨rfl, rfl⟩ .nil))
      have harray : ∀ {key : String} {items : List Json} {vs : List Value},
          fields = [(key, .array items)] → walkItems items = .ok vs →
          ∃ items', fromValue serde (.object fields) = some (.object [(key, .array items')]) ∧
            walkItems items' = .ok vs := by
        rintro key items vs rfl hvs
        obtain ⟨j', hread, hwalk⟩ := ih _ (List.mem_singleton_self _)
          (htokens _ (List.mem_singleton_self _)) (hmembers _ (List.mem_singleton_self _))
          (walk_array.mpr ⟨vs, hvs, rfl⟩)
        obtain ⟨items', rfl, hitems⟩ := walk_seq.mp hwalk
        exact ⟨items', hobject (fromFields_ok.mpr (.cons ⟨rfl, hread⟩ .nil)), hitems⟩
      cases hmarker with
      | absent => exact ⟨_, hstring rfl, h⟩
      | bigint => exact ⟨_, hstring rfl, h⟩
      | unserializable => exact ⟨_, hstring rfl, h⟩
      | tuple walked =>
        obtain ⟨items', hread, hitems⟩ := harray rfl walked
        exact ⟨_, hread, (Marker.tuple hitems).walk⟩
      | set walked =>
        obtain ⟨items', hread, hitems⟩ := harray rfl walked
        exact ⟨_, hread, (Marker.set hitems).walk⟩
      | @map items ps walked =>
        have hpairs : walkItems items = .ok (ps.map fun p => .seq [p.1, p.2]) :=
          walkItems_ok.mpr (List.forall₂_map_right_iff.mpr (walkEntries_ok.mp walked))
        obtain ⟨items', hread, hitems⟩ := harray rfl hpairs
        have hentries := List.forall₂_map_right_iff.mp (walkItems_ok.mp hitems)
        exact ⟨_, hread, (Marker.map (walkEntries_ok.mpr hentries)).walk⟩
      | @variant tag w u walked =>
        obtain ⟨w', hread, hwalk⟩ := ih ("value", w) (by simp) (htokens ("value", w) (by simp))
          (hmembers ("value", w) (by simp)) walked
        have hfields : fromFields serde [("tag", .string tag), ("value", w)] =
            some [("tag", .string tag), ("value", w')] :=
          fromFields_ok.mpr (.cons ⟨rfl, rfl⟩ (.cons ⟨rfl, hread⟩ .nil))
        exact ⟨_, hobject hfields, (Marker.variant hwalk).walk⟩
    · have hmember : ∀ p ∈ fields, ∀ q : String × Value, (q.1 = p.1 ∧ walk p.2 = .ok q.2) →
          ∃ p' : String × Json, (p'.1 = p.1 ∧ fromValue serde p.2 = some p'.2) ∧
            q.1 = p'.1 ∧ walk p'.2 = .ok q.2 := by
        rintro p hp q ⟨hkey, hq⟩
        obtain ⟨j', hread, hwalk⟩ := ih p hp (htokens p hp) (hmembers p hp) hq
        exact ⟨(p.1, j'), ⟨rfl, hread⟩, hkey, hwalk⟩
      obtain ⟨fields', hread, hwalk⟩ := exists_middle (walkFields_ok.mp hfs) hmember
      have hfields := fromFields_ok.mpr hread
      exact ⟨_, hobject hfields, walk_object.mpr (Or.inr
        ⟨by rwa [← isMarker_fromFields hfields], fs, walkFields_ok.mpr hwalk, rfl⟩)⟩

/-! ### The trees that are decoded -/

/-- ITF: every number is an integer, and every marker has its payload. -/
inductive Json.Itf : Json → Prop
  | null : Itf .null
  | bool {b} : Itf (.bool b)
  | string {s} : Itf (.string s)
  | number {n z} : numberToBigint n = .ok z → Itf (.number n)
  | array {items} : (∀ j ∈ items, Itf j) → Itf (.array items)
  | bigint {raw} : raw = "" ∨ (∃ n, parseBigInt raw = some n) →
      Itf (.object [("#bigint", .string raw)])
  | unserializable {raw} : Itf (.object [("#unserializable", .string raw)])
  | items {key items} : key = "#tup" ∨ key = "#set" → (∀ j ∈ items, Itf j) →
      Itf (.object [(key, .array items)])
  | map {entries : List (Json × Json)} : (∀ p ∈ entries, Itf p.1) → (∀ p ∈ entries, Itf p.2) →
      Itf (.object [("#map", .array (entries.map fun p => .array [p.1, p.2]))])
  | variant {tag j} : Itf j → Itf (.object [("tag", .string tag), ("value", j)])
  | record {fields} : ¬ IsMarker fields → (∀ p ∈ fields, Itf p.2) → Itf (.object fields)

theorem Json.Itf.of_array {items : List Json} (h : (Json.array items).Itf) : ∀ j ∈ items, j.Itf := by
  cases h
  assumption

theorem entries_of_walk {items : List Json} {ps : List (Value × Value)}
    (h : walkEntries items = .ok ps) :
    ∃ entries : List (Json × Json), items = entries.map fun p => .array [p.1, p.2] := by
  have hall := walkEntries_ok.mp h
  clear h
  induction hall with
  | nil => exact ⟨[], rfl⟩
  | @cons j p items ps hj _ ih =>
    obtain ⟨entries, rfl⟩ := ih
    obtain ⟨us, rfl, hus⟩ := walk_seq.mp hj
    have hlength := (walkItems_ok.mp hus).length_eq
    obtain ⟨k, w, rfl⟩ := List.length_eq_two.mp hlength
    exact ⟨(k, w) :: entries, rfl⟩

theorem itf_of_walk {j : Json} {v : Value} (h : walk j = .ok v) : j.Itf := by
  induction j generalizing v with
  | null => exact .null
  | bool b => exact .bool
  | string s => exact .string
  | number n =>
    obtain ⟨z, hz, -⟩ := walk_number.mp h
    exact .number hz
  | array items ih =>
    obtain ⟨vs, hvs, rfl⟩ := walk_array.mp h
    refine .array fun i hi => ?_
    obtain ⟨v, -, hv⟩ := exists_image_of_mem (walkItems_ok.mp hvs) hi
    exact ih i hi hv
  | object fields ih =>
    rcases walk_object.mp h with hmarker | ⟨hrecord, fs, hfs, rfl⟩
    · cases hmarker with
      | absent => exact .bigint (Or.inl rfl)
      | bigint parsed => exact .bigint (Or.inr ⟨_, parsed⟩)
      | unserializable => exact .unserializable
      | tuple walked =>
        have hitems := ih _ (List.mem_singleton_self _) (walk_array.mpr ⟨_, walked, rfl⟩)
        exact .items (Or.inl rfl) hitems.of_array
      | set walked =>
        have hitems := ih _ (List.mem_singleton_self _) (walk_array.mpr ⟨_, walked, rfl⟩)
        exact .items (Or.inr rfl) hitems.of_array
      | @map items ps walked =>
        have hpairs : walkItems items = .ok (ps.map fun p => .seq [p.1, p.2]) :=
          walkItems_ok.mpr (List.forall₂_map_right_iff.mpr (walkEntries_ok.mp walked))
        have hitems := ih _ (List.mem_singleton_self _) (walk_array.mpr ⟨_, hpairs, rfl⟩)
        obtain ⟨entries, rfl⟩ := entries_of_walk walked
        have hpair : ∀ p ∈ entries, p.1.Itf ∧ p.2.Itf := fun p hp => by
          have hmembers := (hitems.of_array _ (List.mem_map_of_mem hp)).of_array
          exact ⟨hmembers _ (by simp), hmembers _ (by simp)⟩
        exact .map (fun p hp => (hpair p hp).1) fun p hp => (hpair p hp).2
      | variant walked => exact .variant (ih ("value", _) (by simp) walked)
    · refine .record hrecord fun p hp => ?_
      obtain ⟨q, -, -, hq⟩ := exists_image_of_mem (walkFields_ok.mp hfs) hp
      exact ih p hp hq

theorem walk_of_itf {j : Json} (h : j.Itf) : ∃ v, walk j = .ok v := by
  induction h with
  | null | bool | string => exact ⟨_, rfl⟩
  | number hz => exact ⟨_, walk_number.mpr ⟨_, hz, rfl⟩⟩
  | array _ ih =>
    obtain ⟨vs, hvs⟩ := exists_forall₂ ih
    exact ⟨_, walk_array.mpr ⟨vs, walkItems_ok.mpr hvs, rfl⟩⟩
  | bigint hraw =>
    rcases hraw with rfl | ⟨n, hn⟩
    · exact ⟨_, Marker.absent.walk⟩
    · exact ⟨_, (Marker.bigint hn).walk⟩
  | unserializable => exact ⟨_, Marker.unserializable.walk⟩
  | items hkey _ ih =>
    obtain ⟨vs, hvs⟩ := exists_forall₂ ih
    rcases hkey with rfl | rfl
    · exact ⟨_, (Marker.tuple (walkItems_ok.mpr hvs)).walk⟩
    · exact ⟨_, (Marker.set (walkItems_ok.mpr hvs)).walk⟩
  | @map entries _ _ ihk ihw =>
    have hentry : ∀ p ∈ entries, ∃ q : Value × Value,
        walk (.array [p.1, p.2]) = .ok (.seq [q.1, q.2]) := by
      intro p hp
      obtain ⟨k, hk⟩ := ihk p hp
      obtain ⟨w, hw⟩ := ihw p hp
      exact ⟨(k, w), walk_array.mpr ⟨_, walkItems_ok.mpr (.cons hk (.cons hw .nil)), rfl⟩⟩
    obtain ⟨ps, hps⟩ := exists_forall₂ hentry
    exact ⟨_, (Marker.map (walkEntries_ok.mpr (List.forall₂_map_left_iff.mpr hps))).walk⟩
  | variant _ ih =>
    obtain ⟨v, hv⟩ := ih
    exact ⟨_, (Marker.variant hv).walk⟩
  | @record fields hrecord _ ih =>
    have hmember : ∀ p ∈ fields, ∃ q : String × Value, q.1 = p.1 ∧ walk p.2 = .ok q.2 := by
      intro p hp
      obtain ⟨v, hv⟩ := ih p hp
      exact ⟨(p.1, v), rfl, hv⟩
    obtain ⟨fs, hfs⟩ := exists_forall₂ hmember
    exact ⟨_, walk_object.mpr (Or.inr ⟨hrecord, fs, walkFields_ok.mpr hfs, rfl⟩)⟩

/-- `walk` accepts ITF and nothing else. -/
theorem walk_accepts {j : Json} : (∃ v, walk j = .ok v) ↔ j.Itf :=
  ⟨fun ⟨_, h⟩ => itf_of_walk h, walk_of_itf⟩

/-! ### The decoders agree -/

/-- The two decoders agree on a tree exactly when no object in it starts with the number token, or
when it is no ITF, which both reject. -/
theorem deserializeValue_agrees_iff (hnumber : Lossless serde) {j : Json} (hj : j.IsValue) :
    (∀ v, deserializeValue serde j = .ok v ↔ walk j = .ok v) ↔ j.TokenFree ∨ ¬ j.Itf := by
  constructor
  · intro h
    by_cases hitf : j.Itf
    · left
      obtain ⟨v, hv⟩ := walk_of_itf hitf
      obtain ⟨j', hread, hwalk⟩ := deserializeValue_ok.mp ((h v).mpr hv)
      obtain ⟨u, hu, hsame⟩ := walk_of_fromValue hnumber hj.tokens hj.ordered hread hwalk
      rw [hv] at hu
      exact hsame.mp (Except.ok.inj hu).symm
    · exact Or.inr hitf
  · intro h v
    rw [deserializeValue_ok]
    constructor
    · rintro ⟨j', hread, hwalk⟩
      obtain ⟨u, hu, hsame⟩ := walk_of_fromValue hnumber hj.tokens hj.ordered hread hwalk
      rcases h with hfree | hitf
      · rw [hu, hsame.mpr hfree]
      · exact absurd (itf_of_walk hu) hitf
    · intro hv
      rcases h with hfree | hitf
      · exact fromValue_of_walk hnumber hj.tokens hfree hv
      · exact absurd (itf_of_walk hv) hitf

end Deserialize

/-- A record with the token as a key. -/
def tokenRecord : Json := .object [("x", .object [(NUMBER_TOKEN, .string "1")])]

def numberRecord : Json := .object [("x", .number "1")]

theorem deserializeValue_agrees_numberRecord :
    (∀ v, deserializeValue .plain numberRecord = .ok v ↔ walk numberRecord = .ok v) ↔
      numberRecord.TokenFree ∨ ¬ numberRecord.Itf := by
  have hdigits : Digits ['1'] := ⟨List.cons_ne_nil _ _, by simp⟩
  have htoken : IsNumberToken "1".toList :=
    ⟨[], ['1'], [], [], rfl, Or.inl rfl, Or.inr ⟨hdigits, by simp⟩, Or.inl rfl, Or.inl rfl⟩
  exact deserializeValue_agrees_iff (fun _ _ _ => Iff.rfl)
    ⟨⟨htoken, trivial⟩, List.pairwise_singleton _ _, trivial, trivial⟩

/-- The record under the token becomes a number, so two trees have one value. -/
theorem deserializeValue_tokenRecord :
    walk tokenRecord = .ok (.record [("x", .record [(NUMBER_TOKEN, .str "1")])]) ∧
      deserializeValue .plain tokenRecord = .ok (.record [("x", .int 1)]) ∧
      deserializeValue .plain numberRecord = .ok (.record [("x", .int 1)]) ∧
      ¬ ∀ v, deserializeValue .plain tokenRecord = .ok v ↔ walk tokenRecord = .ok v := by
  have hread : deserializeValue .plain tokenRecord = .ok (.record [("x", .int 1)]) := rfl
  have hwalk : walk tokenRecord = .ok (.record [("x", .record [(NUMBER_TOKEN, .str "1")])]) := rfl
  refine ⟨hwalk, hread, rfl, fun h => ?_⟩
  have hsame := (h _).mp hread
  rw [hwalk] at hsame
  cases hsame

end MirrorRust
