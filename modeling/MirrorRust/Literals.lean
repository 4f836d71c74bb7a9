import MirrorRust.Tally

/-! The literals of a contract: the validator accepts the encodings of finite values and nothing else. -/
namespace MirrorRust

/-! ### Canonical decimals -/

theorem digitChar_value {c : Char} (hc : c.isDigit = true) :
    c.toNat - '0'.toNat < 10 ∧ Nat.digitChar (c.toNat - '0'.toNat) = c := by
  obtain ⟨hlow, hhigh⟩ := Char.isDigit_iff_toNat.mp hc
  have hnine : '9'.toNat = '0'.toNat + 9 := rfl
  have hzero : '0'.toNat = 48 := rfl
  have hlt : c.toNat - '0'.toNat < 10 := by omega
  refine ⟨hlt, Char.toNat_inj.mp ?_⟩
  rw [Nat.toNat_digitChar_of_lt_ten hlt]
  omega

/-- A word of digits that does not start with zero is the decimal of its value. -/
theorem toDigits_ofDigitChars {ds : List Char} (hdigits : ∀ c ∈ ds, c.isDigit = true)
    (hne : ds ≠ []) (hhead : ds.head? ≠ some '0') :
    0 < Nat.ofDigitChars 10 ds 0 ∧ Nat.toDigits 10 (Nat.ofDigitChars 10 ds 0) = ds := by
  induction ds using List.reverseRecOn with
  | nil => exact absurd rfl hne
  | append_singleton ds c ih =>
    obtain ⟨hds, hc⟩ := List.forall_mem_append.mp hdigits
    obtain ⟨hlt, hchar⟩ := digitChar_value (hc c (List.mem_singleton_self c))
    have hlast : Nat.ofDigitChars 10 (ds ++ [c]) 0 =
        10 * Nat.ofDigitChars 10 ds 0 + (c.toNat - '0'.toNat) := by
      rw [Nat.ofDigitChars_append, Nat.ofDigitChars_cons, Nat.ofDigitChars_nil]
    rw [hlast]
    by_cases hnil : ds = []
    · subst hnil
      have hzero : c.toNat - '0'.toNat ≠ 0 := by
        intro hzero
        rw [hzero] at hchar
        exact hhead (by rw [← hchar]; rfl)
      rw [Nat.ofDigitChars_nil, Nat.mul_zero, Nat.zero_add, Nat.toDigits_of_lt_base hlt, hchar]
      exact ⟨by omega, rfl⟩
    · rw [List.head?_append_of_ne_nil _ hnil] at hhead
      obtain ⟨hpos, hdigits'⟩ := ih hds hnil hhead
      refine ⟨by omega, ?_⟩
      rw [← Nat.toDigits_append_toDigits (by decide) hpos hlt, hdigits',
        Nat.toDigits_of_lt_base hlt, hchar]

theorem toDigits_head {m : ℕ} (h : 0 < m) : (Nat.toDigits 10 m).head? ≠ some '0' := by
  induction m using Nat.strong_induction_on with
  | _ m ih =>
    by_cases hlt : m < 10
    · rw [Nat.toDigits_of_lt_base hlt, List.head?_singleton]
      intro hzero
      have := Nat.digitChar_eq_zero.mp (Option.some.inj hzero)
      omega
    · rw [Nat.toDigits_of_base_le (by decide) (not_lt.mp hlt),
        List.head?_append_of_ne_nil _ Nat.toDigits_ne_nil]
      exact ih (m / 10) (by omega) (by omega)

/-- The integer parts are the decimals of the natural numbers. -/
theorem intPart_iff {ds : List Char} : IntPart ds ↔ ∃ m : ℕ, Nat.toDigits 10 m = ds := by
  constructor
  · rintro (rfl | ⟨⟨hne, hdigits⟩, hhead⟩)
    · exact ⟨0, Nat.toDigits_zero 10⟩
    · exact ⟨_, (toDigits_ofDigitChars hdigits hne hhead).2⟩
  · rintro ⟨m, rfl⟩
    by_cases hzero : m = 0
    · exact Or.inl (hzero ▸ Nat.toDigits_zero 10)
    · exact Or.inr ⟨toDigits_digits m, toDigits_head (Nat.pos_of_ne_zero hzero)⟩

theorem intPart_decide {ds : List Char} :
    (!ds.isEmpty && ds.all Char.isDigit && (ds == ['0'] || ds.head? != some '0')) = true ↔
      IntPart ds := by
  simp only [Bool.and_eq_true, Bool.or_eq_true, Bool.not_eq_true', List.isEmpty_eq_false_iff,
    List.all_eq_true, beq_iff_eq, bne_iff_ne]
  constructor
  · rintro ⟨hdigits, hzero | hhead⟩
    · exact Or.inl hzero
    · exact Or.inr ⟨hdigits, hhead⟩
  · rintro (rfl | ⟨hdigits, hhead⟩)
    · exact ⟨⟨by simp, by simp⟩, Or.inl rfl⟩
    · exact ⟨hdigits, Or.inr hhead⟩

theorem canonicalDecimal_minus {ds : List Char} :
    canonicalDecimal (String.ofList ('-' :: ds)) = true ↔ IntPart ds ∧ ds ≠ ['0'] := by
  have hzero : (String.ofList ('-' :: ds) != "-0") = true ↔ ds ≠ ['0'] := by
    rw [bne_iff_ne, ne_eq, ← String.toList_inj, String.toList_ofList]
    simp
  unfold canonicalDecimal
  rw [String.toList_ofList, Bool.and_eq_true, intPart_decide, hzero]
  exact Iff.rfl

theorem canonicalDecimal_plain {ds : List Char} (h : ∀ cs, ds ≠ '-' :: cs) :
    canonicalDecimal (String.ofList ds) = true ↔ IntPart ds := by
  have hzero : (String.ofList ds != "-0") = true := by
    rw [bne_iff_ne, ne_eq, ← String.toList_inj, String.toList_ofList]
    exact h ['0']
  unfold canonicalDecimal
  rw [String.toList_ofList, Bool.and_eq_true, and_iff_left hzero]
  split
  · exact absurd rfl (h _)
  · exact intPart_decide

/-- The canonical decimals are the texts of the integers. -/
theorem canonicalDecimal_iff {s : String} : canonicalDecimal s = true ↔ ∃ n : ℤ, toString n = s := by
  obtain ⟨ds, rfl⟩ : ∃ ds, s = String.ofList ds := ⟨s.toList, s.ofList_toList.symm⟩
  have hnat : ∀ m : ℕ, toString (Int.ofNat m) = String.ofList (Nat.toDigits 10 m) := fun m => by
    rw [← Nat.toString_eq_ofList_toDigits]
    rfl
  have hneg : ∀ m : ℕ, toString (Int.negSucc m) = String.ofList ('-' :: Nat.toDigits 10 (m + 1)) :=
    fun m => by
      rw [show toString (Int.negSucc m) = "-" ++ toString (m + 1) from rfl,
        Nat.toString_eq_ofList_toDigits]
      simp
  have hminus : ∀ m cs, Nat.toDigits 10 m ≠ '-' :: cs := by
    intro m cs h
    have hdigit := (toDigits_digits m).2 '-' (h ▸ List.mem_cons_self)
    exact absurd hdigit (by decide)
  constructor
  · intro h
    by_cases hsign : ∃ cs, ds = '-' :: cs
    · obtain ⟨cs, rfl⟩ := hsign
      obtain ⟨hint, hzero⟩ := canonicalDecimal_minus.mp h
      obtain ⟨m, rfl⟩ := intPart_iff.mp hint
      cases m with
      | zero => exact absurd (Nat.toDigits_zero 10) hzero
      | succ m => exact ⟨Int.negSucc m, hneg m⟩
    · obtain ⟨m, rfl⟩ := intPart_iff.mp ((canonicalDecimal_plain (not_exists.mp hsign)).mp h)
      exact ⟨Int.ofNat m, hnat m⟩
  · rintro ⟨n, hn⟩
    rw [← hn]
    cases n with
    | ofNat m => exact hnat m ▸ (canonicalDecimal_plain (hminus m)).mpr (intPart_iff.mpr ⟨m, rfl⟩)
    | negSucc m =>
      rw [hneg m, canonicalDecimal_minus]
      refine ⟨intPart_iff.mpr ⟨m + 1, rfl⟩, fun hzero => ?_⟩
      have hvalue := congrArg (fun cs => Nat.ofDigitChars 10 cs 0) hzero
      simp only [Nat.ofDigitChars_ten_toDigits] at hvalue
      cases hvalue

/-! ### Literals -/

inductive Collection
  | set
  | seq
  | tuple
  deriving DecidableEq

def Collection.name : Collection → String
  | set => "set"
  | seq => "seq"
  | tuple => "tuple"

/-- A finite ITF value as a literal of a contract. -/
inductive Literal
  | int (n : ℤ)
  | bool (b : Bool)
  | str (s : String)
  | null
  | collection (c : Collection) (values : List Literal)
  | record (fields : List (String × Literal))
  | map (entries : List (Literal × Literal))
  | variant (tag : String) (payload : Literal)

namespace Literal

mutual

def encode : Literal → Json
  | int n => Json.obj [("kind", .string "int"), ("value", .string (toString n))]
  | bool b => Json.obj [("kind", .string "bool"), ("value", .bool b)]
  | str s => Json.obj [("kind", .string "str"), ("value", .string s)]
  | null => Json.obj [("kind", .string "null")]
  | collection c values =>
    Json.obj [("kind", .string c.name), ("values", .array (encodeValues values))]
  | record fields => Json.obj [("kind", .string "record"), ("fields", .array (encodeFields fields))]
  | map entries => Json.obj [("kind", .string "map"), ("entries", .array (encodeEntries entries))]
  | variant tag payload =>
    Json.obj [("kind", .string "variant"), ("tag", .string tag), ("payload", encode payload)]

def encodeValues : List Literal → List Json
  | [] => []
  | t :: values => encode t :: encodeValues values

def encodeFields : List (String × Literal) → List Json
  | [] => []
  | (name, t) :: fields =>
    Json.obj [("name", .string name), ("value", encode t)] :: encodeFields fields

def encodeEntries : List (Literal × Literal) → List Json
  | [] => []
  | (k, t) :: entries => Json.obj [("key", encode k), ("value", encode t)] :: encodeEntries entries

end

mutual

/-- The number of literals in a literal. -/
def nodes : Literal → ℕ
  | collection _ values => 1 + nodesValues values
  | record fields => 1 + nodesFields fields
  | map entries => 1 + nodesEntries entries
  | variant _ payload => 1 + nodes payload
  | _ => 1

def nodesValues : List Literal → ℕ
  | [] => 0
  | t :: values => nodes t + nodesValues values

def nodesFields : List (String × Literal) → ℕ
  | [] => 0
  | (_, t) :: fields => nodes t + nodesFields fields

def nodesEntries : List (Literal × Literal) → ℕ
  | [] => 0
  | (k, t) :: entries => nodes k + nodes t + nodesEntries entries

end

mutual

/-- The number of levels. -/
def levels : Literal → ℕ
  | collection _ values => 1 + levelsValues values
  | record fields => 1 + levelsFields fields
  | map entries => 1 + levelsEntries entries
  | variant _ payload => 1 + levels payload
  | _ => 1

def levelsValues : List Literal → ℕ
  | [] => 0
  | t :: values => max (levels t) (levelsValues values)

def levelsFields : List (String × Literal) → ℕ
  | [] => 0
  | (_, t) :: fields => max (levels t) (levelsFields fields)

def levelsEntries : List (Literal × Literal) → ℕ
  | [] => 0
  | (k, t) :: entries => max (max (levels k) (levels t)) (levelsEntries entries)

end

mutual

/-- The texts in a literal, those of its integers included. -/
def texts : Literal → List String
  | int n => [toString n]
  | str s => [s]
  | collection _ values => textsValues values
  | record fields => textsFields fields
  | map entries => textsEntries entries
  | variant tag payload => tag :: texts payload
  | _ => []

def textsValues : List Literal → List String
  | [] => []
  | t :: values => texts t ++ textsValues values

def textsFields : List (String × Literal) → List String
  | [] => []
  | (name, t) :: fields => name :: texts t ++ textsFields fields

def textsEntries : List (Literal × Literal) → List String
  | [] => []
  | (k, t) :: entries => texts k ++ texts t ++ textsEntries entries

end

/-- No text is longer than 256 bytes. -/
def Short (t : Literal) : Prop := ∀ s ∈ t.texts, s.utf8ByteSize ≤ 256

instance (t : Literal) : Decidable t.Short :=
  inferInstanceAs (Decidable (∀ s ∈ t.texts, s.utf8ByteSize ≤ 256))

def encodeField (p : String × Literal) : Json :=
  Json.obj [("name", .string p.1), ("value", encode p.2)]

def encodeEntry (p : Literal × Literal) : Json :=
  Json.obj [("key", encode p.1), ("value", encode p.2)]

@[simp] theorem encodeValues_eq (values : List Literal) : encodeValues values = values.map encode := by
  induction values with
  | nil => rfl
  | cons t values ih => rw [encodeValues, ih, List.map_cons]

@[simp] theorem encodeFields_eq (fields : List (String × Literal)) :
    encodeFields fields = fields.map encodeField := by
  induction fields with
  | nil => rfl
  | cons p fields ih =>
    rw [encodeFields, ih, List.map_cons]
    rfl

@[simp] theorem encodeEntries_eq (entries : List (Literal × Literal)) :
    encodeEntries entries = entries.map encodeEntry := by
  induction entries with
  | nil => rfl
  | cons p entries ih =>
    rw [encodeEntries, ih, List.map_cons]
    rfl

@[simp] theorem nodesValues_eq (values : List Literal) :
    nodesValues values = (values.map nodes).sum := by
  induction values with
  | nil => rfl
  | cons t values ih => rw [nodesValues, ih, List.map_cons, List.sum_cons]

@[simp] theorem nodesFields_eq (fields : List (String × Literal)) :
    nodesFields fields = (fields.map fun p => p.2.nodes).sum := by
  induction fields with
  | nil => rfl
  | cons p fields ih => rw [nodesFields, ih, List.map_cons, List.sum_cons]

@[simp] theorem nodesEntries_eq (entries : List (Literal × Literal)) :
    nodesEntries entries = (entries.map fun p => p.1.nodes + p.2.nodes).sum := by
  induction entries with
  | nil => rfl
  | cons p entries ih => rw [nodesEntries, ih, List.map_cons, List.sum_cons]

mutual

theorem encode_ordered : ∀ t : Literal, t.encode.Ordered
  | int _ | bool _ | str _ | null => obj_ordered (by simp [Json.Ordered])
  | collection _ values =>
    obj_ordered (by simpa [Json.Ordered] using orderedItems_of_mem (values_ordered values))
  | record fields =>
    obj_ordered (by simpa [Json.Ordered] using orderedItems_of_mem (fields_ordered fields))
  | map entries =>
    obj_ordered (by simpa [Json.Ordered] using orderedItems_of_mem (entries_ordered entries))
  | variant _ payload => obj_ordered (by simpa [Json.Ordered] using encode_ordered payload)

theorem values_ordered : ∀ values : List Literal, ∀ j ∈ values.map encode, j.Ordered
  | [] => nofun
  | t :: values => List.forall_mem_cons.mpr ⟨encode_ordered t, values_ordered values⟩

theorem fields_ordered : ∀ fields : List (String × Literal), ∀ j ∈ fields.map encodeField, j.Ordered
  | [] => nofun
  | (_, t) :: fields => List.forall_mem_cons.mpr
    ⟨obj_ordered (by simpa [Json.Ordered] using encode_ordered t), fields_ordered fields⟩

theorem entries_ordered :
    ∀ entries : List (Literal × Literal), ∀ j ∈ entries.map encodeEntry, j.Ordered
  | [] => nofun
  | (k, t) :: entries => List.forall_mem_cons.mpr
    ⟨obj_ordered (by simpa using ⟨encode_ordered k, encode_ordered t⟩), entries_ordered entries⟩

end

/-- The literal has at most `l` levels and no long text. -/
def Fits (l : ℕ) (t : Literal) : Prop := t.levels ≤ l ∧ t.Short

variable {l : ℕ}

theorem fitsValues {values : List Literal} :
    (levelsValues values ≤ l ∧ ∀ s ∈ textsValues values, s.utf8ByteSize ≤ 256) ↔
      ∀ t ∈ values, t.Fits l := by
  induction values with
  | nil => simp [levelsValues, textsValues]
  | cons t values ih =>
    rw [levelsValues, textsValues, max_le_iff, List.forall_mem_append, List.forall_mem_cons, ← ih]
    unfold Fits Short
    tauto

theorem fitsFields {fields : List (String × Literal)} :
    (levelsFields fields ≤ l ∧ ∀ s ∈ textsFields fields, s.utf8ByteSize ≤ 256) ↔
      ∀ p ∈ fields, p.1.utf8ByteSize ≤ 256 ∧ p.2.Fits l := by
  induction fields with
  | nil => simp [levelsFields, textsFields]
  | cons p fields ih =>
    rw [levelsFields, textsFields, max_le_iff, List.forall_mem_append, List.forall_mem_cons,
      List.forall_mem_cons, ← ih]
    unfold Fits Short
    tauto

theorem fitsEntries {entries : List (Literal × Literal)} :
    (levelsEntries entries ≤ l ∧ ∀ s ∈ textsEntries entries, s.utf8ByteSize ≤ 256) ↔
      ∀ p ∈ entries, p.1.Fits l ∧ p.2.Fits l := by
  induction entries with
  | nil => simp [levelsEntries, textsEntries]
  | cons p entries ih =>
    rw [levelsEntries, textsEntries, max_le_iff, max_le_iff, List.forall_mem_append,
      List.forall_mem_append, List.forall_mem_cons, ← ih]
    unfold Fits Short
    tauto

section
attribute [local simp] levels texts

theorem levels_pos (t : Literal) : 0 < t.levels := by
  cases t <;> simp only [levels] <;> omega

theorem nodes_pos (t : Literal) : 0 < t.nodes := by
  cases t <;> simp only [nodes] <;> omega

theorem not_fits_zero {t : Literal} : ¬ t.Fits 0 := fun h => absurd h.1 (not_le.mpr t.levels_pos)

@[simp] theorem fits_int {n : ℤ} : (int n).Fits (l + 1) ↔ (toString n).utf8ByteSize ≤ 256 := by
  simp [Fits, Short]

@[simp] theorem fits_bool {b : Bool} : (bool b).Fits (l + 1) := by simp [Fits, Short]

@[simp] theorem fits_str {s : String} : (str s).Fits (l + 1) ↔ s.utf8ByteSize ≤ 256 := by
  simp [Fits, Short]

@[simp] theorem fits_null : null.Fits (l + 1) := by simp [Fits, Short]

@[simp] theorem fits_collection {c : Collection} {values : List Literal} :
    (collection c values).Fits (l + 1) ↔ ∀ t ∈ values, t.Fits l := by
  rw [← fitsValues, Fits, Short, levels, texts, Nat.add_comm 1, Nat.add_le_add_iff_right]

@[simp] theorem fits_record {fields : List (String × Literal)} :
    (record fields).Fits (l + 1) ↔ ∀ p ∈ fields, p.1.utf8ByteSize ≤ 256 ∧ p.2.Fits l := by
  rw [← fitsFields, Fits, Short, levels, texts, Nat.add_comm 1, Nat.add_le_add_iff_right]

@[simp] theorem fits_map {entries : List (Literal × Literal)} :
    (map entries).Fits (l + 1) ↔ ∀ p ∈ entries, p.1.Fits l ∧ p.2.Fits l := by
  rw [← fitsEntries, Fits, Short, levels, texts, Nat.add_comm 1, Nat.add_le_add_iff_right]

@[simp] theorem fits_variant {tag : String} {payload : Literal} :
    (variant tag payload).Fits (l + 1) ↔ tag.utf8ByteSize ≤ 256 ∧ payload.Fits l := by
  rw [Fits, Short, levels, texts, Nat.add_comm 1, Nat.add_le_add_iff_right, List.forall_mem_cons]
  unfold Fits Short
  tauto

end

end Literal

namespace Literal
open Tally

/-- The text under `kind`. -/
def kindName : Literal → String
  | int _ => "int"
  | bool _ => "bool"
  | str _ => "str"
  | null => "null"
  | collection c _ => c.name
  | record _ => "record"
  | map _ => "map"
  | variant .. => "variant"

theorem tagged_encode (t : Literal) : Tagged t.encode t.kindName := by
  cases t <;> exact ⟨_, rfl, by simp [Fields.get, Assoc.get?_ofList, Assoc.get?_cons, kindName]⟩

section Validator
variable {l : ℕ} {path : String} {value : Json} {n m : ℕ}

/-- One level below the validator accepts exactly the encodings. -/
abbrev Below (l : ℕ) (path : String) : Prop := ∀ v : Json, v.Ordered →
  Counts (fun v => validateItfLiteral l v path) encode (Fits l) nodes 16_384 v

theorem counts_field (ih : Below l path) (hvalue : value.Ordered) :
    Counts (fun entry => do
        let entry ← object entry path ["name", "value"] ["name", "value"]
        let _ ← shortString (entry.item "name") path
        validateItfLiteral l (entry.item "value") path) encodeField
      (fun p : String × Literal => p.1.utf8ByteSize ≤ 256 ∧ p.2.Fits l) (fun p => p.2.nodes) 16_384
      value := by
  intro n m hn
  have hname := @item_pair_left "name" "value" (by decide)
  have hitem := item_pair_right "name" "value"
  rw [gives_pair (by decide) hvalue]
  simp only [gives_shortString, hname, hitem]
  constructor
  · rintro ⟨_, b, rfl, name, rfl, hshort, h⟩
    have hb : b.Ordered := hitem (.string name) b ▸ ordered_item hvalue "value"
    obtain ⟨t, rfl, hfits, hm⟩ := (ih b hb n m hn).mp h
    exact ⟨(name, t), rfl, ⟨hshort, hfits⟩, hm⟩
  · rintro ⟨⟨name, t⟩, rfl, ⟨hshort, hfits⟩, hm⟩
    have ht : t.encode.Ordered := hitem (.string name) t.encode ▸ ordered_item hvalue "value"
    exact ⟨_, _, rfl, name, rfl, hshort, (ih _ ht n m hn).mpr ⟨t, rfl, hfits, hm⟩⟩

theorem counts_entry (ih : Below l path) (hvalue : value.Ordered) :
    Counts (fun entry => do
        let entry ← object entry path ["key", "value"] ["key", "value"]
        validateItfLiteral l (entry.item "key") path
        validateItfLiteral l (entry.item "value") path) encodeEntry
      (fun p : Literal × Literal => p.1.Fits l ∧ p.2.Fits l) (fun p => p.1.nodes + p.2.nodes) 16_384
      value := by
  intro n m hn
  have hkey := @item_pair_left "key" "value" (by decide)
  have hitem := item_pair_right "key" "value"
  rw [gives_pair (by decide) hvalue]
  simp only [gives_bind, hkey, hitem]
  constructor
  · rintro ⟨a, b, rfl, _, k, hfirst, hsecond⟩
    have ha : a.Ordered := hkey a b ▸ ordered_item hvalue "key"
    have hb : b.Ordered := hitem a b ▸ ordered_item hvalue "value"
    obtain ⟨t, rfl, hfits, hk, hkbound⟩ := (ih a ha n k hn).mp hfirst
    obtain ⟨u, rfl, hfits', hm, hmbound⟩ := (ih b hb k m hkbound).mp hsecond
    refine ⟨(t, u), rfl, ⟨hfits, hfits'⟩, ?_, hmbound⟩
    simp only
    omega
  · rintro ⟨⟨t, u⟩, rfl, ⟨hfits, hfits'⟩, hm, hmbound⟩
    have ha : t.encode.Ordered := hkey t.encode u.encode ▸ ordered_item hvalue "key"
    have hb : u.encode.Ordered := hitem t.encode u.encode ▸ ordered_item hvalue "value"
    simp only at hm
    have hk : n + t.nodes ≤ 16_384 := by omega
    exact ⟨_, _, rfl, (), n + t.nodes, (ih _ ha n _ hn).mpr ⟨t, rfl, hfits, rfl, hk⟩,
      (ih _ hb _ m hk).mpr ⟨u, rfl, hfits', by omega, hmbound⟩⟩

theorem gives_values (ih : Below l path) {values : List Json}
    (hvalues : (Json.array values).Ordered) (hn : n ≤ 16_384) :
    Gives (values.forM fun v => validateItfLiteral l v path) n () m ↔
      ∃ ts : List Literal, ts.map encode = values ∧ (∀ t ∈ ts, t.Fits l) ∧
        m = n + (ts.map nodes).sum ∧ m ≤ 16_384 :=
  counts_forM (fun v hv => ih v (orderedItems_mem hvalues v hv)) hn

theorem gives_fields (ih : Below l path) {values : List Json}
    (hvalues : (Json.array values).Ordered) (hn : n ≤ 16_384) :
    Gives (values.forM fun entry => do
        let entry ← object entry path ["name", "value"] ["name", "value"]
        let _ ← shortString (entry.item "name") path
        validateItfLiteral l (entry.item "value") path) n () m ↔
      ∃ ts : List (String × Literal), ts.map encodeField = values ∧
        (∀ p ∈ ts, p.1.utf8ByteSize ≤ 256 ∧ p.2.Fits l) ∧
        m = n + (ts.map fun p => p.2.nodes).sum ∧ m ≤ 16_384 :=
  counts_forM (fun v hv => counts_field ih (orderedItems_mem hvalues v hv)) hn

theorem gives_entries (ih : Below l path) {values : List Json}
    (hvalues : (Json.array values).Ordered) (hn : n ≤ 16_384) :
    Gives (values.forM fun entry => do
        let entry ← object entry path ["key", "value"] ["key", "value"]
        validateItfLiteral l (entry.item "key") path
        validateItfLiteral l (entry.item "value") path) n () m ↔
      ∃ ts : List (Literal × Literal), ts.map encodeEntry = values ∧
        (∀ p ∈ ts, p.1.Fits l ∧ p.2.Fits l) ∧
        m = n + (ts.map fun p => p.1.nodes + p.2.nodes).sum ∧ m ≤ 16_384 :=
  counts_forM (fun v hv => counts_entry ih (orderedItems_mem hvalues v hv)) hn

theorem accepts_of_gives (ih : Below l path) (hvalue : value.Ordered)
    (hrun : Gives (validateItfLiteral (l + 1) value path) n () m) :
    ∃ t : Literal, t.encode = value ∧ t.Fits (l + 1) ∧ m = n + t.nodes ∧ m ≤ 16_384 := by
  unfold validateItfLiteral at hrun
  obtain ⟨hbound, kind, htag, hrun⟩ := gives_body.mp hrun
  split at hrun
  · obtain ⟨b, rfl, hbody⟩ := (gives_tagged (by decide) hvalue htag).mp hrun
    simp only [item_pair_right, gives_shortString, gives_unless] at hbody
    obtain ⟨text, rfl, hshort, hcanonical, rfl⟩ := hbody
    obtain ⟨z, rfl⟩ := canonicalDecimal_iff.mp (by simpa using hcanonical)
    exact ⟨int z, rfl, fits_int.mpr hshort, rfl, hbound⟩
  · obtain ⟨b, rfl, hbody⟩ := (gives_tagged (by decide) hvalue htag).mp hrun
    simp only [item_pair_right, gives_unless] at hbody
    cases b with
    | bool b => exact ⟨bool b, rfl, fits_bool, hbody.2.symm, hbody.2 ▸ hbound⟩
    | _ => exact absurd rfl hbody.1
  · obtain ⟨b, rfl, hbody⟩ := (gives_tagged (by decide) hvalue htag).mp hrun
    simp only [item_pair_right, gives_shortString, gives_unit] at hbody
    obtain ⟨text, rfl, hshort, rfl⟩ := hbody
    exact ⟨str text, rfl, fits_str.mpr hshort, rfl, hbound⟩
  · obtain ⟨rfl, hbody⟩ := (gives_bare hvalue htag).mp hrun
    exact ⟨null, rfl, fits_null, (gives_unit.mp hbody).symm, gives_unit.mp hbody ▸ hbound⟩
  · obtain ⟨b, rfl, hbody⟩ := (gives_tagged (by decide) hvalue htag).mp hrun
    simp only [item_pair_right, gives_array] at hbody
    obtain ⟨values, rfl, hbody⟩ := hbody
    obtain ⟨ts, rfl, hfits, hm, hbound⟩ := (gives_values ih (ordered_pair hvalue) hbound).mp hbody
    refine ⟨collection .set ts, by rw [encode, encodeValues_eq]; rfl, fits_collection.mpr hfits, ?_,
      hbound⟩
    rw [nodes, nodesValues_eq]
    omega
  · obtain ⟨b, rfl, hbody⟩ := (gives_tagged (by decide) hvalue htag).mp hrun
    simp only [item_pair_right, gives_array] at hbody
    obtain ⟨values, rfl, hbody⟩ := hbody
    obtain ⟨ts, rfl, hfits, hm, hbound⟩ := (gives_values ih (ordered_pair hvalue) hbound).mp hbody
    refine ⟨collection .seq ts, by rw [encode, encodeValues_eq]; rfl, fits_collection.mpr hfits, ?_,
      hbound⟩
    rw [nodes, nodesValues_eq]
    omega
  · obtain ⟨b, rfl, hbody⟩ := (gives_tagged (by decide) hvalue htag).mp hrun
    simp only [item_pair_right, gives_array] at hbody
    obtain ⟨values, rfl, hbody⟩ := hbody
    obtain ⟨ts, rfl, hfits, hm, hbound⟩ := (gives_values ih (ordered_pair hvalue) hbound).mp hbody
    refine ⟨collection .tuple ts, by rw [encode, encodeValues_eq]; rfl, fits_collection.mpr hfits,
      ?_, hbound⟩
    rw [nodes, nodesValues_eq]
    omega
  · obtain ⟨b, rfl, hbody⟩ := (gives_tagged (by decide) hvalue htag).mp hrun
    simp only [item_pair_right, gives_array] at hbody
    obtain ⟨values, rfl, hbody⟩ := hbody
    obtain ⟨ts, rfl, hfits, hm, hbound⟩ := (gives_fields ih (ordered_pair hvalue) hbound).mp hbody
    refine ⟨record ts, by rw [encode, encodeFields_eq], fits_record.mpr hfits, ?_, hbound⟩
    rw [nodes, nodesFields_eq]
    omega
  · obtain ⟨b, rfl, hbody⟩ := (gives_tagged (by decide) hvalue htag).mp hrun
    simp only [item_pair_right, gives_array] at hbody
    obtain ⟨values, rfl, hbody⟩ := hbody
    obtain ⟨ts, rfl, hfits, hm, hbound⟩ := (gives_entries ih (ordered_pair hvalue) hbound).mp hbody
    refine ⟨map ts, by rw [encode, encodeEntries_eq], fits_map.mpr hfits, ?_, hbound⟩
    rw [nodes, nodesEntries_eq]
    omega
  · obtain ⟨b, c, rfl, hbody⟩ :=
      (gives_tagged_pair (by decide) (by decide) (by decide) hvalue htag).mp hrun
    simp only [@item_middle "tag" "payload" (by decide), item_third, gives_shortString] at hbody
    obtain ⟨tag, rfl, hshort, hbody⟩ := hbody
    obtain ⟨t, rfl, hfits, hm, hbound⟩ := (ih c (ordered_third hvalue) _ _ hbound).mp hbody
    refine ⟨variant tag t, rfl, fits_variant.mpr ⟨hshort, hfits⟩, ?_, hbound⟩
    rw [nodes]
    omega
  · exact absurd hrun not_gives_throw

theorem gives_of_fits (ih : Below l path) {t : Literal} (hvalue : t.encode.Ordered)
    (hfits : t.Fits (l + 1)) (hbound : n + t.nodes ≤ 16_384) :
    Gives (validateItfLiteral (l + 1) t.encode path) n () (n + t.nodes) := by
  have hpos := t.nodes_pos
  have htag := t.tagged_encode
  unfold validateItfLiteral
  refine gives_body.mpr ⟨by omega, t.kindName, htag, ?_⟩
  cases t with
  | int z =>
    refine (gives_tagged (by decide) hvalue htag).mpr ⟨_, rfl, ?_⟩
    simp only [item_pair_right, gives_shortString, gives_unless]
    exact ⟨_, rfl, fits_int.mp hfits, by simpa using canonicalDecimal_iff.mpr ⟨z, rfl⟩, rfl⟩
  | bool b =>
    refine (gives_tagged (by decide) hvalue htag).mpr ⟨_, rfl, ?_⟩
    simp only [item_pair_right, gives_unless]
    exact ⟨Bool.false_ne_true, rfl⟩
  | str s =>
    refine (gives_tagged (by decide) hvalue htag).mpr ⟨_, rfl, ?_⟩
    simp only [item_pair_right, gives_shortString, gives_unit]
    exact ⟨s, rfl, fits_str.mp hfits, rfl⟩
  | null => exact (gives_bare hvalue htag).mpr ⟨rfl, gives_unit.mpr rfl⟩
  | collection c ts =>
    have hvalues := ordered_pair hvalue
    rw [nodes, nodesValues_eq] at hbound ⊢
    rw [encodeValues_eq] at hvalues
    have hrun := (gives_values ih hvalues (by omega)).mpr ⟨ts, rfl, fits_collection.mp hfits,
      (Nat.add_assoc n 1 _).symm, hbound⟩
    cases c <;>
      · refine (gives_tagged (by decide) hvalue htag).mpr ⟨_, rfl, ?_⟩
        simp only [item_pair_right, gives_array]
        exact ⟨_, rfl, by rwa [encodeValues_eq]⟩
  | record fields =>
    have hvalues := ordered_pair hvalue
    rw [nodes, nodesFields_eq] at hbound ⊢
    rw [encodeFields_eq] at hvalues
    refine (gives_tagged (by decide) hvalue htag).mpr ⟨_, rfl, ?_⟩
    simp only [item_pair_right, gives_array, encodeFields_eq]
    exact ⟨_, rfl, (gives_fields ih hvalues (by omega)).mpr ⟨fields, rfl, fits_record.mp hfits,
      (Nat.add_assoc n 1 _).symm, hbound⟩⟩
  | map entries =>
    have hvalues := ordered_pair hvalue
    rw [nodes, nodesEntries_eq] at hbound ⊢
    rw [encodeEntries_eq] at hvalues
    refine (gives_tagged (by decide) hvalue htag).mpr ⟨_, rfl, ?_⟩
    simp only [item_pair_right, gives_array, encodeEntries_eq]
    exact ⟨_, rfl, (gives_entries ih hvalues (by omega)).mpr ⟨entries, rfl, fits_map.mp hfits,
      (Nat.add_assoc n 1 _).symm, hbound⟩⟩
  | variant tag payload =>
    rw [nodes] at hbound ⊢
    obtain ⟨hshort, hfits⟩ := fits_variant.mp hfits
    refine (gives_tagged_pair (by decide) (by decide) (by decide) hvalue htag).mpr ⟨_, _, rfl, ?_⟩
    simp only [@item_middle "tag" "payload" (by decide), item_third, gives_shortString]
    exact ⟨tag, rfl, hshort, (ih _ (ordered_third hvalue) _ _ (by omega)).mpr
      ⟨payload, rfl, hfits, (Nat.add_assoc n 1 _).symm, hbound⟩⟩

/-- The validator of literals accepts their encodings. -/
theorem counts_literal (levels : ℕ) (path : String) : Below levels path := by
  induction levels with
  | zero =>
    intro value _ n m _
    refine iff_of_false not_gives_throw ?_
    rintro ⟨t, -, hfits, -⟩
    exact not_fits_zero hfits
  | succ l ih =>
    intro value hvalue n m _
    constructor
    · exact accepts_of_gives ih hvalue
    · rintro ⟨t, rfl, hfits, rfl, hbound⟩
      exact gives_of_fits ih hvalue hfits hbound

end Validator

end Literal

end MirrorRust
