import Mathlib

/-! UTF-8 text as a list of bytes. A character below 0x80 is its own byte, and every byte of
another character is 0x80 or above. -/
namespace MirrorRust

def utf8 (text : List Char) : List UInt8 := text.flatMap String.utf8EncodeChar

/-- `String::from_utf8`. -/
def fromUtf8 (bytes : List UInt8) : Option String := String.fromUTF8? bytes.toByteArray

@[simp] theorem utf8_nil : utf8 [] = [] := rfl

@[simp] theorem utf8_cons (c : Char) (text : List Char) :
    utf8 (c :: text) = String.utf8EncodeChar c ++ utf8 text := rfl

@[simp] theorem utf8_append (text rest : List Char) : utf8 (text ++ rest) = utf8 text ++ utf8 rest :=
  List.flatMap_append

theorem encodeChar_ascii {c : Char} (h : c.toNat < 0x80) :
    String.utf8EncodeChar c = [UInt8.ofNat c.toNat] := by
  have hc : c.val.toNat ≤ 0x7f := by
    have hv : c.toNat = c.val.toNat := rfl
    omega
  unfold String.utf8EncodeChar
  exact if_pos hc

theorem encodeChar_high {c : Char} (h : 0x80 ≤ c.toNat) :
    ∀ b ∈ String.utf8EncodeChar c, 0x80 ≤ b.toNat := by
  have hv : c.toNat = c.val.toNat := rfl
  intro b hb
  unfold String.utf8EncodeChar at hb
  rw [if_neg (by omega)] at hb
  split_ifs at hb <;>
    simp only [List.mem_cons, List.not_mem_nil, or_false] at hb <;>
    rcases hb with rfl | rfl | rfl | rfl <;>
    simp only [UInt8.toNat_ofNat'] <;> omega

theorem encodeChar_ne_nil (c : Char) : String.utf8EncodeChar c ≠ [] := String.utf8EncodeChar_ne_nil

theorem ofNat_inj {m n : ℕ} (hm : m < 0x80) (hn : n < 0x80) (h : UInt8.ofNat m = UInt8.ofNat n) :
    m = n := by
  have h' := congrArg UInt8.toNat h
  simp only [UInt8.toNat_ofNat'] at h'
  omega

theorem mem_encodeChar {c d : Char} (hd : d.toNat < 0x80) :
    UInt8.ofNat d.toNat ∈ String.utf8EncodeChar c ↔ c = d := by
  by_cases hc : c.toNat < 0x80
  · rw [encodeChar_ascii hc, List.mem_singleton]
    constructor
    · intro h
      exact Char.toNat_inj.mp (ofNat_inj hd hc h).symm
    · rintro rfl
      rfl
  · constructor
    · intro h
      have := encodeChar_high (not_lt.mp hc) _ h
      simp only [UInt8.toNat_ofNat'] at this
      omega
    · rintro rfl
      exact absurd hd hc

/-- A byte below 0x80 occurs in the text exactly where its character does. -/
theorem mem_utf8 {d : Char} (hd : d.toNat < 0x80) {text : List Char} :
    UInt8.ofNat d.toNat ∈ utf8 text ↔ d ∈ text := by
  simp [utf8, mem_encodeChar hd]

theorem fromUtf8_utf8 (text : List Char) : fromUtf8 (utf8 text) = some (String.ofList text) := by
  have hvalid : (utf8 text).toByteArray.IsValidUTF8 := .intro text rfl
  rw [fromUtf8, String.fromUTF8?, dif_pos hvalid]
  rfl

theorem length_utf8 (s : String) : (utf8 s.toList).length = s.utf8ByteSize := by
  have h : s.toByteArray = (utf8 s.toList).toByteArray := String.utf8Encode_toList.symm
  rw [String.utf8ByteSize, h]
  simp

theorem length_le_utf8 (cs : List Char) : cs.length ≤ (utf8 cs).length := by
  induction cs with
  | nil => exact Nat.zero_le _
  | cons c cs ih =>
    have hpos := List.length_pos_of_ne_nil (encodeChar_ne_nil c)
    rw [utf8_cons, List.length_append, List.length_cons]
    omega

/-- A character takes four bytes at most. -/
theorem utf8ByteSize_le (cs : List Char) : (String.ofList cs).utf8ByteSize ≤ 4 * cs.length := by
  rw [← length_utf8, String.toList_ofList]
  induction cs with
  | nil => exact le_rfl
  | cons c cs ih =>
    have hc : (String.utf8EncodeChar c).length ≤ 4 := by
      rw [String.length_utf8EncodeChar]
      exact c.utf8Size_le_four
    rw [utf8_cons, List.length_append, List.length_cons]
    omega

theorem utf8_length_perm {cs ds : List Char} (h : cs.Perm ds) :
    (utf8 cs).length = (utf8 ds).length := by
  induction h with
  | nil => rfl
  | cons c _ ih => rw [utf8_cons, utf8_cons, List.length_append, List.length_append, ih]
  | swap c d cs =>
    simp only [utf8_cons, List.length_append]
    omega
  | trans _ _ ih ih' => exact ih.trans ih'

theorem utf8_injective {s t : List Char} (h : utf8 s = utf8 t) : s = t := by
  have h' := congrArg fromUtf8 h
  rw [fromUtf8_utf8, fromUtf8_utf8] at h'
  exact String.ofList_injective (Option.some.inj h')

end MirrorRust
