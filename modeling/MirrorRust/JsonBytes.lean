import MirrorRust.Json
import MirrorRust.Foundation.Utf8

/-! How many bytes a tree has when it is written out. -/
namespace MirrorRust

theorem utf8ByteSize_ofList (cs : List Char) :
    (String.ofList cs).utf8ByteSize = (cs.map Char.utf8Size).sum := by
  rw [← length_utf8, String.toList_ofList]
  induction cs with
  | nil => rfl
  | cons c cs ih =>
    rw [utf8_cons, List.length_append, String.length_utf8EncodeChar, ih, List.map_cons,
      List.sum_cons]

theorem utf8Size_ascii {c : Char} (h : c.toNat < 0x80) : c.utf8Size = 1 := by
  rw [← String.length_utf8EncodeChar, encodeChar_ascii h, List.length_singleton]

namespace Json

/-- The length of the text. -/
def bytes (j : Json) : ℕ := j.render.utf8ByteSize

theorem bytes_eq (j : Json) : j.bytes = (j.chars.map Char.utf8Size).sum := utf8ByteSize_ofList _

/-- The length of a string token. -/
def quotedBytes (s : String) : ℕ := ((quoted s).map Char.utf8Size).sum

theorem bytes_string (s : String) : (Json.string s).bytes = quotedBytes s := bytes_eq _

/-- A string without characters that are escaped is written as it is. -/
theorem quotedBytes_plain {s : String} (h : ∀ c ∈ s.toList, escape c = [c]) :
    quotedBytes s = s.utf8ByteSize + 2 := by
  have hquote : Char.utf8Size '\"' = 1 := rfl
  have hplain : s.toList.flatMap escape = s.toList := by
    rw [List.flatMap_congr h, List.flatMap_singleton']
  have hsize : s.utf8ByteSize = (s.toList.map Char.utf8Size).sum := by
    rw [← utf8ByteSize_ofList, String.ofList_toList]
  simp only [quotedBytes, quoted, hplain, List.map_cons, List.map_append, List.map_nil,
    List.sum_cons, List.sum_append, List.sum_nil, hquote, hsize]
  omega

theorem bytes_ofNat (n : ℕ) : (Json.ofNat n).bytes = (Nat.toDigits 10 n).length := by
  have hdigit : ∀ c ∈ Nat.toDigits 10 n, c.utf8Size = 1 := fun c hc => by
    have hc := Nat.isDigit_of_mem_toDigits (by decide) (by decide) hc
    simp only [Char.isDigit, Bool.and_eq_true, decide_eq_true_eq, UInt32.le_iff_toNat_le] at hc
    have hnine : '9'.val.toNat = 57 := rfl
    exact utf8Size_ascii (by rw [Char.toNat]; omega)
  rw [bytes_eq, ofNat, chars, Nat.toString_eq_ofList_toDigits, String.toList_ofList,
    List.map_congr_left hdigit, List.map_const', List.sum_replicate, smul_eq_mul, mul_one]

theorem itemChars_bytes (items : List Json) :
    ((itemChars false items).map Char.utf8Size).sum =
      (items.map fun j => j.bytes + 1).sum + 1 := by
  induction items with
  | nil => rfl
  | cons j items ih =>
    have hcomma : Char.utf8Size ',' = 1 := rfl
    simp only [itemChars, Bool.false_eq_true, if_false, List.map_append, List.map_cons,
      List.map_nil, List.sum_append, List.sum_cons, List.sum_nil, hcomma, ih, bytes_eq]
    omega

theorem bytes_array {items : List Json} (h : items ≠ []) :
    (Json.array items).bytes = (items.map fun j => j.bytes + 1).sum + 1 := by
  have hopen : Char.utf8Size '[' = 1 := rfl
  obtain ⟨j, items, rfl⟩ := List.exists_cons_of_ne_nil h
  simp only [bytes_eq, chars, itemChars, if_true, List.map_append, List.map_cons,
    List.nil_append, List.sum_append, List.sum_cons, hopen, itemChars_bytes]
  omega

/-- The members of an object, each with its colon and the mark after it. -/
def memberBytes (fields : List (String × Json)) : ℕ :=
  (fields.map fun p => quotedBytes p.1 + p.2.bytes + 2).sum

theorem fieldChars_bytes (fields : List (String × Json)) :
    ((fieldChars false fields).map Char.utf8Size).sum = memberBytes fields + 1 := by
  induction fields with
  | nil => rfl
  | cons p fields ih =>
    obtain ⟨key, j⟩ := p
    have hcomma : Char.utf8Size ',' = 1 := rfl
    have hcolon : Char.utf8Size ':' = 1 := rfl
    simp only [fieldChars, Bool.false_eq_true, if_false, List.map_append, List.map_cons,
      List.map_nil, List.sum_append, List.sum_cons, List.sum_nil, hcomma, hcolon, ih, memberBytes,
      quotedBytes, bytes_eq]
    omega

theorem bytes_object {fields : List (String × Json)} (h : fields ≠ []) :
    (Json.object fields).bytes = memberBytes fields + 1 := by
  have hcolon : Char.utf8Size ':' = 1 := rfl
  have hopen : Char.utf8Size '{' = 1 := rfl
  obtain ⟨⟨key, j⟩, fields, rfl⟩ := List.exists_cons_of_ne_nil h
  simp only [bytes_eq, chars, fieldChars, if_true, List.map_append, List.map_cons, List.map_nil,
    List.sum_append, List.sum_cons, List.sum_nil, hcolon, hopen, fieldChars_bytes, memberBytes,
    quotedBytes]
  omega

/-- The order of the members does not matter. -/
theorem bytes_obj {fields : List (String × Json)} (h : fields ≠ [])
    (hkeys : (fields.map Prod.fst).Nodup) : (Json.obj fields).bytes = memberBytes fields + 1 := by
  have hperm := Assoc.ofList_perm hkeys
  have hne : Assoc.ofList fields ≠ [] := fun hnil => h (List.Perm.nil_eq (hnil ▸ hperm)).symm
  rw [obj, bytes_object hne, memberBytes, memberBytes, (hperm.map _).sum_eq]

end Json
end MirrorRust
