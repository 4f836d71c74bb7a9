import MirrorRust.JsonGrammar

/-! The cursor of the parser: what is left of the text at a byte position, and how the tokens of
the parser move over it. -/
namespace MirrorRust

/-! ### Bytes and characters -/

theorem length_encodeChar (c : Char) : (String.utf8EncodeChar c).length = c.utf8Size :=
  String.length_utf8EncodeChar c

theorem dropBytes_utf8 (before rest : List Char) :
    dropBytes (before ++ rest) (utf8 before).length = some rest := by
  induction before with
  | nil => cases rest <;> rfl
  | cons c before ih =>
    have hpos := c.utf8Size_pos
    have hlen : (utf8 (c :: before)).length = c.utf8Size + (utf8 before).length := by
      rw [utf8_cons, List.length_append, length_encodeChar]
    obtain ⟨n, hn⟩ : ∃ n, (utf8 (c :: before)).length = n + 1 := ⟨_, (Nat.succ_pred (by omega)).symm⟩
    rw [hn, List.cons_append, dropBytes, if_pos (by omega), ← hn, hlen, Nat.add_sub_cancel_left, ih]

theorem takeBytes_utf8 (text rest : List Char) :
    takeBytes (text ++ rest) (utf8 text).length = some text := by
  induction text with
  | nil => cases rest <;> rfl
  | cons c text ih =>
    have hpos := c.utf8Size_pos
    have hlen : (utf8 (c :: text)).length = c.utf8Size + (utf8 text).length := by
      rw [utf8_cons, List.length_append, length_encodeChar]
    obtain ⟨n, hn⟩ : ∃ n, (utf8 (c :: text)).length = n + 1 := ⟨_, (Nat.succ_pred (by omega)).symm⟩
    rw [hn, List.cons_append, takeBytes, if_pos (by omega), ← hn, hlen, Nat.add_sub_cancel_left, ih]
    rfl

/-- The byte of a character below 0x80. -/
def byteOf (d : Char) : UInt8 := UInt8.ofNat d.toNat

theorem byteOf_toNat {d : Char} (hd : d.toNat < 0x80) : (byteOf d).toNat = d.toNat := by
  rw [byteOf, UInt8.toNat_ofNat']
  omega

/-- The next byte is the byte of `d` exactly when the next character is `d`. -/
theorem head_utf8 {d : Char} (hd : d.toNat < 0x80) {rest : List Char} :
    (utf8 rest).head? = some (byteOf d) ↔ rest.head? = some d := by
  cases rest with
  | nil => simp
  | cons c rest =>
    by_cases hc : c.toNat < 0x80
    · rw [utf8_cons, encodeChar_ascii hc]
      simp only [List.singleton_append, List.head?_cons, Option.some.injEq]
      constructor
      · intro h
        exact Char.toNat_inj.mp (ofNat_inj hc hd h)
      · rintro rfl
        rfl
    · obtain ⟨b, bytes, hb⟩ := List.exists_cons_of_ne_nil (encodeChar_ne_nil c)
      have hhigh := encodeChar_high (not_lt.mp hc) b (by simp [hb])
      simp only [utf8_cons, hb, List.cons_append, List.head?_cons, Option.some.injEq]
      constructor
      · rintro rfl
        rw [byteOf_toNat hd] at hhigh
        omega
      · rintro rfl
        exact absurd hd hc

/-- The characters whose byte satisfies `f`. -/
def charOf (f : UInt8 → Bool) (c : Char) : Bool := c.toNat < 0x80 && f (byteOf c)

theorem takeWhile_utf8 {f : UInt8 → Bool} (hf : ∀ b, f b = true → b.toNat < 0x80)
    (rest : List Char) : (utf8 rest).takeWhile f = utf8 (rest.takeWhile (charOf f)) := by
  induction rest with
  | nil => rfl
  | cons c rest ih =>
    by_cases hc : c.toNat < 0x80
    · rw [utf8_cons, encodeChar_ascii hc]
      simp only [List.singleton_append, List.takeWhile_cons, charOf, hc, decide_true,
        Bool.true_and, byteOf]
      split_ifs with hfc
      · rw [ih, utf8_cons, encodeChar_ascii hc]
        rfl
      · rfl
    · obtain ⟨b, bytes, hb⟩ := List.exists_cons_of_ne_nil (encodeChar_ne_nil c)
      have hhigh := encodeChar_high (not_lt.mp hc) b (by simp [hb])
      have hfb : f b = false := by
        by_contra h
        have := hf b (by simpa using h)
        omega
      rw [utf8_cons, hb, List.cons_append, List.takeWhile_cons, if_neg (by simp [hfb]),
        List.takeWhile_cons, if_neg (by simp [charOf, hc])]
      rfl

theorem charOf_isSpace (c : Char) : charOf Parser.isSpace c = isWs c := by
  rw [Bool.eq_iff_iff]
  simp only [charOf, Parser.isSpace, isWs, Bool.and_eq_true, Bool.or_eq_true, decide_eq_true_eq,
    beq_iff_eq]
  constructor
  · rintro ⟨hc, h⟩
    have key : ∀ d : Char, d.toNat < 0x80 → byteOf c = byteOf d → c = d := fun d hd h =>
      Char.toNat_inj.mp (ofNat_inj hc hd h)
    rcases h with ((h | h) | h) | h
    · exact Or.inl (Or.inl (Or.inl (key ' ' (by decide) h)))
    · exact Or.inl (Or.inl (Or.inr (key '\t' (by decide) h)))
    · exact Or.inl (Or.inr (key '\r' (by decide) h))
    · exact Or.inr (key '\n' (by decide) h)
  · rintro (((rfl | rfl) | rfl) | rfl) <;> decide

theorem charOf_isDigit (c : Char) : charOf Parser.isDigit c = c.isDigit := by
  rw [Bool.eq_iff_iff]
  simp only [charOf, Parser.isDigit, Bool.and_eq_true, decide_eq_true_eq, Char.isDigit,
    UInt8.le_iff_toNat_le, UInt32.le_iff_toNat_le]
  have hv : c.val.toNat = c.toNat := rfl
  have h0 : (0x30 : UInt8).toNat = 48 := rfl
  have h9 : (0x39 : UInt8).toNat = 57 := rfl
  have h0' : '0'.val.toNat = 48 := rfl
  have h9' : '9'.val.toNat = 57 := rfl
  constructor
  · rintro ⟨hc, hlo, hhi⟩
    rw [byteOf_toNat hc] at hlo hhi
    constructor <;> omega
  · rintro ⟨hlo, hhi⟩
    have hc : c.toNat < 0x80 := by omega
    rw [byteOf_toNat hc]
    refine ⟨hc, ?_, ?_⟩ <;> omega

/-! ### The cursor -/

namespace Parser

/-- The parser stands in front of `rest`. -/
def At (p : Parser) (rest : List Char) : Prop :=
  ∃ before, p.text = before ++ rest ∧ p.cursor = (utf8 before).length

/-- The parser after it has moved over `text`. -/
def move (p : Parser) (text : List Char) : Parser :=
  { p with cursor := p.cursor + (utf8 text).length }

@[simp] theorem move_nil (p : Parser) : p.move [] = p := rfl

@[simp] theorem move_move (p : Parser) (text rest : List Char) :
    (p.move text).move rest = p.move (text ++ rest) := by
  simp [move, Nat.add_assoc]

@[simp] theorem move_nodes (p : Parser) (text : List Char) : (p.move text).nodes = p.nodes := rfl

@[simp] theorem move_limits (p : Parser) (text : List Char) : (p.move text).limits = p.limits := rfl

@[simp] theorem move_text (p : Parser) (text : List Char) : (p.move text).text = p.text := rfl

variable {p : Parser} {text rest : List Char}

theorem At.move (h : p.At (text ++ rest)) : (p.move text).At rest := by
  obtain ⟨before, htext, hcursor⟩ := h
  exact ⟨before ++ text, by simp [htext], by simp [Parser.move, hcursor]⟩

theorem At.move_one {c : Char} (h : p.At (c :: rest)) : (p.move [c]).At rest :=
  At.move (show p.At ([c] ++ rest) from h)

theorem At.bytes (h : p.At rest) : (utf8 p.text).drop p.cursor = utf8 rest := by
  obtain ⟨before, htext, hcursor⟩ := h
  rw [htext, hcursor, utf8_append, List.drop_left]

theorem At.peek (h : p.At rest) : Parser.peek p = .ok ((utf8 rest).head?, p) := by
  have hget : (utf8 p.text)[p.cursor]? = (utf8 rest).head? := by
    rw [← h.bytes, List.head?_drop]
  simp only [Parser.peek, get, getThe, MonadStateOf.get, StateT.get, bind, StateT.bind, Except.bind,
    pure, StateT.pure, Except.pure, hget]

theorem At.cut (h : p.At (text ++ rest)) {q : Parser} (hq : q.text = p.text) :
    Parser.cut p.cursor (p.cursor + (utf8 text).length) q = .ok (text, q) := by
  obtain ⟨before, htext, hcursor⟩ := h
  have hslice : slice q.text p.cursor (p.cursor + (utf8 text).length) = some text := by
    rw [slice, if_pos (by omega), hq, htext, hcursor, dropBytes_utf8, Option.bind_some,
      Nat.add_sub_cancel_left, takeBytes_utf8]
  simp only [Parser.cut, get, getThe, MonadStateOf.get, StateT.get, bind, StateT.bind, Except.bind,
    pure, StateT.pure, Except.pure, hslice]

/-- Moving over the bytes of some characters is moving over the characters. -/
theorem At.skipWhile (h : p.At rest) {f : UInt8 → Bool} (hf : ∀ b, f b = true → b.toNat < 0x80) :
    Parser.skipWhile f p = .ok ((), p.move (rest.takeWhile (charOf f))) := by
  have hlength : (((utf8 p.text).drop p.cursor).takeWhile f).length =
      (utf8 (rest.takeWhile (charOf f))).length := by
    rw [h.bytes, takeWhile_utf8 hf]
  simp only [Parser.skipWhile, modify, modifyGet, MonadStateOf.modifyGet, StateT.modifyGet, pure,
    Except.pure, hlength, Parser.move]

theorem isSpace_low (b : UInt8) (h : isSpace b = true) : b.toNat < 0x80 := by
  simp only [isSpace, Bool.or_eq_true, beq_iff_eq] at h
  rcases h with ((rfl | rfl) | rfl) | rfl <;> decide

theorem isDigit_low (b : UInt8) (h : isDigit b = true) : b.toNat < 0x80 := by
  simp only [isDigit, Bool.and_eq_true, decide_eq_true_eq, UInt8.le_iff_toNat_le] at h
  have h9 : (0x39 : UInt8).toNat = 57 := rfl
  omega

theorem At.skipWs (h : p.At rest) : Parser.skipWs p = .ok ((), p.move (rest.takeWhile isWs)) := by
  have hcharOf : charOf isSpace = isWs := funext charOf_isSpace
  rw [Parser.skipWs, h.skipWhile isSpace_low, hcharOf]

theorem At.skipDigits (h : p.At rest) :
    Parser.skipWhile isDigit p = .ok ((), p.move (rest.takeWhile Char.isDigit)) := by
  have hcharOf : charOf isDigit = Char.isDigit := funext charOf_isDigit
  rw [h.skipWhile isDigit_low, hcharOf]

end Parser
end MirrorRust
