import MirrorRust.JsonGrammar
import MirrorRust.ValueCodec

/-! Bare numbers are decoded exactly: the integer that is returned is the rational value of the
lexeme, except for some spellings of zero. -/
namespace MirrorRust

/-! ### The value of a lexeme -/

/-- The parts of a number token: a sign, the digits on both sides of the point, and the exponent. -/
structure Decimal where
  negative : Bool
  whole : List Char
  fraction : List Char
  exponent : ℤ

namespace Decimal

def ofDigits (ds : List Char) : ℕ := Nat.ofDigitChars 10 ds 0

def sign (d : Decimal) : ℤ := if d.negative then -1 else 1

def digits (d : Decimal) : List Char := d.whole ++ d.fraction

/-- The power of ten that the digits are scaled by. -/
def scale (d : Decimal) : ℤ := d.exponent - d.fraction.length

/-- The exact value: the integer part and the fraction, scaled by the exponent. -/
def value (d : Decimal) : ℚ :=
  d.sign * (ofDigits d.whole + ofDigits d.fraction / 10 ^ d.fraction.length) * 10 ^ d.exponent

end Decimal

inductive SpellsFraction : List Char → List Char → Prop
  | none : SpellsFraction [] []
  | point {ds} : Digits ds → SpellsFraction ('.' :: ds) ds

inductive SpellsExponent : List Char → ℤ → Prop
  | none : SpellsExponent [] 0
  | plain {e ds} : e = 'e' ∨ e = 'E' → Digits ds → SpellsExponent (e :: ds) (Decimal.ofDigits ds)
  | plus {e ds} : e = 'e' ∨ e = 'E' → Digits ds →
      SpellsExponent (e :: '+' :: ds) (Decimal.ofDigits ds)
  | minus {e ds} : e = 'e' ∨ e = 'E' → Digits ds →
      SpellsExponent (e :: '-' :: ds) (-(Decimal.ofDigits ds : ℤ))

/-- `[ minus ] int [ frac ] [ exp ]`, with the parts that are spelled. -/
inductive SpellsDecimal : List Char → Decimal → Prop
  | positive {int frac fraction exp exponent} : IntPart int → SpellsFraction frac fraction →
      SpellsExponent exp exponent →
      SpellsDecimal (int ++ (frac ++ exp)) ⟨false, int, fraction, exponent⟩
  | negative {int frac fraction exp exponent} : IntPart int → SpellsFraction frac fraction →
      SpellsExponent exp exponent →
      SpellsDecimal ('-' :: (int ++ (frac ++ exp))) ⟨true, int, fraction, exponent⟩

/-- No intermediate of the decoder overflows: the exponent and the scale are signed words, and the
digits with the zeros that are appended fit into memory. -/
structure Decimal.Small (d : Decimal) : Prop where
  exponent_lower : -2 ^ 63 ≤ d.exponent
  exponent_upper : d.exponent < 2 ^ 63
  scale_lower : -2 ^ 63 < d.scale
  digits_upper : d.digits.length + d.scale < 2 ^ 63

/-! ### The text is split into its parts -/

theorem splitOnce_append {p : Char → Bool} {before after : List Char} {c : Char}
    (hbefore : ∀ d ∈ before, p d = false) (hc : p c = true) :
    splitOnce p (before ++ c :: after) = some (before, after) := by
  have hall : ∀ d ∈ before, (!p d) = true := fun d hd => by rw [hbefore d hd, Bool.not_false]
  have hstop : (!p c) = false := by rw [hc, Bool.not_true]
  unfold splitOnce
  rw [List.dropWhile_append_of_pos hall, List.takeWhile_append_of_pos hall, List.dropWhile_cons,
    List.takeWhile_cons, hstop]
  simp

theorem splitOnce_none {p : Char → Bool} {s : List Char} (h : ∀ d ∈ s, p d = false) :
    splitOnce p s = none := by
  have hall : s.dropWhile (fun d => !p d) = [] :=
    List.dropWhile_eq_nil_iff.mpr fun d hd => by rw [h d hd, Bool.not_false]
  unfold splitOnce
  rw [hall]

theorem intPart_digits {int : List Char} (h : IntPart int) : Digits int := by
  rcases h with rfl | ⟨hdigits, -⟩
  · exact ⟨List.cons_ne_nil _ _, by simp⟩
  · exact hdigits

theorem spellsFraction_digits {frac fraction : List Char} (h : SpellsFraction frac fraction) :
    ∀ c ∈ fraction, c.isDigit = true := by
  cases h with
  | none => simp
  | point hds => exact hds.2

theorem digits_word {ds : List Char} (h : Digits ds) :
    (ds.isEmpty || !ds.all Char.isDigit) = false := by
  rw [List.all_eq_true.mpr h.2, Bool.not_true, Bool.or_false]
  simpa using h.1

theorem parseI64_plus {ds : List Char} (h : Digits ds) (hupper : (Decimal.ofDigits ds : ℤ) < 2 ^ 63) :
    parseI64 ('+' :: ds) = some (Decimal.ofDigits ds : ℤ) := by
  have hlower : -2 ^ 63 ≤ (Decimal.ofDigits ds : ℤ) := by omega
  simp only [parseI64, digits_word h, Bool.false_eq_true, if_false]
  exact if_pos ⟨hlower, hupper⟩

theorem parseI64_minus {ds : List Char} (h : Digits ds)
    (hlower : -2 ^ 63 ≤ -(Decimal.ofDigits ds : ℤ)) :
    parseI64 ('-' :: ds) = some (-(Decimal.ofDigits ds : ℤ)) := by
  have hupper : -(Decimal.ofDigits ds : ℤ) < 2 ^ 63 := by omega
  simp only [parseI64, digits_word h, Bool.false_eq_true, if_false, if_true]
  exact if_pos ⟨hlower, hupper⟩

theorem parseI64_plain {ds : List Char} (h : Digits ds)
    (hupper : (Decimal.ofDigits ds : ℤ) < 2 ^ 63) :
    parseI64 ds = some (Decimal.ofDigits ds : ℤ) := by
  have hne := h.1
  have hall := h.2
  cases ds with
  | nil => exact absurd rfl hne
  | cons c cs =>
    have hc := hall c (by simp)
    have hminus : c ≠ '-' := isDigit_ne hc (by decide)
    have hsign : c ≠ '+' := isDigit_ne hc (by decide)
    unfold parseI64
    split
    rename_i negative digits heq
    have hpair : negative = false ∧ digits = c :: cs := by
      split at heq
      · rename_i hcons
        exact absurd (List.cons.inj hcons).1 hminus
      · rename_i hcons
        exact absurd (List.cons.inj hcons).1 hsign
      · cases heq
        exact ⟨rfl, rfl⟩
    obtain ⟨rfl, rfl⟩ := hpair
    have hlower : -2 ^ 63 ≤ (Decimal.ofDigits (c :: cs) : ℤ) := by omega
    simp only [digits_word h, Bool.false_eq_true, if_false]
    exact if_pos ⟨hlower, hupper⟩

theorem exponent_read {exp : List Char} {exponent : ℤ} (h : SpellsExponent exp exponent)
    (hlower : -2 ^ 63 ≤ exponent) (hupper : exponent < 2 ^ 63) :
    (exp = [] ∧ exponent = 0) ∨
      ∃ e rest, exp = e :: rest ∧ (e = 'e' ∨ e = 'E') ∧ parseI64 rest = some exponent := by
  cases h with
  | none => exact Or.inl ⟨rfl, rfl⟩
  | plain he hds => exact Or.inr ⟨_, _, rfl, he, parseI64_plain hds hupper⟩
  | plus he hds => exact Or.inr ⟨_, _, rfl, he, parseI64_plus hds hupper⟩
  | minus he hds => exact Or.inr ⟨_, _, rfl, he, parseI64_minus hds hlower⟩

theorem split_point {int frac fraction : List Char} (hint : IntPart int)
    (hfrac : SpellsFraction frac fraction) :
    (splitOnce (· == '.') (int ++ frac)).getD (int ++ frac, []) = (int, fraction) := by
  have hdigits : ∀ c ∈ int, (c == '.') = false := fun c hc => by
    simpa using isDigit_ne ((intPart_digits hint).2 c hc) (by decide)
  cases hfrac with
  | none => rw [List.append_nil, splitOnce_none hdigits, Option.getD_none]
  | point hds => rw [splitOnce_append hdigits rfl, Option.getD_some]

theorem mantissa_unmarked {int frac fraction : List Char} (hint : IntPart int)
    (hfrac : SpellsFraction frac fraction) :
    ∀ c ∈ int ++ frac, (c == 'e' || c == 'E') = false := by
  have hdigit : ∀ c : Char, c.isDigit = true → (c == 'e' || c == 'E') = false := fun c hc => by
    simp [isDigit_ne hc (show 'e'.isDigit = false by decide),
      isDigit_ne hc (show 'E'.isDigit = false by decide)]
  intro c hc
  rcases List.mem_append.mp hc with hc | hc
  · exact hdigit c ((intPart_digits hint).2 c hc)
  · cases hfrac with
    | none => cases hc
    | point hds =>
      rcases List.mem_cons.mp hc with rfl | hc
      · decide
      · exact hdigit c (hds.2 c hc)

/-! ### The digits with their scale -/

theorem sign_split {n : String} {d : Decimal} (h : SpellsDecimal n.toList d) :
    ∃ frac exp, SpellsFraction frac d.fraction ∧ SpellsExponent exp d.exponent ∧ IntPart d.whole ∧
      ∀ (negative : Bool) (unsigned : List Char), (match n.toList with
        | '-' :: rest => (true, rest)
        | cs => (false, cs)) = (negative, unsigned) →
        negative = d.negative ∧ unsigned = d.whole ++ (frac ++ exp) := by
  generalize n.toList = text at h
  cases h with
  | @positive int frac fraction exp exponent hint hfrac hexp =>
    refine ⟨frac, exp, hfrac, hexp, hint, fun negative unsigned heq => ?_⟩
    obtain ⟨hne, hall⟩ := intPart_digits hint
    obtain ⟨c, cs, hcs⟩ := List.exists_cons_of_ne_nil hne
    have hminus : c ≠ '-' := isDigit_ne (hall c (by simp [hcs])) (by decide)
    subst hcs
    split at heq
    · rename_i hcons
      exact absurd (List.cons.inj hcons).1 hminus
    · cases heq
      exact ⟨rfl, rfl⟩
  | negative hint hfrac hexp =>
    refine ⟨_, _, hfrac, hexp, hint, fun negative unsigned heq => ?_⟩
    cases heq
    exact ⟨rfl, rfl⟩

theorem numberToBigint_parts {n : String} {d : Decimal} (h : SpellsDecimal n.toList d)
    (hsmall : d.Small) :
    let remove := (-d.scale).toNat
    let signed := fun ds : List Char => String.ofList (if d.negative then '-' :: ds else ds)
    numberToBigint n =
      if 0 ≤ d.scale then
        match parseBigInt (signed (d.digits ++ List.replicate d.scale.toNat '0')) with
        | some z => .ok z
        | none => .error (invalidValue "malformed bare JSON integer")
      else if remove > d.digits.length ||
          !(d.digits.drop (d.digits.length - remove)).all (· == '0') then
        .error (invalidValue "bare JSON number not in ITF integral grammar")
      else
        let kept := d.digits.take (d.digits.length - remove)
        match parseBigInt (signed (if kept.isEmpty then ['0'] else kept)) with
        | some z => .ok z
        | none => .error (invalidValue "malformed bare JSON integer") := by
  intro remove signed
  obtain ⟨frac, exp, hfrac, hexp, hint, hsign⟩ := sign_split h
  have hpoint := split_point hint hfrac
  have hmarks := mantissa_unmarked hint hfrac
  have hlower := hsmall.scale_lower
  have hscale : ¬ d.scale < -2 ^ 63 := by omega
  have hnegate : ¬ d.scale = -2 ^ 63 := by omega
  have hroom : 0 ≤ d.scale → ¬ d.digits.length + d.scale.toNat ≥ 2 ^ 63 := by
    intro hnonneg
    have hupper := hsmall.digits_upper
    omega
  unfold numberToBigint
  split
  rename_i negative unsigned heq
  obtain ⟨rfl, rfl⟩ := hsign negative unsigned heq
  have hchoice : ∀ {α : Type} (overflow capacity negate a b : α),
      (if d.scale < -2 ^ 63 then overflow
        else if 0 ≤ d.scale then (if d.digits.length + d.scale.toNat ≥ 2 ^ 63 then capacity else a)
        else if d.scale = -2 ^ 63 then negate else b) = if 0 ≤ d.scale then a else b := by
    intro α overflow capacity negate a b
    rw [if_neg hscale, if_neg hnegate]
    split_ifs with hnonneg hfull
    · exact absurd hfull (hroom hnonneg)
    · rfl
    · rfl
  rcases exponent_read hexp hsmall.exponent_lower hsmall.exponent_upper with
    ⟨rfl, hzero⟩ | ⟨e, rest, rfl, he, hparse⟩
  · have hexponent : (0 : ℤ) - d.fraction.length = d.scale := by rw [Decimal.scale, ← hzero]
    rw [List.append_nil, splitOnce_none hmarks]
    simp only [bind, Except.bind, hpoint, hexponent]
    exact hchoice _ _ _ _ _
  · have hmark : (e == 'e' || e == 'E') = true := by rcases he with rfl | rfl <;> decide
    rw [← List.append_assoc, splitOnce_append hmarks hmark]
    simp only [hparse, bind, Except.bind, hpoint]
    exact hchoice _ _ _ _ _

/-! ### Words of digits -/

theorem ofDigits_append (ds es : List Char) :
    Decimal.ofDigits (ds ++ es) = 10 ^ es.length * Decimal.ofDigits ds + Decimal.ofDigits es := by
  rw [Decimal.ofDigits, Nat.ofDigitChars_append, Nat.ofDigitChars_eq_ofDigitChars_zero]
  rfl

theorem ofDigits_cons {c : Char} {ds : List Char} :
    Decimal.ofDigits (c :: ds) = 10 ^ ds.length * (c.toNat - '0'.toNat) + Decimal.ofDigits ds := by
  rw [Decimal.ofDigits, Nat.ofDigitChars_cons, Nat.ofDigitChars_eq_ofDigitChars_zero, mul_zero,
    zero_add]
  rfl

theorem digit_value {c : Char} (h : c.isDigit = true) :
    c.toNat - '0'.toNat < 10 ∧ (c.toNat - '0'.toNat = 0 ↔ c = '0') := by
  obtain ⟨hlow, hhigh⟩ := Char.isDigit_iff_toNat.mp h
  have hnine : '9'.toNat = '0'.toNat + 9 := rfl
  refine ⟨by omega, fun hzero => Char.toNat_inj.mp (by omega), ?_⟩
  rintro rfl
  exact Nat.sub_self _

theorem ofDigits_lt {ds : List Char} (h : ∀ c ∈ ds, c.isDigit = true) :
    Decimal.ofDigits ds < 10 ^ ds.length := by
  induction ds with
  | nil => simp [Decimal.ofDigits]
  | cons c ds ih =>
    obtain ⟨hc, hds⟩ := List.forall_mem_cons.mp h
    have htail := ih hds
    have hdigit := (digit_value hc).1
    rw [ofDigits_cons, List.length_cons, pow_succ]
    nlinarith

theorem ofDigits_eq_zero {ds : List Char} (h : ∀ c ∈ ds, c.isDigit = true) :
    Decimal.ofDigits ds = 0 ↔ ∀ c ∈ ds, c = '0' := by
  induction ds with
  | nil => simp [Decimal.ofDigits]
  | cons c ds ih =>
    obtain ⟨hc, hds⟩ := List.forall_mem_cons.mp h
    rw [ofDigits_cons, Nat.add_eq_zero_iff, ih hds, List.forall_mem_cons, mul_eq_zero,
      (digit_value hc).2]
    simp

/-! ### Exactness -/

/-- The decoder returns the value when it is an integer, and an error when it is none. -/
structure DecodedExactly (n : String) (q : ℚ) : Prop where
  integer : ∀ z : ℤ, numberToBigint n = .ok z ↔ q = z
  refused : (∃ e, numberToBigint n = .error (.error e)) ↔ ¬ ∃ z : ℤ, q = z

theorem DecodedExactly.of_ok {n : String} {q : ℚ} {w : ℤ} (h : numberToBigint n = .ok w)
    (hq : q = w) : DecodedExactly n q := by
  constructor
  · intro z
    rw [h, hq, Except.ok.injEq, Int.cast_inj]
  · rw [h]
    constructor
    · rintro ⟨e, he⟩
      cases he
    · intro hnone
      exact absurd ⟨w, hq⟩ hnone

theorem DecodedExactly.of_error {n : String} {q : ℚ} {e : Error}
    (h : numberToBigint n = .error (.error e)) :
    DecodedExactly n q ↔ ¬ ∃ z : ℤ, q = z := by
  constructor
  · intro hexact
    exact hexact.refused.mp ⟨e, h⟩
  · intro hnone
    refine ⟨fun z => ?_, fun _ => hnone, fun _ => ⟨e, h⟩⟩
    rw [h]
    constructor
    · intro hz
      cases hz
    · intro hz
      exact absurd ⟨z, hz⟩ hnone

namespace Decimal
variable {n : String} {d : Decimal}

theorem sign_mul_sign (d : Decimal) : d.sign * d.sign = 1 := by
  unfold sign
  split_ifs <;> rfl

theorem value_eq (d : Decimal) : d.value = d.sign * ofDigits d.digits * 10 ^ d.scale := by
  have hne : (10 : ℚ) ≠ 0 := by norm_num
  rw [value, digits, ofDigits_append, scale, zpow_sub₀ hne, zpow_natCast]
  push_cast
  field_simp

theorem value_eq_iff (d : Decimal) {r : ℕ} (hr : d.scale = -r) (z : ℤ) :
    d.value = z ↔ (ofDigits d.digits : ℤ) = d.sign * z * 10 ^ r := by
  have hpow : (10 : ℚ) ^ r ≠ 0 := by positivity
  have hsign := d.sign_mul_sign
  rw [value_eq, hr, zpow_neg, zpow_natCast, ← div_eq_mul_inv, div_eq_iff hpow]
  constructor
  · intro h
    have h' : d.sign * (ofDigits d.digits : ℤ) = z * 10 ^ r := by exact_mod_cast h
    calc (ofDigits d.digits : ℤ) = d.sign * d.sign * ofDigits d.digits := by rw [hsign, one_mul]
      _ = d.sign * z * 10 ^ r := by rw [mul_assoc, h', mul_assoc]
  · intro h
    have h' : d.sign * (ofDigits d.digits : ℤ) = z * 10 ^ r := by
      rw [h]
      calc d.sign * (d.sign * z * 10 ^ r) = d.sign * d.sign * (z * 10 ^ r) := by ring
        _ = z * 10 ^ r := by rw [hsign, one_mul]
    exact_mod_cast h'

theorem parseBigInt_signed {ds : List Char} (d : Decimal) (h : Digits ds) :
    parseBigInt (String.ofList (if d.negative then '-' :: ds else ds)) =
      some (d.sign * ofDigits ds) := by
  obtain ⟨hplain, hminus⟩ := parseBigInt_digits h.1 h.2
  unfold sign
  split_ifs with hneg
  · rw [hminus, neg_one_mul]
    rfl
  · rw [hplain, one_mul]
    rfl

end Decimal

/-! ### The three outcomes -/

theorem Digits.append {ds es : List Char} (hds : Digits ds) (hes : ∀ c ∈ es, c.isDigit = true) :
    Digits (ds ++ es) := by
  refine ⟨List.append_ne_nil_of_left_ne_nil hds.1 _, fun c hc => ?_⟩
  rcases List.mem_append.mp hc with hc | hc
  · exact hds.2 c hc
  · exact hes c hc

theorem spellsDecimal_intPart {text : List Char} {d : Decimal} (h : SpellsDecimal text d) :
    IntPart d.whole := by
  cases h <;> assumption

theorem spellsDecimal_digits {text : List Char} {d : Decimal} (h : SpellsDecimal text d) :
    Digits d.digits := by
  cases h with
  | positive hint hfrac _ => exact (intPart_digits hint).append (spellsFraction_digits hfrac)
  | negative hint hfrac _ => exact (intPart_digits hint).append (spellsFraction_digits hfrac)

theorem zeros_digits (k : ℕ) : ∀ c ∈ List.replicate k '0', c.isDigit = true := by
  intro c hc
  rw [List.eq_of_mem_replicate hc]
  rfl

theorem suffix_zeros_iff {ds : List Char} {r : ℕ} :
    (r > ds.length || !(ds.drop (ds.length - r)).all (· == '0')) = false ↔
      ∃ kept, ds = kept ++ List.replicate r '0' := by
  rw [Bool.or_eq_false_iff, decide_eq_false_iff_not, Bool.not_eq_false', not_lt]
  constructor
  · rintro ⟨hlength, hall⟩
    refine ⟨ds.take (ds.length - r), ?_⟩
    have htail : ds.drop (ds.length - r) = List.replicate r '0' := by
      rw [List.eq_replicate_iff]
      refine ⟨by rw [List.length_drop]; omega, fun c hc => ?_⟩
      simpa using List.all_eq_true.mp hall c hc
    rw [← htail, List.take_append_drop]
  · rintro ⟨kept, rfl⟩
    rw [List.length_append, List.length_replicate, Nat.add_sub_cancel, List.drop_left]
    exact ⟨Nat.le_add_left _ _, by simp⟩

section Outcomes
variable {n : String} {d : Decimal}

theorem numberToBigint_scaled (h : SpellsDecimal n.toList d) (hsmall : d.Small)
    (hscale : 0 ≤ d.scale) :
    numberToBigint n = .ok (d.sign * (10 ^ d.scale.toNat * Decimal.ofDigits d.digits : ℕ)) := by
  have hdigits := (spellsDecimal_digits h).append (zeros_digits d.scale.toNat)
  have hvalue : Decimal.ofDigits (d.digits ++ List.replicate d.scale.toNat '0') =
      10 ^ d.scale.toNat * Decimal.ofDigits d.digits := by
    rw [Decimal.ofDigits, Nat.ofDigitChars_append, Nat.ofDigitChars_replicate_zero]
    rfl
  rw [numberToBigint_parts h hsmall, if_pos hscale]
  simp only [Decimal.parseBigInt_signed d hdigits, hvalue]

theorem numberToBigint_kept (h : SpellsDecimal n.toList d) (hsmall : d.Small)
    {kept : List Char} {r : ℕ} (hr : d.scale = -(r + 1 : ℕ))
    (hkept : d.digits = kept ++ List.replicate (r + 1) '0') :
    numberToBigint n = .ok (d.sign * Decimal.ofDigits kept) := by
  have hremove : (-d.scale).toNat = r + 1 := by omega
  have htake : d.digits.take (d.digits.length - (r + 1)) = kept := by
    rw [hkept, List.length_append, List.length_replicate, Nat.add_sub_cancel, List.take_left]
  have hword : Digits (if kept.isEmpty then ['0'] else kept) ∧
      Decimal.ofDigits (if kept.isEmpty then ['0'] else kept) = Decimal.ofDigits kept := by
    cases kept with
    | nil => exact ⟨⟨List.cons_ne_nil _ _, by simp⟩, rfl⟩
    | cons c cs =>
      refine ⟨⟨List.cons_ne_nil _ _, fun e he => ?_⟩, rfl⟩
      exact (spellsDecimal_digits h).2 e (hkept ▸ List.mem_append_left _ he)
  rw [numberToBigint_parts h hsmall, if_neg (by omega), hremove]
  simp only [suffix_zeros_iff.mpr ⟨kept, hkept⟩, Bool.false_eq_true, if_false, htake,
    Decimal.parseBigInt_signed d hword.1, hword.2]

/-- The digits that would be cut off are not all there, or not all zeros. -/
theorem numberToBigint_refused (h : SpellsDecimal n.toList d) (hsmall : d.Small)
    {r : ℕ} (hr : d.scale = -(r + 1 : ℕ))
    (hkept : ¬ ∃ kept, d.digits = kept ++ List.replicate (r + 1) '0') :
    ∃ e, numberToBigint n = .error (.error e) := by
  have hremove : (-d.scale).toNat = r + 1 := by omega
  have hbad := mt suffix_zeros_iff.mp hkept
  rw [Bool.not_eq_false] at hbad
  have herror : numberToBigint n =
      .error (invalidValue "bare JSON number not in ITF integral grammar") := by
    rw [numberToBigint_parts h hsmall, if_neg (by omega), hremove, if_pos hbad]
  exact ⟨_, herror⟩

end Outcomes

/-! ### The spellings that are decoded exactly -/

theorem intPart_zero {int : List Char} (h : IntPart int) (hzero : ∀ c ∈ int, c = '0') :
    int = ['0'] := by
  rcases h with rfl | ⟨⟨hne, -⟩, hhead⟩
  · rfl
  · obtain ⟨c, cs, rfl⟩ := List.exists_cons_of_ne_nil hne
    exact absurd (congrArg some (hzero c (by simp))) hhead

/-- The value is zero when all digits are, and then one digit is in front of the point. -/
theorem value_zero {text : List Char} {d : Decimal} (h : SpellsDecimal text d) :
    d.value = 0 ↔ d.whole = ['0'] ∧ ∀ c ∈ d.digits, c = '0' := by
  have hdigits := (spellsDecimal_digits h).2
  have hpow : (10 : ℚ) ^ d.scale ≠ 0 := zpow_ne_zero _ (by norm_num)
  have hsign : (d.sign : ℚ) ≠ 0 := by
    have hsquare := d.sign_mul_sign
    intro hzero
    have hzero : d.sign = 0 := by exact_mod_cast hzero
    rw [hzero] at hsquare
    cases hsquare
  have hdenotes : d.value = 0 ↔ Decimal.ofDigits d.digits = 0 := by
    rw [d.value_eq, mul_eq_zero, mul_eq_zero]
    simp [hpow, hsign]
  rw [hdenotes, ofDigits_eq_zero hdigits]
  constructor
  · intro hzero
    exact ⟨intPart_zero (spellsDecimal_intPart h) fun c hc =>
      hzero c (List.mem_append_left _ hc), hzero⟩
  · exact And.right

/-- A refused lexeme denotes no integer, unless it denotes zero. -/
theorem not_integer {text : List Char} {d : Decimal} (h : SpellsDecimal text d) {r : ℕ}
    (hr : d.scale = -(r : ℤ)) (hkept : ¬ ∃ kept, d.digits = kept ++ List.replicate r '0')
    (hne : d.value ≠ 0) : ¬ ∃ z : ℤ, d.value = z := by
  rintro ⟨z, hz⟩
  have hdvd : (10 ^ r : ℤ) ∣ (Decimal.ofDigits d.digits : ℤ) := by
    rw [(d.value_eq_iff hr z).mp hz]
    exact Dvd.intro_left _ rfl
  have hdvd : 10 ^ r ∣ Decimal.ofDigits d.digits := by exact_mod_cast hdvd
  have hall := (spellsDecimal_digits h).2
  have hzero : Decimal.ofDigits d.digits ≠ 0 := by
    intro hzero
    rw [d.value_eq, hzero] at hne
    simp at hne
  by_cases hlength : r ≤ d.digits.length
  · -- the digits that stay, and the digits that would be cut off
    have hsplit := List.take_append_drop (d.digits.length - r) d.digits
    have htail : (d.digits.drop (d.digits.length - r)).length = r := by
      rw [List.length_drop]
      omega
    have hsub : ∀ c ∈ d.digits.drop (d.digits.length - r), c.isDigit = true := fun c hc =>
      hall c (List.mem_of_mem_drop hc)
    have hsmall := ofDigits_lt hsub
    rw [htail] at hsmall
    have hsum := ofDigits_append (d.digits.take (d.digits.length - r))
      (d.digits.drop (d.digits.length - r))
    rw [hsplit, htail] at hsum
    rw [hsum, Nat.dvd_add_right (Dvd.intro _ rfl)] at hdvd
    have hcut := Nat.eq_zero_of_dvd_of_lt hdvd hsmall
    rw [ofDigits_eq_zero hsub] at hcut
    refine hkept ⟨d.digits.take (d.digits.length - r), ?_⟩
    rw [← List.eq_replicate_iff.mpr ⟨htail, hcut⟩, hsplit]
  · have hsmall := ofDigits_lt hall
    have hpow : 10 ^ d.digits.length ≤ 10 ^ r := Nat.pow_le_pow_right (by decide) (by omega)
    exact hzero (Nat.eq_zero_of_dvd_of_lt hdvd (hsmall.trans_le hpow))

/-- A lexeme is decoded exactly, unless it spells zero with an exponent below minus one. -/
theorem numberToBigint_exact_iff {n : String} {d : Decimal} (h : SpellsDecimal n.toList d)
    (hsmall : d.Small) : DecodedExactly n d.value ↔ d.value ≠ 0 ∨ -1 ≤ d.exponent := by
  by_cases hscale : 0 ≤ d.scale
  · have hexponent : -1 ≤ d.exponent := by
      have hdef : d.scale = d.exponent - d.fraction.length := rfl
      omega
    refine iff_of_true (.of_ok (numberToBigint_scaled h hsmall hscale) ?_) (Or.inr hexponent)
    obtain ⟨k, hk⟩ := Int.eq_ofNat_of_zero_le hscale
    rw [d.value_eq, hk, Int.toNat_natCast, zpow_natCast]
    push_cast
    ring
  · obtain ⟨r, hr⟩ : ∃ r : ℕ, d.scale = -(r + 1 : ℕ) := ⟨(-d.scale).toNat - 1, by omega⟩
    have hdef : d.scale = d.exponent - d.fraction.length := rfl
    by_cases hkept : ∃ kept, d.digits = kept ++ List.replicate (r + 1) '0'
    · obtain ⟨kept, hkept⟩ := hkept
      have hvalue : d.value = ((d.sign * Decimal.ofDigits kept : ℤ) : ℚ) := by
        have hdigits : Decimal.ofDigits d.digits = 10 ^ (r + 1) * Decimal.ofDigits kept := by
          rw [hkept, Decimal.ofDigits, Nat.ofDigitChars_append, Nat.ofDigitChars_replicate_zero]
          rfl
        rw [d.value_eq_iff hr, hdigits, ← mul_assoc, d.sign_mul_sign, one_mul]
        push_cast
        ring
      refine iff_of_true (.of_ok (numberToBigint_kept h hsmall hr hkept) hvalue) ?_
      by_cases hzero : d.value = 0
      · right
        have hwhole := (value_zero h).mp hzero |>.1
        have hlength := congrArg List.length hkept
        rw [List.length_append, List.length_replicate, Decimal.digits, List.length_append, hwhole,
          List.length_singleton] at hlength
        omega
      · exact Or.inl hzero
    · obtain ⟨e, he⟩ := numberToBigint_refused h hsmall hr hkept
      rw [DecodedExactly.of_error he]
      by_cases hzero : d.value = 0
      · refine iff_of_false (fun hnone => hnone ⟨0, by rw [hzero, Int.cast_zero]⟩) ?_
        rintro (hne | hexponent)
        · exact hne hzero
        · obtain ⟨hwhole, hzeros⟩ := (value_zero h).mp hzero
          have hlength : d.digits.length = 1 + d.fraction.length := by
            rw [Decimal.digits, List.length_append, hwhole, List.length_singleton]
          refine hkept ⟨List.replicate (d.digits.length - (r + 1)) '0', ?_⟩
          rw [List.replicate_append_replicate, List.eq_replicate_iff]
          exact ⟨by omega, hzeros⟩
      · exact iff_of_true (not_integer h hr hkept hzero) (Or.inl hzero)

/-- `1.23e5` -/
theorem numberToBigint_exact_sample :
    DecodedExactly "1.23e5" (Decimal.value ⟨false, ['1'], ['2', '3'], 5⟩) ↔
      Decimal.value ⟨false, ['1'], ['2', '3'], 5⟩ ≠ 0 ∨ (-1 : ℤ) ≤ 5 := by
  have hone : IntPart ['1'] := Or.inr ⟨⟨List.cons_ne_nil _ _, by simp⟩, by simp⟩
  have hfraction : Digits ['2', '3'] := ⟨List.cons_ne_nil _ _, by simp⟩
  have hfive : Digits ['5'] := ⟨List.cons_ne_nil _ _, by simp⟩
  have hspells : SpellsDecimal "1.23e5".toList ⟨false, ['1'], ['2', '3'], 5⟩ :=
    .positive hone (.point hfraction) (.plain (Or.inl rfl) hfive)
  exact numberToBigint_exact_iff hspells ⟨by decide, by decide, by decide, by decide⟩

/-- `0e-2` spells zero, and is refused. -/
theorem numberToBigint_zero : SpellsDecimal "0e-2".toList ⟨false, ['0'], [], -2⟩ ∧
    Decimal.Small ⟨false, ['0'], [], -2⟩ ∧ Decimal.value ⟨false, ['0'], [], -2⟩ = 0 ∧
    ¬ DecodedExactly "0e-2" 0 := by
  have htwo : Digits ['2'] := ⟨List.cons_ne_nil _ _, by simp⟩
  have hspells : SpellsDecimal "0e-2".toList ⟨false, ['0'], [], -2⟩ :=
    .positive (Or.inl rfl) .none (.minus (Or.inl rfl) htwo)
  have hvalue : Decimal.value ⟨false, ['0'], [], -2⟩ = 0 :=
    (value_zero hspells).mpr ⟨rfl, by simp [Decimal.digits]⟩
  have hrefused : numberToBigint "0e-2" =
      .error (invalidValue "bare JSON number not in ITF integral grammar") := rfl
  refine ⟨hspells, ⟨by decide, by decide, by decide, by decide⟩, hvalue, fun hexact => ?_⟩
  have hzero := (hexact.integer 0).mpr (by simp)
  rw [hrefused] at hzero
  cases hzero

end MirrorRust
