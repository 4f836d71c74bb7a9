import MirrorRust.Json

/-! The compact text of a tree determines the tree, provided every number is a
nonempty word over the characters a JSON number may contain. -/
namespace MirrorRust
namespace Json

def isNumberChar (c : Char) : Bool :=
  c.isDigit || c == '+' || c == '-' || c == '.' || c == 'e' || c == 'E'

/-- A word that can stand for a number: nonempty and free of structural characters. -/
def IsLexeme (n : String) : Prop := n.toList ≠ [] ∧ ∀ c ∈ n.toList, isNumberChar c = true

mutual

/-- Every number of the tree is a lexeme. -/
def Lexical : Json → Prop
  | .number n => IsLexeme n
  | .array items => LexicalItems items
  | .object fields => LexicalFields fields
  | _ => True

def LexicalItems : List Json → Prop
  | [] => True
  | j :: items => Lexical j ∧ LexicalItems items

def LexicalFields : List (String × Json) → Prop
  | [] => True
  | (_, j) :: fields => Lexical j ∧ LexicalFields fields

end

theorem lexicalItems_iff (items : List Json) : LexicalItems items ↔ ∀ j ∈ items, Lexical j := by
  induction items with
  | nil => simp [LexicalItems]
  | cons j items ih => simp [LexicalItems, ih]

/-- The text does not go on with a number character. -/
def Closed (s : List Char) : Prop := ∀ c ∈ s.head?, isNumberChar c = false

theorem closed_cons {c : Char} {s : List Char} (h : isNumberChar c = false) : Closed (c :: s) := by
  simp [Closed, h]

/-! ### Strings -/

/-- The two hexadecimal digits of a control character identify it. -/
theorem hexDigits_inj : ∀ m < 32, ∀ n < 32, Nat.digitChar (m / 16) = Nat.digitChar (n / 16) →
    Nat.digitChar (m % 16) = Nat.digitChar (n % 16) → m = n := by decide

theorem escape_head (c : Char) (s : List Char) : ∃ d t, escape c ++ s = d :: t ∧ d ≠ '\"' := by
  unfold escape
  split_ifs with h1 h2 h3
  · exact ⟨_, _, rfl, by decide⟩
  · exact ⟨_, _, rfl, by decide⟩
  · split <;> exact ⟨_, _, rfl, by decide⟩
  · exact ⟨c, s, rfl, h1⟩

theorem escape_control_inj (c d : Char) (s t : List Char) (hc : c.toNat < 0x20)
    (hd : d.toNat < 0x20) (h : escape c ++ s = escape d ++ t) : c = d ∧ s = t := by
  have ne : ∀ e : Char, e.toNat < 0x20 → e ≠ '\"' ∧ e ≠ '\\' := by
    rintro e he
    constructor <;> rintro rfl <;> revert he <;> decide
  have key : c.toNat = d.toNat ∧ s = t := by
    simp only [escape, ne c hc, ne d hd, hc, hd, if_false, if_true] at h
    generalize c.toNat = m at *
    generalize d.toNat = n at *
    split at h <;> split at h <;>
      simp_all only [List.cons_append, List.nil_append, List.cons.injEq, true_and, Char.reduceEq,
        false_and, and_self, and_true]
    exact hexDigits_inj _ hc _ hd h.1 h.2.1
  exact ⟨Char.ext (UInt32.toNat_inj.mp key.1), key.2⟩

theorem escape_control_ne (c d : Char) (s t : List Char) (hc : c.toNat < 0x20)
    (hd : ¬ d.toNat < 0x20) : escape c ++ s ≠ escape d ++ t := by
  intro h
  have ne : c ≠ '\"' ∧ c ≠ '\\' := by constructor <;> rintro rfl <;> revert hc <;> decide
  simp only [escape, ne.1, ne.2, hc, if_false, if_true] at h
  split_ifs at h with h1 h2 <;> split at h <;>
    simp_all only [List.cons_append, List.nil_append, List.cons.injEq, Char.reduceEq, false_and,
      and_false, not_true_eq_false]

theorem escape_append_inj {c d : Char} {s t : List Char} (h : escape c ++ s = escape d ++ t) :
    c = d ∧ s = t := by
  by_cases hc : c.toNat < 0x20 <;> by_cases hd : d.toNat < 0x20
  · exact escape_control_inj c d s t hc hd h
  · exact absurd h (escape_control_ne c d s t hc hd)
  · exact absurd h.symm (escape_control_ne d c t s hd hc)
  · simp only [escape, hc, hd, if_false] at h
    split_ifs at h <;> grind

theorem escapes_append_inj {cs ds s t : List Char}
    (h : cs.flatMap escape ++ '\"' :: s = ds.flatMap escape ++ '\"' :: t) : cs = ds ∧ s = t := by
  induction cs generalizing ds with
  | nil =>
    cases ds with
    | nil => simpa using h
    | cons d ds =>
      obtain ⟨e, u, he, hne⟩ := escape_head d (ds.flatMap escape ++ '\"' :: t)
      simp only [List.flatMap_nil, List.nil_append, List.flatMap_cons, List.append_assoc, he] at h
      exact absurd (List.cons.inj h).1.symm hne
  | cons c cs ih =>
    cases ds with
    | nil =>
      obtain ⟨e, u, he, hne⟩ := escape_head c (cs.flatMap escape ++ '\"' :: s)
      simp only [List.flatMap_nil, List.nil_append, List.flatMap_cons, List.append_assoc, he] at h
      exact absurd (List.cons.inj h).1 hne
    | cons d ds =>
      simp only [List.flatMap_cons, List.append_assoc] at h
      obtain ⟨hc, hrest⟩ := escape_append_inj h
      obtain ⟨hcs, hst⟩ := ih hrest
      exact ⟨by rw [hc, hcs], hst⟩

theorem quoted_append_inj {a b : String} {s t : List Char}
    (h : quoted a ++ s = quoted b ++ t) : a = b ∧ s = t := by
  simp only [quoted, List.cons_append, List.append_assoc, List.cons.injEq, true_and,
    List.nil_append] at h
  obtain ⟨hab, hst⟩ := escapes_append_inj h
  exact ⟨String.toList_inj.mp hab, hst⟩

/-! ### Trees -/

/-- The constructor of a tree, in the order of the declaration. -/
def shape : Json → ℕ
  | .null => 0
  | .bool _ => 1
  | .number _ => 2
  | .string _ => 3
  | .array _ => 4
  | .object _ => 5

/-- The constructor that the first character of a text announces. -/
def announced (c : Char) : ℕ :=
  if c = 'n' then 0
  else if c = 't' ∨ c = 'f' then 1
  else if c = '\"' then 3
  else if c = '[' then 4
  else if c = '\x7b' then 5
  else if isNumberChar c then 2
  else 6

theorem announced_number {c : Char} (hc : isNumberChar c = true) : announced c = 2 := by
  have ne : c ≠ 'n' ∧ c ≠ 't' ∧ c ≠ 'f' ∧ c ≠ '\"' ∧ c ≠ '[' ∧ c ≠ '\x7b' := by
    refine ⟨?_, ?_, ?_, ?_, ?_, ?_⟩ <;> rintro rfl <;> revert hc <;> decide
  simp [announced, ne, hc]

theorem chars_head (j : Json) (hj : j.Lexical) :
    ∃ c s, j.chars = c :: s ∧ announced c = j.shape := by
  cases j with
  | null => exact ⟨_, _, rfl, rfl⟩
  | bool b => cases b <;> exact ⟨_, _, rfl, rfl⟩
  | number n =>
    obtain ⟨hne, hall⟩ := hj
    obtain ⟨c, s, hcs⟩ := List.exists_cons_of_ne_nil hne
    exact ⟨c, s, by rw [chars, hcs], announced_number (hall c (by simp [hcs]))⟩
  | string s => exact ⟨_, _, rfl, rfl⟩
  | array items => exact ⟨_, _, rfl, rfl⟩
  | object fields => exact ⟨_, _, rfl, rfl⟩

theorem shape_eq_of_chars {i j : Json} {s t : List Char} (hi : i.Lexical) (hj : j.Lexical)
    (h : i.chars ++ s = j.chars ++ t) : i.shape = j.shape := by
  obtain ⟨c, u, hc, hci⟩ := chars_head i hi
  obtain ⟨d, v, hd, hdj⟩ := chars_head j hj
  rw [hc, hd, List.cons_append, List.cons_append] at h
  rw [← hci, ← hdj, (List.cons.inj h).1]

theorem chars_ne_closing {j : Json} {c : Char} {s t : List Char} (hj : j.Lexical)
    (hc : announced c = 6) : j.chars ++ s ≠ c :: t := by
  intro h
  obtain ⟨d, u, hd, hshape⟩ := chars_head j hj
  rw [hd, List.cons_append] at h
  rw [(List.cons.inj h).1, hc] at hshape
  cases j <;> simp [shape] at hshape

theorem number_append_inj {m n : String} {s t : List Char} (hm : IsLexeme m) (hn : IsLexeme n)
    (hs : Closed s) (ht : Closed t) (h : m.toList ++ s = n.toList ++ t) : m = n ∧ s = t := by
  have take : ∀ (n : String) (s : List Char), IsLexeme n → Closed s →
      (n.toList ++ s).takeWhile isNumberChar = n.toList := by
    intro n s hn hs
    have htail : s.takeWhile isNumberChar = [] := by
      cases s with
      | nil => rfl
      | cons c s => simp [hs c (by simp)]
    rw [List.takeWhile_append_of_pos hn.2, htail, List.append_nil]
  have hmn : m.toList = n.toList := by rw [← take m s hm hs, h, take n t hn ht]
  exact ⟨String.toList_inj.mp hmn, by simpa [hmn] using h⟩

theorem closed_itemChars (items : List Json) (s : List Char) :
    Closed (itemChars false items ++ s) := by
  cases items <;> exact closed_cons (by decide)

theorem closed_fieldChars (fields : List (String × Json)) (s : List Char) :
    Closed (fieldChars false fields ++ s) := by
  cases fields <;> exact closed_cons (by decide)

/-- Texts of trees are uniquely decodable in front of any closed continuation. -/
def Decodable (i : Json) : Prop :=
  ∀ (j : Json) (s t : List Char), i.Lexical → j.Lexical → Closed s → Closed t →
    i.chars ++ s = j.chars ++ t → i = j ∧ s = t

theorem items_append_inj {items : List Json} (ih : ∀ i ∈ items, Decodable i) :
    ∀ (first : Bool) (others : List Json) (s t : List Char),
      LexicalItems items → LexicalItems others →
      itemChars first items ++ s = itemChars first others ++ t → items = others ∧ s = t := by
  induction items with
  | nil =>
    intro first others s t _ ho h
    cases others with
    | nil => simpa [itemChars] using h
    | cons j others =>
      cases first with
      | true =>
        simp only [itemChars, if_true, List.nil_append, List.append_assoc, List.singleton_append] at h
        exact absurd h.symm (chars_ne_closing ho.1 (by decide))
      | false => simp [itemChars] at h
  | cons i items ih' =>
    intro first others s t hi ho h
    cases others with
    | nil =>
      cases first with
      | true =>
        simp only [itemChars, if_true, List.nil_append, List.append_assoc, List.singleton_append] at h
        exact absurd h (chars_ne_closing hi.1 (by decide))
      | false => simp [itemChars] at h
    | cons j others =>
      simp only [itemChars, List.append_assoc, List.append_cancel_left_eq] at h
      obtain ⟨hij, hrest⟩ := ih i (by simp) j _ _ hi.1 ho.1 (closed_itemChars items s)
        (closed_itemChars others t) h
      obtain ⟨heq, hst⟩ := ih' (fun k hk => ih k (by simp [hk])) false others s t hi.2 ho.2 hrest
      exact ⟨by rw [hij, heq], hst⟩

theorem fields_append_inj {fields : List (String × Json)} (ih : ∀ p ∈ fields, Decodable p.2) :
    ∀ (first : Bool) (others : List (String × Json)) (s t : List Char),
      LexicalFields fields → LexicalFields others →
      fieldChars first fields ++ s = fieldChars first others ++ t → fields = others ∧ s = t := by
  induction fields with
  | nil =>
    intro first others s t _ _ h
    cases others with
    | nil => simpa [fieldChars] using h
    | cons p others => cases first <;> simp [fieldChars, quoted] at h
  | cons p fields ih' =>
    obtain ⟨k, i⟩ := p
    intro first others s t hi ho h
    cases others with
    | nil => cases first <;> simp [fieldChars, quoted] at h
    | cons q others =>
      obtain ⟨l, j⟩ := q
      simp only [fieldChars, List.append_assoc, List.cons_append, List.append_cancel_left_eq] at h
      obtain ⟨hkl, hrest⟩ := quoted_append_inj h
      obtain ⟨hij, hrest⟩ := ih (k, i) (by simp) j _ _ hi.1 ho.1 (closed_fieldChars fields s)
        (closed_fieldChars others t) (List.cons.inj hrest).2
      obtain ⟨heq, hst⟩ := ih' (fun r hr => ih r (by simp [hr])) false others s t hi.2 ho.2 hrest
      exact ⟨by rw [hkl, show i = j from hij, heq], hst⟩

theorem decodable (i : Json) : Decodable i := by
  intro j s t hi hj hs ht h
  have hshape := shape_eq_of_chars hi hj h
  induction i generalizing j s t with
  | null =>
    cases j <;> simp only [shape, OfNat.zero_ne_ofNat, zero_ne_one] at hshape
    exact ⟨rfl, by simpa [chars] using h⟩
  | bool b =>
    cases j <;> simp only [shape, OfNat.one_ne_ofNat, one_ne_zero] at hshape
    rename_i c
    cases b <;> cases c <;> simp_all [chars]
  | number n =>
    cases j <;> simp [shape] at hshape
    obtain ⟨hn, hst⟩ := number_append_inj hi hj hs ht h
    exact ⟨by rw [hn], hst⟩
  | string a =>
    cases j <;> simp [shape] at hshape
    obtain ⟨ha, hst⟩ := quoted_append_inj h
    exact ⟨by rw [ha], hst⟩
  | array items ih =>
    cases j <;> simp [shape] at hshape
    obtain ⟨hitems, hst⟩ := items_append_inj
      (fun i hi j s t hij hj hs ht h => ih i hi j s t hij hj hs ht h (shape_eq_of_chars hij hj h))
      true _ s t hi hj (List.cons.inj h).2
    exact ⟨by rw [hitems], hst⟩
  | object fields ih =>
    cases j <;> simp [shape] at hshape
    obtain ⟨hfields, hst⟩ := fields_append_inj
      (fun p hp j s t hij hj hs ht h => ih p hp j s t hij hj hs ht h (shape_eq_of_chars hij hj h))
      true _ s t hi hj (List.cons.inj h).2
    exact ⟨by rw [hfields], hst⟩

/-- Different trees have different texts. -/
theorem render_inj {i j : Json} (hi : i.Lexical) (hj : j.Lexical) :
    i.render = j.render ↔ i = j := by
  constructor
  · intro h
    have hchars : i.chars ++ [] = j.chars ++ [] := by
      simpa [render, String.ofList_inj] using h
    exact (decodable i j [] [] hi hj (by simp [Closed]) (by simp [Closed]) hchars).1
  · rintro rfl
    rfl

end Json
end MirrorRust
