import MirrorRust.JsonParser

/-! The grammar of JSON texts. A text spells a written tree, in which an object lists its members
in the order of the text, and repeated keys are still there; the tree denotes a value. -/
namespace MirrorRust

/-! ### Tokens -/

def isWs (c : Char) : Bool := c == ' ' || c == '\t' || c == '\r' || c == '\n'

/-- Whitespace between tokens. -/
def Ws (text : List Char) : Prop := ∀ c ∈ text, isWs c = true

/-- One digit or more. -/
def Digits (text : List Char) : Prop := text ≠ [] ∧ ∀ c ∈ text, c.isDigit = true

def IntPart (text : List Char) : Prop :=
  text = ['0'] ∨ Digits text ∧ text.head? ≠ some '0'

def FracPart (text : List Char) : Prop := text = [] ∨ ∃ ds, text = '.' :: ds ∧ Digits ds

def ExpPart (text : List Char) : Prop :=
  text = [] ∨ ∃ e sign ds, text = e :: (sign ++ ds) ∧ (e = 'e' ∨ e = 'E') ∧
    (sign = [] ∨ sign = ['+'] ∨ sign = ['-']) ∧ Digits ds

/-- `[ minus ] int [ frac ] [ exp ]`. -/
def IsNumberToken (text : List Char) : Prop :=
  ∃ sign int frac exp, text = sign ++ (int ++ (frac ++ exp)) ∧ (sign = [] ∨ sign = ['-']) ∧
    IntPart int ∧ FracPart frac ∧ ExpPart exp

/-- A spelling between quotes, and the characters it stands for. -/
inductive StringBody : List Char → List Char → Prop
  | nil : StringBody [] []
  | plain {c text s} : 0x20 ≤ c.toNat → c ≠ '\"' → c ≠ '\\' → StringBody text s →
      StringBody (c :: text) (c :: s)
  | escape {e c text s} : unescape e = some c → StringBody text s →
      StringBody ('\\' :: e :: text) (c :: s)
  | unicode {a b c d n text s} : hex4 a b c d = some n → isHighSurrogate n = false →
      isLowSurrogate n = false → StringBody text s →
      StringBody ('\\' :: 'u' :: a :: b :: c :: d :: text) (Char.ofNat n :: s)
  | surrogates {a b c d e f g h high low text s} : hex4 a b c d = some high →
      isHighSurrogate high = true → hex4 e f g h = some low → isLowSurrogate low = true →
      StringBody text s →
      StringBody ('\\' :: 'u' :: a :: b :: c :: d :: '\\' :: 'u' :: e :: f :: g :: h :: text)
        (Char.ofNat (0x10000 + (high - 0xd800) * 0x400 + (low - 0xdc00)) :: s)

/-- A string token and the string it stands for. -/
def IsStringToken (text : List Char) (s : String) : Prop :=
  ∃ body, text = '\"' :: (body ++ ['\"']) ∧ StringBody body s.toList

/-! ### Values -/

mutual

inductive Spells : Json → List Char → Prop
  | null : Spells .null ['n', 'u', 'l', 'l']
  | true : Spells (.bool true) ['t', 'r', 'u', 'e']
  | false : Spells (.bool false) ['f', 'a', 'l', 's', 'e']
  | number {text} : IsNumberToken text → Spells (.number (String.ofList text)) text
  | string {text s} : IsStringToken text s → Spells (.string s) text
  | emptyArray {w} : Ws w → Spells (.array []) ('[' :: (w ++ [']']))
  | array {items text} : SpellsItems items text → Spells (.array items) ('[' :: (text ++ [']']))
  | emptyObject {w} : Ws w → Spells (.object []) ('{' :: (w ++ ['}']))
  | object {fields text} : SpellsMembers fields text →
      Spells (.object fields) ('{' :: (text ++ ['}']))

/-- A value with whitespace around it. -/
inductive SpellsPadded : Json → List Char → Prop
  | pad {j a text b} : Ws a → Spells j text → Ws b → SpellsPadded j (a ++ (text ++ b))

inductive SpellsItems : List Json → List Char → Prop
  | one {j text} : SpellsPadded j text → SpellsItems [j] text
  | cons {j items text rest} : SpellsPadded j text → SpellsItems items rest →
      SpellsItems (j :: items) (text ++ ',' :: rest)

inductive SpellsMember : String × Json → List Char → Prop
  | pair {key j a name b text} : Ws a → IsStringToken name key → Ws b → SpellsPadded j text →
      SpellsMember (key, j) (a ++ (name ++ (b ++ ':' :: text)))

inductive SpellsMembers : List (String × Json) → List Char → Prop
  | one {field text} : SpellsMember field text → SpellsMembers [field] text
  | cons {field fields text rest} : SpellsMember field text → SpellsMembers fields rest →
      SpellsMembers (field :: fields) (text ++ ',' :: rest)

end

/-! ### Whitespace in front of items and members -/

theorem Ws.append {v w : List Char} (hv : Ws v) (hw : Ws w) : Ws (v ++ w) := by
  intro c hc
  rcases List.mem_append.mp hc with hc | hc
  · exact hv c hc
  · exact hw c hc

theorem SpellsPadded.front {w text : List Char} {j : Json} (hw : Ws w) (h : SpellsPadded j text) :
    SpellsPadded j (w ++ text) := by
  obtain ⟨ha, hspells, hb⟩ := h
  rw [← List.append_assoc]
  exact .pad (hw.append ha) hspells hb

theorem SpellsItems.front {w text : List Char} {items : List Json} (hw : Ws w)
    (h : SpellsItems items text) : SpellsItems items (w ++ text) := by
  cases h with
  | one h => exact .one (h.front hw)
  | cons h hs =>
    rw [← List.append_assoc]
    exact .cons (h.front hw) hs

theorem SpellsMember.front {w text : List Char} {field : String × Json} (hw : Ws w)
    (h : SpellsMember field text) : SpellsMember field (w ++ text) := by
  obtain ⟨ha, hname, hb, hspells⟩ := h
  rw [← List.append_assoc]
  exact .pair (hw.append ha) hname hb hspells

theorem SpellsMembers.front {w text : List Char} {fields : List (String × Json)} (hw : Ws w)
    (h : SpellsMembers fields text) : SpellsMembers fields (w ++ text) := by
  cases h with
  | one h => exact .one (h.front hw)
  | cons h hs =>
    rw [← List.append_assoc]
    exact .cons (h.front hw) hs

theorem isWs_of_isDigit {c : Char} (hc : c.isDigit = true) : isWs c = false := by
  by_contra h
  simp only [isWs, Bool.not_eq_false, Bool.or_eq_true, beq_iff_eq] at h
  rcases h with ((rfl | rfl) | rfl) | rfl <;> exact absurd hc (by decide)

theorem numberToken_head {text : List Char} (h : IsNumberToken text) :
    ∃ c cs, text = c :: cs ∧ (c = '-' ∨ c.isDigit = true) := by
  obtain ⟨sign, int, frac, exp, rfl, hsign, hint, -, -⟩ := h
  rcases hsign with rfl | rfl
  · rcases hint with rfl | ⟨⟨hne, hall⟩, -⟩
    · exact ⟨'0', _, rfl, Or.inr (by decide)⟩
    · obtain ⟨c, cs, rfl⟩ := List.exists_cons_of_ne_nil hne
      exact ⟨c, _, rfl, Or.inr (hall c (by simp))⟩
  · exact ⟨'-', _, rfl, Or.inl rfl⟩

/-- A value starts with a character that is neither whitespace nor the end of an array. -/
theorem spells_head {raw : Json} {text : List Char} (h : Spells raw text) :
    ∃ c cs, text = c :: cs ∧ isWs c = false ∧ c ≠ ']' := by
  cases h with
  | null | true | false => exact ⟨_, _, rfl, by decide, by decide⟩
  | number h =>
    obtain ⟨c, cs, rfl, hc⟩ := numberToken_head h
    refine ⟨c, cs, rfl, ?_⟩
    rcases hc with rfl | hc
    · decide
    · refine ⟨isWs_of_isDigit hc, ?_⟩
      · rintro rfl
        exact absurd hc (by decide)
  | string h =>
    obtain ⟨body, rfl, -⟩ := h
    exact ⟨_, _, rfl, by decide, by decide⟩
  | emptyArray | array | emptyObject | object => exact ⟨_, _, rfl, by decide, by decide⟩

/-- The whitespace in front of the items can be taken off. -/
theorem SpellsItems.trim {items : List Json} {text : List Char} (h : SpellsItems items text) :
    ∃ w c cs, text = w ++ c :: cs ∧ Ws w ∧ isWs c = false ∧ c ≠ ']' ∧
      SpellsItems items (c :: cs) := by
  have hnil : Ws [] := fun _ h => absurd h List.not_mem_nil
  cases h with
  | one h =>
    obtain ⟨ha, hspells, hb⟩ := h
    obtain ⟨c, cs, rfl, hc, hclose⟩ := spells_head hspells
    exact ⟨_, c, _, rfl, ha, hc, hclose, .one (.pad hnil hspells hb)⟩
  | cons h hs =>
    obtain ⟨ha, hspells, hb⟩ := h
    obtain ⟨c, cs, rfl, hc, hclose⟩ := spells_head hspells
    exact ⟨_, c, _, by simp, ha, hc, hclose, .cons (.pad hnil hspells hb) hs⟩

theorem SpellsMember.trim {field : String × Json} {text : List Char}
    (h : SpellsMember field text) :
    ∃ w cs, text = w ++ '\"' :: cs ∧ Ws w ∧ SpellsMember field ('\"' :: cs) := by
  have hnil : Ws [] := fun _ h => absurd h List.not_mem_nil
  obtain ⟨ha, hname, hb, hspells⟩ := h
  obtain ⟨body, rfl, hbody⟩ := hname
  exact ⟨_, _, rfl, ha, .pair hnil ⟨body, rfl, hbody⟩ hb hspells⟩

theorem SpellsMembers.trim {fields : List (String × Json)} {text : List Char}
    (h : SpellsMembers fields text) :
    ∃ w cs, text = w ++ '\"' :: cs ∧ Ws w ∧ SpellsMembers fields ('\"' :: cs) := by
  cases h with
  | one h =>
    obtain ⟨w, cs, rfl, hw, h⟩ := h.trim
    exact ⟨w, cs, rfl, hw, .one h⟩
  | cons h hs =>
    obtain ⟨w, cs, rfl, hw, h⟩ := h.trim
    exact ⟨w, _, by simp, hw, .cons h hs⟩

/-! ### What a written tree denotes, and its size -/

namespace Json

mutual

/-- An object keeps the last member of each key, in key order. -/
def denote : Json → Json
  | .array items => .array (denoteItems items)
  | .object fields => .object (Assoc.ofList (denoteFields fields))
  | j => j

def denoteItems : List Json → List Json
  | [] => []
  | j :: items => denote j :: denoteItems items

def denoteFields : List (String × Json) → List (String × Json)
  | [] => []
  | (key, j) :: fields => (key, denote j) :: denoteFields fields

end

mutual

/-- How deep the containers nest. -/
def depth : Json → ℕ
  | .array items => depthItems items + 1
  | .object fields => depthFields fields + 1
  | _ => 0

def depthItems : List Json → ℕ
  | [] => 0
  | j :: items => max (depth j) (depthItems items)

def depthFields : List (String × Json) → ℕ
  | [] => 0
  | (_, j) :: fields => max (depth j) (depthFields fields)

end

mutual

/-- The number of values. -/
def nodes : Json → ℕ
  | .array items => nodesItems items + 1
  | .object fields => nodesFields fields + 1
  | _ => 1

def nodesItems : List Json → ℕ
  | [] => 0
  | j :: items => nodes j + nodesItems items

def nodesFields : List (String × Json) → ℕ
  | [] => 0
  | (_, j) :: fields => nodes j + nodesFields fields

end

mutual

/-- No object repeats a key. -/
def Distinct : Json → Prop
  | .array items => DistinctItems items
  | .object fields => (fields.map Prod.fst).Nodup ∧ DistinctFields fields
  | _ => True

def DistinctItems : List Json → Prop
  | [] => True
  | j :: items => Distinct j ∧ DistinctItems items

def DistinctFields : List (String × Json) → Prop
  | [] => True
  | (_, j) :: fields => Distinct j ∧ DistinctFields fields

end

/-- The tree stays within the limits of the parser. -/
structure Fits (raw : Json) (limits : Limits) : Prop where
  depth : raw.depth ≤ limits.maxDepth
  nodes : raw.nodes ≤ limits.maxNodes
  distinct : limits.rejectDuplicateKeys = true → raw.Distinct

end Json
end MirrorRust
