import MirrorRust.JsonParsing

/-! The compact text of a tree is a text of the grammar, so whatever the parser makes of it is
what the tree denotes. -/
namespace MirrorRust
namespace Json

/-! ### Values -/

mutual

/-- Every number is a number token. -/
def Tokens : Json → Prop
  | .number n => IsNumberToken n.toList
  | .array items => TokensItems items
  | .object fields => TokensFields fields
  | _ => True

def TokensItems : List Json → Prop
  | [] => True
  | j :: items => Tokens j ∧ TokensItems items

def TokensFields : List (String × Json) → Prop
  | [] => True
  | (_, j) :: fields => Tokens j ∧ TokensFields fields

end

mutual

/-- Every object has its members in key order, each key once. -/
def Ordered : Json → Prop
  | .array items => OrderedItems items
  | .object fields => Assoc.Sorted fields ∧ OrderedFields fields
  | _ => True

def OrderedItems : List Json → Prop
  | [] => True
  | j :: items => Ordered j ∧ OrderedItems items

def OrderedFields : List (String × Json) → Prop
  | [] => True
  | (_, j) :: fields => Ordered j ∧ OrderedFields fields

end

/-- The trees a `serde_json::Value` can hold. -/
structure IsValue (j : Json) : Prop where
  tokens : j.Tokens
  ordered : j.Ordered

/-! ### The compact text -/

theorem stringBody_escape (c : Char) {text s : List Char} (h : StringBody text s) :
    StringBody (escape c ++ text) (c :: s) := by
  unfold escape
  split_ifs with hquote hslash hcontrol
  · rw [hquote]
    exact .escape rfl h
  · rw [hslash]
    exact .escape rfl h
  · have hchar : ∀ n, c.toNat = n → c = Char.ofNat n := by
      rintro n rfl
      exact (Char.ofNat_toNat c).symm
    split
    iterate 5
      rename_i hn
      rw [hchar _ hn]
      exact .escape rfl h
    · -- the other control characters have a hexadecimal escape
      have hhex : ∀ n < 32, hex4 '0' '0' (Nat.digitChar (n / 16)) (Nat.digitChar (n % 16)) =
          some n := by decide
      have hlow : isHighSurrogate c.toNat = false ∧ isLowSurrogate c.toNat = false := by
        simp [isHighSurrogate, isLowSurrogate]
        omega
      have hc := hchar c.toNat rfl
      conv => rhs; rw [hc]
      exact .unicode (hhex _ hcontrol) hlow.1 hlow.2 h
  · exact .plain (not_lt.mp hcontrol) hquote hslash h

theorem stringToken_quoted (s : String) : IsStringToken (quoted s) s := by
  refine ⟨s.toList.flatMap escape, rfl, ?_⟩
  induction s.toList with
  | nil => exact .nil
  | cons c cs ih => exact stringBody_escape c ih

theorem spellsPadded_of_spells {j : Json} {text : List Char} (h : Spells j text) :
    SpellsPadded j text := by
  have hpad := SpellsPadded.pad Parser.ws_nil h Parser.ws_nil
  simpa using hpad

theorem spellsItems_chars {items : List Json} (h : ∀ j ∈ items, Spells j j.chars)
    (hne : items ≠ []) : ∃ text, SpellsItems items text ∧ itemChars true items = text ++ [']'] := by
  induction items with
  | nil => exact absurd rfl hne
  | cons j items ih =>
    have hj := spellsPadded_of_spells (h j (by simp))
    cases items with
    | nil => exact ⟨j.chars, .one hj, by simp [itemChars]⟩
    | cons k items =>
      obtain ⟨text, htext, heq⟩ := ih (fun i hi => h i (by simp [hi])) (by simp)
      refine ⟨_, .cons hj htext, ?_⟩
      have hcomma : itemChars false (k :: items) = ',' :: itemChars true (k :: items) := rfl
      rw [itemChars, hcomma, heq]
      simp

theorem spellsMember_chars (key : String) {j : Json} (h : Spells j j.chars) :
    SpellsMember (key, j) (quoted key ++ ':' :: j.chars) := by
  have hpair := SpellsMember.pair Parser.ws_nil (stringToken_quoted key) Parser.ws_nil
    (spellsPadded_of_spells h)
  simpa using hpair

theorem spellsMembers_chars {fields : List (String × Json)} (h : ∀ p ∈ fields, Spells p.2 p.2.chars)
    (hne : fields ≠ []) :
    ∃ text, SpellsMembers fields text ∧ fieldChars true fields = text ++ ['}'] := by
  induction fields with
  | nil => exact absurd rfl hne
  | cons p fields ih =>
    obtain ⟨key, j⟩ := p
    have hj := spellsMember_chars key (h (key, j) (by simp))
    cases fields with
    | nil => exact ⟨_, .one hj, by simp [fieldChars]⟩
    | cons q fields =>
      obtain ⟨text, htext, heq⟩ := ih (fun i hi => h i (by simp [hi])) (by simp)
      refine ⟨_, .cons hj htext, ?_⟩
      have hcomma : fieldChars false (q :: fields) = ',' :: fieldChars true (q :: fields) := rfl
      rw [fieldChars, hcomma, heq]
      simp

theorem tokensItems_iff (items : List Json) : TokensItems items ↔ ∀ j ∈ items, Tokens j := by
  induction items with
  | nil => simp [TokensItems]
  | cons j items ih => simp [TokensItems, ih]

theorem tokensFields_iff (fields : List (String × Json)) :
    TokensFields fields ↔ ∀ p ∈ fields, Tokens p.2 := by
  induction fields with
  | nil => simp [TokensFields]
  | cons p fields ih => rw [TokensFields, ih, List.forall_mem_cons]

theorem spells_chars {j : Json} (h : j.Tokens) : Spells j j.chars := by
  induction j with
  | null => exact .null
  | bool b => cases b with
    | true => exact .true
    | false => exact .false
  | number n =>
    have hn := Spells.number h
    rw [String.ofList_toList] at hn
    exact hn
  | string s => exact .string (stringToken_quoted s)
  | array items ih =>
    cases items with
    | nil => exact .emptyArray Parser.ws_nil
    | cons j items =>
      have hall := (tokensItems_iff _).mp h
      obtain ⟨text, htext, heq⟩ := spellsItems_chars (fun i hi => ih i hi (hall i hi)) (by simp)
      rw [chars, heq]
      exact .array htext
  | object fields ih =>
    cases fields with
    | nil => exact .emptyObject Parser.ws_nil
    | cons p fields =>
      have hall := (tokensFields_iff _).mp h
      obtain ⟨text, htext, heq⟩ := spellsMembers_chars (fun i hi => ih i hi (hall i hi)) (by simp)
      rw [chars, heq]
      exact .object htext

/-! ### Reading it back -/

theorem ordered_denoteItems {items : List Json} (ih : ∀ j ∈ items, j.Ordered → j.denote = j)
    (h : OrderedItems items) : denoteItems items = items := by
  induction items with
  | nil => rfl
  | cons j items ihs =>
    rw [denoteItems, ih j (by simp) h.1, ihs (fun k hk => ih k (by simp [hk])) h.2]

theorem ordered_denoteFields {fields : List (String × Json)}
    (ih : ∀ p ∈ fields, p.2.Ordered → p.2.denote = p.2) (h : OrderedFields fields) :
    denoteFields fields = fields := by
  induction fields with
  | nil => rfl
  | cons p fields ihs =>
    obtain ⟨key, j⟩ := p
    have hj : j.denote = j := ih (key, j) (by simp) h.1
    rw [denoteFields, hj, ihs (fun q hq => ih q (by simp [hq])) h.2]

/-- A tree in key order denotes itself. -/
theorem ordered_denote {j : Json} (h : j.Ordered) : j.denote = j := by
  induction j with
  | null | bool | number | string => rfl
  | array items ih => rw [denote, ordered_denoteItems ih h]
  | object fields ih => rw [denote, ordered_denoteFields ih h.2, Assoc.ofList_of_sorted h.1]

end Json

/-- Two trees spelled by one text denote the same value, as the parser returns one. -/
theorem denote_unique {raw other : Json} {text : List Char} (h : SpellsPadded raw text)
    (hother : SpellsPadded other text) : raw.denote = other.denote := by
  let limits : Limits :=
    { maxBytes := (String.ofList text).utf8ByteSize
      maxDepth := max raw.depth other.depth
      maxNodes := max raw.nodes other.nodes
      rejectDuplicateKeys := false }
  have hraw : parse (String.ofList text) limits = .ok raw.denote :=
    parse_eq_ok.mpr ⟨le_rfl, raw, by rwa [String.toList_ofList],
      ⟨le_max_left _ _, le_max_left _ _, nofun⟩, rfl⟩
  have heq : parse (String.ofList text) limits = .ok other.denote :=
    parse_eq_ok.mpr ⟨le_rfl, other, by rwa [String.toList_ofList],
      ⟨le_max_right _ _, le_max_right _ _, nofun⟩, rfl⟩
  exact Except.ok.inj (hraw.symm.trans heq)

/-- What the parser reads from the compact text of a tree. -/
theorem parse_render {j : Json} (h : j.Tokens) {limits : Limits} {value : Json}
    (hparse : parse j.render limits = .ok value) : value = j.denote := by
  obtain ⟨-, raw, hspells, -, rfl⟩ := parse_eq_ok.mp hparse
  have hj := Json.spellsPadded_of_spells (Json.spells_chars h)
  rw [Json.render, String.toList_ofList] at hspells
  exact denote_unique hspells hj

theorem parse_render_ok {j : Json} (h : j.Tokens) {limits : Limits} (hfits : j.Fits limits)
    (hsize : j.render.utf8ByteSize ≤ limits.maxBytes) : parse j.render limits = .ok j.denote := by
  refine parse_eq_ok.mpr ⟨hsize, j, ?_, hfits, rfl⟩
  rw [Json.render, String.toList_ofList]
  exact Json.spellsPadded_of_spells (Json.spells_chars h)

/-! ### The limits -/

namespace Json

theorem depthItems_perm {items others : List Json} (h : items.Perm others) :
    depthItems items = depthItems others := by
  induction h with
  | nil => rfl
  | cons j _ ih => rw [depthItems, depthItems, ih]
  | swap i j items => rw [depthItems, depthItems, depthItems, depthItems, max_left_comm]
  | trans _ _ ih ih' => exact ih.trans ih'

theorem nodesItems_perm {items others : List Json} (h : items.Perm others) :
    nodesItems items = nodesItems others := by
  induction h with
  | nil => rfl
  | cons j _ ih => rw [nodesItems, nodesItems, ih]
  | swap i j items => rw [nodesItems, nodesItems, nodesItems, nodesItems, Nat.add_left_comm]
  | trans _ _ ih ih' => exact ih.trans ih'

theorem depthFields_perm {fields others : List (String × Json)} (h : fields.Perm others) :
    depthFields fields = depthFields others := by
  induction h with
  | nil => rfl
  | cons p _ ih => rw [depthFields, depthFields, ih]
  | swap p q fields => rw [depthFields, depthFields, depthFields, depthFields, max_left_comm]
  | trans _ _ ih ih' => exact ih.trans ih'

theorem nodesFields_perm {fields others : List (String × Json)} (h : fields.Perm others) :
    nodesFields fields = nodesFields others := by
  induction h with
  | nil => rfl
  | cons p _ ih => rw [nodesFields, nodesFields, ih]
  | swap p q fields => rw [nodesFields, nodesFields, nodesFields, nodesFields, Nat.add_left_comm]
  | trans _ _ ih ih' => exact ih.trans ih'

/-- What a tree without repeated keys denotes is as large as the tree. -/
theorem denote_size {j : Json} (h : j.Distinct) :
    j.denote.depth = j.depth ∧ j.denote.nodes = j.nodes := by
  induction j with
  | null | bool | number | string => exact ⟨rfl, rfl⟩
  | array items ih =>
    have hitems : depthItems (denoteItems items) = depthItems items ∧
        nodesItems (denoteItems items) = nodesItems items := by
      induction items with
      | nil => exact ⟨rfl, rfl⟩
      | cons j items ihs =>
        obtain ⟨hd, hn⟩ := ih j (by simp) h.1
        obtain ⟨hds, hns⟩ := ihs (fun k hk => ih k (by simp [hk])) h.2
        exact ⟨by rw [denoteItems, depthItems, depthItems, hd, hds],
          by rw [denoteItems, nodesItems, nodesItems, hn, hns]⟩
    exact ⟨by rw [denote, depth, depth, hitems.1], by rw [denote, nodes, nodes, hitems.2]⟩
  | object fields ih =>
    obtain ⟨hkeys, hfields⟩ := h
    have hmembers : (denoteFields fields).map Prod.fst = fields.map Prod.fst ∧
        depthFields (denoteFields fields) = depthFields fields ∧
        nodesFields (denoteFields fields) = nodesFields fields := by
      clear hkeys
      induction fields with
      | nil => exact ⟨rfl, rfl, rfl⟩
      | cons p fields ihs =>
        obtain ⟨key, j⟩ := p
        obtain ⟨hd, hn⟩ : j.denote.depth = j.depth ∧ j.denote.nodes = j.nodes :=
          ih (key, j) (by simp) hfields.1
        obtain ⟨hks, hds, hns⟩ := ihs (fun q hq => ih q (by simp [hq])) hfields.2
        exact ⟨by rw [denoteFields, List.map_cons, List.map_cons, hks],
          by rw [denoteFields, depthFields, depthFields, hd, hds],
          by rw [denoteFields, nodesFields, nodesFields, hn, hns]⟩
    obtain ⟨hks, hds, hns⟩ := hmembers
    have hperm := Assoc.ofList_perm (hks ▸ hkeys)
    exact ⟨by rw [denote, depth, depth, depthFields_perm hperm, hds],
      by rw [denote, nodes, nodes, nodesFields_perm hperm, hns]⟩

/-- The characters of an array, in whatever order its items are. -/
theorem itemChars_perm {items others : List Json} (h : items.Perm others) (first : Bool) :
    (itemChars first items).Perm (itemChars first others) := by
  induction h generalizing first with
  | nil => exact .refl _
  | cons j _ ih =>
    rw [itemChars, itemChars]
    exact ((ih false).append_left _).append_left _
  | swap i j items =>
    rw [itemChars, itemChars, itemChars, itemChars]
    refine List.Perm.append_left _ (List.perm_iff_count.mpr fun c => ?_)
    simp only [List.count_append]
    omega
  | trans _ _ ih ih' => exact (ih first).trans (ih' first)

end Json

/-- The compact text of a tree without repeated keys is only read when the tree is within the
limits. -/
theorem parse_render_fits {j : Json} (h : j.Tokens) (hdistinct : j.Distinct) {limits : Limits}
    (hreject : limits.rejectDuplicateKeys = true) {value : Json}
    (hparse : parse j.render limits = .ok value) :
    j.Fits limits ∧ j.render.utf8ByteSize ≤ limits.maxBytes := by
  obtain ⟨hsize, raw, hspells, hfits, rfl⟩ := parse_eq_ok.mp hparse
  have hj := Json.spellsPadded_of_spells (Json.spells_chars h)
  rw [Json.render, String.toList_ofList] at hspells
  have heq := denote_unique hspells hj
  have hraw := Json.denote_size (hfits.distinct hreject)
  have hown := Json.denote_size hdistinct
  refine ⟨⟨?_, ?_, fun _ => hdistinct⟩, hsize⟩
  · rw [← hown.1, ← heq, hraw.1]
    exact hfits.depth
  · rw [← hown.2, ← heq, hraw.2]
    exact hfits.nodes

end MirrorRust
