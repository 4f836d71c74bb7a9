import MirrorRust.JsonRender
import MirrorRust.Value

/-! Canonical text of a state. Two states have the same canonical text exactly
when they are equal as model values, where sets and maps are unordered. -/
namespace MirrorRust

def require (ok : Bool) (message : String) : Except String Unit :=
  if ok then .ok () else .error message

@[simp] theorem require_eq_ok {ok : Bool} {message : String} {u : Unit} :
    require ok message = .ok u ↔ ok = true := by
  cases ok <;> simp [require]

/-- A fallible computation that counts the nodes it visits. -/
abbrev Counted := StateT ℕ (Except String)

def countNode (depth : ℕ) : Counted Unit := do
  modify (· + 1)
  let nodes ← get
  require (depth ≤ 32 && nodes ≤ 65_536) "canonical value exceeds structure bound"

/-- The kind of a map key. -/
def keyKind : Value → Except String String
  | .int _ => .ok "int"
  | .str _ => .ok "str"
  | _ => .error "unsupported canonical map key"

/-- The keys of a map are all of one kind. -/
def requireKind (kind : Option String) (actual : String) : Except String Unit :=
  match kind with
  | some prior => require (prior == actual) "mixed canonical map keys"
  | none => .ok ()

mutual

def canonicalValue (value : Value) (depth : ℕ) : Counted Json := do
  countNode depth
  match value with
  | .null => return .array [.string "null"]
  | .int n => return .array [.string "integer", .string (toString n)]
  | .bool v => return .array [.string "boolean", .bool v]
  | .str v => return .array [.string "string", .string v]
  | .unserializable v => return .array [.string "unserializable", .string v]
  | .variant tag v =>
    let item ← canonicalValue v (depth + 1)
    return .array [.string "variant", .string tag, item]
  | .record fields =>
    let fields ← canonicalFields fields (depth + 1)
    return .array [.string "record", .array fields]
  | .seq items =>
    let items ← canonicalItems items (depth + 1)
    return .array [.string "sequence", .array items]
  | .tuple items =>
    let items ← canonicalItems items (depth + 1)
    return .array [.string "tuple", .array items]
  | .set items =>
    let unique ← canonicalSet items (depth + 1) .empty
    return .array [.string "set", .array unique.values]
  | .map items =>
    let entries ← canonicalMap items (depth + 1) none .empty
    return .array [.string "map", .array entries.values]

def canonicalItems (items : List Value) (depth : ℕ) : Counted (List Json) :=
  match items with
  | [] => return []
  | v :: items => do
    let item ← canonicalValue v depth
    let rest ← canonicalItems items depth
    return item :: rest

def canonicalFields (fields : State) (depth : ℕ) : Counted (List Json) :=
  match fields with
  | [] => return []
  | (k, v) :: fields => do
    let item ← canonicalValue v depth
    let rest ← canonicalFields fields depth
    return .array [.string k, item] :: rest

/-- The elements of a set, keyed by their text. -/
def canonicalSet (items : List Value) (depth : ℕ) (unique : OrderedMap String Json) :
    Counted (OrderedMap String Json) :=
  match items with
  | [] => return unique
  | v :: items => do
    let item ← canonicalValue v depth
    canonicalSet items depth (unique.insert item.render item)

/-- The entries of a map, keyed by the text of their key. -/
def canonicalMap (items : List (Value × Value)) (depth : ℕ) (kind : Option String)
    (entries : OrderedMap String Json) : Counted (OrderedMap String Json) :=
  match items with
  | [] => return entries
  | (k, v) :: items => do
    let actual ← keyKind k
    requireKind kind actual
    let key ← canonicalValue k depth
    let encoded := key.render
    let item ← canonicalValue v depth
    require (!entries.contains encoded) "duplicate canonical map key"
    canonicalMap items depth (some actual) (entries.insert encoded (.array [key, item]))

end

def canonicalState (state : State) : Except String String := do
  let (fields, _) ← canonicalFields state 0 0
  let text := (Json.array [.string "mirrors.canonical-state/v1", .array fields]).render
  require (text.utf8ByteSize ≤ 1_048_576) "canonical state exceeds byte bound"
  return text

namespace Counted
variable {α β : Type} {n m : ℕ}

theorem bind_eq_ok {x : Counted α} {f : α → Counted β} {b : β} :
    (x >>= f) n = .ok (b, m) ↔ ∃ a k, x n = .ok (a, k) ∧ f a k = .ok (b, m) := by
  show Except.bind (x n) (fun p => f p.1 p.2) = _ ↔ _
  cases hx : x n with
  | error e => simp [Except.bind]
  | ok p =>
    obtain ⟨a, k⟩ := p
    simp [Except.bind]

theorem pure_eq_ok {a b : α} : (pure a : Counted α) n = .ok (b, m) ↔ a = b ∧ n = m := by
  show Except.ok (a, n) = Except.ok (b, m) ↔ _
  simp

theorem lift_eq_ok {x : Except String α} {a : α} :
    (liftM x : Counted α) n = .ok (a, m) ↔ x = .ok a ∧ n = m := by
  show Except.bind x (fun a => .ok (a, n)) = _ ↔ _
  cases x <;> simp [Except.bind]

end Counted

/-! ### Equality of model values -/

namespace Value

theorem sizeOf_fst_lt {α β : Type} [SizeOf α] [SizeOf β] {p : α × β} {ps : List (α × β)}
    (h : p ∈ ps) : sizeOf p.1 < sizeOf ps := by
  have hp := List.sizeOf_lt_of_mem h
  rw [show sizeOf p = 1 + sizeOf p.1 + sizeOf p.2 from rfl] at hp
  omega

theorem sizeOf_snd_lt {α β : Type} [SizeOf α] [SizeOf β] {p : α × β} {ps : List (α × β)}
    (h : p ∈ ps) : sizeOf p.2 < sizeOf ps := by
  have hp := List.sizeOf_lt_of_mem h
  rw [show sizeOf p = 1 + sizeOf p.1 + sizeOf p.2 from rfl] at hp
  omega

/-- Equality where the elements of a set and the entries of a map have no order. -/
def Equiv : Value → Value → Prop
  | .int m, .int n => m = n
  | .bool a, .bool b => a = b
  | .str a, .str b => a = b
  | .unserializable a, .unserializable b => a = b
  | .null, .null => True
  | .set items, .set others =>
    (∀ v, ∀ _ : v ∈ items, ∃ w ∈ others, Equiv v w) ∧
      (∀ w ∈ others, ∃ v, ∃ _ : v ∈ items, Equiv v w)
  | .seq items, .seq others | .tuple items, .tuple others =>
    ∃ _ : items.length = others.length, ∀ i, ∀ _ : i < items.length, Equiv items[i] others[i]
  | .map entries, .map others =>
    (∀ p, ∀ _ : p ∈ entries, ∃ q ∈ others, Equiv p.1 q.1 ∧ Equiv p.2 q.2) ∧
      (∀ q ∈ others, ∃ p, ∃ _ : p ∈ entries, Equiv p.1 q.1 ∧ Equiv p.2 q.2)
  | .record fields, .record others =>
    ∃ _ : fields.length = others.length, ∀ i, ∀ _ : i < fields.length,
      fields[i].1 = others[i].1 ∧ Equiv fields[i].2 others[i].2
  | .variant tag v, .variant other w => tag = other ∧ Equiv v w
  | _, _ => False
termination_by v => sizeOf v
decreasing_by
  all_goals try decreasing_tactic
  all_goals simp only [seq.sizeOf_spec, tuple.sizeOf_spec, map.sizeOf_spec, record.sizeOf_spec]
  all_goals apply Nat.lt_add_left
  · exact List.sizeOf_lt_of_mem (List.getElem_mem _)
  · exact List.sizeOf_lt_of_mem (List.getElem_mem _)
  · exact sizeOf_fst_lt ‹_›
  · exact sizeOf_snd_lt ‹_›
  · exact sizeOf_fst_lt ‹_›
  · exact sizeOf_snd_lt ‹_›
  · exact sizeOf_snd_lt (List.getElem_mem _)

theorem equiv_set {items others : List Value} :
    (set items).Equiv (set others) ↔
      (∀ v ∈ items, ∃ w ∈ others, v.Equiv w) ∧ (∀ w ∈ others, ∃ v ∈ items, v.Equiv w) := by
  rw [Equiv]
  simp only [exists_prop]

theorem equiv_seq {items others : List Value} :
    (seq items).Equiv (seq others) ↔ List.Forall₂ Equiv items others := by
  rw [Equiv, List.forall₂_iff_get]
  exact ⟨fun ⟨h, hi⟩ => ⟨h, fun i h₁ _ => hi i h₁⟩, fun ⟨h, hi⟩ => ⟨h, fun i h₁ => hi i h₁ (h ▸ h₁)⟩⟩

theorem equiv_tuple {items others : List Value} :
    (tuple items).Equiv (tuple others) ↔ List.Forall₂ Equiv items others := by
  rw [Equiv, List.forall₂_iff_get]
  exact ⟨fun ⟨h, hi⟩ => ⟨h, fun i h₁ _ => hi i h₁⟩, fun ⟨h, hi⟩ => ⟨h, fun i h₁ => hi i h₁ (h ▸ h₁)⟩⟩

theorem equiv_map {entries others : List (Value × Value)} :
    (map entries).Equiv (map others) ↔
      (∀ p ∈ entries, ∃ q ∈ others, p.1.Equiv q.1 ∧ p.2.Equiv q.2) ∧
        (∀ q ∈ others, ∃ p ∈ entries, p.1.Equiv q.1 ∧ p.2.Equiv q.2) := by
  rw [Equiv]
  simp only [exists_prop]

/-- Fields agree when their names and values do. -/
def FieldEquiv (p q : String × Value) : Prop := p.1 = q.1 ∧ p.2.Equiv q.2

theorem equiv_record {fields others : State} :
    (record fields).Equiv (record others) ↔ List.Forall₂ FieldEquiv fields others := by
  rw [Equiv, List.forall₂_iff_get]
  exact ⟨fun ⟨h, hi⟩ => ⟨h, fun i h₁ _ => hi i h₁⟩, fun ⟨h, hi⟩ => ⟨h, fun i h₁ => hi i h₁ (h ▸ h₁)⟩⟩

/-- The constructor of a value, as the canonical form names it. -/
def kind : Value → String
  | .int _ => "integer"
  | .bool _ => "boolean"
  | .str _ => "string"
  | .set _ => "set"
  | .seq _ => "sequence"
  | .tuple _ => "tuple"
  | .map _ => "map"
  | .record _ => "record"
  | .variant _ _ => "variant"
  | .unserializable _ => "unserializable"
  | .null => "null"

theorem Equiv.kind_eq {v w : Value} (h : v.Equiv w) : v.kind = w.kind := by
  cases v <;> cases w <;> first | rfl | simp [Equiv] at h

end Value

def StateEquiv (s t : State) : Prop := List.Forall₂ Value.FieldEquiv s t

/-! ### What the canonical form of a value looks like -/

/-- `j` is a canonical form of `v`, at some depth and node count. -/
def Canonical (v : Value) (j : Json) : Prop :=
  ∃ depth nodes nodes', canonicalValue v depth nodes = .ok (j, nodes')

def CanonicalEntry (p : Value × Value) (q : Json × Json) : Prop :=
  Canonical p.1 q.1 ∧ Canonical p.2 q.2

def CanonicalField (p : String × Value) (q : String × Json) : Prop :=
  p.1 = q.1 ∧ Canonical p.2 q.2

def fieldForm (q : String × Json) : Json := .array [.string q.1, q.2]

def entryForm (q : Json × Json) : Json := .array [q.1, q.2]

def entryText (q : Json × Json) : String := q.1.render

/-- No two entries have the same key text. -/
def DistinctKeys (qs : List (Json × Json)) : Prop :=
  ∀ p ∈ qs, ∀ q ∈ qs, entryText p = entryText q → p = q

def CanonicalForm (v : Value) (j : Json) : Prop :=
  match v with
  | .null => j = .array [.string v.kind]
  | .int n => j = .array [.string v.kind, .string (toString n)]
  | .bool b => j = .array [.string v.kind, .bool b]
  | .str s | .unserializable s => j = .array [.string v.kind, .string s]
  | .variant tag w => ∃ i, Canonical w i ∧ j = .array [.string v.kind, .string tag, i]
  | .record fields => ∃ qs, List.Forall₂ CanonicalField fields qs ∧
      j = .array [.string v.kind, .array (qs.map fieldForm)]
  | .seq items | .tuple items => ∃ js, List.Forall₂ Canonical items js ∧
      j = .array [.string v.kind, .array js]
  | .set items => ∃ js, List.Forall₂ Canonical items js ∧
      j = .array [.string v.kind, .array (OrderedMap.file Json.render id js).values]
  | .map entries => ∃ qs, List.Forall₂ CanonicalEntry entries qs ∧ DistinctKeys qs ∧
      j = .array [.string v.kind, .array (OrderedMap.file entryText entryForm qs).values]

section Inversion
open Counted
variable {depth n m : ℕ}

theorem canonicalItems_ok {items : List Value} {js : List Json}
    (h : canonicalItems items depth n = .ok (js, m)) : List.Forall₂ Canonical items js := by
  induction items generalizing js n m with
  | nil =>
    obtain ⟨rfl, -⟩ := pure_eq_ok.mp h
    exact .nil
  | cons v items ih =>
    obtain ⟨item, k, hv, h⟩ := bind_eq_ok.mp h
    obtain ⟨rest, l, hrest, h⟩ := bind_eq_ok.mp h
    obtain ⟨rfl, -⟩ := pure_eq_ok.mp h
    exact .cons ⟨_, _, _, hv⟩ (ih hrest)

theorem canonicalFields_ok {fields : State} {js : List Json}
    (h : canonicalFields fields depth n = .ok (js, m)) :
    ∃ qs, List.Forall₂ CanonicalField fields qs ∧ js = qs.map fieldForm := by
  induction fields generalizing js n m with
  | nil =>
    obtain ⟨rfl, -⟩ := pure_eq_ok.mp h
    exact ⟨[], .nil, rfl⟩
  | cons p fields ih =>
    obtain ⟨item, k, hv, h⟩ := bind_eq_ok.mp h
    obtain ⟨rest, l, hrest, h⟩ := bind_eq_ok.mp h
    obtain ⟨rfl, -⟩ := pure_eq_ok.mp h
    obtain ⟨qs, hqs, rfl⟩ := ih hrest
    exact ⟨(p.1, item) :: qs, .cons ⟨rfl, _, _, _, hv⟩ hqs, rfl⟩

theorem canonicalSet_ok {items : List Value} {unique : OrderedMap String Json} {acc : List Json}
    (h : canonicalSet items depth (.file Json.render id acc) n = .ok (unique, m)) :
    ∃ js, List.Forall₂ Canonical items js ∧ unique = .file Json.render id (acc ++ js) := by
  induction items generalizing acc n with
  | nil =>
    obtain ⟨rfl, -⟩ := pure_eq_ok.mp h
    exact ⟨[], .nil, by simp⟩
  | cons v items ih =>
    obtain ⟨item, k, hv, h⟩ := bind_eq_ok.mp h
    have hfile : OrderedMap.file Json.render id (acc ++ [item]) =
        (OrderedMap.file Json.render id acc).insert item.render item :=
      OrderedMap.file_concat acc item
    rw [← hfile] at h
    obtain ⟨js, hjs, rfl⟩ := ih h
    exact ⟨item :: js, .cons ⟨_, _, _, hv⟩ hjs, by simp⟩

theorem canonicalMap_ok {items : List (Value × Value)} {kind : Option String}
    {entries : OrderedMap String Json} {acc : List (Json × Json)} (hacc : DistinctKeys acc)
    (h : canonicalMap items depth kind (.file entryText entryForm acc) n = .ok (entries, m)) :
    ∃ qs, List.Forall₂ CanonicalEntry items qs ∧ DistinctKeys (acc ++ qs) ∧
      entries = .file entryText entryForm (acc ++ qs) := by
  induction items generalizing acc kind n with
  | nil =>
    obtain ⟨rfl, -⟩ := pure_eq_ok.mp h
    exact ⟨[], .nil, by simpa using hacc, by simp⟩
  | cons p items ih =>
    rw [canonicalMap] at h
    obtain ⟨actual, k₁, -, h⟩ := bind_eq_ok.mp h
    obtain ⟨-, k₂, -, h⟩ := bind_eq_ok.mp h
    obtain ⟨key, k₃, hk, h⟩ := bind_eq_ok.mp h
    obtain ⟨item, k₄, hv, h⟩ := bind_eq_ok.mp h
    obtain ⟨_, k₅, hnew, h⟩ := bind_eq_ok.mp h
    obtain ⟨hnew, -⟩ := lift_eq_ok.mp hnew
    have hfresh : ∀ a ∈ acc, entryText a ≠ key.render := by
      intro a ha hka
      have hnot := OrderedMap.contains_eq_false.mp (by simpa [require] using hnew)
      exact hnot _ ((OrderedMap.mem_file hacc _).mpr ⟨a, ha, rfl⟩) hka
    have hacc' : DistinctKeys (acc ++ [(key, item)]) := by
      intro a ha b hb hab
      rcases List.mem_append.mp ha with ha | ha <;> rcases List.mem_append.mp hb with hb | hb
      · exact hacc a ha b hb hab
      · rw [List.mem_singleton.mp hb] at hab
        exact absurd hab (hfresh a ha)
      · rw [List.mem_singleton.mp ha] at hab
        exact absurd hab.symm (hfresh b hb)
      · rw [List.mem_singleton.mp ha, List.mem_singleton.mp hb]
    have hfile : OrderedMap.file entryText entryForm (acc ++ [(key, item)]) =
        (OrderedMap.file entryText entryForm acc).insert key.render (.array [key, item]) :=
      OrderedMap.file_concat acc (key, item)
    rw [← hfile] at h
    obtain ⟨qs, hqs, hdistinct, rfl⟩ := ih hacc' h
    rw [List.append_assoc] at hdistinct ⊢
    exact ⟨(key, item) :: qs, .cons ⟨⟨_, _, _, hk⟩, _, _, _, hv⟩ hqs, hdistinct, rfl⟩

theorem Canonical.form {v : Value} {j : Json} (h : Canonical v j) : CanonicalForm v j := by
  obtain ⟨depth, n, m, h⟩ := h
  cases v <;> rw [canonicalValue] at h <;> obtain ⟨-, k, -, h⟩ := bind_eq_ok.mp h
  case null | int | bool | str | unserializable => exact (pure_eq_ok.mp h).1.symm
  case variant tag w =>
    obtain ⟨item, l, hw, h⟩ := bind_eq_ok.mp h
    exact ⟨item, ⟨_, _, _, hw⟩, (pure_eq_ok.mp h).1.symm⟩
  case record fields =>
    obtain ⟨js, l, hfields, h⟩ := bind_eq_ok.mp h
    obtain ⟨qs, hqs, rfl⟩ := canonicalFields_ok hfields
    exact ⟨qs, hqs, (pure_eq_ok.mp h).1.symm⟩
  case seq items | tuple items =>
    obtain ⟨js, l, hitems, h⟩ := bind_eq_ok.mp h
    exact ⟨js, canonicalItems_ok hitems, (pure_eq_ok.mp h).1.symm⟩
  case set items =>
    obtain ⟨unique, l, hitems, h⟩ := bind_eq_ok.mp h
    have hempty : OrderedMap.empty = OrderedMap.file Json.render id [] := rfl
    obtain ⟨js, hjs, rfl⟩ := canonicalSet_ok (hempty ▸ hitems)
    exact ⟨js, hjs, (pure_eq_ok.mp h).1.symm⟩
  case map items =>
    obtain ⟨entries, l, hitems, h⟩ := bind_eq_ok.mp h
    have hempty : OrderedMap.empty = OrderedMap.file entryText entryForm [] := rfl
    have hnone : DistinctKeys [] := by simp [DistinctKeys]
    obtain ⟨qs, hqs, hdistinct, rfl⟩ := canonicalMap_ok hnone (hempty ▸ hitems)
    exact ⟨qs, hqs, hdistinct, (pure_eq_ok.mp h).1.symm⟩

end Inversion

/-- The form of a value starts with the name of its constructor. -/
theorem Canonical.head {v : Value} {j : Json} (h : Canonical v j) :
    ∃ rest, j = .array (.string v.kind :: rest) := by
  have hform := h.form
  cases v
  case null | int | bool | str | unserializable => exact ⟨_, hform⟩
  case variant | record | seq | tuple | set =>
    obtain ⟨_, _, rfl⟩ := hform
    exact ⟨_, rfl⟩
  case map =>
    obtain ⟨_, _, _, rfl⟩ := hform
    exact ⟨_, rfl⟩
theorem lexical_tagged {tag : String} {j : Json} :
    (Json.array [.string tag, j]).Lexical ↔ j.Lexical := by
  simp [Json.Lexical, Json.LexicalItems]

theorem Canonical.lexical {v : Value} {j : Json} (h : Canonical v j) : j.Lexical := by
  induction v generalizing j with
  | null | int | bool | str | unserializable =>
    rw [h.form]
    simp [Json.Lexical, Json.LexicalItems]
  | variant tag w ih =>
    obtain ⟨i, hi, rfl⟩ := h.form
    simpa [Json.Lexical, Json.LexicalItems] using ih hi
  | seq items ih | tuple items ih =>
    obtain ⟨js, hjs, rfl⟩ := h.form
    rw [lexical_tagged, Json.Lexical, Json.lexicalItems_iff]
    intro j hj
    obtain ⟨v, hv, hvj⟩ := exists_of_mem_image hjs hj
    exact ih v hv hvj
  | set items ih =>
    obtain ⟨js, hjs, rfl⟩ := h.form
    rw [lexical_tagged, Json.Lexical, Json.lexicalItems_iff]
    intro j hj
    obtain ⟨i, hi, rfl⟩ := OrderedMap.exists_of_mem_values hj
    obtain ⟨v, hv, hvi⟩ := exists_of_mem_image hjs hi
    exact ih v hv hvi
  | record fields ih =>
    obtain ⟨qs, hqs, rfl⟩ := h.form
    rw [lexical_tagged, Json.Lexical, Json.lexicalItems_iff]
    intro j hj
    obtain ⟨q, hq, rfl⟩ := List.mem_map.mp hj
    obtain ⟨p, hp, -, hpq⟩ := exists_of_mem_image hqs hq
    exact lexical_tagged.mpr (ih p hp hpq)
  | map entries ih =>
    obtain ⟨qs, hqs, -, rfl⟩ := h.form
    rw [lexical_tagged, Json.Lexical, Json.lexicalItems_iff]
    intro j hj
    obtain ⟨q, hq, rfl⟩ := OrderedMap.exists_of_mem_values hj
    obtain ⟨p, hp, hpq⟩ := exists_of_mem_image hqs hq
    have hk := (ih p hp).1 hpq.1
    have hv := (ih p hp).2 hpq.2
    simp [entryForm, Json.Lexical, Json.LexicalItems, hk, hv]

/-! ### The canonical form decides equality -/

theorem entryForm_injective : entryForm.Injective := by
  intro p q h
  simpa [entryForm, Prod.ext_iff] using h

theorem fieldForm_injective : fieldForm.Injective := by
  intro p q h
  simpa [fieldForm, Prod.ext_iff] using h

theorem render_inj_of_image {items : List Value} {js : List Json}
    (h : List.Forall₂ Canonical items js) :
    ∀ i ∈ js, ∀ j ∈ js, i.render = j.render → i = j := by
  intro i hi j hj hij
  obtain ⟨v, -, hv⟩ := exists_of_mem_image h hi
  obtain ⟨w, -, hw⟩ := exists_of_mem_image h hj
  exact (Json.render_inj hv.lexical hw.lexical).mp hij

/-- The canonical form of `v` tells `v` from every value that is not equal to it. -/
def Decides (v : Value) : Prop :=
  ∀ (w : Value) (i j : Json), Canonical v i → Canonical w j → (i = j ↔ v.Equiv w)

/-- Values of different constructors are told apart by the name in the first position. -/
theorem decides_of_kind {v : Value}
    (h : ∀ (w : Value) (i j : Json), Canonical v i → Canonical w j → v.kind = w.kind →
      (i = j ↔ v.Equiv w)) : Decides v := by
  intro w i j hi hj
  by_cases hkind : v.kind = w.kind
  · exact h w i j hi hj hkind
  · have hne : i ≠ j := by
      intro hij
      obtain ⟨_, rfl⟩ := hi.head
      obtain ⟨_, rfl⟩ := hj.head
      simp [hkind] at hij
    have hnot : ¬ v.Equiv w := fun h => hkind h.kind_eq
    simp [hne, hnot]

theorem tagged_inj {tag : String} {i j : Json} :
    Json.array [.string tag, i] = .array [.string tag, j] ↔ i = j := by
  simp

theorem fields_eq_iff {fields others : State} {ps qs : List (String × Json)}
    (hps : List.Forall₂ CanonicalField fields ps) (hqs : List.Forall₂ CanonicalField others qs)
    (h : ∀ p ∈ fields, Decides p.2) : ps = qs ↔ List.Forall₂ Value.FieldEquiv fields others := by
  refine image_eq_iff hps hqs fun p hp q _ i j hi hj => ?_
  rw [Prod.ext_iff, ← hi.1, ← hj.1, h p hp q.2 i.2 j.2 hi.2 hj.2, Value.FieldEquiv]

theorem decides (v : Value) : Decides v := by
  induction v with
  | null | int | bool | str | unserializable =>
    refine decides_of_kind fun w i j hi hj hkind => ?_
    cases w <;> simp [Value.kind] at hkind
    rw [hi.form, hj.form, Value.Equiv]
    simp [Value.kind]
  | variant tag u ih =>
    refine decides_of_kind fun w i j hi hj hkind => ?_
    cases w <;> simp [Value.kind] at hkind
    obtain ⟨i', hi', rfl⟩ := hi.form
    obtain ⟨j', hj', rfl⟩ := hj.form
    rw [Value.Equiv, ← ih _ i' j' hi' hj']
    simp [Value.kind]
  | seq items ih =>
    refine decides_of_kind fun w i j hi hj hkind => ?_
    cases w <;> simp [Value.kind] at hkind
    obtain ⟨is, his, rfl⟩ := hi.form
    obtain ⟨js, hjs, rfl⟩ := hj.form
    rw [Value.equiv_seq, ← image_eq_iff his hjs fun v hv w _ i j => ih v hv w i j]
    simp [Value.kind]
  | tuple items ih =>
    refine decides_of_kind fun w i j hi hj hkind => ?_
    cases w <;> simp [Value.kind] at hkind
    obtain ⟨is, his, rfl⟩ := hi.form
    obtain ⟨js, hjs, rfl⟩ := hj.form
    rw [Value.equiv_tuple, ← image_eq_iff his hjs fun v hv w _ i j => ih v hv w i j]
    simp [Value.kind]
  | set items ih =>
    refine decides_of_kind fun w i j hi hj hkind => ?_
    cases w <;> simp [Value.kind] at hkind
    obtain ⟨is, his, rfl⟩ := hi.form
    obtain ⟨js, hjs, rfl⟩ := hj.form
    rw [Value.equiv_set, ← image_mem_iff his hjs fun v hv w _ i j => ih v hv w i j,
      ← OrderedMap.values_file_eq_iff Function.injective_id (render_inj_of_image his)
        (render_inj_of_image hjs)]
    simp [Value.kind]
  | record fields ih =>
    refine decides_of_kind fun w i j hi hj hkind => ?_
    cases w <;> simp [Value.kind] at hkind
    obtain ⟨ps, hps, rfl⟩ := hi.form
    obtain ⟨qs, hqs, rfl⟩ := hj.form
    rw [Value.equiv_record, ← fields_eq_iff hps hqs fun p hp => ih p hp]
    simp [Value.kind, fieldForm_injective.list_map.eq_iff]
  | map entries ih =>
    refine decides_of_kind fun w i j hi hj hkind => ?_
    cases w <;> simp [Value.kind] at hkind
    obtain ⟨ps, hps, hp, rfl⟩ := hi.form
    obtain ⟨qs, hqs, hq, rfl⟩ := hj.form
    rename_i others
    have hentry : ∀ p ∈ entries, ∀ q ∈ others, ∀ i j, CanonicalEntry p i → CanonicalEntry q j →
        (i = j ↔ p.1.Equiv q.1 ∧ p.2.Equiv q.2) := by
      intro p hp q _ i j hi hj
      rw [Prod.ext_iff, (ih p hp).1 q.1 i.1 j.1 hi.1 hj.1, (ih p hp).2 q.2 i.2 j.2 hi.2 hj.2]
    rw [Value.equiv_map, ← image_mem_iff hps hqs hentry,
      ← OrderedMap.values_file_eq_iff entryForm_injective hp hq]
    simp [Value.kind]

theorem canonicalState_ok {state : State} {text : String} (h : canonicalState state = .ok text) :
    ∃ qs, List.Forall₂ CanonicalField state qs ∧
      text = (Json.array [.string "mirrors.canonical-state/v1",
        .array (qs.map fieldForm)]).render := by
  obtain ⟨⟨fields, nodes⟩, hfields, h⟩ := bind_ok_iff.mp h
  obtain ⟨_, -, h⟩ := bind_ok_iff.mp h
  obtain ⟨qs, hqs, rfl⟩ := canonicalFields_ok hfields
  exact ⟨qs, hqs, (Except.ok.inj h).symm⟩

theorem fields_lexical {state : State} {qs : List (String × Json)}
    (h : List.Forall₂ CanonicalField state qs) (tag : String) :
    (Json.array [.string tag, .array (qs.map fieldForm)]).Lexical := by
  rw [lexical_tagged, Json.Lexical, Json.lexicalItems_iff]
  intro j hj
  obtain ⟨q, hq, rfl⟩ := List.mem_map.mp hj
  obtain ⟨p, -, -, hpq⟩ := exists_of_mem_image h hq
  exact lexical_tagged.mpr hpq.lexical

/-- Canonical text decides equality of states. -/
theorem canonicalState_eq_iff {s t : State} {x y : String} (hx : canonicalState s = .ok x)
    (hy : canonicalState t = .ok y) : x = y ↔ StateEquiv s t := by
  obtain ⟨ps, hps, rfl⟩ := canonicalState_ok hx
  obtain ⟨qs, hqs, rfl⟩ := canonicalState_ok hy
  rw [Json.render_inj (fields_lexical hps _) (fields_lexical hqs _), tagged_inj, Json.array.injEq,
    fieldForm_injective.list_map.eq_iff, fields_eq_iff hps hqs fun p _ => decides p.2, StateEquiv]

/-- Order and repetition inside a set, and the order of a map, do not show in the text. -/
theorem canonicalState_eq_iff_example :
    "[\"mirrors.canonical-state/v1\",[[\"a\",[\"set\",[[\"map\",[]],[\"null\"]]]]]]" =
        "[\"mirrors.canonical-state/v1\",[[\"a\",[\"set\",[[\"map\",[]],[\"null\"]]]]]]" ↔
      StateEquiv [("a", .set [.null, .map []])] [("a", .set [.map [], .null, .map []])] :=
  canonicalState_eq_iff (s := [("a", .set [.null, .map []])]) rfl rfl

end MirrorRust
