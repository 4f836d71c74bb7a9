import MirrorRust.Literals

/-! The types of a contract: the validator accepts the encodings of finite types and nothing
else. -/
namespace MirrorRust

/-- The kinds with no parts. -/
inductive BaseKind
  | int
  | bool
  | str
  | null
  deriving DecidableEq

def BaseKind.name : BaseKind → String
  | int => "int"
  | bool => "bool"
  | str => "str"
  | null => "null"

/-- The kinds with one part. -/
inductive ElementKind
  | set
  | seq
  deriving DecidableEq

def ElementKind.name : ElementKind → String
  | set => "set"
  | seq => "seq"

/-- The kinds with labelled parts, and what they call them. -/
inductive LabelledKind
  | record
  | variant
  deriving DecidableEq

namespace LabelledKind

def name : LabelledKind → String
  | record => "record"
  | variant => "variant"

def listName : LabelledKind → String
  | record => "fields"
  | variant => "cases"

def labelName : LabelledKind → String
  | record => "wireName"
  | variant => "tag"

def payloadName : LabelledKind → String
  | record => "type"
  | variant => "payload"

theorem labelName_ne_payloadName (k : LabelledKind) : k.labelName ≠ k.payloadName := by
  cases k <;> decide

theorem listName_ne_kind (k : LabelledKind) : k.listName ≠ "kind" := by
  cases k <;> decide

end LabelledKind

/-- A finite type of a contract. -/
inductive ModelType
  | base (k : BaseKind)
  | container (k : ElementKind) (element : ModelType)
  | tuple (elements : List ModelType)
  | labelled (k : LabelledKind) (entries : List (String × ModelType))
  | map (key value : ModelType)
  | opaqueItf (description : String)

namespace ModelType

mutual

def encode : ModelType → Json
  | base k => Json.obj [("kind", .string k.name)]
  | container k element => Json.obj [("kind", .string k.name), ("element", encode element)]
  | tuple elements =>
    Json.obj [("kind", .string "tuple"), ("elements", .array (encodeElements elements))]
  | labelled k entries =>
    Json.obj [("kind", .string k.name), (k.listName, .array (encodeEntries k entries))]
  | map key value =>
    Json.obj [("kind", .string "map"), ("key", encode key), ("value", encode value)]
  | opaqueItf description =>
    Json.obj [("kind", .string "opaqueItf"), ("description", .string description)]

def encodeElements : List ModelType → List Json
  | [] => []
  | t :: elements => encode t :: encodeElements elements

def encodeEntries (k : LabelledKind) : List (String × ModelType) → List Json
  | [] => []
  | (label, t) :: entries =>
    Json.obj [(k.labelName, .string label), (k.payloadName, encode t)] :: encodeEntries k entries

end

mutual

/-- The number of types in a type. -/
def nodes : ModelType → ℕ
  | container _ element => 1 + nodes element
  | tuple elements => 1 + nodesElements elements
  | labelled _ entries => 1 + nodesEntries entries
  | map key value => 1 + (nodes key + nodes value)
  | _ => 1

def nodesElements : List ModelType → ℕ
  | [] => 0
  | t :: elements => nodes t + nodesElements elements

def nodesEntries : List (String × ModelType) → ℕ
  | [] => 0
  | (_, t) :: entries => nodes t + nodesEntries entries

end

mutual

/-- The number of levels. -/
def levels : ModelType → ℕ
  | container _ element => 1 + levels element
  | tuple elements => 1 + levelsElements elements
  | labelled _ entries => 1 + levelsEntries entries
  | map key value => 1 + max (levels key) (levels value)
  | _ => 1

def levelsElements : List ModelType → ℕ
  | [] => 0
  | t :: elements => max (levels t) (levelsElements elements)

def levelsEntries : List (String × ModelType) → ℕ
  | [] => 0
  | (_, t) :: entries => max (levels t) (levelsEntries entries)

end

mutual

/-- The texts in a type. -/
def texts : ModelType → List String
  | container _ element => texts element
  | tuple elements => textsElements elements
  | labelled _ entries => textsEntries entries
  | map key value => texts key ++ texts value
  | opaqueItf description => [description]
  | base _ => []

def textsElements : List ModelType → List String
  | [] => []
  | t :: elements => texts t ++ textsElements elements

def textsEntries : List (String × ModelType) → List String
  | [] => []
  | (label, t) :: entries => label :: texts t ++ textsEntries entries

end

mutual

/-- The labels of each record and of each variant in a type. -/
def labelLists : ModelType → List (List String)
  | container _ element => labelLists element
  | tuple elements => labelListsElements elements
  | labelled _ entries => entries.map Prod.fst :: labelListsEntries entries
  | map key value => labelLists key ++ labelLists value
  | _ => []

def labelListsElements : List ModelType → List (List String)
  | [] => []
  | t :: elements => labelLists t ++ labelListsElements elements

def labelListsEntries : List (String × ModelType) → List (List String)
  | [] => []
  | (_, t) :: entries => labelLists t ++ labelListsEntries entries

end

/-- No text is longer than 256 bytes. -/
def Short (t : ModelType) : Prop := ∀ s ∈ t.texts, s.utf8ByteSize ≤ 256

instance (t : ModelType) : Decidable t.Short :=
  inferInstanceAs (Decidable (∀ s ∈ t.texts, s.utf8ByteSize ≤ 256))

/-- The labels of one record, or of one variant, are not empty and differ from each other. -/
def Labelled (t : ModelType) : Prop := ∀ labels ∈ t.labelLists, "" ∉ labels ∧ labels.Nodup

instance (t : ModelType) : Decidable t.Labelled :=
  inferInstanceAs (Decidable (∀ labels ∈ t.labelLists, "" ∉ labels ∧ labels.Nodup))

def encodeEntry (k : LabelledKind) (p : String × ModelType) : Json :=
  Json.obj [(k.labelName, .string p.1), (k.payloadName, encode p.2)]

@[simp] theorem encodeElements_eq (elements : List ModelType) :
    encodeElements elements = elements.map encode := by
  induction elements with
  | nil => rfl
  | cons t elements ih => rw [encodeElements, ih, List.map_cons]

@[simp] theorem encodeEntries_eq (k : LabelledKind) (entries : List (String × ModelType)) :
    encodeEntries k entries = entries.map (encodeEntry k) := by
  induction entries with
  | nil => rfl
  | cons p entries ih =>
    rw [encodeEntries, ih, List.map_cons]
    rfl

@[simp] theorem nodesElements_eq (elements : List ModelType) :
    nodesElements elements = (elements.map nodes).sum := by
  induction elements with
  | nil => rfl
  | cons t elements ih => rw [nodesElements, ih, List.map_cons, List.sum_cons]

@[simp] theorem nodesEntries_eq (entries : List (String × ModelType)) :
    nodesEntries entries = (entries.map fun p => p.2.nodes).sum := by
  induction entries with
  | nil => rfl
  | cons p entries ih => rw [nodesEntries, ih, List.map_cons, List.sum_cons]

mutual

theorem encode_ordered : ∀ t : ModelType, t.encode.Ordered
  | base _ | opaqueItf _ => obj_ordered (by simp [Json.Ordered])
  | container _ element => obj_ordered (by simpa [Json.Ordered] using encode_ordered element)
  | tuple elements =>
    obj_ordered (by simpa [Json.Ordered] using orderedItems_of_mem (elements_ordered elements))
  | labelled k entries =>
    obj_ordered (by simpa [Json.Ordered] using orderedItems_of_mem (entries_ordered k entries))
  | map key value =>
    obj_ordered (by simpa [Json.Ordered] using ⟨encode_ordered key, encode_ordered value⟩)

theorem elements_ordered : ∀ elements : List ModelType, ∀ j ∈ elements.map encode, j.Ordered
  | [] => nofun
  | t :: elements => List.forall_mem_cons.mpr ⟨encode_ordered t, elements_ordered elements⟩

theorem entries_ordered (k : LabelledKind) :
    ∀ entries : List (String × ModelType), ∀ j ∈ entries.map (encodeEntry k), j.Ordered
  | [] => nofun
  | (_, t) :: entries => List.forall_mem_cons.mpr
    ⟨obj_ordered (by simpa [Json.Ordered] using encode_ordered t), entries_ordered k entries⟩

end

/-- The type has at most `l` levels, no long text and no bad labels. -/
def Fits (l : ℕ) (t : ModelType) : Prop := t.levels ≤ l ∧ t.Short ∧ t.Labelled

variable {l : ℕ}

theorem fitsElements {elements : List ModelType} :
    (levelsElements elements ≤ l ∧ (∀ s ∈ textsElements elements, s.utf8ByteSize ≤ 256) ∧
      ∀ labels ∈ labelListsElements elements, "" ∉ labels ∧ labels.Nodup) ↔
      ∀ t ∈ elements, t.Fits l := by
  induction elements with
  | nil => simp [levelsElements, textsElements, labelListsElements]
  | cons t elements ih =>
    rw [levelsElements, textsElements, labelListsElements, max_le_iff, List.forall_mem_append,
      List.forall_mem_append, List.forall_mem_cons, ← ih]
    unfold Fits Short Labelled
    tauto

theorem fitsEntries {entries : List (String × ModelType)} :
    (levelsEntries entries ≤ l ∧ (∀ s ∈ textsEntries entries, s.utf8ByteSize ≤ 256) ∧
      ∀ labels ∈ labelListsEntries entries, "" ∉ labels ∧ labels.Nodup) ↔
      ∀ p ∈ entries, p.1.utf8ByteSize ≤ 256 ∧ p.2.Fits l := by
  induction entries with
  | nil => simp [levelsEntries, textsEntries, labelListsEntries]
  | cons p entries ih =>
    rw [levelsEntries, textsEntries, labelListsEntries, max_le_iff, List.forall_mem_append,
      List.forall_mem_append, List.forall_mem_cons, List.forall_mem_cons, ← ih]
    unfold Fits Short Labelled
    tauto

section
attribute [local simp] levels texts labelLists

theorem levels_pos (t : ModelType) : 0 < t.levels := by
  cases t <;> simp only [levels] <;> omega

theorem nodes_pos (t : ModelType) : 0 < t.nodes := by
  cases t <;> simp only [nodes] <;> omega

theorem not_fits_zero {t : ModelType} : ¬ t.Fits 0 := fun h => absurd h.1 (not_le.mpr t.levels_pos)

@[simp] theorem fits_base {k : BaseKind} : (base k).Fits (l + 1) := by
  simp [Fits, Short, Labelled]

@[simp] theorem fits_container {k : ElementKind} {element : ModelType} :
    (container k element).Fits (l + 1) ↔ element.Fits l := by
  unfold Fits Short Labelled
  rw [levels, texts, labelLists, Nat.add_comm 1, Nat.add_le_add_iff_right]

@[simp] theorem fits_tuple {elements : List ModelType} :
    (tuple elements).Fits (l + 1) ↔ ∀ t ∈ elements, t.Fits l := by
  rw [← fitsElements]
  unfold Fits Short Labelled
  rw [levels, texts, labelLists, Nat.add_comm 1, Nat.add_le_add_iff_right]

@[simp] theorem fits_labelled {k : LabelledKind} {entries : List (String × ModelType)} :
    (labelled k entries).Fits (l + 1) ↔
      ("" ∉ entries.map Prod.fst ∧ (entries.map Prod.fst).Nodup) ∧
        ∀ p ∈ entries, p.1.utf8ByteSize ≤ 256 ∧ p.2.Fits l := by
  rw [← fitsEntries]
  unfold Fits Short Labelled
  rw [levels, texts, labelLists, Nat.add_comm 1, Nat.add_le_add_iff_right, List.forall_mem_cons]
  tauto

@[simp] theorem fits_map {key value : ModelType} :
    (map key value).Fits (l + 1) ↔ key.Fits l ∧ value.Fits l := by
  unfold Fits Short Labelled
  rw [levels, texts, labelLists, Nat.add_comm 1, Nat.add_le_add_iff_right, max_le_iff,
    List.forall_mem_append, List.forall_mem_append]
  tauto

@[simp] theorem fits_opaqueItf {description : String} :
    (opaqueItf description).Fits (l + 1) ↔ description.utf8ByteSize ≤ 256 := by
  simp [Fits, Short, Labelled]

end

/-- The text under `kind`. -/
def kindName : ModelType → String
  | base k => k.name
  | container k _ => k.name
  | tuple _ => "tuple"
  | labelled k _ => k.name
  | map .. => "map"
  | opaqueItf _ => "opaqueItf"

theorem tagged_encode (t : ModelType) : Tagged t.encode t.kindName := by
  cases t with
  | labelled k entries =>
    cases k <;> exact ⟨_, rfl, by simp [Fields.get, Assoc.get?_ofList, Assoc.get?_cons, kindName,
      LabelledKind.listName]⟩
  | _ => exact ⟨_, rfl, by simp [Fields.get, Assoc.get?_ofList, Assoc.get?_cons, kindName]⟩

open Tally

section Validator
variable {path : String} {value : Json} {n m : ℕ}

/-- One level below the validator accepts exactly the encodings. -/
abbrev Below (l : ℕ) (path : String) : Prop := ∀ v : Json, v.Ordered →
  Counts (fun v => validateModelType l v path) encode (Fits l) nodes 8_192 v

theorem gives_elements (ih : Below l path) {values : List Json}
    (hvalues : (Json.array values).Ordered) (hn : n ≤ 8_192) :
    Gives (values.forM fun v => validateModelType l v path) n () m ↔
      ∃ ts : List ModelType, ts.map encode = values ∧ (∀ t ∈ ts, t.Fits l) ∧
        m = n + (ts.map nodes).sum ∧ m ≤ 8_192 :=
  counts_forM (fun v hv => ih v (orderedItems_mem hvalues v hv)) hn

/-- The loop over the labelled parts. -/
def validateEntries (l : ℕ) (path : String) (k : LabelledKind) (entries : List Json)
    (names : List String) : Tally (List String) :=
  entries.foldlM (fun names entry => do
    let entry ← object entry path [k.labelName, k.payloadName] [k.labelName, k.payloadName]
    let label ← shortString (entry.item k.labelName) path
    if label = "" ∨ label ∈ names then
      throw (unexpected (path ++ ": duplicate or empty label"))
    validateModelType l (entry.item k.payloadName) path
    return label :: names) names

theorem gives_entry (ih : Below l path) (hvalue : value.Ordered) (hn : n ≤ 8_192)
    {k : LabelledKind} {names names' : List String} :
    Gives (do
        let entry ← object value path [k.labelName, k.payloadName] [k.labelName, k.payloadName]
        let label ← shortString (entry.item k.labelName) path
        if label = "" ∨ label ∈ names then
          throw (unexpected (path ++ ": duplicate or empty label"))
        validateModelType l (entry.item k.payloadName) path
        return label :: names) n names' m ↔
      ∃ p : String × ModelType, encodeEntry k p = value ∧ names' = p.1 :: names ∧
        ¬ (p.1 = "" ∨ p.1 ∈ names) ∧ (p.1.utf8ByteSize ≤ 256 ∧ p.2.Fits l) ∧
        m = n + p.2.nodes ∧ m ≤ 8_192 := by
  have hlabel := item_pair_left k.labelName_ne_payloadName
  have hpayload := item_pair_right k.labelName k.payloadName
  rw [gives_pair k.labelName_ne_payloadName hvalue]
  simp only [gives_shortString, hlabel, hpayload, gives_unless_bind]
  constructor
  · rintro ⟨_, b, rfl, label, rfl, hshort, hnew, h⟩
    have hb : b.Ordered := ordered_pair hvalue
    obtain ⟨_, c, hrun, h⟩ := gives_bind.mp h
    obtain ⟨rfl, rfl⟩ := gives_pure.mp h
    obtain ⟨t, rfl, hfits, hm⟩ := (ih b hb n c hn).mp hrun
    exact ⟨(label, t), rfl, rfl, hnew, ⟨hshort, hfits⟩, hm⟩
  · rintro ⟨⟨label, t⟩, rfl, rfl, hnew, ⟨hshort, hfits⟩, hm⟩
    have hrun := (ih t.encode (ordered_pair hvalue) n m hn).mpr ⟨t, rfl, hfits, hm⟩
    exact ⟨_, _, rfl, label, rfl, hshort, hnew,
      gives_bind.mpr ⟨(), m, hrun, gives_pure.mpr ⟨rfl, rfl⟩⟩⟩

theorem gives_validateEntries (ih : Below l path) {k : LabelledKind} {values : List Json}
    (hvalues : (Json.array values).Ordered) (hn : n ≤ 8_192) {names : List String} :
    (∃ names', Gives (validateEntries l path k values names) n names' m) ↔
      ∃ ts : List (String × ModelType), ts.map (encodeEntry k) = values ∧
        (("" ∉ ts.map Prod.fst ∧ (ts.map Prod.fst).Nodup) ∧
          ∀ name ∈ names, name ∉ ts.map Prod.fst) ∧
        (∀ p ∈ ts, p.1.utf8ByteSize ≤ 256 ∧ p.2.Fits l) ∧
        m = n + (ts.map fun p => p.2.nodes).sum ∧ m ≤ 8_192 := by
  induction values generalizing n names with
  | nil =>
    constructor
    · rintro ⟨names', h⟩
      obtain ⟨-, rfl⟩ := gives_pure.mp h
      exact ⟨[], rfl, by simp, by simp, rfl, hn⟩
    · rintro ⟨ts, hts, -, -, hm, -⟩
      rw [List.map_eq_nil_iff.mp hts] at hm
      exact ⟨names, gives_pure.mpr ⟨rfl, hm.symm⟩⟩
  | cons v values induction =>
    obtain ⟨hv, hrest⟩ := List.forall_mem_cons.mp (orderedItems_mem hvalues)
    have hvalues' : (Json.array values).Ordered := hvalues.2
    constructor
    · rintro ⟨names', h⟩
      rw [validateEntries, List.foldlM_cons] at h
      obtain ⟨_, c, hfirst, hloop⟩ := gives_bind.mp h
      obtain ⟨p, hp, rfl, hnew, hfits, hc, hbound⟩ := (gives_entry ih hv hn).mp hfirst
      obtain ⟨ts, hts, ⟨⟨hempty, hnodup⟩, hnames⟩, hall, hm, hmbound⟩ :=
        (induction hvalues' hbound).mp ⟨names', hloop⟩
      refine ⟨p :: ts, by rw [List.map_cons, hp, hts], ?_, List.forall_mem_cons.mpr ⟨hfits, hall⟩,
        ?_, hmbound⟩
      · obtain ⟨hhead, hnames⟩ := List.forall_mem_cons.mp hnames
        rw [List.map_cons, List.mem_cons, List.nodup_cons]
        refine ⟨⟨?_, hhead, hnodup⟩, fun name hname => ?_⟩
        · exact not_or.mpr ⟨fun h => hnew (Or.inl h.symm), hempty⟩
        · rw [List.mem_cons]
          exact not_or.mpr ⟨fun h => hnew (Or.inr (h ▸ hname)), hnames name hname⟩
      · rw [List.map_cons, List.sum_cons]
        omega
    · rintro ⟨ts, hts, ⟨⟨hempty, hnodup⟩, hnames⟩, hall, hm, hmbound⟩
      obtain ⟨p, ts, rfl, hp, hts⟩ := List.map_eq_cons_iff.mp hts
      obtain ⟨hfits, hall⟩ := List.forall_mem_cons.mp hall
      rw [List.map_cons, List.mem_cons, not_or] at hempty
      rw [List.map_cons, List.nodup_cons] at hnodup
      rw [List.map_cons, List.sum_cons] at hm
      have hc : n + p.2.nodes ≤ 8_192 := by omega
      have hnew : ¬ (p.1 = "" ∨ p.1 ∈ names) := by
        rintro (h | h)
        · exact hempty.1 h.symm
        · exact hnames _ h List.mem_cons_self
      have hnames' : ∀ name ∈ p.1 :: names, name ∉ ts.map Prod.fst :=
        List.forall_mem_cons.mpr ⟨hnodup.1, fun name hname hmem =>
          hnames name hname (List.mem_cons_of_mem _ hmem)⟩
      obtain ⟨names', hloop⟩ := (induction hvalues' hc).mpr
        ⟨ts, hts, ⟨⟨hempty.2, hnodup.2⟩, hnames'⟩, hall, by omega, hmbound⟩
      refine ⟨names', ?_⟩
      rw [validateEntries, List.foldlM_cons, gives_bind]
      exact ⟨_, _, (gives_entry ih hv hn).mpr ⟨p, hp, rfl, hnew, hfits, rfl, hc⟩, hloop⟩

/-- A record or variant holds a list of labelled parts. -/
theorem gives_labelled (ih : Below l path) (hvalue : value.Ordered) (hn : n ≤ 8_192)
    {k : LabelledKind} (hkind : Tagged value k.name) :
    Gives (do
        let tagged ← object value path ["kind", k.listName] ["kind", k.listName]
        let entries ← orUnexpected (tagged.item k.listName).asArray
          (path ++ ": " ++ k.listName ++ " array expected")
        let _ ← validateEntries l path k entries []) n () m ↔
      ∃ ts : List (String × ModelType), encode (labelled k ts) = value ∧
        (labelled k ts).Fits (l + 1) ∧ m = n + (ts.map fun p => p.2.nodes).sum ∧ m ≤ 8_192 := by
  rw [gives_tagged k.listName_ne_kind hvalue hkind]
  simp only [item_pair_right, gives_array, encode, encodeEntries_eq, fits_labelled]
  constructor
  · rintro ⟨_, rfl, values, rfl, h⟩
    obtain ⟨names', c, hloop, h⟩ := gives_bind.mp h
    obtain rfl := gives_unit.mp h
    obtain ⟨ts, rfl, ⟨hlabels, -⟩, hall, hm⟩ :=
      (gives_validateEntries ih (ordered_pair hvalue) hn).mp ⟨names', hloop⟩
    exact ⟨ts, rfl, ⟨hlabels, hall⟩, hm⟩
  · rintro ⟨ts, rfl, ⟨hlabels, hall⟩, hm⟩
    obtain ⟨names', hloop⟩ := (gives_validateEntries ih (ordered_pair hvalue) hn).mpr
      ⟨ts, rfl, ⟨hlabels, fun _ h => absurd h List.not_mem_nil⟩, hall, hm⟩
    exact ⟨_, rfl, _, rfl, gives_bind.mpr ⟨names', m, hloop, gives_unit.mpr rfl⟩⟩

theorem gives_base (hvalue : value.Ordered) {k : BaseKind} (hkind : Tagged value k.name) :
    Gives (do
        let _ ← object value path ["kind"] ["kind"]) n () m ↔ encode (base k) = value ∧ n = m := by
  rw [gives_bare hvalue hkind, gives_unit, encode, eq_comm]

theorem gives_container (ih : Below l path) (hvalue : value.Ordered) (hn : n ≤ 8_192)
    {k : ElementKind} (hkind : Tagged value k.name) :
    Gives (do
        let tagged ← object value path ["kind", "element"] ["kind", "element"]
        validateModelType l (tagged.item "element") path) n () m ↔
      ∃ t : ModelType, encode (container k t) = value ∧ (container k t).Fits (l + 1) ∧
        m = n + t.nodes ∧ m ≤ 8_192 := by
  rw [gives_tagged (by decide) hvalue hkind]
  simp only [item_pair_right, encode, fits_container]
  constructor
  · rintro ⟨b, rfl, h⟩
    obtain ⟨t, rfl, hm⟩ := (ih b (ordered_pair hvalue) n m hn).mp h
    exact ⟨t, rfl, hm⟩
  · rintro ⟨t, rfl, hm⟩
    exact ⟨_, rfl, (ih _ (ordered_pair hvalue) n m hn).mpr ⟨t, rfl, hm⟩⟩

theorem accepts_of_gives (ih : Below l path) (hvalue : value.Ordered)
    (hrun : Gives (validateModelType (l + 1) value path) n () m) :
    ∃ t : ModelType, t.encode = value ∧ t.Fits (l + 1) ∧ m = n + t.nodes ∧ m ≤ 8_192 := by
  unfold validateModelType at hrun
  obtain ⟨hbound, kind, htag, hrun⟩ := gives_body.mp hrun
  have hbase : ∀ k : BaseKind, encode (base k) = value ∧ n + 1 = m →
      ∃ t : ModelType, t.encode = value ∧ t.Fits (l + 1) ∧ m = n + t.nodes ∧ m ≤ 8_192 := by
    rintro k ⟨hvalue, rfl⟩
    exact ⟨base k, hvalue, fits_base, rfl, hbound⟩
  have hcontainer : ∀ k : ElementKind, (∃ t : ModelType, encode (container k t) = value ∧
      (container k t).Fits (l + 1) ∧ m = n + 1 + t.nodes ∧ m ≤ 8_192) →
      ∃ t : ModelType, t.encode = value ∧ t.Fits (l + 1) ∧ m = n + t.nodes ∧ m ≤ 8_192 := by
    rintro k ⟨t, hvalue, hfits, hm, hmbound⟩
    exact ⟨container k t, hvalue, hfits, by rw [nodes, hm, Nat.add_assoc], hmbound⟩
  have hlabelled : ∀ k : LabelledKind, (∃ ts : List (String × ModelType),
      encode (labelled k ts) = value ∧ (labelled k ts).Fits (l + 1) ∧
        m = n + 1 + (ts.map fun p => p.2.nodes).sum ∧ m ≤ 8_192) →
      ∃ t : ModelType, t.encode = value ∧ t.Fits (l + 1) ∧ m = n + t.nodes ∧ m ≤ 8_192 := by
    rintro k ⟨ts, hvalue, hfits, hm, hmbound⟩
    exact ⟨labelled k ts, hvalue, hfits, by rw [nodes, nodesEntries_eq, hm, Nat.add_assoc], hmbound⟩
  split at hrun
  · exact hbase .int ((@gives_base _ _ _ _ hvalue .int htag).mp hrun)
  · exact hbase .bool ((@gives_base _ _ _ _ hvalue .bool htag).mp hrun)
  · exact hbase .str ((@gives_base _ _ _ _ hvalue .str htag).mp hrun)
  · exact hbase .null ((@gives_base _ _ _ _ hvalue .null htag).mp hrun)
  · exact hcontainer .set ((@gives_container _ _ _ _ _ ih hvalue hbound .set htag).mp hrun)
  · exact hcontainer .seq ((@gives_container _ _ _ _ _ ih hvalue hbound .seq htag).mp hrun)
  · obtain ⟨b, rfl, hbody⟩ := (gives_tagged (by decide) hvalue htag).mp hrun
    simp only [item_pair_right, gives_array] at hbody
    obtain ⟨values, rfl, hbody⟩ := hbody
    obtain ⟨ts, rfl, hfits, hm, hmbound⟩ :=
      (gives_elements ih (ordered_pair hvalue) hbound).mp hbody
    refine ⟨tuple ts, by rw [encode, encodeElements_eq], fits_tuple.mpr hfits, ?_, hmbound⟩
    rw [nodes, nodesElements_eq, hm, Nat.add_assoc]
  · exact hlabelled .record ((@gives_labelled _ _ _ _ _ ih hvalue hbound .record htag).mp hrun)
  · exact hlabelled .variant ((@gives_labelled _ _ _ _ _ ih hvalue hbound .variant htag).mp hrun)
  · obtain ⟨b, c, rfl, hbody⟩ :=
      (gives_tagged_pair (by decide) (by decide) (by decide) hvalue htag).mp hrun
    simp only [@item_middle "key" "value" (by decide), item_third] at hbody
    obtain ⟨_, k, hkey, hitem⟩ := gives_bind.mp hbody
    obtain ⟨t, rfl, hfits, hk, hkbound⟩ := (ih b (ordered_middle (by decide) hvalue) _ _ hbound).mp hkey
    obtain ⟨u, rfl, hfits', hm, hmbound⟩ := (ih c (ordered_third hvalue) _ _ hkbound).mp hitem
    refine ⟨map t u, rfl, fits_map.mpr ⟨hfits, hfits'⟩, ?_, hmbound⟩
    rw [nodes, hm, hk]
    omega
  · obtain ⟨b, rfl, hbody⟩ := (gives_tagged (by decide) hvalue htag).mp hrun
    simp only [item_pair_right, gives_shortString, gives_unit] at hbody
    obtain ⟨description, rfl, hshort, rfl⟩ := hbody
    exact ⟨opaqueItf description, rfl, fits_opaqueItf.mpr hshort, rfl, hbound⟩
  · exact absurd hrun not_gives_throw

theorem gives_of_fits (ih : Below l path) {t : ModelType} (hvalue : t.encode.Ordered)
    (hfits : t.Fits (l + 1)) (hbound : n + t.nodes ≤ 8_192) :
    Gives (validateModelType (l + 1) t.encode path) n () (n + t.nodes) := by
  have hpos := t.nodes_pos
  have htag := t.tagged_encode
  unfold validateModelType
  refine gives_body.mpr ⟨by omega, t.kindName, htag, ?_⟩
  cases t with
  | base k =>
    have hrun := (@gives_base path _ (n + 1) (n + 1) hvalue k htag).mpr ⟨rfl, rfl⟩
    cases k <;> exact hrun
  | container k element =>
    rw [nodes] at hbound ⊢
    have hrun := (@gives_container _ path _ (n + 1) _ ih hvalue (by omega) k htag).mpr
      ⟨element, rfl, hfits, (Nat.add_assoc n 1 _).symm, hbound⟩
    cases k <;> exact hrun
  | tuple elements =>
    have hvalues := ordered_pair hvalue
    rw [nodes, nodesElements_eq] at hbound ⊢
    rw [encodeElements_eq] at hvalues
    refine (gives_tagged (by decide) hvalue htag).mpr ⟨_, rfl, ?_⟩
    simp only [item_pair_right, gives_array, encodeElements_eq]
    exact ⟨_, rfl, (gives_elements ih hvalues (by omega)).mpr ⟨elements, rfl, fits_tuple.mp hfits,
      (Nat.add_assoc n 1 _).symm, hbound⟩⟩
  | labelled k entries =>
    rw [nodes, nodesEntries_eq] at hbound ⊢
    have hrun := (@gives_labelled _ path _ (n + 1) _ ih hvalue (by omega) k htag).mpr
      ⟨entries, rfl, hfits, (Nat.add_assoc n 1 _).symm, hbound⟩
    cases k <;> exact hrun
  | map key value =>
    rw [nodes] at hbound ⊢
    obtain ⟨hkey, hitem⟩ := fits_map.mp hfits
    refine (gives_tagged_pair (by decide) (by decide) (by decide) hvalue htag).mpr ⟨_, _, rfl, ?_⟩
    simp only [@item_middle "key" "value" (by decide), item_third]
    refine gives_bind.mpr ⟨(), n + 1 + key.nodes, ?_, ?_⟩
    · exact (ih _ (ordered_middle (by decide) hvalue) _ _ (by omega)).mpr
        ⟨key, rfl, hkey, rfl, by omega⟩
    · exact (ih _ (ordered_third hvalue) _ _ (by omega)).mpr
        ⟨value, rfl, hitem, by omega, hbound⟩
  | opaqueItf description =>
    refine (gives_tagged (by decide) hvalue htag).mpr ⟨_, rfl, ?_⟩
    simp only [item_pair_right, gives_shortString, gives_unit]
    exact ⟨description, rfl, fits_opaqueItf.mp hfits, rfl⟩

/-- The validator of types accepts their encodings. -/
theorem counts_modelType (levels : ℕ) (path : String) : Below levels path := by
  induction levels with
  | zero =>
    intro value _ n m _
    refine iff_of_false not_gives_throw ?_
    rintro ⟨t, -, hfits, -⟩
    exact not_fits_zero hfits
  | succ l ih =>
    intro value hvalue n m _
    constructor
    · exact accepts_of_gives ih hvalue
    · rintro ⟨t, rfl, hfits, rfl, hbound⟩
      exact gives_of_fits ih hvalue hfits hbound

end Validator

end ModelType

/-- From a fresh counter the two validators accept the encodings of the finite literals and types
within their bounds, and nothing else. -/
theorem closed_languages {v : Json} (hv : v.Ordered) (path : String) :
    (((validateItfLiteral 128 v path).outcome 0).1 = .ok () ↔
      ∃ t : Literal, t.encode = v ∧ t.Short ∧ t.levels ≤ 128 ∧ t.nodes ≤ 16_384) ∧
    (((validateModelType 32 v path).outcome 0).1 = .ok () ↔
      ∃ t : ModelType, t.encode = v ∧ t.Labelled ∧ t.Short ∧ t.levels ≤ 32 ∧ t.nodes ≤ 8_192) := by
  constructor
  · rw [Tally.outcome_eq_ok]
    constructor
    · rintro ⟨m, h⟩
      obtain ⟨t, ht, ⟨hlevels, hshort⟩, hm, hbound⟩ :=
        (Literal.counts_literal 128 path v hv 0 m (Nat.zero_le _)).mp h
      exact ⟨t, ht, hshort, hlevels, by omega⟩
    · rintro ⟨t, ht, hshort, hlevels, hnodes⟩
      exact ⟨t.nodes, (Literal.counts_literal 128 path v hv 0 _ (Nat.zero_le _)).mpr
        ⟨t, ht, ⟨hlevels, hshort⟩, (Nat.zero_add _).symm, hnodes⟩⟩
  · rw [Tally.outcome_eq_ok]
    constructor
    · rintro ⟨m, h⟩
      obtain ⟨t, ht, ⟨hlevels, hshort, hlabelled⟩, hm, hbound⟩ :=
        (ModelType.counts_modelType 32 path v hv 0 m (Nat.zero_le _)).mp h
      exact ⟨t, ht, hlabelled, hshort, hlevels, by omega⟩
    · rintro ⟨t, ht, hlabelled, hshort, hlevels, hnodes⟩
      exact ⟨t.nodes, (ModelType.counts_modelType 32 path v hv 0 _ (Nat.zero_le _)).mpr
        ⟨t, ht, ⟨hlevels, hshort, hlabelled⟩, (Nat.zero_add _).symm, hnodes⟩⟩

/-- The entries of a map in a key, and a record type. -/
theorem closed_languages_sample :
    ((validateItfLiteral 128
      (Literal.encode (.map [(.collection .set [.int (-3)], .variant "Some" .null)]))
        "path").outcome 0).1 = .ok () ∧
    ((validateModelType 32
      (ModelType.encode (.labelled .record [("id", .base .int), ("next", .opaqueItf "")]))
        "path").outcome 0).1 = .ok () :=
  ⟨(closed_languages (Literal.encode_ordered _) "path").1.mpr
      ⟨_, rfl, by decide +kernel, by decide +kernel, by decide +kernel⟩,
    (closed_languages (ModelType.encode_ordered _) "path").2.mpr
      ⟨_, rfl, by decide +kernel, by decide +kernel, by decide +kernel, by decide +kernel⟩⟩

end MirrorRust
