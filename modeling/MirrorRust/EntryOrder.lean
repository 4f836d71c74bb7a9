import MirrorRust.Metering
import Mathlib.Logic.Relation

/-! What the check of a contract accepts, entry by entry: the count that the entries share is never
full, so their order does not matter. -/
namespace MirrorRust

/-! ### What the check of a contract accepts -/

/-- The check accepts from a fresh counter. -/
def Tally.Accepts (x : Tally Unit) : Prop := ∃ m, Gives x 0 () m

theorem Metered.accepts_each {γ : Type} {path : String} {f : γ → Tally Unit} {weight : γ → ℕ}
    {items : List γ} (h : ∀ c ∈ items, Metered path (weight c) (f c)) {n : ℕ}
    (hn : 2 * n + (items.map weight).sum ≤ 16_383) :
    (∃ m, Tally.Gives (items.forM f) n () m) ↔ ∀ c ∈ items, (f c).Accepts := by
  induction items generalizing n with
  | nil => exact iff_of_true ⟨n, Tally.gives_forM_nil.mpr rfl⟩ nofun
  | cons c items ih =>
    obtain ⟨hc, hitems⟩ := List.forall_mem_cons.mp h
    rw [List.map_cons, List.sum_cons] at hn
    have hhead : (∃ k, Tally.Gives (f c) n () k) ↔ (f c).Accepts := hc.gives_iff (by omega)
    rw [List.forall_mem_cons, ← hhead]
    constructor
    · rintro ⟨m, hm⟩
      obtain ⟨k, hfirst, hrest⟩ := Tally.gives_forM_cons.mp hm
      have hk := hc.gives_le (by omega) hfirst
      exact ⟨⟨k, hfirst⟩, (ih (n := k) hitems (by omega)).mp ⟨m, hrest⟩⟩
    · rintro ⟨⟨k, hfirst⟩, hall⟩
      have hk := hc.gives_le (by omega) hfirst
      obtain ⟨m, hrest⟩ := (ih (n := k) hitems (by omega)).mpr hall
      exact ⟨m, Tally.gives_forM_cons.mpr ⟨k, hfirst, hrest⟩⟩

/-- A text of at most 256 bytes. -/
def IsShort (value : Json) : Prop := ∃ text, value = .string text ∧ text.utf8ByteSize ≤ 256

/-- A list of at most `bound` entries that each pass on their own. -/
def Listed (bound : ℕ) (check : Json → Tally Unit) (value : Json) : Prop :=
  ∃ items, boundedArray value bound = some items ∧ ∀ item ∈ items, (check item).Accepts

/-- What the check asks of a contract before it turns to the lists. -/
structure Heading (map : Fields) : Prop where
  schema : map.item "schema" = .string MODEL_INTERFACE_CONTRACT_SCHEMA
  interfaceVersion : IsShort (map.item "interfaceVersion")
  model : ∃ model, object (map.item "model") contractPath ["module", "source"] ["module", "source"] =
    .ok model ∧ IsShort (model.item "module") ∧ IsShort (model.item "source")
  wire : ∃ wire, object (map.item "wire") contractPath ["actionVariable", "parameterVariable"]
    ["actionVariable", "parameterVariable"] = .ok wire ∧ IsShort (wire.item "actionVariable") ∧
      ((wire.item "parameterVariable").isNull = false → IsShort (wire.item "parameterVariable"))

def contractNames : List String :=
  ["schema", "interfaceVersion", "model", "wire", "initializers", "actions", "observations"]

/-- The parts of a contract pass one by one. -/
structure Passes (map : Fields) : Prop where
  names : object (.object map) contractPath contractNames contractNames = .ok map
  heading : Heading map
  initializers : Listed 32 (validateAction · contractPath) (map.item "initializers")
  actions : Listed 256 (validateAction · contractPath) (map.item "actions")
  observations : Listed 1024 (validateObservation · contractPath) (map.item "observations")

namespace Tally
variable {path : String} {n m : ℕ}

theorem gives_short {β : Type} {value : Json} {x : Tally β} {r : β} :
    Gives (do
      let _ ← shortString value path
      x) n r m ↔ IsShort value ∧ Gives x n r m := by
  rw [gives_shortString]
  constructor
  · rintro ⟨text, hvalue, hsize, hx⟩
    exact ⟨⟨text, hvalue, hsize⟩, hx⟩
  · rintro ⟨⟨text, hvalue, hsize⟩, hx⟩
    exact ⟨text, hvalue, hsize, hx⟩

theorem gives_short_if {β : Type} {c : Prop} [Decidable c] {value : Json} {x : Tally β} {r : β} :
    Gives (do
      if c then
        let _ ← shortString value path
      x) n r m ↔ (c → IsShort value) ∧ Gives x n r m := by
  split_ifs with h
  · rw [gives_short]
    exact and_congr_left fun _ => ⟨fun hshort _ => hshort, fun hshort => hshort h⟩
  · exact (and_iff_right fun hc => absurd hc h).symm

end Tally

/-- The lists of a contract pass when their entries do. -/
theorem gives_lists {map : Fields} (hnodes : (Json.object map).nodes ≤ 16_384)
    (hnames : ∀ key ∈ contractNames, map.get key ≠ none) :
    (∃ m, Tally.Gives (do
      let initializers ← orUnexpected (boundedArray (map.item "initializers") 32)
        "modelInterface initializers limit exceeded"
      let actions ← orUnexpected (boundedArray (map.item "actions") 256)
        "modelInterface actions limit exceeded"
      let observations ← orUnexpected (boundedArray (map.item "observations") 1024)
        "modelInterface observations limit exceeded"
      (initializers ++ actions).forM fun action => validateAction action contractPath
      observations.forM fun observation => validateObservation observation contractPath) 0 () m) ↔
      Listed 32 (validateAction · contractPath) (map.item "initializers") ∧
        Listed 256 (validateAction · contractPath) (map.item "actions") ∧
          Listed 1024 (validateObservation · contractPath) (map.item "observations") := by
  have hweigh := Metered.members rfl ["initializers", "actions", "observations"] (by simp)
    (fun key hkey => hnames key (by revert hkey; simp [contractNames]; tauto))
  simp only [List.map_cons, List.map_nil, List.sum_cons, List.sum_nil] at hweigh
  have hlists : ∀ {is as os}, boundedArray (map.item "initializers") 32 = some is →
      boundedArray (map.item "actions") 256 = some as →
      boundedArray (map.item "observations") 1024 = some os →
      ((∃ m, Tally.Gives (do
        (is ++ as).forM fun action => validateAction action contractPath
        os.forM fun observation => validateObservation observation contractPath) 0 () m) ↔
        (∀ a ∈ is ++ as, (validateAction a contractPath).Accepts) ∧
          ∀ o ∈ os, (validateObservation o contractPath).Accepts) := by
    intro is as os hi ha ho
    have hi := Json.boundedArray_nodes hi
    have ha := Json.boundedArray_nodes ha
    have ho := Json.boundedArray_nodes ho
    have hsum : ((is ++ as).map Json.nodes).sum = (is.map Json.nodes).sum + (as.map Json.nodes).sum := by
      rw [List.map_append, List.sum_append]
    have hactions := fun a (_ : a ∈ is ++ as) => @Metered.action contractPath a
    have hobservations := fun o (_ : o ∈ os) => Metered.observation o
    rw [← Metered.accepts_each (n := 0) hactions (by omega)]
    constructor
    · rintro ⟨m, h⟩
      obtain ⟨_, k, hfirst, hrest⟩ := Tally.gives_bind.mp h
      have hk := (Metered.each hactions).gives_le (by omega) hfirst
      exact ⟨⟨k, hfirst⟩, (Metered.accepts_each (n := k) hobservations (by omega)).mp ⟨m, hrest⟩⟩
    · rintro ⟨⟨k, hfirst⟩, hall⟩
      have hk := (Metered.each hactions).gives_le (by omega) hfirst
      obtain ⟨m, hrest⟩ := (Metered.accepts_each (n := k) hobservations (by omega)).mpr hall
      exact ⟨m, Tally.gives_bind.mpr ⟨(), k, hfirst, hrest⟩⟩
  constructor
  · rintro ⟨m, h⟩
    obtain ⟨is, hi, h⟩ := Tally.gives_lift_bind.mp h
    obtain ⟨as, ha, h⟩ := Tally.gives_lift_bind.mp h
    obtain ⟨os, ho, h⟩ := Tally.gives_lift_bind.mp h
    rw [orUnexpected_eq_ok] at hi ha ho
    obtain ⟨hactions, hobservations⟩ := (hlists hi ha ho).mp ⟨m, h⟩
    obtain ⟨hinitializers, hactions⟩ := List.forall_mem_append.mp hactions
    exact ⟨⟨is, hi, hinitializers⟩, ⟨as, ha, hactions⟩, ⟨os, ho, hobservations⟩⟩
  · rintro ⟨⟨is, hi, hinitializers⟩, ⟨as, ha, hactions⟩, ⟨os, ho, hobservations⟩⟩
    obtain ⟨m, h⟩ := (hlists hi ha ho).mpr
      ⟨List.forall_mem_append.mpr ⟨hinitializers, hactions⟩, hobservations⟩
    exact ⟨m, Tally.gives_lift_bind.mpr ⟨is, orUnexpected_eq_ok.mpr hi,
      Tally.gives_lift_bind.mpr ⟨as, orUnexpected_eq_ok.mpr ha,
        Tally.gives_lift_bind.mpr ⟨os, orUnexpected_eq_ok.mpr ho, h⟩⟩⟩⟩

theorem accepts_contract {map : Fields} (hnodes : (Json.object map).nodes ≤ 16_384) :
    (countContract (.object map)).Accepts ↔ Passes map := by
  constructor
  · rintro ⟨m, h⟩
    obtain ⟨map', hnames, h⟩ := Tally.gives_lift_bind.mp h
    obtain ⟨hmap, -, hrequired⟩ := object_eq_ok.mp hnames
    cases hmap
    obtain ⟨hschema, h⟩ := Tally.gives_unless_bind.mp h
    obtain ⟨hversion, h⟩ := Tally.gives_short.mp h
    obtain ⟨model, hmodel, h⟩ := Tally.gives_lift_bind.mp h
    obtain ⟨hmodule, h⟩ := Tally.gives_short.mp h
    obtain ⟨hsource, h⟩ := Tally.gives_short.mp h
    obtain ⟨wire, hwire, h⟩ := Tally.gives_lift_bind.mp h
    obtain ⟨haction, h⟩ := Tally.gives_short.mp h
    obtain ⟨hparameter, h⟩ := Tally.gives_short_if.mp h
    obtain ⟨hi, ha, ho⟩ := (gives_lists hnodes hrequired).mp ⟨m, h⟩
    exact ⟨hnames, ⟨not_not.mp hschema, hversion, ⟨model, hmodel, hmodule, hsource⟩,
      ⟨wire, hwire, haction, fun hnull => hparameter (by rw [hnull]; rfl)⟩⟩, hi, ha, ho⟩
  · rintro ⟨hnames, ⟨hschema, hversion, ⟨model, hmodel, hmodule, hsource⟩,
      ⟨wire, hwire, haction, hparameter⟩⟩, hi, ha, ho⟩
    obtain ⟨-, -, hrequired⟩ := object_eq_ok.mp hnames
    obtain ⟨m, h⟩ := (gives_lists hnodes hrequired).mpr ⟨hi, ha, ho⟩
    refine ⟨m, Tally.gives_lift_bind.mpr ⟨map, hnames, Tally.gives_unless_bind.mpr
      ⟨not_not.mpr hschema, Tally.gives_short.mpr ⟨hversion, Tally.gives_lift_bind.mpr ⟨model, hmodel,
        Tally.gives_short.mpr ⟨hmodule, Tally.gives_short.mpr ⟨hsource, Tally.gives_lift_bind.mpr
          ⟨wire, hwire, Tally.gives_short.mpr ⟨haction, Tally.gives_short_if.mpr ⟨?_, h⟩⟩⟩⟩⟩⟩⟩⟩⟩⟩
    intro hnull
    exact hparameter (by simpa using hnull)

theorem gives_aliases {path : String} {aliases : List Json} {n m : ℕ} :
    Tally.Gives (aliases.forM fun item => do
      let _ ← shortString item path) n () m ↔ (∀ item ∈ aliases, IsShort item) ∧ n = m := by
  induction aliases with
  | nil =>
    rw [Tally.gives_forM_nil]
    exact (and_iff_right nofun).symm
  | cons item aliases ih =>
    rw [Tally.gives_forM_cons, List.forall_mem_cons]
    constructor
    · rintro ⟨k, hfirst, hrest⟩
      obtain ⟨hitem, hpure⟩ := Tally.gives_short.mp hfirst
      obtain rfl := Tally.gives_unit.mp hpure
      exact ⟨⟨hitem, (ih.mp hrest).1⟩, (ih.mp hrest).2⟩
    · rintro ⟨⟨hitem, hall⟩, hm⟩
      exact ⟨n, Tally.gives_short.mpr ⟨hitem, Tally.gives_unit.mpr rfl⟩, ih.mpr ⟨hall, hm⟩⟩

def actionNames : List String := ["id", "wireAction", "wireAliases", "inputs"]

theorem accepts_action {map : Fields} {path : String} (hnodes : (Json.object map).nodes ≤ 16_384) :
    (validateAction (.object map) path).Accepts ↔
      object (.object map) path actionNames actionNames = .ok map ∧
      IsShort (map.item "id") ∧ IsShort (map.item "wireAction") ∧
      (∃ aliases, boundedArray (map.item "wireAliases") 16 = some aliases ∧
        ∀ item ∈ aliases, IsShort item) ∧
      Listed 128 (validateInput · path) (map.item "inputs") := by
  have hweight : ∀ {inputs}, (∀ key ∈ actionNames, map.get key ≠ none) →
      boundedArray (map.item "inputs") 128 = some inputs →
      2 * 0 + (inputs.map Json.nodes).sum ≤ 16_383 := by
    intro inputs hnames hinputs
    have hsum := Json.boundedArray_nodes hinputs
    have hweigh := @Metered.members _ map rfl ["inputs"] (by simp)
      (List.forall_mem_singleton.mpr (hnames "inputs" (by decide)))
    simp only [List.map_cons, List.map_nil, List.sum_cons, List.sum_nil] at hweigh
    omega
  have hinput := fun (c : Json) => @Metered.input path c
  constructor
  · rintro ⟨m, h⟩
    obtain ⟨map', hnames, h⟩ := Tally.gives_lift_bind.mp h
    obtain ⟨hmap, -, hrequired⟩ := object_eq_ok.mp hnames
    cases hmap
    obtain ⟨hid, h⟩ := Tally.gives_short.mp h
    obtain ⟨haction, h⟩ := Tally.gives_short.mp h
    obtain ⟨aliases, haliases, h⟩ := Tally.gives_lift_bind.mp h
    obtain ⟨_, k, hloop, h⟩ := Tally.gives_bind.mp h
    obtain ⟨hall, rfl⟩ := gives_aliases.mp hloop
    obtain ⟨inputs, hinputs, h⟩ := Tally.gives_lift_bind.mp h
    rw [orUnexpected_eq_ok] at haliases hinputs
    exact ⟨hnames, hid, haction, ⟨aliases, haliases, hall⟩, inputs, hinputs,
      (Metered.accepts_each (fun c _ => hinput c) (hweight hrequired hinputs)).mp ⟨m, h⟩⟩
  · rintro ⟨hnames, hid, haction, ⟨aliases, haliases, hall⟩, inputs, hinputs, hpass⟩
    obtain ⟨-, -, hrequired⟩ := object_eq_ok.mp hnames
    obtain ⟨m, h⟩ := (Metered.accepts_each (fun c _ => hinput c)
      (hweight hrequired hinputs)).mpr hpass
    exact ⟨m, Tally.gives_lift_bind.mpr ⟨map, hnames, Tally.gives_short.mpr ⟨hid,
      Tally.gives_short.mpr ⟨haction, Tally.gives_lift_bind.mpr
        ⟨aliases, orUnexpected_eq_ok.mpr haliases, Tally.gives_bind.mpr
          ⟨(), 0, gives_aliases.mpr ⟨hall, rfl⟩, Tally.gives_lift_bind.mpr
            ⟨inputs, orUnexpected_eq_ok.mpr hinputs, h⟩⟩⟩⟩⟩⟩⟩

/-! ### Entries in another order -/

/-- The record with another value for a key it has. -/
def Fields.replace (key : String) (value : Json) : Fields → Fields
  | [] => []
  | p :: map => if p.1 = key then (key, value) :: map else p :: Fields.replace key value map

/-- A contract with one of its lists in another order: its initializers, its actions, its
observations, or the inputs of one action or initializer. -/
inductive Reordered : Json → Json → Prop
  | entries {map : Fields} {key : String} {items items' : List Json}
      (hkey : key ∈ ["initializers", "actions", "observations"])
      (hitems : map.get key = some (.array items)) (hperm : items.Perm items') :
      Reordered (.object map) (.object (map.replace key (.array items')))
  | inputs {map action : Fields} {key : String} {before after inputs inputs' : List Json}
      (hkey : key ∈ ["initializers", "actions"])
      (hitems : map.get key = some (.array (before ++ .object action :: after)))
      (hinputs : action.get "inputs" = some (.array inputs)) (hperm : inputs.Perm inputs') :
      Reordered (.object map) (.object (map.replace key
        (.array (before ++ .object (action.replace "inputs" (.array inputs')) :: after))))

namespace Fields
variable {map : Fields} {key : String} {j v : Json}

theorem replace_keys (map : Fields) (key : String) (v : Json) :
    (map.replace key v).map Prod.fst = map.map Prod.fst := by
  induction map with
  | nil => rfl
  | cons p map ih =>
    rw [replace]
    split_ifs with hkey
    · rw [List.map_cons, List.map_cons, hkey]
    · rw [List.map_cons, List.map_cons, ih]

theorem get_replace (k : String) :
    (map.replace key v).get k = if k = key then (map.get key).map fun _ => v else map.get k := by
  induction map with
  | nil => simp [replace, get]
  | cons p map ih =>
    rw [replace]
    unfold get at ih ⊢
    by_cases hkey : p.1 = key
    · by_cases hk : k = key
      · simp [Assoc.get?_cons, hkey, hk]
      · simp [Assoc.get?_cons, hkey, hk]
    · by_cases hk : k = key
      · subst hk
        simp [Assoc.get?_cons, hkey, Ne.symm hkey, ih]
      · by_cases hp : k = p.1
        · simp [Assoc.get?_cons, hkey, hp]
        · simp [Assoc.get?_cons, hkey, hk, hp, ih]

theorem item_replace_self (h : map.get key ≠ none) : (map.replace key v).item key = v := by
  obtain ⟨j, hj⟩ := Option.ne_none_iff_exists'.mp h
  rw [item, get_replace, if_pos rfl, hj]
  rfl

theorem item_replace_ne {k : String} (h : k ≠ key) : (map.replace key v).item k = map.item k := by
  rw [item, get_replace, if_neg h]
  rfl

theorem nodes_replace (hj : map.get key = some j) (h : v.nodes = j.nodes) :
    Json.nodesFields (map.replace key v) = Json.nodesFields map := by
  induction map with
  | nil => cases hj
  | cons p map ih =>
    unfold get at hj
    rw [Assoc.get?_cons] at hj
    rw [replace]
    by_cases hkey : p.1 = key
    · rw [if_pos hkey.symm] at hj
      rw [if_pos hkey, Json.nodesFields, Json.nodesFields, h, Option.some.inj hj]
    · rw [if_neg (Ne.symm hkey)] at hj
      rw [if_neg hkey, Json.nodesFields, Json.nodesFields, ih hj]

theorem object_replace {path : String} {names : List String} :
    object (.object (map.replace key v)) path names names = .ok (map.replace key v) ↔
      object (.object map) path names names = .ok map := by
  have hallowed : ∀ fields : Fields, (∀ p ∈ fields, p.1 ∈ names) ↔
      ∀ k ∈ fields.map Prod.fst, k ∈ names := fun fields => List.forall_mem_map.symm
  have hget : ∀ k, (map.replace key v).get k ≠ none ↔ map.get k ≠ none := by
    intro k
    rw [get_replace]
    split_ifs with hk
    · simp [hk]
    · exact Iff.rfl
  rw [object_eq_ok, object_eq_ok, hallowed, hallowed, replace_keys]
  simp only [hget, true_and]

end Fields

theorem listed_array {bound : ℕ} {check : Json → Tally Unit} {items : List Json} :
    Listed bound check (.array items) ↔
      items.length ≤ bound ∧ ∀ item ∈ items, (check item).Accepts := by
  unfold Listed boundedArray
  simp [Json.asArray, Option.filter_some]

theorem listed_perm {bound : ℕ} {check : Json → Tally Unit} {items items' : List Json}
    (h : items.Perm items') :
    Listed bound check (.array items) ↔ Listed bound check (.array items') := by
  rw [listed_array, listed_array, h.length_eq]
  exact and_congr_right fun _ => forall_congr' fun item => by rw [h.mem_iff]

theorem listed_middle {bound : ℕ} {check : Json → Tally Unit} {before after : List Json}
    {item item' : Json} (h : (check item).Accepts ↔ (check item').Accepts) :
    Listed bound check (.array (before ++ item :: after)) ↔
      Listed bound check (.array (before ++ item' :: after)) := by
  rw [listed_array, listed_array]
  simp only [List.length_append, List.length_cons, List.forall_mem_append, List.forall_mem_cons, h]

theorem heading_replace {map : Fields} {key : String} {v : Json}
    (hkey : key ∈ ["initializers", "actions", "observations"]) :
    Heading (map.replace key v) ↔ Heading map := by
  have hitem : ∀ k ∈ ["schema", "interfaceVersion", "model", "wire"],
      (map.replace key v).item k = map.item k := by
    intro k hk
    refine Fields.item_replace_ne ?_
    rintro rfl
    revert hk hkey
    simp only [List.mem_cons, List.not_mem_nil, or_false]
    rintro (rfl | rfl | rfl | rfl) <;> decide
  simp only [List.forall_mem_cons, List.not_mem_nil, false_imp_iff, implies_true, and_true] at hitem
  obtain ⟨hschema, hversion, hmodel, hwire⟩ := hitem
  constructor
  · rintro ⟨h1, h2, h3, h4⟩
    rw [hschema] at h1
    rw [hversion] at h2
    rw [hmodel] at h3
    rw [hwire] at h4
    exact ⟨h1, h2, h3, h4⟩
  · rintro ⟨h1, h2, h3, h4⟩
    exact ⟨by rwa [hschema], by rwa [hversion], by rwa [hmodel], by rwa [hwire]⟩

/-- A list of a contract is replaced by one that passes when it does. -/
theorem passes_replace {map : Fields} {key : String} {j v : Json} (hj : map.get key = some j)
    (hkey : key ∈ ["initializers", "actions", "observations"])
    (hinitializers : key = "initializers" → (Listed 32 (validateAction · contractPath) j ↔
      Listed 32 (validateAction · contractPath) v))
    (hactions : key = "actions" → (Listed 256 (validateAction · contractPath) j ↔
      Listed 256 (validateAction · contractPath) v))
    (hobservations : key = "observations" → (Listed 1024 (validateObservation · contractPath) j ↔
      Listed 1024 (validateObservation · contractPath) v)) :
    Passes map ↔ Passes (map.replace key v) := by
  have hlist : ∀ {k bound check}, (key = k → (Listed bound check j ↔ Listed bound check v)) →
      (Listed bound check ((map.replace key v).item k) ↔ Listed bound check (map.item k)) := by
    intro k bound check h
    by_cases hk : k = key
    · subst hk
      rw [Fields.item_replace_self (by rw [hj]; exact nofun), ← h rfl, Fields.item, hj,
        Option.getD_some]
    · rw [Fields.item_replace_ne hk]
  constructor
  · rintro ⟨hnames, hheading, hi, ha, ho⟩
    exact ⟨Fields.object_replace.mpr hnames, (heading_replace hkey).mpr hheading,
      (hlist hinitializers).mpr hi, (hlist hactions).mpr ha, (hlist hobservations).mpr ho⟩
  · rintro ⟨hnames, hheading, hi, ha, ho⟩
    exact ⟨Fields.object_replace.mp hnames, (heading_replace hkey).mp hheading,
      (hlist hinitializers).mp hi, (hlist hactions).mp ha, (hlist hobservations).mp ho⟩

/-- An action passes with its inputs in any order. -/
theorem accepts_inputs {action : Fields} {path : String} {inputs inputs' : List Json}
    (hnodes : (Json.object action).nodes ≤ 16_384)
    (hinputs : action.get "inputs" = some (.array inputs)) (hperm : inputs.Perm inputs') :
    (validateAction (.object action) path).Accepts ↔
      (validateAction (.object (action.replace "inputs" (.array inputs'))) path).Accepts := by
  have hsame : (Json.array inputs').nodes = (Json.array inputs).nodes := by
    rw [Json.nodes, Json.nodes, Json.nodesItems_perm hperm]
  have hnodes' : (Json.object (action.replace "inputs" (.array inputs'))).nodes ≤ 16_384 := by
    rw [Json.nodes, Fields.nodes_replace hinputs hsame]
    exact hnodes
  have hitem : action.item "inputs" = .array inputs := by rw [Fields.item, hinputs, Option.getD_some]
  rw [accepts_action hnodes, accepts_action hnodes', Fields.object_replace,
    Fields.item_replace_ne (by decide), Fields.item_replace_ne (by decide),
    Fields.item_replace_ne (by decide), Fields.item_replace_self (by simp [hinputs]),
    hitem, listed_perm hperm]

/-- A step keeps the size of a contract and what the check says of it. -/
theorem Reordered.step {value value' : Json} (h : Reordered value value')
    (hnodes : value.nodes ≤ 16_384) :
    value'.nodes = value.nodes ∧
      ((countContract value).Accepts ↔ (countContract value').Accepts) := by
  cases h with
  | @entries map key items items' hkey hitems hperm =>
    have hsame : (Json.array items').nodes = (Json.array items).nodes := by
      rw [Json.nodes, Json.nodes, Json.nodesItems_perm hperm]
    have heq : (Json.object (map.replace key (.array items'))).nodes = (Json.object map).nodes := by
      rw [Json.nodes, Json.nodes, Fields.nodes_replace hitems hsame]
    refine ⟨heq, ?_⟩
    rw [accepts_contract hnodes, accepts_contract (heq.trans_le hnodes)]
    exact passes_replace hitems hkey (fun _ => listed_perm hperm) (fun _ => listed_perm hperm)
      fun _ => listed_perm hperm
  | @inputs map action key before after inputs inputs' hkey hitems hinputs hperm =>
    have hsame : (Json.object (action.replace "inputs" (.array inputs'))).nodes =
        (Json.object action).nodes := by
      rw [Json.nodes, Json.nodes, Fields.nodes_replace hinputs]
      rw [Json.nodes, Json.nodes, Json.nodesItems_perm hperm]
    have hlist : (Json.array (before ++ .object (action.replace "inputs" (.array inputs')) ::
        after)).nodes = (Json.array (before ++ .object action :: after)).nodes := by
      simp only [Json.nodes, Json.nodesItems_eq, List.map_append, List.map_cons, List.sum_append,
        List.sum_cons] at hsame ⊢
      omega
    have heq : (Json.object (map.replace key (.array (before ++
        .object (action.replace "inputs" (.array inputs')) :: after)))).nodes =
        (Json.object map).nodes := by
      rw [Json.nodes, Json.nodes, Fields.nodes_replace hitems hlist]
    have haction : (Json.object action).nodes ≤ 16_384 := by
      have hmember := @Metered.members _ map rfl [key] (by simp) (by simp [hitems])
      have hitem : map.item key = .array (before ++ .object action :: after) := by
        rw [Fields.item, hitems, Option.getD_some]
      simp only [List.map_cons, List.map_nil, List.sum_cons, List.sum_nil] at hmember
      rw [hitem, Json.nodes, Json.nodesItems_eq, List.map_append, List.sum_append, List.map_cons,
        List.sum_cons] at hmember
      omega
    have hpass := @accepts_inputs action contractPath inputs inputs' haction hinputs hperm
    refine ⟨heq, ?_⟩
    rw [accepts_contract hnodes, accepts_contract (heq.trans_le hnodes)]
    refine passes_replace hitems (List.mem_append_left ["observations"] hkey)
      (fun _ => listed_middle hpass) (fun _ => listed_middle hpass) fun hobservations => ?_
    rw [hobservations] at hkey
    exact absurd hkey (by decide)

theorem Reordered.run {value value' : Json} (h : Relation.ReflTransGen Reordered value value')
    (hnodes : value.nodes ≤ 16_384) :
    value'.nodes = value.nodes ∧
      ((countContract value).Accepts ↔ (countContract value').Accepts) := by
  induction h with
  | refl => exact ⟨rfl, Iff.rfl⟩
  | tail _ hstep ih =>
    obtain ⟨hsize, haccepts⟩ := hstep.step (ih.1.trans_le hnodes)
    exact ⟨hsize.trans ih.1, ih.2.trans haccepts⟩

/-! Two observations, in one order and in the other. -/

namespace TwoObservations

/-- A set of integers: two nodes of a type. -/
def expected : Json := .object
  [("element", .object [("kind", .string "int")]), ("kind", .string "set")]

def observation (id : String) : Json := .object
  [("expectedType", expected), ("id", .string id), ("provenance", .string "oracle"),
    ("wireName", .string id)]

def contract (observations : List Json) : Fields :=
  [("actions", .array []), ("initializers", .array []), ("interfaceVersion", .string "1"),
    ("model", .object [("module", .string "M"), ("source", .string "M.tla")]),
    ("observations", .array observations), ("schema", .string MODEL_INTERFACE_CONTRACT_SCHEMA),
    ("wire", .object [("actionVariable", .string "a"), ("parameterVariable", .null)])]

def value : Json := .object (contract [observation "x", observation "y"])

theorem value_brief : 4 * value.chars.length ≤ strictLimits.maxBytes ∧
    ((countContract value).outcome 0).2 = 4 ∧ (validateContract value).toOption.isSome = true := by
  decide +kernel

theorem strictParse_value : strictParse value.render = .ok value := by
  have htokens : value.Tokens := by
    simp [value, contract, observation, expected, Json.Tokens, Json.TokensFields, Json.TokensItems]
  have hdistinct : value.Distinct := by
    simp [value, contract, observation, expected, Json.Distinct, Json.DistinctFields,
      Json.DistinctItems]
  have hordered : value.Ordered := by
    simp only [value, contract, observation, expected, Json.Ordered, Json.OrderedFields,
      Json.OrderedItems, Assoc.Sorted, and_true]
    decide +kernel
  have hparse := strictParse_render htokens ⟨by decide, by decide, fun _ => hdistinct⟩ value_brief.1
  rwa [Json.ordered_denote hordered] at hparse

theorem validateContract_value : validateContract value = .ok () := by
  obtain ⟨⟨⟩, hok⟩ := Option.isSome_iff_exists.mp value_brief.2.2
  exact ok_of_toOption hok

end TwoObservations

/-- The count that the parts of a contract share stays below both bounds, neither bound is ever a
reason to refuse, and the order of the entries does not matter. -/
theorem contract_order {text : String} {value : Json} (h : strictParse text = .ok value) :
    ((countContract value).outcome 0).2 ≤ 8_192 ∧
      (∀ e, validateContract value = .error e → ¬ NodeLimit contractPath e) ∧
      ∀ value', Relation.ReflTransGen Reordered value value' →
        (validateContract value = .ok () ↔ validateContract value' = .ok ()) := by
  have hnodes := strictParse_nodes h
  have hmetered := Metered.contract value
  refine ⟨hmetered.count_le (by omega), fun e he => hmetered.not_limit (by omega) he, ?_⟩
  intro value' hvalue'
  unfold validateContract
  rw [Tally.outcome_eq_ok, Tally.outcome_eq_ok]
  exact (Reordered.run hvalue' hnodes).2

open TwoObservations in
theorem contract_order_sample :
    0 < ((countContract value).outcome 0).2 ∧ ((countContract value).outcome 0).2 ≤ 8_192 ∧
      validateContract (.object (TwoObservations.contract [observation "y", observation "x"])) =
        .ok () := by
  obtain ⟨hcount, -, horder⟩ := contract_order strictParse_value
  have hstep : Reordered value
      (.object (TwoObservations.contract [observation "y", observation "x"])) :=
    @Reordered.entries _ "observations" _ _ (by simp) rfl (List.Perm.swap _ _ [])
  exact ⟨value_brief.2.1 ▸ Nat.zero_lt_succ 3, hcount,
    (horder _ (.single hstep)).mp validateContract_value⟩

end MirrorRust
