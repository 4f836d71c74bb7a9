import MirrorRust.Campaign

/-! What an exploration reports: its accounts, when it goes on, and what a complete verdict says. -/
namespace MirrorRust

namespace FiniteSpace
variable {serde : Serde} {space : FiniteSpace} {limits : ExplorationLimits}
  {polls : ℕ → Poll}

theorem length_candidates (space : FiniteSpace) (shapes : List (List Step)) :
    (space.candidates shapes).length = shapes.length * space.inputs.length := by
  simp [candidates, List.length_flatMap]

/-- The schedules of different shapes or inputs differ. -/
theorem nodup_candidates {shapes : List (List Step)} (hshapes : shapes.Nodup)
    (hinputs : space.inputs.Nodup) : ((space.candidates shapes).map Prod.snd).Nodup := by
  have heq : (space.candidates shapes).map Prod.snd = shapes.flatMap fun steps =>
      space.inputs.map fun input => Schedule.new space.identity input steps := by
    rw [candidates, List.map_flatMap]
    refine List.flatMap_congr fun steps _ => ?_
    rw [List.map_map, ← List.zipIdx_map_fst 0 space.inputs, List.map_map, List.zipIdx_map_fst]
    rfl
  rw [heq, List.nodup_flatMap]
  constructor
  · intro steps _
    refine hinputs.map fun a b hab => ?_
    exact congrArg Schedule.inputs hab
  · refine hshapes.imp fun {steps others} hne => ?_
    rw [Function.onFun, List.disjoint_left]
    intro s hs ht
    obtain ⟨a, -, rfl⟩ := List.mem_map.mp hs
    obtain ⟨b, -, hb⟩ := List.mem_map.mp ht
    exact hne (congrArg Schedule.steps hb).symm

/-- An exhausted search has listed every merge within the bound once. -/
theorem Declared.exhausted (h : space.Declared serde)
    (hexhausted : (space.enumeration limits polls).exhausted = true) :
    (space.enumeration limits polls).shapes =
      boundedMerges space.actors space.maxPreemptions := by
  obtain ⟨e, hrun, hcol⟩ := enumerate_collects h.names space.maxPreemptions
    limits.maxEnumeratedSchedules polls
  rw [enumeration, hrun] at hexhausted ⊢
  cases hcol with
  | all _ hshapes _ => simpa [enumerator] using hshapes
  | capped hno _ _ => exact absurd (hno.symm.trans hexhausted) Bool.false_ne_true
  | interrupted hno _ _ => exact absurd (hno.symm.trans hexhausted) Bool.false_ne_true

end FiniteSpace

/-! ### The calls and the output -/

namespace Explorer
variable (x : Explorer) (polls : ℕ → Poll)

def enumeration : Enumeration := x.space.enumeration x.limits polls

/-- The pairs of an input and a schedule, in the order of the loops. -/
def candidates : List (ℕ × Schedule) := x.space.candidates (x.enumeration polls).shapes

/-- The candidates as their rows have them. -/
def pairs : List (ℕ × Json) := (x.candidates polls).map x.written

/-- The calls of the runner in an exploration. -/
def calls : List Attempt := x.attempts (x.candidates polls) (.new (x.enumeration polls).reason)

def output : Exploration :=
  (x.explore (x.candidates polls) (.new (x.enumeration polls).reason)).output (x.enumeration polls)
    ((x.enumeration polls).shapes.length * x.space.inputs.length)

def run : Except String Exploration :=
  exploreFinite x.serde polls x.looks x.space x.runner x.limits

/-- The operations by actor are those that the checks of the declaration find. -/
def Declares : Prop := x.space.check x.serde x.limits = .ok x.declarations

variable {x} {polls}

theorem Declares.run (h : x.Declares) : x.run polls = .ok (x.output polls) := by
  have hcheck : x.space.check x.serde x.limits = .ok x.declarations := h
  simp only [Explorer.run, exploreFinite, hcheck]
  rfl

/-- The campaign whose counters the output has. -/
theorem closes (x : Explorer) (polls : ℕ → Poll) :
    ∃ c, x.Runs (x.enumeration polls).reason (x.calls polls) c ∧
      x.Ends (x.candidates polls) (x.calls polls) c
        (x.explore (x.candidates polls) (.new (x.enumeration polls).reason)) :=
  explore_ends .start rfl (x.candidates polls)

theorem Accounts.stop {as : List Attempt} {c : Campaign} (h : x.Accounts as c) (reason : String) :
    x.Accounts as (c.stop reason) :=
  { h with retained := fun hopen => nomatch hopen }

/-- The campaign of an output: its books and its tables, and that it stays open only when all
candidates have been run. -/
structure Closing (x : Explorer) (polls : ℕ → Poll) (c : Campaign) : Prop where
  accounts : x.Accounts (x.calls polls) c
  covers : ∃ names, c.coverage.Covers names ((x.calls polls).flatMap x.leaves)
  listed : (x.calls polls).map Attempt.candidate <+: x.candidates polls
  exhausted : c.halt = false → (x.calls polls).map Attempt.candidate = x.candidates polls
  settled : c.halt = false → ∀ (k : ℕ) (a : Attempt), (x.calls polls)[k]? = some a →
    x.Settled ((x.calls polls).take k) a
  acquired : ∀ (k : ℕ) (a b : Attempt), (x.calls polls)[k]? = some a →
    (x.calls polls)[k + 1]? = some b → x.Settled ((x.calls polls).take k) a

/-- The attempts are those of the candidates in order. -/
theorem Closing.candidate {c : Campaign} (h : x.Closing polls c) {k : ℕ} {a : Attempt}
    (ha : (x.calls polls)[k]? = some a) : (x.candidates polls)[k]? = some a.candidate := by
  have hmap : ((x.calls polls).map Attempt.candidate)[k]? = some a.candidate := by
    rw [List.getElem?_map, ha]
    rfl
  obtain ⟨rest, hrest⟩ := h.listed
  rw [← hrest, List.getElem?_append_left (List.getElem?_eq_some_iff.mp hmap).1, hmap]

/-- Every attempt but the last one has been settled. -/
theorem Runs.acquired {as : List Attempt} {c : Campaign} {reason : String}
    (h : x.Runs reason as c) {k : ℕ} {a b : Attempt} (ha : as[k]? = some a)
    (hb : as[k + 1]? = some b) : x.Settled (as.take k) a := by
  cases h with
  | start => simp at ha
  | @next as c p hruns hhalt =>
    have hk : k + 1 < (as ++ [(⟨c, p⟩ : Attempt)]).length := (List.getElem?_eq_some_iff.mp hb).1
    have hlt : k < as.length := by
      rw [List.length_append, List.length_singleton] at hk
      omega
    rw [List.take_append_of_le_length hlt.le]
    exact (hruns.settled hhalt).1 k a (by rwa [List.getElem?_append_left hlt] at ha)

theorem closing (x : Explorer) (polls : ℕ → Poll) :
    x.Closing polls (x.explore (x.candidates polls) (.new (x.enumeration polls).reason)) := by
  obtain ⟨c, hruns, hends⟩ := x.closes polls
  have haccounts := hruns.accounts
  obtain ⟨names, hnames⟩ := hruns.covers
  have hacquired : ∀ (k : ℕ) (a b : Attempt), (x.calls polls)[k]? = some a →
      (x.calls polls)[k + 1]? = some b → x.Settled ((x.calls polls).take k) a :=
    fun k a b ha hb => hruns.acquired ha hb
  generalize x.explore (x.candidates polls) (.new (x.enumeration polls).reason) = c' at hends ⊢
  cases hends with
  | exhausted hall hopen =>
    exact ⟨haccounts, ⟨names, hnames⟩, hall ▸ List.prefix_rfl, fun _ => hall,
      fun _ => (hruns.settled hopen).1, hacquired⟩
  | halted hlisted hhalt =>
    have hclosed : c.halt ≠ false := by simp [hhalt]
    exact ⟨haccounts, ⟨names, hnames⟩, hlisted, fun hopen => absurd hopen hclosed,
      fun hopen => absurd hopen hclosed, hacquired⟩
  | gated hlisted =>
    exact ⟨haccounts.stop _, ⟨names, hnames⟩, (List.prefix_append _ _).trans hlisted, nofun, nofun,
      hacquired⟩

end Explorer

/-! ### The accounts -/

/-- The rows, counters and tables of an output, in step with one another. -/
structure Exploration.Accounted (out : Exploration) (pairs : List (ℕ × Json))
    (limits : ExplorationLimits) : Prop where
  rows : out.runs.length = out.attemptedRuns
  ordinals : out.runs.map RunRow.ordinal = List.range out.attemptedRuns
  candidates : ∀ (k : ℕ) (row : Row), out.runs[k]? = some (.retained row) →
    pairs[k]? = some row.candidate
  omitted : ∀ (k n : ℕ) (kind : Category), out.runs[k]? = some (.omitted n kind) →
    k + 1 = out.runs.length
  total : (out.categories.map Prod.snd).sum = out.attemptedRuns
  counts : ∀ kind : Category, (Assoc.get? kind.name out.categories).getD 0 =
    out.runs.countP (·.category = kind)
  kinds : ∀ p ∈ out.categories, ∃ r ∈ out.runs, p.1 = r.category.name
  completed : out.completedRuns = out.runs.countP (·.category = .passed)
  passed : out.firstFailure = none ↔ ∀ r ∈ out.runs, r.category = .passed
  firstFailure : ∀ f ∈ out.firstFailure, (∃ r, out.runs[f.ordinal]? = some r ∧
      r.category = f.category ∧ r.category ≠ .passed) ∧
    (∃ i, pairs[f.ordinal]? = some (i, f.schedule)) ∧
    ∀ r ∈ out.runs.take f.ordinal, r.category = .passed
  evidence : (out.runs.map RunRow.length).sum ≤ limits.maxEvidenceBytes
  ids : out.states.map StateRow.id = List.range out.states.length
  values : ∃ values : List Json, out.states.map StateRow.canonical = values.map Json.render ∧
    values.Nodup ∧ ∀ v ∈ values, v.Lexical
  ends : ∀ p ∈ out.transitions, (ofLex p.1).1 < out.states.length ∧
    (ofLex p.1).2 < out.states.length

section Reports
variable {rows : List Row} {runs : List RunRow}

theorem Reports.categories (h : Reports rows runs) :
    runs.map RunRow.category = rows.map Row.category := by
  cases h <;> simp [RunRow.category, Function.comp_def]

theorem Reports.ordinals (h : Reports rows runs) :
    runs.map RunRow.ordinal = rows.map Row.ordinal := by
  cases h <;> simp [RunRow.ordinal, Function.comp_def]

theorem Reports.length (h : Reports rows runs) : runs.length = rows.length := by
  cases h <;> simp

theorem Reports.retained (h : Reports rows runs) {k : ℕ} {row : Row}
    (hk : runs[k]? = some (.retained row)) : rows[k]? = some row := by
  cases h with
  | all => simpa using hk
  | cut rows r =>
    rcases lt_or_ge k rows.length with hlt | hge
    · rw [List.getElem?_append_left (by simpa using hlt)] at hk
      rw [List.getElem?_append_left hlt]
      simpa using hk
    · rw [List.getElem?_append_right (by simpa using hge), List.getElem?_singleton] at hk
      split_ifs at hk
      cases hk

theorem Reports.omitted (h : Reports rows runs) {k n : ℕ} {kind : Category}
    (hk : runs[k]? = some (.omitted n kind)) : k + 1 = runs.length := by
  cases h with
  | all =>
    rw [List.getElem?_map] at hk
    obtain ⟨row, -, hrow⟩ := Option.map_eq_some_iff.mp hk
    cases hrow
  | cut rows r =>
    rcases lt_or_ge k rows.length with hlt | hge
    · rw [List.getElem?_append_left (by simpa using hlt), List.getElem?_map] at hk
      obtain ⟨row, -, hrow⟩ := Option.map_eq_some_iff.mp hk
      cases hrow
    · rw [List.getElem?_append_right (by simpa using hge), List.getElem?_singleton] at hk
      split_ifs at hk with hzero
      simp only [List.length_map, List.length_append, List.length_singleton] at hzero ⊢
      omega

theorem Reports.countP (h : Reports rows runs) (kind : Category) :
    runs.countP (·.category = kind) = rows.countP (·.category = kind) := by
  have hruns := List.countP_map (p := fun k => decide (k = kind)) (f := RunRow.category) (l := runs)
  have hrows := List.countP_map (p := fun k => decide (k = kind)) (f := Row.category) (l := rows)
  rw [h.categories] at hruns
  exact hruns.symm.trans hrows

end Reports

theorem Exploration.firstFailure_spec {rows : List Row} {f : Failure}
    (h : (rows.find? (·.category ≠ .passed)).map Row.failure = some f)
    (hordinals : rows.map Row.ordinal = List.range rows.length) :
    ∃ row, rows[f.ordinal]? = some row ∧ row.failure = f ∧ row.category ≠ .passed ∧
      ∀ r ∈ rows.take f.ordinal, r.category = .passed := by
  obtain ⟨row, hfind, rfl⟩ := Option.map_eq_some_iff.mp h
  obtain ⟨hfailed, k, hk, hrow, hbefore⟩ := List.find?_eq_some_iff_getElem.mp hfind
  have hordinal : row.ordinal = k := by
    have hget : (rows.map Row.ordinal)[k]? = some row.ordinal := by
      rw [List.getElem?_map, List.getElem?_eq_getElem hk, hrow]
      rfl
    rw [hordinals, List.getElem?_range hk] at hget
    exact (Option.some.inj hget).symm
  refine ⟨row, ?_, rfl, by simpa using hfailed, fun r hr => ?_⟩
  · rw [Row.failure, hordinal, List.getElem?_eq_getElem hk, hrow]
  · rw [Row.failure, hordinal] at hr
    obtain ⟨j, hj, rfl⟩ := List.getElem_of_mem hr
    have hlt : j < k := (List.length_take_le _ _).trans_lt' hj
    simpa using hbefore j hlt

namespace Explorer
variable {x : Explorer} {polls : ℕ → Poll}

theorem Accounts.row_ordinals {as : List Attempt} {c : Campaign} (h : x.Accounts as c) :
    (as.map x.row).map Row.ordinal = List.range as.length := by
  refine List.ext_getElem? fun k => ?_
  rw [List.map_map, List.getElem?_map]
  rcases lt_or_ge k as.length with hlt | hge
  · have ha : as[k]? = some as[k] := List.getElem?_eq_getElem hlt
    rw [ha, List.getElem?_range hlt]
    exact congrArg some (h.ordinals k _ ha).1
  · rw [List.getElem?_eq_none hge, List.getElem?_eq_none (by simpa using hge)]
    rfl

/-- The rows, counters and tables of an accepted campaign are in step: there is a row for every
attempt, in the order of the candidates, and only the evidence of the last one can be missing. -/
theorem campaign_accounted (hdeclares : x.Declares) :
    ∃ out, x.run polls = .ok out ∧ out.Accounted (x.pairs polls) x.limits := by
  refine ⟨_, hdeclares.run, ?_⟩
  have hclosing := x.closing polls
  obtain ⟨names, hcovers⟩ := hclosing.covers
  have haccounts := hclosing.accounts
  have hreports := haccounts.reports
  have hrows : (x.output polls).runs.length = (x.calls polls).length :=
    hreports.length.trans (List.length_map _)
  have hattempted : (x.output polls).attemptedRuns = (x.calls polls).length := haccounts.attempted
  have hlength : ((x.calls polls).map x.row).length = (x.calls polls).length := List.length_map _
  have hcandidate : ∀ {k : ℕ} {row : Row}, ((x.calls polls).map x.row)[k]? = some row →
      (x.pairs polls)[k]? = some row.candidate := by
    intro k row hk
    rw [List.getElem?_map] at hk
    obtain ⟨a, ha, rfl⟩ := Option.map_eq_some_iff.mp hk
    rw [pairs, List.getElem?_map, hclosing.candidate ha]
    rfl
  have hordinals := haccounts.row_ordinals
  constructor
  case rows => exact hrows.trans hattempted.symm
  case ordinals => exact (hreports.ordinals.trans hordinals).trans (by rw [hattempted])
  case candidates => exact fun k row hk => hcandidate (hreports.retained hk)
  case omitted => exact fun k n kind hk => hreports.omitted hk
  case total => exact haccounts.total.trans hattempted.symm
  case counts => exact fun kind => (haccounts.counts kind).trans (hreports.countP kind).symm
  case kinds =>
    intro p hp
    obtain ⟨a, ha, heq⟩ := haccounts.kinds p hp
    have hmem : (x.row a).category ∈ (x.output polls).runs.map RunRow.category := by
      refine hreports.categories ▸ ?_
      exact List.mem_map_of_mem (List.mem_map_of_mem ha)
    obtain ⟨r, hr, hcategory⟩ := List.mem_map.mp hmem
    exact ⟨r, hr, by rw [heq, hcategory]⟩
  case completed => exact haccounts.completed.trans (hreports.countP _).symm
  case passed =>
    have hnone : (x.output polls).firstFailure = none ↔
        ∀ k ∈ ((x.calls polls).map x.row).map Row.category, k = .passed := by
      rw [show (x.output polls).firstFailure = _ from haccounts.firstFailure,
        Option.map_eq_none_iff, List.find?_eq_none]
      simp
    rw [hnone, ← hreports.categories, List.forall_mem_map]
    rfl
  case firstFailure =>
    intro f hf
    obtain ⟨row, hk, rfl, hfailed, hbefore⟩ := Exploration.firstFailure_spec
      (haccounts.firstFailure.symm.trans hf) (by rw [hlength]; exact hordinals)
    have hcategory : ((x.output polls).runs.map RunRow.category)[row.failure.ordinal]? =
        some row.category := by
      rw [show (x.output polls).runs.map RunRow.category = _ from hreports.categories,
        List.getElem?_map, hk]
      rfl
    rw [List.getElem?_map] at hcategory
    obtain ⟨r, hr, heq⟩ := Option.map_eq_some_iff.mp hcategory
    refine ⟨⟨r, hr, heq, heq.symm ▸ hfailed⟩, ⟨_, hcandidate hk⟩, fun s hs => ?_⟩
    have hmem : s.category ∈
        (((x.calls polls).map x.row).map Row.category).take row.failure.ordinal := by
      rw [← hreports.categories, ← List.map_take]
      exact List.mem_map_of_mem hs
    rw [← List.map_take] at hmem
    obtain ⟨r', hr', hsame⟩ := List.mem_map.mp hmem
    exact hsame.symm.trans (hbefore r' hr')
  case evidence => exact haccounts.evidence.1 ▸ haccounts.evidence.2
  case ids =>
    rw [show (x.output polls).states = _ from hcovers.rows]
    refine List.ext_getElem? fun k => ?_
    rcases lt_or_ge k names.length with hlt | hge
    · simp [hlt]
    · simp [hge]
  case values =>
    have hcanonical : ∀ key ∈ names, ∃ v : Json, key = v.render ∧ v.Lexical := by
      intro key hkey
      obtain ⟨w, hw, hmem⟩ := (hcovers.keys key).mp hkey
      obtain ⟨a, -, hleaves⟩ := List.mem_flatMap.mp hw
      obtain ⟨state, hstate⟩ := leaves_canonical hleaves hmem
      obtain ⟨qs, hqs, rfl⟩ := canonicalState_ok hstate
      exact ⟨_, rfl, fields_lexical hqs _⟩
    choose! value hvalue using hcanonical
    have hstates : (x.output polls).states.map StateRow.canonical = names := by
      rw [show (x.output polls).states = _ from hcovers.rows]
      refine List.ext_getElem? fun k => ?_
      simp [Function.comp_def]
    have hrender : (names.map value).map Json.render = names := by
      rw [List.map_map]
      exact (List.map_congr_left fun key hkey => ((hvalue key hkey).1).symm).trans (List.map_id _)
    refine ⟨names.map value, by rw [hstates, hrender], List.Nodup.of_map Json.render ?_, ?_⟩
    · rw [hrender]
      exact hcovers.distinct
    · exact List.forall_mem_map.mpr fun key hkey => (hvalue key hkey).2
  case ends =>
    intro p hp
    have hstates : (x.output polls).states.length = names.length := by
      rw [show (x.output polls).states = _ from hcovers.rows, List.length_mapIdx]
    rw [hstates]
    exact hcovers.ends _ _ p.2 ((Assoc.get?_eq_some hcovers.edges).mpr hp)

theorem output_complete (h : (x.output polls).complete = true) :
    (x.enumeration polls).exhausted = true ∧
      (x.output polls).attemptedRuns = (x.candidates polls).length ∧
      (x.output polls).completedRuns = (x.candidates polls).length ∧
      (x.explore (x.candidates polls) (.new (x.enumeration polls).reason)).halt = false := by
  have hlength := FiniteSpace.length_candidates x.space (x.enumeration polls).shapes
  simp only [output, Campaign.output, Bool.and_eq_true, beq_iff_eq, Bool.not_eq_true'] at h
  obtain ⟨⟨⟨hexhausted, hattempted⟩, hcompleted⟩, hhalt⟩ := h
  exact ⟨hexhausted, hattempted.trans hlength.symm, hcompleted.trans hlength.symm, hhalt⟩

/-! ### Acquisition -/

/-- The calls of the runner determine a campaign. -/
theorem explore_calls {other : ExplorationRunner} {candidates : List (ℕ × Schedule)}
    {c : Campaign}
    (h : ∀ a ∈ x.attempts candidates c, other a.before.attempted a.candidate.2 = x.result a) :
    { x with runner := other }.explore candidates c = x.explore candidates c := by
  induction candidates generalizing c with
  | nil => rfl
  | cons p candidates ih =>
    rw [attempts] at h
    rw [explore, explore]
    cases hgate : c.gate x.limits (x.looks c.attempted) with
    | some reason => rfl
    | none =>
      simp only [hgate, List.forall_mem_cons] at h
      obtain ⟨hcall, hrest⟩ := h
      have hattempt : { x with runner := other }.attempt c p.1 p.2 = x.attempt c p.1 p.2 := by
        rw [attempt, attempt, show x.runner c.attempted p.2 = other c.attempted p.2 from hcall.symm]
        rfl
      simp only [hattempt]
      by_cases hhalt : (x.attempt c p.1 p.2).halt = true
      · rw [if_pos hhalt, if_pos hhalt]
      · rw [if_neg hhalt] at hrest
        rw [if_neg hhalt, if_neg hhalt]
        exact ih hrest

/-- Neither the flag, the clock nor the number of runs stands against run `k`. -/
structure Opens (x : Explorer) (k : ℕ) : Prop where
  cancelled : (x.looks k).cancelled = false
  expired : (x.looks k).expired = false
  runs : k < x.limits.maxRuns

theorem gate_eq_none {c : Campaign} :
    c.gate x.limits (x.looks c.attempted) = none ↔ x.Opens c.attempted := by
  unfold Campaign.gate
  constructor
  · intro h
    split_ifs at h with hstop
    simp only [Bool.or_eq_true, decide_eq_true_eq, not_or, Bool.not_eq_true, not_le] at hstop
    exact ⟨hstop.1.1, hstop.1.2, hstop.2⟩
  · intro h
    have hruns := h.runs
    simp [h.cancelled, h.expired, hruns]

/-- When an exploration calls its runner, and what that comes to. -/
structure Acquires (x : Explorer) (polls : ℕ → Poll) (out : Exploration) : Prop where
  attempted : out.attemptedRuns = (x.calls polls).length
  order : ∀ (k : ℕ) (a : Attempt), (x.calls polls)[k]? = some a →
    a.before.attempted = k ∧ (x.candidates polls)[k]? = some a.candidate
  calls : ∀ other : ExplorationRunner,
    (∀ a ∈ x.calls polls, other a.before.attempted a.candidate.2 = x.result a) →
      { x with runner := other }.run polls = .ok out
  opens : ∀ (k : ℕ) (a : Attempt), (x.calls polls)[k]? = some a → x.Opens k
  settled : ∀ (k : ℕ) (a b : Attempt), (x.calls polls)[k]? = some a →
    (x.calls polls)[k + 1]? = some b → x.Settled ((x.calls polls).take k) a
  unsettled : ∀ (k : ℕ) (a : Attempt), (x.calls polls)[k]? = some a →
    ¬ x.Settled ((x.calls polls).take k) a →
      (x.calls polls).length = k + 1 ∧ out.complete = false
  closed : ∀ k < (x.candidates polls).length, ¬ x.Opens k →
    (x.calls polls).length ≤ k ∧ out.complete = false

/-- Only after a settled attempt is another run started, and the campaign is not complete after an
attempt of another kind. -/
theorem campaign_acquires (hdeclares : x.Declares) :
    ∃ out, x.run polls = .ok out ∧ x.Acquires polls out := by
  refine ⟨_, hdeclares.run, ?_⟩
  have hclosing := x.closing polls
  have haccounts := hclosing.accounts
  have hattempted : (x.output polls).attemptedRuns = (x.calls polls).length := haccounts.attempted
  have hopens : ∀ (k : ℕ) (a : Attempt), (x.calls polls)[k]? = some a → x.Opens k := by
    intro k a ha
    obtain ⟨hk, hgate⟩ := haccounts.ordinals k a ha
    rw [← hk] at hgate ⊢
    exact gate_eq_none.mp hgate
  constructor
  case attempted => exact hattempted
  case order => exact fun k a ha => ⟨(haccounts.ordinals k a ha).1, hclosing.candidate ha⟩
  case calls =>
    intro other hother
    have hcheck : { x with runner := other }.Declares := hdeclares
    rw [hcheck.run]
    refine congrArg Except.ok ?_
    have hexplore := explore_calls (x := x) hother
    rw [output, output]
    exact congrArg (Campaign.output · _ _) hexplore
  case opens => exact hopens
  case settled => exact hclosing.acquired
  case unsettled =>
    intro k a ha hnot
    have hlt := (List.getElem?_eq_some_iff.mp ha).1
    constructor
    · by_contra hlength
      have hnext : k + 1 < (x.calls polls).length := by omega
      exact hnot (hclosing.acquired k a _ ha (List.getElem?_eq_getElem hnext))
    · by_contra hcomplete
      obtain ⟨-, -, -, hhalt⟩ := output_complete (by simpa using hcomplete)
      exact hnot (hclosing.settled hhalt k a ha)
  case closed =>
    intro k hk hnot
    have hle : (x.calls polls).length ≤ k := by
      by_contra hlt
      exact hnot (hopens k _ (List.getElem?_eq_getElem (not_le.mp hlt)))
    refine ⟨hle, ?_⟩
    by_contra hcomplete
    obtain ⟨-, hall, -, -⟩ := output_complete (by simpa using hcomplete)
    omega

end Explorer

/-! ### Complete verdicts -/

def Row.executionId (row : Row) : Option String :=
  row.sample.bind fun sample => (sample.execution.index "executionId").asStr

/-- A passed run of a schedule, with the evidence that it shows. -/
structure Row.Proven (serde : Serde) (space : FiniteSpace) (candidate : Schedule) (row : Row) :
    Prop where
  category : row.category = .passed
  schedule : row.schedule = candidate.toJson serde
  evidence : ∃ sample id, row.sample = some sample ∧
    Receipt serde space.table candidate sample.execution id ∧
    cleanupConfirmed sample.execution = true ∧
    validateSuccess sample.execution candidate = .ok () ∧
    (space.requireModelComparison = true → sample.comparison ≠ none) ∧
    ∀ c ∈ sample.comparison, Matched serde sample.execution c

theorem Explorer.Accepted.proven {x : Explorer} {a : Attempt} {sample : ExplorationSample}
    {id : String} (h : x.Accepted a.candidate.2 sample id) (hresult : x.result a = .ok sample)
    (hpassed : (x.row a).category = .passed) (htable : x.declarations = x.space.table) :
    (x.row a).Proven x.serde x.space a.candidate.2 := by
  obtain ⟨hcleanup, -, hmatched⟩ := category_passed h.category
  refine ⟨hpassed, rfl, sample, id, ?_, htable ▸ h.receipt, hcleanup, h.success, h.comparison, hmatched⟩
  rw [Explorer.row, hresult]
  rfl

/-- The attempts of a complete exploration. -/
structure Explorer.Completes (x : Explorer) (polls : ℕ → Poll) : Prop where
  runs : (x.output polls).runs = ((x.calls polls).map x.row).map .retained
  all : (x.calls polls).map Attempt.candidate = x.candidates polls
  exhausted : (x.enumeration polls).exhausted = true
  passed : ∀ a ∈ x.calls polls, (x.row a).category = .passed
  proven : ∀ a ∈ x.calls polls, (x.row a).Proven x.serde x.space a.candidate.2
  fresh : ∀ (j k : ℕ) (a b : Attempt), j < k → (x.calls polls)[j]? = some a →
    (x.calls polls)[k]? = some b → x.executionId a ≠ x.executionId b

theorem Explorer.completes {x : Explorer} {polls : ℕ → Poll} (hdeclares : x.Declares)
    (h : (x.output polls).complete = true) : x.Completes polls := by
  obtain ⟨hexhausted, hattempted, hcompleted, hhalt⟩ := output_complete h
  have hclosing := x.closing polls
  have haccounts := hclosing.accounts
  have hall := hclosing.exhausted hhalt
  have hpassed : ∀ a ∈ x.calls polls, (x.row a).category = .passed := by
    have hcount : ((x.calls polls).map x.row).countP (·.category = .passed) =
        ((x.calls polls).map x.row).length := by
      rw [← haccounts.completed, List.length_map, ← List.length_map (f := Attempt.candidate), hall]
      exact hcompleted
    simpa using List.countP_eq_length.mp hcount
  have htable : x.declarations = x.space.table := (FiniteSpace.check_ok hdeclares).2
  refine ⟨haccounts.retained hhalt, hall, hexhausted, hpassed, fun a ha => ?_,
    fun j k a b hlt ha hb => ?_⟩
  · have hevaluates := x.evaluates { a.before with attempted := a.before.attempted + 1 }
      a.candidate.2 (x.result a)
    obtain ⟨sample, id, hresult, haccepted⟩ := hevaluates.accepted (hpassed a ha)
    exact haccepted.proven hresult (hpassed a ha) htable
  · obtain ⟨sample, id, hresult, hreceipt, -, hfresh⟩ := (hclosing.settled hhalt k b hb).receipt
    have hid : x.executionId b = some id := by
      rw [executionId, hresult]
      simp [CallResult.toOption, hreceipt.executionId, Json.asStr]
    rw [hid]
    exact hfresh a (List.mem_take_iff_getElem.mpr
      ⟨j, by have := (List.getElem?_eq_some_iff.mp ha).1; omega,
        (List.getElem?_eq_some_iff.mp ha).2⟩)

section Complete
variable {serde : Serde} {polls : ℕ → Poll}
  {looks : ℕ → Looks} {space : FiniteSpace} {runner : ExplorationRunner}
  {limits : ExplorationLimits} {out : Exploration}

/-- The pair of a merge within the bound and an input is among the candidates of an exhausted
search. -/
theorem FiniteSpace.Declared.candidate (h : space.Declared serde)
    (hexhausted : (space.enumeration limits polls).exhausted = true) {w : List Step}
    (hw : IsMerge space.actors w) (hbound : Step.preemptions w ≤ space.maxPreemptions) {i : ℕ}
    {input : Json} (hinput : space.inputs[i]? = some input) :
    (i, .new space.identity input w) ∈
      space.candidates (space.enumeration limits polls).shapes := by
  have hmem := ((listing_boundedMerges h.names space.maxPreemptions).mem_iff w).mpr ⟨hw, hbound⟩
  refine List.mem_flatMap.mpr ⟨w, ?_, List.mem_map.mpr ⟨(input, i), ?_, rfl⟩⟩
  · rwa [h.exhausted hexhausted]
  · exact List.mem_zipIdx_iff_getElem?.mpr hinput

theorem FiniteSpace.Declared.distinct_candidates (h : space.Declared serde)
    (hexhausted : (space.enumeration limits polls).exhausted = true) :
    ((space.candidates (space.enumeration limits polls).shapes).map Prod.snd).Nodup := by
  have : Std.Irrefl WordLt := ⟨fun w => lt_irrefl (w.map Step.actor)⟩
  refine nodup_candidates ?_ (h.distinct.of_map _)
  rw [h.exhausted hexhausted]
  exact (listing_boundedMerges h.names space.maxPreemptions).nodup

theorem Schedule.index_tree_inputs (s : Schedule) : s.tree.index "inputs" = s.inputs := by
  simp [tree, serialize, Assoc.get?]

theorem Schedule.index_tree_steps (s : Schedule) :
    s.tree.index "steps" = .array (s.steps.map (Step.serialize Json.obj)) := by
  simp [tree, serialize, Assoc.get?]

/-- What `to_value` leaves of a schedule: its steps, and its inputs with their numbers rewritten. -/
theorem Schedule.toJson_inj {s t : Schedule} (h : s.toJson serde = t.toJson serde) :
    s.steps = t.steps ∧ s.inputs.toValue serde = t.inputs.toValue serde := by
  have hstep : (Step.serialize Json.obj).Injective := by
    rintro ⟨a, p⟩ ⟨b, q⟩ hst
    have hactor := congrArg (Json.index · "actor") hst
    have hcheckpoint := congrArg (Json.index · "checkpoint") hst
    simpa [Step.serialize, Assoc.get?] using And.intro hactor hcheckpoint
  have hsteps := congrArg (Json.index · "steps") h
  have hinputs := congrArg (Json.index · "inputs") h
  simp only [toJson, index_tree_steps, Json.array.injEq] at hsteps
  exact ⟨hstep.list_map hsteps, by simpa only [toJson, index_tree_inputs] using hinputs⟩

theorem Explorer.Completes.run_row {x : Explorer} (h : x.Completes polls) {k : ℕ} {a : Attempt}
    (ha : (x.calls polls)[k]? = some a) :
    (x.output polls).runs[k]? = some (.retained (x.row a)) := by
  rw [h.runs, List.getElem?_map, List.getElem?_map, ha]
  rfl

theorem Explorer.Completes.retained {x : Explorer} (h : x.Completes polls) {j : ℕ} {r : RunRow}
    (hr : (x.output polls).runs[j]? = some r) :
    ∃ b, (x.calls polls)[j]? = some b ∧ r = .retained (x.row b) := by
  rw [h.runs, List.getElem?_map, List.getElem?_map] at hr
  obtain ⟨row, hrow, rfl⟩ := Option.map_eq_some_iff.mp hr
  obtain ⟨b, hb, rfl⟩ := Option.map_eq_some_iff.mp hrow
  exact ⟨b, hb, rfl⟩

/-- A run is determined by the position of its input and the steps of its schedule. -/
theorem Explorer.Completes.same_run {x : Explorer} (h : x.Completes polls)
    (hdeclared : x.space.Declared x.serde) {j k : ℕ} {a b : Attempt}
    (hb : (x.calls polls)[j]? = some b) (ha : (x.calls polls)[k]? = some a)
    (hindex : b.candidate.1 = a.candidate.1)
    (hsteps : b.candidate.2.steps = a.candidate.2.steps) : j = k := by
  have hlisted : ∀ {c : Attempt} {i : ℕ}, (x.calls polls)[i]? = some c →
      c.candidate ∈ x.candidates polls := fun hc =>
    h.all ▸ List.mem_map_of_mem (List.mem_of_getElem? hc)
  obtain ⟨v, -, input, hinput, hv⟩ := FiniteSpace.mem_candidates (hlisted hb)
  obtain ⟨w, -, input', hinput', hw⟩ := FiniteSpace.mem_candidates (hlisted ha)
  rw [hv, hw] at hsteps
  rw [hindex, hinput', Option.some.injEq] at hinput
  have hschedule : b.candidate.2 = a.candidate.2 := by
    rw [hv, hw, ← hinput, show v = w from hsteps]
  have hnodup : ((x.calls polls).map fun a => a.candidate.2).Nodup := by
    have hcandidates : ((x.candidates polls).map Prod.snd).Nodup :=
      hdeclared.distinct_candidates h.exhausted
    rwa [← h.all, List.map_map] at hcandidates
  have hlt : j < ((x.calls polls).map fun a => a.candidate.2).length := by
    simpa using (List.getElem?_eq_some_iff.mp hb).1
  refine (List.getElem?_inj hlt hnodup).mp ?_
  rw [List.getElem?_map, List.getElem?_map, hb, ha, Option.map_some, Option.map_some, hschedule]

/-- A complete exploration has for every merge of the declared chains within the preemption bound
and every declared input exactly one row of that schedule and of the index of that input, and that
row is proven. Another row has the same schedule only when its input is written in the same way. -/
theorem complete_sound
    (h : exploreFinite serde polls looks space runner limits = .ok out)
    (hcomplete : out.complete = true) :
    out.firstFailure = none ∧
      ∀ w, IsMerge space.actors w → Step.preemptions w ≤ space.maxPreemptions →
        ∀ (i : ℕ) (input : Json), space.inputs[i]? = some input →
          ∃ (k : ℕ) (row : Row), out.runs[k]? = some (.retained row) ∧ row.inputIndex = i ∧
            row.Proven serde space (.new space.identity input w) ∧
            ∀ (j : ℕ) (r : RunRow), out.runs[j]? = some r → j ≠ k → ∃ other, r = .retained other ∧
              other.executionId ≠ row.executionId ∧
              (other.schedule = row.schedule → other.inputIndex ≠ i ∧
                ∃ input', space.inputs[other.inputIndex]? = some input' ∧
                  input'.toValue serde = input.toValue serde) := by
  cases hcheck : space.check serde limits with
  | error e =>
    rw [exploreFinite, hcheck] at h
    cases e with
    | error e =>
      cases h
      cases hcomplete
    | panic m => cases h
  | ok declarations =>
    obtain ⟨hdeclared, rfl⟩ := FiniteSpace.check_ok hcheck
    let x : Explorer := ⟨serde, space, limits, space.table, runner, looks⟩
    have hdeclares : x.Declares := hcheck
    obtain rfl : x.output polls = out := Except.ok.inj (hdeclares.run.symm.trans h)
    have hall := Explorer.completes hdeclares hcomplete
    have hexhausted : (space.enumeration limits polls).exhausted = true := hall.exhausted
    constructor
    · have hfailure : (x.output polls).firstFailure = _ := (x.closing polls).accounts.firstFailure
      rw [hfailure, Option.map_eq_none_iff, List.find?_eq_none]
      simpa using hall.passed
    · intro w hw hbound i input hinput
      have hmem : (i, Schedule.new space.identity input w) ∈
          (x.calls polls).map Attempt.candidate :=
        hall.all ▸ hdeclared.candidate hexhausted hw hbound hinput
      obtain ⟨a, ha, hcandidate⟩ := List.mem_map.mp hmem
      obtain ⟨k, hk⟩ := List.getElem?_of_mem ha
      have hproven := hall.proven a ha
      rw [hcandidate] at hproven
      refine ⟨k, x.row a, hall.run_row hk, congrArg Prod.fst hcandidate, hproven,
        fun j r hr hne => ?_⟩
      obtain ⟨b, hb, rfl⟩ := hall.retained hr
      refine ⟨x.row b, rfl, ?_, fun hsame => ?_⟩
      · rcases lt_or_gt_of_ne hne with hlt | hgt
        · exact hall.fresh j k b a hlt hb hk
        · exact (hall.fresh k j a b hgt hk hb).symm
      · have hlisted : b.candidate ∈ x.candidates polls :=
          hall.all ▸ List.mem_map_of_mem (List.mem_of_getElem? hb)
        obtain ⟨w', -, input', hinput', hb'⟩ := FiniteSpace.mem_candidates hlisted
        have hschedule : b.candidate.2.toJson serde = _ := hsame.trans hproven.schedule
        obtain ⟨hsteps, hinputs⟩ := Schedule.toJson_inj hschedule
        rw [hb'] at hinputs
        refine ⟨fun heq => hne (hall.same_run hdeclared hb hk ?_ ?_), input', hinput', hinputs⟩
        · exact heq.trans (congrArg Prod.fst hcandidate).symm
        · rw [hsteps, hcandidate]

end Complete

/-! ### Receipts of one actor -/

namespace Solo

def event (ordinal step : ℕ) (kind : String) (rest : List (String × Json)) : Json :=
  Json.obj ([("ordinal", .ofNat ordinal), ("step", .ofNat step), ("actor", .string "a"),
    ("kind", .string kind)] ++ rest)

def observation (i : ℕ) : Json :=
  Json.obj [("afterSteps", .ofNat i), ("state", Json.obj [("count", .number "0")])]

end Solo

/-! ### The campaign of two runs

The inputs of the runs are two lexemes of one number. -/

namespace Explorer
variable {x : Explorer} {c : Campaign} {p : ℕ × Schedule} {rest : List (ℕ × Schedule)}

/-- The campaign after a run whose row fits. -/
def retained (x : Explorer) (a : Attempt) : Campaign :=
  { (x.evaluated a).checkCoverage.tally (x.row a) with
    evidenceBytes := a.before.evidenceBytes + (x.row a).length
    runs := a.before.runs ++ [.retained (x.row a)] }

theorem retained_evidenceBytes (x : Explorer) (a : Attempt) :
    (x.retained a).evidenceBytes = a.before.evidenceBytes + (x.row a).length :=
  rfl

/-- A passed run whose row fits and that is not late is followed by the next one. -/
theorem after_passed (hopen : c.halt = false) (hpassed : (x.row ⟨c, p⟩).category = .passed)
    (hknown : (x.evaluated ⟨c, p⟩).cleanupKnown = true) (hfits : x.Fits ⟨c, p⟩)
    (hlate : (x.looks c.attempted).late = false) :
    x.after ⟨c, p⟩ = x.retained ⟨c, p⟩ ∧ (x.after ⟨c, p⟩).halt = false := by
  have hkept := (x.evaluates { c with attempted := c.attempted + 1 } p.2 (x.result ⟨c, p⟩)).kept
  obtain ⟨hruns, hbytes⟩ := Campaign.checkCoverage_evidence (x.evaluated ⟨c, p⟩)
  have hruns' : ((x.evaluated ⟨c, p⟩).checkCoverage.tally (x.row ⟨c, p⟩)).runs = c.runs :=
    hruns.trans hkept.runs
  have hbytes' : ((x.evaluated ⟨c, p⟩).checkCoverage.tally (x.row ⟨c, p⟩)).evidenceBytes =
      c.evidenceBytes := hbytes.trans hkept.evidenceBytes
  have htally : ((x.evaluated ⟨c, p⟩).checkCoverage.tally (x.row ⟨c, p⟩)).halt = false := by
    refine (Campaign.checkCoverage_halt _).mpr ⟨hkept.halt.trans hopen, fun herror => ?_⟩
    have hcategory : (x.evaluated ⟨c, p⟩).category = .passed := hpassed
    simp [Evaluated.category, herror] at hcategory
  have hroom : ¬ c.evidenceBytes + (x.row ⟨c, p⟩).length > x.limits.maxEvidenceBytes :=
    not_lt.mpr hfits
  rw [after_eq, Campaign.retain, hbytes', if_neg hroom, retained, hruns']
  simp only [htally, hknown, hlate, Bool.not_true, Bool.false_eq_true, if_false, and_self]

theorem explore_next (hopens : x.Opens c.attempted) (hopen : (x.after ⟨c, p⟩).halt = false) :
    x.explore (p :: rest) c = x.explore rest (x.after ⟨c, p⟩) := by
  have hattempt : (x.attempt c p.1 p.2).halt = false := hopen
  simp only [explore, gate_eq_none.mpr hopens, hattempt]
  rfl

/-- Two passed runs that fit complete a campaign that has two candidates. -/
theorem complete_of_two {q : ℕ × Schedule} {polls : ℕ → Poll}
    (hexhausted : (x.enumeration polls).exhausted = true)
    (hreason : (x.enumeration polls).reason = "") (hcandidates : x.candidates polls = [p, q])
    (hlooks : ∀ k, x.looks k = .quiet) (hruns : 1 < x.limits.maxRuns)
    (hfirst : (x.row ⟨.new "", p⟩).category = .passed)
    (hknown : (x.evaluated ⟨.new "", p⟩).cleanupKnown = true) (hfits : x.Fits ⟨.new "", p⟩)
    (hsecond : (x.row ⟨x.retained ⟨.new "", p⟩, q⟩).category = .passed)
    (hknown' : (x.evaluated ⟨x.retained ⟨.new "", p⟩, q⟩).cleanupKnown = true)
    (hfits' : x.Fits ⟨x.retained ⟨.new "", p⟩, q⟩) : (x.output polls).complete = true := by
  have hquiet : ∀ k, (x.looks k).late = false := fun k => by rw [hlooks]; rfl
  have hopens : ∀ k, k < 2 → x.Opens k := fun k hk =>
    ⟨by rw [hlooks]; rfl, by rw [hlooks]; rfl, by omega⟩
  obtain ⟨hafter, hopen⟩ := after_passed rfl hfirst hknown hfits (hquiet _)
  have hadvances := x.advances ⟨.new "", p⟩
  have hadvances' := x.advances ⟨x.retained ⟨.new "", p⟩, q⟩
  rw [hafter] at hopen
  obtain ⟨-, hopen'⟩ := after_passed hopen hsecond hknown' hfits' (hquiet _)
  have hattempted : (x.retained ⟨.new "", p⟩).attempted = 1 := hafter ▸ hadvances.attempted
  have hcompleted : (x.retained ⟨.new "", p⟩).completed = 1 := by
    rw [← hafter, hadvances.completed, if_pos hfirst]
    rfl
  have hopens' : x.Opens (x.retained ⟨.new "", p⟩).attempted := by
    rw [hattempted]
    exact hopens 1 (by omega)
  have hexplore : x.explore [p, q] (.new "") = x.after ⟨x.retained ⟨.new "", p⟩, q⟩ := by
    have hnext : x.explore [q] (x.retained ⟨.new "", p⟩) = _ := explore_next hopens' hopen'
    rw [explore_next (hopens 0 (by omega)) (hafter ▸ hopen), hafter, hnext]
    rfl
  have hlength := FiniteSpace.length_candidates x.space (x.enumeration polls).shapes
  rw [show x.space.candidates _ = _ from hcandidates] at hlength
  simp only [output, Campaign.output, hcandidates, hreason, hexhausted, hexplore, hopen', ← hlength,
    hadvances'.attempted, hadvances'.completed, hattempted, hcompleted, if_pos hsecond]
  rfl

end Explorer

namespace Twin

def space : FiniteSpace :=
  { Duo.space with actors := [⟨⟨"a", "op"⟩, [COMPLETION]⟩], maxPreemptions := 0 }

def steps : List Step := [⟨"a", COMPLETION⟩]

def candidate (input : Json) : Schedule := .new Solo.identity input steps

/-- The receipt of a run. -/
def execution (k : ℕ) (candidate : Schedule) : Json :=
  Json.obj [("schema", .string "mirrors.checkpoint-execution/v1"),
    ("schedule", candidate.toJson Exponent.signing),
    ("actors", .array [Json.obj [("actor", .string "a"), ("operation", .string "op")]]),
    ("executionId", .string (String.ofList (List.replicate 31 '0' ++ [Nat.digitChar k]))),
    ("cleanup", .string "confirmed"), ("remainingActors", .array []), ("passed", .bool true),
    ("scheduleCompleted", .bool true), ("outcome", .string "completed"),
    ("events", .array [Solo.event 0 0 "permit" [],
      Solo.event 1 0 "arrival" [("checkpoint", .string COMPLETION)]]),
    ("observations", .array [Solo.observation 0, Solo.observation 1])]

def explorer : Explorer :=
  { serde := Exponent.signing, space := space, limits := .default
    declarations := [("a", "op")], looks := fun _ => .quiet
    runner := fun k candidate => .ok ⟨execution k candidate, none⟩ }

def first : Attempt := ⟨.new "", (0, candidate (.number "1e5"))⟩

def second : Attempt := ⟨explorer.retained first, (1, candidate (.number "1e+5"))⟩

theorem space_steps : space.steps = steps := rfl

theorem probe_encodes : ∀ input ∈ space.inputs,
    encodeSchedule Exponent.signing (space.probe input) = .ok (space.probe input).text := by
  simp only [FiniteSpace.probe, space_steps]
  exact Exponent.new_encodes (fun _ => ⟨Nat.le_of_ble_eq_true rfl, Nat.le_of_ble_eq_true rfl,
    fun _ => distinct_schedule trivial⟩) (by decide +kernel)

theorem explorer_declares : explorer.Declares := by
  obtain ⟨hbounds, hactors, hvariables, hdistinct⟩ : space.checkBounds .default = .ok () ∧
      checkActors (sortActors space.actors) [] [] = .ok [("a", "op")] ∧
      space.checkVariables = .ok () ∧ (space.inputs.map Json.render).Nodup := by decide +kernel
  have hinputs : space.checkInputs Exponent.signing space.inputs [] = .ok () :=
    FiniteSpace.checkInputs_intro probe_encodes hdistinct (by simp)
  show space.check Exponent.signing .default = _
  rw [FiniteSpace.check, hbounds, hactors, hinputs, hvariables]
  simp only [require, space_steps]
  rfl

theorem enumeration_quiet :
    space.enumeration .default (fun _ => .quiet) = ⟨[steps], true, ""⟩ := by
  decide +kernel

theorem merges : IsMerge space.actors steps ∧ Step.preemptions steps ≤ space.maxPreemptions := by
  have hdeclared : space.Declared Exponent.signing := (FiniteSpace.check_ok explorer_declares).1
  refine ((listing_boundedMerges hdeclared.names _).mem_iff _).mp ?_
  rw [← hdeclared.exhausted (congrArg Enumeration.exhausted enumeration_quiet), enumeration_quiet]
  exact List.mem_singleton.mpr rfl

theorem candidates_quiet : explorer.candidates (fun _ => .quiet) =
    [(0, candidate (.number "1e5")), (1, candidate (.number "1e+5"))] := by
  show space.candidates (space.enumeration .default fun _ => .quiet).shapes = _
  rw [enumeration_quiet]
  rfl

theorem first_passes : (explorer.row first).category = .passed ∧
    (explorer.evaluated first).cleanupKnown = true ∧
    (explorer.row first).toJson.chars.length ≤ 10_000 := by
  decide +kernel

theorem second_passes : (explorer.row second).category = .passed ∧
    (explorer.evaluated second).cleanupKnown = true ∧
    (explorer.row second).toJson.chars.length ≤ 10_000 := by
  decide +kernel

/-- The rows are short. -/
theorem row_length {a : Attempt} (h : (explorer.row a).toJson.chars.length ≤ 10_000) :
    (explorer.row a).length ≤ 40_000 := by
  have hbytes : (explorer.row a).length ≤ 4 * (explorer.row a).toJson.chars.length :=
    utf8ByteSize_le _
  omega

theorem complete : (explorer.output fun _ => .quiet).complete = true := by
  have hlimit : explorer.limits.maxEvidenceBytes = 16_777_216 := rfl
  have hempty : first.before.evidenceBytes = 0 := rfl
  have hlength := row_length first_passes.2.2
  have hlength' := row_length second_passes.2.2
  have hbytes : second.before.evidenceBytes = _ := explorer.retained_evidenceBytes first
  have hfits : explorer.Fits first := by
    rw [Explorer.Fits, hlimit, hempty]
    omega
  have hfits' : explorer.Fits second := by
    rw [Explorer.Fits, hlimit, hbytes, hempty]
    omega
  have henumeration : explorer.enumeration (fun _ => .quiet) = ⟨[steps], true, ""⟩ :=
    enumeration_quiet
  exact Explorer.complete_of_two (congrArg Enumeration.exhausted henumeration)
    (congrArg Enumeration.reason henumeration) candidates_quiet (fun _ => rfl) (by decide)
    first_passes.1 first_passes.2.1 hfits second_passes.1 second_passes.2.1 hfits'

/-- Either input is `1e+5` in the schedule of its row. -/
theorem candidate_same : (candidate (.number "1e5")).toJson Exponent.signing =
    (candidate (.number "1e+5")).toJson Exponent.signing := by
  have hinputs : (Json.number "1e5").toValue Exponent.signing =
      (Json.number "1e+5").toValue Exponent.signing := by decide +kernel
  rw [Schedule.toJson, Schedule.toJson]
  exact congrArg (fun inputs => (Schedule.new Solo.identity inputs steps).tree) hinputs

end Twin

theorem campaign_accounted_twin :
    ∃ out, Twin.explorer.run (fun _ => .quiet) = .ok out ∧
      out.Accounted (Twin.explorer.pairs fun _ => .quiet) Twin.explorer.limits :=
  Explorer.campaign_accounted Twin.explorer_declares

theorem campaign_acquires_twin :
    ∃ out, Twin.explorer.run (fun _ => .quiet) = .ok out ∧
      Twin.explorer.Acquires (fun _ => .quiet) out :=
  Explorer.campaign_acquires Twin.explorer_declares

theorem complete_sound_twin :
    ∃ (k : ℕ) (row : Row),
      (Twin.explorer.output fun _ => .quiet).runs[k]? = some (.retained row) ∧
        row.inputIndex = 1 ∧
        row.Proven Exponent.signing Twin.space (Twin.candidate (.number "1e+5")) := by
  have hrun : Twin.explorer.run (fun _ => .quiet) = .ok _ := Twin.explorer_declares.run
  obtain ⟨k, row, hk, hindex, hproven, -⟩ := (complete_sound hrun Twin.complete).2
    Twin.steps Twin.merges.1 Twin.merges.2 1 (.number "1e+5") rfl
  exact ⟨k, row, hk, hindex, hproven⟩

/-- In a complete campaign two rows carry the schedule of either input. -/
theorem complete_not_one :
    ∃ out : Exploration, Twin.explorer.run (fun _ => .quiet) = .ok out ∧ out.complete = true ∧
      ¬ ∀ w, IsMerge Twin.space.actors w → Step.preemptions w ≤ Twin.space.maxPreemptions →
        ∀ input ∈ Twin.space.inputs, ∃! k : ℕ, ∃ row : Row, out.runs[k]? = some (.retained row) ∧
          row.schedule = (Schedule.new Twin.space.identity input w).toJson Exponent.signing := by
  have hall := Explorer.completes Twin.explorer_declares Twin.complete
  have hrow : ∀ (k : ℕ) (p : ℕ × Schedule),
      (Twin.explorer.candidates fun _ => .quiet)[k]? = some p →
      ∃ row : Row, (Twin.explorer.output fun _ => .quiet).runs[k]? = some (.retained row) ∧
        row.schedule = p.2.toJson Exponent.signing := by
    intro k p hk
    rw [← hall.all, List.getElem?_map] at hk
    obtain ⟨a, ha, rfl⟩ := Option.map_eq_some_iff.mp hk
    exact ⟨Twin.explorer.row a, hall.run_row ha, rfl⟩
  rw [Twin.candidates_quiet] at hrow
  have hzero := hrow 0 (0, Twin.candidate (.number "1e5")) rfl
  have hone := hrow 1 (1, Twin.candidate (.number "1e+5")) rfl
  rw [← Twin.candidate_same] at hone
  refine ⟨_, Twin.explorer_declares.run, Twin.complete, fun h => ?_⟩
  generalize Twin.explorer.output (fun _ => .quiet) = out at h hzero hone
  obtain ⟨k, -, hk⟩ := h Twin.steps Twin.merges.1 Twin.merges.2 _ List.mem_cons_self
  have hfirst : 0 = k := hk 0 hzero
  have hsecond : 1 = k := hk 1 hone
  omega

end MirrorRust
