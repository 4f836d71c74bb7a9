import MirrorRust.Coverage

/-! A campaign attempt by attempt: what one attempt changes, and what holds after any number of
them. -/
namespace MirrorRust

/-- A call of the runner: the campaign before it, the index of its input, and its schedule. -/
structure Attempt where
  before : Campaign
  candidate : ℕ × Schedule

namespace Category

theorem name_injective : name.Injective := by
  intro a b h
  cases a <;> cases b <;> first | rfl | exact absurd h (by decide)

end Category

namespace Row

def candidate (r : Row) : ℕ × Json := (r.inputIndex, r.schedule)

def failure (r : Row) : Failure := ⟨r.ordinal, r.category, r.schedule⟩

end Row

namespace Explorer
variable (x : Explorer)

/-- The calls of the runner in the loop. -/
def attempts : List (ℕ × Schedule) → Campaign → List Attempt
  | [], _ => []
  | p :: rest, c =>
    match c.gate x.limits (x.looks c.attempted) with
    | some _ => []
    | none =>
      let c' := x.attempt c p.1 p.2
      ⟨c, p⟩ :: if c'.halt then [] else attempts rest c'

/-- A candidate as its row has it. -/
def written (p : ℕ × Schedule) : ℕ × Json := (p.1, p.2.toJson x.serde)

variable (a : Attempt)

def result : CallResult ExplorationSample := x.runner a.before.attempted a.candidate.2

def evaluated : Evaluated :=
  x.evaluate { a.before with attempted := a.before.attempted + 1 } a.candidate.2 (x.result a)

def row : Row :=
  { ordinal := a.before.attempted, inputIndex := a.candidate.1
    schedule := a.candidate.2.toJson x.serde, sample := (x.result a).toOption
    error := (x.evaluated a).error, category := (x.evaluated a).category }

def after : Campaign := x.attempt a.before a.candidate.1 a.candidate.2

/-- The evidence budget still has room for the row. -/
def Fits : Prop := a.before.evidenceBytes + (x.row a).length ≤ x.limits.maxEvidenceBytes

theorem after_eq : x.after a = ((x.evaluated a).checkCoverage.tally (x.row a)).retain x.limits
    (x.row a) (x.evaluated a).cleanupKnown (x.looks a.before.attempted).late := rfl

end Explorer

/-! ### One attempt -/

namespace Campaign
variable (c : Campaign) (limits : ExplorationLimits) (row : Row) (known late : Bool)

/-- What is left of a campaign when only its output rows and its end have changed. -/
structure Same (c c' : Campaign) : Prop where
  attempted : c'.attempted = c.attempted
  completed : c'.completed = c.completed
  coverage : c'.coverage = c.coverage
  executionIds : c'.executionIds = c.executionIds
  categories : c'.categories = c.categories
  firstFailure : c'.firstFailure = c.firstFailure

theorem same_retain : Same c (c.retain limits row known late) := by
  simp only [retain]
  constructor <;> split_ifs <;> rfl

theorem retain_runs : (c.retain limits row known late).runs = c.runs ++
    [if c.evidenceBytes + row.length ≤ limits.maxEvidenceBytes then .retained row
      else .omitted row.ordinal row.category] := by
  simp only [retain]
  by_cases hfits : c.evidenceBytes + row.length ≤ limits.maxEvidenceBytes
  · rw [if_neg (not_lt.mpr hfits), if_pos hfits]
    split_ifs <;> rfl
  · rw [if_pos (not_le.mp hfits), if_neg hfits]
    rfl

theorem retain_evidenceBytes : (c.retain limits row known late).evidenceBytes = c.evidenceBytes +
    if c.evidenceBytes + row.length ≤ limits.maxEvidenceBytes then row.length else 0 := by
  simp only [retain]
  by_cases hfits : c.evidenceBytes + row.length ≤ limits.maxEvidenceBytes
  · rw [if_neg (not_lt.mpr hfits), if_pos hfits]
    split_ifs <;> rfl
  · rw [if_pos (not_le.mp hfits), if_neg hfits]
    rfl

theorem retain_halt : (c.retain limits row known late).halt = false ↔
    c.evidenceBytes + row.length ≤ limits.maxEvidenceBytes ∧ c.halt = false ∧ known = true ∧
      late = false := by
  simp only [retain]
  by_cases hfits : c.evidenceBytes + row.length ≤ limits.maxEvidenceBytes
  · rw [if_neg (not_lt.mpr hfits)]
    split_ifs with hhalt hknown hlate <;> simp_all [stop]
  · rw [if_pos (not_le.mp hfits)]
    simp [stop, hfits]

theorem same_checkCoverage (e : Evaluated) : Same e.campaign e.checkCoverage := by
  unfold Evaluated.checkCoverage
  constructor <;> split <;> try split_ifs
  all_goals rfl

theorem checkCoverage_halt (e : Evaluated) : e.checkCoverage.halt = false ↔
    e.campaign.halt = false ∧ e.result ≠ .error (.error Coverage.exceeded) := by
  unfold Evaluated.checkCoverage
  split
  · split_ifs with hfull <;> simp_all [stop]
  · simp_all

theorem checkCoverage_evidence (e : Evaluated) : e.checkCoverage.runs = e.campaign.runs ∧
    e.checkCoverage.evidenceBytes = e.campaign.evidenceBytes := by
  unfold Evaluated.checkCoverage
  split
  · split_ifs <;> exact ⟨rfl, rfl⟩
  · exact ⟨rfl, rfl⟩

end Campaign

namespace Explorer
variable {x : Explorer} {c : Campaign} {candidate : Schedule} {e : Evaluated}
  {result : CallResult ExplorationSample}

theorem Evaluates.kept (h : x.Evaluates c candidate result e) : c.Kept e.campaign := by
  have hnoted : ∀ sample id, c.Kept (x.noted c candidate sample id) := fun sample id =>
    x.kept_noted c candidate sample id
  cases h with
  | error | panic | unbound | unclassified => exact ⟨rfl, rfl, rfl, rfl, rfl, rfl, rfl⟩
  | unproven => exact hnoted _ _
  | unobserved | passed => exact { hnoted _ _ with }
  | classified _ _ _ hc =>
    rcases hc with rfl | rfl
    · exact hnoted _ _
    · exact { hnoted _ _ with }

theorem Evaluates.completed (h : x.Evaluates c candidate result e) :
    e.campaign.completed = c.completed + if e.category = .passed then 1 else 0 := by
  cases h with
  | error | panic | unbound | unclassified => rfl
  | unproven => simp [Evaluated.category]
  | unobserved => simp [Evaluated.category]
  | passed => rfl
  | classified _ _ hfailed hc =>
    rcases hc with rfl | rfl <;> simp [Evaluated.category, hfailed, Campaign.noteCounterexample]

/-- What an attempt does to the counters and the rows of its campaign. -/
structure Advances (x : Explorer) (a : Attempt) : Prop where
  attempted : (x.after a).attempted = a.before.attempted + 1
  completed : (x.after a).completed =
    a.before.completed + if (x.row a).category = .passed then 1 else 0
  categories : (x.after a).categories = Assoc.insert (x.row a).category.name
    (a.before.count (x.row a).category + 1) a.before.categories
  firstFailure : (x.after a).firstFailure = if (x.row a).category = .passed then
    a.before.firstFailure else a.before.firstFailure <|> some (x.row a).failure
  runs : (x.after a).runs = a.before.runs ++ [if a.before.evidenceBytes + (x.row a).length ≤
    x.limits.maxEvidenceBytes then .retained (x.row a)
      else .omitted (x.row a).ordinal (x.row a).category]
  evidenceBytes : (x.after a).evidenceBytes = a.before.evidenceBytes +
    if a.before.evidenceBytes + (x.row a).length ≤ x.limits.maxEvidenceBytes then (x.row a).length
      else 0
  coverage : (x.after a).coverage = (x.evaluated a).campaign.coverage
  executionIds : (x.after a).executionIds = (x.evaluated a).campaign.executionIds
  halt : (x.after a).halt = false ↔ x.Fits a ∧ a.before.halt = false ∧
    (x.evaluated a).result ≠ .error (.error Coverage.exceeded) ∧
      (x.evaluated a).cleanupKnown = true ∧ (x.looks a.before.attempted).late = false

theorem advances (x : Explorer) (a : Attempt) : x.Advances a := by
  have hevaluates := x.evaluates { a.before with attempted := a.before.attempted + 1 }
    a.candidate.2 (x.result a)
  have hkept : Campaign.Kept _ (x.evaluated a).campaign := hevaluates.kept
  have hcompleted := hevaluates.completed
  have hcheck := Campaign.same_checkCoverage (x.evaluated a)
  obtain ⟨hruns, hbytes⟩ := Campaign.checkCoverage_evidence (x.evaluated a)
  have hsame := Campaign.same_retain ((x.evaluated a).checkCoverage.tally (x.row a)) x.limits
    (x.row a) (x.evaluated a).cleanupKnown (x.looks a.before.attempted).late
  have hbefore : ((x.evaluated a).checkCoverage.tally (x.row a)).evidenceBytes =
      a.before.evidenceBytes := hbytes.trans hkept.evidenceBytes
  constructor
  · exact (hsame.attempted.trans hcheck.attempted).trans hkept.attempted
  · exact (hsame.completed.trans hcheck.completed).trans hcompleted
  · rw [after_eq, hsame.categories, Campaign.tally, Campaign.count, Campaign.count,
      hcheck.categories, hkept.categories]
  · rw [after_eq, hsame.firstFailure, Campaign.tally, hcheck.firstFailure, hkept.firstFailure]
    rfl
  · rw [after_eq, Campaign.retain_runs, hbefore]
    exact congrArg (· ++ _) (hruns.trans hkept.runs)
  · rw [after_eq, Campaign.retain_evidenceBytes, hbefore]
  · exact hsame.coverage.trans hcheck.coverage
  · exact hsame.executionIds.trans hcheck.executionIds
  · have hhalt : ((x.evaluated a).checkCoverage.tally (x.row a)).halt = false ↔
        (x.evaluated a).campaign.halt = false ∧ _ := Campaign.checkCoverage_halt (x.evaluated a)
    rw [after_eq, Campaign.retain_halt, hbefore, hhalt, hkept.halt]
    exact ⟨fun ⟨h1, ⟨h2, h3⟩, h4, h5⟩ => ⟨h1, h2, h3, h4, h5⟩,
      fun ⟨h1, h2, h3, h4, h5⟩ => ⟨h1, ⟨h2, h3⟩, h4, h5⟩⟩

/-! ### Receipts of settled attempts -/

/-- A run whose cleanup is known has shown a receipt of its own. -/
theorem Evaluates.confirmed (h : x.Evaluates c candidate result e)
    (hknown : e.cleanupKnown = true) :
    ∃ sample id, result = .ok sample ∧ Receipt x.serde x.declarations candidate sample.execution id ∧
      id ∉ c.executionIds ∧ cleanupConfirmed sample.execution = true ∧
      e.campaign.executionIds = id :: c.executionIds := by
  cases h with
  | error | panic | unbound => cases hknown
  | unclassified hreceipt hfresh => exact ⟨_, _, rfl, hreceipt, hfresh, hknown, rfl⟩
  | unproven hreceipt hfresh =>
    exact ⟨_, _, rfl, hreceipt, hfresh, hknown, x.noted_executionIds _ _ _ _⟩
  | unobserved haccepted hfresh | passed haccepted hfresh =>
    exact ⟨_, _, rfl, haccepted.receipt, hfresh, hknown, x.noted_executionIds _ _ _ _⟩
  | classified hreceipt hfresh _ hc =>
    refine ⟨_, _, rfl, hreceipt, hfresh, hknown, ?_⟩
    rcases hc with rfl | rfl <;> exact x.noted_executionIds _ _ _ _

theorem Evaluates.accepted (h : x.Evaluates c candidate result e) (hpassed : e.category = .passed) :
    ∃ sample id, result = .ok sample ∧ x.Accepted candidate sample id := by
  cases h with
  | error | panic | unbound | unclassified | unproven | unobserved => cases hpassed
  | passed haccepted => exact ⟨_, _, rfl, haccepted⟩
  | classified _ _ hfailed => exact absurd hpassed hfailed

/-- The id in the receipt of an attempt. -/
def executionId (x : Explorer) (a : Attempt) : Option String :=
  (x.result a).toOption.bind fun sample => (sample.execution.index "executionId").asStr

/-- An attempt after which another run may be acquired. -/
structure Settled (x : Explorer) (earlier : List Attempt) (a : Attempt) : Prop where
  receipt : ∃ sample id, x.result a = .ok sample ∧
    Receipt x.serde x.declarations a.candidate.2 sample.execution id ∧
    cleanupConfirmed sample.execution = true ∧ ∀ b ∈ earlier, x.executionId b ≠ some id
  fits : x.Fits a
  covered : (x.evaluated a).result ≠ .error (.error Coverage.exceeded)
  timely : (x.looks a.before.attempted).late = false

/-! ### Runs -/

variable (x)

/-- The campaigns that the loop goes through. -/
inductive Runs (reason : String) : List Attempt → Campaign → Prop
  | start : Runs reason [] (.new reason)
  | next {as c p} (runs : Runs reason as c) (halt : c.halt = false)
      (gate : c.gate x.limits (x.looks c.attempted) = none) :
      Runs reason (as ++ [⟨c, p⟩]) (x.after ⟨c, p⟩)

/-- How the loop over the candidates comes to its end. -/
inductive Ends (candidates : List (ℕ × Schedule)) (as : List Attempt) (c : Campaign) :
    Campaign → Prop
  | exhausted (all : as.map Attempt.candidate = candidates) (halt : c.halt = false) :
      Ends candidates as c c
  | halted (listed : as.map Attempt.candidate <+: candidates) (halt : c.halt = true) :
      Ends candidates as c c
  | gated {p reason} (listed : as.map Attempt.candidate ++ [p] <+: candidates)
      (halt : c.halt = false) (gate : c.gate x.limits (x.looks c.attempted) = some reason) :
      Ends candidates as c (c.stop reason)

variable {x}

theorem explore_ends {reason : String} {as : List Attempt} {c : Campaign}
    (h : x.Runs reason as c) (hopen : c.halt = false) (candidates : List (ℕ × Schedule)) :
    ∃ c', x.Runs reason (as ++ x.attempts candidates c) c' ∧
      x.Ends (as.map Attempt.candidate ++ candidates) (as ++ x.attempts candidates c) c'
        (x.explore candidates c) := by
  induction candidates generalizing as c with
  | nil => exact ⟨c, by simpa [attempts] using h, .exhausted (by simp [attempts]) hopen⟩
  | cons p candidates ih =>
    rw [attempts, explore]
    cases hgate : c.gate x.limits (x.looks c.attempted) with
    | some reason' =>
      refine ⟨c, by simpa using h, .gated (p := p) ?_ hopen hgate⟩
      exact ⟨candidates, by simp⟩
    | none =>
      have hnext : x.Runs reason (as ++ [⟨c, p⟩]) (x.after ⟨c, p⟩) := h.next hopen hgate
      cases hhalt : (x.attempt c p.1 p.2).halt with
      | true =>
        refine ⟨x.after ⟨c, p⟩, by simpa [hhalt] using hnext, ?_⟩
        simp only [hhalt, if_true]
        exact .halted ⟨candidates, by simp⟩ hhalt
      | false =>
        obtain ⟨c', hruns, hends⟩ := ih hnext hhalt
        refine ⟨c', by simpa [hhalt, after] using hruns, ?_⟩
        simpa [hhalt, after] using hends

variable {reason : String} {as : List Attempt}

/-- Another run is acquired only after settled attempts. -/
theorem Runs.settled (h : x.Runs reason as c) (hopen : c.halt = false) :
    (∀ (k : ℕ) (a : Attempt), as[k]? = some a → x.Settled (as.take k) a) ∧
      ∀ a ∈ as, ∃ id ∈ c.executionIds, x.executionId a = some id := by
  induction h with
  | start => simp
  | @next as c p hruns hhalt hgate ih =>
    obtain ⟨ih, hids⟩ := ih hhalt
    have hadvances := x.advances ⟨c, p⟩
    obtain ⟨hfits, -, hcovered, hknown, hlate⟩ := hadvances.halt.mp hopen
    obtain ⟨sample, id, hresult, hreceipt, hfresh, hconfirmed, hnew⟩ :=
      (x.evaluates _ _ _).confirmed hknown
    have hid : x.executionId ⟨c, p⟩ = some id := by
      have hsample : (x.result ⟨c, p⟩).toOption = some sample := by
        rw [show x.result ⟨c, p⟩ = .ok sample from hresult]
        rfl
      simp only [executionId, hsample, Option.bind_some, hreceipt.executionId, Json.asStr]
    have hafter : (x.after ⟨c, p⟩).executionIds = id :: c.executionIds :=
      hadvances.executionIds.trans hnew
    constructor
    · intro k a hk
      rcases lt_trichotomy k as.length with hlt | rfl | hgt
      · rw [List.take_append_of_le_length hlt.le]
        exact ih k a (by rwa [List.getElem?_append_left hlt] at hk)
      · obtain rfl : (⟨c, p⟩ : Attempt) = a := by simpa using hk
        rw [List.take_left']
        · refine ⟨⟨sample, id, hresult, hreceipt, hconfirmed, fun b hb hsame => ?_⟩, hfits,
            hcovered, hlate⟩
          obtain ⟨other, hother, hb⟩ := hids b hb
          exact hfresh (Option.some.inj (hb.symm.trans hsame) ▸ hother)
        · rfl
      · rw [List.getElem?_eq_none (by simpa using hgt)] at hk
        cases hk
    · intro a ha
      rw [hafter]
      rcases List.mem_append.mp ha with ha | ha
      · obtain ⟨other, hother, ha⟩ := hids a ha
        exact ⟨other, List.mem_cons_of_mem _ hother, ha⟩
      · exact ⟨id, List.mem_cons_self, List.mem_singleton.mp ha ▸ hid⟩

end Explorer

/-! ### The books -/

namespace RunRow

def ordinal : RunRow → ℕ
  | retained row => row.ordinal
  | omitted ordinal _ => ordinal

def category : RunRow → Category
  | retained row => row.category
  | omitted _ category => category

/-- The evidence that an output row holds. -/
def length : RunRow → ℕ
  | retained row => row.length
  | omitted _ _ => 0

end RunRow

/-- The output rows of the runs; the evidence of the last one may not have fitted. -/
inductive Reports : List Row → List RunRow → Prop
  | all (rows : List Row) : Reports rows (rows.map .retained)
  | cut (rows : List Row) (r : Row) :
      Reports (rows ++ [r]) (rows.map .retained ++ [.omitted r.ordinal r.category])

namespace Explorer
variable {x : Explorer} {c : Campaign} {reason : String} {as : List Attempt}

/-- The counters and tables of a campaign against the rows of its attempts. -/
structure Accounts (x : Explorer) (as : List Attempt) (c : Campaign) : Prop where
  attempted : c.attempted = as.length
  ordinals : ∀ (k : ℕ) (a : Attempt), as[k]? = some a → a.before.attempted = k ∧
    a.before.gate x.limits (x.looks k) = none
  reports : Reports (as.map x.row) c.runs
  retained : c.halt = false → c.runs = (as.map x.row).map .retained
  evidence : c.evidenceBytes = (c.runs.map RunRow.length).sum ∧
    c.evidenceBytes ≤ x.limits.maxEvidenceBytes
  sorted : Assoc.Sorted c.categories
  counts : ∀ kind, c.count kind = (as.map x.row).countP (·.category = kind)
  kinds : ∀ p ∈ c.categories, ∃ a ∈ as, p.1 = (x.row a).category.name
  total : (c.categories.map Prod.snd).sum = as.length
  completed : c.completed = (as.map x.row).countP (·.category = .passed)
  firstFailure : c.firstFailure =
    ((as.map x.row).find? (·.category ≠ .passed)).map Row.failure

theorem accounts_new (x : Explorer) (reason : String) : x.Accounts [] (.new reason) := by
  constructor
  case reports => exact .all []
  all_goals simp [Campaign.new, Campaign.count]

theorem Accounts.next (h : x.Accounts as c) (hhalt : c.halt = false) {p : ℕ × Schedule}
    (hgate : c.gate x.limits (x.looks c.attempted) = none) :
    x.Accounts (as ++ [⟨c, p⟩]) (x.after ⟨c, p⟩) := by
  have hadvances := x.advances ⟨c, p⟩
  have hrows : (as ++ [(⟨c, p⟩ : Attempt)]).map x.row = as.map x.row ++ [x.row ⟨c, p⟩] := by simp
  have hold := h.retained hhalt
  constructor
  case attempted => rw [hadvances.attempted, h.attempted, List.length_append]; rfl
  case ordinals =>
    intro k a hk
    rcases lt_trichotomy k as.length with hlt | rfl | hgt
    · exact h.ordinals k a (by rwa [List.getElem?_append_left hlt] at hk)
    · obtain rfl : (⟨c, p⟩ : Attempt) = a := by simpa using hk
      exact ⟨h.attempted, h.attempted ▸ hgate⟩
    · rw [List.getElem?_eq_none (by simpa using hgt)] at hk
      cases hk
  case reports =>
    rw [hadvances.runs, hrows, hold]
    split_ifs
    · simpa using Reports.all (as.map x.row ++ [x.row ⟨c, p⟩])
    · exact .cut _ _
  case retained =>
    intro hopen
    have hfits : c.evidenceBytes + (x.row ⟨c, p⟩).length ≤ x.limits.maxEvidenceBytes :=
      (hadvances.halt.mp hopen).1
    rw [hadvances.runs, if_pos hfits, hold, hrows, List.map_append]
    rfl
  case evidence =>
    obtain ⟨hsum, hle⟩ := h.evidence
    rw [hadvances.evidenceBytes, hadvances.runs, List.map_append, List.sum_append, ← hsum]
    split_ifs with hfits
    · exact ⟨rfl, hfits⟩
    · exact ⟨rfl, hle⟩
  case sorted =>
    rw [hadvances.categories]
    exact Assoc.insert_sorted h.sorted
  case counts =>
    intro kind
    rw [Campaign.count, hadvances.categories, Assoc.get?_insert, hrows, List.countP_append,
      ← h.counts, List.countP_singleton]
    by_cases hkind : (x.row ⟨c, p⟩).category = kind
    · subst hkind
      simp
    · have hname : kind.name ≠ (x.row ⟨c, p⟩).category.name := fun heq =>
        hkind (Category.name_injective heq).symm
      simp [hname, hkind, Campaign.count]
  case kinds =>
    intro q hq
    rw [hadvances.categories] at hq
    rcases (Assoc.mem_insert h.sorted q).mp hq with rfl | ⟨hq, -⟩
    · exact ⟨⟨c, p⟩, by simp, rfl⟩
    · obtain ⟨a, ha, heq⟩ := h.kinds q hq
      exact ⟨a, List.mem_append_left _ ha, heq⟩
  case total =>
    have hsum := Assoc.sum_insert (k := (x.row ⟨c, p⟩).category.name)
      (n := c.count (x.row ⟨c, p⟩).category + 1) h.sorted
    rw [hadvances.categories, List.length_append, List.length_singleton]
    have htotal := h.total
    simp only [Campaign.count] at hsum ⊢
    omega
  case completed =>
    rw [hadvances.completed, h.completed, hrows, List.countP_append, List.countP_singleton]
    simp
  case firstFailure =>
    rw [hadvances.firstFailure, hrows, List.find?_append, h.firstFailure]
    by_cases hpassed : (x.row ⟨c, p⟩).category = .passed
    · simp [hpassed]
    · cases (as.map x.row).find? (·.category ≠ .passed) <;> simp [hpassed]

theorem Runs.accounts (h : x.Runs reason as c) : x.Accounts as c := by
  induction h with
  | start => exact accounts_new x reason
  | next _ hhalt hgate ih => exact ih.next hhalt hgate

/-! ### What the runs leave in the tables -/

section Leaves
variable (x)

/-- The checks that a run passes before its observations are recorded. -/
def admits (c : Campaign) (candidate : Schedule) (sample : ExplorationSample) : Bool :=
  match bindExecution x.serde x.declarations candidate c.executionIds sample.execution,
    category x.serde sample.execution sample.comparison with
  | .ok _, .ok kind => x.requireComparison kind sample.comparison = .passed &&
      (validateSuccess sample.execution candidate).isOk
  | _, _ => false

def project (i : ℕ) (observation : Json) : Except (Fault String) String :=
  projectObservation x.serde x.space i observation

/-- The keys of the observations of a run, up to the first that has none. -/
def keys (a : Attempt) : List String :=
  match x.result a with
  | .ok sample => Coverage.keysFrom x.project 0
      ((sample.execution.index "observations").asArray.getD [])
  | _ => []

/-- The walks that an attempt leaves in the tables. -/
def leaves (a : Attempt) : List (List String) :=
  match x.result a with
  | .ok sample =>
    if x.admits a.before a.candidate.2 sample then
      let left := Coverage.stored x.project 0 none
        ((sample.execution.index "observations").asArray.getD []) a.before.coverage
      left.1 :: left.2
    else []
  | _ => []

variable {x} {candidate : Schedule} {sample : ExplorationSample}

theorem evaluate_admits (h : x.admits c candidate sample = true) :
    (x.evaluate c candidate (.ok sample)).campaign.coverage =
        (x.record c.coverage sample.execution).1 ∧
      ((x.evaluate c candidate (.ok sample)).category = .passed ↔
        (x.record c.coverage sample.execution).2 = .ok ()) := by
  rw [evaluate]
  rw [admits] at h
  cases hbind : bindExecution x.serde x.declarations candidate c.executionIds
      sample.execution with
  | error e => simp [hbind] at h
  | ok id =>
    cases hcategory : category x.serde sample.execution sample.comparison with
    | error e => simp [hbind, hcategory] at h
    | ok kind =>
      simp only [hbind, hcategory, Bool.and_eq_true, decide_eq_true_eq] at h
      cases hsuccess : validateSuccess sample.execution candidate with
      | error e => simp [hsuccess, Except.isOk, Except.toBool] at h
      | ok u =>
        have hnoted : (({ c with executionIds := id :: c.executionIds } : Campaign).noteComparison
            (candidate.toJson x.serde) sample.comparison).coverage = c.coverage := x.noted_coverage c candidate sample id
        simp only [assess, hcategory, h.1, if_true, accept, hsuccess, hnoted]
        rcases hr : x.record c.coverage sample.execution with ⟨coverage, e | u⟩
        all_goals
          rw [record] at hr
          rw [hr]
          simp [Evaluated.category]

theorem evaluate_refuses (h : x.admits c candidate sample = false) :
    (x.evaluate c candidate (.ok sample)).campaign.coverage = c.coverage ∧
      (x.evaluate c candidate (.ok sample)).category ≠ .passed := by
  rw [evaluate]
  rw [admits] at h
  cases hbind : bindExecution x.serde x.declarations candidate c.executionIds
      sample.execution with
  | error e => simp [Evaluated.category]
  | ok id =>
    cases hcategory : category x.serde sample.execution sample.comparison with
    | error e => simp [assess, hcategory, Evaluated.category]
    | ok kind =>
      have hnoted : (({ c with executionIds := id :: c.executionIds } : Campaign).noteComparison
          (candidate.toJson x.serde) sample.comparison).coverage = c.coverage := x.noted_coverage c candidate sample id
      simp only [hbind, hcategory] at h
      simp only [assess, hcategory]
      by_cases hpassed : x.requireComparison kind sample.comparison = .passed
      · cases hsuccess : validateSuccess sample.execution candidate with
        | error e => simp [accept, hpassed, hsuccess, hnoted, Evaluated.category]
        | ok u => simp [hpassed, hsuccess, Except.isOk, Except.toBool] at h
      · rw [if_neg hpassed]
        split_ifs <;> exact ⟨hnoted, hpassed⟩

theorem evaluated_admits {a : Attempt} (hresult : x.result a = .ok sample)
    (h : x.admits a.before a.candidate.2 sample = true) :
    (x.evaluated a).campaign.coverage = (x.record a.before.coverage sample.execution).1 ∧
      ((x.evaluated a).category = .passed ↔
        (x.record a.before.coverage sample.execution).2 = .ok ()) := by
  rw [evaluated, hresult]
  exact evaluate_admits (c := { a.before with attempted := a.before.attempted + 1 }) h

theorem evaluated_refuses {a : Attempt} (hresult : x.result a = .ok sample)
    (h : x.admits a.before a.candidate.2 sample = false) :
    (x.evaluated a).campaign.coverage = a.before.coverage ∧
      (x.evaluated a).category ≠ .passed := by
  rw [evaluated, hresult]
  exact evaluate_refuses (c := { a.before with attempted := a.before.attempted + 1 }) h

theorem covers_after {a : Attempt} {names : List String} {walks : List (List String)}
    (h : a.before.coverage.Covers names walks) :
    ∃ names', (x.after a).coverage.Covers names' (walks ++ x.leaves a) := by
  rw [(x.advances a).coverage, leaves]
  cases hresult : x.result a with
  | error e => exact ⟨names, by simpa [evaluated, hresult, evaluate] using h⟩
  | panic => exact ⟨names, by simpa [evaluated, hresult, evaluate] using h⟩
  | ok sample =>
    simp only
    split_ifs with hadmits
    · have hbegin : a.before.coverage.Covers names (walks ++ [[]]) :=
        h.congr (by simp) fun i j => by rw [transitions_concat, steps_nil, Nat.add_zero]
      have hobserve : ∃ names', (a.before.coverage.observe x.project 0 none
          ((sample.execution.index "observations").asArray.getD [])).1.Covers names' _ :=
        hbegin.observe (show Coverage.Stands names [] none from rfl)
      obtain ⟨names', hnames'⟩ := hobserve
      refine ⟨names', ?_⟩
      have hrecord : x.record a.before.coverage sample.execution =
          a.before.coverage.observe x.project 0 none
            ((sample.execution.index "observations").asArray.getD []) := rfl
      rw [(evaluated_admits hresult hadmits).1, hrecord]
      simpa using hnames'
    · have hadmits : x.admits a.before a.candidate.2 sample = false := by simpa using hadmits
      rw [(evaluated_refuses hresult hadmits).1]
      exact ⟨names, by simpa using h⟩

/-- The tables hold what the attempts have left in them. -/
theorem Runs.covers (h : x.Runs reason as c) :
    ∃ names, c.coverage.Covers names (as.flatMap x.leaves) := by
  induction h with
  | start => exact ⟨[], Coverage.covers_empty⟩
  | next _ _ _ ih =>
    obtain ⟨names, hnames⟩ := ih
    obtain ⟨names', hnames'⟩ := covers_after (x := x) (a := ⟨_, _⟩) hnames
    exact ⟨names', by simpa using hnames'⟩

/-- A passed run leaves the walk of its observations. -/
theorem leaves_passed {a : Attempt} (h : (x.row a).category = .passed) :
    x.leaves a = [x.keys a] := by
  rw [leaves, keys]
  rw [row] at h
  cases hresult : x.result a with
  | error e => simp [evaluated, hresult, evaluate, Evaluated.category] at h
  | panic => simp [evaluated, hresult, evaluate, Evaluated.category] at h
  | ok sample =>
    simp only
    split_ifs with hadmits
    · have hrecord := (evaluated_admits hresult hadmits).2.mp h
      have hstored := (Coverage.stored_ok (Prod.ext rfl hrecord)).1
      rw [show Coverage.stored x.project 0 none _ a.before.coverage = _ from hstored]
      rfl
    · have hadmits : x.admits a.before a.candidate.2 sample = false := by simpa using hadmits
      exact absurd h (evaluated_refuses hresult hadmits).2

theorem leaves_canonical {a : Attempt} {w : List String} (hw : w ∈ x.leaves a) {key : String}
    (hkey : key ∈ w) : ∃ state, canonicalState state = .ok key := by
  rw [leaves] at hw
  cases hresult : x.result a with
  | error e => simp [hresult] at hw
  | panic => simp [hresult] at hw
  | ok sample =>
    simp only [hresult] at hw
    split_ifs at hw
    · have hstored : key ∈ (Coverage.stored x.project 0 none
          ((sample.execution.index "observations").asArray.getD []) a.before.coverage).1 ∨
          ∃ w ∈ (Coverage.stored x.project 0 none
            ((sample.execution.index "observations").asArray.getD []) a.before.coverage).2,
            key ∈ w := by
        rcases List.mem_cons.mp hw with rfl | hw
        · exact Or.inl hkey
        · exact Or.inr ⟨w, hw, hkey⟩
      obtain ⟨j, observation, hproject⟩ := Coverage.stored_project hstored
      rw [project, projectObservation] at hproject
      obtain ⟨_, -, hproject⟩ := bind_ok_iff.mp hproject
      obtain ⟨state, -, hproject⟩ := bind_ok_iff.mp hproject
      obtain ⟨_, -, hproject⟩ := bind_ok_iff.mp hproject
      obtain ⟨_, -, hproject⟩ := bind_ok_iff.mp hproject
      obtain ⟨_, -, hproject⟩ := bind_ok_iff.mp hproject
      exact ⟨_, mapError_eq_ok.mp hproject⟩
    · simp at hw

end Leaves
end Explorer
end MirrorRust
