import MirrorRust.Execution.Ledger
import MirrorRust.Exploration

/-! The receipt of an execution, and what a passed one proves: the validator that reads the receipt
accepts it, every thread has been joined and the program has been taken apart. -/
namespace MirrorRust

/-! ### Receipts -/

/-- `to_value` of a report. -/
def Report.fields (serde : Serde) (r : Report) : List (String × Json) :=
  [("outcome", .string r.outcome.name), ("detail", .string r.detail),
    ("scheduleCompleted", .bool r.scheduleCompleted), ("cleanup", .string r.cleanup.name),
    ("remainingActors", .array (r.remainingActors.map .string)),
    ("generation", .ofNat r.generation), ("executionId", .string r.executionId),
    ("events", (Json.array r.events).toValue serde),
    ("observations", (Json.array r.observations).toValue serde),
    ("cleanupAttempts", (Json.array r.cleanupAttempts).toValue serde)]

def Policy.toJson (p : Policy) : Json :=
  Json.obj [("maxActors", .ofNat p.maxActors), ("maxSteps", .ofNat p.maxSteps),
    ("executionTimeoutMs", .ofNat p.executionTimeout.asMillis),
    ("cleanupTimeoutMs", .ofNat p.cleanupTimeout.asMillis)]

/-- The threads that the actors have registered, with the text `debug` of their identifiers. -/
def SharedState.actorThreads (debug : ThreadId → String) (s : SharedState) : Json :=
  Json.obj (s.actors.map fun a => (a.declaration.actor, a.thread.elim .null fun t => .string (debug t)))

def World.receipt (debug : ThreadId → String) (w : World) : Json :=
  Json.obj (w.report.fields w.setup.serde ++
    [("schema", .string "mirrors.checkpoint-execution/v1"),
      ("schedule", w.setup.schedule.toJson w.setup.serde),
      ("actors", .array (w.setup.adapter.actors.map ActorDeclaration.toJson)),
      ("checkpoints", .array ((Assoc.ofList (w.setup.adapter.checkpoints.map fun c => (c, ()))).map
        fun p => .string p.1)),
      ("policy", w.setup.policy.toJson),
      ("coverage", .string "recorded-schedule-only"),
      ("passed", .bool w.report.passed),
      ("actorThreads", w.shared.actorThreads debug)])

namespace World
variable (debug : ThreadId → String) (w : World)

@[simp] theorem receipt_scheduleCompleted :
    (w.receipt debug).index "scheduleCompleted" = .bool w.report.scheduleCompleted := by
  simp [receipt, Report.fields, Assoc.get?]

@[simp] theorem receipt_outcome :
    (w.receipt debug).index "outcome" = .string w.report.outcome.name := by
  simp [receipt, Report.fields, Assoc.get?]

@[simp] theorem receipt_events : (w.receipt debug).index "events" =
    .array (w.report.events.map (Json.toValue w.setup.serde)) := by
  simp [receipt, Report.fields, Assoc.get?]

@[simp] theorem receipt_observations : (w.receipt debug).index "observations" =
    .array (w.report.observations.map (Json.toValue w.setup.serde)) := by
  simp [receipt, Report.fields, Assoc.get?]

/-- A receipt is the same when it has been through `json!`. -/
theorem receipt_toValue : (w.receipt debug).toValue w.setup.serde = w.receipt debug := by
  have hthreads : (w.shared.actorThreads debug).toValue w.setup.serde =
      w.shared.actorThreads debug := by
    rw [SharedState.actorThreads, Json.toValue_obj, List.map_map]
    refine congrArg Json.obj (List.map_congr_left fun a _ => ?_)
    cases ha : a.thread <;> simp [ha]
  simp [receipt, Report.fields, hthreads, Schedule.toJson_toValue, Policy.toJson, Function.comp_def,
    ActorDeclaration.toJson, ActorDeclaration.serialize]
  rfl

end World

/-! ### What the validator accepts -/

theorem Json.asU64_ofNat {n : ℕ} (h : n < 2 ^ 64) : (Json.ofNat n).asU64 = some n := by
  have hdigits : ∀ c ∈ Nat.toDigits 10 n, c.isDigit = true := fun c hc =>
    Nat.isDigit_of_mem_toDigits (by decide) (by decide) hc
  have hplus : ∀ cs, Nat.toDigits 10 n ≠ '+' :: cs := fun cs hcs => by
    simpa using hdigits '+' (hcs ▸ List.mem_cons_self)
  simp only [Json.ofNat, asU64, parseUnsigned, Nat.toString_eq_ofList_toDigits,
    String.toList_ofList]
  rw [if_neg (by simp [List.all_eq_true.mpr hdigits, Nat.toDigits_ne_nil]),
    Nat.ofDigitChars_ten_toDigits, if_pos h]

/-- The validator reads a row of the ledger as the permit or the arrival of its interval. -/
theorem validateEvent_ok {events : List Json} {steps : List Step} {i offset : ℕ} {step : Step}
    (hsize : 2 * i + offset < 2 ^ 64) (hoffset : offset < 2)
    (hstep : steps[i]? = some step) (hlength : 2 * i + offset < events.length)
    (hrows : ∀ (j : ℕ) (row : Json), events[j]? = some row → IsEvent steps j row) :
    validateEvent events i step offset = .ok () := by
  have hrow := List.getElem?_eq_getElem hlength
  obtain ⟨r, hr, hordinal, hinterval, hactor, hkind, hcheckpoint⟩ := hrows _ _ hrow
  have hhalf : (2 * i + offset) / 2 = i := by omega
  have hparity : (2 * i + offset) % 2 = offset := by omega
  rw [hhalf, hstep] at hr
  cases hr
  have hget : events.getD (i * 2 + offset) .null = events[2 * i + offset] := by
    rw [List.getD_eq_getElem?_getD, Nat.mul_comm, hrow, Option.getD_some]
  rw [hhalf] at hinterval
  rw [hparity] at hkind hcheckpoint
  have hcount : (events[2 * i + offset].index "ordinal").asU64 = some (i * 2 + offset) := by
    rw [hordinal, Json.asU64_ofNat hsize, Nat.mul_comm]
  have hposition : (events[2 * i + offset].index "step").asU64 = some i := by
    rw [hinterval, Json.asU64_ofNat (by omega)]
  have hmost : offset = 0 ∨ offset = 1 := by omega
  simp only [validateEvent, hget, hcount, hposition, hactor, hkind]
  rcases hmost with rfl | rfl
  · simp [require]
  · simp only [require, hcheckpoint rfl, beq_self_eq_true, Bool.and_self, if_true]
    rfl

theorem validateEvents_ok {events : List Json} {steps : List Step}
    (hsize : steps.length ≤ 65_536) (hlength : events.length = 2 * steps.length)
    (hrows : ∀ (j : ℕ) (row : Json), events[j]? = some row → IsEvent steps j row)
    {i : ℕ} {rest : List Step} (hrest : steps.drop i = rest) :
    validateEvents events i rest = .ok () := by
  induction rest generalizing i with
  | nil => rfl
  | cons step rest ih =>
    have hstep : steps[i]? = some step := by
      rw [← List.head?_drop, hrest, List.head?_cons]
    have hlt := (List.getElem?_eq_some_iff.mp hstep).1
    have htail : steps.drop (i + 1) = rest := by
      rw [← List.tail_drop, hrest, List.tail_cons]
    rw [validateEvents, validateEvent_ok (by omega) (by decide) hstep (by omega) hrows,
      validateEvent_ok (by omega) (by decide) hstep (by omega) hrows]
    exact ih htail

/-! ### Passed executions -/

theorem IsEvent.toValue {steps : List Step} {i : ℕ} {row : Json} (h : IsEvent steps i row)
    (serde : Serde) : IsEvent steps i (row.toValue serde) := by
  obtain ⟨r, hr, hordinal, hstep, hactor, hkind, hcheckpoint⟩ := h
  refine ⟨r, hr, ?_, ?_, ?_, ?_, fun hi => ?_⟩
  · rw [Json.index_toValue, hordinal, Json.toValue_ofNat]
  · rw [Json.index_toValue, hstep, Json.toValue_ofNat]
  · rw [Json.index_toValue, hactor, Json.toValue_string]
  · rw [Json.index_toValue, hkind, Json.toValue_string]
  · rw [Json.index_toValue, hcheckpoint hi, Json.toValue_string]

/-- The ledger of a whole schedule. -/
structure FullRecord (w : World) : Prop where
  length : w.report.events.length = 2 * w.steps.length
  events : ∀ (j : ℕ) (row : Json), w.report.events[j]? = some row → IsEvent w.steps j row
  observed : w.report.observations.length = w.steps.length + 1
  observations : ∀ (j : ℕ) (row : Json), w.report.observations[j]? = some row →
    row.index "afterSteps" = .ofNat j

theorem Ctl.settled {c : Ctl} (h : c.wrapping = true ∨ c = .idle) :
    c.pending = 0 ∧ c.awaiting = 0 := by
  rcases h with h | rfl
  · cases c <;> simp_all [Ctl.wrapping, Ctl.pending, Ctl.awaiting]
  · exact ⟨rfl, rfl⟩

theorem FullRecord.validate {w : World} (h : FullRecord w) (hsize : w.steps.length ≤ 65_536)
    (houtcome : w.report.outcome = .completed) (hcompleted : w.report.scheduleCompleted = true)
    (debug : ThreadId → String) :
    validateSuccess (w.receipt debug) w.setup.schedule = .ok () := by
  have hlength : w.setup.schedule.steps.length * 2 = w.report.events.length := by
    rw [h.length, Nat.mul_comm]
    rfl
  have hobserved : w.report.observations.length = w.setup.schedule.steps.length + 1 := h.observed
  have hevents : validateEvents (w.report.events.map (Json.toValue w.setup.serde)) 0
      w.setup.schedule.steps = .ok () := by
    refine validateEvents_ok hsize ((List.length_map _).trans h.length) (fun j row hj => ?_)
      List.drop_zero
    rw [List.getElem?_map] at hj
    obtain ⟨row, hrow, rfl⟩ := Option.map_eq_some_iff.mp hj
    exact (h.events j row hrow).toValue _
  simp [validateSuccess, require, houtcome, hcompleted, Outcome.name, Json.asArray, hlength,
    hobserved, hevents]
  rfl

section Passed
variable {w : World}

theorem fullRecord (h : execution.Reachable w) (houtcome : w.report.outcome = .completed)
    (hcompleted : w.report.scheduleCompleted = true) :
    FullRecord w ∧ w.observed = some false := by
  obtain ⟨-, hnext, hctl⟩ := (completion h).completed hcompleted
  obtain ⟨hpending, hawaiting⟩ := Ctl.settled (hctl.imp_right And.left)
  have hr := ledger h houtcome
  refine ⟨⟨?_, hr.events, ?_, hr.observations⟩, hr.uncancelled hawaiting⟩
  · rw [hr.length, hpending, hnext, Nat.add_zero]
  · rw [← hnext, ← hr.observed, hawaiting, Nat.add_zero]

/-- A confirmed cleanup has joined every thread and torn the program down once. -/
theorem taken_apart (h : execution.Reachable w) (hcleanup : w.report.cleanup = .confirmed) :
    (∀ t ∈ w.threads, t.handle = false ∧ t.isFinished = true) ∧ w.teardowns = [.ok ()] := by
  have hc := custody h
  have hclosed : w.closed = true := by
    by_contra hopen
    rcases hc.unsettled (by simpa using hopen) with hw | hw <;> simp [hw] at hcleanup
  have hacquired : w.acquired = true := by
    by_contra hopen
    simp [hc.unacquired hclosed (by simpa using hopen)] at hcleanup
  refine ⟨fun t ht => ?_, ?_⟩
  · have hhandle := hc.joined (Or.inl hclosed) t ht
    exact ⟨hhandle, (coordinated h).ended_of_joined ht hhandle⟩
  · obtain ⟨result, hteardowns, hsettled⟩ := hc.settled hclosed hacquired
    rw [hcleanup] at hsettled
    cases result with
    | ok u => exact hteardowns
    | error e => cases hsettled
    | panic => cases hsettled

end Passed

/-- A passed execution has run the whole schedule: the validator accepts its receipt, whose events
are the permit and the arrival of every interval in order and whose observations are those before
the first interval and after each; every thread has been joined; the program has been taken apart
without an error; and the last observation was not cancelled. -/
theorem passed_sound {w : World} (h : execution.Reachable w) (hpassed : w.report.passed = true)
    (debug : ThreadId → String) :
    validateSuccess (w.receipt debug) w.setup.schedule = .ok () ∧ FullRecord w ∧
      (∀ t ∈ w.threads, t.handle = false ∧ t.isFinished = true) ∧ w.teardowns = [.ok ()] ∧
      w.observed = some false := by
  simp only [Report.passed, Bool.and_eq_true, decide_eq_true_eq] at hpassed
  obtain ⟨⟨houtcome, hcompleted⟩, hcleanup⟩ := hpassed
  obtain ⟨hfull, hobserved⟩ := fullRecord h houtcome hcompleted
  obtain ⟨hjoined, hteardowns⟩ := taken_apart h hcleanup
  have hentered : w.ctl ≠ .entering := fun hctl => by
    simpa [hctl, Ctl.wrapping] using ((completion h).completed hcompleted).2.2
  have hadmitted := admitted_of_working h hentered (Or.inl houtcome)
  exact ⟨hfull.validate hadmitted.steps houtcome hcompleted debug, hfull, hjoined, hteardowns,
    hobserved⟩

theorem passed_sound_solo : ∃ w, execution.Reachable w ∧
    validateSuccess (w.receipt fun _ => "ThreadId(7)") w.setup.schedule = .ok () ∧
      w.teardowns = [.ok ()] := by
  have hrun : ((execution.run (Solo.world.goto .creating) (Solo.started ++ Solo.finished)).map
      fun w => w.report.passed) = some true := by
    decide +kernel
  obtain ⟨w, hw, hpassed⟩ := Option.map_eq_some_iff.mp hrun
  have hr := Solo.reachable_creating.run hw
  obtain ⟨hvalid, -, -, hteardowns, -⟩ := passed_sound hr hpassed fun _ => "ThreadId(7)"
  exact ⟨w, hr, hvalid, hteardowns⟩

end MirrorRust
