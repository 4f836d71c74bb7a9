import MirrorRust.Execution.Custody

/-! The books of an execution: how often the teardown ran, and what each attempt to clean up
left in the report. -/
namespace MirrorRust

namespace Action

/-- The result of the teardown callback, when the action is its return. -/
def teardownResult? : Action → Option (CallResult Unit)
  | .teardown result => some result
  | _ => none

def acquires : Action → Bool
  | .create (.program _) => true
  | _ => false

end Action

structure Report.KeepsCleanup (r r' : Report) : Prop where
  cleanup : r'.cleanup = r.cleanup
  remainingActors : r'.remainingActors = r.remainingActors
  attempts : r'.cleanupAttempts = r.cleanupAttempts

/-- An attempt ends: the report says whether a thread was left, and which. -/
structure EndsAttempt (w w' : World) : Prop where
  opened : w.closed = false
  ctl : w'.ctl = .idle
  attempts : ∃ row, w'.report.cleanupAttempts = w.report.cleanupAttempts ++ [row]
  incomplete : w'.report.cleanup = .incomplete ↔ w'.remaining ≠ []
  remaining : w'.report.remainingActors = w'.remaining

structure Books (w w' : World) (action : Action) : Prop where
  teardowns : w'.teardowns = w.teardowns ++ action.teardownResult?.toList
  acquired : w'.acquired = (w.acquired || action.acquires)
  report : w.report.KeepsCleanup w'.report ∨ EndsAttempt w w'

theorem Report.Latches.keepsCleanup {r r' : Report} (h : r.Latches r') : r.KeepsCleanup r' :=
  ⟨h.cleanup, h.remainingActors, h.cleanupAttempts⟩

namespace Books
variable {w w' : World} {action : Action}

theorem quiet (hteardown : action.teardownResult? = none) (hacquires : action.acquires = false)
    (hteardowns : w'.teardowns = w.teardowns) (hacquired : w'.acquired = w.acquired)
    (hreport : w.report.KeepsCleanup w'.report) : Books w w' action := by
  refine ⟨?_, ?_, Or.inl hreport⟩
  · simp [hteardowns, hteardown]
  · simp [hacquired, hacquires]

theorem turn {s : SharedState} {c : Ctl} (hteardown : action.teardownResult? = none)
    (hacquires : action.acquires = false) (hs : s = w.shared ∨ w.shared.Fails s) :
    Books w ({ w with shared := s }.goto c) action := by
  refine quiet hteardown hacquires rfl rfl ?_
  rcases hs with rfl | hs
  · exact ⟨rfl, rfl, rfl⟩
  · exact hs.latches.keepsCleanup

theorem cleanup {s : SharedState} (hteardown : action.teardownResult? = none)
    (hacquires : action.acquires = false) (hs : s = w.shared ∨ w.shared.Fails s)
    (timeout : Duration) : Books w ({ w with shared := s }.callCleanup timeout) action := by
  rcases World.callCleanup_spec { w with shared := s } timeout with ⟨-, heq⟩ | ⟨-, heq⟩ <;>
    rw [heq] <;> exact turn hteardown hacquires hs

end Books

theorem ControlMove.books {w w' : World} {action : Action} (hr : execution.Reachable w)
    (hw : ControlMove w action w') : Books w w' action := by
  have hsame : ∀ {v : World} {a : Action}, a.teardownResult? = none → a.acquires = false →
      v.teardowns = w.teardowns → v.acquired = w.acquired → v.report.cleanup = w.report.cleanup →
      v.report.remainingActors = w.report.remainingActors →
      v.report.cleanupAttempts = w.report.cleanupAttempts → Books w v a :=
    fun ht ha h1 h2 h3 h4 h5 => .quiet ht ha h1 h2 ⟨h3, h4, h5⟩
  cases hw with
  | enter =>
    unfold World.enter
    split
    case h_1 kind message herror =>
      have hs : w.shared.Fails (w.fail kind message).shared :=
        SharedState.fails_fail (World.admission_error herror)
      exact .quiet rfl rfl rfl rfl hs.latches.keepsCleanup
    case h_2 => exact hsame rfl rfl rfl rfl rfl rfl rfl
  | @create result hctl =>
    cases result with
    | error e =>
      have hs : w.shared.Fails (w.fail .applicationFailed e).shared :=
        SharedState.fails_fail (by decide)
      exact .quiet rfl rfl rfl rfl hs.latches.keepsCleanup
    | panic =>
      have hs : w.shared.Fails (w.fail .applicationFailed "factory panicked").shared :=
        SharedState.fails_fail (by decide)
      exact .quiet rfl rfl rfl rfl hs.latches.keepsCleanup
    | program workers =>
      have hnew : ∀ {v : World}, v.teardowns = w.teardowns → v.acquired = true →
          w.report.KeepsCleanup v.report → Books w v (.create (.program workers)) :=
        fun ht ha hreport => ⟨by simp [ht, Action.teardownResult?], by simp [ha, Action.acquires],
          Or.inl hreport⟩
      rw [World.create]
      rcases w.acquire_spec workers with ⟨s, hs, -, heq⟩ | ⟨-, heq⟩ <;> rw [heq]
      · have hreport : w.report.KeepsCleanup s.report := by
          rcases hs with rfl | hs
          · exact ⟨rfl, rfl, rfl⟩
          · exact hs.latches.keepsCleanup
        rcases World.callCleanup_spec { w with acquired := true, shared := s }
          w.setup.policy.cleanupTimeout with ⟨-, heq⟩ | ⟨-, heq⟩ <;> rw [heq] <;>
          exact hnew rfl rfl hreport
      · exact hnew rfl rfl ⟨rfl, rfl, rfl⟩
  | @spawn i result =>
    cases result with
    | error e => exact .turn rfl rfl (Or.inr (SharedState.fails_fail (by decide)))
    | ok thread => exact hsame rfl rfl rfl rfl rfl rfl rfl
  | startWait =>
    rcases w.startWait_spec _ with ⟨-, heq⟩ | ⟨-, heq⟩ | ⟨s, hs, heq⟩ | heq <;> rw [heq]
    · exact .turn rfl rfl (Or.inl rfl)
    · exact .turn rfl rfl (Or.inl rfl)
    · exact .turn rfl rfl (Or.inr hs)
    · exact hsame rfl rfl rfl rfl rfl rfl rfl
  | observe =>
    rw [World.observe]
    split_ifs
    · exact .turn rfl rfl (Or.inl rfl)
    · exact .turn rfl rfl (Or.inr (SharedState.fails_fail (by decide)))
    · exact .turn rfl rfl (Or.inl rfl)
  | observer => exact hsame rfl rfl rfl rfl rfl rfl rfl
  | judge =>
    rw [World.judge]
    rcases w.shared.judge_spec w.setup.serde w.cancelled _ w.next _ with hs | ⟨-, value, -, heq⟩
    · exact .turn rfl rfl (Or.inr hs)
    · rw [heq]
      exact hsame rfl rfl rfl rfl rfl rfl rfl
  | outcomeCheck =>
    rw [World.outcomeCheck]
    split_ifs
    · exact .cleanup rfl rfl (Or.inl rfl) _
    · exact .turn rfl rfl (Or.inl rfl)
    · exact .turn rfl rfl (Or.inl rfl)
  | wait =>
    rcases w.wait_spec _ _ _ with ⟨-, heq⟩ | ⟨-, heq⟩ | ⟨s, hs, heq⟩ | heq <;> rw [heq]
    · exact .turn rfl rfl (Or.inl rfl)
    · exact .turn rfl rfl (Or.inl rfl)
    · exact .turn rfl rfl (Or.inr hs)
    · exact hsame rfl rfl rfl rfl rfl rfl rfl
  | @arrival i requested _ hctl =>
    obtain ⟨-, a, ha, -⟩ := (licensed hr).target i requested (Or.inr hctl)
    obtain ⟨s, heq, hs⟩ := World.arrival_some requested ha
    rw [heq]
    refine .quiet rfl rfl rfl rfl ?_
    rcases hs with hs | hs | ⟨-, rfl⟩
    · exact hs.latches.keepsCleanup
    · exact ⟨hs.cleanup, hs.remainingActors, hs.cleanupAttempts⟩
    · exact ⟨rfl, rfl, rfl⟩
  | join _ hw =>
    rcases World.join_spec hw with ⟨rfl, -⟩ | ⟨t, c, -, -, -, rfl⟩ <;>
      exact hsame rfl rfl rfl rfl rfl rfl rfl
  | joinFailed => exact .turn rfl rfl (Or.inr (SharedState.fails_fail (by decide)))
  | checkArrival =>
    rw [World.checkArrival]
    split_ifs <;> exact hsame rfl rfl rfl rfl rfl rfl rfl
  | complete =>
    rcases World.callCleanup_spec { w with shared := { w.shared with
      report := { w.report with scheduleCompleted := true } } } w.setup.policy.cleanupTimeout with
      ⟨-, heq⟩ | ⟨-, heq⟩ <;> rw [World.complete, heq] <;> exact hsame rfl rfl rfl rfl rfl rfl rfl
  | clean =>
    rw [World.clean]
    rcases w.shared.beginCleanup_spec with ⟨-, hs⟩ | ⟨-, heq⟩
    · exact .turn rfl rfl (Or.inr hs)
    · rw [heq]
      exact hsame rfl rfl rfl rfl rfl rfl rfl
  | drain =>
    rw [World.drain]
    split_ifs <;> exact hsame rfl rfl rfl rfl rfl rfl rfl
  | @reap i _ hctl =>
    have hopen := (custody hr).closing (Or.inr (by rw [hctl]; rfl))
    rw [World.reap]
    split_ifs with hi hremaining
    · exact hsame rfl rfl rfl rfl rfl rfl rfl
    · refine ⟨by simp [World.goto, Action.teardownResult?], by simp [World.goto, Action.acquires],
        Or.inr ⟨hopen, rfl, ⟨_, rfl⟩, ?_, rfl⟩⟩
      exact ⟨fun _ => hremaining, fun _ => rfl⟩
    · exact .turn rfl rfl (Or.inl rfl)
    · exact .turn rfl rfl (Or.inl rfl)
  | tear => exact ⟨rfl, (Bool.or_false _).symm, Or.inl ⟨rfl, rfl, rfl⟩⟩
  | @record e _ hctl =>
    have hopen := (custody hr).closing (Or.inr (by rw [hctl]; rfl))
    have hnone : (w.record e).remaining = [] :=
      World.remaining_eq_nil ((custody hr).joined (Or.inr (by rw [hctl]; rfl)))
    refine ⟨by simp [World.record, World.goto, Action.teardownResult?],
      by simp [World.record, World.goto, Action.acquires], Or.inr ⟨hopen, rfl, ⟨_, rfl⟩, ?_, ?_⟩⟩
    · rw [hnone]
      refine ⟨fun hc => ?_, fun hne => absurd rfl hne⟩
      simp only [World.record, World.report, World.goto, SharedState.recordCleanup] at hc
      split_ifs at hc
    · rw [hnone]
      rfl
  | advance =>
    rw [World.advance]
    split_ifs
    · exact hsame rfl rfl rfl rfl rfl rfl rfl
    rcases w.shared.permit_spec w.cancelled _ w.steps w.next _ with
      ⟨s, hs, heq⟩ | ⟨i, a, -, -, -, -, heq⟩ <;> rw [heq]
    · exact .turn rfl rfl (Or.inr hs)
    · by_cases hstop : w.shared.stopping = true
      · rw [if_pos hstop]
        exact hsame rfl rfl rfl rfl rfl rfl rfl
      · rw [if_neg hstop]
        exact hsame rfl rfl rfl rfl rfl rfl rfl
  | finish =>
    rcases w.finish_spec with ⟨-, heq⟩ | ⟨-, s, hs, heq⟩ <;> rw [heq]
    · exact hsame rfl rfl rfl rfl rfl rfl rfl
    · exact .cleanup rfl rfl hs _
  | cleanup => exact .cleanup rfl rfl (Or.inl rfl) _
  | foreignCall => exact hsame rfl rfl rfl rfl rfl rfl rfl
  | drop => exact hsame rfl rfl rfl rfl rfl rfl rfl
  | dropJoin _ hw =>
    rcases World.dropJoin_spec hw with ⟨-, rfl⟩ | ⟨t, -, -, rfl⟩ <;>
      exact hsame rfl rfl rfl rfl rfl rfl rfl
  | dropTeardown => exact ⟨rfl, (Bool.or_false _).symm, Or.inl ⟨rfl, rfl, rfl⟩⟩

theorem step_books {w w' : World} {action : Action} (hr : execution.Reachable w)
    (hw : execution.step w action = some w') : Books w w' action := by
  rcases World.step_move hw with hw | hw
  · exact hw.books hr
  · have hb := hw.beside
    refine .quiet ?_ ?_ hb.teardowns hb.acquired hb.report.keepsCleanup
    · cases hw <;> rfl
    · cases hw <;> rfl

/-! ### Whole runs -/

/-- The books of a whole run: the teardowns are those of its actions, and a program is held when
the factory has returned one. -/
theorem run_books {w u : World} (hr : execution.Reachable w) {actions : List Action}
    (hu : execution.run w actions = some u) :
    u.teardowns = w.teardowns ++ actions.filterMap Action.teardownResult? ∧
      u.acquired = (w.acquired || actions.any Action.acquires) := by
  induction actions generalizing w with
  | nil =>
    cases hu
    simp
  | cons action actions ih =>
    obtain ⟨v, hv, hu⟩ := TransitionSystem.run_cons.mp hu
    have hbooks := step_books hr hv
    obtain ⟨hteardowns, hacquired⟩ := ih (hr.step hv) hu
    rw [hteardowns, hacquired, hbooks.teardowns, hbooks.acquired]
    refine ⟨?_, ?_⟩
    · cases h : action.teardownResult? <;> simp [h]
    · simp [Bool.or_assoc]

/-- Once the teardown has been settled, no later call changes what the report says of it. -/
theorem run_settled {w u : World} (hr : execution.Reachable w)
    (hc : w.report.cleanup = .confirmed ∨ w.report.cleanup = .teardownFailed)
    {actions : List Action} (hu : execution.run w actions = some u) :
    u.report.cleanup = w.report.cleanup := by
  refine hr.run_induction (R := fun w u => (w.report.cleanup = .confirmed ∨
    w.report.cleanup = .teardownFailed) → u.report.cleanup = w.report.cleanup) hu
    (fun _ _ => rfl) (fun w u a v hwu hu hv hc => ?_) hc
  have heq := hwu hc
  rcases (step_books hu hv).report with hkeep | hend
  · exact hkeep.cleanup.trans heq
  · have hunsettled := (custody hu).unsettled hend.opened
    rw [heq] at hunsettled
    rcases hc with hc | hc <;> simp [hc] at hunsettled

/-- The callback of the teardown is only waited for when every thread has been joined. -/
theorem joined_at_teardown {w v : World} (hr : execution.Reachable w) {result : CallResult Unit}
    (hv : execution.step w (.teardown result) = some v) :
    ∀ t ∈ w.threads, t.handle = false ∧ t.isFinished = true := by
  have hjoined : ∀ t ∈ w.threads, t.handle = false := by
    refine (custody hr).joined (Or.inr ?_)
    rcases World.step_move (show w.step (.teardown result) = some v from hv) with hw | hw
    · cases hw with
      | tear hctl => rw [hctl]; rfl
      | dropTeardown hctl => rw [hctl]; rfl
    · cases hw
  exact fun t ht => ⟨hjoined t ht, (coordinated hr).ended_of_joined ht (hjoined t ht)⟩

/-- What an idle execution says of its last attempt to clean up. -/
theorem idle_report {w : World} (hr : execution.Reachable w) (hctl : w.ctl = .idle) :
    (w.report.cleanup = .incomplete ↔ w.report.cleanupAttempts ≠ [] ∧ w.remaining ≠ []) ∧
      (w.report.cleanup = .incomplete → w.report.remainingActors = w.remaining) := by
  have h := custody hr
  by_cases hclosed : w.closed = true
  · have hnone := World.remaining_eq_nil (h.joined (Or.inl hclosed))
    have hne : w.report.cleanup ≠ .incomplete := by
      by_cases hacquired : w.acquired = true
      · obtain ⟨r, -, hr⟩ := h.settled hclosed hacquired
        rw [hr]
        cases r <;> exact nofun
      · rw [h.unacquired hclosed (by simpa using hacquired)]
        exact nofun
    simp [hne, hnone]
  · by_cases hattempts : w.report.cleanupAttempts = []
    · simp [hattempts, h.fresh hattempts]
    · obtain ⟨hincomplete, hremaining, hnames⟩ := h.remaining hctl (by simpa using hclosed) hattempts
      simp [hincomplete, hattempts, hremaining, hnames]

/-- In every run of an execution the teardown is called at most once, only for a program that the
factory has returned and only when every thread has been joined; exactly once when the execution
has been dropped. The report says after each attempt which workers were left, and what it says of a
teardown stays. -/
theorem teardown_exactly_once {setup : Setup} {cancelled : Bool} {generation : ℕ}
    {executionId : String} {actions : List Action} {w : World}
    (hrun : execution.run (World.new setup cancelled generation executionId) actions = some w) :
    (actions.filterMap Action.teardownResult?).length ≤
        (if actions.any Action.acquires then 1 else 0) ∧
      (w.ctl = .dropped → (actions.filterMap Action.teardownResult?).length =
        if actions.any Action.acquires then 1 else 0) ∧
      (∀ result v, execution.step w (.teardown result) = some v →
        ∀ t ∈ w.threads, t.handle = false ∧ t.isFinished = true) ∧
      (∀ action v, execution.step w action = some v →
        w.report.KeepsCleanup v.report ∨ EndsAttempt w v) ∧
      (w.ctl = .idle →
        (w.report.cleanup = .incomplete ↔ w.report.cleanupAttempts ≠ [] ∧ w.remaining ≠ []) ∧
          (w.report.cleanup = .incomplete → w.report.remainingActors = w.remaining)) ∧
      (w.report.cleanup = .confirmed ∨ w.report.cleanup = .teardownFailed →
        ∀ more v, execution.run w more = some v → v.report.cleanup = w.report.cleanup) := by
  have hinit : execution.Reachable (World.new setup cancelled generation executionId) :=
    .init ⟨setup, cancelled, generation, executionId, rfl⟩
  have hr := hinit.run hrun
  obtain ⟨hteardowns, hacquired⟩ := run_books hinit hrun
  simp only [World.new, List.nil_append, Bool.false_or] at hteardowns hacquired
  have hcount := (custody hr).count
  rw [hteardowns, hacquired] at hcount
  refine ⟨?_, fun hctl => ?_, fun result v hv => joined_at_teardown hr hv,
    fun action v hv => (step_books hr hv).report, fun hctl => idle_report hr hctl,
    fun hc more v hv => run_settled hr hc hv⟩
  · rw [hcount]
    split_ifs with h1 h2 <;> simp_all
  · rw [hcount, hctl]
    simp [Ctl.tornDown]

namespace Solo

def dropped : List Action := [.drop, .control false, .control false]

theorem run_dropped : ((execution.run (world.goto .creating) (started ++ finished ++ dropped)).map
    fun w => w.ctl) = some .dropped := by
  decide +kernel

theorem acquires : (started ++ finished ++ dropped).any Action.acquires = true := by decide

end Solo

theorem teardown_exactly_once_solo : ∃ actions w, execution.run Solo.world actions = some w ∧
    w.ctl = .dropped ∧ (actions.filterMap Action.teardownResult?).length = 1 := by
  obtain ⟨w, hw, hctl⟩ := Option.map_eq_some_iff.mp Solo.run_dropped
  have hrun := TransitionSystem.run_cons.mpr ⟨_, Solo.step_enter, hw⟩
  have hcount := (teardown_exactly_once hrun).2.1 hctl
  rw [List.any_cons, Solo.acquires, Bool.or_true, if_pos rfl] at hcount
  exact ⟨_, w, hrun, hctl, hcount⟩

end MirrorRust
