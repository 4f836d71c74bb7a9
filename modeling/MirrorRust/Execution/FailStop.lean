import MirrorRust.Execution.Completion

/-! The failure latch: once the outcome of an execution is a failure, it stays, no interval is
permitted and nothing is observed any more. -/
namespace MirrorRust

/-- The permits on record. -/
def Report.permits (r : Report) : List Json :=
  r.events.filter fun row => row.index "kind" = .string "permit"

/-- `w'` is `w` with what the latch protects unchanged. -/
structure Latched (w w' : World) : Prop where
  outcome : w'.report.outcome = w.report.outcome
  detail : w'.report.detail = w.report.detail
  permits : w'.report.permits = w.report.permits
  observations : w'.report.observations = w.report.observations
  scheduleCompleted : w'.report.scheduleCompleted = w.report.scheduleCompleted
  running : ∀ i, w'.shared.phase? i = some .running → w.shared.phase? i = some .running

namespace Latched
variable {w w' : World}

theorem same (hreport : w'.report = w.report) (hactors : w'.shared.actors = w.shared.actors) :
    Latched w w' := by
  refine ⟨?_, ?_, ?_, ?_, ?_, fun i hi => ?_⟩
  all_goals try rw [hreport]
  rwa [SharedState.phase?, hactors] at hi

theorem trans {v : World} (h : Latched w v) (h' : Latched v w') : Latched w w' :=
  ⟨h'.outcome.trans h.outcome, h'.detail.trans h.detail, h'.permits.trans h.permits,
    h'.observations.trans h.observations, h'.scheduleCompleted.trans h.scheduleCompleted,
    fun i hi => h.running i (h'.running i hi)⟩

theorem callCleanup (w : World) (timeout : Duration) : Latched w (w.callCleanup timeout) := by
  rcases w.callCleanup_spec timeout with ⟨-, heq⟩ | ⟨-, heq⟩ <;> rw [heq] <;> exact same rfl rfl

theorem fails {s : SharedState} {c : Ctl} (hs : w.shared.Fails s)
    (ho : w.report.outcome ≠ .completed) : Latched w ({ w with shared := s }.goto c) :=
  same (hs.latched ho) hs.actors

end Latched

theorem SharedState.permits_pushEvent_arrival (s : SharedState) (step : ℕ) (a : Actor) :
    (s.pushEvent "arrival" step a).report.permits = s.report.permits := by
  simp [Report.permits, pushEvent, List.filter_append, eventRow_kind]

section Failed
variable {w w' : World} (hr : execution.Reachable w) (ho : w.report.outcome ≠ .completed)
include hr ho

theorem ControlMove.latched {action : Action} (hw : ControlMove w action w') : Latched w w' := by
  cases hw with
  | enter =>
    unfold World.enter
    split
    · exact .same (SharedState.fail_latched ho) rfl
    · exact .same rfl rfl
  | @create result =>
    cases result with
    | error e => exact .same (SharedState.fail_latched ho) rfl
    | panic => exact .same (SharedState.fail_latched ho) rfl
    | program workers =>
      rw [World.create]
      rcases w.acquire_spec workers with ⟨s, hs, -, heq⟩ | ⟨hcompleted, -⟩
      · have hfirst : Latched w { w with acquired := true, shared := s } := by
          rcases hs with rfl | hs
          · exact .same rfl rfl
          · exact .same (hs.latched ho) hs.actors
        rw [heq]
        exact hfirst.trans (.callCleanup _ _)
      · exact absurd hcompleted ho
  | @spawn i result =>
    cases result with
    | error e => exact .same (SharedState.fail_latched ho) rfl
    | ok thread => exact .same rfl rfl
  | startWait =>
    rcases w.startWait_spec _ with ⟨-, heq⟩ | ⟨-, heq⟩ | ⟨s, hs, heq⟩ | heq <;> rw [heq]
    · exact .same rfl rfl
    · exact .same rfl rfl
    · exact .fails hs ho
    · exact .same rfl rfl
  | observe =>
    rw [World.observe]
    split_ifs
    · exact .same rfl rfl
    · exact .same (SharedState.fail_latched ho) rfl
    · exact .same rfl rfl
  | observer => exact .same rfl rfl
  | judge hctl =>
    -- the lock has been held since the execution was seen running
    have hstop := (licensed hr).locked (by simp [World.locked, hctl])
    simp [(coordinated hr).failed ho] at hstop
  | outcomeCheck =>
    rw [World.outcomeCheck, if_pos ho]
    exact .callCleanup _ _
  | wait =>
    rcases w.wait_spec _ _ _ with ⟨-, heq⟩ | ⟨-, heq⟩ | ⟨s, hs, heq⟩ | heq <;> rw [heq]
    · exact .same rfl rfl
    · exact .same rfl rfl
    · exact .fails hs ho
    · exact .same rfl rfl
  | @arrival i requested _ hctl =>
    obtain ⟨-, a, ha, -⟩ := (licensed hr).target i requested (Or.inr hctl)
    obtain ⟨s, heq, hs⟩ := World.arrival_some requested ha
    have hpush : Latched w { w with shared := w.shared.pushEvent "arrival" w.next a } :=
      ⟨rfl, rfl, w.shared.permits_pushEvent_arrival w.next a, rfl, rfl, fun _ => id⟩
    rw [heq]
    rcases hs with hs | hs | ⟨-, rfl⟩
    · exact .fails hs ho
    · exact hpush.trans (.fails hs ho)
    · exact hpush.trans (.same rfl rfl)
  | join _ hw =>
    rcases World.join_spec hw with ⟨rfl, -⟩ | ⟨t, c, -, -, -, rfl⟩ <;> exact .same rfl rfl
  | joinFailed => exact .same (SharedState.fail_latched ho) rfl
  | checkArrival =>
    rw [World.checkArrival, if_neg ho]
    exact .same rfl rfl
  | complete hctl => exact absurd ((completion hr).completing hctl).1 ho
  | clean =>
    rw [World.clean]
    rcases w.shared.beginCleanup_spec with ⟨-, hs⟩ | ⟨-, heq⟩
    · exact .fails hs ho
    · rw [heq]
      exact .same rfl rfl
  | drain => rw [World.drain]; split_ifs <;> exact .same rfl rfl
  | reap => rw [World.reap]; split_ifs <;> exact ⟨rfl, rfl, rfl, rfl, rfl, fun _ => id⟩
  | tear => exact .same rfl rfl
  | record => exact ⟨rfl, rfl, rfl, rfl, rfl, fun _ => id⟩
  | advance =>
    rw [World.advance, if_pos (Or.inr ho)]
    exact .same rfl rfl
  | finish =>
    rcases w.finish_spec with ⟨-, heq⟩ | ⟨-, s, hs, heq⟩ <;> rw [heq]
    · exact .same rfl rfl
    · have hfirst : Latched w { w with shared := s } := by
        rcases hs with rfl | hs
        · exact .same rfl rfl
        · exact .same (hs.latched ho) hs.actors
      exact hfirst.trans (.callCleanup _ _)
  | cleanup => exact .callCleanup _ _
  | foreignCall => exact .same rfl rfl
  | drop => exact .same rfl rfl
  | dropJoin _ hw =>
    rcases World.dropJoin_spec hw with ⟨-, rfl⟩ | ⟨t, -, -, rfl⟩ <;> exact .same rfl rfl
  | dropTeardown => exact .same rfl rfl

theorem step_latched {action : Action} (hw : execution.step w action = some w') :
    Latched w w' := by
  rcases World.step_move hw with hw | hw
  · exact hw.latched hr ho
  · have hb := hw.beside
    rcases hb.report with heq | ⟨hcompleted, -⟩
    · constructor <;> first | rw [heq] | exact hb.running
    · exact absurd hcompleted ho

end Failed

/-- The latch over a whole run. -/
theorem run_latched {w u : World} (hr : execution.Reachable w)
    (ho : w.report.outcome ≠ .completed) {actions : List Action}
    (hu : execution.run w actions = some u) : Latched w u := by
  refine hr.run_induction (R := fun w u => w.report.outcome ≠ .completed → Latched w u) hu
    (fun _ _ => .same rfl rfl) (fun w u a v hwu hu hv ho => ?_) ho
  have hlatched := hwu ho
  exact hlatched.trans (step_latched hu (hlatched.outcome ▸ ho) hv)

/-- A failed execution never recovers: whatever is called afterwards, its outcome and detail stay,
nothing is permitted, run or observed any more, and it never counts as completed or passed. -/
theorem fail_stop {w : World} (hr : execution.Reachable w) :
    (w.report.outcome ≠ .completed → ∀ actions u, execution.run w actions = some u →
      u.report.outcome = w.report.outcome ∧ u.report.detail = w.report.detail ∧
        u.report.permits = w.report.permits ∧ u.report.observations = w.report.observations ∧
        u.report.scheduleCompleted = false ∧ u.report.passed = false ∧
        ∀ action v, execution.step u action = some v →
          ∀ i, v.shared.phase? i = some .running → u.shared.phase? i = some .running) ∧
    (w.report.scheduleCompleted = true → w.report.outcome = .completed) := by
  refine ⟨fun ho actions u hu => ?_, fun hs => ((completion hr).completed hs).1⟩
  have hlatched := run_latched hr ho hu
  have hou : u.report.outcome ≠ .completed := hlatched.outcome ▸ ho
  have hn : u.report.scheduleCompleted = false := by
    by_contra hs
    exact hou ((completion (hr.run hu)).completed (by simpa using hs)).1
  refine ⟨hlatched.outcome, hlatched.detail, hlatched.permits, hlatched.observations, hn, ?_,
    fun action v hv => (step_latched (hr.run hu) hou hv).running⟩
  simp [Report.passed, hn]

namespace Duo

/-- The second worker fails in its interval. -/
def failed : List Action := started ++ [.returns 1 (.error "put failed"), .settle 1]

theorem run_failed : ((execution.run (world.goto .creating) failed).map fun w =>
    (w.report.outcome, w.report.detail, w.shared.phase? 0)) =
      some (.applicationFailed, "put failed", some .parked) := by
  decide +kernel

end Duo

/-- The first worker is still at its checkpoint; no step of any later state lets it run. -/
theorem fail_stop_duo : ∃ w, execution.Reachable w ∧ w.shared.phase? 0 = some .parked ∧
    w.report.outcome = .applicationFailed ∧
    ∀ actions u, execution.run w actions = some u →
      u.report.outcome = .applicationFailed ∧ u.report.detail = "put failed" ∧
        u.report.permits = w.report.permits ∧ u.report.passed = false ∧
        ∀ action v, execution.step u action = some v →
          v.shared.phase? 0 = some .running → u.shared.phase? 0 = some .running := by
  obtain ⟨w, hw, hfailed⟩ := Option.map_eq_some_iff.mp Duo.run_failed
  have hr := Duo.reachable_creating.run hw
  simp only [Prod.mk.injEq] at hfailed
  obtain ⟨houtcome, hdetail, hparked⟩ := hfailed
  refine ⟨w, hr, hparked, houtcome, fun actions u hu => ?_⟩
  obtain ⟨houtcome', hdetail', hpermits, -, -, hpassed, hrunning⟩ :=
    (fail_stop hr).1 (by simp [houtcome]) actions u hu
  exact ⟨houtcome'.trans houtcome, hdetail'.trans hdetail, hpermits, hpassed,
    fun action v hv => hrunning action v hv 0⟩

end MirrorRust
