import MirrorRust.Execution.Teardown

/-! The ledger of an execution that has not failed: one permit and one arrival for every
interval, and one observation before the first interval and after each. -/
namespace MirrorRust

namespace Ctl

/-- The events of the current interval that are on record. -/
def pending : Ctl → ℕ
  | .waiting .. | .arrived .. => 1
  | .joining _ | .joinFailed | .checkArrival => 2
  | _ => 0

/-- An observation is due. -/
def awaiting : Ctl → ℕ
  | .entering | .creating | .spawning _ | .startWait => 1
  | .observing _ | .callback _ | .judging .. => 1
  | _ => 0

end Ctl

/-- Row `j` of the events of a schedule. -/
def IsEvent (steps : List Step) (j : ℕ) (row : Json) : Prop :=
  ∃ r, steps[j / 2]? = some r ∧ row.index "ordinal" = .ofNat j ∧
    row.index "step" = .ofNat (j / 2) ∧ row.index "actor" = .string r.actor ∧
    row.index "kind" = .string (if j % 2 = 0 then "permit" else "arrival") ∧
    (j % 2 = 1 → row.index "checkpoint" = .string r.checkpoint)

structure Recorded (w : World) : Prop where
  length : w.report.events.length = 2 * w.next + w.ctl.pending
  events : ∀ (j : ℕ) (row : Json), w.report.events[j]? = some row → IsEvent w.steps j row
  observed : w.report.observations.length + w.ctl.awaiting = w.next + 1
  observations : ∀ (j : ℕ) (row : Json), w.report.observations[j]? = some row →
    row.index "afterSteps" = .ofNat j
  uncancelled : w.ctl.awaiting = 0 → w.observed = some false
  judging : ∀ caller result, w.ctl = .judging caller result →
    ∃ c, w.observed = some c ∧ (c = true → w.cancelled = true)

/-- The ledger is in order unless the execution has failed. -/
def Ledger (w : World) : Prop := w.report.outcome = .completed → Recorded w

theorem SharedState.eventRow_ordinal (s : SharedState) (kind : String) (step : ℕ) (a : Actor) :
    (s.eventRow kind step a).index "ordinal" = .ofNat s.report.events.length := by
  simp [eventRow, Assoc.get?]

theorem SharedState.eventRow_step (s : SharedState) (kind : String) (step : ℕ) (a : Actor) :
    (s.eventRow kind step a).index "step" = .ofNat step := by
  simp [eventRow, Assoc.get?]

theorem SharedState.eventRow_checkpoint (s : SharedState) (kind : String) (step : ℕ) (a : Actor) :
    (s.eventRow kind step a).index "checkpoint" = .string a.checkpoint := by
  simp [eventRow, Assoc.get?]

theorem SharedState.observationRow_afterSteps (serde : Serde) (next : ℕ) (value : Json) :
    (observationRow serde next value).index "afterSteps" = .ofNat next := by
  simp [observationRow, Assoc.get?]

/-- The new row of a list that is read by position. -/
theorem getElem?_concat {α : Type*} {l : List α} {P : ℕ → α → Prop} {x : α}
    (h : ∀ (j : ℕ) (y : α), l[j]? = some y → P j y) (hx : P l.length x) (j : ℕ) (y : α)
    (hj : (l ++ [x])[j]? = some y) : P j y := by
  rcases Nat.lt_trichotomy j l.length with hlt | rfl | hgt
  · rw [List.getElem?_append_left hlt] at hj
    exact h j y hj
  · rw [List.getElem?_concat_length] at hj
    exact Option.some.inj hj ▸ hx
  · rw [List.getElem?_eq_none (by simp; omega)] at hj
    cases hj

namespace Ledger
variable {w w' : World} {c : Ctl} (h : Ledger w)

/-- A failed execution keeps no ledger. -/
theorem failed {s : SharedState} (hs : w.shared.Fails s) :
    Ledger ({ w with shared := s }.goto c) := fun ho => absurd ho hs.outcome

/-- A controller that sees the execution stopping before it is complete finds a failure. -/
theorem failed_of_stopping (hr : execution.Reachable w) (hs : w.shared.stopping = true)
    (hc : w.ctl.wrapping = false) (hi : w.ctl ≠ .idle ∨ w.closed = false) :
    w.report.outcome ≠ .completed := by
  rcases (coordinated hr).stopped hs with hf | hd | hreleased
  · exact hf
  · rcases ((completion hr).completed hd).2.2 with hw | ⟨hidle, hclosed⟩
    · simp [hc] at hw
    · rcases hi with hi | hi
      · exact absurd hidle hi
      · simp [hclosed] at hi
  · cases hctl : w.ctl <;> simp_all [Ctl.released, Ctl.wrapping]

theorem stopped (hr : execution.Reachable w) (hs : w.shared.stopping = true)
    (hc : w.ctl.wrapping = false) (hi : w.ctl ≠ .idle) : Ledger (w.goto c) := by
  have hfailed := failed_of_stopping hr hs hc (Or.inl hi)
  exact fun ho => absurd ho hfailed

include h

/-- A move that leaves the report, the interval and the observation alone. -/
theorem carry (hsetup : w'.setup = w.setup)
    (houtcome : w'.report.outcome = w.report.outcome) (hevents : w'.report.events = w.report.events)
    (hobservations : w'.report.observations = w.report.observations) (hnext : w'.next = w.next)
    (hobserved : w'.observed = w.observed) (hpending : w'.ctl.pending = w.ctl.pending)
    (hawaiting : w'.ctl.awaiting = w.ctl.awaiting)
    (hjudging : ∀ caller result, w'.ctl ≠ .judging caller result) : Ledger w' := by
  intro ho
  have hr := h (houtcome ▸ ho)
  refine ⟨?_, ?_, ?_, ?_, ?_, fun caller result hc => absurd hc (hjudging caller result)⟩
  · rw [hevents, hnext, hpending]
    exact hr.length
  · rw [hevents, World.steps, hsetup]
    exact hr.events
  · rw [hobservations, hawaiting, hnext]
    exact hr.observed
  · rw [hobservations]
    exact hr.observations
  · rw [hawaiting, hobserved]
    exact hr.uncancelled

theorem goto (hpending : c.pending = w.ctl.pending) (hawaiting : c.awaiting = w.ctl.awaiting)
    (hjudging : ∀ caller result, c ≠ .judging caller result) : Ledger (w.goto c) :=
  h.carry rfl rfl rfl rfl rfl rfl hpending hawaiting hjudging

theorem callCleanup (hpending : w.ctl.pending = 0) (hawaiting : w.ctl.awaiting = 0)
    (timeout : Duration) : Ledger (w.callCleanup timeout) := by
  rcases w.callCleanup_spec timeout with ⟨-, heq⟩ | ⟨-, heq⟩ <;> rw [heq]
  · exact h.goto hpending.symm hawaiting.symm nofun
  · exact h.goto hpending.symm hawaiting.symm nofun

theorem judge {caller : Caller} {result : CallResult Json}
    (hctl : w.ctl = .judging caller result) (expired : Bool) :
    Ledger (w.judge caller result expired) := by
  rw [World.judge]
  rcases w.shared.judge_spec w.setup.serde w.cancelled expired w.next result with
    hs | ⟨hcancelled, value, -, heq⟩
  · exact failed hs
  · rw [heq]
    intro ho
    have hr := h ho
    have hlength : w.report.events.length = 2 * w.next := by
      simpa [hctl, Ctl.pending] using hr.length
    have hobserved : w.report.observations.length = w.next := by
      simpa [hctl, Ctl.awaiting] using hr.observed
    rw [World.report] at hobserved
    refine ⟨hlength, hr.events, ?_, ?_, fun _ => ?_, (fun _ _ h => by cases h)⟩
    · simp [World.goto, World.report, SharedState.pushObservation, Ctl.awaiting, hobserved]
    · refine getElem?_concat hr.observations ?_
      rw [SharedState.observationRow_afterSteps, hobserved]
    · obtain ⟨c, hc, himp⟩ := hr.judging _ _ hctl
      cases c
      · exact hc
      · simp [himp rfl] at hcancelled

theorem permit {i : ℕ} {a : Actor} {requested : Step} (hctl : w.ctl = .idle)
    (hname : a.declaration.actor = requested.actor) (hstep : w.steps[w.next]? = some requested) :
    Ledger ({ w with shared := (w.shared.pushEvent "permit" w.next a).setPhase i .running }.goto
      (.waiting i requested)) := by
  intro ho
  have hr := h ho
  have hlength : w.report.events.length = 2 * w.next := by
    simpa [hctl, Ctl.pending] using hr.length
  rw [World.report] at hlength
  have hobserved : w.report.observations.length = w.next + 1 := by
    simpa [hctl, Ctl.awaiting] using hr.observed
  refine ⟨?_, ?_, hobserved, hr.observations, fun _ => hr.uncancelled (by rw [hctl]; rfl), (fun _ _ h => by cases h)⟩
  · simp [World.goto, World.report, SharedState.setPhase, SharedState.modifyActor,
      SharedState.pushEvent, Ctl.pending, hlength]
  · refine getElem?_concat hr.events ?_
    rw [hlength]
    have hhalf : 2 * w.next / 2 = w.next := by omega
    have heven : 2 * w.next % 2 = 0 := by omega
    refine ⟨requested, by rw [hhalf]; exact hstep, ?_, ?_, ?_, ?_, ?_⟩
    · rw [SharedState.eventRow_ordinal, hlength]
    · rw [SharedState.eventRow_step, hhalf]
    · rw [SharedState.eventRow_actor, hname]
    · rw [SharedState.eventRow_kind, if_pos heven]
    · omega

theorem arrival (hr : execution.Reachable w) {i : ℕ} {requested : Step}
    (hctl : w.ctl = .arrived i requested) : Ledger (w.arrival i requested) := by
  obtain ⟨hstep, a, ha, hname⟩ := (licensed hr).target i requested (Or.inr hctl)
  obtain ⟨s, heq, hs⟩ := World.arrival_some requested ha
  rw [heq]
  rcases hs with hs | hs | ⟨hcheckpoint, rfl⟩
  · exact failed hs
  · exact fun ho => absurd ho hs.outcome
  intro ho
  have hr := h ho
  have hlength : w.report.events.length = 2 * w.next + 1 := by
    simpa [hctl, Ctl.pending] using hr.length
  rw [World.report] at hlength
  have hobserved : w.report.observations.length = w.next + 1 := by
    simpa [hctl, Ctl.awaiting] using hr.observed
  have hc : (World.afterArrival i a.phase).pending = 2 ∧ (World.afterArrival i a.phase).awaiting = 0 ∧
      ∀ caller result, World.afterArrival i a.phase ≠ .judging caller result := by
    rw [World.afterArrival]
    split_ifs <;> exact ⟨rfl, rfl, (fun _ _ h => by cases h)⟩
  obtain ⟨hpending, hawaiting, hjudging⟩ := hc
  refine ⟨?_, ?_, ?_, hr.observations, fun _ => hr.uncancelled (by rw [hctl]; rfl),
    fun caller result hc => absurd hc (hjudging caller result)⟩
  · simp [World.goto, World.report, SharedState.pushEvent, hpending, hlength]
  · refine getElem?_concat hr.events ?_
    rw [hlength]
    have hhalf : (2 * w.next + 1) / 2 = w.next := by omega
    have hodd : (2 * w.next + 1) % 2 ≠ 0 := by omega
    refine ⟨requested, by rw [hhalf]; exact hstep, ?_, ?_, ?_, ?_, fun _ => ?_⟩
    · rw [SharedState.eventRow_ordinal, hlength]
    · rw [SharedState.eventRow_step, hhalf]
    · rw [SharedState.eventRow_actor, hname]
    · rw [SharedState.eventRow_kind, if_neg hodd]
    · rw [SharedState.eventRow_checkpoint, hcheckpoint]
  · simp only [World.goto, hawaiting]
    exact hobserved

theorem checkArrival (hctl : w.ctl = .checkArrival) : Ledger w.checkArrival := by
  rw [World.checkArrival]
  split_ifs with ho
  · intro _
    have hr := h ho
    have hlength : w.report.events.length = 2 * w.next + 2 := by
      simpa [hctl, Ctl.pending] using hr.length
    have hobserved : w.report.observations.length = w.next + 1 := by
      simpa [hctl, Ctl.awaiting] using hr.observed
    exact ⟨hlength, hr.events, congrArg (· + 1) hobserved, hr.observations, (fun h => by cases h), (fun _ _ h => by cases h)⟩
  · exact fun ho' => absurd ho' ho

theorem controlMove (hr : execution.Reachable w) {action : Action}
    (hw : ControlMove w action w') : Ledger w' := by
  cases hw with
  | enter hctl =>
    unfold World.enter
    split
    case h_1 kind message herror =>
      have hs : w.shared.Fails (w.fail kind message).shared :=
        SharedState.fails_fail (World.admission_error herror)
      exact fun ho => absurd ho hs.outcome
    case h_2 => exact h.goto (by rw [hctl]; rfl) (by rw [hctl]; rfl) (fun _ _ h => by cases h)
  | @create result hctl =>
    cases result with
    | error e => exact fun ho => absurd ho (SharedState.fail_outcome (by decide))
    | panic => exact fun ho => absurd ho (SharedState.fail_outcome (by decide))
    | program workers =>
      rw [World.create]
      rcases w.acquire_spec workers with ⟨s, -, hs, heq⟩ | ⟨-, heq⟩ <;> rw [heq]
      · rcases World.callCleanup_spec { w with acquired := true, shared := s }
          w.setup.policy.cleanupTimeout with ⟨-, heq⟩ | ⟨-, heq⟩ <;> rw [heq] <;>
          exact fun ho => absurd ho hs
      · refine h.carry rfl rfl rfl rfl rfl rfl ?_ ?_ ?_
        all_goals
          simp only [World.declare, World.spawnFrom, World.goto, hctl]
          split_ifs <;> first | rfl | (intro _ _ h; cases h)
  | @spawn i result hctl =>
    cases result with
    | error e => exact failed (SharedState.fails_fail (by decide))
    | ok thread =>
      refine h.carry rfl rfl rfl rfl rfl rfl ?_ ?_ ?_
      all_goals
        simp only [World.spawn, World.spawnFrom, World.goto, hctl]
        split_ifs <;> first | rfl | (intro _ _ h; cases h)
  | startWait hctl =>
    rcases w.startWait_spec _ with ⟨-, heq⟩ | ⟨hs, heq⟩ | ⟨s, hs, heq⟩ | heq <;> rw [heq]
    · exact h.goto (by rw [hctl]; rfl) (by rw [hctl]; rfl) (fun _ _ h => by cases h)
    · exact stopped hr hs (by rw [hctl]; rfl) (by simp [hctl])
    · exact failed hs
    · exact h
  | observe hctl =>
    rw [World.observe]
    split_ifs with hs
    · exact stopped hr hs (by rw [hctl]; rfl) (by simp [hctl])
    · exact failed (SharedState.fails_fail (by decide))
    · exact h.goto (by rw [hctl]; rfl) (by rw [hctl]; rfl) (fun _ _ h => by cases h)
  | @observer caller result hctl =>
    intro ho
    have hrec := h ho
    have hlength : w.report.events.length = 2 * w.next := by
      simpa [hctl, Ctl.pending] using hrec.length
    have hobserved : w.report.observations.length + 1 = w.next + 1 := by
      simpa [hctl, Ctl.awaiting] using hrec.observed
    exact ⟨hlength, hrec.events, hobserved, hrec.observations, (fun h => by cases h),
      fun _ _ _ => ⟨w.cancelled, rfl, id⟩⟩
  | judge hctl => exact h.judge hctl _
  | @outcomeCheck caller _ hctl =>
    rw [World.outcomeCheck]
    split_ifs
    · exact h.callCleanup (by rw [hctl]; rfl) (by rw [hctl]; rfl) _
    · exact h.goto (by rw [hctl]; rfl) (by rw [hctl]; rfl) (fun _ _ h => by cases h)
    · exact h.goto (by rw [hctl]; rfl) (by rw [hctl]; rfl) (fun _ _ h => by cases h)
  | wait hctl =>
    rcases w.wait_spec _ _ _ with ⟨-, heq⟩ | ⟨hs, heq⟩ | ⟨s, hs, heq⟩ | heq <;> rw [heq]
    · exact h.goto (by rw [hctl]; rfl) (by rw [hctl]; rfl) (fun _ _ h => by cases h)
    · exact stopped hr hs (by rw [hctl]; rfl) (by simp [hctl])
    · exact failed hs
    · exact h
  | arrival hctl => exact h.arrival hr hctl
  | join hctl hw =>
    rcases World.join_spec hw with ⟨rfl, -⟩ | ⟨t, c, -, -, hc, rfl⟩
    · exact h.goto (by rw [hctl]; rfl) (by rw [hctl]; rfl) (fun _ _ h => by cases h)
    · rcases hc with rfl | rfl
      · exact h.carry rfl rfl rfl rfl rfl rfl (by rw [hctl]; rfl) (by rw [hctl]; rfl) (fun _ _ h => by cases h)
      · exact h.carry rfl rfl rfl rfl rfl rfl (by rw [hctl]; rfl) (by rw [hctl]; rfl) (fun _ _ h => by cases h)
  | joinFailed => exact failed (SharedState.fails_fail (by decide))
  | checkArrival hctl => exact h.checkArrival hctl
  | complete hctl =>
    have hdone : Ledger { w with shared := { w.shared with
        report := { w.report with scheduleCompleted := true } } } :=
      h.carry rfl rfl rfl rfl rfl rfl rfl rfl (by simp [hctl])
    exact hdone.callCleanup (by simp only [hctl]; rfl) (by simp only [hctl]; rfl) _
  | clean hctl =>
    rw [World.clean]
    rcases w.shared.beginCleanup_spec with ⟨-, hs⟩ | ⟨-, heq⟩
    · exact failed hs
    · rw [heq]
      exact h.carry rfl rfl rfl rfl rfl rfl (by rw [hctl]; rfl) (by rw [hctl]; rfl) (fun _ _ h => by cases h)
  | drain hctl =>
    rw [World.drain]
    split_ifs
    · exact h
    · exact h.goto (by rw [hctl]; rfl) (by rw [hctl]; rfl) (fun _ _ h => by cases h)
  | reap hctl =>
    rw [World.reap]
    split_ifs
    all_goals exact h.carry rfl rfl rfl rfl rfl rfl (by rw [hctl]; rfl) (by rw [hctl]; rfl) (fun _ _ h => by cases h)
  | tear hctl => exact h.carry rfl rfl rfl rfl rfl rfl (by rw [hctl]; rfl) (by rw [hctl]; rfl) (fun _ _ h => by cases h)
  | record hctl =>
    exact h.carry rfl rfl rfl rfl rfl rfl (by rw [hctl]; rfl) (by rw [hctl]; rfl) (fun _ _ h => by cases h)
  | advance hctl =>
    rw [World.advance]
    split_ifs with hopen
    · exact h
    rcases w.shared.permit_spec w.cancelled _ w.steps w.next _ with
      ⟨s, hs, heq⟩ | ⟨i, a, -, -, hname, hstep, heq⟩ <;> rw [heq]
    · exact failed hs
    · by_cases hstop : w.shared.stopping = true
      · rw [if_pos hstop]
        have hclosed : w.closed = false := by simpa using (not_or.mp hopen).1
        have hfailed := failed_of_stopping hr hstop (by rw [hctl]; rfl) (Or.inr hclosed)
        exact fun ho => absurd ho hfailed
      · rw [if_neg hstop]
        exact h.permit hctl hname hstep
  | finish hctl =>
    rcases w.finish_spec with ⟨-, heq⟩ | ⟨-, s, hs, heq⟩ <;> rw [heq]
    · exact h
    · rcases hs with rfl | hs
      · exact h.callCleanup (by rw [hctl]; rfl) (by rw [hctl]; rfl) _
      · rcases World.callCleanup_spec { w with shared := s } w.setup.policy.cleanupTimeout with
          ⟨-, heq⟩ | ⟨-, heq⟩ <;> rw [heq] <;> exact failed hs
  | cleanup hctl => exact h.callCleanup (by rw [hctl]; rfl) (by rw [hctl]; rfl) _
  | foreignCall => exact h
  | drop hctl =>
    exact h.carry rfl rfl rfl rfl rfl rfl (by rw [hctl]; rfl) (by rw [hctl]; rfl) (fun _ _ h => by cases h)
  | dropJoin hctl hw =>
    rcases World.dropJoin_spec hw with ⟨-, rfl⟩ | ⟨t, -, -, rfl⟩
    · refine h.goto ?_ ?_ ?_
      all_goals
        try rw [hctl]
        split_ifs <;> first | rfl | (intro _ _ h; cases h)
    · exact h.carry rfl rfl rfl rfl rfl rfl (by rw [hctl]; rfl) (by rw [hctl]; rfl) (fun _ _ h => by cases h)
  | dropTeardown hctl =>
    exact h.carry rfl rfl rfl rfl rfl rfl (by rw [hctl]; rfl) (by rw [hctl]; rfl) (fun _ _ h => by cases h)

theorem beside (hb : Beside w w') : Ledger w' := by
  intro ho
  have hreport := hb.report.completed ho
  have hr := h (hreport ▸ ho)
  refine ⟨?_, ?_, ?_, ?_, ?_, fun caller result hc => ?_⟩
  · rw [hreport, hb.next, hb.ctl]
    exact hr.length
  · rw [hreport, World.steps, hb.setup]
    exact hr.events
  · rw [hreport, hb.ctl, hb.next]
    exact hr.observed
  · rw [hreport]
    exact hr.observations
  · rw [hb.ctl, hb.observed]
    exact hr.uncancelled
  · obtain ⟨c, hobserved, himp⟩ := hr.judging caller result (hb.ctl ▸ hc)
    exact ⟨c, hb.observed.trans hobserved, fun hc => hb.cancelled (himp hc)⟩

end Ledger

theorem ledger {w : World} (h : execution.Reachable w) : Ledger w := by
  refine h.invariant (fun w ⟨_, _, _, _, hw⟩ _ => ?_) fun w a w' hr hs hw => ?_
  · subst hw
    exact ⟨rfl, by simp [World.new, World.report, Report.new], rfl,
      by simp [World.new, World.report, Report.new], nofun, nofun⟩
  · rcases World.step_move hw with hw | hw
    · exact hs.controlMove hr hw
    · exact hs.beside hw.beside

end MirrorRust
