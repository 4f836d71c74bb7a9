import MirrorRust.Execution.Progress

/-! A schedule counts as completed only after its last interval, with every thread joined, so
that nothing can fail from then on. -/
namespace MirrorRust

namespace Ctl

/-- The controller closes the execution or drops it. -/
def wrapping : Ctl → Bool
  | .cleaning | .draining | .reaping _ | .tearing | .recording _ => true
  | .dropping _ | .dropTeardown | .dropped => true
  | _ => false

end Ctl

structure Completion (w : World) : Prop where
  completing : w.ctl = .completing → w.report.outcome = .completed ∧ w.next = w.steps.length
  completed : w.report.scheduleCompleted = true →
    w.report.outcome = .completed ∧ w.next = w.steps.length ∧
      (w.ctl.wrapping = true ∨ (w.ctl = .idle ∧ w.closed = true))

namespace Completion
variable {w w' : World} (h : Completion w)

/-- The schedule is not complete, and the controller is not about to say so. -/
theorem pending (hs : w'.report.scheduleCompleted = false) (hc : w'.ctl ≠ .completing) :
    Completion w' :=
  ⟨fun hctl => absurd hctl hc, by simp [hs]⟩

/-- What latches a failure cannot have been completed. -/
theorem fails {s : SharedState} {c : Ctl} (hs : w.shared.Fails s)
    (hn : w.report.scheduleCompleted = false) (hc : c ≠ .completing) :
    Completion ({ w with shared := s }.goto c) :=
  pending (hs.scheduleCompleted.trans hn) hc

theorem callCleanup {timeout : Duration} (hn : w.report.scheduleCompleted = false) :
    Completion (w.callCleanup timeout) := by
  rcases w.callCleanup_spec timeout with ⟨-, heq⟩ | ⟨-, heq⟩ <;> rw [heq]
  · exact pending hn nofun
  · exact pending hn nofun

include h

theorem incomplete (hc : w.ctl.wrapping = false) (hi : w.ctl ≠ .idle) :
    w.report.scheduleCompleted = false := by
  by_contra hs
  rcases (h.completed (by simpa using hs)).2.2 with hw | ⟨hw, -⟩
  · simp [hw] at hc
  · exact hi hw

theorem same (ho : w'.report.outcome = w.report.outcome)
    (hs : w'.report.scheduleCompleted = w.report.scheduleCompleted) (hnext : w'.next = w.next)
    (hsetup : w'.setup = w.setup) (hc : w'.ctl ≠ .completing)
    (hctl : w.report.scheduleCompleted = true →
      w'.ctl.wrapping = true ∨ (w'.ctl = .idle ∧ w'.closed = true)) : Completion w' := by
  refine ⟨fun hcompleting => absurd hcompleting hc, fun hcompleted => ?_⟩
  rw [hs] at hcompleted
  obtain ⟨houtcome, hlast, -⟩ := h.completed hcompleted
  refine ⟨ho.trans houtcome, ?_, hctl hcompleted⟩
  rw [hnext, hlast, World.steps, World.steps, hsetup]

theorem complete (hctl : w.ctl = .completing) (hadmitted : w.Admitted) : Completion w.complete := by
  obtain ⟨houtcome, hlast⟩ := h.completing hctl
  rcases World.callCleanup_spec { w with shared := { w.shared with
      report := { w.report with scheduleCompleted := true } } } w.setup.policy.cleanupTimeout with
    ⟨hclosed, heq⟩ | ⟨-, heq⟩
  · rw [hadmitted.cleanupBudget] at hclosed
    rw [World.complete, heq]
    exact ⟨nofun, fun _ => ⟨houtcome, hlast, Or.inr ⟨rfl, hclosed.resolve_left nofun⟩⟩⟩
  · rw [World.complete, heq]
    exact ⟨nofun, fun _ => ⟨houtcome, hlast, Or.inl rfl⟩⟩

theorem clean : Completion w.clean := by
  rw [World.clean]
  rcases w.shared.beginCleanup_spec with ⟨hn, hs⟩ | ⟨-, heq⟩
  · exact fails hs hn (fun h => by cases h)
  · rw [heq]
    exact h.same rfl rfl rfl rfl (fun h => by cases h) fun _ => Or.inl rfl

theorem reap (i : ℕ)
    (hjoined : w.report.scheduleCompleted = true → ∀ t ∈ w.threads, t.handle = false) :
    Completion (w.reap i) := by
  rw [World.reap]
  split_ifs with hi hremaining
  · exact h.same rfl rfl rfl rfl (fun h => by cases h) fun _ => Or.inl rfl
  · exact h.same rfl rfl rfl rfl (fun h => by cases h) fun hs =>
      absurd (World.remaining_eq_nil (hjoined hs)) hremaining
  · exact h.same rfl rfl rfl rfl (fun h => by cases h) fun _ => Or.inl rfl
  · exact h.same rfl rfl rfl rfl (fun h => by cases h) fun _ => Or.inl rfl

theorem open_incomplete (hctl : w.ctl = .idle) (hclosed : w.closed = false) :
    w.report.scheduleCompleted = false := by
  by_contra hs
  rcases (h.completed (by simpa using hs)).2.2 with hw | ⟨-, hw⟩
  · simp [hctl, Ctl.wrapping] at hw
  · simp [hclosed] at hw

theorem advance (hctl : w.ctl = .idle) (requested : Step) (expired : Bool) :
    Completion (w.advance requested expired) := by
  rw [World.advance]
  split_ifs with hclosed
  · exact h
  have hn : w.report.scheduleCompleted = false :=
    h.open_incomplete hctl (by simpa using (not_or.mp hclosed).1)
  rcases w.shared.permit_spec w.cancelled expired w.steps w.next requested with
    ⟨s, hs, heq⟩ | ⟨i, a, -, -, -, -, heq⟩ <;> rw [heq]
  · exact fails hs hn (fun h => by cases h)
  · by_cases hstop : w.shared.stopping = true
    · rw [if_pos hstop]
      exact pending hn (fun h => by cases h)
    · rw [if_neg hstop]
      exact pending hn (fun h => by cases h)

theorem finish (hctl : w.ctl = .idle) : Completion w.finish := by
  rcases w.finish_spec with ⟨-, heq⟩ | ⟨hclosed, s, hs, heq⟩ <;> rw [heq]
  · exact h
  · refine callCleanup ?_
    have hn := h.open_incomplete hctl hclosed
    rcases hs with rfl | hs
    · exact hn
    · exact hs.scheduleCompleted.trans hn

theorem idleCleanup (hctl : w.ctl = .idle) (timeout : Duration) :
    Completion (w.callCleanup timeout) := by
  by_cases hclosed : w.closed = true
  · rw [World.callCleanup, if_pos (Or.inr hclosed)]
    exact h.same rfl rfl rfl rfl (fun h => by cases h) fun _ => Or.inr ⟨rfl, hclosed⟩
  · exact callCleanup (h.open_incomplete hctl (by simpa using hclosed))

theorem controlMove (hr : execution.Reachable w) {action : Action}
    (hw : ControlMove w action w') : Completion w' := by
  have hn := h.incomplete
  cases hw with
  | enter hctl =>
    unfold World.enter
    split
    case h_1 =>
      refine pending ?_ (fun h => by cases h)
      exact SharedState.fail_scheduleCompleted.trans (hn (by rw [hctl]; rfl) (by simp [hctl]))
    case h_2 => exact pending (hn (by rw [hctl]; rfl) (by simp [hctl])) (fun h => by cases h)
  | @create result hctl =>
    have hn := hn (by rw [hctl]; rfl) (by simp [hctl])
    cases result with
    | error e => exact pending (SharedState.fail_scheduleCompleted.trans hn) (fun h => by cases h)
    | panic => exact pending (SharedState.fail_scheduleCompleted.trans hn) (fun h => by cases h)
    | program workers =>
      rw [World.create]
      rcases w.acquire_spec workers with ⟨s, rfl | hs, -, heq⟩ | ⟨-, heq⟩ <;> rw [heq]
      · exact callCleanup hn
      · exact callCleanup (hs.scheduleCompleted.trans hn)
      · refine pending hn ?_
        simp only [World.declare, World.spawnFrom, World.goto]
        split_ifs <;> (intro h; cases h)
  | @spawn i result hctl =>
    have hn := hn (by rw [hctl]; rfl) (by simp [hctl])
    cases result with
    | error e => exact pending (SharedState.fail_scheduleCompleted.trans hn) (fun h => by cases h)
    | ok thread =>
      refine pending hn ?_
      simp only [World.spawn, World.spawnFrom, World.goto]
      split_ifs <;> (intro h; cases h)
  | startWait hctl =>
    have hn := hn (by rw [hctl]; rfl) (by simp [hctl])
    rcases w.startWait_spec _ with ⟨-, heq⟩ | ⟨-, heq⟩ | ⟨s, hs, heq⟩ | heq <;> rw [heq]
    · exact pending hn (fun h => by cases h)
    · exact pending hn (fun h => by cases h)
    · exact fails hs hn (fun h => by cases h)
    · exact h
  | observe hctl =>
    have hn := hn (by rw [hctl]; rfl) (by simp [hctl])
    rw [World.observe]
    split_ifs
    · exact pending hn (fun h => by cases h)
    · exact fails (SharedState.fails_fail (by decide)) hn (fun h => by cases h)
    · exact pending hn (fun h => by cases h)
  | observer hctl => exact pending (hn (by rw [hctl]; rfl) (by simp [hctl])) (fun h => by cases h)
  | judge hctl =>
    have hn := hn (by rw [hctl]; rfl) (by simp [hctl])
    rw [World.judge]
    rcases w.shared.judge_spec w.setup.serde w.cancelled _ w.next _ with hs | ⟨-, value, -, heq⟩
    · exact fails hs hn (fun h => by cases h)
    · rw [heq]
      exact pending hn (fun h => by cases h)
  | outcomeCheck hctl =>
    have hn := hn (by rw [hctl]; rfl) (by simp [hctl])
    rw [World.outcomeCheck]
    split_ifs with ho hlast
    · exact callCleanup hn
    · exact ⟨fun _ => ⟨not_not.mp ho, hlast.2⟩, fun hs => by cases hn.symm.trans hs⟩
    · exact pending hn (fun h => by cases h)
  | wait hctl =>
    have hn := hn (by rw [hctl]; rfl) (by simp [hctl])
    rcases w.wait_spec _ _ _ with ⟨-, heq⟩ | ⟨-, heq⟩ | ⟨s, hs, heq⟩ | heq <;> rw [heq]
    · exact pending hn (fun h => by cases h)
    · exact pending hn (fun h => by cases h)
    · exact fails hs hn (fun h => by cases h)
    · exact h
  | @arrival i requested _ hctl =>
    obtain ⟨-, a, ha, -⟩ := (licensed hr).target i requested (Or.inr hctl)
    obtain ⟨s, heq, hs⟩ := World.arrival_some requested ha
    have hn := hn (by rw [hctl]; rfl) (by simp [hctl])
    rw [heq]
    refine pending ?_ (by rw [World.afterArrival]; split_ifs <;> (intro h; cases h))
    rcases hs with hs | hs | ⟨-, rfl⟩
    · exact hs.scheduleCompleted.trans hn
    · exact hs.scheduleCompleted.trans hn
    · exact hn
  | join hctl hw =>
    have hn := hn (by rw [hctl]; rfl) (by simp [hctl])
    rcases World.join_spec hw with ⟨rfl, -⟩ | ⟨t, c, -, -, hc, rfl⟩
    · exact pending hn (fun h => by cases h)
    · exact pending hn (by rcases hc with rfl | rfl <;> (intro h; cases h))
  | joinFailed hctl =>
    exact fails (SharedState.fails_fail (by decide)) (hn (by rw [hctl]; rfl) (by simp [hctl])) (fun h => by cases h)
  | checkArrival hctl =>
    have hn := hn (by rw [hctl]; rfl) (by simp [hctl])
    rw [World.checkArrival]
    split_ifs
    · exact pending hn (fun h => by cases h)
    · exact pending hn (fun h => by cases h)
  | complete hctl =>
    refine h.complete hctl (admitted_of_working hr (by simp [hctl]) ?_)
    exact Or.inl (h.completing hctl).1
  | clean => exact h.clean
  | drain hctl =>
    rw [World.drain]
    split_ifs
    · exact h
    · exact h.same rfl rfl rfl rfl (fun h => by cases h) fun _ => Or.inl rfl
  | reap hctl =>
    refine h.reap _ fun hs => ?_
    obtain ⟨houtcome, hlast, -⟩ := h.completed hs
    exact joined_of_last hr (admitted_of_working hr (by simp [hctl]) (Or.inl houtcome)) hlast
  | tear => exact h.same rfl rfl rfl rfl (fun h => by cases h) fun _ => Or.inl rfl
  | record => exact h.same rfl rfl rfl rfl (fun h => by cases h) fun _ => Or.inr ⟨rfl, rfl⟩
  | advance hctl => exact h.advance hctl _ _
  | finish hctl => exact h.finish hctl
  | cleanup hctl => exact h.idleCleanup hctl _
  | foreignCall => exact h
  | drop => exact h.same rfl rfl rfl rfl (fun h => by cases h) fun _ => Or.inl rfl
  | dropJoin _ hw =>
    rcases World.dropJoin_spec hw with ⟨-, rfl⟩ | ⟨t, -, -, rfl⟩
    · refine h.same rfl rfl rfl rfl ?_ fun _ => Or.inl ?_
      · split_ifs <;> (intro h; cases h)
      · split_ifs <;> rfl
    · exact h.same rfl rfl rfl rfl (fun h => by cases h) fun _ => Or.inl rfl
  | dropTeardown => exact h.same rfl rfl rfl rfl (fun h => by cases h) fun _ => Or.inl rfl

/-- When the schedule is complete, every thread has ended and no worker can move. -/
theorem beside (hr : execution.Reachable w) (hb : Beside w w') : Completion w' := by
  have hquiet : w.report.outcome = .completed → w.next = w.steps.length → w.ctl ≠ .entering →
      w'.shared = w.shared := by
    intro houtcome hlast hctl
    have hjoined := joined_of_last hr (admitted_of_working hr hctl (Or.inl houtcome)) hlast
    exact hb.ended fun t ht => (coordinated hr).ended_of_joined ht (hjoined t ht)
  refine ⟨fun hctl => ?_, fun hs => ?_⟩
  · rw [hb.ctl] at hctl
    obtain ⟨houtcome, hlast⟩ := h.completing hctl
    have hshared := hquiet houtcome hlast (by simp [hctl])
    refine ⟨?_, ?_⟩
    · rw [World.report, hshared]
      exact houtcome
    · rw [hb.next, hlast, World.steps, World.steps, hb.setup]
  · rw [hb.report.scheduleCompleted] at hs
    obtain ⟨houtcome, hlast, hctl⟩ := h.completed hs
    have hshared : w'.shared = w.shared := by
      refine hquiet houtcome hlast fun he => ?_
      simp [he, Ctl.wrapping] at hctl
    refine ⟨?_, ?_, ?_⟩
    · rw [World.report, hshared]
      exact houtcome
    · rw [hb.next, hlast, World.steps, World.steps, hb.setup]
    · rwa [hb.ctl, hb.closed]

end Completion

theorem completion {w : World} (h : execution.Reachable w) : Completion w := by
  refine h.invariant (fun w ⟨_, _, _, _, hw⟩ => ?_) fun w a w' hr hs hw => ?_
  · subst hw
    exact Completion.pending rfl nofun
  · rcases World.step_move hw with hw | hw
    · exact hs.controlMove hr hw
    · exact hs.beside hr hw.beside

end MirrorRust
