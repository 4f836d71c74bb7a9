import MirrorRust.Execution.World
import MirrorRust.Execution.Regions
import MirrorRust.Admission

/-! Every step of an execution is a move of the controller or a move of a worker. The
invariants are shown move by move. -/
namespace MirrorRust

/-- A region of the controller, a callback that it waits for, or a call of the owner. -/
inductive ControlMove (w : World) : Action → World → Prop
  | enter {inCallback} (h : w.ctl = .entering) : ControlMove w (.enter inCallback) (w.enter inCallback)
  | create {result} (h : w.ctl = .creating) : ControlMove w (.create result) (w.create result)
  | spawn {i result} (h : w.ctl = .spawning i) : ControlMove w (.spawn result) (w.spawn i result)
  | startWait {expired} (h : w.ctl = .startWait) : ControlMove w (.control expired) (w.startWait expired)
  | observe {caller expired} (h : w.ctl = .observing caller) :
      ControlMove w (.control expired) (w.observe caller)
  | observer {caller result} (h : w.ctl = .callback caller) :
      ControlMove w (.observer result) (w.observer caller result)
  | judge {caller result expired} (h : w.ctl = .judging caller result) :
      ControlMove w (.control expired) (w.judge caller result expired)
  | outcomeCheck {caller expired} (h : w.ctl = .outcomeCheck caller) :
      ControlMove w (.control expired) (w.outcomeCheck caller)
  | wait {i requested expired} (h : w.ctl = .waiting i requested) :
      ControlMove w (.control expired) (w.wait i requested expired)
  | arrival {i requested expired} (h : w.ctl = .arrived i requested) :
      ControlMove w (.control expired) (w.arrival i requested)
  | join {i expired w'} (h : w.ctl = .joining i) (hw : w.join i = some w') :
      ControlMove w (.control expired) w'
  | joinFailed {expired} (h : w.ctl = .joinFailed) :
      ControlMove w (.control expired)
        ((w.fail .applicationFailed "worker exit panicked").goto .checkArrival)
  | checkArrival {expired} (h : w.ctl = .checkArrival) : ControlMove w (.control expired) w.checkArrival
  | complete {expired} (h : w.ctl = .completing) : ControlMove w (.control expired) w.complete
  | clean {expired} (h : w.ctl = .cleaning) : ControlMove w (.control expired) w.clean
  | drain {expired} (h : w.ctl = .draining) : ControlMove w (.control expired) (w.drain expired)
  | reap {i expired} (h : w.ctl = .reaping i) : ControlMove w (.control expired) (w.reap i)
  | tear {result} (h : w.ctl = .tearing) :
      ControlMove w (.teardown result)
        (w.teardown result (.recording (SharedState.teardownError result)))
  | record {e expired} (h : w.ctl = .recording e) : ControlMove w (.control expired) (w.record e)
  | advance {requested expired} (h : w.ctl = .idle) :
      ControlMove w (.advance requested expired) (w.advance requested expired)
  | finish (h : w.ctl = .idle) : ControlMove w .finish w.finish
  | cleanup {timeout} (h : w.ctl = .idle) : ControlMove w (.cleanup timeout) (w.callCleanup timeout)
  | foreignCall (h : w.ctl = .idle) : ControlMove w .foreignCall w
  | drop (h : w.ctl = .idle) : ControlMove w .drop w.drop
  | dropJoin {i expired w'} (h : w.ctl = .dropping i) (hw : w.dropJoin i = some w') :
      ControlMove w (.control expired) w'
  | dropTeardown {result} (h : w.ctl = .dropTeardown) :
      ControlMove w (.teardown result) (w.teardown result .dropped)

/-- A region of a worker thread, or a step of its function; the flag is set from outside. -/
inductive WorkerMove (w : World) : Action → World → Prop
  | cancel : WorkerMove w .cancel { w with cancelled := true }
  | startWorker {i t} (ht : w.threads[i]? = some t) (hpc : t.pc = .starting)
      (hl : w.locked = false) : WorkerMove w (.start i) (w.startWorker i t)
  | wake {i t w'} (ht : w.threads[i]? = some t) (hl : w.locked = false)
      (hw : w.wake i t = some w') : WorkerMove w (.wake i) w'
  | arrive {thread i checkpoint t w'} (ht : w.threads[i]? = some t) (hl : w.locked = false)
      (hw : w.arrive thread i t checkpoint = some w') : WorkerMove w (.arrive thread i checkpoint) w'
  | returns {i result t} (ht : w.threads[i]? = some t) (hpc : t.pc = .running) :
      WorkerMove w (.returns i result) (w.setPc i (.returned result))
  | settle {i t w'} (ht : w.threads[i]? = some t) (hl : w.locked = false)
      (hw : w.settle i t = some w') : WorkerMove w (.settle i) w'
  | terminate {i panicked t} (ht : w.threads[i]? = some t) (hpc : t.pc = .exiting) :
      WorkerMove w (.terminate i panicked) (w.setPc i (.terminated panicked))

namespace World
variable {w w' : World} {action : Action}

theorem admission_error {inCallback : Bool} {e : Outcome × String}
    (h : w.admission inCallback = .error e) : e.1 ≠ .completed := by
  unfold admission at h
  split_ifs at h
  · cases h
    decide
  · cases h
    decide
  · exact admitSchedule_error h

/-- The checks of the worker set latch a failure or change nothing. -/
theorem checkWorkers_spec (w : World) (workers : List String) :
    w.checkWorkers workers = w ∨
      ∃ s, w.shared.Fails s ∧ w.checkWorkers workers = { w with shared := s } := by
  have hne : Outcome.applicationFailed ≠ .completed := by decide
  unfold checkWorkers
  by_cases hdup : workers.Nodup
  · simp only [hdup, if_true]
    split_ifs
    · exact Or.inr ⟨_, SharedState.fails_fail hne, rfl⟩
    · exact Or.inl rfl
  · have hs : w.shared.Fails (w.fail .applicationFailed "duplicate worker").shared :=
      SharedState.fails_fail hne
    simp only [hdup, if_false]
    split_ifs
    · exact Or.inr ⟨_, hs, congrArg (fun s => { w with shared := s }) hs.fail⟩
    · exact Or.inr ⟨_, hs, rfl⟩

@[simp] theorem checkWorkers_ctl (w : World) (workers : List String) :
    (w.checkWorkers workers).ctl = w.ctl := by
  rcases w.checkWorkers_spec workers with heq | ⟨s, -, heq⟩
  · rw [heq]
  · rw [heq]

theorem control_move {expired : Bool} (hw : w.control expired = some w') :
    ControlMove w (.control expired) w' := by
  unfold World.control at hw
  split at hw
  case h_1 h => cases hw; exact .startWait h
  case h_2 h => cases hw; exact .observe h
  case h_3 h => cases hw; exact .judge h
  case h_4 h => cases hw; exact .outcomeCheck h
  case h_5 h => cases hw; exact .wait h
  case h_6 h => cases hw; exact .arrival h
  case h_7 h => exact .join h hw
  case h_8 h => cases hw; exact .joinFailed h
  case h_9 h => cases hw; exact .checkArrival h
  case h_10 h => cases hw; exact .complete h
  case h_11 h => cases hw; exact .clean h
  case h_12 h => cases hw; exact .drain h
  case h_13 h => cases hw; exact .reap h
  case h_14 h => cases hw; exact .record h
  case h_15 h => exact .dropJoin h hw
  case h_16 => cases hw

theorem worker_move {i : ℕ} (hi : action.worker? = some i) (hw : w.step action = some w') :
    WorkerMove w action w' := by
  have hw : (w.threads[i]?.bind fun t => w.worker i t action) = some w' := by
    cases action <;> cases hi <;> exact hw
  obtain ⟨t, ht, hw⟩ := Option.bind_eq_some_iff.mp hw
  unfold World.worker at hw
  split at hw
  case h_7 => cases hw
  all_goals obtain rfl := Option.some.inj hi
  · obtain ⟨⟨hpc, hl⟩, hw⟩ := Option.ite_none_right_eq_some.mp hw
    cases hw
    exact .startWorker ht hpc (by simpa using hl)
  · obtain ⟨hl, hw⟩ := Option.ite_none_left_eq_some.mp hw
    exact .wake ht (by simpa using hl) hw
  · obtain ⟨hl, hw⟩ := Option.ite_none_left_eq_some.mp hw
    exact .arrive ht (by simpa using hl) hw
  · obtain ⟨hpc, hw⟩ := Option.ite_none_right_eq_some.mp hw
    cases hw
    exact .returns ht hpc
  · obtain ⟨hl, hw⟩ := Option.ite_none_left_eq_some.mp hw
    exact .settle ht (by simpa using hl) hw
  · obtain ⟨hpc, hw⟩ := Option.ite_none_right_eq_some.mp hw
    cases hw
    exact .terminate ht hpc

theorem step_move (hw : w.step action = some w') :
    ControlMove w action w' ∨ WorkerMove w action w' := by
  cases hi : action.worker? with
  | some i => exact Or.inr (worker_move hi hw)
  | none =>
    cases action with
    | cancel =>
      cases hw
      exact Or.inr .cancel
    | enter inCallback =>
      obtain ⟨hctl, hw⟩ := Option.ite_none_right_eq_some.mp hw
      cases hw
      exact Or.inl (.enter hctl)
    | create result =>
      obtain ⟨hctl, hw⟩ := Option.ite_none_right_eq_some.mp hw
      cases hw
      exact Or.inl (.create hctl)
    | spawn result =>
      simp only [World.step] at hw
      split at hw <;> cases hw
      exact Or.inl (.spawn ‹_›)
    | control expired => exact Or.inl (control_move hw)
    | observer result =>
      simp only [World.step] at hw
      split at hw <;> cases hw
      exact Or.inl (.observer ‹_›)
    | teardown result =>
      simp only [World.step] at hw
      split at hw <;> cases hw
      · exact Or.inl (.tear ‹_›)
      · exact Or.inl (.dropTeardown ‹_›)
    | start _ | wake _ | arrive _ _ _ | returns _ _ | settle _ | terminate _ _ => cases hi
    | advance requested expired =>
      obtain ⟨hctl, hw⟩ := Option.ite_none_right_eq_some.mp hw
      cases hw
      exact Or.inl (.advance hctl)
    | finish =>
      obtain ⟨hctl, hw⟩ := Option.ite_none_right_eq_some.mp hw
      cases hw
      exact Or.inl (.finish hctl)
    | cleanup timeout =>
      obtain ⟨hctl, hw⟩ := Option.ite_none_right_eq_some.mp hw
      cases hw
      exact Or.inl (.cleanup hctl)
    | drop =>
      obtain ⟨hctl, hw⟩ := Option.ite_none_right_eq_some.mp hw
      cases hw
      exact Or.inl (.drop hctl)
    | foreignCall =>
      obtain ⟨hctl, hw⟩ := Option.ite_none_right_eq_some.mp hw
      cases hw
      exact Or.inl (.foreignCall hctl)

end World
end MirrorRust
