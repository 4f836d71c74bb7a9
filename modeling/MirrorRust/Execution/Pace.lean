import MirrorRust.Execution.Evidence

/-! How the events of an execution and the places of its actors change in one step, as long as
nothing stops it. -/
namespace MirrorRust

/-- The actor of the interval that is open; no other actor moves. -/
def Ctl.moving : Ctl → Option ℕ
  | .waiting i _ | .arrived i _ => some i
  | _ => none

def Ctl.early : Ctl → Bool
  | .entering | .creating | .spawning _ | .startWait => true
  | .observing c | .callback c | .judging c _ | .outcomeCheck c => c = .start
  | _ => false

/-- How far the controller has come with the schedule. -/
structure Pace where
  stopping : Bool
  events : List Json
  next : ℕ
  pending : ℕ
  moving : Option ℕ

def World.pace (w : World) : Pace :=
  { stopping := w.shared.stopping
    events := w.report.events
    next := w.next
    pending := w.ctl.pending
    moving := w.ctl.moving }

/-- Every actor with the checkpoint that it is known to stand at. -/
def SharedState.places (s : SharedState) : List (ActorDeclaration × String) :=
  s.actors.map fun a => (a.declaration, a.checkpoint)

theorem SharedState.Fails.places {s s' : SharedState} (h : s.Fails s') : s'.places = s.places :=
  congrArg (List.map fun a : Actor => (a.declaration, a.checkpoint)) h.actors

theorem SharedState.places_modifyActor (s : SharedState) (i : ℕ) {f : Actor → Actor}
    (hf : ∀ a, ((f a).declaration, (f a).checkpoint) = (a.declaration, a.checkpoint)) :
    (s.modifyActor i f).places = s.places := by
  refine List.ext_getElem? fun j => ?_
  simp only [places, modifyActor, List.getElem?_map, List.getElem?_modify]
  by_cases hij : i = j
  · cases s.actors[j]? <;> simp [hij, hf]
  · cases s.actors[j]? <;> simp [hij]

theorem SharedState.places_other (s : SharedState) {i j : ℕ} (f : Actor → Actor) (hj : j ≠ i) :
    (s.modifyActor i f).places[j]? = s.places[j]? := by
  simp only [places, modifyActor, List.getElem?_map, List.getElem?_modify]
  cases s.actors[j]? <;> simp [hj.symm]

/-- One step of an execution as the schedule sees it. -/
inductive Paced (w w' : World) : Prop
  | keeps (hpace : w'.pace = w.pace) (hplaces : w'.shared.places = w.shared.places)
  | halts (hstop : w'.shared.stopping = true)
      (hpace : w'.report.outcome = .completed → w'.pace = { w.pace with stopping := true })
  | declares (hctl : w.ctl = .creating) (hpace : w'.pace = w.pace)
      (hplaces : w'.shared.places = w.setup.adapter.actors.map fun d => (d, "$start"))
  | permits {i a r} (ha : w.shared.actors[i]? = some a) (hname : a.declaration.actor = r.actor)
      (hstep : w.steps[w.next]? = some r) (hctl : w.ctl = .idle)
      (hlive : w.shared.stopping = false)
      (hpace : w'.pace = { w.pace with
        events := w.report.events ++ [w.shared.eventRow "permit" w.next a]
        pending := 1
        moving := some i })
      (hplaces : w'.shared.places = w.shared.places)
  | arrives {i a r} (ha : w.shared.actors[i]? = some a) (hname : a.declaration.actor = r.actor)
      (hstep : w.steps[w.next]? = some r) (hctl : w.ctl = .arrived i r)
      (hcheckpoint : a.checkpoint = r.checkpoint)
      (hpace : w'.pace = { w.pace with
        events := w.report.events ++ [w.shared.eventRow "arrival" w.next a]
        pending := 2
        moving := none })
      (hplaces : w'.shared.places = w.shared.places)
  | ends (hctl : w.ctl = .checkArrival)
      (hpace : w'.pace = { w.pace with next := w.next + 1, pending := 0 })
      (hplaces : w'.shared.places = w.shared.places)
  | moves {i} (hmoving : w.ctl.moving = some i) (hpace : w'.pace = w.pace)
      (hplaces : ∀ j ≠ i, w'.shared.places[j]? = w.shared.places[j]?)

namespace Paced
variable {w w' : World} {c : Ctl}

/-- The controller goes on between two intervals. -/
theorem goto (hpending : c.pending = w.ctl.pending) (hmoving : c.moving = w.ctl.moving) :
    Paced w (w.goto c) :=
  .keeps (by simp only [World.pace, World.goto, hpending, hmoving]; rfl) rfl

theorem failed {s : SharedState} (hs : w.shared.Fails s) (hw : w'.shared = s) : Paced w w' :=
  .halts (hw ▸ hs.stopping) fun ho => absurd ho (by rw [World.report, hw]; exact hs.outcome)

theorem stopped (hstop : w'.shared.stopping = true) (ho : w'.report.outcome ≠ .completed) :
    Paced w w' := .halts hstop fun h => absurd h ho

theorem callCleanup (hpending : w.ctl.pending = 0) (hmoving : w.ctl.moving = none)
    (timeout : Duration) : Paced w (w.callCleanup timeout) := by
  rcases w.callCleanup_spec timeout with ⟨-, heq⟩ | ⟨-, heq⟩ <;> rw [heq]
  · exact goto hpending.symm hmoving.symm
  · exact goto hpending.symm hmoving.symm

theorem failedCleanup {s : SharedState} (hs : w.shared.Fails s) {u : World} (hu : u.shared = s)
    (timeout : Duration) : Paced w (u.callCleanup timeout) := by
  rcases u.callCleanup_spec timeout with ⟨-, heq⟩ | ⟨-, heq⟩ <;> rw [heq]
  · exact failed hs hu
  · exact failed hs hu

theorem acquire (hr : execution.Reachable w) (hctl : w.ctl = .creating) (workers : List String) :
    Paced w (w.acquire workers) := by
  rcases w.acquire_spec workers with ⟨s, hs, hfailed, heq⟩ | ⟨-, heq⟩ <;> rw [heq]
  · rcases hs with rfl | hs
    · have hstop := (coordinated hr).failed hfailed
      rcases World.callCleanup_spec { w with acquired := true } w.setup.policy.cleanupTimeout with
        ⟨-, heq⟩ | ⟨-, heq⟩
      · exact stopped (heq ▸ hstop) (heq ▸ hfailed)
      · exact stopped (heq ▸ hstop) (heq ▸ hfailed)
    · exact failedCleanup hs rfl _
  · refine .declares hctl ?_ ?_
    · simp only [World.declare, World.spawnFrom, World.goto, World.pace, hctl]
      split_ifs <;> rfl
    · simp [World.declare, World.spawnFrom, World.goto, SharedState.places, World.newActor,
        Function.comp_def]

theorem arrival (hr : execution.Reachable w) {i : ℕ} {requested : Step}
    (hctl : w.ctl = .arrived i requested) : Paced w (w.arrival i requested) := by
  obtain ⟨hstep, a, ha, hname⟩ := (licensed hr).target i requested (Or.inr hctl)
  obtain ⟨s, heq, hs⟩ := World.arrival_some requested ha
  rw [heq]
  rcases hs with hs | hs | ⟨hcheckpoint, rfl⟩
  · exact failed hs rfl
  · exact stopped hs.stopping hs.outcome
  · refine .arrives ha hname hstep hctl hcheckpoint ?_ rfl
    simp only [World.goto, World.afterArrival, World.pace, World.report, SharedState.pushEvent]
    split_ifs <;> rfl

theorem advance (hr : execution.Reachable w) (hctl : w.ctl = .idle) (requested : Step)
    (expired : Bool) : Paced w (w.advance requested expired) := by
  rw [World.advance]
  split_ifs with hopen
  · exact .keeps rfl rfl
  rcases w.shared.permit_spec w.cancelled expired w.steps w.next requested with
    ⟨s, hs, heq⟩ | ⟨i, a, ha, -, hname, hstep, heq⟩ <;> rw [heq]
  · exact failed hs rfl
  by_cases hstop : w.shared.stopping = true
  · have hclosed : w.closed = false := by simpa using (not_or.mp hopen).1
    have hfailed := Ledger.failed_of_stopping hr hstop (by rw [hctl]; rfl) (Or.inr hclosed)
    rw [if_pos hstop]
    exact stopped hstop hfailed
  · rw [if_neg hstop]
    exact .permits ha hname hstep hctl (by simpa using hstop) rfl (SharedState.places_modifyActor _ i fun _ => rfl)

theorem controlMove (hr : execution.Reachable w) {action : Action}
    (hw : ControlMove w action w') : Paced w w' := by
  cases hw with
  | enter hctl =>
    unfold World.enter
    split
    case h_1 kind message herror =>
      exact failed (SharedState.fails_fail (World.admission_error herror)) rfl
    case h_2 => exact goto (by rw [hctl]; rfl) (by rw [hctl]; rfl)
  | @create result hctl =>
    cases result with
    | error e => exact failed (SharedState.fails_fail (by decide)) rfl
    | panic => exact failed (SharedState.fails_fail (by decide)) rfl
    | program workers => exact acquire hr hctl workers
  | @spawn i result hctl =>
    cases result with
    | error e => exact failed (SharedState.fails_fail (by decide)) rfl
    | ok thread =>
      refine .keeps ?_ rfl
      simp only [World.spawn, World.spawnFrom, World.goto, World.pace, hctl]
      split_ifs <;> rfl
  | startWait hctl =>
    rcases w.startWait_spec _ with ⟨-, heq⟩ | ⟨-, heq⟩ | ⟨s, hs, heq⟩ | heq <;> rw [heq]
    · exact goto (by rw [hctl]; rfl) (by rw [hctl]; rfl)
    · exact goto (by rw [hctl]; rfl) (by rw [hctl]; rfl)
    · exact failed hs rfl
    · exact .keeps rfl rfl
  | observe hctl =>
    rw [World.observe]
    split_ifs with hs
    · exact goto (by rw [hctl]; rfl) (by rw [hctl]; rfl)
    · exact failed (SharedState.fails_fail (by decide)) rfl
    · exact goto (by rw [hctl]; rfl) (by rw [hctl]; rfl)
  | @observer caller result hctl =>
    exact .keeps (by simp only [World.pace, World.observer, World.goto, hctl]; rfl) rfl
  | @judge caller result expired hctl =>
    rw [World.judge]
    rcases w.shared.judge_spec w.setup.serde w.cancelled expired w.next result with hs | ⟨-, value, -, heq⟩
    · exact failed hs rfl
    · rw [heq]
      exact .keeps (by simp only [World.pace, World.goto, hctl]; rfl) rfl
  | @outcomeCheck caller _ hctl =>
    rw [World.outcomeCheck]
    split_ifs
    · exact callCleanup (by rw [hctl]; rfl) (by rw [hctl]; rfl) _
    · exact goto (by rw [hctl]; rfl) (by rw [hctl]; rfl)
    · exact goto (by rw [hctl]; rfl) (by rw [hctl]; rfl)
  | wait hctl =>
    rcases w.wait_spec _ _ _ with ⟨-, heq⟩ | ⟨hs, heq⟩ | ⟨s, hs, heq⟩ | heq <;> rw [heq]
    · exact goto (by rw [hctl]; rfl) (by rw [hctl]; rfl)
    · have hfailed := Ledger.failed_of_stopping hr hs (by rw [hctl]; rfl) (Or.inl (by simp [hctl]))
      exact stopped hs hfailed
    · exact failed hs rfl
    · exact .keeps rfl rfl
  | arrival hctl => exact arrival hr hctl
  | join hctl hw =>
    rcases World.join_spec hw with ⟨rfl, -⟩ | ⟨t, c, -, -, hc, rfl⟩
    · exact goto (by rw [hctl]; rfl) (by rw [hctl]; rfl)
    · refine .keeps ?_ rfl
      rcases hc with rfl | rfl
      · simp only [World.pace, World.goto, hctl]
        rfl
      · simp only [World.pace, World.goto, hctl]
        rfl
  | joinFailed => exact failed (SharedState.fails_fail (by decide)) rfl
  | checkArrival hctl =>
    rw [World.checkArrival]
    split_ifs with ho
    · exact .ends hctl (by simp only [World.pace, World.goto, hctl]; rfl) rfl
    · exact stopped ((coordinated hr).failed ho) ho
  | complete hctl =>
    have hdone := callCleanup (w := { w with shared := { w.shared with
        report := { w.report with scheduleCompleted := true } } }) (by simp only [hctl]; rfl)
      (by simp only [hctl]; rfl) w.setup.policy.cleanupTimeout
    cases hdone with
    | keeps hpace hplaces => exact .keeps hpace hplaces
    | halts hstop hpace => exact .halts hstop hpace
    | declares hc => simp [hctl] at hc
    | permits _ _ _ hc => simp [hctl] at hc
    | arrives _ _ _ hc => simp [hctl] at hc
    | ends hc => simp [hctl] at hc
    | moves hc => simp [hctl, Ctl.moving] at hc
  | clean hctl =>
    rw [World.clean]
    rcases w.shared.beginCleanup_spec with ⟨-, hs⟩ | ⟨-, heq⟩
    · exact failed hs rfl
    · rw [heq]
      exact .halts rfl fun _ => by simp only [World.pace, World.goto, hctl]; rfl
  | drain hctl =>
    rw [World.drain]
    split_ifs
    · exact .keeps rfl rfl
    · exact goto (by rw [hctl]; rfl) (by rw [hctl]; rfl)
  | reap hctl =>
    rw [World.reap]
    split_ifs
    all_goals exact .keeps (by simp only [World.pace, World.goto, hctl]; rfl) rfl
  | tear hctl => exact .keeps (by simp only [World.pace, World.teardown, World.goto, hctl]; rfl) rfl
  | record hctl => exact .keeps (by simp only [World.pace, World.record, World.goto, hctl]; rfl) rfl
  | advance hctl => exact advance hr hctl _ _
  | finish hctl =>
    rcases w.finish_spec with ⟨-, heq⟩ | ⟨-, s, hs, heq⟩ <;> rw [heq]
    · exact .keeps rfl rfl
    · rcases hs with rfl | hs
      · exact callCleanup (by rw [hctl]; rfl) (by rw [hctl]; rfl) _
      · exact failedCleanup hs rfl _
  | cleanup hctl => exact callCleanup (by rw [hctl]; rfl) (by rw [hctl]; rfl) _
  | foreignCall => exact .keeps rfl rfl
  | drop hctl =>
    exact .halts rfl fun _ => by simp only [World.pace, World.drop, World.goto, hctl]; rfl
  | dropJoin hctl hw =>
    rcases World.dropJoin_spec hw with ⟨-, rfl⟩ | ⟨t, -, -, rfl⟩
    · refine goto ?_ ?_
      all_goals
        rw [hctl]
        split_ifs <;> rfl
    · exact .keeps (by simp only [World.pace, World.goto, hctl]; rfl) rfl
  | dropTeardown hctl =>
    exact .keeps (by simp only [World.pace, World.teardown, World.goto, hctl]; rfl) rfl

/-- The actor that moves is the one that has been permitted. -/
theorem live_moving {i : ℕ} {a : Actor} {t : Thread} (h : Live w)
    (ha : w.shared.actors[i]? = some a) (ht : w.threads[i]? = some t) (hrun : a.phase = .running) :
    w.ctl.moving = some i := by
  obtain ⟨requested, hctl⟩ := (h.seat i a t ha ht).running hrun
  rw [hctl]
  rfl

theorem workerMove (hr : execution.Reachable w) {action : Action}
    (hw : WorkerMove w action w') : Paced w w' := by
  cases hw with
  | cancel => exact .keeps rfl rfl
  | startWorker => exact .keeps rfl (SharedState.places_modifyActor _ _ fun _ => rfl)
  | wake _ _ hw =>
    unfold World.wake at hw
    split_ifs at hw <;> cases hw <;> exact .keeps rfl rfl
  | @arrive thread i checkpoint t _ ht _ hw =>
    unfold World.arrive at hw
    split_ifs at hw
    cases ha : w.shared.actors[i]? with
    | none =>
      have heq : w.shared.arrive w.setup.adapter.checkpoints i thread checkpoint =
          (w.shared, false) := by rw [SharedState.arrive, ha]
      rw [heq] at hw
      cases hw
      exact .keeps rfl rfl
    | some a =>
      rcases SharedState.arrive_spec w.setup.adapter.checkpoints thread checkpoint ha with
        ⟨s, hs, heq⟩ | ⟨-, heq⟩ | ⟨-, hrun, hlive, -, heq⟩ <;> rw [heq] at hw <;> cases hw
      · exact failed hs rfl
      · exact .keeps rfl rfl
      · exact .moves (live_moving ((coordinated hr).live hlive) ha ht hrun) rfl
          fun j hj => SharedState.places_other _ _ hj
  | returns => exact .keeps rfl rfl
  | @settle i t _ ht _ hw =>
    unfold World.settle at hw
    split at hw <;> cases hw
    rename_i result hpc
    rcases w.shared.settle_spec i result with heq | ⟨s, hs, heq⟩
    · rw [heq]
      by_cases hstop : w.shared.stopping = true
      · exact .halts hstop fun _ => congrArg (fun b => { w.pace with stopping := b }) hstop
      cases ha : w.shared.actors[i]? with
      | none =>
        refine .keeps rfl ?_
        refine List.ext_getElem? fun j => ?_
        by_cases hj : j = i
        · simp [World.setPc, World.setThread, SharedState.finishActor, SharedState.modifyActor,
            SharedState.places, hj, ha]
        · exact SharedState.places_other _ _ hj
      | some a =>
        have hlive := (coordinated hr).live (by simpa using hstop)
        have hrun := (hlive.seat i a t ha ht).entered (Or.inr ⟨result, hpc⟩)
        exact .moves (live_moving hlive ha ht hrun) rfl fun j hj => SharedState.places_other _ _ hj
    · rw [heq]
      exact stopped hs.stopping hs.outcome
  | terminate => exact .keeps rfl rfl

end Paced

theorem World.step_paced {w w' : World} (hr : execution.Reachable w) {action : Action}
    (hw : w.step action = some w') : Paced w w' :=
  (World.step_move hw).elim (Paced.controlMove hr) (Paced.workerMove hr)

/-! ### The start -/

theorem World.callCleanup_ctl (w : World) (timeout : Duration) :
    (w.callCleanup timeout).ctl = .idle ∨ (w.callCleanup timeout).ctl = .cleaning := by
  rcases w.callCleanup_spec timeout with ⟨-, heq⟩ | ⟨-, heq⟩ <;> rw [heq]
  · exact Or.inl rfl
  · exact Or.inr rfl

theorem ControlMove.early {w w' : World} {action : Action} (hw : ControlMove w action w')
    (he : w'.ctl.early = true) : w.ctl.early = true ∧ w'.next = w.next := by
  have hcleanup : ∀ (u : World) (timeout : Duration), (u.callCleanup timeout).ctl.early = false := by
    intro u timeout
    rcases u.callCleanup_ctl timeout with h | h <;> rw [h] <;> rfl
  cases hw with
  | enter hctl =>
    unfold World.enter
    split <;> simp [World.goto, World.fail, hctl, Ctl.early]
  | @create result hctl =>
    refine ⟨by rw [hctl]; rfl, ?_⟩
    cases result with
    | program workers =>
      rw [World.create] at he ⊢
      rcases w.acquire_spec workers with ⟨s, -, -, heq⟩ | ⟨-, heq⟩ <;> rw [heq] at he ⊢
      · simp [hcleanup] at he
      · rfl
    | error e => rfl
    | panic => rfl
  | @spawn i result hctl =>
    refine ⟨by rw [hctl]; rfl, ?_⟩
    cases result <;> rfl
  | startWait hctl =>
    refine ⟨by rw [hctl]; rfl, ?_⟩
    rcases w.startWait_spec _ with ⟨-, heq⟩ | ⟨-, heq⟩ | ⟨s, -, heq⟩ | heq <;> rw [heq] <;> rfl
  | @observe caller _ hctl =>
    rw [World.observe] at he ⊢
    split_ifs at he ⊢ <;> simp_all [World.goto, World.fail, Ctl.early]
  | observer hctl => simp_all [World.observer, World.goto, Ctl.early]
  | judge hctl => simp_all [World.judge, World.goto, Ctl.early]
  | outcomeCheck hctl =>
    rw [World.outcomeCheck] at he
    split_ifs at he <;> simp_all [World.goto, Ctl.early]
  | wait hctl =>
    rcases w.wait_spec _ _ _ with ⟨-, heq⟩ | ⟨-, heq⟩ | ⟨s, -, heq⟩ | heq <;> rw [heq] at he <;>
      simp_all [World.goto, Ctl.early]
  | arrival hctl =>
    simp only [World.arrival, World.goto] at he
    split_ifs at he <;> cases he
  | join hctl hw =>
    rcases World.join_spec hw with ⟨rfl, -⟩ | ⟨t, c, -, -, rfl | rfl, rfl⟩ <;> cases he
  | joinFailed => cases he
  | checkArrival =>
    rw [World.checkArrival] at he
    split_ifs at he <;> cases he
  | complete => simp [World.complete, hcleanup] at he
  | clean => cases he
  | drain hctl =>
    rw [World.drain] at he
    split_ifs at he <;> simp_all [World.goto, Ctl.early]
  | reap =>
    rw [World.reap] at he
    split_ifs at he <;> cases he
  | tear => cases he
  | record => cases he
  | advance hctl =>
    simp only [World.advance] at he
    split_ifs at he
    · simp [hctl, Ctl.early] at he
    · split at he <;> cases he
  | finish hctl =>
    rcases w.finish_spec with ⟨-, heq⟩ | ⟨-, s, -, heq⟩ <;> rw [heq] at he
    · simp [hctl, Ctl.early] at he
    · simp [hcleanup] at he
  | cleanup => simp [hcleanup] at he
  | foreignCall hctl => simp [hctl, Ctl.early] at he
  | drop => cases he
  | dropJoin hctl hw =>
    rcases World.dropJoin_spec hw with ⟨-, rfl⟩ | ⟨t, -, -, rfl⟩
    · simp only [World.goto] at he
      split_ifs at he <;> cases he
    · cases he
  | dropTeardown => cases he
/-- No interval has ended before the first call of `advance`. -/
theorem next_of_early {w : World} (h : execution.Reachable w) (he : w.ctl.early = true) :
    w.next = 0 := by
  induction h with
  | init hw =>
    obtain ⟨_, _, _, _, rfl⟩ := hw
    rfl
  | step _ hw ih =>
    rcases World.step_move hw with hw | hw
    · obtain ⟨hbefore, hnext⟩ := hw.early he
      exact hnext.trans (ih hbefore)
    · rw [hw.beside.next]
      exact ih (hw.beside.ctl ▸ he)

end MirrorRust
