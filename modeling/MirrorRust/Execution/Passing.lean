import MirrorRust.Execution.Harmony

/-! A cooperative program passes: whatever the order of the steps, the controller comes to the end of
the schedule, and nothing but the end stops it. -/
namespace MirrorRust

/-! ### Ranks -/

namespace Pc

/-- How many steps a worker can take before it waits for the controller again. -/
def rank (permitted : Bool) : Pc → ℕ
  | .starting => 1
  | .barrier | .arriving => if permitted then 4 else 0
  | .running => 3
  | .returned _ => 2
  | .exiting => 1
  | .terminated _ => 0

theorem rank_mono (pc : Pc) {permitted permitted' : Bool}
    (h : permitted' = true → permitted = true) : pc.rank permitted' ≤ pc.rank permitted := by
  cases permitted' with
  | true => rw [h rfl]
  | false => cases permitted <;> cases pc <;> simp [rank]

end Pc

namespace Ctl

/-- How far the controller is from the end of its call, with `k` actors. -/
def rank (k : ℕ) : Ctl → ℕ
  | .entering => 2 * k + 18
  | .creating => 2 * k + 17
  | .spawning i => k + 16 + (k - i)
  | .startWait => k + 15
  | .waiting _ _ => k + 14
  | .arrived _ _ => k + 13
  | .joining _ => k + 12
  | .checkArrival => k + 11
  | .observing _ => k + 10
  | .callback _ => k + 9
  | .judging _ _ => k + 8
  | .outcomeCheck _ => k + 7
  | .completing => k + 6
  | .cleaning => k + 5
  | .draining => k + 4
  | .reaping i => 3 + (k - i)
  | .tearing => 2
  | .recording _ => 1
  | _ => 0

end Ctl

namespace World

def permits (w : World) (i : ℕ) : Bool := w.shared.phase? i = some .running

/-- The steps that the workers can take before all of them wait. -/
def work (w : World) : ℕ :=
  ∑ i ∈ Finset.range w.threads.length, (w.threads[i]?.map fun t => t.pc.rank (w.permits i)).getD 0

theorem work_lt {w w' : World} (hb : Beside w w') {i : ℕ} {t : Thread} {pc : Pc}
    (hthreads : w'.threads = w.threads.modify i fun t => { t with pc := pc })
    (ht : w.threads[i]? = some t) (hlt : pc.rank (w'.permits i) < t.pc.rank (w.permits i)) :
    w'.work < w.work := by
  have hpermits : ∀ j, w'.permits j = true → w.permits j = true := by
    intro j hj
    simpa [permits] using hb.running j (by simpa [permits] using hj)
  rw [work, work, hb.length]
  refine Finset.sum_lt_sum (fun j _ => ?_) ⟨i, ?_, ?_⟩
  · rw [hthreads, List.getElem?_modify]
    cases hj : w.threads[j]? with
    | none => simp
    | some u =>
      by_cases hij : i = j
      · subst hij
        obtain rfl : t = u := Option.some.inj (ht.symm.trans hj)
        simpa using hlt.le
      · simpa [hij] using u.pc.rank_mono (hpermits j)
  · exact Finset.mem_range.mpr (List.getElem?_eq_some_iff.mp ht).1
  · rw [hthreads, List.getElem?_modify]
    simpa [ht] using hlt

end World

namespace Harmony
variable {c : Cooperation} {calls : ℕ → ℕ} {w w' : World}

theorem spawned_le (h : Harmony c calls w) (hr : execution.Reachable w)
    (hunopened : w.ctl.unopened = false) :
    w.threads.length ≤ w.setup.adapter.actors.length ∧
      w.shared.actors.length = w.setup.adapter.actors.length := by
  have hactors := congrArg List.length (h.built hunopened).2
  rw [List.length_map] at hactors
  exact ⟨hactors ▸ (coordinated hr).spawned, hactors⟩

/-- The controller waits, or it comes closer to the end of its call. -/
theorem controlMove_rank (h : Harmony c calls w) (hr : execution.Reachable w) {action : Action}
    (hallows : c.allows w calls action = true) (hw : ControlMove w action w') :
    (w' = w ∨ w'.ctl.rank w.setup.adapter.actors.length <
      w.ctl.rank w.setup.adapter.actors.length) ∧ Cooperation.count calls action = calls := by
  refine ⟨?_, by cases hw <;> rfl⟩
  have hcalm := h.calm
  cases hw with
  | @enter inCallback hctl =>
    obtain rfl : inCallback = false := by simpa [Cooperation.allows] using hallows
    rw [h.enters, hctl]
    exact Or.inr (Nat.lt_succ_self _)
  | @create result hctl =>
    cases result with
    | program workers =>
      rw [h.create hallows, hctl]
      simp only [World.declare, World.spawnFrom, World.goto, Ctl.rank]
      split_ifs <;> simp only <;> omega
    | error e => cases hallows
    | panic => cases hallows
  | @spawn i result hctl =>
    cases result with
    | ok thread =>
      obtain ⟨-, hlt⟩ := (coordinated hr).spawning i hctl
      have hactors := (h.spawned_le hr (by rw [hctl]; rfl)).2
      rw [hctl]
      simp only [World.spawn, World.spawnFrom, World.goto, Ctl.rank]
      split_ifs <;> simp only <;> omega
    | error e => cases hallows
  | @startWait expired hctl =>
    obtain rfl : expired = false := by simpa [Cooperation.allows] using hallows
    rw [h.startWait hr hctl]
    split_ifs
    · rw [hctl]
      exact Or.inr (by simp [World.goto, Ctl.rank])
    · exact Or.inl rfl
  | observe hctl =>
    rw [h.observe hr hctl, hctl]
    exact Or.inr (by simp [World.goto, Ctl.rank])
  | observer hctl =>
    rw [hctl]
    exact Or.inr (by simp [World.observer, World.goto, Ctl.rank])
  | @judge caller result expired hctl =>
    rw [hctl]
    exact Or.inr (by simp [World.judge, World.goto, Ctl.rank])
  | outcomeCheck hctl =>
    rw [h.outcomeCheck, hctl]
    right
    split_ifs <;> simp [World.goto, Ctl.rank]
  | @wait i requested expired hctl =>
    obtain rfl : expired = false := by simpa [Cooperation.allows] using hallows
    rw [h.wait hr hctl]
    split_ifs
    · exact Or.inl rfl
    · rw [hctl]
      exact Or.inr (by simp [World.goto, Ctl.rank])
  | arrival hctl =>
    obtain ⟨a, -, -, -, -, heq⟩ := h.arrival hr hctl
    rw [heq, hctl]
    right
    simp only [World.goto, World.afterArrival]
    split_ifs <;> simp [Ctl.rank]
  | join hctl hw =>
    right
    rcases World.join_spec hw with ⟨rfl, -⟩ | ⟨t, ctl, -, -, rfl | rfl, rfl⟩ <;> rw [hctl] <;>
      simp [World.goto, Ctl.rank]
  | joinFailed hctl | dropJoin hctl | dropTeardown hctl =>
    rw [hctl] at hcalm
    cases hcalm
  | checkArrival hctl =>
    rw [World.checkArrival, if_pos h.outcome, hctl]
    exact Or.inr (by simp [World.goto, Ctl.rank])
  | complete hctl =>
    right
    rw [World.complete]
    rcases World.callCleanup_spec _ w.setup.policy.cleanupTimeout with ⟨-, heq⟩ | ⟨-, heq⟩ <;>
      rw [heq, hctl] <;> simp [World.goto, Ctl.rank]
  | clean hctl =>
    rw [hctl]
    exact Or.inr (by simp [World.clean, World.goto, Ctl.rank])
  | drain hctl =>
    rw [World.drain]
    split_ifs
    · exact Or.inl rfl
    · rw [hctl]
      exact Or.inr (by simp only [World.goto, Ctl.rank]; omega)
  | reap hctl =>
    have hthreads := (h.spawned_le hr (by rw [hctl]; rfl)).1
    right
    rw [World.reap]
    split_ifs <;> rw [hctl] <;> simp only [World.goto, Ctl.rank] <;> omega
  | tear hctl =>
    rw [hctl]
    exact Or.inr (by simp [World.teardown, World.goto, Ctl.rank])
  | record hctl =>
    rw [hctl]
    exact Or.inr (by simp [World.record, World.goto, Ctl.rank])
  | advance | finish | cleanup | foreignCall | drop => cases hallows

/-- A worker waits, or it moves on. -/
theorem workerMove_rank (h : Harmony c calls w) (hr : execution.Reachable w) {action : Action}
    (hallows : c.allows w calls action = true) (hw : WorkerMove w action w') :
    (w' = w ∧ Cooperation.count calls action = calls) ∨ w'.work < w.work := by
  have hb := hw.beside
  cases hw with
  | cancel => cases hallows
  | @startWorker i t ht hpc =>
    have hlive := h.thread_live hr (List.mem_of_getElem? ht) (by simp [Thread.isFinished, hpc])
    have hthreads : (w.startWorker i t).threads =
        w.threads.modify i fun t => { t with pc := .barrier } := by
      rw [World.startWorker, hlive]
      rfl
    have hpermits : (w.startWorker i t).permits i = false := by
      cases ha : w.shared.actors[i]? <;>
        simp [World.permits, World.startWorker, World.setPc, World.setThread, SharedState.register,
          SharedState.modifyActor, SharedState.phase?, ha]
    refine Or.inr (World.work_lt hb hthreads ht ?_)
    rw [hpermits, hpc]
    exact Nat.zero_lt_one
  | @wake i t _ ht _ hw =>
    have hlive : t.isFinished = false → w.shared.stopping ≠ true := fun hend hstop =>
      Bool.false_ne_true ((h.thread_live hr (List.mem_of_getElem? ht) hend).symm.trans hstop)
    unfold World.wake at hw
    split_ifs at hw with h1 h2 h3 h4 h5 <;> cases hw
    · exact absurd h2 (hlive (by simp [Thread.isFinished, h1]))
    · have hpermits : w.permits i = true := by simp [World.permits, h3]
      refine Or.inr (World.work_lt hb rfl ht ?_)
      rw [hpermits, h1]
      exact Nat.lt_succ_self _
    · exact Or.inl ⟨rfl, rfl⟩
    · have hpermits : w.permits i = true := by
        have hphase := h5.resolve_left (hlive (by simp [Thread.isFinished, h4]))
        simp [World.permits, hphase]
      refine Or.inr (World.work_lt hb rfl ht ?_)
      rw [hpermits, h4]
      exact Nat.lt_succ_self _
    · exact Or.inl ⟨rfl, rfl⟩
  | @arrive thread i checkpoint t _ ht _ hw =>
    simp only [Cooperation.allows, ht, Option.map_some, Option.some.injEq,
      decide_eq_true_eq] at hallows
    obtain ⟨rfl, hscript⟩ := hallows
    have hpc := running_of_arrive hw
    obtain ⟨heq, a, -, ha, -⟩ := h.parks hr ht hpc hscript
    obtain rfl := Option.some.inj (heq.symm.trans hw)
    refine Or.inr (World.work_lt hb rfl ht ?_)
    have hpermits : World.permits ({ w with
        shared := w.shared.modifyActor i fun a => { a with checkpoint := checkpoint, phase := .parked }
      }.setPc i .arriving) i = false := by
      simp [World.permits, World.setPc, World.setThread, SharedState.modifyActor,
        SharedState.phase?, ha]
    rw [hpermits, hpc]
    exact Nat.succ_pos _
  | @returns i result t ht hpc =>
    refine Or.inr (World.work_lt hb rfl ht ?_)
    rw [hpc]
    exact Nat.lt_succ_self _
  | @settle i t _ ht _ hw =>
    unfold World.settle at hw
    split at hw <;> cases hw
    rename_i result hpc
    refine Or.inr (World.work_lt hb rfl ht ?_)
    rw [hpc]
    exact Nat.lt_succ_self _
  | @terminate i panicked t ht hpc =>
    refine Or.inr (World.work_lt hb rfl ht ?_)
    rw [hpc]
    exact Nat.zero_lt_one

end Harmony

/-! ### The join of a worker -/

theorem ControlMove.leaving {w w' : World} {action : Action} (hw : ControlMove w action w')
    {i : ℕ} (hi : w'.ctl = .joining i) {a : Actor} (ha : w'.shared.actors[i]? = some a) :
    a.phase = .finished := by
  cases hw with
  | enter =>
    unfold World.enter at hi
    split at hi <;> cases hi
  | @create result =>
    cases result with
    | error e => cases hi
    | panic => cases hi
    | program workers =>
      rw [World.create] at hi
      rcases w.acquire_spec workers with ⟨s, -, -, heq⟩ | ⟨-, heq⟩ <;> rw [heq] at hi
      · rcases World.callCleanup_spec _ w.setup.policy.cleanupTimeout with ⟨-, heq⟩ | ⟨-, heq⟩ <;>
          rw [heq] at hi <;> cases hi
      · simp only [World.declare, World.spawnFrom, World.goto] at hi
        split_ifs at hi
  | @spawn i result =>
    cases result with
    | error e => cases hi
    | ok thread =>
      simp only [World.spawn, World.spawnFrom, World.goto] at hi
      split_ifs at hi
  | startWait hctl =>
    rcases w.startWait_spec _ with ⟨-, heq⟩ | ⟨-, heq⟩ | ⟨s, -, heq⟩ | heq <;> rw [heq] at hi
    · cases hi
    · cases hi
    · cases hi
    · simp [hctl] at hi
  | observe =>
    rw [World.observe] at hi
    split_ifs at hi <;> cases hi
  | outcomeCheck =>
    rw [World.outcomeCheck] at hi
    split_ifs at hi
    · rcases w.callCleanup_spec w.setup.policy.cleanupTimeout with ⟨-, heq⟩ | ⟨-, heq⟩ <;>
        rw [heq] at hi <;> cases hi
    · cases hi
    · cases hi
  | wait hctl =>
    rcases w.wait_spec _ _ _ with ⟨-, heq⟩ | ⟨-, heq⟩ | ⟨s, -, heq⟩ | heq <;> rw [heq] at hi
    · cases hi
    · cases hi
    · cases hi
    · simp [hctl] at hi
  | @arrival j requested =>
    cases hj : w.shared.actors[j]? with
    | none =>
      rw [World.arrival_none requested hj] at hi
      cases hi
    | some b =>
      obtain ⟨s, heq, hs⟩ := World.arrival_some requested hj
      have hactors : s.actors = w.shared.actors := by
        rcases hs with hs | hs | ⟨-, rfl⟩
        · exact hs.actors
        · exact hs.actors
        · rfl
      rw [heq] at hi ha
      simp only [World.goto, World.afterArrival] at hi ha
      split_ifs at hi with hfinished
      cases hi
      rw [hactors, hj] at ha
      cases ha
      exact hfinished
  | join _ hw => rcases World.join_spec hw with ⟨rfl, -⟩ | ⟨t, ctl, -, -, rfl | rfl, rfl⟩ <;> cases hi
  | checkArrival =>
    rw [World.checkArrival] at hi
    split_ifs at hi <;> cases hi
  | complete =>
    rw [World.complete] at hi
    rcases World.callCleanup_spec _ w.setup.policy.cleanupTimeout with ⟨-, heq⟩ | ⟨-, heq⟩ <;>
      rw [heq] at hi <;> cases hi
  | drain hctl =>
    rw [World.drain] at hi
    split_ifs at hi
    · simp [hctl] at hi
    · cases hi
  | reap =>
    rw [World.reap] at hi
    split_ifs at hi <;> cases hi
  | advance hctl =>
    rw [World.advance] at hi
    split_ifs at hi
    · simp [hctl] at hi
    · split at hi <;> cases hi
  | finish hctl =>
    rcases w.finish_spec with ⟨-, heq⟩ | ⟨-, s, -, heq⟩ <;> rw [heq] at hi
    · simp [hctl] at hi
    · rcases World.callCleanup_spec _ w.setup.policy.cleanupTimeout with ⟨-, heq⟩ | ⟨-, heq⟩ <;>
        rw [heq] at hi <;> cases hi
  | @cleanup timeout =>
    rcases w.callCleanup_spec timeout with ⟨-, heq⟩ | ⟨-, heq⟩ <;> rw [heq] at hi <;> cases hi
  | foreignCall hctl => simp [hctl] at hi
  | dropJoin _ hw =>
    rcases World.dropJoin_spec hw with ⟨-, rfl⟩ | ⟨t, -, -, rfl⟩
    · simp only [World.goto] at hi
      split_ifs at hi
    · cases hi
  | observer | judge | joinFailed | clean | tear | record | drop | dropTeardown => cases hi

theorem WorkerMove.finished {w w' : World} {action : Action} (hr : execution.Reachable w)
    (hw : WorkerMove w action w') {i : ℕ} {b : Actor} (hb : w'.shared.actors[i]? = some b) :
    ∃ a, w.shared.actors[i]? = some a ∧ (a.phase = .finished → b.phase = .finished) := by
  have hsame : w'.shared.actors = w.shared.actors → ∃ a, w.shared.actors[i]? = some a ∧
      (a.phase = .finished → b.phase = .finished) := fun heq => ⟨b, heq ▸ hb, id⟩
  -- only the actor of the thread that moves can change
  have hmodify : ∀ {j : ℕ} {f : Actor → Actor}, (∀ a, w.shared.actors[j]? = some a →
      a.phase = .finished → (f a).phase = .finished) → (w.shared.modifyActor j f).actors[i]? = some b →
      ∃ a, w.shared.actors[i]? = some a ∧ (a.phase = .finished → b.phase = .finished) := by
    intro j f hf hb
    rcases Harmony.getElem?_modifyActor hb with ⟨rfl, a, ha, rfl⟩ | ⟨-, ha⟩
    · exact ⟨a, ha, hf a ha⟩
    · exact ⟨b, ha, id⟩
  cases hw with
  | cancel | returns | terminate => exact hsame rfl
  | @startWorker j t ht hpc =>
    refine hmodify (fun a ha hfinished => ?_) hb
    have hstarting := ((coordinated hr).table j a t ha ht).starting.mpr hpc
    rw [hfinished] at hstarting
    cases hstarting
  | wake ht _ hw =>
    unfold World.wake at hw
    split_ifs at hw <;> cases hw <;> exact hsame rfl
  | @arrive thread j checkpoint t _ ht _ hw =>
    unfold World.arrive at hw
    split_ifs at hw
    cases hj : w.shared.actors[j]? with
    | none =>
      have heq : w.shared.arrive w.setup.adapter.checkpoints j thread checkpoint =
          (w.shared, false) := by rw [SharedState.arrive, hj]
      rw [heq] at hw
      cases hw
      exact hsame rfl
    | some u =>
      rcases SharedState.arrive_spec w.setup.adapter.checkpoints thread checkpoint hj with
        ⟨s, hs, heq⟩ | ⟨-, heq⟩ | ⟨-, hphase, -, -, heq⟩ <;> rw [heq] at hw <;> cases hw
      · exact hsame hs.actors
      · exact hsame rfl
      · refine hmodify (fun a ha hfinished => ?_) hb
        obtain rfl : a = u := Option.some.inj (ha.symm.trans hj)
        rw [hfinished] at hphase
        cases hphase
  | @settle j t _ ht _ hw =>
    unfold World.settle at hw
    split at hw <;> cases hw
    rename_i result hpc
    have hactors : (w.shared.settle j result).actors = (w.shared.finishActor j).actors := by
      rcases w.shared.settle_spec j result with heq | ⟨s, hs, heq⟩ <;> rw [heq]
      simp only [SharedState.finishActor, SharedState.modifyActor, hs.actors]
    exact hmodify (fun _ _ _ => rfl) (hactors ▸ hb)

theorem finished_of_joining {w : World} (h : execution.Reachable w) {i : ℕ} (hi : w.ctl = .joining i)
    {a : Actor} (ha : w.shared.actors[i]? = some a) : a.phase = .finished := by
  induction h generalizing a with
  | init hw =>
    obtain ⟨_, _, _, _, rfl⟩ := hw
    cases hi
  | @step u action v hr hw ih =>
    rcases World.step_move hw with hw | hw
    · exact hw.leaving hi ha
    · obtain ⟨b, hb, hfinished⟩ := hw.finished hr ha
      exact hfinished (ih (hw.beside.ctl ▸ hi) hb)

/-! ### What can be done -/

namespace Harmony
variable {c : Cooperation} {calls : ℕ → ℕ} {w w' : World}

/-- A cooperative step that changes the execution. -/
def Enabled (c : Cooperation) (calls : ℕ → ℕ) (w : World) : Prop :=
  ∃ action w', c.allows w calls action = true ∧ action.isCall = false ∧
    w.step action = some w' ∧ w' ≠ w

theorem enabled_control {action : Action} (hallows : c.allows w calls action = true)
    (hcall : action.isCall = false) (hstep : w.step action = some w') (hctl : w'.ctl ≠ w.ctl) :
    Enabled c calls w :=
  ⟨action, w', hallows, hcall, hstep, fun heq => hctl (heq ▸ rfl)⟩

theorem enabled_worker {action : Action} {i : ℕ} {t t' : Thread}
    (hallows : c.allows w calls action = true) (hcall : action.isCall = false)
    (hstep : w.step action = some w') (ht : w.threads[i]? = some t)
    (ht' : w'.threads[i]? = some t') (hpc : t'.pc ≠ t.pc) : Enabled c calls w := by
  refine ⟨action, w', hallows, hcall, hstep, fun heq => hpc ?_⟩
  rw [heq, ht] at ht'
  cases ht'
  rfl

theorem getElem?_setPc {i : ℕ} {t : Thread} (ht : w.threads[i]? = some t) (pc : Pc) :
    (w.setPc i pc).threads[i]? = some { t with pc := pc } := by
  simp [World.setPc, World.setThread, ht]

variable (h : Harmony c calls w) (hr : execution.Reachable w)
include h

theorem staffs_declared :
    c.staffs (c.setup.adapter.actors.map ActorDeclaration.actor) = true := by
  have hdistinct := h.admitted.distinct
  rw [h.setup] at hdistinct
  simp only [Cooperation.staffs, Bool.and_eq_true, decide_eq_true_eq]
  refine ⟨⟨hdistinct, ?_⟩, ?_⟩
  · simpa using fun a ha => ⟨a, ha, rfl⟩
  · simpa using fun a ha => ⟨a, ha, rfl⟩

include hr

theorem enabled_startWait (hctl : w.ctl = .startWait) : Enabled c calls w := by
  have hlive := h.open_live hr (by rw [hctl]; rfl) (by simp [hctl])
  by_cases hall : w.shared.allParked = true
  · have hstep : w.step (.control false) = some (w.goto (.observing .start)) := by
      simp only [World.step, World.control, hctl, h.startWait hr hctl, hall, if_true]
    exact enabled_control rfl rfl hstep (by simp [World.goto, hctl])
  · obtain ⟨a, ha, hphase⟩ : ∃ a ∈ w.shared.actors, a.phase ≠ .parked := by
      simpa [SharedState.allParked] using hall
    obtain ⟨i, hi⟩ := List.getElem?_of_mem ha
    have hlt : i < w.threads.length := by
      rw [h.crew hctl]
      exact (List.getElem?_eq_some_iff.mp hi).1
    obtain ⟨t, ht⟩ : ∃ t, w.threads[i]? = some t := ⟨_, List.getElem?_eq_getElem hlt⟩
    have htable := (coordinated hr).table i a t hi ht
    have hseat := ((coordinated hr).live hlive).seat i a t hi ht
    have hstarting : a.phase = .starting := by
      cases hp : a.phase with
      | starting => rfl
      | parked => exact absurd hp hphase
      | running =>
        obtain ⟨r, hwaiting⟩ := hseat.running hp
        simp [hctl] at hwaiting
      | finished =>
        -- nobody has left its start
        have hstands := standing_reachable hr hlive i _ (SharedState.places_eq hi)
          (by simp [hctl, Ctl.moving])
        rw [next_of_early hr (by rw [hctl]; rfl), hctl] at hstands
        have hstart : a.checkpoint = "$start" := hstands
        exact absurd (hstart.symm.trans (htable.completion.mpr hp)) (by decide)
    have hpc := htable.starting.mp hstarting
    have hstep : w.step (.start i) = some (w.startWorker i t) := by
      simp [World.step, ht, World.worker, hpc, World.locked, hctl]
    refine enabled_worker rfl rfl hstep ht (getElem?_setPc ht _) ?_
    rw [hpc, hlive]
    simp

theorem enabled_waiting {i : ℕ} {r : Step} (hctl : w.ctl = .waiting i r) : Enabled c calls w := by
  have hlive := h.open_live hr (by rw [hctl]; rfl) (by simp [hctl])
  have hlocked : w.locked = false := by simp [World.locked, hctl]
  obtain ⟨hnext, a, ha, hname⟩ := (licensed hr).target i r (Or.inl hctl)
  by_cases hphase : a.phase = .running
  · obtain ⟨t, ht, htable, hseat⟩ := seated hr (by rw [hctl]; rfl) hlive ha
    have hrunning : w.shared.phase? i = some .running := by rw [SharedState.phase?, ha, ← hphase]; rfl
    cases hpc : t.pc with
    | starting =>
      have hstarting := htable.starting.mpr hpc
      rw [hphase] at hstarting
      cases hstarting
    | barrier =>
      have hstep : w.step (.wake i) =
          some ({ w with entered := i :: w.entered }.setPc i .running) := by
        simp [World.step, ht, World.worker, World.wake, hpc, hlocked, hlive, hrunning]
      exact enabled_worker rfl rfl hstep ht (getElem?_setPc (w := { w with entered := _ }) ht _)
        (by simp [hpc])
    | arriving =>
      have hstep : w.step (.wake i) = some (w.setPc i .running) := by
        simp [World.step, ht, World.worker, World.wake, hpc, hlocked, hrunning]
      exact enabled_worker rfl rfl hstep ht (getElem?_setPc ht _) (by simp [hpc])
    | running =>
      obtain ⟨-, b, s, -, -, hwaiting, hstep', -, -, hchain, hcalls⟩ := h.running hr ht (Or.inl hpc)
      obtain ⟨-, rfl⟩ : i = i ∧ r = s := by simpa [hctl] using hwaiting
      by_cases hend : r.checkpoint = COMPLETION
      · have hscript : calls i = (c.script i).length := by
          rw [hcalls, hchain]
          exact script_ended h.admitted.ended hnext hend
        have hstep : w.step (.returns i (.ok ())) = some (w.setPc i (.returned (.ok ()))) := by
          simp [World.step, ht, World.worker, hpc]
        exact enabled_worker (by simpa [Cooperation.allows] using hscript) rfl hstep ht
          (getElem?_setPc ht _) (by simp [hpc])
      · have hscript : (c.script i)[calls i]? = some r.checkpoint := by
          rw [hcalls, hchain]
          exact script_visits hnext (by simp [Step.visit, hend])
        have hstep : w.step (.arrive t.id i r.checkpoint) = w.arrive t.id i t r.checkpoint := by
          simp [World.step, ht, World.worker, hlocked]
        rw [(h.parks hr ht hpc hscript).1] at hstep
        refine enabled_worker ?_ rfl hstep ht (getElem?_setPc (w := { w with shared := _ }) ht _)
          (by simp [hpc])
        simp [Cooperation.allows, ht, hscript]
    | returned result =>
      have hstep : w.step (.settle i) =
          some ({ w with shared := w.shared.settle i result }.setPc i .exiting) := by
        simp [World.step, ht, World.worker, World.settle, hpc, hlocked]
      exact enabled_worker rfl rfl hstep ht (getElem?_setPc (w := { w with shared := _ }) ht _)
        (by simp [hpc])
    | exiting | terminated panicked =>
      have hfinished := htable.finished.mpr (by simp [hpc, Thread.isFinished])
      rw [hphase] at hfinished
      cases hfinished
  · have hstep : w.step (.control false) = some (w.goto (.arrived i r)) := by
      have hnot : w.shared.phase? i ≠ some .running := by
        rw [SharedState.phase?, ha]
        simpa using hphase
      simp only [World.step, World.control, hctl, h.wait hr hctl, if_neg hnot]
    exact enabled_control rfl rfl hstep (by simp [World.goto, hctl])

omit h in
theorem enabled_joining {i : ℕ} (hctl : w.ctl = .joining i) : Enabled c calls w := by
  have hjoin : ∀ w', w.join i = some w' → w'.ctl ≠ w.ctl → Enabled c calls w := by
    intro w' hw hne
    have hstep : w.step (.control false) = some w' := by
      simp only [World.step, World.control, hctl, hw]
    exact enabled_control rfl rfl hstep hne
  obtain ⟨r, a, -, ha, -, hlt⟩ := (progress hr).joining i hctl
  obtain ⟨t, ht⟩ : ∃ t, w.threads[i]? = some t := ⟨_, List.getElem?_eq_getElem hlt⟩
  have hfinished := ((coordinated hr).table i a t ha ht).finished.mp (finished_of_joining hr hctl ha)
  by_cases hhandle : t.handle = true
  · cases hpc : t.pc with
    | exiting =>
      have hstep : w.step (.terminate i false) = some (w.setPc i (.terminated false)) := by
        simp [World.step, ht, World.worker, hpc]
      exact enabled_worker rfl rfl hstep ht (getElem?_setPc ht _) (by simp [hpc])
    | terminated panicked =>
      refine hjoin _ (by simp only [World.join, ht, hhandle, hpc]; rfl) ?_
      rw [hctl]
      simp only [World.goto]
      split_ifs <;> simp
    | starting | barrier | running | arriving | returned result =>
      simp [hpc, Thread.isFinished] at hfinished
  · refine hjoin (w.goto .checkArrival) (by simp only [World.join, ht]; simp [hhandle]) ?_
    simp [World.goto, hctl]

/-- In a call something can always be done. -/
theorem enabled (hidle : w.ctl ≠ .idle) : Enabled c calls w := by
  have hcalm := h.calm
  cases hctl : w.ctl with
  | entering =>
    have hstep : w.step (.enter false) = some (w.goto .creating) := by
      rw [← h.enters]
      exact if_pos hctl
    exact enabled_control rfl rfl hstep (by simp [World.goto, hctl])
  | creating =>
    have hstep : w.step (.create (.program (c.setup.adapter.actors.map ActorDeclaration.actor))) =
        some (World.declare { w with acquired := true }) := by
      rw [← h.create h.staffs_declared]
      exact if_pos hctl
    have hallows : c.allows w calls
        (.create (.program (c.setup.adapter.actors.map ActorDeclaration.actor))) = true :=
      h.staffs_declared
    refine enabled_control hallows rfl hstep ?_
    rw [hctl]
    simp only [World.declare, World.spawnFrom, World.goto]
    split_ifs <;> simp
  | spawning i =>
    have hstep : w.step (.spawn (.ok 0)) = some (w.spawn i (.ok 0)) := by
      simp only [World.step, hctl]
    refine enabled_control rfl rfl hstep ?_
    rw [hctl]
    simp only [World.spawn, World.spawnFrom, World.goto]
    split_ifs <;> simp
  | startWait => exact h.enabled_startWait hr hctl
  | observing caller =>
    have hstep : w.step (.control false) = some (w.goto (.callback caller)) := by
      rw [← h.observe hr hctl]
      simp only [World.step, World.control, hctl]
    exact enabled_control rfl rfl hstep (by simp [World.goto, hctl])
  | callback caller =>
    have hstep : w.step (.observer (.ok (c.values w.next))) =
        some (w.observer caller (.ok (c.values w.next))) := by
      simp only [World.step, hctl]
    exact enabled_control (by simp [Cooperation.allows]) rfl hstep
      (by simp [World.observer, World.goto, hctl])
  | judging caller result =>
    have hstep : w.step (.control false) = some (w.judge caller result false) := by
      simp only [World.step, World.control, hctl]
    exact enabled_control rfl rfl hstep (by simp [World.judge, World.goto, hctl])
  | outcomeCheck caller =>
    have hstep : w.step (.control false) = some (w.outcomeCheck caller) := by
      simp only [World.step, World.control, hctl]
    refine enabled_control rfl rfl hstep ?_
    rw [h.outcomeCheck, hctl]
    simp only [World.goto]
    split_ifs <;> simp
  | waiting i r => exact h.enabled_waiting hr hctl
  | arrived i r =>
    obtain ⟨a, -, -, -, -, heq⟩ := h.arrival hr hctl
    have hstep : w.step (.control false) = some (w.arrival i r) := by
      simp only [World.step, World.control, hctl]
    refine enabled_control rfl rfl hstep ?_
    rw [heq, hctl]
    simp only [World.goto, World.afterArrival]
    split_ifs <;> simp
  | joining i => exact enabled_joining hr hctl
  | checkArrival =>
    have hstep : w.step (.control false) = some w.checkArrival := by
      simp only [World.step, World.control, hctl]
    refine enabled_control rfl rfl hstep ?_
    rw [World.checkArrival, if_pos h.outcome, hctl]
    simp [World.goto]
  | completing =>
    have hstep : w.step (.control false) = some w.complete := by
      simp only [World.step, World.control, hctl]
    refine enabled_control rfl rfl hstep ?_
    rw [World.complete, hctl]
    rcases World.callCleanup_spec _ w.setup.policy.cleanupTimeout with ⟨-, heq⟩ | ⟨-, heq⟩ <;>
      rw [heq] <;> simp [World.goto]
  | cleaning =>
    have hstep : w.step (.control false) = some w.clean := by
      simp only [World.step, World.control, hctl]
    exact enabled_control rfl rfl hstep (by simp [World.clean, World.goto, hctl])
  | draining =>
    -- every thread has been joined
    have hcompleted := (custody hr).ended (Or.inl (by rw [hctl]; rfl)) h.outcome
    have hjoined := joined_of_last hr h.admitted ((completion hr).completed hcompleted).2.1
    have hnone : w.threads.any (fun t => t.handle && !t.isFinished) = false :=
      List.any_eq_false.mpr fun t ht => by simp [hjoined t ht]
    have hstep : w.step (.control false) = some (w.goto (.reaping 0)) := by
      simp only [World.step, World.control, hctl, World.drain, hnone]
      rfl
    exact enabled_control rfl rfl hstep (by simp [World.goto, hctl])
  | reaping i =>
    have hstep : w.step (.control false) = some (w.reap i) := by
      simp only [World.step, World.control, hctl]
    refine enabled_control rfl rfl hstep ?_
    rw [World.reap, hctl]
    split_ifs <;> simp [World.goto]
  | tearing =>
    have hstep : w.step (.teardown (.ok ())) = some (w.teardown (.ok ()) (.recording none)) := by
      simp only [World.step, hctl]
      rfl
    exact enabled_control rfl rfl hstep (by simp [World.teardown, World.goto, hctl])
  | recording teardown =>
    have hstep : w.step (.control false) = some (w.record teardown) := by
      simp only [World.step, World.control, hctl]
    exact enabled_control rfl rfl hstep (by simp [World.record, World.goto, hctl])
  | idle => exact absurd hctl hidle
  | joinFailed | dropping i | dropTeardown | dropped =>
    rw [hctl] at hcalm
    cases hcalm

end Harmony

/-! ### Runs -/

namespace Loop

def rank : Loop → ℕ
  | .advancing _ => 2
  | .checking => 1
  | .returned => 0

end Loop

/-- What is left of a run: the intervals, the regions of the call, the steps of the workers. -/
def Drive.rank (d : Drive) : ℕ ×ₗ ℕ ×ₗ ℕ :=
  toLex (2 * d.rest.length + d.loop.rank,
    toLex (d.world.ctl.rank d.world.setup.adapter.actors.length, d.world.work))

theorem Drive.rank_lt_loop {d d' : Drive}
    (h : 2 * d'.rest.length + d'.loop.rank < 2 * d.rest.length + d.loop.rank) : d'.rank < d.rank :=
  Prod.Lex.toLex_lt_toLex.mpr (Or.inl h)

theorem Drive.rank_lt_world {d : Drive} {w' : World}
    (h : (toLex (w'.ctl.rank w'.setup.adapter.actors.length, w'.work) : ℕ ×ₗ ℕ) <
      toLex (d.world.ctl.rank d.world.setup.adapter.actors.length, d.world.work)) :
    Drive.rank { d with world := w' } < d.rank :=
  Prod.Lex.toLex_lt_toLex.mpr (Or.inr ⟨rfl, h⟩)

theorem plays_descends (c : Cooperation) : c.plays.Descends fun p => p.drive.rank := by
  intro p action p' hp hstep
  have h := concert hp
  cases action with
  | act action =>
    simp only [Cooperation.plays, Cooperation.step, Option.ite_none_right_eq_some,
      Option.map_eq_some_iff] at hstep
    obtain ⟨hallows, d, hd, rfl⟩ := hstep
    simp only [Drive.step] at hd
    split_ifs at hd
    obtain ⟨w', hw, rfl⟩ := Option.map_eq_some_iff.mp hd
    have hsetup := World.step_setup hw
    rcases World.step_move hw with hw | hw
    · obtain ⟨rfl | hlt, hcount⟩ := h.harmony.controlMove_rank h.world hallows hw
      · exact Or.inl (by rw [hcount])
      · refine Or.inr (Drive.rank_lt_world (Prod.Lex.toLex_lt_toLex.mpr (Or.inl ?_)))
        rw [hsetup]
        exact hlt
    · rcases h.harmony.workerMove_rank h.world hallows hw with ⟨rfl, hcount⟩ | hlt
      · exact Or.inl (by rw [hcount])
      · refine Or.inr (Drive.rank_lt_world (Prod.Lex.toLex_lt_toLex.mpr (Or.inr ⟨?_, hlt⟩)))
        rw [hsetup, hw.beside.ctl]
  | check =>
    obtain ⟨d, hd, rfl⟩ := Option.map_eq_some_iff.mp hstep
    simp only [Drive.step, Option.ite_none_right_eq_some, Option.some.injEq] at hd
    obtain ⟨⟨hloop, -⟩, rfl⟩ := hd
    refine Or.inr (Drive.rank_lt_loop ?_)
    unfold Drive.check
    split
    case h_1 hrest => simp [hloop, Loop.rank]
    case h_2 requested rest hrest =>
      split_ifs <;> simp [hloop, hrest, Loop.rank]
      omega
  | advance expired =>
    simp only [Cooperation.plays, Cooperation.step, Option.ite_none_left_eq_some,
      Option.map_eq_some_iff] at hstep
    obtain ⟨-, d, hd, rfl⟩ := hstep
    simp only [Drive.step] at hd
    split at hd
    case h_2 => cases hd
    case h_1 requested hloop =>
      obtain ⟨w', -, rfl⟩ := Option.map_eq_some_iff.mp hd
      exact Or.inr (Drive.rank_lt_loop (by simp [hloop, Loop.rank]))

theorem Concert.enabled {c : Cooperation} {p : Play} (h : Concert c p)
    (hloop : p.drive.loop ≠ .returned) : ∃ action p', c.plays.step p action = some p' ∧ p' ≠ p := by
  by_cases hidle : p.drive.world.ctl = .idle
  · cases hl : p.drive.loop with
    | returned => exact absurd hl hloop
    | checking =>
      refine ⟨.check, { p with drive := p.drive.check }, ?_, fun heq => ?_⟩
      · simp [Cooperation.plays, Cooperation.step, Drive.step, hl, hidle]
      · have hcheck : p.drive.check.loop = .checking := by
          rw [show p.drive.check = p.drive from congrArg Play.drive heq, hl]
        unfold Drive.check at hcheck
        split at hcheck
        · cases hcheck
        · split_ifs at hcheck
    | advancing requested =>
      refine ⟨.advance false, { p with drive := { p.drive with
        world := p.drive.world.advance requested false, loop := .checking } }, ?_, fun heq => ?_⟩
      · simp [Cooperation.plays, Cooperation.step, Drive.step, hl, World.step, World.call, hidle]
      · have hchecking : Loop.checking = p.drive.loop := congrArg (fun p => p.drive.loop) heq
        simp [hl] at hchecking
  · obtain ⟨action, w', hallows, hcall, hw, hne⟩ := h.harmony.enabled h.world hidle
    refine ⟨.act action, ⟨{ p.drive with world := w' }, Cooperation.count p.calls action⟩, ?_,
      fun heq => ?_⟩
    · simp [Cooperation.plays, Cooperation.step, hallows, Drive.step, hloop, hcall, hw]
    · exact hne (congrArg (fun p => p.drive.world) heq)

/-- What `run_schedule` returns: every interval has been run, every observation has been made. -/
theorem Concert.returned {c : Cooperation} {p : Play} (h : Concert c p)
    (hreturned : p.drive.loop = .returned) :
    p.drive.world.report.passed = true ∧
      p.drive.world.report.events = c.setup.plannedRows c.setup.schedule.steps.length ∧
      p.drive.world.report.observations = (List.range (c.setup.schedule.steps.length + 1)).map fun k =>
        SharedState.observationRow c.setup.serde k (c.values k) := by
  have hpassed := h.passed hreturned
  have hctl := (h.orderly.returned hreturned).1
  have hcompleted : p.drive.world.report.scheduleCompleted = true := by
    simp only [Report.passed, Bool.and_eq_true] at hpassed
    exact hpassed.1.2
  have hnext := ((completion h.world).completed hcompleted).2.1
  have hevents := followed h.world h.harmony.outcome
  have hobservations := h.harmony.observations
  rw [hctl] at hevents hobservations
  rw [World.steps, h.harmony.setup] at hnext
  rw [hnext] at hevents hobservations
  refine ⟨hpassed, ?_, hobservations⟩
  simpa [Ctl.pending, h.harmony.setup] using hevents

/-- The schedule of a cooperative program passes in every order of the steps: when `run_schedule`
returns, its report shows the planned events and the answers of the observer; every run can be
continued to the return, and none goes on for ever with steps that change something. -/
theorem cooperative_passes (c : Cooperation) :
    (∀ p, c.plays.Reachable p → p.drive.loop = .returned →
      p.drive.world.report.passed = true ∧
      p.drive.world.report.events = c.setup.plannedRows c.setup.schedule.steps.length ∧
      p.drive.world.report.observations =
        (List.range (c.setup.schedule.steps.length + 1)).map fun k =>
          SharedState.observationRow c.setup.serde k (c.values k)) ∧
    (∀ p, c.plays.Reachable p → ∃ actions p', c.plays.run p actions = some p' ∧
      p'.drive.loop = .returned) ∧
    ¬ ∃ f : ℕ → Play, c.plays.Reachable (f 0) ∧
      ∀ n, f (n + 1) ≠ f n ∧ ∃ action, c.plays.step (f n) action = some (f (n + 1)) :=
  ⟨fun _ hp => (concert hp).returned,
    fun _ hp => (plays_descends c).reaches (fun _ hp hloop => (concert hp).enabled hloop) hp,
    (plays_descends c).finite⟩

namespace Solo

def cooperation : Cooperation where
  setup := setup
  values _ := .null
  admitted := admitted
  accepted _ _ := by decide +kernel
  evidence := by
    have hplanned := (@plannedRows_bytes setup admitted setup.schedule.steps.length le_rfl).2
    have hlength : setup.schedule.steps.length = 2 := rfl
    have hnull : Json.null.bytes = 4 := Json.bytes_eq .null
    simp only [hlength, hnull] at hplanned ⊢
    have hsum : ((List.range 3).map fun _ => 4).sum = 12 := rfl
    rw [hsum, evidenceLimit]
    omega

end Solo

theorem cooperative_passes_solo : ∃ p actions p',
    Solo.cooperation.plays.Reachable p ∧ Solo.cooperation.plays.run p actions = some p' ∧
      p'.drive.world.report.passed = true ∧ p'.drive.world.report.observations.length = 3 := by
  obtain ⟨hpassed, hreturns, -⟩ := cooperative_passes Solo.cooperation
  have hinit : Solo.cooperation.plays.Reachable
      { drive := .new Solo.setup false 1 "0123456789abcdef0123456789abcdef", calls := fun _ => 0 } :=
    .init ⟨1, "0123456789abcdef0123456789abcdef", rfl⟩
  obtain ⟨actions, p', hrun, hreturned⟩ := hreturns _ hinit
  obtain ⟨hreport, -, hobservations⟩ := hpassed p' (hinit.run hrun) hreturned
  refine ⟨_, actions, p', hinit, hrun, hreport, ?_⟩
  rw [hobservations, List.length_map, List.length_range]
  rfl

end MirrorRust
