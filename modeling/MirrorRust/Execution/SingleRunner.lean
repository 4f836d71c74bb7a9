import MirrorRust.Execution.Frame
import MirrorRust.Admission

/-! At most one worker runs, only one that has been permitted, and none during an
observation. -/
namespace MirrorRust

namespace Ctl

/-- The controller neither holds the lock during a callback nor waits for an interval. -/
def clear : Ctl → Bool
  | .callback _ | .judging _ _ | .waiting _ _ | .arrived _ _ => false
  | _ => true

end Ctl

/-- The permit of actor `i` is on record. -/
def World.Permitted (w : World) (i : ℕ) : Prop :=
  ∃ d, w.setup.adapter.actors[i]? = some d ∧ ∃ row ∈ w.report.events,
    row.index "kind" = .string "permit" ∧ row.index "actor" = .string d.actor

structure Licensed (w : World) : Prop where
  permitted : ∀ i, w.shared.phase? i = some .running ∨ i ∈ w.entered → w.Permitted i
  active : ∀ (i : ℕ) (t : Thread), w.threads[i]? = some t → t.isActive = true → i ∈ w.entered
  locked : w.locked = true → w.shared.stopping = false
  target : ∀ i requested, w.ctl = .waiting i requested ∨ w.ctl = .arrived i requested →
    w.steps[w.next]? = some requested ∧
      ∃ a, w.shared.actors[i]? = some a ∧ a.declaration.actor = requested.actor

theorem SharedState.eventRow_kind (s : SharedState) (kind : String) (step : ℕ) (a : Actor) :
    (s.eventRow kind step a).index "kind" = .string kind := by
  simp [eventRow, Assoc.get?]

theorem SharedState.eventRow_actor (s : SharedState) (kind : String) (step : ℕ) (a : Actor) :
    (s.eventRow kind step a).index "actor" = .string a.declaration.actor := by
  simp [eventRow, Assoc.get?]

theorem Coordinated.declaration {w : World} (h : Coordinated w) {i : ℕ} {a : Actor}
    (ha : w.shared.actors[i]? = some a) : w.setup.adapter.actors[i]? = some a.declaration := by
  rcases h.declared with hnil | hmap
  · simp [hnil] at ha
  · rw [← hmap, List.getElem?_map, ha]
    rfl

namespace Licensed
variable {w w' : World} {c : Ctl} (h : Licensed w)
include h

/-- What matters of a move that ends at a clear place. -/
theorem clear (hsetup : w'.setup = w.setup) (hevents : w.report.events ⊆ w'.report.events)
    (hrunning : ∀ i, w'.shared.phase? i = some .running → w.shared.phase? i = some .running)
    (hentered : w'.entered = w.entered)
    (hactive : ∀ (i : ℕ) (t : Thread), w'.threads[i]? = some t → t.isActive = true →
      ∃ u, w.threads[i]? = some u ∧ u.isActive = true)
    (hc : w'.ctl.clear = true) : Licensed w' := by
  refine ⟨fun i hi => ?_, fun i t ht hact => ?_, fun hl => ?_, fun i requested hctl => ?_⟩
  · obtain ⟨d, hd, row, hrow, hkind⟩ := h.permitted i (hi.imp (hrunning i) (hentered ▸ id))
    exact ⟨d, by rwa [hsetup], row, hevents hrow, hkind⟩
  · obtain ⟨u, hu, hact⟩ := hactive i t ht hact
    exact hentered ▸ h.active i u hu hact
  · cases hctl : w'.ctl <;> simp_all [World.locked, Ctl.clear]
  · rcases hctl with hctl | hctl <;> simp [hctl, Ctl.clear] at hc

theorem goto (hc : c.clear = true) : Licensed (w.goto c) :=
  h.clear rfl (List.Subset.refl _) (fun _ => id) rfl (fun _ t ht hact => ⟨t, ht, hact⟩) hc

theorem fails {s : SharedState} (hs : w.shared.Fails s) (hc : c.clear = true) :
    Licensed ({ w with shared := s }.goto c) := by
  refine h.clear rfl ?_ (fun i hi => ?_) rfl (fun _ t ht hact => ⟨t, ht, hact⟩) hc
  · exact fun row hrow => hs.events ▸ hrow
  · simpa [World.goto, SharedState.phase?, hs.actors] using hi

theorem turn (hw : Turn w c w') (hc : c.clear = true) : Licensed w' := by
  cases hw with
  | goes => exact h.goto hc
  | fails hs => exact h.fails hs hc

/-- The handles of the threads do not matter. -/
theorem handles {f : Thread → Thread} (hf : ∀ t, (f t).pc = t.pc) (i : ℕ) (hc : c.clear = true) :
    Licensed ((w.setThread i f).goto c) := by
  refine h.clear rfl (List.Subset.refl _) (fun _ => id) rfl (fun j t ht hact => ?_) hc
  simp only [World.goto, World.setThread, List.getElem?_modify] at ht
  by_cases hij : i = j
  · subst hij
    obtain ⟨u, hu, rfl⟩ := Option.map_eq_some_iff.mp ht
    refine ⟨u, hu, ?_⟩
    simpa [Thread.isActive, hf] using hact
  · exact ⟨t, by simpa [hij] using ht, hact⟩

theorem callCleanup (timeout : Duration) : Licensed (w.callCleanup timeout) := by
  rcases w.callCleanup_spec timeout with ⟨-, heq⟩ | ⟨-, heq⟩ <;> rw [heq]
  · exact h.goto rfl
  · exact h.goto rfl

theorem enter (inCallback : Bool) : Licensed (w.enter inCallback) := by
  unfold World.enter
  split
  case h_1 kind message herror =>
    have hs : w.shared.Fails (w.fail kind message).shared :=
      SharedState.fails_fail (World.admission_error herror)
    exact { h.fails (c := .idle) hs rfl with }
  case h_2 => exact h.goto rfl

theorem declare : Licensed w.declare := by
  refine h.clear rfl (List.Subset.refl _) (fun i hi => ?_) rfl (fun _ t ht hact => ⟨t, ht, hact⟩) ?_
  · simp only [World.declare, World.spawnFrom, World.goto, SharedState.phase?,
      List.getElem?_map, Option.map_map, Option.map_eq_some_iff] at hi
    obtain ⟨d, -, hphase⟩ := hi
    simp [World.newActor] at hphase
  · simp only [World.declare, World.spawnFrom, World.goto]
    split_ifs <;> rfl

theorem checkWorkers (workers : List String) (hc : w.ctl.clear = true) :
    Licensed (w.checkWorkers workers) := by
  rcases w.checkWorkers_spec workers with heq | ⟨s, hs, heq⟩ <;> rw [heq]
  · exact h
  · exact h.fails hs hc

theorem create (hctl : w.ctl = .creating) (result : FactoryResult) : Licensed (w.create result) := by
  have hfailed : ∀ e, Licensed ((w.fail .applicationFailed e).goto .idle) := fun e =>
    h.fails (SharedState.fails_fail (by decide)) rfl
  cases result with
  | error e => exact { hfailed e with }
  | panic => exact { hfailed "factory panicked" with }
  | program workers =>
    have hacquired : Licensed { w with acquired := true } := { h with }
    have hchecked := hacquired.checkWorkers workers (by rw [show _ = w.ctl from rfl, hctl]; rfl)
    simp only [World.create, World.acquire]
    split_ifs
    · exact hchecked.callCleanup _
    · exact hchecked.declare

theorem spawn (i : ℕ) (result : Except String ThreadId) : Licensed (w.spawn i result) := by
  cases result with
  | error e => exact h.fails (SharedState.fails_fail (by decide)) rfl
  | ok thread =>
    refine h.clear rfl (List.Subset.refl _) (fun _ => id) rfl (fun j t ht hact => ?_) ?_
    · rcases Nat.lt_or_ge j w.threads.length with hj | hj
      · exact ⟨t, by rwa [← List.getElem?_append_left hj], hact⟩
      · simp only [World.spawn, World.spawnFrom, World.goto, List.getElem?_append_right hj,
          List.getElem?_singleton] at ht
        split_ifs at ht
        cases ht
        cases hact
    · simp only [World.spawn, World.spawnFrom, World.goto]
      split_ifs <;> rfl

theorem startWait (expired : Bool) : Licensed (w.startWait expired) := by
  rcases w.startWait_spec expired with ⟨-, heq⟩ | ⟨-, heq⟩ | ⟨s, hs, heq⟩ | heq <;> rw [heq]
  · exact h.goto rfl
  · exact h.goto rfl
  · exact h.fails hs rfl
  · exact h

theorem observe (caller : Caller) : Licensed (w.observe caller) := by
  rw [World.observe]
  split_ifs with hs
  · exact h.goto rfl
  · exact h.fails (SharedState.fails_fail (by decide)) rfl
  · exact ⟨h.permitted, h.active, fun _ => Bool.not_eq_true _ ▸ hs, by simp [World.goto]⟩

theorem observer {caller : Caller} (hctl : w.ctl = .callback caller) (result : CallResult Json) :
    Licensed (w.observer caller result) :=
  ⟨h.permitted, h.active, fun _ => h.locked (by simp [World.locked, hctl]),
    by simp [World.observer, World.goto]⟩

theorem judge (caller : Caller) (result : CallResult Json) (expired : Bool) :
    Licensed (w.judge caller result expired) := by
  rw [World.judge]
  rcases w.shared.judge_spec w.setup.serde w.cancelled expired w.next result with hs | ⟨-, value, -, heq⟩
  · exact h.fails hs rfl
  · rw [heq]
    exact h.clear rfl (List.Subset.refl _) (fun _ => id) rfl (fun _ t ht hact => ⟨t, ht, hact⟩) rfl

theorem outcomeCheck (caller : Caller) : Licensed (w.outcomeCheck caller) := by
  rw [World.outcomeCheck]
  split_ifs
  · exact h.callCleanup _
  · exact h.goto rfl
  · exact h.goto rfl

theorem advance (hcoordinated : Coordinated w) (requested : Step) (expired : Bool) :
    Licensed (w.advance requested expired) := by
  rw [World.advance]
  split_ifs
  · exact h
  rcases w.shared.permit_spec w.cancelled expired w.steps w.next requested with
    ⟨s, hs, heq⟩ | ⟨i, a, ha, -, hname, hstep, heq⟩
  · rw [heq]
    exact h.fails hs rfl
  rw [heq]
  have hsub : w.report.events ⊆ w.report.events ++ [w.shared.eventRow "permit" w.next a] :=
    List.subset_append_left _ _
  by_cases hstop : w.shared.stopping = true
  · rw [if_pos hstop]
    exact h.clear rfl hsub (fun _ => id) rfl (fun _ t ht hact => ⟨t, ht, hact⟩) rfl
  · rw [if_neg hstop]
    have hd := hcoordinated.declaration ha
    refine ⟨fun j hj => ?_, h.active, (fun h => by cases h), fun j r hctl => ?_⟩
    · by_cases hij : i = j
      · subst hij
        exact ⟨a.declaration, hd, _, List.mem_append_right _ List.mem_cons_self,
          w.shared.eventRow_kind "permit" w.next a, w.shared.eventRow_actor "permit" w.next a⟩
      · have hold : w.shared.phase? j = some .running ∨ j ∈ w.entered := by
          refine hj.imp_left fun hrun => ?_
          simpa [World.goto, SharedState.phase?, SharedState.setPhase, SharedState.modifyActor,
            SharedState.pushEvent, hij] using hrun
        obtain ⟨d, hd, row, hrow, hkind⟩ := h.permitted j hold
        exact ⟨d, hd, row, hsub hrow, hkind⟩
    · rcases hctl with hctl | hctl
      · cases hctl
        refine ⟨hstep, { a with phase := .running }, ?_, hname⟩
        simp [World.goto, SharedState.setPhase, SharedState.modifyActor, SharedState.pushEvent, ha]
      · cases hctl

theorem wait {i : ℕ} {requested : Step} (hctl : w.ctl = .waiting i requested) (expired : Bool) :
    Licensed (w.wait i requested expired) := by
  rcases w.wait_spec i requested expired with ⟨-, heq⟩ | ⟨-, heq⟩ | ⟨s, hs, heq⟩ | heq <;> rw [heq]
  · refine ⟨h.permitted, h.active, nofun, fun j r hj => ?_⟩
    rcases hj with hj | hj
    · cases hj
    · cases hj
      exact h.target _ _ (Or.inl hctl)
  · exact h.goto rfl
  · exact h.fails hs rfl
  · exact h

theorem arrival (i : ℕ) (requested : Step) : Licensed (w.arrival i requested) := by
  cases ha : w.shared.actors[i]? with
  | none =>
    rw [World.arrival_none requested ha]
    exact h.goto rfl
  | some a =>
    obtain ⟨s, heq, hs⟩ := World.arrival_some requested ha
    have hc : (World.afterArrival i a.phase).clear = true := by
      rw [World.afterArrival]
      split_ifs <;> rfl
    have hpush : Licensed { w with shared := w.shared.pushEvent "arrival" w.next a } := by
      refine ⟨fun j hj => ?_, h.active, h.locked, h.target⟩
      obtain ⟨d, hd, row, hrow, hkind⟩ := h.permitted j hj
      exact ⟨d, hd, row, List.mem_append_left _ hrow, hkind⟩
    rw [heq]
    rcases hs with hs | hs | ⟨-, rfl⟩
    · exact h.fails hs hc
    · exact hpush.fails hs hc
    · exact hpush.goto hc

theorem join {i : ℕ} (hw : w.join i = some w') : Licensed w' := by
  rcases World.join_spec hw with ⟨rfl, -⟩ | ⟨t, c, -, -, hc, rfl⟩
  · exact h.goto rfl
  · refine h.handles (f := fun t => { t with handle := false }) (fun _ => rfl) i ?_
    rcases hc with rfl | rfl <;> rfl

theorem checkArrival : Licensed w.checkArrival := by
  rw [World.checkArrival]
  split_ifs
  · exact h.clear rfl (List.Subset.refl _) (fun _ => id) rfl (fun _ t ht hact => ⟨t, ht, hact⟩) rfl
  · exact h.goto rfl

theorem dropJoin {i : ℕ} (hw : w.dropJoin i = some w') : Licensed w' := by
  rcases World.dropJoin_spec hw with ⟨-, rfl⟩ | ⟨t, -, -, rfl⟩
  · exact h.goto (by split_ifs <;> rfl)
  · exact h.handles (f := fun t => { t with handle := false }) (fun _ => rfl) i rfl

theorem complete : Licensed w.complete := by
  have hdone : Licensed { w with shared := { w.shared with
      report := { w.report with scheduleCompleted := true } } } := { h with }
  exact hdone.callCleanup _

theorem clean : Licensed w.clean := by
  rw [World.clean]
  rcases w.shared.beginCleanup_spec with ⟨-, hs⟩ | ⟨-, heq⟩
  · exact h.fails hs rfl
  · rw [heq]
    exact { h.goto (c := .draining) rfl with locked := (fun h => by cases h) }

theorem finish : Licensed w.finish := by
  rw [World.finish]
  split_ifs
  · exact h
  · have hfails : w.shared.Fails
        (w.fail .invalidSchedule "execution finished before all intervals").shared :=
      SharedState.fails_fail (by decide)
    rcases World.callCleanup_spec { w with shared := _ } w.setup.policy.cleanupTimeout with
      ⟨-, heq⟩ | ⟨-, heq⟩
    · exact heq ▸ h.fails hfails rfl
    · exact heq ▸ h.fails hfails rfl
  · exact h.callCleanup _

theorem drain (expired : Bool) : Licensed (w.drain expired) := by
  rw [World.drain]
  split_ifs
  · exact h
  · exact h.goto rfl

theorem reap (i : ℕ) : Licensed (w.reap i) := by
  rw [World.reap]
  split_ifs
  · exact h.handles (fun t => by split_ifs <;> rfl) i rfl
  · exact { h.goto (c := .idle) rfl with }
  · exact h.goto rfl
  · exact h.goto rfl

theorem beside (hb : Beside w w') : Licensed w' := by
  refine ⟨fun i hi => ?_, fun i t ht hact => ?_, fun hl => ?_, fun i requested hctl => ?_⟩
  · have hold : w.shared.phase? i = some .running ∨ i ∈ w.entered := by
      rcases hi with hi | hi
      · exact Or.inl (hb.running i hi)
      · exact (hb.entered i hi).symm
    obtain ⟨d, hd, row, hrow, hkind⟩ := h.permitted i hold
    exact ⟨d, by rwa [hb.setup], row, by rwa [hb.report.events], hkind⟩
  · rcases hb.active i t ht hact with hi | ⟨u, hu, hact⟩
    · exact hi
    · exact hb.kept i (h.active i u hu hact)
  · have hold : w.locked = true := by
      rw [← hl, World.locked, World.locked, hb.ctl]
    rw [hb.locked hold]
    exact h.locked hold
  · rw [hb.ctl] at hctl
    obtain ⟨hstep, a, ha, hname⟩ := h.target i requested hctl
    obtain ⟨a', ha', hd⟩ := hb.actor i a ha
    refine ⟨?_, a', ha', hd ▸ hname⟩
    rwa [World.steps, hb.setup, hb.next]

theorem controlMove (hcoordinated : Coordinated w) {action : Action}
    (hw : ControlMove w action w') : Licensed w' := by
  cases hw with
  | enter => exact h.enter _
  | create hctl => exact h.create hctl _
  | spawn => exact h.spawn _ _
  | startWait => exact h.startWait _
  | observe => exact h.observe _
  | observer hctl => exact h.observer hctl _
  | judge => exact h.judge _ _ _
  | outcomeCheck => exact h.outcomeCheck _
  | wait hctl => exact h.wait hctl _
  | arrival => exact h.arrival _ _
  | join _ hw => exact h.join hw
  | joinFailed => exact h.fails (SharedState.fails_fail (by decide)) rfl
  | checkArrival => exact h.checkArrival
  | complete => exact h.complete
  | clean => exact h.clean
  | drain => exact h.drain _
  | reap => exact h.reap _
  | tear => exact { h.goto (c := .recording _) rfl with }
  | record => exact { h.goto (c := .idle) rfl with }
  | advance => exact h.advance hcoordinated _ _
  | finish => exact h.finish
  | cleanup => exact h.callCleanup _
  | foreignCall => exact h
  | drop => exact { h.goto (c := .dropping 0) rfl with locked := nofun }
  | dropJoin _ hw => exact h.dropJoin hw
  | dropTeardown => exact { h.goto (c := .dropped) rfl with }

end Licensed

theorem licensed {w : World} (h : execution.Reachable w) : Licensed w := by
  refine h.invariant (fun w ⟨setup, cancelled, generation, id, hw⟩ => ?_)
    fun w a w' hr hs hw => ?_
  · subst hw
    refine ⟨fun i hi => ?_, by simp [World.new], by simp [World.new], by simp [World.new]⟩
    simp [World.new, SharedState.phase?] at hi
  · rcases World.step_move hw with hw | hw
    · exact hs.controlMove (coordinated hr) hw
    · exact hs.beside hw.beside

section Reachable
variable {w : World} (h : execution.Reachable w)
include h

/-- The only actor that can run is the one that the advance in progress has permitted. -/
theorem running_requested (hs : w.shared.stopping = false) {i : ℕ}
    (hi : w.shared.phase? i = some .running) :
    ∃ requested, w.ctl = .waiting i requested ∧ w.steps[w.next]? = some requested ∧
      ∃ a, w.shared.actors[i]? = some a ∧ a.declaration.actor = requested.actor := by
  have hc := coordinated h
  obtain ⟨a, ha, hphase⟩ := Option.map_eq_some_iff.mp hi
  obtain ⟨t, ht⟩ : ∃ t, w.threads[i]? = some t := by
    by_contra hnone
    have hle : w.threads.length ≤ i := by
      by_contra hlt
      exact hnone ⟨_, List.getElem?_eq_getElem (by omega)⟩
    simp [(hc.unspawned i a ha hle).1] at hphase
  obtain ⟨requested, hctl⟩ := ((hc.live hs).seat i a t ha ht).running hphase
  exact ⟨requested, hctl, (licensed h).target i requested (Or.inl hctl)⟩

/-- During the callback of the observer every actor is parked, or its thread has been joined. -/
theorem callback_quiescent {caller : Caller} (hctl : w.ctl = .callback caller) {i : ℕ} {a : Actor}
    (ha : w.shared.actors[i]? = some a) :
    ∃ t, w.threads[i]? = some t ∧
      ((a.phase = .parked ∧ (t.pc = .barrier ∨ t.pc = .arriving)) ∨
        (a.phase = .finished ∧ t.isFinished = true ∧ t.handle = false)) := by
  have hc := coordinated h
  have hlive := hc.live ((licensed h).locked (by simp [World.locked, hctl]))
  have hlt : i < w.threads.length := by
    rw [hlive.all (by simp [hctl, Ctl.launching])]
    exact (List.getElem?_eq_some_iff.mp ha).1
  have ht := List.getElem?_eq_getElem hlt
  have htable := hc.table i a _ ha ht
  have hseat := hlive.seat i a _ ha ht
  refine ⟨_, ht, ?_⟩
  have hrun : a.phase ≠ .running := fun hphase => by
    obtain ⟨requested, hw⟩ := hseat.running hphase
    simp [hctl] at hw
  cases hphase : a.phase with
  | starting => simpa [hctl, Ctl.launching] using hseat.starting hphase
  | running => exact absurd hphase hrun
  | parked =>
    refine Or.inl ⟨rfl, ?_⟩
    have hstarting := htable.starting.not.mp (by simp [hphase])
    have hend := htable.finished.not.mp (by simp [hphase])
    have hin := hseat.entered.mt hrun
    cases hpc : w.threads[i].pc <;> simp_all [Thread.isFinished]
  | finished =>
    refine Or.inr ⟨rfl, ?_⟩
    have hhandle : w.threads[i].handle = false := by
      by_contra hh
      simpa [hctl, Ctl.attends] using hseat.finished hphase (by simpa using hh)
    exact ⟨htable.joined hhandle, hhandle⟩

/-- The failure branch of `observe` for running actors is never taken. -/
theorem observing_quiescent {caller : Caller} (hctl : w.ctl = .observing caller)
    (hs : w.shared.stopping = false) : w.shared.quiescent = true := by
  have hc := coordinated h
  have hlive := hc.live hs
  simp only [SharedState.quiescent, List.all_eq_true]
  intro a hmem
  obtain ⟨i, ha⟩ := List.getElem?_of_mem hmem
  have hlt : i < w.threads.length := by
    rw [hlive.all (by simp [hctl, Ctl.launching])]
    exact (List.getElem?_eq_some_iff.mp ha).1
  have hseat := hlive.seat i a _ ha (List.getElem?_eq_getElem hlt)
  cases hphase : a.phase with
  | starting => simpa [hctl, Ctl.launching] using hseat.starting hphase
  | running =>
    obtain ⟨requested, hw⟩ := hseat.running hphase
    simp [hctl] at hw
  | parked => decide
  | finished => decide

end Reachable

/-- At every moment at most one worker runs, namely the one that the current `advance` has
permitted; no function of a worker is entered before its permit; and an observation finds every
actor parked or joined. -/
theorem single_runner_quiescent_observation {w : World} (h : execution.Reachable w) :
    (w.shared.stopping = false →
      (∀ i j, w.shared.phase? i = some .running → w.shared.phase? j = some .running → i = j) ∧
      ∀ i, w.shared.phase? i = some .running →
        ∃ requested, w.ctl = .waiting i requested ∧ w.steps[w.next]? = some requested ∧
          ∃ a, w.shared.actors[i]? = some a ∧ a.declaration.actor = requested.actor) ∧
    (∀ i, (i ∈ w.entered ∨ ∃ t, w.threads[i]? = some t ∧ t.isActive = true) → w.Permitted i) ∧
    (∀ caller, w.ctl = .callback caller → ∀ (i : ℕ) (a : Actor), w.shared.actors[i]? = some a →
      ∃ t : Thread, w.threads[i]? = some t ∧
        ((a.phase = .parked ∧ (t.pc = .barrier ∨ t.pc = .arriving)) ∨
          (a.phase = .finished ∧ t.isFinished = true ∧ t.handle = false))) ∧
    (∀ caller, w.ctl = .observing caller → w.shared.stopping = false →
      w.shared.quiescent = true) := by
  refine ⟨fun hs => ⟨fun i j hi hj => ?_, fun i hi => running_requested h hs hi⟩, fun i hi => ?_,
    fun caller hctl i a ha => callback_quiescent h hctl ha,
    fun caller hctl hs => observing_quiescent h hctl hs⟩
  · obtain ⟨r, hr, -⟩ := running_requested h hs hi
    obtain ⟨q, hq, -⟩ := running_requested h hs hj
    rw [hr] at hq
    cases hq
    rfl
  · rcases hi with hi | ⟨t, ht, hact⟩
    · exact (licensed h).permitted i (Or.inr hi)
    · exact (licensed h).permitted i (Or.inr ((licensed h).active i t ht hact))

/-! ### Runs of the admitted schedules -/

theorem World.step_enter {setup : Setup}
    (h : admitSchedule setup.serde setup.schedule setup.adapter setup.policy = .ok ())
    (generation : ℕ) (executionId : String) :
    execution.step (.new setup false generation executionId) (.enter false) =
      some ((World.new setup false generation executionId).goto .creating) := by
  have hadmission : (World.new setup false generation executionId).admission false = .ok () := by
    rw [World.admission, if_neg Bool.false_ne_true, if_neg (by simp [World.new])]
    exact h
  show some ((World.new setup false generation executionId).enter false) = _
  rw [World.enter, hadmission]

theorem World.reachable_creating {setup : Setup}
    (h : admitSchedule setup.serde setup.schedule setup.adapter setup.policy = .ok ())
    (generation : ℕ) (executionId : String) :
    execution.Reachable ((World.new setup false generation executionId).goto .creating) :=
  .step (.init ⟨setup, false, generation, executionId, rfl⟩) (World.step_enter h _ _)

namespace Solo

def setup : Setup := { schedule := schedule, adapter := adapter, policy := .default, serde := .plain }

def world : World := .new setup false 1 "0123456789abcdef0123456789abcdef"

/-- An execution up to its first permit. -/
def started : List Action :=
  [.create (.program ["a"]), .spawn (.ok 7), .start 0, .control false, .control false,
    .observer (.ok .null), .control false, .control false, .advance ⟨"a", "read"⟩ false]

/-- The steps that follow, when everything goes well. -/
def finished : List Action :=
  [.wake 0, .arrive 7 0 "read", .control false, .control false, .control false, .control false,
    .observer (.ok .null), .control false, .control false, .advance ⟨"a", COMPLETION⟩ false,
    .wake 0, .returns 0 (.ok ()), .settle 0, .control false, .control false, .terminate 0 false,
    .control false, .control false, .control false, .observer (.ok .null), .control false,
    .control false, .control false, .control false, .control false, .control false,
    .control false, .teardown (.ok ()), .control false]

theorem step_enter : execution.step world (.enter false) = some (world.goto .creating) :=
  @World.step_enter setup admitted _ _

theorem reachable_creating : execution.Reachable (world.goto .creating) :=
  @World.reachable_creating setup admitted _ _

end Solo

namespace Duo

def setup : Setup :=
  { schedule := schedule, adapter := adapter, policy := .default, serde := Exponent.signing }

def world : World := .new setup false 1 "0123456789abcdef0123456789abcdef"

/-- An execution up to the interval of the second actor, while the first one is at its checkpoint.
The second thread is the first to start. -/
def started : List Action :=
  [.create (.program ["a", "b"]), .spawn (.ok 7), .spawn (.ok 8), .start 1, .start 0,
    .control false, .control false, .observer (.ok (.number "1e5")), .control false, .control false,
    .advance ⟨"a", "read"⟩ false, .wake 0, .arrive 7 0 "read", .control false, .control false,
    .control false, .control false, .observer (.ok .null), .control false, .control false,
    .advance ⟨"b", COMPLETION⟩ false, .wake 1]

theorem reachable_creating : execution.Reachable (world.goto .creating) :=
  @World.reachable_creating setup admitted _ _

theorem run_started : ((execution.run (world.goto .creating) started).map fun w =>
    (w.shared.stopping, w.shared.phase? 0, w.shared.phase? 1)) =
      some (false, some .parked, some .running) := by
  decide +kernel

end Duo

theorem single_runner_quiescent_observation_duo : ∃ w, execution.Reachable w ∧
    w.shared.phase? 0 = some .parked ∧ w.shared.phase? 1 = some .running ∧
      (∀ i, w.shared.phase? i = some .running → i = 1) ∧
      ∃ requested, w.ctl = .waiting 1 requested ∧ w.steps[w.next]? = some requested ∧
        ∃ a, w.shared.actors[1]? = some a ∧ a.declaration.actor = requested.actor := by
  obtain ⟨w, hw, hphases⟩ := Option.map_eq_some_iff.mp Duo.run_started
  have hr := Duo.reachable_creating.run hw
  simp only [Prod.mk.injEq] at hphases
  obtain ⟨hstopping, hparked, hrunning⟩ := hphases
  obtain ⟨hone, hrequested⟩ := (single_runner_quiescent_observation hr).1 hstopping
  exact ⟨w, hr, hparked, hrunning, fun i hi => hone i 1 hi hrunning, hrequested 1 hrunning⟩

end MirrorRust
