import MirrorRust.Execution.Coordination

/-! What a move leaves alone: a worker does not touch what belongs to the controller, and most
moves of the controller only carry it on or latch a failure. -/
namespace MirrorRust

/-- A report at most gains a failure, and none when it has one. -/
def Report.Latches (r r' : Report) : Prop :=
  r' = r ∨ (r.outcome = .completed ∧ ∃ o d, o ≠ .completed ∧
    r' = { r with outcome := o, detail := d })

theorem SharedState.Fails.latches {s s' : SharedState} (h : s.Fails s') :
    s.report.Latches s'.report := by
  obtain ⟨o, d, b, ho, rfl⟩ := h
  by_cases hs : s.report.outcome = .completed
  · refine Or.inr ⟨hs, o, d, ho, ?_⟩
    simp only [SharedState.fail, hs, if_true]
  · exact Or.inl (SharedState.fail_latched hs)

namespace Report.Latches
variable {r r' : Report} (h : r.Latches r')
include h

theorem outcome (ho : r.outcome ≠ .completed) : r'.outcome ≠ .completed := by
  rcases h with rfl | ⟨hr, -⟩
  · exact ho
  · exact absurd hr ho

theorem completed (ho : r'.outcome = .completed) : r' = r := by
  rcases h with rfl | ⟨-, o, d, hne, rfl⟩
  · rfl
  · exact absurd ho hne

theorem events : r'.events = r.events := by
  rcases h with rfl | ⟨-, o, d, -, rfl⟩ <;> rfl

theorem observations : r'.observations = r.observations := by
  rcases h with rfl | ⟨-, o, d, -, rfl⟩ <;> rfl

theorem scheduleCompleted : r'.scheduleCompleted = r.scheduleCompleted := by
  rcases h with rfl | ⟨-, o, d, -, rfl⟩ <;> rfl

theorem cleanup : r'.cleanup = r.cleanup := by
  rcases h with rfl | ⟨-, o, d, -, rfl⟩ <;> rfl

theorem remainingActors : r'.remainingActors = r.remainingActors := by
  rcases h with rfl | ⟨-, o, d, -, rfl⟩ <;> rfl

theorem cleanupAttempts : r'.cleanupAttempts = r.cleanupAttempts := by
  rcases h with rfl | ⟨-, o, d, -, rfl⟩ <;> rfl

end Report.Latches

/-! ### Workers -/

/-- `w'` is `w` after a move of a worker. -/
structure Beside (w w' : World) : Prop where
  setup : w'.setup = w.setup
  acquired : w'.acquired = w.acquired
  next : w'.next = w.next
  closed : w'.closed = w.closed
  ctl : w'.ctl = w.ctl
  teardowns : w'.teardowns = w.teardowns
  observed : w'.observed = w.observed
  cancelled : w.cancelled = true → w'.cancelled = true
  report : w.report.Latches w'.report
  length : w'.threads.length = w.threads.length
  thread : ∀ (i : ℕ) (t : Thread), w.threads[i]? = some t → ∃ t', w'.threads[i]? = some t' ∧
    t'.id = t.id ∧ t'.handle = t.handle ∧ (t.isFinished = true → t' = t)
  actor : ∀ (i : ℕ) (a : Actor), w.shared.actors[i]? = some a →
    ∃ a', w'.shared.actors[i]? = some a' ∧ a'.declaration = a.declaration
  running : ∀ i, w'.shared.phase? i = some .running → w.shared.phase? i = some .running
  entered : ∀ i ∈ w'.entered, i ∈ w.entered ∨ w.shared.phase? i = some .running
  kept : ∀ i ∈ w.entered, i ∈ w'.entered
  active : ∀ (i : ℕ) (t' : Thread), w'.threads[i]? = some t' → t'.isActive = true →
    i ∈ w'.entered ∨ ∃ t, w.threads[i]? = some t ∧ t.isActive = true
  locked : w.locked = true → w'.shared = w.shared
  ended : (∀ t ∈ w.threads, t.isFinished = true) → w'.shared = w.shared

namespace Beside
variable {w : World}

/-- A worker whose thread has not ended moves to `pc` and leaves the shared state `s`. -/
theorem move {i : ℕ} {t : Thread} {s : SharedState} (pc : Pc) (ht : w.threads[i]? = some t)
    (hend : t.isFinished = false) (hactive : pc.active = true → t.isActive = true)
    (hreport : w.report.Latches s.report)
    (hactors : s.actors.map Actor.declaration = w.shared.actors.map Actor.declaration)
    (hrunning : ∀ j, s.phase? j = some .running → w.shared.phase? j = some .running)
    (hlocked : w.locked = true → s = w.shared) :
    Beside w ({ w with shared := s }.setPc i pc) := by
  refine ⟨rfl, rfl, rfl, rfl, rfl, rfl, rfl, id, hreport, List.length_modify .., fun j u hu => ?_,
    fun j a ha => ?_, hrunning, fun j hj => Or.inl hj, fun _ => id, fun j u hu hact => ?_, hlocked, fun hall => ?_⟩
  · by_cases hij : i = j
    · subst hij
      obtain rfl : u = t := Option.some.inj (hu.symm.trans ht)
      refine ⟨{ u with pc := pc }, ?_, rfl, rfl, fun hf => ?_⟩
      · simp [World.setPc, World.setThread, ht]
      · simp [hf] at hend
    · refine ⟨u, ?_, rfl, rfl, fun _ => rfl⟩
      simpa [World.setPc, World.setThread, hij] using hu
  · have hmap := congrArg (fun l => l[j]?) hactors
    simp only [List.getElem?_map, ha, Option.map_some, Option.map_eq_some_iff] at hmap
    exact hmap
  · right
    simp only [World.setPc, World.setThread, List.getElem?_modify] at hu
    by_cases hij : i = j
    · subst hij
      obtain rfl : { t with pc := pc } = u := by simpa [ht] using hu
      exact ⟨t, ht, hactive hact⟩
    · exact ⟨u, by simpa [hij] using hu, hact⟩
  · simp [hall t (List.mem_of_getElem? ht)] at hend

/-- A worker latches a failure without moving. -/
theorem fails {i : ℕ} {t : Thread} {s : SharedState} (ht : w.threads[i]? = some t)
    (hend : t.isFinished = false) (hs : w.shared.Fails s) (hlocked : w.locked = false) :
    Beside w { w with shared := s } := by
  refine ⟨rfl, rfl, rfl, rfl, rfl, rfl, rfl, id, hs.latches, rfl,
    fun j u hu => ⟨u, hu, rfl, rfl, fun _ => rfl⟩, fun j a ha => ⟨a, hs.actors ▸ ha, rfl⟩,
    fun j hj => ?_, fun j hj => Or.inl hj, fun _ => id, fun j u hu hact => Or.inr ⟨u, hu, hact⟩, by simp [hlocked], fun hall => ?_⟩
  · simpa [SharedState.phase?, hs.actors] using hj
  · simp [hall t (List.mem_of_getElem? ht)] at hend

theorem refl : Beside w w :=
  ⟨rfl, rfl, rfl, rfl, rfl, rfl, rfl, id, Or.inl rfl, rfl,
    fun _ t ht => ⟨t, ht, rfl, rfl, fun _ => rfl⟩, fun _ a ha => ⟨a, ha, rfl⟩, fun _ => id,
    fun _ => Or.inl, fun _ => id,
    fun _ t ht hact => Or.inr ⟨t, ht, hact⟩, fun _ => rfl, fun _ => rfl⟩

end Beside

theorem Beside.handles {w w' : World} (h : Beside w w') :
    w'.threads.map Thread.handle = w.threads.map Thread.handle := by
  refine List.ext_getElem (by simp [h.length]) fun i hi hi' => ?_
  simp only [List.length_map] at hi'
  obtain ⟨t', ht', -, hh, -⟩ := h.thread i _ (List.getElem?_eq_getElem hi')
  obtain ⟨hlt, rfl⟩ := List.getElem?_eq_some_iff.mp ht'
  simpa using hh

theorem World.remaining_eq (w : World) :
    w.remaining = ((w.setup.adapter.actors.zip (w.threads.map Thread.handle)).filter
      fun p => p.2).map fun p => p.1.actor := by
  rw [World.remaining, List.zip_map_right, List.filter_map, List.map_map]
  rfl

theorem Beside.remaining {w w' : World} (h : Beside w w') : w'.remaining = w.remaining := by
  rw [World.remaining_eq, World.remaining_eq, h.setup, h.handles]

theorem SharedState.phase?_modifyActor {s : SharedState} {i : ℕ} {f : Actor → Actor} (j : ℕ)
    (hf : ∀ a, (f a).phase ≠ .running)
    (hj : (s.modifyActor i f).phase? j = some .running) : s.phase? j = some .running := by
  simp only [SharedState.phase?, SharedState.modifyActor, List.getElem?_modify] at hj ⊢
  cases ha : s.actors[j]? with
  | none => simp [ha] at hj
  | some a =>
    by_cases hij : i = j
    · simp [ha, hij, hf] at hj
    · simpa [ha, hij] using hj

theorem SharedState.declarations_modifyActor (s : SharedState) (i : ℕ) {f : Actor → Actor}
    (hf : ∀ a, (f a).declaration = a.declaration) :
    (s.modifyActor i f).actors.map Actor.declaration = s.actors.map Actor.declaration := by
  refine List.ext_getElem? fun j => ?_
  simp only [modifyActor, List.getElem?_map, List.getElem?_modify]
  cases s.actors[j]? <;> split_ifs <;> simp [hf]

theorem WorkerMove.beside {w w' : World} {action : Action} (h : WorkerMove w action w') :
    Beside w w' := by
  cases h with
  | cancel => exact { Beside.refl with cancelled := fun _ => rfl }
  | @startWorker i t ht hpc hl =>
    refine Beside.move _ ht (by simp [Thread.isFinished, hpc]) ?_ (Or.inl rfl)
      (w.shared.declarations_modifyActor i fun _ => rfl) (fun j hj => ?_) (by simp [hl])
    · split_ifs <;> (intro h; cases h)
    · exact SharedState.phase?_modifyActor j (by simp) hj
  | @wake i t _ ht hl hw =>
    unfold World.wake at hw
    split_ifs at hw with h1 h2 h3 h4 h5 <;> cases hw
    · exact Beside.move _ ht (by simp [Thread.isFinished, h1]) (fun h => by cases h) (Or.inl rfl) rfl
        (fun _ => id) (fun _ => rfl)
    · -- the function of the worker is entered
      refine ⟨rfl, rfl, rfl, rfl, rfl, rfl, rfl, id, Or.inl rfl, List.length_modify ..,
        fun j u hu => ?_, fun j a ha => ⟨a, ha, rfl⟩, fun _ => id, fun j hj => ?_,
        fun j hj => List.mem_cons_of_mem _ hj,
        fun j u hu hact => ?_, fun _ => rfl, fun _ => rfl⟩
      · simp only [World.setPc, World.setThread, List.getElem?_modify]
        by_cases hij : i = j
        · subst hij
          obtain rfl : u = t := Option.some.inj (hu.symm.trans ht)
          refine ⟨{ u with pc := .running }, by simp [ht], rfl, rfl, fun hf => ?_⟩
          simp [Thread.isFinished, h1] at hf
        · exact ⟨u, by simp [hij, hu], rfl, rfl, fun _ => rfl⟩
      · rcases List.mem_cons.mp hj with rfl | hj
        · exact Or.inr h3
        · exact Or.inl hj
      · by_cases hij : i = j
        · exact Or.inl (hij ▸ List.mem_cons_self)
        · refine Or.inr ⟨u, ?_, hact⟩
          simpa [World.setPc, World.setThread, hij] using hu
    · exact Beside.refl
    · exact Beside.move _ ht (by simp [Thread.isFinished, h4])
        (fun _ => by simp [Thread.isActive, Pc.active, h4]) (Or.inl rfl) rfl (fun _ => id) (fun _ => rfl)
    · exact Beside.refl
  | @arrive thread i checkpoint t _ ht hl hw =>
    unfold World.arrive at hw
    split_ifs at hw with hcaller
    simp only [not_or, Bool.not_eq_true', Bool.not_eq_false] at hcaller
    have hend : t.isFinished = false := by
      cases hp : t.pc <;> simp_all [Thread.isActive, Pc.active, Thread.isFinished]
    cases ha : w.shared.actors[i]? with
    | none =>
      have heq : w.shared.arrive w.setup.adapter.checkpoints i thread checkpoint =
          (w.shared, false) := by rw [SharedState.arrive, ha]
      rw [heq] at hw
      cases hw
      exact Beside.refl
    | some a =>
      rcases SharedState.arrive_spec w.setup.adapter.checkpoints thread checkpoint ha with
        ⟨s, hs, heq⟩ | ⟨-, heq⟩ | ⟨-, -, -, -, heq⟩ <;> rw [heq] at hw <;> cases hw
      · exact Beside.fails ht hend hs hl
      · exact Beside.refl
      · exact Beside.move _ ht hend (fun _ => hcaller.2) (Or.inl rfl)
          (w.shared.declarations_modifyActor i fun _ => rfl)
          (fun j hj => SharedState.phase?_modifyActor j (by simp) hj) (by simp [hl])
  | returns ht hpc =>
    exact Beside.move _ ht (by simp [Thread.isFinished, hpc]) (fun h => by cases h) (Or.inl rfl) rfl
      (fun _ => id) (fun _ => rfl)
  | @settle i t _ ht hl hw =>
    unfold World.settle at hw
    split at hw <;> cases hw
    rename_i result hpc
    have hend : t.isFinished = false := by simp [Thread.isFinished, hpc]
    rcases w.shared.settle_spec i result with heq | ⟨s, hs, heq⟩
    · rw [heq]
      exact Beside.move _ ht hend (fun h => by cases h) (Or.inl rfl)
        (w.shared.declarations_modifyActor i fun _ => rfl)
        (fun j hj => SharedState.phase?_modifyActor j (by simp) hj) (by simp [hl])
    · rw [heq]
      refine Beside.move _ ht hend (fun h => by cases h) hs.latches ?_ (fun j hj => ?_) (by simp [hl])
      · rw [← hs.actors]
        exact s.declarations_modifyActor i fun _ => rfl
      have hrun := SharedState.phase?_modifyActor (s := s) j (by simp) hj
      simpa [SharedState.phase?, hs.actors] using hrun
  | terminate ht hpc =>
    exact Beside.move _ ht (by simp [Thread.isFinished, hpc]) (fun h => by cases h) (Or.inl rfl) rfl
      (fun _ => id) (fun _ => rfl)

/-! ### The controller -/

/-- The controller goes on to `c`, latching a failure or not. -/
inductive Turn (w : World) (c : Ctl) : World → Prop
  | goes : Turn w c (w.goto c)
  | fails {s} (hs : w.shared.Fails s) : Turn w c ({ w with shared := s }.goto c)

namespace World
variable {w w' : World}

theorem callCleanup_spec (w : World) (timeout : Duration) :
    ((budget timeout = false ∨ w.closed = true) ∧ w.callCleanup timeout = w.goto .idle) ∨
      (w.closed = false ∧ w.callCleanup timeout = w.goto .cleaning) := by
  rw [callCleanup]
  split_ifs with h
  · exact Or.inl ⟨by simpa using h, rfl⟩
  · simp only [not_or] at h
    exact Or.inr ⟨by simpa using h.2, rfl⟩

/-- A new program is given up after a failure, or its actors are declared. -/
theorem acquire_spec (w : World) (workers : List String) :
    (∃ s, (s = w.shared ∨ w.shared.Fails s) ∧ s.report.outcome ≠ .completed ∧
        w.acquire workers =
          callCleanup { w with acquired := true, shared := s } w.setup.policy.cleanupTimeout) ∨
      (w.report.outcome = .completed ∧ w.acquire workers = declare { w with acquired := true }) := by
  rw [acquire]
  rcases checkWorkers_spec { w with acquired := true } workers with heq | ⟨s, hs, heq⟩ <;> rw [heq]
  · split_ifs with ho
    · exact Or.inl ⟨w.shared, Or.inl rfl, ho, rfl⟩
    · exact Or.inr ⟨not_not.mp ho, rfl⟩
  · exact Or.inl ⟨s, Or.inr hs, hs.outcome, if_pos hs.outcome⟩

/-- A call of `finish` closes the execution, after a failure when an interval is left. -/
theorem finish_spec (w : World) :
    (w.closed = true ∧ w.finish = w) ∨
      (w.closed = false ∧ ∃ s, (s = w.shared ∨ w.shared.Fails s) ∧
        w.finish = callCleanup { w with shared := s } w.setup.policy.cleanupTimeout) := by
  rw [finish]
  split_ifs with hclosed
  · exact Or.inl ⟨hclosed, rfl⟩
  · exact Or.inr ⟨by simpa using hclosed, _, Or.inr (SharedState.fails_fail (by decide)), rfl⟩
  · exact Or.inr ⟨by simpa using hclosed, w.shared, Or.inl rfl, rfl⟩

theorem startWait_spec (w : World) (expired : Bool) :
    (w.shared.allParked = true ∧ w.startWait expired = w.goto (.observing .start)) ∨
      (w.shared.stopping = true ∧ w.startWait expired = w.goto (.outcomeCheck .start)) ∨
      (∃ s, w.shared.Fails s ∧
        w.startWait expired = { w with shared := s }.goto (.outcomeCheck .start)) ∨
      w.startWait expired = w := by
  rw [startWait]
  rcases w.shared.waitFor_spec w.cancelled expired SharedState.allParked with
    ⟨hs, heq⟩ | ⟨s, hs, heq⟩ | ⟨-, hp, heq⟩ | heq <;> rw [heq]
  · exact Or.inr (Or.inl ⟨hs, rfl⟩)
  · exact Or.inr (Or.inr (Or.inl ⟨s, hs, rfl⟩))
  · exact Or.inl ⟨hp, rfl⟩
  · exact Or.inr (Or.inr (Or.inr rfl))

theorem wait_spec (w : World) (i : ℕ) (requested : Step) (expired : Bool) :
    (SharedState.notRunning i w.shared = true ∧ w.wait i requested expired = w.goto (.arrived i requested)) ∨
      (w.shared.stopping = true ∧ w.wait i requested expired = w.goto (.outcomeCheck .advance)) ∨
      (∃ s, w.shared.Fails s ∧
        w.wait i requested expired = { w with shared := s }.goto (.outcomeCheck .advance)) ∨
      w.wait i requested expired = w := by
  rw [wait]
  rcases w.shared.waitFor_spec w.cancelled expired (SharedState.notRunning i) with
    ⟨hs, heq⟩ | ⟨s, hs, heq⟩ | ⟨-, hp, heq⟩ | heq <;> rw [heq]
  · exact Or.inr (Or.inl ⟨hs, rfl⟩)
  · exact Or.inr (Or.inr (Or.inl ⟨s, hs, rfl⟩))
  · exact Or.inl ⟨hp, rfl⟩
  · exact Or.inr (Or.inr (Or.inr rfl))

/-- Where the controller goes from the arrival of an actor in phase `phase`. -/
def afterArrival (i : ℕ) (phase : Phase) : Ctl :=
  if phase = .finished then .joining i else .checkArrival

theorem arrival_none {i : ℕ} (requested : Step) (ha : w.shared.actors[i]? = none) :
    w.arrival i requested = w.goto .checkArrival := by
  have heq : w.shared.arrival w.next i requested = (w.shared, false) := by
    simp [SharedState.arrival, SharedState.retainEvent, ha]
  rw [arrival, heq]
  rfl

theorem arrival_some {i : ℕ} (requested : Step) {a : Actor} (ha : w.shared.actors[i]? = some a) :
    ∃ s, w.arrival i requested = { w with shared := s }.goto (afterArrival i a.phase) ∧
      (w.shared.Fails s ∨ (w.shared.pushEvent "arrival" w.next a).Fails s ∨
        (a.checkpoint = requested.checkpoint ∧ s = w.shared.pushEvent "arrival" w.next a)) := by
  obtain ⟨s, heq, hs⟩ := SharedState.arrival_spec w.next requested ha
  refine ⟨s, ?_, hs⟩
  simp only [arrival, heq, afterArrival, decide_eq_true_eq]

theorem join_spec {i : ℕ} (hw : w.join i = some w') :
    (w' = w.goto .checkArrival ∧ ∀ t, w.threads[i]? = some t → t.handle = false) ∨
      ∃ t c, w.threads[i]? = some t ∧ t.isFinished = true ∧ (c = .joinFailed ∨ c = .checkArrival) ∧
        w' = (w.setThread i fun t => { t with handle := false }).goto c := by
  unfold join at hw
  split at hw
  case h_1 hnone =>
    cases hw
    exact Or.inl ⟨rfl, by simp [hnone]⟩
  case h_2 t ht =>
    split_ifs at hw with hh
    · cases hw
      refine Or.inl ⟨rfl, fun u hu => ?_⟩
      obtain rfl : u = t := Option.some.inj (hu.symm.trans ht)
      simpa using hh
    · split at hw <;> cases hw
      rename_i panicked hpc
      refine Or.inr ⟨t, _, ht, by simp [Thread.isFinished, hpc], ?_, rfl⟩
      cases panicked
      · exact Or.inr rfl
      · exact Or.inl rfl

theorem dropJoin_spec {i : ℕ} (hw : w.dropJoin i = some w') :
    (w.threads.length ≤ i ∧
        w' = w.goto (if !w.closed && w.acquired then .dropTeardown else .dropped)) ∨
      ∃ t, w.threads[i]? = some t ∧ (t.handle = true → t.isFinished = true) ∧
        w' = (w.setThread i fun t => { t with handle := false }).goto (.dropping (i + 1)) := by
  unfold dropJoin at hw
  split at hw
  case h_1 hnone =>
    cases hw
    exact Or.inl ⟨List.getElem?_eq_none_iff.mp hnone, rfl⟩
  case h_2 t ht =>
    split_ifs at hw with hend
    cases hw
    exact Or.inr ⟨t, ht, fun hh => by simpa [hh] using hend, rfl⟩

theorem remaining_eq_nil (h : ∀ t ∈ w.threads, t.handle = false) : w.remaining = [] := by
  rw [remaining, List.map_eq_nil_iff, List.filter_eq_nil_iff]
  intro p hp
  simp [h p.2 (List.of_mem_zip hp).2]

end World
end MirrorRust
