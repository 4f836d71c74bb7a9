import MirrorRust.Execution.Moves

/-! The handshake between the controller and the workers: how the phase of an actor, the
program counter of its thread and the controller fit together in every reachable state. -/
namespace MirrorRust

namespace Ctl

/-- The start barrier has not been passed. -/
def launching : Ctl → Bool
  | .spawning _ | .startWait => true
  | _ => false

/-- The controller deals with the interval of this actor. -/
def attends (i : ℕ) : Ctl → Bool
  | .waiting j _ | .arrived j _ | .joining j => i = j
  | _ => false

/-- The execution is being dropped. -/
def released : Ctl → Bool
  | .dropping _ | .dropTeardown | .dropped => true
  | _ => false

/-- The attempt to spawn the workers is over. -/
def prepared : Ctl → Bool
  | .entering | .creating | .spawning _ => false
  | _ => true

/-- The controller is past the start barrier, attends to no actor and has not been dropped. -/
def free : Ctl → Bool
  | .entering | .creating | .spawning _ | .startWait => false
  | .waiting .. | .arrived .. | .joining _ => false
  | .dropping _ | .dropTeardown | .dropped => false
  | _ => true

theorem launching_of_free {c : Ctl} (h : c.free = true) : c.launching = false := by
  cases c <;> first | rfl | cases h

theorem attends_of_free {c : Ctl} (h : c.free = true) (i : ℕ) : c.attends i = false := by
  cases c <;> first | rfl | cases h

theorem released_of_free {c : Ctl} (h : c.free = true) : c.released = false := by
  cases c <;> first | rfl | cases h

end Ctl

/-- How the record of an actor and its thread fit together, whatever the controller does. -/
structure Table (a : Actor) (t : Thread) : Prop where
  finished : a.phase = .finished ↔ t.pc = .exiting ∨ t.isFinished = true
  completion : a.checkpoint = COMPLETION ↔ a.phase = .finished
  starting : a.phase = .starting ↔ t.pc = .starting
  thread : t.pc ≠ .starting → a.thread = some t.id
  joined : t.handle = false → t.isFinished = true

namespace Pc

/-- The thread has registered and has not left its last region. -/
def inside : Pc → Bool
  | .barrier | .running | .arriving | .returned _ => true
  | _ => false

end Pc

/-- The record of an actor whose thread is inside. -/
structure Inside (a : Actor) (t : Thread) : Prop where
  started : a.phase ≠ .starting
  unfinished : a.phase ≠ .finished
  checkpoint : a.checkpoint ≠ COMPLETION
  thread : a.thread = some t.id
  handle : t.handle = true

theorem Table.inside {a : Actor} {t : Thread} (h : Table a t) (hpc : t.pc.inside = true) :
    Inside a t := by
  have hfinished : t.isFinished = false := by
    cases hp : t.pc <;> simp_all [Pc.inside, Thread.isFinished]
  have hunfinished : a.phase ≠ .finished := by
    rw [Ne, h.finished, hfinished]
    cases hp : t.pc <;> simp_all [Pc.inside]
  have hstarting : t.pc ≠ .starting := by
    intro hp
    simp [hp, Pc.inside] at hpc
  refine ⟨by rwa [Ne, h.starting], hunfinished, by rwa [Ne, h.completion], h.thread hstarting, ?_⟩
  by_contra hh
  simp [h.joined (by simpa using hh)] at hfinished

theorem Inside.table {a : Actor} {t : Thread} (h : Inside a t) (hpc : t.pc.inside = true) :
    Table a t := by
  have hfinished : t.isFinished = false := by
    cases hp : t.pc <;> simp_all [Pc.inside, Thread.isFinished]
  constructor
  · cases hp : t.pc <;> simp_all [Pc.inside, h.unfinished]
  · simp [h.checkpoint, h.unfinished]
  · cases hp : t.pc <;> simp_all [Pc.inside, h.started]
  · exact fun _ => h.thread
  · simp [h.handle]

/-- How an actor, its thread and the controller fit together while nothing has stopped the
execution. -/
structure LiveSeat (c : Ctl) (i : ℕ) (a : Actor) (t : Thread) : Prop where
  entered : t.pc = .running ∨ (∃ r, t.pc = .returned r) → a.phase = .running
  running : a.phase = .running → ∃ requested, c = .waiting i requested
  finished : a.phase = .finished → t.handle = true → c.attends i = true
  starting : a.phase = .starting → c.launching = true

structure Live (w : World) : Prop where
  seat : ∀ (i : ℕ) (a : Actor) (t : Thread), w.shared.actors[i]? = some a →
    w.threads[i]? = some t → LiveSeat w.ctl i a t
  all : w.ctl.launching = false → w.threads.length = w.shared.actors.length

structure Coordinated (w : World) : Prop where
  table : ∀ (i : ℕ) (a : Actor) (t : Thread), w.shared.actors[i]? = some a → w.threads[i]? = some t → Table a t
  unspawned : ∀ (i : ℕ) (a : Actor), w.shared.actors[i]? = some a → w.threads.length ≤ i →
    a.phase = .starting ∧ a.checkpoint ≠ COMPLETION
  spawned : w.threads.length ≤ w.shared.actors.length
  declared : w.shared.actors = [] ∨
    w.shared.actors.map Actor.declaration = w.setup.adapter.actors
  preparing : w.ctl = .entering ∨ w.ctl = .creating → w.threads = [] ∧ w.shared.actors = []
  spawning : ∀ i, w.ctl = .spawning i →
    w.threads.length = i ∧ i < w.shared.actors.length
  failed : w.report.outcome ≠ .completed → w.shared.stopping = true
  stopped : w.shared.stopping = true →
    w.report.outcome ≠ .completed ∨ w.report.scheduleCompleted = true ∨ w.ctl.released = true
  live : w.shared.stopping = false → Live w

/-- The parts of the shared state that the handshake depends on, after a change of the rest. -/
structure SameHandshake (s s' : SharedState) : Prop where
  actors : s'.actors = s.actors
  stopping : s'.stopping = s.stopping
  outcome : s'.report.outcome = s.report.outcome
  completed : s.report.scheduleCompleted = true → s'.report.scheduleCompleted = true

namespace Coordinated
variable {w : World} {c : Ctl} (h : Coordinated w)
include h

/-- A joined thread has ended. -/
theorem ended_of_joined {t : Thread} (ht : t ∈ w.threads) (hh : t.handle = false) :
    t.isFinished = true := by
  obtain ⟨i, hi⟩ := List.getElem?_of_mem ht
  have hlt : i < w.shared.actors.length := (List.getElem?_eq_some_iff.mp hi).1.trans_le h.spawned
  exact (h.table i _ t (List.getElem?_eq_getElem hlt) hi).joined hh

theorem goto (hr : w.ctl.released = true → c.released = true) (hp : c.prepared = true)
    (hlive : w.shared.stopping = false → Live (w.goto c)) : Coordinated (w.goto c) :=
  { h with
    preparing := fun hctl => by rcases hctl with hctl | hctl <;> cases hctl <;> cases hp
    spawning := fun i hi => by cases hi; cases hp
    stopped := fun hstop => (h.stopped hstop).imp_right (Or.imp_right hr)
    live := hlive }

/-- The controller moves on past the start barrier. What it attended to must be settled, or it
attends to it still. -/
theorem live_goto (hl : w.ctl.launching = false)
    (hkeep : ∀ (i : ℕ) (a : Actor) (t : Thread), w.shared.actors[i]? = some a →
      w.threads[i]? = some t → w.ctl.attends i = true →
      (a.phase = .running → ∃ requested, c = .waiting i requested) ∧
        (a.phase = .finished → t.handle = true → c.attends i = true))
    (hs : w.shared.stopping = false) : Live (w.goto c) := by
  have hlive := h.live hs
  refine ⟨fun i a t hi ht => ?_, fun _ => hlive.all hl⟩
  have hseat := hlive.seat i a t hi ht
  refine ⟨hseat.entered, fun hrun => ?_, fun hf hh => ?_, fun hst => ?_⟩
  · obtain ⟨requested, hctl⟩ := hseat.running hrun
    exact (hkeep i a t hi ht (by simp [hctl, Ctl.attends])).1 hrun
  · exact (hkeep i a t hi ht (hseat.finished hf hh)).2 hf hh
  · simpa [hl] using hseat.starting hst

theorem same {s : SharedState} (hs : SameHandshake w.shared s) :
    Coordinated { w with shared := s } := by
  obtain ⟨hactors, hstopping, houtcome, hcompleted⟩ := hs
  constructor
  · simpa only [hactors] using h.table
  · simpa only [hactors] using h.unspawned
  · simpa only [hactors] using h.spawned
  · simpa only [hactors] using h.declared
  · simpa only [hactors] using h.preparing
  · simpa only [hactors] using h.spawning
  · intro hf
    rw [hstopping]
    exact h.failed (houtcome ▸ hf)
  · intro hstop
    refine (h.stopped (hstopping ▸ hstop)).imp (fun hf => ?_) (Or.imp_left hcompleted)
    rwa [World.report, houtcome]
  · intro hstop
    have hlive := h.live (hstopping ▸ hstop)
    constructor
    · simpa only [hactors] using hlive.seat
    · simpa only [hactors] using hlive.all

/-- A failure stops the handshake; the controller may be anywhere afterwards. -/
theorem fails {s : SharedState} (hs : w.shared.Fails s) (hp : c.prepared = true) :
    Coordinated ({ w with shared := s }.goto c) := by
  constructor
  · simpa only [World.goto, hs.actors] using h.table
  · simpa only [World.goto, hs.actors] using h.unspawned
  · simpa only [World.goto, hs.actors] using h.spawned
  · simpa only [World.goto, hs.actors] using h.declared
  · intro hctl
    rcases hctl with hctl | hctl <;> cases hctl <;> cases hp
  · intro i hi
    cases hi
    cases hp
  · exact fun _ => hs.stopping
  · exact fun _ => Or.inl hs.outcome
  · intro hl
    simp [World.goto, hs.stopping] at hl

/-- A failure while the controller stays where it is. -/
theorem fails_here {s : SharedState} (hs : w.shared.Fails s) :
    Coordinated { w with shared := s } := by
  constructor
  · simpa only [hs.actors] using h.table
  · simpa only [hs.actors] using h.unspawned
  · simpa only [hs.actors] using h.spawned
  · simpa only [hs.actors] using h.declared
  · simpa only [hs.actors] using h.preparing
  · simpa only [hs.actors] using h.spawning
  · exact fun _ => hs.stopping
  · exact fun _ => Or.inl hs.outcome
  · intro hl
    simp [hs.stopping] at hl

/-- One worker moves: its thread by `f`, its actor by `g`. -/
theorem update {i : ℕ} {t : Thread} {f : Thread → Thread} {g : Actor → Actor} {s : SharedState}
    (ht : w.threads[i]? = some t) (hactors : s.actors = w.shared.actors.modify i g)
    (hdeclaration : ∀ a, (g a).declaration = a.declaration)
    (hfailed : s.report.outcome ≠ .completed → s.stopping = true)
    (hstopped : s.stopping = true →
      s.report.outcome ≠ .completed ∨ s.report.scheduleCompleted = true ∨ w.ctl.released = true)
    (hmono : w.shared.stopping = true → s.stopping = true)
    (htable : ∀ a, w.shared.actors[i]? = some a → Table (g a) (f t))
    (hseat : s.stopping = false → ∀ a, w.shared.actors[i]? = some a →
      LiveSeat w.ctl i (g a) (f t)) :
    Coordinated { w with shared := s, threads := w.threads.modify i f } := by
  have hlt : i < w.threads.length := (List.getElem?_eq_some_iff.mp ht).1
  -- the seats of the new state are the old ones, apart from the one of worker `i`
  have hsplit : ∀ (j : ℕ) (a : Actor) (u : Thread), s.actors[j]? = some a →
      (w.threads.modify i f)[j]? = some u →
      (j = i ∧ ∃ b, w.shared.actors[i]? = some b ∧ a = g b ∧ u = f t) ∨
        (j ≠ i ∧ w.shared.actors[j]? = some a ∧ w.threads[j]? = some u) := by
    intro j a u hj hu
    rw [hactors, List.getElem?_modify] at hj
    rw [List.getElem?_modify] at hu
    by_cases hji : i = j
    · subst hji
      rw [ht] at hu
      cases hb : w.shared.actors[i]? with
      | none => simp [hb] at hj
      | some b => exact Or.inl ⟨rfl, b, rfl, by simpa [hb] using hj.symm, by simpa using hu.symm⟩
    · exact Or.inr ⟨Ne.symm hji, by simpa [hji] using hj, by simpa [hji] using hu⟩
  constructor
  · intro j a u hj hu
    rcases hsplit j a u hj hu with ⟨rfl, b, hb, rfl, rfl⟩ | ⟨-, hj, hu⟩
    · exact htable b hb
    · exact h.table j a u hj hu
  · intro j a hj hle
    simp only [List.length_modify] at hle
    have hne : i ≠ j := by omega
    simp only [hactors, List.getElem?_modify, hne, if_false] at hj
    exact h.unspawned j a (by simpa using hj) hle
  · simpa [hactors] using h.spawned
  · refine h.declared.imp (fun hnil => by simp [hactors, hnil]) fun hmap => ?_
    have hg : (w.shared.actors.modify i g).map Actor.declaration =
        w.shared.actors.map Actor.declaration := by
      refine List.ext_getElem? fun j => ?_
      rw [List.getElem?_map, List.getElem?_map, List.getElem?_modify]
      cases w.shared.actors[j]? <;> split_ifs <;> simp [hdeclaration]
    rw [hactors, hg, hmap]
  · intro hctl
    have hnil := (h.preparing hctl).1
    simp [hnil] at hlt
  · intro j hj
    simpa [hactors] using h.spawning j hj
  · exact hfailed
  · exact hstopped
  · intro hs
    have hlive := h.live (by
      by_contra hne
      simp [hmono (by simpa using hne)] at hs)
    refine ⟨fun j a u hj hu => ?_, fun hl => by simpa [hactors] using hlive.all hl⟩
    rcases hsplit j a u hj hu with ⟨rfl, b, hb, rfl, rfl⟩ | ⟨-, hj, hu⟩
    · exact hseat hs b hb
    · exact hlive.seat j a u hj hu

/-- A worker moves without touching the shared state. -/
theorem update_thread {i : ℕ} {t : Thread} {f : Thread → Thread} (ht : w.threads[i]? = some t)
    (htable : ∀ a, w.shared.actors[i]? = some a → Table a (f t))
    (hseat : w.shared.stopping = false → ∀ a, w.shared.actors[i]? = some a →
      LiveSeat w.ctl i a (f t)) : Coordinated (w.setThread i f) :=
  h.update ht (List.modify_id i _).symm (fun _ => rfl) h.failed h.stopped id htable hseat

/-- A thread moves between the places inside its closure. -/
theorem setPc_inside {i : ℕ} {t : Thread} {pc : Pc} (ht : w.threads[i]? = some t)
    (hold : t.pc.inside = true) (hnew : pc.inside = true)
    (hrun : w.shared.stopping = false → ∀ a, w.shared.actors[i]? = some a →
      pc = .running ∨ (∃ r, pc = .returned r) → a.phase = .running) :
    Coordinated (w.setPc i pc) := by
  refine h.update_thread ht (fun a ha => ?_) fun hs a ha => ?_
  · have hin := (h.table i a t ha ht).inside hold
    exact Inside.table ⟨hin.started, hin.unfinished, hin.checkpoint, hin.thread, hin.handle⟩ hnew
  · have hseat := (h.live hs).seat i a t ha ht
    exact ⟨hrun hs a ha, hseat.running, hseat.finished, hseat.starting⟩

theorem startWorker {i : ℕ} {t : Thread} (ht : w.threads[i]? = some t) (hpc : t.pc = .starting) :
    Coordinated (w.startWorker i t) := by
  refine h.update ht rfl (fun _ => rfl) h.failed h.stopped id (fun a ha => ?_) fun hs a ha => ?_
  · have htable := h.table i a t ha ht
    have hphase : a.phase = .starting := htable.starting.mpr hpc
    have hhandle : t.handle = true := by
      by_contra hh
      simpa [Thread.isFinished, hpc] using htable.joined (by simpa using hh)
    refine Inside.table ⟨by simp, by simp, ?_, rfl, hhandle⟩ (by split_ifs <;> rfl)
    simp [htable.completion, hphase]
  · have hs' : w.shared.stopping = false := hs
    constructor <;> simp [hs']

theorem wake {i : ℕ} {t : Thread} (ht : w.threads[i]? = some t) {w' : World}
    (hw : w.wake i t = some w') : Coordinated w' := by
  have hrunning : w.shared.phase? i = some .running → ∀ a, w.shared.actors[i]? = some a →
      a.phase = .running := by
    intro hphase a ha
    simpa [SharedState.phase?, ha] using hphase
  unfold World.wake at hw
  split_ifs at hw with h1 h2 h3 h4 h5 <;> cases hw
  · exact h.setPc_inside ht (by simp [h1, Pc.inside]) rfl fun hs => by simp [h2] at hs
  · have hmoved : Coordinated (w.setPc i .running) :=
      h.setPc_inside ht (by simp [h1, Pc.inside]) rfl fun _ a ha _ => hrunning h3 a ha
    exact { hmoved with live := fun hs => ⟨(hmoved.live hs).seat, (hmoved.live hs).all⟩ }
  · exact h
  · refine h.setPc_inside ht (by simp [h4, Pc.inside]) rfl fun hs a ha _ => ?_
    exact hrunning (h5.resolve_left (by simp [hs])) a ha
  · exact h

theorem arrive {i : ℕ} {t : Thread} (ht : w.threads[i]? = some t) {thread : ThreadId}
    {checkpoint : String} {w' : World} (hw : w.arrive thread i t checkpoint = some w') :
    Coordinated w' := by
  obtain ⟨a, ha⟩ : ∃ a, w.shared.actors[i]? = some a := by
    have hlt := (List.getElem?_eq_some_iff.mp ht).1
    exact ⟨_, List.getElem?_eq_getElem (hlt.trans_le h.spawned)⟩
  unfold World.arrive at hw
  split_ifs at hw with hcaller
  simp only [not_or, not_and, not_not, Bool.not_eq_true', Bool.not_eq_false] at hcaller
  have hactive : t.pc.inside = true := by
    have hact := hcaller.2
    cases hp : t.pc <;> simp_all [Thread.isActive, Pc.active, Pc.inside]
  have hin := (h.table i a t ha ht).inside hactive
  rcases SharedState.arrive_spec w.setup.adapter.checkpoints thread checkpoint ha with
    ⟨s, hf, heq⟩ | ⟨-, heq⟩ | ⟨-, -, -, hid, heq⟩
  · rw [heq] at hw
    cases hw
    exact h.fails_here hf
  · rw [heq] at hw
    cases hw
    exact { h with }
  · rw [heq] at hw
    cases hw
    have hcheckpoint : checkpoint ≠ COMPLETION := by
      rintro rfl
      revert hid
      decide
    refine h.update ht rfl (fun _ => rfl) h.failed h.stopped id (fun b hb => ?_) fun _ b hb => ?_
    · have hba : b = a := Option.some.inj (hb.symm.trans ha)
      exact Inside.table ⟨by simp, by simp, hcheckpoint, hba ▸ hin.thread, hin.handle⟩ rfl
    · constructor <;> simp

theorem finishActor {i : ℕ} {t : Thread} (ht : w.threads[i]? = some t)
    (hpc : t.pc.inside = true)
    (hrun : w.shared.stopping = false → ∃ requested, w.ctl = .waiting i requested) :
    Coordinated ({ w with shared := w.shared.finishActor i }.setPc i .exiting) := by
  refine h.update ht rfl (fun _ => rfl) h.failed h.stopped id (fun a ha => ?_) fun hs a ha => ?_
  · have hin := (h.table i a t ha ht).inside hpc
    constructor <;> simp [hin.thread, hin.handle]
  · obtain ⟨requested, hctl⟩ := hrun hs
    constructor <;> simp [hctl, Ctl.attends]

theorem settle {i : ℕ} {t : Thread} (ht : w.threads[i]? = some t) {w' : World}
    (hw : w.settle i t = some w') : Coordinated w' := by
  obtain ⟨a, ha⟩ : ∃ a, w.shared.actors[i]? = some a := by
    have hlt := (List.getElem?_eq_some_iff.mp ht).1
    exact ⟨_, List.getElem?_eq_getElem (hlt.trans_le h.spawned)⟩
  unfold World.settle at hw
  split at hw
  case h_2 => cases hw
  case h_1 result hpc =>
    cases hw
    have hin : t.pc.inside = true := by simp [hpc, Pc.inside]
    rcases w.shared.settle_spec i result with heq | ⟨s, hf, heq⟩
    · rw [heq]
      refine h.finishActor ht hin fun hs => ?_
      have hseat := (h.live hs).seat i a t ha ht
      exact hseat.running (hseat.entered (Or.inr ⟨result, hpc⟩))
    · rw [heq]
      refine (h.fails_here hf).finishActor ht hin fun hs => ?_
      simp [hf.stopping] at hs

theorem terminate {i : ℕ} {t : Thread} {panicked : Bool} (ht : w.threads[i]? = some t)
    (hpc : t.pc = .exiting) : Coordinated (w.setPc i (.terminated panicked)) := by
  refine h.update_thread ht (fun a ha => ?_) fun hs a ha => ?_
  · have htable := h.table i a t ha ht
    have hfinished : a.phase = .finished := htable.finished.mpr (Or.inl hpc)
    refine ⟨by simp [hfinished, Thread.isFinished], htable.completion, by simp [hfinished],
      fun _ => htable.thread (by simp [hpc]), fun _ => rfl⟩
  · have hseat := (h.live hs).seat i a t ha ht
    exact ⟨by simp, hseat.running, hseat.finished, hseat.starting⟩

theorem returns {i : ℕ} {t : Thread} {result : CallResult Unit} (ht : w.threads[i]? = some t)
    (hpc : t.pc = .running) : Coordinated (w.setPc i (.returned result)) := by
  refine h.setPc_inside ht (by simp [hpc, Pc.inside]) rfl fun hs a ha _ => ?_
  exact ((h.live hs).seat i a t ha ht).entered (Or.inl hpc)

/-! ### Regions of the controller -/

theorem congr {w' : World} (hsetup : w'.setup = w.setup) (hshared : w'.shared = w.shared)
    (hthreads : w'.threads = w.threads) (hctl : w'.ctl = w.ctl) : Coordinated w' := by
  cases w
  cases w'
  simp only at hsetup hshared hthreads hctl
  subst hsetup hshared hthreads hctl
  exact { h with live := fun hs => ⟨(h.live hs).seat, (h.live hs).all⟩ }

/-- A controller that attends to no actor moves on. -/
theorem move (hfree : w.ctl.free = true) (hp : c.prepared = true) : Coordinated (w.goto c) :=
  h.goto (by simp [Ctl.released_of_free hfree]) hp
    (h.live_goto (Ctl.launching_of_free hfree) fun i _ _ _ _ hi => by simp [Ctl.attends_of_free hfree i] at hi)

/-- A controller that sees the execution stopping moves on. -/
theorem move_stopping (hs : w.shared.stopping = true) (hr : w.ctl.released = false)
    (hp : c.prepared = true) : Coordinated (w.goto c) :=
  h.goto (by simp [hr]) hp (by simp [hs])

omit h in
theorem callCleanup {timeout : Duration}
    (hgoto : ∀ c, c = .idle ∨ c = .cleaning → Coordinated (w.goto c)) :
    Coordinated (w.callCleanup timeout) := by
  rw [World.callCleanup]
  split_ifs
  · exact hgoto _ (Or.inl rfl)
  · exact hgoto _ (Or.inr rfl)

theorem enter (hctl : w.ctl = .entering) (inCallback : Bool) :
    Coordinated (w.enter inCallback) := by
  unfold World.enter
  split
  case h_1 kind message herror =>
    have hkind : kind ≠ .completed := World.admission_error herror
    have hfails : Coordinated ((w.fail kind message).goto .idle) :=
      h.fails (SharedState.fails_fail hkind) rfl
    exact hfails.congr rfl rfl rfl rfl
  case h_2 =>
    obtain ⟨hthreads, hactors⟩ := h.preparing (Or.inl hctl)
    exact { h with
      preparing := fun _ => ⟨hthreads, hactors⟩
      spawning := fun i hi => by cases hi
      stopped := fun hs => (h.stopped hs).imp_right (Or.imp_right (by simp [hctl, Ctl.released]))
      live := fun _ => ⟨by simp [World.goto, hactors], by simp [World.goto, hactors, hthreads]⟩ }

theorem declare (hctl : w.ctl = .creating) : Coordinated w.declare := by
  obtain ⟨hthreads, -⟩ := h.preparing (Or.inr hctl)
  have hactors : ∀ a, a ∈ w.setup.adapter.actors.map World.newActor →
      a.phase = .starting ∧ a.checkpoint ≠ COMPLETION := by
    simp [World.newActor, COMPLETION]
  have hlaunch : w.declare.ctl.launching = true := by
    simp only [World.declare, World.spawnFrom, World.goto]
    split_ifs <;> rfl
  refine ⟨?_, fun i a ha _ => hactors a (List.mem_of_getElem? ha), ?_, Or.inr ?_, ?_, ?_, h.failed,
    ?_, fun _ => ⟨?_, by simp [hlaunch]⟩⟩
  · simp [World.declare, World.spawnFrom, World.goto, hthreads]
  · simp [World.declare, World.spawnFrom, World.goto, hthreads]
  · simp [World.declare, World.spawnFrom, World.goto, World.newActor, Function.comp_def]
  · intro hc
    rcases hc with hc | hc <;> simp [hc, Ctl.launching] at hlaunch
  · intro i hi
    simp only [World.declare, World.spawnFrom, World.goto] at hi ⊢
    split_ifs at hi with hlt
    cases hi
    exact ⟨by simp [hthreads], by simpa using hlt⟩
  · intro hs
    exact (h.stopped hs).imp_right (Or.imp_right (by simp [hctl, Ctl.released]))
  · simp [World.declare, World.spawnFrom, World.goto, hthreads]

theorem checkWorkers (workers : List String) : Coordinated (w.checkWorkers workers) := by
  rcases w.checkWorkers_spec workers with heq | ⟨s, hs, heq⟩
  · rwa [heq]
  · rw [heq]
    exact h.fails_here hs

theorem acquire (hctl : w.ctl = .creating) (workers : List String) :
    Coordinated (w.acquire workers) := by
  have hacquired : Coordinated { w with acquired := true } := h.congr rfl rfl rfl rfl
  have hw := hacquired.checkWorkers workers
  have hctl' : (World.checkWorkers { w with acquired := true } workers).ctl = .creating := by
    rw [World.checkWorkers_ctl, hctl]
  rw [World.acquire]
  split_ifs with hout
  · refine callCleanup fun c hc => hw.move_stopping (hw.failed hout) ?_ ?_
    · rw [hctl']
      rfl
    · rcases hc with rfl | rfl <;> rfl
  · exact hw.declare hctl'

theorem create (hctl : w.ctl = .creating) (result : FactoryResult) :
    Coordinated (w.create result) := by
  have hfailed : ∀ e, Coordinated ((w.fail .applicationFailed e).goto .idle) := fun e =>
    h.fails (SharedState.fails_fail (by decide)) rfl
  cases result with
  | error e => exact (hfailed e).congr rfl rfl rfl rfl
  | panic => exact (hfailed "factory panicked").congr rfl rfl rfl rfl
  | program workers => exact h.acquire hctl workers

theorem spawn {i : ℕ} (hctl : w.ctl = .spawning i) (result : Except String ThreadId) :
    Coordinated (w.spawn i result) := by
  obtain ⟨hlen, hlt⟩ := h.spawning i hctl
  cases result with
  | error e => exact h.fails (SharedState.fails_fail (by decide)) rfl
  | ok id =>
    have hdeclared : w.shared.actors.map Actor.declaration = w.setup.adapter.actors := by
      refine h.declared.resolve_left fun hnil => ?_
      simp [hnil] at hlt
    have hcount : w.setup.adapter.actors.length = w.shared.actors.length := by
      rw [← hdeclared, List.length_map]
    have hlaunch : (w.spawn i (.ok id)).ctl.launching = true := by
      simp only [World.spawn, World.spawnFrom, World.goto]
      split_ifs <;> rfl
    -- the new thread belongs to the first actor that has none
    have hsplit : ∀ (j : ℕ) (t : Thread),
        (w.threads ++ [{ id := id, pc := .starting, handle := true }])[j]? = some t →
        w.threads[j]? = some t ∨ (j = i ∧ t = { id := id, pc := .starting, handle := true }) := by
      intro j t ht
      rcases Nat.lt_or_ge j w.threads.length with hj | hj
      · rw [List.getElem?_append_left hj] at ht
        exact Or.inl ht
      · rw [List.getElem?_append_right hj, List.getElem?_singleton] at ht
        split_ifs at ht with hzero
        exact Or.inr ⟨by omega, (Option.some.inj ht).symm⟩
    refine ⟨fun j a t ha ht => ?_, fun j a ha hj => h.unspawned j a ha ?_, ?_, Or.inr hdeclared,
      ?_, ?_, h.failed, ?_, fun hs => ⟨fun j a t ha ht => ?_, by simp [hlaunch]⟩⟩
    · rcases hsplit j t ht with ht | ⟨rfl, rfl⟩
      · exact h.table j a t ha ht
      · obtain ⟨hphase, hcheckpoint⟩ := h.unspawned j a ha hlen.le
        constructor <;> simp [hphase, hcheckpoint, Thread.isFinished]
    · simp only [World.spawn, World.spawnFrom, World.goto, List.length_append,
        List.length_singleton] at hj
      omega
    · simp only [World.spawn, World.spawnFrom, World.goto, List.length_append,
        List.length_singleton]
      omega
    · intro hc
      rcases hc with hc | hc <;> simp [hc, Ctl.launching] at hlaunch
    · intro j hj
      simp only [World.spawn, World.spawnFrom, World.goto] at hj ⊢
      split_ifs at hj with hnext
      cases hj
      refine ⟨by simp [hlen], by omega⟩
    · intro hs
      exact (h.stopped hs).imp_right (Or.imp_right (by simp [hctl, Ctl.released]))
    · rcases hsplit j t ht with ht | ⟨rfl, rfl⟩
      · have hseat := (h.live hs).seat j a t ha ht
        refine ⟨hseat.entered, fun hrun => ?_, fun hf hh => ?_, fun _ => hlaunch⟩
        · obtain ⟨requested, hc⟩ := hseat.running hrun
          simp [hctl] at hc
        · have hattends := hseat.finished hf hh
          simp [hctl, Ctl.attends] at hattends
      · obtain ⟨hphase, -⟩ := h.unspawned j a ha hlen.le
        exact ⟨by simp, by simp [hphase], by simp [hphase], fun _ => hlaunch⟩

theorem startWait (hctl : w.ctl = .startWait) (expired : Bool) :
    Coordinated (w.startWait expired) := by
  rw [World.startWait]
  rcases SharedState.waitFor_spec w.shared w.cancelled expired SharedState.allParked with
    ⟨hs, heq⟩ | ⟨s, hs, heq⟩ | ⟨hs, hparked, heq⟩ | heq
  · rw [heq]
    exact h.move_stopping hs (by simp [hctl, Ctl.released]) rfl
  · rw [heq]
    exact h.fails hs rfl
  · rw [heq]
    have hphase : ∀ a ∈ w.shared.actors, a.phase = .parked := by
      simpa [SharedState.allParked] using hparked
    refine h.goto (by simp [hctl, Ctl.released]) rfl fun _ => ⟨fun i a t ha ht => ?_, fun _ => ?_⟩
    · have hp := hphase a (List.mem_of_getElem? ha)
      refine ⟨fun hpc => ?_, by simp [hp], by simp [hp], by simp [hp]⟩
      have hrun := ((h.live hs).seat i a t ha ht).entered hpc
      simp [hp] at hrun
    · by_contra hne
      have hspawned : w.threads.length < w.shared.actors.length :=
        lt_of_le_of_ne h.spawned hne
      have hstarting := (h.unspawned _ _ (List.getElem?_eq_getElem hspawned) le_rfl).1
      simp [hphase _ (List.getElem_mem hspawned)] at hstarting
  · rw [heq]
    exact h

theorem observe {caller : Caller} (hctl : w.ctl = .observing caller) :
    Coordinated (w.observe caller) := by
  have hfree : w.ctl.free = true := by rw [hctl]; rfl
  rw [World.observe]
  split_ifs with hs hq
  · exact h.move hfree rfl
  · exact h.fails (SharedState.fails_fail (by decide)) rfl
  · exact h.move hfree rfl

theorem judge {caller : Caller} {result : CallResult Json} (hctl : w.ctl = .judging caller result)
    (expired : Bool) : Coordinated (w.judge caller result expired) := by
  rw [World.judge]
  rcases SharedState.judge_spec w.shared w.setup.serde w.cancelled expired w.next result with
    hs | ⟨-, value, -, heq⟩
  · exact h.fails hs rfl
  · rw [heq]
    have hpush : Coordinated { w with shared := w.shared.pushObservation w.setup.serde w.next value } :=
      h.same ⟨rfl, rfl, rfl, id⟩
    exact hpush.move (by simp only [hctl]; rfl) rfl

theorem moveCleanup (hfree : w.ctl.free = true) (timeout : Duration) :
    Coordinated (w.callCleanup timeout) := by
  refine callCleanup fun c hc => h.move hfree ?_
  rcases hc with rfl | rfl <;> rfl

theorem outcomeCheck {caller : Caller} (hctl : w.ctl = .outcomeCheck caller) :
    Coordinated (w.outcomeCheck caller) := by
  have hfree : w.ctl.free = true := by rw [hctl]; rfl
  rw [World.outcomeCheck]
  split_ifs
  · exact h.moveCleanup hfree _
  · exact h.move hfree rfl
  · exact h.move hfree rfl

/-- An actor is released; from here on the controller attends to it. -/
theorem permit {i : ℕ} {a : Actor} {requested : Step} (hctl : w.ctl = .idle)
    (ha : w.shared.actors[i]? = some a) (hphase : a.phase = .parked) (next : ℕ) :
    Coordinated ({ w with shared := (w.shared.pushEvent "permit" next a).setPhase i .running }.goto
      (.waiting i requested)) := by
  have hmove : Coordinated (w.goto (.waiting i requested)) := h.move (by rw [hctl]; rfl) rfl
  have hpush : Coordinated
      { w.goto (.waiting i requested) with shared := w.shared.pushEvent "permit" next a } :=
    hmove.same ⟨rfl, rfl, rfl, id⟩
  obtain ⟨t, ht⟩ | hnone : (∃ t, w.threads[i]? = some t) ∨ w.threads.length ≤ i := by
    by_cases hlt : i < w.threads.length
    · exact Or.inl ⟨_, List.getElem?_eq_getElem hlt⟩
    · exact Or.inr (by omega)
  · have htable := h.table i a t ha ht
    have hactor : ∀ b, w.shared.actors[i]? = some b → b = a := fun b hb =>
      Option.some.inj (hb.symm.trans ha)
    refine Coordinated.congr (hpush.update (f := id) (g := fun a => { a with phase := .running })
      (s := (w.shared.pushEvent "permit" next a).setPhase i .running) ht rfl (fun _ => rfl)
      hpush.failed hpush.stopped id (fun b hb => ?_) fun _ b hb => ?_) rfl rfl
      (List.modify_id i _).symm rfl
    · obtain rfl := hactor b hb
      have hunfinished := htable.finished.not.mp (by simp [hphase])
      have hcheckpoint := htable.completion.not.mpr (by simp [hphase])
      have hstarting := htable.starting.not.mp (by simp [hphase])
      refine ⟨by simpa using hunfinished, by simpa using hcheckpoint, by simpa using hstarting,
        htable.thread, htable.joined⟩
    · exact ⟨fun _ => rfl, fun _ => ⟨requested, rfl⟩, by simp, by simp⟩
  · have hstarting := (h.unspawned i a ha hnone).1
    simp [hphase] at hstarting

theorem advance (hctl : w.ctl = .idle) (requested : Step) (expired : Bool) :
    Coordinated (w.advance requested expired) := by
  have hfree : w.ctl.free = true := by rw [hctl]; rfl
  rw [World.advance]
  split_ifs
  · exact h
  rcases SharedState.permit_spec w.shared w.cancelled expired w.steps w.next requested with
    ⟨s, hs, heq⟩ | ⟨i, a, ha, hphase, -, -, heq⟩
  · rw [heq]
    exact h.fails hs rfl
  · by_cases hstop : w.shared.stopping = true
    · rw [heq, if_pos hstop]
      have hpush : Coordinated { w with shared := w.shared.pushEvent "permit" w.next a } :=
        h.same ⟨rfl, rfl, rfl, id⟩
      exact hpush.move hfree rfl
    · rw [heq, if_neg hstop]
      exact h.permit hctl ha hphase w.next

theorem wait {i : ℕ} {requested : Step} (hctl : w.ctl = .waiting i requested) (expired : Bool) :
    Coordinated (w.wait i requested expired) := by
  rw [World.wait]
  rcases SharedState.waitFor_spec w.shared w.cancelled expired (SharedState.notRunning i) with
    ⟨hs, heq⟩ | ⟨s, hs, heq⟩ | ⟨-, hrun, heq⟩ | heq
  · rw [heq]
    exact h.move_stopping hs (by simp [hctl, Ctl.released]) rfl
  · rw [heq]
    exact h.fails hs rfl
  · rw [heq]
    refine h.goto (by simp [hctl, Ctl.released]) rfl
      (h.live_goto (by simp [hctl, Ctl.launching]) fun j a t ha ht hj => ?_)
    obtain rfl : j = i := by simpa [hctl, Ctl.attends] using hj
    refine ⟨fun hphase => ?_, fun _ _ => by simp [Ctl.attends]⟩
    simp [SharedState.notRunning, SharedState.phase?, ha, hphase] at hrun
  · rw [heq]
    exact h

/-- The controller turns away from an actor that is not running. -/
theorem leave {i : ℕ} (hi : ∀ j, w.ctl.attends j = true → j = i) (hl : w.ctl.launching = false)
    (hr : w.ctl.released = false) (hrun : ∀ requested, w.ctl ≠ .waiting i requested)
    (hp : c.prepared = true)
    (hdone : ∀ (a : Actor) (t : Thread), w.shared.actors[i]? = some a → w.threads[i]? = some t →
      a.phase = .finished → t.handle = true → c.attends i = true) : Coordinated (w.goto c) := by
  refine h.goto (by simp [hr]) hp fun hs => h.live_goto hl (fun j a t ha ht hj => ?_) hs
  obtain rfl := hi j hj
  refine ⟨fun hphase => ?_, hdone a t ha ht⟩
  obtain ⟨requested, hc⟩ := ((h.live hs).seat j a t ha ht).running hphase
  exact absurd hc (hrun requested)

theorem arrival {i : ℕ} {requested : Step} (hctl : w.ctl = .arrived i requested) :
    Coordinated (w.arrival i requested) := by
  rw [World.arrival]
  have hi : ∀ j, w.ctl.attends j = true → j = i := by simp [hctl, Ctl.attends]
  cases ha : w.shared.actors[i]? with
  | none =>
    have heq : w.shared.arrival w.next i requested = (w.shared, false) := by
      simp [SharedState.arrival, SharedState.retainEvent, ha]
    rw [heq]
    exact h.leave hi (by simp [hctl, Ctl.launching]) (by simp [hctl, Ctl.released])
      (by simp [hctl]) rfl (by simp [ha])
  | some a =>
    obtain ⟨s, heq, hs⟩ := SharedState.arrival_spec w.next requested ha
    have hpush : Coordinated { w with shared := w.shared.pushEvent "arrival" w.next a } :=
      h.same ⟨rfl, rfl, rfl, id⟩
    have hprepared : (if decide (a.phase = .finished) then Ctl.joining i
        else .checkArrival).prepared = true := by
      split_ifs <;> rfl
    rw [heq]
    rcases hs with hs | hs | ⟨-, rfl⟩
    · exact h.fails hs hprepared
    · exact hpush.fails hs hprepared
    · refine hpush.leave hi ?_ ?_ ?_ hprepared fun b t hb _ hphase _ => ?_
      · simp [hctl, Ctl.launching]
      · simp [hctl, Ctl.released]
      · simp [hctl]
      · obtain rfl : b = a := Option.some.inj (hb.symm.trans ha)
        simp [hphase, Ctl.attends]

/-- A handle is given up; the thread has ended, or its handle was gone. -/
theorem dropHandle {i : ℕ} {t : Thread} (ht : w.threads[i]? = some t)
    (hend : t.handle = true → t.isFinished = true) :
    Coordinated (w.setThread i fun t => { t with handle := false }) := by
  refine h.update_thread ht (fun a ha => ?_) fun hs a ha => ?_
  · have htable := h.table i a t ha ht
    refine ⟨htable.finished, htable.completion, htable.starting, htable.thread, fun _ => ?_⟩
    by_cases hh : t.handle = true
    · exact hend hh
    · exact htable.joined (by simpa using hh)
  · have hseat := (h.live hs).seat i a t ha ht
    exact ⟨hseat.entered, hseat.running, by simp, hseat.starting⟩

theorem join {i : ℕ} (hctl : w.ctl = .joining i) {w' : World} (hw : w.join i = some w') :
    Coordinated w' := by
  have hi : ∀ j, w.ctl.attends j = true → j = i := by simp [hctl, Ctl.attends]
  have hl : w.ctl.launching = false := by simp [hctl, Ctl.launching]
  have hr : w.ctl.released = false := by simp [hctl, Ctl.released]
  unfold World.join at hw
  split at hw
  case h_1 hnone =>
    cases hw
    exact h.leave hi hl hr (by simp [hctl]) rfl (by simp [hnone])
  case h_2 t ht =>
    split_ifs at hw with hh
    · cases hw
      refine h.leave hi hl hr (by simp [hctl]) rfl fun a u _ hu _ huh => ?_
      obtain rfl : u = t := Option.some.inj (hu.symm.trans ht)
      simp [huh] at hh
    · split at hw
      case h_2 => cases hw
      case h_1 panicked hpc =>
        cases hw
        have hdrop := h.dropHandle ht fun _ => by simp [Thread.isFinished, hpc]
        refine hdrop.leave hi hl hr (by simp [World.setThread, hctl]) (by split_ifs <;> rfl)
          fun a u _ hu _ huh => ?_
        simp only [World.setThread, List.getElem?_modify, ht, if_true, Option.map_eq_map,
          Option.map_some, Option.some.injEq] at hu
        simp [← hu] at huh

theorem checkArrival (hctl : w.ctl = .checkArrival) : Coordinated w.checkArrival := by
  have hfree : w.ctl.free = true := by rw [hctl]; rfl
  rw [World.checkArrival]
  split_ifs
  · have hmove : Coordinated (w.goto (.observing .advance)) := h.move hfree rfl
    exact hmove.congr rfl rfl rfl rfl
  · exact h.move hfree rfl

theorem complete (hctl : w.ctl = .completing) : Coordinated w.complete := by
  have hdone : Coordinated { w with shared := { w.shared with
      report := { w.report with scheduleCompleted := true } } } :=
    h.same ⟨rfl, rfl, rfl, fun _ => rfl⟩
  exact hdone.moveCleanup (by simp only [hctl]; rfl) _

/-! ### finish, cleanup and drop -/

theorem finish (hctl : w.ctl = .idle) : Coordinated w.finish := by
  rw [World.finish]
  split_ifs
  · exact h
  · have hfails : Coordinated (w.fail .invalidSchedule "execution finished before all intervals") :=
      h.fails_here (SharedState.fails_fail (by decide))
    exact hfails.moveCleanup (by simp only [World.fail, hctl]; rfl) _
  · exact h.moveCleanup (by rw [hctl]; rfl) _

theorem clean (hctl : w.ctl = .cleaning) : Coordinated w.clean := by
  rw [World.clean]
  rcases w.shared.beginCleanup_spec with ⟨-, hs⟩ | ⟨hcompleted, heq⟩
  · exact h.fails hs rfl
  · rw [heq]
    have hmove : Coordinated (w.goto .draining) := h.move (by rw [hctl]; rfl) rfl
    refine { hmove with
      failed := fun _ => rfl
      stopped := fun _ => ?_
      live := fun hs => nomatch (show true = false from hs) }
    by_cases ho : w.report.outcome = .completed
    · exact Or.inr (Or.inl (hcompleted ho))
    · exact Or.inl ho

theorem drain (hctl : w.ctl = .draining) (expired : Bool) : Coordinated (w.drain expired) := by
  rw [World.drain]
  split_ifs
  · exact h
  · exact h.move (by rw [hctl]; rfl) rfl

theorem reapThread (i : ℕ) :
    Coordinated (w.setThread i fun t => if t.isFinished then { t with handle := false } else t) := by
  by_cases hlt : i < w.threads.length
  · have ht := List.getElem?_eq_getElem hlt
    by_cases hf : w.threads[i].isFinished = true
    · refine (h.dropHandle ht fun _ => hf).congr rfl rfl ?_ rfl
      refine List.ext_getElem? fun j => ?_
      simp only [World.setThread, List.getElem?_modify]
      by_cases hij : i = j
      · subst hij
        simp [ht, hf]
      · simp [hij]
    · refine h.congr rfl rfl ?_ rfl
      refine List.ext_getElem? fun j => ?_
      simp only [World.setThread, List.getElem?_modify]
      by_cases hij : i = j
      · subst hij
        simp [ht, hf]
      · simp [hij]
  · exact h.congr rfl rfl (List.modify_eq_self (by omega)) rfl

theorem reap {i : ℕ} (hctl : w.ctl = .reaping i) : Coordinated (w.reap i) := by
  have hfree : w.ctl.free = true := by rw [hctl]; rfl
  rw [World.reap]
  split_ifs
  · exact (h.reapThread i).move hfree rfl
  · have hsame : Coordinated { w with shared := w.shared.recordIncomplete w.remaining } :=
      h.same ⟨rfl, rfl, rfl, id⟩
    exact hsame.move hfree rfl
  · exact h.move hfree rfl
  · exact h.move hfree rfl

theorem record {e : Option String} (hctl : w.ctl = .recording e) : Coordinated (w.record e) := by
  have hmove : Coordinated (w.goto .idle) := h.move (by rw [hctl]; rfl) rfl
  have hsame : Coordinated
      { w.goto .idle with shared := w.shared.recordCleanup w.acquired e } :=
    hmove.same ⟨rfl, rfl, rfl, id⟩
  exact hsame.congr rfl rfl rfl rfl

theorem drop (hctl : w.ctl = .idle) : Coordinated w.drop := by
  have hmove : Coordinated (w.goto (.dropping 0)) := h.move (by rw [hctl]; rfl) rfl
  exact { hmove with
    failed := fun _ => rfl
    stopped := fun _ => Or.inr (Or.inr rfl)
    live := fun hs => nomatch (show true = false from hs) }

/-- A drop goes on; the handshake is over. -/
theorem release (hw : w.ctl.released = true) (hc : c.released = true) : Coordinated (w.goto c) := by
  have hp : c.prepared = true := by
    cases c <;> first | rfl | cases hc
  refine h.goto (fun _ => hc) hp (h.live_goto ?_ fun i a t ha ht hi => ?_)
  · cases hctl : w.ctl <;> simp_all [Ctl.released, Ctl.launching]
  · cases hctl : w.ctl <;> simp_all [Ctl.released, Ctl.attends]

theorem dropJoin {i : ℕ} (hctl : w.ctl = .dropping i) {w' : World} (hw : w.dropJoin i = some w') :
    Coordinated w' := by
  have hr : w.ctl.released = true := by rw [hctl]; rfl
  unfold World.dropJoin at hw
  split at hw
  case h_1 =>
    cases hw
    exact h.release hr (by split_ifs <;> rfl)
  case h_2 t ht =>
    split_ifs at hw with hend
    cases hw
    have hdrop : Coordinated (w.setThread i fun t => { t with handle := false }) :=
      h.dropHandle ht fun hh => by simpa [hh] using hend
    exact hdrop.release hr rfl

theorem controlMove {action : Action} {w' : World} (hw : ControlMove w action w') :
    Coordinated w' := by
  cases hw with
  | enter hctl => exact h.enter hctl _
  | create hctl => exact h.create hctl _
  | spawn hctl => exact h.spawn hctl _
  | startWait hctl => exact h.startWait hctl _
  | observe hctl => exact h.observe hctl
  | @observer caller result hctl =>
    have hmove : Coordinated (w.goto (.judging caller result)) := h.move (by rw [hctl]; rfl) rfl
    exact hmove.congr rfl rfl rfl rfl
  | judge hctl => exact h.judge hctl _
  | outcomeCheck hctl => exact h.outcomeCheck hctl
  | wait hctl => exact h.wait hctl _
  | arrival hctl => exact h.arrival hctl
  | join hctl hw => exact h.join hctl hw
  | joinFailed => exact h.fails (SharedState.fails_fail (by decide)) rfl
  | checkArrival hctl => exact h.checkArrival hctl
  | complete hctl => exact h.complete hctl
  | clean hctl => exact h.clean hctl
  | drain hctl => exact h.drain hctl _
  | reap hctl => exact h.reap hctl
  | @tear result hctl =>
    have hmove : Coordinated (w.goto (.recording (SharedState.teardownError result))) :=
      h.move (by rw [hctl]; rfl) rfl
    exact hmove.congr rfl rfl rfl rfl
  | record hctl => exact h.record hctl
  | advance hctl => exact h.advance hctl _ _
  | finish hctl => exact h.finish hctl
  | cleanup hctl => exact h.moveCleanup (by rw [hctl]; rfl) _
  | foreignCall => exact h
  | drop hctl => exact h.drop hctl
  | dropJoin hctl hw => exact h.dropJoin hctl hw
  | dropTeardown hctl =>
    have hmove : Coordinated (w.goto .dropped) := h.release (by rw [hctl]; rfl) rfl
    exact hmove.congr rfl rfl rfl rfl

theorem workerMove {action : Action} {w' : World} (hw : WorkerMove w action w') :
    Coordinated w' := by
  cases hw with
  | cancel => exact h.congr rfl rfl rfl rfl
  | startWorker ht hpc _ => exact h.startWorker ht hpc
  | wake ht _ hw => exact h.wake ht hw
  | arrive ht _ hw => exact h.arrive ht hw
  | returns ht hpc => exact h.returns ht hpc
  | settle ht _ hw => exact h.settle ht hw
  | terminate ht hpc => exact h.terminate ht hpc

end Coordinated

theorem coordinated_new (setup : Setup) (cancelled : Bool) (generation : ℕ)
    (executionId : String) : Coordinated (World.new setup cancelled generation executionId) := by
  refine ⟨by simp [World.new], by simp [World.new], by simp [World.new], Or.inl rfl,
    fun _ => ⟨rfl, rfl⟩, by simp [World.new], by simp [World.new, World.report, Report.new],
    by simp [World.new], fun _ => ⟨by simp [World.new], fun _ => rfl⟩⟩

theorem coordinated {w : World} (h : execution.Reachable w) : Coordinated w :=
  h.invariant (fun _ ⟨setup, cancelled, generation, id, hw⟩ =>
    hw ▸ coordinated_new setup cancelled generation id)
    fun _ _ _ _ hs hw => (World.step_move hw).elim hs.controlMove hs.workerMove

end MirrorRust
