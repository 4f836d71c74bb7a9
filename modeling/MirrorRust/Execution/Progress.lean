import MirrorRust.Execution.SingleRunner

/-! How far an execution has come: what admission promised still holds, every interval that
ended an actor has joined its thread, and completion comes after all of them. -/
namespace MirrorRust

/-! ### Admission -/

/-- The execution has been refused before a program was acquired. -/
structure Refused (w : World) : Prop where
  outcome : w.report.outcome ≠ .completed
  closed : w.closed = true
  acquired : w.acquired = false
  ctl : w.ctl = .idle ∨ w.ctl.released = true

def World.Admitted (w : World) : Prop :=
  MirrorRust.Admitted w.setup.schedule w.setup.adapter w.setup.policy

/-- Past the entry an execution has been refused or admitted. -/
def Entered (w : World) : Prop :=
  (w.ctl = .entering ∧ w.acquired = false) ∨ Refused w ∨ w.Admitted

theorem World.admission_ok {w : World} {inCallback : Bool} (h : w.admission inCallback = .ok ()) :
    w.Admitted := by
  unfold World.admission at h
  split_ifs at h
  exact admitSchedule_ok h

theorem World.callCleanup_setup (w : World) (timeout : Duration) :
    (w.callCleanup timeout).setup = w.setup := by
  rcases w.callCleanup_spec timeout with ⟨-, heq⟩ | ⟨-, heq⟩ <;> rw [heq] <;> rfl

theorem World.checkWorkers_setup (w : World) (workers : List String) :
    (w.checkWorkers workers).setup = w.setup := by
  rcases w.checkWorkers_spec workers with heq | ⟨s, -, heq⟩ <;> rw [heq]

/-- The arguments of an execution never change. -/
theorem ControlMove.setup {w w' : World} {action : Action} (h : ControlMove w action w') :
    w'.setup = w.setup := by
  cases h with
  | enter => unfold World.enter; split <;> rfl
  | @create result =>
    cases result with
    | error e => rfl
    | panic => rfl
    | program workers =>
      simp only [World.create, World.acquire]
      split_ifs
      · rw [World.callCleanup_setup, World.checkWorkers_setup]
      · exact World.checkWorkers_setup _ _
  | @spawn i result => cases result <;> rfl
  | startWait =>
    rcases w.startWait_spec _ with ⟨-, heq⟩ | ⟨-, heq⟩ | ⟨s, -, heq⟩ | heq <;> rw [heq] <;> rfl
  | observe => rw [World.observe]; split_ifs <;> rfl
  | outcomeCheck =>
    rw [World.outcomeCheck]
    split_ifs
    · exact World.callCleanup_setup _ _
    · rfl
    · rfl
  | wait =>
    rcases w.wait_spec _ _ _ with ⟨-, heq⟩ | ⟨-, heq⟩ | ⟨s, -, heq⟩ | heq <;> rw [heq] <;> rfl
  | join _ hw => rcases World.join_spec hw with ⟨rfl, -⟩ | ⟨t, c, -, -, -, rfl⟩ <;> rfl
  | checkArrival => rw [World.checkArrival]; split_ifs <;> rfl
  | complete => exact World.callCleanup_setup _ _
  | drain => rw [World.drain]; split_ifs <;> rfl
  | reap => rw [World.reap]; split_ifs <;> rfl
  | advance => rw [World.advance]; split_ifs <;> [rfl; (split <;> rfl)]
  | finish =>
    rw [World.finish]
    split_ifs
    · rfl
    · exact World.callCleanup_setup _ _
    · exact World.callCleanup_setup _ _
  | cleanup => exact World.callCleanup_setup _ _
  | dropJoin _ hw => rcases World.dropJoin_spec hw with ⟨-, rfl⟩ | ⟨t, -, -, rfl⟩ <;> rfl
  | observer | judge | arrival | joinFailed | clean | tear | record | foreignCall | drop
  | dropTeardown => rfl

theorem Refused.controlMove {w w' : World} (h : Refused w) {action : Action}
    (hw : ControlMove w action w') : Refused w' := by
  obtain ⟨houtcome, hclosed, hacquired, hctl⟩ := h
  cases hw with
  | advance =>
    rw [World.advance, if_pos (Or.inl hclosed)]
    exact ⟨houtcome, hclosed, hacquired, hctl⟩
  | finish =>
    rw [World.finish, if_pos hclosed]
    exact ⟨houtcome, hclosed, hacquired, hctl⟩
  | cleanup =>
    rw [World.callCleanup, if_pos (Or.inr hclosed)]
    exact ⟨houtcome, hclosed, hacquired, Or.inl rfl⟩
  | foreignCall => exact ⟨houtcome, hclosed, hacquired, hctl⟩
  | drop => exact ⟨houtcome, hclosed, hacquired, Or.inr rfl⟩
  | dropJoin _ hw =>
    rcases World.dropJoin_spec hw with ⟨-, rfl⟩ | ⟨t, -, -, rfl⟩
    · exact ⟨houtcome, hclosed, hacquired, Or.inr (by split_ifs <;> rfl)⟩
    · exact ⟨houtcome, hclosed, hacquired, Or.inr rfl⟩
  | dropTeardown => exact ⟨houtcome, hclosed, hacquired, Or.inr rfl⟩
  | _ => simp_all [Ctl.released]

theorem Entered.controlMove {w w' : World} (h : Entered w) {action : Action}
    (hw : ControlMove w action w') : Entered w' := by
  rcases h with ⟨hctl, hacquired⟩ | hrefused | hadmitted
  · cases hw with
    | enter =>
      unfold World.enter
      split
      case h_1 kind message herror =>
        have hs : w.shared.Fails (w.fail kind message).shared :=
          SharedState.fails_fail (World.admission_error herror)
        exact Or.inr (Or.inl ⟨hs.outcome, rfl, hacquired, Or.inl rfl⟩)
      case h_2 hok => exact Or.inr (Or.inr (World.admission_ok (w := w) hok))
    | _ => simp_all
  · exact Or.inr (Or.inl (hrefused.controlMove hw))
  · refine Or.inr (Or.inr ?_)
    rwa [World.Admitted, hw.setup]

theorem Entered.beside {w w' : World} (h : Entered w) (hb : Beside w w') : Entered w' := by
  rcases h with ⟨hctl, hacquired⟩ | ⟨houtcome, hclosed, hacquired, hctl⟩ | hadmitted
  · exact Or.inl ⟨hb.ctl ▸ hctl, hb.acquired ▸ hacquired⟩
  · refine Or.inr (Or.inl ⟨hb.report.outcome houtcome, hb.closed ▸ hclosed, hb.acquired ▸ hacquired, ?_⟩)
    rwa [hb.ctl]
  · refine Or.inr (Or.inr ?_)
    rwa [World.Admitted, hb.setup]

theorem entered {w : World} (h : execution.Reachable w) : Entered w :=
  h.invariant (fun _ ⟨_, _, _, _, hw⟩ => Or.inl (hw ▸ ⟨rfl, rfl⟩)) fun _ _ _ _ hs hw =>
    (World.step_move hw).elim hs.controlMove fun hw => hs.beside hw.beside

/-- The controller has passed the admission, and an owner that holds an execution again may call. -/
theorem admitted_of_working {w : World} (h : execution.Reachable w) (he : w.ctl ≠ .entering)
    (hi : w.report.outcome = .completed ∨ w.acquired = true ∨ w.closed = false ∨
      (w.ctl ≠ .idle ∧ w.ctl.released = false)) : w.Admitted := by
  rcases entered h with ⟨hctl, -⟩ | ⟨houtcome, hclosed, hacquired, hctl⟩ | hadmitted
  · exact absurd hctl he
  · simp_all
  · exact hadmitted

/-! ### Joined intervals -/

/-- The thread of the actor with this name has been joined. -/
def World.Joined (w : World) (name : String) : Prop :=
  ∃ (i : ℕ) (a : Actor) (t : Thread), w.shared.actors[i]? = some a ∧
    a.declaration.actor = name ∧ w.threads[i]? = some t ∧ t.handle = false

/-- The interval of actor `i` has ended, and its thread is joined if the actor is done. -/
structure Progress (w : World) : Prop where
  ended : ∀ k < w.next, ∀ r, w.steps[k]? = some r → r.checkpoint = COMPLETION → w.Joined r.actor
  joining : ∀ i, w.ctl = .joining i → ∃ r a, w.steps[w.next]? = some r ∧
    w.shared.actors[i]? = some a ∧ a.declaration.actor = r.actor ∧ i < w.threads.length
  arrived : w.ctl = .checkArrival → w.report.outcome = .completed →
    ∃ r, w.steps[w.next]? = some r ∧ (r.checkpoint = COMPLETION → w.Joined r.actor)

/-- What a move must keep for the joined threads to stay joined. -/
structure Keeps (w w' : World) : Prop where
  setup : w'.setup = w.setup
  actor : ∀ (i : ℕ) (a : Actor), w.shared.actors[i]? = some a →
    ∃ a', w'.shared.actors[i]? = some a' ∧ a'.declaration = a.declaration
  thread : ∀ (i : ℕ) (t : Thread), w.threads[i]? = some t → t.handle = false →
    ∃ t', w'.threads[i]? = some t' ∧ t'.handle = false

namespace Keeps
variable {w w' : World}

theorem joined (h : Keeps w w') {name : String} (hj : w.Joined name) : w'.Joined name := by
  obtain ⟨i, a, t, ha, hname, ht, hh⟩ := hj
  obtain ⟨a', ha', hd⟩ := h.actor i a ha
  obtain ⟨t', ht', hh'⟩ := h.thread i t ht hh
  exact ⟨i, a', t', ha', hd ▸ hname, ht', hh'⟩

theorem same (hsetup : w'.setup = w.setup) (hactors : w'.shared.actors = w.shared.actors)
    (hthreads : w'.threads = w.threads) : Keeps w w' :=
  ⟨hsetup, fun _ a ha => ⟨a, hactors ▸ ha, rfl⟩, fun _ t ht hh => ⟨t, hthreads ▸ ht, hh⟩⟩

/-- The controller goes on; no handle comes back. -/
theorem handles {f : Thread → Thread} (hf : ∀ t, t.handle = false → (f t).handle = false) (i : ℕ)
    (c : Ctl) : Keeps w ((w.setThread i f).goto c) := by
  refine ⟨rfl, fun _ a ha => ⟨a, ha, rfl⟩, fun j t ht hh => ?_⟩
  simp only [World.goto, World.setThread, List.getElem?_modify]
  by_cases hij : i = j
  · subst hij
    exact ⟨f t, by simp [ht], hf t hh⟩
  · exact ⟨t, by simp [hij, ht], hh⟩

theorem turn {c : Ctl} (h : Turn w c w') : Keeps w w' := by
  cases h with
  | goes => exact same rfl rfl rfl
  | fails hs => exact same rfl hs.actors rfl

theorem beside (h : Beside w w') : Keeps w w' := by
  refine ⟨h.setup, h.actor, fun i t ht hh => ?_⟩
  obtain ⟨t', ht', -, hh', -⟩ := h.thread i t ht
  exact ⟨t', ht', hh'.trans hh⟩

end Keeps

namespace Ctl

/-- The controller is between the arrival of an actor and the end of its interval. -/
def settling : Ctl → Bool
  | .joining _ | .joinFailed | .checkArrival => true
  | _ => false

end Ctl

namespace Progress
variable {w w' : World} (h : Progress w)
include h

theorem keep (hk : Keeps w w') (hnext : w'.next = w.next) (hc : w'.ctl.settling = false) :
    Progress w' := by
  refine ⟨fun k hlt r hr hend => ?_, fun i hi => ?_, fun hctl => ?_⟩
  · rw [hnext] at hlt
    rw [World.steps, hk.setup] at hr
    exact hk.joined (h.ended k hlt r hr hend)
  · simp [hi, Ctl.settling] at hc
  · simp [hctl, Ctl.settling] at hc

theorem callCleanup (timeout : Duration) : Progress (w.callCleanup timeout) := by
  rcases w.callCleanup_spec timeout with ⟨-, heq⟩ | ⟨-, heq⟩ <;> rw [heq]
  · exact h.keep (.same rfl rfl rfl) rfl rfl
  · exact h.keep (.same rfl rfl rfl) rfl rfl

theorem create (hactors : w.shared.actors = []) (result : FactoryResult) :
    Progress (w.create result) := by
  cases result with
  | error e => exact h.keep (.same rfl rfl rfl) rfl rfl
  | panic => exact h.keep (.same rfl rfl rfl) rfl rfl
  | program workers =>
    rw [World.create]
    rcases w.acquire_spec workers with ⟨s, hs, -, heq⟩ | ⟨-, heq⟩ <;> rw [heq]
    · have hsame : s.actors = w.shared.actors := by
        rcases hs with rfl | hs
        · rfl
        · exact hs.actors
      rcases World.callCleanup_spec { w with acquired := true, shared := s }
        w.setup.policy.cleanupTimeout with ⟨-, heq⟩ | ⟨-, heq⟩ <;> rw [heq]
      · exact h.keep (.same rfl hsame rfl) rfl rfl
      · exact h.keep (.same rfl hsame rfl) rfl rfl
    · refine h.keep ⟨rfl, fun i a ha => by simp [hactors] at ha, fun _ t ht hh => ⟨t, ht, hh⟩⟩ rfl ?_
      simp only [World.declare, World.spawnFrom, World.goto]
      split_ifs <;> rfl

theorem spawn (i : ℕ) (result : Except String ThreadId) : Progress (w.spawn i result) := by
  cases result with
  | error e => exact h.keep (.same rfl rfl rfl) rfl rfl
  | ok thread =>
    refine h.keep ⟨rfl, fun _ a ha => ⟨a, ha, rfl⟩, fun j t ht hh => ⟨t, ?_, hh⟩⟩ rfl ?_
    · exact (List.getElem?_append_left (List.getElem?_eq_some_iff.mp ht).1).trans ht
    · simp only [World.spawn, World.spawnFrom, World.goto]
      split_ifs <;> rfl

theorem arrival (hcoordinated : Coordinated w) (hlicensed : Licensed w) {i : ℕ} {requested : Step}
    (hctl : w.ctl = .arrived i requested) : Progress (w.arrival i requested) := by
  obtain ⟨hstep, a, ha, hname⟩ := hlicensed.target i requested (Or.inr hctl)
  obtain ⟨s, heq, hs⟩ := World.arrival_some requested ha
  rw [heq]
  have hactors : s.actors = w.shared.actors := by
    rcases hs with hs | hs | ⟨-, rfl⟩
    · exact hs.actors
    · exact hs.actors
    · rfl
  have hk : Keeps w ({ w with shared := s }.goto (World.afterArrival i a.phase)) :=
    .same rfl hactors rfl
  refine ⟨fun k hlt r hr hend => hk.joined (h.ended k hlt r hr hend), fun j hj => ?_,
    fun hc ho => ?_⟩
  · simp only [World.goto, World.afterArrival] at hj
    split_ifs at hj with hphase
    cases hj
    refine ⟨requested, a, hstep, hactors ▸ ha, hname, ?_⟩
    by_contra hlt
    have hstarting := (hcoordinated.unspawned i a ha (Nat.le_of_not_lt hlt)).1
    simp [hphase] at hstarting
  · refine ⟨requested, hstep, fun hend => ?_⟩
    rcases hs with hs | hs | ⟨hcheckpoint, -⟩
    · exact absurd ho hs.outcome
    · exact absurd ho hs.outcome
    · -- the actor stands at its completion, so the controller goes on to join its thread
      have hphase : a.phase = .finished := by
        by_cases hlt : i < w.threads.length
        · have htable := hcoordinated.table i a _ ha (List.getElem?_eq_getElem hlt)
          exact htable.completion.mp (hcheckpoint.trans hend)
        · have hunspawned := (hcoordinated.unspawned i a ha (by omega)).2
          exact absurd (hcheckpoint.trans hend) hunspawned
      simp [World.goto, World.afterArrival, hphase] at hc

theorem join {i : ℕ} (hctl : w.ctl = .joining i) (hw : w.join i = some w') : Progress w' := by
  obtain ⟨r, a, hstep, ha, hname, hlt⟩ := h.joining i hctl
  have ht := List.getElem?_eq_getElem hlt
  rcases World.join_spec hw with ⟨rfl, hh⟩ | ⟨t, c, ht, -, hc, rfl⟩
  · have hk : Keeps w (w.goto .checkArrival) := .same rfl rfl rfl
    exact ⟨fun k hlt r hr hend => hk.joined (h.ended k hlt r hr hend), nofun,
      fun _ _ => ⟨r, hstep, fun _ => ⟨i, a, _, ha, hname, ht, hh _ ht⟩⟩⟩
  · have hk : Keeps w ((w.setThread i fun t => { t with handle := false }).goto c) :=
      .handles (fun _ _ => rfl) i c
    refine ⟨fun k hlt r hr hend => hk.joined (h.ended k hlt r hr hend), fun j hj => ?_,
      fun _ _ => ⟨r, hstep, fun _ => ⟨i, a, { t with handle := false }, ha, hname, ?_, rfl⟩⟩⟩
    · rcases hc with rfl | rfl <;> cases hj
    · simp [World.goto, World.setThread, ht]

theorem checkArrival (hctl : w.ctl = .checkArrival) : Progress w.checkArrival := by
  rw [World.checkArrival]
  split_ifs with ho
  · obtain ⟨r, hstep, hjoined⟩ := h.arrived hctl ho
    refine ⟨fun k hlt q hq hend => ?_, (fun _ h => by cases h), (fun h => by cases h)⟩
    by_cases hk : k = w.next
    · subst hk
      obtain rfl : q = r := Option.some.inj (hq.symm.trans hstep)
      exact hjoined hend
    · have hlt' : k < w.next := by
        have hsucc : k < w.next + 1 := hlt
        omega
      exact h.ended k hlt' q hq hend
  · exact h.keep (.same rfl rfl rfl) rfl rfl

theorem advance (requested : Step) (expired : Bool) :
    Progress (w.advance requested expired) := by
  rw [World.advance]
  split_ifs
  · exact h
  rcases w.shared.permit_spec w.cancelled expired w.steps w.next requested with
    ⟨s, hs, heq⟩ | ⟨i, a, ha, -, -, -, heq⟩
  · rw [heq]
    exact h.keep (.same rfl hs.actors rfl) rfl rfl
  rw [heq]
  by_cases hstop : w.shared.stopping = true
  · rw [if_pos hstop]
    exact h.keep (.same rfl rfl rfl) rfl rfl
  · rw [if_neg hstop]
    refine h.keep ⟨rfl, fun j b hb => ?_, fun _ t ht hh => ⟨t, ht, hh⟩⟩ rfl rfl
    have hmap := congrArg (fun l => l[j]?)
      ((w.shared.pushEvent "permit" w.next a).declarations_modifyActor i
        (f := fun a => { a with phase := .running }) fun _ => rfl)
    simp only [List.getElem?_map, SharedState.pushEvent, hb, Option.map_some,
      Option.map_eq_some_iff] at hmap
    exact hmap

theorem controlMove (hcoordinated : Coordinated w) (hlicensed : Licensed w) {action : Action}
    (hw : ControlMove w action w') : Progress w' := by
  cases hw with
  | enter =>
    unfold World.enter
    split
    · exact h.keep (.same rfl rfl rfl) rfl rfl
    · exact h.keep (.same rfl rfl rfl) rfl rfl
  | create hctl => exact h.create (hcoordinated.preparing (Or.inr hctl)).2 _
  | spawn => exact h.spawn _ _
  | startWait =>
    rcases w.startWait_spec _ with ⟨-, heq⟩ | ⟨-, heq⟩ | ⟨s, hs, heq⟩ | heq <;> rw [heq]
    · exact h.keep (.same rfl rfl rfl) rfl rfl
    · exact h.keep (.same rfl rfl rfl) rfl rfl
    · exact h.keep (.same rfl hs.actors rfl) rfl rfl
    · exact h
  | observe =>
    rw [World.observe]
    split_ifs
    · exact h.keep (.same rfl rfl rfl) rfl rfl
    · exact h.keep (.same rfl rfl rfl) rfl rfl
    · exact h.keep (.same rfl rfl rfl) rfl rfl
  | observer => exact h.keep (.same rfl rfl rfl) rfl rfl
  | judge =>
    rw [World.judge]
    rcases w.shared.judge_spec w.setup.serde w.cancelled _ w.next _ with hs | ⟨-, value, -, heq⟩
    · exact h.keep (.same rfl hs.actors rfl) rfl rfl
    · rw [heq]
      exact h.keep (.same rfl rfl rfl) rfl rfl
  | outcomeCheck =>
    rw [World.outcomeCheck]
    split_ifs
    · exact h.callCleanup _
    · exact h.keep (.same rfl rfl rfl) rfl rfl
    · exact h.keep (.same rfl rfl rfl) rfl rfl
  | wait =>
    rcases w.wait_spec _ _ _ with ⟨-, heq⟩ | ⟨-, heq⟩ | ⟨s, hs, heq⟩ | heq <;> rw [heq]
    · exact h.keep (.same rfl rfl rfl) rfl rfl
    · exact h.keep (.same rfl rfl rfl) rfl rfl
    · exact h.keep (.same rfl hs.actors rfl) rfl rfl
    · exact h
  | arrival hctl => exact h.arrival hcoordinated hlicensed hctl
  | join hctl hw => exact h.join hctl hw
  | joinFailed =>
    have hs : w.shared.Fails (w.fail .applicationFailed "worker exit panicked").shared :=
      SharedState.fails_fail (by decide)
    exact ⟨h.ended, (fun _ h => by cases h), fun _ ho => absurd ho hs.outcome⟩
  | checkArrival hctl => exact h.checkArrival hctl
  | complete =>
    have hdone : Progress { w with shared := { w.shared with
        report := { w.report with scheduleCompleted := true } } } := { h with }
    exact hdone.callCleanup _
  | clean =>
    rw [World.clean]
    rcases w.shared.beginCleanup_spec with ⟨-, hs⟩ | ⟨-, heq⟩
    · exact h.keep (.same rfl hs.actors rfl) rfl rfl
    · exact h.keep (.same rfl (by rw [heq]; rfl) rfl) rfl rfl
  | drain =>
    rw [World.drain]
    split_ifs
    · exact h
    · exact h.keep (.same rfl rfl rfl) rfl rfl
  | reap =>
    rw [World.reap]
    split_ifs
    · exact h.keep (.handles (fun t hh => by split_ifs <;> simp [hh]) _ _) rfl rfl
    · exact h.keep (.same rfl rfl rfl) rfl rfl
    · exact h.keep (.same rfl rfl rfl) rfl rfl
    · exact h.keep (.same rfl rfl rfl) rfl rfl
  | tear => exact h.keep (.same rfl rfl rfl) rfl rfl
  | record => exact h.keep (.same rfl rfl rfl) rfl rfl
  | advance => exact h.advance _ _
  | finish hctl =>
    rw [World.finish]
    split_ifs
    · exact h
    · have hfails : Progress (w.fail .invalidSchedule "execution finished before all intervals") :=
        h.keep (.same rfl rfl rfl) rfl (by rw [show (w.fail _ _).ctl = w.ctl from rfl, hctl]; rfl)
      exact hfails.callCleanup _
    · exact h.callCleanup _
  | cleanup => exact h.callCleanup _
  | foreignCall => exact h
  | drop => exact h.keep (.same rfl rfl rfl) rfl rfl
  | dropJoin _ hw =>
    rcases World.dropJoin_spec hw with ⟨-, rfl⟩ | ⟨t, -, -, rfl⟩
    · exact h.keep (.same rfl rfl rfl) rfl (by split_ifs <;> rfl)
    · exact h.keep (.handles (fun _ _ => rfl) _ _) rfl rfl
  | dropTeardown => exact h.keep (.same rfl rfl rfl) rfl rfl

theorem beside (hb : Beside w w') : Progress w' := by
  have hk := Keeps.beside hb
  refine ⟨fun k hlt r hr hend => ?_, fun i hi => ?_, fun hc ho => ?_⟩
  · rw [hb.next] at hlt
    rw [World.steps, hb.setup] at hr
    exact hk.joined (h.ended k hlt r hr hend)
  · obtain ⟨r, a, hstep, ha, hname, hlt⟩ := h.joining i (hb.ctl ▸ hi)
    obtain ⟨a', ha', hd⟩ := hb.actor i a ha
    refine ⟨r, a', ?_, ha', hd ▸ hname, hb.length ▸ hlt⟩
    rwa [World.steps, hb.setup, hb.next]
  · have hreport := hb.report.completed ho
    obtain ⟨r, hstep, hjoined⟩ := h.arrived (hb.ctl ▸ hc) (hreport ▸ ho)
    refine ⟨r, ?_, fun hend => hk.joined (hjoined hend)⟩
    rwa [World.steps, hb.setup, hb.next]

end Progress

theorem progress {w : World} (h : execution.Reachable w) : Progress w := by
  refine h.invariant (fun w ⟨_, _, _, _, hw⟩ => ?_) fun w a w' hr hs hw => ?_
  · subst hw
    exact ⟨nofun, nofun, nofun⟩
  · rcases World.step_move hw with hw | hw
    · exact hs.controlMove (coordinated hr) (licensed hr) hw
    · exact hs.beside hw.beside

/-- Past the last interval every thread has been joined. -/
theorem joined_of_last {w : World} (h : execution.Reachable w) (hadmitted : w.Admitted)
    (hnext : w.next = w.steps.length) : ∀ t ∈ w.threads, t.handle = false := by
  have hc := coordinated h
  intro t ht
  obtain ⟨i, hi⟩ := List.getElem?_of_mem ht
  have hlt : i < w.shared.actors.length := (List.getElem?_eq_some_iff.mp hi).1.trans_le hc.spawned
  have ha := List.getElem?_eq_getElem hlt
  have hd := hc.declaration ha
  have hstep := hadmitted.terminal _ (List.mem_of_getElem? hd)
  obtain ⟨k, hk⟩ := List.getElem?_of_mem hstep
  have hklt : k < w.next := by
    rw [hnext]
    exact (List.getElem?_eq_some_iff.mp hk).1
  obtain ⟨j, b, u, hb, hname, hu, hh⟩ := (progress h).ended k hklt _ hk rfl
  -- actors have distinct names, so the joined thread is this one
  obtain rfl : i = j := by
    refine (List.getElem?_inj ?_ hadmitted.distinct).mp ?_
    · simpa using (List.getElem?_eq_some_iff.mp hd).1
    · rw [List.getElem?_map, List.getElem?_map, hd, hc.declaration hb]
      simpa using hname.symm
  obtain rfl : u = t := Option.some.inj (hu.symm.trans hi)
  exact hh

end MirrorRust
