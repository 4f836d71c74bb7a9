import MirrorRust.Execution.FailStop

/-! Who holds the program and its threads: the teardown runs once, after every thread has been
joined, and the report of a cleanup says which threads were left. -/
namespace MirrorRust

namespace Ctl

/-- No program has been acquired. -/
def unopened : Ctl → Bool
  | .entering | .creating => true
  | _ => false

/-- A program has been acquired, and the controller is in the middle of a call. -/
def working (c : Ctl) : Bool := !c.wrapping && c != .idle && !c.unopened

/-- The last step of closing is over. -/
def tornDown : Ctl → Bool
  | .recording _ | .dropped => true
  | _ => false

/-- Every thread has been joined. -/
def emptied : Ctl → Bool
  | .tearing | .recording _ | .dropTeardown | .dropped => true
  | _ => false

/-- `cleanup` has run its first region and has not returned. -/
def stopped : Ctl → Bool
  | .draining | .reaping _ | .tearing | .recording _ => true
  | _ => false

end Ctl

/-- What the report says after a teardown with this result. -/
def settledAs : CallResult Unit → Cleanup
  | .ok () => .confirmed
  | _ => .teardownFailed

/-- No cleanup has been attempted. -/
structure Fresh (w : World) : Prop where
  closed : w.closed = false
  teardowns : w.teardowns = []
  attempts : w.report.cleanupAttempts = []
  cleanup : w.report.cleanup = .notStarted

structure Custody (w : World) : Prop where
  unopened : w.ctl.unopened = true → Fresh w ∧ w.acquired = false
  working : w.ctl.working = true → Fresh w
  closing : w.ctl = .cleaning ∨ w.ctl.stopped = true → w.closed = false
  ended : w.ctl.stopped = true ∨ w.report.cleanupAttempts ≠ [] →
    w.report.outcome = .completed → w.report.scheduleCompleted = true
  count : w.teardowns.length =
    if w.acquired = true ∧ (w.closed = true ∨ w.ctl.tornDown = true) then 1 else 0
  held : w.ctl = .tearing ∨ w.ctl = .dropTeardown → w.acquired = true ∧ w.closed = false
  joined : w.closed = true ∨ w.ctl.emptied = true → ∀ t ∈ w.threads, t.handle = false
  dropping : ∀ i, w.ctl = .dropping i → ∀ (j : ℕ) (t : Thread), j < i → w.threads[j]? = some t →
    t.handle = false
  recording : ∀ e, w.ctl = .recording e → w.acquired = true →
    ∃ r, w.teardowns = [r] ∧ e = SharedState.teardownError r
  settled : w.closed = true → w.acquired = true →
    ∃ r, w.teardowns = [r] ∧ w.report.cleanup = settledAs r
  unacquired : w.closed = true → w.acquired = false → w.report.cleanup = .notStarted
  unsettled : w.closed = false → w.report.cleanup = .notStarted ∨ w.report.cleanup = .incomplete
  fresh : w.report.cleanupAttempts = [] → w.report.cleanup = .notStarted
  remaining : w.ctl = .idle → w.closed = false → w.report.cleanupAttempts ≠ [] →
    w.report.cleanup = .incomplete ∧ w.remaining ≠ [] ∧ w.report.remainingActors = w.remaining

namespace Fresh
variable {w w' : World} {c : Ctl} (h : Fresh w)
include h

theorem goto : Fresh (w.goto c) := ⟨h.closed, h.teardowns, h.attempts, h.cleanup⟩

theorem fails {s : SharedState} (hs : w.shared.Fails s) : Fresh ({ w with shared := s }.goto c) :=
  ⟨h.closed, h.teardowns, hs.cleanupAttempts.trans h.attempts, hs.cleanup.trans h.cleanup⟩

/-- An execution that nobody has tried to clean up is in good custody. -/
theorem custody (hc : w.ctl.working = true ∨ w.ctl = .idle ∨ w.ctl = .cleaning) : Custody w := by
  have hstopped : w.ctl.stopped = false ∧ w.ctl.tornDown = false ∧ w.ctl.emptied = false ∧
      w.ctl ≠ .tearing ∧ w.ctl ≠ .dropTeardown ∧ (∀ i, w.ctl ≠ .dropping i) ∧
      (∀ e, w.ctl ≠ .recording e) ∧ w.ctl.unopened = false := by
    cases hctl : w.ctl <;> simp_all [Ctl.working, Ctl.wrapping, Ctl.stopped, Ctl.tornDown,
      Ctl.emptied, Ctl.unopened]
  obtain ⟨hstop, htorn, hempty, htearing, hdrop, hdropping, hrecording, hopened⟩ := hstopped
  constructor
  · simp [hopened]
  · exact fun _ => h
  · exact fun _ => h.closed
  · simp [hstop, h.attempts]
  · simp [h.teardowns, h.closed, htorn]
  · simp [htearing, hdrop]
  · simp [h.closed, hempty]
  · exact fun i hi => absurd hi (hdropping i)
  · exact fun e he => absurd he (hrecording e)
  · simp [h.closed]
  · simp [h.closed]
  · exact fun _ => Or.inl h.cleanup
  · exact fun _ => h.cleanup
  · simp [h.attempts]

theorem callCleanup (timeout : Duration) : Custody (w.callCleanup timeout) := by
  rcases w.callCleanup_spec timeout with ⟨-, heq⟩ | ⟨-, heq⟩ <;> rw [heq]
  · exact h.goto.custody (Or.inr (Or.inl rfl))
  · exact h.goto.custody (Or.inr (Or.inr rfl))

end Fresh

/-- A move that keeps the program and what the report says of the cleanup; no handle comes back. -/
structure SameCustody (w w' : World) : Prop where
  setup : w'.setup = w.setup
  acquired : w'.acquired = w.acquired
  closed : w'.closed = w.closed
  teardowns : w'.teardowns = w.teardowns
  thread : ∀ (i : ℕ) (t' : Thread), w'.threads[i]? = some t' →
    ∃ t, w.threads[i]? = some t ∧ (t.handle = false → t'.handle = false)
  cleanup : w'.report.cleanup = w.report.cleanup
  remainingActors : w'.report.remainingActors = w.report.remainingActors
  attempts : w'.report.cleanupAttempts = w.report.cleanupAttempts
  completed : w'.report.outcome = .completed → w.report.outcome = .completed
  scheduleCompleted : w'.report.scheduleCompleted = w.report.scheduleCompleted

namespace SameCustody
variable {w : World} {c : Ctl}

theorem goto : SameCustody w (w.goto c) :=
  ⟨rfl, rfl, rfl, rfl, fun _ t ht => ⟨t, ht, id⟩, rfl, rfl, rfl, id, rfl⟩

theorem fails {s : SharedState} (hs : w.shared.Fails s) :
    SameCustody w ({ w with shared := s }.goto c) :=
  ⟨rfl, rfl, rfl, rfl, fun _ t ht => ⟨t, ht, id⟩, hs.cleanup, hs.remainingActors, hs.cleanupAttempts,
    fun ho => absurd ho hs.outcome, hs.scheduleCompleted⟩

theorem handles {f : Thread → Thread} (hf : ∀ t, t.handle = false → (f t).handle = false) (i : ℕ) :
    SameCustody w ((w.setThread i f).goto c) := by
  refine ⟨rfl, rfl, rfl, rfl, fun j t' ht' => ?_, rfl, rfl, rfl, id, rfl⟩
  simp only [World.goto, World.setThread, List.getElem?_modify] at ht'
  by_cases hij : i = j
  · subst hij
    obtain ⟨t, ht, rfl⟩ := Option.map_eq_some_iff.mp ht'
    exact ⟨t, by simpa using ht, by simpa using hf t⟩
  · exact ⟨t', by simpa [hij] using ht', id⟩

theorem handle_false {w' : World} (h : SameCustody w w') (hw : ∀ t ∈ w.threads, t.handle = false) :
    ∀ t ∈ w'.threads, t.handle = false := by
  intro t' ht'
  obtain ⟨i, hi⟩ := List.getElem?_of_mem ht'
  obtain ⟨t, ht, hh⟩ := h.thread i t' hi
  exact hh (hw t (List.mem_of_getElem? ht))

end SameCustody

/-- The names of the remaining actors tell whether a handle is left. -/
theorem Coordinated.handles_of_remaining {w : World} (hc : Coordinated w) (hremaining : w.remaining = []) :
    ∀ t ∈ w.threads, t.handle = false := by
  intro t ht
  obtain ⟨i, hi⟩ := List.getElem?_of_mem ht
  have hlt : i < w.shared.actors.length := (List.getElem?_eq_some_iff.mp hi).1.trans_le hc.spawned
  have hd := hc.declaration (List.getElem?_eq_getElem hlt)
  by_contra hh
  have hmem : (w.shared.actors[i].declaration, t) ∈ w.setup.adapter.actors.zip w.threads := by
    refine List.mem_of_getElem? (i := i) ?_
    rw [List.getElem?_zip_eq_some]
    exact ⟨hd, hi⟩
  rw [World.remaining, List.map_eq_nil_iff, List.filter_eq_nil_iff] at hremaining
  exact hremaining _ hmem (by simpa using hh)

namespace Custody
variable {w w' : World} {c : Ctl} (h : Custody w)
include h

/-- The controller closes or drops the execution, or rests. -/
theorem carry (hs : SameCustody w w') (hrest : w'.ctl.wrapping = true ∨ w'.ctl = .idle)
    (hclosing : w'.ctl = .cleaning ∨ w'.ctl.stopped = true → w.closed = false)
    (hended : w'.ctl.stopped = true → w'.report.outcome = .completed →
      w.report.scheduleCompleted = true)
    (htorn : w.acquired = true → w.closed = false → w'.ctl.tornDown = w.ctl.tornDown)
    (hheld : w'.ctl = .tearing ∨ w'.ctl = .dropTeardown → w.acquired = true ∧ w.closed = false)
    (hemptied : w'.ctl.emptied = true → ∀ t ∈ w'.threads, t.handle = false)
    (hdropping : ∀ i, w'.ctl = .dropping i → ∀ (j : ℕ) (t : Thread), j < i →
      w'.threads[j]? = some t → t.handle = false)
    (hrecording : ∀ e, w'.ctl = .recording e → w.acquired = false)
    (hidle : w'.ctl = .idle → w.ctl = .idle ∧ w'.remaining = w.remaining) : Custody w' := by
  constructor
  · intro hw
    rcases hrest with hc | hc
    · cases hctl : w'.ctl <;> simp_all [Ctl.wrapping, Ctl.unopened]
    · simp [hc, Ctl.unopened] at hw
  · intro hw
    rcases hrest with hc | hc <;> simp [hc, Ctl.working] at hw
  · rwa [hs.closed]
  · intro hc ho
    rw [hs.attempts] at hc
    rw [hs.scheduleCompleted]
    rcases hc with hc | hc
    · exact hended hc ho
    · exact h.ended (Or.inr hc) (hs.completed ho)
  · have hcount := h.count
    rw [hs.teardowns, hs.acquired, hs.closed]
    by_cases hopen : w.acquired = true ∧ w.closed = false
    · rwa [htorn hopen.1 hopen.2]
    · by_cases hacquired : w.acquired = true
      · have hclosed : w.closed = true := by simpa [hacquired] using hopen
        simpa [hclosed] using hcount
      · simpa [hacquired] using hcount
  · rwa [hs.acquired, hs.closed]
  · rw [hs.closed]
    rintro (hc | hc)
    · exact hs.handle_false (h.joined (Or.inl hc))
    · exact hemptied hc
  · exact hdropping
  · intro e he hacquired
    rw [hs.acquired, hrecording e he] at hacquired
    cases hacquired
  · rw [hs.closed, hs.acquired, hs.teardowns, hs.cleanup]
    exact h.settled
  · rw [hs.closed, hs.acquired, hs.cleanup]
    exact h.unacquired
  · rw [hs.closed, hs.cleanup]
    exact h.unsettled
  · rw [hs.attempts, hs.cleanup]
    exact h.fresh
  · rw [hs.closed, hs.attempts, hs.cleanup, hs.remainingActors]
    intro hc hclosed hattempts
    obtain ⟨hctl, hremaining⟩ := hidle hc
    rw [hremaining]
    exact h.remaining hctl hclosed hattempts

theorem advance (hr : execution.Reachable w) (hctl : w.ctl = .idle) (requested : Step)
    (expired : Bool) : Custody (w.advance requested expired) := by
  rw [World.advance]
  split_ifs with hopen
  · exact h
  obtain ⟨hclosed, houtcome⟩ := not_or.mp hopen
  have hattempts : w.report.cleanupAttempts = [] := by
    by_contra hne
    have hs := h.ended (Or.inr hne) (not_not.mp houtcome)
    simp [(completion hr).open_incomplete hctl (by simpa using hclosed)] at hs
  have hfresh : Fresh w := by
    refine ⟨by simpa using hclosed, ?_, hattempts, h.fresh hattempts⟩
    have hcount := h.count
    rw [if_neg (by simp [hctl, Ctl.tornDown, hclosed])] at hcount
    exact List.length_eq_zero_iff.mp hcount
  rcases w.shared.permit_spec w.cancelled expired w.steps w.next requested with
    ⟨s, hs, heq⟩ | ⟨i, a, -, -, -, -, heq⟩ <;> rw [heq]
  · exact (hfresh.fails hs).custody (Or.inl rfl)
  · by_cases hstop : w.shared.stopping = true
    · rw [if_pos hstop]
      exact Fresh.custody ⟨hfresh.closed, hfresh.teardowns, hattempts, hfresh.cleanup⟩ (Or.inl rfl)
    · rw [if_neg hstop]
      exact Fresh.custody ⟨hfresh.closed, hfresh.teardowns, hattempts, hfresh.cleanup⟩ (Or.inl rfl)

/-- A call of `cleanup` or `finish` on an idle execution; the shared state may just have failed. -/
theorem call (hctl : w.ctl = .idle) {s : SharedState} (hs : s = w.shared ∨ w.shared.Fails s)
    (timeout : Duration) : Custody ({ w with shared := s }.callCleanup timeout) := by
  have hsame : ∀ c, SameCustody w ({ w with shared := s }.goto c) := by
    intro c
    rcases hs with rfl | hs
    · exact .goto
    · exact .fails hs
  rcases World.callCleanup_spec { w with shared := s } timeout with ⟨-, heq⟩ | ⟨hclosed, heq⟩ <;>
    rw [heq]
  · exact h.carry (hsame _) (Or.inr rfl) nofun nofun (fun _ _ => by rw [hctl]; rfl) nofun nofun nofun nofun
      fun _ => ⟨hctl, rfl⟩
  · exact h.carry (hsame _) (Or.inl rfl) (fun _ => hclosed) nofun (fun _ _ => by rw [hctl]; rfl) nofun nofun nofun nofun
      nofun

theorem clean (hctl : w.ctl = .cleaning) : Custody w.clean := by
  have hclosed := h.closing (Or.inl hctl)
  rw [World.clean]
  rcases w.shared.beginCleanup_spec with ⟨-, hs⟩ | ⟨hdone, heq⟩
  · exact h.carry (.fails hs) (Or.inl rfl) (fun _ => hclosed) (fun _ ho => absurd ho hs.outcome)
      (fun _ _ => by rw [hctl]; rfl) (by simp [World.goto]) (by simp [World.goto, Ctl.emptied])
      (by simp [World.goto]) (by simp [World.goto]) (by simp [World.goto])
  · rw [heq]
    have hsame : SameCustody w
        ({ w with shared := { w.shared with stopping := true } }.goto .draining) :=
      ⟨rfl, rfl, rfl, rfl, fun _ t ht => ⟨t, ht, id⟩, rfl, rfl, rfl, id, rfl⟩
    refine h.carry hsame (Or.inl rfl) (fun _ => hclosed) (fun _ => hdone) (fun _ _ => by rw [hctl]; rfl)
      ?_ ?_ ?_ ?_ ?_
    all_goals simp [World.goto, Ctl.emptied]

theorem drain (hctl : w.ctl = .draining) (expired : Bool) : Custody (w.drain expired) := by
  have hclosed := h.closing (Or.inr (by rw [hctl]; rfl))
  rw [World.drain]
  split_ifs
  · exact h
  · refine h.carry .goto (Or.inl rfl) (fun _ => hclosed) (fun _ => h.ended (Or.inl (by rw [hctl]; rfl)))
      (fun _ _ => by rw [hctl]; rfl) ?_ ?_ ?_ ?_ ?_
    all_goals simp [World.goto, Ctl.emptied]

theorem reap (hc : Coordinated w) {i : ℕ} (hctl : w.ctl = .reaping i) : Custody (w.reap i) := by
  have hstop : w.ctl.stopped = true := by rw [hctl]; rfl
  have hclosed := h.closing (Or.inr hstop)
  have hended := h.ended (Or.inl hstop)
  have htorn : w.ctl.tornDown = false := by rw [hctl]; rfl
  rw [World.reap]
  split_ifs with hi hremaining hacquired
  · refine h.carry (.handles (fun t hh => by split_ifs <;> simp [hh]) i) (Or.inl rfl) (fun _ => hclosed)
      (fun _ => hended) (fun _ _ => htorn.symm) ?_ ?_ ?_ ?_ ?_
    all_goals simp [World.goto, World.setThread, Ctl.emptied]
  · have hcount := h.count
    constructor
    all_goals simp_all [World.goto, World.report, SharedState.recordIncomplete, Ctl.working,
      Ctl.stopped, Ctl.tornDown, Ctl.emptied, Ctl.unopened]
    exact ⟨hremaining, rfl⟩
  · have hjoined := hc.handles_of_remaining (not_not.mp hremaining)
    refine h.carry .goto (Or.inl rfl) (fun _ => hclosed) (fun _ => hended) (fun _ _ => htorn.symm)
      (fun _ => ⟨hacquired, hclosed⟩) (fun _ => hjoined) ?_ ?_ ?_
    all_goals simp [World.goto]
  · have hjoined := hc.handles_of_remaining (not_not.mp hremaining)
    refine h.carry .goto (Or.inl rfl) (fun _ => hclosed) (fun _ => hended) ?_ ?_ (fun _ => hjoined) ?_ ?_ ?_
    all_goals simp [World.goto, hacquired]

theorem tear (hctl : w.ctl = .tearing) (result : CallResult Unit) :
    Custody (w.teardown result (.recording (SharedState.teardownError result))) := by
  obtain ⟨hacquired, hclosed⟩ := h.held (Or.inl hctl)
  have hjoined := h.joined (Or.inr (by rw [hctl]; rfl))
  have hended := h.ended (Or.inl (by rw [hctl]; rfl))
  have hnone : w.teardowns = [] := by
    have hcount := h.count
    rw [if_neg (by simp [hctl, hclosed, Ctl.tornDown])] at hcount
    exact List.length_eq_zero_iff.mp hcount
  have hunsettled := h.unsettled hclosed
  have hfresh := h.fresh
  constructor
  all_goals simp_all [World.teardown, World.goto, World.report, Ctl.working, Ctl.wrapping,
    Ctl.stopped, Ctl.tornDown, Ctl.emptied, Ctl.unopened]

theorem record {e : Option String} (hctl : w.ctl = .recording e) : Custody (w.record e) := by
  have hjoined := h.joined (Or.inr (by rw [hctl]; rfl))
  have hended := h.ended (Or.inl (by rw [hctl]; rfl))
  have hcount : w.teardowns.length = if w.acquired = true then 1 else 0 := by
    simpa [hctl, Ctl.tornDown] using h.count
  refine ⟨nofun, nofun, nofun, fun _ => hended, ?_, nofun, fun _ => hjoined, nofun, nofun,
    fun _ hacquired => ?_, fun _ hacquired => ?_, nofun, fun hattempts => ?_, nofun⟩
  · simpa [World.record, World.goto] using hcount
  · obtain ⟨r, hr, rfl⟩ := h.recording e hctl hacquired
    refine ⟨r, hr, ?_⟩
    simp only [World.record, World.report, World.goto, SharedState.recordCleanup,
      show w.acquired = true from hacquired]
    cases r <;> rfl
  · simp [World.record, World.report, World.goto, SharedState.recordCleanup,
      show w.acquired = false from hacquired]
  · simp [World.record, World.report, World.goto, SharedState.recordCleanup] at hattempts

theorem drop (hctl : w.ctl = .idle) : Custody w.drop := by
  have hsame : SameCustody w w.drop :=
    ⟨rfl, rfl, rfl, rfl, fun _ t ht => ⟨t, ht, id⟩, rfl, rfl, rfl, id, rfl⟩
  refine h.carry hsame (Or.inl rfl) nofun nofun (fun _ _ => by rw [hctl]; rfl) nofun nofun ?_ nofun nofun
  intro i hi j t hj
  cases hi
  omega

theorem dropJoin {i : ℕ} (hctl : w.ctl = .dropping i) (hw : w.dropJoin i = some w') :
    Custody w' := by
  have htorn : w.ctl.tornDown = false := by rw [hctl]; rfl
  rcases World.dropJoin_spec hw with ⟨hlen, rfl⟩ | ⟨t, ht, -, rfl⟩
  · have hjoined : ∀ t ∈ w.threads, t.handle = false := by
      intro t ht
      obtain ⟨j, hj⟩ := List.getElem?_of_mem ht
      exact h.dropping i hctl j t ((List.getElem?_eq_some_iff.mp hj).1.trans_le hlen) hj
    by_cases hopen : w.acquired = true ∧ w.closed = false
    · rw [hopen.1, hopen.2]
      exact h.carry .goto (Or.inl rfl) nofun nofun (fun _ _ => htorn.symm) (fun _ => hopen)
        (fun _ => hjoined) nofun nofun nofun
    · have hc : (!w.closed && w.acquired) = false := by
        cases hclosed : w.closed <;> cases hacquired : w.acquired <;> simp_all
      rw [hc]
      exact h.carry .goto (Or.inl rfl) nofun nofun (fun hacquired hclosed => absurd ⟨hacquired, hclosed⟩ hopen)
        nofun (fun _ => hjoined) nofun nofun nofun
  · refine h.carry (.handles (fun _ _ => rfl) i) (Or.inl rfl) nofun nofun (fun _ _ => htorn.symm) nofun nofun
      (fun k hk j u hj hu => ?_) nofun nofun
    cases hk
    simp only [World.goto, World.setThread, List.getElem?_modify] at hu
    by_cases hij : i = j
    · subst hij
      obtain ⟨v, -, rfl⟩ := Option.map_eq_some_iff.mp hu
      simp
    · exact h.dropping i hctl j u (by omega) (by simpa [hij] using hu)

theorem dropTeardown (hctl : w.ctl = .dropTeardown) (result : CallResult Unit) :
    Custody (w.teardown result .dropped) := by
  obtain ⟨hacquired, hclosed⟩ := h.held (Or.inr hctl)
  have hjoined := h.joined (Or.inr (by rw [hctl]; rfl))
  have hended := h.ended
  have hnone : w.teardowns = [] := by
    have hcount := h.count
    rw [if_neg (by simp [hctl, hclosed, Ctl.tornDown])] at hcount
    exact List.length_eq_zero_iff.mp hcount
  have hunsettled := h.unsettled hclosed
  have hfresh := h.fresh
  constructor
  all_goals simp_all [World.teardown, World.goto, World.report, Ctl.working, Ctl.wrapping,
    Ctl.stopped, Ctl.tornDown, Ctl.emptied, Ctl.unopened]

/-- An execution that is closed before a program was acquired. -/
theorem refused (hopened : w.ctl.unopened = true) (hthreads : w.threads = []) {s : SharedState}
    (hs : w.shared.Fails s) : Custody { { w with shared := s }.goto .idle with closed := true } := by
  obtain ⟨hfresh, hacquired⟩ := h.unopened hopened
  have hattempts : s.report.cleanupAttempts = [] := hs.cleanupAttempts.trans hfresh.attempts
  have hcleanup : s.report.cleanup = .notStarted := hs.cleanup.trans hfresh.cleanup
  refine ⟨nofun, nofun, nofun, ?_, ?_, nofun, ?_, nofun, nofun, ?_, fun _ _ => hcleanup, nofun,
    fun _ => hcleanup, nofun⟩
  · rintro (hc | hc)
    · cases hc
    · exact absurd hattempts hc
  · simp [World.goto, hacquired, hfresh.teardowns]
  · simp [World.goto, hthreads]
  · simp [World.goto, hacquired]

theorem acquire (hopened : w.ctl.unopened = true) (workers : List String) :
    Custody (w.acquire workers) := by
  obtain ⟨hfresh, -⟩ := h.unopened hopened
  have hacquired : Fresh { w with acquired := true } :=
    ⟨hfresh.closed, hfresh.teardowns, hfresh.attempts, hfresh.cleanup⟩
  rcases w.acquire_spec workers with ⟨s, rfl | hs, -, heq⟩ | ⟨-, heq⟩ <;> rw [heq]
  · exact hacquired.callCleanup _
  · have hfailed : Fresh { w with acquired := true, shared := s } :=
      ⟨hfresh.closed, hfresh.teardowns, hs.cleanupAttempts.trans hfresh.attempts,
        hs.cleanup.trans hfresh.cleanup⟩
    exact hfailed.callCleanup _
  · refine Fresh.custody ⟨hfresh.closed, hfresh.teardowns, hfresh.attempts, hfresh.cleanup⟩ (Or.inl ?_)
    simp only [World.declare, World.spawnFrom, World.goto]
    split_ifs <;> rfl

theorem controlMove (hr : execution.Reachable w) {action : Action}
    (hw : ControlMove w action w') : Custody w' := by
  have hfresh := h.working
  cases hw with
  | enter hctl =>
    have hopened : w.ctl.unopened = true := by rw [hctl]; rfl
    unfold World.enter
    split
    case h_1 kind message herror =>
      exact h.refused hopened ((coordinated hr).preparing (Or.inl hctl)).1
        (SharedState.fails_fail (World.admission_error herror))
    case h_2 =>
      obtain ⟨hfresh, hacquired⟩ := h.unopened hopened
      refine { h with
        unopened := fun _ => ⟨hfresh.goto, hacquired⟩
        working := nofun
        closing := nofun
        ended := ?_
        count := ?_
        held := nofun
        joined := ?_
        dropping := nofun
        recording := nofun
        remaining := nofun }
      · rintro (hc | hc)
        · cases hc
        · exact absurd hfresh.attempts hc
      · simp [World.goto, hacquired, hfresh.teardowns]
      · simp [World.goto, hfresh.closed, Ctl.emptied]
  | @create result hctl =>
    have hopened : w.ctl.unopened = true := by rw [hctl]; rfl
    have hthreads := ((coordinated hr).preparing (Or.inr hctl)).1
    cases result with
    | error e => exact h.refused hopened hthreads (SharedState.fails_fail (by decide))
    | panic => exact h.refused hopened hthreads (SharedState.fails_fail (by decide))
    | program workers => exact h.acquire hopened workers
  | @spawn i result hctl =>
    have hfresh := hfresh (by rw [hctl]; rfl)
    cases result with
    | error e => exact (hfresh.fails (SharedState.fails_fail (by decide))).custody (Or.inl rfl)
    | ok thread =>
      refine Fresh.custody ⟨hfresh.closed, hfresh.teardowns, hfresh.attempts, hfresh.cleanup⟩ (Or.inl ?_)
      simp only [World.spawn, World.spawnFrom, World.goto]
      split_ifs <;> rfl
  | startWait hctl =>
    have hfresh := hfresh (by rw [hctl]; rfl)
    rcases w.startWait_spec _ with ⟨-, heq⟩ | ⟨-, heq⟩ | ⟨s, hs, heq⟩ | heq <;> rw [heq]
    · exact hfresh.goto.custody (Or.inl rfl)
    · exact hfresh.goto.custody (Or.inl rfl)
    · exact (hfresh.fails hs).custody (Or.inl rfl)
    · exact h
  | observe hctl =>
    have hfresh := hfresh (by rw [hctl]; rfl)
    rw [World.observe]
    split_ifs
    · exact hfresh.goto.custody (Or.inl rfl)
    · exact (hfresh.fails (SharedState.fails_fail (by decide))).custody (Or.inl rfl)
    · exact hfresh.goto.custody (Or.inl rfl)
  | observer hctl =>
    have hfresh := hfresh (by rw [hctl]; rfl)
    exact Fresh.custody ⟨hfresh.closed, hfresh.teardowns, hfresh.attempts, hfresh.cleanup⟩ (Or.inl rfl)
  | judge hctl =>
    have hfresh := hfresh (by rw [hctl]; rfl)
    rw [World.judge]
    rcases w.shared.judge_spec w.setup.serde w.cancelled _ w.next _ with hs | ⟨-, value, -, heq⟩
    · exact (hfresh.fails hs).custody (Or.inl rfl)
    · rw [heq]
      exact Fresh.custody ⟨hfresh.closed, hfresh.teardowns, hfresh.attempts, hfresh.cleanup⟩
        (Or.inl rfl)
  | outcomeCheck hctl =>
    have hfresh := hfresh (by rw [hctl]; rfl)
    rw [World.outcomeCheck]
    split_ifs
    · exact hfresh.callCleanup _
    · exact hfresh.goto.custody (Or.inl rfl)
    · exact hfresh.goto.custody (Or.inr (Or.inl rfl))
  | wait hctl =>
    have hfresh := hfresh (by rw [hctl]; rfl)
    rcases w.wait_spec _ _ _ with ⟨-, heq⟩ | ⟨-, heq⟩ | ⟨s, hs, heq⟩ | heq <;> rw [heq]
    · exact hfresh.goto.custody (Or.inl rfl)
    · exact hfresh.goto.custody (Or.inl rfl)
    · exact (hfresh.fails hs).custody (Or.inl rfl)
    · exact h
  | @arrival i requested _ hctl =>
    have hfresh := hfresh (by rw [hctl]; rfl)
    obtain ⟨-, a, ha, -⟩ := (licensed hr).target i requested (Or.inr hctl)
    obtain ⟨s, heq, hs⟩ := World.arrival_some requested ha
    have hpush : Fresh { w with shared := w.shared.pushEvent "arrival" w.next a } :=
      ⟨hfresh.closed, hfresh.teardowns, hfresh.attempts, hfresh.cleanup⟩
    have hc : (World.afterArrival i a.phase).working = true := by
      rw [World.afterArrival]
      split_ifs <;> rfl
    rw [heq]
    rcases hs with hs | hs | ⟨-, rfl⟩
    · exact (hfresh.fails hs).custody (Or.inl hc)
    · exact (hpush.fails hs).custody (Or.inl hc)
    · exact hpush.goto.custody (Or.inl hc)
  | join hctl hw =>
    have hfresh := hfresh (by rw [hctl]; rfl)
    rcases World.join_spec hw with ⟨rfl, -⟩ | ⟨t, c, -, -, hc, rfl⟩
    · exact hfresh.goto.custody (Or.inl rfl)
    · refine Fresh.custody ⟨hfresh.closed, hfresh.teardowns, hfresh.attempts, hfresh.cleanup⟩
        (Or.inl ?_)
      rcases hc with rfl | rfl <;> rfl
  | joinFailed hctl =>
    have hfresh := hfresh (by rw [hctl]; rfl)
    exact (hfresh.fails (SharedState.fails_fail (by decide))).custody (Or.inl rfl)
  | checkArrival hctl =>
    have hfresh := hfresh (by rw [hctl]; rfl)
    rw [World.checkArrival]
    split_ifs
    · exact Fresh.custody ⟨hfresh.closed, hfresh.teardowns, hfresh.attempts, hfresh.cleanup⟩
        (Or.inl rfl)
    · exact hfresh.goto.custody (Or.inl rfl)
  | complete hctl =>
    have hfresh := hfresh (by rw [hctl]; rfl)
    have hdone : Fresh { w with shared := { w.shared with
        report := { w.report with scheduleCompleted := true } } } :=
      ⟨hfresh.closed, hfresh.teardowns, hfresh.attempts, hfresh.cleanup⟩
    exact hdone.callCleanup _
  | clean hctl => exact h.clean hctl
  | drain hctl => exact h.drain hctl _
  | reap hctl => exact h.reap (coordinated hr) hctl
  | tear hctl => exact h.tear hctl _
  | record hctl => exact h.record hctl
  | advance hctl => exact h.advance hr hctl _ _
  | finish hctl =>
    rcases w.finish_spec with ⟨-, heq⟩ | ⟨-, s, hs, heq⟩ <;> rw [heq]
    · exact h
    · exact h.call hctl hs _
  | cleanup hctl => exact h.call hctl (Or.inl rfl) _
  | foreignCall => exact h
  | drop hctl => exact h.drop hctl
  | dropJoin hctl hw => exact h.dropJoin hctl hw
  | dropTeardown hctl => exact h.dropTeardown hctl _

theorem beside (hb : Beside w w') : Custody w' := by
  have hremaining := hb.remaining
  have hhandle : (∀ t ∈ w.threads, t.handle = false) → ∀ t ∈ w'.threads, t.handle = false := by
    intro hall t ht
    have hmem : t.handle ∈ w.threads.map Thread.handle := hb.handles ▸ List.mem_map_of_mem ht
    obtain ⟨u, hu, hh⟩ := List.mem_map.mp hmem
    rw [← hh, hall u hu]
  have hfresh : Fresh w → Fresh w' := fun hf =>
    ⟨hb.closed.trans hf.closed, hb.teardowns.trans hf.teardowns,
      hb.report.cleanupAttempts.trans hf.attempts, hb.report.cleanup.trans hf.cleanup⟩
  refine ⟨?_, ?_, ?_, ?_, ?_, ?_, ?_, ?_, ?_, ?_, ?_, ?_, ?_, ?_⟩
  · rw [hb.ctl, hb.acquired]
    exact fun hc => (h.unopened hc).imp_left hfresh
  · rw [hb.ctl]
    exact fun hc => hfresh (h.working hc)
  · rw [hb.ctl, hb.closed]
    exact h.closing
  · rw [hb.ctl, hb.report.cleanupAttempts, hb.report.scheduleCompleted]
    exact fun hc ho => h.ended hc (hb.report.completed ho ▸ ho)
  · rw [hb.ctl, hb.teardowns, hb.acquired, hb.closed]
    exact h.count
  · rw [hb.ctl, hb.acquired, hb.closed]
    exact h.held
  · rw [hb.ctl, hb.closed]
    exact fun hc => hhandle (h.joined hc)
  · rw [hb.ctl]
    intro i hi j t hj ht
    have hmap := congrArg (fun l => l[j]?) hb.handles
    simp only [List.getElem?_map, ht, Option.map_some] at hmap
    obtain ⟨u, hu, hh⟩ := Option.map_eq_some_iff.mp hmap.symm
    rw [← hh, h.dropping i hi j u hj hu]
  · rw [hb.ctl, hb.acquired, hb.teardowns]
    exact h.recording
  · rw [hb.closed, hb.acquired, hb.teardowns, hb.report.cleanup]
    exact h.settled
  · rw [hb.closed, hb.acquired, hb.report.cleanup]
    exact h.unacquired
  · rw [hb.closed, hb.report.cleanup]
    exact h.unsettled
  · rw [hb.report.cleanupAttempts, hb.report.cleanup]
    exact h.fresh
  · rw [hb.ctl, hb.closed, hb.report.cleanupAttempts, hb.report.cleanup, hremaining,
      hb.report.remainingActors]
    exact h.remaining

end Custody

theorem custody {w : World} (h : execution.Reachable w) : Custody w := by
  refine h.invariant (fun w ⟨_, _, _, _, hw⟩ => ?_) fun w a w' hr hs hw => ?_
  · subst hw
    refine ⟨fun _ => ⟨⟨rfl, rfl, rfl, rfl⟩, rfl⟩, nofun, nofun, ?_, rfl, nofun, ?_, nofun, nofun,
      nofun, nofun, fun _ => Or.inl rfl, fun _ => rfl, nofun⟩
    · rintro (hc | hc)
      · cases hc
      · exact absurd rfl hc
    · simp [World.new]
  · rcases World.step_move hw with hw | hw
    · exact hs.controlMove hr hw
    · exact hs.beside hw.beside

end MirrorRust
