import MirrorRust.Execution.Cooperation

/-! With a cooperative program nothing goes wrong: every step keeps the harmony of controller and
workers. -/
namespace MirrorRust

namespace Ctl

/-- Nothing more has to be known at this place. -/
def plain : Ctl → Bool
  | .entering | .creating | .startWait | .judging _ _ | .cleaning => false
  | _ => true

theorem unopened_of_plain {c : Ctl} (h : c.plain = true) : c.unopened = false := by
  cases c <;> first | rfl | cases h

end Ctl

namespace Harmony
variable {c : Cooperation} {calls : ℕ → ℕ} {w w' : World}

/-- At a plain place there is less to show. -/
theorem of_plain {w : World} (hplain : w.ctl.plain = true) (hsetup : w.setup = c.setup)
    (houtcome : w.report.outcome = .completed) (hcancelled : w.cancelled = false)
    (hcalm : w.ctl.calm = true)
    (hbuilt : w.acquired = true ∧
      w.shared.actors.map Actor.declaration = w.setup.adapter.actors)
    (hbytes : w.shared.evidenceBytes =
      rowBytes w.report.events + c.observedBytes w.report.observations.length)
    (hobservations : w.report.observations =
      (List.range (w.next + 1 - w.ctl.awaiting)).map fun k =>
        SharedState.observationRow c.setup.serde k (c.values k))
    (hsettled : w.closed = true → w.report.cleanup = .confirmed) (hseats : Seats calls w) :
    Harmony c calls w where
  setup := hsetup
  outcome := houtcome
  cancelled := hcancelled
  calm := hcalm
  built _ := hbuilt
  uncalled hctl := absurd ((Ctl.unopened_of_plain hplain).symm.trans hctl) Bool.noConfusion
  crew hctl := by
    rw [hctl] at hplain
    cases hplain
  cleaning hctl := by
    rw [hctl] at hplain
    cases hplain
  bytes := hbytes
  observations := hobservations
  judging caller result hctl := by
    rw [hctl] at hplain
    cases hplain
  settled := hsettled
  seats := hseats

/-- The controller goes on. -/
theorem goto (h : Harmony c calls w) {k ctl : Ctl} (hctl : w.ctl = k) (hplain : ctl.plain = true)
    (hcalm : ctl.calm = true) (hmoving : ctl.moving = k.moving)
    (hpending : ctl.pending / 2 = k.pending / 2) (hawaiting : ctl.awaiting = k.awaiting)
    (hunopened : k.unopened = false) : Harmony c calls (w.goto ctl) := by
  subst hctl
  refine of_plain hplain h.setup h.outcome h.cancelled hcalm (h.built hunopened) h.bytes ?_ h.settled
    (h.seats.goto hmoving hpending)
  show w.report.observations = (List.range (w.next + 1 - ctl.awaiting)).map _
  rw [hawaiting]
  exact h.observations

/-- A thread loses its handle. -/
theorem handles (h : Harmony c calls w) (f : Thread → Thread) (hf : ∀ t, (f t).pc = t.pc) (i : ℕ) :
    Harmony c calls (w.setThread i f) where
  setup := h.setup
  outcome := h.outcome
  cancelled := h.cancelled
  calm := h.calm
  built := h.built
  uncalled := h.uncalled
  crew hctl := by
    rw [World.setThread, List.length_modify]
    exact h.crew hctl
  cleaning := h.cleaning
  bytes := h.bytes
  observations := h.observations
  judging := h.judging
  settled := h.settled
  seats := by
    refine h.seats.keeps rfl rfl rfl rfl rfl fun j t ht => ?_
    rw [World.setThread, List.getElem?_modify] at ht
    by_cases hij : i = j
    · subst hij
      obtain ⟨u, hu, rfl⟩ := Option.map_eq_some_iff.mp ht
      exact ⟨u, hu, by simp [hf]⟩
    · exact ⟨t, by simpa [hij] using ht, rfl⟩

/-- The worker set of the program is the declared one. -/
theorem create (h : Harmony c calls w) {workers : List String} (hstaffs : c.staffs workers = true) :
    w.create (.program workers) = World.declare { w with acquired := true } := by
  simp only [Cooperation.staffs, Bool.and_eq_true, decide_eq_true_eq, List.all_eq_true,
    List.any_eq_true] at hstaffs
  obtain ⟨⟨hnodup, hdeclared⟩, hworkers⟩ := hstaffs
  have hdistinct := h.admitted.distinct
  rw [h.setup] at hdistinct
  have hperm : workers.Perm (c.setup.adapter.actors.map ActorDeclaration.actor) := by
    refine (List.perm_ext_iff_of_nodup hnodup hdistinct).mpr fun name => ?_
    rw [List.mem_map]
    refine ⟨fun hname => ?_, ?_⟩
    · obtain ⟨a, ha, hactor⟩ := hdeclared name hname
      exact ⟨a, ha, hactor⟩
    · rintro ⟨a, ha, rfl⟩
      simpa using hworkers a ha
  have hchecked : World.checkWorkers { w with acquired := true } workers =
      { w with acquired := true } := by
    simp only [World.checkWorkers, hnodup, if_true, hnodup.dedup, hperm.length_eq]
    refine if_neg ?_
    rw [not_or, h.setup]
    refine ⟨by simp, ?_⟩
    simpa using hworkers
  rw [World.create, World.acquire, hchecked]
  exact if_neg (not_not.mpr h.outcome)

/-! ### Moves of the controller -/

/-- The next thread is spawned, or the controller waits for all of them. -/
theorem spawnFrom (h : Harmony c calls w) {i : ℕ} (hctl : w.ctl = .spawning i) (k : ℕ)
    (hk : w.threads.length = k) (hle : k ≤ w.setup.adapter.actors.length) :
    Harmony c calls (w.spawnFrom k) := by
  have hunopened : w.ctl.unopened = false := by rw [hctl]; rfl
  rw [World.spawnFrom]
  split_ifs with hlt
  · exact h.goto hctl rfl rfl rfl rfl rfl rfl
  · have hlength : w.threads.length = w.shared.actors.length := by
      have hactors := congrArg List.length (h.built hunopened).2
      rw [List.length_map] at hactors
      omega
    refine ⟨h.setup, h.outcome, h.cancelled, rfl, fun _ => h.built hunopened,
      fun hc => (by cases hc), fun _ => hlength,
      fun hc => (by cases hc), h.bytes, ?_, fun _ _ hc => (by cases hc), h.settled,
      h.seats.goto (by rw [hctl]; rfl) (by rw [hctl]; rfl)⟩
    have hobservations := h.observations
    rw [hctl] at hobservations
    exact hobservations

theorem create_declared (h : Harmony c calls w) (hr : execution.Reachable w)
    (hctl : w.ctl = .creating) {workers : List String}
    (hstaffs : c.staffs workers = true) : Harmony c calls (w.create (.program workers)) := by
  have hnext : w.next = 0 := next_of_early hr (by rw [hctl]; rfl)
  have hthreads : w.threads = [] := ((coordinated hr).preparing (Or.inr hctl)).1
  have hobservations := h.observations
  rw [hctl] at hobservations
  rw [h.create hstaffs, World.declare]
  have hspawning : Harmony c calls ({ w with
      acquired := true
      shared := { w.shared with actors := w.setup.adapter.actors.map World.newActor }
      ctl := .spawning 0 } : World) := by
    refine ⟨h.setup, h.outcome, h.cancelled, rfl, fun _ => ⟨rfl, ?_⟩, fun hc => (by cases hc),
      fun hc => (by cases hc), fun hc => (by cases hc), h.bytes, hobservations, fun _ _ hc => (by cases hc), h.settled,
      ⟨fun i a ha => ?_, fun i a r hm => (by cases hm), fun i t result ht => ?_, fun i t ht => ?_⟩⟩
    · simp [World.newActor, Function.comp_def]
    · simp [World.reached, Ctl.moving, Ctl.pending, hnext, h.uncalled (by rw [hctl]; rfl)]
    · simp [hthreads] at ht
    · simp [hthreads] at ht
  exact hspawning.spawnFrom rfl 0 (by simp [hthreads]) (Nat.zero_le _)

theorem spawn (h : Harmony c calls w) (hr : execution.Reachable w) {i : ℕ}
    (hctl : w.ctl = .spawning i) (thread : ThreadId) : Harmony c calls (w.spawn i (.ok thread)) := by
  have hthreads : ∀ (j : ℕ) (t : Thread),
      (w.threads ++ [{ id := thread, pc := .starting, handle := true }])[j]? = some t →
        w.threads[j]? = some t ∨ t.pc = .starting := by
    intro j t ht
    rcases Nat.lt_or_ge j w.threads.length with hj | hj
    · exact Or.inl (by rwa [List.getElem?_append_left hj] at ht)
    · rw [List.getElem?_append_right hj] at ht
      obtain ⟨-, rfl⟩ := List.getElem?_eq_some_iff.mp ht
      exact Or.inr (by simp)
  obtain ⟨hlength, hlt⟩ := (coordinated hr).spawning i hctl
  have hactors : w.shared.actors.length = w.setup.adapter.actors.length := by
    rw [← (h.built (by rw [hctl]; rfl)).2, List.length_map]
  have hspawned : Harmony c calls { w with
      threads := w.threads ++ [{ id := thread, pc := .starting, handle := true }] } := by
    refine ⟨h.setup, h.outcome, h.cancelled, h.calm, h.built, h.uncalled, fun hc => ?_, h.cleaning,
      h.bytes,
      h.observations, h.judging, h.settled, ⟨h.seats.visited, h.seats.arrived,
        fun j t result ht hpc => ?_, fun j t ht => ?_⟩⟩
    · exact absurd (hctl.symm.trans hc) (by simp)
    · rcases hthreads j t ht with ht | hstart
      · exact h.seats.returned j t result ht hpc
      · rw [hstart] at hpc
        cases hpc
    · rcases hthreads j t ht with ht | hstart
      · exact h.seats.ended j t ht
      · simp [hstart]
  exact hspawned.spawnFrom hctl (i + 1) (by simp [hlength]) (hactors ▸ hlt)

/-- The execution enters the factory. -/
theorem enters (h : Harmony c calls w) : w.enter false = w.goto .creating := by
  have hadmission : w.admission false = .ok () := by
    rw [World.admission, if_neg (by simp), if_neg (by simp [h.cancelled]), h.setup]
    exact c.admitted
  rw [World.enter, hadmission]

theorem enter (h : Harmony c calls w) (hctl : w.ctl = .entering) :
    Harmony c calls (w.enter false) := by
  have hobservations := h.observations
  rw [hctl] at hobservations
  rw [h.enters]
  exact ⟨h.setup, h.outcome, h.cancelled, rfl, fun hc => (by cases hc),
    fun _ => h.uncalled (by rw [hctl]; rfl), fun hc => (by cases hc), fun hc => (by cases hc), h.bytes,
    hobservations, fun _ _ hc => (by cases hc), h.settled,
    h.seats.goto (by rw [hctl]; rfl) (by rw [hctl]; rfl)⟩

theorem observer (h : Harmony c calls w) {caller : Caller} (hctl : w.ctl = .callback caller) :
    Harmony c calls (w.observer caller (.ok (c.values w.next))) := by
  have hobservations := h.observations
  rw [hctl] at hobservations
  refine ⟨h.setup, h.outcome, h.cancelled, rfl, fun _ => h.built (by rw [hctl]; rfl),
    fun hc => (by cases hc), fun hc => (by cases hc), fun hc => (by cases hc), h.bytes, hobservations,
    fun caller' result hc => ?_, h.settled, ?_⟩
  · cases hc
    rfl
  · exact h.seats.keeps rfl rfl rfl (by rw [hctl]; rfl) (by rw [hctl]; rfl) fun _ t ht => ⟨t, ht, rfl⟩

theorem judged (h : Harmony c calls w) (hr : execution.Reachable w) {caller : Caller}
    {result : CallResult Json} (hctl : w.ctl = .judging caller result) :
    Harmony c calls (w.judge caller result false) := by
  have hobservations := h.observations
  rw [hctl] at hobservations
  have hlength : w.report.observations.length = w.next := by
    rw [hobservations, List.length_map, List.length_range]
    rfl
  have hbytes : w.shared.evidenceBytes + (c.values w.next).bytes = rowBytes w.report.events +
      c.observedBytes (w.report.observations ++
        [SharedState.observationRow w.setup.serde w.next (c.values w.next)]).length := by
    rw [List.length_append, List.length_singleton, c.observedBytes_succ, h.bytes, hlength,
      Nat.add_assoc]
  rw [h.judge hr hctl]
  refine of_plain rfl h.setup h.outcome h.cancelled rfl (h.built (by rw [hctl]; rfl)) hbytes ?_
    h.settled (h.seats.keeps rfl rfl rfl (by rw [hctl]; rfl) (by rw [hctl]; rfl) fun _ t ht =>
      ⟨t, ht, rfl⟩)
  show w.report.observations ++ [SharedState.observationRow w.setup.serde w.next (c.values w.next)] =
    (List.range (w.next + 1 - 0)).map _
  rw [hobservations, Nat.sub_zero, List.range_succ, List.map_append, h.setup]
  rfl

theorem checked (h : Harmony c calls w) {caller : Caller} (hctl : w.ctl = .outcomeCheck caller) :
    Harmony c calls (w.outcomeCheck caller) := by
  have hunopened : w.ctl.unopened = false := by rw [hctl]; rfl
  rw [h.outcomeCheck]
  split_ifs
  · exact h.goto hctl rfl rfl rfl rfl rfl rfl
  · exact h.goto hctl rfl rfl rfl rfl rfl rfl

/-- What an actor in a list that has been changed at one place was before. -/
theorem getElem?_modifyActor {s : SharedState} {i j : ℕ} {f : Actor → Actor} {b : Actor}
    (hb : (s.modifyActor i f).actors[j]? = some b) :
    (j = i ∧ ∃ a, s.actors[i]? = some a ∧ b = f a) ∨ (j ≠ i ∧ s.actors[j]? = some b) := by
  simp only [SharedState.modifyActor, List.getElem?_modify] at hb
  by_cases hij : i = j
  · subst hij
    obtain ⟨a, ha, rfl⟩ := Option.map_eq_some_iff.mp hb
    exact Or.inl ⟨rfl, a, ha, by simp⟩
  · exact Or.inr ⟨Ne.symm hij, by simpa [hij] using hb⟩

/-- The actor of the interval leaves its place. -/
theorem advanced (h : Harmony c calls w) (hr : execution.Reachable w) (hctl : w.ctl = .idle)
    (hclosed : w.closed = false) {r : Step} (hstep : w.steps[w.next]? = some r) :
    Harmony c calls (w.advance r false) := by
  obtain ⟨i, a, ha, hname, hphase, heq⟩ := h.advance hr hctl hclosed hstep
  have hlive := h.live hr ((completion hr).open_incomplete hctl hclosed)
  have hobservations := h.observations
  have hdeclared := (h.built (by rw [hctl]; rfl)).2
  rw [hctl] at hobservations
  rw [heq]
  refine of_plain rfl h.setup h.outcome h.cancelled rfl ⟨(h.built (by rw [hctl]; rfl)).1, ?_⟩
    (h.pushed "permit" a) hobservations (fun hc => absurd (hclosed.symm.trans hc) Bool.noConfusion)
    ⟨fun j b hb => ?_, fun j b s hm hb hnot hs => ?_, h.seats.returned, h.seats.ended⟩
  · exact ((w.shared.pushEvent "permit" w.next a).declarations_modifyActor i
      (f := fun a => { a with phase := .running }) fun _ => rfl).trans hdeclared
  · have hbefore : ∀ b, w.reached j b = w.next := fun b => by rw [World.reached, hctl]; rfl
    rcases getElem?_modifyActor hb with ⟨rfl, u, hu, rfl⟩ | ⟨hne, hu⟩
    · have hvisited := h.seats.visited j u hu
      rw [hbefore] at hvisited
      show calls j = visits w.steps (World.reached _ j _) u.declaration.actor
      simpa [World.reached, World.goto, Ctl.moving] using hvisited
    · have hvisited := h.seats.visited j b hu
      rw [hbefore] at hvisited
      show calls j = visits w.steps (World.reached _ j _) b.declaration.actor
      simpa [World.reached, World.goto, Ctl.moving, Ctl.pending, hne.symm] using hvisited
  · obtain rfl : i = j := Option.some.inj hm
    rcases getElem?_modifyActor hb with ⟨-, b, -, rfl⟩ | ⟨hne, -⟩
    · exact absurd rfl hnot
    · exact absurd rfl hne

/-- The actor of the interval has arrived, and its interval counts from now on for all. -/
theorem arrived (h : Harmony c calls w) (hr : execution.Reachable w) {i : ℕ} {r : Step}
    (hctl : w.ctl = .arrived i r) : Harmony c calls (w.arrival i r) := by
  obtain ⟨a, ha, hname, hstep, hphase, heq⟩ := h.arrival hr hctl
  have hunopened : w.ctl.unopened = false := by rw [hctl]; rfl
  have hobservations := h.observations
  rw [hctl] at hobservations
  have hafter : ∀ phase, (World.afterArrival i phase).plain = true ∧
      (World.afterArrival i phase).calm = true ∧ (World.afterArrival i phase).moving = none ∧
      (World.afterArrival i phase).pending = 2 ∧ (World.afterArrival i phase).awaiting = 0 := by
    intro phase
    rw [World.afterArrival]
    split_ifs <;> exact ⟨rfl, rfl, rfl, rfl, rfl⟩
  obtain ⟨hplain, hcalm, hmoving, hpending, hawaiting⟩ := hafter a.phase
  rw [heq]
  refine of_plain hplain h.setup h.outcome h.cancelled hcalm (h.built hunopened)
    (h.pushed "arrival" a) ?_ h.settled
    ⟨fun j b hb => ?_, fun j b s hm => ?_, h.seats.returned, h.seats.ended⟩
  · show w.report.observations = (List.range (w.next + 1 - (World.afterArrival i a.phase).awaiting)).map _
    rw [hawaiting]
    exact hobservations
  · have hvisited := h.seats.visited j b hb
    have hreached : World.reached ({ w with
        shared := w.shared.pushEvent "arrival" w.next a }.goto (World.afterArrival i a.phase)) j b =
        w.next + 1 := by
      rw [World.reached]
      simp only [World.goto, hmoving, hpending]
      simp
    rw [hreached, hvisited]
    show visits w.steps (w.reached j b) _ = visits w.steps (w.next + 1) _
    by_cases hij : i = j
    · obtain rfl : a = b := Option.some.inj (ha.symm.trans (hij ▸ hb))
      rw [World.reached, hctl, if_pos (by rw [Ctl.moving, hij]), if_neg hphase]
    · -- the interval is not one of this actor
      have hne : b.declaration.actor ≠ r.actor := fun heq =>
        hij ((coordinated hr).name_inj h.admitted ha hb (hname.trans heq.symm))
      have hskip : r.visit b.declaration.actor = false := by simp [Step.visit, hne.symm]
      rw [World.reached, hctl, if_neg (by simpa [Ctl.moving] using hij), visits_skip hstep hskip]
      simp [Ctl.pending]
  · have hnone : (World.afterArrival i a.phase).moving = some j := hm
    rw [hmoving] at hnone
    cases hnone

theorem joined (h : Harmony c calls w) {i : ℕ} (hctl : w.ctl = .joining i)
    (hw : w.join i = some w') : Harmony c calls w' := by
  have hgoto : ∀ u : World, Harmony c calls u → u.ctl = .joining i →
      Harmony c calls (u.goto .checkArrival) := fun u hu hctl =>
    hu.goto hctl rfl rfl rfl rfl rfl rfl
  unfold World.join at hw
  split at hw
  case h_1 =>
    cases hw
    exact hgoto w h hctl
  case h_2 t ht =>
    split_ifs at hw with hhandle
    · cases hw
      exact hgoto w h hctl
    · split at hw
      case h_1 panicked hpc =>
        cases hw
        cases panicked with
        | true => exact absurd hpc (h.seats.ended i t ht)
        | false => exact hgoto _ (h.handles (fun t => { t with handle := false }) (fun _ => rfl) i) hctl
      case h_2 => cases hw

/-- A worker that has returned is the one the controller waits for. -/
theorem waiting_of_returned (hr : execution.Reachable w) (hlive : w.shared.stopping = false) {i : ℕ}
    {t : Thread} (ht : w.threads[i]? = some t) {result : CallResult Unit}
    (hpc : t.pc = .returned result) : ∃ r, w.ctl = .waiting i r := by
  have hc := coordinated hr
  have hlt : i < w.shared.actors.length := (List.getElem?_eq_some_iff.mp ht).1.trans_le hc.spawned
  have hseat := (hc.live hlive).seat i _ t (List.getElem?_eq_getElem hlt) ht
  exact hseat.running (hseat.entered (Or.inr ⟨result, hpc⟩))

theorem ended (h : Harmony c calls w) (hr : execution.Reachable w) (hctl : w.ctl = .checkArrival) :
    Harmony c calls w.checkArrival := by
  have hlive := h.open_live hr (by rw [hctl]; rfl) (by simp [hctl])
  have hobservations := h.observations
  rw [hctl] at hobservations
  rw [World.checkArrival, if_pos h.outcome]
  refine of_plain rfl h.setup h.outcome h.cancelled rfl (h.built (by rw [hctl]; rfl)) h.bytes
    hobservations h.settled ⟨fun i a ha => ?_, fun i a r hm => (by cases hm),
      fun i t result ht hpc => ?_, h.seats.ended⟩
  · have hvisited := h.seats.visited i a ha
    rw [World.reached, hctl] at hvisited
    show calls i = visits w.steps (World.reached _ i a) a.declaration.actor
    simpa [World.reached, World.goto, Ctl.moving, Ctl.pending] using hvisited
  · obtain ⟨r, hwaiting⟩ := waiting_of_returned hr hlive ht hpc
    simp [hctl] at hwaiting

theorem completed (h : Harmony c calls w) (hr : execution.Reachable w) (hctl : w.ctl = .completing) :
    Harmony c calls w.complete := by
  have hclosed : w.closed = false := ((custody hr).working (by rw [hctl]; rfl)).closed
  have hobservations := h.observations
  have hunopened : w.ctl.unopened = false := by rw [hctl]; rfl
  rw [hctl] at hobservations
  rw [World.complete, World.callCleanup,
    if_neg (by simp [h.admitted.cleanupBudget, hclosed])]
  exact ⟨h.setup, h.outcome, h.cancelled, rfl, fun _ => h.built hunopened, fun hc => (by cases hc),
    fun hc => (by cases hc), fun _ => rfl, h.bytes, hobservations, fun _ _ hc => (by cases hc),
    h.settled, h.seats.keeps rfl rfl rfl (by rw [hctl]; rfl) (by rw [hctl]; rfl) fun _ t ht =>
      ⟨t, ht, rfl⟩⟩

theorem cleaned (h : Harmony c calls w) (hctl : w.ctl = .cleaning) : Harmony c calls w.clean := by
  have hobservations := h.observations
  rw [hctl] at hobservations
  rcases w.shared.beginCleanup_spec with ⟨hn, -⟩ | ⟨-, heq⟩
  · exact absurd (hn.symm.trans (h.cleaning hctl)) Bool.noConfusion
  · rw [World.clean, heq]
    exact of_plain rfl h.setup h.outcome h.cancelled rfl (h.built (by rw [hctl]; rfl)) h.bytes
      hobservations h.settled (h.seats.keeps rfl rfl rfl (by rw [hctl]; rfl) (by rw [hctl]; rfl)
        fun _ t ht => ⟨t, ht, rfl⟩)

theorem drained (h : Harmony c calls w) (hctl : w.ctl = .draining) :
    Harmony c calls (w.drain false) := by
  rw [World.drain]
  split_ifs
  · exact h
  · exact h.goto hctl rfl rfl rfl rfl rfl rfl

theorem reaped (h : Harmony c calls w) (hr : execution.Reachable w) {i : ℕ}
    (hctl : w.ctl = .reaping i) : Harmony c calls (w.reap i) := by
  have hunopened : w.ctl.unopened = false := by rw [hctl]; rfl
  have hcompleted := (custody hr).ended (Or.inl (by rw [hctl]; rfl)) h.outcome
  have hnext := ((completion hr).completed hcompleted).2.1
  have hremaining := World.remaining_eq_nil (joined_of_last hr h.admitted hnext)
  rw [World.reap]
  split_ifs with hmore hleft hacquired
  · exact (h.handles _ (fun t => by split_ifs <;> rfl) i).goto hctl rfl rfl rfl rfl rfl rfl
  · exact absurd hremaining hleft
  · exact h.goto hctl rfl rfl rfl rfl rfl rfl
  · exact absurd (h.built hunopened).1 hacquired

theorem torn (h : Harmony c calls w) (hctl : w.ctl = .tearing) :
    Harmony c calls (w.teardown (.ok ()) (.recording none)) := by
  have hobservations := h.observations
  rw [hctl] at hobservations
  exact of_plain rfl h.setup h.outcome h.cancelled rfl (h.built (by rw [hctl]; rfl)) h.bytes
    hobservations h.settled (h.seats.keeps rfl rfl rfl (by rw [hctl]; rfl) (by rw [hctl]; rfl)
      fun _ t ht => ⟨t, ht, rfl⟩)

theorem recorded (h : Harmony c calls w) (hctl : w.ctl = .recording none) :
    Harmony c calls (w.record none) := by
  have hunopened : w.ctl.unopened = false := by rw [hctl]; rfl
  have hobservations := h.observations
  rw [hctl] at hobservations
  refine of_plain rfl h.setup h.outcome h.cancelled rfl (h.built hunopened) h.bytes hobservations
    (fun _ => ?_) (h.seats.keeps rfl rfl rfl (by rw [hctl]; rfl) (by rw [hctl]; rfl) fun _ t ht =>
      ⟨t, ht, rfl⟩)
  simp [World.record, World.goto, World.report, SharedState.recordCleanup, (h.built hunopened).1]

/-! ### Moves of the workers -/

/-- A worker moves, and nothing is recorded. -/
theorem worker (h : Harmony c calls w) (hr : execution.Reachable w) (calls' : ℕ → ℕ) {i : ℕ}
    {t : Thread} (f : Thread → Thread) (g : Actor → Actor) (ht : w.threads[i]? = some t)
    (hdeclaration : ∀ a, (g a).declaration = a.declaration) (hcalls : ∀ j ≠ i, calls' j = calls j)
    (hvisited : ∀ a, w.shared.actors[i]? = some a →
      calls' i = visits w.steps (w.reached i (g a)) a.declaration.actor)
    (harrived : ∀ a r, w.ctl.moving = some i → w.shared.actors[i]? = some a →
      (g a).phase ≠ .running → w.steps[w.next]? = some r → (g a).checkpoint = r.checkpoint)
    (hreturned : ∀ result, (f t).pc = .returned result → result = .ok () ∧
      ∃ r, w.steps[w.next]? = some r ∧ r.checkpoint = COMPLETION)
    (hended : (f t).pc ≠ .terminated true) :
    Harmony c calls' { w with
      shared := w.shared.modifyActor i g
      threads := w.threads.modify i f } where
  setup := h.setup
  outcome := h.outcome
  cancelled := h.cancelled
  calm := h.calm
  built hctl := by
    refine ⟨(h.built hctl).1, ?_⟩
    rw [w.shared.declarations_modifyActor i hdeclaration]
    exact (h.built hctl).2
  uncalled hctl := by
    -- there are no threads before the program has been acquired
    have hthreads : w.threads = [] := by
      have hpreparing : w.ctl = .entering ∨ w.ctl = .creating := by
        cases hc : w.ctl <;> simp_all [Ctl.unopened]
      exact ((coordinated hr).preparing hpreparing).1
    simp [hthreads] at ht
  crew hctl := by
    simp only [List.length_modify, SharedState.modifyActor]
    exact h.crew hctl
  cleaning := h.cleaning
  bytes := h.bytes
  observations := h.observations
  judging := h.judging
  settled := h.settled
  seats := h.seats.update ht rfl hdeclaration hcalls hvisited harrived hreturned hended

/-- Only the thread of the worker moves. -/
theorem setPc (h : Harmony c calls w) (hr : execution.Reachable w) {i : ℕ} {t : Thread}
    (ht : w.threads[i]? = some t) (pc : Pc)
    (hreturned : ∀ result, pc = .returned result → result = .ok () ∧
      ∃ r, w.steps[w.next]? = some r ∧ r.checkpoint = COMPLETION)
    (hended : pc ≠ .terminated true) : Harmony c calls (w.setPc i pc) := by
  have hmoved := h.worker hr calls (fun t => { t with pc := pc }) id ht (fun _ => rfl)
    (fun _ _ => rfl) (fun a ha => h.seats.visited i a ha)
    (fun a r hm ha hphase hstep => h.seats.arrived i a r hm ha hphase hstep) hreturned hended
  have hshared : w.shared.modifyActor i id = w.shared := by
    rw [SharedState.modifyActor, List.modify_id]
  rw [hshared] at hmoved
  exact hmoved

theorem started (h : Harmony c calls w) (hr : execution.Reachable w) {i : ℕ} {t : Thread}
    (ht : w.threads[i]? = some t) (hpc : t.pc = .starting) : Harmony c calls (w.startWorker i t) := by
  have hlive := h.thread_live hr (List.mem_of_getElem? ht) (by simp [Thread.isFinished, hpc])
  have hc := coordinated hr
  have hmoving : ∀ a, w.shared.actors[i]? = some a → w.ctl.moving ≠ some i := by
    intro a ha hm
    have hstarting := (hc.table i a t ha ht).starting.mpr hpc
    have hlaunching := ((hc.live hlive).seat i a t ha ht).starting hstarting
    cases hctl : w.ctl <;> simp_all [Ctl.launching, Ctl.moving]
  rw [World.startWorker, hlive]
  refine h.worker hr calls _ _ ht (fun _ => rfl) (fun _ _ => rfl) (fun a ha => ?_) (fun a r hm ha => ?_)
    (fun result hret => (by cases hret)) (by simp)
  · have hvisited := h.seats.visited i a ha
    rw [World.reached, if_neg (hmoving a ha)] at hvisited ⊢
    exact hvisited
  · exact absurd hm (hmoving a ha)

theorem woken (h : Harmony c calls w) (hr : execution.Reachable w) {i : ℕ} {t : Thread}
    (ht : w.threads[i]? = some t) (hw : w.wake i t = some w') : Harmony c calls w' := by
  have hmoved : Harmony c calls (w.setPc i .running) :=
    h.setPc hr ht .running (fun _ hc => (by cases hc)) (by simp)
  have hlive : t.isFinished = false → w.shared.stopping ≠ true := fun hend hstop =>
    Bool.false_ne_true ((h.thread_live hr (List.mem_of_getElem? ht) hend).symm.trans hstop)
  unfold World.wake at hw
  split_ifs at hw with h1 h2 h3 h4 h5 <;> cases hw
  · exact absurd h2 (hlive (by simp [Thread.isFinished, h1]))
  · exact ⟨hmoved.setup, hmoved.outcome, hmoved.cancelled, hmoved.calm, hmoved.built,
      hmoved.uncalled, hmoved.crew, hmoved.cleaning, hmoved.bytes, hmoved.observations,
      hmoved.judging, hmoved.settled, ⟨hmoved.seats.visited, hmoved.seats.arrived,
        hmoved.seats.returned, hmoved.seats.ended⟩⟩
  · exact h
  · exact hmoved
  · exact h

/-- The interval in which a worker runs. -/
theorem running (h : Harmony c calls w) (hr : execution.Reachable w) {i : ℕ} {t : Thread}
    (ht : w.threads[i]? = some t) (hpc : t.pc = .running ∨ ∃ result, t.pc = .returned result) :
    w.shared.stopping = false ∧ ∃ a r, w.shared.actors[i]? = some a ∧ a.phase = .running ∧
      w.ctl = .waiting i r ∧ w.steps[w.next]? = some r ∧ a.declaration.actor = r.actor ∧
      a.thread = some t.id ∧ c.script i = MirrorRust.script w.steps r.actor ∧
      calls i = visits w.steps w.next r.actor := by
  have hend : t.isFinished = false := by
    rcases hpc with hpc | ⟨result, hpc⟩ <;> simp [Thread.isFinished, hpc]
  have hlive := h.thread_live hr (List.mem_of_getElem? ht) hend
  have hc := coordinated hr
  have hlt : i < w.shared.actors.length := (List.getElem?_eq_some_iff.mp ht).1.trans_le hc.spawned
  have ha := List.getElem?_eq_getElem hlt
  have hseat := (hc.live hlive).seat i _ t ha ht
  have hphase := hseat.entered hpc
  obtain ⟨r, hctl⟩ := hseat.running hphase
  obtain ⟨hstep, a, ha', hname⟩ := (licensed hr).target i r (Or.inl hctl)
  obtain rfl := Option.some.inj (ha.symm.trans ha')
  have hthread := (hc.table i _ t ha ht).thread (by
    rcases hpc with hpc | ⟨result, hpc⟩ <;> simp [hpc])
  refine ⟨hlive, _, r, ha, hphase, hctl, hstep, hname, hthread, ?_, ?_⟩
  · have hdeclaration := hc.declaration ha
    rw [h.setup] at hdeclaration
    rw [Cooperation.script, hdeclaration, h.steps, ← hname]
  · have hvisited := h.seats.visited i _ ha
    rw [World.reached, hctl, if_pos (show (Ctl.waiting i r).moving = some i from rfl), if_pos hphase,
      hname] at hvisited
    exact hvisited

theorem running_of_arrive {i : ℕ} {t : Thread} {checkpoint : String}
    (hw : w.arrive t.id i t checkpoint = some w') : t.pc = .running := by
  unfold World.arrive at hw
  split_ifs at hw with hcaller
  by_contra hpc
  exact hcaller (Or.inl ⟨rfl, hpc⟩)

/-- The checkpoint that a worker calls is the one of its interval. It owns it, and it is declared, so
that the actor parks there. -/
theorem parks (h : Harmony c calls w) (hr : execution.Reachable w) {i : ℕ} {t : Thread}
    (ht : w.threads[i]? = some t) (hpc : t.pc = .running) {checkpoint : String}
    (hscript : (c.script i)[calls i]? = some checkpoint) :
    w.arrive t.id i t checkpoint = some ({ w with
        shared := w.shared.modifyActor i fun a => { a with checkpoint := checkpoint, phase := .parked }
      }.setPc i .arriving) ∧
    ∃ a r, w.shared.actors[i]? = some a ∧ a.declaration.actor = r.actor ∧ w.ctl = .waiting i r ∧
      w.steps[w.next]? = some r ∧ checkpoint = r.checkpoint ∧ r.visit r.actor = true ∧
      calls i = visits w.steps w.next r.actor := by
  obtain ⟨hlive, a, r, ha, hphase, hctl, hstep, hname, hthread, hchain, hcalls⟩ :=
    h.running hr ht (Or.inl hpc)
  rw [hchain, hcalls] at hscript
  have hend : r.checkpoint ≠ COMPLETION := fun hend => by
    have hended : visits w.steps w.next r.actor = (MirrorRust.script w.steps r.actor).length :=
      script_ended h.admitted.ended hstep hend
    exact (List.getElem?_eq_some_iff.mp hscript).1.ne hended
  have hvisit : r.visit r.actor = true := by simp [Step.visit, hend]
  obtain rfl : checkpoint = r.checkpoint :=
    Option.some.inj (hscript.symm.trans (script_visits hstep hvisit))
  have hdeclared := (h.admitted.reachable r (List.mem_of_getElem? hstep)).resolve_left hend
  have hidentifier : identifier r.checkpoint = true := by
    rw [h.setup] at hdeclared
    exact (admitSchedule_iff.mp c.admitted).sound.reachable _ hdeclared
  refine ⟨?_, a, r, ha, hname, hctl, hstep, rfl, hvisit, hcalls⟩
  rw [World.arrive, if_neg (by simp [Thread.isActive, Pc.active, hpc]), SharedState.arrive, ha]
  simp [hthread, hphase, hlive, hidentifier, hdeclared]

/-- A worker calls its next checkpoint. -/
theorem called (h : Harmony c calls w) (hr : execution.Reachable w) {i : ℕ} {t : Thread}
    (ht : w.threads[i]? = some t) {checkpoint : String}
    (hscript : (c.script i)[calls i]? = some checkpoint)
    (hw : w.arrive t.id i t checkpoint = some w') :
    Harmony c (Function.update calls i (calls i + 1)) w' := by
  obtain ⟨heq, a, r, ha, hname, hctl, hstep, rfl, hvisit, hcalls⟩ :=
    h.parks hr ht (running_of_arrive hw) hscript
  obtain rfl := Option.some.inj (heq.symm.trans hw)
  have hmoving : w.ctl.moving = some i := by rw [hctl]; rfl
  refine h.worker hr _ (fun t => { t with pc := .arriving })
    (fun a => { a with checkpoint := r.checkpoint, phase := .parked }) ht (fun _ => rfl)
    (fun j hj => Function.update_of_ne hj _ _) (fun b hb => ?_) (fun b s hm hb hnot hs => ?_)
    (fun result hret => (by cases hret)) (by simp)
  · obtain rfl : a = b := Option.some.inj (ha.symm.trans hb)
    rw [Function.update_self, World.reached, if_pos hmoving, if_neg (by simp), hname,
      visits_succ hstep hvisit, hcalls]
  · exact congrArg Step.checkpoint (Option.some.inj (hstep.symm.trans hs))

/-- A worker that has called all its checkpoints returns in its last interval. -/
theorem leaves (h : Harmony c calls w) (hr : execution.Reachable w) {i : ℕ} {t : Thread}
    (ht : w.threads[i]? = some t) (hpc : t.pc = .running)
    (hscript : calls i = (c.script i).length) :
    Harmony c calls (w.setPc i (.returned (.ok ()))) := by
  obtain ⟨-, a, r, -, -, -, hstep, -, -, hchain, hcalls⟩ := h.running hr ht (Or.inl hpc)
  refine h.setPc hr ht _ (fun result hret => ?_) (by simp)
  cases hret
  refine ⟨rfl, r, hstep, ?_⟩
  by_contra hend
  have hnext := script_visits hstep (show r.visit r.actor = true by simp [Step.visit, hend])
  have hlt := (List.getElem?_eq_some_iff.mp hnext).1
  rw [← hchain, ← hcalls, hscript] at hlt
  exact lt_irrefl _ hlt

theorem settles (h : Harmony c calls w) (hr : execution.Reachable w) {i : ℕ} {t : Thread}
    (ht : w.threads[i]? = some t) (hw : w.settle i t = some w') : Harmony c calls w' := by
  unfold World.settle at hw
  split at hw
  case h_2 => cases hw
  case h_1 result hpc =>
    obtain ⟨rfl, s, hs, hend⟩ := h.seats.returned i t result ht hpc
    obtain ⟨hlive, a, r, ha, hphase, hctl, hstep, hname, -, -, hcalls⟩ :=
      h.running hr ht (Or.inr ⟨_, hpc⟩)
    obtain rfl : s = r := Option.some.inj (hs.symm.trans hstep)
    have hsettle : w.shared.settle i (.ok ()) =
        w.shared.modifyActor i fun a => { a with phase := .finished, checkpoint := COMPLETION } := by
      rw [SharedState.settle, if_neg (by simp [hlive])]
    rw [hsettle] at hw
    cases hw
    have hmoving : w.ctl.moving = some i := by rw [hctl]; rfl
    have hskip : s.visit s.actor = false := by simp [Step.visit, hend]
    refine h.worker hr calls (fun t => { t with pc := .exiting })
      (fun a => { a with phase := .finished, checkpoint := COMPLETION }) ht (fun _ => rfl)
      (fun _ _ => rfl) (fun b hb => ?_) (fun b u hm hb hnot hu => ?_)
      (fun result hret => (by cases hret)) (by simp)
    · obtain rfl : a = b := Option.some.inj (ha.symm.trans hb)
      rw [World.reached, if_pos hmoving, if_neg (by simp), hname, visits_skip hstep hskip, hcalls]
    · exact hend.symm.trans (congrArg Step.checkpoint (Option.some.inj (hstep.symm.trans hu)))

/-! ### Steps -/

theorem controlMove (h : Harmony c calls w) (hr : execution.Reachable w) {action : Action}
    (hallows : c.allows w calls action = true) (hw : ControlMove w action w') :
    Harmony c (Cooperation.count calls action) w' := by
  cases hw with
  | @enter inCallback hctl =>
    obtain rfl : inCallback = false := by simpa [Cooperation.allows] using hallows
    exact h.enter hctl
  | @create result hctl =>
    cases result with
    | program workers => exact h.create_declared hr hctl hallows
    | error e => cases hallows
    | panic => cases hallows
  | @spawn i result hctl =>
    cases result with
    | ok thread => exact h.spawn hr hctl thread
    | error e => cases hallows
  | @startWait expired hctl =>
    obtain rfl : expired = false := by simpa [Cooperation.allows] using hallows
    rw [h.startWait hr hctl]
    split_ifs
    · exact h.goto hctl rfl rfl rfl rfl rfl rfl
    · exact h
  | observe hctl =>
    rw [h.observe hr hctl]
    exact h.goto hctl rfl rfl rfl rfl rfl rfl
  | @observer caller result hctl =>
    cases result with
    | ok value =>
      obtain rfl : value = c.values w.next := by simpa [Cooperation.allows] using hallows
      exact h.observer hctl
    | error e => cases hallows
    | panic => cases hallows
  | @judge caller result expired hctl =>
    obtain rfl : expired = false := by simpa [Cooperation.allows] using hallows
    exact h.judged hr hctl
  | outcomeCheck hctl => exact h.checked hctl
  | @wait i requested expired hctl =>
    obtain rfl : expired = false := by simpa [Cooperation.allows] using hallows
    rw [h.wait hr hctl]
    split_ifs
    · exact h
    · exact h.goto hctl rfl rfl rfl rfl rfl rfl
  | arrival hctl => exact h.arrived hr hctl
  | join hctl hw => exact h.joined hctl hw
  | joinFailed hctl | dropJoin hctl =>
    have hcalm := h.calm
    rw [hctl] at hcalm
    cases hcalm
  | checkArrival hctl => exact h.ended hr hctl
  | complete hctl => exact h.completed hr hctl
  | clean hctl => exact h.cleaned hctl
  | @drain expired hctl =>
    obtain rfl : expired = false := by simpa [Cooperation.allows] using hallows
    exact h.drained hctl
  | reap hctl => exact h.reaped hr hctl
  | @tear result hctl =>
    cases result with
    | ok u => exact h.torn hctl
    | error e => cases hallows
    | panic => cases hallows
  | @record e _ hctl =>
    cases e with
    | none => exact h.recorded hctl
    | some e =>
      have hcalm := h.calm
      rw [hctl] at hcalm
      cases hcalm
  | dropTeardown hctl =>
    have hcalm := h.calm
    rw [hctl] at hcalm
    cases hcalm
  | advance | finish | cleanup | foreignCall | drop => cases hallows

theorem workerMove (h : Harmony c calls w) (hr : execution.Reachable w) {action : Action}
    (hallows : c.allows w calls action = true) (hw : WorkerMove w action w') :
    Harmony c (Cooperation.count calls action) w' := by
  cases hw with
  | cancel => cases hallows
  | startWorker ht hpc => exact h.started hr ht hpc
  | wake ht _ hw => exact h.woken hr ht hw
  | @arrive thread i checkpoint t _ ht _ hw =>
    simp only [Cooperation.allows, ht, Option.map_some, Option.some.injEq,
      decide_eq_true_eq] at hallows
    obtain ⟨rfl, hscript⟩ := hallows
    exact h.called hr ht hscript hw
  | @returns i result t ht hpc =>
    cases result with
    | ok u => exact h.leaves hr ht hpc (by simpa [Cooperation.allows] using hallows)
    | error e => cases hallows
    | panic => cases hallows
  | settle ht _ hw => exact h.settles hr ht hw
  | @terminate i panicked t ht hpc =>
    obtain rfl : panicked = false := by simpa [Cooperation.allows] using hallows
    exact h.setPc hr ht _ (fun _ hret => (by cases hret)) (by simp)

theorem step (h : Harmony c calls w) (hr : execution.Reachable w) {action : Action}
    (hallows : c.allows w calls action = true) (hw : w.step action = some w') :
    Harmony c (Cooperation.count calls action) w' :=
  (World.step_move hw).elim (h.controlMove hr hallows) (h.workerMove hr hallows)

end Harmony

/-! ### Runs -/

/-- A run of `run_schedule` in harmony: it is not disturbed, and each call requests the interval
that is next. -/
structure Concert (c : Cooperation) (p : Play) : Prop where
  steady : undisturbed.Reachable p.drive
  harmony : Harmony c p.calls p.drive.world
  requested : ∀ r, p.drive.loop = .advancing r →
    p.drive.world.steps[p.drive.world.next]? = some r

namespace Concert
variable {c : Cooperation} {p p' : Play} (h : Concert c p)
include h

theorem world : execution.Reachable p.drive.world :=
  runSchedule_projects.reachable h.steady.of_restrict

theorem orderly : Orderly p.drive := MirrorRust.orderly h.steady

/-- A cooperative worker calls its checkpoints in its intervals only. -/
theorem quiet {action : Action} (hallows : c.allows p.drive.world p.calls action = true)
    {w' : World} (hw : p.drive.world.step action = some w') :
    ¬ p.drive.Disturbs (.act action) := by
  rintro ⟨harrives, hctl, -⟩
  cases action with
  | arrive thread i checkpoint =>
    cases idle_beside hctl rfl hw with
    | @arrive _ _ _ t _ ht _ hw =>
      simp only [Cooperation.allows, ht, Option.map_some, Option.some.injEq,
        decide_eq_true_eq] at hallows
      obtain ⟨rfl, -⟩ := hallows
      have hpc := Harmony.running_of_arrive hw
      obtain ⟨-, a, r, -, -, hwaiting, -⟩ := h.harmony.running h.world ht (Or.inl hpc)
      simp [hctl] at hwaiting
  | _ => cases harrives

theorem act {action : Action} (hallows : c.allows p.drive.world p.calls action = true) {d : Drive}
    (hd : p.drive.step (.act action) = some d) :
    Concert c { drive := d, calls := Cooperation.count p.calls action } := by
  have hstep := hd
  simp only [Drive.step] at hd
  split_ifs at hd with hstop
  obtain ⟨hloop, hcall⟩ := not_or.mp hstop
  obtain ⟨w', hw, rfl⟩ := Option.map_eq_some_iff.mp hd
  refine ⟨h.steady.step (TransitionSystem.restrict_step.mpr ⟨h.quiet hallows hw, hstep⟩),
    h.harmony.step h.world hallows hw, fun r hr => ?_⟩
  obtain ⟨hctl, -⟩ := h.orderly.advancing r hr
  have hb := (idle_beside hctl (by simpa using hcall) hw).beside
  show w'.setup.schedule.steps[w'.next]? = some r
  rw [hb.setup, hb.next]
  exact h.requested r hr

theorem check {d : Drive} (hd : p.drive.step .check = some d) :
    Concert c { p with drive := d } := by
  have hstep := hd
  simp only [Drive.step, Option.ite_none_right_eq_some, Option.some.injEq] at hd
  obtain ⟨⟨hloop, hctl⟩, rfl⟩ := hd
  have hrest := h.orderly.checking hloop h.harmony.outcome
  have hquiet : ¬ p.drive.Disturbs .check := fun hd => by cases hd.1
  have hsteady : undisturbed.step p.drive .check = some p.drive.check :=
    TransitionSystem.restrict_step.mpr ⟨hquiet, hstep⟩
  have hworld : p.drive.check.world = p.drive.world := by
    unfold Drive.check
    split
    · rfl
    · split_ifs <;> rfl
  refine ⟨h.steady.step hsteady, ?_, fun r hr => ?_⟩
  · show Harmony c p.calls p.drive.check.world
    rw [hworld]
    exact h.harmony
  · show p.drive.check.world.steps[p.drive.check.world.next]? = some r
    rw [hworld]
    simp only [Drive.check] at hr
    split at hr
    case h_1 => cases hr
    case h_2 requested rest heq =>
      split_ifs at hr
      cases hr
      rw [hctl, heq] at hrest
      have hhead := congrArg List.head? hrest
      simpa [Ctl.pending, List.head?_drop] using hhead.symm

theorem advance {d : Drive} (hd : p.drive.step (.advance false) = some d) :
    Concert c { p with drive := d } := by
  have hstep := hd
  simp only [Drive.step] at hd
  split at hd
  case h_2 => cases hd
  case h_1 requested hloop =>
    obtain ⟨hctl, hopen⟩ := h.orderly.advancing requested hloop
    have hadvance : p.drive.world.step (.advance requested false) =
        some (p.drive.world.advance requested false) := if_pos hctl
    rw [hadvance] at hd
    cases hd
    have hquiet : ¬ p.drive.Disturbs (.advance false) := fun hd => by cases hd.1
    have hsteady : undisturbed.step p.drive (.advance false) = some _ :=
      TransitionSystem.restrict_step.mpr ⟨hquiet, hstep⟩
    refine ⟨h.steady.step hsteady, ?_, fun r hr => by cases hr⟩
    exact h.harmony.advanced h.world hctl (hopen h.harmony.outcome).1 (h.requested requested hloop)

theorem step {action : DriveAction} (hstep : c.step p action = some p') : Concert c p' := by
  cases action with
  | act action =>
    simp only [Cooperation.step, Option.ite_none_right_eq_some, Option.map_eq_some_iff] at hstep
    obtain ⟨hallows, d, hd, rfl⟩ := hstep
    exact h.act hallows hd
  | check =>
    obtain ⟨d, hd, rfl⟩ := Option.map_eq_some_iff.mp hstep
    exact h.check hd
  | advance expired =>
    simp only [Cooperation.step, Option.ite_none_left_eq_some, Option.map_eq_some_iff] at hstep
    obtain ⟨-, d, hd, rfl⟩ := hstep
    exact h.advance hd

/-- The execution is closed when the loop has returned. -/
theorem passed (hreturned : p.drive.loop = .returned) : p.drive.world.report.passed = true := by
  obtain ⟨hctl, huntouched⟩ := h.orderly.returned hreturned
  have hcustody := custody h.world
  have hclosed : p.drive.world.closed = true := by
    by_contra hopen
    have hopen : p.drive.world.closed = false := by simpa using hopen
    have hcompleted := hcustody.ended
      (Or.inr fun hattempts => huntouched ⟨hctl, hopen, hattempts⟩) h.harmony.outcome
    have hincomplete := (completion h.world).open_incomplete hctl hopen
    exact Bool.false_ne_true (hincomplete.symm.trans hcompleted)
  have hcleanup := h.harmony.settled hclosed
  have hcompleted := hcustody.ended (Or.inr fun hattempts => by
    simp [hcustody.fresh hattempts] at hcleanup) h.harmony.outcome
  simp [Report.passed, h.harmony.outcome, hcompleted, hcleanup]

end Concert

theorem concert {c : Cooperation} {p : Play} (h : c.plays.Reachable p) : Concert c p := by
  refine h.invariant (fun p hp => ?_) fun p action p' _ hp hstep => hp.step hstep
  obtain ⟨generation, executionId, rfl⟩ := hp
  exact ⟨.init ⟨c.setup, false, generation, executionId, rfl⟩, .new c generation executionId,
    fun r hr => by cases hr⟩

end MirrorRust
