import MirrorRust.Execution.RunSchedule

/-! Programs that do what the schedule asks for: every worker stops at its checkpoints in order and
returns, the observer and the teardown succeed, and nothing interferes. -/
namespace MirrorRust

/-! ### The script of a worker -/

def Step.visit (actor : String) (r : Step) : Bool := r.actor = actor && r.checkpoint ≠ COMPLETION

/-- The checkpoints at which a worker stops, in order. -/
def script (steps : List Step) (actor : String) : List String :=
  (steps.filter (Step.visit actor)).map Step.checkpoint

def visits (steps : List Step) (k : ℕ) (actor : String) : ℕ :=
  ((steps.take k).filter (Step.visit actor)).length

section Script
variable {steps : List Step} {k : ℕ} {r : Step} {actor : String}

@[simp] theorem visits_zero (steps : List Step) (actor : String) : visits steps 0 actor = 0 := rfl

theorem visits_succ (h : steps[k]? = some r) (hvisit : r.visit actor = true) :
    visits steps (k + 1) actor = visits steps k actor + 1 := by
  simp [visits, take_succ_of_getElem? h, List.filter_append, hvisit]

theorem visits_skip (h : steps[k]? = some r) (hvisit : r.visit actor = false) :
    visits steps (k + 1) actor = visits steps k actor := by
  simp [visits, take_succ_of_getElem? h, List.filter_append, hvisit]

theorem take_getElem_drop (h : steps[k]? = some r) :
    steps = steps.take k ++ r :: steps.drop (k + 1) := by
  obtain ⟨hlt, rfl⟩ := List.getElem?_eq_some_iff.mp h
  rw [List.cons_getElem_drop_succ, List.take_append_drop]

theorem script_visits (h : steps[k]? = some r) (hvisit : r.visit actor = true) :
    (script steps actor)[visits steps k actor]? = some r.checkpoint := by
  have hsteps := take_getElem_drop h
  rw [script, hsteps, List.filter_append, List.filter_cons_of_pos hvisit, List.map_append,
    List.map_cons, visits, ← hsteps, List.getElem?_append_right (by simp)]
  simp

theorem script_ended
    (hended : steps.Pairwise fun s t => s.checkpoint = COMPLETION → t.actor ≠ s.actor)
    (h : steps[k]? = some r) (hend : r.checkpoint = COMPLETION) :
    visits steps k r.actor = (script steps r.actor).length := by
  have hsteps := take_getElem_drop h
  have hskip : r.visit r.actor = false := by simp [Step.visit, hend]
  have hrest : (steps.drop (k + 1)).filter (Step.visit r.actor) = [] := by
    rw [hsteps] at hended
    have hafter := (List.pairwise_cons.mp (List.pairwise_append.mp hended).2.1).1
    refine List.filter_eq_nil_iff.mpr fun s hs => ?_
    simp [Step.visit, hafter s hs hend]
  rw [script, hsteps, List.filter_append, List.filter_cons_of_neg (by simp [hskip]), hrest,
    List.append_nil, List.length_map, visits, ← hsteps]

theorem standing_ne_completion
    (hended : steps.Pairwise fun s t => s.checkpoint = COMPLETION → t.actor ≠ s.actor)
    (h : steps[k]? = some r) : standing steps k r.actor ≠ COMPLETION := by
  rw [standing]
  cases hlast : ((steps.take k).filter fun s => s.actor = r.actor).getLast? with
  | none => decide
  | some s =>
    obtain ⟨hs, hactor⟩ := List.mem_filter.mp (List.mem_of_getLast? hlast)
    rw [take_getElem_drop h] at hended
    intro hend
    exact (List.pairwise_append.mp hended).2.2 s hs r (by simp) hend (by simpa using Eq.symm (of_decide_eq_true hactor))

end Script

theorem Setup.planned_le (setup : Setup) {m n : ℕ} (h : m ≤ n) :
    rowBytes (setup.plannedRows m) ≤ rowBytes (setup.plannedRows n) := by
  induction n, h using Nat.le_induction with
  | base => exact le_rfl
  | succ n _ ih =>
    rw [Setup.plannedRows_succ, rowBytes_append]
    exact ih.trans (Nat.le_add_right _ _)

/-! ### Cooperation -/

/-- A schedule that is admitted, and what the observer answers after each interval: all of it within
the limits, and what is counted of the evidence within its bound. -/
structure Cooperation where
  setup : Setup
  values : ℕ → Json
  admitted : admitSchedule setup.serde setup.schedule setup.adapter setup.policy = .ok ()
  accepted : ∀ k ≤ setup.schedule.steps.length,
    (parse (values k).render SharedState.observationLimits).toOption.isSome = true
  evidence : rowBytes (setup.plannedRows setup.schedule.steps.length) +
    ((List.range (setup.schedule.steps.length + 1)).map fun k => (values k).bytes).sum ≤ evidenceLimit

/-- A run of `run_schedule`, and how many checkpoints each worker has called. -/
structure Play where
  drive : Drive
  calls : ℕ → ℕ

namespace Cooperation
variable (c : Cooperation)

def observedBytes (k : ℕ) : ℕ := ((List.range k).map fun k => (c.values k).bytes).sum

theorem observedBytes_succ (k : ℕ) :
    c.observedBytes (k + 1) = c.observedBytes k + (c.values k).bytes := by
  rw [observedBytes, List.range_succ, List.map_append, List.sum_append, List.map_singleton,
    List.sum_singleton]
  rfl

theorem observedBytes_le {k n : ℕ} (h : k ≤ n) : c.observedBytes k ≤ c.observedBytes n :=
  ((List.range_sublist.mpr h).map _).sum_le_sum fun _ _ => Nat.zero_le _

/-- The workers of the program are the declared actors. -/
def staffs (workers : List String) : Bool :=
  decide workers.Nodup && workers.all (fun name => c.setup.adapter.actors.any fun a => a.actor = name) &&
    c.setup.adapter.actors.all fun a => workers.contains a.actor

def script (i : ℕ) : List String :=
  match c.setup.adapter.actors[i]? with
  | none => []
  | some a => MirrorRust.script c.setup.schedule.steps a.actor

/-- What a cooperative program and its surroundings do. -/
def allows (w : World) (calls : ℕ → ℕ) : Action → Bool
  | .enter inCallback => !inCallback
  | .create (.program workers) => c.staffs workers
  | .spawn (.ok _) => true
  | .control expired => !expired
  | .observer (.ok value) => value = c.values w.next
  | .teardown (.ok ()) => true
  | .start _ | .wake _ | .settle _ => true
  | .arrive thread i checkpoint =>
    decide ((w.threads[i]?.map Thread.id) = some thread ∧ (c.script i)[calls i]? = some checkpoint)
  | .returns i (.ok ()) => calls i = (c.script i).length
  | .terminate _ panicked => !panicked
  | _ => false

def count (calls : ℕ → ℕ) : Action → ℕ → ℕ
  | .arrive _ i _ => Function.update calls i (calls i + 1)
  | _ => calls

def step (p : Play) (action : DriveAction) : Option Play :=
  match action with
  | .act action =>
    if c.allows p.drive.world p.calls action then
      (p.drive.step (.act action)).map fun d => { drive := d, calls := count p.calls action }
    else none
  | .check => (p.drive.step .check).map fun d => { p with drive := d }
  | .advance expired =>
    if expired then none
    else (p.drive.step (.advance false)).map fun d => { p with drive := d }

/-- All runs of `run_schedule` with a cooperative program. -/
def plays : TransitionSystem Play DriveAction where
  init p := ∃ generation executionId,
    p = { drive := .new c.setup false generation executionId, calls := fun _ => 0 }
  step := c.step

end Cooperation

/-! ### Harmony -/

theorem SharedState.waitFor_quiet {s : SharedState} (hlive : s.stopping = false)
    (p : SharedState → Bool) :
    s.waitFor false false p = (s, if p s = true then some true else none) := by
  rw [waitFor, hlive]
  simp only [Bool.false_eq_true, if_false]
  split_ifs <;> rfl

theorem SharedState.retainEvent_room {s : SharedState} {kind : String} {step i : ℕ} {a : Actor}
    (ha : s.actors[i]? = some a)
    (hroom : s.evidenceBytes + (s.eventRow kind step a).bytes ≤ evidenceLimit) :
    s.retainEvent kind step i = s.pushEvent kind step a := by
  rw [retainEvent, ha]
  exact if_neg (not_lt.mpr hroom)

namespace Ctl

def calm : Ctl → Bool
  | .joinFailed | .recording (some _) => false
  | .dropping _ | .dropTeardown | .dropped => false
  | _ => true

end Ctl

/-- How many intervals are behind the actor, when the one that is open counts from its arrival. -/
def World.reached (w : World) (i : ℕ) (a : Actor) : ℕ :=
  if w.ctl.moving = some i then if a.phase = .running then w.next else w.next + 1
  else w.next + w.ctl.pending / 2

/-- The workers are where the schedule has led them. -/
structure Seats (calls : ℕ → ℕ) (w : World) : Prop where
  visited : ∀ (i : ℕ) (a : Actor), w.shared.actors[i]? = some a →
    calls i = visits w.steps (w.reached i a) a.declaration.actor
  arrived : ∀ (i : ℕ) (a : Actor) (r : Step), w.ctl.moving = some i →
    w.shared.actors[i]? = some a → a.phase ≠ .running → w.steps[w.next]? = some r →
      a.checkpoint = r.checkpoint
  returned : ∀ (i : ℕ) (t : Thread) (result : CallResult Unit), w.threads[i]? = some t →
    t.pc = .returned result → result = .ok () ∧
      ∃ r, w.steps[w.next]? = some r ∧ r.checkpoint = COMPLETION
  ended : ∀ (i : ℕ) (t : Thread), w.threads[i]? = some t → t.pc ≠ .terminated true

namespace Seats
variable {calls : ℕ → ℕ} {w w' : World}

theorem keeps (h : Seats calls w) (hsteps : w'.steps = w.steps)
    (hactors : w'.shared.actors = w.shared.actors) (hnext : w'.next = w.next)
    (hmoving : w'.ctl.moving = w.ctl.moving) (hpending : w'.ctl.pending / 2 = w.ctl.pending / 2)
    (hpcs : ∀ (i : ℕ) (t' : Thread), w'.threads[i]? = some t' →
      ∃ t, w.threads[i]? = some t ∧ t'.pc = t.pc) : Seats calls w' := by
  have hreached : ∀ i a, w'.reached i a = w.reached i a := fun i a => by
    rw [World.reached, World.reached, hmoving, hpending, hnext]
  refine ⟨fun i a ha => ?_, fun i a r hm ha hphase hr => ?_, fun i t result ht hpc => ?_,
    fun i t ht => ?_⟩
  · rw [hreached, hsteps]
    exact h.visited i a (hactors ▸ ha)
  · exact h.arrived i a r (hmoving ▸ hm) (hactors ▸ ha) hphase (by rw [← hsteps, ← hnext]; exact hr)
  · obtain ⟨u, hu, hpc'⟩ := hpcs i t ht
    rw [hsteps, hnext]
    exact h.returned i u result hu (hpc'.symm.trans hpc)
  · obtain ⟨u, hu, hpc'⟩ := hpcs i t ht
    rw [hpc']
    exact h.ended i u hu

theorem goto (h : Seats calls w) {ctl : Ctl} (hmoving : ctl.moving = w.ctl.moving)
    (hpending : ctl.pending / 2 = w.ctl.pending / 2) : Seats calls (w.goto ctl) :=
  h.keeps rfl rfl rfl hmoving hpending fun _ t ht => ⟨t, ht, rfl⟩

/-- One worker moves: its thread by `f`, its actor by `g`. -/
theorem update (h : Seats calls w) {calls' : ℕ → ℕ} {i : ℕ} {t : Thread} {f : Thread → Thread}
    {g : Actor → Actor} {s : SharedState} (ht : w.threads[i]? = some t)
    (hactors : s.actors = w.shared.actors.modify i g)
    (hdeclaration : ∀ a, (g a).declaration = a.declaration) (hcalls : ∀ j ≠ i, calls' j = calls j)
    (hvisited : ∀ a, w.shared.actors[i]? = some a →
      calls' i = visits w.steps (w.reached i (g a)) a.declaration.actor)
    (harrived : ∀ a r, w.ctl.moving = some i → w.shared.actors[i]? = some a →
      (g a).phase ≠ .running → w.steps[w.next]? = some r → (g a).checkpoint = r.checkpoint)
    (hreturned : ∀ result, (f t).pc = .returned result → result = .ok () ∧
      ∃ r, w.steps[w.next]? = some r ∧ r.checkpoint = COMPLETION)
    (hended : (f t).pc ≠ .terminated true) :
    Seats calls' { w with shared := s, threads := w.threads.modify i f } := by
  have hsplit : ∀ (j : ℕ) (a : Actor), s.actors[j]? = some a →
      (j = i ∧ ∃ b, w.shared.actors[i]? = some b ∧ a = g b) ∨
        (j ≠ i ∧ w.shared.actors[j]? = some a) := by
    intro j a hj
    rw [hactors, List.getElem?_modify] at hj
    by_cases hji : i = j
    · subst hji
      cases hb : w.shared.actors[i]? with
      | none => simp [hb] at hj
      | some b => exact Or.inl ⟨rfl, b, rfl, by simpa [hb] using hj.symm⟩
    · exact Or.inr ⟨Ne.symm hji, by simpa [hji] using hj⟩
  have hthread : ∀ (j : ℕ) (u : Thread), (w.threads.modify i f)[j]? = some u →
      u = f t ∨ w.threads[j]? = some u := by
    intro j u hu
    rw [List.getElem?_modify] at hu
    by_cases hji : i = j
    · subst hji
      exact Or.inl (by simpa [ht] using hu.symm)
    · exact Or.inr (by simpa [hji] using hu)
  refine ⟨fun j a ha => ?_, fun j a r hm ha hphase hr => ?_, fun j u result hu hpc => ?_,
    fun j u hu => ?_⟩
  · rcases hsplit j a ha with ⟨rfl, b, hb, rfl⟩ | ⟨hne, ha⟩
    · rw [hdeclaration]
      exact hvisited b hb
    · rw [hcalls j hne]
      exact h.visited j a ha
  · rcases hsplit j a ha with ⟨rfl, b, hb, rfl⟩ | ⟨hne, ha⟩
    · exact harrived b r hm hb hphase hr
    · exact h.arrived j a r hm ha hphase hr
  · rcases hthread j u hu with rfl | hu
    · exact hreturned result hpc
    · exact h.returned j u result hu hpc
  · rcases hthread j u hu with rfl | hu
    · exact hended
    · exact h.ended j u hu

end Seats

/-- An execution of a cooperative program in which nothing has gone wrong. -/
structure Harmony (c : Cooperation) (calls : ℕ → ℕ) (w : World) : Prop where
  setup : w.setup = c.setup
  outcome : w.report.outcome = .completed
  cancelled : w.cancelled = false
  calm : w.ctl.calm = true
  built : w.ctl.unopened = false → w.acquired = true ∧
    w.shared.actors.map Actor.declaration = w.setup.adapter.actors
  uncalled : w.ctl.unopened = true → ∀ i, calls i = 0
  crew : w.ctl = .startWait → w.threads.length = w.shared.actors.length
  cleaning : w.ctl = .cleaning → w.report.scheduleCompleted = true
  bytes : w.shared.evidenceBytes =
    rowBytes w.report.events + c.observedBytes w.report.observations.length
  observations : w.report.observations =
    (List.range (w.next + 1 - w.ctl.awaiting)).map fun k =>
      SharedState.observationRow c.setup.serde k (c.values k)
  judging : ∀ caller result, w.ctl = .judging caller result → result = .ok (c.values w.next)
  settled : w.closed = true → w.report.cleanup = .confirmed
  seats : Seats calls w

namespace Harmony
variable {c : Cooperation} {calls : ℕ → ℕ} {w w' : World}

theorem new (c : Cooperation) (generation : ℕ) (executionId : String) :
    Harmony c (fun _ => 0) (.new c.setup false generation executionId) where
  setup := rfl
  outcome := rfl
  cancelled := rfl
  calm := rfl
  built h := by cases h
  uncalled _ _ := rfl
  crew h := by cases h
  cleaning h := by cases h
  bytes := rfl
  observations := rfl
  judging _ _ h := by cases h
  settled h := by cases h
  seats := ⟨fun i a ha => by simp [World.new] at ha, fun i a r _ ha => by simp [World.new] at ha,
    fun i t result ht => by simp [World.new] at ht, fun i t ht => by simp [World.new] at ht⟩

variable (h : Harmony c calls w) (hr : execution.Reachable w)
include h

theorem steps : w.steps = c.setup.schedule.steps := by rw [World.steps, h.setup]

theorem admitted : w.Admitted := by
  rw [World.Admitted, h.setup]
  exact admitSchedule_ok c.admitted

include hr

theorem live (hn : w.report.scheduleCompleted = false) : w.shared.stopping = false := by
  by_contra hstop
  rcases (coordinated hr).stopped (by simpa using hstop) with ho | hs | hreleased
  · exact ho h.outcome
  · exact Bool.false_ne_true (hn.symm.trans hs)
  · have hcalm := h.calm
    cases hctl : w.ctl <;> simp_all [Ctl.released, Ctl.calm]

theorem open_live (hw : w.ctl.wrapping = false) (hi : w.ctl ≠ .idle) : w.shared.stopping = false :=
  h.live hr ((completion hr).incomplete hw hi)

theorem thread_live {t : Thread} (ht : t ∈ w.threads) (hend : t.isFinished = false) :
    w.shared.stopping = false := by
  refine h.live hr ?_
  by_contra hs
  have hnext := ((completion hr).completed (by simpa using hs)).2.1
  have hhandle := joined_of_last hr h.admitted hnext t ht
  exact Bool.false_ne_true (hend.symm.trans ((coordinated hr).ended_of_joined ht hhandle))

omit hr in
/-- The evidence is what the plan and the observer have contributed. -/
theorem counted : w.shared.evidenceBytes =
    rowBytes w.report.events + c.observedBytes (w.next + 1 - w.ctl.awaiting) := by
  rw [h.bytes, h.observations, List.length_map, List.length_range]

omit hr in
theorem pushed (kind : String) (a : Actor) :
    (w.shared.pushEvent kind w.next a).evidenceBytes =
      rowBytes (w.shared.pushEvent kind w.next a).report.events +
        c.observedBytes w.report.observations.length := by
  have hbytes : w.shared.evidenceBytes = rowBytes w.shared.report.events +
    c.observedBytes w.report.observations.length := h.bytes
  rw [SharedState.pushEvent, rowBytes_concat, hbytes, Nat.add_right_comm]
  rfl

omit hr in
/-- What has been observed, and the plan of the next intervals, leave room. -/
theorem room {m k : ℕ} (hm : m ≤ w.steps.length) (hk : k ≤ w.steps.length + 1)
    {b : ℕ} (hb : b ≤ rowBytes (c.setup.plannedRows m)) :
    b + c.observedBytes k ≤ evidenceLimit := by
  rw [h.steps] at hm hk
  have hplanned := c.setup.planned_le hm
  have hvalues := c.observedBytes_le hk
  have hevidence : rowBytes (c.setup.plannedRows c.setup.schedule.steps.length) +
    c.observedBytes (c.setup.schedule.steps.length + 1) ≤ evidenceLimit := c.evidence
  omega

/-! ### The regions of the controller -/

theorem startWait (hctl : w.ctl = .startWait) : w.startWait false =
    if w.shared.allParked = true then w.goto (.observing .start) else w := by
  have hlive := h.open_live hr (by rw [hctl]; rfl) (by simp [hctl])
  have hwait : w.shared.waitFor w.cancelled false SharedState.allParked =
      (w.shared, if w.shared.allParked = true then some true else none) := by
    rw [h.cancelled, SharedState.waitFor_quiet hlive]
  rw [World.startWait, hwait]
  split_ifs <;> rfl

omit h in
theorem seated (hl : w.ctl.launching = false) (hlive : w.shared.stopping = false) {i : ℕ} {a : Actor}
    (ha : w.shared.actors[i]? = some a) : ∃ t, w.threads[i]? = some t ∧
      Table a t ∧ LiveSeat w.ctl i a t := by
  have hc := coordinated hr
  have hlt : i < w.threads.length := by
    rw [(hc.live hlive).all hl]
    exact (List.getElem?_eq_some_iff.mp ha).1
  have ht := List.getElem?_eq_getElem hlt
  exact ⟨_, ht, hc.table i a _ ha ht, (hc.live hlive).seat i a _ ha ht⟩

theorem observe {caller : Caller} (hctl : w.ctl = .observing caller) :
    w.observe caller = w.goto (.callback caller) := by
  have hlive := h.open_live hr (by rw [hctl]; rfl) (by simp [hctl])
  have hquiescent : w.shared.quiescent = true := by
    refine List.all_eq_true.mpr fun a ha => ?_
    obtain ⟨i, hi⟩ := List.getElem?_of_mem ha
    obtain ⟨t, -, -, hseat⟩ := seated hr (by rw [hctl]; rfl) hlive hi
    have hrunning : a.phase ≠ .running := fun hrun => by
      obtain ⟨r, hwaiting⟩ := hseat.running hrun
      simp [hctl] at hwaiting
    have hstarting : a.phase ≠ .starting := fun hst => by
      have hlaunching := hseat.starting hst
      simp [hctl, Ctl.launching] at hlaunching
    simp [hrunning, hstarting]
  rw [World.observe, hlive, hquiescent]
  rfl

theorem next_le : w.next ≤ w.steps.length := MirrorRust.next_le hr h.outcome

theorem judge_room {caller : Caller} {result : CallResult Json}
    (hctl : w.ctl = .judging caller result) :
    w.shared.evidenceBytes + (c.values w.next).bytes ≤ evidenceLimit := by
  have hnext := h.next_le hr
  have hcounted := h.counted
  have hevents := followed hr h.outcome
  rw [hctl] at hcounted hevents
  have hawaiting : (Ctl.judging caller result).awaiting = 1 := rfl
  rw [hawaiting, Nat.add_sub_cancel] at hcounted
  simp only [Ctl.pending, List.take_zero, List.append_nil, h.setup] at hevents
  have hroom := h.room hnext (Nat.succ_le_succ hnext) (le_of_eq (congrArg rowBytes hevents))
  rw [Nat.succ_eq_add_one, c.observedBytes_succ] at hroom
  omega

theorem judge {caller : Caller} {result : CallResult Json} (hctl : w.ctl = .judging caller result) :
    w.judge caller result false =
      { w with shared := w.shared.pushObservation w.setup.serde w.next (c.values w.next) }.goto
        (.outcomeCheck caller) := by
  have haccepted := c.accepted w.next (h.steps ▸ h.next_le hr)
  have hroom : w.shared.evidenceBytes + (c.values w.next).render.utf8ByteSize ≤ evidenceLimit :=
    h.judge_room hr hctl
  obtain rfl := h.judging caller result hctl
  rw [World.judge, SharedState.judge, h.cancelled]
  simp only [Bool.false_eq_true, if_false]
  rw [if_neg]
  · rfl
  · rw [not_or]
    refine ⟨?_, not_lt.mpr hroom⟩
    simpa [Option.isNone_iff_eq_none, Option.isSome_iff_ne_none] using haccepted

omit hr in
theorem outcomeCheck (caller : Caller) : w.outcomeCheck caller =
    w.goto (if caller = .advance ∧ w.next = w.steps.length then .completing else .idle) := by
  rw [World.outcomeCheck, if_neg (not_not.mpr h.outcome)]
  split_ifs <;> rfl

/-- The actor of the next interval stands at its checkpoint. -/
theorem parked (hctl : w.ctl = .idle) (hclosed : w.closed = false) {r : Step}
    (hstep : w.steps[w.next]? = some r) : ∃ i a, w.shared.actors[i]? = some a ∧
      a.declaration.actor = r.actor ∧ a.phase = .parked ∧
      a.checkpoint = standing w.steps w.next r.actor ∧
      w.shared.actors.findIdx (fun a => a.declaration.actor = r.actor) = i := by
  have hlive := h.live hr ((completion hr).open_incomplete hctl hclosed)
  have hdeclared := (h.built (by rw [hctl]; rfl)).2
  obtain ⟨d, hd, hname⟩ := List.mem_map.mp (h.admitted.declared r (List.mem_of_getElem? hstep))
  obtain ⟨b, hb, rfl⟩ := List.mem_map.mp (hdeclared ▸ hd)
  obtain ⟨i, a, ha, hactor, hindex⟩ : ∃ i a, w.shared.actors[i]? = some a ∧
      a.declaration.actor = r.actor ∧
      w.shared.actors.findIdx (fun a => a.declaration.actor = r.actor) = i := by
    have hlt : w.shared.actors.findIdx (fun a => a.declaration.actor = r.actor) <
        w.shared.actors.length := List.findIdx_lt_length_of_exists ⟨b, hb, by simpa using hname⟩
    exact ⟨_, _, List.getElem?_eq_getElem hlt, by simpa using List.findIdx_getElem (w := hlt), rfl⟩
  have hstands := standing_reachable hr hlive i _ (SharedState.places_eq ha) (by simp [hctl, Ctl.moving])
  rw [hctl] at hstands
  simp only [Ctl.pending, Nat.zero_div, Nat.add_zero, hactor] at hstands
  obtain ⟨t, -, htable, hseat⟩ := seated hr (by rw [hctl]; rfl) hlive ha
  refine ⟨i, a, ha, hactor, ?_, hstands, hindex⟩
  cases hphase : a.phase with
  | parked => rfl
  | running =>
    obtain ⟨r, hwaiting⟩ := hseat.running hphase
    simp [hctl] at hwaiting
  | starting =>
    have hlaunching := hseat.starting hphase
    simp [hctl, Ctl.launching] at hlaunching
  | finished =>
    have hend := htable.completion.mpr hphase
    exact absurd (hstands.symm.trans hend) (standing_ne_completion h.admitted.ended hstep)

/-- There is room for both events of an interval. -/
theorem interval_room {i : ℕ} {a : Actor} {r : Step} (he : w.ctl ≠ .entering)
    (hawaiting : w.ctl.awaiting = 0) (ha : w.shared.actors[i]? = some a)
    (hname : a.declaration.actor = r.actor) (hstep : w.steps[w.next]? = some r) :
    w.shared.evidenceBytes - rowBytes w.report.events + rowBytes (w.setup.plannedRows w.next) +
      (eventRow (2 * w.next) "permit" w.next a.declaration (standing w.steps w.next r.actor)).bytes +
      (eventRow (2 * w.next + 1) "arrival" w.next a.declaration r.checkpoint).bytes ≤
        evidenceLimit := by
  have hlt : w.next < w.steps.length := (List.getElem?_eq_some_iff.mp hstep).1
  have hinterval := Followed.interval hr h.outcome he ha hname hstep
  have hrows := congrArg rowBytes (Setup.plannedRows_succ w.setup w.next)
  rw [rowBytes_append, hinterval] at hrows
  simp only [rowBytes, List.map_cons, List.map_nil, List.sum_cons, List.sum_nil] at hrows
  have hcounted := h.counted
  rw [hawaiting, Nat.sub_zero] at hcounted
  have hle : w.next + 1 ≤ w.steps.length + 1 := by omega
  have hroom := h.room hlt hle (h.setup ▸ le_rfl :
    rowBytes (w.setup.plannedRows (w.next + 1)) ≤ rowBytes (c.setup.plannedRows (w.next + 1)))
  simp only [rowBytes] at hcounted hroom ⊢
  omega

theorem advance (hctl : w.ctl = .idle) (hclosed : w.closed = false) {r : Step}
    (hstep : w.steps[w.next]? = some r) : ∃ i a, w.shared.actors[i]? = some a ∧
      a.declaration.actor = r.actor ∧ a.phase = .parked ∧
      w.advance r false = { w with
        shared := (w.shared.pushEvent "permit" w.next a).setPhase i .running }.goto (.waiting i r) := by
  obtain ⟨i, a, ha, hname, hphase, hstands, hindex⟩ := h.parked hr hctl hclosed hstep
  have hlive := h.live hr ((completion hr).open_incomplete hctl hclosed)
  have hroom : w.shared.evidenceBytes + (w.shared.eventRow "permit" w.next a).bytes ≤
      evidenceLimit := by
    have hinterval := h.interval_room hr (by simp [hctl]) (by rw [hctl]; rfl) ha hname hstep
    have hevents := followed hr h.outcome
    have hlength := (ledger hr h.outcome).length
    rw [hctl] at hevents hlength
    simp only [Ctl.pending, List.take_zero, List.append_nil, Nat.add_zero] at hevents hlength
    rw [SharedState.eventRow_eq, hstands]
    have hordinal : w.shared.report.events.length = 2 * w.next := hlength
    rw [hordinal]
    rw [hevents] at hinterval
    have hcounted := h.counted
    rw [hevents] at hcounted
    omega
  refine ⟨i, a, ha, hname, hphase, ?_⟩
  have hpermit : w.shared.permit w.cancelled false w.steps w.next r =
      ((w.shared.pushEvent "permit" w.next a).setPhase i .running, some i) := by
    have hphase' : w.shared.phase? i = some .parked := by rw [SharedState.phase?, ha, ← hphase]; rfl
    rw [SharedState.permit, if_neg (by simp [h.cancelled]), if_neg (by simp),
      if_neg (not_not.mpr hstep)]
    simp only [hindex]
    rw [if_neg (not_not.mpr hphase'), SharedState.retainEvent_room ha hroom]
    exact if_neg (by simp [SharedState.pushEvent, hlive])
  rw [World.advance, if_neg (by simp [hclosed, h.outcome]), hpermit]

theorem wait {i : ℕ} {r : Step} (hctl : w.ctl = .waiting i r) : w.wait i r false =
    if w.shared.phase? i = some .running then w else w.goto (.arrived i r) := by
  have hlive := h.open_live hr (by rw [hctl]; rfl) (by simp [hctl])
  have hwait : w.shared.waitFor w.cancelled false (SharedState.notRunning i) =
      (w.shared, if SharedState.notRunning i w.shared = true then some true else none) := by
    rw [h.cancelled, SharedState.waitFor_quiet hlive]
  rw [World.wait, hwait]
  by_cases hrunning : w.shared.phase? i = some .running
  · have hnot : SharedState.notRunning i w.shared = false := by simp [SharedState.notRunning, hrunning]
    rw [if_pos hrunning, hnot]
    rfl
  · have hnot : SharedState.notRunning i w.shared = true := by simp [SharedState.notRunning, hrunning]
    rw [if_neg hrunning, hnot]
    rfl

theorem arrival {i : ℕ} {r : Step} (hctl : w.ctl = .arrived i r) :
    ∃ a, w.shared.actors[i]? = some a ∧ a.declaration.actor = r.actor ∧
      w.steps[w.next]? = some r ∧ a.phase ≠ .running ∧
      w.arrival i r = { w with shared := w.shared.pushEvent "arrival" w.next a }.goto
        (World.afterArrival i a.phase) := by
  have hlive := h.open_live hr (by rw [hctl]; rfl) (by simp [hctl])
  obtain ⟨hstep, a, ha, hname⟩ := (licensed hr).target i r (Or.inr hctl)
  obtain ⟨t, -, -, hseat⟩ := seated hr (by rw [hctl]; rfl) hlive ha
  have hphase : a.phase ≠ .running := fun hrun => by
    obtain ⟨r, hwaiting⟩ := hseat.running hrun
    simp [hctl] at hwaiting
  have hcheckpoint := h.seats.arrived i a r (by rw [hctl]; rfl) ha hphase hstep
  have hroom : w.shared.evidenceBytes + (w.shared.eventRow "arrival" w.next a).bytes ≤
      evidenceLimit := by
    have hinterval := h.interval_room hr (by simp [hctl]) (by rw [hctl]; rfl) ha hname hstep
    have hevents := followed hr h.outcome
    have hlength := (ledger hr h.outcome).length
    rw [Followed.interval hr h.outcome (by simp [hctl]) ha hname hstep, hctl] at hevents
    rw [hctl] at hlength
    simp only [Ctl.pending, List.take_succ_cons, List.take_zero] at hevents hlength
    rw [SharedState.eventRow_eq, hcheckpoint]
    have hordinal : w.shared.report.events.length = 2 * w.next + 1 := hlength
    rw [hordinal]
    have hrows := congrArg rowBytes hevents
    rw [rowBytes_concat] at hrows
    have hcounted := h.counted
    omega
  refine ⟨a, ha, hname, hstep, hphase, ?_⟩
  have harrival : w.shared.arrival w.next i r =
      (w.shared.pushEvent "arrival" w.next a, decide (a.phase = .finished)) := by
    have ha' : (w.shared.pushEvent "arrival" w.next a).actors[i]? = some a := ha
    rw [SharedState.arrival, SharedState.retainEvent_room ha hroom]
    simp only [ha', hcheckpoint, ne_eq, not_true_eq_false, if_false]
  simp only [World.arrival, harrival, World.afterArrival, decide_eq_true_eq]

end Harmony

end MirrorRust
