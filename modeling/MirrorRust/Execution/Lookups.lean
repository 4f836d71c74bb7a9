import MirrorRust.Execution.FailStop

/-! The lookups of `advance` that rely on the admission: the position of the actor of the next
interval, and the actor and the handle of the interval in progress. -/
namespace MirrorRust

/-- Once its program has been acquired, an execution that has not failed knows its actors. -/
def Enrolled (w : World) : Prop :=
  w.report.outcome = .completed → w.ctl = .entering ∨ w.ctl = .creating ∨
    w.shared.actors.map Actor.declaration = w.setup.adapter.actors

section Move
variable {w w' : World}

theorem callCleanup_actors (w : World) (timeout : Duration) :
    (w.callCleanup timeout).shared.actors = w.shared.actors := by
  rcases w.callCleanup_spec timeout with ⟨-, heq⟩ | ⟨-, heq⟩ <;> rw [heq] <;> rfl

/-- Only the acquisition of a program changes how many actors there are. -/
theorem ControlMove.actors_nil {action : Action} (hw : ControlMove w action w')
    (hctl : w.ctl ≠ .creating) (hnil : w'.shared.actors = []) : w.shared.actors = [] := by
  cases hw with
  | enter =>
    unfold World.enter at hnil
    split at hnil <;> exact hnil
  | create hcreating => exact absurd hcreating hctl
  | @spawn i result =>
    cases result <;> exact hnil
  | startWait =>
    rcases w.startWait_spec _ with ⟨-, heq⟩ | ⟨-, heq⟩ | ⟨s, hs, heq⟩ | heq <;> rw [heq] at hnil
    · exact hnil
    · exact hnil
    · exact hs.actors ▸ hnil
    · exact hnil
  | observe =>
    rw [World.observe] at hnil
    split_ifs at hnil <;> exact hnil
  | observer => exact hnil
  | judge =>
    rw [World.judge] at hnil
    rcases w.shared.judge_spec w.setup.serde w.cancelled _ w.next _ with hs | ⟨-, value, -, heq⟩
    · exact hs.actors ▸ hnil
    · rw [heq] at hnil
      exact hnil
  | outcomeCheck =>
    rw [World.outcomeCheck] at hnil
    split_ifs at hnil
    · rwa [callCleanup_actors] at hnil
    · exact hnil
    · exact hnil
  | wait =>
    rcases w.wait_spec _ _ _ with ⟨-, heq⟩ | ⟨-, heq⟩ | ⟨s, hs, heq⟩ | heq <;> rw [heq] at hnil
    · exact hnil
    · exact hnil
    · exact hs.actors ▸ hnil
    · exact hnil
  | @arrival i requested =>
    cases ha : w.shared.actors[i]? with
    | none =>
      rw [World.arrival_none requested ha] at hnil
      exact hnil
    | some a =>
      obtain ⟨s, heq, hs⟩ := World.arrival_some requested ha
      rw [heq] at hnil
      rcases hs with hs | hs | ⟨-, rfl⟩
      · exact hs.actors ▸ hnil
      · exact hs.actors ▸ hnil
      · exact hnil
  | join _ hw => rcases World.join_spec hw with ⟨rfl, -⟩ | ⟨t, c, -, -, -, rfl⟩ <;> exact hnil
  | checkArrival =>
    rw [World.checkArrival] at hnil
    split_ifs at hnil <;> exact hnil
  | complete =>
    rw [World.complete, callCleanup_actors] at hnil
    exact hnil
  | clean =>
    rw [World.clean] at hnil
    rcases w.shared.beginCleanup_spec with ⟨-, hs⟩ | ⟨-, heq⟩
    · exact hs.actors ▸ hnil
    · rw [heq] at hnil
      exact hnil
  | drain =>
    rw [World.drain] at hnil
    split_ifs at hnil <;> exact hnil
  | reap =>
    rw [World.reap] at hnil
    split_ifs at hnil <;> exact hnil
  | @advance requested expired =>
    rw [World.advance] at hnil
    split_ifs at hnil
    · exact hnil
    rcases w.shared.permit_spec w.cancelled expired w.steps w.next requested with
      ⟨s, hs, heq⟩ | ⟨i, a, ha, -, -, -, heq⟩ <;> rw [heq] at hnil
    · exact hs.actors ▸ hnil
    · split_ifs at hnil
      · exact hnil
      · exact List.modify_eq_nil_iff.mp hnil
  | finish =>
    rw [World.finish] at hnil
    split_ifs at hnil
    · exact hnil
    · rw [callCleanup_actors] at hnil
      exact hnil
    · rwa [callCleanup_actors] at hnil
  | cleanup => rwa [callCleanup_actors] at hnil
  | dropJoin _ hw => rcases World.dropJoin_spec hw with ⟨-, rfl⟩ | ⟨t, -, -, rfl⟩ <;> exact hnil
  | joinFailed | tear | record | foreignCall | drop | dropTeardown => exact hnil

namespace Enrolled

theorem enter (w : World) (inCallback : Bool) : Enrolled (w.enter inCallback) := by
  unfold World.enter
  split
  case h_1 kind message herror =>
    have hs : w.shared.Fails (w.fail kind message).shared :=
      SharedState.fails_fail (World.admission_error herror)
    exact fun ho => absurd ho hs.outcome
  case h_2 => exact fun _ => Or.inr (Or.inl rfl)

theorem create (w : World) (result : FactoryResult) : Enrolled (w.create result) := by
  have hfails : ∀ e, w.shared.Fails (w.fail .applicationFailed e).shared := fun e =>
    SharedState.fails_fail (by decide)
  cases result with
  | error e => exact fun ho => absurd ho (hfails e).outcome
  | panic => exact fun ho => absurd ho (hfails _).outcome
  | program workers =>
    rw [World.create]
    rcases w.acquire_spec workers with ⟨s, -, hfailed, heq⟩ | ⟨-, heq⟩ <;> rw [heq]
    · intro ho
      rw [(Latched.callCleanup _ _).outcome] at ho
      exact absurd ho hfailed
    · refine fun _ => Or.inr (Or.inr ?_)
      simp [World.declare, World.spawnFrom, World.goto, World.newActor, Function.comp_def]

section Step
variable (h : Enrolled w)
include h

/-- The actors stay the declared ones, if there are any left. -/
theorem keep (hc : w.ctl ≠ .entering ∧ w.ctl ≠ .creating) (hr : execution.Reachable w')
    (ho : w'.report.outcome = .completed → w.report.outcome = .completed)
    (hsetup : w'.setup = w.setup) (hnil : w'.shared.actors = [] → w.shared.actors = []) :
    Enrolled w' := by
  intro ho'
  have hmap := ((h (ho ho')).resolve_left hc.1).resolve_left hc.2
  refine Or.inr (Or.inr ?_)
  rcases (coordinated hr).declared with hempty | hdeclared
  · rw [hempty, hsetup, ← hmap, hnil hempty]
  · exact hdeclared

theorem step {action : Action} (hr : execution.Reachable w)
    (hw : execution.step w action = some w') : Enrolled w' := by
  have ho : w'.report.outcome = .completed → w.report.outcome = .completed := by
    intro ho'
    by_contra ho
    exact ho ((step_latched hr ho hw).outcome ▸ ho')
  rcases World.step_move hw with hmove | hmove
  · by_cases hentering : w.ctl = .entering
    · cases hmove with
      | enter => exact enter w _
      | _ => simp_all
    by_cases hcreating : w.ctl = .creating
    · cases hmove with
      | create => exact create w _
      | _ => simp_all
    exact h.keep ⟨hentering, hcreating⟩ (hr.step hw) ho hmove.setup
      (hmove.actors_nil hcreating)
  · have hb := hmove.beside
    by_cases hc : w.ctl = .entering ∨ w.ctl = .creating
    · intro _
      rw [hb.ctl]
      exact hc.imp_right Or.inl
    · refine h.keep (not_or.mp hc) (hr.step hw) ho hb.setup fun hnil => ?_
      by_contra hne
      obtain ⟨a, ha⟩ := List.exists_mem_of_ne_nil _ hne
      obtain ⟨i, hi⟩ := List.getElem?_of_mem ha
      obtain ⟨a', ha', -⟩ := hb.actor i a hi
      simp [hnil] at ha'

end Step
end Enrolled
end Move

theorem enrolled {w : World} (h : execution.Reachable w) : Enrolled w :=
  h.invariant (fun _ ⟨_, _, _, _, hw⟩ => hw ▸ fun _ => Or.inl rfl)
    fun _ _ _ hr hs hw => hs.step hr hw

/-- What `advance` looks up is there: the actor of the interval that it may permit has a position,
and the interval in progress has its actor and, when it is joined, its handle. -/
structure World.LooksUp (w : World) : Prop where
  position : w.ctl = .idle → w.closed = false → w.report.outcome = .completed →
    ∀ requested, w.steps[w.next]? = some requested →
      ∃ i, (w.shared.actors.findIdx? fun a => a.declaration.actor = requested.actor) = some i ∧
        i < w.shared.actors.length
  actor : ∀ i, w.ctl.attends i = true → i < w.shared.actors.length
  handle : ∀ i, w.ctl = .joining i → i < w.threads.length

theorem World.looksUp {w : World} (h : execution.Reachable w) : w.LooksUp := by
  refine ⟨fun hctl hclosed ho requested hstep => ?_, fun i hi => ?_, fun i hi => ?_⟩
  · have hadmitted := admitted_of_working h (by simp [hctl]) (Or.inl ho)
    have hdeclared := hadmitted.declared requested (List.mem_of_getElem? hstep)
    have hmap := ((enrolled h ho).resolve_left (by simp [hctl])).resolve_left (by simp [hctl])
    obtain ⟨d, hd, hname⟩ := List.mem_map.mp (hmap ▸ hdeclared)
    obtain ⟨a, ha, rfl⟩ := List.mem_map.mp hd
    have hex : ∃ x ∈ w.shared.actors, x.declaration.actor = requested.actor := ⟨a, ha, hname⟩
    refine ⟨w.shared.actors.findIdx fun a => a.declaration.actor = requested.actor, ?_, ?_⟩
    · rw [List.findIdx?_eq_some_iff_findIdx_eq]
      exact ⟨List.findIdx_lt_length_of_exists (by simpa using hex), rfl⟩
    · exact List.findIdx_lt_length_of_exists (by simpa using hex)
  · have hin : ∀ {a}, w.shared.actors[i]? = some a → i < w.shared.actors.length :=
      fun ha => (List.getElem?_eq_some_iff.mp ha).1
    cases hctl : w.ctl <;> simp only [hctl, Ctl.attends, decide_eq_true_eq, reduceCtorEq] at hi
    case waiting j requested =>
      subst hi
      obtain ⟨-, a, ha, -⟩ := (licensed h).target i requested (Or.inl hctl)
      exact hin ha
    case arrived j requested =>
      subst hi
      obtain ⟨-, a, ha, -⟩ := (licensed h).target i requested (Or.inr hctl)
      exact hin ha
    case joining j =>
      subst hi
      obtain ⟨-, a, -, ha, -⟩ := (progress h).joining i hctl
      exact hin ha
  · obtain ⟨-, -, -, -, -, hlt⟩ := (progress h).joining i hi
    exact hlt

/-- Admission accepts exactly the complete interleavings, and an execution relies on it safely: the
lookups of `advance` succeed in every state that it reaches. -/
theorem admission_exact :
    (∀ (serde : Serde) (schedule : Schedule) (adapter : AdapterDeclaration)
        (policy : Policy), admitSchedule serde schedule adapter policy = .ok () ↔
      Admissible serde schedule adapter policy) ∧
    ∀ w : World, execution.Reachable w → w.LooksUp :=
  ⟨fun _ _ _ _ => admitSchedule_iff, fun _ => World.looksUp⟩

theorem admission_exact_duo : Admissible Exponent.signing Duo.schedule Duo.adapter .default ∧
    ∃ w, execution.Reachable w ∧ w.ctl.attends 1 = true ∧ 1 < w.shared.actors.length := by
  refine ⟨(admission_exact.1 _ _ _ _).mp Duo.admitted, ?_⟩
  obtain ⟨w, hw, hphases⟩ := Option.map_eq_some_iff.mp Duo.run_started
  have hr := Duo.reachable_creating.run hw
  simp only [Prod.mk.injEq] at hphases
  obtain ⟨hstopping, -, hrunning⟩ := hphases
  obtain ⟨requested, hctl, -⟩ := running_requested hr hstopping hrunning
  have hattends : w.ctl.attends 1 = true := by simp [hctl, Ctl.attends]
  exact ⟨w, hr, hattends, (admission_exact.2 w hr).actor 1 hattends⟩

end MirrorRust
