import MirrorRust.Execution.Plan

/-! The loop of `run_schedule`, which requests the intervals of a schedule one after the other. A
failure that is latched while it stands between two calls ends the loop without a cleanup. -/
namespace MirrorRust

/-! ### What an execution promises at rest -/

theorem World.entered_admits {w : World} (h : execution.Reachable w) :
    (w.ctl = .entering ∧ w.acquired = false) ∨ Refused w ∨
      admitSchedule w.setup.serde w.setup.schedule w.setup.adapter w.setup.policy = .ok () := by
  induction h with
  | init hw =>
    obtain ⟨_, _, _, _, rfl⟩ := hw
    exact Or.inl ⟨rfl, rfl⟩
  | @step u action v _ hw ih =>
    have hsetup := World.step_setup hw
    rcases ih with ⟨hctl, hacquired⟩ | hrefused | hadmits
    · rcases World.step_move hw with hw | hw
      · cases hw with
        | enter =>
          unfold World.enter
          split
          case h_1 kind message herror =>
            have hs : u.shared.Fails (u.fail kind message).shared :=
              SharedState.fails_fail (World.admission_error herror)
            exact Or.inr (Or.inl ⟨hs.outcome, rfl, hacquired, Or.inl rfl⟩)
          case h_2 hok =>
            unfold World.admission at hok
            split_ifs at hok
            exact Or.inr (Or.inr hok)
        | _ => simp_all
      · exact Or.inl ⟨hw.beside.ctl ▸ hctl, hw.beside.acquired ▸ hacquired⟩
    · rcases World.step_move hw with hw | hw
      · exact Or.inr (Or.inl (hrefused.controlMove hw))
      · have hb := hw.beside
        exact Or.inr (Or.inl ⟨hb.report.outcome hrefused.outcome, hb.closed ▸ hrefused.closed,
          hb.acquired ▸ hrefused.acquired, hb.ctl ▸ hrefused.ctl⟩)
    · exact Or.inr (Or.inr (hsetup ▸ hadmits))

theorem World.admits {w : World} (h : execution.Reachable w) (he : w.ctl ≠ .entering)
    (ho : w.report.outcome = .completed ∨ w.acquired = true) :
    admitSchedule w.setup.serde w.setup.schedule w.setup.adapter w.setup.policy = .ok () := by
  rcases World.entered_admits h with ⟨hctl, -⟩ | hrefused | hadmits
  · exact absurd hctl he
  · rcases ho with ho | ho
    · exact absurd ho hrefused.outcome
    · simp [hrefused.acquired] at ho
  · exact hadmits

theorem steps_ne_nil {setup : Setup}
    (h : admitSchedule setup.serde setup.schedule setup.adapter setup.policy = .ok ()) :
    setup.schedule.steps ≠ [] := by
  obtain ⟨d, hd⟩ := List.exists_mem_of_length_pos (admitSchedule_iff.mp h).actors.1
  exact List.ne_nil_of_mem ((admitSchedule_ok h).terminal d hd)

theorem next_le {w : World} (h : execution.Reachable w) (ho : w.report.outcome = .completed) :
    w.next ≤ w.steps.length := by
  have hr := ledger h ho
  rcases Nat.eq_zero_or_pos w.next with hzero | hpos
  · omega
  have hlt : 2 * w.next - 1 < w.report.events.length := by
    rw [hr.length]
    omega
  obtain ⟨r, hstep, -⟩ := hr.events _ _ (List.getElem?_eq_getElem hlt)
  have := (List.getElem?_eq_some_iff.mp hstep).1
  omega

/-- What the owner of an execution finds between two calls, unless a call has closed it or has
left it incomplete. -/
structure Rested (w : World) : Prop where
  outcome : w.report.outcome = .completed
  next : w.next < w.steps.length

/-- The controller stands between two calls, and no cleanup has been attempted. -/
structure World.Untouched (w : World) : Prop where
  ctl : w.ctl = .idle
  closed : w.closed = false
  attempts : w.report.cleanupAttempts = []

theorem World.callCleanup_untouched {w : World} {timeout : Duration}
    (hbudget : budget timeout = true) : ¬ (w.callCleanup timeout).Untouched := by
  intro hu
  rcases w.callCleanup_spec timeout with ⟨hclosed, heq⟩ | ⟨-, heq⟩ <;> rw [heq] at hu
  · rcases hclosed with hclosed | hclosed
    · simp [hbudget] at hclosed
    · exact absurd hu.closed (by simp [World.goto, hclosed])
  · cases hu.ctl

theorem ControlMove.rested {w w' : World} {action : Action} (hr : execution.Reachable w)
    (hw : ControlMove w action w') (hidle : w.Untouched → Rested w) (hu : w'.Untouched) :
    Rested w' := by
  have hbudget : w.ctl ≠ .entering → w.closed = false ∨ (w.ctl ≠ .idle ∧ w.ctl.released = false) →
      budget w.setup.policy.cleanupTimeout = true := fun he hi =>
    (admitted_of_working hr he (Or.inr (Or.inr hi))).cleanupBudget
  have hctl' := hu.ctl
  have hclosed' := hu.closed
  cases hw with
  | enter hctl =>
    unfold World.enter at hu
    split at hu
    · cases hu.closed
    · cases hu.ctl
  | @create result hctl =>
    cases result with
    | error e => cases hclosed'
    | panic => cases hclosed'
    | program workers =>
      simp only [World.create] at hu
      have hpolicy := hbudget (by simp [hctl]) (Or.inr ⟨by simp [hctl], by rw [hctl]; rfl⟩)
      rcases w.acquire_spec workers with ⟨s, -, -, heq⟩ | ⟨-, heq⟩ <;> rw [heq] at hu
      · exact absurd hu (World.callCleanup_untouched hpolicy)
      · have hrest := hu.ctl
        simp only [World.declare, World.spawnFrom, World.goto] at hrest
        split_ifs at hrest
  | @spawn i result hctl =>
    cases result with
    | error e => cases hctl'
    | ok thread =>
      simp only [World.spawn, World.spawnFrom, World.goto] at hctl'
      split_ifs at hctl'
  | startWait hctl =>
    rcases w.startWait_spec _ with ⟨-, heq⟩ | ⟨-, heq⟩ | ⟨s, -, heq⟩ | heq <;> rw [heq] at hctl'
    · cases hctl'
    · cases hctl'
    · cases hctl'
    · simp [hctl] at hctl'
  | observe hctl =>
    rw [World.observe] at hctl'
    split_ifs at hctl' <;> cases hctl'
  | observer => cases hctl'
  | judge => cases hctl'
  | @outcomeCheck caller _ hctl =>
    have hpolicy := hbudget (by simp [hctl]) (Or.inr ⟨by simp [hctl], by rw [hctl]; rfl⟩)
    rw [World.outcomeCheck] at hu ⊢
    split_ifs at hu ⊢ with ho hlast
    · exact absurd hu (World.callCleanup_untouched hpolicy)
    · cases hu.ctl
    · have ho := not_not.mp ho
      refine ⟨ho, ?_⟩
      show w.next < w.steps.length
      cases caller with
      | advance => exact lt_of_le_of_ne (next_le hr ho) fun hnext => hlast ⟨rfl, hnext⟩
      | start =>
        -- the first call of all has an interval before it
        have hadmits := World.admits hr (by simp [hctl]) (Or.inl ho)
        rw [next_of_early hr (by rw [hctl]; rfl)]
        exact List.length_pos_iff.mpr (steps_ne_nil hadmits)
  | wait hctl =>
    rcases w.wait_spec _ _ _ with ⟨-, heq⟩ | ⟨-, heq⟩ | ⟨s, -, heq⟩ | heq <;> rw [heq] at hctl'
    · cases hctl'
    · cases hctl'
    · cases hctl'
    · simp [hctl] at hctl'
  | arrival =>
    simp only [World.arrival, World.goto] at hctl'
    split_ifs at hctl'
  | join _ hw =>
    rcases World.join_spec hw with ⟨rfl, -⟩ | ⟨t, c, -, -, rfl | rfl, rfl⟩ <;> cases hctl'
  | joinFailed => cases hctl'
  | checkArrival =>
    rw [World.checkArrival] at hctl'
    split_ifs at hctl' <;> cases hctl'
  | complete hctl =>
    have hpolicy := hbudget (by simp [hctl]) (Or.inr ⟨by simp [hctl], by rw [hctl]; rfl⟩)
    exact absurd hu (World.callCleanup_untouched hpolicy)
  | clean => cases hctl'
  | drain hctl =>
    rw [World.drain] at hctl'
    split_ifs at hctl'
    · simp [hctl] at hctl'
    · cases hctl'
  | reap =>
    have hattempts := hu.attempts
    rw [World.reap] at hctl' hattempts
    split_ifs at hctl' hattempts
    · cases hctl'
    · simp [World.report, World.goto, SharedState.recordIncomplete] at hattempts
    · cases hctl'
    · cases hctl'
  | tear => cases hctl'
  | record => cases hclosed'
  | advance hctl =>
    rw [World.advance] at hu ⊢
    split_ifs at hu ⊢
    · exact hidle hu
    · have hrest := hu.ctl
      split at hrest <;> cases hrest
  | finish hctl =>
    rcases w.finish_spec with ⟨hclosed, heq⟩ | ⟨hclosed, s, -, heq⟩ <;> rw [heq] at hu
    · simp [hu.closed] at hclosed
    · exact absurd hu (World.callCleanup_untouched (hbudget (by simp [hctl]) (Or.inl hclosed)))
  | @cleanup timeout hctl =>
    rcases w.callCleanup_spec timeout with ⟨-, heq⟩ | ⟨-, heq⟩ <;> rw [heq] at hu ⊢
    · obtain ⟨houtcome, hnext⟩ := hidle ⟨hctl, hu.closed, hu.attempts⟩
      exact ⟨houtcome, hnext⟩
    · cases hu.ctl
  | foreignCall => exact hidle hu
  | drop => cases hctl'
  | dropJoin _ hw =>
    rcases World.dropJoin_spec hw with ⟨-, rfl⟩ | ⟨t, -, -, rfl⟩
    · simp only [World.goto] at hctl'
      split_ifs at hctl'
    · cases hctl'
  | dropTeardown => cases hctl'

/-! ### The loop -/

/-- Where the loop stands; the check of an interval and its request are two regions. -/
inductive Loop
  | checking
  | advancing (requested : Step)
  | returned
  deriving DecidableEq

/-- An execution and the loop that requests its intervals. -/
structure Drive where
  world : World
  rest : List Step
  loop : Loop

inductive DriveAction
  | act (action : Action)
  | check
  | advance (expired : Bool)

def DriveAction.arrives : DriveAction → Bool
  | .act (.arrive ..) => true
  | _ => false

def Action.isCall : Action → Bool
  | .advance .. | .finish | .cleanup _ | .drop | .foreignCall => true
  | _ => false

namespace Drive

def new (setup : Setup) (cancelled : Bool) (generation : ℕ) (executionId : String) : Drive :=
  { world := .new setup cancelled generation executionId
    rest := setup.schedule.steps
    loop := .checking }

def check (d : Drive) : Drive :=
  match d.rest with
  | [] => { d with loop := .returned }
  | requested :: rest =>
    if d.world.report.outcome ≠ .completed ∨ d.world.closed then { d with loop := .returned }
    else { d with rest := rest, loop := .advancing requested }

def step (d : Drive) : DriveAction → Option Drive
  | .act action =>
    if d.loop = .returned ∨ action.isCall then none
    else (d.world.step action).map fun w => { d with world := w }
  | .check => if d.loop = .checking ∧ d.world.ctl = .idle then some d.check else none
  | .advance expired =>
    match d.loop with
    | .advancing requested =>
      (d.world.step (.advance requested expired)).map fun w =>
        { d with world := w, loop := .checking }
    | _ => none

end Drive

/-- All runs of `run_schedule` up to its return. -/
def runSchedule : TransitionSystem Drive DriveAction where
  init d := ∃ setup cancelled generation executionId,
    d = Drive.new setup cancelled generation executionId
  step := Drive.step

namespace Drive

/-- A checkpoint is called while the loop stands between two calls. -/
def Disturbs (d : Drive) (action : DriveAction) : Prop :=
  action.arrives = true ∧ d.world.ctl = .idle ∧ d.world.report.outcome = .completed

instance (d : Drive) (action : DriveAction) : Decidable (d.Disturbs action) :=
  inferInstanceAs (Decidable (_ ∧ _ ∧ _))

end Drive

/-- The runs in which nobody calls a checkpoint between two calls. -/
def undisturbed : TransitionSystem Drive DriveAction :=
  runSchedule.restrict fun d action => ¬ d.Disturbs action

section Drive
variable {d d' : Drive}

theorem runSchedule_projects : runSchedule.Projects execution Drive.world where
  init := by
    rintro _ ⟨setup, cancelled, generation, executionId, rfl⟩
    exact ⟨setup, cancelled, generation, executionId, rfl⟩
  step d action d' h := by
    cases action with
    | act action =>
      simp only [runSchedule, Drive.step] at h
      split_ifs at h
      obtain ⟨w, hstep, rfl⟩ := Option.map_eq_some_iff.mp h
      exact Or.inr ⟨action, hstep⟩
    | check =>
      simp only [runSchedule, Drive.step] at h
      split_ifs at h
      cases h
      refine Or.inl ?_
      unfold Drive.check
      split
      · rfl
      · split_ifs <;> rfl
    | advance expired =>
      simp only [runSchedule, Drive.step] at h
      split at h
      case h_1 requested _ =>
        obtain ⟨w, hstep, rfl⟩ := Option.map_eq_some_iff.mp h
        exact Or.inr ⟨.advance requested expired, hstep⟩
      case h_2 => cases h

theorem idle_beside {w w' : World} {action : Action} (hctl : w.ctl = .idle)
    (hcall : action.isCall = false) (hw : w.step action = some w') :
    WorkerMove w action w' := by
  rcases World.step_move hw with hw | hw
  · cases hw <;> simp_all [Action.isCall]
  · exact hw

theorem Beside.untouched {w w' : World} (hb : Beside w w') : w'.Untouched ↔ w.Untouched := by
  constructor
  · rintro ⟨hctl, hclosed, hattempts⟩
    exact ⟨hb.ctl ▸ hctl, hb.closed ▸ hclosed, hb.report.cleanupAttempts ▸ hattempts⟩
  · rintro ⟨hctl, hclosed, hattempts⟩
    exact ⟨hb.ctl.trans hctl, hb.closed.trans hclosed, hb.report.cleanupAttempts.trans hattempts⟩

theorem World.Untouched.live {w : World} (h : w.Untouched) (hr : execution.Reachable w)
    (ho : w.report.outcome = .completed) : w.shared.stopping = false := by
  by_contra hstop
  exact Ledger.failed_of_stopping hr (by simpa using hstop) (by rw [h.ctl]; rfl) (Or.inr h.closed) ho

theorem untouched_of_active {w : World} (hr : execution.Reachable w) (hctl : w.ctl = .idle)
    (ho : w.report.outcome = .completed) {t : Thread} (ht : t ∈ w.threads)
    (hactive : t.isActive = true) : w.Untouched := by
  have hclosed : w.closed = false := by
    by_contra hclosed
    have hhandle := (custody hr).joined (Or.inl (by simpa using hclosed)) t ht
    have hended := (coordinated hr).ended_of_joined ht hhandle
    cases hpc : t.pc <;> simp_all [Thread.isActive, Pc.active, Thread.isFinished]
  refine ⟨hctl, hclosed, ?_⟩
  by_contra hattempts
  have hcompleted := (custody hr).ended (Or.inr hattempts) ho
  rcases ((completion hr).completed hcompleted).2.2 with hw | ⟨-, hw⟩
  · simp [hctl, Ctl.wrapping] at hw
  · simp [hclosed] at hw

/-- A checkpoint that is called between two calls is called by another thread than its worker, which
fails the execution before any cleanup. -/
theorem arrive_disturbs {w w' : World} (hr : execution.Reachable w) (hctl : w.ctl = .idle)
    (ho : w.report.outcome = .completed) {thread : ThreadId} {i : ℕ} {checkpoint : String}
    (hw : w.step (.arrive thread i checkpoint) = some w') :
    w'.Untouched ∧ w'.report.outcome ≠ .completed := by
  have hmove := idle_beside hctl rfl hw
  have hb := hmove.beside
  cases hmove with
  | @arrive _ _ _ t _ ht _ hw =>
    unfold World.arrive at hw
    split_ifs at hw with hcaller
    simp only [not_or, Bool.not_eq_true', Bool.not_eq_false] at hcaller
    have hu := untouched_of_active hr hctl ho (List.mem_of_getElem? ht) hcaller.2
    refine ⟨hb.untouched.mpr hu, ?_⟩
    have hc := coordinated hr
    have hlt : i < w.shared.actors.length :=
      (List.getElem?_eq_some_iff.mp ht).1.trans_le hc.spawned
    have ha := List.getElem?_eq_getElem hlt
    have hseat := (hc.live (hu.live hr ho)).seat i _ t ha ht
    have hnot : t.pc ≠ .running := fun hpc => by
      obtain ⟨requested, hwaiting⟩ := hseat.running (hseat.entered (Or.inl hpc))
      simp [hctl] at hwaiting
    have hstarted : t.pc ≠ .starting := fun hpc => by
      simp [Thread.isActive, Pc.active, hpc] at hcaller
    have hforeign : (w.shared.actors[i]).thread ≠ some thread := by
      rw [(hc.table i _ t ha ht).thread hstarted]
      exact fun h => hcaller.1 ⟨(Option.some.inj h).symm, hnot⟩
    obtain ⟨s, hs, heq⟩ :=
      SharedState.arrive_foreign w.setup.adapter.checkpoints checkpoint ha hforeign
    rw [heq] at hw
    cases hw
    exact hs.outcome

theorem arrives_of_latch {w w' : World} (hr : execution.Reachable w) (hu : w.Untouched)
    (ho : w.report.outcome = .completed) {action : Action} (hw : WorkerMove w action w')
    (hfailed : w'.report.outcome ≠ .completed) : (DriveAction.act action).arrives = true := by
  cases hw with
  | cancel | startWorker | returns | terminate => exact absurd ho hfailed
  | wake _ _ hw =>
    unfold World.wake at hw
    split_ifs at hw <;> cases hw <;> exact absurd ho hfailed
  | arrive => rfl
  | @settle i t _ ht _ hw =>
    unfold World.settle at hw
    split at hw <;> cases hw
    rename_i result hpc
    have hc := coordinated hr
    have hlt : i < w.shared.actors.length :=
      (List.getElem?_eq_some_iff.mp ht).1.trans_le hc.spawned
    have hseat := (hc.live (hu.live hr ho)).seat i _ t (List.getElem?_eq_getElem hlt) ht
    obtain ⟨requested, hwaiting⟩ := hseat.running (hseat.entered (Or.inr ⟨result, hpc⟩))
    simp [hu.ctl] at hwaiting

/-- What holds of an undisturbed run. -/
structure Orderly (d : Drive) : Prop where
  rested : d.world.Untouched → Rested d.world
  checking : d.loop = .checking → d.world.report.outcome = .completed →
    d.rest = d.world.steps.drop (d.world.next + if d.world.ctl.pending = 0 then 0 else 1)
  advancing : ∀ requested, d.loop = .advancing requested → d.world.ctl = .idle ∧
    (d.world.report.outcome = .completed →
      d.world.closed = false ∧ d.rest = d.world.steps.drop (d.world.next + 1))
  returned : d.loop = .returned → d.world.ctl = .idle ∧ ¬ d.world.Untouched

theorem Orderly.beside {action : Action} {w' : World} (h : Orderly d)
    (hr : execution.Reachable d.world) (hquiet : ¬ d.Disturbs (.act action))
    (hloop : d.loop ≠ .returned) (hw : WorkerMove d.world action w') :
    Orderly { d with world := w' } := by
  have hb := hw.beside
  have hsteps : w'.steps = d.world.steps := by rw [World.steps, hb.setup]; rfl
  have hcompleted : w'.report.outcome = .completed → d.world.report.outcome = .completed :=
    fun ho => hb.report.completed ho ▸ ho
  refine ⟨fun hu => ?_, fun hc ho => ?_, fun requested hc => ?_, fun hc => absurd hc hloop⟩
  · have hu := hb.untouched.mp hu
    obtain ⟨ho, hnext⟩ := h.rested hu
    refine ⟨?_, by rw [hb.next, hsteps]; exact hnext⟩
    by_contra hfailed
    exact hquiet ⟨arrives_of_latch hr hu ho hw hfailed, hu.ctl, ho⟩
  · rw [hsteps, hb.next, hb.ctl]
    exact h.checking hc (hcompleted ho)
  · obtain ⟨hctl, hopen⟩ := h.advancing requested hc
    refine ⟨hb.ctl.trans hctl, fun ho => ?_⟩
    rw [hsteps, hb.next, hb.closed]
    exact hopen (hcompleted ho)

theorem Orderly.act {action : Action} {w' : World} (h : Orderly d)
    (hr : execution.Reachable d.world) (hcall : action.isCall = false)
    (hquiet : ¬ d.Disturbs (.act action)) (hloop : d.loop ≠ .returned)
    (hw : d.world.step action = some w') : Orderly { d with world := w' } := by
  by_cases hctl : d.world.ctl = .idle
  · exact h.beside hr hquiet hloop (idle_beside hctl hcall hw)
  rcases World.step_move hw with hmove | hmove
  · have hsteps : w'.steps = d.world.steps := by rw [World.steps, hmove.setup]; rfl
    refine ⟨hmove.rested hr h.rested, fun hc ho => ?_, fun requested hc => ?_,
      fun hc => absurd hc hloop⟩
    · have ho' : d.world.report.outcome = .completed := by
        by_contra hne
        exact hne ((step_latched hr hne hw).outcome ▸ ho)
      have hbefore := h.checking hc ho'
      rw [hsteps, hbefore]
      cases Paced.controlMove hr hmove with
      | keeps hpace | declares _ hpace | moves _ hpace =>
        simp only [World.pace, Pace.mk.injEq] at hpace
        rw [hpace.2.2.1, hpace.2.2.2.1]
      | halts _ hpace =>
        have hpace := hpace ho
        simp only [World.pace, Pace.mk.injEq] at hpace
        rw [hpace.2.2.1, hpace.2.2.2.1]
      | permits _ _ _ hidle => exact absurd hidle hctl
      | arrives _ _ _ harrived _ hpace =>
        simp only [World.pace, Pace.mk.injEq] at hpace
        rw [hpace.2.2.1, hpace.2.2.2.1, harrived]
        rfl
      | ends hchecked hpace =>
        simp only [World.pace, Pace.mk.injEq] at hpace
        rw [hpace.2.2.1, hpace.2.2.2.1, hchecked]
        rfl
    · exact absurd (h.advancing requested hc).1 hctl
  · exact h.beside hr hquiet hloop hmove

theorem Orderly.check (h : Orderly d) (hloop : d.loop = .checking) (hctl : d.world.ctl = .idle) :
    Orderly d.check := by
  have hrest : d.world.report.outcome = .completed → d.rest = d.world.steps.drop d.world.next := by
    intro ho
    simpa [hctl, Ctl.pending] using h.checking hloop ho
  unfold Drive.check
  split
  case h_1 hnil =>
    refine ⟨h.rested, fun hc => (by cases hc), fun _ hc => (by cases hc), fun _ => ⟨hctl, fun hu => ?_⟩⟩
    obtain ⟨ho, hnext⟩ := h.rested hu
    have hdrop := List.drop_eq_nil_iff.mp ((hrest ho).symm.trans hnil)
    omega
  case h_2 requested rest hcons =>
    split_ifs with hover
    · refine ⟨h.rested, fun hc => (by cases hc), fun _ hc => (by cases hc),
        fun _ => ⟨hctl, fun hu => ?_⟩⟩
      exact hover.elim (fun hne => hne (h.rested hu).outcome) fun hc => absurd hu.closed (by simp [hc])
    · simp only [not_or, not_not, Bool.not_eq_true] at hover
      refine ⟨h.rested, fun hc => (by cases hc), fun _ _ => ⟨hctl, fun ho => ⟨hover.2, ?_⟩⟩,
        fun hc => (by cases hc)⟩
      rw [← List.tail_drop, ← hrest ho, hcons, List.tail_cons]

theorem Orderly.advance {requested : Step} {expired : Bool} {w' : World} (h : Orderly d)
    (hr : execution.Reachable d.world) (hloop : d.loop = .advancing requested)
    (hw : d.world.step (.advance requested expired) = some w') :
    Orderly { d with world := w', loop := .checking } := by
  obtain ⟨hctl, hopen⟩ := h.advancing requested hloop
  have hmove : ControlMove d.world (.advance requested expired) w' := by
    obtain ⟨-, heq⟩ := Option.ite_none_right_eq_some.mp hw
    cases heq
    exact .advance hctl
  refine ⟨hmove.rested hr h.rested, fun _ ho => ?_, fun _ hc => (by cases hc),
    fun hc => (by cases hc)⟩
  have ho' : d.world.report.outcome = .completed := by
    by_contra hne
    exact hne ((hmove.latched hr hne).outcome ▸ ho)
  obtain ⟨hclosed, hrest⟩ := hopen ho'
  obtain ⟨-, heq⟩ := Option.ite_none_right_eq_some.mp hw
  obtain rfl : d.world.advance requested expired = w' := Option.some.inj heq
  rw [hrest]
  rw [World.advance, if_neg (by simp [hclosed, ho'])] at ho ⊢
  rcases d.world.shared.permit_spec d.world.cancelled expired d.world.steps d.world.next requested with
    ⟨s, hs, heq⟩ | ⟨i, a, -, -, -, -, heq⟩ <;> simp only [heq] at ho ⊢
  · exact absurd ho hs.outcome
  · by_cases hstop : d.world.shared.stopping = true
    · exact absurd ho' (Ledger.failed_of_stopping hr hstop (by rw [hctl]; rfl) (Or.inr hclosed))
    · simp only [if_neg hstop]
      rfl

theorem orderly (h : undisturbed.Reachable d) : Orderly d := by
  refine h.invariant (fun d hd => ?_) fun d action d' hr hs hw => ?_
  · obtain ⟨_, _, _, _, rfl⟩ := hd
    refine ⟨fun hu => (by cases hu.ctl), fun _ _ => rfl, fun _ hc => (by cases hc),
      fun hc => (by cases hc)⟩
  have hreachable := runSchedule_projects.reachable hr.of_restrict
  obtain ⟨hquiet, hw⟩ := TransitionSystem.restrict_step.mp hw
  cases action with
  | act action =>
    simp only [runSchedule, Drive.step] at hw
    split_ifs at hw with hcall
    obtain ⟨w, hstep, rfl⟩ := Option.map_eq_some_iff.mp hw
    simp only [not_or, Bool.not_eq_true] at hcall
    exact hs.act hreachable hcall.2 hquiet hcall.1 hstep
  | check =>
    obtain ⟨⟨hloop, hctl⟩, hw⟩ := Option.ite_none_right_eq_some.mp hw
    cases hw
    exact hs.check hloop hctl
  | advance expired =>
    simp only [runSchedule, Drive.step] at hw
    split at hw
    case h_1 requested hloop =>
      obtain ⟨w, hstep, rfl⟩ := Option.map_eq_some_iff.mp hw
      exact hs.advance hreachable hloop hstep
    case h_2 => cases hw

/-! ### A disturbed run -/

/-- An execution that has failed at rest stays as it is. -/
structure Abandoned (d : Drive) : Prop where
  untouched : d.world.Untouched
  failed : d.world.report.outcome ≠ .completed

theorem Abandoned.step {action : DriveAction} (h : Abandoned d)
    (hw : runSchedule.step d action = some d') : Abandoned d' := by
  cases action with
  | act action =>
    simp only [runSchedule, Drive.step] at hw
    split_ifs at hw with hcall
    obtain ⟨w, hstep, rfl⟩ := Option.map_eq_some_iff.mp hw
    simp only [not_or, Bool.not_eq_true] at hcall
    have hb := (idle_beside h.untouched.ctl hcall.2 hstep).beside
    exact ⟨hb.untouched.mpr h.untouched, hb.report.outcome h.failed⟩
  | check =>
    obtain ⟨-, hw⟩ := Option.ite_none_right_eq_some.mp hw
    cases hw
    unfold Drive.check
    split
    · exact ⟨h.untouched, h.failed⟩
    · split_ifs <;> exact ⟨h.untouched, h.failed⟩
  | advance expired =>
    simp only [runSchedule, Drive.step] at hw
    split at hw
    case h_1 requested hloop =>
      obtain ⟨w, hstep, rfl⟩ := Option.map_eq_some_iff.mp hw
      obtain ⟨-, heq⟩ := Option.ite_none_right_eq_some.mp hstep
      obtain rfl : d.world.advance requested expired = w := Option.some.inj heq
      rw [World.advance, if_pos (Or.inr h.failed)]
      exact ⟨h.untouched, h.failed⟩
    case h_2 => cases hw

theorem Abandoned.run {actions : List DriveAction} (h : Abandoned d)
    (hrun : runSchedule.run d actions = some d') : Abandoned d' := by
  induction actions generalizing d with
  | nil =>
    cases hrun
    exact h
  | cons action actions ih =>
    obtain ⟨u, hu, hrun⟩ := TransitionSystem.run_cons.mp hrun
    exact ih (h.step hu) hrun

end Drive

/-- When `run_schedule` returns after a program was acquired, the program has been torn down, or the
report names the workers that are left, exactly in the runs in which nobody has called a checkpoint
between two calls; otherwise it returns a failed execution without an attempt to clean up. -/
theorem run_schedule_cleanup {d d' : Drive} (hinit : runSchedule.init d) {actions : List DriveAction}
    (hrun : runSchedule.run d actions = some d') (hreturned : d'.loop = .returned)
    (hacquired : d'.world.acquired = true) :
    (undisturbed.run d actions = some d' ↔
      (d'.world.closed = true ∧
        (d'.world.report.cleanup = .confirmed ∨ d'.world.report.cleanup = .teardownFailed)) ∨
      (d'.world.report.cleanup = .incomplete ∧ d'.world.remaining ≠ [] ∧
        d'.world.report.remainingActors = d'.world.remaining)) ∧
    (undisturbed.run d actions ≠ some d' →
      d'.world.report.cleanup = .notStarted ∧ d'.world.report.outcome ≠ .completed) := by
  have hr := runSchedule_projects.reachable (TransitionSystem.Reachable.run (.init hinit) hrun)
  have hcustody := custody hr
  have hmissed : undisturbed.run d actions ≠ some d' →
      d'.world.report.cleanup = .notStarted ∧ d'.world.report.outcome ≠ .completed := by
    intro hmissed
    rcases TransitionSystem.restrict_run_or (P := fun d action => ¬ Drive.Disturbs d action) hrun with
      hrun | ⟨before, action, after, u, v, -, hbefore, hdisturbs, hv, hafter⟩
    · exact absurd hrun hmissed
    obtain ⟨harrives, hctl, ho⟩ := not_not.mp hdisturbs
    have hu : execution.Reachable u.world := runSchedule_projects.reachable
      (TransitionSystem.Reachable.run (.init (T := undisturbed) hinit) hbefore).of_restrict
    have habandoned : Abandoned v := by
      cases action with
      | act action =>
        cases action with
        | arrive thread i checkpoint =>
          simp only [runSchedule, Drive.step] at hv
          split_ifs at hv
          obtain ⟨w, hstep, rfl⟩ := Option.map_eq_some_iff.mp hv
          obtain ⟨huntouched, hfailed⟩ := arrive_disturbs hu hctl ho hstep
          exact ⟨huntouched, hfailed⟩
        | _ => cases harrives
      | check => cases harrives
      | advance expired => cases harrives
    have hd := habandoned.run hafter
    exact ⟨hcustody.fresh hd.untouched.attempts, hd.failed⟩
  refine ⟨⟨fun horderly => ?_, fun hcleanup => ?_⟩, hmissed⟩
  · obtain ⟨hctl, huntouched⟩ := (orderly (TransitionSystem.Reachable.run
      (.init (T := undisturbed) hinit) horderly)).returned hreturned
    by_cases hclosed : d'.world.closed = true
    · obtain ⟨result, -, hsettled⟩ := hcustody.settled hclosed hacquired
      refine Or.inl ⟨hclosed, ?_⟩
      cases result with
      | ok u => exact Or.inl hsettled
      | error e => exact Or.inr hsettled
      | panic => exact Or.inr hsettled
    · have hopen : d'.world.closed = false := by simpa using hclosed
      exact Or.inr (hcustody.remaining hctl hopen fun hattempts =>
        huntouched ⟨hctl, hopen, hattempts⟩)
  · by_contra hdisturbed
    rw [(hmissed hdisturbed).1] at hcleanup
    simp at hcleanup

namespace Solo

def driven (actions : List Action) : List DriveAction :=
  actions.flatMap fun action =>
    match action with
    | .advance _ expired => [.check, .advance expired]
    | action => [.act action]

/-- Another thread uses the checkpoint of the worker that waits for its second interval. -/
def disturbed : List DriveAction :=
  driven (started ++ finished.take 9) ++ [.act (.arrive 9 0 "read"), .check]

def creating : Drive :=
  { world := world.goto .creating, rest := schedule.steps, loop := .checking }

theorem run_disturbed : ((runSchedule.run creating disturbed).map fun d =>
    (d.loop, d.world.acquired)) = some (.returned, true) := by
  decide +kernel

theorem undisturbed_none : (undisturbed.run creating disturbed).isNone = true := by
  decide +kernel

end Solo

theorem run_schedule_cleanup_solo : ∃ d, runSchedule.run (.new Solo.setup false 1
      "0123456789abcdef0123456789abcdef") (.act (.enter false) :: Solo.disturbed) = some d ∧
    d.loop = .returned ∧ d.world.acquired = true ∧ d.world.report.cleanup = .notStarted := by
  obtain ⟨d, hd, hreturned⟩ := Option.map_eq_some_iff.mp Solo.run_disturbed
  obtain ⟨hloop, hacquired⟩ := Prod.mk.injEq .. ▸ hreturned
  have hstep : runSchedule.step (.new Solo.setup false 1 "0123456789abcdef0123456789abcdef")
      (.act (.enter false)) = some Solo.creating :=
    congrArg (Option.map fun w => ({ Solo.creating with world := w } : Drive)) Solo.step_enter
  have hrun := TransitionSystem.run_cons.mpr ⟨_, hstep, hd⟩
  refine ⟨d, hrun, hloop, hacquired, ?_⟩
  refine ((run_schedule_cleanup ⟨_, _, _, _, rfl⟩ hrun hloop hacquired).2 fun hundisturbed => ?_).1
  obtain ⟨u, hu, hrest⟩ := TransitionSystem.run_cons.mp hundisturbed
  obtain rfl : u = Solo.creating :=
    Option.some.inj ((TransitionSystem.restrict_step.mp hu).2.symm.trans hstep)
  have hnone := Solo.undisturbed_none
  rw [hrest] at hnone
  cases hnone

end MirrorRust
