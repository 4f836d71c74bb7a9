import MirrorRust.Binding.Ledger

/-! What one step of a session can do to its books. -/
namespace MirrorRust

/-- A step of a session leaves the ledger alone, or it is one of the few that write to it. -/
inductive SessionMove (debug : ThreadId → String) (b : Binding) (action : SessionAction)
    (b' : Binding) : Prop
  | stays (cancel : Bool) (current : Option World)
      (hgoes : Option.Rel World.Goes b.session.execution current)
      (hsession : b'.session = { b.session with cancel := cancel, execution := current })
      (hpast : b'.past = b.past)
  | disposes (current : Option World) (hopen : b.session.disposed = false)
      (hgoes : Option.Rel World.Goes b.session.execution current)
      (hsession : b'.session = { b.session with
        execution := current
        disposed := true
        disposals := b.session.disposals + 1 })
      (hpast : b'.past = b.past)
  | retains (w : World) (hw : b.session.execution = some w)
      (hcall : b.call = some (.finishing none))
      (hfailed : w.report.passed = false ∨ (b.session.retain debug).receiptComplete = false)
      (hsession : b'.session = b.session.retain debug) (hpast : b'.past = b.past)
  | settles (w : World) (refused : Option String) (hw : b.session.execution = some w)
      (hcall : b.call = some (.disposing refused))
      (hsession : b'.session = b.session.settle debug w refused) (hpast : b'.past = b.past)
  | replaces (w : World) (generation : ℕ) (executionId : String)
      (haction : action = .resume generation executionId) (hw : b.session.execution = some w)
      (hcall : b.call = some (.retrying none)) (hcleanup : w.report.cleanup = .confirmed)
      (hsession : b'.session = b.session.replace debug w) (hpast : b'.past = b.past)
  | starts (generation : ℕ) (executionId : String) (hw : b.session.execution = none)
      (hopen : b.session.disposed = false) (hbound : b.session.initializations < 64)
      (hsession : b'.session = b.session.start generation executionId) (hpast : b'.past = b.past)
      (hstarting : b'.call = some .starting)
  | restarts (w : World) (generation : ℕ) (executionId : String)
      (hw : b.session.execution = some w) (hcall : b.call = some (.finishing none))
      (hpassed : w.report.passed = true)
      (hcomplete : (b.session.retain debug).receiptComplete = true)
      (hsession : b'.session = (b.session.retain debug).start generation executionId)
      (hpast : b'.past = b.past ++ [w]) (hstarting : b'.call = some .starting)

theorem goes_refl (current : Option World) : Option.Rel World.Goes current current := by
  cases current with
  | none => exact .none
  | some w => exact .some (Or.inl rfl)

namespace SessionMove
variable {debug : ThreadId → String} {b : Binding} {action : SessionAction} {w w' : World}

/-- Nothing but the execution changes. -/
theorem goes (hw : b.session.execution = some w) (hgoes : w.Goes w') (call : Option SessionCall) :
    SessionMove debug b action { b.setWorld w' with call := call } :=
  .stays b.session.cancel (some w') (hw ▸ .some hgoes) rfl rfl

theorem returns (b : Binding) (result : Except BindingError Unit) :
    SessionMove debug b action (b.returns result) :=
  .stays b.session.cancel b.session.execution (goes_refl _) rfl rfl

theorem initializes (hidle : ∀ w, b.session.execution = some w → w.ctl = .idle) (owner : Bool)
    (generation : ℕ) (executionId : String) :
    SessionMove debug b action (b.initializeExecution owner generation executionId) := by
  rw [Binding.initializeExecution]
  split_ifs with hguard
  · exact .returns b _
  obtain ⟨hopen, hbound⟩ := not_or.mp hguard
  split
  case h_1 hw =>
    exact .starts generation executionId hw (by simpa using hopen) (not_le.mp hbound) rfl rfl rfl
  case h_2 w hw => exact .goes hw (World.finishFor_goes (hidle w hw) owner) _

theorem advance (hidle : ∀ w, b.session.execution = some w → w.ctl = .idle) (owner : Bool)
    (requested : Step) (expired : Bool) :
    SessionMove debug b action (b.advance owner requested expired) := by
  by_cases hdisposed : b.session.disposed = true
  · rw [Binding.advance, if_pos hdisposed]
    exact .returns b _
  rw [Binding.advance, if_neg hdisposed]
  split
  case h_1 => exact .returns b _
  case h_2 w hw =>
    split_ifs
    · exact .returns b _
    · exact .returns b _
    · exact .goes hw (Or.inr ⟨.advance requested expired, if_pos (hidle w hw)⟩) _

theorem dispose (hidle : ∀ w, b.session.execution = some w → w.ctl = .idle) (owner : Bool) :
    SessionMove debug b action (b.dispose owner) := by
  rw [Binding.dispose]
  split_ifs with hdisposed
  · exact .returns b _
  have hopen : b.session.disposed = false := by simpa using hdisposed
  simp only
  split
  case h_1 => exact .disposes b.session.execution hopen (goes_refl _) rfl rfl
  case h_2 w hw =>
    have hgoes : w.Goes (if w.report.scheduleCompleted then w.finishFor owner
        else w.cleanupFor owner).1 := by
      split_ifs
      · exact World.finishFor_goes (hidle w hw) owner
      · exact World.cleanupFor_goes (hidle w hw) owner
    exact .disposes _ hopen (hw ▸ .some hgoes) rfl rfl

theorem retryCleanup (hidle : ∀ w, b.session.execution = some w → w.ctl = .idle) (owner : Bool) :
    SessionMove debug b action (b.retryCleanup owner) := by
  rw [Binding.retryCleanup]
  split_ifs
  · exact .returns b _
  split
  case h_1 => exact .returns b _
  case h_2 w hw => exact .goes hw (World.cleanupFor_goes (hidle w hw) owner) _

theorem resume {call : SessionCall} (hcall : b.call = some call)
    (hw : b.session.execution = some w) (generation : ℕ) (executionId : String) :
    SessionMove debug b (.resume generation executionId)
      (b.resume debug call w generation executionId) := by
  cases call with
  | finishing refused =>
    cases refused with
    | some e => exact .returns b _
    | none =>
      rw [Binding.resume]
      simp only
      split_ifs with hfailed
      · exact .retains w hw hcall (by simpa using hfailed) rfl rfl
      · simp only [not_or, Bool.not_eq_true', Bool.not_eq_false] at hfailed
        exact .restarts w generation executionId hw hcall hfailed.1 hfailed.2 rfl rfl rfl
  | starting | advancing =>
    rw [Binding.resume, Binding.report]
    split_ifs <;> exact .returns b _
  | disposing refused => exact .settles w refused hw hcall rfl rfl
  | retrying refused =>
    cases refused with
    | some e => exact .returns b _
    | none =>
      rw [Binding.resume]
      split_ifs with hcleanup
      · exact .returns b _
      · exact .replaces w generation executionId rfl hw hcall (not_not.mp hcleanup) rfl rfl

end SessionMove

theorem Sound.move {debug : ThreadId → String} {b b' : Binding} (h : Sound debug b)
    {action : SessionAction} (hstep : b.step debug action = some b') : SessionMove debug b action b' := by
  cases action with
  | act action =>
    simp only [Binding.step, Option.ite_none_left_eq_some, not_or, Option.bind_eq_some_iff,
      Option.map_eq_some_iff] at hstep
    obtain ⟨-, w, hw, w', hw', rfl⟩ := hstep
    exact .goes hw (Or.inr ⟨action, hw'⟩) b.call
  | cancel =>
    cases hstep
    refine .stays true _ ?_ rfl rfl
    cases b.session.execution with
    | none => exact .none
    | some w => exact .some (Or.inr ⟨.cancel, rfl⟩)
  | initializes owner generation executionId =>
    simp only [Binding.step, Option.ite_none_right_eq_some, Option.isNone_iff_eq_none,
      Option.some.injEq] at hstep
    obtain ⟨hnone, rfl⟩ := hstep
    exact .initializes (h.attended.resting hnone) owner generation executionId
  | advance owner requested expired =>
    simp only [Binding.step, Option.ite_none_right_eq_some, Option.isNone_iff_eq_none,
      Option.some.injEq] at hstep
    obtain ⟨hnone, rfl⟩ := hstep
    exact .advance (h.attended.resting hnone) owner requested expired
  | dispose owner =>
    simp only [Binding.step, Option.ite_none_right_eq_some, Option.isNone_iff_eq_none,
      Option.some.injEq] at hstep
    obtain ⟨hnone, rfl⟩ := hstep
    exact .dispose (h.attended.resting hnone) owner
  | retryCleanup owner =>
    simp only [Binding.step, Option.ite_none_right_eq_some, Option.isNone_iff_eq_none,
      Option.some.injEq] at hstep
    obtain ⟨hnone, rfl⟩ := hstep
    exact .retryCleanup (h.attended.resting hnone) owner
  | resume generation executionId =>
    simp only [Binding.step] at hstep
    split at hstep
    case h_1 call w hcall hw =>
      obtain ⟨-, rfl⟩ := by simpa using hstep
      exact .resume hcall hw generation executionId
    case h_2 => cases hstep

theorem SessionMove.setup {debug : ThreadId → String} {b b' : Binding} {action : SessionAction}
    (h : SessionMove debug b action b') : b'.session.setup = b.session.setup := by
  cases h with
  | stays _ _ _ hsession | disposes _ _ _ hsession => rw [hsession]
  | starts _ _ _ _ _ hsession =>
    rw [hsession]
    rfl
  | retains _ _ _ _ hsession => rw [hsession, BindingSession.retain_setup]
  | settles w refused _ _ hsession =>
    obtain ⟨disposal, heq, -⟩ := BindingSession.settle_spec debug b.session w refused
    rw [hsession, heq]
    exact BindingSession.retain_setup debug b.session
  | replaces _ _ _ _ _ _ _ hsession => rw [hsession, BindingSession.replace_setup]
  | restarts _ _ _ _ _ _ _ hsession =>
    rw [hsession]
    exact BindingSession.retain_setup debug b.session

theorem run_setup {debug : ThreadId → String} {b b' : Binding} (hr : (bindings debug).Reachable b)
    {actions : List SessionAction} (hrun : (bindings debug).run b actions = some b') :
    b'.session.setup = b.session.setup :=
  hr.run_induction (R := fun b b' => b'.session.setup = b.session.setup) hrun (fun _ => rfl)
    fun _ _ _ _ h hu hstep => ((sound hu).move hstep).setup.trans h

/-! ### The call in progress -/

/-- What the call in progress is after a step, and what the session has checked when it begins. -/
inductive CallMove (b : Binding) : Option SessionCall → Prop
  | same {call : Option SessionCall} (hcall : b.call = call) : CallMove b call
  | ends : CallMove b none
  | starting : CallMove b (some .starting)
  | advancing : CallMove b (some .advancing)
  | finishing (refused : Option String) (hbound : b.session.initializations < 64) :
      CallMove b (some (.finishing refused))
  | disposing (refused : Option String) (hopen : b.session.disposed = false) :
      CallMove b (some (.disposing refused))
  | retrying (refused : Option String) : CallMove b (some (.retrying refused))

namespace CallMove
variable (b : Binding)

theorem initializes (owner : Bool) (generation : ℕ) (executionId : String) :
    CallMove b (b.initializeExecution owner generation executionId).call := by
  rw [Binding.initializeExecution]
  split_ifs with hguard
  · exact .ends
  split
  · exact .starting
  · exact .finishing _ (not_le.mp (not_or.mp hguard).2)

theorem advance (owner : Bool) (requested : Step) (expired : Bool) :
    CallMove b (b.advance owner requested expired).call := by
  rw [Binding.advance]
  split
  · exact .ends
  · split
    · exact .ends
    · split_ifs
      · exact .ends
      · exact .ends
      · exact .advancing

theorem dispose (owner : Bool) : CallMove b (b.dispose owner).call := by
  rw [Binding.dispose]
  split_ifs with hdisposed
  · exact .ends
  · simp only
    split
    · exact .ends
    · exact .disposing _ (by simpa using hdisposed)

theorem retryCleanup (owner : Bool) : CallMove b (b.retryCleanup owner).call := by
  rw [Binding.retryCleanup]
  split
  · exact .ends
  · split
    · exact .ends
    · exact .retrying _

theorem resume (debug : ThreadId → String) (call : SessionCall) (w : World) (generation : ℕ)
    (executionId : String) : CallMove b (b.resume debug call w generation executionId).call := by
  cases call with
  | finishing refused =>
    cases refused with
    | some e => exact .ends
    | none =>
      rw [Binding.resume]
      simp only
      split_ifs
      · exact .ends
      · exact .starting
  | starting | advancing =>
    rw [Binding.resume, Binding.report]
    split_ifs
    · exact .ends
    · exact .ends
  | disposing refused => exact .ends
  | retrying refused =>
    cases refused with
    | some e => exact .ends
    | none =>
      rw [Binding.resume]
      split_ifs
      · exact .ends
      · exact .ends

end CallMove

theorem Binding.step_call {debug : ThreadId → String} {b b' : Binding} {action : SessionAction}
    (hstep : b.step debug action = some b') : CallMove b b'.call := by
  cases action with
  | act action =>
    simp only [step, Option.ite_none_left_eq_some, not_or, Option.bind_eq_some_iff,
      Option.map_eq_some_iff] at hstep
    obtain ⟨-, w, -, w', -, rfl⟩ := hstep
    exact .same rfl
  | cancel =>
    cases hstep
    exact .same rfl
  | initializes owner generation executionId =>
    obtain ⟨-, hb⟩ := Option.ite_none_right_eq_some.mp hstep
    exact Option.some.inj hb ▸ .initializes b owner generation executionId
  | advance owner requested expired =>
    obtain ⟨-, hb⟩ := Option.ite_none_right_eq_some.mp hstep
    exact Option.some.inj hb ▸ .advance b owner requested expired
  | dispose owner =>
    obtain ⟨-, hb⟩ := Option.ite_none_right_eq_some.mp hstep
    exact Option.some.inj hb ▸ .dispose b owner
  | retryCleanup owner =>
    obtain ⟨-, hb⟩ := Option.ite_none_right_eq_some.mp hstep
    exact Option.some.inj hb ▸ .retryCleanup b owner
  | resume generation executionId =>
    simp only [step] at hstep
    split at hstep
    case h_2 => cases hstep
    case h_1 call w _ _ =>
      obtain ⟨-, hb⟩ := Option.ite_none_right_eq_some.mp hstep
      exact Option.some.inj hb ▸ .resume b debug call w generation executionId

/-! ### Calls and what the threads do in them -/

namespace Binding
variable (debug : ThreadId → String) {b : Binding} {w w' : World} {actions : List Action}

/-- While the owner makes no call, the threads of the execution move as they do on their own. -/
theorem run_acts (hown : ∀ action ∈ actions, action.isCall = false ∧ action.cancels = false)
    (h : execution.run w actions = some w') (b : Binding) :
    (bindings debug).run (b.setWorld w) (actions.map .act) = some (b.setWorld w') := by
  induction actions generalizing w with
  | nil =>
    cases h
    rfl
  | cons action actions ih =>
    obtain ⟨⟨hcall, hcancel⟩, hown⟩ := List.forall_mem_cons.mp hown
    obtain ⟨u, hu, hrest⟩ := TransitionSystem.run_cons.mp h
    refine TransitionSystem.run_cons.mpr ⟨b.setWorld u, ?_, ih hown hrest⟩
    have hstep : w.step action = some u := hu
    simp [bindings, step, hcall, hcancel, setWorld, hstep]

theorem step_resume {call : SessionCall} (hcall : b.call = some call)
    (hw : b.session.execution = some w) (hctl : w.ctl = .idle) (generation : ℕ)
    (executionId : String) : (bindings debug).step b (.resume generation executionId) =
      some (b.resume debug call w generation executionId) := by
  simp only [bindings, step, hcall, hw, hctl, if_true]

variable (hown : ∀ action ∈ actions, action.isCall = false ∧ action.cancels = false)
  (hctl : w'.ctl = .idle)
include hown hctl

/-- A call waits until the execution has returned. -/
theorem run_call {call : SessionCall} (hcall : b.call = some call)
    (h : execution.run w actions = some w') :
    (bindings debug).run (b.setWorld w) (actions.map .act ++ [.resume 0 ""]) =
      some ((b.setWorld w').resume debug call w' 0 "") :=
  TransitionSystem.run_concat (run_acts debug hown h b)
    (step_resume debug (b := b.setWorld w') hcall rfl hctl 0 "")

/-- A disposal before the schedule is completed. -/
theorem run_dispose (hcall : b.call = none) (hw : b.session.execution = some w)
    (hopened : b.session.disposed = false) (hcompleted : w.report.scheduleCompleted = false)
    (hbudget : (w.cleanupFor true).2 = none)
    (h : execution.run (w.cleanupFor true).1 actions = some w') :
    ∃ c : Binding, (bindings debug).run b
        (.dispose true :: (actions.map .act ++ [.resume 0 ""])) = some c ∧
      c.session = ({ b.session with
        execution := some w'
        disposed := true
        disposals := b.session.disposals + 1 } : BindingSession).settle debug w' none ∧
      c.call = none ∧ c.past = b.past := by
  have hdispose : (bindings debug).step b (.dispose true) = some (setWorld { b with
      session := { b.session with
        disposed := true
        disposals := b.session.disposals + 1 }
      call := some (.disposing none) } (w.cleanupFor true).1) := by
    have hpair : w.cleanupFor true = ((w.cleanupFor true).1, none) := Prod.ext rfl hbudget
    simp only [bindings, step, hcall, Option.isNone_none, if_true, dispose, hopened, hw, hcompleted]
    rw [hpair]
    rfl
  refine ⟨_, TransitionSystem.run_cons.mpr ⟨_, hdispose, run_call debug hown hctl rfl h⟩, ?_⟩
  rw [resume]
  exact ⟨rfl, rfl, rfl⟩

/-- A cleanup that is tried again. -/
theorem run_retryCleanup (hcall : b.call = none) (hw : b.session.execution = some w)
    (hdisposed : b.session.disposed = true) (hbudget : (w.cleanupFor true).2 = none)
    (h : execution.run (w.cleanupFor true).1 actions = some w')
    (hconfirmed : w'.report.cleanup = .confirmed) :
    ∃ c : Binding, (bindings debug).run b
        (.retryCleanup true :: (actions.map .act ++ [.resume 0 ""])) = some c ∧
      c.session = ({ b.session with execution := some w' } : BindingSession).replace debug w' ∧
      c.past = b.past := by
  have hretry : (bindings debug).step b (.retryCleanup true) =
      some (setWorld { b with call := some (.retrying none) } (w.cleanupFor true).1) := by
    have hpair : w.cleanupFor true = ((w.cleanupFor true).1, none) := Prod.ext rfl hbudget
    simp only [bindings, step, hcall, Option.isNone_none, if_true, retryCleanup, hdisposed, hw]
    rw [hpair]
    rfl
  refine ⟨_, TransitionSystem.run_cons.mpr ⟨_, hretry, run_call debug hown hctl rfl h⟩, ?_⟩
  rw [resume, if_neg (not_not.mpr hconfirmed)]
  exact ⟨rfl, rfl⟩

end Binding
end MirrorRust
