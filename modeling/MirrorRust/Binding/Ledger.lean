import MirrorRust.Binding.Session

/-! The receipts that a session keeps: one row for every execution, in the order in which they were
started, and the receipt of every execution but the last is final. -/
namespace MirrorRust

/-! ### Closed executions -/

/-- What the receipt of an execution depends on. -/
def World.account (w : World) : Setup × Report × List Actor := (w.setup, w.report, w.shared.actors)

theorem World.receipt_eq {w w' : World} (h : w'.account = w.account) (debug : ThreadId → String) :
    w'.receipt debug = w.receipt debug := by
  simp only [account, Prod.mk.injEq] at h
  obtain ⟨hsetup, hreport, hactors⟩ := h
  simp only [World.receipt, SharedState.actorThreads, hsetup, hreport, hactors]

/-- A closed execution is at rest or is being dropped. -/
theorem ctl_of_closed {w : World} (hr : execution.Reachable w) (hclosed : w.closed = true) :
    w.ctl = .idle ∨ (∃ i, w.ctl = .dropping i) ∨ w.ctl = .dropped := by
  have hc := custody hr
  have hfresh : w.ctl.unopened = false ∧ w.ctl.working = false := by
    constructor
    · by_contra h
      simp [(hc.unopened (by simpa using h)).1.closed] at hclosed
    · by_contra h
      simp [(hc.working (by simpa using h)).closed] at hclosed
  have hstopped : ¬ (w.ctl = .cleaning ∨ w.ctl.stopped = true) := fun h => by
    simp [hc.closing h] at hclosed
  have hheld : ¬ (w.ctl = .tearing ∨ w.ctl = .dropTeardown) := fun h => by
    simp [(hc.held h).2] at hclosed
  cases hctl : w.ctl <;>
    simp_all [Ctl.unopened, Ctl.working, Ctl.stopped, Ctl.wrapping]

/-- The account of a closed execution stays. -/
theorem ControlMove.closed {w w' : World} {action : Action} (hr : execution.Reachable w)
    (hclosed : w.closed = true) (hw : ControlMove w action w') :
    w'.closed = true ∧ w'.account = w.account := by
  have hctl := ctl_of_closed hr hclosed
  cases hw with
  | advance =>
    rw [World.advance, if_pos (Or.inl hclosed)]
    exact ⟨hclosed, rfl⟩
  | finish =>
    rw [World.finish, if_pos hclosed]
    exact ⟨hclosed, rfl⟩
  | cleanup =>
    rw [World.callCleanup, if_pos (Or.inr hclosed)]
    exact ⟨hclosed, rfl⟩
  | foreignCall | drop => exact ⟨hclosed, rfl⟩
  | dropJoin _ hw =>
    rcases World.dropJoin_spec hw with ⟨-, rfl⟩ | ⟨t, -, -, rfl⟩ <;> exact ⟨hclosed, rfl⟩
  | _ => simp_all

theorem WorkerMove.closed {w w' : World} {action : Action} (hr : execution.Reachable w)
    (hclosed : w.closed = true) (hw : WorkerMove w action w') :
    w'.closed = true ∧ w'.account = w.account := by
  have hb := hw.beside
  have hshared : w'.shared = w.shared := hb.ended fun t ht =>
    (coordinated hr).ended_of_joined ht ((custody hr).joined (Or.inl hclosed) t ht)
  refine ⟨hb.closed.trans hclosed, ?_⟩
  simp only [World.account, World.report, hb.setup, hshared]

theorem run_closed {w w' : World} (hr : execution.Reachable w) (hclosed : w.closed = true)
    {actions : List Action} (hrun : execution.run w actions = some w') :
    w'.closed = true ∧ w'.account = w.account := by
  refine hr.run_induction (R := fun w w' => w.closed = true → w'.closed = true ∧ w'.account = w.account)
    hrun (fun _ h => ⟨h, rfl⟩) (fun w u a v hwu hu hv hclosed => ?_) hclosed
  obtain ⟨hclosed, haccount⟩ := hwu hclosed
  rcases World.step_move hv with hmove | hmove
  · obtain ⟨hclosed', haccount'⟩ := hmove.closed hu hclosed
    exact ⟨hclosed', haccount'.trans haccount⟩
  · obtain ⟨hclosed', haccount'⟩ := hmove.closed hu hclosed
    exact ⟨hclosed', haccount'.trans haccount⟩

/-- A passed execution is closed. -/
theorem closed_of_passed {w : World} (hr : execution.Reachable w) (h : w.report.passed = true) :
    w.closed = true := by
  simp only [Report.passed, Bool.and_eq_true, decide_eq_true_eq] at h
  by_contra hopen
  rcases (custody hr).unsettled (by simpa using hopen) with hc | hc <;> simp [hc] at h

/-- An execution that will not pass any more. -/
structure Stuck (w : World) : Prop where
  passed : w.report.passed = false
  ended : w.closed = true ∨ w.report.outcome ≠ .completed

theorem Stuck.step {w w' : World} {action : Action} (h : Stuck w) (hr : execution.Reachable w)
    (hw : w.step action = some w') : Stuck w' := by
  rcases h.ended with hclosed | hfailed
  · obtain ⟨hclosed', haccount⟩ := (World.step_move hw).elim (·.closed hr hclosed) (·.closed hr hclosed)
    simp only [World.account, Prod.mk.injEq] at haccount
    exact ⟨by rw [haccount.2.1]; exact h.passed, Or.inl hclosed'⟩
  · have hfailed' : w'.report.outcome ≠ .completed := (step_latched hr hfailed hw).outcome ▸ hfailed
    exact ⟨by simp [Report.passed, hfailed'], Or.inr hfailed'⟩

/-! ### Rows -/

theorem receipt_ne (debug : ThreadId → String) (w : World) : w.receipt debug ≠ evidenceError := by
  intro h
  have hschema := congrArg (fun j => j.index "schema") h
  simp [World.receipt, Report.fields, evidenceError, Assoc.get?] at hschema

theorem receipt_passed (debug : ThreadId → String) (w : World) :
    (w.receipt debug).index "passed" = .bool w.report.passed := by
  simp [World.receipt, Report.fields, Assoc.get?]

theorem evidenceError_passed : evidenceError.index "passed" = .bool false := by
  simp [evidenceError, Assoc.get?]

/-- The row is the receipt of a state that the execution has been in, or it stands for a receipt
that was too long. -/
def RowOf (debug : ThreadId → String) (row : Json) (w : World) : Prop :=
  row = evidenceError ∨ ∃ u actions, execution.Reachable u ∧ execution.run u actions = some w ∧
    row = u.receipt debug

theorem RowOf.step {debug : ThreadId → String} {row : Json} {w w' : World} {action : Action}
    (h : RowOf debug row w) (hw : w.step action = some w') : RowOf debug row w' := by
  rcases h with rfl | ⟨u, actions, hu, hrun, rfl⟩
  · exact Or.inl rfl
  · exact Or.inr ⟨u, actions ++ [action], hu, TransitionSystem.run_concat hrun hw, rfl⟩

/-- A row that says passed is the receipt of the execution as it is now, and the execution has
passed. -/
theorem RowOf.final {debug : ThreadId → String} {row : Json} {w : World} (h : RowOf debug row w)
    (hpassed : row.index "passed" = .bool true) : w.report.passed = true ∧ row = w.receipt debug := by
  rcases h with rfl | ⟨u, actions, hu, hrun, rfl⟩
  · simp [evidenceError_passed] at hpassed
  · have hpassed : u.report.passed = true := by simpa [receipt_passed] using hpassed
    obtain ⟨-, haccount⟩ := run_closed hu (closed_of_passed hu hpassed) hrun
    refine ⟨?_, (World.receipt_eq haccount debug).symm⟩
    simp only [World.account, Prod.mk.injEq] at haccount
    rw [haccount.2.1]
    exact hpassed

/-! ### What the operations do -/

namespace BindingSession
variable {debug : ThreadId → String} {s : BindingSession} {w : World}

theorem retain_spec (debug : ThreadId → String) (hw : s.execution = some w) :
    (s.retained = true ∧ s.retain debug = s) ∨
      (s.retained = false ∧ receiptLimit < s.receiptBytes + (w.receipt debug).bytes ∧
        s.retain debug = { s with
          receiptComplete := false
          executions := s.executions ++ [evidenceError]
          retained := true }) ∨
      (s.retained = false ∧ s.receiptBytes + (w.receipt debug).bytes ≤ receiptLimit ∧
        s.retain debug = { s with
          receiptBytes := s.receiptBytes + (w.receipt debug).bytes
          executions := s.executions ++ [w.receipt debug]
          retained := true }) := by
  by_cases hretained : s.retained = true
  · exact Or.inl ⟨hretained, by rw [retain, if_pos hretained]⟩
  right
  rw [retain, if_neg hretained]
  split
  case h_1 hnone => simp [hw] at hnone
  case h_2 u hu =>
    obtain rfl : u = w := Option.some.inj (hu.symm.trans hw)
    simp only
    split_ifs with hlimit
    · exact Or.inl ⟨by simpa using hretained, hlimit, rfl⟩
    · exact Or.inr ⟨by simpa using hretained, not_lt.mp hlimit, rfl⟩

theorem retain_within (debug : ThreadId → String) (hw : s.execution = some w)
    (hunretained : s.retained = false)
    (hlimit : s.receiptBytes + (w.receipt debug).bytes ≤ receiptLimit) :
    s.retain debug = { s with
      receiptBytes := s.receiptBytes + (w.receipt debug).bytes
      executions := s.executions ++ [w.receipt debug]
      retained := true } := by
  rcases retain_spec debug hw with ⟨hretained, -⟩ | ⟨-, hfull, -⟩ | ⟨-, -, heq⟩
  · exact absurd (hunretained.symm.trans hretained) Bool.noConfusion
  · exact absurd hlimit hfull.not_ge
  · exact heq

/-- What retaining a receipt leaves alone. -/
theorem retain_frame (debug : ThreadId → String) (s : BindingSession) :
    (s.retain debug).execution = s.execution ∧ (s.retain debug).disposed = s.disposed ∧
      (s.retain debug).disposal = s.disposal ∧
      (s.retain debug).initializations = s.initializations ∧
      (s.retain debug).disposals = s.disposals := by
  unfold retain
  split_ifs
  · exact ⟨rfl, rfl, rfl, rfl, rfl⟩
  · split
    · exact ⟨rfl, rfl, rfl, rfl, rfl⟩
    · simp only
      split_ifs <;> exact ⟨rfl, rfl, rfl, rfl, rfl⟩

theorem retain_retained (hw : s.execution = some w) : (s.retain debug).retained = true := by
  rcases retain_spec debug hw with ⟨hretained, heq⟩ | ⟨-, -, heq⟩ | ⟨-, -, heq⟩ <;> rw [heq]
  exact hretained

theorem replace_spec (hretained : s.retained = true) {rows : List Json} {last : Json}
    (hrows : s.executions = rows ++ [last]) :
    (s.receiptBytes - last.bytes + (w.receipt debug).bytes ≤ receiptLimit ∧
        s.replace debug w = { s with
          receiptBytes := s.receiptBytes - last.bytes + (w.receipt debug).bytes
          executions := rows ++ [w.receipt debug] }) ∨
      (receiptLimit < s.receiptBytes - last.bytes + (w.receipt debug).bytes ∧
        s.replace debug w = { s with receiptComplete := false }) := by
  rw [replace]
  split
  case h_1 hnone => simp [hrows] at hnone
  case h_2 u hu =>
    obtain rfl : last = u := by simpa [hrows] using hu
    simp only [hretained, if_true]
    split_ifs with hlimit
    · exact Or.inl ⟨hlimit, by rw [hrows, List.dropLast_concat]⟩
    · exact Or.inr ⟨not_le.mp hlimit, rfl⟩

theorem retain_disposal (disposal : Except BindingError Unit) :
    { s with disposal := disposal }.retain debug = { s.retain debug with disposal := disposal } := by
  obtain ⟨setup, cancel, current, rows, bytes, _, _, _, retained, _, _⟩ := s
  cases retained with
  | true => rfl
  | false =>
    cases current with
    | none => rfl
    | some w =>
      simp only [retain]
      split_ifs <;> rfl

theorem retain_setup (debug : ThreadId → String) (s : BindingSession) :
    (s.retain debug).setup = s.setup := by
  unfold retain
  split_ifs
  · rfl
  · split
    · rfl
    · simp only
      split_ifs <;> rfl

theorem replace_setup (debug : ThreadId → String) (s : BindingSession) (w : World) :
    (s.replace debug w).setup = s.setup := by
  unfold replace
  split
  · rfl
  · simp only
    split_ifs <;> rfl

/-- What replacing the last row leaves alone. -/
theorem replace_frame (debug : ThreadId → String) (s : BindingSession) (w : World) :
    (s.replace debug w).execution = s.execution ∧ (s.replace debug w).disposed = s.disposed ∧
      (s.replace debug w).disposal = s.disposal ∧ (s.replace debug w).retained = s.retained ∧
      (s.replace debug w).initializations = s.initializations ∧
      (s.replace debug w).disposals = s.disposals := by
  unfold replace
  split
  · exact ⟨rfl, rfl, rfl, rfl, rfl, rfl⟩
  · simp only
    split_ifs <;> exact ⟨rfl, rfl, rfl, rfl, rfl, rfl⟩

/-- The execution is retained; the disposal fails when the receipts are not complete. -/
theorem settle_spec (debug : ThreadId → String) (s : BindingSession) (w : World)
    (refused : Option String) :
    ∃ disposal, s.settle debug w refused = { s.retain debug with disposal := disposal } ∧
      ((s.retain debug).receiptComplete = false → succeeded disposal = false) := by
  simp only [settle, retain_disposal]
  by_cases hcomplete : (s.retain debug).receiptComplete = true
  · exact ⟨_, if_neg (by simp [hcomplete]), fun hne => absurd hcomplete (by simp [hne])⟩
  · exact ⟨_, if_pos (by simp [hcomplete]), fun _ => rfl⟩

theorem settle_within (debug : ThreadId → String) (hw : s.execution = some w)
    (hunretained : s.retained = false)
    (hlimit : s.receiptBytes + (w.receipt debug).bytes ≤ receiptLimit)
    (hcomplete : s.receiptComplete = true) :
    s.settle debug w none = { s with
      receiptBytes := s.receiptBytes + (w.receipt debug).bytes
      executions := s.executions ++ [w.receipt debug]
      retained := true
      disposal := if w.report.cleanup = .confirmed then s.disposal
        else .error ⟨"schedule_cleanup_failed", w.report.cleanup.debug⟩ } := by
  have hretain := retain_within debug hw hunretained hlimit
  have hkept : (s.retain debug).receiptComplete = true := by
    rw [hretain]
    exact hcomplete
  simp only [settle, retain_disposal]
  rw [if_neg (by simp [hkept]), hretain]

end BindingSession

/-! ### The ledger -/

/-- The ledger of a session that has replaced the executions of `past`. -/
structure Ledgered (debug : ThreadId → String) (past : List World) (s : BindingSession) : Prop where
  current : ∀ w, s.execution = some w → execution.Reachable w ∧ w.setup = s.setup
  replaced : ∀ w ∈ past, execution.Reachable w ∧ w.setup = s.setup ∧ w.report.passed = true
  unused : s.execution = none → past = []
  count : s.initializations = past.length + s.execution.toList.length
  unretained : s.retained = false → s.executions = past.map (World.receipt debug)
  retained : s.retained = true → ∃ w row, s.execution = some w ∧
    s.executions = past.map (World.receipt debug) ++ [row] ∧ RowOf debug row w ∧
      (row = evidenceError → s.receiptComplete = false)
  complete : s.receiptComplete = false → s.retained = true
  stuck : s.retained = true → s.disposed = false → s.receiptComplete = true →
    ∀ w, s.execution = some w → Stuck w

/-- The execution stands still or takes a step. -/
def World.Goes (w w' : World) : Prop := w' = w ∨ ∃ action, w.step action = some w'

namespace Ledgered
variable {debug : ThreadId → String} {past : List World} {s : BindingSession} {w w' : World}

theorem new (setup : Setup) (cancel : Bool) : Ledgered debug [] (.new setup cancel) where
  current w hw := by cases hw
  replaced := by simp
  unused _ := rfl
  count := rfl
  unretained _ := rfl
  retained h := by cases h
  complete h := by cases h
  stuck h := by cases h

variable (h : Ledgered debug past s)
include h

theorem goes (hw : s.execution = some w) (hgoes : w.Goes w') :
    Ledgered debug past { s with execution := some w' } := by
  rcases hgoes with rfl | ⟨action, hstep⟩
  · rw [← hw]
    exact h
  obtain ⟨hr, hsetup⟩ := h.current w hw
  refine ⟨fun u hu => ?_, h.replaced, fun hu => (by cases hu), ?_, h.unretained, fun hretained => ?_,
    h.complete, fun h1 h2 h3 u hu => ?_⟩
  · cases hu
    exact ⟨hr.step hstep, (World.step_setup hstep).trans hsetup⟩
  · rw [h.count, hw]
    rfl
  · obtain ⟨u, row, hu, hrows, hrow, hcomplete⟩ := h.retained hretained
    obtain rfl : u = w := Option.some.inj (hu.symm.trans hw)
    exact ⟨w', row, rfl, hrows, hrow.step hstep, hcomplete⟩
  · cases hu
    exact (h.stuck h1 h2 h3 w hw).step hr hstep

theorem retain (hw : s.execution = some w)
    (hstuck : s.disposed = false → Stuck w ∨ (s.retain debug).receiptComplete = false) :
    Ledgered debug past (s.retain debug) := by
  obtain ⟨hr, -⟩ := h.current w hw
  rcases BindingSession.retain_spec debug hw with ⟨-, heq⟩ | ⟨hretained, -, heq⟩ |
    ⟨hretained, -, heq⟩ <;> rw [heq] at hstuck ⊢
  · exact h
  · refine ⟨h.current, h.replaced, h.unused, h.count, fun hr => (by cases hr), fun _ => ?_,
      fun _ => rfl, fun _ _ hc => (by cases hc)⟩
    exact ⟨w, _, hw, congrArg (· ++ [evidenceError]) (h.unretained hretained), Or.inl rfl,
      fun _ => rfl⟩
  · refine ⟨h.current, h.replaced, h.unused, h.count, fun hr => (by cases hr), fun _ => ?_,
      fun _ => rfl, fun _ hopen hc u hu => ?_⟩
    · exact ⟨w, _, hw, congrArg (· ++ [w.receipt debug]) (h.unretained hretained),
        Or.inr ⟨w, [], hr, rfl, rfl⟩, fun heq => absurd heq (receipt_ne debug w)⟩
    · obtain rfl : u = w := Option.some.inj (hu.symm.trans hw)
      exact (hstuck hopen).resolve_right fun hne => Bool.false_ne_true (hne.symm.trans hc)

/-- A passed execution is replaced by the next one. -/
theorem start (hw : s.execution = some w) (hpassed : w.report.passed = true)
    (hopen : s.disposed = false) (hcomplete : (s.retain debug).receiptComplete = true)
    (generation : ℕ) (executionId : String) :
    Ledgered debug (past ++ [w]) ((s.retain debug).start generation executionId) := by
  obtain ⟨hr, hsetup⟩ := h.current w hw
  have hlast : (s.retain debug).executions = (past ++ [w]).map (World.receipt debug) ∧
      (s.retain debug).initializations = s.initializations := by
    rcases BindingSession.retain_spec debug hw with ⟨hretained, heq⟩ | ⟨-, -, heq⟩ |
      ⟨hretained, -, heq⟩ <;> rw [heq] at hcomplete ⊢
    · simp [(h.stuck hretained hopen hcomplete w hw).passed] at hpassed
    · cases hcomplete
    · exact ⟨by simp [h.unretained hretained], rfl⟩
  obtain ⟨hrows, hcount⟩ := hlast
  have hsetup' := BindingSession.retain_setup debug s
  refine ⟨fun u hu => ?_, fun u hu => ?_, fun hu => (by cases hu), ?_, fun _ => hrows,
    fun hr => (by cases hr), fun hc => ?_, fun hr => (by cases hr)⟩
  · cases hu
    exact ⟨.init ⟨_, _, _, _, rfl⟩, rfl⟩
  · rw [BindingSession.start, hsetup']
    rcases List.mem_append.mp hu with hu | hu
    · exact h.replaced u hu
    · obtain rfl := List.mem_singleton.mp hu
      exact ⟨hr, hsetup, hpassed⟩
  · have := h.count
    simp only [hw, Option.toList_some, List.length_singleton] at this
    simp [BindingSession.start, hcount, this]
  · simp [BindingSession.start, hcomplete] at hc

/-- The first execution of a session. -/
theorem startFirst (hw : s.execution = none) (generation : ℕ) (executionId : String) :
    Ledgered debug past (s.start generation executionId) := by
  have hretained : s.retained = false := by
    by_contra hretained
    obtain ⟨w, -, hw', -⟩ := h.retained (by simpa using hretained)
    simp [hw] at hw'
  have hcount := h.count
  refine ⟨fun u hu => ?_, h.replaced, fun hu => (by cases hu), ?_, fun _ => h.unretained hretained,
    fun hr => (by cases hr), fun hc => ?_, fun hr => (by cases hr)⟩
  · cases hu
    exact ⟨.init ⟨_, _, _, _, rfl⟩, rfl⟩
  · simpa [BindingSession.start, hw] using hcount
  · simp [h.complete hc] at hretained

/-- The last row follows the execution. -/
theorem replace (hw : s.execution = some w) (hdisposed : s.disposed = true)
    (hretained : s.retained = true) : Ledgered debug past (s.replace debug w) := by
  obtain ⟨hr, -⟩ := h.current w hw
  obtain ⟨u, row, hu, hrows, hrow, hcomplete⟩ := h.retained hretained
  obtain rfl : u = w := Option.some.inj (hu.symm.trans hw)
  rcases BindingSession.replace_spec (w := u) hretained hrows with ⟨-, heq⟩ | ⟨-, heq⟩ <;> rw [heq]
  · refine ⟨h.current, h.replaced, h.unused, h.count, fun hr => ?_, fun _ => ?_, fun _ => hretained,
      fun _ hopen => ?_⟩
    · exact absurd (hretained.symm.trans hr) Bool.noConfusion
    · exact ⟨u, _, hw, rfl, Or.inr ⟨u, [], hr, rfl, rfl⟩, fun heq => absurd heq (receipt_ne debug u)⟩
    · exact absurd (hdisposed.symm.trans hopen) Bool.noConfusion
  · refine ⟨h.current, h.replaced, h.unused, h.count, h.unretained, fun _ => ?_, fun _ => hretained,
      fun _ _ hc => (by cases hc)⟩
    exact ⟨u, row, hw, hrows, hrow, fun _ => rfl⟩

theorem settle (hw : s.execution = some w) (hdisposed : s.disposed = true)
    (refused : Option String) : Ledgered debug past (s.settle debug w refused) := by
  obtain ⟨disposal, heq, -⟩ := BindingSession.settle_spec debug s w refused
  have hretain := h.retain hw fun hopen => absurd (hdisposed.symm.trans hopen) Bool.noConfusion
  rw [heq]
  exact ⟨hretain.current, hretain.replaced, hretain.unused, hretain.count, hretain.unretained,
    hretain.retained, hretain.complete, hretain.stuck⟩

theorem past_prefix : past.map (World.receipt debug) <+: s.executions := by
  by_cases hretained : s.retained = true
  · obtain ⟨_, row, _, hrows, _⟩ := h.retained hretained
    exact ⟨[row], hrows.symm⟩
  · exact ⟨[], by simp [h.unretained (by simpa using hretained)]⟩

end Ledgered

/-! ### Calls -/

/-- The execution is being closed, or the call that closes it has come to its end. -/
def World.Closing (w : World) : Prop :=
  w.ctl = .cleaning ∨ w.ctl.stopped = true ∨
    (w.ctl = .idle ∧ (w.closed = true ∨ w.report.outcome ≠ .completed))

theorem ControlMove.closing {w w' : World} {action : Action} (hr : execution.Reachable w)
    (h : w.Closing) (hcall : action.isCall = false) (hw : ControlMove w action w') : w'.Closing := by
  cases hw with
  | clean => exact Or.inr (Or.inl rfl)
  | drain hctl =>
    rw [World.drain]
    split_ifs
    · exact h
    · exact Or.inr (Or.inl rfl)
  | reap hctl =>
    rw [World.reap]
    split_ifs with hmore hremaining
    · exact Or.inr (Or.inl rfl)
    · refine Or.inr (Or.inr ⟨rfl, Or.inr fun ho => ?_⟩)
      -- a completed schedule has joined every thread
      have hcompleted := (custody hr).ended (Or.inl (by rw [hctl]; rfl)) ho
      have hnext := ((completion hr).completed hcompleted).2.1
      have hadmitted := admitted_of_working hr (by simp [hctl]) (Or.inl ho)
      exact hremaining (World.remaining_eq_nil (joined_of_last hr hadmitted hnext))
    · exact Or.inr (Or.inl rfl)
    · exact Or.inr (Or.inl rfl)
  | tear => exact Or.inr (Or.inl rfl)
  | record => exact Or.inr (Or.inr ⟨rfl, Or.inl rfl⟩)
  | advance | finish | cleanup | foreignCall | drop => cases hcall
  | enter hctl | create hctl | spawn hctl | startWait hctl | observe hctl | observer hctl
  | judge hctl | outcomeCheck hctl | wait hctl | arrival hctl | join hctl | joinFailed hctl
  | checkArrival hctl | complete hctl | dropJoin hctl | dropTeardown hctl =>
    simp [World.Closing, hctl, Ctl.stopped] at h

theorem World.Closing.step {w w' : World} {action : Action} (hr : execution.Reachable w)
    (h : w.Closing) (hcall : action.isCall = false) (hw : w.step action = some w') : w'.Closing := by
  rcases World.step_move hw with hw | hw
  · exact hw.closing hr h hcall
  · have hb := hw.beside
    rw [World.Closing, hb.ctl, hb.closed]
    exact h.imp_right (Or.imp_right (And.imp_right (Or.imp_right hb.report.outcome)))

/-- The calls of the session are steps of an execution at rest. -/
theorem World.finishFor_goes {w : World} (hctl : w.ctl = .idle) (owner : Bool) :
    w.Goes (w.finishFor owner).1 := by
  rw [World.finishFor]
  split_ifs
  · exact Or.inl rfl
  all_goals exact Or.inr ⟨.finish, if_pos hctl⟩

theorem World.cleanupFor_goes {w : World} (hctl : w.ctl = .idle) (owner : Bool) :
    w.Goes (w.cleanupFor owner).1 := by
  rw [World.cleanupFor]
  split_ifs
  · exact Or.inl rfl
  all_goals exact Or.inr ⟨.cleanup _, if_pos hctl⟩

theorem World.finishFor_closing {w : World} (hctl : w.ctl = .idle) {owner : Bool}
    (h : (w.finishFor owner).2 = none) : (w.finishFor owner).1.Closing := by
  rw [World.finishFor] at h ⊢
  split_ifs at h ⊢ with howner hbudget
  rcases w.finish_spec with ⟨hclosed, heq⟩ | ⟨hclosed, s, -, heq⟩ <;> rw [heq]
  · exact Or.inr (Or.inr ⟨hctl, Or.inl hclosed⟩)
  · rcases World.callCleanup_spec { w with shared := s } w.setup.policy.cleanupTimeout with
      ⟨hrefused, -⟩ | ⟨-, heq⟩
    · rcases hrefused with hrefused | hrefused
      · simp [hclosed, hrefused] at hbudget
      · exact absurd (hclosed.symm.trans hrefused) Bool.noConfusion
    · rw [heq]
      exact Or.inl rfl

/-- How the call in progress and the execution fit together. -/
structure Attended (b : Binding) : Prop where
  resting : b.call = none → ∀ w, b.session.execution = some w → w.ctl = .idle
  waiting : ∀ call, b.call = some call → ∃ w, b.session.execution = some w
  closing : b.call = some (.finishing none) → ∀ w, b.session.execution = some w → w.Closing
  opened : b.session.disposed = false →
    (∀ refused, b.call ≠ some (.disposing refused) ∧ b.call ≠ some (.retrying refused)) ∧
      b.session.disposal = .ok ()
  closed : b.session.disposed = true → (∀ refused, b.call ≠ some (.finishing refused)) ∧
    b.call ≠ some .starting ∧ b.call ≠ some .advancing
  settled : b.session.disposed = true → (∀ refused, b.call ≠ some (.disposing refused)) →
    ∀ w, b.session.execution = some w → b.session.retained = true

namespace Attended
variable {b : Binding} {w w' : World}

/-- A call ends at rest. -/
theorem ends {s : BindingSession} {past : List World} {result : Option (Except BindingError Unit)}
    (hidle : ∀ w, s.execution = some w → w.ctl = .idle)
    (hopen : s.disposed = false → s.disposal = .ok ())
    (hsettled : s.disposed = true → ∀ w, s.execution = some w → s.retained = true) :
    Attended { session := s, call := none, returned := result, past := past } where
  resting _ := hidle
  waiting _ h := by cases h
  closing h := by cases h
  opened hd := ⟨fun _ => ⟨fun h => (by cases h), fun h => (by cases h)⟩, hopen hd⟩
  closed _ := ⟨fun _ h => (by cases h), fun h => (by cases h), fun h => (by cases h)⟩
  settled hd _ := hsettled hd

/-- A call of a session that has not been disposed of waits for the execution. -/
theorem waits {s : BindingSession} {past : List World} {call : SessionCall}
    {result : Option (Except BindingError Unit)} (hw : s.execution = some w)
    (hopen : s.disposed = false) (hdisposal : s.disposal = .ok ())
    (hclosing : call = .finishing none → w.Closing)
    (hcall : ∀ refused, call ≠ .disposing refused ∧ call ≠ .retrying refused) :
    Attended { session := s, call := some call, returned := result, past := past } where
  resting h := by cases h
  waiting _ _ := ⟨w, hw⟩
  closing h u hu := by
    obtain rfl : u = w := Option.some.inj (hu.symm.trans hw)
    exact hclosing (Option.some.inj h)
  opened _ := ⟨fun refused => ⟨fun h => (hcall refused).1 (Option.some.inj h),
    fun h => (hcall refused).2 (Option.some.inj h)⟩, hdisposal⟩
  closed hd := absurd (hopen.symm.trans hd) Bool.noConfusion
  settled hd := absurd (hopen.symm.trans hd) Bool.noConfusion

/-- The execution moves on its own. -/
theorem moves (h : Attended b) (hw : b.session.execution = some w)
    (hidle : w.ctl = .idle → w'.ctl = .idle) (hclosing : w.Closing → w'.Closing) :
    Attended (b.setWorld w') where
  resting hc u hu := by
    cases hu
    exact hidle (h.resting hc w hw)
  waiting _ _ := ⟨w', rfl⟩
  closing hc u hu := by
    cases hu
    exact hclosing (h.closing hc w hw)
  opened := h.opened
  closed := h.closed
  settled hd hc u _ := h.settled hd hc w hw

/-- A cleanup is retried when the session has been disposed of and the execution retained. -/
theorem retrying (h : Attended b) {refused : Option String} (hcall : b.call = some (.retrying refused))
    (hw : b.session.execution = some w) :
    b.session.disposed = true ∧ b.session.retained = true := by
  have hd : b.session.disposed = true := by
    by_contra hopen
    exact ((h.opened (by simpa using hopen)).1 refused).2 hcall
  exact ⟨hd, h.settled hd (by simp [hcall]) w hw⟩

end Attended

/-- The invariant of a session. -/
structure Sound (debug : ThreadId → String) (b : Binding) : Prop where
  ledger : Ledgered debug b.past b.session
  attended : Attended b

namespace Sound
variable {debug : ThreadId → String} {b b' : Binding} {w : World} (h : Sound debug b)

theorem new (setup : Setup) (cancel : Bool) : Sound debug (.new setup cancel) :=
  ⟨.new setup cancel, Attended.ends (fun _ h => (by cases h)) (fun _ => rfl) fun h => (by cases h)⟩

include h

theorem act {action : Action} (hcall : action.isCall = false) {w' : World}
    (hw : b.session.execution = some w) (hstep : w.step action = some w') :
    Sound debug (b.setWorld w') := by
  obtain ⟨hr, -⟩ := h.ledger.current w hw
  refine ⟨h.ledger.goes hw (Or.inr ⟨action, hstep⟩), h.attended.moves hw (fun hctl => ?_)
    fun hclosing => hclosing.step hr hcall hstep⟩
  exact (idle_beside hctl hcall hstep).beside.ctl.trans hctl

/-- The call ends with the session as it is. -/
theorem returns (hidle : ∀ w, b.session.execution = some w → w.ctl = .idle)
    (hcall : ∀ refused, b.call ≠ some (.disposing refused)) (result : Except BindingError Unit) :
    Sound debug (b.returns result) :=
  ⟨h.ledger, .ends hidle (fun hd => (h.attended.opened hd).2) fun hd => h.attended.settled hd hcall⟩

theorem refuses (hnone : b.call = none) (result : Except BindingError Unit) :
    Sound debug (b.returns result) :=
  h.returns (h.attended.resting hnone) (by simp [hnone]) result

theorem initializes (hnone : b.call = none) (owner : Bool) (generation : ℕ) (executionId : String) :
    Sound debug (b.initializeExecution owner generation executionId) := by
  rw [Binding.initializeExecution]
  split_ifs with hguard
  · exact h.refuses hnone _
  have hopen : b.session.disposed = false := by simpa using (not_or.mp hguard).1
  have hdisposal := (h.attended.opened hopen).2
  split
  case h_1 hw =>
    exact ⟨h.ledger.startFirst hw _ _, .waits rfl hopen hdisposal (fun hc => (by cases hc))
      fun _ => ⟨fun hc => (by cases hc), fun hc => (by cases hc)⟩⟩
  case h_2 w hw =>
    have hctl := h.attended.resting hnone w hw
    refine ⟨h.ledger.goes hw (World.finishFor_goes hctl owner), .waits rfl hopen hdisposal
      (fun hc => ?_) fun _ => ⟨fun hc => (by cases hc), fun hc => (by cases hc)⟩⟩
    exact World.finishFor_closing hctl (SessionCall.finishing.inj hc)

theorem advance (hnone : b.call = none) (owner : Bool) (requested : Step) (expired : Bool) :
    Sound debug (b.advance owner requested expired) := by
  by_cases hdisposed : b.session.disposed = true
  · rw [Binding.advance, if_pos hdisposed]
    exact h.refuses hnone _
  have hopen : b.session.disposed = false := by simpa using hdisposed
  rw [Binding.advance, if_neg hdisposed]
  split
  case h_1 => exact h.refuses hnone _
  case h_2 w hw =>
    split_ifs
    · exact h.refuses hnone _
    · exact h.refuses hnone _
    · have hctl := h.attended.resting hnone w hw
      exact ⟨h.ledger.goes hw (Or.inr ⟨.advance requested expired, if_pos hctl⟩),
        .waits rfl hopen (h.attended.opened hopen).2 (fun hc => (by cases hc))
          fun _ => ⟨fun hc => (by cases hc), fun hc => (by cases hc)⟩⟩

theorem dispose (hnone : b.call = none) (owner : Bool) : Sound debug (b.dispose owner) := by
  rw [Binding.dispose]
  split_ifs with hdisposed
  · exact h.refuses hnone _
  have hledger : Ledgered debug b.past { b.session with
      disposed := true
      disposals := b.session.disposals + 1 } :=
    ⟨h.ledger.current, h.ledger.replaced, h.ledger.unused, h.ledger.count, h.ledger.unretained,
      h.ledger.retained, h.ledger.complete, fun _ hopen => (by cases hopen)⟩
  simp only
  split
  case h_1 hw =>
    exact ⟨hledger, .ends (h.attended.resting hnone) (fun hd => (by cases hd)) fun _ u hu => by
      simp [hw] at hu⟩
  case h_2 w hw =>
    have hctl := h.attended.resting hnone w hw
    have hgoes : w.Goes (if w.report.scheduleCompleted then w.finishFor owner
        else w.cleanupFor owner).1 := by
      split_ifs
      · exact World.finishFor_goes hctl owner
      · exact World.cleanupFor_goes hctl owner
    refine ⟨hledger.goes hw hgoes, ⟨fun hc => (by cases hc), fun _ _ => ⟨_, rfl⟩,
      fun hc => (by cases hc), fun hd => (by cases hd), fun _ => ⟨fun _ hc => (by cases hc),
        fun hc => (by cases hc), fun hc => (by cases hc)⟩, fun _ hc => ?_⟩⟩
    exact absurd rfl (hc _)

theorem retryCleanup (hnone : b.call = none) (owner : Bool) :
    Sound debug (b.retryCleanup owner) := by
  rw [Binding.retryCleanup]
  split_ifs with hopen
  · exact h.refuses hnone _
  have hdisposed : b.session.disposed = true := by simpa using hopen
  split
  case h_1 => exact h.refuses hnone _
  case h_2 w hw =>
    have hctl := h.attended.resting hnone w hw
    refine ⟨h.ledger.goes hw (World.cleanupFor_goes hctl owner), ⟨fun hc => (by cases hc),
      fun _ _ => ⟨_, rfl⟩, fun hc => (by cases hc),
      fun hd => absurd (hdisposed.symm.trans hd) Bool.noConfusion,
      fun _ => ⟨fun _ hc => (by cases hc), fun hc => (by cases hc), fun hc => (by cases hc)⟩,
      fun _ _ _ _ => ?_⟩⟩
    exact h.attended.settled hdisposed (by simp [hnone]) w hw

theorem resume {call : SessionCall} (hcall : b.call = some call) (hw : b.session.execution = some w)
    (hctl : w.ctl = .idle) (generation : ℕ) (executionId : String) :
    Sound debug (b.resume debug call w generation executionId) := by
  have hidle : ∀ u, b.session.execution = some u → u.ctl = .idle := fun u hu =>
    Option.some.inj (hw.symm.trans hu) ▸ hctl
  obtain ⟨hexecution, hdisposed, hdisposal, -⟩ := BindingSession.retain_frame debug b.session
  cases call with
  | finishing refused =>
    cases refused with
    | some e => exact h.returns hidle (by simp [hcall]) _
    | none =>
      have hopen : b.session.disposed = false := by
        by_contra hd
        exact (h.attended.closed (by simpa using hd)).1 none hcall
      have hended : w.closed = true ∨ w.report.outcome ≠ .completed := by
        rcases h.attended.closing hcall w hw with hc | hc | ⟨-, hc⟩
        · simp [hctl] at hc
        · simp [hctl, Ctl.stopped] at hc
        · exact hc
      rw [Binding.resume]
      simp only
      split_ifs with hfailed
      · refine ⟨h.ledger.retain hw fun _ => ?_, .ends (fun u hu => hidle u (hexecution ▸ hu))
          (fun _ => hdisposal.trans (h.attended.opened hopen).2) fun hd =>
            absurd (hopen.symm.trans (hdisposed.symm.trans hd)) Bool.noConfusion⟩
        rcases hfailed with hfailed | hfailed
        · exact Or.inl ⟨by simpa using hfailed, hended⟩
        · exact Or.inr (by simpa using hfailed)
      · simp only [not_or, Bool.not_eq_true', Bool.not_eq_false] at hfailed
        refine ⟨h.ledger.start hw hfailed.1 hopen hfailed.2 generation executionId,
          .waits rfl (hdisposed.trans hopen) (hdisposal.trans (h.attended.opened hopen).2)
            (fun hc => (by cases hc)) fun _ => ⟨fun hc => (by cases hc), fun hc => (by cases hc)⟩⟩
  | starting =>
    rw [Binding.resume, Binding.report]
    split_ifs <;> exact h.returns hidle (by simp [hcall]) _
  | advancing =>
    rw [Binding.resume, Binding.report]
    split_ifs <;> exact h.returns hidle (by simp [hcall]) _
  | disposing refused =>
    have hd : b.session.disposed = true := by
      by_contra hopen
      exact ((h.attended.opened (by simpa using hopen)).1 refused).1 hcall
    have hledger := h.ledger.settle hw hd refused
    obtain ⟨disposal, heq, -⟩ := BindingSession.settle_spec debug b.session w refused
    rw [Binding.resume]
    simp only [Binding.returns]
    refine ⟨hledger, .ends (fun u hu => ?_) (fun hopen => ?_) fun _ _ _ => ?_⟩
    · rw [heq] at hu
      exact hidle u (hexecution ▸ hu)
    · rw [heq] at hopen
      exact absurd (hd.symm.trans (hdisposed.symm.trans hopen)) Bool.noConfusion
    · rw [heq]
      exact BindingSession.retain_retained hw
  | retrying refused =>
    cases refused with
    | some e => exact h.returns hidle (by simp [hcall]) _
    | none =>
      obtain ⟨hd, hretained⟩ := h.attended.retrying hcall hw
      obtain ⟨hexecution, hdisposed, -, hretained', -⟩ := BindingSession.replace_frame debug b.session w
      rw [Binding.resume]
      split_ifs
      · exact h.returns hidle (by simp [hcall]) _
      · refine ⟨h.ledger.replace hw hd hretained, .ends (fun u hu => hidle u (hexecution ▸ hu))
          (fun hopen => ?_) fun _ _ _ => hretained'.trans hretained⟩
        exact absurd (hd.symm.trans (hdisposed.symm.trans hopen)) Bool.noConfusion

theorem cancel : Sound debug { b with session :=
    { b.session with
      cancel := true
      execution := b.session.execution.map fun w => { w with cancelled := true } } } := by
  have hflag : Sound debug { b with session := { b.session with cancel := true } } :=
    ⟨⟨h.ledger.current, h.ledger.replaced, h.ledger.unused, h.ledger.count, h.ledger.unretained,
      h.ledger.retained, h.ledger.complete, h.ledger.stuck⟩, ⟨h.attended.resting,
      h.attended.waiting, h.attended.closing, h.attended.opened, h.attended.closed,
      h.attended.settled⟩⟩
  obtain ⟨⟨_, _, current, _, _, _, _, _, _, _, _⟩, _, _, _⟩ := b
  cases current with
  | none => exact hflag
  | some w =>
    have hstep : w.step .cancel = some { w with cancelled := true } := rfl
    exact hflag.act rfl rfl hstep

end Sound

/-- The invariant holds in every reachable state. -/
theorem sound {debug : ThreadId → String} {b : Binding} (h : (bindings debug).Reachable b) :
    Sound debug b := by
  refine h.invariant (fun b hb => ?_) fun b action b' _ hb hstep => ?_
  · obtain ⟨setup, cancel, rfl⟩ := hb
    exact .new setup cancel
  cases action with
  | act action =>
    simp only [bindings, Binding.step, Option.ite_none_left_eq_some, not_or,
      Option.bind_eq_some_iff, Option.map_eq_some_iff] at hstep
    obtain ⟨⟨hcall, -⟩, w, hw, w', hw', rfl⟩ := hstep
    exact hb.act (by simpa using hcall) hw hw'
  | cancel =>
    cases hstep
    exact hb.cancel
  | initializes owner generation executionId =>
    simp only [bindings, Binding.step, Option.ite_none_right_eq_some, Option.isNone_iff_eq_none,
      Option.some.injEq] at hstep
    obtain ⟨hnone, rfl⟩ := hstep
    exact hb.initializes hnone owner generation executionId
  | advance owner requested expired =>
    simp only [bindings, Binding.step, Option.ite_none_right_eq_some, Option.isNone_iff_eq_none,
      Option.some.injEq] at hstep
    obtain ⟨hnone, rfl⟩ := hstep
    exact hb.advance hnone owner requested expired
  | dispose owner =>
    simp only [bindings, Binding.step, Option.ite_none_right_eq_some, Option.isNone_iff_eq_none,
      Option.some.injEq] at hstep
    obtain ⟨hnone, rfl⟩ := hstep
    exact hb.dispose hnone owner
  | retryCleanup owner =>
    simp only [bindings, Binding.step, Option.ite_none_right_eq_some, Option.isNone_iff_eq_none,
      Option.some.injEq] at hstep
    obtain ⟨hnone, rfl⟩ := hstep
    exact hb.retryCleanup hnone owner
  | resume generation executionId =>
    simp only [bindings, Binding.step] at hstep
    split at hstep
    case h_1 call w hcall hw =>
      obtain ⟨hctl, rfl⟩ := by simpa using hstep
      exact hb.resume hcall hw hctl generation executionId
    case h_2 => cases hstep

end MirrorRust
