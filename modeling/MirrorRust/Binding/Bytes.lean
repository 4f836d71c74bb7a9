import MirrorRust.Binding.Moves
import MirrorRust.Execution.Evidence

/-! The counter of a session against the receipts that it keeps. The replacement of a row takes the
length of the row away that was there, whether it had been counted or not. -/
namespace MirrorRust

/-- The length of the receipts among the rows. -/
def recorded (rows : List Json) : ℕ := rowBytes (rows.filter fun row => row ≠ evidenceError)

theorem recorded_concat {rows : List Json} {row : Json} (h : row ≠ evidenceError) :
    recorded (rows ++ [row]) = recorded rows + row.bytes := by
  simp [recorded, h]

theorem recorded_evidenceError (rows : List Json) :
    recorded (rows ++ [evidenceError]) = recorded rows := by
  simp [recorded]

/-! ### The bound -/

/-- The counter is within the limit, and it falls short of the rows by one placeholder at most. -/
structure Weighed (s : BindingSession) : Prop where
  limit : s.receiptBytes ≤ receiptLimit
  complete : s.receiptComplete = true → s.receiptBytes = rowBytes s.executions
  total : rowBytes s.executions ≤ s.receiptBytes + evidenceError.bytes

namespace Weighed
variable {debug : ThreadId → String} {past : List World} {s : BindingSession} {w : World}

theorem new (setup : Setup) (cancel : Bool) : Weighed (.new setup cancel) where
  limit := Nat.zero_le _
  complete _ := rfl
  total := Nat.zero_le _

variable (h : Weighed s)
include h

theorem retain (hs : Ledgered debug past s) (hw : s.execution = some w) :
    Weighed (s.retain debug) := by
  rcases BindingSession.retain_spec debug hw with ⟨-, heq⟩ | ⟨hretained, -, heq⟩ |
    ⟨hretained, hlimit, heq⟩ <;> rw [heq]
  · exact h
  all_goals
    have hcomplete : s.receiptComplete = true := by
      by_contra hc
      exact Bool.false_ne_true (hretained.symm.trans (hs.complete (by simpa using hc)))
    have hbytes := h.complete hcomplete
  · refine ⟨h.limit, fun hc => (by cases hc), ?_⟩
    simp only [rowBytes_concat]
    omega
  · refine ⟨hlimit, fun _ => ?_, ?_⟩ <;> simp only [rowBytes_concat] <;> omega

theorem replace (hs : Ledgered debug past s) (hretained : s.retained = true) :
    Weighed (s.replace debug w) := by
  obtain ⟨-, row, -, hrows, -⟩ := hs.retained hretained
  rcases BindingSession.replace_spec (w := w) hretained hrows with ⟨hlimit, heq⟩ | ⟨-, heq⟩ <;> rw [heq]
  · have htotal := h.total
    have hcomplete := h.complete
    rw [hrows, rowBytes_concat] at htotal hcomplete
    refine ⟨hlimit, fun hc => ?_, ?_⟩
    · simp only [rowBytes_concat]
      have := hcomplete hc
      omega
    · simp only [rowBytes_concat]
      omega
  · exact ⟨h.limit, fun hc => (by cases hc), h.total⟩

end Weighed

theorem weighed {debug : ThreadId → String} {b : Binding} (h : (bindings debug).Reachable b) :
    Weighed b.session := by
  refine h.invariant (P := fun b => Weighed b.session) (fun b hb => ?_) fun b action b' hr hm hstep => ?_
  · obtain ⟨setup, cancel, rfl⟩ := hb
    exact .new setup cancel
  have hs := sound hr
  cases hs.move hstep with
  | stays _ _ _ hsession | disposes _ _ _ hsession | starts _ _ _ _ _ hsession _ =>
    rw [hsession]
    exact ⟨hm.limit, hm.complete, hm.total⟩
  | retains w hw _ _ hsession =>
    rw [hsession]
    exact hm.retain hs.ledger hw
  | restarts w _ _ hw _ _ _ hsession =>
    rw [hsession]
    have hretain := hm.retain hs.ledger hw
    exact ⟨hretain.limit, hretain.complete, hretain.total⟩
  | settles w refused hw _ hsession =>
    obtain ⟨disposal, heq, -⟩ := BindingSession.settle_spec debug b.session w refused
    have hretain := hm.retain hs.ledger hw
    rw [hsession, heq]
    exact ⟨hretain.limit, hretain.complete, hretain.total⟩
  | replaces w _ _ _ hw hcall _ hsession =>
    rw [hsession]
    exact hm.replace hs.ledger (hs.attended.retrying hcall hw).2

/-! ### The drift -/

/-- The step replaces a row that stands for a receipt which has not been counted, and the counter
has something to take its length from. -/
def Binding.skews (debug : ThreadId → String) (b : Binding) : SessionAction → Bool
  | .resume _ _ =>
    match b.call, b.session.execution with
    | some (.retrying none), some w =>
      decide (w.report.cleanup = .confirmed ∧
        b.session.executions.getLast? = some evidenceError ∧ 0 < b.session.receiptBytes ∧
        b.session.receiptBytes - evidenceError.bytes + (w.receipt debug).bytes ≤ receiptLimit)
    | _, _ => false
  | _ => false

/-- The runs of a session in which no step skews the counter. -/
def levelBindings (debug : ThreadId → String) : TransitionSystem Binding SessionAction :=
  (bindings debug).restrict fun b action => b.skews debug action = false

/-- The counter is the length of the receipts. -/
def Level (s : BindingSession) : Prop := s.receiptBytes = recorded s.executions

/-- The counter has lost a part of what the receipts before the last take. -/
structure Skewed (s : BindingSession) : Prop where
  retained : s.retained = true
  complete : s.receiptComplete = false
  short : ∃ rows row, s.executions = rows ++ [row] ∧ row ≠ evidenceError ∧
    row.bytes ≤ s.receiptBytes ∧ s.receiptBytes < recorded rows + row.bytes

theorem Skewed.lt {s : BindingSession} (h : Skewed s) : s.receiptBytes < recorded s.executions := by
  obtain ⟨rows, row, hrows, hrow, -, hlt⟩ := h.short
  rw [hrows, recorded_concat hrow]
  exact hlt

section Drift
variable {debug : ThreadId → String} {past : List World} {s : BindingSession} {w : World}

theorem Level.retain (h : Level s) (debug : ThreadId → String) (hw : s.execution = some w) : Level (s.retain debug) := by
  rcases BindingSession.retain_spec debug hw with ⟨-, heq⟩ | ⟨-, -, heq⟩ | ⟨-, -, heq⟩ <;>
    rw [heq]
  · exact h
  · exact h.trans (recorded_evidenceError _).symm
  · rw [Level, recorded_concat (receipt_ne debug w), ← h]

/-- A row that has been counted is replaced without a trace; so is one that has not when the
counter is zero. -/
theorem Level.replace (h : Level s) (hretained : s.retained = true)
    (hs : Ledgered debug past s)
    (hlevel : ¬ (s.executions.getLast? = some evidenceError ∧ 0 < s.receiptBytes ∧
      s.receiptBytes - evidenceError.bytes + (w.receipt debug).bytes ≤ receiptLimit)) :
    Level (s.replace debug w) := by
  obtain ⟨-, row, -, hrows, -⟩ := hs.retained hretained
  rcases BindingSession.replace_spec (w := w) hretained hrows with ⟨hlimit, heq⟩ | ⟨-, heq⟩ <;> rw [heq]
  · rw [Level, recorded_concat (receipt_ne debug w)]
    simp only
    by_cases hrow : row = evidenceError
    · have hlast : s.executions.getLast? = some evidenceError := by simp [hrows, hrow]
      have hzero : s.receiptBytes = 0 := by
        by_contra hpos
        exact hlevel ⟨hlast, Nat.pos_of_ne_zero hpos, hrow ▸ hlimit⟩
      rw [Level, hrows, hrow, recorded_evidenceError] at h
      omega
    · rw [Level, hrows, recorded_concat hrow] at h
      omega
  · exact h

theorem Level.skew (h : Level s) (hretained : s.retained = true) (hs : Ledgered debug past s)
    (hlast : s.executions.getLast? = some evidenceError) (hpos : 0 < s.receiptBytes)
    (hlimit : s.receiptBytes - evidenceError.bytes + (w.receipt debug).bytes ≤ receiptLimit) :
    Skewed (s.replace debug w) := by
  obtain ⟨-, row, -, hrows, -, hcomplete⟩ := hs.retained hretained
  obtain rfl : row = evidenceError := by simpa [hrows] using hlast
  rcases BindingSession.replace_spec (w := w) hretained hrows with ⟨-, heq⟩ | ⟨hfull, -⟩
  · rw [Level, hrows, recorded_evidenceError] at h
    have hbytes : 0 < evidenceError.bytes := by decide +kernel
    rw [heq]
    refine ⟨hretained, hcomplete rfl, _, _, rfl, receipt_ne debug w, ?_, ?_⟩
    · simp only
      omega
    · simp only
      omega
  · exact absurd hlimit (not_le.mpr hfull)

theorem Skewed.replace (h : Skewed s) : Skewed (s.replace debug w) := by
  obtain ⟨rows, row, hrows, hrow, hle, hlt⟩ := h.short
  rcases BindingSession.replace_spec (w := w) h.retained hrows with ⟨hlimit, heq⟩ | ⟨-, heq⟩ <;> rw [heq]
  · refine ⟨h.retained, h.complete, rows, _, rfl, receipt_ne debug w, ?_, ?_⟩
    · simp only
      omega
    · simp only
      omega
  · exact ⟨h.retained, rfl, rows, row, hrows, hrow, hle, hlt⟩

end Drift

section Steps
variable {debug : ThreadId → String} {b b' : Binding} {action : SessionAction}

theorem Binding.skews_iff {w : World} (hw : b.session.execution = some w)
    (hcall : b.call = some (.retrying none)) (generation : ℕ) (executionId : String) :
    b.skews debug (.resume generation executionId) = true ↔ w.report.cleanup = .confirmed ∧
      b.session.executions.getLast? = some evidenceError ∧ 0 < b.session.receiptBytes ∧
        b.session.receiptBytes - evidenceError.bytes + (w.receipt debug).bytes ≤ receiptLimit := by
  simp only [skews, hcall, hw, decide_eq_true_eq]

theorem Level.step (h : Level b.session) (hs : Sound debug b)
    (hstep : b.step debug action = some b') (hlevel : b.skews debug action = false) :
    Level b'.session := by
  cases hs.move hstep with
  | stays _ _ _ hsession | disposes _ _ _ hsession | starts _ _ _ _ _ hsession _ =>
    rw [hsession]
    exact h
  | retains w hw _ _ hsession | restarts w _ _ hw _ _ _ hsession =>
    rw [hsession]
    exact h.retain debug hw
  | settles w refused hw _ hsession =>
    obtain ⟨disposal, heq, -⟩ := BindingSession.settle_spec debug b.session w refused
    rw [hsession, heq]
    exact h.retain debug hw
  | replaces w generation executionId haction hw hcall hcleanup hsession =>
    subst haction
    rw [hsession]
    refine h.replace (hs.attended.retrying hcall hw).2 hs.ledger fun hskews => ?_
    exact Bool.false_ne_true (hlevel.symm.trans
      ((Binding.skews_iff hw hcall generation executionId).mpr ⟨hcleanup, hskews⟩))

theorem Level.skewed (h : Level b.session) (hs : Sound debug b)
    (hstep : b.step debug action = some b') (hskews : b.skews debug action = true) :
    Skewed b'.session := by
  unfold Binding.skews at hskews
  split at hskews
  case h_2 => cases hskews
  case h_1 generation executionId =>
    split at hskews
    case h_2 => cases hskews
    case h_1 w hcall hw =>
      obtain ⟨hcleanup, hlast, hpos, hlimit⟩ := of_decide_eq_true hskews
      simp only [Binding.step, hcall, hw, Option.ite_none_right_eq_some, Option.some.injEq] at hstep
      obtain ⟨-, rfl⟩ := hstep
      simp only [Binding.resume, hcleanup, ne_eq, not_true_eq_false, if_false]
      exact h.skew (hs.attended.retrying hcall hw).2 hs.ledger hlast hpos hlimit

theorem Skewed.step (h : Skewed b.session) (hs : Sound debug b)
    (hstep : b.step debug action = some b') : Skewed b'.session := by
  have hretain : b.session.retain debug = b.session := by
    rw [BindingSession.retain, if_pos h.retained]
  cases hs.move hstep with
  | stays _ _ _ hsession | disposes _ _ _ hsession =>
    rw [hsession]
    exact ⟨h.retained, h.complete, h.short⟩
  | starts _ _ hw _ _ hsession =>
    obtain ⟨w, -, hw', -⟩ := hs.ledger.retained h.retained
    exact absurd (hw.symm.trans hw') (by simp)
  | retains w hw _ _ hsession =>
    rw [hsession, hretain]
    exact h
  | restarts w _ _ hw _ _ hcomplete hsession =>
    rw [hretain, h.complete] at hcomplete
    cases hcomplete
  | settles w refused hw _ hsession =>
    obtain ⟨disposal, heq, -⟩ := BindingSession.settle_spec debug b.session w refused
    rw [hsession, heq, hretain]
    exact ⟨h.retained, h.complete, h.short⟩
  | replaces w _ _ _ _ _ _ hsession =>
    rw [hsession]
    exact h.replace

theorem run_level (hr : (bindings debug).Reachable b) (h : Level b.session)
    {actions : List SessionAction} (hrun : (levelBindings debug).run b actions = some b') :
    Level b'.session := by
  induction actions generalizing b with
  | nil =>
    cases hrun
    exact h
  | cons action actions ih =>
    obtain ⟨u, hu, hrun⟩ := TransitionSystem.run_cons.mp hrun
    obtain ⟨hlevel, hstep⟩ := TransitionSystem.restrict_step.mp hu
    exact ih (hr.step hstep) (h.step (sound hr) hstep hlevel) hrun

theorem run_skewed (hr : (bindings debug).Reachable b) (h : Skewed b.session)
    {actions : List SessionAction} (hrun : (bindings debug).run b actions = some b') :
    Skewed b'.session := by
  refine hr.run_induction (R := fun b b' => Skewed b.session → Skewed b'.session) hrun
    (fun _ h => h) (fun b u action v hbu hu hstep h => ?_) h
  exact (hbu h).step (sound hu) hstep

end Steps

/-- The counter is the length of the receipts that a session keeps as long as no cleanup that is
retried puts a receipt in the place of one that was too long, while the counter is not zero; from
then on it falls short for good. The rows never take more than the limit and one placeholder. -/
theorem receipt_bytes_iff {debug : ThreadId → String} {b b' : Binding}
    (hinit : (bindings debug).init b) {actions : List SessionAction}
    (hrun : (bindings debug).run b actions = some b') :
    (b'.session.receiptBytes = recorded b'.session.executions ↔
      (levelBindings debug).run b actions = some b') ∧
    b'.session.receiptBytes ≤ recorded b'.session.executions ∧
    b'.session.receiptBytes ≤ 16 * 1_048_576 ∧
    rowBytes b'.session.executions ≤ b'.session.receiptBytes + 62 ∧
    (b'.session.receiptComplete = true →
      b'.session.receiptBytes = rowBytes b'.session.executions) := by
  have hr : (bindings debug).Reachable b := .init hinit
  have hlevel : Level b.session := by
    obtain ⟨setup, cancel, rfl⟩ := hinit
    rfl
  have hweighed := weighed (hr.run hrun)
  have hplaceholder : evidenceError.bytes = 62 := by decide +kernel
  have htotal := hplaceholder ▸ hweighed.total
  have hbound := hweighed.limit
  rcases TransitionSystem.restrict_run_or (P := fun b action => b.skews debug action = false) hrun with
    hkept | ⟨before, action, after, u, v, -, hbefore, hskews, hstep, hafter⟩
  · have hlevel' := run_level hr hlevel hkept
    exact ⟨iff_of_true hlevel' hkept, hlevel'.le, hbound, htotal, hweighed.complete⟩
  · have hu : (levelBindings debug).Reachable u :=
      TransitionSystem.Reachable.run (.init hinit) hbefore
    have hskewed : Skewed v.session :=
      (run_level hr hlevel hbefore).skewed (sound hu.of_restrict) hstep (by simpa using hskews)
    have hlt := (run_skewed (hu.of_restrict.step hstep) hskewed hafter).lt
    exact ⟨iff_of_false hlt.ne fun hkept => hlt.ne (run_level hr hlevel hkept), hlt.le, hbound, htotal,
      hweighed.complete⟩

namespace Solo

/-- A session that has started its first execution. -/
def opened : Binding := (Binding.new setup false).begin 1 "0123456789abcdef0123456789abcdef"

/-- The steps of an execution with the calls of the session around them. -/
def owned (actions : List Action) : List SessionAction :=
  actions.flatMap fun action =>
    match action with
    | .advance requested expired => [.resume 0 "", .advance true requested expired]
    | action => [.act action]

/-- The execution runs to its end. -/
def passing : List SessionAction := owned (started ++ finished) ++ [.resume 0 ""]

/-- The receipt leaves room for others. -/
def brief (w : World) : Bool :=
  decide (((w.receipt toString).chars.map Char.utf8Size).sum ≤ 1_048_576)

theorem bytes_of_brief {w : World} (h : brief w = true) : (w.receipt toString).bytes ≤ 1_048_576 := by
  rw [Json.bytes_eq]
  exact of_decide_eq_true h

/-- Between two calls of the owner, the first execution of the session has passed. -/
structure Rests (b : Binding) (w : World) : Prop where
  call : b.call = none
  execution : b.session.execution = some w
  ctl : w.ctl = .idle
  closed : w.closed = true
  completed : w.report.scheduleCompleted = true
  cleanup : w.report.cleanup = .confirmed
  passed : w.report.passed = true
  brief : brief w = true
  cancel : b.session.cancel = false
  bytes : b.session.receiptBytes = 0
  count : b.session.initializations = 1
  opened : b.session.disposed = false
  unretained : b.session.retained = false
  complete : b.session.receiptComplete = true
  disposal : succeeded b.session.disposal = true

theorem run_passing : ((bindings toString).run (opened.setWorld (world.goto .creating))
    passing).any (fun b => b.call.isNone && b.session.execution.any fun w =>
      decide (w.ctl = .idle ∧ w.closed = true ∧ w.report.scheduleCompleted = true ∧
        w.report.cleanup = .confirmed ∧ w.report.passed = true ∧ brief w = true ∧
        b.session.cancel = false ∧ b.session.receiptBytes = 0 ∧ b.session.initializations = 1 ∧
        b.session.disposed = false ∧ b.session.retained = false ∧
        b.session.receiptComplete = true ∧ succeeded b.session.disposal = true)) = true := by
  decide +kernel

/-- The first execution of a session passes. -/
theorem rests : ∃ b w, (bindings toString).run (.new setup false)
    (.initializes true 1 "0123456789abcdef0123456789abcdef" :: .act (.enter false) :: passing) =
      some b ∧ Rests b w := by
  obtain ⟨b, hb, hrests⟩ := (Option.any_eq_true _ _).mp run_passing
  simp only [Bool.and_eq_true, Option.isNone_iff_eq_none, Option.any_eq_true,
    decide_eq_true_eq] at hrests
  obtain ⟨hcall, w, hw, hctl, hclosed, hcompleted, hcleanup, hpassed, hbrief, hcancel, hbytes, hcount,
    hopened, hunretained, hcomplete, hdisposal⟩ := hrests
  have hinitializes : (bindings toString).step (.new setup false)
      (.initializes true 1 "0123456789abcdef0123456789abcdef") = some opened := rfl
  have henter : (bindings toString).step opened (.act (.enter false)) =
      some (opened.setWorld (world.goto .creating)) :=
    congrArg (Option.map opened.setWorld) step_enter
  exact ⟨b, w, TransitionSystem.run_cons.mpr ⟨_, hinitializes, TransitionSystem.run_cons.mpr
    ⟨_, henter, hb⟩⟩, hcall, hw, hctl, hclosed, hcompleted, hcleanup, hpassed, hbrief, hcancel, hbytes,
    hcount, hopened, hunretained, hcomplete, hdisposal⟩

namespace Rests
variable {b : Binding} {w : World}

theorem limit (h : Rests b w) : b.session.receiptBytes + (w.receipt toString).bytes ≤ receiptLimit := by
  have hbrief := bytes_of_brief h.brief
  have hlimit : receiptLimit = 16_777_216 := rfl
  have hbytes := h.bytes
  omega

/-- Nothing has been retained before. -/
theorem first (h : Rests b w) (hr : (bindings toString).Reachable b) :
    b.past = [] ∧ b.session.executions = [] := by
  have hledger := (sound hr).ledger
  have hcount := hledger.count
  rw [h.count, h.execution] at hcount
  have hpast : b.past = [] := List.eq_nil_of_length_eq_zero (by simpa using hcount)
  exact ⟨hpast, by rw [hledger.unretained h.unretained, hpast, List.map_nil]⟩

theorem finishFor (h : Rests b w) : w.finishFor true = (w, none) := by
  simp [World.finishFor, World.finish, h.closed]

/-- The next execution starts. -/
theorem renews (h : Rests b w) (generation : ℕ) (executionId : String) :
    ∃ c : Binding, (bindings toString).run b
        [.initializes true 0 "", .resume generation executionId] = some c ∧
      c.call = some .starting ∧ c.past = b.past ++ [w] ∧
      c.session.execution = some (.new b.session.setup false generation executionId) ∧
      c.session.disposed = false ∧ c.session.retained = false ∧ c.session.receiptComplete = true ∧
      c.session.initializations = 2 ∧ c.session.receiptBytes = (w.receipt toString).bytes ∧
      c.session.executions = b.session.executions ++ [w.receipt toString] := by
  have hfinishing : (bindings toString).step b (.initializes true 0 "") =
      some { b with call := some (.finishing none) } := by
    obtain ⟨⟨_, _, _, _, _, _, _, _, _, _, _⟩, _, _, _⟩ := b
    cases h.call
    cases h.execution
    cases h.count
    cases h.opened
    simp only [bindings, Binding.step, Binding.initializeExecution, h.finishFor]
    rfl
  have hretain := BindingSession.retain_within toString h.execution h.unretained h.limit
  have hresume := Binding.step_resume toString (b := { b with call := some (.finishing none) }) rfl
    h.execution h.ctl generation executionId
  refine ⟨_, TransitionSystem.run_cons.mpr ⟨_, hfinishing, TransitionSystem.run_cons.mpr
    ⟨_, hresume, rfl⟩⟩, ?_⟩
  rw [Binding.resume]
  simp only
  rw [if_neg (by simp [h.passed, hretain, h.complete]), hretain]
  refine ⟨rfl, rfl, ?_, h.opened, rfl, h.complete, ?_, ?_, rfl⟩
  · exact congrArg (fun cancel => some (World.new b.session.setup cancel generation executionId))
      h.cancel
  · exact congrArg (· + 1) h.count
  · show b.session.receiptBytes + (w.receipt toString).bytes = _
    rw [h.bytes, Nat.zero_add]

/-- The session is disposed of. -/
theorem disposes (h : Rests b w) : ∃ b', (bindings toString).run b [.dispose true, .resume 0 ""] =
    some b' ∧ b'.call = none ∧ b'.session.disposed = true ∧ b'.session.initializations = 1 ∧
      succeeded b'.session.disposal = true ∧ b'.session.receiptComplete = true ∧
      b'.session.executions = b.session.executions ++ [w.receipt toString] := by
  let s : BindingSession := { b.session with
    disposed := true
    disposals := b.session.disposals + 1 }
  have hdispose : (bindings toString).step b (.dispose true) =
      some { b with session := s, call := some (.disposing none) } := by
    obtain ⟨⟨_, _, _, _, _, _, _, _, _, _, _⟩, _, _, _⟩ := b
    cases h.call
    cases h.execution
    cases h.opened
    simp only [bindings, Binding.step, Binding.dispose, h.completed, h.finishFor]
    rfl
  have hsettle := BindingSession.settle_within toString (s := s) h.execution h.unretained h.limit
    h.complete
  rw [if_pos h.cleanup] at hsettle
  have hresume := Binding.step_resume toString
    (b := { b with session := s, call := some (.disposing none) }) rfl h.execution h.ctl 0 ""
  refine ⟨_, TransitionSystem.run_cons.mpr ⟨_, hdispose, TransitionSystem.run_cons.mpr
    ⟨_, hresume, rfl⟩⟩, ?_⟩
  rw [Binding.resume, Binding.returns, hsettle]
  exact ⟨rfl, rfl, h.count, h.disposal, h.complete, rfl⟩

end Rests

/-! The worker of the second execution does not end in time for the disposal. It does so for a
cleanup that is tried again, and the receipt is replaced. -/

def second : World := .new setup false 2 "fedcba9876543210fedcba9876543210"

def begun : List Action :=
  [.create (.program ["a"]), .spawn (.ok 7), .start 0, .control false, .control false,
    .observer (.ok .null), .control false, .control false]

def expired : List Action := [.control false, .control true, .control false, .control false]

def released : List Action := [.wake 0, .settle 0, .terminate 0 false]

def cleaned : List Action :=
  [.control false, .control false, .control false, .control false, .teardown (.ok ()),
    .control false]

theorem run_second : (execution.run (second.goto .creating) begun).any (fun w₁ =>
    decide (w₁.ctl = .idle ∧ w₁.report.outcome = .completed ∧ w₁.report.scheduleCompleted = false ∧
      (w₁.cleanupFor true).2 = none) &&
    (execution.run (w₁.cleanupFor true).1 expired).any fun w₂ =>
      decide (w₂.ctl = .idle ∧ w₂.report.cleanup = .incomplete ∧ brief w₂ = true) &&
      (execution.run w₂ released).any fun w₃ =>
        decide ((w₃.cleanupFor true).2 = none) &&
        (execution.run (w₃.cleanupFor true).1 cleaned).any fun w₄ =>
          decide (w₄.ctl = .idle ∧ w₄.report.cleanup = .confirmed ∧ brief w₄ = true)) = true := by
  decide +kernel

/-- The states of the second execution in which it is started, given up, ended and cleaned up. -/
structure Interrupted (w₁ w₂ w₃ w₄ : World) : Prop where
  begun : execution.run second (.enter false :: begun) = some w₁
  idle : w₁.ctl = .idle ∧ w₂.ctl = .idle ∧ w₄.ctl = .idle
  outcome : w₁.report.outcome = .completed
  uncompleted : w₁.report.scheduleCompleted = false
  budget : (w₁.cleanupFor true).2 = none ∧ (w₃.cleanupFor true).2 = none
  expired : execution.run (w₁.cleanupFor true).1 expired = some w₂
  incomplete : w₂.report.cleanup = .incomplete
  brief : (w₂.receipt toString).bytes ≤ 1_048_576 ∧ (w₄.receipt toString).bytes ≤ 1_048_576
  released : execution.run w₂ released = some w₃
  cleaned : execution.run (w₃.cleanupFor true).1 cleaned = some w₄
  confirmed : w₄.report.cleanup = .confirmed

theorem interrupted : ∃ w₁ w₂ w₃ w₄, Interrupted w₁ w₂ w₃ w₄ := by
  obtain ⟨w₁, hbegun, hrest⟩ := (Option.any_eq_true _ _).mp run_second
  obtain ⟨hw₁, hrest⟩ := Bool.and_eq_true_iff.mp hrest
  obtain ⟨hidle₁, houtcome, huncompleted, hbudget₁⟩ := of_decide_eq_true hw₁
  obtain ⟨w₂, hexpired, hrest⟩ := (Option.any_eq_true _ _).mp hrest
  obtain ⟨hw₂, hrest⟩ := Bool.and_eq_true_iff.mp hrest
  obtain ⟨hidle₂, hincomplete, hbrief₂⟩ := of_decide_eq_true hw₂
  obtain ⟨w₃, hreleased, hrest⟩ := (Option.any_eq_true _ _).mp hrest
  obtain ⟨hw₃, hrest⟩ := Bool.and_eq_true_iff.mp hrest
  obtain ⟨w₄, hcleaned, hw₄⟩ := (Option.any_eq_true _ _).mp hrest
  obtain ⟨hidle₄, hconfirmed, hbrief₄⟩ := of_decide_eq_true hw₄
  have hsecond := TransitionSystem.run_cons.mpr ⟨_, @World.step_enter setup admitted _ _, hbegun⟩
  exact ⟨w₁, w₂, w₃, w₄, hsecond, ⟨hidle₁, hidle₂, hidle₄⟩, houtcome, huncompleted,
    ⟨hbudget₁, of_decide_eq_true hw₃⟩, hexpired, hincomplete,
    ⟨bytes_of_brief hbrief₂, bytes_of_brief hbrief₄⟩, hreleased, hcleaned, hconfirmed⟩

namespace Interrupted
variable {b : Binding} {w₁ w₂ w₃ w₄ : World}

theorem starts (h : Interrupted w₁ w₂ w₃ w₄) (hcall : b.call = some .starting)
    (hw : b.session.execution = some second) :
    (bindings toString).run b ((Action.enter false :: Solo.begun).map .act ++ [.resume 0 ""]) =
      some ((b.setWorld w₁).returns (.ok ())) := by
  have hrun := Binding.run_call toString (by decide) h.idle.1 hcall h.begun
  have hsame : b.setWorld second = b := by rw [Binding.setWorld, ← hw]
  rw [hsame, Binding.resume, Binding.report, if_neg (by simp [h.outcome])] at hrun
  exact hrun

/-- The disposal keeps the receipt of an execution that is not cleaned up. -/
theorem disposes (h : Interrupted w₁ w₂ w₃ w₄) (hcall : b.call = none)
    (hw : b.session.execution = some w₁) (hopened : b.session.disposed = false)
    (hunretained : b.session.retained = false) (hcomplete : b.session.receiptComplete = true)
    (hbytes : b.session.receiptBytes ≤ 1_048_576) :
    ∃ c : Binding, (bindings toString).run b
        (.dispose true :: (Solo.expired.map .act ++ [.resume 0 ""])) = some c ∧ c.call = none ∧
      c.past = b.past ∧ c.session.execution = some w₂ ∧ c.session.disposed = true ∧
      c.session.initializations = b.session.initializations ∧ c.session.retained = true ∧
      c.session.receiptComplete = true ∧
      c.session.receiptBytes = b.session.receiptBytes + (w₂.receipt toString).bytes ∧
      c.session.executions = b.session.executions ++ [w₂.receipt toString] := by
  obtain ⟨c, hc, hsettle, hnone, hpast⟩ := Binding.run_dispose toString (by decide) h.idle.2.1 hcall
    hw hopened h.uncompleted h.budget.1 h.expired
  have hroom : b.session.receiptBytes + (w₂.receipt toString).bytes ≤ receiptLimit := by
    have hlimit : receiptLimit = 16_777_216 := rfl
    have hbrief := h.brief.1
    omega
  have hkept := hsettle.trans (BindingSession.settle_within toString rfl hunretained hroom hcomplete)
  refine ⟨c, hc, hnone, hpast, ?_⟩
  rw [hkept]
  exact ⟨rfl, rfl, rfl, rfl, hcomplete, rfl, rfl⟩

/-- The cleanup that is tried again replaces the receipt. -/
theorem retries (h : Interrupted w₁ w₂ w₃ w₄) {rows : List Json} (hcall : b.call = none)
    (hw : b.session.execution = some w₂) (hdisposed : b.session.disposed = true)
    (hretained : b.session.retained = true)
    (hrows : b.session.executions = rows ++ [w₂.receipt toString])
    (hbytes : b.session.receiptBytes ≤ 2_097_152) :
    ∃ (actions : List SessionAction) (c : Binding), (bindings toString).run b actions = some c ∧
      .retryCleanup true ∈ actions ∧ c.past = b.past ∧ c.session.disposed = true ∧
      c.session.initializations = b.session.initializations ∧
      c.session.receiptComplete = b.session.receiptComplete ∧
      c.session.executions = rows ++ [w₄.receipt toString] := by
  have hends := Binding.run_acts toString (by decide) h.released b
  have hsame : b.setWorld w₂ = b := by rw [Binding.setWorld, ← hw]
  rw [hsame] at hends
  obtain ⟨c, hc, hreplace, hpast⟩ := Binding.run_retryCleanup toString (b := b.setWorld w₃)
    (by decide) h.idle.2.2 hcall rfl hdisposed h.budget.2 h.cleaned h.confirmed
  refine ⟨_, c, TransitionSystem.run_append hends hc, by simp, hpast, ?_⟩
  rcases BindingSession.replace_spec (s := { (b.setWorld w₃).session with execution := some w₄ })
    (w := w₄) hretained hrows with ⟨-, heq⟩ | ⟨hfull, -⟩
  · rw [hreplace.trans heq]
    exact ⟨hdisposed, rfl, rfl, rfl⟩
  · have hfull : receiptLimit < b.session.receiptBytes - (w₂.receipt toString).bytes +
      (w₄.receipt toString).bytes := hfull
    have hlimit : receiptLimit = 16_777_216 := rfl
    have hbrief := h.brief.2
    omega

end Interrupted

/-- Two executions: the first one passes, the receipt of the second one is replaced. -/
theorem two : ∃ (actions : List SessionAction) (b : Binding) (u v : World),
    (bindings toString).run (.new setup false) actions = some b ∧ .retryCleanup true ∈ actions ∧
    b.session.disposed = true ∧ b.session.initializations = 2 ∧ b.past = [u] ∧
    b.session.receiptComplete = true ∧ u.report.passed = true ∧ v.report.cleanup = .confirmed ∧
    b.session.executions = [u.receipt toString, v.receipt toString] := by
  obtain ⟨b, u, hb, h⟩ := rests
  obtain ⟨w₁, w₂, w₃, w₄, hsecond⟩ := interrupted
  have hr : (bindings toString).Reachable (.new setup false) := .init ⟨_, _, rfl⟩
  obtain ⟨hpast, hrows⟩ := h.first (hr.run hb)
  have hsetup : b.session.setup = setup := run_setup hr hb
  have hbrief := bytes_of_brief h.brief
  obtain ⟨c, hc, hcall, hpast₁, hworld, hopened, hunretained, hcomplete, hcount, hbytes, hrows₁⟩ :=
    h.renews 2 "fedcba9876543210fedcba9876543210"
  rw [hsetup] at hworld
  have hstart := hsecond.starts hcall hworld
  obtain ⟨d, hd, hnone, hpast₂, hexecution, hdisposed, hcount₂, hretained, hcomplete₂, hbytes₂, hrows₂⟩ :=
    hsecond.disposes (b := (c.setWorld w₁).returns (.ok ())) rfl rfl hopened hunretained hcomplete
      (hbytes.trans_le hbrief)
  have hbound : d.session.receiptBytes ≤ 2_097_152 := by
    have hfirst : d.session.receiptBytes = c.session.receiptBytes + _ := hbytes₂
    have hbrief₂ := hsecond.brief.1
    omega
  obtain ⟨actions, e, he, hretry, hpast₃, hdisposed₃, hcount₃, hcomplete₃, hrows₃⟩ :=
    hsecond.retries hnone hexecution hdisposed hretained hrows₂ hbound
  have hrun := TransitionSystem.run_append hb (TransitionSystem.run_append hc
    (TransitionSystem.run_append hstart (TransitionSystem.run_append hd he)))
  refine ⟨_, e, u, w₄, hrun, by simp [hretry], hdisposed₃, hcount₃.trans (hcount₂.trans hcount), ?_,
    hcomplete₃.trans hcomplete₂, h.passed, hsecond.confirmed, ?_⟩
  · rw [hpast₃, hpast₂]
    exact hpast₁.trans (congrArg (· ++ [u]) hpast)
  · exact hrows₃.trans (congrArg (· ++ _) (hrows₁.trans (congrArg (· ++ _) hrows)))

end Solo

/-- In a session of two executions the receipt of the second one is replaced. -/
theorem receipt_bytes_two : ∃ (actions : List SessionAction) (b : Binding) (u v : World),
    (levelBindings toString).run (.new Solo.setup false) actions = some b ∧
      .retryCleanup true ∈ actions ∧ u.report.passed = true ∧ v.report.cleanup = .confirmed ∧
      b.session.executions = [u.receipt toString, v.receipt toString] ∧
      b.session.receiptBytes = (u.receipt toString).bytes + (v.receipt toString).bytes := by
  obtain ⟨actions, b, u, v, hrun, hretry, -, -, -, hcomplete, hpassed, hconfirmed, hrows⟩ := Solo.two
  obtain ⟨hiff, -, -, -, hcounted⟩ := receipt_bytes_iff ⟨_, _, rfl⟩ hrun
  have hbytes := hcounted hcomplete
  refine ⟨actions, b, u, v, hiff.mp ?_, hretry, hpassed, hconfirmed, hrows, ?_⟩
  · rw [hbytes, hrows, recorded, List.filter_eq_self.mpr]
    simp [receipt_ne]
  · simp [hbytes, hrows, rowBytes]

end MirrorRust
