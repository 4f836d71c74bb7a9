import MirrorRust.Execution.RunSchedule
import MirrorRust.NegotiatedRunner

/-! The session of a generated binding, which starts one execution after the other and keeps their
receipts. A call of its owner goes on while the execution is in the middle of a call; the threads of
the execution move all the while. -/
namespace MirrorRust

def Outcome.debug : Outcome → String
  | .completed => "Completed"
  | .invalidSchedule => "InvalidSchedule"
  | .incompatibleIdentity => "IncompatibleIdentity"
  | .cancelled => "Cancelled"
  | .timedOut => "TimedOut"
  | .unexpectedCheckpoint => "UnexpectedCheckpoint"
  | .uncontrolledActor => "UncontrolledActor"
  | .applicationFailed => "ApplicationFailed"
  | .observationFailed => "ObservationFailed"
  | .resourceFailed => "ResourceFailed"

def Cleanup.debug : Cleanup → String
  | .notStarted => "NotStarted"
  | .confirmed => "Confirmed"
  | .incomplete => "Incomplete"
  | .teardownFailed => "TeardownFailed"

def Report.text (r : Report) : String := r.outcome.debug ++ ": " ++ r.detail

structure BindingSession where
  setup : Setup
  cancel : Bool
  execution : Option World
  executions : List Json
  receiptBytes : ℕ
  initializations : ℕ
  disposals : ℕ
  disposed : Bool
  retained : Bool
  receiptComplete : Bool
  disposal : Except BindingError Unit

/-- A call of the owner that waits for the execution. A call of the execution that was refused
carries the reason. -/
inductive SessionCall
  | finishing (refused : Option String)
  | starting
  | advancing
  | disposing (refused : Option String)
  | retrying (refused : Option String)

def receiptLimit : ℕ := 16 * 1_048_576

/-- The row of an execution whose receipt is too long. -/
def evidenceError : Json :=
  Json.obj [("passed", .bool false), ("evidenceError", .string "receipt_byte_bound_exceeded")]

namespace BindingSession

def new (setup : Setup) (cancel : Bool) : BindingSession :=
  { setup := setup
    cancel := cancel
    execution := none
    executions := []
    receiptBytes := 0
    initializations := 0
    disposals := 0
    disposed := false
    retained := false
    receiptComplete := true
    disposal := .ok () }

variable (debug : ThreadId → String) (s : BindingSession)

def retain : BindingSession :=
  if s.retained then s
  else
    match s.execution with
    | none => s
    | some w =>
      let record := w.receipt debug
      if s.receiptBytes + record.bytes > receiptLimit then
        { s with
          receiptComplete := false
          executions := s.executions ++ [evidenceError]
          retained := true }
      else
        { s with
          receiptBytes := s.receiptBytes + record.bytes
          executions := s.executions ++ [record]
          retained := true }

/-- A new execution takes the place of the last one. -/
def start (generation : ℕ) (executionId : String) : BindingSession :=
  { s with
    initializations := s.initializations + 1
    retained := false
    execution := some (.new s.setup s.cancel generation executionId) }

/-- The last row becomes the receipt of the execution as it is now. -/
def replace (w : World) : BindingSession :=
  match s.executions.getLast? with
  | none => s
  | some last =>
    if s.retained then
      let record := w.receipt debug
      let total := s.receiptBytes - last.bytes + record.bytes
      if total ≤ receiptLimit then
        { s with receiptBytes := total, executions := s.executions.dropLast ++ [record] }
      else { s with receiptComplete := false }
    else s

/-- What is left of `dispose` when the execution has been cleaned up. -/
def settle (w : World) (refused : Option String) : BindingSession :=
  let disposal :=
    match refused with
    | some e => .error ⟨"schedule_cleanup_failed", e⟩
    | none =>
      if w.report.cleanup = .confirmed then s.disposal
      else .error ⟨"schedule_cleanup_failed", w.report.cleanup.debug⟩
  let s := { s with disposal := disposal }.retain debug
  if !s.receiptComplete then
    { s with disposal := .error ⟨"schedule_cleanup_failed", "receipt bound exceeded"⟩ }
  else s

def observation : Except BindingError Json :=
  if s.disposed then .error ⟨"schedule_lifecycle_invalid", "session disposed"⟩
  else
    match s.execution with
    | none => .error ⟨"schedule_lifecycle_invalid", "session not initialized"⟩
    | some w =>
      if w.report.outcome ≠ .completed then
        .error ⟨"schedule_observation_unavailable", w.report.detail⟩
      else
        match w.report.observations.getLast? with
        | none => .error ⟨"schedule_observation_unavailable", "no actual observation"⟩
        | some row => .ok (row.index "state")

def receipt : Json :=
  let unretained : List Json × Bool :=
    match s.retained, s.execution with
    | false, some w =>
      let row := w.receipt debug
      if s.receiptBytes + row.bytes ≤ receiptLimit then ([row], s.receiptComplete)
      else ([evidenceError], false)
    | _, _ => ([], s.receiptComplete)
  Json.obj [("schema", .string "mirrors.scheduled-binding/v1"),
    ("initializations", .ofNat s.initializations), ("disposals", .ofNat s.disposals),
    ("disposed", .bool s.disposed), ("receiptComplete", .bool unretained.2),
    ("executions", (Json.array (s.executions ++ unretained.1)).toValue s.setup.serde)]

def fullyCompleted : Bool :=
  s.disposed && decide (0 < s.initializations) && succeeded s.disposal && s.receiptComplete &&
    !s.executions.isEmpty && s.executions.all fun row => row.index "passed" = .bool true

end BindingSession

/-! ### Calls -/

/-- A session, the call in progress and what the last call has returned; `past` records the
executions that have been replaced. -/
structure Binding where
  session : BindingSession
  call : Option SessionCall
  returned : Option (Except BindingError Unit)
  past : List World

inductive SessionAction
  | act (action : Action)
  | cancel
  | initializes (owner : Bool) (generation : ℕ) (executionId : String)
  | advance (owner : Bool) (requested : Step) (expired : Bool)
  | dispose (owner : Bool)
  | retryCleanup (owner : Bool)
  | resume (generation : ℕ) (executionId : String)

/-- The flag is set from outside. -/
def Action.cancels : Action → Bool
  | .cancel => true
  | _ => false

def wrongOwner : String := "scheduler reentry or wrong controller thread"

def invalidBudget : String := "invalid cleanup budget"

namespace World

/-- `finish` as the session calls it, and the reason when it is refused. -/
def finishFor (w : World) (owner : Bool) : World × Option String :=
  if !owner then (w, some wrongOwner)
  else (w.finish, if !w.closed && !budget w.setup.policy.cleanupTimeout then some invalidBudget else none)

/-- `cleanup` as the session calls it, and the reason when it is refused. -/
def cleanupFor (w : World) (owner : Bool) : World × Option String :=
  if !owner then (w, some wrongOwner)
  else (w.callCleanup w.setup.policy.cleanupTimeout,
    if !budget w.setup.policy.cleanupTimeout then some invalidBudget else none)

end World

namespace Binding

def new (setup : Setup) (cancel : Bool) : Binding :=
  { session := .new setup cancel, call := none, returned := none, past := [] }

def returns (b : Binding) (result : Except BindingError Unit) : Binding :=
  { b with call := none, returned := some result }

def fails (b : Binding) (code message : String) : Binding := b.returns (.error ⟨code, message⟩)

/-- The execution takes a step, or is asked for one. -/
def setWorld (b : Binding) (w : World) : Binding :=
  { b with session := { b.session with execution := some w } }

def begin (b : Binding) (generation : ℕ) (executionId : String) : Binding :=
  { b with session := b.session.start generation executionId, call := some .starting }

def initializeExecution (b : Binding) (owner : Bool) (generation : ℕ) (executionId : String) : Binding :=
  if b.session.disposed ∨ 64 ≤ b.session.initializations then
    b.fails "schedule_lifecycle_invalid" "disposed session or initialization limit"
  else
    match b.session.execution with
    | none => b.begin generation executionId
    | some w =>
      let (w, refused) := w.finishFor owner
      { b.setWorld w with call := some (.finishing refused) }

def advance (b : Binding) (owner : Bool) (requested : Step) (expired : Bool) : Binding :=
  if b.session.disposed then b.fails "schedule_lifecycle_invalid" "session disposed"
  else
    match b.session.execution with
    | none => b.fails "schedule_lifecycle_invalid" "session not initialized"
    | some w =>
      if !owner then b.fails "schedule_lifecycle_invalid" wrongOwner
      else if w.closed then b.fails "schedule_lifecycle_invalid" "execution already closed"
      else { b.setWorld (w.advance requested expired) with call := some .advancing }

def dispose (b : Binding) (owner : Bool) : Binding :=
  if b.session.disposed then b.returns b.session.disposal
  else
    let b := { b with session :=
      { b.session with disposed := true, disposals := b.session.disposals + 1 } }
    match b.session.execution with
    | none => b.returns b.session.disposal
    | some w =>
      let (w, refused) := if w.report.scheduleCompleted then w.finishFor owner else w.cleanupFor owner
      { b.setWorld w with call := some (.disposing refused) }

def retryCleanup (b : Binding) (owner : Bool) : Binding :=
  if !b.session.disposed then
    b.fails "schedule_lifecycle_invalid" "dispose before retrying cleanup"
  else
    match b.session.execution with
    | none => b.returns (.ok ())
    | some w =>
      let (w, refused) := w.cleanupFor owner
      { b.setWorld w with call := some (.retrying refused) }

/-- The result of a call that has started or driven an execution. -/
def report (b : Binding) (w : World) (code : String) : Binding :=
  if w.report.outcome ≠ .completed then b.fails code w.report.text else b.returns (.ok ())

/-- The rest of a call, when the execution has returned. -/
def resume (debug : ThreadId → String) (b : Binding) (call : SessionCall) (w : World)
    (generation : ℕ) (executionId : String) : Binding :=
  match call with
  | .finishing (some e) => b.fails "schedule_lifecycle_invalid" e
  | .finishing none =>
    let b := { b with session := b.session.retain debug }
    if !w.report.passed ∨ !b.session.receiptComplete then
      b.fails "schedule_previous_incomplete" "previous execution incomplete"
    else { b with past := b.past ++ [w] }.begin generation executionId
  | .starting => b.report w "schedule_admission_failed"
  | .advancing => b.report w "schedule_interval_failed"
  | .disposing refused =>
    let b := { b with session := b.session.settle debug w refused }
    b.returns b.session.disposal
  | .retrying (some e) => b.fails "schedule_cleanup_failed" e
  | .retrying none =>
    if w.report.cleanup ≠ .confirmed then
      b.fails "schedule_cleanup_failed" "cleanup remains unconfirmed"
    else { b with session := b.session.replace debug w }.returns (.ok ())

/-- The owner calls the execution between two of its own calls only. -/
def step (debug : ThreadId → String) (b : Binding) : SessionAction → Option Binding
  | .act action =>
    if action.isCall ∨ action.cancels then none
    else b.session.execution.bind fun w => (w.step action).map b.setWorld
  | .cancel =>
    some { b with session :=
      { b.session with
        cancel := true
        execution := b.session.execution.map fun w => { w with cancelled := true } } }
  | .initializes owner generation executionId =>
    if b.call.isNone then some (b.initializeExecution owner generation executionId) else none
  | .advance owner requested expired =>
    if b.call.isNone then some (b.advance owner requested expired) else none
  | .dispose owner => if b.call.isNone then some (b.dispose owner) else none
  | .retryCleanup owner => if b.call.isNone then some (b.retryCleanup owner) else none
  | .resume generation executionId =>
    match b.call, b.session.execution with
    | some call, some w =>
      if w.ctl = .idle then some (b.resume debug call w generation executionId) else none
    | _, _ => none

end Binding

/-- All runs of a session. -/
def bindings (debug : ThreadId → String) : TransitionSystem Binding SessionAction where
  init b := ∃ setup cancel, b = Binding.new setup cancel
  step := Binding.step debug

end MirrorRust
