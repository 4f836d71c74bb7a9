import MirrorRust.Schedule

/-! The state that the controller and the workers share, and the regions in which
they hold its lock. -/
namespace MirrorRust

inductive Phase
  | starting
  | parked
  | running
  | finished
  deriving DecidableEq

abbrev ThreadId := ℕ

structure Actor where
  declaration : ActorDeclaration
  phase : Phase
  checkpoint : String
  thread : Option ThreadId
  deriving DecidableEq

structure Report where
  outcome : Outcome
  detail : String
  scheduleCompleted : Bool
  cleanup : Cleanup
  remainingActors : List String
  generation : ℕ
  executionId : String
  events : List Json
  observations : List Json
  cleanupAttempts : List Json
  deriving DecidableEq

def Report.new (generation : ℕ) (executionId : String) : Report :=
  { outcome := .completed
    detail := ""
    scheduleCompleted := false
    cleanup := .notStarted
    remainingActors := []
    generation := generation
    executionId := executionId
    events := []
    observations := []
    cleanupAttempts := [] }

def Report.passed (r : Report) : Bool :=
  r.outcome = .completed && r.scheduleCompleted && r.cleanup = .confirmed

structure SharedState where
  actors : List Actor
  stopping : Bool
  report : Report
  evidenceBytes : ℕ
  deriving DecidableEq

/-- How a call into the program ended. -/
inductive CallResult (α : Type)
  | ok (a : α)
  | error (e : String)
  | panic
  deriving DecidableEq

def evidenceLimit : ℕ := 8 * 1_048_576

namespace SharedState

def phase? (s : SharedState) (actor : ℕ) : Option Phase := s.actors[actor]?.map Actor.phase

def modifyActor (s : SharedState) (actor : ℕ) (f : Actor → Actor) : SharedState :=
  { s with actors := s.actors.modify actor f }

def setPhase (s : SharedState) (actor : ℕ) (phase : Phase) : SharedState :=
  s.modifyActor actor fun a => { a with phase := phase }

/-- Latch a failure: the first one stays, and the execution stops. -/
def fail (s : SharedState) (outcome : Outcome) (detail : String) : SharedState :=
  { s with
    report := if s.report.outcome = .completed then
        { s.report with outcome := outcome, detail := detail }
      else s.report
    stopping := true }

def eventRow (s : SharedState) (kind : String) (step : ℕ) (a : Actor) : Json :=
  Json.obj [("ordinal", .ofNat s.report.events.length), ("kind", .string kind),
    ("step", .ofNat step), ("actor", .string a.declaration.actor),
    ("operation", .string a.declaration.operation), ("checkpoint", .string a.checkpoint)]

def retainEvent (s : SharedState) (kind : String) (step actor : ℕ) : SharedState :=
  match s.actors[actor]? with
  | none => s
  | some a =>
    let row := s.eventRow kind step a
    let s := { s with evidenceBytes := s.evidenceBytes + row.render.utf8ByteSize }
    if s.evidenceBytes > evidenceLimit then
      s.fail .resourceFailed "execution evidence exceeds bound"
    else { s with report := { s.report with events := s.report.events ++ [row] } }

/-! ### Regions of a worker -/

/-- The first region of a worker thread: it registers and parks. -/
def register (s : SharedState) (actor : ℕ) (thread : ThreadId) : SharedState :=
  s.modifyActor actor fun a => { a with thread := some thread, phase := .parked }

/-- The first region of `arrive`. The flag says whether the caller goes on to wait. -/
def arrive (s : SharedState) (checkpoints : List String) (actor : ℕ) (thread : ThreadId)
    (checkpoint : String) : SharedState × Bool :=
  match s.actors[actor]? with
  | none => (s, false)
  | some a =>
    if a.thread ≠ some thread ∨ a.phase ≠ .running then
      (s.fail .uncontrolledActor "checkpoint called outside owned running actor", false)
    else if s.stopping then (s, false)
    else if !identifier checkpoint ∨ checkpoint ∉ checkpoints then
      (s.fail .unexpectedCheckpoint "undeclared checkpoint", false)
    else
      (s.modifyActor actor fun a => { a with checkpoint := checkpoint, phase := .parked }, true)

/-- The last region of a worker thread. -/
def settle (s : SharedState) (actor : ℕ) (result : CallResult Unit) : SharedState :=
  let s := if s.stopping then s else
    match result with
    | .ok () => s
    | .error e => s.fail .applicationFailed e
    | .panic => s.fail .applicationFailed "worker panicked"
  s.modifyActor actor fun a => { a with phase := .finished, checkpoint := COMPLETION }

/-! ### Regions of the controller -/

/-- One round of `wait_for`; no answer means that the controller waits on. -/
def waitFor (s : SharedState) (cancelled expired : Bool) (predicate : SharedState → Bool) :
    SharedState × Option Bool :=
  if s.stopping then (s, some false)
  else if cancelled then (s.fail .cancelled "caller cancellation", some false)
  else if expired then (s.fail .timedOut "execution deadline exceeded", some false)
  else if predicate s then (s, some true)
  else (s, none)

def allParked (s : SharedState) : Bool := s.actors.all fun a => a.phase = .parked

def notRunning (actor : ℕ) (s : SharedState) : Bool := s.phase? actor != some .running

def quiescent (s : SharedState) : Bool :=
  s.actors.all fun a => a.phase != .running && a.phase != .starting

def observationLimits : Limits :=
  { maxBytes := 65_535, maxDepth := 28, maxNodes := 65_536, rejectDuplicateKeys := true }

/-- The end of the region of `observe`, after the callback. -/
def judge (s : SharedState) (serde : Serde) (cancelled expired : Bool) (next : ℕ)
    (result : CallResult Json) : SharedState :=
  if cancelled then s.fail .cancelled "cancelled during observation"
  else if expired then s.fail .timedOut "execution deadline exceeded during observation"
  else
    match result with
    | .ok value =>
      let text := value.render
      if (parse text observationLimits).toOption.isNone ∨
          s.evidenceBytes + text.utf8ByteSize > evidenceLimit then
        s.fail .observationFailed "observation evidence bound exceeded"
      else
        -- `json!` parses the numbers of the state again; the counter has taken its own text
        let row := Json.obj [("afterSteps", .ofNat next), ("state", value.toValue serde)]
        { s with
          evidenceBytes := s.evidenceBytes + text.utf8ByteSize
          report := { s.report with observations := s.report.observations ++ [row] } }
    | .error e => s.fail .observationFailed e
    | .panic => s.fail .observationFailed "observer panicked"

/-- The first region of `advance`, past its outcome check. The actor is the one that may run. -/
def permit (s : SharedState) (cancelled expired : Bool) (steps : List Step) (next : ℕ)
    (requested : Step) : SharedState × Option ℕ :=
  if cancelled then (s.fail .cancelled "caller cancellation", none)
  else if expired then (s.fail .timedOut "execution deadline exceeded", none)
  else if steps[next]? ≠ some requested then
    (s.fail .invalidSchedule "callback differs from admitted interval", none)
  else
    -- the requested actor is declared: admission has checked every step of the schedule
    let index := s.actors.findIdx fun a => a.declaration.actor = requested.actor
    if s.phase? index ≠ some .parked then
      (s.fail .unexpectedCheckpoint "actor is not parked", none)
    else
      let s := s.retainEvent "permit" next index
      if s.stopping then (s, none) else (s.setPhase index .running, some index)

/-- The arrival region of `advance`. The flag says whether the actor has finished. -/
def arrival (s : SharedState) (next index : ℕ) (requested : Step) : SharedState × Bool :=
  let s := s.retainEvent "arrival" next index
  match s.actors[index]? with
  | none => (s, false)
  | some a =>
    let s :=
      if a.checkpoint ≠ requested.checkpoint then
        s.fail .unexpectedCheckpoint
          ("expected " ++ requested.checkpoint ++ ", arrived at " ++ a.checkpoint)
      else s
    (s, a.phase = .finished)

/-- The first region of `cleanup`. -/
def beginCleanup (s : SharedState) : SharedState :=
  let s :=
    if s.report.outcome = .completed ∧ !s.report.scheduleCompleted then
      s.fail .cancelled "cleanup requested before completion"
    else s
  { s with stopping := true }

def recordIncomplete (s : SharedState) (remaining : List String) : SharedState :=
  { s with
    report := { s.report with
      cleanup := .incomplete
      remainingActors := remaining
      cleanupAttempts := s.report.cleanupAttempts ++
        [Json.obj [("cleanup", .string "incomplete"),
          ("remainingActors", .array (remaining.map .string))]] } }

/-- The message of a failed teardown. -/
def teardownError : CallResult Unit → Option String
  | .ok () => none
  | .error e => some e
  | .panic => some "teardown panicked"

def recordCleanup (s : SharedState) (acquired : Bool) (teardown : Option String) : SharedState :=
  let cleanup : Cleanup :=
    if !acquired then .notStarted
    else if teardown.isNone then .confirmed
    else .teardownFailed
  { s with
    report := { s.report with
      remainingActors := []
      cleanup := cleanup
      cleanupAttempts := s.report.cleanupAttempts ++
        [Json.obj [("cleanup", .string cleanup.name), ("remainingActors", .array []),
          ("error", teardown.elim .null .string)]] } }

end SharedState
end MirrorRust
