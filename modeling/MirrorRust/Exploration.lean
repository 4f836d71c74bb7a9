import MirrorRust.Admission
import MirrorRust.CanonicalState
import MirrorRust.Deserialize
import MirrorRust.Enumeration
import MirrorRust.Execution.State

/-! Exhaustive bounded exploration: the declaration of a finite space, the runs over its
schedules and inputs, and what the campaign reports of them. -/
namespace MirrorRust

structure FiniteSpace where
  identity : Identity
  actors : List ActorChain
  inputs : List Json
  maxPreemptions : ℕ
  requireModelComparison : Bool
  baseVariables : List String
  instrumentationVariables : List String

structure ExplorationLimits where
  maxEnumeratedSchedules : ℕ
  maxRuns : ℕ
  timeBudget : Duration
  maxEvidenceBytes : ℕ

def ExplorationLimits.default : ExplorationLimits :=
  { maxEnumeratedSchedules := 4096
    maxRuns := 4096
    timeBudget := .fromSecs 30
    maxEvidenceBytes := 16 * 1_048_576 }

structure ExplorationSample where
  execution : Json
  comparison : Option Json

/-- What each call of the runner comes to. -/
abbrev ExplorationRunner := ℕ → Schedule → CallResult ExplorationSample

/-! ### The declaration -/

def checkChain (c : ActorChain) : Except String Unit := do
  require (c.checkpoints.getLast? == some COMPLETION) "actor chain requires completion"
  require (c.checkpoints.dropLast.all identifier) "invalid checkpoint chain"

def checkActors : List ActorChain → List (String × String) → List String →
    Except String (List (String × String))
  | [], declarations, _ => .ok declarations
  | c :: actors, declarations, operations => do
    require (identifier c.name && identifier c.actor.operation &&
      (Assoc.get? c.name declarations).isNone && !operations.contains c.actor.operation)
      "duplicate/invalid actor or operation"
    checkChain c
    checkActors actors (Assoc.insert c.name c.actor.operation declarations)
      (c.actor.operation :: operations)

namespace FiniteSpace

def steps (space : FiniteSpace) : List Step := (sortActors space.actors).flatMap ActorChain.steps

/-- The schedule that the declaration checks encode for an input. -/
def probe (space : FiniteSpace) (input : Json) : Schedule :=
  .new space.identity input space.steps

def checkBounds (space : FiniteSpace) (limits : ExplorationLimits) : Except String Unit := do
  require (!space.actors.isEmpty && space.actors.length ≤ 8 && !space.inputs.isEmpty &&
    space.inputs.length ≤ 64) "finite actor/input bound exceeded"
  require (space.maxPreemptions ≤ 64 && 0 < limits.maxEnumeratedSchedules &&
    limits.maxEnumeratedSchedules ≤ 4096 && limits.maxRuns ≤ 65_536 &&
    limits.timeBudget != 0 && limits.timeBudget ≤ .fromSecs 86_400 &&
    0 < limits.maxEvidenceBytes && limits.maxEvidenceBytes ≤ 64 * 1_048_576)
    "invalid exploration limits"

def checkVariables (space : FiniteSpace) : Except String Unit := do
  require (!space.baseVariables.isEmpty && space.baseVariables.length ≤ 1024 &&
    space.instrumentationVariables.length ≤ 1024) "bounded base variables required"
  require (space.baseVariables.all identifier && space.baseVariables.Nodup)
    "invalid base variable"
  require (space.instrumentationVariables.all (fun v => identifier v &&
    !space.baseVariables.contains v) && space.instrumentationVariables.Nodup)
    "invalid instrumentation projection"

variable (serde : Serde)

def checkInputs (space : FiniteSpace) : List Json → List String → Except (Fault String) Unit
  | [], _ => .ok ()
  | input :: inputs, keys => do
    let _ ← encodeSchedule serde (space.probe input)
    (require (!keys.contains input.render) "duplicate finite input").mapError .error
    checkInputs space inputs (input.render :: keys)

/-- The checks before the first run; the result has the operation of every actor. -/
def check (space : FiniteSpace) (limits : ExplorationLimits) :
    Except (Fault String) (List (String × String)) := do
  (space.checkBounds limits).mapError .error
  let declarations ← (checkActors (sortActors space.actors) [] []).mapError .error
  (require (space.steps.length ≤ 64) "exploration step bound exceeded").mapError .error
  space.checkInputs serde space.inputs []
  space.checkVariables.mapError .error
  return declarations

end FiniteSpace

/-! ### The evidence of one run -/

def validateEvent (events : List Json) (i : ℕ) (step : Step) (offset : ℕ) : Except String Unit := do
  let event := events.getD (i * 2 + offset) .null
  require ((event.index "ordinal").asU64 == some (i * 2 + offset) &&
    (event.index "step").asU64 == some i && event.index "actor" == .string step.actor &&
    event.index "kind" == .string (if offset = 0 then "permit" else "arrival"))
    "event identity/order differs"
  if offset = 1 then require (event.index "checkpoint" == .string step.checkpoint) "arrival differs"

def validateEvents (events : List Json) : ℕ → List Step → Except String Unit
  | _, [] => .ok ()
  | i, step :: steps => do
    validateEvent events i step 0
    validateEvent events i step 1
    validateEvents events (i + 1) steps

def validateSuccess (execution : Json) (candidate : Schedule) : Except String Unit := do
  require (execution.index "scheduleCompleted" == .bool true &&
    execution.index "outcome" == .string "completed") "false schedule completion"
  match (execution.index "events").asArray with
  | none => throw "missing events"
  | some events =>
    require (events.length == candidate.steps.length * 2) "wrong event denominator"
    validateEvents events 0 candidate.steps
    require ((execution.index "observations").asArray.any fun o =>
      o.length == candidate.steps.length + 1) "wrong observation denominator"

inductive Category
  | passed
  | cleanupFailed
  | modelMismatch
  | comparisonFailed
  | comparisonMissing
  | timedOut
  | cancelled
  | scheduleFailed
  | executionFailed
  | runnerOrEvidenceFailed
  deriving DecidableEq

def Category.name : Category → String
  | .passed => "passed"
  | .cleanupFailed => "cleanup_failed"
  | .modelMismatch => "model_mismatch"
  | .comparisonFailed => "comparison_failed"
  | .comparisonMissing => "comparison_missing"
  | .timedOut => "timed_out"
  | .cancelled => "cancelled"
  | .scheduleFailed => "schedule_failed"
  | .executionFailed => "execution_failed"
  | .runnerOrEvidenceFailed => "runner_or_evidence_failed"

def cleanupConfirmed (execution : Json) : Bool :=
  execution.index "cleanup" == .string "confirmed" &&
    execution.index "remainingActors" == .array []

def isMismatch (comparison : Json) : Bool :=
  comparison.index "comparison" == .string "step_mismatch"

section Classification
variable (serde : Serde)

/-- Whether a comparison found a mismatch, and whether it failed otherwise. -/
def readComparison (execution : Json) : Option Json → Except String (Bool × Bool)
  | none => .ok (false, false)
  | some c => do
    require (c.index "schema" == .string "mirrors.scheduled-comparison/v1" &&
      (c.index "binding").index "executions" == .array [execution.toValue serde])
      "comparison is not bound to exact execution"
    if isMismatch c then
      require (c.index "peerTerminal" == .string "step_mismatch" &&
        c.index "passed" == .bool false &&
        (c.index "client").index "kind" == .string "step_mismatch") "invalid model mismatch"
      return (true, false)
    else
      return (false, c.index "comparison" != .string "matched" || c.index "passed" != .bool true)

def category (execution : Json) (comparison : Option Json) : Except String Category := do
  let (mismatch, comparisonFailed) ← readComparison serde execution comparison
  if !cleanupConfirmed execution then return .cleanupFailed
  if mismatch then return .modelMismatch
  if comparisonFailed then return .comparisonFailed
  if execution.index "passed" == .bool true then return .passed
  match (execution.index "outcome").asStr with
  | some "timed_out" => return .timedOut
  | some "cancelled" => return .cancelled
  | some "unexpected_checkpoint" => return .scheduleFailed
  | some "invalid_schedule" => return .scheduleFailed
  | some "incompatible_identity" => return .scheduleFailed
  | _ => return .executionFailed

end Classification

def executionIdValid (id : String) : Bool :=
  id.utf8ByteSize == 32 && id.toList.all fun c => c.isDigit || ('a' ≤ c && c ≤ 'f')

section Evidence
variable (serde : Serde)

/-- The operations by actor of a receipt. -/
def readActors : List Json → List (String × String) → Except String (List (String × String))
  | [], actual => .ok actual
  | j :: actors, actual =>
    match ActorDeclaration.fromValue j with
    | none => throw (serde.refusal "ActorDeclaration" j)
    | some a => do
      require (Assoc.get? a.actor actual).isNone "duplicate execution actor"
      readActors actors (Assoc.insert a.actor a.operation actual)

/-- The id of a receipt that belongs to this schedule and these actors, and to no earlier run. -/
def bindExecution (declarations : List (String × String)) (candidate : Schedule)
    (executionIds : List String) (execution : Json) : Except String String := do
  require (execution.index "schema" == .string "mirrors.checkpoint-execution/v1" &&
    execution.index "schedule" == candidate.toJson serde) "execution not bound to exact schedule"
  match (execution.index "actors").asArray with
  | none => throw "missing execution actors"
  | some actors =>
    let actual ← readActors serde actors []
    require (actual == declarations) "execution actor declarations differ"
    match (execution.index "executionId").asStr with
    | none => throw "missing execution id"
    | some id =>
      require (executionIdValid id && !executionIds.contains id) "stale/invalid execution id"
      return id

def readState (j : Json) : Except (Fault String) State :=
  match j with
  | .object fields => fields.mapM fun p =>
    match deserializeValue serde p.2 with
    | .ok v => .ok (p.1, v)
    | .error (.error _) => .error (.error (serde.refusal "State" j))
    | .error (.panic m) => .error (.panic m)
  | _ => .error (.error (serde.refusal "State" j))

/-- The canonical text of the base variables in an observation. -/
def projectObservation (space : FiniteSpace) (i : ℕ) (observation : Json) :
    Except (Fault String) String := do
  (require ((observation.index "afterSteps").asU64 == some i)
    "observation position differs").mapError .error
  let state ← readState serde (observation.index "state")
  (require (state.length ==
      space.baseVariables.length + space.instrumentationVariables.length)
    "projection omits/adds variables").mapError .error
  (require (space.instrumentationVariables.all fun v => (Assoc.get? v state).isSome)
    "instrumentation variable absent").mapError .error
  let state := state.filter fun p => !space.instrumentationVariables.contains p.1
  (require (space.baseVariables.all fun v => (Assoc.get? v state).isSome)
    "base variable absent").mapError .error
  (canonicalState state).mapError .error

end Evidence

/-! ### Coverage -/

/-- A state that has been seen; the output has the value that the canonical text spells. -/
structure StateRow where
  id : ℕ
  canonical : String
  deriving DecidableEq

/-- The states and transitions of a campaign. The tables are maps in key order. -/
structure Coverage where
  bytes : ℕ
  states : List (String × ℕ)
  rows : List StateRow
  edges : List ((ℕ ×ₗ ℕ) × ℕ)

namespace Coverage

def empty : Coverage := ⟨0, [], [], []⟩

def limit : ℕ := 8 * 1_048_576

def exceeded : String := "coverage byte bound exceeded"

def enter (c : Coverage) (key : String) : Coverage × Except String ℕ :=
  match Assoc.get? key c.states with
  | some id => (c, .ok id)
  | none =>
    let c := { c with bytes := c.bytes + (key.utf8ByteSize + 128) }
    if c.bytes ≤ limit then
      let id := c.states.length
      ({ c with rows := c.rows ++ [⟨id, key⟩], states := Assoc.insert key id c.states }, .ok id)
    else (c, .error exceeded)

def connect (c : Coverage) (source target : ℕ) : Coverage × Except String Unit :=
  let edge := toLex (source, target)
  match Assoc.get? edge c.edges with
  | some count => ({ c with edges := Assoc.insert edge (count + 1) c.edges }, .ok ())
  | none =>
    let c := { c with bytes := c.bytes + 128 }
    if c.bytes ≤ limit then ({ c with edges := Assoc.insert edge 1 c.edges }, .ok ())
    else (c, .error exceeded)

def visit (c : Coverage) (prior : Option ℕ) (key : String) : Coverage × Except String ℕ :=
  match c.enter key with
  | (c, .error e) => (c, .error e)
  | (c, .ok id) =>
    match prior with
    | none => (c, .ok id)
    | some source =>
      match c.connect source id with
      | (c, .error e) => (c, .error e)
      | (c, .ok ()) => (c, .ok id)

/-- The observations of a run from position `i`, recorded one by one until one of them fails. -/
def observe (project : ℕ → Json → Except (Fault String) String) :
    ℕ → Option ℕ → List Json → Coverage → Coverage × Except (Fault String) Unit
  | _, _, [], c => (c, .ok ())
  | i, prior, observation :: observations, c =>
    match project i observation with
    | .error e => (c, .error e)
    | .ok key =>
      match c.visit prior key with
      | (c, .error e) => (c, .error (.error e))
      | (c, .ok id) => observe project (i + 1) (some id) observations c

end Coverage

/-! ### The campaign -/

structure Row where
  ordinal : ℕ
  inputIndex : ℕ
  schedule : Json
  sample : Option ExplorationSample
  error : Option String
  category : Category

def Row.toJson (r : Row) : Json :=
  Json.obj ([("ordinal", .ofNat r.ordinal), ("inputIndex", .ofNat r.inputIndex),
      ("schedule", r.schedule)] ++
    (r.sample.elim [] fun s => ("execution", s.execution) ::
      s.comparison.elim [] fun c => [("comparison", c)]) ++
    (r.error.elim [] fun e => [("error", .string e)]) ++
    [("category", .string r.category.name)])

def Row.length (r : Row) : ℕ := r.toJson.render.utf8ByteSize

/-- A row of the output, or what is left of it when its evidence does not fit. -/
inductive RunRow
  | retained (row : Row)
  | omitted (ordinal : ℕ) (category : Category)

/-- The first run of a kind. -/
structure Failure where
  ordinal : ℕ
  category : Category
  schedule : Json

structure Campaign where
  attempted : ℕ
  completed : ℕ
  evidenceBytes : ℕ
  comparisonRuns : ℕ
  coverage : Coverage
  executionIds : List String
  runs : List RunRow
  categories : List (String × ℕ)
  firstCounterexample : Option Failure
  firstFailure : Option Failure
  stopReason : String
  halt : Bool

def Campaign.new (reason : String) : Campaign :=
  { attempted := 0
    completed := 0
    evidenceBytes := 0
    comparisonRuns := 0
    coverage := .empty
    executionIds := []
    runs := []
    categories := []
    firstCounterexample := none
    firstFailure := none
    stopReason := reason
    halt := false }

/-- What the loop sees of the cancellation flag and the clock: before an attempt, again for the
reason when it stops there, and after the attempt. -/
structure Looks where
  cancelled : Bool
  expired : Bool
  recheckCancelled : Bool
  recheckExpired : Bool
  late : Bool

def Looks.quiet : Looks := ⟨false, false, false, false, false⟩

def CallResult.toOption {α : Type} : CallResult α → Option α
  | .ok a => some a
  | _ => none

/-- What a campaign works with; the declarations are the operations by actor. -/
structure Explorer where
  serde : Serde
  space : FiniteSpace
  limits : ExplorationLimits
  declarations : List (String × String)
  runner : ExplorationRunner
  looks : ℕ → Looks

structure Evaluated where
  campaign : Campaign
  cleanupKnown : Bool
  result : Except (Fault String) Category

namespace Campaign

def stop (c : Campaign) (reason : String) : Campaign := { c with stopReason := reason, halt := true }

/-- Why no further run may start. -/
def gate (c : Campaign) (limits : ExplorationLimits) (looks : Looks) : Option String :=
  if looks.cancelled || looks.expired || limits.maxRuns ≤ c.attempted then
    some (if looks.recheckCancelled then "cancelled"
      else if looks.recheckExpired then "time_budget" else "run_limit")
  else none

def noteCounterexample (c : Campaign) (schedule : Json) : Campaign :=
  { c with firstCounterexample :=
      c.firstCounterexample <|> some ⟨c.attempted - 1, .modelMismatch, schedule⟩ }

/-- The bookkeeping of the comparison of a classified run. -/
def noteComparison (c : Campaign) (schedule : Json) (comparison : Option Json) : Campaign :=
  let c := if comparison.any isMismatch then c.noteCounterexample schedule else c
  if comparison.isSome then { c with comparisonRuns := c.comparisonRuns + 1 } else c

end Campaign

namespace Explorer
variable (x : Explorer)

/-- A run that the checks of the receipt have let through. -/
def accept (c : Campaign) (candidate : Schedule) (execution : Json) :
    Campaign × Except (Fault String) Unit :=
  match validateSuccess execution candidate with
  | .error e => (c, .error (.error e))
  | .ok () =>
    let observations := (execution.index "observations").asArray.getD []
    match c.coverage.observe (projectObservation x.serde x.space) 0 none observations with
    | (coverage, .error e) => ({ c with coverage := coverage }, .error e)
    | (coverage, .ok ()) => ({ c with coverage := coverage, completed := c.completed + 1 }, .ok ())

def requireComparison (kind : Category) (comparison : Option Json) : Category :=
  if x.space.requireModelComparison && comparison.isNone then .comparisonMissing else kind

/-- The classification of a run whose receipt is bound to its schedule. -/
def assess (c : Campaign) (candidate : Schedule) (sample : ExplorationSample) : Evaluated :=
  let known := cleanupConfirmed sample.execution
  match category x.serde sample.execution sample.comparison with
  | .error e => ⟨c, known, .error (.error e)⟩
  | .ok kind =>
    let c := c.noteComparison (candidate.toJson x.serde) sample.comparison
    let kind := x.requireComparison kind sample.comparison
    if kind = .passed then
      match x.accept c candidate sample.execution with
      | (c, .error e) => ⟨c, known, .error e⟩
      | (c, .ok ()) => ⟨c, known, .ok kind⟩
    else if kind = .modelMismatch then
      ⟨c.noteCounterexample (candidate.toJson x.serde), known, .ok kind⟩
    else ⟨c, known, .ok kind⟩

def evaluate (c : Campaign) (candidate : Schedule) : CallResult ExplorationSample → Evaluated
  | .error e => ⟨c, false, .error (.error e)⟩
  | .panic => ⟨c, false, .error (.panic "runner panicked")⟩
  | .ok sample =>
    match bindExecution x.serde x.declarations candidate c.executionIds sample.execution with
    | .error e => ⟨c, false, .error (.error e)⟩
    | .ok id => x.assess { c with executionIds := id :: c.executionIds } candidate sample

end Explorer

def clip (e : String) : String := String.ofList (e.toList.take 1024)

def Evaluated.category (e : Evaluated) : Category :=
  match e.result with
  | .ok category => category
  | .error _ => .runnerOrEvidenceFailed

def Evaluated.error (e : Evaluated) : Option String :=
  match e.result with
  | .ok _ => none
  | .error (.error message) => some (clip message)
  | .error (.panic _) => some "runner panicked"

/-- The campaign after an evaluation; a coverage that is full ends it. -/
def Evaluated.checkCoverage (e : Evaluated) : Campaign :=
  match e.result with
  | .error (.error message) =>
    if message = Coverage.exceeded then e.campaign.stop "coverage_limit" else e.campaign
  | _ => e.campaign

namespace Campaign

def count (c : Campaign) (category : Category) : ℕ :=
  (Assoc.get? category.name c.categories).getD 0

/-- The category of a run is counted, and the first failure kept. -/
def tally (c : Campaign) (row : Row) : Campaign :=
  { c with
    firstFailure :=
      if row.category = .passed then c.firstFailure
      else c.firstFailure <|> some ⟨row.ordinal, row.category, row.schedule⟩
    categories := Assoc.insert row.category.name (c.count row.category + 1) c.categories }

def retain (c : Campaign) (limits : ExplorationLimits) (row : Row) (cleanupKnown late : Bool) :
    Campaign :=
  if c.evidenceBytes + row.length > limits.maxEvidenceBytes then
    stop { c with runs := c.runs ++ [.omitted row.ordinal row.category] } "evidence_limit"
  else
    let c := { c with
      evidenceBytes := c.evidenceBytes + row.length
      runs := c.runs ++ [.retained row] }
    if c.halt then c
    else if !cleanupKnown then c.stop "unconfirmed_cleanup"
    else if late then c.stop "time_budget"
    else c

end Campaign

namespace Explorer
variable (x : Explorer)

/-- One run of the campaign, for an input and a schedule. -/
def attempt (c : Campaign) (inputIndex : ℕ) (candidate : Schedule) : Campaign :=
  let ordinal := c.attempted
  let sample := x.runner ordinal candidate
  let e := x.evaluate { c with attempted := ordinal + 1 } candidate sample
  let row := { ordinal := ordinal, inputIndex := inputIndex
               schedule := candidate.toJson x.serde
               sample := sample.toOption, error := e.error, category := e.category }
  (e.checkCoverage.tally row).retain x.limits row e.cleanupKnown (x.looks ordinal).late

/-- The loop over the schedules and inputs. -/
def explore : List (ℕ × Schedule) → Campaign → Campaign
  | [], c => c
  | (inputIndex, candidate) :: rest, c =>
    match c.gate x.limits (x.looks c.attempted) with
    | some reason => c.stop reason
    | none =>
      let c := x.attempt c inputIndex candidate
      if c.halt then c else explore rest c

end Explorer

/-- The schedules of the runs, with the index of their input, in the order of the loops. -/
def FiniteSpace.candidates (space : FiniteSpace) (shapes : List (List Step)) :
    List (ℕ × Schedule) :=
  shapes.flatMap fun steps => space.inputs.zipIdx.map fun p => (p.2, .new space.identity p.1 steps)

/-- What the campaign reports. -/
structure Exploration where
  complete : Bool
  enumerationExhausted : Bool
  denominatorKnown : Bool
  eligibleRuns : Option ℕ
  eligibleRunsLowerBound : ℕ
  attemptedRuns : ℕ
  completedRuns : ℕ
  comparisonRuns : ℕ
  runs : List RunRow
  states : List StateRow
  transitions : List ((ℕ ×ₗ ℕ) × ℕ)
  categories : List (String × ℕ)
  firstCounterexample : Option Failure
  firstFailure : Option Failure
  stopReason : String
  status : String
  error : Option String

def Exploration.refused (e : String) : Exploration :=
  { complete := false
    enumerationExhausted := false
    denominatorKnown := false
    eligibleRuns := none
    eligibleRunsLowerBound := 0
    attemptedRuns := 0
    completedRuns := 0
    comparisonRuns := 0
    runs := []
    states := []
    transitions := []
    categories := []
    firstCounterexample := none
    firstFailure := none
    stopReason := "invalid_declaration"
    status := "invalid_declaration"
    error := some (clip e) }

def Campaign.output (c : Campaign) (enumeration : Enumeration) (eligible : ℕ) : Exploration :=
  let exhausted := enumeration.exhausted && c.attempted == eligible
  let complete := exhausted && c.completed == eligible && !c.halt
  { complete := complete
    enumerationExhausted := exhausted
    denominatorKnown := enumeration.exhausted
    eligibleRuns := if enumeration.exhausted then some eligible else none
    eligibleRunsLowerBound := eligible
    attemptedRuns := c.attempted
    completedRuns := c.completed
    comparisonRuns := c.comparisonRuns
    runs := c.runs
    states := c.coverage.rows
    transitions := c.coverage.edges
    categories := c.categories
    firstCounterexample := c.firstCounterexample
    firstFailure := c.firstFailure
    stopReason :=
      if c.stopReason = "" then if complete then "complete" else "non_pass_runs"
      else c.stopReason
    status := if complete then "complete" else "incomplete"
    error := none }

/-- The shapes that the search lists; it never runs out of depth (`enumerate_collects`). -/
def FiniteSpace.enumeration (space : FiniteSpace) (limits : ExplorationLimits)
    (polls : ℕ → Poll) : Enumeration :=
  (enumerate space.actors space.maxPreemptions limits.maxEnumeratedSchedules polls).elim
    ⟨[], false, ""⟩ Enumerator.result

/-- An exploration; the error is the message of a panic. -/
def exploreFinite (serde : Serde) (polls : ℕ → Poll) (looks : ℕ → Looks) (space : FiniteSpace)
    (runner : ExplorationRunner) (limits : ExplorationLimits) : Except String Exploration :=
  match space.check serde limits with
  | .error (.panic m) => .error m
  | .error (.error e) => .ok (.refused e)
  | .ok declarations =>
    let enumeration := space.enumeration limits polls
    let candidates := space.candidates enumeration.shapes
    let x : Explorer :=
      { serde := serde, space := space, limits := limits
        declarations := declarations, runner := runner, looks := looks }
    let campaign := x.explore candidates (.new enumeration.reason)
    .ok (campaign.output enumeration (enumeration.shapes.length * space.inputs.length))

end MirrorRust
