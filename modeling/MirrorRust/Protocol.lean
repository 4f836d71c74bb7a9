import MirrorRust.JsonParser
import MirrorRust.Value

/-! The messages of the protocol: what the client writes, and how a line of the mirror is decoded. -/
namespace MirrorRust

/-! ### Messages of the client -/

structure ApalacheSpec where
  sources : List String

structure ApalacheConfig where
  specPath : String
  initPredicate : Option String
  nextPredicate : Option String
  constInit : Option String
  invariant : String
  lengthBound : ℤ
  paramVars : Option String

structure TraceGenerationConfig where
  numTraces : ℤ
  view : Option String

inductive ClientMessage
  | register (apalacheConfig : ApalacheConfig) (traceConfig : TraceGenerationConfig)
      (spec : Option ApalacheSpec)
  | registerTraces (apalacheConfig : ApalacheConfig) (itfTracePaths : List String)
  | registerTraceGen (apalacheConfig : ApalacheConfig) (traceConfig : TraceGenerationConfig)
      (destPath : Option String) (spec : Option ApalacheSpec)
  | registerValidate (apalacheConfig : ApalacheConfig) (bound : ℕ) (spec : Option ApalacheSpec)
  | registerValidateAsync (apalacheConfig : ApalacheConfig) (bound : ℕ)
      (spec : Option ApalacheSpec)
  | registerTraceGenAsync (apalacheConfig : ApalacheConfig) (traceConfig : TraceGenerationConfig)
      (destPath : Option String) (spec : Option ApalacheSpec)
  | queryJob (jobId : String)
  | awaitJob (jobId : String) (timeoutSecs : Option ℕ)
  | cancelJob (jobId : String)
  | reportState (state : State)

/-- A member that is left out when there is no value. -/
def optionalField (key : String) (value : Option Json) : List (String × Json) :=
  (value.map fun j => (key, j)).toList

def ApalacheSpec.serialize (spec : ApalacheSpec) : Json :=
  .object [("sources", .array (spec.sources.map .string))]

def ApalacheConfig.serialize (config : ApalacheConfig) : Json :=
  .object (("specPath", .string config.specPath) ::
    optionalField "initPredicate" (config.initPredicate.map .string) ++
    optionalField "nextPredicate" (config.nextPredicate.map .string) ++
    optionalField "constInit" (config.constInit.map .string) ++
    [("invariant", .string config.invariant),
      ("lengthBound", .number (toString config.lengthBound))] ++
    optionalField "paramVars" (config.paramVars.map .string))

def TraceGenerationConfig.serialize (config : TraceGenerationConfig) : Json :=
  .object (("numTraces", .number (toString config.numTraces)) ::
    optionalField "view" (config.view.map .string))

/-- The members of a message after its `proto_step`, in the order of the declaration. -/
def ClientMessage.fields : ClientMessage → List (String × Json)
  | .register config traces spec =>
    [("apalacheConfig", config.serialize), ("traceConfig", traces.serialize)] ++
      optionalField "spec" (spec.map ApalacheSpec.serialize)
  | .registerTraces config paths =>
    [("apalacheConfig", config.serialize), ("itfTracePaths", .array (paths.map .string))]
  | .registerTraceGen config traces destPath spec =>
    [("apalacheConfig", config.serialize), ("traceConfig", traces.serialize),
      ("destPath", (destPath.map Json.string).getD .null)] ++
      optionalField "spec" (spec.map ApalacheSpec.serialize)
  | .registerValidate config bound spec | .registerValidateAsync config bound spec =>
    [("apalacheConfig", config.serialize), ("bound", .ofNat bound)] ++
      optionalField "spec" (spec.map ApalacheSpec.serialize)
  | .registerTraceGenAsync config traces destPath spec =>
    [("apalacheConfig", config.serialize), ("traceConfig", traces.serialize)] ++
      optionalField "destPath" (destPath.map .string) ++
      optionalField "spec" (spec.map ApalacheSpec.serialize)
  | .queryJob jobId | .cancelJob jobId => [("jobId", .string jobId)]
  | .awaitJob jobId timeoutSecs =>
    ("jobId", .string jobId) :: optionalField "timeoutSecs" (timeoutSecs.map Json.ofNat)
  | .reportState state => [("state", encodeState state)]

def ClientMessage.step : ClientMessage → String
  | .register .. => "register"
  | .registerTraces .. => "register_traces"
  | .registerTraceGen .. => "register_trace_gen"
  | .registerValidate .. => "register_validate"
  | .registerValidateAsync .. => "register_validate_async"
  | .registerTraceGenAsync .. => "register_trace_gen_async"
  | .queryJob .. => "query_job"
  | .awaitJob .. => "await_job"
  | .cancelJob .. => "cancel_job"
  | .reportState .. => "report_state"

def ClientMessage.serialize (message : ClientMessage) : Json :=
  .object (("proto_step", .string message.step) :: message.fields)

def encodeClientMessage (message : ClientMessage) : String := message.serialize.render

/-! ### Messages of the mirror -/

inductive SpecResult
  | valid
  | invalid (detail : String)

inductive JobKind
  | validate
  | genTraces
  deriving DecidableEq

inductive JobPhase
  | pending
  | running
  | done
  | failed
  | cancelled
  | unknown

inductive JobOutcome
  | validate (result : SpecResult)
  | genTraces (itfTracePaths : List String) (itfTraces : List Json)
  | infraError (error : String)

inductive MirrorMessage
  | specValidated (result : SpecResult)
  | initialState (action : String) (state : State)
  | nextStep (action : String) (parameters : State)
  | stepOk
  | stepMismatch (action : Option String) (expected actual : State) (hints : List DiffHint)
  | allStepsDone
  | genTracesDone (itfTracePaths : List String) (itfTraces : List Json)
  | protocolError (error : String)
  | registerError (error : String)
  | jobAccepted (jobId : String) (kind : JobKind)
  | jobStatus (jobId : String) (phase : JobPhase)
  | jobResult (jobId : String) (outcome : JobOutcome)

abbrev Decode := Except (Fault Error)

/-- The members of an object. -/
abbrev Fields := List (String × Json)

def Fields.get (obj : Fields) (key : String) : Option Json := Assoc.get? key obj

def walkRecord (value : Option Json) (field : String) : Decode State := do
  match value with
  | some j =>
    match ← walk j with
    | .record r => return r
    | _ => throw (invalidValue (field ++ " must be an object"))
  | none => throw (invalidValue ("missing " ++ field))

def strField (obj : Fields) (key : String) : Decode String :=
  match (obj.get key).bind Json.asStr with
  | some s => .ok s
  | none => .error (invalidValue (key ++ " must be a string"))

def pathSegment : Json → Decode PathSegment
  | .object [(key, j)] =>
    match key, j with
    | "field", .string name => .ok (.field name)
    | "index", j =>
      match j.asU64 with
      | some i => .ok (.index i)
      | none => .error (invalidValue "invalid hint path segment")
    | _, _ => .error (invalidValue "invalid hint path segment")
  | _ => .error (invalidValue "invalid hint path segment")

def pathSegments : Option Json → Decode (List PathSegment)
  | some (.array parts) => parts.mapM pathSegment
  | _ => .error (invalidValue "hint path must be an array")

def hintValue (obj : Fields) (key : String) : Decode Value :=
  match obj.get key with
  | some j => walk j
  | none => .error (invalidValue ("hint missing " ++ key))

def decodeHint : Json → Decode DiffHint
  | .object obj => do
    match (Fields.get obj "kind").bind Json.asStr with
    | none => throw (invalidValue "hint kind must be a string")
    | some kind =>
      let path ← pathSegments (Fields.get obj "path")
      match kind with
      | "value_mismatch" =>
        return .valueMismatch path (← hintValue obj "expected") (← hintValue obj "actual")
      | "missing" => return .missing path (← hintValue obj "expected")
      | "extra" => return .extra path (← hintValue obj "actual")
      | "missing_elem" => return .missingElem path (← hintValue obj "expected")
      | "extra_elem" => return .extraElem path (← hintValue obj "actual")
      | "type_mismatch" =>
        return .typeMismatch path (← hintValue obj "expected") (← hintValue obj "actual")
      | "truncated" => return .truncated path
      | kind => throw (invalidValue ("unknown hint kind " ++ debugStr kind))
  | _ => .error (invalidValue "hint must be an object")

def decodeSpecResult : Option Json → Decode SpecResult
  | some (.string "valid") => .ok .valid
  | some (.object result) =>
    match (Fields.get result "invalid").bind Json.asStr with
    | some detail => .ok (.invalid detail)
    | none => .error (invalidValue "invalid spec result must contain a string")
  | _ => .error (invalidValue "spec result has an invalid shape")

def stringArray (value : Option Json) (field : String) : Decode (List String) :=
  match value.bind Json.asArray with
  | some entries => entries.mapM fun entry =>
    match entry.asStr with
    | some s => .ok s
    | none => .error (invalidValue (field ++ " entries must be strings"))
  | none => .error (invalidValue (field ++ " must be an array"))

/-- The optional `itfTraces` member. -/
def traceArray : Option Json → Decode (List Json)
  | none => .ok []
  | some (.array traces) => .ok traces
  | some _ => .error (invalidValue "itfTraces must be an array")

def decodeJobOutcome (value : Option Json) : Decode JobOutcome := do
  match value.bind Json.asObject with
  | none => throw (invalidValue "job_result.outcome must be an object")
  | some outcome =>
    if let some validate := Fields.get outcome "validate" then
      return .validate (← decodeSpecResult (some validate))
    if let some gen := (Fields.get outcome "genTraces").bind Json.asObject then
      return .genTraces (← stringArray (Fields.get gen "itfTracePaths") "itfTracePaths")
        (← traceArray (Fields.get gen "itfTraces"))
    if let some error := (Fields.get outcome "error").bind Json.asStr then
      return .infraError error
    throw (invalidValue "unknown job_result outcome")

def decodeKind : Option String → Decode JobKind
  | some "validate" => .ok .validate
  | some "gen_traces" => .ok .genTraces
  | _ => .error (invalidValue "job_accepted.kind has an invalid value")

def decodePhase : Option String → Decode JobPhase
  | some "pending" => .ok .pending
  | some "running" => .ok .running
  | some "done" => .ok .done
  | some "failed" => .ok .failed
  | some "cancelled" => .ok .cancelled
  | some "unknown" => .ok .unknown
  | _ => .error (invalidValue "job_status.phase has an invalid value")

def walkMessage (obj : Fields) : Decode MirrorMessage := do
  match (obj.get "proto_step").bind Json.asStr with
  | none => throw (invalidValue "proto_step must be a string")
  | some step =>
    match step with
    | "spec_validated" => return .specValidated (← decodeSpecResult (obj.get "result"))
    | "initial_state" =>
      return .initialState (← strField obj "action") (← walkRecord (obj.get "state") "state")
    | "next_step" =>
      return .nextStep (← strField obj "action") (← walkRecord (obj.get "parameters") "parameters")
    | "step_ok" => return .stepOk
    | "step_mismatch" =>
      let expected ← walkRecord (obj.get "expected") "expected"
      let actual ← walkRecord (obj.get "actual") "actual"
      let hints ← match obj.get "hints" with
        | none => pure []
        | some (.array hints) => hints.mapM decodeHint
        | some _ => throw (invalidValue "hints must be an array")
      return .stepMismatch ((obj.get "action").bind Json.asStr) expected actual hints
    | "all_steps_done" => return .allStepsDone
    | "gen_traces_done" =>
      return .genTracesDone (← stringArray (obj.get "itfTracePaths") "itfTracePaths")
        (← traceArray (obj.get "itfTraces"))
    | "protocol_error" => return .protocolError (← strField obj "error")
    | "register_error" => return .registerError (← strField obj "error")
    | "job_accepted" =>
      return .jobAccepted (← strField obj "jobId")
        (← decodeKind ((obj.get "kind").bind Json.asStr))
    | "job_status" =>
      return .jobStatus (← strField obj "jobId")
        (← decodePhase ((obj.get "phase").bind Json.asStr))
    | "job_result" =>
      return .jobResult (← strField obj "jobId") (← decodeJobOutcome (obj.get "outcome"))
    | other => return .protocolError ("unknown proto_step: " ++ other)

/-- The bounds of a message; a text never has more bytes than a `usize` can count. -/
def messageLimits : Limits :=
  { maxBytes := 2 ^ 64 - 1, maxDepth := 128, maxNodes := 16_384, rejectDuplicateKeys := false }

def decodeMirrorMessage (line : String) : Decode MirrorMessage :=
  match parse line messageLimits with
  | .error (.error e) => .error (.error (.protocolError ("invalid JSON: " ++ e)))
  | .error (.panic message) => .error (.panic message)
  | .ok (.object obj) => walkMessage obj
  | .ok _ => .ok (.protocolError "expected a JSON object")

theorem decode_of_parse {line : String} {obj : Fields}
    (h : (parse line messageLimits).toOption = some (.object obj)) :
    decodeMirrorMessage line = walkMessage obj := by
  rw [decodeMirrorMessage, ok_of_toOption h]

end MirrorRust
