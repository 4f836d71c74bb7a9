import MirrorRust.Equivalence
import MirrorRust.Binding.Session

/-! A replay of traces against a scheduled binding. Its verdict combines what an observer of the
lines has seen, what the runner has returned and what the session of the binding has kept. -/
namespace MirrorRust

/-! ### Messages of errors -/

mutual

/-- The readable form of a value: a small integer is a number. -/
def prettifyValue : Value → Json
  | .int n => if -2 ^ 63 ≤ n ∧ n < 2 ^ 63 then .number (toString n) else .string (toString n)
  | .bool b => .bool b
  | .str s => .string s
  | .set items => .array (prettifyItems items)
  | .seq items => .array (prettifyItems items)
  | .tuple items => .array (prettifyItems items)
  | .map entries => .array (prettifyEntries entries)
  | .record fields => Json.obj (prettifyFields fields)
  | .variant tag v => Json.obj [("tag", .string tag), ("value", prettifyValue v)]
  | .unserializable s => .string s
  | .null => .null

def prettifyItems : List Value → List Json
  | [] => []
  | v :: items => prettifyValue v :: prettifyItems items

def prettifyEntries : List (Value × Value) → List Json
  | [] => []
  | (k, v) :: entries => .array [prettifyValue k, prettifyValue v] :: prettifyEntries entries

def prettifyFields : List (String × Value) → List (String × Json)
  | [] => []
  | (k, v) :: fields => (k, prettifyValue v) :: prettifyFields fields

end

def prettifyState (state : State) : Json := Json.obj (prettifyFields state)

def prettifyJson (state : State) : String := (prettifyState state).render

def Error.display : Error → String
  | .specInvalid detail => "spec invalid: " ++ detail
  | .protocolError message => message
  | .registerFailed message => "register failed: " ++ message
  | .stepMismatch action _ expected actual _ =>
    "step mismatch on action \"" ++ action ++ "\": expected " ++ prettifyJson expected ++ ", got " ++
      prettifyJson actual
  | .unexpectedMessage message => "unexpected message: " ++ message
  | .invalidArgument message => "invalid argument: " ++ message
  | .specSource message => "spec source: " ++ message
  | .transportClosed => "transport closed unexpectedly"
  | .tls message => "TLS: " ++ message
  | .registry message => "registry: " ++ message
  | .io message => message
  | .json message => message

def NegotiatedError.display : NegotiatedError → String
  | .legacy e => e.display
  | .registration code message => "register failed (" ++ code ++ "): " ++ message
  | .modelInterface code message => "model interface (" ++ code ++ "): " ++ message

/-! ### The observer -/

/-- What the observer keeps of a line. -/
def lineVerdict (line : String) : Option String :=
  match decodeMirrorMessage line with
  | .ok .allStepsDone => some "all_steps_done"
  | .ok (.stepMismatch ..) => some "step_mismatch"
  | _ => none

/-- The observer decodes every line, and a panic of the decoder is its own. -/
def linePanic (line : String) : Option String :=
  match decodeMirrorMessage line with
  | .error (.panic message) => some message
  | _ => none

/-- The last verdict that the observer has kept, and its line. -/
def peerTerminal (received : List String) : String × String :=
  received.foldl (fun terminal line =>
    match lineVerdict line with
    | some verdict => (verdict, line)
    | none => terminal) ("", "")

def Transport.observeReceived (t : Transport) (observer : String → Option String) : Transport :=
  { t with observer := observer, received := [] }

/-! ### The replay -/

structure ReplayResult where
  clientResult : Negotiated Unit
  evidence : Json
  passed : Bool

section
variable (hintText : DiffHint → String)

def errorFields : NegotiatedError → List (String × Json)
  | .registration code _ =>
    [("kind", .string "registration"), ("code", .string code), ("orderedHints", .array [])]
  | .modelInterface code _ =>
    [("kind", .string "model_interface"), ("code", .string code), ("orderedHints", .array [])]
  | .legacy (.stepMismatch _ _ expected actual hints) =>
    [("kind", .string "step_mismatch"), ("expected", encodeState expected),
      ("actual", encodeState actual),
      ("orderedHints", .array (hints.map fun h => .string (hintText h)))]
  | .legacy _ => [("kind", .string "transport_or_protocol"), ("orderedHints", .array [])]

def clientEvidence : Negotiated Unit → Json
  | .ok () => Json.obj [("status", .string "succeeded")]
  | .error e =>
    Json.obj ([("status", .string "failed"), ("message", .string e.display)] ++
      errorFields hintText e)

def replayEvidence (passed : Bool) (comparison : String) (terminal : String × String)
    (result : Negotiated Unit) (binding : Json) : Json :=
  Json.obj [("schema", .string "mirrors.scheduled-comparison/v1"), ("passed", .bool passed),
    ("comparison", .string comparison), ("peerTerminal", .string terminal.1),
    ("peerTerminalRaw", .string terminal.2), ("client", clientEvidence hintText result),
    ("binding", binding)]

/-- A mismatch of a step is what the client has returned. -/
def isStepMismatch {α : Type} : Negotiated α → Bool
  | .error (.legacy (.stepMismatch ..)) => true
  | _ => false

def isReplayed : Negotiated Unit → Bool
  | .ok () => true
  | .error (.modelInterface code _) => code = "adapter_dispose_failed"
  | _ => false

/-- The verdict over what the peer has said last and what the client has returned. -/
def comparisonOf (terminal : String) (result : Negotiated Unit) : String :=
  if terminal = "step_mismatch" ∧ isStepMismatch result = true then "step_mismatch"
  else if terminal = "all_steps_done" ∧ isReplayed result = true then "matched"
  else "incomplete"

variable {σ : Type} (debug : MirrorMessage → String) (threadText : ThreadId → String)
  (session : σ → BindingSession)

def BindingSession.used (s : BindingSession) : Bool :=
  let before := s.receipt threadText
  before.index "initializations" != .ofNat 0 || before.index "disposals" != .ofNat 0 ||
    before.index "disposed" != .bool false

def replayResult (t : Transport) (result : Negotiated Unit) (s : BindingSession) : ReplayResult :=
  let terminal := peerTerminal t.received
  let comparison := comparisonOf terminal.1 result
  let passed := succeeded result && comparison == "matched" && s.fullyCompleted
  { clientResult := result
    evidence := replayEvidence hintText passed comparison terminal result (s.receipt threadText)
    passed := passed }

/-- `replay_with_traces`, which a panic of the runner leaves. The session is part of the state of
the embedding program, where the binding finds it. -/
def replayWithTraces (t : Transport) (config : ApalacheConfig) (traces : List String)
    (selection : CompiledAdapterSelection σ) (s : Calls σ) :
    Except String ReplayResult × Transport × Calls σ :=
  if (session s.world).used threadText then
    let result := .error (miError "schedule_session_reused"
      "scheduled replay requires fresh session")
    (.ok {
      clientResult := result
      evidence := replayEvidence hintText false "incomplete" ("", "") result
        ((session s.world).receipt threadText)
      passed := false }, t.close.2, s)
  else
    match runClientWithTracesNegotiatedTransport debug (t.observeReceived linePanic) config traces
      selection s with
    | (.error (.panic message), t, s) => (.error message, t, s)
    | (.error (.error e), t, s) =>
      (.ok (replayResult hintText threadText t (.error e) (session s.world)), t, s)
    | (.ok (), t, s) =>
      (.ok (replayResult hintText threadText t (.ok ()) (session s.world)), t, s)

end

end MirrorRust
