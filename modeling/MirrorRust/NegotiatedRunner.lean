import MirrorRust.Authorization
import MirrorRust.Stepping

/-! The negotiated runner. The registered factory, or the fallback, makes a binding once a reply
has authorized it; the binding computes the states of the replay and is disposed of at its end. -/
namespace MirrorRust

/-! ### Bindings -/

structure BindingError where
  code : String
  message : String

def BindingError.text (e : BindingError) : String := e.code ++ ": " ++ e.message

/-- What a callback on the state of the embedding program returns, also when it panics. -/
abbrev Callback (σ α : Type) := σ → Except (Fault BindingError) α × σ

structure LocalBinding (σ : Type) where
  semanticDigest : SemanticDigest
  computer : String → State → State → Callback σ State
  assertCompatibleConfig : ApalacheConfig → Callback σ Unit
  dispose : Callback σ Unit

/-- What a strict matched reply has established. -/
structure MatchedBindingContext where
  semanticDigest : SemanticDigest
  descriptorSchema : String
  effectiveConfig : ApalacheConfig

abbrev AdapterFactory (σ : Type) := MatchedBindingContext → Callback σ (LocalBinding σ)

abbrev LegacyFallbackFactory (σ : Type) := ApalacheConfig → Callback σ (LocalBinding σ)

structure CompiledAdapterSelection (σ : Type) where
  interface : GeneratedModelInterface
  adapterId : String
  targetProfile : String
  stateComputerContractVersion : String
  registry : CompiledAdapterRegistry (AdapterFactory σ)
  policy : NegotiationPolicy
  fallbackFactory : Option (LegacyFallbackFactory σ)

/-! ### The calls of a run -/

/-- A call, with what it has returned. -/
inductive Event
  | factory (index : ℕ) (binding : Except (Fault BindingError) SemanticDigest)
  | fallback (binding : Except (Fault BindingError) SemanticDigest)
  | config (result : Except (Fault BindingError) Unit)
  | compute (result : Except (Fault BindingError) State)
  | dispose (result : Except (Fault BindingError) Unit)
  | close (result : Except Error ℤ)

/-- The state of the embedding program, and the calls that were made. -/
structure Calls (σ : Type) where
  world : σ
  trace : List Event

def succeeded {ε α : Type} (result : Except ε α) : Bool :=
  match result with
  | .ok _ => true
  | .error _ => false

namespace Calls
variable {σ α : Type}

def call (s : Calls σ) (callback : Callback σ α) (event : Except (Fault BindingError) α → Event) :
    Except (Fault BindingError) α × Calls σ :=
  let (result, world) := callback s.world
  (result, { world := world, trace := s.trace ++ [event result] })

end Calls

section Runner
variable {σ : Type}

def LocalBinding.compute (binding : LocalBinding σ) : Computer (Calls σ) NegotiatedError :=
  fun s action params prev =>
    let (result, s) := s.call (binding.computer action params prev) .compute
    (result.mapError (Fault.map fun e => miError e.code e.message), s)

/-- `dispose`: a panic is caught. -/
def disposeBinding (binding : LocalBinding σ) (s : Calls σ) : Negotiated Unit × Calls σ :=
  match s.call binding.dispose .dispose with
  | (.ok (), s) => (.ok (), s)
  | (.error (.error e), s) => (.error (miError "adapter_dispose_failed" e.text), s)
  | (.error (.panic _), s) =>
    (.error (miError "adapter_dispose_failed" "binding disposal panicked"), s)

/-! ### The run -/

structure Opened where
  request : ModelInterfaceVerifyRequest
  key : CompiledAdapterKey
  index : ℕ
  line : String

def CompiledAdapterSelection.key (selection : CompiledAdapterSelection σ)
    (digest : SemanticDigest) : CompiledAdapterKey :=
  { semanticDigest := digest
    adapterId := selection.adapterId
    targetProfile := selection.targetProfile
    stateComputerContractVersion := selection.stateComputerContractVersion }

/-- `run_negotiated_open` up to the first line of the mirror. -/
def openNegotiation (t : Transport) (registration : ClientMessage)
    (selection : CompiledAdapterSelection σ) : Except (Fault NegotiatedError) Opened × Transport :=
  match makeVerifyRequest selection.interface selection.policy with
  | .error e => (.error e, t)
  | .ok request =>
    if selection.stateComputerContractVersion ≠ STATE_COMPUTER_CONTRACT_VERSION then
      (.error (.error (miError "state_computer_contract_mismatch"
        "negotiated runner requires mirrors.state-computer/v1")), t)
    else
      let key := selection.key request.expectedSemanticDigest
      match resolveIndex selection.registry key with
      | .error e => (.error (.error e), t)
      | .ok index =>
        match encodeRegistration registration request with
        | .error e => (.error (.error e), t)
        | .ok encoded =>
          match t.send encoded with
          | (.error e, t) => (.error (.error (.legacy e)), t)
          | (.ok (), t) =>
            match t.recv with
            | (.error e, t) => (.error (e.map .legacy), t)
            | (.ok none, t) => (.error (.error (.legacy .transportClosed)), t)
            | (.ok (some line), t) => (.ok ⟨request, key, index, line⟩, t)

def createBinding (selection : CompiledAdapterSelection σ) (config : ApalacheConfig)
    (opened : Opened) (authority : Authorization) (s : Calls σ) :
    Except (Fault BindingError) (LocalBinding σ) × Calls σ :=
  match authority with
  | .matched digest descriptorSchema =>
    match selection.registry[opened.index]? with
    | some registration =>
      s.call (registration.factory ⟨digest, descriptorSchema, config⟩) fun r =>
        .factory opened.index (r.map LocalBinding.semanticDigest)
    | none => (.error (.panic "index out of bounds"), s)
  | .fallback =>
    match selection.fallbackFactory with
    | some factory => s.call (factory config) fun r => .fallback (r.map LocalBinding.semanticDigest)
    | none => (.error (.panic "authorization checked"), s)

section
variable (debug : MirrorMessage → String)

def runBinding (binding : LocalBinding σ) (key : CompiledAdapterKey) (config : ApalacheConfig)
    (t : Transport) (s : Calls σ) : Negotiated Unit × Transport × Calls σ :=
  if binding.semanticDigest ≠ key.semanticDigest then
    (.error (miError "binding_digest_mismatch" "binding digest does not match adapter key"), t, s)
  else
    match s.call (binding.assertCompatibleConfig config) .config with
    | (.error (.error e), s) => (.error (miError "binding_config_mismatch" e.text), t, s)
    | (.error (.panic _), s) =>
      (.error (miError "adapter_failure" "binding callback panicked"), t, s)
    | (.ok (), s) =>
      match Stepping.run debug .legacy binding.compute (.start t s) with
      | (.ok (), l) => (.ok (), l.transport, l.computer)
      | (.error (.error e), l) => (.error e, l.transport, l.computer)
      | (.error (.panic _), l) =>
        (.error (miError "adapter_failure" "binding callback panicked"), l.transport, l.computer)

/-- The first failure of two. -/
def firstFailure {ε : Type} (primary cleanup : Except ε Unit) : Except ε Unit :=
  match primary, cleanup with
  | .error primary, _ => .error primary
  | .ok (), .error cleanup => .error cleanup
  | .ok (), .ok () => .ok ()

def runNegotiatedOpen (t : Transport) (config : ApalacheConfig) (registration : ClientMessage)
    (selection : CompiledAdapterSelection σ) (s : Calls σ) :
    Except (Fault NegotiatedError) Unit × Transport × Calls σ :=
  match openNegotiation t registration selection with
  | (.error e, t) => (.error e, t, s)
  | (.ok opened, t) =>
    match decodeAuthorization opened.line opened.request selection.fallbackFactory.isSome with
    | .error e => (.error e, t, s)
    | .ok authority =>
      match createBinding selection config opened authority s with
      | (.error (.panic _), s) =>
        (.error (.error (miError "adapter_factory_failed" "adapter factory panicked")), t, s)
      | (.error (.error e), s) =>
        (.error (.error (miError "adapter_factory_failed" e.text)), t, s)
      | (.ok binding, s) =>
        let (primary, t, s) := runBinding debug binding opened.key config t s
        let (cleanup, s) := disposeBinding binding s
        (returned (firstFailure primary cleanup), t, s)

/-- The transport is closed after the run, also when it is dropped by a panic. -/
def runNegotiated (t : Transport) (config : ApalacheConfig) (registration : ClientMessage)
    (selection : CompiledAdapterSelection σ) (s : Calls σ) :
    Except (Fault NegotiatedError) Unit × Transport × Calls σ :=
  let (primary, t, s) := runNegotiatedOpen debug t config registration selection s
  let (close, t) := t.close
  let result := close.mapError fun e => Fault.error (NegotiatedError.legacy e)
  (firstFailure primary (result.map fun _ => ()), t,
    { s with trace := s.trace ++ [.close close] })

def runClientNegotiatedTransport (t : Transport) (config : ApalacheConfig)
    (traceConfig : TraceGenerationConfig) (selection : CompiledAdapterSelection σ)
    (spec : Option ApalacheSpec) (s : Calls σ) :
    Except (Fault NegotiatedError) Unit × Transport × Calls σ :=
  runNegotiated debug t config (.register config traceConfig spec) selection s

def runClientWithTracesNegotiatedTransport (t : Transport) (config : ApalacheConfig)
    (tracePaths : List String) (selection : CompiledAdapterSelection σ) (s : Calls σ) :
    Except (Fault NegotiatedError) Unit × Transport × Calls σ :=
  runNegotiated debug t config (.registerTraces config tracePaths) selection s

end
end Runner
end MirrorRust
