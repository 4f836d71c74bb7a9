import MirrorRust.Decoding
import MirrorRust.Transport

/-! The client of one replay session: one message after the other is received, and every state
request is answered by one report. -/
namespace MirrorRust

/-! ### Receiving a message -/

def recvMessage (t : Transport) : Except (Fault Error) MirrorMessage × Transport :=
  match t.recv with
  | (.ok (some line), t) => (decodeMirrorMessage line, t)
  | (.ok none, t) => (.error (.error .transportClosed), t)
  | (.error e, t) => (.error e, t)

def encodeReportState (state : State) : String := encodeClientMessage (.reportState state)

namespace Transport

/-- What one receive does to a transport: the next read is taken, and nothing is written. -/
structure Received (t u : Transport) : Prop where
  sent : u.inner.sent = t.inner.sent
  writes : u.inner.writes = t.inner.writes
  shutdowns : u.inner.shutdowns = t.inner.shutdowns
  closed : u.closed = t.closed
  closeCode : u.closeCode = t.closeCode
  asyncCapable : u.asyncCapable = t.asyncCapable
  observer : u.observer = t.observer
  incoming : u.inner.incoming = t.inner.incoming.tail

theorem recv_open {t : Transport} (h : t.closed = false) : Received t t.recv.2 := by
  unfold recv
  rw [if_neg (by simp [h])]
  unfold Connection.read
  cases hin : t.inner.incoming with
  | nil => exact ⟨rfl, rfl, rfl, rfl, rfl, rfl, rfl, by simp [hin]⟩
  | cons result incoming =>
    cases result with
    | error e => exact ⟨rfl, rfl, rfl, rfl, rfl, rfl, rfl, by simp [hin]⟩
    | ok line =>
      cases line with
      | none => exact ⟨rfl, rfl, rfl, rfl, rfl, rfl, rfl, by simp [hin]⟩
      | some line =>
        cases hobs : t.observer line with
        | none =>
          simp only [hobs]
          exact ⟨rfl, rfl, rfl, rfl, rfl, rfl, rfl, by simp [hin]⟩
        | some message =>
          simp only [hobs]
          exact ⟨rfl, rfl, rfl, rfl, rfl, rfl, rfl, by simp [hin]⟩

theorem recv_line {t u : Transport} {line : String} (h : t.recv = (.ok (some line), u)) :
    t.closed = false ∧ t.inner.incoming = .ok (some line) :: u.inner.incoming ∧
      u.received = t.received ++ [line] ∧ t.observer line = none := by
  unfold recv at h
  split_ifs at h with hclosed
  · simp at h
  unfold Connection.read at h
  cases hin : t.inner.incoming with
  | nil => simp [hin] at h
  | cons result incoming =>
    cases result with
    | error e => simp [hin] at h
    | ok next =>
      cases next with
      | none => simp [hin] at h
      | some next =>
        cases hobs : t.observer next with
        | some message => simp [hin, hobs] at h
        | none =>
          simp only [hin, hobs, Prod.mk.injEq, Except.ok.injEq, Option.some.injEq] at h
          obtain ⟨rfl, rfl⟩ := h
          exact ⟨by simpa using hclosed, rfl, rfl, hobs⟩

/-- An open transport gives the next line, unless the observer panics at it, or it gives none. -/
theorem recv_cases {t : Transport} (h : t.closed = false) :
    (∃ line, t.inner.incoming = .ok (some line) :: t.recv.2.inner.incoming ∧
        (t.recv.1 = .ok (some line) ∨ ∃ message, t.recv.1 = .error (.panic message))) ∨
      t.recv.1 = .ok none ∨ ∃ e, t.recv.1 = .error (.error e) ∧ e.Local := by
  unfold recv
  rw [if_neg (by simp [h])]
  unfold Connection.read
  cases hin : t.inner.incoming with
  | nil => exact Or.inr (Or.inl rfl)
  | cons result incoming =>
    cases result with
    | error e => exact Or.inr (Or.inr ⟨.io e, rfl, trivial⟩)
    | ok next =>
      cases next with
      | none => exact Or.inr (Or.inl rfl)
      | some line =>
        cases hobs : t.observer line with
        | none => exact Or.inl ⟨line, by simp [hobs], Or.inl (by simp [hobs])⟩
        | some message => exact Or.inl ⟨line, by simp [hobs], Or.inr ⟨message, by simp [hobs]⟩⟩

end Transport

theorem recvMessage_closed {t : Transport} (h : t.closed = true) :
    recvMessage t = (.error (.error .transportClosed), t) := by
  simp [recvMessage, t.recv_closed h]

theorem recvMessage_snd (t : Transport) : (recvMessage t).2 = t.recv.2 := by
  unfold recvMessage
  rcases hrecv : t.recv with ⟨result, u⟩
  cases result with
  | error e => rfl
  | ok line => cases line <;> rfl

theorem recvMessage_ok {t u : Transport} {message : MirrorMessage}
    (h : recvMessage t = (.ok message, u)) :
    ∃ line, t.recv = (.ok (some line), u) ∧ decodeMirrorMessage line = .ok message := by
  unfold recvMessage at h
  rcases hrecv : t.recv with ⟨result, v⟩
  rw [hrecv] at h
  cases result with
  | error e => cases h
  | ok line =>
    cases line with
    | none => cases h
    | some line =>
      simp only [Prod.mk.injEq] at h
      obtain ⟨hdecode, rfl⟩ := h
      exact ⟨line, rfl, hdecode⟩

/-- An open transport gives the next message, or a panic at its line, or an error. -/
theorem recvMessage_cases {t : Transport} (h : t.closed = false) :
    (∃ line, t.inner.incoming = .ok (some line) :: (recvMessage t).2.inner.incoming ∧
        ((recvMessage t).1 = decodeMirrorMessage line ∨
          ∃ message, (recvMessage t).1 = .error (.panic message))) ∨
      ∃ e, (recvMessage t).1 = .error (.error e) ∧ e.Local := by
  have hcases := t.recv_cases h
  unfold recvMessage
  rcases hrecv : t.recv with ⟨result, u⟩
  rw [hrecv] at hcases
  rcases hcases with ⟨line, hin, hresult | ⟨message, hresult⟩⟩ | hresult |
    ⟨e, hresult, hlocal⟩
  · simp only at hresult
    subst hresult
    exact Or.inl ⟨line, hin, Or.inl rfl⟩
  · simp only at hresult
    subst hresult
    exact Or.inl ⟨line, hin, Or.inr ⟨message, rfl⟩⟩
  · simp only at hresult
    subst hresult
    exact Or.inr ⟨.transportClosed, rfl, trivial⟩
  · simp only at hresult
    subst hresult
    exact Or.inr ⟨e, rfl, hlocal⟩

theorem recvMessage_received {t : Transport} (h : t.closed = false) :
    t.Received (recvMessage t).2 := by
  rw [recvMessage_snd]
  exact t.recv_open h

/-! ### The stepping loop -/

/-- A state computer with its own state: what a call returns, also when it panics. -/
abbrev Computer (σ ε : Type) := σ → String → State → State → Except (Fault ε) State × σ

/-- The variables of the loop, and what it works on. -/
structure Stepping (σ : Type) where
  transport : Transport
  computer : σ
  state : State
  lastParam : State
  lastAction : String

namespace Stepping

/-- What one turn of the loop comes to. -/
inductive Turn (σ ε : Type)
  | goOn (l : Stepping σ)
  | stop (result : Except (Fault ε) Unit) (l : Stepping σ)

variable {σ ε : Type}

def start (t : Transport) (s : σ) : Stepping σ :=
  { transport := t, computer := s, state := [], lastParam := [], lastAction := "" }

section Loop
variable (debug : MirrorMessage → String) (ofError : Error → ε) (compute : Computer σ ε)

def report (l : Stepping σ) : Turn σ ε :=
  match l.transport.send (encodeReportState l.state) with
  | (.error e, t) => .stop (.error (.error (ofError e))) { l with transport := t }
  | (.ok (), t) => .goOn { l with transport := t }

def onMessage (l : Stepping σ) : MirrorMessage → Turn σ ε
  | .initialState action fromMirror =>
    let l := { l with lastAction := action }
    match compute l.computer action fromMirror [] with
    | (.error e, s) => .stop (.error e) { l with computer := s }
    | (.ok state, s) => report ofError { l with computer := s, state := state }
  | .nextStep action parameters =>
    let l := { l with lastAction := action }
    match compute l.computer action parameters l.state with
    | (.error e, s) => .stop (.error e) { l with computer := s }
    | (.ok next, s) =>
      report ofError { l with computer := s, lastParam := parameters, state := next }
  | .stepOk => .goOn l
  | .allStepsDone => .stop (.ok ()) l
  | .stepMismatch action expected actual hints =>
    .stop (.error (.error (ofError
      (.stepMismatch (action.getD l.lastAction) l.lastParam expected actual hints)))) l
  | .protocolError e => .stop (.error (.error (ofError (.protocolError e)))) l
  | .registerError e => .stop (.error (.error (ofError (.registerFailed e)))) l
  | other =>
    .stop (.error (.error (ofError (.unexpectedMessage ("unexpected message: " ++ debug other))))) l

def turn (l : Stepping σ) : Turn σ ε :=
  match recvMessage l.transport with
  | (.error e, t) => .stop (.error (e.map ofError)) { l with transport := t }
  | (.ok message, t) => onMessage debug ofError compute { l with transport := t } message

def loop : ℕ → Stepping σ → Except (Fault ε) Unit × Stepping σ
  | 0, l => (.error (.panic "loop bound"), l)
  | fuel + 1, l =>
    match turn debug ofError compute l with
    | .goOn l => loop fuel l
    | .stop result l => (result, l)

/-- `run_stepping_loop`. Every turn that goes on has taken one line. -/
def run (l : Stepping σ) : Except (Fault ε) Unit × Stepping σ :=
  loop debug ofError compute (l.transport.inner.incoming.length + 1) l

end Loop
end Stepping

/-! ### The legacy runner -/

section Legacy
variable {σ : Type} (debug : MirrorMessage → String) (compute : Computer σ Error)

def runMainLoop (t : Transport) (s : σ) : Except (Fault Error) Unit × Stepping σ :=
  match recvMessage t with
  | (.error e, t) => (.error e, .start t s)
  | (.ok message, t) =>
    match message with
    | .specValidated .valid => Stepping.run debug id compute (.start t s)
    | .specValidated (.invalid detail) => (.error (.error (.specInvalid detail)), .start t s)
    | .protocolError e => (.error (.error (.protocolError e)), .start t s)
    | .registerError e => (.error (.error (.registerFailed e)), .start t s)
    | other =>
      (.error (.error (.unexpectedMessage ("expected spec_validated, got " ++ debug other))),
        .start t s)

/-- The transport is closed after the loop, also when it is dropped by a panic. -/
def mainLoop (t : Transport) (s : σ) : Except (Fault Error) Unit × Transport × σ :=
  let (result, l) := runMainLoop debug compute t s
  (result, l.transport.close.2, l.computer)

def runRegistered (t : Transport) (registration : ClientMessage) (s : σ) :
    Except (Fault Error) Unit × Transport × σ :=
  match t.send (encodeClientMessage registration) with
  | (.error e, t) => (.error (.error e), t.close.2, s)
  | (.ok (), t) => mainLoop debug compute t s

def runClientWithTransport (t : Transport) (apalacheConfig : ApalacheConfig)
    (traceConfig : TraceGenerationConfig) (spec : Option ApalacheSpec) (s : σ) :
    Except (Fault Error) Unit × Transport × σ :=
  runRegistered debug compute t (.register apalacheConfig traceConfig spec) s

def runClientWithTracesTransport (t : Transport) (apalacheConfig : ApalacheConfig)
    (tracePaths : List String) (s : σ) : Except (Fault Error) Unit × Transport × σ :=
  runRegistered debug compute t (.registerTraces apalacheConfig tracePaths) s

end Legacy
end MirrorRust
