import MirrorRust.Client

/-! The runs of the stepping loop, message by message, and the lock-step sessions a mirror should
hold. The loop has no phase of its own, so it also succeeds on sessions that are not lock-step. -/
namespace MirrorRust

def MirrorMessage.Continues : MirrorMessage → Prop
  | .initialState .. | .nextStep .. | .stepOk => True
  | _ => False

instance : DecidablePred MirrorMessage.Continues
  | .initialState .. | .nextStep .. | .stepOk => .isTrue trivial
  | .specValidated _ | .stepMismatch .. | .allStepsDone | .protocolError _ | .registerError _
  | .genTracesDone .. | .jobAccepted .. | .jobStatus .. | .jobResult .. => .isFalse id

namespace Transport

/-- What sending does to a transport: nothing is read, and nothing is closed. -/
structure Sent (t u : Transport) : Prop where
  incoming : u.inner.incoming = t.inner.incoming
  shutdowns : u.inner.shutdowns = t.inner.shutdowns
  closed : u.closed = t.closed
  closeCode : u.closeCode = t.closeCode
  asyncCapable : u.asyncCapable = t.asyncCapable
  observer : u.observer = t.observer
  received : u.received = t.received

theorem Sent.refl (t : Transport) : Sent t t := ⟨rfl, rfl, rfl, rfl, rfl, rfl, rfl⟩

theorem sent_send (t : Transport) (line : String) : Sent t (t.send line).2 := by
  rcases t.send_cases line with ⟨e, hsend, -⟩ | ⟨-, -, hsend⟩
  · rw [hsend]
    exact .refl t
  · rw [hsend]
    refine ⟨t.inner.write_incoming line, ?_, rfl, rfl, rfl, rfl, rfl⟩
    unfold Connection.write
    split <;> rfl

theorem send_local {t u : Transport} {line : String} {e : Error}
    (h : t.send line = (.error e, u)) : e.Local := by
  rcases t.send_cases line with ⟨e', hsend, hlocal⟩ | ⟨-, -, hsend⟩
  · rw [hsend] at h
    cases h
    exact hlocal
  · rw [hsend] at h
    exact t.inner.write_local (Prod.mk.inj h).1

/-- The messages of the lines that were received between two states of a transport. -/
def Took (t u : Transport) (messages : List MirrorMessage) : Prop :=
  ∃ lines, u.received = t.received ++ lines ∧
    List.Forall₂ (fun line message => decodeMirrorMessage line = .ok message) lines messages

theorem Took.unique {t u : Transport} {messages messages' : List MirrorMessage}
    (h : t.Took u messages) (h' : t.Took u messages') : messages = messages' := by
  obtain ⟨lines, hlines, hdecoded⟩ := h
  obtain ⟨lines', hlines', hdecoded'⟩ := h'
  have heq : lines = lines' := List.append_cancel_left (hlines.symm.trans hlines')
  subst heq
  refine List.right_unique_forall₂' (fun line message message' hdecode hdecode' => ?_)
    hdecoded hdecoded'
  exact Except.ok.inj (hdecode.symm.trans hdecode')

end Transport

namespace Stepping
variable {σ ε : Type} (debug : MirrorMessage → String) (ofError : Error → ε)
  (compute : Computer σ ε)

/-! ### One message -/

theorem report_cases (l : Stepping σ) :
    (∃ t, l.transport.Sent t ∧ l.report ofError = .goOn { l with transport := t }) ∨
      ∃ e t, l.transport.Sent t ∧ e.Local ∧
        l.report ofError = .stop (.error (.error (ofError e))) { l with transport := t } := by
  have hsent := l.transport.sent_send (encodeReportState l.state)
  unfold report
  rcases hsend : l.transport.send (encodeReportState l.state) with ⟨result, t⟩
  rw [hsend] at hsent
  cases result with
  | ok u => exact Or.inl ⟨t, hsent, rfl⟩
  | error e => exact Or.inr ⟨e, t, hsent, l.transport.send_local hsend, rfl⟩

theorem onMessage_continues (l : Stepping σ) {message : MirrorMessage} (h : message.Continues) :
    (∃ l', l.transport.Sent l'.transport ∧
        onMessage debug ofError compute l message = .goOn l') ∨
      ∃ fault l', l.transport.Sent l'.transport ∧
        onMessage debug ofError compute l message = .stop (.error fault) l' ∧
        (l'.transport = l.transport ∨ ∃ e, e.Local ∧ fault = .error (ofError e)) := by
  cases message with
  | stepOk => exact Or.inl ⟨l, .refl _, rfl⟩
  | initialState action fromMirror =>
    simp only [onMessage]
    rcases compute l.computer action fromMirror [] with ⟨result, s⟩
    cases result with
    | error fault =>
      exact Or.inr ⟨fault, { l with lastAction := action, computer := s }, .refl _, rfl,
        Or.inl rfl⟩
    | ok state =>
      rcases report_cases ofError
          { l with lastAction := action, computer := s, state := state } with
        ⟨t, hsent, hreport⟩ | ⟨e, t, hsent, hlocal, hreport⟩
      · exact Or.inl ⟨_, hsent, hreport⟩
      · exact Or.inr ⟨_, _, hsent, hreport, Or.inr ⟨e, hlocal, rfl⟩⟩
  | nextStep action parameters =>
    simp only [onMessage]
    rcases compute l.computer action parameters l.state with ⟨result, s⟩
    cases result with
    | error fault =>
      exact Or.inr ⟨fault, { l with lastAction := action, computer := s }, .refl _, rfl,
        Or.inl rfl⟩
    | ok state =>
      rcases report_cases ofError
          { l with lastAction := action, computer := s, lastParam := parameters, state := state }
        with ⟨t, hsent, hreport⟩ | ⟨e, t, hsent, hlocal, hreport⟩
      · exact Or.inl ⟨_, hsent, hreport⟩
      · exact Or.inr ⟨_, _, hsent, hreport, Or.inr ⟨e, hlocal, rfl⟩⟩
  | _ => exact absurd h id

theorem onMessage_terminal (l : Stepping σ) {message : MirrorMessage} (h : ¬ message.Continues) :
    ∃ result, onMessage debug ofError compute l message = .stop result l ∧
      (result = .ok () ↔ message = .allStepsDone) := by
  cases message with
  | stepOk => exact absurd trivial h
  | initialState action fromMirror => exact absurd trivial h
  | nextStep action parameters => exact absurd trivial h
  | allStepsDone => exact ⟨_, rfl, by simp⟩
  | _ => exact ⟨_, rfl, by simp⟩

/-! ### A run -/

/-- The run of the loop that takes the given messages. -/
inductive Runs : Stepping σ → List MirrorMessage → Except (Fault ε) Unit → Stepping σ → Prop
  | failed {l : Stepping σ} {fault : Fault Error} {t : Transport}
      (receive : recvMessage l.transport = (.error fault, t)) :
      Runs l [] (.error (fault.map ofError)) { l with transport := t }
  | stops {l l' : Stepping σ} {t : Transport} {message : MirrorMessage}
      {result : Except (Fault ε) Unit}
      (receive : recvMessage l.transport = (.ok message, t))
      (turn : onMessage debug ofError compute { l with transport := t } message =
        .stop result l') :
      Runs l [message] result l'
  | goesOn {l l₁ l' : Stepping σ} {t : Transport} {message : MirrorMessage}
      {messages : List MirrorMessage} {result : Except (Fault ε) Unit}
      (receive : recvMessage l.transport = (.ok message, t))
      (turn : onMessage debug ofError compute { l with transport := t } message = .goOn l₁)
      (rest : Runs l₁ messages result l') :
      Runs l (message :: messages) result l'

variable {debug ofError compute}

theorem goOn_incoming {l l' : Stepping σ} {message : MirrorMessage}
    (h : onMessage debug ofError compute l message = .goOn l') :
    message.Continues ∧ l.transport.Sent l'.transport := by
  by_cases hcontinues : message.Continues
  · rcases onMessage_continues debug ofError compute l hcontinues with
      ⟨l₁, hsent, hturn⟩ | ⟨fault, l₁, hsent, hturn, -⟩
    · rw [hturn] at h
      cases h
      exact ⟨hcontinues, hsent⟩
    · rw [hturn] at h
      cases h
  · obtain ⟨result, hturn, -⟩ := onMessage_terminal debug ofError compute l hcontinues
    rw [hturn] at h
    cases h

theorem stop_incoming {l l' : Stepping σ} {message : MirrorMessage}
    {result : Except (Fault ε) Unit}
    (h : onMessage debug ofError compute l message = .stop result l') :
    l.transport.Sent l'.transport := by
  by_cases hcontinues : message.Continues
  · rcases onMessage_continues debug ofError compute l hcontinues with
      ⟨l₁, hsent, hturn⟩ | ⟨fault, l₁, hsent, hturn, -⟩
    · rw [hturn] at h
      cases h
    · rw [hturn] at h
      cases h
      exact hsent
  · obtain ⟨result', hturn, -⟩ := onMessage_terminal debug ofError compute l hcontinues
    rw [hturn] at h
    cases h
    exact .refl _

theorem receive_line {t u : Transport} {message : MirrorMessage}
    (h : recvMessage t = (.ok message, u)) :
    ∃ line, decodeMirrorMessage line = .ok message ∧
      t.inner.incoming = .ok (some line) :: u.inner.incoming ∧
      u.received = t.received ++ [line] := by
  obtain ⟨line, hrecv, hdecode⟩ := recvMessage_ok h
  obtain ⟨-, hincoming, hreceived, -⟩ := Transport.recv_line hrecv
  exact ⟨line, hdecode, hincoming, hreceived⟩

/-- Enough fuel for every line makes a run. -/
theorem loop_runs (fuel : ℕ) (l : Stepping σ) (h : l.transport.inner.incoming.length < fuel) :
    ∃ messages, Runs debug ofError compute l messages (loop debug ofError compute fuel l).1
      (loop debug ofError compute fuel l).2 := by
  induction fuel generalizing l with
  | zero => omega
  | succ fuel ih =>
    rcases hreceive : recvMessage l.transport with ⟨received, t⟩
    cases received with
    | error fault =>
      simp only [loop, turn, hreceive]
      exact ⟨[], .failed hreceive⟩
    | ok message =>
      obtain ⟨line, -, hincoming, -⟩ := receive_line hreceive
      rcases hturn : onMessage debug ofError compute { l with transport := t } message with
        l₁ | ⟨result, l₁⟩
      · have hsent := (goOn_incoming hturn).2.incoming
        have hlength : l₁.transport.inner.incoming.length < fuel := by
          rw [hincoming, List.length_cons] at h
          rw [hsent]
          exact Nat.lt_of_succ_lt_succ h
        obtain ⟨messages, hruns⟩ := ih l₁ hlength
        simp only [loop, turn, hreceive, hturn]
        exact ⟨message :: messages, .goesOn hreceive hturn hruns⟩
      · simp only [loop, turn, hreceive, hturn]
        exact ⟨[message], .stops hreceive hturn⟩

theorem run_runs (l : Stepping σ) :
    ∃ messages, Runs debug ofError compute l messages (run debug ofError compute l).1
      (run debug ofError compute l).2 :=
  loop_runs _ l (Nat.lt_succ_self _)

/-! ### The messages of a stream -/

/-- The messages of a stream up to the first that is terminal, or that cannot be received. -/
def script : List (Except String (Option String)) → List MirrorMessage
  | .ok (some line) :: incoming =>
    match decodeMirrorMessage line with
    | .ok message => if message.Continues then message :: script incoming else [message]
    | .error _ => []
  | _ => []

theorem script_continues {t u : Transport} {message : MirrorMessage}
    (h : recvMessage t = (.ok message, u)) (hcontinues : message.Continues) :
    script t.inner.incoming = message :: script u.inner.incoming := by
  obtain ⟨line, hdecode, hincoming, -⟩ := receive_line h
  rw [hincoming]
  simp only [script, hdecode]
  rw [if_pos hcontinues]

theorem script_terminal {t u : Transport} {message : MirrorMessage}
    (h : recvMessage t = (.ok message, u)) (hterminal : ¬ message.Continues) :
    script t.inner.incoming = [message] := by
  obtain ⟨line, hdecode, hincoming, -⟩ := receive_line h
  rw [hincoming]
  simp only [script, hdecode]
  rw [if_neg hterminal]

theorem took_one {t u : Transport} {message : MirrorMessage}
    (h : recvMessage t = (.ok message, u)) : t.Took u [message] := by
  obtain ⟨line, hdecode, -, hreceived⟩ := receive_line h
  exact ⟨[line], hreceived, .cons hdecode .nil⟩

theorem took_cons {t u v w : Transport} {message : MirrorMessage} {messages : List MirrorMessage}
    (h : recvMessage t = (.ok message, u)) (hsent : u.Sent v) (hrest : v.Took w messages) :
    t.Took w (message :: messages) := by
  obtain ⟨line, hdecode, -, hreceived⟩ := receive_line h
  obtain ⟨lines, hlines, hdecoded⟩ := hrest
  refine ⟨line :: lines, ?_, .cons hdecode hdecoded⟩
  rw [hlines, hsent.received, hreceived, List.append_assoc, List.singleton_append]

/-- A run that succeeds has taken the whole script of its stream. -/
theorem Runs.succeeds {l l' : Stepping σ} {messages : List MirrorMessage}
    {result : Except (Fault ε) Unit} (h : Runs debug ofError compute l messages result l')
    (hok : result = .ok ()) :
    messages = script l.transport.inner.incoming ∧ .allStepsDone ∈ messages ∧
      l.transport.Took l'.transport messages := by
  induction h with
  | failed receive => cases hok
  | @stops l l' t message result receive hturn =>
    have hterminal : ¬ message.Continues := by
      intro hcontinues
      rcases onMessage_continues debug ofError compute { l with transport := t } hcontinues with
        ⟨l₁, -, hgoOn⟩ | ⟨fault, l₁, -, hstop, -⟩
      · rw [hgoOn] at hturn
        cases hturn
      · rw [hstop, hok] at hturn
        cases hturn
    obtain ⟨result', hstop, hdone⟩ :=
      onMessage_terminal debug ofError compute { l with transport := t } hterminal
    rw [hstop] at hturn
    cases hturn
    rw [script_terminal receive hterminal, hdone.mp hok]
    exact ⟨rfl, List.mem_singleton_self _, hdone.mp hok ▸ took_one receive⟩
  | goesOn receive hturn rest ih =>
    obtain ⟨hcontinues, hsent⟩ := goOn_incoming hturn
    obtain ⟨hscript, hdone, htook⟩ := ih hok
    rw [script_continues receive hcontinues, ← hsent.incoming, ← hscript]
    exact ⟨rfl, List.mem_cons_of_mem _ hdone, took_cons receive hsent htook⟩

/-! ### Lock-step sessions -/

/-- One trace: every state request is answered and then acknowledged. -/
inductive Trace : List MirrorMessage → Prop
  | initial (action : String) (state : State) : Trace [.initialState action state, .stepOk]
  | next {messages : List MirrorMessage} (action : String) (parameters : State)
      (trace : Trace messages) : Trace (messages ++ [.nextStep action parameters, .stepOk])

/-- A lock-step session: traces one after the other, then the end. -/
inductive LockStep : List MirrorMessage → Prop
  | done : LockStep [.allStepsDone]
  | trace {messages rest : List MirrorMessage} (trace : Trace messages) (session : LockStep rest) :
      LockStep (messages ++ rest)

/-- What has happened to the state of the computer. -/
inductive Phase
  | idle
  | reported
  | acknowledged
  deriving DecidableEq

/-- Every state request needs that no report is open, `next_step` also that there is a state, and
every `step_ok` needs an open report. -/
def Phase.next : Phase → MirrorMessage → Option Phase
  | .idle, .initialState .. => some .reported
  | .acknowledged, .initialState .. => some .reported
  | .acknowledged, .nextStep .. => some .reported
  | .reported, .stepOk => some .acknowledged
  | _, _ => none

/-- Requests and acknowledgements alternate up to the end. -/
def Alternates : Phase → List MirrorMessage → Prop
  | _, [] => False
  | phase, message :: messages =>
    match phase.next message with
    | some phase => Alternates phase messages
    | none => phase ≠ .reported ∧ message = .allStepsDone ∧ messages = []

theorem Trace.alternates {messages : List MirrorMessage} (h : Trace messages) {phase : Phase}
    (hphase : phase ≠ .reported) (rest : List MirrorMessage) :
    Alternates phase (messages ++ rest) ↔ Alternates .acknowledged rest := by
  induction h generalizing rest with
  | initial action state =>
    cases phase with
    | idle => rfl
    | reported => exact absurd rfl hphase
    | acknowledged => rfl
  | next action parameters trace ih =>
    rw [List.append_assoc, ih]
    rfl

theorem LockStep.alternates {messages : List MirrorMessage} (h : LockStep messages) {phase : Phase}
    (hphase : phase ≠ .reported) : Alternates phase messages := by
  induction h generalizing phase with
  | done =>
    cases phase with
    | idle => exact ⟨hphase, rfl, rfl⟩
    | reported => exact absurd rfl hphase
    | acknowledged => exact ⟨hphase, rfl, rfl⟩
  | trace trace session ih => exact (trace.alternates hphase _).mpr (ih (by decide))

/-- The part of the open trace that has been taken. -/
def Taken : Phase → List MirrorMessage → Prop
  | .idle, messages => messages = []
  | .reported, messages => Trace (messages ++ [.stepOk])
  | .acknowledged, messages => Trace messages

theorem LockStep.of_alternates {phase : Phase} {taken messages : List MirrorMessage}
    (h : Alternates phase messages) (htaken : Taken phase taken) :
    LockStep (taken ++ messages) := by
  induction messages generalizing phase taken with
  | nil => exact absurd h id
  | cons message messages ih =>
    have hend : phase.next message = none → LockStep (taken ++ message :: messages) := by
      intro hnext
      simp only [Alternates, hnext] at h
      obtain ⟨hphase, rfl, rfl⟩ := h
      cases phase with
      | idle =>
        cases htaken
        exact .done
      | reported => exact absurd rfl hphase
      | acknowledged => exact .trace htaken .done
    have hinitial : ∀ action state, message = .initialState action state →
        Alternates .reported messages → LockStep (message :: messages) := by
      rintro action state rfl hrest
      have htrace : Taken .reported [.initialState action state] := .initial action state
      exact ih hrest htrace
    cases hphase : phase.next message with
    | none => exact hend hphase
    | some phase' =>
      simp only [Alternates, hphase] at h
      cases phase with
      | idle =>
        cases htaken
        cases message with
        | initialState action state =>
          cases hphase
          exact hinitial action state rfl h
        | _ => cases hphase
      | reported =>
        cases message with
        | stepOk =>
          cases hphase
          have hrest : LockStep (taken ++ [.stepOk] ++ messages) := ih h htaken
          rwa [List.append_assoc, List.singleton_append] at hrest
        | _ => cases hphase
      | acknowledged =>
        cases message with
        | initialState action state =>
          cases hphase
          exact .trace htaken (hinitial action state rfl h)
        | nextStep action parameters =>
          cases hphase
          have hnext : Trace (taken ++ [.nextStep action parameters] ++ [.stepOk]) := by
            rw [List.append_assoc]
            exact .next action parameters htaken
          have hrest : LockStep (taken ++ [.nextStep action parameters] ++ messages) :=
            ih h hnext
          rwa [List.append_assoc, List.singleton_append] at hrest
        | _ => cases hphase

theorem lockStep_iff (messages : List MirrorMessage) :
    LockStep messages ↔ Alternates .idle messages := by
  constructor
  · intro h
    exact h.alternates (by decide)
  · intro h
    exact LockStep.of_alternates h (show Taken .idle [] from rfl)

/-! ### What the loop accepts -/

def constant : Computer σ ε := fun s _ _ _ => (.ok [], s)

/-- Nothing fails on the transport before its lines are read. -/
structure Quiet (t : Transport) : Prop where
  closed : t.closed = false
  writes : t.inner.writes = []
  observer : ∀ line, t.observer line = none

theorem report_empty : validateProtocolLine (encodeReportState []) = .ok () := by
  obtain ⟨hlength, hne, hnewline⟩ :
      4 * (ClientMessage.reportState []).serialize.chars.length ≤ MAX_PROTOCOL_LINE_BYTES ∧
        (ClientMessage.reportState []).serialize.chars ≠ [] ∧
        '\n' ∉ (ClientMessage.reportState []).serialize.chars := by decide +kernel
  exact validateProtocolLine_render hlength hne hnewline

theorem Quiet.report {l : Stepping σ} (h : Quiet l.transport) (hstate : l.state = []) :
    ∃ l', l.report ofError = .goOn l' ∧ Quiet l'.transport := by
  have hsend : l.transport.send (encodeReportState l.state) = (.ok (), { l.transport with
      inner := { l.transport.inner with
        sent := l.transport.inner.sent ++ [encodeReportState l.state] } }) := by
    unfold Transport.send Connection.write
    rw [hstate, report_empty]
    simp only [h.closed, h.writes, Bool.false_eq_true, if_false]
  unfold Stepping.report
  rw [hsend]
  exact ⟨_, rfl, h.closed, h.writes, h.observer⟩

theorem Quiet.onMessage {l : Stepping σ} (h : Quiet l.transport) {message : MirrorMessage}
    (hcontinues : message.Continues) :
    ∃ l', onMessage debug ofError constant l message = .goOn l' ∧ Quiet l'.transport := by
  cases message with
  | stepOk => exact ⟨l, rfl, h⟩
  | initialState action fromMirror =>
    simp only [Stepping.onMessage, constant]
    exact @Quiet.report σ ε ofError { l with lastAction := action, state := [] } h rfl
  | nextStep action parameters =>
    simp only [Stepping.onMessage, constant]
    exact @Quiet.report σ ε ofError
      { l with lastAction := action, lastParam := parameters, state := [] } h rfl
  | _ => exact absurd hcontinues id

theorem Quiet.recvMessage {t : Transport} (h : Quiet t) {line : String} {message : MirrorMessage}
    {incoming : List (Except String (Option String))}
    (hincoming : t.inner.incoming = .ok (some line) :: incoming)
    (hdecode : decodeMirrorMessage line = .ok message) :
    ∃ u, recvMessage t = (.ok message, u) ∧ Quiet u := by
  have hrecv := Transport.recv_open h.closed
  refine ⟨t.recv.2, ?_, ?_, ?_, ?_⟩
  · unfold MirrorRust.recvMessage Transport.recv Connection.read
    simp [h.closed, hincoming, h.observer line, hdecode]
  · rw [hrecv.closed, h.closed]
  · rw [hrecv.writes, h.writes]
  · rw [hrecv.observer]
    exact h.observer

theorem Quiet.next {t : Transport} (h : Quiet t) (hscript : script t.inner.incoming ≠ []) :
    ∃ message u, MirrorRust.recvMessage t = (.ok message, u) ∧ Quiet u := by
  rcases hincoming : t.inner.incoming with _ | ⟨_ | _ | line, incoming⟩
  · simp [hincoming, script] at hscript
  · simp [hincoming, script] at hscript
  · simp [hincoming, script] at hscript
  · cases hdecode : decodeMirrorMessage line with
    | error e => simp [hincoming, script, hdecode] at hscript
    | ok message =>
      obtain ⟨u, hrecv, hu⟩ := h.recvMessage hincoming hdecode
      exact ⟨message, u, hrecv, hu⟩

/-- A constant computer on a quiet transport reaches the end of every script that has one. -/
theorem Quiet.runs {l l' : Stepping σ} {messages : List MirrorMessage}
    {result : Except (Fault ε) Unit} (h : Runs debug ofError constant l messages result l')
    (hquiet : Quiet l.transport) (hdone : .allStepsDone ∈ script l.transport.inner.incoming) :
    result = .ok () := by
  induction h with
  | failed receive =>
    obtain ⟨message, u, hrecv, -⟩ := hquiet.next (List.ne_nil_of_mem hdone)
    rw [receive] at hrecv
    cases hrecv
  | @stops l l' t message result receive hturn =>
    obtain ⟨message', u, hrecv, hu⟩ := hquiet.next (List.ne_nil_of_mem hdone)
    rw [receive] at hrecv
    cases hrecv
    by_cases hcontinues : message.Continues
    · obtain ⟨l₁, hgoOn, -⟩ :=
        @Quiet.onMessage σ ε debug ofError { l with transport := t } hu message hcontinues
      rw [hgoOn] at hturn
      cases hturn
    · rw [script_terminal receive hcontinues, List.mem_singleton] at hdone
      obtain ⟨result', hstop, hresult⟩ :=
        onMessage_terminal debug ofError constant { l with transport := t } hcontinues
      rw [hstop] at hturn
      cases hturn
      exact hresult.mpr hdone.symm
  | @goesOn l l₁ l' t message messages result receive hturn rest ih =>
    obtain ⟨message', u, hrecv, hu⟩ := hquiet.next (List.ne_nil_of_mem hdone)
    rw [receive] at hrecv
    cases hrecv
    obtain ⟨hcontinues, hsent⟩ := goOn_incoming hturn
    obtain ⟨l₂, hgoOn, hquiet'⟩ :=
      @Quiet.onMessage σ ε debug ofError { l with transport := t } hu message hcontinues
    rw [hgoOn] at hturn
    cases hturn
    rw [script_continues receive hcontinues, ← hsent.incoming, List.mem_cons] at hdone
    rcases hdone with rfl | hdone
    · exact absurd hcontinues id
    · exact ih hquiet' hdone

def quiet (stream : List (Except String (Option String))) : Transport :=
  { inner := { incoming := stream, writes := [], shutdowns := [], sent := [] }
    closed := false
    closeCode := none
    asyncCapable := false
    observer := fun _ => none
    received := []
    code_closed := fun h => absurd rfl h }

variable (debug ofError)

theorem quiet_accepts {stream : List (Except String (Option String))}
    (h : .allStepsDone ∈ script stream) (s : σ) :
    (run debug ofError constant (.start (quiet stream) s)).1 = .ok () ∧
      (quiet stream).Took (run debug ofError constant (.start (quiet stream) s)).2.transport
        (script stream) := by
  obtain ⟨messages, hruns⟩ := @run_runs σ ε debug ofError constant (.start (quiet stream) s)
  have hquiet : Quiet (quiet stream) := ⟨rfl, rfl, fun _ => rfl⟩
  have hok := Quiet.runs hruns hquiet h
  obtain ⟨hscript, -, htook⟩ := hruns.succeeds hok
  have hincoming : messages = script stream := hscript
  rw [hincoming] at htook
  exact ⟨hok, htook⟩

/-- The loop holds every run over a stream to lock step if and only if the messages of the stream
alternate, or do not reach `all_steps_done`. -/
theorem run_lockStep_iff (stream : List (Except String (Option String))) :
    (∀ (σ ε : Type) (ofError : Error → ε) (compute : Computer σ ε) (t : Transport) (s : σ),
        t.inner.incoming = stream → (run debug ofError compute (.start t s)).1 = .ok () →
        ∃ messages, t.Took (run debug ofError compute (.start t s)).2.transport messages ∧
          LockStep messages) ↔
      (.allStepsDone ∈ script stream → Alternates .idle (script stream)) := by
  constructor
  · intro h hdone
    obtain ⟨hok, htook⟩ := quiet_accepts debug id hdone ()
    obtain ⟨messages, htook', hsession⟩ := h Unit Error id constant (quiet stream) () rfl hok
    rw [htook'.unique htook] at hsession
    exact (lockStep_iff _).mp hsession
  · intro h σ ε ofError compute t s hstream hok
    obtain ⟨messages, hruns⟩ := @run_runs σ ε debug ofError compute (.start t s)
    obtain ⟨hscript, hdone, htook⟩ := hruns.succeeds hok
    have hincoming : messages = script stream := hstream ▸ hscript
    rw [hincoming] at hdone htook
    exact ⟨script stream, htook, (lockStep_iff _).mpr (h hdone)⟩

def stepOkLine : String := "\x7b\"proto_step\":\"step_ok\"\x7d"

def doneLine : String := "\x7b\"proto_step\":\"all_steps_done\"\x7d"

theorem decode_stepOkLine : decodeMirrorMessage stepOkLine = .ok .stepOk :=
  (@decode_of_parse _ [("proto_step", .string "step_ok")] (by decide +kernel)).trans rfl

theorem decode_doneLine : decodeMirrorMessage doneLine = .ok .allStepsDone :=
  (@decode_of_parse _ [("proto_step", .string "all_steps_done")] (by decide +kernel)).trans rfl

/-- A `step_ok` that no report has asked for. -/
def unsolicited : List (Except String (Option String)) :=
  [.ok (some stepOkLine), .ok (some doneLine)]

theorem script_unsolicited : script unsolicited = [.stepOk, .allStepsDone] := by
  simp only [script, unsolicited, decode_stepOkLine, decode_doneLine]
  rfl

/-- It does not end the session in an error. -/
theorem run_unsolicited : ¬ ∀ (debug : MirrorMessage → String)
    (stream : List (Except String (Option String))) (σ ε : Type) (ofError : Error → ε)
    (compute : Computer σ ε) (t : Transport) (s : σ), t.inner.incoming = stream →
    (run debug ofError compute (.start t s)).1 = .ok () →
    ∃ messages, t.Took (run debug ofError compute (.start t s)).2.transport messages ∧
      LockStep messages := by
  intro h
  have hdone : .allStepsDone ∈ script unsolicited := by
    rw [script_unsolicited]
    exact List.mem_cons_of_mem _ (List.mem_singleton_self _)
  obtain ⟨hok, htook⟩ := quiet_accepts (fun _ => "") (id : Error → Error) hdone ()
  obtain ⟨messages, htook', hsession⟩ := h _ unsolicited Unit Error id constant _ () rfl hok
  rw [htook'.unique htook, script_unsolicited, lockStep_iff] at hsession
  exact absurd hsession.2.1 (by intro h; cases h)

end Stepping
end MirrorRust
