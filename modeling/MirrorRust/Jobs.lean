import MirrorRust.Client

/-! The asynchronous jobs of one borrowed connection: five calls that write one request and read
its reply, and close the connection when the exchange fails. -/
namespace MirrorRust

structure JobAccepted where
  jobId : String
  kind : JobKind

inductive JobReply
  | status (jobId : String) (phase : JobPhase)
  | result (jobId : String) (outcome : JobOutcome)

/-- What a call on a borrowed transport gives, and the transport after it. -/
abbrev Called (α : Type) := Except (Fault Error) α × Transport

/-! ### The exchange -/

def sendJob (t : Transport) (line : String) : Except Error Unit × Transport :=
  let (result, t) := t.send line
  match result with
  | .ok () => (.ok (), t)
  | .error e => (.error e, t.close.2)

def recvJob (t : Transport) : Called MirrorMessage :=
  let (result, t) := recvMessage t
  match result with
  | .error (.error e) => (.error (.error e), t.close.2)
  | result => (result, t)

def exchange {α : Type} (t : Transport) (request : ClientMessage)
    (reply : Transport → MirrorMessage → Called α) : Called α :=
  match sendJob t (encodeClientMessage request) with
  | (.error e, t) => (.error (.error e), t)
  | (.ok (), t) =>
    match recvJob t with
    | (.error e, t) => (.error e, t)
    | (.ok message, t) => reply t message

section Calls
-- the `Debug` text of a message
variable (debug : MirrorMessage → String)

def refuse {α : Type} (t : Transport) (e : Error) : Called α := (.error (.error e), t.close.2)

/-- The reply to a submission of a job of a kind. -/
def acceptJob (kind : JobKind) (t : Transport) : MirrorMessage → Called JobAccepted
  | .jobAccepted jobId k =>
    if k = kind then (.ok ⟨jobId, k⟩, t)
    else refuse t (.unexpectedMessage
      ("expected job_accepted, got " ++ debug (.jobAccepted jobId k)))
  | .registerError e => (.error (.error (.registerFailed e)), t)
  | .protocolError e => refuse t (.protocolError e)
  | other => refuse t (.unexpectedMessage ("expected job_accepted, got " ++ debug other))

def unexpectedReply {α : Type} (t : Transport) (message : MirrorMessage) : Called α :=
  refuse t (.unexpectedMessage ("expected job_status or job_result, got " ++ debug message))

def decodeJobReply (expectedId : String) (t : Transport) : MirrorMessage → Called JobReply
  | .jobStatus jobId phase =>
    if jobId = expectedId then (.ok (.status jobId phase), t)
    else unexpectedReply debug t (.jobStatus jobId phase)
  | .jobResult jobId outcome =>
    if jobId = expectedId then (.ok (.result jobId outcome), t)
    else unexpectedReply debug t (.jobResult jobId outcome)
  | .registerError e => (.error (.error (.registerFailed e)), t)
  | .protocolError e => refuse t (.protocolError e)
  | other => unexpectedReply debug t other

/-! ### The calls -/

def boundError : Error := .invalidArgument "validate bound must be in [1, 100]"

def asyncError : Error :=
  .invalidArgument "async jobs require a TCP or mTLS server-mode transport"

def submitValidateAsync (t : Transport) (apalacheConfig : ApalacheConfig) (bound : ℕ)
    (spec : Option ApalacheSpec) : Called JobAccepted :=
  if ¬ (1 ≤ bound ∧ bound ≤ 100) then (.error (.error boundError), t)
  else if !t.asyncCapable then (.error (.error asyncError), t)
  else exchange t (.registerValidateAsync apalacheConfig bound spec) (acceptJob debug .validate)

def submitTraceGenAsync (t : Transport) (apalacheConfig : ApalacheConfig)
    (traceConfig : TraceGenerationConfig) (destPath : Option String)
    (spec : Option ApalacheSpec) : Called JobAccepted :=
  if !t.asyncCapable then (.error (.error asyncError), t)
  else exchange t (.registerTraceGenAsync apalacheConfig traceConfig destPath spec)
    (acceptJob debug .genTraces)

def jobExchange (t : Transport) (request : ClientMessage) (jobId : String) : Called JobReply :=
  if !t.asyncCapable then (.error (.error asyncError), t)
  else exchange t request (decodeJobReply debug jobId)

def queryJob (t : Transport) (jobId : String) : Called JobReply :=
  jobExchange debug t (.queryJob jobId) jobId

def awaitJob (t : Transport) (jobId : String) (timeoutSecs : Option ℕ) : Called JobReply :=
  jobExchange debug t (.awaitJob jobId timeoutSecs) jobId

def cancelJob (t : Transport) (jobId : String) : Called JobReply :=
  jobExchange debug t (.cancelJob jobId) jobId

/-! ### One call of any kind -/

inductive JobCall
  | submitValidate (apalacheConfig : ApalacheConfig) (bound : ℕ) (spec : Option ApalacheSpec)
  | submitTraceGen (apalacheConfig : ApalacheConfig) (traceConfig : TraceGenerationConfig)
      (destPath : Option String) (spec : Option ApalacheSpec)
  | query (jobId : String)
  | await (jobId : String) (timeoutSecs : Option ℕ)
  | cancel (jobId : String)

inductive JobAnswer
  | accepted (job : JobAccepted)
  | reply (reply : JobReply)

def JobCall.request : JobCall → ClientMessage
  | .submitValidate config bound spec => .registerValidateAsync config bound spec
  | .submitTraceGen config traces destPath spec =>
    .registerTraceGenAsync config traces destPath spec
  | .query jobId => .queryJob jobId
  | .await jobId timeoutSecs => .awaitJob jobId timeoutSecs
  | .cancel jobId => .cancelJob jobId

def JobCall.run (t : Transport) : JobCall → Called JobAnswer
  | .submitValidate config bound spec =>
    (submitValidateAsync debug t config bound spec).map (·.map .accepted) id
  | .submitTraceGen config traces destPath spec =>
    (submitTraceGenAsync debug t config traces destPath spec).map (·.map .accepted) id
  | .query jobId => (queryJob debug t jobId).map (·.map .reply) id
  | .await jobId timeoutSecs => (awaitJob debug t jobId timeoutSecs).map (·.map .reply) id
  | .cancel jobId => (cancelJob debug t jobId).map (·.map .reply) id

def JobCall.allowed (t : Transport) : JobCall → Bool
  | .submitValidate _ bound _ => 1 ≤ bound && bound ≤ 100 && t.asyncCapable
  | _ => t.asyncCapable

/-- The replies a call returns, and what it returns for them. -/
def JobCall.Answers : JobCall → MirrorMessage → JobAnswer → Prop
  | .submitValidate .., message, answer => ∃ jobId, message = .jobAccepted jobId .validate ∧
      answer = .accepted ⟨jobId, .validate⟩
  | .submitTraceGen .., message, answer => ∃ jobId, message = .jobAccepted jobId .genTraces ∧
      answer = .accepted ⟨jobId, .genTraces⟩
  | .query jobId, message, answer | .await jobId _, message, answer
  | .cancel jobId, message, answer =>
    (∃ phase, message = .jobStatus jobId phase ∧ answer = .reply (.status jobId phase)) ∨
      ∃ outcome, message = .jobResult jobId outcome ∧ answer = .reply (.result jobId outcome)

/-- The transport after some calls, whatever they returned. -/
def afterCalls (t : Transport) (calls : List JobCall) : Transport :=
  calls.foldl (fun t call => (call.run debug t).2) t

end Calls

/-! ### What one call does -/

structure Transport.Exchanged (t : Transport) (request reply : String) (u : Transport) : Prop where
  before : t.closed = false
  after : u.closed = false
  sent : u.inner.sent = t.inner.sent ++ [request]
  incoming : t.inner.incoming = .ok (some reply) :: u.inner.incoming

/-- An exchange that gave no reply. -/
structure Transport.Failed (t : Transport) (request : String) (e : Fault Error) (u : Transport) :
    Prop where
  sent : u.inner.sent = t.inner.sent ∨
    t.closed = false ∧ u.inner.sent = t.inner.sent ++ [request]
  incoming : u.inner.incoming = t.inner.incoming ∨ u.inner.incoming = t.inner.incoming.tail
  closes : ∀ error, e = .error error → u.closed = true
  panics : ∀ message, e = .panic message → ∃ reply, t.Exchanged request reply u
  accepted : ∀ detail, e ≠ .error (.registerFailed detail)

theorem Error.Local.accepted {e : Error} (h : e.Local) (detail : String) :
    Fault.error e ≠ .error (.registerFailed detail) := by
  rintro ⟨⟩
  exact h

section Exchange
variable {t : Transport} {request : ClientMessage}

theorem sendJob_cases (t : Transport) (line : String) :
    (∃ e u, sendJob t line = (.error e, u) ∧ t.Failed line (.error e) u) ∨
      ∃ u, sendJob t line = (.ok (), u) ∧ t.closed = false ∧ u.closed = false ∧
        u.inner.sent = t.inner.sent ++ [line] ∧ u.inner.incoming = t.inner.incoming := by
  unfold sendJob
  rcases t.send_cases line with ⟨e, hsend, hlocal⟩ | ⟨hopen, -, hsend⟩
  · rw [hsend]
    exact Or.inl ⟨e, _, rfl, Or.inl (by simp), Or.inl (by simp), fun _ _ => by simp, nofun,
      hlocal.accepted⟩
  · rw [hsend]
    cases hwrite : (t.inner.write line).1 with
    | error e =>
      exact Or.inl ⟨e, _, rfl, Or.inr ⟨hopen, by simp⟩, Or.inl (by simp), fun _ _ => by simp,
        nofun, (Connection.write_local hwrite).accepted⟩
    | ok u => exact Or.inr ⟨_, rfl, hopen, hopen, by simp, by simp⟩

theorem recvJob_cases {t : Transport} (hopen : t.closed = false) :
    (∃ e u, recvJob t = (.error (.error e), u) ∧ u.inner.sent = t.inner.sent ∧
        u.inner.incoming = t.inner.incoming.tail ∧ u.closed = true ∧
        ∀ detail, e ≠ .registerFailed detail) ∨
      ∃ result reply u, recvJob t = (result, u) ∧ u.inner.sent = t.inner.sent ∧
        t.inner.incoming = .ok (some reply) :: u.inner.incoming ∧ u.closed = false ∧
        ((∃ message, result = .error (.panic message)) ∨
          ∃ message, result = .ok message ∧ decodeMirrorMessage reply = .ok message) := by
  have hreceived := recvMessage_received hopen
  have hcases := recvMessage_cases hopen
  have hclosed : (recvMessage t).2.closed = false := hreceived.closed.trans hopen
  unfold recvJob
  rcases hrecv : recvMessage t with ⟨result, u⟩
  rw [hrecv] at hreceived hcases hclosed
  rcases result with (e | message) | message
  · refine Or.inl ⟨e, _, rfl, by simpa using hreceived.sent, by simpa using hreceived.incoming,
      by simp, ?_⟩
    rintro detail rfl
    rcases hcases with ⟨reply, -, hdecode | ⟨m, hm⟩⟩ | ⟨e, he, hlocal⟩
    · obtain ⟨message, h⟩ := Decode.decodeMirrorMessage_refuses reply _ hdecode.symm
      cases h
    · cases hm
    · cases he
      exact hlocal
  · rcases hcases with ⟨reply, hin, -⟩ | ⟨e, he, -⟩
    · exact Or.inr ⟨_, reply, u, rfl, hreceived.sent, hin, hclosed, Or.inl ⟨message, rfl⟩⟩
    · cases he
  · rcases hcases with ⟨reply, hin, hdecode | ⟨m, hm⟩⟩ | ⟨e, he, -⟩
    · exact Or.inr ⟨_, reply, u, rfl, hreceived.sent, hin, hclosed,
        Or.inr ⟨message, rfl, hdecode.symm⟩⟩
    · cases hm
    · cases he

/-- An exchange fails, or its reply is decoded from the line that answers the request. -/
theorem exchange_cases {α : Type} (t : Transport) (request : ClientMessage)
    (reply : Transport → MirrorMessage → Called α) :
    (∃ e u, exchange t request reply = (.error e, u) ∧
        t.Failed (encodeClientMessage request) e u) ∨
      ∃ line message u, exchange t request reply = reply u message ∧
        decodeMirrorMessage line = .ok message ∧
        t.Exchanged (encodeClientMessage request) line u := by
  unfold exchange
  rcases sendJob_cases t (encodeClientMessage request) with
    ⟨e, u, hsend, hfailed⟩ | ⟨u, hsend, hopen, hu, hsent, hin⟩
  · rw [hsend]
    exact Or.inl ⟨.error e, u, rfl, hfailed⟩
  · rw [hsend]
    rcases recvJob_cases hu with ⟨e, v, hrecv, hv, htail, hclosed, hother⟩ |
      ⟨result, line, v, hrecv, hv, hline, hvopen, ⟨message, rfl⟩ | ⟨message, rfl, hdecode⟩⟩
    · simp only [hrecv]
      exact Or.inl ⟨.error e, v, rfl, Or.inr ⟨hopen, by rw [hv, hsent]⟩,
        Or.inr (by rw [htail, hin]), fun _ _ => hclosed, nofun,
        fun detail h => hother detail (Fault.error.inj h)⟩
    · simp only [hrecv]
      have hexchanged : t.Exchanged (encodeClientMessage request) line v :=
        ⟨hopen, hvopen, by rw [hv, hsent], by rw [← hin, hline]⟩
      exact Or.inl ⟨.panic message, v, rfl, Or.inr ⟨hopen, hexchanged.sent⟩,
        Or.inr (by rw [hexchanged.incoming]; rfl), nofun, fun _ _ => ⟨line, hexchanged⟩, nofun⟩
    · simp only [hrecv]
      exact Or.inr ⟨line, message, v, rfl, hdecode, hopen, hvopen, by rw [hv, hsent],
        by rw [← hin, hline]⟩

end Exchange

/-! ### The outcomes of a call -/

section Outcomes
variable {debug : MirrorMessage → String}

/-- What a call does with the reply to its request. -/
def Settles {α : Type} (answers : MirrorMessage → α → Prop) (u : Transport)
    (message : MirrorMessage) (called : Called α) : Prop :=
  (∃ answer, called = (.ok answer, u) ∧ answers message answer) ∨
    (∃ e, called = (.error (.error (.registerFailed e)), u) ∧ message = .registerError e) ∨
    ∃ e, called = refuse u e ∧ ∀ detail, e ≠ .registerFailed detail

theorem acceptJob_settles (kind : JobKind) (u : Transport) (message : MirrorMessage) :
    Settles (fun m a => ∃ jobId, m = .jobAccepted jobId kind ∧ a = JobAccepted.mk jobId kind) u
      message (acceptJob debug kind u message) := by
  cases message with
  | jobAccepted jobId k =>
    by_cases hk : k = kind
    · subst hk
      exact Or.inl ⟨⟨jobId, k⟩, by simp [acceptJob], jobId, rfl, rfl⟩
    · exact Or.inr (Or.inr ⟨_, by simp only [acceptJob, if_neg hk]; rfl, fun _ h => by cases h⟩)
  | registerError e => exact Or.inr (Or.inl ⟨e, rfl, rfl⟩)
  | _ => exact Or.inr (Or.inr ⟨_, rfl, fun _ h => by cases h⟩)

def JobReply.Reports (jobId : String) (message : MirrorMessage) (reply : JobReply) : Prop :=
  (∃ phase, message = .jobStatus jobId phase ∧ reply = .status jobId phase) ∨
    ∃ outcome, message = .jobResult jobId outcome ∧ reply = .result jobId outcome

theorem decodeJobReply_settles (jobId : String) (u : Transport) (message : MirrorMessage) :
    Settles (JobReply.Reports jobId) u message (decodeJobReply debug jobId u message) := by
  cases message with
  | jobStatus id phase =>
    by_cases hid : id = jobId
    · subst hid
      exact Or.inl ⟨_, by simp only [decodeJobReply, if_true], Or.inl ⟨phase, rfl, rfl⟩⟩
    · exact Or.inr (Or.inr ⟨_, by simp only [decodeJobReply, if_neg hid]; rfl, fun _ h => by cases h⟩)
  | jobResult id outcome =>
    by_cases hid : id = jobId
    · subst hid
      exact Or.inl ⟨_, by simp only [decodeJobReply, if_true], Or.inr ⟨outcome, rfl, rfl⟩⟩
    · exact Or.inr (Or.inr ⟨_, by simp only [decodeJobReply, if_neg hid]; rfl, fun _ h => by cases h⟩)
  | registerError e => exact Or.inr (Or.inl ⟨e, rfl, rfl⟩)
  | _ => exact Or.inr (Or.inr ⟨_, rfl, fun _ h => by cases h⟩)

theorem Settles.map {α β : Type} {answers : MirrorMessage → α → Prop}
    {answers' : MirrorMessage → β → Prop} {u : Transport} {message : MirrorMessage}
    {called : Called α} {f : α → β} (h : Settles answers u message called)
    (hf : ∀ a, answers message a → answers' message (f a)) :
    Settles answers' u message (called.map (·.map f) id) := by
  rcases h with ⟨answer, rfl, hanswer⟩ | ⟨e, rfl, he⟩ | ⟨e, rfl, he⟩
  · exact Or.inl ⟨f answer, rfl, hf answer hanswer⟩
  · exact Or.inr (Or.inl ⟨e, rfl, he⟩)
  · exact Or.inr (Or.inr ⟨e, rfl, he⟩)

/-- An exchange fails, or its reply is settled. -/
def Exchanges {β : Type} (t : Transport) (request : ClientMessage)
    (answers : MirrorMessage → β → Prop) (called : Called β) : Prop :=
  (∃ e u, called = (.error e, u) ∧ t.Failed (encodeClientMessage request) e u) ∨
    ∃ reply message u, decodeMirrorMessage reply = .ok message ∧
      t.Exchanged (encodeClientMessage request) reply u ∧ Settles answers u message called

theorem exchange_exchanges {α β : Type} {answers : MirrorMessage → α → Prop}
    {answers' : MirrorMessage → β → Prop} (t : Transport) (request : ClientMessage)
    {reply : Transport → MirrorMessage → Called α} {f : α → β}
    (hreply : ∀ u message, Settles answers u message (reply u message))
    (hf : ∀ message a, answers message a → answers' message (f a)) :
    Exchanges t request answers' ((exchange t request reply).map (·.map f) id) := by
  rcases exchange_cases t request reply with
    ⟨e, u, hfailed, hf'⟩ | ⟨line, message, u, heq, hdecode, hexchanged⟩
  · rw [hfailed]
    exact Or.inl ⟨e, u, rfl, hf'⟩
  · rw [heq]
    exact Or.inr ⟨line, message, u, hdecode, hexchanged, (hreply u message).map (hf message)⟩

/-- A call is refused before anything is done, or it makes one exchange. -/
theorem run_cases (t : Transport) (call : JobCall) :
    (call.allowed t = false ∧
        ∃ message, call.run debug t = (.error (.error (.invalidArgument message)), t)) ∨
      call.allowed t = true ∧ Exchanges t call.request call.Answers (call.run debug t) := by
  have hjob : ∀ (request : ClientMessage) (jobId : String),
      (t.asyncCapable = false ∧ jobExchange debug t request jobId = (.error (.error asyncError), t)) ∨
        t.asyncCapable = true ∧
          jobExchange debug t request jobId = exchange t request (decodeJobReply debug jobId) := by
    intro request jobId
    unfold jobExchange
    cases t.asyncCapable <;> simp
  have hreply : ∀ (jobId : String) (message : MirrorMessage) (a : JobReply),
      JobReply.Reports jobId message a →
        (∃ phase, message = .jobStatus jobId phase ∧
            JobAnswer.reply a = .reply (.status jobId phase)) ∨
          ∃ outcome, message = .jobResult jobId outcome ∧
            JobAnswer.reply a = .reply (.result jobId outcome) := by
    rintro jobId message a (⟨phase, hm, rfl⟩ | ⟨outcome, hm, rfl⟩)
    · exact Or.inl ⟨phase, hm, rfl⟩
    · exact Or.inr ⟨outcome, hm, rfl⟩
  cases call with
  | submitValidate config bound spec =>
    simp only [JobCall.run, submitValidateAsync, JobCall.allowed]
    by_cases hbound : 1 ≤ bound ∧ bound ≤ 100
    · rw [if_neg (not_not.mpr hbound)]
      by_cases hasync : t.asyncCapable = true
      · rw [if_neg (by simp [hasync])]
        refine Or.inr ⟨by simp [hbound, hasync],
          exchange_exchanges t _ (acceptJob_settles .validate) ?_⟩
        rintro message a ⟨jobId, hm, rfl⟩
        exact ⟨jobId, hm, rfl⟩
      · rw [if_pos (by simpa using hasync)]
        exact Or.inl ⟨by simp [hasync], _, rfl⟩
    · rw [if_pos hbound]
      exact Or.inl ⟨by simp; omega, _, rfl⟩
  | submitTraceGen config traces destPath spec =>
    simp only [JobCall.run, submitTraceGenAsync, JobCall.allowed]
    by_cases hasync : t.asyncCapable = true
    · rw [if_neg (by simp [hasync])]
      refine Or.inr ⟨hasync, exchange_exchanges t _ (acceptJob_settles .genTraces) ?_⟩
      rintro message a ⟨jobId, hm, rfl⟩
      exact ⟨jobId, hm, rfl⟩
    · rw [if_pos (by simpa using hasync)]
      exact Or.inl ⟨by simpa using hasync, _, rfl⟩
  | query jobId | await jobId timeoutSecs | cancel jobId =>
    simp only [JobCall.run, queryJob, awaitJob, cancelJob, JobCall.allowed]
    rcases hjob _ jobId with ⟨hasync, heq⟩ | ⟨hasync, heq⟩
    · rw [heq]
      exact Or.inl ⟨hasync, _, rfl⟩
    · rw [heq]
      exact Or.inr ⟨hasync, exchange_exchanges t _ (decodeJobReply_settles jobId) (hreply jobId)⟩

/-! ### The discipline -/

/-- What one call promises about the transport before and after it. -/
structure JobCall.Disciplined (call : JobCall) (t : Transport) (result : Except (Fault Error) JobAnswer)
    (u : Transport) : Prop where
  /-- At most one line is written. -/
  writes : u.inner.sent = t.inner.sent ∨
    u.inner.sent = t.inner.sent ++ [encodeClientMessage call.request]
  /-- At most one line is read. -/
  reads : u.inner.incoming = t.inner.incoming ∨ u.inner.incoming = t.inner.incoming.tail
  /-- An answer is the right reply to the request. -/
  answered : ∀ answer, result = .ok answer → ∃ reply message,
    t.Exchanged (encodeClientMessage call.request) reply u ∧
      decodeMirrorMessage reply = .ok message ∧ call.Answers message answer
  /-- A rejection keeps the transport open. -/
  rejected : ∀ detail, result = .error (.error (.registerFailed detail)) → u.closed = false
  /-- The checks made before encoding leave the transport untouched. -/
  checked : call.allowed t = false →
    u = t ∧ ∃ message, result = .error (.error (.invalidArgument message))
  /-- Every other error closes the transport. -/
  closes : call.allowed t = true → ∀ e, result = .error (.error e) →
    (∀ detail, e ≠ .registerFailed detail) → u.closed = true
  /-- A closed transport stays closed, and nothing is written to it. -/
  poisoned : t.closed = true →
    u.closed = true ∧ u.inner.sent = t.inner.sent ∧ ∀ answer, result ≠ .ok answer
  /-- A transport that stays open has answered every request with one line. -/
  paired : u.closed = false → u.inner.sent = t.inner.sent ∧
      u.inner.incoming = t.inner.incoming ∨
    ∃ reply, t.Exchanged (encodeClientMessage call.request) reply u

theorem run_disciplined (t : Transport) (call : JobCall) :
    call.Disciplined t (call.run debug t).1 (call.run debug t).2 := by
  rcases @run_cases debug t call with ⟨hallowed, message, hrun⟩ | ⟨hallowed, hexchanges⟩
  · rw [hrun]
    exact ⟨Or.inl rfl, Or.inl rfl, nofun, nofun, fun _ => ⟨rfl, message, rfl⟩, by simp [hallowed],
      fun h => ⟨h, rfl, nofun⟩, fun _ => Or.inl ⟨rfl, rfl⟩⟩
  · rcases hexchanges with ⟨e, u, hrun, hfailed⟩ | ⟨reply, message, u, hdecode, hex, hsettles⟩
    · rw [hrun]
      exact
        { writes := hfailed.sent.imp_right And.right
          reads := hfailed.incoming
          answered := nofun
          rejected := fun detail h => absurd (Except.error.inj h) (hfailed.accepted detail)
          checked := by simp [hallowed]
          closes := fun _ e h _ => hfailed.closes e (Except.error.inj h)
          poisoned := fun hclosed => by
            rcases e with e | message
            · refine ⟨hfailed.closes e rfl, ?_, nofun⟩
              exact hfailed.sent.resolve_right fun h => by simp [hclosed] at h
            · obtain ⟨reply, hex⟩ := hfailed.panics message rfl
              exact absurd hex.before (by simp [hclosed])
          paired := fun hopen => by
            rcases e with e | message
            · exact absurd (hfailed.closes e rfl) (ne_true_of_eq_false hopen)
            · exact Or.inr (hfailed.panics message rfl) }
    · have hreads : u.inner.incoming = t.inner.incoming ∨
          u.inner.incoming = t.inner.incoming.tail := Or.inr (by rw [hex.incoming]; rfl)
      have hpoisoned : ∀ P : Prop, t.closed = true → P := fun P h =>
        absurd hex.before (by simp [h])
      rcases hsettles with ⟨answer, hrun, hanswer⟩ | ⟨detail, hrun, -⟩ | ⟨e, hrun, he⟩
      · rw [hrun]
        exact
          { writes := Or.inr hex.sent
            reads := hreads
            answered := fun a h => by
              cases h
              exact ⟨reply, message, hex, hdecode, hanswer⟩
            rejected := nofun
            checked := by simp [hallowed]
            closes := fun _ _ h => by cases h
            poisoned := hpoisoned _
            paired := fun _ => Or.inr ⟨reply, hex⟩ }
      · rw [hrun]
        exact
          { writes := Or.inr hex.sent
            reads := hreads
            answered := nofun
            rejected := fun _ _ => hex.after
            checked := by simp [hallowed]
            closes := fun _ e h hother => by
              cases h
              exact absurd rfl (hother detail)
            poisoned := hpoisoned _
            paired := fun _ => Or.inr ⟨reply, hex⟩ }
      · rw [hrun]
        exact
          { writes := Or.inr (by simpa [refuse] using hex.sent)
            reads := by simpa [refuse] using hreads
            answered := nofun
            rejected := fun detail h => by
              cases h
              exact absurd rfl (he detail)
            checked := by simp [hallowed]
            closes := fun _ _ _ _ => by simp [refuse]
            poisoned := hpoisoned _
            paired := fun hopen => by simp [refuse] at hopen }

/-! ### Runs -/

/-- As long as the transport is open, the requests and the lines read are equally many. -/
def Synced (t u : Transport) : Prop :=
  u.closed = false → ∃ n, u.inner.sent.length = t.inner.sent.length + n ∧
    u.inner.incoming = t.inner.incoming.drop n

theorem synced_run {t u : Transport} (h : Synced t u) (call : JobCall) :
    Synced t (call.run debug u).2 := by
  intro hopen
  have hdisciplined := @run_disciplined debug u call
  have hbefore : u.closed = false := by
    by_contra hclosed
    have := (hdisciplined.poisoned (by simpa using hclosed)).1
    simp [hopen] at this
  obtain ⟨n, hsent, hincoming⟩ := h hbefore
  rcases hdisciplined.paired hopen with ⟨hsame, hin⟩ | ⟨reply, hex⟩
  · exact ⟨n, by rw [hsame, hsent], by rw [hin, hincoming]⟩
  · refine ⟨n + 1, by rw [hex.sent, List.length_append, hsent]; rfl, ?_⟩
    rw [← List.tail_drop, ← hincoming, hex.incoming]
    rfl

theorem synced_after (t : Transport) (calls : List JobCall) :
    Synced t (afterCalls debug t calls) := by
  induction calls using List.reverseRecOn with
  | nil => exact fun _ => ⟨0, rfl, rfl⟩
  | append_singleton calls call ih =>
    rw [afterCalls, List.foldl_append]
    exact synced_run ih call

/-- After a close, nothing is written and nothing succeeds. -/
theorem afterCalls_closed {t : Transport} (h : t.closed = true) (calls : List JobCall) :
    (afterCalls debug t calls).closed = true ∧
      (afterCalls debug t calls).inner.sent = t.inner.sent := by
  induction calls using List.reverseRecOn with
  | nil => exact ⟨h, rfl⟩
  | append_singleton calls call ih =>
    rw [afterCalls, List.foldl_append]
    obtain ⟨hclosed, hsent, -⟩ := (@run_disciplined debug _ call).poisoned ih.1
    exact ⟨hclosed, hsent.trans ih.2⟩

/-- What a call promises after any calls on the same transport. -/
structure JobCall.DisciplinedRun (debug : MirrorMessage → String) (t : Transport)
    (calls : List JobCall) (call : JobCall) : Prop where
  disciplined : call.Disciplined (afterCalls debug t calls)
    (call.run debug (afterCalls debug t calls)).1 (call.run debug (afterCalls debug t calls)).2
  /-- Once the transport is closed, no later call writes anything or returns an answer. -/
  silent : (call.run debug (afterCalls debug t calls)).2.closed = true →
    ∀ (later : List JobCall) (next : JobCall),
    let u := afterCalls debug (call.run debug (afterCalls debug t calls)).2 later
    (next.run debug u).2.inner.sent = (call.run debug (afterCalls debug t calls)).2.inner.sent ∧
      ∀ answer, (next.run debug u).1 ≠ .ok answer
  /-- The answer to the request number `n` is the line number `n` of the peer. -/
  paired : ∀ answer, (call.run debug (afterCalls debug t calls)).1 = .ok answer →
    ∃ n line message,
      (call.run debug (afterCalls debug t calls)).2.inner.sent[t.inner.sent.length + n]? =
        some (encodeClientMessage call.request) ∧
      t.inner.incoming[n]? = some (.ok (some line)) ∧
      decodeMirrorMessage line = .ok message ∧ call.Answers message answer

end Outcomes

/-- Every call of every sequence of job calls on one transport keeps the discipline of the
connection, whatever the peer sends and the connection does. -/
theorem jobs_disciplined (debug : MirrorMessage → String) (t : Transport) (calls : List JobCall)
    (call : JobCall) : call.DisciplinedRun debug t calls := by
  have hdisciplined := @run_disciplined debug (afterCalls debug t calls) call
  refine ⟨hdisciplined, fun hclosed later next => ?_, fun answer hanswer => ?_⟩
  · obtain ⟨hlater, hsent⟩ := @afterCalls_closed debug _ hclosed later
    obtain ⟨-, hnext, hanswer⟩ := (@run_disciplined debug _ next).poisoned hlater
    exact ⟨hnext.trans hsent, hanswer⟩
  · obtain ⟨line, message, hex, hdecode, hanswers⟩ := hdisciplined.answered answer hanswer
    obtain ⟨n, hlength, hincoming⟩ := @synced_after debug t calls hex.before
    refine ⟨n, line, message, ?_, ?_, hdecode, hanswers⟩
    · rw [hex.sent, ← hlength]
      simp
    · have hhead := hex.incoming
      rw [hincoming] at hhead
      rw [← List.head?_drop, hhead]
      rfl

end MirrorRust
