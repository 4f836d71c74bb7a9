import MirrorRust.Lifecycle
import MirrorRust.Tally

/-! The legacy runner and the negotiated runner are the same replay: on the lines that the
negotiation admits, and with a computer that does not fail, they answer with the same reports. -/
namespace MirrorRust

/-! ### The first line -/

/-- What the strict parser accepts, the lenient one reads the same. -/
theorem parse_of_strict {line : String} {j : Json} (h : strictParse line = .ok j) :
    parse line messageLimits = .ok j := by
  unfold strictParse at h
  cases hparse : parse line strictLimits with
  | error e =>
    rw [hparse] at h
    cases h
  | ok j' =>
    rw [hparse] at h
    cases h
    obtain ⟨hsize, raw, hspells, hfits, rfl⟩ := parse_eq_ok.mp hparse
    have hbytes : strictLimits.maxBytes ≤ messageLimits.maxBytes := by decide
    exact parse_eq_ok.mpr ⟨hsize.trans hbytes, raw, hspells,
      ⟨hfits.depth, hfits.nodes, fun h => absurd h (by decide)⟩, rfl⟩

theorem SpecValidReply.decode {line : String} {outer : Fields} (h : SpecValidReply line outer) :
    decodeMirrorMessage line = .ok (.specValidated .valid) := by
  unfold decodeMirrorMessage
  rw [parse_of_strict h.parsed]
  simp only [walkMessage, h.step, h.result, Option.bind_some, Json.asStr]
  rfl

/-- Every line that authorizes a factory is decoded as a valid specification. -/
theorem decode_of_authorization {line : String} {request : ModelInterfaceVerifyRequest}
    {fallback : Bool} {authority : Authorization}
    (h : decodeAuthorization line request fallback = .ok authority) :
    decodeMirrorMessage line = .ok (.specValidated .valid) := by
  rcases decodeAuthorization_cases.mp h with ⟨-, outer, extension, hvalid, -⟩ |
    ⟨-, -, -, outer, hvalid, -⟩
  · exact hvalid.decode
  · exact hvalid.decode

/-! ### One loop with two computers -/

namespace Stepping
variable {σ τ ε δ : Type} {debug : MirrorMessage → String}

/-- A computer that never fails. -/
def always (f : σ → String → State → State → State × σ) : Computer σ ε :=
  fun s action params prev => (.ok (f s action params prev).1, (f s action params prev).2)

/-- The loops have the same variables, and the computer states correspond. -/
structure Alike (project : τ → σ) (l : Stepping σ) (m : Stepping τ) : Prop where
  transport : m.transport = l.transport
  computer : project m.computer = l.computer
  state : m.state = l.state
  lastParam : m.lastParam = l.lastParam
  lastAction : m.lastAction = l.lastAction

/-- Two turns that go on alike, or stop with results that differ in the error type alone. -/
inductive SameTurn (project : τ → σ) (f : ε → δ) : Turn σ ε → Turn τ δ → Prop
  | goOn {l : Stepping σ} {m : Stepping τ} (alike : Alike project l m) :
      SameTurn project f (.goOn l) (.goOn m)
  | stop {l : Stepping σ} {m : Stepping τ} (alike : Alike project l m)
      (result : Except (Fault ε) Unit) :
      SameTurn project f (.stop result l) (.stop (result.mapError (Fault.map f)) m)

section
variable {project : τ → σ} {f : σ → String → State → State → State × σ} {ofError : Error → δ}
  {compute : Computer τ δ}

theorem report_alike {l : Stepping σ} {m : Stepping τ} (h : Alike project l m) :
    SameTurn project ofError (l.report (id : Error → Error)) (m.report ofError) := by
  unfold report
  rw [h.transport, h.state]
  rcases l.transport.send (encodeReportState l.state) with ⟨e | u, t⟩
  · have hstop : Alike project { l with transport := t }
        { m with transport := t, state := l.state } :=
      ⟨rfl, h.computer, rfl, h.lastParam, h.lastAction⟩
    exact .stop hstop (.error (.error e))
  · have hgoOn : Alike project { l with transport := t }
        { m with transport := t, state := l.state } :=
      ⟨rfl, h.computer, rfl, h.lastParam, h.lastAction⟩
    exact .goOn hgoOn

/-- The computer does what `f` does to the state under it. -/
def Follows (project : τ → σ) (f : σ → String → State → State → State × σ)
    (compute : Computer τ δ) : Prop :=
  ∀ s action params prev, (compute s action params prev).1 = .ok (f (project s) action params prev).1 ∧
    project (compute s action params prev).2 = (f (project s) action params prev).2

theorem onMessage_alike (hf : Follows project f compute) {l : Stepping σ} {m : Stepping τ}
    (h : Alike project l m) (message : MirrorMessage) :
    SameTurn project ofError (onMessage debug id (always f) l message)
      (onMessage debug ofError compute m message) := by
  cases message with
  | initialState action fromMirror =>
    obtain ⟨hresult, hcomputer⟩ := hf m.computer action fromMirror []
    rw [h.computer] at hresult hcomputer
    rcases hcompute : compute m.computer action fromMirror [] with ⟨result, s⟩
    rw [hcompute] at hresult hcomputer
    simp only at hresult hcomputer
    subst hresult
    simp only [onMessage, always, hcompute]
    exact report_alike ⟨h.transport, hcomputer, rfl, h.lastParam, rfl⟩
  | nextStep action parameters =>
    obtain ⟨hresult, hcomputer⟩ := hf m.computer action parameters m.state
    rw [h.computer, h.state] at hresult hcomputer
    rcases hcompute : compute m.computer action parameters m.state with ⟨result, s⟩
    rw [h.state] at hcompute
    rw [hcompute] at hresult hcomputer
    simp only at hresult hcomputer
    subst hresult
    simp only [onMessage, always, h.state, hcompute]
    exact report_alike ⟨h.transport, hcomputer, rfl, rfl, rfl⟩
  | stepOk => exact .goOn h
  | stepMismatch action expected actual hints =>
    simp only [onMessage, h.lastAction, h.lastParam]
    exact .stop h _
  | _ => exact .stop h _

theorem turn_alike (hf : Follows project f compute) {l : Stepping σ} {m : Stepping τ}
    (h : Alike project l m) :
    SameTurn project ofError (turn debug id (always f) l) (turn debug ofError compute m) := by
  unfold turn
  rw [h.transport]
  rcases recvMessage l.transport with ⟨fault | message, t⟩
  · have hstop : Alike project { l with transport := t } { m with transport := t } :=
      ⟨rfl, h.computer, h.state, h.lastParam, h.lastAction⟩
    have hmap : fault.map ofError = (fault.map (id : Error → Error)).map ofError := by
      cases fault <;> rfl
    simp only [hmap]
    exact .stop hstop (.error (fault.map id))
  · have hnext : Alike project { l with transport := t } { m with transport := t } :=
      ⟨rfl, h.computer, h.state, h.lastParam, h.lastAction⟩
    exact onMessage_alike hf hnext message

theorem loop_alike (hf : Follows project f compute) (fuel : ℕ) {l : Stepping σ} {m : Stepping τ}
    (h : Alike project l m) :
    (loop debug ofError compute fuel m).1 =
        (loop debug id (always f) fuel l).1.mapError (Fault.map ofError) ∧
      Alike project (loop debug id (always f) fuel l).2 (loop debug ofError compute fuel m).2 := by
  induction fuel generalizing l m with
  | zero => exact ⟨rfl, h⟩
  | succ fuel ih =>
    have hturn := @turn_alike σ τ δ debug project f ofError compute hf l m h
    unfold loop
    cases hl : turn debug id (always f) l with
    | goOn l' =>
      rw [hl] at hturn
      cases hm : turn debug ofError compute m with
      | goOn m' =>
        rw [hm] at hturn
        cases hturn with
        | goOn alike => exact ih alike
      | stop result m' =>
        rw [hm] at hturn
        cases hturn
    | stop result l' =>
      rw [hl] at hturn
      cases hm : turn debug ofError compute m with
      | goOn m' =>
        rw [hm] at hturn
        cases hturn
      | stop result' m' =>
        rw [hm] at hturn
        cases hturn with
        | stop alike => exact ⟨rfl, alike⟩

theorem run_alike (hf : Follows project f compute) {l : Stepping σ} {m : Stepping τ}
    (h : Alike project l m) :
    (run debug ofError compute m).1 =
        (run debug id (always f) l).1.mapError (Fault.map ofError) ∧
      Alike project (run debug id (always f) l).2 (run debug ofError compute m).2 := by
  unfold run
  rw [h.transport]
  exact loop_alike hf _ h

end

/-! ### The reference

The replay of a stream as a fold over it: every request is answered with one report, and nothing
else is sent. -/

/-- What the computer is asked with, and what was asked last. -/
structure Asked (σ : Type) where
  computer : σ
  state : State
  lastParam : State
  lastAction : String

/-- A message as it is read: the observer sees its line before it is decoded. -/
def received (observer : String → Option String) :
    Except String (Option String) → Except (Fault Error) MirrorMessage
  | .error e => .error (.error (.io e))
  | .ok none => .error (.error .transportClosed)
  | .ok (some line) =>
    match observer line with
    | some message => .error (.panic message)
    | none => decodeMirrorMessage line

/-- Whether a line is sent, with the outcomes of the writes after it, and what is given to the
writer. -/
def delivered (writes : List (Except String Unit)) (line : String) :
    Except Error (List (Except String Unit)) × List String :=
  match validateProtocolLine line with
  | .error e => (.error e, [])
  | .ok () =>
    match writes with
    | [] => (.ok [], [line])
    | .ok () :: writes => (.ok writes, [line])
    | .error e :: _ => (.error (.io e), [line])

namespace Asked
variable (f : σ → String → State → State → State × σ)

/-- A request is answered by the computer; at the start of a trace no state comes before. -/
def answer (a : Asked σ) : MirrorMessage → Option (Asked σ)
  | .initialState action fromMirror =>
    some { a with
      computer := (f a.computer action fromMirror []).2
      state := (f a.computer action fromMirror []).1
      lastAction := action }
  | .nextStep action parameters =>
    some {
      computer := (f a.computer action parameters a.state).2
      state := (f a.computer action parameters a.state).1
      lastParam := parameters
      lastAction := action }
  | _ => none

/-- The result of a replay that ends with this message. -/
def ending (debug : MirrorMessage → String) (a : Asked σ) : MirrorMessage → Except Error Unit
  | .allStepsDone => .ok ()
  | .stepMismatch action expected actual hints =>
    .error (.stepMismatch (action.getD a.lastAction) a.lastParam expected actual hints)
  | .protocolError e => .error (.protocolError e)
  | .registerError e => .error (.registerFailed e)
  | other => .error (.unexpectedMessage ("unexpected message: " ++ debug other))

end Asked

/-- The lines that a replay gives to the writer, and its result. -/
def replay (debug : MirrorMessage → String) (f : σ → String → State → State → State × σ)
    (observer : String → Option String) :
    List (Except String (Option String)) → List (Except String Unit) → Asked σ →
      List String × Except (Fault Error) Unit
  | [], _, _ => ([], .error (.error .transportClosed))
  | item :: incoming, writes, a =>
    match received observer item with
    | .error fault => ([], .error fault)
    | .ok message =>
      match a.answer f message with
      | some b =>
        match delivered writes (encodeReportState b.state) with
        | (.error e, lines) => (lines, .error (.error e))
        | (.ok writes, lines) =>
          (lines ++ (replay debug f observer incoming writes b).1,
            (replay debug f observer incoming writes b).2)
      | none =>
        if message.Continues then replay debug f observer incoming writes a
        else ([], (a.ending debug message).mapError .error)

/-- The states that are reported for a list of messages: one for each request, up to the first
terminal message, with the state before it, which is empty at the start of a trace. -/
def reports (f : σ → String → State → State → State × σ) :
    σ → State → List MirrorMessage → List State
  | _, _, [] => []
  | s, prev, message :: messages =>
    match message with
    | .initialState action state =>
      let (next, s) := f s action state []
      next :: reports f s next messages
    | .nextStep action parameters =>
      let (next, s) := f s action parameters prev
      next :: reports f s next messages
    | .stepOk => reports f s prev messages
    | _ => []

section
variable {f : σ → String → State → State → State × σ}

/-- A request whose report is sent. -/
theorem replay_request {observer : String → Option String} {item : Except String (Option String)}
    {incoming : List (Except String (Option String))} {writes : List (Except String Unit)}
    {message : MirrorMessage} {a b : Asked σ} (hitem : received observer item = .ok message)
    (hanswer : a.answer f message = some b)
    (hline : validateProtocolLine (encodeReportState b.state) = .ok ())
    (hwrites : ∀ result ∈ writes, result = .ok ()) :
    ∃ rest, (∀ result ∈ rest, result = .ok ()) ∧
      replay debug f observer (item :: incoming) writes a =
        (encodeReportState b.state :: (replay debug f observer incoming rest b).1,
          (replay debug f observer incoming rest b).2) := by
  have hdelivered : ∃ rest, delivered writes (encodeReportState b.state) =
      (.ok rest, [encodeReportState b.state]) ∧ ∀ result ∈ rest, result = .ok () := by
    unfold delivered
    rw [hline]
    cases writes with
    | nil => exact ⟨[], rfl, hwrites⟩
    | cons result writes =>
      obtain ⟨rfl, hrest⟩ := List.forall_mem_cons.mp hwrites
      exact ⟨writes, rfl, hrest⟩
  obtain ⟨rest, hsent, hrest⟩ := hdelivered
  refine ⟨rest, hrest, ?_⟩
  simp only [replay, hitem, hanswer, hsent, List.singleton_append]

/-- When nothing stands in the way, the lines of a replay are the reports of its messages, and the
replay succeeds if its messages end with `all_steps_done`. -/
theorem replay_reports {observer : String → Option String} (hobserver : ∀ line, observer line = none)
    (incoming : List (Except String (Option String))) {writes : List (Except String Unit)}
    (hwrites : ∀ result ∈ writes, result = .ok ()) (a : Asked σ)
    (hlines : ∀ state ∈ reports f a.computer a.state (script incoming),
      validateProtocolLine (encodeReportState state) = .ok ()) :
    (replay debug f observer incoming writes a).1 =
        (reports f a.computer a.state (script incoming)).map encodeReportState ∧
      ((replay debug f observer incoming writes a).2 = .ok () ↔ .allStepsDone ∈ script incoming) := by
  induction incoming generalizing writes a with
  | nil => simp [replay, script, reports]
  | cons item incoming ih =>
    rcases item with e | _ | line
    · simp [replay, received, script, reports]
    · simp [replay, received, script, reports]
    · cases hdecode : decodeMirrorMessage line with
      | error fault => simp [replay, received, hobserver, script, reports, hdecode]
      | ok message =>
        have hitem : received observer (.ok (some line)) = .ok message := by
          simp only [received, hobserver, hdecode]
        have hscript : script (.ok (some line) :: incoming) =
            if message.Continues then message :: script incoming else [message] := by
          simp only [script, hdecode]
        rw [hscript] at hlines ⊢
        cases message with
        | initialState action fromMirror =>
          obtain ⟨hline, hlines⟩ := List.forall_mem_cons.mp hlines
          obtain ⟨rest, hrest, hreplay⟩ :=
            @replay_request σ debug f observer _ incoming writes _ a _ hitem rfl hline hwrites
          obtain ⟨hfirst, hsecond⟩ := ih hrest ⟨(f a.computer action fromMirror []).2,
            (f a.computer action fromMirror []).1, a.lastParam, action⟩ hlines
          rw [hreplay]
          exact ⟨congrArg _ hfirst, hsecond.trans (by simp [MirrorMessage.Continues])⟩
        | nextStep action parameters =>
          obtain ⟨hline, hlines⟩ := List.forall_mem_cons.mp hlines
          obtain ⟨rest, hrest, hreplay⟩ :=
            @replay_request σ debug f observer _ incoming writes _ a _ hitem rfl hline hwrites
          obtain ⟨hfirst, hsecond⟩ := ih hrest ⟨(f a.computer action parameters a.state).2,
            (f a.computer action parameters a.state).1, parameters, action⟩ hlines
          rw [hreplay]
          exact ⟨congrArg _ hfirst, hsecond.trans (by simp [MirrorMessage.Continues])⟩
        | stepOk =>
          have hreplay : replay debug f observer (.ok (some line) :: incoming) writes a =
              replay debug f observer incoming writes a := by
            simp only [replay, hitem, Asked.answer]
            exact if_pos trivial
          obtain ⟨hfirst, hsecond⟩ := ih hwrites a hlines
          rw [hreplay]
          exact ⟨hfirst, hsecond.trans (by simp [MirrorMessage.Continues])⟩
        | _ =>
          simp [replay, hitem, Asked.answer, Asked.ending, Except.mapError,
            MirrorMessage.Continues, reports]

/-! ### The loop -/

/-- The variables of the loop beside its transport. -/
def asked (l : Stepping σ) : Asked σ := ⟨l.computer, l.state, l.lastParam, l.lastAction⟩

/-- The loop on this transport. -/
def Asked.on (a : Asked σ) (t : Transport) : Stepping σ :=
  ⟨t, a.computer, a.state, a.lastParam, a.lastAction⟩

theorem recvMessage_received_eq {t : Transport} (h : t.closed = false) :
    (recvMessage t).1 = match t.inner.incoming with
      | [] => .error (.error .transportClosed)
      | item :: _ => received t.observer item := by
  unfold recvMessage Transport.recv Connection.read
  rw [if_neg (by simp [h])]
  cases t.inner.incoming with
  | nil => rfl
  | cons item incoming =>
    rcases item with e | _ | line
    · rfl
    · rfl
    · simp only [received]
      cases t.observer line <;> rfl

/-- One report is given to the writer as the reference says. -/
theorem report_delivered (b : Asked σ) {t : Transport} (h : t.closed = false) :
    ∃ u lines, t.Sent u ∧ u.inner.sent = t.inner.sent ++ lines ∧
      ((∃ e, delivered t.inner.writes (encodeReportState b.state) = (.error e, lines) ∧
          (b.on t).report id = .stop (.error (.error e)) (b.on u)) ∨
        delivered t.inner.writes (encodeReportState b.state) = (.ok u.inner.writes, lines) ∧
          (b.on t).report id = .goOn (b.on u)) := by
  have hsent := t.sent_send (encodeReportState b.state)
  refine ⟨(t.send (encodeReportState b.state)).2,
    (delivered t.inner.writes (encodeReportState b.state)).2, hsent, ?_⟩
  unfold report Asked.on Transport.send delivered
  cases validateProtocolLine (encodeReportState b.state) with
  | error e => exact ⟨(List.append_nil _).symm, Or.inl ⟨e, rfl, rfl⟩⟩
  | ok u =>
    simp only [h, Bool.false_eq_true, if_false, Connection.write]
    rcases t.inner.writes with _ | ⟨e | u, writes⟩
    · exact ⟨rfl, Or.inr ⟨rfl, rfl⟩⟩
    · exact ⟨rfl, Or.inl ⟨_, rfl, rfl⟩⟩
    · exact ⟨rfl, Or.inr ⟨rfl, rfl⟩⟩

/-- What one message does: it is a request that is answered, or it is passed over, or it ends the
loop. -/
theorem onMessage_asked (l : Stepping σ) (message : MirrorMessage) :
    (∃ b, l.asked.answer f message = some b ∧
        onMessage debug id (always f) l message = (b.on l.transport).report id) ∨
      l.asked.answer f message = none ∧
        (message.Continues ∧ onMessage debug id (always f) l message = .goOn l ∨
          ¬ message.Continues ∧ onMessage debug id (always f) l message =
            .stop ((l.asked.ending debug message).mapError .error) l) := by
  cases message with
  | initialState action fromMirror => exact Or.inl ⟨_, rfl, rfl⟩
  | nextStep action parameters => exact Or.inl ⟨_, rfl, rfl⟩
  | stepOk => exact Or.inr ⟨rfl, Or.inl ⟨trivial, rfl⟩⟩
  | _ => exact Or.inr ⟨rfl, Or.inr ⟨id, rfl⟩⟩

theorem recvMessage_item {t u : Transport} {message : MirrorMessage} (h : t.closed = false)
    (hrecv : recvMessage t = (.ok message, u)) :
    t.Received u ∧ ∃ item, t.inner.incoming = item :: u.inner.incoming ∧
      received t.observer item = .ok message := by
  obtain ⟨line, -, hincoming, -⟩ := receive_line hrecv
  have hfirst := recvMessage_received_eq h
  have hrest := recvMessage_received h
  rw [hrecv, hincoming] at hfirst
  rw [hrecv] at hrest
  exact ⟨hrest, _, hincoming, hfirst.symm⟩

/-- The replay that goes on where the loop stands. -/
def replayed (debug : MirrorMessage → String) (f : σ → String → State → State → State × σ)
    (l : Stepping σ) : List String × Except (Fault Error) Unit :=
  replay debug f l.transport.observer l.transport.inner.incoming l.transport.inner.writes l.asked

theorem replayed_failed {l : Stepping σ} {fault : Fault Error} {t : Transport}
    (hopen : l.transport.closed = false) (receive : recvMessage l.transport = (.error fault, t)) :
    l.replayed debug f = ([], .error fault) := by
  have hfirst := recvMessage_received_eq hopen
  rw [receive] at hfirst
  unfold replayed
  cases hincoming : l.transport.inner.incoming with
  | nil =>
    rw [hincoming] at hfirst
    obtain rfl : fault = .error .transportClosed := Except.error.inj hfirst
    rfl
  | cons item incoming =>
    rw [hincoming] at hfirst
    have hitem : received l.transport.observer item = .error fault := hfirst.symm
    simp only [replay, hitem]

/-- A turn that stops the loop ends the replay with the same result. -/
theorem replayed_stops {l l' : Stepping σ} {t : Transport} {message : MirrorMessage}
    {result : Except (Fault Error) Unit} (hopen : l.transport.closed = false)
    (receive : recvMessage l.transport = (.ok message, t))
    (hturn : onMessage debug id (always f) { l with transport := t } message = .stop result l') :
    (l.replayed debug f).2 = result ∧
      l'.transport.inner.sent = l.transport.inner.sent ++ (l.replayed debug f).1 := by
  obtain ⟨hrest, item, hincoming, hitem⟩ := recvMessage_item hopen receive
  unfold replayed
  rw [hincoming]
  simp only [replay, hitem]
  rcases @onMessage_asked σ debug f { l with transport := t } message with
    ⟨b, hanswer, hreport⟩ | ⟨hanswer, ⟨-, hgoOn⟩ | ⟨hterminal, hstop⟩⟩
  · have hanswer' : l.asked.answer f message = some b := hanswer
    rw [hreport] at hturn
    obtain ⟨u, lines, -, hsent, ⟨e, hdelivered, hstop⟩ | ⟨-, hgoOn⟩⟩ :=
      report_delivered b (hrest.closed.trans hopen)
    · rw [hstop] at hturn
      cases hturn
      rw [hrest.writes] at hdelivered
      rw [hrest.sent] at hsent
      simp only [hanswer', hdelivered]
      exact ⟨trivial, hsent⟩
    · rw [hgoOn] at hturn
      cases hturn
  · rw [hgoOn] at hturn
    cases hturn
  · have hanswer' : l.asked.answer f message = none := hanswer
    rw [hstop] at hturn
    cases hturn
    simp only [hanswer', if_neg hterminal]
    exact ⟨rfl, by simp [hrest.sent]⟩

/-- A turn that goes on is one message of the replay. -/
theorem replayed_goesOn {l l₁ : Stepping σ} {t : Transport} {message : MirrorMessage}
    (hopen : l.transport.closed = false) (receive : recvMessage l.transport = (.ok message, t))
    (hturn : onMessage debug id (always f) { l with transport := t } message = .goOn l₁) :
    l₁.transport.closed = false ∧
      ∃ lines, l₁.transport.inner.sent = l.transport.inner.sent ++ lines ∧
        l.replayed debug f = (lines ++ (l₁.replayed debug f).1, (l₁.replayed debug f).2) := by
  obtain ⟨hrest, item, hincoming, hitem⟩ := recvMessage_item hopen receive
  unfold replayed
  rw [hincoming]
  simp only [replay, hitem]
  rcases @onMessage_asked σ debug f { l with transport := t } message with
    ⟨b, hanswer, hreport⟩ | ⟨hanswer, ⟨hcontinues, hgoOn⟩ | ⟨-, hstop⟩⟩
  · have hanswer' : l.asked.answer f message = some b := hanswer
    rw [hreport] at hturn
    obtain ⟨u, lines, hsame, hsent, ⟨e, -, hstop⟩ | ⟨hdelivered, hgoOn⟩⟩ :=
      report_delivered b (hrest.closed.trans hopen)
    · rw [hstop] at hturn
      cases hturn
    · rw [hgoOn] at hturn
      cases hturn
      have htransport : (b.on u).transport = u := rfl
      have hasked : (b.on u).asked = b := rfl
      rw [hrest.writes] at hdelivered
      rw [hrest.sent] at hsent
      simp only [hanswer', hdelivered, htransport, hasked, hsame.observer, hsame.incoming,
        hrest.observer]
      exact ⟨hsame.closed.trans (hrest.closed.trans hopen), lines, hsent, rfl⟩
  · have hanswer' : l.asked.answer f message = none := hanswer
    rw [hgoOn] at hturn
    cases hturn
    simp only [hanswer', if_pos hcontinues]
    refine ⟨hrest.closed.trans hopen, [], by simp [hrest.sent], ?_⟩
    rw [hrest.observer, hrest.writes]
    rfl
  · rw [hstop] at hturn
    cases hturn

/-- A run with a computer that does not fail is the replay of its stream. -/
theorem Runs.replays {l l' : Stepping σ} {messages : List MirrorMessage}
    {result : Except (Fault Error) Unit} (h : Runs debug id (always f) l messages result l')
    (hopen : l.transport.closed = false) :
    (l.replayed debug f).2 = result ∧
      l'.transport.inner.sent = l.transport.inner.sent ++ (l.replayed debug f).1 := by
  induction h with
  | @failed l fault t receive =>
    have hsent := (recvMessage_received hopen).sent
    rw [receive] at hsent
    have hfault : fault.map (id : Error → Error) = fault := by cases fault <;> rfl
    rw [replayed_failed hopen receive, hfault]
    exact ⟨rfl, hsent.trans (List.append_nil _).symm⟩
  | stops receive hturn => exact replayed_stops hopen receive hturn
  | goesOn receive hturn rest ih =>
    obtain ⟨hopen₁, lines, hsent, hreplayed⟩ := replayed_goesOn hopen receive hturn
    obtain ⟨hresult, hlines⟩ := ih hopen₁
    rw [hreplayed]
    exact ⟨hresult, by rw [hlines, hsent, List.append_assoc]⟩

theorem recvMessage_shutdowns (t : Transport) :
    (recvMessage t).2.inner.shutdowns = t.inner.shutdowns := by
  by_cases hclosed : t.closed = true
  · rw [recvMessage_closed hclosed]
  · exact (recvMessage_received (by simpa using hclosed)).shutdowns

/-- The loop does not close the transport. -/
theorem Runs.shutdowns {compute : Computer σ ε} {l l' : Stepping σ}
    {messages : List MirrorMessage} {result : Except (Fault ε) Unit}
    (h : Runs debug ofError compute l messages result l') :
    l'.transport.inner.shutdowns = l.transport.inner.shutdowns := by
  have hrecv : ∀ {t u : Transport} {received : Except (Fault Error) MirrorMessage},
      recvMessage t = (received, u) → u.inner.shutdowns = t.inner.shutdowns := by
    intro t u received h
    have hsame := recvMessage_shutdowns t
    rwa [h] at hsame
  induction h with
  | failed receive => exact hrecv receive
  | stops receive hturn => exact (stop_incoming hturn).shutdowns.trans (hrecv receive)
  | goesOn receive hturn rest ih =>
    exact ih.trans ((goOn_incoming hturn).2.shutdowns.trans (hrecv receive))

end
end Stepping

/-! ### The two runners -/

theorem close_ok {t : Transport} (h : ∀ result ∈ t.inner.shutdowns, ∃ code, result = .ok code) :
    ∃ code, t.close.1 = .ok code := by
  unfold Transport.close Connection.shutdown
  cases t.closeCode with
  | some code => exact ⟨code, rfl⟩
  | none =>
    cases hshutdowns : t.inner.shutdowns with
    | nil => exact ⟨0, rfl⟩
    | cons result shutdowns =>
      obtain ⟨code, rfl⟩ := h result (by simp [hshutdowns])
      exact ⟨code, rfl⟩

/-- An error of the legacy runner as the negotiated one returns it; a panic is caught. -/
def wrapped (result : Except (Fault Error) Unit) : Except (Fault NegotiatedError) Unit :=
  returned (caught (result.mapError (Fault.map .legacy)))

/-- A binding whose callbacks succeed, and whose computer is `f`. -/
structure Infallible {σ : Type} (f : σ → String → State → State → State × σ)
    (binding : LocalBinding σ) : Prop where
  computer : ∀ w action params prev, binding.computer action params prev w =
    (.ok (f w action params prev).1, (f w action params prev).2)
  config : ∀ w config, (binding.assertCompatibleConfig config w).1 = .ok ()
  dispose : ∀ w, (binding.dispose w).1 = .ok ()

section
variable {σ : Type} {f : σ → String → State → State → State × σ}

theorem Infallible.follows {binding : LocalBinding σ} (h : Infallible f binding) :
    Stepping.Follows Calls.world f binding.compute := by
  intro s action params prev
  unfold LocalBinding.compute Calls.call
  rw [h.computer]
  exact ⟨rfl, rfl⟩

theorem Infallible.disposeBinding {binding : LocalBinding σ} (h : Infallible f binding)
    (s : Calls σ) : (disposeBinding binding s).1 = .ok () := by
  unfold MirrorRust.disposeBinding Calls.call
  have hdispose := h.dispose s.world
  rcases hrun : binding.dispose s.world with ⟨result, world⟩
  rw [hrun] at hdispose
  have hresult : result = .ok () := hdispose
  subst hresult
  rfl

/-- The part of a negotiated run in which an infallible binding is used is a legacy loop. -/
theorem Infallible.runBinding {binding : LocalBinding σ} (h : Infallible f binding)
    (debug : MirrorMessage → String) {key : CompiledAdapterKey}
    (hdigest : binding.semanticDigest = key.semanticDigest) (config : ApalacheConfig)
    (u : Transport) (s : Calls σ) :
    (runBinding debug binding key config u s).1 =
        caught ((Stepping.run debug id (Stepping.always f)
          (.start u (binding.assertCompatibleConfig config s.world).2)).1.mapError
            (Fault.map .legacy)) ∧
      (runBinding debug binding key config u s).2.1 =
        (Stepping.run debug id (Stepping.always f)
          (.start u (binding.assertCompatibleConfig config s.world).2)).2.transport := by
  have hconfig := h.config s.world config
  unfold MirrorRust.runBinding Calls.call
  rw [if_neg (not_not.mpr hdigest)]
  rcases hcheck : binding.assertCompatibleConfig config s.world with ⟨result, world⟩
  rw [hcheck] at hconfig
  have hok : result = .ok () := hconfig
  subst hok
  have halike : Stepping.Alike Calls.world (.start u world)
      (.start u (⟨world, s.trace ++ [.config (.ok ())]⟩ : Calls σ)) := ⟨rfl, rfl, rfl, rfl, rfl⟩
  obtain ⟨hresult, hafter⟩ :=
    @Stepping.run_alike σ (Calls σ) NegotiatedError debug Calls.world f .legacy binding.compute
      h.follows _ _ halike
  have htransport := hafter.transport
  rw [← hresult, ← htransport]
  rcases hrun : Stepping.run debug .legacy binding.compute
    (.start u (⟨world, s.trace ++ [.config (.ok ())]⟩ : Calls σ)) with ⟨fault | done, l⟩
  · cases fault with
    | error e =>
      simp only [hrun]
      exact ⟨rfl, trivial⟩
    | panic message =>
      simp only [hrun]
      exact ⟨rfl, trivial⟩
  · simp only [hrun]
    exact ⟨rfl, trivial⟩

variable (debug : MirrorMessage → String)

/-- Both runners go on from a line that is admitted, and they answer the rest of the stream as the
reference does: with one report for each request, as long as the reports can be sent. -/
theorem runners_agree {t u v : Transport} {registration : ClientMessage}
    {selection : CompiledAdapterSelection σ} {opened : Opened} {authority : Authorization}
    (h : Authorized t registration selection opened u authority) (config : ApalacheConfig)
    {world : σ} {binding : LocalBinding σ} {s : Calls σ}
    (hmade : createBinding selection config opened authority ⟨world, []⟩ = (.ok binding, s))
    (hdigest : binding.semanticDigest = opened.request.expectedSemanticDigest)
    (hbinding : Infallible f binding)
    (hclose : ∀ result ∈ u.inner.shutdowns, ∃ code, result = .ok code)
    (hline : v.recv = (.ok (some opened.line), u)) :
    decodeMirrorMessage opened.line = .ok (.specValidated .valid) ∧
      (let start := (binding.assertCompatibleConfig config s.world).2
      let expected := Stepping.replay debug f u.observer u.inner.incoming u.inner.writes
        ⟨start, [], [], ""⟩
      let legacy := mainLoop debug (Stepping.always f) v start
      let negotiated := runNegotiated debug t config registration selection ⟨world, []⟩
      legacy.1 = expected.2 ∧ negotiated.1 = wrapped expected.2 ∧
        legacy.2.1.inner.sent = v.inner.sent ++ expected.1 ∧
        negotiated.2.1.inner.sent = legacy.2.1.inner.sent ∧
        ((∀ line, u.observer line = none) → (∀ result ∈ u.inner.writes, result = .ok ()) →
          (∀ state ∈ Stepping.reports f start [] (Stepping.script u.inner.incoming),
            validateProtocolLine (encodeReportState state) = .ok ()) →
          expected.1 = (Stepping.reports f start [] (Stepping.script u.inner.incoming)).map
              encodeReportState ∧
            (expected.2 = .ok () ↔ .allStepsDone ∈ Stepping.script u.inner.incoming))) := by
  have hdecode := decode_of_authorization h.admits
  refine ⟨hdecode, ?_⟩
  have hkey : binding.semanticDigest = opened.key.semanticDigest := by
    rw [hdigest, (openNegotiation_ok h.opens).key]
    rfl
  obtain ⟨hprimary, htransport⟩ := hbinding.runBinding debug hkey config u s
  generalize (binding.assertCompatibleConfig config s.world).2 = start at hprimary htransport
  have hlegacy : mainLoop debug (Stepping.always f) v start =
      ((Stepping.run debug id (Stepping.always f) (.start u start)).1,
        (Stepping.run debug id (Stepping.always f) (.start u start)).2.transport.close.2,
        (Stepping.run debug id (Stepping.always f) (.start u start)).2.computer) := by
    unfold mainLoop runMainLoop recvMessage
    simp only [hline, hdecode]
  obtain ⟨messages, hruns⟩ :=
    @Stepping.run_runs σ Error debug id (Stepping.always f) (.start u start)
  have hreceived : v.Received u := by
    have hrecv := Transport.recv_open (Transport.recv_line hline).1
    rwa [hline] at hrecv
  obtain ⟨hresult, hsent⟩ := hruns.replays (hreceived.closed.trans (Transport.recv_line hline).1)
  have hresult : (Stepping.replay debug f u.observer u.inner.incoming u.inner.writes
      ⟨start, [], [], ""⟩).2 = (Stepping.run debug id (Stepping.always f) (.start u start)).1 :=
    hresult
  have hopened : runNegotiatedOpen debug t config registration selection ⟨world, []⟩ =
      (returned (firstFailure (runBinding debug binding opened.key config u s).1 (.ok ())),
        (runBinding debug binding opened.key config u s).2.1,
        (disposeBinding binding (runBinding debug binding opened.key config u s).2.2).2) := by
    unfold runNegotiatedOpen
    simp only [h.opens, h.admits, hmade, hbinding.disposeBinding]
  simp only [hlegacy]
  refine ⟨hresult.symm, ?_, ?_, ?_, fun hobserver hwrites hlines =>
    Stepping.replay_reports hobserver _ hwrites _ hlines⟩
  · have hshutdowns : ∀ result ∈ (runBinding debug binding opened.key config u s).2.1.inner.shutdowns,
        ∃ code, result = .ok code := by
      rw [htransport, hruns.shutdowns]
      exact hclose
    obtain ⟨code, hcode⟩ := close_ok hshutdowns
    rw [runNegotiated_eq debug hopened, hresult]
    simp only [hcode, hprimary, wrapped]
    cases caught ((Stepping.run debug id (Stepping.always f) (.start u start)).1.mapError
      (Fault.map .legacy)) <;> rfl
  · rw [Transport.close_sent, ← hreceived.sent]
    exact hsent
  · rw [runNegotiated_eq debug hopened, Transport.close_sent, Transport.close_sent, htransport]

end

/-! ### A registration that is admitted -/

theorem encodeRegistration_ok {registration : ClientMessage} {request : ModelInterfaceVerifyRequest}
    {j : Json} (hj : registration.serialize.denote.set "modelInterface" (requestJson request) = j)
    (h : j.render.utf8ByteSize ≤ MAX_PROTOCOL_LINE_BYTES) :
    encodeRegistration registration request = .ok j.render := by
  unfold encodeRegistration
  rw [hj]
  exact if_neg (not_lt.mpr h)

theorem makeVerifyRequest_of {metadata : GeneratedModelInterface} {policy : NegotiationPolicy}
    {digest : SemanticDigest} {contract : Json}
    (hdigest : SemanticDigest.fromHex metadata.semanticDigest = .ok digest)
    (hcontract : strictParse metadata.contractJson = .ok contract)
    (hvalid : validateContract contract = .ok ()) :
    makeVerifyRequest metadata policy = .ok ⟨policy, digest, contract⟩ := by
  unfold makeVerifyRequest
  rw [hdigest, hcontract]
  simp only [returned, bind, Except.bind, hvalid]
  rfl

theorem openNegotiation_of {σ : Type} {t u v : Transport} {registration : ClientMessage}
    {selection : CompiledAdapterSelection σ} {request : ModelInterfaceVerifyRequest} {index : ℕ}
    {encoded line : String}
    (hrequest : makeVerifyRequest selection.interface selection.policy = .ok request)
    (hversion : selection.stateComputerContractVersion = STATE_COMPUTER_CONTRACT_VERSION)
    (hindex : resolveIndex selection.registry (selection.key request.expectedSemanticDigest) =
      .ok index)
    (hencoded : encodeRegistration registration request = .ok encoded)
    (hsend : t.send encoded = (.ok (), v)) (hrecv : v.recv = (.ok (some line), u)) :
    openNegotiation t registration selection =
      (.ok ⟨request, selection.key request.expectedSemanticDigest, index, line⟩, u) := by
  unfold openNegotiation
  simp only [hrequest, hversion, ne_eq, not_true_eq_false, if_false, hindex, hencoded, hsend, hrecv]

theorem Transport.send_quiet {stream : List (Except String (Option String))} {line : String}
    (h : validateProtocolLine line = .ok ()) :
    (Stepping.quiet stream).send line =
      (.ok (), { Stepping.quiet stream with inner := ⟨stream, [], [], [line]⟩ }) := by
  unfold Transport.send
  rw [h]
  rfl

theorem Transport.recv_quiet {stream : List (Except String (Option String))} {line : String}
    {sent : List String} :
    ({ Stepping.quiet (.ok (some line) :: stream) with
        inner := ⟨.ok (some line) :: stream, [], [], sent⟩ } : Transport).recv =
      (.ok (some line), { Stepping.quiet stream with
        inner := ⟨stream, [], [], sent⟩, received := [line] }) := rfl

/-! A binding that answers with the parameters it is given, admitted as the fallback. -/

namespace Echo

/-- A contract without actions. -/
def contract : Json := .object
  [("schema", .string "mirrors.model-interface/v1"), ("interfaceVersion", .string "1"),
    ("model", .object [("module", .string "M"), ("source", .string "M.tla")]),
    ("wire", .object [("actionVariable", .string "a"), ("parameterVariable", .null)]),
    ("initializers", .array []), ("actions", .array []), ("observations", .array [])]

def digest : SemanticDigest := ⟨List.replicate 32 0, by decide⟩

def config : ApalacheConfig :=
  { specPath := "M.tla", initPredicate := none, nextPredicate := none, constInit := none
    invariant := "I", lengthBound := 1, paramVars := none }

def binding : LocalBinding Unit :=
  { semanticDigest := digest
    computer := fun _ params _ w => (.ok params, w)
    assertCompatibleConfig := fun _ w => (.ok (), w)
    dispose := fun w => (.ok (), w) }

/-- One adapter is registered, and the fallback is the same. -/
def selection : CompiledAdapterSelection Unit :=
  { interface := { semanticDigest := digest.toHex, contractJson := contract.render }
    adapterId := "adapter"
    targetProfile := "target"
    stateComputerContractVersion := STATE_COMPUTER_CONTRACT_VERSION
    registry := [⟨⟨digest, "adapter", "target", STATE_COMPUTER_CONTRACT_VERSION⟩,
      fun _ w => (.ok binding, w)⟩]
    policy := .prefer
    fallbackFactory := some fun _ w => (.ok binding, w) }

def request : ModelInterfaceVerifyRequest := ⟨.prefer, digest, contract.denote⟩

def reply : Json := .object [("proto_step", .string "spec_validated"), ("result", .string "valid")]

theorem lengths : 4 * contract.chars.length ≤ strictLimits.maxBytes ∧
    4 * reply.chars.length ≤ strictLimits.maxBytes := by decide +kernel

theorem strictParse_contract : strictParse contract.render = .ok contract.denote := by
  have htokens : contract.Tokens := by
    simp [contract, Json.Tokens, Json.TokensFields, Json.TokensItems]
  have hdistinct : contract.Distinct := by
    simp [contract, Json.Distinct, Json.DistinctFields, Json.DistinctItems]
  exact strictParse_render htokens ⟨by decide, by decide, fun _ => hdistinct⟩ lengths.1

theorem strictParse_reply : strictParse reply.render = .ok reply.denote := by
  have htokens : reply.Tokens := by
    simp [reply, Json.Tokens, Json.TokensFields]
  have hdistinct : reply.Distinct := by
    simp [reply, Json.Distinct, Json.DistinctFields]
  exact strictParse_render htokens ⟨by decide, by decide, fun _ => hdistinct⟩ lengths.2

theorem makeVerifyRequest_selection :
    makeVerifyRequest selection.interface selection.policy = .ok request := by
  have hvalid : validateContract contract.denote = .ok () := by
    have hok : (match validateContract contract.denote with
      | .ok _ => true
      | .error _ => false) = true := by decide +kernel
    split at hok
    · assumption
    · cases hok
  exact makeVerifyRequest_of (SemanticDigest.fromHex_iff.mpr rfl) strictParse_contract hvalid

def registration : Json :=
  (ClientMessage.registerTraces config []).serialize.denote.set "modelInterface"
    (requestJson request)

theorem validateProtocolLine_registration :
    validateProtocolLine registration.render = .ok () := by
  have hchars : registration.chars.length ≤ 2000 ∧ registration.chars ≠ [] ∧
    '\n' ∉ registration.chars := by decide +kernel
  obtain ⟨hlength, hne, hnewline⟩ := hchars
  have hmax : 4 * 2000 ≤ MAX_PROTOCOL_LINE_BYTES := by decide
  exact validateProtocolLine_render (by omega) hne hnewline

theorem encodeRegistration_selection :
    encodeRegistration (.registerTraces config []) request = .ok registration.render :=
  encodeRegistration_ok rfl (validateProtocolLine_ok validateProtocolLine_registration).2

def opened : Opened := ⟨request, selection.key digest, 0, reply.render⟩

def initialLine : String :=
  "\x7b\"proto_step\":\"initial_state\",\"action\":\"init\",\"state\":\x7b\"x\":true\x7d\x7d"

def nextLine : String :=
  "\x7b\"proto_step\":\"next_step\",\"action\":\"flip\",\"parameters\":\x7b\"x\":false\x7d\x7d"

/-- A trace of two states after the reply. -/
def rest : List (Except String (Option String)) :=
  [.ok (some initialLine), .ok (some Stepping.stepOkLine), .ok (some nextLine),
    .ok (some Stepping.stepOkLine), .ok (some Stepping.doneLine)]

theorem script_rest : Stepping.script rest =
    [.initialState "init" [("x", .bool true)], .stepOk, .nextStep "flip" [("x", .bool false)],
      .stepOk, .allStepsDone] := by
  have hinitial : decodeMirrorMessage initialLine =
      .ok (.initialState "init" [("x", .bool true)]) :=
    (@decode_of_parse _ [("action", .string "init"), ("proto_step", .string "initial_state"),
      ("state", .object [("x", .bool true)])] (by decide +kernel)).trans rfl
  have hnext : decodeMirrorMessage nextLine = .ok (.nextStep "flip" [("x", .bool false)]) :=
    (@decode_of_parse _ [("action", .string "flip"), ("parameters", .object [("x", .bool false)]),
      ("proto_step", .string "next_step")] (by decide +kernel)).trans rfl
  simp only [Stepping.script, rest, hinitial, hnext, Stepping.decode_stepOkLine,
    Stepping.decode_doneLine]
  rfl

theorem validateProtocolLine_report (b : Bool) :
    validateProtocolLine (encodeReportState [("x", .bool b)]) = .ok () := by
  have hchars : ∀ b : Bool,
      ((ClientMessage.reportState [("x", .bool b)]).serialize).chars.length ≤ 100 ∧
      ((ClientMessage.reportState [("x", .bool b)]).serialize).chars ≠ [] ∧
      '\n' ∉ ((ClientMessage.reportState [("x", .bool b)]).serialize).chars := by decide +kernel
  obtain ⟨hlength, hne, hnewline⟩ := hchars b
  have hmax : 4 * 100 ≤ MAX_PROTOCOL_LINE_BYTES := by decide
  exact validateProtocolLine_render (by omega) hne hnewline

def after : Transport :=
  { Stepping.quiet rest with
    inner := ⟨rest, [], [], [registration.render]⟩, received := [reply.render] }

theorem opens :
    openNegotiation (Stepping.quiet (.ok (some reply.render) :: rest)) (.registerTraces config [])
      selection = (.ok opened, after) :=
  openNegotiation_of makeVerifyRequest_selection rfl rfl encodeRegistration_selection
    (Transport.send_quiet validateProtocolLine_registration) Transport.recv_quiet

theorem authorized :
    Authorized (Stepping.quiet (.ok (some reply.render) :: rest)) (.registerTraces config [])
      selection opened after .fallback := by
  refine ⟨opens, ?_⟩
  unfold decodeAuthorization
  have hline : opened.line = reply.render := rfl
  rw [hline, strictParse_reply]
  rfl

/-- The transport when the registration is sent. -/
def registered : Transport :=
  { Stepping.quiet (.ok (some reply.render) :: rest) with
    inner := ⟨.ok (some reply.render) :: rest, [], [], [registration.render]⟩ }

theorem infallible : Infallible (fun _ _ params _ => (params, ())) binding :=
  ⟨fun _ _ _ _ => rfl, fun _ _ => rfl, fun _ => rfl⟩

theorem echo_runners_agree :
    let legacy := mainLoop (fun _ => "") (Stepping.always fun _ _ params _ => (params, ()))
      registered ()
    let negotiated := runNegotiated (fun _ => "")
      (Stepping.quiet (.ok (some reply.render) :: rest)) config (.registerTraces config [])
      selection ⟨(), []⟩
    legacy.1 = .ok () ∧ negotiated.1 = .ok () ∧
      legacy.2.1.inner.sent = [registration.render, encodeReportState [("x", .bool true)],
        encodeReportState [("x", .bool false)]] ∧
      negotiated.2.1.inner.sent = legacy.2.1.inner.sent := by
  have hmade : createBinding selection config opened .fallback ⟨(), []⟩ =
    (.ok binding, ⟨(), [.fallback (.ok digest)]⟩) := rfl
  have hreports : Stepping.reports (fun _ _ params _ => (params, ())) () [] (Stepping.script rest) =
      [[("x", .bool true)], [("x", .bool false)]] := by
    rw [script_rest]
    rfl
  obtain ⟨-, hlegacy, hnegotiated, hsent, hsame, hexpected⟩ :=
    runners_agree (fun _ => "") authorized config hmade rfl infallible
      (fun _ h => absurd h List.not_mem_nil) (Transport.recv_quiet : registered.recv = _)
  obtain ⟨hlines, hok⟩ := hexpected (fun _ => rfl) (fun _ h => absurd h List.not_mem_nil) (by
    intro state hstate
    have hmem : state ∈ [[("x", Value.bool true)], [("x", .bool false)]] := hreports ▸ hstate
    simp only [List.mem_cons, List.not_mem_nil, or_false] at hmem
    rcases hmem with rfl | rfl
    · exact validateProtocolLine_report true
    · exact validateProtocolLine_report false)
  have hdone : MirrorMessage.allStepsDone ∈ Stepping.script after.inner.incoming := by
    show MirrorMessage.allStepsDone ∈ Stepping.script rest
    rw [script_rest]
    simp
  have hresult := hok.mpr hdone
  refine ⟨hlegacy.trans hresult, ?_, ?_, hsame⟩
  · rw [hnegotiated, hresult]
    rfl
  · refine hsent.trans ?_
    rw [hlines]
    exact congrArg (fun states => [registration.render] ++ states.map encodeReportState) hreports

end Echo
end MirrorRust
