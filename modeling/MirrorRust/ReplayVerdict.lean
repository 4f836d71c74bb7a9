import MirrorRust.Refusals

/-! What a replay says of its lines: the observer and the client decode them on their own, and the
verdict is the one that both have reached. -/
namespace MirrorRust

/-! ### Silent lines -/

/-- The observer keeps nothing of these lines. -/
def Silent (lines : List String) : Prop := ∀ line ∈ lines, lineVerdict line = none

theorem silent_nil : Silent [] := fun _ h => absurd h List.not_mem_nil

theorem silent_cons {line : String} {lines : List String} :
    Silent (line :: lines) ↔ lineVerdict line = none ∧ Silent lines := List.forall_mem_cons

theorem silent_singleton {line : String} : Silent [line] ↔ lineVerdict line = none := by
  rw [silent_cons, and_iff_left silent_nil]

theorem lineVerdict_error {line : String} {fault : Fault Error}
    (h : decodeMirrorMessage line = .error fault) : lineVerdict line = none := by
  unfold lineVerdict
  rw [h]

theorem lineVerdict_done {line : String} (h : decodeMirrorMessage line = .ok .allStepsDone) :
    lineVerdict line = some "all_steps_done" := by
  unfold lineVerdict
  rw [h]

theorem lineVerdict_mismatch {line : String} {action : Option String} {expected actual : State}
    {hints : List DiffHint}
    (h : decodeMirrorMessage line = .ok (.stepMismatch action expected actual hints)) :
    lineVerdict line = some "step_mismatch" := by
  unfold lineVerdict
  rw [h]

theorem lineVerdict_continues {line : String} {message : MirrorMessage}
    (h : decodeMirrorMessage line = .ok message) (hcontinues : message.Continues) :
    lineVerdict line = none := by
  unfold lineVerdict
  rw [h]
  cases message with
  | allStepsDone => exact absurd hcontinues id
  | stepMismatch _ _ _ _ => exact absurd hcontinues id
  | _ => rfl

theorem lineVerdict_panic {line message : String} (h : linePanic line = some message) :
    lineVerdict line = none := by
  unfold linePanic at h
  split at h
  · next hdecode => exact lineVerdict_error hdecode
  · cases h

theorem peerTerminal_silent {lines : List String} (h : Silent lines) :
    peerTerminal lines = ("", "") := by
  induction lines using List.reverseRecOn with
  | nil => rfl
  | append_singleton lines line ih =>
    obtain ⟨hlines, hline⟩ := List.forall_mem_append.mp h
    have hnone : lineVerdict line = none := hline line (List.mem_singleton_self line)
    unfold peerTerminal at ih ⊢
    rw [List.foldl_concat, ih hlines, hnone]

theorem peerTerminal_concat (lines : List String) {line verdict : String}
    (h : lineVerdict line = some verdict) : peerTerminal (lines ++ [line]) = (verdict, line) := by
  unfold peerTerminal
  rw [List.foldl_concat, h]

/-! ### How the loop stops -/

/-- How the lines of the loop end, and what the client makes of it. -/
inductive Stops : List String → Negotiated Unit → Prop
  | done {before : List String} {line : String} (silent : Silent before)
      (decodes : decodeMirrorMessage line = .ok .allStepsDone) : Stops (before ++ [line]) (.ok ())
  | mismatch {before : List String} {line : String} {action : Option String}
      {expected actual : State} {hints : List DiffHint} (name : String) (parameters : State)
      (silent : Silent before)
      (decodes : decodeMirrorMessage line = .ok (.stepMismatch action expected actual hints)) :
      Stops (before ++ [line])
        (.error (.legacy (.stepMismatch name parameters expected actual hints)))
  | failed {lines : List String} {e : NegotiatedError} (silent : Silent lines)
      (refuses : Negotiated.Refuses (.error e : Negotiated Unit)) : Stops lines (.error e)

/-- A line before them that is silent. -/
theorem Stops.cons {lines : List String} {result : Negotiated Unit} (h : Stops lines result)
    {line : String} (hline : lineVerdict line = none) : Stops (line :: lines) result := by
  cases h with
  | done silent decodes => exact .done (silent_cons.mpr ⟨hline, silent⟩) decodes
  | mismatch name parameters silent decodes =>
    exact .mismatch name parameters (silent_cons.mpr ⟨hline, silent⟩) decodes
  | failed silent refuses => exact .failed (silent_cons.mpr ⟨hline, silent⟩) refuses

theorem Stops.of_refused {lines : List String} {fault : Fault NegotiatedError}
    (hsilent : Silent lines) (h : Negotiated.Refuses (caught (.error fault))) :
    Stops lines (caught (.error fault)) := by
  cases fault with
  | error e => exact .failed hsilent h
  | panic message => exact .failed hsilent h

namespace Transport

/-- A failure to read a line: the connection has failed, or the observer has panicked at it. -/
theorem recv_error {t u : Transport} {fault : Fault Error} (h : t.recv = (.error fault, u)) :
    (∃ e : Error, fault = .error e ∧ e.Local ∧ u.received = t.received) ∨
      ∃ line message, fault = .panic message ∧ t.observer line = some message ∧
        u.received = t.received ++ [line] := by
  unfold recv at h
  split_ifs at h with hclosed
  · cases h
    exact Or.inl ⟨_, rfl, trivial, rfl⟩
  unfold Connection.read at h
  rcases hin : t.inner.incoming with _ | ⟨e | _ | line, incoming⟩
  · simp [hin] at h
  · simp only [hin, Prod.mk.injEq, Except.error.injEq] at h
    obtain ⟨rfl, rfl⟩ := h
    exact Or.inl ⟨_, rfl, trivial, rfl⟩
  · simp [hin] at h
  · cases hobs : t.observer line with
    | none => simp [hin, hobs] at h
    | some message =>
      simp only [hin, hobs, Prod.mk.injEq, Except.error.injEq] at h
      obtain ⟨rfl, rfl⟩ := h
      exact Or.inr ⟨line, message, rfl, hobs, rfl⟩

theorem recv_none {t u : Transport} (h : t.recv = (.ok none, u)) : u.received = t.received := by
  unfold recv at h
  split_ifs at h with hclosed
  · cases h
  unfold Connection.read at h
  rcases hin : t.inner.incoming with _ | ⟨e | _ | line, incoming⟩
  · simp only [hin, Prod.mk.injEq] at h
    rw [← h.2]
  · simp [hin] at h
  · simp only [hin, Prod.mk.injEq] at h
    rw [← h.2]
  · cases hobs : t.observer line with
    | none => simp [hin, hobs] at h
    | some message => simp [hin, hobs] at h

end Transport

/-- A message that cannot be received has taken at most a silent line. -/
theorem recvMessage_error {t u : Transport} {fault : Fault Error} (hobs : t.observer = linePanic)
    (h : recvMessage t = (.error fault, u)) : ∃ lines, u.received = t.received ++ lines ∧
      Stops lines (caught (.error (fault.map .legacy))) := by
  unfold recvMessage at h
  rcases hrecv : t.recv with ⟨fault' | _ | line, v⟩
  · rw [hrecv] at h
    cases h
    rcases Transport.recv_error hrecv with ⟨e, rfl, hlocal, hsame⟩ |
      ⟨line, message, rfl, hpanic, hreceived⟩
    · exact ⟨[], by rw [hsame, List.append_nil],
        .failed silent_nil (Negotiated.refuses_local hlocal)⟩
    · rw [hobs] at hpanic
      exact ⟨[line], hreceived, .failed (silent_singleton.mpr (lineVerdict_panic hpanic)) rfl⟩
  · rw [hrecv] at h
    cases h
    exact ⟨[], by rw [Transport.recv_none hrecv, List.append_nil], .failed silent_nil rfl⟩
  · rw [hrecv] at h
    simp only [Prod.mk.injEq] at h
    obtain ⟨hdecode, rfl⟩ := h
    obtain ⟨-, -, hreceived, -⟩ := Transport.recv_line hrecv
    refine ⟨[line], hreceived, .of_refused (silent_singleton.mpr (lineVerdict_error hdecode)) ?_⟩
    cases fault with
    | error e =>
      obtain ⟨message, rfl⟩ := Decode.decodeMirrorMessage_refuses line e hdecode
      rfl
    | panic message => rfl

namespace Stepping
variable {σ : Type} {debug : MirrorMessage → String} {compute : Computer σ NegotiatedError}

/-- The computer never fails with a mismatch of a step. -/
def Honest (compute : Computer σ NegotiatedError) : Prop :=
  ∀ {s s' : σ} {action : String} {params prev : State} {fault : Fault NegotiatedError},
    compute s action params prev = (.error fault, s') →
      Negotiated.Refuses (caught (.error fault))

theorem report_stops {l l' : Stepping σ} {line : String} {result : Except (Fault NegotiatedError) Unit}
    (hline : lineVerdict line = none) (h : l.report .legacy = .stop result l') :
    Stops [line] (caught result) := by
  rcases report_cases NegotiatedError.legacy l with ⟨t, -, hreport⟩ | ⟨e, t, -, hlocal, hreport⟩
  · rw [hreport] at h
    cases h
  · rw [hreport] at h
    cases h
    exact .failed (silent_singleton.mpr hline) (Negotiated.refuses_local hlocal)

theorem onMessage_stops (hcompute : Honest compute) {l l' : Stepping σ} {message : MirrorMessage}
    {line : String} {result : Except (Fault NegotiatedError) Unit}
    (hdecode : decodeMirrorMessage line = .ok message)
    (h : onMessage debug .legacy compute l message = .stop result l') :
    Stops [line] (caught result) := by
  cases message with
  | initialState action state =>
    have hline : lineVerdict line = none := lineVerdict_continues hdecode trivial
    simp only [onMessage] at h
    rcases hcall : compute l.computer action state [] with ⟨fault | next, s⟩
    · rw [hcall] at h
      cases h
      exact .of_refused (silent_singleton.mpr hline) (hcompute hcall)
    · rw [hcall] at h
      exact report_stops hline h
  | nextStep action parameters =>
    have hline : lineVerdict line = none := lineVerdict_continues hdecode trivial
    simp only [onMessage] at h
    rcases hcall : compute l.computer action parameters l.state with ⟨fault | next, s⟩
    · rw [hcall] at h
      cases h
      exact .of_refused (silent_singleton.mpr hline) (hcompute hcall)
    · rw [hcall] at h
      exact report_stops hline h
  | stepOk => cases h
  | allStepsDone =>
    cases h
    exact @Stops.done [] line silent_nil hdecode
  | stepMismatch action expected actual hints =>
    cases h
    exact @Stops.mismatch [] line action expected actual hints _ _ silent_nil hdecode
  | _ =>
    cases h
    refine .failed (silent_singleton.mpr ?_) rfl
    unfold lineVerdict
    rw [hdecode]

/-- The loop takes silent lines up to the one that stops it. -/
theorem Runs.ended (hcompute : Honest compute) {l l' : Stepping σ} {messages : List MirrorMessage}
    {result : Except (Fault NegotiatedError) Unit}
    (h : Runs debug .legacy compute l messages result l')
    (hobs : l.transport.observer = linePanic) : ∃ lines,
      l'.transport.received = l.transport.received ++ lines ∧ Stops lines (caught result) := by
  induction h with
  | failed receive => exact recvMessage_error hobs receive
  | @stops l l' t message result receive turn =>
    obtain ⟨line, hdecode, -, hreceived⟩ := receive_line receive
    have hsent : l'.transport.received = t.received := (stop_incoming turn).received
    exact ⟨[line], by rw [hsent, hreceived], onMessage_stops hcompute hdecode turn⟩
  | @goesOn l l₁ l' t message messages result receive turn rest ih =>
    obtain ⟨line, hdecode, -, hreceived⟩ := receive_line receive
    obtain ⟨hcontinues, hsent⟩ := goOn_incoming turn
    have hopen : l.transport.closed = false := by
      obtain ⟨line', hrecv, -⟩ := recvMessage_ok receive
      exact (Transport.recv_line hrecv).1
    have hkept : t.observer = l.transport.observer := by
      have hreceived := (recvMessage_received hopen).observer
      rwa [receive] at hreceived
    obtain ⟨lines, hlines, hstops⟩ := ih (by rw [hsent.observer, hkept, hobs])
    have hfirst : l₁.transport.received = l.transport.received ++ [line] := by
      rw [hsent.received, hreceived]
    refine ⟨line :: lines, ?_, hstops.cons (lineVerdict_continues hdecode hcontinues)⟩
    rw [hlines, hfirst, List.append_assoc, List.singleton_append]

end Stepping

/-! ### How a run ends -/

section
variable {σ : Type} {debug : MirrorMessage → String}

theorem LocalBinding.honest (binding : LocalBinding σ) : Stepping.Honest binding.compute := by
  intro s s' action params prev fault h
  unfold LocalBinding.compute Calls.call at h
  rcases hcall : binding.computer action params prev s.world with ⟨(e | message) | state, world⟩
  · rw [hcall] at h
    cases h
    rfl
  · rw [hcall] at h
    cases h
    rfl
  · rw [hcall] at h
    cases h

theorem runBinding_stops (binding : LocalBinding σ) (key : CompiledAdapterKey)
    (config : ApalacheConfig) {t : Transport} (hobs : t.observer = linePanic) (s : Calls σ) :
    ∃ lines, (runBinding debug binding key config t s).2.1.received = t.received ++ lines ∧
      Stops lines (runBinding debug binding key config t s).1 := by
  have hsame : t.received = t.received ++ [] := (List.append_nil _).symm
  unfold runBinding
  split
  · exact ⟨[], hsame, .failed silent_nil rfl⟩
  · rcases s.call (binding.assertCompatibleConfig config) .config with
      ⟨(e | message) | u, s₁⟩
    · exact ⟨[], hsame, .failed silent_nil rfl⟩
    · exact ⟨[], hsame, .failed silent_nil rfl⟩
    · obtain ⟨messages, hruns⟩ :=
        @Stepping.run_runs _ _ debug .legacy binding.compute (.start t s₁)
      obtain ⟨lines, hlines, hstops⟩ := hruns.ended binding.honest hobs
      rcases hrun : Stepping.run debug .legacy binding.compute (.start t s₁) with
        ⟨(e | message) | u, l⟩
      all_goals
        rw [hrun] at hlines hstops
        simp only [hrun]
        exact ⟨lines, hlines, hstops⟩

theorem close_local {t : Transport} {e : Error} (h : t.close.1 = .error e) : e.Local := by
  unfold Transport.close at h
  split at h
  · cases h
  · have hshutdown : t.inner.shutdown.1 = .error e := h
    unfold Connection.shutdown at hshutdown
    split at hshutdown
    · cases hshutdown
    · cases hshutdown
    · cases hshutdown
      trivial

/-- How the lines of a run end, and what the client returns after its cleanup. -/
inductive Ended (events : List Event) :
    List String → Except (Fault NegotiatedError) Unit → Prop
  | stopped {lines : List String} {result : Negotiated Unit} (stops : Stops lines result) :
      Ended events lines (returned result)
  | undisposed {before : List String} {line : String} {fault : Fault BindingError}
      (silent : Silent before) (decodes : decodeMirrorMessage line = .ok .allStepsDone)
      (disposal : .dispose (.error fault) ∈ events) :
      Ended events (before ++ [line]) (.error (.error (disposalFailure fault)))
  | unclosed {before : List String} {line : String} {e : Error} (silent : Silent before)
      (decodes : decodeMirrorMessage line = .ok .allStepsDone) (closing : e.Local) :
      Ended events (before ++ [line]) (.error (.error (.legacy e)))
  | refused (line message : String) : Ended events [line] (.error (.error (unexpected message)))
  | panicked {line message : String} (panics : linePanic line = some message) :
      Ended events [line] (.error (.panic message))

/-- A line on which the observer has a verdict is no registration reply. -/
theorem registrationReply_other {outer : Fields} {message : MirrorMessage}
    (h : walkMessage outer = .ok message) (hspec : ∀ result, message ≠ .specValidated result)
    (hprotocol : ∀ e, message ≠ .protocolError e) (hregister : ∀ e, message ≠ .registerError e) :
    ∃ step, registrationReply outer = .ok (.other step) := by
  unfold walkMessage at h
  cases hstep : (outer.get "proto_step").bind Json.asStr with
  | none =>
    rw [hstep] at h
    cases h
  | some step =>
    rw [hstep] at h
    by_cases hvalidated : step = "spec_validated"
    · subst hvalidated
      obtain ⟨result, -, hresult⟩ := bind_ok_iff.mp h
      exact absurd (Except.ok.inj hresult).symm (hspec result)
    by_cases herror : step = "protocol_error"
    · subst herror
      obtain ⟨e, -, he⟩ := bind_ok_iff.mp h
      exact absurd (Except.ok.inj he).symm (hprotocol e)
    by_cases hfailed : step = "register_error"
    · subst hfailed
      obtain ⟨e, -, he⟩ := bind_ok_iff.mp h
      exact absurd (Except.ok.inj he).symm (hregister e)
    refine ⟨step, ?_⟩
    unfold registrationReply
    rw [hstep]
    simp only [orUnexpected, bind, Except.bind]
    rfl

theorem decodeAuthorization_verdict {line verdict : String} {request : ModelInterfaceVerifyRequest}
    {fallback : Bool} {e : Fault NegotiatedError} (hline : lineVerdict line = some verdict)
    (h : decodeAuthorization line request fallback = .error e) :
    ∃ message, e = .error (unexpected message) := by
  cases hparse : strictParse line with
  | error fault =>
    obtain ⟨message, rfl⟩ := strictParse_error hparse
    unfold decodeAuthorization at h
    rw [hparse] at h
    cases h
    exact ⟨message, rfl⟩
  | ok raw =>
    have hlenient := parse_of_strict hparse
    obtain ⟨message, hdecode, hspec, hprotocol, hregister⟩ : ∃ message,
        decodeMirrorMessage line = .ok message ∧ (∀ result, message ≠ .specValidated result) ∧
          (∀ e, message ≠ .protocolError e) ∧ ∀ e, message ≠ .registerError e := by
      unfold lineVerdict at hline
      split at hline
      · next hdecode => exact ⟨_, hdecode, by simp, by simp, by simp⟩
      · next hdecode => exact ⟨_, hdecode, by simp, by simp, by simp⟩
      · cases hline
    unfold decodeMirrorMessage at hdecode
    rw [hlenient] at hdecode
    cases raw with
    | object outer =>
      obtain ⟨step, hreply⟩ := registrationReply_other hdecode hspec hprotocol hregister
      unfold decodeAuthorization authorize at h
      rw [hparse] at h
      simp only [Json.asObject, orUnexpected, bind, Except.bind, hreply] at h
      cases h
      exact ⟨_, rfl⟩
    | _ =>
      cases hdecode
      exact absurd rfl (hprotocol _)

theorem decodeAuthorization_refuses {line : String} {request : ModelInterfaceVerifyRequest}
    {fallback : Bool} {e : NegotiatedError}
    (h : decodeAuthorization line request fallback = .error (.error e)) :
    Negotiated.Refuses (.error e : Negotiated Unit) := by
  unfold decodeAuthorization at h
  cases hparse : strictParse line with
  | error fault =>
    obtain ⟨message, rfl⟩ := strictParse_error hparse
    rw [hparse] at h
    cases h
    rfl
  | ok raw =>
    rw [hparse] at h
    have hraw := Negotiated.authorize_refuses raw request fallback
    simp only [bind, Except.bind] at h
    cases hauthorize : authorize raw request fallback with
    | ok authority =>
      rw [hauthorize] at h
      cases h
    | error e' =>
      rw [hauthorize] at h hraw
      cases h
      exact hraw.error

theorem makeVerifyRequest_error {metadata : GeneratedModelInterface} {policy : NegotiationPolicy}
    {fault : Fault NegotiatedError} (h : makeVerifyRequest metadata policy = .error fault) :
    ∃ e, fault = .error e ∧ Negotiated.Refuses (.error e : Negotiated Unit) := by
  have hreturned : ∀ {α : Type} {x : Negotiated α}, Negotiated.Refuses x →
      returned x = .error fault →
        ∃ e, fault = .error e ∧ Negotiated.Refuses (.error e : Negotiated Unit) := by
    intro α x hx hfault
    cases x with
    | error e =>
      cases hfault
      exact ⟨e, rfl, hx.error⟩
    | ok a => cases hfault
  unfold makeVerifyRequest at h
  cases hdigest : returned (SemanticDigest.fromHex metadata.semanticDigest) with
  | error fault' =>
    rw [hdigest] at h
    cases h
    exact hreturned (Negotiated.fromHex_refuses _) hdigest
  | ok digest =>
    rw [hdigest] at h
    cases hcontract : strictParse metadata.contractJson with
    | error fault' =>
      obtain ⟨message, rfl⟩ := strictParse_error hcontract
      rw [hcontract] at h
      cases h
      exact ⟨_, rfl, rfl⟩
    | ok contract =>
      rw [hcontract] at h
      cases hvalid : returned (validateContract contract) with
      | error fault' =>
        simp only [bind, Except.bind, hvalid] at h
        cases h
        exact hreturned (Negotiated.validateContract_refuses _) hvalid
      | ok u =>
        simp only [bind, Except.bind, hvalid] at h
        cases h

/-- A negotiation that fails before a line is there. -/
theorem openNegotiation_error {t u : Transport} {registration : ClientMessage}
    {selection : CompiledAdapterSelection σ} {fault : Fault NegotiatedError}
    (h : openNegotiation t registration selection = (.error fault, u)) :
    (∃ e, fault = .error e ∧ Negotiated.Refuses (.error e : Negotiated Unit) ∧
        u.received = t.received) ∨
      ∃ line message, fault = .panic message ∧ t.observer line = some message ∧
        u.received = t.received ++ [line] := by
  unfold openNegotiation at h
  cases hrequest : makeVerifyRequest selection.interface selection.policy with
  | error fault' =>
    rw [hrequest] at h
    cases h
    obtain ⟨e, rfl, he⟩ := makeVerifyRequest_error hrequest
    exact Or.inl ⟨e, rfl, he, rfl⟩
  | ok request =>
    rw [hrequest] at h
    simp only at h
    split_ifs at h with hversion
    · cases h
      exact Or.inl ⟨_, rfl, rfl, rfl⟩
    have hindex := Negotiated.resolveIndex_refuses selection.registry
      (selection.key request.expectedSemanticDigest)
    rcases hresolve : resolveIndex selection.registry
        (selection.key request.expectedSemanticDigest) with e | index
    · rw [hresolve] at h hindex
      cases h
      exact Or.inl ⟨e, rfl, hindex.error, rfl⟩
    rw [hresolve] at h
    have hencoding := Negotiated.encodeRegistration_refuses registration request
    rcases hencoded : encodeRegistration registration request with e | encoded
    · rw [hencoded] at h hencoding
      cases h
      exact Or.inl ⟨e, rfl, hencoding.error, rfl⟩
    rw [hencoded] at h
    simp only at h
    have hsent := t.sent_send encoded
    rcases hsend : t.send encoded with ⟨e | _, v⟩
    · rw [hsend] at h hsent
      cases h
      exact Or.inl ⟨_, rfl, Negotiated.refuses_local (t.send_local hsend), hsent.received⟩
    rw [hsend] at h hsent
    simp only at h
    rcases hrecv : v.recv with ⟨fault' | _ | line, w⟩
    · rw [hrecv] at h
      cases h
      rcases Transport.recv_error hrecv with ⟨e, rfl, hlocal, hsame⟩ |
        ⟨line, message, rfl, hpanic, hreceived⟩
      · exact Or.inl ⟨_, rfl, Negotiated.refuses_local hlocal, by rw [hsame, hsent.received]⟩
      · exact Or.inr ⟨line, message, rfl, by rw [← hsent.observer, hpanic],
          by rw [hreceived, hsent.received]⟩
    · rw [hrecv] at h
      cases h
      exact Or.inl ⟨_, rfl, rfl, by rw [Transport.recv_none hrecv, hsent.received]⟩
    · rw [hrecv] at h
      cases h

/-- The disposal of the binding, after the loop has stopped. -/
theorem Stops.disposed {lines : List String} {primary : Negotiated Unit} (h : Stops lines primary)
    {disposal : Except (Fault BindingError) Unit} {events : List Event}
    (hevent : .dispose disposal ∈ events) :
    Ended events lines (returned (firstFailure primary (disposal.mapError disposalFailure))) := by
  cases disposal with
  | error fault =>
    cases h with
    | done silent decodes => exact .undisposed silent decodes hevent
    | mismatch name parameters silent decodes =>
      exact .stopped (.mismatch name parameters silent decodes)
    | failed silent refuses => exact .stopped (.failed silent refuses)
  | ok u =>
    have hsame : firstFailure primary (.ok ()) = primary := by cases primary <;> rfl
    have hfirst : firstFailure primary ((Except.ok u : Except (Fault BindingError) Unit).mapError
        disposalFailure) = primary := hsame
    rw [hfirst]
    exact .stopped h

/-- A run whose first line authorizes a factory. -/
theorem runNegotiatedOpen_admitted {t u : Transport} {registration : ClientMessage}
    {selection : CompiledAdapterSelection σ} {opened : Opened} {authority : Authorization}
    (h : Authorized t registration selection opened u authority) (hobs : u.observer = linePanic)
    (hline : u.received = [opened.line]) (config : ApalacheConfig) (s : Calls σ) :
    ∃ events, (runNegotiatedOpen debug t config registration selection s).2.2.trace =
        s.trace ++ events ∧
      Ended events (runNegotiatedOpen debug t config registration selection s).2.1.received
        (runNegotiatedOpen debug t config registration selection s).1 := by
  have hsilent : lineVerdict opened.line = none := by
    unfold lineVerdict
    rw [decode_of_authorization h.admits]
  have hcreate := createBinding_trace (openNegotiation_ok h.opens) h.admits config s
  unfold runNegotiatedOpen
  simp only [h.opens, h.admits]
  rcases hmade : createBinding selection config opened authority s with ⟨fault | binding, s₁⟩
  · rw [hmade] at hcreate
    have hended : ∀ e, Negotiated.Refuses (.error e : Negotiated Unit) →
        Ended [authority.event opened.index (.error fault)] u.received (.error (.error e)) := by
      intro e he
      rw [hline]
      exact .stopped (.failed (silent_singleton.mpr hsilent) he)
    cases fault with
    | error e => exact ⟨_, hcreate, hended _ rfl⟩
    | panic message => exact ⟨_, hcreate, hended _ rfl⟩
  · rw [hmade] at hcreate
    obtain ⟨body, htrace, -⟩ := @runBinding_body σ debug binding opened.key config u s₁
    obtain ⟨lines, hlines, hstops⟩ :=
      @runBinding_stops σ debug binding opened.key config u hobs s₁
    rcases hrun : runBinding debug binding opened.key config u s₁ with ⟨primary, v, s₂⟩
    rw [hrun] at htrace hlines hstops
    have hall : v.received = opened.line :: lines := by
      simp only at hlines
      rw [hlines, hline, List.singleton_append]
    simp only at htrace hcreate
    simp only [hrun, hall, disposeBinding_eq]
    refine ⟨authority.event opened.index (.ok binding.semanticDigest) ::
      (body ++ [.dispose (binding.dispose s₂.world).1]), ?_, ?_⟩
    · rw [htrace, hcreate]
      simp [Except.map]
    · exact (hstops.cons hsilent).disposed (by simp)

theorem runNegotiatedOpen_ended {t : Transport} (hobs : t.observer = linePanic)
    (hempty : t.received = []) (config : ApalacheConfig) (registration : ClientMessage)
    (selection : CompiledAdapterSelection σ) (s : Calls σ) :
    ∃ events, (runNegotiatedOpen debug t config registration selection s).2.2.trace =
        s.trace ++ events ∧
      Ended events (runNegotiatedOpen debug t config registration selection s).2.1.received
        (runNegotiatedOpen debug t config registration selection s).1 := by
  rcases hopen : openNegotiation t registration selection with ⟨fault | opened, u⟩
  · unfold runNegotiatedOpen
    rw [hopen]
    refine ⟨[], (List.append_nil _).symm, ?_⟩
    simp only
    rcases openNegotiation_error hopen with ⟨e, rfl, he, hsame⟩ |
      ⟨line, message, rfl, hpanic, hreceived⟩
    · rw [hsame, hempty]
      exact .stopped (.failed silent_nil he)
    · rw [hreceived, hempty]
      exact .panicked (by rw [← hobs, hpanic])
  · obtain ⟨encoded, v, -, hsend, hrecv⟩ := (openNegotiation_ok hopen).line
    have hsent := t.sent_send encoded
    rw [hsend] at hsent
    obtain ⟨hclosed, -, hline, -⟩ := Transport.recv_line hrecv
    have hreceived : u.received = [opened.line] := by
      rw [hline, hsent.received, hempty, List.nil_append]
    have hkept := (Transport.recv_open hclosed).observer
    rw [hrecv] at hkept
    have hobserver : u.observer = linePanic := by rw [hkept, hsent.observer, hobs]
    cases hauthority : decodeAuthorization opened.line opened.request
        selection.fallbackFactory.isSome with
    | ok authority =>
      exact runNegotiatedOpen_admitted ⟨hopen, hauthority⟩ hobserver hreceived config s
    | error fault =>
      unfold runNegotiatedOpen
      simp only [hopen, hauthority, hreceived]
      refine ⟨[], (List.append_nil _).symm, ?_⟩
      cases hverdict : lineVerdict opened.line with
      | none =>
        obtain ⟨e, rfl⟩ := decodeAuthorization_error hauthority
        exact .stopped (.failed (silent_singleton.mpr hverdict)
          (decodeAuthorization_refuses hauthority))
      | some verdict =>
        obtain ⟨message, rfl⟩ := decodeAuthorization_verdict hverdict hauthority
        exact .refused _ _

/-- The transport is closed, after the run has ended. -/
theorem Ended.closed {events : List Event} {lines : List String}
    {primary : Except (Fault NegotiatedError) Unit} (h : Ended events lines primary)
    {close : Except Error ℤ} (hlocal : ∀ {e}, close = .error e → e.Local) :
    Ended (events ++ [.close close]) lines (firstFailure primary
      ((close.mapError fun e => Fault.error (NegotiatedError.legacy e)).map fun _ => ())) := by
  cases h with
  | stopped stops =>
    cases stops with
    | done silent decodes =>
      cases close with
      | ok code => exact .stopped (.done silent decodes)
      | error e => exact .unclosed silent decodes (hlocal rfl)
    | mismatch name parameters silent decodes =>
      exact .stopped (.mismatch name parameters silent decodes)
    | failed silent refuses => exact .stopped (.failed silent refuses)
  | undisposed silent decodes disposal =>
    exact .undisposed silent decodes (List.mem_append_left _ disposal)
  | unclosed silent decodes closing => exact .unclosed silent decodes closing
  | refused line message => exact .refused line message
  | panicked panics => exact .panicked panics

theorem runNegotiated_ended {t : Transport} (hobs : t.observer = linePanic)
    (hempty : t.received = []) (config : ApalacheConfig) (registration : ClientMessage)
    (selection : CompiledAdapterSelection σ) (s : Calls σ) :
    ∃ events, (runNegotiated debug t config registration selection s).2.2.trace =
        s.trace ++ events ∧
      Ended events (runNegotiated debug t config registration selection s).2.1.received
        (runNegotiated debug t config registration selection s).1 := by
  obtain ⟨events, htrace, hended⟩ :=
    @runNegotiatedOpen_ended σ debug t hobs hempty config registration selection s
  have hclosed := hended.closed fun h =>
    @close_local (runNegotiatedOpen debug t config registration selection s).2.1 _ h
  rw [← Transport.close_received] at hclosed
  refine ⟨_, ?_, hclosed⟩
  rw [← List.append_assoc, ← htrace]
  rfl

end

/-! ### The verdict -/

/-- The last line reports that all steps are done, and the client has succeeded, or only the
disposal of the binding has failed. -/
def Completes (events : List Event) (lines : List String) (result : Negotiated Unit) : Prop :=
  (∃ before line, lines = before ++ [line] ∧ decodeMirrorMessage line = .ok .allStepsDone) ∧
    (result = .ok () ∨ ∃ fault,
      result = .error (disposalFailure fault) ∧ .dispose (.error fault) ∈ events)

/-- The last line reports a mismatch, and the client has returned the same. -/
def Mismatches (lines : List String) (result : Negotiated Unit) : Prop :=
  ∃ before line action name parameters expected actual hints, lines = before ++ [line] ∧
    decodeMirrorMessage line = .ok (.stepMismatch action expected actual hints) ∧
      result = .error (.legacy (.stepMismatch name parameters expected actual hints))

/-- What a comparison says of the lines and of the result. -/
inductive Compared (events : List Event) (lines : List String) (result : Negotiated Unit) :
    String → Prop
  | matched (completes : Completes events lines result) : Compared events lines result "matched"
  | mismatch (mismatches : Mismatches lines result) : Compared events lines result "step_mismatch"
  | incomplete (refuses : Negotiated.Refuses result) (fails : result ≠ .ok ())
      (stays : ¬ Completes events lines result) : Compared events lines result "incomplete"

theorem Completes.refuses {events : List Event} {lines : List String} {result : Negotiated Unit}
    (h : Completes events lines result) : Negotiated.Refuses result := by
  obtain ⟨-, rfl | ⟨fault, rfl, -⟩⟩ := h
  · rfl
  · obtain ⟨message, hmessage⟩ := disposalFailure_code fault
    rw [hmessage]
    rfl

theorem Mismatches.mismatch {lines : List String} {result : Negotiated Unit}
    (h : Mismatches lines result) : isStepMismatch result = true := by
  obtain ⟨_, _, _, _, _, _, _, _, -, -, rfl⟩ := h
  rfl

namespace Compared
variable {events : List Event} {lines : List String} {result : Negotiated Unit}
  {comparison : String}

theorem mismatch_iff (h : Compared events lines result comparison) :
    comparison = "step_mismatch" ↔ isStepMismatch result = true := by
  cases h with
  | matched completes =>
    have hno : isStepMismatch result = false := completes.refuses
    simp [hno]
  | mismatch mismatches => simp [mismatches.mismatch]
  | incomplete refuses fails stays =>
    have hno : isStepMismatch result = false := refuses
    simp [hno]

theorem mismatches (h : Compared events lines result comparison)
    (hmismatch : isStepMismatch result = true) : Mismatches lines result := by
  have hcomparison := h.mismatch_iff.mpr hmismatch
  cases h with
  | matched completes => simp at hcomparison
  | mismatch mismatches => exact mismatches
  | incomplete refuses fails stays => simp at hcomparison

theorem matched_iff (h : Compared events lines result comparison) :
    comparison = "matched" ↔ Completes events lines result := by
  cases h with
  | matched completes => simp [completes]
  | mismatch mismatches =>
    have hno : ¬ Completes events lines result := by
      intro hcompletes
      exact absurd (mismatches.mismatch.symm.trans hcompletes.refuses) (by decide)
    simp [hno]
  | incomplete refuses fails stays => simp [stays]

theorem succeeds (h : Compared events lines result comparison) (hok : result = .ok ()) :
    comparison = "matched" := by
  cases h with
  | matched completes => rfl
  | mismatch mismatches =>
    have hmismatch := mismatches.mismatch
    rw [hok] at hmismatch
    cases hmismatch
  | incomplete refuses fails stays => exact absurd hok fails

end Compared

theorem Ended.compared {events : List Event} {lines : List String} {result : Negotiated Unit}
    (h : Ended events lines (returned result)) :
    Compared events lines result (comparisonOf (peerTerminal lines).1 result) ∧
      (comparisonOf (peerTerminal lines).1 result ≠ "incomplete" → ∃ before line,
        lines = before ++ [line] ∧ Silent before ∧ (peerTerminal lines).2 = line) := by
  generalize hresult : returned result = ended at h
  have hdone : ∀ {before : List String} {line : String},
      decodeMirrorMessage line = .ok .allStepsDone →
        peerTerminal (before ++ [line]) = ("all_steps_done", line) :=
    fun h => peerTerminal_concat _ (lineVerdict_done h)
  cases h with
  | @stopped lines result' stops =>
    have hsame : result = result' := by
      cases result <;> cases result' <;> cases hresult <;> rfl
    subst hsame
    cases stops with
    | @done before line silent decodes =>
      rw [hdone decodes]
      exact ⟨.matched ⟨⟨before, line, rfl, decodes⟩, Or.inl rfl⟩,
        fun _ => ⟨before, line, rfl, silent, rfl⟩⟩
    | @mismatch before line action expected actual hints name parameters silent decodes =>
      rw [peerTerminal_concat before (lineVerdict_mismatch decodes)]
      exact ⟨.mismatch ⟨before, line, action, name, parameters, expected, actual, hints, rfl,
        decodes, rfl⟩, fun _ => ⟨before, line, rfl, silent, rfl⟩⟩
    | @failed lines e silent refuses =>
      rw [peerTerminal_silent silent]
      have hincomplete : comparisonOf "" (.error e : Negotiated Unit) = "incomplete" := by
        simp [comparisonOf]
      refine ⟨?_, fun h => absurd hincomplete h⟩
      rw [hincomplete]
      refine .incomplete refuses (by simp) ?_
      rintro ⟨⟨before, line, rfl, hline⟩, -⟩
      have hnone := silent line (by simp)
      rw [lineVerdict_done hline] at hnone
      cases hnone
  | @undisposed before line fault silent decodes disposal =>
    have hsame : result = .error (disposalFailure fault) := by
      cases result <;> cases hresult
      rfl
    subst hsame
    rw [hdone decodes]
    have hmatched : comparisonOf "all_steps_done"
        (.error (disposalFailure fault) : Negotiated Unit) = "matched" := by
      obtain ⟨message, hmessage⟩ := disposalFailure_code fault
      rw [hmessage]
      simp [comparisonOf, isStepMismatch, isReplayed, miError]
    refine ⟨?_, fun _ => ⟨before, line, rfl, silent, rfl⟩⟩
    rw [hmatched]
    exact .matched ⟨⟨before, line, rfl, decodes⟩, Or.inr ⟨fault, rfl, disposal⟩⟩
  | @unclosed before line e silent decodes closing =>
    have hsame : result = .error (.legacy e) := by
      cases result <;> cases hresult
      rfl
    subst hsame
    have hrefuses : Negotiated.Refuses (.error (.legacy e) : Negotiated Unit) :=
      Negotiated.refuses_local closing
    rw [hdone decodes]
    have hincomplete : comparisonOf "all_steps_done" (.error (.legacy e)) = "incomplete" := by
      simp [comparisonOf, isReplayed]
    refine ⟨?_, fun h => absurd hincomplete h⟩
    rw [hincomplete]
    refine .incomplete hrefuses (by simp) ?_
    rintro ⟨-, h | ⟨fault, h, -⟩⟩
    · cases h
    · obtain ⟨message, hmessage⟩ := disposalFailure_code fault
      simp [hmessage, miError] at h
  | refused line message =>
    have hsame : result = .error (unexpected message) := by
      cases result <;> cases hresult
      rfl
    subst hsame
    have hincomplete : ∀ terminal, comparisonOf terminal (.error (unexpected message)) =
        "incomplete" := by
      intro terminal
      simp [comparisonOf, isStepMismatch, isReplayed, unexpected, miError]
    refine ⟨?_, fun h => absurd (hincomplete _) h⟩
    rw [hincomplete]
    refine .incomplete rfl (by simp) ?_
    rintro ⟨-, h | ⟨fault, h, -⟩⟩
    · cases h
    · obtain ⟨message', hmessage⟩ := disposalFailure_code fault
      simp [hmessage, unexpected, miError] at h
  | panicked panics => cases result <;> cases hresult

/-- What a replay reports is what has happened on the connection and in the session. -/
structure Faithful (r : ReplayResult) (received : List String) (events : List Event)
    (session : BindingSession) : Prop where
  mismatch : r.evidence.index "comparison" = .string "step_mismatch" ↔
    isStepMismatch r.clientResult = true
  mismatches : isStepMismatch r.clientResult = true → Mismatches received r.clientResult
  matched : r.evidence.index "comparison" = .string "matched" ↔
    Completes events received r.clientResult
  succeeds : r.clientResult = .ok () → Completes events received r.clientResult
  last : r.evidence.index "comparison" ≠ .string "incomplete" → ∃ before line,
    received = before ++ [line] ∧ Silent before ∧
      r.evidence.index "peerTerminalRaw" = .string line
  passed : r.passed = true ↔ r.clientResult = .ok () ∧ session.fullyCompleted = true

section
variable {σ : Type} (hintText : DiffHint → String) (debug : MirrorMessage → String)
  (threadText : ThreadId → String) (session : σ → BindingSession)

theorem Ended.faithful {events : List Event} {t : Transport} {result : Negotiated Unit}
    (h : Ended events t.received (returned result)) (s : BindingSession) :
    Faithful (replayResult hintText threadText t result s) t.received events s := by
  obtain ⟨hcompared, hlast⟩ := h.compared
  have hcomparison : (replayResult hintText threadText t result s).evidence.index "comparison" =
      .string (comparisonOf (peerTerminal t.received).1 result) := by
    simp [replayResult, replayEvidence, Assoc.get?]
  have hraw : (replayResult hintText threadText t result s).evidence.index "peerTerminalRaw" =
      .string (peerTerminal t.received).2 := by
    simp [replayResult, replayEvidence, Assoc.get?]
  have hpassed : (replayResult hintText threadText t result s).passed =
      (succeeded result && comparisonOf (peerTerminal t.received).1 result == "matched" &&
        s.fullyCompleted) := rfl
  constructor
  · rw [hcomparison, Json.string.injEq]
    exact hcompared.mismatch_iff
  · exact hcompared.mismatches
  · rw [hcomparison, Json.string.injEq]
    exact hcompared.matched_iff
  · exact fun hok => hcompared.matched_iff.mp (hcompared.succeeds hok)
  · rw [hcomparison, hraw]
    intro h
    obtain ⟨before, line, hlines, hsilent, hline⟩ := hlast fun hsame => h (congrArg _ hsame)
    exact ⟨before, line, hlines, hsilent, congrArg _ hline⟩
  · rw [hpassed]
    cases result with
    | ok u =>
      rw [hcompared.succeeds rfl]
      simp [replayResult, succeeded]
    | error e => simp [replayResult, succeeded]

/-- For every stream of the peer and every behaviour of the binding, a replay on a fresh session
reports what has happened: the comparison is a mismatch if and only if the client returns one, and
it is the one of the last line; it is a match if and only if the last line reports that all steps
are done and the client succeeds or only the disposal has failed. The replay passes if and only if
the client succeeds and the session is fully completed. A panic leaves it only when the decoder
panics at the first line. -/
theorem replay_verdict (t : Transport) (config : ApalacheConfig) (traces : List String)
    (selection : CompiledAdapterSelection σ) (s : Calls σ)
    (hfresh : (session s.world).used threadText = false) :
    let run := replayWithTraces hintText debug threadText session t config traces selection s
    (∃ line message, run.1 = .error message ∧ run.2.1.received = [line] ∧
        linePanic line = some message) ∨
      ∃ r events, run.1 = .ok r ∧ run.2.2.trace = s.trace ++ events ∧
        Faithful r run.2.1.received events (session run.2.2.world) := by
  intro run
  obtain ⟨events, htrace, hended⟩ := @runNegotiated_ended σ debug (t.observeReceived linePanic) rfl
    rfl config (.registerTraces config traces) selection s
  have hrun : run = replayWithTraces hintText debug threadText session t config traces selection s :=
    rfl
  unfold replayWithTraces runClientWithTracesNegotiatedTransport at hrun
  rw [if_neg (by simp [hfresh])] at hrun
  rcases hresult : runNegotiated debug (t.observeReceived linePanic) config
      (.registerTraces config traces) selection s with ⟨(e | message) | u, t', s'⟩
  all_goals
    rw [hresult] at hrun htrace hended
    rw [hrun]
  · exact Or.inr ⟨_, events, rfl, htrace, Ended.faithful hintText threadText hended _⟩
  · left
    simp only at hended ⊢
    generalize t'.received = received at hended ⊢
    generalize hpanic : (Except.error (Fault.panic message) :
      Except (Fault NegotiatedError) Unit) = result at hended
    cases hended with
    | @stopped lines result stops => cases result <;> cases hpanic
    | @panicked line message' panics =>
      cases hpanic
      exact ⟨line, message, rfl, rfl, panics⟩
    | _ => cases hpanic
  · exact Or.inr ⟨_, events, rfl, htrace, Ended.faithful hintText threadText hended _⟩

end

theorem replay_verdict_echo :
    let session (_ : Unit) : BindingSession := .new Solo.setup false
    let run := replayWithTraces (fun _ => "") (fun _ => "") toString session
      (Stepping.quiet (.ok (some Echo.reply.render) :: Echo.rest)) Echo.config [] Echo.selection
      ⟨(), []⟩
    (∃ line message, run.1 = .error message ∧ run.2.1.received = [line] ∧
        linePanic line = some message) ∨
      ∃ r events, run.1 = .ok r ∧ run.2.2.trace = events ∧
        Faithful r run.2.1.received events (.new Solo.setup false) :=
  replay_verdict (fun _ => "") (fun _ => "") toString
    (fun _ : Unit => BindingSession.new Solo.setup false) _ _ _ _ _ (by
      simp [BindingSession.used, BindingSession.receipt, BindingSession.new, Assoc.get?])

end MirrorRust
