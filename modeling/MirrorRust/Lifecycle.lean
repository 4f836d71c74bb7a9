import MirrorRust.NegotiatedRunner

/-! The calls of a negotiated run: what authorizes them, their order, and whose failure the run
returns. -/
namespace MirrorRust

/-! ### The computer calls of the loop -/

namespace Stepping
variable {σ ε : Type} {debug : MirrorMessage → String} {ofError : Error → ε}
  {compute : Computer σ ε}

theorem report_computer (l : Stepping σ) :
    (∃ l', l.report ofError = .goOn l' ∧ l'.computer = l.computer) ∨
      ∃ e l', l.report ofError = .stop (.error (.error (ofError e))) l' ∧
        l'.computer = l.computer := by
  unfold report
  rcases l.transport.send (encodeReportState l.state) with ⟨_ | _, t⟩
  · exact Or.inr ⟨_, _, rfl, rfl⟩
  · exact Or.inl ⟨_, rfl, rfl⟩

theorem onMessage_computer (l : Stepping σ) (message : MirrorMessage) :
    (∃ l', (onMessage debug ofError compute l message = .goOn l' ∨
          ∃ result, onMessage debug ofError compute l message = .stop result l') ∧
        (l'.computer = l.computer ∨ ∃ action params prev state,
          compute l.computer action params prev = (.ok state, l'.computer))) ∨
      ∃ fault l' action params prev,
        onMessage debug ofError compute l message = .stop (.error fault) l' ∧
          compute l.computer action params prev = (.error fault, l'.computer) := by
  cases message with
  | initialState action fromMirror =>
    simp only [onMessage]
    rcases hcompute : compute l.computer action fromMirror [] with ⟨result, s⟩
    cases result with
    | error fault =>
      exact Or.inr ⟨fault, { l with lastAction := action, computer := s }, action, fromMirror, [],
        rfl, hcompute⟩
    | ok state =>
      rcases @report_computer σ ε ofError
          { l with lastAction := action, computer := s, state := state } with
        ⟨l', hreport, hl'⟩ | ⟨e, l', hreport, hl'⟩
      · exact Or.inl ⟨l', Or.inl hreport, Or.inr ⟨action, fromMirror, [], state, hl' ▸ hcompute⟩⟩
      · exact Or.inl ⟨l', Or.inr ⟨_, hreport⟩,
          Or.inr ⟨action, fromMirror, [], state, hl' ▸ hcompute⟩⟩
  | nextStep action parameters =>
    simp only [onMessage]
    rcases hcompute : compute l.computer action parameters l.state with ⟨result, s⟩
    cases result with
    | error fault =>
      exact Or.inr ⟨fault, { l with lastAction := action, computer := s }, action, parameters,
        l.state, rfl, hcompute⟩
    | ok state =>
      rcases @report_computer σ ε ofError
          { l with
            lastAction := action, computer := s, lastParam := parameters, state := state } with
        ⟨l', hreport, hl'⟩ | ⟨e, l', hreport, hl'⟩
      · exact Or.inl ⟨l', Or.inl hreport,
          Or.inr ⟨action, parameters, l.state, state, hl' ▸ hcompute⟩⟩
      · exact Or.inl ⟨l', Or.inr ⟨_, hreport⟩,
          Or.inr ⟨action, parameters, l.state, state, hl' ▸ hcompute⟩⟩
  | stepOk => exact Or.inl ⟨l, Or.inl rfl, Or.inl rfl⟩
  | _ => exact Or.inl ⟨l, Or.inr ⟨_, rfl⟩, Or.inl rfl⟩

/-- Over a whole run, what every successful call keeps is kept, up to the call that fails. -/
theorem Runs.computer {R : σ → σ → Prop} (hrefl : ∀ s, R s s)
    (htrans : ∀ {s₁ s₂ s₃}, R s₁ s₂ → R s₂ s₃ → R s₁ s₃)
    (hok : ∀ {s action params prev state s'}, compute s action params prev = (.ok state, s') →
      R s s')
    {l l' : Stepping σ} {messages : List MirrorMessage} {result : Except (Fault ε) Unit}
    (h : Runs debug ofError compute l messages result l') :
    R l.computer l'.computer ∨ ∃ mid fault action params prev, R l.computer mid ∧
      compute mid action params prev = (.error fault, l'.computer) ∧ result = .error fault := by
  have hkeep : ∀ {l l' : Stepping σ}, (l'.computer = l.computer ∨ ∃ action params prev state,
      compute l.computer action params prev = (.ok state, l'.computer)) →
      R l.computer l'.computer := by
    rintro l l' (heq | ⟨action, params, prev, state, hcompute⟩)
    · rw [heq]
      exact hrefl _
    · exact hok hcompute
  induction h with
  | failed receive => exact Or.inl (hrefl _)
  | @stops l l' t message result receive hturn =>
    rcases onMessage_computer { l with transport := t } message with
      ⟨l₁, hgoOn | ⟨result', hstop⟩, hcomputer⟩ | ⟨fault, l₁, action, params, prev, hstop, hcompute⟩
    · rw [hgoOn] at hturn
      cases hturn
    · rw [hstop] at hturn
      cases hturn
      exact Or.inl (hkeep hcomputer)
    · rw [hstop] at hturn
      cases hturn
      exact Or.inr ⟨l.computer, fault, action, params, prev, hrefl _, hcompute, rfl⟩
  | @goesOn l l₁ l' t message messages result receive hturn rest ih =>
    rcases onMessage_computer { l with transport := t } message with
      ⟨l₂, hgoOn | ⟨result', hstop⟩, hcomputer⟩ | ⟨fault, l₂, action, params, prev, hstop, -⟩
    · rw [hgoOn] at hturn
      cases hturn
      have hfirst : R l.computer l₁.computer := hkeep hcomputer
      rcases ih with hrest | ⟨mid, fault, action, params, prev, hmid, hcompute, hresult⟩
      · exact Or.inl (htrans hfirst hrest)
      · exact Or.inr ⟨mid, fault, action, params, prev, htrans hfirst hmid, hcompute, hresult⟩
    · rw [hstop] at hturn
      cases hturn
    · rw [hstop] at hturn
      cases hturn

end Stepping

/-! ### The lifetime of a binding -/

def caught (result : Except (Fault NegotiatedError) Unit) : Negotiated Unit :=
  match result with
  | .ok () => .ok ()
  | .error (.error e) => .error e
  | .error (.panic _) => .error (miError "adapter_failure" "binding callback panicked")

def factoryFailure : Fault BindingError → NegotiatedError
  | .error e => miError "adapter_factory_failed" e.text
  | .panic _ => miError "adapter_factory_failed" "adapter factory panicked"

def configFailure : Fault BindingError → NegotiatedError
  | .error e => miError "binding_config_mismatch" e.text
  | .panic _ => miError "adapter_failure" "binding callback panicked"

def computeFailure : Fault BindingError → NegotiatedError
  | .error e => miError e.code e.message
  | .panic _ => miError "adapter_failure" "binding callback panicked"

def disposalFailure : Fault BindingError → NegotiatedError
  | .error e => miError "adapter_dispose_failed" e.text
  | .panic _ => miError "adapter_dispose_failed" "binding disposal panicked"

theorem disposalFailure_code (fault : Fault BindingError) :
    ∃ message, disposalFailure fault = miError "adapter_dispose_failed" message := by
  cases fault <;> exact ⟨_, rfl⟩

/-- The failure of the run itself comes first, then the disposal's, then the close's. -/
def precedence (primary : Negotiated Unit) (disposal : Except (Fault BindingError) Unit)
    (close : Except Error ℤ) : Except (Fault NegotiatedError) Unit :=
  match primary, disposal, close with
  | .error e, _, _ => .error (.error e)
  | .ok (), .error fault, _ => .error (.error (disposalFailure fault))
  | .ok (), .ok (), .error e => .error (.error (.legacy e))
  | .ok (), .ok (), .ok _ => .ok ()

/-- The start of a run: the negotiation has failed, or its reply is not admitted. -/
inductive Unauthorized {σ : Type} (t : Transport) (registration : ClientMessage)
    (selection : CompiledAdapterSelection σ) : Fault NegotiatedError → Transport → Prop
  | unopened {e : Fault NegotiatedError} {u : Transport}
      (opens : openNegotiation t registration selection = (.error e, u)) :
      Unauthorized t registration selection e u
  | denied {opened : Opened} {e : Fault NegotiatedError} {u : Transport}
      (opens : openNegotiation t registration selection = (.ok opened, u))
      (denies : decodeAuthorization opened.line opened.request selection.fallbackFactory.isSome =
        .error e) :
      Unauthorized t registration selection e u

/-- A run that calls the factory which an admitted reply has authorized. -/
structure Authorized {σ : Type} (t : Transport) (registration : ClientMessage)
    (selection : CompiledAdapterSelection σ) (opened : Opened) (u : Transport)
    (authority : Authorization) : Prop where
  opens : openNegotiation t registration selection = (.ok opened, u)
  admits : decodeAuthorization opened.line opened.request selection.fallbackFactory.isSome =
    .ok authority

def Authorization.event (index : ℕ) (binding : Except (Fault BindingError) SemanticDigest) :
    Authorization → Event
  | .matched .. => .factory index binding
  | .fallback => .fallback binding

section Life
variable {σ : Type} (debug : MirrorMessage → String)

/-- The calls between the factory and the disposal of this binding, what this part of the run comes
to, and what it leaves. -/
inductive Body (binding : LocalBinding σ) (key : CompiledAdapterKey) (config : ApalacheConfig)
    (t : Transport) (s : Calls σ) :
    List Event → Negotiated Unit → Transport → Calls σ → Prop
  | mismatched (different : binding.semanticDigest ≠ key.semanticDigest) :
      Body binding key config t s []
        (.error (miError "binding_digest_mismatch" "binding digest does not match adapter key")) t s
  | rejected (same : binding.semanticDigest = key.semanticDigest) {fault : Fault BindingError}
      {world : σ} (rejects : binding.assertCompatibleConfig config s.world = (.error fault, world)) :
      Body binding key config t s [.config (.error fault)] (.error (configFailure fault)) t
        ⟨world, s.trace ++ [.config (.error fault)]⟩
  | completed (same : binding.semanticDigest = key.semanticDigest) {world : σ}
      (accepts : binding.assertCompatibleConfig config s.world = (.ok (), world))
      (states : List State) {result : Except (Fault NegotiatedError) Unit} {l : Stepping (Calls σ)}
      (runs : Stepping.run debug .legacy binding.compute
        (.start t ⟨world, s.trace ++ [.config (.ok ())]⟩) = (result, l)) :
      Body binding key config t s
        (.config (.ok ()) :: states.map fun state => .compute (.ok state)) (caught result)
        l.transport l.computer
  | failed (same : binding.semanticDigest = key.semanticDigest) {world : σ}
      (accepts : binding.assertCompatibleConfig config s.world = (.ok (), world))
      (states : List State) {fault : Fault BindingError} {l : Stepping (Calls σ)}
      (runs : Stepping.run debug .legacy binding.compute
        (.start t ⟨world, s.trace ++ [.config (.ok ())]⟩) =
          (.error (fault.map fun e => miError e.code e.message), l)) :
      Body binding key config t s
        (.config (.ok ()) ::
          ((states.map fun state => .compute (.ok state)) ++ [.compute (.error fault)]))
        (.error (computeFailure fault)) l.transport l.computer

/-- The calls of a run in their order, with what each has returned, and what the run returns. -/
inductive Lifecycle (t : Transport) (config : ApalacheConfig) (registration : ClientMessage)
    (selection : CompiledAdapterSelection σ) (s : Calls σ) :
    List Event → Except (Fault NegotiatedError) Unit → Prop
  | refused {e : Fault NegotiatedError} {u : Transport}
      (refuses : Unauthorized t registration selection e u) :
      Lifecycle t config registration selection s [.close u.close.1] (.error e)
  | unmade {opened : Opened} {u : Transport} {authority : Authorization}
      {fault : Fault BindingError} {s₁ : Calls σ}
      (authorized : Authorized t registration selection opened u authority)
      (fails : createBinding selection config opened authority s = (.error fault, s₁)) :
      Lifecycle t config registration selection s
        [authority.event opened.index (.error fault), .close u.close.1]
        (.error (.error (factoryFailure fault)))
  | disposed {opened : Opened} {u v : Transport} {authority : Authorization}
      {binding : LocalBinding σ} {s₁ s₂ : Calls σ} {body : List Event} {primary : Negotiated Unit}
      (authorized : Authorized t registration selection opened u authority)
      (makes : createBinding selection config opened authority s = (.ok binding, s₁))
      (runs : Body debug binding opened.key config u s₁ body primary v s₂) :
      Lifecycle t config registration selection s
        (authority.event opened.index (.ok binding.semanticDigest) ::
          (body ++ [.dispose (binding.dispose s₂.world).1, .close v.close.1]))
        (precedence primary (binding.dispose s₂.world).1 v.close.1)

end Life

section
variable {σ : Type} {debug : MirrorMessage → String}

theorem compute_trace {binding : LocalBinding σ} {s s' : Calls σ} {action : String}
    {params prev : State} {result : Except (Fault NegotiatedError) State}
    (h : binding.compute s action params prev = (result, s')) :
    ∃ r : Except (Fault BindingError) State, s'.trace = s.trace ++ [.compute r] ∧
      result = r.mapError (Fault.map fun e => miError e.code e.message) := by
  unfold LocalBinding.compute Calls.call at h
  obtain ⟨rfl, rfl⟩ := Prod.mk.inj h
  exact ⟨_, rfl, rfl⟩

theorem run_trace (binding : LocalBinding σ) (l : Stepping (Calls σ)) :
    ∃ states : List State,
      (Stepping.run debug .legacy binding.compute l).2.computer.trace =
          l.computer.trace ++ states.map (fun state => .compute (.ok state)) ∨
        ∃ fault, (Stepping.run debug .legacy binding.compute l).1 =
            .error (fault.map fun e => miError e.code e.message) ∧
          (Stepping.run debug .legacy binding.compute l).2.computer.trace =
            l.computer.trace ++ ((states.map fun state => .compute (.ok state)) ++
              [.compute (.error fault)]) := by
  obtain ⟨messages, hruns⟩ :=
    @Stepping.run_runs (Calls σ) NegotiatedError debug .legacy binding.compute l
  let R : Calls σ → Calls σ → Prop := fun s s' =>
    ∃ states : List State, s'.trace = s.trace ++ states.map fun state => .compute (.ok state)
  have hrefl : ∀ s, R s s := fun s => ⟨[], (List.append_nil _).symm⟩
  have htrans : ∀ {s₁ s₂ s₃}, R s₁ s₂ → R s₂ s₃ → R s₁ s₃ := by
    rintro s₁ s₂ s₃ ⟨first, hfirst⟩ ⟨rest, hrest⟩
    exact ⟨first ++ rest, by rw [hrest, hfirst, List.append_assoc, List.map_append]⟩
  have hok : ∀ {s action params prev state s'},
      binding.compute s action params prev = (.ok state, s') → R s s' := by
    intro s action params prev state s' h
    obtain ⟨r, htrace, hresult⟩ := compute_trace h
    cases r with
    | error fault => cases hresult
    | ok state => exact ⟨[state], htrace⟩
  rcases hruns.computer hrefl htrans hok with ⟨states, hstates⟩ |
    ⟨mid, fault, action, params, prev, ⟨states, hstates⟩, hcompute, hresult⟩
  · exact ⟨states, Or.inl hstates⟩
  · obtain ⟨r, htrace, hfault⟩ := compute_trace hcompute
    cases r with
    | ok state => cases hfault
    | error fault' =>
      have hsame : fault = fault'.map fun e => miError e.code e.message := Except.error.inj hfault
      refine ⟨states, Or.inr ⟨fault', hresult.trans (congrArg Except.error hsame), ?_⟩⟩
      rw [htrace, hstates, List.append_assoc]

theorem runBinding_body (binding : LocalBinding σ) (key : CompiledAdapterKey)
    (config : ApalacheConfig) (t : Transport) (s : Calls σ) :
    ∃ body, (runBinding debug binding key config t s).2.2.trace = s.trace ++ body ∧
      Body debug binding key config t s body (runBinding debug binding key config t s).1
        (runBinding debug binding key config t s).2.1
        (runBinding debug binding key config t s).2.2 := by
  unfold runBinding
  by_cases hdigest : binding.semanticDigest = key.semanticDigest
  · rw [if_neg (not_not.mpr hdigest)]
    unfold Calls.call
    rcases hconfig : binding.assertCompatibleConfig config s.world with ⟨result, world⟩
    cases result with
    | error fault =>
      have hbody := @Body.rejected σ debug binding key config t s hdigest fault world hconfig
      cases fault <;> exact ⟨_, rfl, hbody⟩
    | ok u =>
      have htrace := @run_trace σ debug binding (.start t ⟨world, s.trace ++ [.config (.ok ())]⟩)
      simp only
      rcases hrun : Stepping.run debug .legacy binding.compute
          (.start t ⟨world, s.trace ++ [.config (.ok ())]⟩) with ⟨result, l⟩
      rw [hrun] at htrace
      have hbody : ∃ body, l.computer.trace = s.trace ++ body ∧
          Body debug binding key config t s body (caught result) l.transport l.computer := by
        obtain ⟨states, hstates | ⟨fault, hfault, hstates⟩⟩ := htrace
        · exact ⟨_, hstates.trans (List.append_assoc ..), .completed hdigest hconfig states hrun⟩
        · rw [show result = _ from hfault] at hrun ⊢
          have hfailed := @Body.failed σ debug binding key config t s hdigest world hconfig states
            fault l hrun
          refine ⟨_, hstates.trans (List.append_assoc ..), ?_⟩
          cases fault <;> exact hfailed
      cases result with
      | ok u =>
        simp only [hrun]
        exact hbody
      | error fault =>
        cases fault with
        | error e =>
          simp only [hrun]
          exact hbody
        | panic message =>
          simp only [hrun]
          exact hbody
  · rw [if_pos hdigest]
    exact ⟨[], (List.append_nil _).symm, .mismatched hdigest⟩

theorem disposeBinding_eq (binding : LocalBinding σ) (s : Calls σ) :
    disposeBinding binding s = ((binding.dispose s.world).1.mapError disposalFailure,
      ⟨(binding.dispose s.world).2, s.trace ++ [.dispose (binding.dispose s.world).1]⟩) := by
  unfold disposeBinding Calls.call
  rcases binding.dispose s.world with ⟨fault | _, world⟩
  · cases fault <;> rfl
  · rfl

/-! ### What the registry gives -/

theorem resolveIndex_ok {φ : Type} {registrations : CompiledAdapterRegistry φ}
    {key : CompiledAdapterKey} {index : ℕ} (h : resolveIndex registrations key = .ok index) :
    (∃ registration, registrations[index]? = some registration ∧ registration.key = key) ∧
      (registrations.filter fun entry => decide (entry.key = key)).length = 1 ∧
      ∀ i registration, registrations[i]? = some registration → registration.key = key →
        i = index := by
  unfold resolveIndex at h
  have hcount : (registrations.zipIdx.filter fun entry => decide (entry.1.key = key)).length =
      (registrations.filter fun entry => decide (entry.key = key)).length := by
    have hmap : (registrations.zipIdx.filter fun entry => decide (entry.1.key = key)).map Prod.fst =
        registrations.filter fun entry => decide (entry.key = key) := by
      conv => rhs; rw [← List.zipIdx_map_fst 0 registrations, List.filter_map]
      rfl
    rw [← hmap, List.length_map]
  split at h
  · cases h
  · rename_i entry index' heq
    cases h
    have hiff : ∀ i registration, registrations[i]? = some registration ∧ registration.key = key ↔
        (registration, i) = (entry, index) := by
      intro i registration
      have hsingle := @List.mem_singleton _ (registration, i) (entry, index)
      rw [← heq, List.mem_filter, List.mem_zipIdx_iff_getElem?, decide_eq_true_iff] at hsingle
      exact hsingle
    refine ⟨⟨entry, (hiff index entry).mpr rfl⟩, ?_, fun i registration hget hkey => ?_⟩
    · rw [← hcount, heq]
      rfl
    · exact (Prod.mk.inj ((hiff i registration).mp ⟨hget, hkey⟩)).2
  · simp only at h
    split_ifs at h

/-! ### The start of a run -/

theorem makeVerifyRequest_ok {metadata : GeneratedModelInterface} {policy : NegotiationPolicy}
    {request : ModelInterfaceVerifyRequest} (h : makeVerifyRequest metadata policy = .ok request) :
    request.policy = policy ∧
      SemanticDigest.fromHex metadata.semanticDigest = .ok request.expectedSemanticDigest := by
  unfold makeVerifyRequest at h
  cases hdigest : SemanticDigest.fromHex metadata.semanticDigest with
  | error e =>
    rw [hdigest] at h
    cases h
  | ok digest =>
    cases hcontract : strictParse metadata.contractJson with
    | error e =>
      rw [hdigest, hcontract] at h
      cases h
    | ok contract =>
      rw [hdigest, hcontract] at h
      cases hvalid : validateContract contract with
      | error e =>
        simp only [returned, bind, Except.bind, hvalid] at h
        cases h
      | ok u =>
        simp only [returned, bind, Except.bind, hvalid, pure, Except.pure, Except.ok.injEq] at h
        subst h
        exact ⟨rfl, rfl⟩

/-- What has happened when the first line of the mirror is there. -/
structure Opens (t : Transport) (registration : ClientMessage)
    (selection : CompiledAdapterSelection σ) (opened : Opened) (u : Transport) : Prop where
  policy : opened.request.policy = selection.policy
  digest : SemanticDigest.fromHex selection.interface.semanticDigest =
    .ok opened.request.expectedSemanticDigest
  key : opened.key = selection.key opened.request.expectedSemanticDigest
  index : resolveIndex selection.registry opened.key = .ok opened.index
  line : ∃ encoded v, encodeRegistration registration opened.request = .ok encoded ∧
    t.send encoded = (.ok (), v) ∧ v.recv = (.ok (some opened.line), u)

theorem openNegotiation_ok {t u : Transport} {registration : ClientMessage}
    {selection : CompiledAdapterSelection σ} {opened : Opened}
    (h : openNegotiation t registration selection = (.ok opened, u)) :
    Opens t registration selection opened u := by
  unfold openNegotiation at h
  cases hrequest : makeVerifyRequest selection.interface selection.policy with
  | error e => simp [hrequest] at h
  | ok request =>
    obtain ⟨hpolicy, hdigest⟩ := makeVerifyRequest_ok hrequest
    simp only [hrequest] at h
    split_ifs at h with hversion
    · simp at h
    cases hindex : resolveIndex selection.registry
        (selection.key request.expectedSemanticDigest) with
    | error e => simp [hindex] at h
    | ok index =>
      cases hencoded : encodeRegistration registration request with
      | error e => simp [hindex, hencoded] at h
      | ok encoded =>
        rcases hsend : t.send encoded with ⟨_ | _, v⟩
        · simp [hindex, hencoded, hsend] at h
        rcases hrecv : v.recv with ⟨_ | _ | line, w⟩
        · simp [hindex, hencoded, hsend, hrecv] at h
        · simp [hindex, hencoded, hsend, hrecv] at h
        · simp only [hindex, hencoded, hsend, hrecv, Prod.mk.injEq, Except.ok.injEq] at h
          obtain ⟨rfl, rfl⟩ := h
          exact ⟨hpolicy, hdigest, rfl, hindex, encoded, v, hencoded, hsend, hrecv⟩

theorem openNegotiation_sent {t : Transport} {registration : ClientMessage}
    {selection : CompiledAdapterSelection σ}
    (h : (openNegotiation t registration selection).2.inner.sent ≠ t.inner.sent) :
    ∃ digest index, SemanticDigest.fromHex selection.interface.semanticDigest = .ok digest ∧
      resolveIndex selection.registry (selection.key digest) = .ok index := by
  unfold openNegotiation at h
  cases hrequest : makeVerifyRequest selection.interface selection.policy with
  | error e => simp [hrequest] at h
  | ok request =>
    obtain ⟨-, hdigest⟩ := makeVerifyRequest_ok hrequest
    simp only [hrequest] at h
    split_ifs at h with hversion
    · exact absurd rfl h
    cases hindex : resolveIndex selection.registry
        (selection.key request.expectedSemanticDigest) with
    | error e => simp [hindex] at h
    | ok index => exact ⟨_, index, hdigest, hindex⟩

/-- A matched line authorizes the factory, a fallback line the fallback that is permitted. -/
theorem Opens.admits_iff {t u : Transport} {registration : ClientMessage}
    {selection : CompiledAdapterSelection σ} {opened : Opened}
    (h : Opens t registration selection opened u) (authority : Authorization) :
    decodeAuthorization opened.line opened.request selection.fallbackFactory.isSome =
        .ok authority ↔
      (authority = .matched opened.request.expectedSemanticDigest
          MODEL_INTERFACE_DESCRIPTOR_SCHEMA ∧
          MatchedLine opened.line opened.request.expectedSemanticDigest) ∨
        (authority = .fallback ∧ selection.policy = .prefer ∧
          selection.fallbackFactory.isSome = true ∧ FallbackLine opened.line) := by
  rw [decodeAuthorization_cases, h.policy]

theorem createBinding_trace {t u : Transport} {registration : ClientMessage}
    {selection : CompiledAdapterSelection σ} {opened : Opened} {authority : Authorization}
    (hopen : Opens t registration selection opened u)
    (hauthority : decodeAuthorization opened.line opened.request
      selection.fallbackFactory.isSome = .ok authority) (config : ApalacheConfig) (s : Calls σ) :
    (createBinding selection config opened authority s).2.trace =
      s.trace ++ [authority.event opened.index
        ((createBinding selection config opened authority s).1.map LocalBinding.semanticDigest)] := by
  rcases decodeAuthorization_cases.mp hauthority with ⟨rfl, -⟩ | ⟨rfl, -, hfallback, -⟩
  · obtain ⟨⟨registration, hget, -⟩, -, -⟩ := resolveIndex_ok hopen.index
    simp only [createBinding, hget]
    rfl
  · obtain ⟨factory, hfactory⟩ := Option.isSome_iff_exists.mp hfallback
    simp only [createBinding, hfactory]
    rfl

/-! ### Whole runs -/

section
variable (debug)

namespace Unauthorized
variable {t u : Transport} {registration : ClientMessage} {selection : CompiledAdapterSelection σ}
  {e : Fault NegotiatedError}

theorem opened (h : Unauthorized t registration selection e u) :
    (openNegotiation t registration selection).2 = u := by
  cases h with
  | unopened opens | denied opens => rw [opens]

theorem denies (h : Unauthorized t registration selection e u) {opened : Opened} {v : Transport}
    (hopen : openNegotiation t registration selection = (.ok opened, v)) :
    ∃ e', e = .error e' ∧
      decodeAuthorization opened.line opened.request selection.fallbackFactory.isSome =
        .error (.error e') := by
  cases h with
  | unopened opens =>
    rw [opens] at hopen
    cases hopen
  | denied opens denies =>
    rw [opens] at hopen
    cases hopen
    obtain ⟨e', rfl⟩ := decodeAuthorization_error denies
    exact ⟨e', rfl, denies⟩

theorem not_admitted (h : Unauthorized t registration selection e u) {opened : Opened}
    {v : Transport} (hopen : openNegotiation t registration selection = (.ok opened, v))
    (authority : Authorization) :
    decodeAuthorization opened.line opened.request selection.fallbackFactory.isSome ≠
      .ok authority := by
  intro hadmits
  obtain ⟨e', -, hdenies⟩ := h.denies hopen
  rw [hadmits] at hdenies
  cases hdenies

end Unauthorized

theorem Authorized.unique {t u v : Transport} {registration : ClientMessage}
    {selection : CompiledAdapterSelection σ} {opened opened' : Opened}
    {authority authority' : Authorization}
    (h : Authorized t registration selection opened u authority)
    (hopen : openNegotiation t registration selection = (.ok opened', v))
    (hadmits : decodeAuthorization opened'.line opened'.request selection.fallbackFactory.isSome =
      .ok authority') : opened' = opened ∧ authority' = authority := by
  obtain rfl : opened' = opened := by
    rw [h.opens] at hopen
    exact (Except.ok.inj (Prod.mk.inj hopen).1).symm
  rw [h.admits] at hadmits
  exact ⟨rfl, (Except.ok.inj hadmits).symm⟩

theorem runNegotiatedOpen_unauthorized {t u : Transport} {registration : ClientMessage}
    {selection : CompiledAdapterSelection σ} {e : Fault NegotiatedError}
    (h : Unauthorized t registration selection e u) (config : ApalacheConfig) (s : Calls σ) :
    runNegotiatedOpen debug t config registration selection s = (.error e, u, s) := by
  unfold runNegotiatedOpen
  cases h with
  | unopened opens => rw [opens]
  | denied opens denies => simp only [opens, denies]

theorem unauthorized_or_authorized (t : Transport) (registration : ClientMessage)
    (selection : CompiledAdapterSelection σ) :
    (∃ e u, Unauthorized t registration selection e u) ∨
      ∃ opened u authority, Authorized t registration selection opened u authority := by
  rcases hopen : openNegotiation t registration selection with ⟨e | opened, u⟩
  · exact Or.inl ⟨e, u, .unopened hopen⟩
  · cases hauthority : decodeAuthorization opened.line opened.request
        selection.fallbackFactory.isSome with
    | error e => exact Or.inl ⟨e, u, .denied hopen hauthority⟩
    | ok authority => exact Or.inr ⟨opened, u, authority, hopen, hauthority⟩

/-- The calls of an authorized run, and its result. -/
theorem runNegotiatedOpen_authorized {t u : Transport} {registration : ClientMessage}
    {selection : CompiledAdapterSelection σ} {opened : Opened} {authority : Authorization}
    (h : Authorized t registration selection opened u authority)
    (config : ApalacheConfig) (s : Calls σ) :
    (∃ fault s₁, createBinding selection config opened authority s = (.error fault, s₁) ∧
        runNegotiatedOpen debug t config registration selection s =
          (.error (.error (factoryFailure fault)), u,
            ⟨s₁.world, s.trace ++ [authority.event opened.index (.error fault)]⟩)) ∨
      ∃ binding s₁ body primary v s₂,
        createBinding selection config opened authority s = (.ok binding, s₁) ∧
          Body debug binding opened.key config u s₁ body primary v s₂ ∧
          runNegotiatedOpen debug t config registration selection s =
            (returned (firstFailure primary
              ((binding.dispose s₂.world).1.mapError disposalFailure)), v,
              ⟨(binding.dispose s₂.world).2,
                s.trace ++ (authority.event opened.index (.ok binding.semanticDigest) ::
                  (body ++ [.dispose (binding.dispose s₂.world).1]))⟩) := by
  have hcreate := createBinding_trace (openNegotiation_ok h.opens) h.admits config s
  unfold runNegotiatedOpen
  simp only [h.opens, h.admits]
  rcases hmade : createBinding selection config opened authority s with ⟨made, s₁⟩
  rw [hmade] at hcreate
  obtain ⟨world, trace⟩ := s₁
  have htrace : trace =
      s.trace ++ [authority.event opened.index (made.map LocalBinding.semanticDigest)] := hcreate
  subst htrace
  cases made with
  | error fault =>
    refine Or.inl ⟨fault, _, rfl, ?_⟩
    cases fault <;> rfl
  | ok binding =>
    obtain ⟨body, htrace, hbody⟩ := @runBinding_body σ debug binding opened.key config u
      ⟨world, s.trace ++ [authority.event opened.index (.ok binding.semanticDigest)]⟩
    refine Or.inr ⟨binding, _, body, _, _, _, rfl, hbody, ?_⟩
    simp only [Except.map, disposeBinding_eq, htrace, List.append_assoc, List.cons_append,
      List.nil_append]

theorem runNegotiated_eq {t u : Transport} {config : ApalacheConfig} {registration : ClientMessage}
    {selection : CompiledAdapterSelection σ} {s s' : Calls σ}
    {result : Except (Fault NegotiatedError) Unit}
    (h : runNegotiatedOpen debug t config registration selection s = (result, u, s')) :
    runNegotiated debug t config registration selection s =
      (firstFailure result ((u.close.1.mapError fun e => Fault.error (NegotiatedError.legacy e)).map
        fun _ => ()), u.close.2, { s' with trace := s'.trace ++ [.close u.close.1] }) := by
  unfold runNegotiated
  rw [h]

/-- The calls of a run come in one order, each with what it has returned in this run, and the run
returns its first failure. -/
theorem runNegotiated_lifecycle (t : Transport) (config : ApalacheConfig)
    (registration : ClientMessage) (selection : CompiledAdapterSelection σ) (s : Calls σ) :
    ∃ trace, (runNegotiated debug t config registration selection s).2.2.trace = s.trace ++ trace ∧
      Lifecycle debug t config registration selection s trace
        (runNegotiated debug t config registration selection s).1 ∧
      (runNegotiated debug t config registration selection s).2.1.closed = true := by
  rcases unauthorized_or_authorized t registration selection with ⟨e, u, hrefused⟩ |
    ⟨opened, u, authority, hauthorized⟩
  · rw [runNegotiated_eq debug (runNegotiatedOpen_unauthorized debug hrefused config s)]
    exact ⟨_, rfl, .refused hrefused, Transport.close_closed _⟩
  · rcases runNegotiatedOpen_authorized debug hauthorized config s with
      ⟨fault, s₁, hcreate, hrun⟩ | ⟨binding, s₁, body, primary, v, s₂, hcreate, hbody, hrun⟩
    · rw [runNegotiated_eq debug hrun]
      exact ⟨_, List.append_assoc .., .unmade hauthorized hcreate, Transport.close_closed _⟩
    · rw [runNegotiated_eq debug hrun]
      refine ⟨authority.event opened.index (.ok binding.semanticDigest) ::
        (body ++ [.dispose (binding.dispose s₂.world).1, .close v.close.1]), by simp, ?_,
        Transport.close_closed _⟩
      have hfirst : firstFailure (returned (firstFailure primary
          ((binding.dispose s₂.world).1.mapError disposalFailure)))
          ((v.close.1.mapError fun e => Fault.error (NegotiatedError.legacy e)).map fun _ => ()) =
          precedence primary (binding.dispose s₂.world).1 v.close.1 := by
        cases primary <;> cases (binding.dispose s₂.world).1 <;> cases v.close.1 <;> rfl
      rw [hfirst]
      exact .disposed hauthorized hcreate hbody

/-! ### Admission -/

def Event.Later : Event → Prop
  | .factory .. | .fallback _ => False
  | _ => True

theorem Body.later {binding : LocalBinding σ} {key : CompiledAdapterKey} {config : ApalacheConfig}
    {t v : Transport} {s s' : Calls σ} {body : List Event} {primary : Negotiated Unit}
    (h : Body debug binding key config t s body primary v s') : ∀ event ∈ body, event.Later := by
  cases h with
  | mismatched => simp
  | rejected => simp [Event.Later]
  | completed same accepts states runs =>
    intro event hevent
    rcases List.mem_cons.mp hevent with rfl | hevent
    · trivial
    · obtain ⟨state, -, rfl⟩ := List.mem_map.mp hevent
      trivial
  | failed same accepts states runs =>
    intro event hevent
    rcases List.mem_cons.mp hevent with rfl | hevent
    · trivial
    · rcases List.mem_append.mp hevent with hevent | hevent
      · obtain ⟨state, -, rfl⟩ := List.mem_map.mp hevent
        trivial
      · rw [List.mem_singleton.mp hevent]
        trivial

/-- An authorized run calls its factory first, and no factory after that. -/
theorem runNegotiated_authorized {t u : Transport} {registration : ClientMessage}
    {selection : CompiledAdapterSelection σ} {opened : Opened} {authority : Authorization}
    (h : Authorized t registration selection opened u authority)
    (config : ApalacheConfig) (world : σ) :
    ∃ binding rest,
      (runNegotiated debug t config registration selection ⟨world, []⟩).2.2.trace =
        authority.event opened.index binding :: rest ∧ ∀ event ∈ rest, event.Later := by
  rcases runNegotiatedOpen_authorized debug h config ⟨world, []⟩ with
    ⟨fault, s₁, -, hrun⟩ | ⟨binding, s₁, body, primary, v, s₂, -, hbody, hrun⟩
  · rw [runNegotiated_eq debug hrun]
    exact ⟨_, _, rfl, by simp [Event.Later]⟩
  · rw [runNegotiated_eq debug hrun]
    refine ⟨_, _, rfl, fun event hevent => ?_⟩
    rcases List.mem_append.mp hevent with hevent | hevent
    · rcases List.mem_append.mp hevent with hevent | hevent
      · exact hbody.later debug event hevent
      · rw [List.mem_singleton.mp hevent]
        trivial
    · rw [List.mem_singleton.mp hevent]
      trivial

/-- The registered factory is called exactly for a matched line, the fallback exactly for a fallback
line where the policy and the selection permit one, nothing for another line; and nothing is sent
unless exactly one registration has the key. -/
theorem runNegotiated_admission (t : Transport) (config : ApalacheConfig)
    (registration : ClientMessage) (selection : CompiledAdapterSelection σ) (world : σ) :
    (∀ index, (∃ binding, .factory index binding ∈
          (runNegotiated debug t config registration selection ⟨world, []⟩).2.2.trace) ↔
        ∃ opened u, openNegotiation t registration selection = (.ok opened, u) ∧
          MatchedLine opened.line opened.request.expectedSemanticDigest ∧
          ∃ entry, selection.registry[index]? = some entry ∧
            entry.key = selection.key opened.request.expectedSemanticDigest) ∧
      ((∃ binding, .fallback binding ∈
          (runNegotiated debug t config registration selection ⟨world, []⟩).2.2.trace) ↔
        ∃ opened u, openNegotiation t registration selection = (.ok opened, u) ∧
          selection.policy = .prefer ∧ selection.fallbackFactory.isSome = true ∧
          FallbackLine opened.line) ∧
      (∀ opened u, openNegotiation t registration selection = (.ok opened, u) →
        ¬ MatchedLine opened.line opened.request.expectedSemanticDigest →
        ¬ (selection.policy = .prefer ∧ selection.fallbackFactory.isSome = true ∧
          FallbackLine opened.line) →
        (∃ closed, (runNegotiated debug t config registration selection ⟨world, []⟩).2.2.trace =
            [.close closed]) ∧
          ∃ e, (runNegotiated debug t config registration selection ⟨world, []⟩).1 =
            .error (.error e)) ∧
      ((runNegotiated debug t config registration selection ⟨world, []⟩).2.1.inner.sent ≠
          t.inner.sent →
        ∃ digest, SemanticDigest.fromHex selection.interface.semanticDigest = .ok digest ∧
          (selection.registry.filter fun entry =>
            decide (entry.key = selection.key digest)).length = 1) := by
  rcases unauthorized_or_authorized t registration selection with ⟨e, v, hrefused⟩ |
    ⟨opened, u, authority, hauthorized⟩
  · -- no reply is admitted
    have hrun := runNegotiated_eq debug
      (runNegotiatedOpen_unauthorized debug hrefused config (⟨world, []⟩ : Calls σ))
    have htrace : (runNegotiated debug t config registration selection ⟨world, []⟩).2.2.trace =
        [.close v.close.1] := by
      rw [hrun]
      rfl
    refine ⟨fun index => ⟨?_, ?_⟩, ⟨?_, ?_⟩, fun opened u hopen _ _ => ⟨⟨_, htrace⟩, ?_⟩,
      fun hsent => ?_⟩
    · rintro ⟨binding, hmem⟩
      rw [htrace] at hmem
      simp at hmem
    · rintro ⟨opened, u, hopen, hmatched, -⟩
      exact absurd (((openNegotiation_ok hopen).admits_iff _).mpr (Or.inl ⟨rfl, hmatched⟩))
        (hrefused.not_admitted hopen _)
    · rintro ⟨binding, hmem⟩
      rw [htrace] at hmem
      simp at hmem
    · rintro ⟨opened, u, hopen, hfallback⟩
      exact absurd (((openNegotiation_ok hopen).admits_iff _).mpr (Or.inr ⟨rfl, hfallback⟩))
        (hrefused.not_admitted hopen _)
    · obtain ⟨e', rfl, -⟩ := hrefused.denies hopen
      rw [hrun]
      exact ⟨e', rfl⟩
    · have hopened : (openNegotiation t registration selection).2.inner.sent ≠ t.inner.sent := by
        rw [hrun] at hsent
        rw [hrefused.opened]
        simpa using hsent
      obtain ⟨digest, index, hdigest, hindex⟩ := openNegotiation_sent hopened
      exact ⟨digest, hdigest, (resolveIndex_ok hindex).2.1⟩
  · -- the reply is admitted
    obtain ⟨binding, rest, htrace, hlater⟩ :=
      runNegotiated_authorized debug hauthorized config world
    have hopens := openNegotiation_ok hauthorized.opens
    obtain ⟨⟨entry, hget, hkey⟩, hone, hunique⟩ := resolveIndex_ok hopens.index
    rw [hopens.key] at hkey hone hunique
    have hcases := (hopens.admits_iff authority).mp hauthorized.admits
    refine ⟨fun index => ⟨?_, ?_⟩, ⟨?_, ?_⟩, fun opened' u' hopen hmatched hfallback => ?_,
      fun _ => ⟨_, hopens.digest, hone⟩⟩
    · rintro ⟨made, hmem⟩
      rw [htrace] at hmem
      rcases List.mem_cons.mp hmem with hevent | hmem
      · rcases hcases with ⟨rfl, hmatched⟩ | ⟨rfl, -⟩
        · cases hevent
          exact ⟨opened, u, hauthorized.opens, hmatched, entry, hget, hkey⟩
        · cases hevent
      · exact absurd (hlater _ hmem) id
    · rintro ⟨opened', u', hopen, hmatched, entry', hget', hkey'⟩
      obtain ⟨rfl, rfl⟩ := hauthorized.unique hopen
        (((openNegotiation_ok hopen).admits_iff _).mpr (Or.inl ⟨rfl, hmatched⟩))
      obtain rfl := hunique index entry' hget' hkey'
      rw [htrace]
      exact ⟨binding, List.mem_cons_self⟩
    · rintro ⟨made, hmem⟩
      rw [htrace] at hmem
      rcases List.mem_cons.mp hmem with hevent | hmem
      · rcases hcases with ⟨rfl, -⟩ | ⟨rfl, hfallback⟩
        · cases hevent
        · exact ⟨opened, u, hauthorized.opens, hfallback⟩
      · exact absurd (hlater _ hmem) id
    · rintro ⟨opened', u', hopen, hfallback⟩
      obtain ⟨rfl, rfl⟩ := hauthorized.unique hopen
        (((openNegotiation_ok hopen).admits_iff _).mpr (Or.inr ⟨rfl, hfallback⟩))
      rw [htrace]
      exact ⟨binding, List.mem_cons_self⟩
    · obtain rfl : opened' = opened :=
        (Except.ok.inj (Prod.mk.inj (hauthorized.opens.symm.trans hopen)).1).symm
      rcases hcases with ⟨-, h⟩ | ⟨-, h⟩
      · exact absurd h hmatched
      · exact absurd h hfallback

end

end
end MirrorRust
