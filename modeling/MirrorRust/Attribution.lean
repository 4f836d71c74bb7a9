import MirrorRust.Stepping

/-! Which request a mismatch is blamed on. The loop keeps the latest action and the latest
parameters in two variables, and only `next_step` writes the second. -/
namespace MirrorRust

namespace MirrorMessage

def isRequest : MirrorMessage → Bool
  | initialState .. | nextStep .. => true
  | _ => false

def isNextStep : MirrorMessage → Bool
  | nextStep .. => true
  | _ => false

def request : MirrorMessage → String × State
  | initialState action _ => (action, [])
  | nextStep action parameters => (action, parameters)
  | _ => ("", [])

end MirrorMessage

def latest (p : MirrorMessage → Bool) (messages : List MirrorMessage) : Option MirrorMessage :=
  messages.reverse.find? p

/-- The action and the parameters are those of the most recent request. -/
def Attributed (messages : List MirrorMessage) (action : String) (params : State) : Prop :=
  ∀ m ∈ latest MirrorMessage.isRequest messages, (action, params) = m.request

/-- The most recent request is no `initial_state` that follows, with no `next_step` between, a
`next_step` with parameters. -/
def Current (messages : List MirrorMessage) : Prop :=
  ∀ action state action' parameters,
    latest MirrorMessage.isRequest messages = some (.initialState action state) →
    latest MirrorMessage.isNextStep messages = some (.nextStep action' parameters) →
    parameters = []

/-! ### The two variables -/

def remember (v : String × State) : MirrorMessage → String × State
  | .initialState action _ => (action, v.2)
  | .nextStep action parameters => (action, parameters)
  | _ => v

theorem latest_snoc (p : MirrorMessage → Bool) (messages : List MirrorMessage) (m : MirrorMessage) :
    latest p (messages ++ [m]) = if p m then some m else latest p messages := by
  rw [latest, List.reverse_append, List.reverse_singleton, List.singleton_append, List.find?_cons]
  cases p m <;> rfl

/-- The first variable is the action of the latest request, the second the parameters of the latest
`next_step`. -/
theorem remember_latest (messages : List MirrorMessage) :
    (messages.foldl remember ("", [])).1 =
        ((latest MirrorMessage.isRequest messages).map (·.request.1)).getD "" ∧
      (messages.foldl remember ("", [])).2 =
        ((latest MirrorMessage.isNextStep messages).map (·.request.2)).getD [] := by
  induction messages using List.reverseRecOn with
  | nil => exact ⟨rfl, rfl⟩
  | append_singleton messages m ih =>
    rw [List.foldl_concat, latest_snoc, latest_snoc]
    cases m with
    | initialState action state => exact ⟨rfl, ih.2⟩
    | nextStep action parameters => exact ⟨rfl, rfl⟩
    | _ => exact ih

theorem latest_nextStep {messages : List MirrorMessage} {action : String} {parameters : State}
    (h : latest MirrorMessage.isRequest messages = some (.nextStep action parameters)) :
    latest MirrorMessage.isNextStep messages = some (.nextStep action parameters) := by
  induction messages using List.reverseRecOn with
  | nil => cases h
  | append_singleton messages m ih =>
    rw [latest_snoc] at h ⊢
    cases m with
    | initialState action' state => cases h
    | nextStep action' parameters' => exact h
    | _ => exact ih h

theorem latest_isRequest {messages : List MirrorMessage} {m : MirrorMessage}
    (h : latest MirrorMessage.isRequest messages = some m) : m.isRequest = true :=
  List.find?_some h

theorem latest_isNextStep {messages : List MirrorMessage} {m : MirrorMessage}
    (h : latest MirrorMessage.isNextStep messages = some m) : m.isNextStep = true :=
  List.find?_some h

theorem remember_attributed_iff (messages : List MirrorMessage) :
    Attributed messages (messages.foldl remember ("", [])).1
      (messages.foldl remember ("", [])).2 ↔ Current messages := by
  obtain ⟨haction, hparams⟩ := remember_latest messages
  unfold Attributed Current
  rw [haction, hparams]
  cases hrequest : latest MirrorMessage.isRequest messages with
  | none => exact iff_of_true nofun nofun
  | some m =>
    have hm := latest_isRequest hrequest
    cases m with
    | nextStep action parameters =>
      rw [latest_nextStep hrequest]
      refine iff_of_true ?_ nofun
      intro m hm
      cases hm
      rfl
    | initialState action state =>
      cases hnext : latest MirrorMessage.isNextStep messages with
      | none =>
        refine iff_of_true ?_ nofun
        intro m hm
        cases hm
        rfl
      | some n =>
        have hn := latest_isNextStep hnext
        cases n with
        | nextStep action' parameters =>
          constructor
          · rintro h _ _ _ _ ⟨⟩ ⟨⟩
            exact (Prod.mk.inj (h _ rfl)).2
          · intro h m hm
            cases hm
            exact Prod.ext rfl (h _ _ _ _ rfl rfl)
        | _ => cases hn
    | _ => cases hm

namespace Stepping
variable {σ ε : Type} {debug : MirrorMessage → String} {ofError : Error → ε}
  {compute : Computer σ ε}

theorem report_remember {l l' : Stepping σ} (h : l.report ofError = .goOn l') :
    (l'.lastAction, l'.lastParam) = (l.lastAction, l.lastParam) := by
  unfold report at h
  split at h <;> cases h
  rfl

theorem goOn_remember {l l' : Stepping σ} {message : MirrorMessage}
    (h : onMessage debug ofError compute l message = .goOn l') :
    (l'.lastAction, l'.lastParam) = remember (l.lastAction, l.lastParam) message := by
  cases message with
  | initialState action state =>
    simp only [onMessage] at h
    split at h
    · cases h
    · exact report_remember h
  | nextStep action parameters =>
    simp only [onMessage] at h
    split at h
    · cases h
    · exact report_remember h
  | stepOk =>
    cases h
    rfl
  | _ => cases h

/-- A run that ends at a mismatch without an action blames it on what was remembered. -/
theorem Runs.mismatch {l l' : Stepping σ} {messages : List MirrorMessage}
    {result : Except (Fault ε) Unit} (h : Runs debug ofError compute l messages result l')
    {before : List MirrorMessage} {expected actual : State} {hints : List DiffHint}
    (hmessages : messages = before ++ [.stepMismatch none expected actual hints]) :
    result = .error (.error (ofError
        (.stepMismatch l'.lastAction l'.lastParam expected actual hints))) ∧
      (l'.lastAction, l'.lastParam) = before.foldl remember (l.lastAction, l.lastParam) := by
  induction h generalizing before with
  | failed receive => simp at hmessages
  | stops receive turn =>
    cases before with
    | nil =>
      obtain ⟨rfl, -⟩ := List.cons.inj hmessages
      cases turn
      exact ⟨rfl, rfl⟩
    | cons message before => simp at hmessages
  | goesOn receive turn rest ih =>
    cases before with
    | nil =>
      obtain ⟨rfl, -⟩ := List.cons.inj hmessages
      cases turn
    | cons message before =>
      obtain ⟨rfl, hrest⟩ := List.cons.inj hmessages
      obtain ⟨hresult, hvars⟩ := ih hrest
      refine ⟨hresult, ?_⟩
      rw [hvars, goOn_remember turn]
      rfl

variable (debug ofError compute)

/-- The error of a run that ends at a mismatch without an action is attributed to the most recent
request if and only if that request is current. -/
theorem mismatch_attributed_iff (t : Transport) (s : σ) {before : List MirrorMessage}
    {expected actual : State} {hints : List DiffHint}
    (h : Runs debug ofError compute (.start t s)
      (before ++ [.stepMismatch none expected actual hints])
      (run debug ofError compute (.start t s)).1 (run debug ofError compute (.start t s)).2) :
    ∃ action params, (run debug ofError compute (.start t s)).1 =
        .error (.error (ofError (.stepMismatch action params expected actual hints))) ∧
      (Attributed before action params ↔ Current before) := by
  obtain ⟨hresult, hvars⟩ := h.mismatch rfl
  refine ⟨_, _, hresult, ?_⟩
  obtain ⟨haction, hparams⟩ := Prod.mk.inj hvars
  rw [haction, hparams]
  exact remember_attributed_iff before

variable {debug ofError}

theorem Quiet.takes {l l' : Stepping σ} {messages : List MirrorMessage}
    {result : Except (Fault ε) Unit} (h : Runs debug ofError constant l messages result l')
    (hquiet : Quiet l.transport)
    (hend : ∃ m ∈ script l.transport.inner.incoming, ¬ m.Continues) :
    messages = script l.transport.inner.incoming := by
  induction h with
  | failed receive =>
    obtain ⟨m, hm, -⟩ := hend
    obtain ⟨message, u, hrecv, -⟩ := hquiet.next (List.ne_nil_of_mem hm)
    rw [receive] at hrecv
    cases hrecv
  | @stops l l' t message result receive hturn =>
    obtain ⟨m, hm, -⟩ := hend
    obtain ⟨message', u, hrecv, hu⟩ := hquiet.next (List.ne_nil_of_mem hm)
    rw [receive] at hrecv
    cases hrecv
    by_cases hcontinues : message.Continues
    · obtain ⟨l₁, hgoOn, -⟩ :=
        @Quiet.onMessage σ ε debug ofError { l with transport := t } hu message hcontinues
      rw [hgoOn] at hturn
      cases hturn
    · exact (script_terminal receive hcontinues).symm
  | @goesOn l l₁ l' t message messages result receive hturn rest ih =>
    obtain ⟨m, hm, hterminal⟩ := hend
    obtain ⟨message', u, hrecv, hu⟩ := hquiet.next (List.ne_nil_of_mem hm)
    rw [receive] at hrecv
    cases hrecv
    obtain ⟨hcontinues, hsent⟩ := goOn_incoming hturn
    obtain ⟨l₂, hgoOn, hquiet'⟩ :=
      @Quiet.onMessage σ ε debug ofError { l with transport := t } hu message hcontinues
    rw [hgoOn] at hturn
    cases hturn
    rw [script_continues receive hcontinues, ← hsent.incoming] at hm ⊢
    rw [ih hquiet' ⟨m, (List.mem_cons.mp hm).resolve_left ?_, hterminal⟩]
    rintro rfl
    exact hterminal hcontinues

def nextLine : String :=
  "\x7b\"proto_step\":\"next_step\",\"action\":\"inc\",\"parameters\":\x7b\"by\":true\x7d\x7d"

/-- A parametrised step of one trace, and a second trace that fails at its first state. -/
def secondTrace : List (Except String (Option String)) :=
  [.ok (some nextLine),
    .ok (some "\x7b\"proto_step\":\"initial_state\",\"action\":\"init\",\"state\":\x7b\x7d\x7d"),
    .ok (some "\x7b\"proto_step\":\"step_mismatch\",\"expected\":\x7b\x7d,\"actual\":\x7b\x7d\x7d")]

theorem script_secondTrace : script secondTrace =
    [.nextStep "inc" [("by", .bool true)], .initialState "init" []] ++
      [.stepMismatch none [] [] []] := by
  have hnext : decodeMirrorMessage nextLine = .ok (.nextStep "inc" [("by", .bool true)]) :=
    (@decode_of_parse _ [("action", .string "inc"), ("parameters", .object [("by", .bool true)]),
      ("proto_step", .string "next_step")] (by decide +kernel)).trans rfl
  have hinitial : decodeMirrorMessage
      "\x7b\"proto_step\":\"initial_state\",\"action\":\"init\",\"state\":\x7b\x7d\x7d" =
        .ok (.initialState "init" []) :=
    (@decode_of_parse _ [("action", .string "init"), ("proto_step", .string "initial_state"),
      ("state", .object [])] (by decide +kernel)).trans rfl
  have hmismatch : decodeMirrorMessage
      "\x7b\"proto_step\":\"step_mismatch\",\"expected\":\x7b\x7d,\"actual\":\x7b\x7d\x7d" =
        .ok (.stepMismatch none [] [] []) :=
    (@decode_of_parse _ [("actual", .object []), ("expected", .object []),
      ("proto_step", .string "step_mismatch")] (by decide +kernel)).trans rfl
  simp only [script, secondTrace, hnext, hinitial, hmismatch]
  rfl

theorem runs_secondTrace : Runs (fun _ => "") (id : Error → Error) constant
    (.start (quiet secondTrace) ())
    ([.nextStep "inc" [("by", .bool true)], .initialState "init" []] ++
      [.stepMismatch none [] [] []])
    (run (fun _ => "") (id : Error → Error) constant (.start (quiet secondTrace) ())).1
    (run (fun _ => "") (id : Error → Error) constant (.start (quiet secondTrace) ())).2 := by
  obtain ⟨messages, hruns⟩ := @run_runs Unit Error (fun _ => "") (id : Error → Error) constant
    (.start (quiet secondTrace) ())
  have hend : ∃ m ∈ script secondTrace, ¬ m.Continues := by
    rw [script_secondTrace]
    exact ⟨.stepMismatch none [] [] [], List.mem_append_right _ (List.mem_singleton_self _), id⟩
  have hmessages : messages = script secondTrace := Quiet.takes hruns ⟨rfl, rfl, fun _ => rfl⟩ hend
  rw [hmessages, script_secondTrace] at hruns
  exact hruns

theorem mismatch_attributed_second : ∃ action params,
    (run (fun _ => "") (id : Error → Error) constant (.start (quiet secondTrace) ())).1 =
        .error (.error (.stepMismatch action params [] [] [])) ∧
      (Attributed [.nextStep "inc" [("by", .bool true)], .initialState "init" []] action params ↔
        Current [.nextStep "inc" [("by", .bool true)], .initialState "init" []]) :=
  mismatch_attributed_iff (fun _ => "") (id : Error → Error) constant (quiet secondTrace) ()
    runs_secondTrace

/-- Its mismatch is blamed on the second trace with the parameters of the first. -/
theorem mismatch_misattributed : ¬ ∀ (t : Transport) (before : List MirrorMessage)
    (expected actual : State) (hints : List DiffHint) (action : String) (params : State),
    Runs (fun _ => "") (id : Error → Error) constant (.start t ())
        (before ++ [.stepMismatch none expected actual hints])
        (run (fun _ => "") id constant (.start t ())).1
        (run (fun _ => "") id constant (.start t ())).2 →
      (run (fun _ => "") (id : Error → Error) constant (.start t ())).1 =
        .error (.error (.stepMismatch action params expected actual hints)) →
      Attributed before action params := by
  intro h
  obtain ⟨hresult, hvars⟩ := runs_secondTrace.mismatch rfl
  have hattributed := h _ _ _ _ _ _ _ runs_secondTrace hresult _ rfl
  rw [hvars] at hattributed
  cases hattributed

end Stepping
end MirrorRust
