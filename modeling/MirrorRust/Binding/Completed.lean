import MirrorRust.Binding.Bytes

/-! What full completion of a session means, and that nothing after the disposal changes it. -/
namespace MirrorRust

/-- The session has been disposed of, and the call has returned. -/
structure Disposed (b : Binding) : Prop where
  disposed : b.session.disposed = true
  call : ∀ refused, b.call ≠ some (.disposing refused)

/-- What stays after the disposal. -/
structure Stays (b b' : Binding) : Prop where
  past : b'.past = b.past
  initializations : b'.session.initializations = b.session.initializations
  disposals : b'.session.disposals = b.session.disposals
  disposal : b'.session.disposal = b.session.disposal
  rows : b'.session.executions.length = b.session.executions.length

section Steps
variable {debug : ThreadId → String} {b b' : Binding} {action : SessionAction}

theorem disposals_eq (h : (bindings debug).Reachable b) :
    b.session.disposals = if b.session.disposed = true then 1 else 0 := by
  refine h.invariant (P := fun b => b.session.disposals = if b.session.disposed = true then 1 else 0)
    (fun b hb => ?_) fun b action b' hr hb hstep => ?_
  · obtain ⟨setup, cancel, rfl⟩ := hb
    rfl
  have hs := sound hr
  obtain ⟨-, hdisposed, -, -, hdisposals⟩ := BindingSession.retain_frame debug b.session
  cases hs.move hstep with
  | stays _ _ _ hsession => rw [hsession, ← hb]
  | starts _ _ _ _ _ hsession => rw [hsession, BindingSession.start, ← hb]
  | disposes _ hopen _ hsession =>
    rw [hsession]
    simp only [hb, hopen, Bool.false_eq_true, if_false, if_true]
  | retains _ _ _ _ hsession => rw [hsession, hdisposed, hdisposals, ← hb]
  | restarts _ _ _ _ _ _ _ hsession =>
    rw [hsession]
    simp only [BindingSession.start, hdisposed, hdisposals, ← hb]
  | settles w refused _ _ hsession =>
    obtain ⟨disposal, heq, -⟩ := BindingSession.settle_spec debug b.session w refused
    rw [hsession, heq, hdisposed, hdisposals, ← hb]
  | replaces w _ _ _ _ _ _ hsession =>
    obtain ⟨-, hdisposed, -, -, -, hdisposals⟩ := BindingSession.replace_frame debug b.session w
    rw [hsession, hdisposed, hdisposals, ← hb]

theorem Disposed.step (h : Disposed b) (hr : (bindings debug).Reachable b)
    (hstep : b.step debug action = some b') : Disposed b' ∧ Stays b b' := by
  have hs := sound hr
  have hcall : b'.session.disposed = true → Disposed b' := by
    intro hdisposed
    refine ⟨hdisposed, fun refused hcall => ?_⟩
    cases hcall ▸ Binding.step_call hstep with
    | same hcall => exact h.call refused hcall
    | disposing _ hopen => exact Bool.false_ne_true (hopen.symm.trans h.disposed)
  cases hs.move hstep with
  | stays _ _ _ hsession hpast =>
    refine ⟨hcall (by rw [hsession]; exact h.disposed), hpast, ?_, ?_, ?_, ?_⟩ <;> rw [hsession]
  | disposes _ hopen => exact absurd (hopen.symm.trans h.disposed) Bool.noConfusion
  | starts _ _ _ hopen => exact absurd (hopen.symm.trans h.disposed) Bool.noConfusion
  | retains _ _ hfinishing => exact absurd hfinishing ((hs.attended.closed h.disposed).1 none)
  | restarts _ _ _ _ hfinishing => exact absurd hfinishing ((hs.attended.closed h.disposed).1 none)
  | settles _ refused _ hdisposing => exact absurd hdisposing (h.call refused)
  | replaces w _ _ _ hw hretrying _ hsession hpast =>
    obtain ⟨-, hdisposed, hdisposal, -, hinitializations, hdisposals⟩ :=
      BindingSession.replace_frame debug b.session w
    obtain ⟨-, hretained⟩ := hs.attended.retrying hretrying hw
    obtain ⟨-, _, -, hrows, -⟩ := hs.ledger.retained hretained
    refine ⟨hcall (by rw [hsession, hdisposed]; exact h.disposed), hpast, ?_, ?_, ?_, ?_⟩ <;>
      rw [hsession]
    · exact hinitializations
    · exact hdisposals
    · exact hdisposal
    · rcases BindingSession.replace_spec (w := w) hretained hrows with ⟨-, heq⟩ | ⟨-, heq⟩ <;> rw [heq]
      simp [hrows]

theorem Disposed.dispose (h : Disposed b) (debug : ThreadId → String) {owner : Bool}
    (hstep : b.step debug (.dispose owner) = some b') :
    b'.session = b.session ∧ b'.returned = some b.session.disposal := by
  obtain ⟨-, hb⟩ := Option.ite_none_right_eq_some.mp hstep
  rw [Binding.dispose, if_pos h.disposed] at hb
  cases hb
  exact ⟨rfl, rfl⟩

theorem replace_same {s : BindingSession} {rows : List Json} {w : World}
    (hretained : s.retained = true) (hrows : s.executions = rows ++ [w.receipt debug])
    (hcounted : (w.receipt debug).bytes ≤ s.receiptBytes) (hlimit : s.receiptBytes ≤ receiptLimit) :
    s.replace debug w = s := by
  rcases BindingSession.replace_spec (w := w) hretained hrows with ⟨-, heq⟩ | ⟨hfull, -⟩
  · rw [heq, Nat.sub_add_cancel hcounted, ← hrows]
  · rw [Nat.sub_add_cancel hcounted] at hfull
    omega

theorem fullyCompleted_iff {s : BindingSession} : s.fullyCompleted = true ↔
    s.disposed = true ∧ 0 < s.initializations ∧ succeeded s.disposal = true ∧
      s.receiptComplete = true ∧ s.executions ≠ [] ∧
        ∀ row ∈ s.executions, row.index "passed" = .bool true := by
  simp [BindingSession.fullyCompleted, and_assoc]

/-- The rows of a session that is fully completed are the receipts of its executions as they are. -/
theorem rows_final (hr : (bindings debug).Reachable b) (h : Disposed b)
    (hcompleted : b.session.fullyCompleted = true) : ∃ w, b.session.execution = some w ∧
      b.session.executions = (b.past ++ [w]).map (World.receipt debug) ∧
        ∀ u ∈ b.past ++ [w], u.report.passed = true := by
  have hs := sound hr
  obtain ⟨-, hstarted, -, -, -, hpassed⟩ := fullyCompleted_iff.mp hcompleted
  cases hw : b.session.execution with
  | none =>
    have hcount := hs.ledger.count
    rw [hw, hs.ledger.unused hw] at hcount
    simp only [List.length_nil, Option.toList_none] at hcount
    omega
  | some w =>
    obtain ⟨u, row, hu, hrows, hrow, -⟩ := hs.ledger.retained (hs.attended.settled h.disposed h.call w hw)
    obtain rfl : u = w := Option.some.inj (hu.symm.trans hw)
    obtain ⟨hpassed', rfl⟩ := hrow.final (hpassed row (by simp [hrows]))
    refine ⟨u, rfl, by simp [hrows], fun v hv => ?_⟩
    rcases List.mem_append.mp hv with hv | hv
    · exact (hs.ledger.replaced v hv).2.2
    · obtain rfl := List.mem_singleton.mp hv
      exact hpassed'

theorem Disposed.completed (h : Disposed b) (hr : (bindings debug).Reachable b)
    (hstep : b.step debug action = some b') (hcompleted : b.session.fullyCompleted = true) :
    b'.session.fullyCompleted = true ∧ b'.session.executions = b.session.executions := by
  have hs := sound hr
  cases hs.move hstep with
  | stays _ _ _ hsession =>
    rw [hsession]
    exact ⟨hcompleted, rfl⟩
  | disposes _ hopen => exact absurd (hopen.symm.trans h.disposed) Bool.noConfusion
  | starts _ _ _ hopen => exact absurd (hopen.symm.trans h.disposed) Bool.noConfusion
  | retains _ _ hfinishing => exact absurd hfinishing ((hs.attended.closed h.disposed).1 none)
  | restarts _ _ _ _ hfinishing => exact absurd hfinishing ((hs.attended.closed h.disposed).1 none)
  | settles _ refused _ hdisposing => exact absurd hdisposing (h.call refused)
  | replaces w _ _ _ hw hretrying _ hsession =>
    obtain ⟨u, hu, hrows, -⟩ := rows_final hr h hcompleted
    obtain rfl : u = w := Option.some.inj (hu.symm.trans hw)
    have hweighed := weighed hr
    have hbytes := hweighed.complete (fullyCompleted_iff.mp hcompleted).2.2.2.1
    rw [List.map_append, List.map_singleton] at hrows
    rw [hrows, rowBytes_concat] at hbytes
    rw [hsession, replace_same (hs.attended.retrying hretrying hw).2 hrows (by omega) hweighed.limit]
    exact ⟨hcompleted, rfl⟩

/-- Everything that stays after the disposal, over a run. -/
theorem run_disposed (hr : (bindings debug).Reachable b) (h : Disposed b)
    {actions : List SessionAction} (hrun : (bindings debug).run b actions = some b') :
    Disposed b' ∧ Stays b b' ∧ (b.session.fullyCompleted = true →
      b'.session.fullyCompleted = true ∧ b'.session.executions = b.session.executions) := by
  refine hr.run_induction (R := fun b b' => Disposed b → Disposed b' ∧ Stays b b' ∧
    (b.session.fullyCompleted = true →
      b'.session.fullyCompleted = true ∧ b'.session.executions = b.session.executions)) hrun
    (fun b h => ⟨h, ⟨rfl, rfl, rfl, rfl, rfl⟩, fun hc => ⟨hc, rfl⟩⟩)
    (fun b u action v hbu hu hstep h => ?_) h
  obtain ⟨hdisposed, hstays, hcompleted⟩ := hbu h
  obtain ⟨hdisposed', hstays'⟩ := hdisposed.step hu hstep
  refine ⟨hdisposed', ⟨hstays'.past.trans hstays.past,
    hstays'.initializations.trans hstays.initializations, hstays'.disposals.trans hstays.disposals,
    hstays'.disposal.trans hstays.disposal, hstays'.rows.trans hstays.rows⟩, fun hc => ?_⟩
  obtain ⟨hc', hrows⟩ := hcompleted hc
  obtain ⟨hc'', hrows'⟩ := hdisposed.completed hu hstep hc'
  exact ⟨hc'', hrows'.trans hrows⟩

theorem receipt_executions (debug : ThreadId → String) (s : BindingSession) :
    ∃ extra : List Json,
      (s.receipt debug).index "executions" =
        .array ((s.executions ++ extra).map (Json.toValue s.setup.serde)) ∧
      extra.length = if s.retained = true then 0 else s.execution.toList.length := by
  refine ⟨_, by simp [BindingSession.receipt, Assoc.get?]; rfl, ?_⟩
  cases s.retained with
  | true => rfl
  | false =>
    cases s.execution with
    | none => rfl
    | some w =>
      simp only [Bool.false_eq_true, if_false]
      split_ifs <;> rfl

/-- The receipts of the executions before the current one pass through `json!` as they are. -/
theorem past_toValue (h : Ledgered debug b.past b.session) :
    (b.past.map (World.receipt debug)).map (Json.toValue b.session.setup.serde) =
      b.past.map (World.receipt debug) := by
  rw [List.map_map]
  refine List.map_congr_left fun w hw => ?_
  rw [Function.comp_apply, ← (h.replaced w hw).2.1, World.receipt_toValue]

theorem rows_length (h : Ledgered debug b.past b.session) :
    b.session.executions.length +
      (if b.session.retained = true then 0 else b.session.execution.toList.length) =
        b.session.initializations := by
  rw [h.count]
  by_cases hretained : b.session.retained = true
  · obtain ⟨w, row, hw, hrows, -⟩ := h.retained hretained
    simp [hretained, hrows, hw]
  · simp [hretained, h.unretained (by simpa using hretained)]

end Steps

/-- The receipt of a session has one row for every execution that was started, in order, and every
row but the last is final. A session that is fully completed holds the receipts of executions that
have all passed, as they are now. The disposal is counted once; after it nothing changes what it has
returned, a failure of it rules full completion out for good, and full completion lasts. -/
theorem session_ledger {debug : ThreadId → String} {b : Binding}
    (h : (bindings debug).Reachable b) :
    (∃ rows, (b.session.receipt debug).index "executions" = .array rows ∧
      rows.length = b.session.initializations ∧ b.past.map (World.receipt debug) <+: rows) ∧
    b.session.executions.length +
      (if b.session.retained = true then 0 else b.session.execution.toList.length) =
        b.session.initializations ∧
    b.session.disposals = (if b.session.disposed = true then 1 else 0) ∧
    (b.call = none → b.session.fullyCompleted = true → ∃ w, b.session.execution = some w ∧
      b.session.executions = (b.past ++ [w]).map (World.receipt debug) ∧
        ∀ u ∈ b.past ++ [w], u.report.passed = true) ∧
    (b.call = none → b.session.disposed = true →
      ∀ actions b', (bindings debug).run b actions = some b' →
        Stays b b' ∧
        (∀ owner b'', (bindings debug).step b' (.dispose owner) = some b'' →
          b''.session = b'.session ∧ b''.returned = some b.session.disposal) ∧
        (succeeded b.session.disposal = false → b'.session.fullyCompleted = false) ∧
        (b.session.fullyCompleted = true → b'.session.fullyCompleted = true ∧
          b'.session.executions = b.session.executions)) := by
  have hs := sound h
  have hlength := rows_length hs.ledger
  refine ⟨?_, hlength, disposals_eq h, fun hcall hcompleted => ?_, fun hcall hdisposed => ?_⟩
  · obtain ⟨extra, hrows, hextra⟩ := receipt_executions debug b.session
    refine ⟨_, hrows, ?_, ?_⟩
    · rw [List.length_map, List.length_append, hextra, hlength]
    · rw [← past_toValue hs.ledger]
      exact (hs.ledger.past_prefix.trans (List.prefix_append _ _)).map _
  · exact rows_final h ⟨(fullyCompleted_iff.mp hcompleted).1, by simp [hcall]⟩ hcompleted
  · intro actions b' hrun
    obtain ⟨hdisposed', hstays, hcompleted⟩ := run_disposed h ⟨hdisposed, by simp [hcall]⟩ hrun
    refine ⟨hstays, fun owner b'' hstep => ?_, fun hfailed => ?_, hcompleted⟩
    · rw [← hstays.disposal]
      exact hdisposed'.dispose debug hstep
    · by_contra hcompleted'
      have hsucceeded := (fullyCompleted_iff.mp (by simpa using hcompleted')).2.2.1
      rw [hstays.disposal, hfailed] at hsucceeded
      cases hsucceeded

theorem session_ledger_solo : ∃ b w, (bindings toString).Reachable b ∧
    b.session.execution = some w ∧ b.session.fullyCompleted = true ∧
      b.session.executions = [w.receipt toString] := by
  obtain ⟨b, w, hrun, h⟩ := Solo.rests
  obtain ⟨b', hdispose, hcall, hdisposed, hcount, hdisposal, hcomplete, hrows⟩ := h.disposes
  have hr : (bindings toString).Reachable b := .run (.init ⟨_, _, rfl⟩) hrun
  rw [(h.first hr).2, List.nil_append] at hrows
  have hcompleted : b'.session.fullyCompleted = true := by
    refine fullyCompleted_iff.mpr ⟨hdisposed, by simp [hcount], hdisposal, hcomplete, ?_, ?_⟩
    · simp [hrows]
    · simpa [hrows, receipt_passed] using h.passed
  have hr' := hr.run hdispose
  obtain ⟨u, hu, hfinal, -⟩ := (session_ledger hr').2.2.2.1 hcall hcompleted
  have hpast : b'.past = [] := by
    have hlength := congrArg List.length hfinal
    simpa [hrows] using hlength
  exact ⟨b', u, hr', hu, hcompleted, by simpa [hpast] using hfinal⟩

end MirrorRust
