import MirrorRust.Binding.Bytes
import MirrorRust.Execution.Receipt

/-! A session starts an execution only when nothing is left of those before, and never again after
one that has failed. -/
namespace MirrorRust

def Blocked (s : BindingSession) : Prop :=
  s.disposed = true ∨ s.receiptComplete = false ∨ ∃ w, s.execution = some w ∧ Stuck w

/-- How many executions a session may have started. -/
structure Rationed (b : Binding) : Prop where
  bound : b.session.initializations ≤ 64
  finishing : ∀ refused, b.call = some (.finishing refused) → b.session.initializations < 64

section Steps
variable {debug : ThreadId → String} {b b' : Binding} {action : SessionAction}

theorem retain_incomplete (debug : ThreadId → String) {s : BindingSession} (h : s.receiptComplete = false) :
    (s.retain debug).receiptComplete = false := by
  unfold BindingSession.retain
  split_ifs
  · exact h
  · split
    · exact h
    · simp only
      split_ifs
      · rfl
      · exact h

theorem replace_incomplete {s : BindingSession} (h : s.receiptComplete = false) (w : World) :
    (s.replace debug w).receiptComplete = false := by
  unfold BindingSession.replace
  split
  · exact h
  · simp only
    split_ifs
    · exact h
    · rfl
    · exact h

theorem Stuck.goes {w w' : World} (h : Stuck w) (hr : execution.Reachable w) (hw : w.Goes w') :
    Stuck w' := by
  rcases hw with rfl | ⟨action, hw⟩
  · exact h
  · exact h.step hr hw

theorem Blocked.goes {s s' : BindingSession} (h : Blocked s)
    (hr : ∀ w, s.execution = some w → execution.Reachable w)
    (hgoes : Option.Rel World.Goes s.execution s'.execution)
    (hdisposed : s.disposed = true → s'.disposed = true)
    (hcomplete : s.receiptComplete = false → s'.receiptComplete = false) : Blocked s' := by
  rcases h with h | h | ⟨w, hw, hstuck⟩
  · exact Or.inl (hdisposed h)
  · exact Or.inr (Or.inl (hcomplete h))
  · rw [hw] at hgoes
    cases hgoes' : s'.execution with
    | none =>
      rw [hgoes'] at hgoes
      cases hgoes
    | some w' =>
      rw [hgoes'] at hgoes
      cases hgoes with
      | some hgoes => exact Or.inr (Or.inr ⟨w', hgoes', hstuck.goes (hr w hw) hgoes⟩)

/-- A step starts no execution, or it starts one after all others have passed. -/
theorem Sound.starts (hs : Sound debug b) (hstep : b.step debug action = some b') :
    (b'.session.initializations = b.session.initializations ∧ b'.past = b.past ∧
        (Blocked b.session → Blocked b'.session)) ∨
      (b'.session.initializations = b.session.initializations + 1 ∧ ¬ Blocked b.session ∧
        b'.past = b.past ++ b.session.execution.toList ∧ b'.call = some .starting ∧
        (b.session.initializations < 64 ∨ b.call = some (.finishing none))) := by
  have hr := fun w hw => (hs.ledger.current w hw).1
  obtain ⟨hexecution, hdisposed, -, hinitializations, -⟩ := BindingSession.retain_frame debug b.session
  have hretain := fun h : Blocked b.session => h.goes hr (hexecution.symm ▸ goes_refl _)
    (fun hd => hdisposed.trans hd) (retain_incomplete debug)
  cases hs.move hstep with
  | stays _ _ hgoes hsession hpast =>
    rw [hsession]
    exact Or.inl ⟨rfl, hpast, fun h => h.goes hr hgoes id id⟩
  | disposes _ _ _ hsession hpast =>
    rw [hsession]
    exact Or.inl ⟨rfl, hpast, fun _ => Or.inl rfl⟩
  | retains w hw _ _ hsession hpast =>
    rw [hsession]
    exact Or.inl ⟨hinitializations, hpast, hretain⟩
  | settles w refused hw _ hsession hpast =>
    obtain ⟨disposal, heq, -⟩ := BindingSession.settle_spec debug b.session w refused
    rw [hsession, heq]
    exact Or.inl ⟨hinitializations, hpast, hretain⟩
  | replaces w _ _ _ hw _ _ hsession hpast =>
    obtain ⟨hexecution, hdisposed, -, -, hinitializations, -⟩ :=
      BindingSession.replace_frame debug b.session w
    rw [hsession]
    exact Or.inl ⟨hinitializations, hpast, fun h => h.goes hr (hexecution.symm ▸ goes_refl _)
      (fun hd => hdisposed.trans hd) fun hc => replace_incomplete hc w⟩
  | starts _ _ hw hopen hbound hsession hpast hstarting =>
    refine Or.inr ⟨by rw [hsession]; rfl, ?_, by rw [hpast, hw]; simp, hstarting, Or.inl hbound⟩
    rintro (h | h | ⟨w, hw', -⟩)
    · exact Bool.false_ne_true (hopen.symm.trans h)
    · obtain ⟨w, -, hw', -⟩ := hs.ledger.retained (hs.ledger.complete h)
      exact absurd (hw.symm.trans hw') (by simp)
    · exact absurd (hw.symm.trans hw') (by simp)
  | restarts w _ _ hw hcall hpassed hcomplete hsession hpast hstarting =>
    refine Or.inr ⟨by rw [hsession]; exact congrArg (· + 1) hinitializations, ?_,
      by rw [hpast, hw]; rfl, hstarting, Or.inr hcall⟩
    rintro (h | h | ⟨u, hu, hstuck⟩)
    · exact (hs.attended.closed h).1 none hcall
    · exact Bool.false_ne_true ((retain_incomplete debug h).symm.trans hcomplete)
    · obtain rfl : u = w := Option.some.inj (hu.symm.trans hw)
      exact Bool.false_ne_true (hstuck.passed.symm.trans hpassed)

theorem rationed (h : (bindings debug).Reachable b) : Rationed b := by
  refine h.invariant (fun b hb => ?_) fun b action b' hr hb hstep => ?_
  · obtain ⟨setup, cancel, rfl⟩ := hb
    exact ⟨Nat.zero_le _, fun refused hcall => by cases hcall⟩
  rcases (sound hr).starts hstep with ⟨hsame, -⟩ |
    ⟨hmore, -, -, hstarting, hbound⟩
  · refine ⟨hsame ▸ hb.bound, fun refused hcall => ?_⟩
    rw [hsame]
    cases hcall ▸ Binding.step_call hstep with
    | same hcall => exact hb.finishing refused hcall
    | finishing _ hbound => exact hbound
  · have hlt : b.session.initializations < 64 := hbound.elim id (hb.finishing none)
    refine ⟨by omega, fun refused hcall => ?_⟩
    rw [hstarting] at hcall
    cases hcall

theorem run_blocked (hr : (bindings debug).Reachable b) (h : Blocked b.session)
    {actions : List SessionAction} (hrun : (bindings debug).run b actions = some b') :
    Blocked b'.session ∧ b'.session.initializations = b.session.initializations ∧
      b'.past = b.past := by
  refine hr.run_induction (R := fun b b' => Blocked b.session → Blocked b'.session ∧
    b'.session.initializations = b.session.initializations ∧ b'.past = b.past) hrun
    (fun _ h => ⟨h, rfl, rfl⟩) (fun b u action v hbu hu hstep h => ?_) h
  obtain ⟨hblocked, hinitializations, hpast⟩ := hbu h
  rcases (sound hu).starts hstep with ⟨hsame, hpast', hkept⟩ | ⟨-, hopen, -⟩
  · exact ⟨hkept hblocked, hsame.trans hinitializations, hpast'.trans hpast⟩
  · exact absurd hblocked hopen

end Steps

/-- At most 64 executions are started in a session. Each of them starts when every one before it has
passed, with its workers ended and joined, its program torn down once and its receipt kept; after an
execution that has failed, a receipt that was too long or the disposal no other is ever started. -/
theorem session_barrier {debug : ThreadId → String} {b : Binding}
    (h : (bindings debug).Reachable b) :
    b.session.initializations ≤ 64 ∧
    b.session.initializations = b.past.length + b.session.execution.toList.length ∧
    (∀ w ∈ b.past, w.report.passed = true ∧
      (∀ t ∈ w.threads, t.handle = false ∧ t.isFinished = true) ∧ w.teardowns = [.ok ()]) ∧
    b.past.map (World.receipt debug) <+: b.session.executions ∧
    (∀ action b', (bindings debug).step b action = some b' →
      (b'.session.initializations = b.session.initializations ∧ b'.past = b.past) ∨
        (b'.session.initializations = b.session.initializations + 1 ∧
          b'.past = b.past ++ b.session.execution.toList ∧ ¬ Blocked b.session)) ∧
    (Blocked b.session → ∀ actions b', (bindings debug).run b actions = some b' →
      b'.session.initializations = b.session.initializations ∧ b'.past = b.past) := by
  have hs := sound h
  refine ⟨(rationed h).bound, hs.ledger.count, fun w hw => ?_, hs.ledger.past_prefix,
    fun action b' hstep => ?_,
    fun hblocked actions b' hrun => (run_blocked h hblocked hrun).2⟩
  · obtain ⟨hr, -, hpassed⟩ := hs.ledger.replaced w hw
    have hcleanup : w.report.cleanup = .confirmed := by
      simp only [Report.passed, Bool.and_eq_true, decide_eq_true_eq] at hpassed
      exact hpassed.2
    exact ⟨hpassed, taken_apart hr hcleanup⟩
  · rcases hs.starts hstep with ⟨hsame, hpast, -⟩ | ⟨hmore, hopen, hpast, -⟩
    · exact Or.inl ⟨hsame, hpast⟩
    · exact Or.inr ⟨hmore, hpast, hopen⟩

/-- After an execution that has passed and one that was given up no other is started. -/
theorem session_barrier_two : ∃ b u, (bindings toString).Reachable b ∧
    b.session.initializations = 2 ∧ b.past = [u] ∧ u.report.passed = true ∧ u.teardowns = [.ok ()] ∧
    ∀ actions b', (bindings toString).run b actions = some b' →
      b'.session.initializations = 2 ∧ b'.past = [u] := by
  obtain ⟨_, b, u, v, hrun, -, hdisposed, hcount, hpast, -⟩ := Solo.two
  have hr : (bindings toString).Reachable b := .run (.init ⟨_, _, rfl⟩) hrun
  obtain ⟨-, -, hpassed, -, -, hblocked⟩ := session_barrier hr
  have hu : u ∈ b.past := hpast ▸ List.mem_singleton_self u
  refine ⟨b, u, hr, hcount, hpast, (hpassed u hu).1, (hpassed u hu).2.2, fun actions b' hb' => ?_⟩
  obtain ⟨hcount', hpast'⟩ := hblocked (Or.inl hdisposed) actions b' hb'
  exact ⟨hcount'.trans hcount, hpast'.trans hpast⟩

end MirrorRust
