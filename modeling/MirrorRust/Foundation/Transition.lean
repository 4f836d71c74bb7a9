import Mathlib

/-! Labelled transition systems with a guarded step function: reachable states,
runs, invariants, and projections of one system onto another. -/
namespace MirrorRust

structure TransitionSystem (σ α : Type*) where
  init : σ → Prop
  step : σ → α → Option σ

namespace TransitionSystem
variable {σ α τ β : Type*} (T : TransitionSystem σ α)

inductive Reachable : σ → Prop
  | init {s} : T.init s → Reachable s
  | step {s a t} : Reachable s → T.step s a = some t → Reachable t

def run (s : σ) : List α → Option σ
  | [] => some s
  | a :: as => (T.step s a).bind fun t => run t as

variable {T}

/-- What holds initially and is kept by every step from a reachable state holds of every
reachable state. -/
theorem Reachable.invariant {P : σ → Prop} {s : σ} (h : T.Reachable s)
    (hinit : ∀ s, T.init s → P s)
    (hstep : ∀ s a t, T.Reachable s → P s → T.step s a = some t → P t) : P s := by
  induction h with
  | init hs => exact hinit _ hs
  | step hs ht ih => exact hstep _ _ _ hs ih ht

theorem run_cons {s t : σ} {a : α} {as : List α} :
    T.run s (a :: as) = some t ↔ ∃ u, T.step s a = some u ∧ T.run u as = some t :=
  Option.bind_eq_some_iff

theorem run_append {s t u : σ} {as bs : List α} (ht : T.run s as = some t)
    (hu : T.run t bs = some u) : T.run s (as ++ bs) = some u := by
  induction as generalizing s with
  | nil =>
    cases ht
    exact hu
  | cons a as ih =>
    obtain ⟨v, hv, ht⟩ := run_cons.mp ht
    exact run_cons.mpr ⟨v, hv, ih ht⟩

theorem run_concat {s t u : σ} {a : α} {as : List α} (ht : T.run s as = some t)
    (hu : T.step t a = some u) : T.run s (as ++ [a]) = some u :=
  run_append ht (run_cons.mpr ⟨u, hu, rfl⟩)

theorem Reachable.run {s t : σ} (h : T.Reachable s) {as : List α} (ht : T.run s as = some t) :
    T.Reachable t := by
  induction as generalizing s with
  | nil =>
    cases ht
    exact h
  | cons a as ih =>
    obtain ⟨u, hu, ht⟩ := run_cons.mp ht
    exact ih (h.step hu) ht

/-- A relation between states that every step keeps holds between the ends of a run. -/
theorem Reachable.run_induction {R : σ → σ → Prop} {s t : σ} (h : T.Reachable s) {as : List α}
    (ht : T.run s as = some t) (hrefl : ∀ s, R s s)
    (hstep : ∀ s u a t, R s u → T.Reachable u → T.step u a = some t → R s t) : R s t := by
  have key : ∀ (as : List α) (u : σ), T.Reachable u → R s u → T.run u as = some t → R s t := by
    intro as
    induction as with
    | nil =>
      intro u _ hu ht
      cases ht
      exact hu
    | cons a as ih =>
      intro u hru hu ht
      obtain ⟨v, hv, ht⟩ := run_cons.mp ht
      exact ih v (hru.step hv) (hstep s u a v hu hru hv) ht
  exact key as s h (hrefl s) ht

def total {M : Type*} [AddMonoid M] (T : TransitionSystem σ α) (cost : σ → α → M) (s : σ) :
    List α → M
  | [] => 0
  | a :: as => cost s a + (T.step s a).elim 0 fun t => T.total cost t as

/-- A quantity that every step changes by its cost changes by the total in a run. The steps
may be those up to a state that `P` holds of. -/
theorem run_total {M : Type*} [AddMonoid M] {cost : σ → α → M} {φ : σ → M} {P : σ → Prop}
    (hback : ∀ s a t, T.step s a = some t → P t → P s)
    (hstep : ∀ s a t, T.step s a = some t → P t → φ t = φ s + cost s a) {s t : σ} {as : List α}
    (ht : T.run s as = some t) (hP : P t) : P s ∧ φ t = φ s + T.total cost s as := by
  induction as generalizing s with
  | nil =>
    cases ht
    exact ⟨hP, (add_zero _).symm⟩
  | cons a as ih =>
    obtain ⟨u, hu, ht⟩ := run_cons.mp ht
    obtain ⟨hPu, hφ⟩ := ih ht
    refine ⟨hback s a u hu hPu, ?_⟩
    rw [hφ, hstep s a u hu hPu, total, hu, add_assoc]
    rfl

def restrict (T : TransitionSystem σ α) (P : σ → α → Prop) [∀ s a, Decidable (P s a)] :
    TransitionSystem σ α where
  init := T.init
  step s a := if P s a then T.step s a else none

section Restrict
variable {P : σ → α → Prop} [∀ s a, Decidable (P s a)] {s t : σ}

theorem restrict_step {a : α} : (T.restrict P).step s a = some t ↔ P s a ∧ T.step s a = some t :=
  Option.ite_none_right_eq_some

theorem Reachable.of_restrict (h : (T.restrict P).Reachable s) : T.Reachable s := by
  induction h with
  | init hs => exact .init hs
  | step _ ht ih => exact ih.step (restrict_step.mp ht).2

/-- A run goes on under the condition, or there is a first step that misses it. -/
theorem restrict_run_or {as : List α} (h : T.run s as = some t) :
    (T.restrict P).run s as = some t ∨ ∃ before a after u v, as = before ++ a :: after ∧
      (T.restrict P).run s before = some u ∧ ¬ P u a ∧ T.step u a = some v ∧
        T.run v after = some t := by
  induction as generalizing s with
  | nil => exact Or.inl h
  | cons a as ih =>
    obtain ⟨u, hu, hrest⟩ := run_cons.mp h
    by_cases ha : P s a
    · have hstep : (T.restrict P).step s a = some u := restrict_step.mpr ⟨ha, hu⟩
      rcases ih hrest with hrun | ⟨before, b, after, v, w, rfl, hbefore, hb, hw, hafter⟩
      · exact Or.inl (run_cons.mpr ⟨u, hstep, hrun⟩)
      · exact Or.inr ⟨a :: before, b, after, v, w, rfl, run_cons.mpr ⟨u, hstep, hbefore⟩, hb, hw,
          hafter⟩
    · exact Or.inr ⟨[], a, as, s, u, rfl, rfl, ha, hu, hrest⟩

end Restrict

section Descends
variable [Preorder β] [WellFoundedLT β] {rank : σ → β} {s : σ}

/-- A step leaves a state alone or lowers its rank. -/
def Descends (T : TransitionSystem σ α) (rank : σ → β) : Prop :=
  ∀ s a t, T.Reachable s → T.step s a = some t → t = s ∨ rank t < rank s

omit [WellFoundedLT β] in
theorem Descends.lt (h : T.Descends rank) (hs : T.Reachable s) {a : α} {t : σ}
    (ht : T.step s a = some t) (hne : t ≠ s) : rank t < rank s :=
  (h s a t hs ht).resolve_left hne

/-- No run changes its state for ever. -/
theorem Descends.finite (h : T.Descends rank) : ¬ ∃ f : ℕ → σ, T.Reachable (f 0) ∧
    ∀ n, f (n + 1) ≠ f n ∧ ∃ a, T.step (f n) a = some (f (n + 1)) := by
  rintro ⟨f, hinit, hstep⟩
  have hreachable : ∀ n, T.Reachable (f n) := by
    intro n
    induction n with
    | zero => exact hinit
    | succ n ih =>
      obtain ⟨-, a, ha⟩ := hstep n
      exact ih.step ha
  refine not_strictAnti_of_wellFoundedLT (rank ∘ f) (strictAnti_nat_of_succ_lt fun n => ?_)
  obtain ⟨hne, a, ha⟩ := hstep n
  exact h.lt (hreachable n) ha hne

theorem Descends.reaches (h : T.Descends rank) {goal : σ → Prop}
    (henabled : ∀ s, T.Reachable s → ¬ goal s → ∃ a t, T.step s a = some t ∧ t ≠ s)
    (hs : T.Reachable s) : ∃ as t, T.run s as = some t ∧ goal t := by
  induction hrank : rank s using WellFoundedLT.induction generalizing s with
  | _ r ih =>
    by_cases hgoal : goal s
    · exact ⟨[], s, rfl, hgoal⟩
    · obtain ⟨a, t, ht, hne⟩ := henabled s hs hgoal
      obtain ⟨as, u, hu, hgoal⟩ := ih (rank t) (hrank ▸ h.lt hs ht hne) (hs.step ht) rfl
      exact ⟨a :: as, u, run_cons.mpr ⟨t, ht, hu⟩, hgoal⟩

end Descends

/-- The states of `U` carry states of `T`: a step of `U` is a step of `T` or leaves the
carried state alone. -/
structure Projects (U : TransitionSystem τ β) (T : TransitionSystem σ α) (f : τ → σ) : Prop where
  init : ∀ s, U.init s → T.init (f s)
  step : ∀ s b t, U.step s b = some t → f t = f s ∨ ∃ a, T.step (f s) a = some (f t)

theorem Projects.reachable {U : TransitionSystem τ β} {f : τ → σ} (hf : Projects U T f) {s : τ}
    (h : U.Reachable s) : T.Reachable (f s) := by
  induction h with
  | init hs => exact .init (hf.init _ hs)
  | step _ ht ih =>
    rcases hf.step _ _ _ ht with heq | ⟨a, ha⟩
    · rwa [heq]
    · exact ih.step ha

/-- A run carries a run. -/
theorem Projects.run {U : TransitionSystem τ β} {f : τ → σ} (hf : Projects U T f) {s t : τ}
    {bs : List β} (h : U.run s bs = some t) : ∃ as, T.run (f s) as = some (f t) := by
  induction bs generalizing s with
  | nil =>
    cases h
    exact ⟨[], rfl⟩
  | cons b bs ih =>
    obtain ⟨u, hu, ht⟩ := run_cons.mp h
    obtain ⟨as, has⟩ := ih ht
    rcases hf.step _ _ _ hu with heq | ⟨a, ha⟩
    · exact ⟨as, heq ▸ has⟩
    · exact ⟨a :: as, run_cons.mpr ⟨f u, ha, has⟩⟩

end TransitionSystem
end MirrorRust
