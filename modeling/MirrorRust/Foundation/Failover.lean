import Mathlib

/-! Attempts that are made one after the other until one succeeds. -/
namespace MirrorRust

variable {C ε σ T : Type} (attempt : C → σ → Except ε T × σ)

/-- One after the other, every attempt fails. -/
inductive AllFail : List C → σ → σ → Prop
  | nil (w : σ) : AllFail [] w w
  | cons {c : C} {cs : List C} {w w' w'' : σ} {e : ε} (hfails : attempt c w = (.error e, w'))
      (hrest : AllFail cs w' w'') : AllFail (c :: cs) w w''

/-- The attempts before some candidate fail, and that one succeeds. -/
def FirstSucceeds (cs : List C) (w : σ) (t : T) (w' : σ) : Prop :=
  ∃ before c after w₁, cs = before ++ c :: after ∧ AllFail attempt before w w₁ ∧
    attempt c w₁ = (.ok t, w')

variable {attempt}

theorem firstSucceeds_cons_ok {c : C} {cs : List C} {w w' w'' : σ} {t u : T}
    (hc : attempt c w = (.ok t, w')) : FirstSucceeds attempt (c :: cs) w u w'' ↔ t = u ∧ w' = w'' := by
  constructor
  · rintro ⟨before, d, after, w₁, hcs, hfail, hd⟩
    cases hfail with
    | nil =>
      cases hcs
      rw [hc] at hd
      cases hd
      exact ⟨rfl, rfl⟩
    | cons hfails =>
      cases hcs
      rw [hc] at hfails
      cases hfails
  · rintro ⟨rfl, rfl⟩
    exact ⟨[], c, cs, w, rfl, .nil w, hc⟩

theorem firstSucceeds_cons_error {c : C} {cs : List C} {w w' w'' : σ} {e : ε} {t : T}
    (hc : attempt c w = (.error e, w')) :
    FirstSucceeds attempt (c :: cs) w t w'' ↔ FirstSucceeds attempt cs w' t w'' := by
  constructor
  · rintro ⟨before, d, after, w₁, hcs, hfail, hd⟩
    cases hfail with
    | nil =>
      cases hcs
      rw [hc] at hd
      cases hd
    | cons hfails hrest =>
      cases hcs
      rw [hc] at hfails
      cases hfails
      exact ⟨_, d, after, w₁, rfl, hrest, hd⟩
  · rintro ⟨before, d, after, w₁, rfl, hfail, hd⟩
    exact ⟨c :: before, d, after, w₁, rfl, .cons hc hfail, hd⟩

theorem allFail_cons_ok {c : C} {cs : List C} {w w' w'' : σ} {t : T}
    (hc : attempt c w = (.ok t, w')) : ¬ AllFail attempt (c :: cs) w w'' := by
  intro h
  cases h with
  | cons hfails =>
    rw [hc] at hfails
    cases hfails

theorem allFail_cons_error {c : C} {cs : List C} {w w' w'' : σ} {e : ε}
    (hc : attempt c w = (.error e, w')) :
    AllFail attempt (c :: cs) w w'' ↔ AllFail attempt cs w' w'' := by
  constructor
  · intro h
    cases h with
    | cons hfails hrest =>
      rw [hc] at hfails
      cases hfails
      exact hrest
  · exact .cons hc

end MirrorRust
