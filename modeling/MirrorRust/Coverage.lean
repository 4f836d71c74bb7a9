import MirrorRust.Evaluation

/-! The coverage of a campaign stands for the walks that have been recorded: its states are their
keys, and it counts their steps. -/
namespace MirrorRust

/-! ### Walks -/

section Walk
variable {α : Type*} [DecidableEq α]

/-- How often a walk steps from one place to another. -/
def steps (w : List α) (a b : α) : ℕ := (w.zip w.tail).count (a, b)

def transitions (walks : List (List α)) (a b : α) : ℕ := (walks.map fun w => steps w a b).sum

@[simp] theorem steps_nil (a b : α) : steps [] a b = 0 := rfl

@[simp] theorem steps_singleton (k a b : α) : steps [k] a b = 0 := rfl

theorem steps_cons_cons (k l : α) (w : List α) (a b : α) :
    steps (k :: l :: w) a b = steps (l :: w) a b + if k = a ∧ l = b then 1 else 0 := by
  simp [steps, List.count_cons]

theorem steps_concat {w : List α} {k : α} (hk : w.getLast? = some k) (l a b : α) :
    steps (w ++ [l]) a b = steps w a b + if k = a ∧ l = b then 1 else 0 := by
  induction w with
  | nil => cases hk
  | cons m w ih =>
    cases w with
    | nil =>
      obtain rfl : m = k := by simpa using hk
      simp [steps_cons_cons]
    | cons n w =>
      have hlast : (n :: w).getLast? = some k := by simpa using hk
      rw [List.cons_append, List.cons_append, steps_cons_cons, steps_cons_cons,
        ← List.cons_append, ih hlast]
      omega

theorem transitions_concat (walks : List (List α)) (w : List α) (a b : α) :
    transitions (walks ++ [w]) a b = transitions walks a b + steps w a b := by
  simp [transitions]

theorem steps_mem {w : List α} {a b : α} (h : steps w a b ≠ 0) : a ∈ w ∧ b ∈ w := by
  have hmem : (a, b) ∈ w.zip w.tail := List.count_pos_iff.mp (Nat.pos_of_ne_zero h)
  have hin := List.of_mem_zip hmem
  exact ⟨hin.1, List.mem_of_mem_tail hin.2⟩

theorem transitions_mem {walks : List (List α)} {a b : α} (h : transitions walks a b ≠ 0) :
    (∃ w ∈ walks, a ∈ w) ∧ ∃ w ∈ walks, b ∈ w := by
  have hsome : ∃ w ∈ walks, steps w a b ≠ 0 := by
    by_contra hnone
    push Not at hnone
    exact h (List.sum_eq_zero_iff.mpr (by simpa using hnone))
  obtain ⟨w, hw, hne⟩ := hsome
  exact ⟨⟨w, hw, (steps_mem hne).1⟩, w, hw, (steps_mem hne).2⟩

end Walk

/-! ### Tables -/

namespace Coverage

/-- The tables of a coverage with these keys in the order of their ids, against the walks that have
been recorded. -/
structure Covers (c : Coverage) (names : List String) (walks : List (List String)) : Prop where
  rows : c.rows = names.mapIdx fun i key => ⟨i, key⟩
  distinct : names.Nodup
  sorted : Assoc.Sorted c.states
  states : ∀ key id, Assoc.get? key c.states = some id ↔ names[id]? = some key
  length : c.states.length = names.length
  keys : ∀ key, key ∈ names ↔ ∃ w ∈ walks, key ∈ w
  edges : Assoc.Sorted c.edges
  ends : ∀ i j n, Assoc.get? (toLex (i, j)) c.edges = some n → i < names.length ∧ j < names.length
  counts : ∀ i j a b, names[i]? = some a → names[j]? = some b →
    (Assoc.get? (toLex (i, j)) c.edges).getD 0 = transitions walks a b

theorem covers_empty : empty.Covers [] [] := by
  refine ⟨rfl, List.nodup_nil, List.Pairwise.nil, ?_, rfl, ?_, List.Pairwise.nil, ?_, ?_⟩
  all_goals simp [empty]

namespace Covers
variable {c : Coverage} {names : List String} {walks : List (List String)}
  (h : c.Covers names walks)
include h

/-- Walks with the same places and steps are covered alike. -/
theorem congr {others : List (List String)}
    (hkeys : ∀ key, (∃ w ∈ walks, key ∈ w) ↔ ∃ w ∈ others, key ∈ w)
    (hsteps : ∀ a b, transitions walks a b = transitions others a b) : c.Covers names others :=
  { h with
    keys := fun key => (h.keys key).trans (hkeys key)
    counts := fun i j a b hi hj => (h.counts i j a b hi hj).trans (hsteps a b) }

theorem spend (n : ℕ) : { c with bytes := n }.Covers names walks := { h with }

theorem fresh {key : String} (hnew : Assoc.get? key c.states = none) : key ∉ names := by
  intro hmem
  obtain ⟨i, hi⟩ := List.getElem?_of_mem hmem
  rw [(h.states key i).mpr hi] at hnew
  cases hnew

/-- A new state gets the next id. -/
theorem push {key : String} (hnew : Assoc.get? key c.states = none) (n : ℕ) :
    (⟨n, Assoc.insert key c.states.length c.states, c.rows ++ [⟨c.states.length, key⟩], c.edges⟩ :
      Coverage).Covers (names ++ [key]) (walks ++ [[key]]) := by
  have hfresh := h.fresh hnew
  have hget : ∀ i k, (names ++ [key])[i]? = some k ↔
      names[i]? = some k ∨ (i = names.length ∧ k = key) := by
    intro i k
    rw [List.getElem?_append]
    split_ifs with hlt
    · have hne : i ≠ names.length := hlt.ne
      simp [hne]
    · have hnone : names[i]? = none := List.getElem?_eq_none_iff.mpr (not_lt.mp hlt)
      rw [hnone, List.getElem?_singleton]
      split_ifs with hi
      · have heq : i = names.length := by omega
        simp [heq, eq_comm]
      · have hne : i ≠ names.length := by omega
        simp [hne]
  have htransitions : ∀ a b, transitions (walks ++ [[key]]) a b = transitions walks a b := by
    intro a b
    rw [transitions_concat, steps_singleton, Nat.add_zero]
  -- nothing has led to the new state or away from it
  have hedge : ∀ {i j}, names.length ≤ i ∨ names.length ≤ j →
      (Assoc.get? (toLex (i, j)) c.edges).getD 0 = 0 := by
    intro i j hij
    cases he : Assoc.get? (toLex (i, j)) c.edges with
    | none => rfl
    | some m =>
      have hends := h.ends i j m he
      omega
  have hnone : ∀ {a b}, a = key ∨ b = key → transitions walks a b = 0 := by
    intro a b hab
    by_contra hne
    obtain ⟨ha, hb⟩ := transitions_mem hne
    rcases hab with rfl | rfl
    · exact hfresh ((h.keys _).mpr ha)
    · exact hfresh ((h.keys _).mpr hb)
  refine ⟨?_, ?_, Assoc.insert_sorted h.sorted, fun k id => ?_, ?_, fun k => ?_, h.edges,
    fun i j m he => ?_, fun i j a b hi hj => ?_⟩
  · rw [List.mapIdx_concat, ← h.rows, h.length]
  · refine List.nodup_append.mpr ⟨h.distinct, List.nodup_singleton _, fun k hk l hl heq => ?_⟩
    exact hfresh (List.mem_singleton.mp hl ▸ heq ▸ hk)
  · rw [Assoc.get?_insert, hget, h.length]
    split_ifs with hk
    · subst hk
      constructor
      · intro hid
        exact Or.inr ⟨(Option.some.inj hid).symm, rfl⟩
      · rintro (hid | ⟨rfl, -⟩)
        · exact absurd (List.mem_of_getElem? hid) hfresh
        · rfl
    · simp [h.states, hk]
  · rw [Assoc.length_insert_new hnew, List.length_append, List.length_singleton, h.length]
  · rw [List.mem_append, List.mem_singleton, h.keys]
    simp [or_and_right, exists_or]
  · obtain ⟨hi, hj⟩ := h.ends i j m he
    rw [List.length_append]
    exact ⟨by omega, by omega⟩
  · rw [htransitions]
    rcases (hget i a).mp hi with hi | ⟨rfl, rfl⟩ <;> rcases (hget j b).mp hj with hj | ⟨rfl, rfl⟩
    · exact h.counts i j a b hi hj
    · exact (hedge (Or.inr le_rfl)).trans (hnone (Or.inr rfl)).symm
    · exact (hedge (Or.inl le_rfl)).trans (hnone (Or.inl rfl)).symm
    · exact (hedge (Or.inl le_rfl)).trans (hnone (Or.inl rfl)).symm

/-- One more step of the last walk. -/
theorem step {w : List String} {a key : String} {i j : ℕ} (hi : names[i]? = some a)
    (hj : names[j]? = some key) (hlast : w.getLast? = some a) (n : ℕ) :
    ∀ others, walks = others ++ [w] ++ [[key]] →
      (⟨n, c.states, c.rows, Assoc.insert (toLex (i, j))
        ((Assoc.get? (toLex (i, j)) c.edges).getD 0 + 1) c.edges⟩ : Coverage).Covers names
        (others ++ [w ++ [key]]) := by
  rintro others rfl
  have hindex : ∀ {k l : ℕ} {b : String}, names[k]? = some b → names[l]? = some b → k = l := by
    intro k l b hk hl
    exact (List.getElem?_inj (List.getElem?_eq_some_iff.mp hk).1 h.distinct).mp (hk.trans hl.symm)
  refine ⟨h.rows, h.distinct, h.sorted, h.states, h.length, fun k => ?_,
    Assoc.insert_sorted h.edges, fun k l m he => ?_, fun k l b d hk hl => ?_⟩
  · rw [h.keys]
    simp [or_and_right, exists_or]
  · rw [Assoc.get?_insert] at he
    split_ifs at he with heq
    · obtain ⟨rfl, rfl⟩ := Prod.mk.inj (toLex.injective heq)
      exact ⟨(List.getElem?_eq_some_iff.mp hi).1, (List.getElem?_eq_some_iff.mp hj).1⟩
    · exact h.ends k l m he
  · have hcount := h.counts k l b d hk hl
    rw [transitions_concat, transitions_concat, steps_singleton, Nat.add_zero] at hcount
    rw [Assoc.get?_insert, transitions_concat, steps_concat hlast]
    by_cases heq : toLex (k, l) = toLex (i, j)
    · obtain ⟨rfl, rfl⟩ := Prod.mk.inj (toLex.injective heq)
      obtain rfl : b = a := Option.some.inj (hk.symm.trans hi)
      obtain rfl : d = key := Option.some.inj (hl.symm.trans hj)
      rw [if_pos rfl, if_pos ⟨rfl, rfl⟩, Option.getD_some, hcount, Nat.add_assoc]
    · have hne : ¬ (a = b ∧ key = d) := by
        rintro ⟨rfl, rfl⟩
        exact heq (by rw [hindex hk hi, hindex hl hj])
      rw [if_neg heq, if_neg hne, hcount, Nat.add_zero]

/-! ### Recording -/

theorem enter (key : String) :
    (∃ c' id names', c.enter key = (c', .ok id) ∧ c'.Covers names' (walks ++ [[key]]) ∧
        names <+: names' ∧ names'[id]? = some key) ∨
      ∃ c', c.enter key = (c', .error exceeded) ∧ c'.Covers names walks := by
  rw [Coverage.enter]
  cases hget : Assoc.get? key c.states with
  | some id =>
    have hid := (h.states key id).mp hget
    refine Or.inl ⟨c, id, names, rfl, h.congr (fun k => ?_) fun a b => ?_, List.prefix_rfl, hid⟩
    · have hknown := (h.keys key).mp (List.mem_of_getElem? hid)
      simp only [List.mem_append, List.mem_singleton, or_and_right, exists_or, exists_eq_left]
      constructor
      · exact Or.inl
      · rintro (hk | rfl)
        · exact hk
        · exact hknown
    · rw [transitions_concat, steps_singleton, Nat.add_zero]
  | none =>
    simp only
    split_ifs
    · refine Or.inl ⟨_, _, _, rfl, h.push hget _, List.prefix_append _ _, ?_⟩
      rw [h.length, List.getElem?_append_right le_rfl, Nat.sub_self]
      rfl
    · exact Or.inr ⟨_, rfl, h.spend _⟩

end Covers

/-- The last walk ends at the prior state, or it has not begun. -/
def Stands (names : List String) (w : List String) : Option ℕ → Prop
  | none => w = []
  | some id => ∃ a, w.getLast? = some a ∧ names[id]? = some a

theorem Covers.visit {c : Coverage} {names : List String} {walks : List (List String)}
    {w : List String} {prior : Option ℕ} (h : c.Covers names (walks ++ [w]))
    (hprior : Stands names w prior) (key : String) :
    (∃ c' id names', c.visit prior key = (c', .ok id) ∧ c'.Covers names' (walks ++ [w ++ [key]]) ∧
        Stands names' (w ++ [key]) (some id)) ∨
      ∃ c' names', c.visit prior key = (c', .error exceeded) ∧
        c'.Covers names' (walks ++ [w] ++ if (c.enter key).2.isOk then [[key]] else []) := by
  rw [Coverage.visit]
  rcases h.enter key with ⟨c', id, names', heq, hc, hprefix, hid⟩ | ⟨c', heq, hc⟩
  · rw [heq]
    have hstands : Stands names' (w ++ [key]) (some id) := ⟨key, by simp, hid⟩
    cases prior with
    | none =>
      obtain rfl : w = [] := hprior
      refine Or.inl ⟨c', id, names', rfl, hc.congr (fun k => ?_) fun a b => ?_, hstands⟩
      · simp [or_and_right, exists_or]
      · simp [transitions]
    | some source =>
      obtain ⟨a, hlast, hsource⟩ := hprior
      have hsource' : names'[source]? = some a := by
        obtain ⟨rest, rfl⟩ := hprefix
        exact (List.getElem?_append_left (List.getElem?_eq_some_iff.mp hsource).1).trans hsource
      simp only [connect]
      cases hedge : Assoc.get? (toLex (source, id)) c'.edges with
      | some count =>
        have hstep := hc.step hsource' hid hlast c'.bytes walks rfl
        rw [hedge, Option.getD_some] at hstep
        exact Or.inl ⟨_, id, names', rfl, hstep, hstands⟩
      | none =>
        by_cases hroom : c'.bytes + 128 ≤ limit
        · have hstep := hc.step hsource' hid hlast (c'.bytes + 128) walks rfl
          rw [hedge, Option.getD_none] at hstep
          simp only [hroom, if_true]
          exact Or.inl ⟨_, id, names', rfl, hstep, hstands⟩
        · simp only [hroom, if_false]
          exact Or.inr ⟨_, names', rfl, hc.spend _⟩
  · rw [heq]
    exact Or.inr ⟨c', names, rfl, by simpa [Except.isOk, Except.toBool] using hc⟩

section Observe
variable (project : ℕ → Json → Except (Fault String) String)

/-- The keys of the observations from position `i`, up to the first that has none. -/
def keysFrom : ℕ → List Json → List String
  | _, [] => []
  | i, observation :: observations =>
    match project i observation with
    | .error _ => []
    | .ok key => key :: keysFrom (i + 1) observations

/-- The keys of the observations that a coverage takes, and the state of the next one when it has
been entered and its step does not fit. -/
def stored : ℕ → Option ℕ → List Json → Coverage → List String × List (List String)
  | _, _, [], _ => ([], [])
  | i, prior, observation :: observations, c =>
    match project i observation with
    | .error _ => ([], [])
    | .ok key =>
      match c.visit prior key with
      | (_, .error _) => ([], if (c.enter key).2.isOk then [[key]] else [])
      | (c, .ok id) =>
        let rest := stored (i + 1) (some id) observations c
        (key :: rest.1, rest.2)

variable {project}

theorem Covers.observe {observations : List Json} {c : Coverage} {names : List String}
    {walks : List (List String)} {w : List String} {i : ℕ} {prior : Option ℕ}
    (h : c.Covers names (walks ++ [w])) (hprior : Stands names w prior) :
    ∃ names', (c.observe project i prior observations).1.Covers names'
      (walks ++ [w ++ (stored project i prior observations c).1] ++
        (stored project i prior observations c).2) := by
  induction observations generalizing c names w i prior with
  | nil => exact ⟨names, by simpa [Coverage.observe, stored] using h⟩
  | cons observation observations ih =>
    rw [Coverage.observe, stored]
    cases project i observation with
    | error e => exact ⟨names, by simpa using h⟩
    | ok key =>
      rcases h.visit hprior key with ⟨c', id, names', heq, hc, hstands⟩ |
        ⟨c', names', heq, hc⟩
      · simp only [heq]
        obtain ⟨names'', hrec⟩ := ih hc hstands
        exact ⟨names'', by simpa using hrec⟩
      · simp only [heq]
        exact ⟨names', by rwa [List.append_nil]⟩

/-- Whatever is stored is the key of an observation. -/
theorem stored_project {observations : List Json} {c : Coverage} {i : ℕ} {prior : Option ℕ}
    {key : String} (h : key ∈ (stored project i prior observations c).1 ∨
      ∃ w ∈ (stored project i prior observations c).2, key ∈ w) :
    ∃ j observation, project j observation = .ok key := by
  induction observations generalizing c i prior with
  | nil => simp [stored] at h
  | cons observation observations ih =>
    rw [stored] at h
    cases hproject : project i observation with
    | error e => simp [hproject] at h
    | ok k =>
      simp only [hproject] at h
      rcases hvisit : c.visit prior k with ⟨d, e | id⟩
      · rw [hvisit] at h
        refine ⟨i, observation, ?_⟩
        simp only [List.not_mem_nil, false_or] at h
        split_ifs at h <;> simp_all
      · rw [hvisit] at h
        simp only [List.mem_cons, or_assoc] at h
        rcases h with rfl | h
        · exact ⟨i, observation, hproject⟩
        · exact ih h

/-- A run whose observations are all taken leaves its whole walk. -/
theorem stored_ok {observations : List Json} {c c' : Coverage} {i : ℕ} {prior : Option ℕ}
    (h : c.observe project i prior observations = (c', .ok ())) :
    stored project i prior observations c = (keysFrom project i observations, []) ∧
      (keysFrom project i observations).length = observations.length := by
  induction observations generalizing c i prior with
  | nil => exact ⟨rfl, rfl⟩
  | cons observation observations ih =>
    rw [Coverage.observe] at h
    rw [stored, keysFrom]
    cases hproject : project i observation with
    | error e =>
      rw [hproject] at h
      cases h
    | ok key =>
      rw [hproject] at h
      simp only at h ⊢
      rcases hvisit : c.visit prior key with ⟨d, e | id⟩
      · rw [hvisit] at h
        cases h
      · rw [hvisit] at h
        obtain ⟨heq, hlength⟩ := ih h
        simp [heq, hlength]

end Observe
end Coverage
end MirrorRust
