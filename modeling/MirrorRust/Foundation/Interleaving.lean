import Mathlib

/-! Order preserving merges of keyed chains, their preemptions, and listings of a
predicate in strict order. -/
namespace MirrorRust

/-! ### Listings -/

section Listing
variable {α β : Type*} {r : α → α → Prop} {P Q : α → Prop} {xs ys : List α}

/-- The list has exactly the elements with the property, in strict order. -/
structure Listing (r : α → α → Prop) (P : α → Prop) (xs : List α) : Prop where
  sorted : xs.Pairwise r
  mem_iff : ∀ a, a ∈ xs ↔ P a

theorem Listing.congr (h : Listing r P xs) (hPQ : ∀ a, P a ↔ Q a) : Listing r Q xs :=
  ⟨h.sorted, fun a => (h.mem_iff a).trans (hPQ a)⟩

theorem Listing.nil (h : ∀ a, ¬ P a) : Listing r P [] :=
  ⟨.nil, fun a => by simp [h a]⟩

theorem Listing.singleton (a : α) : Listing r (· = a) [a] :=
  ⟨List.pairwise_singleton _ _, fun b => by simp⟩

theorem Listing.append (hx : Listing r P xs) (hy : Listing r Q ys)
    (h : ∀ a b, P a → Q b → r a b) : Listing r (fun a => P a ∨ Q a) (xs ++ ys) := by
  refine ⟨List.pairwise_append.mpr ⟨hx.sorted, hy.sorted, fun a ha b hb => ?_⟩, fun a => ?_⟩
  · exact h a b ((hx.mem_iff a).mp ha) ((hy.mem_iff b).mp hb)
  · rw [List.mem_append, hx.mem_iff, hy.mem_iff]

theorem Listing.map {f : α → β} {s : β → β → Prop} (h : Listing r P xs)
    (hf : ∀ a b, r a b → s (f a) (f b)) : Listing s (fun b => ∃ a, P a ∧ f a = b) (xs.map f) := by
  refine ⟨List.pairwise_map.mpr (h.sorted.imp fun hab => hf _ _ hab), fun b => ?_⟩
  simp only [List.mem_map, h.mem_iff]

/-- Listings for increasing keys, one after the other. -/
theorem Listing.flatMap {κ : Type*} [Preorder κ] {keys : List κ} {S : κ → α → Prop}
    {f : κ → List α} (hkeys : keys.Pairwise (· < ·)) (hf : ∀ k ∈ keys, Listing r (S k) (f k))
    (h : ∀ k l a b, k < l → S k a → S l b → r a b) :
    Listing r (fun a => ∃ k ∈ keys, S k a) (keys.flatMap f) := by
  induction keys with
  | nil => exact .nil (by simp)
  | cons k keys ih =>
    obtain ⟨hlt, hkeys⟩ := List.pairwise_cons.mp hkeys
    rw [List.flatMap_cons]
    have hhead := hf k (by simp)
    have htail := ih hkeys fun l hl => hf l (by simp [hl])
    refine (hhead.append htail ?_).congr fun a => by simp
    rintro a b ha ⟨l, hl, hb⟩
    exact h k l a b (hlt l hl) ha hb

theorem Listing.nodup [Std.Irrefl r] (h : Listing r P xs) : xs.Nodup :=
  h.sorted.imp fun hab hne => by
    subst hne
    exact Std.Irrefl.irrefl _ hab

end Listing

/-! ### Merges -/

section Merge
variable {σ κ : Type*} [DecidableEq κ] {key : σ → κ} {chains : κ → List σ} {s : σ} {w : List σ}

/-- The word preserves the order of every chain and has no other letters. -/
def Interleaves (key : σ → κ) (chains : κ → List σ) (w : List σ) : Prop :=
  ∀ k, w.filter (fun s => key s = k) = chains k

/-- The switches away from a key that still has letters to come. -/
def preemptions (key : σ → κ) : Option κ → List σ → ℕ
  | _, [] => 0
  | prior, s :: w =>
    (if ∃ p ∈ prior, p ≠ key s ∧ p ∈ (s :: w).map key then 1 else 0) +
      preemptions key (some (key s)) w

theorem interleaves_nil : Interleaves key chains [] ↔ ∀ k, chains k = [] := by
  simp only [Interleaves, List.filter_nil, eq_comm]

theorem interleaves_cons :
    Interleaves key chains (s :: w) ↔
      ∃ rest, chains (key s) = s :: rest ∧
        Interleaves key (Function.update chains (key s) rest) w := by
  constructor
  · intro h
    refine ⟨w.filter fun t => key t = key s, ?_, fun k => ?_⟩
    · rw [← h (key s)]
      simp
    · by_cases hk : k = key s
      · subst hk
        simp
      · rw [Function.update_of_ne hk, ← h k]
        simp [Ne.symm hk]
  · rintro ⟨rest, hs, hw⟩ k
    have hk' := hw k
    by_cases hk : k = key s
    · subst hk
      rw [Function.update_self] at hk'
      simp [hs, hk']
    · rw [Function.update_of_ne hk] at hk'
      simp [← hk', Ne.symm hk]

theorem Interleaves.mem_keys (h : Interleaves key chains w) (k : κ) :
    k ∈ w.map key ↔ chains k ≠ [] := by
  rw [← h k, Ne, List.filter_eq_nil_iff]
  simp [eq_comm]

def total (chains : κ → List σ) (keys : List κ) : ℕ := (keys.map fun k => (chains k).length).sum

theorem total_update {keys : List κ} (hkeys : keys.Nodup) {k : κ} (hk : k ∈ keys) {rest : List σ}
    (h : chains k = s :: rest) :
    total (Function.update chains k rest) keys + 1 = total chains keys := by
  induction keys with
  | nil => simp at hk
  | cons l keys ih =>
    obtain ⟨hl, hkeys⟩ := List.nodup_cons.mp hkeys
    simp only [total, List.map_cons, List.sum_cons]
    rcases List.mem_cons.mp hk with rfl | hk
    · have hsame : keys.map (fun l => (Function.update chains k rest l).length) =
          keys.map fun l => (chains l).length := by
        refine List.map_congr_left fun l hmem => ?_
        have hne : l ≠ k := fun hlk => hl (hlk ▸ hmem)
        rw [Function.update_of_ne hne]
      rw [hsame, Function.update_self, h, List.length_cons]
      omega
    · have hne : l ≠ k := fun hlk => hl (hlk ▸ hk)
      have ih' := ih hkeys hk
      rw [total, total] at ih'
      rw [Function.update_of_ne hne]
      omega

omit [DecidableEq κ] in
theorem total_eq_zero {keys : List κ} : total chains keys = 0 ↔ ∀ k ∈ keys, chains k = [] := by
  simp [total, List.sum_eq_zero_iff]

def switchCost (chains : κ → List σ) (prior : Option κ) (k : κ) : ℕ :=
  if ∃ p ∈ prior, p ≠ k ∧ chains p ≠ [] then 1 else 0

/-- The merges that go on with the key `k`; `merges` lists what may follow. -/
def branch (merges : Option κ → ℕ → (κ → List σ) → List (List σ)) (bound : ℕ) (prior : Option κ)
    (spent : ℕ) (chains : κ → List σ) (k : κ) : List (List σ) :=
  match chains k with
  | [] => []
  | s :: rest =>
    if spent + switchCost chains prior k > bound then []
    else
      (merges (some k) (spent + switchCost chains prior k) (Function.update chains k rest)).map
        (s :: ·)

/-- All merges of chains with `n` letters that stay within the preemption bound. -/
def merges (bound : ℕ) (keys : List κ) :
    ℕ → Option κ → ℕ → (κ → List σ) → List (List σ)
  | 0, _, _, _ => [[]]
  | n + 1, prior, spent, chains =>
    keys.flatMap (branch (merges bound keys n) bound prior spent chains)

theorem switchCost_eq (h : Interleaves key chains w) (prior : Option κ) (k : κ) :
    switchCost chains prior k = if ∃ p ∈ prior, p ≠ k ∧ p ∈ w.map key then 1 else 0 := by
  simp only [switchCost, h.mem_keys]

/-- The chains belong to the keys, and each letter to its chain. -/
structure WellKeyed (key : σ → κ) (keys : List κ) (chains : κ → List σ) : Prop where
  letters : ∀ k, ∀ s ∈ chains k, key s = k
  other : ∀ k, k ∉ keys → chains k = []

theorem WellKeyed.update {keys : List κ} (h : WellKeyed key keys chains) {k : κ} {rest : List σ}
    (hk : chains k = s :: rest) : WellKeyed key keys (Function.update chains k rest) := by
  constructor
  · intro l t ht
    by_cases hl : l = k
    · subst hl
      rw [Function.update_self] at ht
      exact h.letters l t (by simp [hk, ht])
    · rw [Function.update_of_ne hl] at ht
      exact h.letters l t ht
  · intro l hl
    have hne : l ≠ k := by
      rintro rfl
      simp [h.other l hl] at hk
    rw [Function.update_of_ne hne]
    exact h.other l hl

end Merge

section Order
variable {σ κ : Type*} [LinearOrder κ] {key : σ → κ} {chains : κ → List σ} {bound : ℕ}

/-- Lexicographic order of words by their keys. -/
def KeyLt (key : σ → κ) (v w : List σ) : Prop := v.map key < w.map key

/-- The word is a merge within the bound, after a given prefix. -/
def Bounded (key : σ → κ) (bound : ℕ) (prior : Option κ) (spent : ℕ) (chains : κ → List σ)
    (w : List σ) : Prop :=
  Interleaves key chains w ∧ spent + preemptions key prior w ≤ bound

theorem bounded_cons {prior : Option κ} {spent : ℕ} {s : σ} {rest w : List σ}
    (hs : chains (key s) = s :: rest) :
    Bounded key bound prior spent chains (s :: w) ↔
      Bounded key bound (some (key s)) (spent + switchCost chains prior (key s))
        (Function.update chains (key s) rest) w := by
  have hiff : Interleaves key chains (s :: w) ↔
      Interleaves key (Function.update chains (key s) rest) w := by
    rw [interleaves_cons, hs]
    simp
  constructor
  · rintro ⟨hw, hb⟩
    rw [preemptions, ← switchCost_eq hw] at hb
    exact ⟨hiff.mp hw, by omega⟩
  · rintro ⟨hw, hb⟩
    have hw' := hiff.mpr hw
    refine ⟨hw', ?_⟩
    rw [preemptions, ← switchCost_eq hw']
    omega

theorem listing_branch {keys : List κ} {n : ℕ} {prior : Option κ} {spent : ℕ} {k : κ}
    (hchains : WellKeyed key keys chains)
    (ih : ∀ s rest, chains k = s :: rest → spent + switchCost chains prior k ≤ bound →
      Listing (KeyLt key)
        (Bounded key bound (some k) (spent + switchCost chains prior k)
          (Function.update chains k rest))
        (merges bound keys n (some k) (spent + switchCost chains prior k)
          (Function.update chains k rest))) :
    Listing (KeyLt key)
      (fun w => (∃ s t, w = s :: t ∧ key s = k) ∧ Bounded key bound prior spent chains w)
      (branch (merges bound keys n) bound prior spent chains k) := by
  rw [branch]
  cases hk : chains k with
  | nil =>
    refine .nil ?_
    rintro _ ⟨⟨s, t, rfl, rfl⟩, hw, -⟩
    obtain ⟨rest, hs, -⟩ := interleaves_cons.mp hw
    simp [hk] at hs
  | cons s rest =>
    have hs : key s = k := hchains.letters k s (by simp [hk])
    subst hs
    simp only
    split_ifs with hb
    · refine .nil ?_
      rintro _ ⟨⟨u, t, rfl, hu⟩, hw, hle⟩
      rw [preemptions, ← switchCost_eq hw, hu] at hle
      omega
    · refine ((ih s rest hk (by omega)).map (s := KeyLt key) fun v w hvw => ?_).congr fun w => ?_
      · exact List.cons_lt_cons_iff.mpr (Or.inr ⟨rfl, hvw⟩)
      · constructor
        · rintro ⟨t, ht, rfl⟩
          exact ⟨⟨s, t, rfl, rfl⟩, (bounded_cons hk).mpr ht⟩
        · rintro ⟨⟨u, t, rfl, hu⟩, hw⟩
          have hus : u = s := by
            obtain ⟨rest', hrest, -⟩ := interleaves_cons.mp hw.1
            rw [hu, hk] at hrest
            exact (List.cons.inj hrest).1.symm
          subst hus
          exact ⟨t, (bounded_cons hk).mp hw, rfl⟩

/-- The recursive listing has exactly the bounded merges, in lexicographic order. -/
theorem listing_merges {keys : List κ} (hkeys : keys.Pairwise (· < ·)) {n : ℕ}
    {prior : Option κ} {spent : ℕ} (hchains : WellKeyed key keys chains)
    (hn : total chains keys = n) (hspent : spent ≤ bound) :
    Listing (KeyLt key) (Bounded key bound prior spent chains)
      (merges bound keys n prior spent chains) := by
  induction n generalizing prior spent chains with
  | zero =>
    refine (Listing.singleton []).congr fun w => ?_
    have hempty : ∀ k, chains k = [] := by
      intro k
      by_cases hk : k ∈ keys
      · exact total_eq_zero.mp hn k hk
      · exact hchains.other k hk
    cases w with
    | nil => simp [Bounded, interleaves_nil, hempty, preemptions, hspent]
    | cons s t => simp [Bounded, interleaves_cons, hempty]
  | succ n ih =>
    have hnodup : keys.Nodup := hkeys.imp fun hlt => hlt.ne
    rw [merges]
    have hbranch : ∀ k ∈ keys, Listing (KeyLt key)
        (fun w => (∃ s t, w = s :: t ∧ key s = k) ∧ Bounded key bound prior spent chains w)
        (branch (merges bound keys n) bound prior spent chains k) := by
      intro k hk
      refine listing_branch hchains fun s rest hs hb => ih (hchains.update hs) ?_ hb
      have := total_update hnodup hk hs
      omega
    refine (Listing.flatMap hkeys hbranch ?_).congr fun w => ?_
    · rintro k l _ _ hkl ⟨⟨s, t, rfl, rfl⟩, -⟩ ⟨⟨u, v, rfl, rfl⟩, -⟩
      exact List.cons_lt_cons_iff.mpr (Or.inl hkl)
    · constructor
      · rintro ⟨_, _, _, hw⟩
        exact hw
      · intro hw
        cases w with
        | nil =>
          have hzero : total chains keys = 0 :=
            total_eq_zero.mpr fun k _ => interleaves_nil.mp hw.1 k
          omega
        | cons s t =>
          obtain ⟨rest, hs, -⟩ := interleaves_cons.mp hw.1
          have hmem : key s ∈ keys := by
            by_contra hnot
            simp [hchains.other _ hnot] at hs
          exact ⟨key s, hmem, ⟨s, t, rfl, rfl⟩, hw⟩

end Order
end MirrorRust
