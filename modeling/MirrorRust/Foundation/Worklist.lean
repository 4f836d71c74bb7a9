import MirrorRust.Foundation.Outcome

/-! Breadth-first search with a queue of tasks. A task resolves to a node, a new node expands to
further tasks, and the search stops at the first failure of either. -/
namespace MirrorRust

structure Search (τ α ε : Type*) where
  resolve : τ → Except ε α
  expand : α → Except ε (List τ)

/-- Reached from the root in at most `n` steps. -/
inductive Within {α : Type*} (R : α → α → Prop) (root : α) : ℕ → α → Prop
  | root {n} : Within R root n root
  | step {n a b} : Within R root n a → R a b → Within R root (n + 1) b

section Within
variable {α : Type*} {R : α → α → Prop} {root a : α}

theorem within_zero : Within R root 0 a ↔ a = root := by
  constructor
  · intro h
    cases h
    rfl
  · rintro rfl
    exact .root

theorem within_succ {n : ℕ} :
    Within R root (n + 1) a ↔ a = root ∨ ∃ b, Within R root n b ∧ R b a := by
  constructor
  · intro h
    cases h with
    | root => exact Or.inl rfl
    | step hb ha => exact Or.inr ⟨_, hb, ha⟩
  · rintro (rfl | ⟨b, hb, ha⟩)
    · exact .root
    · exact .step hb ha

end Within

namespace Search
variable {τ α ε : Type*} (S : Search τ α ε)

/-- Work through the queue, with the nodes found so far in the order of their discovery. -/
def loop [DecidableEq α] : ℕ → List τ → List α → Option (Except ε (List α))
  | 0, _, _ => none
  | _ + 1, [], order => some (.ok order)
  | fuel + 1, t :: queue, order =>
    match S.resolve t with
    | .error e => some (.error e)
    | .ok a =>
      if a ∈ order then loop fuel queue order
      else
        match S.expand a with
        | .error e => some (.error e)
        | .ok ts => loop fuel (queue ++ ts) (order ++ [a])

def tasks (a : α) : List τ := (S.expand a).toOption.getD []

def succ (a : α) : List α := (S.tasks a).filterMap fun t => (S.resolve t).toOption

def Edge (a b : α) : Prop := b ∈ S.succ a

def Reaches (root : α) : α → Prop := Relation.ReflTransGen S.Edge root

/-- Every node that is reached expands, and each of its tasks resolves. -/
def Complete (root : α) : Prop :=
  ∀ a, S.Reaches root a → ∃ ts, S.expand a = .ok ts ∧ ∀ t ∈ ts, ∃ b, S.resolve t = .ok b

/-- The order in which a search from the root first discovers the nodes. -/
structure BreadthFirst [DecidableEq α] (root : α) (order : List α) : Prop where
  nodup : order.Nodup
  mem_iff : ∀ a, a ∈ order ↔ S.Reaches root a
  discovery : order = (root :: order.flatMap S.succ).eraseDups

/-- What the result of a search says of the nodes that are reached. -/
def Verdict [DecidableEq α] (root : α) : Except ε (List α) → Prop
  | .ok order => S.BreadthFirst root order ∧ S.Complete root
  | .error _ => ¬ S.Complete root

variable {S} {root : α}

theorem tasks_ok {a : α} {ts : List τ} (h : S.expand a = .ok ts) : S.tasks a = ts := by
  simp [tasks, h, Except.toOption]

theorem resolved_ok {t : τ} {a : α} (h : S.resolve t = .ok a) :
    (S.resolve t).toOption = some a := by
  simp [h, Except.toOption]

theorem mem_succ {a b : α} : b ∈ S.succ a ↔ ∃ t ∈ S.tasks a, S.resolve t = .ok b := by
  rw [succ, List.mem_filterMap]
  refine exists_congr fun t => and_congr_right fun _ => ?_
  cases S.resolve t <;> simp [Except.toOption]

variable [DecidableEq α]

theorem eraseDups_concat (l : List α) (a : α) :
    (l ++ [a]).eraseDups = if a ∈ l then l.eraseDups else l.eraseDups ++ [a] := by
  rw [List.eraseDups_append]
  split_ifs with h <;> simp [List.removeAll, h, List.eraseDups_cons]

/-! ### What the loop keeps -/

/-- The state of a search: `done` are the tasks that have been taken from the queue. -/
structure Searching (S : Search τ α ε) (root : α) (done queue : List τ) (order : List α) :
    Prop where
  nodup : order.Nodup
  reached : ∀ a ∈ order, S.Reaches root a
  expanded : ∀ a ∈ order, ∃ ts, S.expand a = .ok ts
  resolved : ∀ t ∈ done, ∃ a, S.resolve t = .ok a
  taken : done ++ queue = order.flatMap S.tasks
  discovery : order = (root :: done.filterMap fun t => (S.resolve t).toOption).eraseDups

theorem Searching.start {ts : List τ} (h : S.expand root = .ok ts) : Searching S root [] ts [root] where
  nodup := List.nodup_singleton root
  reached a ha := List.mem_singleton.mp ha ▸ Relation.ReflTransGen.refl
  expanded a ha := ⟨ts, List.mem_singleton.mp ha ▸ h⟩
  resolved t ht := absurd ht List.not_mem_nil
  taken := by simp [tasks_ok h]
  discovery := by simp [List.eraseDups_cons]

theorem Searching.owner {done queue : List τ} {order : List α} {t : τ}
    (h : Searching S root done (t :: queue) order) : ∃ a ∈ order, t ∈ S.tasks a := by
  have hmem : t ∈ order.flatMap S.tasks := by
    rw [← h.taken]
    simp
  simpa using hmem

theorem Searching.reaches {done queue : List τ} {order : List α} {t : τ} {b : α}
    (h : Searching S root done (t :: queue) order) (hb : S.resolve t = .ok b) :
    S.Reaches root b := by
  obtain ⟨a, ha, hta⟩ := h.owner
  exact (h.reached a ha).tail (mem_succ.mpr ⟨t, hta, hb⟩)

theorem Searching.discover {done queue : List τ} {order : List α} {t : τ} {a : α}
    (h : Searching S root done (t :: queue) order) (ha : S.resolve t = .ok a) :
    (root :: (done ++ [t]).filterMap fun t => (S.resolve t).toOption).eraseDups =
      if a ∈ order then order else order ++ [a] := by
  have hmem : a ∈ order ↔ a ∈ root :: done.filterMap fun t => (S.resolve t).toOption := by
    conv_lhs => rw [h.discovery]
    exact List.mem_eraseDups
  have hlast : ([t].filterMap fun t => (S.resolve t).toOption) = [a] := by
    simp [resolved_ok ha]
  rw [List.filterMap_append, hlast, ← List.cons_append, eraseDups_concat, ← h.discovery]
  simp only [hmem]

theorem Searching.skip {done queue : List τ} {order : List α} {t : τ} {a : α}
    (h : Searching S root done (t :: queue) order) (ha : S.resolve t = .ok a) (hmem : a ∈ order) :
    Searching S root (done ++ [t]) queue order where
  nodup := h.nodup
  reached := h.reached
  expanded := h.expanded
  resolved u hu := by
    rcases List.mem_append.mp hu with hu | hu
    · exact h.resolved u hu
    · exact ⟨a, List.mem_singleton.mp hu ▸ ha⟩
  taken := by rw [List.append_assoc, List.singleton_append, h.taken]
  discovery := by rw [h.discover ha, if_pos hmem]

theorem Searching.found {done queue ts : List τ} {order : List α} {t : τ} {a : α}
    (h : Searching S root done (t :: queue) order) (ha : S.resolve t = .ok a) (hmem : a ∉ order)
    (hts : S.expand a = .ok ts) :
    Searching S root (done ++ [t]) (queue ++ ts) (order ++ [a]) where
  nodup := by
    rw [List.nodup_append]
    exact ⟨h.nodup, List.nodup_singleton a, fun b hb c hc hbc =>
      hmem (by rwa [← List.mem_singleton.mp hc, ← hbc])⟩
  reached b hb := by
    rcases List.mem_append.mp hb with hb | hb
    · exact h.reached b hb
    · exact List.mem_singleton.mp hb ▸ h.reaches ha
  expanded b hb := by
    rcases List.mem_append.mp hb with hb | hb
    · exact h.expanded b hb
    · exact ⟨ts, List.mem_singleton.mp hb ▸ hts⟩
  resolved u hu := by
    rcases List.mem_append.mp hu with hu | hu
    · exact h.resolved u hu
    · exact ⟨a, List.mem_singleton.mp hu ▸ ha⟩
  taken := by
    have htaken := h.taken
    rw [List.flatMap_append, ← htaken]
    simp [tasks_ok hts]
  discovery := by rw [h.discover ha, if_neg hmem]

/-! ### The result of a search -/

theorem Searching.finish {done : List τ} {order : List α} (h : Searching S root done [] order) :
    S.BreadthFirst root order ∧ S.Complete root := by
  have htaken : done = order.flatMap S.tasks := by simpa using h.taken
  have hflat : (done.filterMap fun t => (S.resolve t).toOption) = order.flatMap S.succ := by
    rw [htaken, List.filterMap_flatMap]
    rfl
  have hdiscovery : order = (root :: order.flatMap S.succ).eraseDups := by
    conv_lhs => rw [h.discovery, hflat]
  have hroot : root ∈ order := by
    rw [hdiscovery, List.mem_eraseDups]
    exact List.mem_cons_self
  have hsucc : ∀ a ∈ order, ∀ b ∈ S.succ a, b ∈ order := by
    intro a ha b hb
    rw [hdiscovery, List.mem_eraseDups]
    exact List.mem_cons_of_mem _ (List.mem_flatMap.mpr ⟨a, ha, hb⟩)
  have hreached : ∀ a, S.Reaches root a → a ∈ order := by
    intro a ha
    induction ha with
    | refl => exact hroot
    | tail _ hb ih => exact hsucc _ ih _ hb
  refine ⟨⟨h.nodup, fun a => ⟨h.reached a, hreached a⟩, hdiscovery⟩, fun a ha => ?_⟩
  obtain ⟨ts, hts⟩ := h.expanded a (hreached a ha)
  refine ⟨ts, hts, fun t ht => h.resolved t ?_⟩
  rw [htaken]
  exact List.mem_flatMap.mpr ⟨a, hreached a ha, by rwa [tasks_ok hts]⟩

/-- A search that ends with nodes has found them all; one that ends with a failure has met a
node or a task that fails. -/
theorem Searching.result {fuel : ℕ} {done queue : List τ} {order : List α}
    {result : Except ε (List α)} (h : Searching S root done queue order)
    (hloop : S.loop fuel queue order = some result) : S.Verdict root result := by
  induction fuel generalizing done queue order with
  | zero => cases hloop
  | succ fuel ih =>
    cases queue with
    | nil =>
      cases hloop
      exact h.finish
    | cons t queue =>
      rw [loop] at hloop
      cases ha : S.resolve t with
      | error e =>
        rw [ha] at hloop
        cases hloop
        intro hcomplete
        obtain ⟨a, hmem, hta⟩ := h.owner
        obtain ⟨ts, hts, hall⟩ := hcomplete a (h.reached a hmem)
        obtain ⟨b, hb⟩ := hall t (tasks_ok hts ▸ hta)
        rw [ha] at hb
        cases hb
      | ok a =>
        simp only [ha] at hloop
        by_cases hmem : a ∈ order
        · rw [if_pos hmem] at hloop
          exact ih (h.skip ha hmem) hloop
        · rw [if_neg hmem] at hloop
          cases hts : S.expand a with
          | error e =>
            rw [hts] at hloop
            cases hloop
            intro hcomplete
            obtain ⟨ts, hts', -⟩ := hcomplete a (h.reaches ha)
            rw [hts] at hts'
            cases hts'
          | ok ts =>
            rw [hts] at hloop
            exact ih (h.found ha hmem hts) hloop

/-! ### Termination -/

theorem loop_succ {fuel : ℕ} {queue : List τ} {order : List α} {result : Except ε (List α)}
    (h : S.loop fuel queue order = some result) : S.loop (fuel + 1) queue order = some result := by
  induction fuel generalizing queue order with
  | zero => cases h
  | succ fuel ih =>
    cases queue with
    | nil => exact h
    | cons t queue =>
      rw [loop] at h ⊢
      cases ha : S.resolve t with
      | error e => simpa [ha] using h
      | ok a =>
        simp only [ha] at h ⊢
        by_cases hmem : a ∈ order
        · rw [if_pos hmem] at h ⊢
          exact ih h
        · rw [if_neg hmem] at h ⊢
          cases hts : S.expand a with
          | error e => simpa [hts] using h
          | ok ts =>
            simp only [hts] at h ⊢
            exact ih h

theorem loop_mono {fuel more : ℕ} {queue : List τ} {order : List α} {result : Except ε (List α)}
    (hmore : fuel ≤ more) (h : S.loop fuel queue order = some result) :
    S.loop more queue order = some result := by
  induction hmore with
  | refl => exact h
  | step _ ih => exact loop_succ ih

section Termination
variable (nodes : Finset α)

/-- The tasks that the nodes not yet found can still add. -/
def pending (S : Search τ α ε) (nodes : Finset α) (order : List α) : ℕ :=
  ∑ a ∈ nodes \ order.toFinset, (S.tasks a).length

variable {nodes}

theorem pending_concat {order : List α} {a : α} (ha : a ∈ nodes) (hmem : a ∉ order) :
    S.pending nodes (order ++ [a]) + (S.tasks a).length = S.pending nodes order := by
  have herase : nodes \ (order ++ [a]).toFinset = (nodes \ order.toFinset).erase a := by
    ext b
    simp only [Finset.mem_sdiff, List.mem_toFinset, List.mem_append, List.mem_singleton,
      Finset.mem_erase]
    tauto
  rw [pending, herase]
  exact Finset.sum_erase_add _ _ (by simp [ha, hmem])

/-- When only finitely many nodes expand, the search ends: each round takes a task away, and
the tasks of a node are added once. -/
theorem loop_terminates (hnodes : ∀ a ts, S.expand a = .ok ts → a ∈ nodes) {fuel : ℕ}
    {queue : List τ} {order : List α} (hfuel : queue.length + S.pending nodes order < fuel) :
    (S.loop fuel queue order).isSome = true := by
  induction fuel generalizing queue order with
  | zero => omega
  | succ fuel ih =>
    cases queue with
    | nil => rfl
    | cons t queue =>
      rw [List.length_cons] at hfuel
      rw [loop]
      cases ha : S.resolve t with
      | error e => rfl
      | ok a =>
        simp only
        by_cases hmem : a ∈ order
        · rw [if_pos hmem]
          exact ih (by omega)
        · rw [if_neg hmem]
          cases hts : S.expand a with
          | error e => rfl
          | ok ts =>
            have hpending := pending_concat (S := S) (hnodes a ts hts) hmem
            rw [tasks_ok hts] at hpending
            exact ih (by rw [List.length_append]; omega)

end Termination

/-! ### Breadth first -/

/-- The nodes within `n` steps of the root come before all others. -/
theorem BreadthFirst.layer {order : List α} (h : S.BreadthFirst root order) (n : ℕ) :
    ∃ found, found <+: order ∧ ∀ a, a ∈ found ↔ Within S.Edge root n a := by
  induction n with
  | zero =>
    refine ⟨[root], ?_, fun a => by simp [within_zero]⟩
    rw [h.discovery, List.eraseDups_cons]
    exact ⟨_, rfl⟩
  | succ n ih =>
    obtain ⟨found, ⟨rest, hrest⟩, hfound⟩ := ih
    refine ⟨(root :: found.flatMap S.succ).eraseDups, ?_, fun a => ?_⟩
    · rw [h.discovery, ← hrest, List.flatMap_append, ← List.cons_append, List.eraseDups_append]
      exact List.prefix_append _ _
    · simp only [List.mem_eraseDups, List.mem_cons, List.mem_flatMap, hfound, within_succ, Edge]

end Search
end MirrorRust
