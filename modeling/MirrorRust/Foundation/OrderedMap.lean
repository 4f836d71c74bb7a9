import Mathlib

/-! Finite maps as association lists in strictly increasing key order.
The raw operations live in `Assoc`, because an inductive type can only nest a
literal list; `OrderedMap` packages an association list with its order. -/
namespace MirrorRust

variable {κ α β : Type*} [LinearOrder κ]

namespace Assoc

/-- Strictly increasing keys; in particular no key occurs twice. -/
def Sorted (m : List (κ × α)) : Prop := (m.map Prod.fst).Pairwise (· < ·)

instance (m : List (κ × α)) : Decidable (Sorted m) :=
  inferInstanceAs (Decidable ((m.map Prod.fst).Pairwise (· < ·)))

/-- Insert an entry, replacing the value of a key that is already present. -/
def insert (k : κ) (v : α) : List (κ × α) → List (κ × α)
  | [] => [(k, v)]
  | p :: m =>
    if k < p.1 then (k, v) :: p :: m
    else if k = p.1 then (k, v) :: m
    else p :: insert k v m

/-- Insert the entries from left to right, so a later entry wins. -/
def ofList (xs : List (κ × α)) : List (κ × α) :=
  xs.foldl (fun m p => insert p.1 p.2 m) []

@[simp] theorem sorted_nil : Sorted ([] : List (κ × α)) := List.Pairwise.nil

theorem sorted_cons {p : κ × α} {m : List (κ × α)} :
    Sorted (p :: m) ↔ (∀ q ∈ m, p.1 < q.1) ∧ Sorted m := by
  simp only [Sorted, List.map_cons, List.pairwise_cons, List.mem_map, forall_exists_index, and_imp,
    forall_apply_eq_imp_iff₂]

/-- A sorted association list is determined by its entries. -/
theorem Sorted.ext {m n : List (κ × α)} (hm : Sorted m) (hn : Sorted n)
    (h : ∀ p, p ∈ m ↔ p ∈ n) : m = n := by
  have nodup : ∀ l : List (κ × α), Sorted l → l.Nodup := by
    intro l hl
    exact List.Nodup.of_map Prod.fst (hl.imp fun hlt => hlt.ne)
  have hperm : m.Perm n := (List.perm_ext_iff_of_nodup (nodup m hm) (nodup n hn)).mpr h
  refine hperm.eq_of_pairwise ?_ (List.pairwise_map.mp hm) (List.pairwise_map.mp hn)
  intro p q _ _ hpq hqp
  exact absurd hpq hqp.asymm

theorem mem_insert {k : κ} {v : α} {m : List (κ × α)} (hm : Sorted m) (p : κ × α) :
    p ∈ insert k v m ↔ p = (k, v) ∨ (p ∈ m ∧ p.1 ≠ k) := by
  induction m with
  | nil => simp [insert]
  | cons q m ih =>
    obtain ⟨hlt, hs⟩ := sorted_cons.mp hm
    have ih := ih hs
    simp only [insert]
    split_ifs with h1 h2
    · have hgt : ∀ r ∈ q :: m, r.1 ≠ k := by
        intro r hr
        rcases List.mem_cons.mp hr with rfl | hr
        · exact h1.ne'
        · exact (h1.trans (hlt r hr)).ne'
      grind
    · subst h2
      have hne : ∀ r ∈ m, r.1 ≠ q.1 := fun r hr => (hlt r hr).ne'
      grind
    · grind

theorem insert_sorted {k : κ} {v : α} {m : List (κ × α)} (hm : Sorted m) :
    Sorted (insert k v m) := by
  induction m with
  | nil => simp [insert, Sorted]
  | cons q m ih =>
    obtain ⟨hlt, hs⟩ := sorted_cons.mp hm
    simp only [insert]
    split_ifs with h1 h2
    · refine sorted_cons.mpr ⟨fun r hr => ?_, hm⟩
      rcases List.mem_cons.mp hr with rfl | hr
      · exact h1
      · exact h1.trans (hlt r hr)
    · subst h2
      exact sorted_cons.mpr ⟨hlt, hs⟩
    · refine sorted_cons.mpr ⟨fun r hr => ?_, ih hs⟩
      rcases (mem_insert hs r).mp hr with rfl | ⟨hr, _⟩
      · exact lt_of_le_of_ne (not_lt.mp h1) (Ne.symm h2)
      · exact hlt r hr

theorem foldl_insert_sorted (xs : List (κ × α)) {m : List (κ × α)} (hm : Sorted m) :
    Sorted (xs.foldl (fun m p => insert p.1 p.2 m) m) := by
  induction xs generalizing m with
  | nil => exact hm
  | cons p xs ih => exact ih (insert_sorted hm)

theorem ofList_sorted (xs : List (κ × α)) : Sorted (ofList xs) :=
  foldl_insert_sorted xs sorted_nil

theorem insert_last {k : κ} {v : α} {m : List (κ × α)} (h : ∀ p ∈ m, p.1 < k) :
    insert k v m = m ++ [(k, v)] := by
  induction m with
  | nil => rfl
  | cons q m ih =>
    have hq : q.1 < k := h q (by simp)
    simp only [insert, if_neg hq.asymm, if_neg hq.ne', ih fun p hp => h p (by simp [hp]),
      List.cons_append]

/-- Inserting entries that are already in order only appends them. -/
theorem ofList_of_sorted {m : List (κ × α)} (hm : Sorted m) : ofList m = m := by
  have key : ∀ (xs acc : List (κ × α)), Sorted (acc ++ xs) →
      xs.foldl (fun m p => insert p.1 p.2 m) acc = acc ++ xs := by
    intro xs
    induction xs with
    | nil => simp
    | cons p xs ih =>
      intro acc h
      have hlast : ∀ q ∈ acc, q.1 < p.1 := by
        intro q hq
        have hpw := List.pairwise_append.mp (List.pairwise_map.mp h)
        exact hpw.2.2 q hq p (by simp)
      rw [List.foldl_cons, insert_last hlast, ih (acc ++ [p]) (by simpa using h)]
      simp
  exact key m [] hm

/-- When equal keys carry equal values, insertion loses and invents nothing. -/
theorem mem_ofList {xs : List (κ × α)} (h : ∀ p ∈ xs, ∀ q ∈ xs, p.1 = q.1 → p = q) (p : κ × α) :
    p ∈ ofList xs ↔ p ∈ xs := by
  have key : ∀ (ys acc : List (κ × α)), Sorted acc →
      (∀ p ∈ acc ++ ys, ∀ q ∈ acc ++ ys, p.1 = q.1 → p = q) →
      (p ∈ ys.foldl (fun m p => insert p.1 p.2 m) acc ↔ p ∈ acc ++ ys) := by
    intro ys
    induction ys with
    | nil => simp
    | cons q ys ih =>
      intro acc hs hf
      have hmem : ∀ r, r ∈ insert q.1 q.2 acc ↔ r = q ∨ r ∈ acc := by
        intro r
        rw [mem_insert hs]
        constructor
        · rintro (rfl | ⟨hr, -⟩) <;> simp [*]
        · rintro (rfl | hr)
          · simp
          · by_cases he : r.1 = q.1
            · left
              exact hf r (by simp [hr]) q (by simp) he
            · exact Or.inr ⟨hr, he⟩
      rw [List.foldl_cons, ih _ (insert_sorted hs) (by
        intro r hr s hsm
        simp only [List.mem_append, hmem] at hr hsm
        exact hf r (by simp; tauto) s (by simp; tauto))]
      simp only [List.mem_append, hmem, List.mem_cons]
      tauto
  exact key xs [] sorted_nil h

/-- A list without repeated keys is only put in order. -/
theorem ofList_perm {xs : List (κ × α)} (h : (xs.map Prod.fst).Nodup) : (ofList xs).Perm xs := by
  have hsorted : ((ofList xs).map Prod.fst).Nodup := (ofList_sorted xs).imp fun hlt => hlt.ne
  refine (List.perm_ext_iff_of_nodup hsorted.of_map h.of_map).mpr
    (mem_ofList fun p hp q hq heq => List.inj_on_of_nodup_map h hp hq heq)

theorem sorted_map_snd (f : α → β) {m : List (κ × α)} :
    Sorted (m.map fun p => (p.1, f p.2)) ↔ Sorted m := by
  simp only [Sorted, List.map_map, Function.comp_def]

theorem insert_map_snd (f : α → β) (k : κ) (v : α) (m : List (κ × α)) :
    (insert k v m).map (fun p => (p.1, f p.2)) =
      insert k (f v) (m.map fun p => (p.1, f p.2)) := by
  induction m with
  | nil => rfl
  | cons p m ih =>
    simp only [insert, List.map_cons]
    split_ifs
    · rfl
    · rfl
    · rw [List.map_cons, ih]

theorem ofList_map_snd (f : α → β) (xs : List (κ × α)) :
    (ofList xs).map (fun p => (p.1, f p.2)) = ofList (xs.map fun p => (p.1, f p.2)) := by
  have hfold : ∀ m : List (κ × α), (xs.foldl (fun m p => insert p.1 p.2 m) m).map
      (fun p => (p.1, f p.2)) = (xs.map fun p => (p.1, f p.2)).foldl
        (fun m p => insert p.1 p.2 m) (m.map fun p => (p.1, f p.2)) := by
    induction xs with
    | nil => exact fun _ => rfl
    | cons p xs ih =>
      intro m
      rw [List.map_cons, List.foldl_cons, List.foldl_cons, ih, insert_map_snd]
  exact hfold []

/-- Members with the same keys are in key order as well. -/
theorem sorted_of_keys {R : κ × α → κ × β → Prop} {m : List (κ × α)} {n : List (κ × β)}
    (h : List.Forall₂ R m n) (hkey : ∀ p q, R p q → q.1 = p.1) (hm : Sorted m) : Sorted n := by
  have hkeys : n.map Prod.fst = m.map Prod.fst := by
    clear hm
    induction h with
    | nil => rfl
    | cons hp _ ih => rw [List.map_cons, List.map_cons, hkey _ _ hp, ih]
  rw [Sorted, hkeys]
  exact hm

/-- The value of a key. -/
def get? (k : κ) : List (κ × α) → Option α
  | [] => none
  | p :: m => if k = p.1 then some p.2 else get? k m

@[simp] theorem get?_nil (k : κ) : get? k ([] : List (κ × α)) = none := rfl

theorem get?_cons (k : κ) (p : κ × α) (m : List (κ × α)) :
    get? k (p :: m) = if k = p.1 then some p.2 else get? k m := rfl

/-- Lookup finds exactly the entries of a sorted list. -/
theorem get?_eq_some {m : List (κ × α)} (hm : Sorted m) {k : κ} {v : α} :
    get? k m = some v ↔ (k, v) ∈ m := by
  induction m with
  | nil => simp
  | cons p m ih =>
    obtain ⟨hlt, hs⟩ := sorted_cons.mp hm
    rw [get?_cons]
    split_ifs with hk
    · subst hk
      have hnot : (p.1, v) ∉ m := fun h => (hlt _ h).ne rfl
      simp [hnot, Prod.ext_iff, eq_comm]
    · simp [ih hs, Prod.ext_iff, hk]

theorem mem_of_get? {m : List (κ × α)} {k : κ} {v : α} (h : get? k m = some v) : (k, v) ∈ m := by
  induction m with
  | nil => cases h
  | cons p m ih =>
    rw [get?_cons] at h
    split_ifs at h with hk
    · cases h
      exact hk ▸ List.mem_cons_self
    · exact List.mem_cons_of_mem _ (ih h)

theorem get?_eq_none {m : List (κ × α)} {k : κ} : get? k m = none ↔ ∀ p ∈ m, p.1 ≠ k := by
  induction m with
  | nil => simp
  | cons p m ih =>
    rw [get?_cons, List.forall_mem_cons]
    split_ifs with hk
    · simp [hk]
    · simp [ih, Ne.symm hk]

theorem get?_map_snd (f : α → β) (k : κ) (m : List (κ × α)) :
    get? k (m.map fun p => (p.1, f p.2)) = (get? k m).map f := by
  induction m with
  | nil => rfl
  | cons p m ih =>
    rw [List.map_cons, get?_cons, get?_cons, ih]
    split_ifs <;> rfl

theorem get?_insert {k : κ} {v : α} {m : List (κ × α)} (l : κ) :
    get? l (insert k v m) = if l = k then some v else get? l m := by
  induction m with
  | nil => simp [insert, get?_cons]
  | cons p m ih =>
    simp only [insert]
    split_ifs with h1 h2 h3 <;> simp only [get?_cons, ih] <;> grind

theorem length_insert_new {k : κ} {v : α} {m : List (κ × α)} (h : get? k m = none) :
    (insert k v m).length = m.length + 1 := by
  induction m with
  | nil => rfl
  | cons p m ih =>
    rw [get?_cons] at h
    split_ifs at h with hk
    rw [insert, if_neg hk]
    split_ifs
    · rfl
    · rw [List.length_cons, List.length_cons, ih h]

/-- Totals change by what an entry changes. -/
theorem sum_insert {k : κ} {n : ℕ} {m : List (κ × ℕ)} (hm : Sorted m) :
    ((insert k n m).map Prod.snd).sum + (get? k m).getD 0 = (m.map Prod.snd).sum + n := by
  induction m with
  | nil => simp [insert]
  | cons p m ih =>
    obtain ⟨hlt, hs⟩ := sorted_cons.mp hm
    rw [insert, get?_cons]
    split_ifs with h1 h2 h2
    · exact absurd h2 h1.ne
    · have hnone : get? k m = none := get?_eq_none.mpr fun q hq => (h1.trans (hlt q hq)).ne'
      simp [hnone]
      omega
    · simp only [List.map_cons, List.sum_cons, Option.getD_some]
      omega
    · have hrest := ih hs
      simp only [List.map_cons, List.sum_cons]
      omega

/-- In an entry list with repeated keys the last entry of a key counts. -/
theorem get?_ofList (xs : List (κ × α)) (k : κ) : get? k (ofList xs) = get? k xs.reverse := by
  induction xs using List.reverseRecOn with
  | nil => rfl
  | append_singleton xs p ih =>
    have hsplit : ofList (xs ++ [p]) = insert p.1 p.2 (ofList xs) := by simp [ofList]
    rw [hsplit, get?_insert, List.reverse_concat, get?_cons, ih]

end Assoc

/-- A finite map whose entries are in strictly increasing key order. -/
@[ext] structure OrderedMap (κ α : Type*) [LinearOrder κ] where
  entries : List (κ × α)
  sorted : Assoc.Sorted entries

namespace OrderedMap

/-- The map without entries. -/
def empty : OrderedMap κ α := ⟨[], Assoc.sorted_nil⟩

def insert (m : OrderedMap κ α) (k : κ) (v : α) : OrderedMap κ α :=
  ⟨Assoc.insert k v m.entries, Assoc.insert_sorted m.sorted⟩

def get? (m : OrderedMap κ α) (k : κ) : Option α := Assoc.get? k m.entries

def contains (m : OrderedMap κ α) (k : κ) : Bool := (m.get? k).isSome

def values (m : OrderedMap κ α) : List α := m.entries.map Prod.snd

def ofList (xs : List (κ × α)) : OrderedMap κ α := ⟨Assoc.ofList xs, Assoc.ofList_sorted xs⟩

instance [DecidableEq α] : DecidableEq (OrderedMap κ α) := fun m n =>
  decidable_of_iff (m.entries = n.entries) OrderedMap.ext_iff.symm

@[simp] theorem entries_insert (m : OrderedMap κ α) (k : κ) (v : α) :
    (m.insert k v).entries = Assoc.insert k v m.entries := rfl

theorem contains_eq_false {m : OrderedMap κ α} {k : κ} :
    m.contains k = false ↔ ∀ p ∈ m.entries, p.1 ≠ k := by
  rw [contains, Option.isSome_eq_false_iff, Option.isNone_iff_eq_none]
  exact Assoc.get?_eq_none

section Filing
variable {γ : Type*} (key : γ → κ) (item : γ → α)

/-- File each element of a list under its key. -/
def file (xs : List γ) : OrderedMap κ α := ofList (xs.map fun a => (key a, item a))

variable {key item}

theorem file_concat (xs : List γ) (a : γ) :
    file key item (xs ++ [a]) = (file key item xs).insert (key a) (item a) := by
  ext1
  simp [file, ofList, Assoc.ofList]

theorem exists_of_mem_file {xs : List γ} {p : κ × α} (hp : p ∈ (file key item xs).entries) :
    ∃ a ∈ xs, (key a, item a) = p := by
  induction xs using List.reverseRecOn with
  | nil => simp [file, ofList, Assoc.ofList] at hp
  | append_singleton xs a ih =>
    rw [file_concat, entries_insert, Assoc.mem_insert (file key item xs).sorted] at hp
    rcases hp with rfl | ⟨hp, -⟩
    · exact ⟨a, by simp, rfl⟩
    · obtain ⟨b, hb, hbp⟩ := ih hp
      exact ⟨b, by simp [hb], hbp⟩

theorem exists_of_mem_values {xs : List γ} {v : α} (hv : v ∈ (file key item xs).values) :
    ∃ a ∈ xs, item a = v := by
  obtain ⟨p, hp, rfl⟩ := List.mem_map.mp hv
  obtain ⟨a, ha, rfl⟩ := exists_of_mem_file hp
  exact ⟨a, ha, rfl⟩

theorem mem_file {xs : List γ} (hx : ∀ a ∈ xs, ∀ b ∈ xs, key a = key b → a = b) (p : κ × α) :
    p ∈ (file key item xs).entries ↔ ∃ a ∈ xs, (key a, item a) = p := by
  have hfun : ∀ p ∈ xs.map (fun a => (key a, item a)), ∀ q ∈ xs.map (fun a => (key a, item a)),
      p.1 = q.1 → p = q := by
    intro p hp q hq hpq
    obtain ⟨a, ha, rfl⟩ := List.mem_map.mp hp
    obtain ⟨b, hb, rfl⟩ := List.mem_map.mp hq
    rw [hx a ha b hb hpq]
  exact (Assoc.mem_ofList hfun p).trans List.mem_map

/-- When the keys identify the elements, filing forgets the order and the repetitions only. -/
theorem values_file_eq_iff (hitem : item.Injective) {xs ys : List γ}
    (hx : ∀ a ∈ xs, ∀ b ∈ xs, key a = key b → a = b)
    (hy : ∀ a ∈ ys, ∀ b ∈ ys, key a = key b → a = b) :
    (file key item xs).values = (file key item ys).values ↔ ∀ a, a ∈ xs ↔ a ∈ ys := by
  have hvalues : ∀ zs : List γ, (∀ a ∈ zs, ∀ b ∈ zs, key a = key b → a = b) →
      ∀ a, item a ∈ (file key item zs).values ↔ a ∈ zs := by
    intro zs hz a
    simp only [values, List.mem_map, mem_file hz]
    constructor
    · rintro ⟨_, ⟨b, hb, rfl⟩, hba⟩
      exact hitem hba ▸ hb
    · intro ha
      exact ⟨_, ⟨a, ha, rfl⟩, rfl⟩
  constructor
  · intro h a
    rw [← hvalues xs hx, h, hvalues ys hy]
  · intro h
    have hfile : file key item xs = file key item ys := by
      ext1
      refine Assoc.Sorted.ext (file key item xs).sorted (file key item ys).sorted fun p => ?_
      simp only [mem_file hx, mem_file hy, h]
    rw [hfile]

end Filing
end OrderedMap
end MirrorRust
