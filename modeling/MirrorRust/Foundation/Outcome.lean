import Mathlib

/-! Computations that may fail with an error value or abort with a panic, and
the behaviour of a fallible traversal of a list. -/
namespace MirrorRust

/-- Why a computation gave no result: a returned error, or a panic. -/
inductive Fault (ε : Type*)
  | error (e : ε)
  | panic (message : String)
  deriving DecidableEq, Repr

def Fault.map {ε ε' : Type*} (f : ε → ε') : Fault ε → Fault ε'
  | .error e => .error (f e)
  | .panic message => .panic message

section Traversal
variable {ε α β : Type*}

theorem bind_ok_iff {α β : Type*} {x : Except ε α} {f : α → Except ε β} {b : β} :
    x.bind f = .ok b ↔ ∃ a, x = .ok a ∧ f a = .ok b := by
  cases x <;> simp [Except.bind]

theorem ok_of_toOption {x : Except ε α} {a : α} (h : x.toOption = some a) : x = .ok a := by
  cases x with
  | error e => cases h
  | ok b => exact congrArg Except.ok (Option.some.inj h)

@[simp] theorem mapError_eq_ok {ε' : Type*} {x : Except ε α} {f : ε → ε'} {a : α} :
    x.mapError f = .ok a ↔ x = .ok a := by
  cases x <;> simp [Except.mapError]

/-- A fallible traversal succeeds with the elementwise results. -/
theorem mapM_eq_ok {f : α → Except ε β} {xs : List α} {ys : List β} :
    xs.mapM f = .ok ys ↔ List.Forall₂ (fun x y => f x = .ok y) xs ys := by
  induction xs generalizing ys with
  | nil => cases ys <;> simp [pure, Except.pure]
  | cons x xs ih =>
    rw [List.mapM_cons]
    cases hx : f x with
    | error e => cases ys <;> simp [bind, Except.bind, hx]
    | ok y =>
      cases hxs : xs.mapM f with
      | error e => cases ys <;> simp [bind, Except.bind, hx, ← ih, hxs]
      | ok zs => cases ys <;> simp [bind, Except.bind, pure, Except.pure, hx, ← ih, hxs]

theorem mapM_map_eq_ok {f : β → Except ε α} {g : α → β} {xs : List α} :
    (xs.map g).mapM f = .ok xs ↔ ∀ x ∈ xs, f (g x) = .ok x := by
  rw [mapM_eq_ok, List.forall₂_map_left_iff]
  exact List.forall₂_same

end Traversal

/-! ### Comparing elementwise images -/

section Images
variable {α β : Type*} {R : α → β → Prop} {E : α → α → Prop} {xs ys : List α} {is js : List β}

theorem exists_of_mem_image (h : List.Forall₂ R xs is) {i : β} (hi : i ∈ is) :
    ∃ x ∈ xs, R x i := by
  induction h with
  | nil => simp at hi
  | cons hr _ ih =>
    rcases List.mem_cons.mp hi with rfl | hi
    · exact ⟨_, by simp, hr⟩
    · obtain ⟨x, hx, hxi⟩ := ih hi
      exact ⟨x, by simp [hx], hxi⟩

theorem exists_image_of_mem (h : List.Forall₂ R xs is) {x : α} (hx : x ∈ xs) :
    ∃ i ∈ is, R x i :=
  exists_of_mem_image h.flip hx

/-- Images are equal as lists when the elements correspond one to one. -/
theorem image_eq_iff (hi : List.Forall₂ R xs is) (hj : List.Forall₂ R ys js)
    (h : ∀ x ∈ xs, ∀ y ∈ ys, ∀ i j, R x i → R y j → (i = j ↔ E x y)) :
    is = js ↔ List.Forall₂ E xs ys := by
  induction hi generalizing ys js with
  | nil => cases hj <;> simp
  | cons hr hrs ih =>
    cases hj with
    | nil => simp
    | cons hs hss =>
      rw [List.cons.injEq, List.forall₂_cons, h _ (by simp) _ (by simp) _ _ hr hs,
        ih hss fun x hx y hy => h x (by simp [hx]) y (by simp [hy])]

/-- Images have the same members when each element of one side has a counterpart. -/
theorem image_mem_iff (hi : List.Forall₂ R xs is) (hj : List.Forall₂ R ys js)
    (h : ∀ x ∈ xs, ∀ y ∈ ys, ∀ i j, R x i → R y j → (i = j ↔ E x y)) :
    (∀ i, i ∈ is ↔ i ∈ js) ↔ (∀ x ∈ xs, ∃ y ∈ ys, E x y) ∧ (∀ y ∈ ys, ∃ x ∈ xs, E x y) := by
  constructor
  · intro hmem
    constructor
    · intro x hx
      obtain ⟨i, hi', hxi⟩ := exists_image_of_mem hi hx
      obtain ⟨y, hy, hyi⟩ := exists_of_mem_image hj ((hmem i).mp hi')
      exact ⟨y, hy, (h x hx y hy i i hxi hyi).mp rfl⟩
    · intro y hy
      obtain ⟨j, hj', hyj⟩ := exists_image_of_mem hj hy
      obtain ⟨x, hx, hxj⟩ := exists_of_mem_image hi ((hmem j).mpr hj')
      exact ⟨x, hx, (h x hx y hy j j hxj hyj).mp rfl⟩
  · intro hE i
    constructor
    · intro hi'
      obtain ⟨x, hx, hxi⟩ := exists_of_mem_image hi hi'
      obtain ⟨y, hy, hxy⟩ := hE.1 x hx
      obtain ⟨j, hj', hyj⟩ := exists_image_of_mem hj hy
      rwa [(h x hx y hy i j hxi hyj).mpr hxy]
    · intro hi'
      obtain ⟨y, hy, hyi⟩ := exists_of_mem_image hj hi'
      obtain ⟨x, hx, hxy⟩ := hE.2 y hy
      obtain ⟨j, hj', hxj⟩ := exists_image_of_mem hi hx
      rwa [← (h x hx y hy j i hxj hyi).mpr hxy]

end Images

/-! ### Traversals in two steps -/

section Steps
variable {α β γ : Type*}

theorem forall₂_comp {R : α → β → Prop} {S : β → γ → Prop} {xs : List α}
    {ys : List β} {zs : List γ} (hxy : List.Forall₂ R xs ys) (hyz : List.Forall₂ S ys zs) :
    List.Forall₂ (fun x z => ∃ y, R x y ∧ S y z) xs zs := by
  induction hxy generalizing zs with
  | nil =>
    cases hyz
    exact .nil
  | cons hr _ ih =>
    cases hyz with
    | cons hs hyz => exact .cons ⟨_, hr, hs⟩ (ih hyz)

theorem exists_middle {R : α → γ → Prop} {S : α → β → Prop} {T : β → γ → Prop}
    {xs : List α} {zs : List γ} (hall : List.Forall₂ R xs zs)
    (h : ∀ x ∈ xs, ∀ z, R x z → ∃ y, S x y ∧ T y z) :
    ∃ ys, List.Forall₂ S xs ys ∧ List.Forall₂ T ys zs := by
  induction hall with
  | nil => exact ⟨[], .nil, .nil⟩
  | @cons x z xs zs hxz _ ih =>
    obtain ⟨hx, hxs⟩ := List.forall_mem_cons.mp h
    obtain ⟨y, hy, hyz⟩ := hx z hxz
    obtain ⟨ys, hys, hyzs⟩ := ih hxs
    exact ⟨y :: ys, .cons hy hys, .cons hyz hyzs⟩

theorem exists_forall₂ {R : α → β → Prop} {xs : List α}
    (h : ∀ x ∈ xs, ∃ y, R x y) : ∃ ys, List.Forall₂ R xs ys := by
  induction xs with
  | nil => exact ⟨[], .nil⟩
  | cons x xs ih =>
    obtain ⟨⟨y, hy⟩, hxs⟩ := List.forall_mem_cons.mp h
    obtain ⟨ys, hys⟩ := ih hxs
    exact ⟨y :: ys, .cons hy hys⟩

/-- The results of two traversals are the same when they are the same at every element. -/
theorem exists_images {R S : α → β → Prop} {P : α → Prop} {xs : List α} {ys : List β}
    (hall : List.Forall₂ R xs ys)
    (h : ∀ x ∈ xs, ∀ y, R x y → ∃ z, S x z ∧ (z = y ↔ P x)) :
    ∃ zs, List.Forall₂ S xs zs ∧ (zs = ys ↔ ∀ x ∈ xs, P x) := by
  induction hall with
  | nil => exact ⟨[], .nil, by simp⟩
  | @cons x y xs ys hxy _ ih =>
    obtain ⟨hx, hxs⟩ := List.forall_mem_cons.mp h
    obtain ⟨z, hz, hzy⟩ := hx y hxy
    obtain ⟨zs, hzs, hzsys⟩ := ih hxs
    exact ⟨z :: zs, .cons hz hzs, by rw [List.cons.injEq, hzy, hzsys, List.forall_mem_cons]⟩

end Steps
end MirrorRust
