import MirrorRust.Schedule
import MirrorRust.Foundation.Interleaving

/-! The bounded search for schedules of a set of actor chains, and what it lists. -/
namespace MirrorRust

structure ActorChain where
  actor : ActorDeclaration
  checkpoints : List String

namespace ActorChain

def name (c : ActorChain) : String := c.actor.actor

def steps (c : ActorChain) : List Step := c.checkpoints.map fun p => ⟨c.name, p⟩

end ActorChain

/-- One look at the cancellation flag and the clock. -/
structure Poll where
  cancelled : Bool
  expired : Bool
  recheck : Bool

def Poll.quiet : Poll := ⟨false, false, false⟩

structure Enumeration where
  shapes : List (List Step)
  exhausted : Bool
  reason : String
  deriving DecidableEq

structure Enumerator where
  actors : List ActorChain
  positions : List ℕ
  current : List Step
  length : ℕ
  bound : ℕ
  cap : ℕ
  polls : ℕ → Poll
  ticks : ℕ
  result : Enumeration

namespace Enumerator

def stop (e : Enumerator) (reason : String) : Enumerator :=
  { e with result := { e.result with exhausted := false, reason := reason } }

def push (e : Enumerator) (i : ℕ) (step : Step) : Enumerator :=
  { e with positions := e.positions.modify i (· + 1), current := e.current ++ [step] }

def pop (e : Enumerator) (i : ℕ) : Enumerator :=
  { e with positions := e.positions.modify i (· - 1), current := e.current.dropLast }

def position (e : Enumerator) (i : ℕ) : ℕ := e.positions.getD i 0

/-- `positions[p] < actors[p].checkpoints.len()`. -/
def unfinished (e : Enumerator) (p : ℕ) : Bool :=
  e.position p < (e.actors[p]?.elim 0 fun c => c.checkpoints.length)

def extra (e : Enumerator) (prior : Option ℕ) (i : ℕ) : ℕ :=
  if prior.any fun p => p != i && e.unfinished p then 1 else 0

/-- The loop of `visit` over the actors; `child` is the recursive call. -/
def visitActors (child : Option ℕ → ℕ → Enumerator → Option Enumerator) (prior : Option ℕ)
    (preemptions : ℕ) : List (ActorChain × ℕ) → Enumerator → Option Enumerator
  | [], e => some e
  | (c, i) :: rest, e =>
    let next := e.position i
    if next = c.checkpoints.length then visitActors child prior preemptions rest e
    else if preemptions + e.extra prior i > e.bound then
      visitActors child prior preemptions rest e
    else
      match c.checkpoints[next]? with
      | none => none
      | some checkpoint =>
        match child (some i) (preemptions + e.extra prior i) (e.push i ⟨c.name, checkpoint⟩) with
        | none => none
        | some e =>
          let e := e.pop i
          if !e.result.exhausted then some e else visitActors child prior preemptions rest e

/-- `visit` with a bound on the depth of the recursion; `none` when the bound is reached. -/
def visit : ℕ → Option ℕ → ℕ → Enumerator → Option Enumerator
  | 0, _, _, _ => none
  | fuel + 1, prior, preemptions, e =>
    if !e.result.exhausted then some e
    else
      let poll := e.polls e.ticks
      let e := { e with ticks := e.ticks + 1 }
      if poll.cancelled || poll.expired then
        some (e.stop (if poll.recheck then "cancelled" else "time_budget"))
      else if e.current.length = e.length then
        if e.result.shapes.length = e.cap then some (e.stop "enumeration_limit")
        else some { e with result := { e.result with shapes := e.result.shapes ++ [e.current] } }
      else visitActors (visit fuel) prior preemptions e.actors.zipIdx e

end Enumerator

/-- Actors by name. -/
def sortActors (actors : List ActorChain) : List ActorChain :=
  actors.insertionSort fun a b => a.name ≤ b.name

/-- The search that an exploration makes over the given actors. -/
def enumerator (actors : List ActorChain) (bound cap : ℕ) (polls : ℕ → Poll) : Enumerator :=
  { actors := actors
    positions := List.replicate actors.length 0
    current := []
    length := (actors.map fun c => c.checkpoints.length).sum
    bound := bound
    cap := cap
    polls := polls
    ticks := 0
    result := { shapes := [], exhausted := true, reason := "" } }

def enumerate (actors : List ActorChain) (bound cap : ℕ) (polls : ℕ → Poll) : Option Enumerator :=
  let e := enumerator (sortActors actors) bound cap polls
  e.visit (e.length + 1) none 0

/-! ### What the search lists -/

/-- The steps of an actor, in order; none for an actor that is not declared. -/
def stepsOf (chains : List ActorChain) (actor : String) : List Step :=
  (chains.find? fun c => c.name = actor).elim [] ActorChain.steps

/-- A merge of the chains that keeps the order of every chain. -/
def IsMerge (chains : List ActorChain) (w : List Step) : Prop :=
  Interleaves Step.actor (stepsOf chains) w

/-- The switches of a schedule away from an actor that still has steps left. -/
def Step.preemptions (w : List Step) : ℕ := MirrorRust.preemptions Step.actor none w

/-- Lexicographic order by the names of the actors. -/
def WordLt (v w : List Step) : Prop := KeyLt Step.actor v w

namespace Enumerator

def names (e : Enumerator) : List String := e.actors.map ActorChain.name

def priorName (e : Enumerator) (prior : Option ℕ) : Option String :=
  prior.bind fun p => e.actors[p]?.map ActorChain.name

/-- The positions of the search say which steps of every chain are left. -/
structure Aligned (e : Enumerator) (rem : String → List Step) : Prop where
  sorted : e.names.Pairwise (· < ·)
  within : ∀ (i : ℕ) (c : ActorChain), e.actors[i]? = some c → e.position i ≤ c.checkpoints.length
  left : ∀ (i : ℕ) (c : ActorChain), e.actors[i]? = some c →
    rem c.name = c.steps.drop (e.position i)
  positions : e.positions.length = e.actors.length
  count : e.current.length + total rem e.names = e.length
  room : e.result.shapes.length ≤ e.cap

/-- Only the number of looks and the result differ. -/
def Restores (e e' : Enumerator) : Prop :=
  ∃ ticks result, e' = { e with ticks := ticks, result := result }

/-- How a visit that was to list the words `ws` ends. -/
inductive Collected (e : Enumerator) (ws : List (List Step)) (e' : Enumerator) : Prop
  | all (exhausted : e'.result.exhausted = true)
      (shapes : e'.result.shapes = e.result.shapes ++ ws)
      (room : e'.result.shapes.length ≤ e.cap)
  | capped (exhausted : e'.result.exhausted = false)
      (shapes : e'.result.shapes = (e.result.shapes ++ ws).take e.cap)
      (beyond : e.cap < (e.result.shapes ++ ws).length)
  | interrupted (exhausted : e'.result.exhausted = false)
      (poll : ∃ n, (e.polls n).cancelled ∨ (e.polls n).expired)
      (listed : e'.result.shapes <+: e.result.shapes ++ ws)

variable {e e' e'' : Enumerator} {rem : String → List Step} {xs ys : List (List Step)}

/-- A search that has stopped lists nothing more. -/
theorem Collected.stopped (h : Collected e xs e') (hstop : e'.result.exhausted = false)
    (ys : List (List Step)) : Collected e (xs ++ ys) e' := by
  cases h with
  | all hex _ _ => simp [hex] at hstop
  | capped _ hs hover =>
    refine .capped hstop ?_ ?_
    · have htake := @List.take_append_of_le_length _ _ ys _ hover.le
      rw [hs, ← List.append_assoc, htake]
    · rw [← List.append_assoc, List.length_append]
      omega
  | interrupted _ hp hlisted =>
    refine .interrupted hstop hp (hlisted.trans ?_)
    rw [← List.append_assoc]
    exact List.prefix_append _ _

/-- Two visits in sequence. -/
theorem Collected.trans (h : Collected e xs e') (hex : e'.result.exhausted = true)
    (hr : Restores e e') (h' : Collected e' ys e'') : Collected e (xs ++ ys) e'' := by
  cases h with
  | all _ hs _ =>
    obtain ⟨t, r, rfl⟩ := hr
    simp only at hs
    cases h' with
    | all hex' hs' hroom => exact .all hex' (by rw [hs', hs, List.append_assoc]) hroom
    | capped hex' hs' hover =>
      refine .capped hex' (by rw [hs', hs, List.append_assoc]) ?_
      simpa only [hs, List.append_assoc] using hover
    | interrupted hex' hp hlisted =>
      exact .interrupted hex' hp (by simpa only [hs, List.append_assoc] using hlisted)
  | capped hex' _ _ => simp [hex] at hex'
  | interrupted hex' _ _ => simp [hex] at hex'

theorem Collected.ticked {n : ℕ} (h : Collected { e with ticks := n } xs e') :
    Collected e xs e' := by
  cases h with
  | all hex hs hroom => exact .all hex hs hroom
  | capped hex hs hbeyond => exact .capped hex hs hbeyond
  | interrupted hex hp hlisted => exact .interrupted hex hp hlisted

/-- Whatever a visit lists is among the words. -/
theorem Collected.subset (h : Collected e xs e') : e'.result.shapes ⊆ e.result.shapes ++ xs := by
  cases h with
  | all _ hs _ => exact hs ▸ List.Subset.refl _
  | capped _ hs _ => exact hs ▸ List.take_subset _ _
  | interrupted _ _ hlisted => exact hlisted.subset

theorem Restores.trans (h : Restores e e') (h' : Restores e' e'') : Restores e e'' := by
  obtain ⟨_, _, rfl⟩ := h
  obtain ⟨t, r, rfl⟩ := h'
  exact ⟨t, r, rfl⟩

theorem Aligned.restored (h : Aligned e rem) (hr : Restores e e')
    (hroom : e'.result.shapes.length ≤ e.cap) : Aligned e' rem := by
  obtain ⟨t, r, rfl⟩ := hr
  exact ⟨h.sorted, h.within, h.left, h.positions, h.count, hroom⟩

theorem Aligned.nodup (h : Aligned e rem) : e.names.Nodup := h.sorted.imp fun hlt => hlt.ne

theorem Aligned.index_eq (h : Aligned e rem) {i j : ℕ} {c d : ActorChain}
    (hi : e.actors[i]? = some c) (hj : e.actors[j]? = some d) (hcd : c.name = d.name) : i = j := by
  have hi' : e.names[i]? = some c.name := by rw [names, List.getElem?_map, hi, Option.map_some]
  have hj' : e.names[j]? = some c.name := by rw [names, List.getElem?_map, hj, hcd, Option.map_some]
  obtain ⟨hilt, -⟩ := List.getElem?_eq_some_iff.mp hi'
  exact (List.getElem?_inj hilt h.nodup).mp (hi'.trans hj'.symm)

theorem Aligned.finished_iff (h : Aligned e rem) {i : ℕ} {c : ActorChain}
    (hi : e.actors[i]? = some c) : rem c.name = [] ↔ e.position i = c.checkpoints.length := by
  have hle := h.within i c hi
  rw [h.left i c hi, List.drop_eq_nil_iff, ActorChain.steps, List.length_map]
  omega

theorem Aligned.extra_eq (h : Aligned e rem) {i : ℕ} {c : ActorChain}
    (hi : e.actors[i]? = some c) (prior : Option ℕ) :
    e.extra prior i = switchCost rem (e.priorName prior) c.name := by
  cases prior with
  | none => simp [extra, switchCost, priorName]
  | some p =>
    cases hp : e.actors[p]? with
    | none => simp [extra, switchCost, priorName, unfinished, hp]
    | some d =>
      have hne : p ≠ i ↔ d.name ≠ c.name := by
        constructor
        · exact fun hpi hdc => hpi (h.index_eq hp hi hdc)
        · rintro hdc rfl
          exact hdc (by rw [Option.some.inj (hp.symm.trans hi)])
      have hleft : e.position p < d.checkpoints.length ↔ rem d.name ≠ [] := by
        have hle := h.within p d hp
        rw [Ne, h.finished_iff hp]
        omega
      simp [extra, switchCost, priorName, unfinished, hp, ← hne, ← hleft]

/-- Taking the next step of an actor moves one letter from its chain to the word. -/
theorem Aligned.push (h : Aligned e rem) {i : ℕ} {c : ActorChain} {checkpoint : String}
    (hi : e.actors[i]? = some c) (hc : c.checkpoints[e.position i]? = some checkpoint) :
    ∃ rest, rem c.name = ⟨c.name, checkpoint⟩ :: rest ∧
      Aligned (e.push i ⟨c.name, checkpoint⟩) (Function.update rem c.name rest) := by
  obtain ⟨hlt, hget⟩ := List.getElem?_eq_some_iff.mp hc
  have hlen : e.position i < c.steps.length := by rwa [ActorChain.steps, List.length_map]
  have hrem : rem c.name = ⟨c.name, checkpoint⟩ :: c.steps.drop (e.position i + 1) := by
    rw [h.left i c hi, List.drop_eq_getElem_cons hlen]
    simp [ActorChain.steps, hget]
  have hi' : i < e.positions.length := by
    rw [h.positions]
    exact (List.getElem?_eq_some_iff.mp hi).1
  have hposition : ∀ j, (e.push i ⟨c.name, checkpoint⟩).position j =
      if i = j then e.position j + 1 else e.position j := by
    intro j
    simp only [Enumerator.push, position, List.getD_eq_getElem?_getD, List.getElem?_modify]
    split_ifs with hij
    · subst hij
      simp [hi']
    · cases e.positions[j]? <;> rfl
  refine ⟨_, hrem, h.sorted, ?_, ?_, by simpa [Enumerator.push] using h.positions, ?_, h.room⟩
  · intro j d hj
    rw [hposition]
    split_ifs with hij
    · subst hij
      rw [← Option.some.inj (hi.symm.trans hj)]
      omega
    · exact h.within j d hj
  · intro j d hj
    rw [hposition]
    split_ifs with hij
    · subst hij
      rw [← Option.some.inj (hi.symm.trans hj), Function.update_self]
    · have hne : d.name ≠ c.name := fun hdc => hij (h.index_eq hj hi hdc).symm
      rw [Function.update_of_ne hne]
      exact h.left j d hj
  · have hmem : c.name ∈ e.names :=
      List.mem_map_of_mem (List.mem_of_getElem? hi)
    have htotal := total_update h.nodup hmem hrem
    have hcount := h.count
    show (e.current ++ [_]).length + total _ e.names = e.length
    rw [List.length_append, List.length_singleton]
    omega

theorem pop_push (e : Enumerator) (i : ℕ) (step : Step) (ticks : ℕ) (result : Enumeration) :
    { e.push i step with ticks := ticks, result := result }.pop i =
      { e with ticks := ticks, result := result } := by
  have hmodify : (e.positions.modify i (· + 1)).modify i (· - 1) = e.positions := by
    rw [List.modify_modify_eq]
    exact List.modify_id i e.positions
  simp [push, pop, hmodify]

/-- What `visit` does from an aligned state with `n` steps left, for a given depth bound. -/
def Visits (fuel n : ℕ) : Prop :=
  ∀ (prior : Option ℕ) (spent : ℕ) (e : Enumerator) (rem : String → List Step),
    Aligned e rem → total rem e.names = n → e.result.exhausted = true →
    ∃ e', e.visit fuel prior spent = some e' ∧ Restores e e' ∧
      Collected e ((merges e.bound e.names n (e.priorName prior) spent rem).map (e.current ++ ·)) e'

/-- The recursive call for one actor, seen from the caller. -/
theorem visit_child {fuel n : ℕ} (ih : Visits fuel n) (h : Aligned e rem)
    (hn : total rem e.names = n + 1) (hex : e.result.exhausted = true) {i : ℕ} {c : ActorChain}
    {checkpoint : String} (hi : e.actors[i]? = some c)
    {rest : List Step} (hrem : rem c.name = ⟨c.name, checkpoint⟩ :: rest)
    (hpush : Aligned (e.push i ⟨c.name, checkpoint⟩) (Function.update rem c.name rest))
    (spent : ℕ) :
    ∃ t r, (e.push i ⟨c.name, checkpoint⟩).visit fuel (some i) spent =
        some { e.push i ⟨c.name, checkpoint⟩ with ticks := t, result := r } ∧
      Collected e (((merges e.bound e.names n (some c.name) spent
        (Function.update rem c.name rest)).map (⟨c.name, checkpoint⟩ :: ·)).map (e.current ++ ·))
          { e with ticks := t, result := r } := by
  have hmem : c.name ∈ e.names := List.mem_map_of_mem (List.mem_of_getElem? hi)
  have htotal : total (Function.update rem c.name rest) e.names = n := by
    have := total_update h.nodup hmem hrem
    omega
  obtain ⟨_, hvisit, ⟨t, r, rfl⟩, hcol⟩ := ih (some i) spent _ _ hpush htotal hex
  refine ⟨t, r, hvisit, ?_⟩
  have hprior : (e.push i ⟨c.name, checkpoint⟩).priorName (some i) = some c.name := by
    simp [priorName, Enumerator.push, hi]
  have hwords : ∀ ws : List (List Step),
      ws.map ((e.push i ⟨c.name, checkpoint⟩).current ++ ·) =
        (ws.map (⟨c.name, checkpoint⟩ :: ·)).map (e.current ++ ·) := by
    simp [Enumerator.push]
  rw [hprior, hwords] at hcol
  cases hcol with
  | all hex' hs hroom => exact .all hex' hs hroom
  | capped hex' hs hbeyond => exact .capped hex' hs hbeyond
  | interrupted hex' hp hlisted => exact .interrupted hex' hp hlisted

theorem visitActors_collects {fuel n : ℕ} (ih : Visits fuel n) {prior : Option ℕ} {spent : ℕ}
    {cs : List (ActorChain × ℕ)} {e : Enumerator} {rem : String → List Step}
    (hcs : ∀ p ∈ cs, e.actors[p.2]? = some p.1) (h : Aligned e rem)
    (hn : total rem e.names = n + 1) (hex : e.result.exhausted = true) :
    ∃ e', visitActors (visit fuel) prior spent cs e = some e' ∧
      Restores e e' ∧
      Collected e (((cs.map fun p => p.1.name).flatMap
        (branch (merges e.bound e.names n) e.bound (e.priorName prior) spent rem)).map
          (e.current ++ ·)) e' := by
  induction cs generalizing e with
  | nil => exact ⟨e, rfl, ⟨e.ticks, e.result, rfl⟩, .all hex (by simp) h.room⟩
  | cons p cs ihcs =>
    obtain ⟨c, i⟩ := p
    have hi : e.actors[i]? = some c := hcs (c, i) (by simp)
    have hrest := fun p hp => hcs p (List.mem_cons_of_mem _ hp)
    rw [visitActors, List.map_cons, List.flatMap_cons, List.map_append]
    by_cases hdone : e.position i = c.checkpoints.length
    · rw [if_pos hdone, branch, (h.finished_iff hi).mpr hdone]
      exact ihcs hrest h hn hex
    · obtain ⟨checkpoint, hc⟩ : ∃ checkpoint, c.checkpoints[e.position i]? = some checkpoint := by
        have hle := h.within i c hi
        exact ⟨_, List.getElem?_eq_getElem (by omega)⟩
      obtain ⟨rest, hrem, hpush⟩ := h.push hi hc
      rw [if_neg hdone, h.extra_eq hi, branch, hrem]
      simp only
      by_cases hb : spent + switchCost rem (e.priorName prior) c.name > e.bound
      · rw [if_pos hb, if_pos hb]
        exact ihcs hrest h hn hex
      · obtain ⟨t, r, hvisit, hcol⟩ := visit_child ih h hn hex hi hrem hpush
          (spent + switchCost rem (e.priorName prior) c.name)
        rw [if_neg hb, if_neg hb, hc]
        simp only [hvisit, pop_push]
        have hrestores : Restores e { e with ticks := t, result := r } := ⟨t, r, rfl⟩
        by_cases hstop : r.exhausted = true
        · have hroom : r.shapes.length ≤ e.cap := by
            cases hcol with
            | all _ _ hroom => exact hroom
            | capped hex' _ _ => simp [hstop] at hex'
            | interrupted hex' _ _ => simp [hstop] at hex'
          obtain ⟨e', hrun, hr', hcol'⟩ := ihcs (e := { e with ticks := t, result := r }) hrest
            (h.restored hrestores hroom) hn hstop
          simp only [hstop, Bool.not_true, Bool.false_eq_true, if_false]
          exact ⟨e', hrun, hrestores.trans hr', hcol.trans hstop hrestores hcol'⟩
        · simp only [hstop, Bool.not_false, if_true]
          exact ⟨_, rfl, hrestores, hcol.stopped (by simpa using hstop) _⟩

/-- From every aligned state the search collects the merges that are left. -/
theorem visits {fuel n : ℕ} (hfuel : n < fuel) : Visits fuel n := by
  induction fuel generalizing n with
  | zero => omega
  | succ fuel ih =>
    intro prior spent e rem h hn hex
    rw [visit, hex]
    simp only [Bool.not_true, Bool.false_eq_true, if_false]
    by_cases hpoll : (e.polls e.ticks).cancelled || (e.polls e.ticks).expired
    · rw [if_pos hpoll]
      exact ⟨_, rfl, ⟨_, _, rfl⟩,
        .interrupted rfl ⟨e.ticks, by simpa using hpoll⟩ (List.prefix_append _ _)⟩
    · rw [if_neg hpoll]
      have hcount := h.count
      have hroom := h.room
      by_cases hleaf : e.current.length = e.length
      · obtain rfl : n = 0 := by omega
        rw [if_pos hleaf, merges]
        by_cases hcap : e.result.shapes.length = e.cap
        · rw [if_pos hcap]
          refine ⟨_, rfl, ⟨_, _, rfl⟩, .capped rfl ?_ ?_⟩
          · simp [stop, ← hcap]
          · simp [hcap]
        · rw [if_neg hcap]
          refine ⟨_, rfl, ⟨_, _, rfl⟩, .all hex (by simp) ?_⟩
          simp only [List.length_append, List.length_singleton]
          omega
      · rw [if_neg hleaf]
        obtain ⟨m, rfl⟩ : ∃ m, n = m + 1 := ⟨n - 1, by omega⟩
        have hcs : ∀ p ∈ e.actors.zipIdx, e.actors[p.2]? = some p.1 := fun p hp =>
          List.mem_zipIdx_iff_getElem?.mp hp
        have htick : Restores e { e with ticks := e.ticks + 1 } := ⟨_, _, rfl⟩
        have hvisits : Visits fuel m := ih (by omega)
        have haligned : Aligned { e with ticks := e.ticks + 1 } rem := h.restored htick hroom
        obtain ⟨e', hrun, hr, hcol⟩ := visitActors_collects (e := { e with ticks := e.ticks + 1 })
          hvisits hcs haligned hn hex
        refine ⟨e', hrun, htick.trans hr, ?_⟩
        have hnames : (e.actors.zipIdx.map fun p => p.1.name) = e.names := by
          have hfst := congrArg (List.map ActorChain.name) (List.zipIdx_map_fst 0 e.actors)
          rwa [List.map_map] at hfst
        rw [hnames] at hcol
        exact hcol.ticked

end Enumerator

/-! ### The search of an exploration -/

theorem sortActors_perm (chains : List ActorChain) : (sortActors chains).Perm chains :=
  List.perm_insertionSort _ chains

theorem sortActors_sorted {chains : List ActorChain}
    (hnames : (chains.map ActorChain.name).Nodup) :
    ((sortActors chains).map ActorChain.name).Pairwise (· < ·) := by
  have hmap : (sortActors chains).map ActorChain.name =
      (chains.map ActorChain.name).insertionSort (· ≤ ·) :=
    List.map_insertionSort _ _ ActorChain.name chains fun _ _ _ _ => Iff.rfl
  have hle := List.pairwise_insertionSort (· ≤ ·) (chains.map ActorChain.name)
  have hnodup : ((sortActors chains).map ActorChain.name).Nodup :=
    ((sortActors_perm chains).map _).nodup_iff.mpr hnames
  rw [hmap] at hnodup ⊢
  exact (hle.and hnodup).imp fun h => lt_of_le_of_ne h.1 h.2

/-- The chain of a declared actor, when no two actors have the same name. -/
theorem stepsOf_eq {chains : List ActorChain} (hnames : (chains.map ActorChain.name).Nodup)
    {c : ActorChain} (hc : c ∈ chains) : stepsOf chains c.name = c.steps := by
  cases hfind : chains.find? fun d => d.name = c.name with
  | none =>
    have hne := List.find?_eq_none.mp hfind c hc
    simp at hne
  | some d =>
    have hname : d.name = c.name := by simpa using List.find?_some hfind
    have hdc : d = c :=
      List.inj_on_of_nodup_map hnames (List.mem_of_find?_eq_some hfind) hc hname
    rw [stepsOf, hfind, hdc, Option.elim_some]

theorem stepsOf_other {chains : List ActorChain} {a : String}
    (ha : a ∉ chains.map ActorChain.name) : stepsOf chains a = [] := by
  have hfind : (chains.find? fun c => c.name = a) = none := by
    rw [List.find?_eq_none]
    intro c hc hca
    exact ha (by simpa using ⟨c, hc, by simpa using hca⟩)
  rw [stepsOf, hfind, Option.elim_none]

theorem wellKeyed_stepsOf (chains : List ActorChain) :
    WellKeyed Step.actor ((sortActors chains).map ActorChain.name) (stepsOf chains) := by
  constructor
  · intro a s hs
    cases hfind : chains.find? fun c => c.name = a with
    | none => simp [stepsOf, hfind] at hs
    | some c =>
      have hname : c.name = a := by simpa using List.find?_some hfind
      simp only [stepsOf, hfind, Option.elim_some, ActorChain.steps, List.mem_map] at hs
      obtain ⟨p, -, rfl⟩ := hs
      exact hname
  · intro a ha
    refine stepsOf_other fun hmem => ha ?_
    exact ((sortActors_perm chains).map _).mem_iff.mpr hmem

/-- The merges of the chains within the preemption bound, in lexicographic order. -/
def boundedMerges (chains : List ActorChain) (bound : ℕ) : List (List Step) :=
  let names := (sortActors chains).map ActorChain.name
  merges bound names (total (stepsOf chains) names) none 0 (stepsOf chains)

theorem listing_boundedMerges {chains : List ActorChain}
    (hnames : (chains.map ActorChain.name).Nodup) (bound : ℕ) :
    Listing WordLt (fun w => IsMerge chains w ∧ Step.preemptions w ≤ bound)
      (boundedMerges chains bound) := by
  refine (listing_merges (sortActors_sorted hnames) (wellKeyed_stepsOf chains) rfl
    (Nat.zero_le bound)).congr fun w => ?_
  rw [Bounded, Nat.zero_add, IsMerge, Step.preemptions]

theorem enumerator_aligned {chains : List ActorChain}
    (hnames : (chains.map ActorChain.name).Nodup) (bound cap : ℕ) (polls : ℕ → Poll) :
    (enumerator (sortActors chains) bound cap polls).Aligned (stepsOf chains) := by
  have hposition : ∀ i, (enumerator (sortActors chains) bound cap polls).position i = 0 := by
    intro i
    simp only [enumerator, Enumerator.position, List.getD_eq_getElem?_getD, List.getElem?_replicate]
    split_ifs <;> rfl
  refine ⟨sortActors_sorted hnames, ?_, ?_, by simp [enumerator], ?_, Nat.zero_le _⟩
  · intro i c _
    simp [hposition]
  · intro i c hc
    have hmem : c ∈ chains := (sortActors_perm chains).mem_iff.mp (List.mem_of_getElem? hc)
    rw [stepsOf_eq hnames hmem, hposition, List.drop_zero]
  · simp only [enumerator, Enumerator.names, total, List.length_nil, Nat.zero_add, List.map_map]
    congr 1
    refine List.map_congr_left fun c hc => ?_
    have hmem : c ∈ chains := (sortActors_perm chains).mem_iff.mp hc
    simp [stepsOf_eq hnames hmem, ActorChain.steps]

theorem enumerate_collects {chains : List ActorChain}
    (hnames : (chains.map ActorChain.name).Nodup) (bound cap : ℕ) (polls : ℕ → Poll) :
    ∃ e, enumerate chains bound cap polls = some e ∧
      Enumerator.Collected (enumerator (sortActors chains) bound cap polls)
        (boundedMerges chains bound) e := by
  have haligned := enumerator_aligned hnames bound cap polls
  have hcount := haligned.count
  have hlength : total (stepsOf chains) ((sortActors chains).map ActorChain.name) =
      (enumerator (sortActors chains) bound cap polls).length := by
    simpa [enumerator, Enumerator.names] using hcount
  obtain ⟨e, hvisit, -, hcol⟩ := Enumerator.visits (Nat.lt_succ_self _) none 0 _ _ haligned
    hlength rfl
  refine ⟨e, hvisit, ?_⟩
  have hmap : ∀ ws : List (List Step), ws.map ([] ++ ·) = ws := by simp
  rw [boundedMerges, hlength, ← hmap (merges _ _ _ _ _ _)]
  exact hcol

/-- Without interruption the search returns the first `cap` of exactly the order preserving
merges within the preemption bound, in lexicographic order without repetition, and reports
exhaustion exactly when there are no more. -/
theorem enumerate_exact {chains : List ActorChain}
    (hnames : (chains.map ActorChain.name).Nodup) (bound cap : ℕ) :
    ∃ all e, enumerate chains bound cap (fun _ => .quiet) = some e ∧
      Listing WordLt (fun w => IsMerge chains w ∧ Step.preemptions w ≤ bound) all ∧ all.Nodup ∧
      e.result.shapes = all.take cap ∧ (e.result.exhausted = true ↔ all.length ≤ cap) := by
  have hlisting := listing_boundedMerges hnames bound
  obtain ⟨e, hrun, hcol⟩ := enumerate_collects hnames bound cap fun _ => .quiet
  have : Std.Irrefl WordLt := ⟨fun w => lt_irrefl (w.map Step.actor)⟩
  refine ⟨_, e, hrun, hlisting, hlisting.nodup, ?_⟩
  cases hcol with
  | all hex hs hroom =>
    rw [hs] at hroom ⊢
    have hle : (boundedMerges chains bound).length ≤ cap := by simpa [enumerator] using hroom
    exact ⟨(List.take_of_length_le hle).symm, by simp [hex, hle]⟩
  | capped hex hs hbeyond =>
    have hlt : cap < (boundedMerges chains bound).length := by simpa [enumerator] using hbeyond
    exact ⟨by simpa [enumerator] using hs, by simp [hex, hlt]⟩
  | interrupted _ hp _ =>
    obtain ⟨n, hn⟩ := hp
    simp [enumerator, Poll.quiet] at hn

/-- Two actors with three merges, of which a cap of two keeps the first two. -/
theorem enumerate_exact_two_actors :
    ∃ all e, enumerate [⟨⟨"b", "y"⟩, ["$done"]⟩, ⟨⟨"a", "x"⟩, ["r", "$done"]⟩] 1 2
        (fun _ => .quiet) = some e ∧
      Listing WordLt (fun w => IsMerge [⟨⟨"b", "y"⟩, ["$done"]⟩, ⟨⟨"a", "x"⟩, ["r", "$done"]⟩] w ∧
        Step.preemptions w ≤ 1) all ∧ all.Nodup ∧
      e.result.shapes = all.take 2 ∧ (e.result.exhausted = true ↔ all.length ≤ 2) :=
  enumerate_exact (by decide) 1 2

end MirrorRust
