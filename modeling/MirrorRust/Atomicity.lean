import MirrorRust.Verdict

/-! Which runs the coverage of an exploration counts. The observations of a run are recorded one by
one, and a run that fails at a later observation leaves the earlier ones in the tables. -/
namespace MirrorRust

section Walk
variable {α : Type*} [DecidableEq α]

theorem transitions_append (walks others : List (List α)) (a b : α) :
    transitions (walks ++ others) a b = transitions walks a b + transitions others a b := by
  simp [transitions]

/-- A walk of two places or more has a step. -/
theorem exists_step {w : List α} (h : 1 < w.length) : ∃ a ∈ w, ∃ b ∈ w, 0 < steps w a b := by
  match w with
  | [] => simp at h
  | [_] => simp at h
  | a :: b :: w =>
    refine ⟨a, by simp, b, by simp, ?_⟩
    rw [steps_cons_cons, if_pos ⟨rfl, rfl⟩]
    omega

theorem steps_eq_zero {w : List α} (h : w.length ≤ 1) (a b : α) : steps w a b = 0 := by
  match w with
  | [] => rfl
  | [_] => rfl
  | _ :: _ :: _ => simp at h

theorem steps_le_transitions {walks : List (List α)} {w : List α} (h : w ∈ walks) (a b : α) :
    steps w a b ≤ transitions walks a b :=
  List.single_le_sum (fun _ _ => Nat.zero_le _) _ (List.mem_map_of_mem h)

end Walk

/-- The states of an output are the keys of these walks, and its transitions count their steps. -/
structure Exploration.Counts (out : Exploration) (walks : List (List String)) : Prop where
  distinct : (out.states.map StateRow.canonical).Nodup
  states : ∀ key, key ∈ out.states.map StateRow.canonical ↔ ∃ w ∈ walks, key ∈ w
  steps : ∀ s ∈ out.states, ∀ t ∈ out.states,
    (Assoc.get? (toLex (s.id, t.id)) out.transitions).getD 0 =
      MirrorRust.transitions walks s.canonical t.canonical

namespace Explorer
variable {x : Explorer} {polls : ℕ → Poll}

/-- The observations of a run whose receipt is in order cannot all be recorded. -/
structure Falters (x : Explorer) (a : Attempt) (sample : ExplorationSample) : Prop where
  result : x.result a = .ok sample
  admits : x.admits a.before a.candidate.2 sample = true
  fails : (x.record a.before.coverage sample.execution).2 ≠ .ok ()

/-- The walks of the runs that have passed. -/
def passedWalks (x : Explorer) (as : List Attempt) : List (List String) :=
  (as.filter fun a => (x.row a).category = .passed).map x.keys

/-- What the other runs leave in the tables. -/
def failedWalks (x : Explorer) (as : List Attempt) : List (List String) :=
  (as.filter fun a => (x.row a).category ≠ .passed).flatMap x.leaves

/-- What has been recorded of the run before it failed is no transition, and no state that the
passed runs do not have. -/
def Harmless (x : Explorer) (as : List Attempt) (a : Attempt) : Prop :=
  ∀ w ∈ x.leaves a, w.length ≤ 1 ∧ ∀ key ∈ w, ∃ v ∈ x.passedWalks as, key ∈ v

theorem falters_or {a : Attempt} :
    (∃ sample, x.Falters a sample) ∨ (x.row a).category = .passed ∨ x.leaves a = [] := by
  cases hresult : x.result a with
  | error e => exact Or.inr (Or.inr (by rw [leaves, hresult]))
  | panic => exact Or.inr (Or.inr (by rw [leaves, hresult]))
  | ok sample =>
    cases hadmits : x.admits a.before a.candidate.2 sample with
    | false => exact Or.inr (Or.inr (by simp [leaves, hresult, hadmits]))
    | true =>
      by_cases hpassed : (x.row a).category = .passed
      · exact Or.inr (Or.inl hpassed)
      · refine Or.inl ⟨sample, hresult, hadmits, fun hok => hpassed ?_⟩
        exact (evaluated_admits hresult hadmits).2.mpr hok

theorem Falters.failed {a : Attempt} {sample : ExplorationSample} (h : x.Falters a sample) :
    (x.row a).category ≠ .passed := fun hpassed =>
  h.fails ((evaluated_admits h.result h.admits).2.mp hpassed)

theorem leaves_split (as : List Attempt) (i j : String) :
    transitions (as.flatMap x.leaves) i j =
      transitions (x.passedWalks as) i j + transitions (x.failedWalks as) i j := by
  induction as with
  | nil => rfl
  | cons a as ih =>
    rw [List.flatMap_cons, transitions_append, ih, passedWalks, passedWalks, failedWalks,
      failedWalks]
    by_cases hpassed : (x.row a).category = .passed
    · have hleaves := leaves_passed hpassed
      simp [hpassed, hleaves, transitions]
      omega
    · simp [hpassed, transitions]
      omega

theorem mem_leaves (as : List Attempt) (key : String) :
    (∃ w ∈ as.flatMap x.leaves, key ∈ w) ↔
      (∃ w ∈ x.passedWalks as, key ∈ w) ∨ ∃ w ∈ x.failedWalks as, key ∈ w := by
  induction as with
  | nil => simp [passedWalks, failedWalks]
  | cons a as ih =>
    rw [List.flatMap_cons, passedWalks, failedWalks]
    rw [passedWalks, failedWalks] at ih
    by_cases hpassed : (x.row a).category = .passed
    · have hleaves := leaves_passed hpassed
      simp only [List.mem_append, or_and_right, exists_or, ih, hleaves, List.filter_cons_of_pos,
        hpassed, decide_true, List.map_cons, List.mem_cons, exists_eq_left, ne_eq, not_true_eq_false,
        decide_false, Bool.false_eq_true, not_false_eq_true, List.filter_cons_of_neg,
        List.not_mem_nil, or_false, or_assoc]
    · simp only [List.mem_append, or_and_right, exists_or, ih, hpassed, decide_false,
        Bool.false_eq_true, not_false_eq_true, List.filter_cons_of_neg, ne_eq, decide_true,
        List.filter_cons_of_pos, List.flatMap_cons]
      exact or_left_comm

theorem transitions_eq_zero {walks : List (List String)} (h : ∀ w ∈ walks, w.length ≤ 1)
    (i j : String) : transitions walks i j = 0 := by
  refine List.sum_eq_zero_iff.mpr fun n hn => ?_
  obtain ⟨w, hw, rfl⟩ := List.mem_map.mp hn
  exact steps_eq_zero (h w hw) i j

/-- The tables of an output, against all walks that have been recorded. -/
theorem output_covers (x : Explorer) (polls : ℕ → Poll) :
    ∃ names : List String, names.Nodup ∧
      (x.output polls).states.map StateRow.canonical = names ∧
      (∀ s ∈ (x.output polls).states, names[s.id]? = some s.canonical) ∧
      (∀ key ∈ names, ∃ s ∈ (x.output polls).states, s.canonical = key) ∧
      (∀ key, key ∈ names ↔ ∃ w ∈ (x.calls polls).flatMap x.leaves, key ∈ w) ∧
      ∀ i j a b, names[i]? = some a → names[j]? = some b →
        (Assoc.get? (toLex (i, j)) (x.output polls).transitions).getD 0 =
          transitions ((x.calls polls).flatMap x.leaves) a b := by
  obtain ⟨names, hcovers⟩ := (x.closing polls).covers
  have hstates : (x.output polls).states = names.mapIdx fun i key => ⟨i, key⟩ := hcovers.rows
  have hmap : (x.output polls).states.map StateRow.canonical = names := by
    rw [hstates]
    refine List.ext_getElem? fun k => ?_
    simp [Function.comp_def]
  refine ⟨names, hcovers.distinct, hmap, fun s hs => ?_, fun key hkey => ?_, hcovers.keys,
    hcovers.counts⟩
  · rw [hstates] at hs
    obtain ⟨i, hi, rfl⟩ := List.mem_mapIdx.mp hs
    exact List.getElem?_eq_getElem hi
  · rw [← hmap] at hkey
    obtain ⟨s, hs, rfl⟩ := List.mem_map.mp hkey
    exact ⟨s, hs, rfl⟩

/-- The coverage is that of the passed runs exactly when every run that falters at an observation
is harmless. -/
theorem counts_passed_iff (hdeclares : x.Declares) :
    ∃ out, x.run polls = .ok out ∧ (out.Counts (x.passedWalks (x.calls polls)) ↔
      ∀ a ∈ x.calls polls, ∀ sample, x.Falters a sample → x.Harmless (x.calls polls) a) := by
  refine ⟨_, hdeclares.run, ?_⟩
  obtain ⟨names, hdistinct, hstates, hids, hrows, hkeys, hcounts⟩ := x.output_covers polls
  constructor
  · intro h a ha sample hfalters w hw
    have hfailed : w ∈ x.failedWalks (x.calls polls) :=
      List.mem_flatMap.mpr ⟨a, List.mem_filter.mpr ⟨ha, by simpa using hfalters.failed⟩, hw⟩
    have hnames : ∀ key ∈ w, key ∈ names := fun key hkey =>
      (hkeys key).mpr ((mem_leaves _ _).mpr (Or.inr ⟨w, hfailed, hkey⟩))
    refine ⟨?_, fun key hkey => (h.states key).mp (hstates ▸ hnames key hkey)⟩
    by_contra hlength
    obtain ⟨k, hk, l, hl, hstep⟩ := exists_step (not_le.mp hlength)
    obtain ⟨s, hs, rfl⟩ := hrows k (hnames k hk)
    obtain ⟨t, ht, rfl⟩ := hrows l (hnames l hl)
    -- the step is counted, and not as one of a passed run
    have hcount := hcounts s.id t.id _ _ (hids s hs) (hids t ht)
    rw [h.steps s hs t ht, leaves_split] at hcount
    have hle := steps_le_transitions hfailed s.canonical t.canonical
    omega
  · intro h
    have hharmless : ∀ w ∈ x.failedWalks (x.calls polls), w.length ≤ 1 ∧
        ∀ key ∈ w, ∃ v ∈ x.passedWalks (x.calls polls), key ∈ v := by
      intro w hw
      obtain ⟨a, ha, hw⟩ := List.mem_flatMap.mp hw
      obtain ⟨ha, hfailed⟩ := List.mem_filter.mp ha
      rcases x.falters_or (a := a) with ⟨sample, hfalters⟩ | hpassed | hnone
      · exact h a ha sample hfalters w hw
      · exact absurd hpassed (by simpa using hfailed)
      · rw [hnone] at hw
        cases hw
    refine ⟨hstates.symm ▸ hdistinct, fun key => ?_, fun s hs t ht => ?_⟩
    · rw [hstates, hkeys, mem_leaves]
      constructor
      · rintro (hpassed | ⟨w, hw, hkey⟩)
        · exact hpassed
        · exact (hharmless w hw).2 key hkey
      · exact Or.inl
    · rw [hcounts s.id t.id _ _ (hids s hs) (hids t ht), leaves_split,
        transitions_eq_zero fun w hw => (hharmless w hw).1, Nat.add_zero]

end Explorer

namespace Solo

/-- The receipt of a run of the one schedule, with these observations. -/
def execution (observations : List Json) : Json :=
  Json.obj [("schema", .string "mirrors.checkpoint-execution/v1"),
    ("schedule", schedule.toJson .plain),
    ("actors", .array [Json.obj [("actor", .string "a"), ("operation", .string "op")]]),
    ("executionId", .string "00000000000000000000000000000000"),
    ("cleanup", .string "confirmed"), ("remainingActors", .array []), ("passed", .bool true),
    ("scheduleCompleted", .bool true), ("outcome", .string "completed"),
    ("events", .array [event 0 0 "permit" [], event 1 0 "arrival" [("checkpoint", .string "read")],
      event 2 1 "permit" [], event 3 1 "arrival" [("checkpoint", .string COMPLETION)]]),
    ("observations", .array observations)]

def explorer (observations : List Json) : Explorer :=
  { serde := .plain, space := space, limits := .default
    declarations := [("a", "op")], looks := fun _ => .quiet
    runner := fun _ _ => .ok ⟨execution observations, none⟩ }

theorem explorer_declares (observations : List Json) : (explorer observations).Declares :=
  space_check

theorem candidates_quiet (observations : List Json) :
    (explorer observations).candidates (fun _ => .quiet) = [(0, schedule)] := by
  show space.candidates (space.enumeration .default fun _ => .quiet).shapes = _
  rw [enumeration_quiet]
  rfl

/-- The only run. -/
def attempt : Attempt := ⟨.new "", (0, schedule)⟩

def observations : List Json := [observation 0, observation 1, observation 2]

/-- The second observation says that it is the first one. -/
def misplaced : List Json := [observation 0, observation 0, observation 2]

theorem calls_quiet (observations : List Json) :
    (explorer observations).calls (fun _ => .quiet) = [attempt] := by
  have henumeration : (explorer observations).enumeration (fun _ => .quiet) =
      ⟨[schedule.steps], true, ""⟩ := enumeration_quiet
  have hgate : (Campaign.new "").gate (explorer observations).limits
      ((explorer observations).looks (Campaign.new "").attempted) = none := rfl
  rw [Explorer.calls, candidates_quiet, henumeration]
  simp only [Explorer.attempts, hgate, ite_self]
  rfl

theorem misplaced_fails : ((explorer misplaced).row attempt).category ≠ .passed ∧
    ((explorer misplaced).leaves attempt).flatten ≠ [] := by
  decide +kernel

end Solo

/-- The state of the first observation stays although the run has failed at the second one. -/
theorem misplaced_not_counted :
    ∃ out, (Solo.explorer Solo.misplaced).run (fun _ => .quiet) = .ok out ∧
      (Solo.explorer Solo.misplaced).passedWalks
        ((Solo.explorer Solo.misplaced).calls fun _ => .quiet) = [] ∧
      out.states ≠ [] ∧
      ¬ out.Counts ((Solo.explorer Solo.misplaced).passedWalks
        ((Solo.explorer Solo.misplaced).calls fun _ => .quiet)) := by
  have hpassed : (Solo.explorer Solo.misplaced).passedWalks
      ((Solo.explorer Solo.misplaced).calls fun _ => .quiet) = [] := by
    rw [Solo.calls_quiet, Explorer.passedWalks]
    simp [Solo.misplaced_fails.1]
  obtain ⟨key, hkey⟩ := List.exists_mem_of_ne_nil _ Solo.misplaced_fails.2
  obtain ⟨w, hw, hkey⟩ := List.mem_flatten.mp hkey
  obtain ⟨names, -, hstates, -, hrows, hkeys, -⟩ :=
    (Solo.explorer Solo.misplaced).output_covers fun _ => .quiet
  have hname : key ∈ names := by
    refine (hkeys key).mpr ⟨w, ?_, hkey⟩
    rw [Solo.calls_quiet]
    simpa using hw
  obtain ⟨s, hs, rfl⟩ := hrows key hname
  refine ⟨_, (Solo.explorer_declares _).run, hpassed, List.ne_nil_of_mem hs, fun h => ?_⟩
  obtain ⟨v, hv, -⟩ := (h.states s.canonical).mp (List.mem_map_of_mem hs)
  rw [hpassed] at hv
  cases hv

theorem counts_passed_iff_solo :
    ∃ out, (Solo.explorer Solo.observations).run (fun _ => .quiet) = .ok out ∧
      (out.Counts ((Solo.explorer Solo.observations).passedWalks
          ((Solo.explorer Solo.observations).calls fun _ => .quiet)) ↔
        ∀ a ∈ (Solo.explorer Solo.observations).calls fun _ => .quiet, ∀ sample,
          (Solo.explorer Solo.observations).Falters a sample →
            (Solo.explorer Solo.observations).Harmless
              ((Solo.explorer Solo.observations).calls fun _ => .quiet) a) :=
  Explorer.counts_passed_iff (Solo.explorer_declares _)

end MirrorRust
