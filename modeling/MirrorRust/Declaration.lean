import MirrorRust.Exploration

/-! What the declaration of a space promises to its campaign: every schedule that is run is a
merge of the declared chains, and admitted by the adapters of the space. -/
namespace MirrorRust

structure ActorChain.Sound (c : ActorChain) : Prop where
  name : identifier c.name = true
  operation : identifier c.actor.operation = true
  checkpoints : ∃ stops, (∀ s ∈ stops, identifier s = true) ∧ c.checkpoints = stops ++ [COMPLETION]

theorem checkChain_ok {c : ActorChain} (h : checkChain c = .ok ()) :
    ∃ stops, (∀ s ∈ stops, identifier s = true) ∧ c.checkpoints = stops ++ [COMPLETION] := by
  obtain ⟨_, hlast, hstops⟩ := bind_ok_iff.mp h
  rw [require_eq_ok] at hlast hstops
  have hlast : c.checkpoints.getLast? = some COMPLETION := by simpa using hlast
  refine ⟨c.checkpoints.dropLast, by simpa using hstops, ?_⟩
  exact (List.dropLast_append_getLast? _ hlast).symm

/-- The entry of an actor in the table of the declarations. -/
def ActorDeclaration.entry (a : ActorDeclaration) : String × String := (a.actor, a.operation)

theorem checkActors_ok {actors : List ActorChain} {declarations result : List (String × String)}
    {operations : List String} (h : checkActors actors declarations operations = .ok result) :
    (∀ c ∈ actors, c.Sound ∧ Assoc.get? c.name declarations = none ∧
        c.actor.operation ∉ operations) ∧
      (actors.map ActorChain.name).Nodup ∧ (actors.map fun c => c.actor.operation).Nodup ∧
      result = (actors.map fun c => c.actor.entry).foldl (fun m p => Assoc.insert p.1 p.2 m)
        declarations := by
  induction actors generalizing declarations operations with
  | nil =>
    cases h
    exact ⟨by simp, List.nodup_nil, List.nodup_nil, rfl⟩
  | cons c actors ih =>
    obtain ⟨_, hactor, h⟩ := bind_ok_iff.mp h
    obtain ⟨_, hchain, h⟩ := bind_ok_iff.mp h
    simp only [require_eq_ok, Bool.and_eq_true, Option.isNone_iff_eq_none, Bool.not_eq_true',
      List.contains_eq_mem, decide_eq_false_iff_not] at hactor
    obtain ⟨⟨⟨hname, hoperation⟩, hnew⟩, hfresh⟩ := hactor
    obtain ⟨hall, hnames, hoperations, hresult⟩ := ih h
    have hother : ∀ d ∈ actors, d.name ≠ c.name ∧ Assoc.get? d.name declarations = none := by
      intro d hd
      have hget := (hall d hd).2.1
      rw [Assoc.get?_insert] at hget
      split_ifs at hget with heq
      exact ⟨heq, hget⟩
    refine ⟨List.forall_mem_cons.mpr ⟨⟨⟨hname, hoperation, checkChain_ok hchain⟩, hnew, hfresh⟩,
      fun d hd => ⟨(hall d hd).1, (hother d hd).2, fun hmem => ?_⟩⟩, ?_, ?_, hresult⟩
    · exact (hall d hd).2.2 (List.mem_cons_of_mem _ hmem)
    · refine List.nodup_cons.mpr ⟨fun hmem => ?_, hnames⟩
      obtain ⟨d, hd, heq⟩ := List.mem_map.mp hmem
      exact (hother d hd).1 heq
    · refine List.nodup_cons.mpr ⟨fun hmem => ?_, hoperations⟩
      obtain ⟨d, hd, heq⟩ := List.mem_map.mp hmem
      exact (hall d hd).2.2 (heq ▸ List.mem_cons_self)

theorem checkInputs_ok {serde : Serde} {space : FiniteSpace} {inputs : List Json}
    {keys : List String} (h : space.checkInputs serde inputs keys = .ok ()) :
    (∀ input ∈ inputs, (∃ text, encodeSchedule serde (space.probe input) = .ok text) ∧
        input.render ∉ keys) ∧ (inputs.map Json.render).Nodup := by
  induction inputs generalizing keys with
  | nil => exact ⟨by simp, List.nodup_nil⟩
  | cons input inputs ih =>
    rw [FiniteSpace.checkInputs] at h
    obtain ⟨text, htext, h⟩ := bind_ok_iff.mp h
    obtain ⟨_, hkey, h⟩ := bind_ok_iff.mp h
    simp only [mapError_eq_ok, require_eq_ok, Bool.not_eq_true', List.contains_eq_mem,
      decide_eq_false_iff_not] at hkey
    obtain ⟨hall, hnodup⟩ := ih h
    refine ⟨List.forall_mem_cons.mpr ⟨⟨⟨text, htext⟩, hkey⟩, fun other hother => ?_⟩, ?_⟩
    · exact ⟨(hall other hother).1, fun hmem => (hall other hother).2 (List.mem_cons_of_mem _ hmem)⟩
    · refine List.nodup_cons.mpr ⟨fun hmem => ?_, hnodup⟩
      obtain ⟨other, hother, heq⟩ := List.mem_map.mp hmem
      exact (hall other hother).2 (heq ▸ List.mem_cons_self)

namespace FiniteSpace
variable {serde : Serde} {space : FiniteSpace} {limits : ExplorationLimits}

/-- What the declaration checks find of an accepted space. -/
structure Declared (serde : Serde) (space : FiniteSpace) : Prop where
  actors : space.actors ≠ [] ∧ space.actors.length ≤ 8
  inputs : space.inputs ≠ [] ∧ space.inputs.length ≤ 64
  chains : ∀ c ∈ space.actors, c.Sound
  names : (space.actors.map ActorChain.name).Nodup
  operations : (space.actors.map fun c => c.actor.operation).Nodup
  steps : space.steps.length ≤ 64
  encodes : ∀ input ∈ space.inputs, ∃ text, encodeSchedule serde (space.probe input) = .ok text
  distinct : (space.inputs.map Json.render).Nodup

/-- The table of the operations by actor. -/
def table (space : FiniteSpace) : List (String × String) :=
  Assoc.ofList ((sortActors space.actors).map fun c => c.actor.entry)

theorem check_ok {declarations : List (String × String)}
    (h : space.check serde limits = .ok declarations) :
    space.Declared serde ∧ declarations = space.table := by
  obtain ⟨_, hbounds, h⟩ := bind_ok_iff.mp h
  obtain ⟨table, hactors, h⟩ := bind_ok_iff.mp h
  obtain ⟨_, hsteps, h⟩ := bind_ok_iff.mp h
  obtain ⟨_, hinputs, h⟩ := bind_ok_iff.mp h
  obtain ⟨_, -, h⟩ := bind_ok_iff.mp h
  cases h
  rw [mapError_eq_ok] at hbounds hactors hsteps
  obtain ⟨_, hbounds, -⟩ := bind_ok_iff.mp hbounds
  simp only [require_eq_ok, Bool.and_eq_true, Bool.not_eq_true', List.isEmpty_eq_false_iff,
    decide_eq_true_eq] at hbounds hsteps
  obtain ⟨hall, hnames, hoperations, hresult⟩ := checkActors_ok hactors
  obtain ⟨hencodes, hdistinct⟩ := checkInputs_ok hinputs
  have hperm := sortActors_perm space.actors
  exact ⟨⟨⟨hbounds.1.1.1, hbounds.1.1.2⟩, ⟨hbounds.1.2, hbounds.2⟩,
    fun c hc => (hall c (hperm.mem_iff.mpr hc)).1, (hperm.map _).nodup_iff.mp hnames,
    (hperm.map _).nodup_iff.mp hoperations, hsteps, fun input hin => (hencodes input hin).1,
    hdistinct⟩, hresult⟩

end FiniteSpace

/-! ### Merges of the chains -/

/-- A merge has the steps of all chains, each as often as they do. -/
theorem IsMerge.perm {chains : List ActorChain} (hnames : (chains.map ActorChain.name).Nodup)
    {w : List Step} (h : IsMerge chains w) : w.Perm (chains.flatMap ActorChain.steps) := by
  refine List.perm_iff_count.mpr fun s => ?_
  have hown : w.count s = (stepsOf chains s.actor).count s := by
    rw [← h s.actor, List.count_filter (by simp)]
  have hactor : ∀ c : ActorChain, ∀ t ∈ c.steps, t.actor = c.name := by
    intro c t ht
    obtain ⟨p, -, rfl⟩ := List.mem_map.mp ht
    rfl
  rw [hown]
  clear hown h
  induction chains with
  | nil => simp [stepsOf]
  | cons c chains ih =>
    obtain ⟨hc, hnames'⟩ := List.nodup_cons.mp hnames
    rw [List.flatMap_cons, List.count_append, ← ih hnames']
    by_cases hname : c.name = s.actor
    · have hrest : stepsOf chains s.actor = [] := stepsOf_other (hname ▸ hc)
      have hfirst : stepsOf (c :: chains) s.actor = c.steps := by simp [stepsOf, hname]
      rw [hfirst, hrest, List.count_nil, Nat.add_zero]
    · have hzero : c.steps.count s = 0 :=
        List.count_eq_zero.mpr fun hmem => hname (hactor c s hmem).symm
      have hskip : stepsOf (c :: chains) s.actor = stepsOf chains s.actor := by
        simp [stepsOf, hname]
      rw [hzero, hskip, Nat.zero_add]

theorem IsMerge.projection {chains : List ActorChain}
    (hnames : (chains.map ActorChain.name).Nodup) {w : List Step} (h : IsMerge chains w)
    {c : ActorChain} (hc : c ∈ chains) : projection w c.name = c.checkpoints := by
  have hfilter : w.filter (fun s => s.actor = c.name) = c.steps :=
    (h c.name).trans (stepsOf_eq hnames hc)
  rw [MirrorRust.projection, hfilter, ActorChain.steps, List.map_map]
  exact List.map_id _

namespace FiniteSpace
variable {serde : Serde} {space : FiniteSpace} {limits : ExplorationLimits}
  {polls : ℕ → Poll}

/-- The search lists merges of the chains only, also when it is interrupted. -/
theorem enumeration_merges (h : space.Declared serde) :
    ∀ w ∈ (space.enumeration limits polls).shapes, IsMerge space.actors w := by
  obtain ⟨e, hrun, hcol⟩ := enumerate_collects h.names space.maxPreemptions
    limits.maxEnumeratedSchedules polls
  intro w hw
  rw [enumeration, hrun, Option.elim_some] at hw
  have hmem : w ∈ boundedMerges space.actors space.maxPreemptions := by
    simpa [enumerator] using hcol.subset hw
  exact (((listing_boundedMerges h.names _).mem_iff w).mp hmem).1

theorem mem_candidates {shapes : List (List Step)} {p : ℕ × Schedule}
    (hp : p ∈ space.candidates shapes) : ∃ steps ∈ shapes, ∃ input, space.inputs[p.1]? = some input ∧
      p.2 = .new space.identity input steps := by
  obtain ⟨steps, hsteps, hp⟩ := List.mem_flatMap.mp hp
  obtain ⟨q, hq, rfl⟩ := List.mem_map.mp hp
  exact ⟨steps, hsteps, q.1, List.mem_zipIdx_iff_getElem?.mp hq, rfl⟩

/-- Inputs that can be written and whose texts differ are accepted. -/
theorem checkInputs_intro {inputs : List Json} {keys : List String}
    (hencode : ∀ input ∈ inputs,
      encodeSchedule serde (space.probe input) = .ok (space.probe input).text)
    (hdistinct : (inputs.map Json.render).Nodup) (hnew : ∀ input ∈ inputs, input.render ∉ keys) :
    space.checkInputs serde inputs keys = .ok () := by
  induction inputs generalizing keys with
  | nil => rfl
  | cons input inputs ih =>
    obtain ⟨htext, hencode⟩ := List.forall_mem_cons.mp hencode
    obtain ⟨hkey, hnew⟩ := List.forall_mem_cons.mp hnew
    obtain ⟨hother, hdistinct⟩ := List.nodup_cons.mp hdistinct
    have hnew' : ∀ i ∈ inputs, i.render ∉ input.render :: keys := fun i hi => by
      rw [List.mem_cons, not_or]
      exact ⟨fun heq => hother (heq ▸ List.mem_map_of_mem hi), hnew i hi⟩
    have hrest := ih hencode hdistinct hnew'
    simp only [checkInputs, htext, hrest, require, List.contains_eq_mem, hkey]
    rfl

/-- An adapter with the identity and the actors of the space, and all of its checkpoints. -/
structure Adapts (space : FiniteSpace) (adapter : AdapterDeclaration) : Prop where
  identity : adapter.identity = space.identity
  distinct : adapter.actors.Nodup
  actors : ∀ d, d ∈ adapter.actors ↔ d ∈ space.actors.map ActorChain.actor
  checkpoints : adapter.checkpoints.Nodup
  valid : ∀ c ∈ adapter.checkpoints, identifier c = true
  covers : ∀ c ∈ space.actors, ∀ p ∈ c.checkpoints.dropLast, p ∈ adapter.checkpoints

/-- A policy within the bounds that allows so many actors and steps. -/
structure Allows (space : FiniteSpace) (policy : Policy) : Prop where
  bounds : policy.Sound
  actors : space.actors.length ≤ policy.maxActors
  steps : space.steps.length ≤ policy.maxSteps

theorem Adapts.perm (hdeclared : space.Declared serde) {adapter : AdapterDeclaration}
    (h : space.Adapts adapter) : adapter.actors.Perm (space.actors.map ActorChain.actor) := by
  have hnames : ((space.actors.map ActorChain.actor).map ActorDeclaration.actor).Nodup := by
    rw [List.map_map]
    exact hdeclared.names
  exact (List.perm_ext_iff_of_nodup h.distinct hnames.of_map).mpr h.actors

/-- A merge of the chains is admitted, with any declared input. -/
theorem Declared.admitted (h : space.Declared serde)
    (hinputs : ∀ input ∈ space.inputs, input.IsValue) {steps : List Step}
    (hsteps : IsMerge space.actors steps) {input : Json} (hinput : input ∈ space.inputs)
    {adapter : AdapterDeclaration} (hadapter : space.Adapts adapter) {policy : Policy}
    (hpolicy : space.Allows policy) :
    Admissible serde (.new space.identity input steps) adapter policy := by
  obtain ⟨text, htext⟩ := h.encodes input hinput
  have hperm : steps.Perm space.steps := by
    refine (hsteps.perm h.names).trans ?_
    exact ((sortActors_perm space.actors).symm.flatMap_right _)
  have hidentity : identityValid space.identity = true := by
    obtain ⟨inputs, -, hread⟩ := encode_read (s := space.probe input) (hinputs input hinput) htext
    exact (parseSchedule_eq_ok.mp hread).2.identity
  have hactors := hadapter.perm h
  have hlookup : ∀ d ∈ adapter.actors, ∃ c ∈ space.actors, c.actor = d := fun d hd =>
    List.mem_map.mp ((hadapter.actors d).mp hd)
  refine ⟨⟨_, encodeSchedule_perm (s := space.probe input) (hinputs input hinput) hperm htext⟩,
    hadapter.identity.symm, ⟨hadapter.identity ▸ hidentity, fun d hd => ?_, ?_, ?_, hadapter.valid,
    hadapter.checkpoints⟩, hpolicy.bounds, ⟨?_, ?_⟩, hperm.length_eq.trans_le hpolicy.steps,
    fun s hs => ?_, fun d hd => ?_⟩
  · obtain ⟨c, hc, rfl⟩ := hlookup d hd
    exact ⟨(h.chains c hc).name, (h.chains c hc).operation⟩
  · refine (hactors.map _).nodup_iff.mpr ?_
    rw [List.map_map]
    exact h.names
  · refine (hactors.map _).nodup_iff.mpr ?_
    rw [List.map_map]
    exact h.operations
  · rw [hactors.length_eq, List.length_map]
    exact List.length_pos_iff.mpr h.actors.1
  · rw [hactors.length_eq, List.length_map]
    exact hpolicy.actors
  · have hmem := hperm.subset hs
    obtain ⟨c, hc, hcs⟩ := List.mem_flatMap.mp hmem
    obtain ⟨p, -, rfl⟩ := List.mem_map.mp hcs
    have hchain := (sortActors_perm space.actors).subset hc
    exact List.mem_map_of_mem ((hadapter.actors _).mpr (List.mem_map_of_mem hchain))
  · obtain ⟨c, hc, rfl⟩ := hlookup d hd
    obtain ⟨stops, -, heq⟩ := (h.chains c hc).checkpoints
    refine ⟨stops, fun p hp => hadapter.covers c hc p ?_, ?_⟩
    · rwa [heq, List.dropLast_concat]
    · rw [← heq]
      exact hsteps.projection h.names hc

end FiniteSpace

/-! ### What the runner is given -/

section Runner
variable {serde : Serde} {space : FiniteSpace} {limits : ExplorationLimits}
  {declarations : List (String × String)}

/-- A campaign calls its runner on its candidates only. -/
theorem Explorer.explore_congr {x : Explorer} {other : ExplorationRunner}
    {candidates : List (ℕ × Schedule)} (h : ∀ p ∈ candidates, ∀ k, x.runner k p.2 = other k p.2)
    (c : Campaign) : x.explore candidates c = { x with runner := other }.explore candidates c := by
  induction candidates generalizing c with
  | nil => rfl
  | cons p candidates ih =>
    have hattempt : x.attempt c p.1 p.2 = { x with runner := other }.attempt c p.1 p.2 := by
      rw [attempt, attempt, h p (by simp)]
      rfl
    rw [explore, explore, hattempt]
    simp only [ih fun q hq => h q (List.mem_cons_of_mem _ hq)]

/-- A schedule that every adapter of the space admits, under every policy that is large enough. -/
def FiniteSpace.Admits (serde : Serde) (space : FiniteSpace) (schedule : Schedule) :
    Prop :=
  ∀ adapter policy, space.Adapts adapter → space.Allows policy →
    admitSchedule serde schedule adapter policy = .ok ()

theorem FiniteSpace.Declared.admits (h : space.Declared serde)
    (hinputs : ∀ input ∈ space.inputs, input.IsValue) (polls : ℕ → Poll) :
    ∀ p ∈ space.candidates (space.enumeration limits polls).shapes, space.Admits serde p.2 := by
  intro p hp adapter policy hadapter hpolicy
  obtain ⟨steps, hsteps, input, hinput, heq⟩ := mem_candidates hp
  rw [heq]
  exact admitSchedule_iff.mpr (h.admitted hinputs (enumeration_merges h steps hsteps)
    (List.mem_of_getElem? hinput) hadapter hpolicy)

/-- Every schedule of a campaign is admitted by every adapter of its space, and an exploration
depends on what its runner does with such schedules only. -/
theorem explored_admissible (hinputs : ∀ input ∈ space.inputs, input.IsValue)
    (hcheck : space.check serde limits = .ok declarations) (polls : ℕ → Poll) :
    (∀ p ∈ space.candidates (space.enumeration limits polls).shapes, space.Admits serde p.2) ∧
      ∀ looks runner other, (∀ k s, space.Admits serde s → runner k s = other k s) →
        exploreFinite serde polls looks space runner limits =
          exploreFinite serde polls looks space other limits := by
  have hadmits : ∀ p ∈ space.candidates (space.enumeration limits polls).shapes,
      space.Admits serde p.2 := (FiniteSpace.check_ok hcheck).1.admits hinputs polls
  refine ⟨hadmits, fun looks runner other h => ?_⟩
  have hexplore := Explorer.explore_congr
    (x := ⟨serde, space, limits, declarations, runner, looks⟩)
    (fun p hp k => h k p.2 (hadmits p hp)) (.new (space.enumeration limits polls).reason)
  simp only [exploreFinite, hcheck, hexplore]

end Runner

/-! ### A space of one actor -/

namespace Solo

def space : FiniteSpace :=
  { identity := identity
    actors := [⟨⟨"a", "op"⟩, ["read", COMPLETION]⟩]
    inputs := [.null]
    maxPreemptions := 0
    requireModelComparison := false
    baseVariables := ["count"]
    instrumentationVariables := [] }

theorem space_check : space.check .plain .default = .ok [("a", "op")] := by
  have hprobe : space.probe .null = schedule := rfl
  have hinputs : space.checkInputs .plain space.inputs [] = .ok () := by
    show FiniteSpace.checkInputs .plain space [.null] [] = .ok ()
    rw [FiniteSpace.checkInputs, hprobe, encodes]
    rfl
  obtain ⟨hbounds, hactors, hvariables⟩ : space.checkBounds .default = .ok () ∧
      checkActors (sortActors space.actors) [] [] = .ok [("a", "op")] ∧
      space.checkVariables = .ok () := by decide +kernel
  rw [FiniteSpace.check, hbounds, hactors, hinputs, hvariables]
  rfl

theorem enumeration_quiet :
    space.enumeration .default (fun _ => .quiet) = ⟨[schedule.steps], true, ""⟩ := by
  decide +kernel

end Solo

/-! ### A space of two actors -/

namespace Duo

def space : FiniteSpace :=
  { identity := Solo.identity
    actors := [⟨⟨"a", "op"⟩, ["read", COMPLETION]⟩, ⟨⟨"b", "put"⟩, [COMPLETION]⟩]
    inputs := Exponent.inputs
    maxPreemptions := 1
    requireModelComparison := false
    baseVariables := ["count"]
    instrumentationVariables := [] }

theorem space_steps :
    space.steps = [⟨"a", "read"⟩, ⟨"a", COMPLETION⟩, ⟨"b", COMPLETION⟩] := rfl

theorem probe_encodes : ∀ input ∈ space.inputs,
    encodeSchedule Exponent.signing (space.probe input) = .ok (space.probe input).text := by
  simp only [FiniteSpace.probe, space_steps]
  exact Exponent.new_encodes (fun _ => ⟨Nat.le_of_ble_eq_true rfl, Nat.le_of_ble_eq_true rfl,
    fun _ => distinct_schedule trivial⟩) (by decide +kernel)

theorem space_check : space.check Exponent.signing .default = .ok [("a", "op"), ("b", "put")] := by
  obtain ⟨hbounds, hactors, hvariables, hdistinct⟩ : space.checkBounds .default = .ok () ∧
      checkActors (sortActors space.actors) [] [] = .ok [("a", "op"), ("b", "put")] ∧
      space.checkVariables = .ok () ∧ (space.inputs.map Json.render).Nodup := by decide +kernel
  have hinputs : space.checkInputs Exponent.signing space.inputs [] = .ok () :=
    FiniteSpace.checkInputs_intro probe_encodes hdistinct (by simp)
  rw [FiniteSpace.check, hbounds, hactors, hinputs, hvariables]
  simp only [require, space_steps]
  rfl

theorem space_shapes : schedule.steps ∈
    (space.enumeration .default fun _ => .quiet).shapes := by decide +kernel

theorem adapter_adapts : space.Adapts adapter :=
  ⟨rfl, by decide, by simp [space, adapter], by decide, adapter_sound.reachable,
    by simp [space, adapter]⟩

theorem policy_allows : space.Allows .default :=
  ⟨Solo.policy_sound, by decide, by decide +kernel⟩

end Duo

theorem explored_admissible_duo :
    (0, Duo.schedule) ∈
        Duo.space.candidates (Duo.space.enumeration .default fun _ => .quiet).shapes ∧
      admitSchedule Exponent.signing Duo.schedule Duo.adapter .default = .ok () := by
  have hmem : (0, Duo.schedule) ∈
      Duo.space.candidates (Duo.space.enumeration .default fun _ => .quiet).shapes :=
    List.mem_flatMap.mpr ⟨_, Duo.space_shapes, List.mem_map.mpr
      ⟨(.number "1e5", 0), List.mem_zipIdx_iff_getElem?.mpr rfl, rfl⟩⟩
  exact ⟨hmem, (explored_admissible Exponent.isValue_inputs Duo.space_check
    fun _ => .quiet).1 _ hmem _ _ Duo.adapter_adapts Duo.policy_allows⟩

end MirrorRust
