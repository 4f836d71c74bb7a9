import MirrorRust.Artifact

/-! What the admission of a schedule promises to the execution that follows. -/
namespace MirrorRust

/-- The facts about an admitted schedule that the execution relies on. -/
structure Admitted (schedule : Schedule) (adapter : AdapterDeclaration) (policy : Policy) :
    Prop where
  distinct : (adapter.actors.map ActorDeclaration.actor).Nodup
  steps : schedule.steps.length ≤ 65_536
  cleanupBudget : budget policy.cleanupTimeout = true
  declared : ∀ s ∈ schedule.steps, s.actor ∈ adapter.actors.map ActorDeclaration.actor
  reachable : ∀ s ∈ schedule.steps, s.checkpoint = COMPLETION ∨ s.checkpoint ∈ adapter.checkpoints
  terminal : ∀ a ∈ adapter.actors, ⟨a.actor, COMPLETION⟩ ∈ schedule.steps
  ended : schedule.steps.Pairwise fun s t => s.checkpoint = COMPLETION → t.actor ≠ s.actor

/-- What a successful check says of the steps it has gone through. -/
structure Checked (actors checkpoints : List String) (steps : List Step)
    (before done : List String) : Prop where
  declared : ∀ s ∈ steps, s.actor ∈ actors ∧ s.actor ∉ before
  reachable : ∀ s ∈ steps, s.checkpoint = COMPLETION ∨ s.checkpoint ∈ checkpoints
  terminal : ∀ a ∈ done, a ∈ before ∨ ⟨a, COMPLETION⟩ ∈ steps
  ended : steps.Pairwise fun s t => s.checkpoint = COMPLETION → t.actor ≠ s.actor

theorem checkSteps_ok {actors checkpoints before done : List String} {steps : List Step}
    (h : checkSteps actors checkpoints steps before = .ok done) :
    Checked actors checkpoints steps before done := by
  induction steps generalizing before with
  | nil =>
    cases h
    exact ⟨by simp, by simp, fun a ha => Or.inl ha, List.Pairwise.nil⟩
  | cons step steps ih =>
    rw [checkSteps] at h
    split_ifs at h with hlive hend hdeclared
    · simp only [not_or, not_not] at hlive
      obtain ⟨hsteps, hreach, hterminal, hended⟩ := ih h
      refine ⟨List.forall_mem_cons.mpr ⟨hlive, fun s hs => ?_⟩,
        List.forall_mem_cons.mpr ⟨Or.inl hend, hreach⟩, fun a ha => ?_,
        List.pairwise_cons.mpr ⟨fun s hs _ => ?_, hended⟩⟩
      · exact ⟨(hsteps s hs).1, fun hmem => (hsteps s hs).2 (List.mem_cons_of_mem _ hmem)⟩
      · rcases hterminal a ha with hmem | hmem
        · rcases List.mem_cons.mp hmem with rfl | hmem
          · right
            rw [← hend]
            exact List.mem_cons_self
          · exact Or.inl hmem
        · exact Or.inr (List.mem_cons_of_mem _ hmem)
      · intro heq
        exact (hsteps s hs).2 (heq ▸ List.mem_cons_self)
    · simp only [not_or, not_not] at hlive hdeclared
      obtain ⟨hsteps, hreach, hterminal, hended⟩ := ih h
      refine ⟨List.forall_mem_cons.mpr ⟨hlive, hsteps⟩,
        List.forall_mem_cons.mpr ⟨Or.inr hdeclared, hreach⟩, fun a ha => ?_,
        List.pairwise_cons.mpr ⟨fun s _ hend' => absurd hend' hend, hended⟩⟩
      exact (hterminal a ha).imp_right (List.mem_cons_of_mem _)

/-- The checkpoints of the intervals of one actor, in the order of the schedule. -/
def projection (steps : List Step) (actor : String) : List String :=
  (steps.filter fun s => s.actor = actor).map Step.checkpoint

theorem projection_cons_self (step : Step) (steps : List Step) :
    projection (step :: steps) step.actor = step.checkpoint :: projection steps step.actor := by
  simp [projection]

theorem projection_cons_of_ne {step : Step} {actor : String} (h : step.actor ≠ actor)
    (steps : List Step) : projection (step :: steps) actor = projection steps actor := by
  simp [projection, h]

/-- The intervals of an actor end at declared checkpoints, and the last one ends the actor. -/
def Complete (checkpoints word : List String) : Prop :=
  ∃ stops, (∀ c ∈ stops, c ∈ checkpoints) ∧ word = stops ++ [COMPLETION]

theorem complete_cons {checkpoints word : List String} (hend : COMPLETION ∉ checkpoints)
    {checkpoint : String} (h : Complete checkpoints (checkpoint :: word)) :
    (checkpoint = COMPLETION ∧ word = []) ∨
      (checkpoint ≠ COMPLETION ∧ checkpoint ∈ checkpoints ∧ Complete checkpoints word) := by
  obtain ⟨stops, hstops, heq⟩ := h
  cases stops with
  | nil =>
    obtain ⟨rfl, rfl⟩ := List.cons.inj heq
    exact Or.inl ⟨rfl, rfl⟩
  | cons c stops =>
    obtain ⟨rfl, rfl⟩ := List.cons.inj heq
    obtain ⟨hc, hrest⟩ := List.forall_mem_cons.mp hstops
    exact Or.inr ⟨fun hcompletion => hend (hcompletion ▸ hc), hc, stops, hrest, rfl⟩

/-- The checks of the steps succeed on the intervals of live actors that are all complete. -/
theorem checkSteps_intro {actors checkpoints : List String} (hend : COMPLETION ∉ checkpoints)
    {steps : List Step} {before : List String} (hdeclared : ∀ s ∈ steps, s.actor ∈ actors)
    (hbefore : ∀ a ∈ before, a ∈ actors)
    (hcomplete : ∀ a ∈ actors, (a ∈ before ∧ projection steps a = []) ∨
      (a ∉ before ∧ Complete checkpoints (projection steps a))) :
    ∃ done, checkSteps actors checkpoints steps before = .ok done ∧ ∀ a, a ∈ actors ↔ a ∈ done := by
  induction steps generalizing before with
  | nil =>
    refine ⟨before, rfl, fun a => ⟨fun ha => ?_, hbefore a⟩⟩
    rcases hcomplete a ha with ⟨hmem, -⟩ | ⟨-, stops, -, heq⟩
    · exact hmem
    · simp [projection] at heq
  | cons step steps ih =>
    obtain ⟨hstep, hrest⟩ := List.forall_mem_cons.mp hdeclared
    have hother : ∀ a ∈ actors, a ≠ step.actor → (a ∈ before ∧ projection steps a = []) ∨
        (a ∉ before ∧ Complete checkpoints (projection steps a)) := by
      intro a ha hne
      simpa only [projection_cons_of_ne (Ne.symm hne)] using hcomplete a ha
    -- the actor of the step is live, since its projection is not empty
    have hself := hcomplete step.actor hstep
    rw [projection_cons_self] at hself
    rcases hself with ⟨-, hnil⟩ | ⟨hlive, hword⟩
    · cases hnil
    rw [checkSteps, if_neg (by simp [hstep, hlive])]
    rcases complete_cons hend hword with ⟨hlast, hnil⟩ | ⟨hne, hmem, hword⟩
    · rw [if_pos hlast]
      refine ih hrest (List.forall_mem_cons.mpr ⟨hstep, hbefore⟩) fun a ha => ?_
      by_cases hactor : a = step.actor
      · subst hactor
        exact Or.inl ⟨List.mem_cons_self, hnil⟩
      · exact (hother a ha hactor).imp (And.imp_left (List.mem_cons_of_mem _))
          (And.imp_left fun hnot => by simp [hactor, hnot])
    · rw [if_neg hne, if_neg (by simpa using hmem)]
      refine ih hrest hbefore fun a ha => ?_
      by_cases hactor : a = step.actor
      · subst hactor
        exact Or.inr ⟨hlive, hword⟩
      · exact hother a ha hactor

/-- What the checks let through is complete for every actor that ends. -/
theorem Checked.complete {actors checkpoints before done : List String} {steps : List Step}
    (h : Checked actors checkpoints steps before done) {actor : String}
    (hactor : ⟨actor, COMPLETION⟩ ∈ steps) : Complete checkpoints (projection steps actor) := by
  have hmem : COMPLETION ∈ projection steps actor :=
    List.mem_map_of_mem (f := Step.checkpoint) (List.mem_filter.mpr ⟨hactor, by simp⟩)
  have hlast : (projection steps actor).Pairwise fun c _ => c ≠ COMPLETION := by
    rw [projection, List.pairwise_map]
    refine (h.ended.filter _).imp_of_mem fun {s t} hs ht hended hcompletion => ?_
    simp only [List.mem_filter, decide_eq_true_eq] at hs ht
    exact hended hcompletion (ht.2.trans hs.2.symm)
  have hreach : ∀ c ∈ projection steps actor, c = COMPLETION ∨ c ∈ checkpoints := by
    intro c hc
    obtain ⟨s, hs, rfl⟩ := List.mem_map.mp hc
    exact h.reachable s (List.mem_of_mem_filter hs)
  obtain ⟨stops, c, heq⟩ :=
    (List.eq_nil_or_concat' _).resolve_left (List.ne_nil_of_mem hmem)
  rw [heq, List.pairwise_append] at hlast
  have hstops : ∀ s ∈ stops, s ≠ COMPLETION := fun s hs => hlast.2.2 s hs c (by simp)
  refine ⟨stops, fun s hs => ?_, ?_⟩
  · exact (hreach s (by simp [heq, hs])).resolve_left (hstops s hs)
  · rw [heq] at hmem ⊢
    rcases List.mem_append.mp hmem with hmem | hmem
    · exact absurd rfl (hstops _ hmem)
    · rw [List.mem_singleton.mp hmem]

/-- The policy bounds that admission accepts. -/
structure Policy.Sound (p : Policy) : Prop where
  actors : 0 < p.maxActors ∧ p.maxActors ≤ 64
  steps : 0 < p.maxSteps ∧ p.maxSteps ≤ 65_536
  execution : budget p.executionTimeout = true
  cleanup : budget p.cleanupTimeout = true

/-- The declarations of an adapter that admission accepts. -/
structure AdapterDeclaration.Sound (a : AdapterDeclaration) : Prop where
  identity : identityValid a.identity = true
  named : ∀ d ∈ a.actors, identifier d.actor = true ∧ identifier d.operation = true
  actors : (a.actors.map ActorDeclaration.actor).Nodup
  operations : (a.actors.map ActorDeclaration.operation).Nodup
  reachable : ∀ c ∈ a.checkpoints, identifier c = true
  checkpoints : a.checkpoints.Nodup

section Admit
variable {serde : Serde} {schedule : Schedule} {adapter : AdapterDeclaration}
  {policy : Policy}

/-- A refused schedule leaves a failure, never the outcome of a completed execution. -/
theorem admitSchedule_error {e : Outcome × String}
    (h : admitSchedule serde schedule adapter policy = .error e) : e.1 ≠ .completed := by
  unfold admitSchedule at h
  simp only [throw, throwThe, MonadExceptOf.throw, pure, Except.pure, bind, Except.bind] at h
  split at h
  case h_1 =>
    cases h
    simp
  split_ifs at h
  case neg =>
    split at h
    case h_1 =>
      cases h
      simp
    split_ifs at h
    cases h
    simp
  all_goals
    cases h
    simp

/-- A schedule whose checks all succeed is admitted. -/
theorem admitSchedule_intro {text : String} {done : List String}
    (htext : encodeSchedule serde schedule = .ok text) (hid : schedule.identity = adapter.identity)
    (hadapter : adapter.Sound) (hpolicy : policy.Sound)
    (hactors : adapter.actors ≠ [] ∧ adapter.actors.length ≤ policy.maxActors)
    (hsteps : schedule.steps.length ≤ policy.maxSteps)
    (hcheck : checkSteps (adapter.actors.map (·.actor)) adapter.checkpoints schedule.steps [] =
      .ok done)
    (hdone : ∀ a, a ∈ adapter.actors.map ActorDeclaration.actor ↔ a ∈ done) :
    admitSchedule serde schedule adapter policy = .ok () := by
  have hnames : (adapter.actors.map (·.actor)).all identifier = true := by
    simpa using fun d hd => (hadapter.named d hd).1
  have hoperations : (adapter.actors.map (·.operation)).all identifier = true := by
    simpa using fun d hd => (hadapter.named d hd).2
  have hcheckpoints : adapter.checkpoints.all identifier = true := by
    simpa using hadapter.reachable
  have hall : (adapter.actors.map (·.actor)).all (done.contains ·) = true := by
    simpa only [List.all_eq_true, List.contains_iff_mem] using fun a ha => (hdone a).mp ha
  have hback : done.all ((adapter.actors.map (·.actor)).contains ·) = true := by
    simpa only [List.all_eq_true, List.contains_iff_mem] using fun a ha => (hdone a).mpr ha
  unfold admitSchedule
  rw [htext]
  simp only [bind, Except.bind, hid, hadapter.identity, hnames, hoperations, hcheckpoints,
    hadapter.actors, hadapter.operations, hadapter.checkpoints, hcheck, hall, hback]
  have hp := hpolicy.actors
  have hs := hpolicy.steps
  simp only [hpolicy.execution, hpolicy.cleanup, hactors.1]
  rw [if_neg (by simp), if_neg (by simp; omega), if_neg (by simp; omega)]
  simp [pure, Except.pure]

/-- What the checks of the admission find of an admitted schedule. -/
theorem admitSchedule_checks (h : admitSchedule serde schedule adapter policy = .ok ()) :
    (∃ text, encodeSchedule serde schedule = .ok text) ∧ schedule.identity = adapter.identity ∧
      adapter.Sound ∧ policy.Sound ∧
      (adapter.actors ≠ [] ∧ adapter.actors.length ≤ policy.maxActors) ∧
      schedule.steps.length ≤ policy.maxSteps ∧
      ∃ done, checkSteps (adapter.actors.map (·.actor)) adapter.checkpoints schedule.steps [] =
        .ok done ∧ ∀ a ∈ adapter.actors.map ActorDeclaration.actor, a ∈ done := by
  unfold admitSchedule at h
  simp only [throw, throwThe, MonadExceptOf.throw, pure, Except.pure, bind, Except.bind] at h
  split at h
  case h_1 => cases h
  rename_i hencode
  split_ifs at h with hidentity hpolicy hbounds hactors hcheckpoints
  split at h
  case h_1 => cases h
  rename_i done hdone
  split_ifs at h with hcomplete
  simp only [not_or, not_lt, not_not, Bool.not_eq_true', Bool.not_eq_false, List.all_eq_true,
    List.forall_mem_map] at hidentity hpolicy hbounds hactors hcheckpoints
  simp only [not_or, Bool.not_eq_true', Bool.not_eq_false, List.all_eq_true,
    List.contains_iff_mem] at hcomplete
  obtain ⟨hmin, hmax, hfirst, hlast, hexecution, hcleanup⟩ := hpolicy
  obtain ⟨hnames, hoperations, hdistinct, hoperations'⟩ := hactors
  refine ⟨?_, hidentity.1, ⟨hidentity.2, fun d hd => ⟨hnames d hd, hoperations d hd⟩, hdistinct,
    hoperations', hcheckpoints.1, hcheckpoints.2⟩, ⟨⟨Nat.pos_of_ne_zero hmin, hmax⟩,
    ⟨Nat.pos_of_ne_zero hfirst, hlast⟩, hexecution, hcleanup⟩, ⟨hbounds.1, hbounds.2.1⟩,
    hbounds.2.2, done, hdone, hcomplete.1⟩
  cases henc : encodeSchedule serde schedule with
  | error e => exact absurd henc (hencode e)
  | ok text => exact ⟨text, rfl⟩

theorem admitSchedule_ok (h : admitSchedule serde schedule adapter policy = .ok ()) :
    Admitted schedule adapter policy := by
  obtain ⟨-, -, hadapter, hpolicy, -, hsteps, done, hdone, hall⟩ := admitSchedule_checks h
  obtain ⟨hdeclared, hreach, hterminal, hended⟩ := checkSteps_ok hdone
  refine ⟨hadapter.actors, hsteps.trans hpolicy.steps.2, hpolicy.cleanup,
    fun s hs => (hdeclared s hs).1, hreach, fun a ha => ?_, hended⟩
  have hmem : a.actor ∈ done := hall _ (List.mem_map_of_mem ha)
  simpa using hterminal _ hmem

/-- A schedule that is a complete interleaving of the intervals of the declared actors. -/
structure Admissible (serde : Serde) (schedule : Schedule)
    (adapter : AdapterDeclaration) (policy : Policy) : Prop where
  encodes : ∃ text, encodeSchedule serde schedule = .ok text
  identity : schedule.identity = adapter.identity
  sound : adapter.Sound
  bounds : policy.Sound
  actors : 1 ≤ adapter.actors.length ∧ adapter.actors.length ≤ policy.maxActors
  steps : schedule.steps.length ≤ policy.maxSteps
  declared : ∀ s ∈ schedule.steps, s.actor ∈ adapter.actors.map ActorDeclaration.actor
  complete : ∀ a ∈ adapter.actors,
    Complete adapter.checkpoints (projection schedule.steps a.actor)

theorem AdapterDeclaration.Sound.completion {a : AdapterDeclaration} (h : a.Sound) :
    COMPLETION ∉ a.checkpoints :=
  fun hmem => absurd (h.reachable _ hmem) (by decide +kernel)

theorem admitSchedule_iff :
    admitSchedule serde schedule adapter policy = .ok () ↔
      Admissible serde schedule adapter policy := by
  constructor
  · intro h
    have hadmitted := admitSchedule_ok h
    obtain ⟨hencode, hid, hadapter, hpolicy, hactors, hsteps, done, hdone, -⟩ :=
      admitSchedule_checks h
    exact ⟨hencode, hid, hadapter, hpolicy, ⟨List.length_pos_iff.mpr hactors.1, hactors.2⟩, hsteps,
      hadmitted.declared, fun a ha => (checkSteps_ok hdone).complete (hadmitted.terminal a ha)⟩
  · rintro ⟨⟨text, htext⟩, hid, hadapter, hpolicy, hactors, hsteps, hdeclared, hcomplete⟩
    have hcomplete' : ∀ a ∈ adapter.actors.map ActorDeclaration.actor, a ∉ ([] : List String) ∧
        Complete adapter.checkpoints (projection schedule.steps a) :=
      List.forall_mem_map.mpr fun a ha => ⟨List.not_mem_nil, hcomplete a ha⟩
    obtain ⟨done, hcheck, hdone⟩ := checkSteps_intro hadapter.completion hdeclared
      (by simp) fun a ha => Or.inr (hcomplete' a ha)
    exact admitSchedule_intro htext hid hadapter hpolicy
      ⟨List.length_pos_iff.mp hactors.1, hactors.2⟩ hsteps hcheck hdone

end Admit

/-! ### An admitted schedule

One actor that stops at a checkpoint and ends. -/

namespace Solo

def adapter : AdapterDeclaration :=
  { identity := identity, actors := [⟨"a", "op"⟩], checkpoints := ["read"] }

theorem adapter_sound : adapter.Sound := by
  obtain ⟨hnamed, hreachable⟩ :
      (∀ d ∈ adapter.actors, identifier d.actor = true ∧ identifier d.operation = true) ∧
        ∀ c ∈ adapter.checkpoints, identifier c = true := by decide +kernel
  exact ⟨identity_valid, hnamed, by decide, by decide, hreachable, by decide⟩

theorem policy_sound : Policy.default.Sound := ⟨by decide, by decide, by decide, by decide⟩

theorem admitted : admitSchedule .plain schedule adapter .default = .ok () :=
  admitSchedule_intro encodes rfl adapter_sound policy_sound ⟨by decide, by decide⟩ (by decide)
    (show checkSteps _ _ _ _ = .ok ["a"] from rfl) (by simp [adapter])

end Solo

/-! ### Two actors

The second actor ends between the two intervals of the first. -/

namespace Duo

def schedule : Schedule :=
  .new Solo.identity (.number "1e5") [⟨"a", "read"⟩, ⟨"b", COMPLETION⟩, ⟨"a", COMPLETION⟩]

def adapter : AdapterDeclaration :=
  { identity := Solo.identity, actors := [⟨"a", "op"⟩, ⟨"b", "put"⟩], checkpoints := ["read"] }

theorem adapter_sound : adapter.Sound := by
  obtain ⟨hnamed, hreachable⟩ :
      (∀ d ∈ adapter.actors, identifier d.actor = true ∧ identifier d.operation = true) ∧
        ∀ c ∈ adapter.checkpoints, identifier c = true := by decide +kernel
  exact ⟨Solo.identity_valid, hnamed, by decide, by decide, hreachable, by decide⟩

theorem encodes : encodeSchedule Exponent.signing schedule = .ok schedule.text :=
  Exponent.new_encodes (fun _ => ⟨Nat.le_of_ble_eq_true rfl, Nat.le_of_ble_eq_true rfl,
    fun _ => distinct_schedule trivial⟩) (by decide +kernel) _ List.mem_cons_self

theorem admitted : admitSchedule Exponent.signing schedule adapter .default = .ok () :=
  admitSchedule_intro encodes rfl adapter_sound Solo.policy_sound ⟨by decide, by decide⟩ (by decide)
    (show checkSteps _ _ _ _ = .ok ["a", "b"] from rfl) (by simp [adapter])

end Duo
end MirrorRust
