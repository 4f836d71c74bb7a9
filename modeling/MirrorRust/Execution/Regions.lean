import MirrorRust.Execution.State

/-! What each region can do to the shared state. The invariants of an execution are
derived from these facts and do not unfold a region again. -/
namespace MirrorRust
namespace SharedState
variable {s s' : SharedState} {o : Outcome} {d : String}

/-! ### The failure latch -/

@[simp] theorem fail_events : (s.fail o d).report.events = s.report.events := by
  rw [fail]; split_ifs <;> rfl

@[simp] theorem fail_observations :
    (s.fail o d).report.observations = s.report.observations := by
  rw [fail]; split_ifs <;> rfl

@[simp] theorem fail_scheduleCompleted :
    (s.fail o d).report.scheduleCompleted = s.report.scheduleCompleted := by
  rw [fail]; split_ifs <;> rfl

@[simp] theorem fail_cleanup : (s.fail o d).report.cleanup = s.report.cleanup := by
  rw [fail]; split_ifs <;> rfl

@[simp] theorem fail_remainingActors :
    (s.fail o d).report.remainingActors = s.report.remainingActors := by
  rw [fail]; split_ifs <;> rfl

@[simp] theorem fail_cleanupAttempts :
    (s.fail o d).report.cleanupAttempts = s.report.cleanupAttempts := by
  rw [fail]; split_ifs <;> rfl

theorem fail_outcome (ho : o ≠ .completed) : (s.fail o d).report.outcome ≠ .completed := by
  rw [fail]; split_ifs with h <;> assumption

theorem fail_latched (h : s.report.outcome ≠ .completed) : (s.fail o d).report = s.report := by
  rw [fail, if_neg h]

/-- `s'` is `s` with a failure latched; only the evidence counter may have moved as well. -/
def Fails (s s' : SharedState) : Prop :=
  ∃ o d b, o ≠ .completed ∧ s' = { s with evidenceBytes := b }.fail o d

theorem fails_fail (ho : o ≠ .completed) : Fails s (s.fail o d) := ⟨o, d, s.evidenceBytes, ho, rfl⟩

section Fails
variable (h : Fails s s')
include h

theorem Fails.actors : s'.actors = s.actors := by obtain ⟨_, _, _, _, rfl⟩ := h; rfl
theorem Fails.stopping : s'.stopping = true := by obtain ⟨_, _, _, _, rfl⟩ := h; rfl

theorem Fails.outcome : s'.report.outcome ≠ .completed := by
  obtain ⟨_, _, _, ho, rfl⟩ := h
  exact fail_outcome ho

theorem Fails.events : s'.report.events = s.report.events := by
  obtain ⟨_, _, _, _, rfl⟩ := h
  exact fail_events

theorem Fails.observations : s'.report.observations = s.report.observations := by
  obtain ⟨_, _, _, _, rfl⟩ := h
  exact fail_observations

theorem Fails.scheduleCompleted :
    s'.report.scheduleCompleted = s.report.scheduleCompleted := by
  obtain ⟨_, _, _, _, rfl⟩ := h
  exact fail_scheduleCompleted

theorem Fails.cleanup : s'.report.cleanup = s.report.cleanup := by
  obtain ⟨_, _, _, _, rfl⟩ := h
  exact fail_cleanup

theorem Fails.remainingActors : s'.report.remainingActors = s.report.remainingActors := by
  obtain ⟨_, _, _, _, rfl⟩ := h
  exact fail_remainingActors

theorem Fails.cleanupAttempts : s'.report.cleanupAttempts = s.report.cleanupAttempts := by
  obtain ⟨_, _, _, _, rfl⟩ := h
  exact fail_cleanupAttempts

theorem Fails.latched (hs : s.report.outcome ≠ .completed) : s'.report = s.report := by
  obtain ⟨_, _, _, _, rfl⟩ := h
  exact fail_latched hs

end Fails

/-! ### Events -/

/-- The state after an event has been stored. -/
def pushEvent (s : SharedState) (kind : String) (step : ℕ) (a : Actor) : SharedState :=
  { s with
    evidenceBytes := s.evidenceBytes + (s.eventRow kind step a).render.utf8ByteSize
    report := { s.report with events := s.report.events ++ [s.eventRow kind step a] } }

theorem retainEvent_spec (kind : String) (step : ℕ) {actor : ℕ} {a : Actor}
    (ha : s.actors[actor]? = some a) :
    Fails s (s.retainEvent kind step actor) ∨
      s.retainEvent kind step actor = s.pushEvent kind step a := by
  rw [retainEvent, ha]
  simp only
  split_ifs
  · exact Or.inl ⟨_, _, _, by decide, rfl⟩
  · exact Or.inr rfl

/-! ### Workers -/

/-- The caller of `arrive` is turned away, with or without a failure, or its actor parks. -/
theorem arrive_spec (checkpoints : List String) {actor : ℕ} (thread : ThreadId)
    (checkpoint : String) {a : Actor} (ha : s.actors[actor]? = some a) :
    (∃ s', Fails s s' ∧ s.arrive checkpoints actor thread checkpoint = (s', false)) ∨
      (s.stopping = true ∧ s.arrive checkpoints actor thread checkpoint = (s, false)) ∨
      (a.thread = some thread ∧ a.phase = .running ∧ s.stopping = false ∧
        identifier checkpoint = true ∧
        s.arrive checkpoints actor thread checkpoint =
          (s.modifyActor actor fun a => { a with checkpoint := checkpoint, phase := .parked },
            true)) := by
  rw [arrive, ha]
  simp only
  split_ifs with h1 h2 h3
  · exact Or.inl ⟨_, fails_fail (by decide), rfl⟩
  · exact Or.inr (Or.inl ⟨h2, rfl⟩)
  · exact Or.inl ⟨_, fails_fail (by decide), rfl⟩
  · simp only [not_or, not_not] at h1 h3
    exact Or.inr (Or.inr ⟨h1.1, h1.2, by simpa using h2, by simpa using h3.1, rfl⟩)

/-- A call of `arrive` from a thread that is not the worker's own always fails. -/
theorem arrive_foreign (checkpoints : List String) {actor : ℕ} {thread : ThreadId}
    (checkpoint : String) {a : Actor} (ha : s.actors[actor]? = some a)
    (ht : a.thread ≠ some thread) :
    ∃ s', Fails s s' ∧ s.arrive checkpoints actor thread checkpoint = (s', false) := by
  rw [arrive, ha]
  simp only [ht, ne_eq, not_false_eq_true, true_or, if_true]
  exact ⟨_, fails_fail (by decide), rfl⟩

def finishActor (s : SharedState) (actor : ℕ) : SharedState :=
  s.modifyActor actor fun a => { a with phase := .finished, checkpoint := COMPLETION }

theorem settle_spec (s : SharedState) (actor : ℕ) (result : CallResult Unit) :
    s.settle actor result = s.finishActor actor ∨
      ∃ s', Fails s s' ∧ s.settle actor result = s'.finishActor actor := by
  unfold settle
  split_ifs
  · exact Or.inl rfl
  · cases result with
    | ok _ => exact Or.inl rfl
    | error e => exact Or.inr ⟨_, fails_fail (by decide), rfl⟩
    | panic => exact Or.inr ⟨_, fails_fail (by decide), rfl⟩

/-! ### Controller -/

theorem waitFor_spec (s : SharedState) (cancelled expired : Bool) (p : SharedState → Bool) :
    (s.stopping = true ∧ s.waitFor cancelled expired p = (s, some false)) ∨
      (∃ s', Fails s s' ∧ s.waitFor cancelled expired p = (s', some false)) ∨
      (s.stopping = false ∧ p s = true ∧ s.waitFor cancelled expired p = (s, some true)) ∨
      s.waitFor cancelled expired p = (s, none) := by
  rw [waitFor]
  split_ifs with h1 h2 h3 h4
  · exact Or.inl ⟨h1, rfl⟩
  · exact Or.inr (Or.inl ⟨_, fails_fail (by decide), rfl⟩)
  · exact Or.inr (Or.inl ⟨_, fails_fail (by decide), rfl⟩)
  · exact Or.inr (Or.inr (Or.inl ⟨by simpa using h1, h4, rfl⟩))
  · exact Or.inr (Or.inr (Or.inr rfl))

def observationRow (serde : Serde) (next : ℕ) (value : Json) : Json :=
  Json.obj [("afterSteps", .ofNat next), ("state", value.toValue serde)]

/-- The state after an observation has been stored. -/
def pushObservation (s : SharedState) (serde : Serde) (next : ℕ) (value : Json) : SharedState :=
  { s with
    evidenceBytes := s.evidenceBytes + value.render.utf8ByteSize
    report := { s.report with
      observations := s.report.observations ++ [observationRow serde next value] } }

theorem judge_spec (s : SharedState) (serde : Serde) (cancelled expired : Bool) (next : ℕ)
    (result : CallResult Json) :
    Fails s (s.judge serde cancelled expired next result) ∨
      (cancelled = false ∧ ∃ value, result = .ok value ∧
        s.judge serde cancelled expired next result = s.pushObservation serde next value) := by
  unfold judge
  split_ifs with h1 h2
  · exact Or.inl (fails_fail (by decide))
  · exact Or.inl (fails_fail (by decide))
  · cases result with
    | error e => exact Or.inl (fails_fail (by decide))
    | panic => exact Or.inl (fails_fail (by decide))
    | ok value =>
      simp only
      split_ifs
      · exact Or.inl (fails_fail (by decide))
      · exact Or.inr ⟨by simpa using h1, value, rfl, rfl⟩

theorem permit_spec (s : SharedState) (cancelled expired : Bool) (steps : List Step) (next : ℕ)
    (requested : Step) :
    (∃ s', Fails s s' ∧ s.permit cancelled expired steps next requested = (s', none)) ∨
      ∃ i a, s.actors[i]? = some a ∧ a.phase = .parked ∧
        a.declaration.actor = requested.actor ∧ steps[next]? = some requested ∧
        s.permit cancelled expired steps next requested =
          if s.stopping then (s.pushEvent "permit" next a, none)
          else ((s.pushEvent "permit" next a).setPhase i .running, some i) := by
  rw [permit]
  by_cases h1 : cancelled = true
  · rw [if_pos h1]
    exact Or.inl ⟨_, fails_fail (by decide), rfl⟩
  by_cases h2 : expired = true
  · rw [if_neg h1, if_pos h2]
    exact Or.inl ⟨_, fails_fail (by decide), rfl⟩
  by_cases h3 : steps[next]? = some requested
  · rw [if_neg h1, if_neg h2, if_neg (by simpa using h3)]
    by_cases h4 : s.phase? (s.actors.findIdx fun a => a.declaration.actor = requested.actor) =
        some .parked
    · obtain ⟨a, ha, hphase⟩ := Option.map_eq_some_iff.mp h4
      have hname : a.declaration.actor = requested.actor := by
        obtain ⟨hlt, hget⟩ := List.getElem?_eq_some_iff.mp ha
        simpa [hget] using List.findIdx_getElem (w := hlt)
      simp only [h4, ne_eq, not_true_eq_false, if_false]
      rcases retainEvent_spec "permit" next ha with hf | hp
      · rw [if_pos hf.stopping]
        exact Or.inl ⟨_, hf, rfl⟩
      · refine Or.inr ⟨_, a, ha, hphase, hname, h3, ?_⟩
        rw [hp]
        rfl
    · simp only [h4, ne_eq, not_false_eq_true, if_true]
      exact Or.inl ⟨_, fails_fail (by decide), rfl⟩
  · rw [if_neg h1, if_neg h2, if_pos h3]
    exact Or.inl ⟨_, fails_fail (by decide), rfl⟩

theorem beginCleanup_spec (s : SharedState) :
    (s.report.scheduleCompleted = false ∧ Fails s s.beginCleanup) ∨
      ((s.report.outcome = .completed → s.report.scheduleCompleted = true) ∧
        s.beginCleanup = { s with stopping := true }) := by
  rw [beginCleanup]
  split_ifs with h
  · exact Or.inl ⟨by simpa using h.2, fails_fail (by decide)⟩
  · exact Or.inr ⟨fun ho => by simpa [ho] using h, rfl⟩

theorem Fails.fail (h : Fails s s') : s'.fail o d = s' := by
  rw [SharedState.fail, if_neg h.outcome, ← h.stopping]

theorem arrival_spec (next : ℕ) {index : ℕ} (requested : Step) {a : Actor}
    (ha : s.actors[index]? = some a) :
    ∃ s', s.arrival next index requested = (s', decide (a.phase = .finished)) ∧
      (Fails s s' ∨ Fails (s.pushEvent "arrival" next a) s' ∨
        (a.checkpoint = requested.checkpoint ∧ s' = s.pushEvent "arrival" next a)) := by
  rw [arrival]
  rcases retainEvent_spec "arrival" next ha with hf | hp
  · have ha' : (s.retainEvent "arrival" next index).actors[index]? = some a := by rw [hf.actors, ha]
    simp only [ha']
    refine ⟨_, rfl, Or.inl ?_⟩
    split_ifs
    · rw [hf.fail]
      exact hf
    · exact hf
  · have ha' : (s.retainEvent "arrival" next index).actors[index]? = some a := by rw [hp]; exact ha
    simp only [ha']
    refine ⟨_, rfl, Or.inr ?_⟩
    rw [hp]
    split_ifs with hc
    · exact Or.inl (fails_fail (by decide))
    · exact Or.inr ⟨by simpa using hc, rfl⟩

end SharedState
end MirrorRust
