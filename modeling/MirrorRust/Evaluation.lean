import MirrorRust.Declaration

/-! How the evaluation of one run ends, and what it leaves in the tables of the campaign. -/
namespace MirrorRust

/-! ### Receipts -/

/-- A receipt of exactly this schedule and these actors. -/
structure Receipt (serde : Serde) (declarations : List (String × String)) (candidate : Schedule)
    (execution : Json) (id : String) : Prop where
  schema : execution.index "schema" = .string "mirrors.checkpoint-execution/v1"
  schedule : execution.index "schedule" = candidate.toJson serde
  actors : ∃ (items : List Json) (actors : List ActorDeclaration),
    execution.index "actors" = .array items ∧
      List.Forall₂ (fun j a => ActorDeclaration.fromValue j = some a) items actors ∧
      (actors.map ActorDeclaration.actor).Nodup ∧
      Assoc.ofList (actors.map ActorDeclaration.entry) = declarations
  executionId : execution.index "executionId" = .string id
  valid : executionIdValid id = true

theorem Json.asArray_eq_some {j : Json} {items : List Json} :
    j.asArray = some items ↔ j = .array items := by
  cases j <;> simp [Json.asArray]

theorem Json.asStr_eq_some {j : Json} {s : String} : j.asStr = some s ↔ j = .string s := by
  cases j <;> simp [Json.asStr]

theorem readActors_ok {serde : Serde} {items : List Json}
    {actual result : List (String × String)} (h : readActors serde items actual = .ok result) :
    ∃ actors, List.Forall₂ (fun j a => ActorDeclaration.fromValue j = some a) items actors ∧
      (∀ a ∈ actors, Assoc.get? a.actor actual = none) ∧
      (actors.map ActorDeclaration.actor).Nodup ∧
      result = (actors.map ActorDeclaration.entry).foldl (fun m p => Assoc.insert p.1 p.2 m)
        actual := by
  induction items generalizing actual with
  | nil =>
    cases h
    exact ⟨[], .nil, by simp, List.nodup_nil, rfl⟩
  | cons j items ih =>
    rw [readActors] at h
    cases hread : ActorDeclaration.fromValue j with
    | none =>
      rw [hread] at h
      cases h
    | some a =>
      rw [hread] at h
      obtain ⟨_, hnew, h⟩ := bind_ok_iff.mp h
      rw [require_eq_ok, Option.isNone_iff_eq_none] at hnew
      obtain ⟨actors, hitems, hall, hnames, hresult⟩ := ih h
      have hother : ∀ b ∈ actors, b.actor ≠ a.actor ∧ Assoc.get? b.actor actual = none := by
        intro b hb
        have hget := hall b hb
        rw [Assoc.get?_insert] at hget
        split_ifs at hget with heq
        exact ⟨heq, hget⟩
      refine ⟨a :: actors, .cons hread hitems, List.forall_mem_cons.mpr ⟨hnew, fun b hb =>
        (hother b hb).2⟩, List.nodup_cons.mpr ⟨fun hmem => ?_, hnames⟩, hresult⟩
      obtain ⟨b, hb, heq⟩ := List.mem_map.mp hmem
      exact (hother b hb).1 heq

theorem bindExecution_ok {serde : Serde} {declarations : List (String × String)}
    {candidate : Schedule} {ids : List String} {execution : Json} {id : String}
    (h : bindExecution serde declarations candidate ids execution = .ok id) :
    Receipt serde declarations candidate execution id ∧ id ∉ ids := by
  obtain ⟨_, hbound, h⟩ := bind_ok_iff.mp h
  simp only [require_eq_ok, Bool.and_eq_true, beq_iff_eq] at hbound
  cases hactors : (execution.index "actors").asArray with
  | none =>
    simp only [hactors] at h
    cases h
  | some items =>
    simp only [hactors] at h
    obtain ⟨actual, hread, h⟩ := bind_ok_iff.mp h
    obtain ⟨_, hsame, h⟩ := bind_ok_iff.mp h
    rw [require_eq_ok, beq_iff_eq] at hsame
    cases hid : (execution.index "executionId").asStr with
    | none =>
      simp only [hid] at h
      cases h
    | some id' =>
      simp only [hid] at h
      obtain ⟨_, hvalid, h⟩ := bind_ok_iff.mp h
      cases h
      simp only [require_eq_ok, Bool.and_eq_true, Bool.not_eq_true', List.contains_eq_mem,
        decide_eq_false_iff_not] at hvalid
      obtain ⟨actors, hitems, -, hnames, hresult⟩ := readActors_ok hread
      exact ⟨⟨hbound.1, hbound.2, ⟨items, actors, Json.asArray_eq_some.mp hactors, hitems, hnames,
        hresult.symm.trans hsame⟩, Json.asStr_eq_some.mp hid, hvalid.1⟩, hvalid.2⟩

/-- The receipts of a space name exactly its actors. -/
theorem Receipt.perm {serde : Serde} {space : FiniteSpace}
    (hdeclared : space.Declared serde) {candidate : Schedule} {execution : Json} {id : String}
    (h : Receipt serde space.table candidate execution id) :
    ∃ (items : List Json) (actors : List ActorDeclaration),
      execution.index "actors" = .array items ∧
        List.Forall₂ (fun j a => ActorDeclaration.fromValue j = some a) items actors ∧
        actors.Perm (space.actors.map ActorChain.actor) := by
  obtain ⟨items, actors, hitems, hread, hnames, htable⟩ := h.actors
  refine ⟨items, actors, hitems, hread, ?_⟩
  have hinjective : ActorDeclaration.entry.Injective := by
    intro a b hab
    cases a
    cases b
    simpa [ActorDeclaration.entry] using hab
  have hkeys : ((actors.map ActorDeclaration.entry).map Prod.fst).Nodup := by
    rw [List.map_map]
    exact hnames
  have hchains : ((sortActors space.actors).map fun c => c.actor.entry).Perm
      (space.actors.map fun c => c.actor.entry) := (sortActors_perm space.actors).map _
  have hkeys' : (((sortActors space.actors).map fun c => c.actor.entry).map Prod.fst).Nodup := by
    refine (hchains.map _).nodup_iff.mpr ?_
    rw [List.map_map]
    exact hdeclared.names
  have hperm := (Assoc.ofList_perm hkeys).symm.trans
    ((List.Perm.of_eq htable).trans ((Assoc.ofList_perm hkeys').trans hchains))
  have hmap : (space.actors.map fun c => c.actor.entry) =
      (space.actors.map ActorChain.actor).map ActorDeclaration.entry := by
    rw [List.map_map]
    rfl
  rw [hmap] at hperm
  exact (List.map_perm_map_iff hinjective).mp hperm

/-! ### Categories -/

/-- A comparison that bears a run out. -/
structure Matched (serde : Serde) (execution comparison : Json) : Prop where
  schema : comparison.index "schema" = .string "mirrors.scheduled-comparison/v1"
  bound : (comparison.index "binding").index "executions" = .array [execution.toValue serde]
  matched : comparison.index "comparison" = .string "matched"
  passed : comparison.index "passed" = .bool true

theorem category_passed {serde : Serde} {execution : Json} {comparison : Option Json}
    (h : category serde execution comparison = .ok .passed) :
    cleanupConfirmed execution = true ∧ execution.index "passed" = .bool true ∧
      ∀ c ∈ comparison, Matched serde execution c := by
  obtain ⟨⟨mismatch, failed⟩, hread, h⟩ := bind_ok_iff.mp h
  simp only at h
  split_ifs at h with hcleanup hmismatch hfailed hpassed
  · cases h
  · cases h
  · cases h
  · refine ⟨by simpa using hcleanup, by simpa using hpassed, fun c hc => ?_⟩
    obtain rfl : comparison = some c := hc
    obtain ⟨_, hbound, hread⟩ := bind_ok_iff.mp hread
    simp only [require_eq_ok, Bool.and_eq_true, beq_iff_eq] at hbound
    split_ifs at hread
    · obtain ⟨_, -, hread⟩ := bind_ok_iff.mp hread
      cases hread
      simp at hmismatch
    · cases hread
      simp only [Bool.or_eq_true, not_or, bne_iff_ne, ne_eq, not_not] at hfailed
      exact ⟨hbound.1, hbound.2, hfailed.1, hfailed.2⟩
  · split at h <;> cases h

/-! ### Evaluation -/

namespace Campaign

/-- What an evaluation leaves to the loop. -/
structure Kept (c c' : Campaign) : Prop where
  attempted : c'.attempted = c.attempted
  evidenceBytes : c'.evidenceBytes = c.evidenceBytes
  runs : c'.runs = c.runs
  categories : c'.categories = c.categories
  firstFailure : c'.firstFailure = c.firstFailure
  stopReason : c'.stopReason = c.stopReason
  halt : c'.halt = c.halt

end Campaign

namespace Explorer
variable (x : Explorer)

/-- The campaign with the id of a receipt and the bookkeeping of its comparison. -/
def noted (c : Campaign) (candidate : Schedule) (sample : ExplorationSample) (id : String) :
    Campaign :=
  { c with executionIds := id :: c.executionIds }.noteComparison (candidate.toJson x.serde)
    sample.comparison

section Noted
variable (c : Campaign) (candidate : Schedule) (sample : ExplorationSample) (id : String)

theorem kept_noted : c.Kept (x.noted c candidate sample id) := by
  unfold noted Campaign.noteComparison
  constructor <;> split_ifs <;> rfl

@[simp] theorem noted_completed : (x.noted c candidate sample id).completed = c.completed := by
  unfold noted Campaign.noteComparison
  split_ifs <;> rfl

@[simp] theorem noted_coverage : (x.noted c candidate sample id).coverage = c.coverage := by
  unfold noted Campaign.noteComparison
  split_ifs <;> rfl

@[simp] theorem noted_executionIds :
    (x.noted c candidate sample id).executionIds = id :: c.executionIds := by
  unfold noted Campaign.noteComparison
  split_ifs <;> rfl

end Noted

/-- The observations of a receipt, recorded in a coverage. -/
def record (coverage : Coverage) (execution : Json) : Coverage × Except (Fault String) Unit :=
  coverage.observe (projectObservation x.serde x.space) 0 none
    ((execution.index "observations").asArray.getD [])

/-- A sample whose run counts as passed, apart from its observations. -/
structure Accepted (candidate : Schedule) (sample : ExplorationSample) (id : String) : Prop where
  receipt : Receipt x.serde x.declarations candidate sample.execution id
  category : category x.serde sample.execution sample.comparison = .ok .passed
  comparison : x.space.requireModelComparison = true → sample.comparison ≠ none
  success : validateSuccess sample.execution candidate = .ok ()

/-- How the evaluation of a run ends, exit by exit. -/
inductive Evaluates (c : Campaign) (candidate : Schedule) :
    CallResult ExplorationSample → Evaluated → Prop
  | error {e} : Evaluates c candidate (.error e) ⟨c, false, .error (.error e)⟩
  | panic : Evaluates c candidate .panic ⟨c, false, .error (.panic "runner panicked")⟩
  | unbound {sample e} : Evaluates c candidate (.ok sample) ⟨c, false, .error (.error e)⟩
  | unclassified {sample id e}
      (receipt : Receipt x.serde x.declarations candidate sample.execution id) (fresh : id ∉ c.executionIds) :
      Evaluates c candidate (.ok sample) ⟨{ c with executionIds := id :: c.executionIds },
        cleanupConfirmed sample.execution, .error (.error e)⟩
  | unproven {sample id e}
      (receipt : Receipt x.serde x.declarations candidate sample.execution id) (fresh : id ∉ c.executionIds) :
      Evaluates c candidate (.ok sample) ⟨x.noted c candidate sample id,
        cleanupConfirmed sample.execution, .error (.error e)⟩
  | unobserved {sample id coverage e} (accepted : x.Accepted candidate sample id)
      (fresh : id ∉ c.executionIds) (record : x.record c.coverage sample.execution =
        (coverage, .error e)) :
      Evaluates c candidate (.ok sample) ⟨{ x.noted c candidate sample id with coverage := coverage },
        cleanupConfirmed sample.execution, .error e⟩
  | passed {sample id coverage} (accepted : x.Accepted candidate sample id)
      (fresh : id ∉ c.executionIds) (record : x.record c.coverage sample.execution =
        (coverage, .ok ())) :
      Evaluates c candidate (.ok sample)
        ⟨{ x.noted c candidate sample id with coverage := coverage, completed := c.completed + 1 },
          cleanupConfirmed sample.execution, .ok .passed⟩
  | classified {sample id kind c'}
      (receipt : Receipt x.serde x.declarations candidate sample.execution id) (fresh : id ∉ c.executionIds) (failed : kind ≠ .passed)
      (campaign : c' = x.noted c candidate sample id ∨
        c' = (x.noted c candidate sample id).noteCounterexample (candidate.toJson x.serde)) :
      Evaluates c candidate (.ok sample) ⟨c', cleanupConfirmed sample.execution, .ok kind⟩

theorem requireComparison_passed {x : Explorer} {kind : Category} {comparison : Option Json}
    (h : x.requireComparison kind comparison = .passed) :
    kind = .passed ∧ (x.space.requireModelComparison = true → comparison ≠ none) := by
  unfold requireComparison at h
  split_ifs at h with hmissing
  refine ⟨h, fun hrequired hnone => hmissing ?_⟩
  simp [hrequired, hnone]

theorem evaluates (c : Campaign) (candidate : Schedule) (result : CallResult ExplorationSample) :
    x.Evaluates c candidate result (x.evaluate c candidate result) := by
  cases result with
  | error e => exact .error
  | panic => exact .panic
  | ok sample =>
    rw [evaluate]
    cases hbind : bindExecution x.serde x.declarations candidate c.executionIds
        sample.execution with
    | error e => exact .unbound
    | ok id =>
      obtain ⟨hreceipt, hfresh⟩ := bindExecution_ok hbind
      simp only [assess]
      cases hcategory : category x.serde sample.execution sample.comparison with
      | error e => exact .unclassified hreceipt hfresh
      | ok kind =>
        simp only
        have hnoted : ({ c with executionIds := id :: c.executionIds } : Campaign).noteComparison
            (candidate.toJson x.serde) sample.comparison = x.noted c candidate sample id := rfl
        rw [hnoted]
        split_ifs with hpassed hmismatch
        · obtain ⟨rfl, hcomparison⟩ := requireComparison_passed hpassed
          rw [accept]
          cases hsuccess : validateSuccess sample.execution candidate with
          | error e => exact .unproven hreceipt hfresh
          | ok _ =>
            have haccepted : x.Accepted candidate sample id :=
              ⟨hreceipt, hcategory, hcomparison, hsuccess⟩
            have hrecord : ∀ r, x.record c.coverage sample.execution = r →
                (x.noted c candidate sample id).coverage.observe
                  (projectObservation x.serde x.space) 0 none
                  ((sample.execution.index "observations").asArray.getD []) = r := by
              rintro r rfl
              rw [x.noted_coverage]
              rfl
            rcases hr : x.record c.coverage sample.execution with ⟨coverage, e | u⟩
            · simp only [hrecord _ hr]
              exact .unobserved haccepted hfresh hr
            · simp only [hrecord _ hr, x.noted_completed, hpassed]
              exact .passed haccepted hfresh hr
        · exact .classified hreceipt hfresh hpassed (Or.inr rfl)
        · exact .classified hreceipt hfresh hpassed (Or.inl rfl)

end Explorer
end MirrorRust
