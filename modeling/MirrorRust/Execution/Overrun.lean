import MirrorRust.Execution.Passing

/-! The limit of the evidence and the rows that are stored. The counter takes the text of a state as
the observer has given it; the row has an envelope, and its numbers are written again. -/
namespace MirrorRust

/-- As long as the counter is within its limit, what is stored differs from it by what the rows
have taken beyond their count. In an execution whose steps are all ample, the rows that are retained
have at most 8 MiB; and only in those. -/
theorem evidence_bounded_iff {w w' : World} (hinit : execution.init w) {actions : List Action}
    (hrun : execution.run w actions = some w') :
    (w'.shared.evidenceBytes ≤ 8 * 1_048_576 →
      (rowBytes w'.report.events + rowBytes w'.report.observations : ℤ) =
        w'.shared.evidenceBytes + execution.total World.surplus w actions) ∧
    ((∀ actions' u, actions' <+: actions → execution.run w actions' = some u →
      rowBytes u.report.events + rowBytes u.report.observations ≤ 8 * 1_048_576) ↔
        ampleExecution.run w actions = some w') := by
  obtain ⟨_, _, _, _, rfl⟩ := hinit
  refine ⟨fun hbytes => ?_, run_within_iff (Nat.zero_le _) hrun⟩
  have hback : ∀ u action v, execution.step u action = some v →
      v.shared.evidenceBytes ≤ evidenceLimit → u.shared.evidenceBytes ≤ evidenceLimit :=
    fun _ _ _ hv hbytes => (World.step_booked hv).bytes_le.trans hbytes
  have hstep : ∀ u action v, execution.step u action = some v →
      v.shared.evidenceBytes ≤ evidenceLimit →
      (v.shared.evidence : ℤ) - v.shared.evidenceBytes =
        (u.shared.evidence : ℤ) - u.shared.evidenceBytes + u.surplus action :=
    fun _ _ _ hv hbytes => (World.step_booked hv).evidence hbytes
  obtain ⟨-, htotal⟩ := TransitionSystem.run_total hback hstep hrun hbytes
  have hnew : ∀ setup cancelled generation executionId,
      ((World.new setup cancelled generation executionId).shared.evidence : ℤ) -
        (World.new setup cancelled generation executionId).shared.evidenceBytes = 0 :=
    fun _ _ _ _ => rfl
  rw [hnew, zero_add] at htotal
  rw [← htotal, SharedState.evidence]
  push_cast
  exact (add_sub_cancel _ _).symm

/-! ### A run that stores more than its limit -/

theorem plays_projects (c : Cooperation) : c.plays.Projects runSchedule Play.drive where
  init := by
    rintro _ ⟨generation, executionId, rfl⟩
    exact ⟨c.setup, false, generation, executionId, rfl⟩
  step p action p' h := by
    right
    cases action with
    | act action =>
      simp only [Cooperation.plays, Cooperation.step, Option.ite_none_right_eq_some,
        Option.map_eq_some_iff] at h
      obtain ⟨-, d, hd, rfl⟩ := h
      exact ⟨.act action, hd⟩
    | check =>
      obtain ⟨d, hd, rfl⟩ := Option.map_eq_some_iff.mp h
      exact ⟨.check, hd⟩
    | advance expired =>
      simp only [Cooperation.plays, Cooperation.step, Option.ite_none_left_eq_some,
        Option.map_eq_some_iff] at h
      obtain ⟨-, d, hd, rfl⟩ := h
      exact ⟨.advance false, hd⟩

/-- A cooperative program has a passed execution, which stores what it plans and observes. -/
theorem Cooperation.passes (c : Cooperation) : ∃ w actions w', execution.init w ∧
    execution.run w actions = some w' ∧ w'.report.passed = true ∧
      w'.report.observations = (List.range (c.setup.schedule.steps.length + 1)).map fun k =>
        SharedState.observationRow c.setup.serde k (c.values k) := by
  have hinit : c.plays.init { drive := .new c.setup false 1 "", calls := fun _ => 0 } :=
    ⟨1, "", rfl⟩
  obtain ⟨plays, p, hplays, hreturned⟩ : ∃ plays p, c.plays.run _ plays = some p ∧
      p.drive.loop = .returned :=
    (plays_descends c).reaches (fun _ hp hloop => (concert hp).enabled hloop) (.init hinit)
  obtain ⟨hpassed, -, hobservations⟩ :=
    (concert (TransitionSystem.Reachable.run (.init hinit) hplays)).returned hreturned
  obtain ⟨drives, hdrives⟩ := (plays_projects c).run hplays
  obtain ⟨actions, hrun⟩ := runSchedule_projects.run hdrives
  exact ⟨_, actions, _, ⟨c.setup, false, 1, "", rfl⟩, hrun, hpassed, hobservations⟩

namespace Solo

/-- Every number of the array is one character longer when it is stored. -/
def numbers (n : ℕ) : Json := .array (List.replicate n (.number "1e5"))

theorem numbers_bytes {n : ℕ} (h : n ≠ 0) :
    (numbers n).bytes = 4 * n + 1 ∧ ((numbers n).toValue Exponent.signing).bytes = 5 * n + 1 := by
  have hne : ∀ j : Json, List.replicate n j ≠ [] := fun j => by simpa using h
  have hbytes : (Json.number "1e5").bytes = 3 := by decide +kernel
  have hbytes' : ((Json.number "1e5").toValue Exponent.signing).bytes = 4 := by decide +kernel
  rw [numbers, Json.toValue_array, List.map_replicate, Json.bytes_array (hne _),
    Json.bytes_array (hne _)]
  simp [hbytes, hbytes', Nat.mul_comm]

theorem distinct_numbers (n : ℕ) : Json.DistinctItems (List.replicate n (.number "1e5")) := by
  induction n with
  | zero => trivial
  | succ n ih => exact ⟨trivial, ih⟩

theorem numbers_accepted {n : ℕ} (h : n ≠ 0) (hle : n ≤ 16_000) :
    (parse (numbers n).render SharedState.observationLimits).toOption.isSome = true := by
  have htokens : (numbers n).Tokens := by
    refine (Json.tokensItems_iff _).mpr fun j hj => ?_
    rw [List.eq_of_mem_replicate hj]
    exact (List.forall_mem_cons.mp Exponent.isValue_inputs).1.1
  have hnodes : Json.nodesItems (List.replicate n (.number "1e5")) ≤ n * 1 := by
    have hone : ∀ j ∈ List.replicate n (Json.number "1e5"), j.nodes ≤ 1 := fun j hj => by
      rw [List.eq_of_mem_replicate hj]
      rfl
    have hitems := nodesItems_le hone
    rwa [List.length_replicate] at hitems
  have hdepth : Json.depthItems (List.replicate n (.number "1e5")) ≤ 0 :=
    depthItems_le fun j hj => by
      rw [List.eq_of_mem_replicate hj]
      rfl
  have hfits : (numbers n).Fits SharedState.observationLimits := by
    refine ⟨?_, ?_, fun _ => distinct_numbers n⟩
    · have hmax : SharedState.observationLimits.maxDepth = 28 := rfl
      rw [numbers, Json.depth]
      omega
    · have hmax : SharedState.observationLimits.maxNodes = 65_536 := rfl
      rw [numbers, Json.nodes]
      omega
  have hsize : (numbers n).render.utf8ByteSize ≤ SharedState.observationLimits.maxBytes := by
    have hmax : SharedState.observationLimits.maxBytes = 65_535 := rfl
    have hbytes : (numbers n).render.utf8ByteSize = 4 * n + 1 := (numbers_bytes h).1
    omega
  rw [parse_render_ok htokens hfits hsize]
  rfl

/-- An observer that answers with many numbers, `m + 2` times. -/
def verbose (m n : ℕ) (hm : m < 65_536) (hn : n ≠ 0) (hle : n ≤ 16_000)
    (hbound : (m + 1) * 947 + (m + 1 + 1) * (4 * n + 1) ≤ evidenceLimit) : Cooperation where
  setup := { setup with schedule := long m, serde := Exponent.signing }
  values _ := numbers n
  admitted := long_admitted hm
  accepted _ _ := numbers_accepted hn hle
  evidence := by
    have hadmitted : admitSchedule Exponent.signing (long m) adapter .default = .ok () :=
      long_admitted hm
    have hplanned := (@plannedRows_bytes
      { setup with schedule := long m, serde := Exponent.signing } hadmitted _ le_rfl).2
    simp only [length_long, List.map_const', List.length_range, List.sum_replicate, smul_eq_mul,
      (numbers_bytes hn).1] at hplanned ⊢
    omega

theorem verbose_stored {observations : List Json} {m n : ℕ} (hn : n ≠ 0)
    (h : observations = (List.range (m + 1 + 1)).map fun k =>
      SharedState.observationRow Exponent.signing k (numbers n)) :
    (m + 1 + 1) * (5 * n + 25) ≤ rowBytes observations := by
  have hrow : ∀ row ∈ observations, 5 * n + 25 ≤ row.bytes := by
    rw [h]
    refine List.forall_mem_map.mpr fun k _ => ?_
    rw [SharedState.observationRow_bytes, (numbers_bytes hn).2]
    omega
  have hsum := List.card_nsmul_le_sum (observations.map Json.bytes) (5 * n + 25)
    (List.forall_mem_map.mpr hrow)
  rwa [List.length_map, h, List.length_map, List.length_range, smul_eq_mul, ← h] at hsum

end Solo

/-- An execution passes, with its counter within the limit, although it has stored more. -/
theorem evidence_bounded_verbose : ∃ w actions w', execution.run w actions = some w' ∧
    w'.report.passed = true ∧
      8 * 1_048_576 < rowBytes w'.report.events + rowBytes w'.report.observations ∧
      ampleExecution.run w actions ≠ some w' := by
  obtain ⟨m, n, hm, hn⟩ : ∃ m n, m = 127 ∧ n = 15_000 := ⟨_, _, rfl, rfl⟩
  have hroom : (m + 1) * 947 + (m + 1 + 1) * (4 * n + 1) ≤ evidenceLimit := by
    rw [hm, hn]
    decide
  obtain ⟨w, actions, w', hinit, hrun, hpassed, hobservations⟩ :=
    (Solo.verbose m n (by omega) (by omega) (by omega) hroom).passes
  have hlength : (Solo.long m).steps.length = m + 1 := Solo.length_long m
  have hrows : w'.report.observations = (List.range ((Solo.long m).steps.length + 1)).map fun k =>
      SharedState.observationRow Exponent.signing k (Solo.numbers n) := hobservations
  rw [hlength] at hrows
  have hstored : (m + 1 + 1) * (5 * n + 25) ≤ rowBytes w'.report.observations :=
    Solo.verbose_stored (by omega) hrows
  have hover : 8 * 1_048_576 < (m + 1 + 1) * (5 * n + 25) := by
    rw [hm, hn]
    decide
  refine ⟨w, actions, w', hrun, hpassed, by omega, fun hample => ?_⟩
  have hbound := (evidence_bounded_iff hinit hrun).2.mpr hample actions w' (List.prefix_refl _) hrun
  omega

end MirrorRust
