import MirrorRust.Execution.Evidence
import MirrorRust.Execution.Receipt
import MirrorRust.Execution.Pace

/-! The rows that a schedule plans: a permit and an arrival for every interval. An execution that
has not failed has stored these rows and no others, so that their length decides whether the
schedule can pass at all. -/
namespace MirrorRust

/-! ### Where the actors stand -/

/-- The last checkpoint of an actor in the first `k` intervals. -/
def standing (steps : List Step) (k : ℕ) (actor : String) : String :=
  (((steps.take k).filter fun r => r.actor = actor).getLast?.map Step.checkpoint).getD "$start"

section Standing
variable {steps : List Step} {k : ℕ} {r : Step}

@[simp] theorem standing_zero (actor : String) : standing steps 0 actor = "$start" := rfl

theorem take_succ_of_getElem? (h : steps[k]? = some r) : steps.take (k + 1) = steps.take k ++ [r] := by
  rw [List.take_add_one, h, Option.toList_some]

theorem standing_self (h : steps[k]? = some r) : standing steps (k + 1) r.actor = r.checkpoint := by
  simp [standing, take_succ_of_getElem? h, List.filter_append]

theorem standing_other (h : steps[k]? = some r) {actor : String} (hne : r.actor ≠ actor) :
    standing steps (k + 1) actor = standing steps k actor := by
  simp [standing, take_succ_of_getElem? h, List.filter_append, hne]

/-- An actor stands at its start or at a checkpoint of its own. -/
theorem standing_mem (steps : List Step) (k : ℕ) (actor : String) :
    standing steps k actor = "$start" ∨ ∃ r ∈ steps, r.checkpoint = standing steps k actor := by
  cases hlast : ((steps.take k).filter fun r => r.actor = actor).getLast? with
  | none => exact Or.inl (by rw [standing, hlast]; rfl)
  | some r =>
    have hmem := List.mem_filter.mp (List.mem_of_getLast? hlast)
    exact Or.inr ⟨r, List.mem_of_mem_take hmem.1, by rw [standing, hlast]; rfl⟩

end Standing

/-- Outside the open interval every actor stands where its last ended interval has left it. -/
def Standing (w : World) : Prop :=
  w.shared.stopping = false → ∀ (i : ℕ) (p : ActorDeclaration × String),
    w.shared.places[i]? = some p → w.ctl.moving ≠ some i →
      p.2 = standing w.steps (w.next + w.ctl.pending / 2) p.1.actor

theorem SharedState.places_eq {s : SharedState} {i : ℕ} {a : Actor} (ha : s.actors[i]? = some a) :
    s.places[i]? = some (a.declaration, a.checkpoint) := by
  rw [places, List.getElem?_map, ha, Option.map_some]

/-- The setup is fixed. -/
theorem World.step_setup {w w' : World} {action : Action} (hw : w.step action = some w') :
    w'.setup = w.setup :=
  (World.step_move hw).elim ControlMove.setup fun hw => hw.beside.setup

/-- Distinct positions belong to distinct names. -/
theorem Coordinated.name_inj {w : World} (h : Coordinated w) (hadmitted : w.Admitted) {i j : ℕ}
    {a b : Actor} (ha : w.shared.actors[i]? = some a) (hb : w.shared.actors[j]? = some b)
    (hname : a.declaration.actor = b.declaration.actor) : i = j := by
  have hi := congrArg (Option.map ActorDeclaration.actor) (h.declaration ha)
  have hj := congrArg (Option.map ActorDeclaration.actor) (h.declaration hb)
  rw [← List.getElem?_map] at hi hj
  exact (List.getElem?_inj (List.getElem?_eq_some_iff.mp hi).1 hadmitted.distinct).mp
    (hi.trans ((congrArg some hname).trans hj.symm))

theorem Standing.paced {w w' : World} (hr : execution.Reachable w) (h : Standing w)
    (hsetup : w'.setup = w.setup) (hw : Paced w w') : Standing w' := by
  intro hlive i p hp hmoving
  have hsteps : w'.steps = w.steps := by rw [World.steps, hsetup]; rfl
  rw [hsteps]
  cases hw with
  | keeps hpace hplaces =>
    simp only [World.pace, Pace.mk.injEq] at hpace
    obtain ⟨hstop, -, hnext, hpending, hmove⟩ := hpace
    rw [hnext, hpending]
    exact h (hstop ▸ hlive) i p (hplaces ▸ hp) (hmove ▸ hmoving)
  | halts hstop => simp [hstop] at hlive
  | declares hctl hpace hplaces =>
    simp only [World.pace, Pace.mk.injEq] at hpace
    obtain ⟨-, -, hnext, hpending, -⟩ := hpace
    rw [hplaces, List.getElem?_map] at hp
    obtain ⟨d, -, rfl⟩ := Option.map_eq_some_iff.mp hp
    rw [hnext, hpending, next_of_early hr (by rw [hctl]; rfl), hctl]
    rfl
  | permits ha hname hstep hctl _ hpace hplaces =>
    simp only [World.pace, Pace.mk.injEq] at hpace
    obtain ⟨hstop, -, hnext, hpending, -⟩ := hpace
    have hstands := h (hstop ▸ hlive) i p (hplaces ▸ hp) (by simp [hctl, Ctl.moving])
    rw [hctl] at hstands
    rw [hnext, hpending]
    exact hstands
  | @arrives j a r ha hname hstep hctl hcheckpoint hpace hplaces =>
    simp only [World.pace, Pace.mk.injEq] at hpace
    obtain ⟨hstop, -, hnext, hpending, -⟩ := hpace
    rw [hplaces] at hp
    rw [hnext, hpending]
    by_cases hij : i = j
    · obtain rfl : p = (a.declaration, a.checkpoint) :=
        Option.some.inj (hp.symm.trans (hij ▸ SharedState.places_eq ha))
      simp only [hname, hcheckpoint]
      exact (standing_self hstep).symm
    · have hstands := h (hstop ▸ hlive) i p hp (by simpa [hctl, Ctl.moving] using Ne.symm hij)
      have hhalf : (Ctl.arrived j r).pending / 2 = 0 := by simp [Ctl.pending]
      rw [hctl, hhalf] at hstands
      obtain ⟨b, hb, rfl⟩ := Option.map_eq_some_iff.mp (List.getElem?_map ▸ hp)
      have hadmitted := admitted_of_working hr (by simp [hctl])
        (Or.inr (Or.inr (Or.inr ⟨by simp [hctl], by rw [hctl]; rfl⟩)))
      have hne : r.actor ≠ b.declaration.actor := fun heq =>
        hij ((coordinated hr).name_inj hadmitted hb ha (heq.symm.trans hname.symm))
      exact hstands.trans (standing_other hstep hne).symm
  | ends hctl hpace hplaces =>
    simp only [World.pace, Pace.mk.injEq] at hpace
    obtain ⟨hstop, -, hnext, hpending, -⟩ := hpace
    have hstands := h (hstop ▸ hlive) i p (hplaces ▸ hp) (by simp [hctl, Ctl.moving])
    rw [hctl] at hstands
    rw [hnext, hpending]
    exact hstands
  | @moves j hmove hpace hplaces =>
    simp only [World.pace, Pace.mk.injEq] at hpace
    obtain ⟨hstop, -, hnext, hpending, hmove'⟩ := hpace
    have hij : i ≠ j := fun hij => hmoving (hmove'.trans (hij ▸ hmove))
    rw [hnext, hpending]
    exact h (hstop ▸ hlive) i p (hplaces i hij ▸ hp) (hmove' ▸ hmoving)

theorem standing_reachable {w : World} (h : execution.Reachable w) : Standing w :=
  h.invariant (fun _ ⟨_, _, _, _, hw⟩ => hw ▸ fun _ _ _ hp => by simp [World.new, SharedState.places] at hp)
    fun _ _ _ hr hs hw => hs.paced hr (World.step_setup hw) (World.step_paced hr hw)

/-! ### The planned rows -/

def eventRow (ordinal : ℕ) (kind : String) (step : ℕ) (d : ActorDeclaration) (checkpoint : String) :
    Json :=
  Json.obj [("ordinal", .ofNat ordinal), ("kind", .string kind), ("step", .ofNat step),
    ("actor", .string d.actor), ("operation", .string d.operation),
    ("checkpoint", .string checkpoint)]

theorem SharedState.eventRow_eq (s : SharedState) (kind : String) (step : ℕ) (a : Actor) :
    s.eventRow kind step a = MirrorRust.eventRow s.report.events.length kind step a.declaration a.checkpoint :=
  rfl

namespace Setup

/-- The declaration of an actor. -/
def declaration? (setup : Setup) (actor : String) : Option ActorDeclaration :=
  setup.adapter.actors.find? fun d => d.actor = actor

/-- The rows of interval `k`. -/
def intervalRows (setup : Setup) (k : ℕ) : List Json :=
  match setup.schedule.steps[k]? with
  | none => []
  | some r =>
    match setup.declaration? r.actor with
    | none => []
    | some d => [eventRow (2 * k) "permit" k d (standing setup.schedule.steps k r.actor),
        eventRow (2 * k + 1) "arrival" k d r.checkpoint]

/-- The rows of the first `n` intervals. -/
def plannedRows (setup : Setup) (n : ℕ) : List Json := (List.range n).flatMap setup.intervalRows

@[simp] theorem plannedRows_zero (setup : Setup) : setup.plannedRows 0 = [] := rfl

theorem plannedRows_succ (setup : Setup) (n : ℕ) :
    setup.plannedRows (n + 1) = setup.plannedRows n ++ setup.intervalRows n := by
  simp [plannedRows, List.range_succ]

theorem declaration?_eq {setup : Setup} {d : ActorDeclaration}
    (hdistinct : (setup.adapter.actors.map ActorDeclaration.actor).Nodup)
    (hd : d ∈ setup.adapter.actors) : setup.declaration? d.actor = some d := by
  have hfound : (setup.declaration? d.actor).isSome = true :=
    List.find?_isSome.mpr ⟨d, hd, decide_eq_true rfl⟩
  obtain ⟨e, he⟩ := Option.isSome_iff_exists.mp hfound
  have hname : e.actor = d.actor := by simpa using List.find?_some he
  rw [he, List.inj_on_of_nodup_map hdistinct (List.mem_of_find?_eq_some he) hd hname]

theorem length_intervalRows_le (setup : Setup) (k : ℕ) : (setup.intervalRows k).length ≤ 2 := by
  unfold intervalRows
  split
  · exact Nat.zero_le 2
  · split
    · exact Nat.zero_le 2
    · exact le_rfl

theorem intervalRows_eq {setup : Setup} {k : ℕ} {r : Step} {d : ActorDeclaration}
    (hr : setup.schedule.steps[k]? = some r) (hd : setup.declaration? r.actor = some d) :
    setup.intervalRows k =
      [eventRow (2 * k) "permit" k d (standing setup.schedule.steps k r.actor),
        eventRow (2 * k + 1) "arrival" k d r.checkpoint] := by
  simp only [intervalRows, hr, hd]

end Setup

/-- The execution has failed, or its events are the planned ones. -/
def Followed (w : World) : Prop :=
  w.report.outcome = .completed →
    w.report.events = w.setup.plannedRows w.next ++ (w.setup.intervalRows w.next).take w.ctl.pending

namespace Followed
variable {w w' : World} (hr : execution.Reachable w) (ho : w.report.outcome = .completed)
include hr ho

/-- The rows of the interval that an actor is permitted. -/
theorem interval {i : ℕ} {a : Actor} {r : Step} (he : w.ctl ≠ .entering)
    (ha : w.shared.actors[i]? = some a) (hname : a.declaration.actor = r.actor)
    (hstep : w.steps[w.next]? = some r) :
    w.setup.intervalRows w.next =
      [eventRow (2 * w.next) "permit" w.next a.declaration (standing w.steps w.next r.actor),
        eventRow (2 * w.next + 1) "arrival" w.next a.declaration r.checkpoint] := by
  have hadmitted := admitted_of_working hr he (Or.inl ho)
  have hd := List.mem_of_getElem? ((coordinated hr).declaration ha)
  exact Setup.intervalRows_eq hstep (hname ▸ Setup.declaration?_eq hadmitted.distinct hd)

omit hr ho in
theorem paced (hr : execution.Reachable w) (h : Followed w)
    (hsetup : w'.setup = w.setup)
    (houtcome : w'.report.outcome = .completed → w.report.outcome = .completed)
    (hw : Paced w w') : Followed w' := by
  intro ho
  have hlength := fun ho => (ledger hr ho).length
  rw [hsetup]
  specialize h (houtcome ho)
  specialize hlength (houtcome ho)
  cases hw with
  | keeps hpace | declares _ hpace | moves _ hpace =>
    simp only [World.pace, Pace.mk.injEq] at hpace
    obtain ⟨-, hevents, hnext, hpending, -⟩ := hpace
    rw [hevents, hnext, hpending]
    exact h
  | halts _ hpace =>
    specialize hpace ho
    simp only [World.pace, Pace.mk.injEq] at hpace
    obtain ⟨-, hevents, hnext, hpending, -⟩ := hpace
    rw [hevents, hnext, hpending]
    exact h
  | @permits i a r ha hname hstep hctl hlive hpace =>
    simp only [World.pace, Pace.mk.injEq] at hpace
    obtain ⟨-, hevents, hnext, hpending, -⟩ := hpace
    rw [hctl] at h hlength
    have hstands : a.checkpoint = standing w.steps w.next r.actor := by
      have hpermit := standing_reachable hr hlive i _ (SharedState.places_eq ha)
        (by simp [hctl, Ctl.moving])
      rw [hctl] at hpermit
      exact hname ▸ hpermit
    have hrow : w.shared.eventRow "permit" w.next a = eventRow (2 * w.next) "permit" w.next
        a.declaration (standing w.steps w.next r.actor) := by
      rw [SharedState.eventRow_eq, hstands]
      exact congrArg (fun n => eventRow n _ _ _ _) hlength
    rw [hevents, hnext, hpending, interval hr (houtcome ho) (by simp [hctl]) ha hname hstep, h, hrow]
    simp [Ctl.pending]
  | @arrives i a r ha hname hstep hctl hcheckpoint hpace =>
    simp only [World.pace, Pace.mk.injEq] at hpace
    obtain ⟨-, hevents, hnext, hpending, -⟩ := hpace
    rw [hctl] at h hlength
    have hrow : w.shared.eventRow "arrival" w.next a = eventRow (2 * w.next + 1) "arrival" w.next
        a.declaration r.checkpoint := by
      rw [SharedState.eventRow_eq, hcheckpoint]
      exact congrArg (fun n => eventRow n _ _ _ _) hlength
    rw [interval hr (houtcome ho) (by simp [hctl]) ha hname hstep] at h
    rw [hevents, hnext, hpending, interval hr (houtcome ho) (by simp [hctl]) ha hname hstep, h, hrow]
    simp [Ctl.pending]
  | ends hctl hpace =>
    simp only [World.pace, Pace.mk.injEq] at hpace
    obtain ⟨-, hevents, hnext, hpending, -⟩ := hpace
    rw [hctl] at h
    have htwo : (w.setup.intervalRows w.next).length ≤ 2 := Setup.length_intervalRows_le _ _
    rw [hevents, hnext, hpending, Setup.plannedRows_succ, h]
    simpa [Ctl.pending] using htwo

end Followed

theorem followed {w : World} (h : execution.Reachable w) : Followed w := by
  refine h.invariant (fun _ ⟨_, _, _, _, hw⟩ => hw ▸ fun _ => rfl) fun w action w' hr hs hw => ?_
  refine hs.paced hr (World.step_setup hw) (fun ho => ?_) (World.step_paced hr hw)
  by_contra hne
  exact hne ((step_latched hr hne hw).outcome ▸ ho)

/-! ### The length of the plan -/

theorem escape_plain {c : Char} (hquote : c ≠ '\"') (hslash : c ≠ '\\') (hprint : 0x20 ≤ c.toNat) :
    Json.escape c = [c] := by
  rw [Json.escape, if_neg hquote, if_neg hslash, if_neg (by omega)]

theorem escape_name {c : Char} (h : (isAsciiAlphanumeric c || "_-./".toList.contains c) = true) :
    Json.escape c = [c] := by
  have hchar : ∀ {d : Char}, c = d → c.toNat = d.toNat := fun hcd => hcd ▸ rfl
  have hrange : 0x2d ≤ c.toNat ∧ c.toNat ≠ 0x5c := by
    rcases (Bool.or_eq_true _ _).mp h with h | h
    · simp only [isAsciiAlphanumeric, Char.isDigit, Bool.or_eq_true, Bool.and_eq_true,
        decide_eq_true_eq, Char.le_def, UInt32.le_iff_toNat_le] at h
      have hbounds : '0'.val.toNat = 48 ∧ '9'.val.toNat = 57 ∧ 'a'.val.toNat = 97 ∧
          'z'.val.toNat = 122 ∧ 'A'.val.toNat = 65 ∧ 'Z'.val.toNat = 90 := by decide
      rw [Char.toNat]
      omega
    · have hmem : c = '_' ∨ c = '-' ∨ c = '.' ∨ c = '/' := by simpa using h
      rcases hmem with rfl | rfl | rfl | rfl <;> decide
  refine escape_plain (fun hc => ?_) (fun hc => ?_) (by omega)
  · have hquote : '\"'.toNat = 0x22 := rfl
    have := hchar hc
    omega
  · have hslash : '\\'.toNat = 0x5c := rfl
    have := hchar hc
    omega

/-- Identifiers are written as they are. -/
theorem quotedBytes_identifier {s : String} (h : identifier s = true) :
    3 ≤ Json.quotedBytes s ∧ Json.quotedBytes s ≤ 130 := by
  simp only [identifier, Bool.and_eq_true, bne_iff_ne, decide_eq_true_eq, List.all_eq_true] at h
  obtain ⟨⟨hne, hsize⟩, hchars⟩ := h
  have hplain : ∀ c ∈ s.toList, Json.escape c = [c] := fun c hc => escape_name (hchars c hc)
  have hpos : s.utf8ByteSize ≠ 0 := fun h0 => hne (String.utf8ByteSize_eq_zero_iff.mp h0)
  rw [Json.quotedBytes_plain hplain]
  omega

theorem eventRow_bytes (ordinal : ℕ) (kind : String) (step : ℕ) (d : ActorDeclaration)
    (checkpoint : String) :
    (eventRow ordinal kind step d checkpoint).bytes =
      64 + (Nat.toDigits 10 ordinal).length + Json.quotedBytes kind +
        (Nat.toDigits 10 step).length + Json.quotedBytes d.actor + Json.quotedBytes d.operation +
        Json.quotedBytes checkpoint := by
  have hkeys : Json.quotedBytes "ordinal" = 9 ∧ Json.quotedBytes "kind" = 6 ∧
      Json.quotedBytes "step" = 6 ∧ Json.quotedBytes "actor" = 7 ∧
      Json.quotedBytes "operation" = 11 ∧ Json.quotedBytes "checkpoint" = 12 := by decide
  obtain ⟨h1, h2, h3, h4, h5, h6⟩ := hkeys
  rw [eventRow, Json.bytes_obj (by simp) (by simp)]
  simp only [Json.memberBytes, List.map_cons, List.map_nil, List.sum_cons, List.sum_nil, h1, h2, h3,
    h4, h5, h6, Json.bytes_ofNat, Json.bytes_string]
  omega

theorem length_digits {n k : ℕ} (h : n < 10 ^ k) (hk : 0 < k) :
    1 ≤ (Nat.toDigits 10 n).length ∧ (Nat.toDigits 10 n).length ≤ k :=
  ⟨Nat.length_toDigits_pos, Nat.toDigits_length 10 n k hk h⟩

section Length
variable {setup : Setup}
  (h : admitSchedule setup.serde setup.schedule setup.adapter setup.policy = .ok ())
include h

theorem checkpoint_bytes {r : Step} (hr : r ∈ setup.schedule.steps) :
    3 ≤ Json.quotedBytes r.checkpoint ∧ Json.quotedBytes r.checkpoint ≤ 130 := by
  rcases (admitSchedule_ok h).reachable r hr with hend | hmem
  · rw [hend]
    decide
  · exact quotedBytes_identifier ((admitSchedule_iff.mp h).sound.reachable _ hmem)

/-- Every place of an admitted schedule has a short name. -/
theorem standing_bytes (k : ℕ) (actor : String) :
    3 ≤ Json.quotedBytes (standing setup.schedule.steps k actor) ∧
      Json.quotedBytes (standing setup.schedule.steps k actor) ≤ 130 := by
  rcases standing_mem setup.schedule.steps k actor with hstart | ⟨r, hr, hr'⟩
  · rw [hstart]
    decide
  · rw [← hr']
    exact checkpoint_bytes h hr

/-- What a row of an admitted schedule has besides its names and numbers is fixed. -/
theorem intervalRows_bytes {k : ℕ} (hk : k < setup.schedule.steps.length) :
    167 ≤ rowBytes (setup.intervalRows k) ∧ rowBytes (setup.intervalRows k) ≤ 947 := by
  obtain ⟨r, hr⟩ : ∃ r, setup.schedule.steps[k]? = some r := ⟨_, List.getElem?_eq_getElem hk⟩
  have hadmitted := admitSchedule_ok h
  obtain ⟨d, hd, hname⟩ := List.mem_map.mp (hadmitted.declared r (List.mem_of_getElem? hr))
  have hsound := (admitSchedule_iff.mp h).sound.named d hd
  have hactor := quotedBytes_identifier hsound.1
  have hoperation := quotedBytes_identifier hsound.2
  have hcheckpoint := checkpoint_bytes h (List.mem_of_getElem? hr)
  have hstanding := standing_bytes h k r.actor
  have hordinal := length_digits (n := 2 * k) (k := 6) (by have := hadmitted.steps; omega) (by decide)
  have hordinal' := length_digits (n := 2 * k + 1) (k := 6) (by have := hadmitted.steps; omega)
    (by decide)
  have hstep := length_digits (n := k) (k := 5) (by have := hadmitted.steps; omega) (by decide)
  have hkinds : Json.quotedBytes "permit" = 8 ∧ Json.quotedBytes "arrival" = 9 := by decide
  rw [Setup.intervalRows_eq hr (hname ▸ Setup.declaration?_eq hadmitted.distinct hd), rowBytes,
    List.map_cons, List.map_cons, List.map_nil, List.sum_cons, List.sum_cons, List.sum_nil,
    eventRow_bytes, eventRow_bytes, hkinds.1, hkinds.2]
  omega

theorem plannedRows_bytes {n : ℕ} (hn : n ≤ setup.schedule.steps.length) :
    n * 167 ≤ rowBytes (setup.plannedRows n) ∧ rowBytes (setup.plannedRows n) ≤ n * 947 := by
  induction n with
  | zero => exact ⟨le_rfl, le_rfl⟩
  | succ n ih =>
    have hrows := intervalRows_bytes h (Nat.lt_of_succ_le hn)
    have hbefore := ih (Nat.le_of_succ_le hn)
    rw [Setup.plannedRows_succ, rowBytes_append]
    omega

end Length

/-- A passed execution has stored the planned rows, and they are within the limit. -/
theorem passed_planned {w : World} (h : execution.Reachable w) (hpassed : w.report.passed = true) :
    w.report.events = w.setup.plannedRows w.steps.length ∧
      rowBytes w.report.events ≤ evidenceLimit := by
  simp only [Report.passed, Bool.and_eq_true, decide_eq_true_eq] at hpassed
  obtain ⟨⟨houtcome, hcompleted⟩, -⟩ := hpassed
  obtain ⟨-, hnext, hctl⟩ := (completion h).completed hcompleted
  obtain ⟨hpending, -⟩ := Ctl.settled (hctl.imp_right And.left)
  refine ⟨?_, (accounted h).bounded⟩
  rw [followed h houtcome, hpending, hnext, List.take_zero, List.append_nil]

/-- The bound on the intervals of a schedule is not the bound on the evidence: what an admitted
schedule plans to store fits as long as it is short; when it is long it does not, and no execution
of it passes, whatever the program does. A passed execution has stored exactly the planned rows. -/
theorem planned_evidence {setup : Setup}
    (h : admitSchedule setup.serde setup.schedule setup.adapter setup.policy = .ok ()) :
    (setup.schedule.steps.length ≤ 8_858 →
      rowBytes (setup.plannedRows setup.schedule.steps.length) ≤ 8 * 1_048_576) ∧
    (∀ w, execution.Reachable w → w.setup = setup → w.report.passed = true →
      w.report.events = setup.plannedRows setup.schedule.steps.length ∧
        rowBytes (setup.plannedRows setup.schedule.steps.length) ≤ 8 * 1_048_576) ∧
    (50_232 ≤ setup.schedule.steps.length →
      8 * 1_048_576 < rowBytes (setup.plannedRows setup.schedule.steps.length) ∧
        ∀ w, execution.Reachable w → w.setup = setup → w.report.passed = false) := by
  have hbytes := plannedRows_bytes h le_rfl
  have hplanned : ∀ w, execution.Reachable w → w.setup = setup → w.report.passed = true →
      w.report.events = setup.plannedRows setup.schedule.steps.length ∧
        rowBytes (setup.plannedRows setup.schedule.steps.length) ≤ 8 * 1_048_576 := by
    intro w hw hsetup hpassed
    obtain ⟨hevents, hbound⟩ := passed_planned hw hpassed
    rw [World.steps, hsetup] at hevents
    exact ⟨hevents, hevents ▸ hbound⟩
  refine ⟨fun hshort => by omega, hplanned, fun hlong => ⟨by omega, fun w hw hsetup => ?_⟩⟩
  by_contra hpassed
  have hbound := (hplanned w hw hsetup (by simpa using hpassed)).2
  omega

/-! ### Schedules of any length -/

namespace Solo

def read : Step := ⟨"a", "read"⟩

/-- The actor stops `n` times at its checkpoint before it ends. -/
def long (n : ℕ) : Schedule :=
  { schedule with steps := List.replicate n read ++ [⟨"a", COMPLETION⟩] }

theorem length_long (n : ℕ) : (long n).steps.length = n + 1 := by simp [long]

theorem mem_long {n : ℕ} {s : Step} (h : s ∈ (long n).steps) :
    s = read ∨ s = ⟨"a", COMPLETION⟩ := by
  rcases List.mem_append.mp h with h | h
  · exact Or.inl (List.eq_of_mem_replicate h)
  · exact Or.inr (List.mem_singleton.mp h)

/-- Every step of the schedule is a small flat object. -/
theorem step_long {n : ℕ} {j : Json} (h : j ∈ (long n).steps.map (Step.serialize .object)) :
    j.depth = 1 ∧ j.nodes = 3 ∧ j.bytes ≤ 43 := by
  obtain ⟨s, hs, rfl⟩ := List.mem_map.mp h
  rcases mem_long hs with rfl | rfl
  · decide
  · decide

theorem depthItems_le {items : List Json} {d : ℕ} (h : ∀ j ∈ items, j.depth ≤ d) :
    Json.depthItems items ≤ d := by
  induction items with
  | nil => exact Nat.zero_le d
  | cons j items ih =>
    obtain ⟨hj, hitems⟩ := List.forall_mem_cons.mp h
    exact max_le hj (ih hitems)

theorem nodesItems_le {items : List Json} {c : ℕ} (h : ∀ j ∈ items, j.nodes ≤ c) :
    Json.nodesItems items ≤ items.length * c := by
  induction items with
  | nil => exact Nat.zero_le _
  | cons j items ih =>
    obtain ⟨hj, hitems⟩ := List.forall_mem_cons.mp h
    have := ih hitems
    rw [Json.nodesItems, List.length_cons, Nat.succ_mul]
    omega

theorem long_fits {n : ℕ} (h : n < 65_536) :
    ((long n).serialize .object).Fits scheduleLimits := by
  have hdepth : Json.depthItems ((long n).steps.map (Step.serialize .object)) ≤ 1 :=
    depthItems_le fun j hj => (step_long hj).1.le
  have hnodes : Json.nodesItems ((long n).steps.map (Step.serialize .object)) ≤ (n + 1) * 3 := by
    have hsteps := nodesItems_le fun j hj => (step_long (n := n) hj).2.1.le
    rwa [List.length_map, length_long] at hsteps
  refine ⟨?_, ?_, fun _ => distinct_schedule trivial⟩
  · have hmax : scheduleLimits.maxDepth = 32 := rfl
    simp only [Schedule.serialize, Identity.serialize, Json.depth, Json.depthFields]
    have hinputs : (long n).inputs.depth = 0 := rfl
    omega
  · have hmax : scheduleLimits.maxNodes = 600_000 := rfl
    simp only [Schedule.serialize, Identity.serialize, Json.nodes, Json.nodesFields]
    have hinputs : (long n).inputs.nodes = 1 := rfl
    omega

theorem long_size {n : ℕ} (h : n < 65_536) :
    (long n).text.utf8ByteSize ≤ scheduleLimits.maxBytes := by
  have hmax : scheduleLimits.maxBytes = 8_388_608 := rfl
  have hsteps : (Json.array ((long n).steps.map (Step.serialize .object))).bytes ≤
      (n + 1) * 44 + 1 := by
    have hsum := List.sum_le_card_nsmul
      (((long n).steps.map (Step.serialize .object)).map fun j => j.bytes + 1) 44 (by
        simp only [List.forall_mem_map]
        exact fun s hs => Nat.succ_le_succ (step_long (List.mem_map_of_mem hs)).2.2)
    rw [List.length_map, List.length_map, length_long, smul_eq_mul] at hsum
    rw [Json.bytes_array (by simp [long])]
    omega
  have hidentity : (identity.serialize .object).bytes ≤ 300 := by decide +kernel
  have hschema : (Json.string schedule.schema).bytes ≤ 100 := by decide +kernel
  have hprofile : (Json.string schedule.profile).bytes ≤ 100 := by decide +kernel
  have hkeys : Json.quotedBytes "schema" = 8 ∧ Json.quotedBytes "profile" = 9 ∧
      Json.quotedBytes "identity" = 10 ∧ Json.quotedBytes "inputs" = 8 ∧
      Json.quotedBytes "steps" = 7 ∧ Json.null.bytes = 4 := by decide
  obtain ⟨h1, h2, h3, h4, h5, h6⟩ := hkeys
  have htext : (long n).text.utf8ByteSize = Json.memberBytes [("schema", .string schedule.schema),
      ("profile", .string schedule.profile), ("identity", identity.serialize .object),
      ("inputs", .null), ("steps", .array ((long n).steps.map (Step.serialize .object)))] + 1 :=
    Json.bytes_object (List.cons_ne_nil _ _)
  rw [htext]
  simp only [Json.memberBytes, List.map_cons, List.map_nil, List.sum_cons, List.sum_nil, h1, h2,
    h3, h4, h5, h6]
  omega

theorem inputs_short : (Json.render .null).utf8ByteSize ≤ 65_535 := by decide

theorem long_encodes {serde : Serde} {n : ℕ} (h : n < 65_536) :
    encodeSchedule serde (long n) = .ok (long n).text := by
  have hparse := parse_render_ok (tokens_schedule (s := long n) trivial) (long_fits h) (long_size h)
  rw [denote_schedule (s := long n) trivial] at hparse
  have hread : Schedule.fromValue serde (long n).tree = some (long n) := by
    rw [schedule_fromValue]
    rfl
  have hwell : (long n).WellFormed := by
    refine ⟨rfl, rfl, identity_valid, ?_, fun s hs => ?_, inputs_short⟩
    · rw [length_long]
      exact h
    · rcases mem_long hs with rfl | rfl <;> decide
  exact encodeSchedule_eq_ok.mpr ⟨rfl, long n, parseSchedule_eq_ok.mpr ⟨⟨_, hparse, hread⟩, hwell⟩⟩

theorem checkSteps_long (n : ℕ) :
    checkSteps ["a"] ["read"] (long n).steps [] = .ok ["a"] := by
  have hcheck : ∀ n, checkSteps ["a"] ["read"] (List.replicate n read ++ [⟨"a", COMPLETION⟩]) [] =
      .ok ["a"] := by
    intro n
    induction n with
    | zero => rfl
    | succ n ih => exact ih
  exact hcheck n

theorem long_admitted {serde : Serde} {n : ℕ} (h : n < 65_536) :
    admitSchedule serde (long n) adapter .default = .ok () :=
  admitSchedule_intro (long_encodes h) rfl adapter_sound policy_sound ⟨by decide, by decide⟩
    (by rw [length_long]; exact h) (checkSteps_long n) (by simp [adapter])

end Solo

theorem planned_evidence_long :
    8 * 1_048_576 < rowBytes
        (({ Solo.setup with schedule := Solo.long 60_000 } : Setup).plannedRows 60_001) ∧
      ∀ w, execution.Reachable w → w.setup = { Solo.setup with schedule := Solo.long 60_000 } →
        w.report.passed = false := by
  have hlength : (Solo.long 60_000).steps.length = 60_001 := Solo.length_long 60_000
  have hlong := (@planned_evidence { Solo.setup with schedule := Solo.long 60_000 }
    (Solo.long_admitted (by omega))).2.2
  rw [hlength] at hlong
  exact hlong (by omega)

end MirrorRust
