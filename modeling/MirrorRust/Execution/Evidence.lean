import MirrorRust.Execution.Ledger
import MirrorRust.JsonBytes

/-! The evidence that an execution retains, against the counter that is to bound it. The counter
takes an event with its whole row, but an observation only with the text of its value, before
`serde_json` has written it into the row. -/
namespace MirrorRust

/-- The length of the rows when they are written out. -/
def rowBytes (rows : List Json) : ℕ := (rows.map Json.bytes).sum

@[simp] theorem rowBytes_nil : rowBytes [] = 0 := rfl

@[simp] theorem rowBytes_concat (rows : List Json) (row : Json) :
    rowBytes (rows ++ [row]) = rowBytes rows + row.bytes := by
  simp [rowBytes]

theorem rowBytes_append (rows rows' : List Json) :
    rowBytes (rows ++ rows') = rowBytes rows + rowBytes rows' := by
  simp [rowBytes]

namespace SharedState

/-- What the execution retains as evidence, in bytes. -/
def evidence (s : SharedState) : ℕ := rowBytes s.report.events + rowBytes s.report.observations

/-- The counter and the rows it is about. -/
def books (s : SharedState) : ℕ × List Json × List Json :=
  (s.evidenceBytes, s.report.events, s.report.observations)

theorem observationRow_bytes (serde : Serde) (next : ℕ) (value : Json) :
    (observationRow serde next value).bytes =
      24 + (Nat.toDigits 10 next).length + (value.toValue serde).bytes := by
  have hafter : Json.quotedBytes "afterSteps" = 12 := by decide
  have hstate : Json.quotedBytes "state" = 7 := by decide
  rw [observationRow, Json.bytes_obj (by simp) (by simp)]
  simp only [Json.memberBytes, List.map_cons, List.map_nil, List.sum_cons, List.sum_nil, hafter,
    hstate, Json.bytes_ofNat]
  omega

variable (s : SharedState)

@[simp] theorem books_fail (o : Outcome) (d : String) : (s.fail o d).books = s.books := by
  simp only [books, fail_events, fail_observations]
  rfl

@[simp] theorem books_modifyActor (i : ℕ) (f : Actor → Actor) :
    (s.modifyActor i f).books = s.books := rfl

@[simp] theorem books_setPhase (i : ℕ) (phase : Phase) : (s.setPhase i phase).books = s.books := rfl

@[simp] theorem books_register (i : ℕ) (thread : ThreadId) :
    (s.register i thread).books = s.books := rfl

@[simp] theorem books_settle (i : ℕ) (result : CallResult Unit) :
    (s.settle i result).books = s.books := by
  unfold settle
  split_ifs
  · simp
  · cases result <;> simp

@[simp] theorem books_arrive (checkpoints : List String) (i : ℕ) (thread : ThreadId)
    (checkpoint : String) : (s.arrive checkpoints i thread checkpoint).1.books = s.books := by
  unfold arrive
  cases s.actors[i]? with
  | none => rfl
  | some a =>
    simp only
    split_ifs <;> simp

@[simp] theorem books_waitFor (cancelled expired : Bool) (predicate : SharedState → Bool) :
    (s.waitFor cancelled expired predicate).1.books = s.books := by
  rw [waitFor]
  split_ifs <;> simp

@[simp] theorem books_beginCleanup : s.beginCleanup.books = s.books := by
  rw [beginCleanup]
  split_ifs
  · exact books_fail s _ _
  · rfl

@[simp] theorem books_recordIncomplete (remaining : List String) :
    (s.recordIncomplete remaining).books = s.books := rfl

@[simp] theorem books_recordCleanup (acquired : Bool) (teardown : Option String) :
    (s.recordCleanup acquired teardown).books = s.books := rfl

/-- An event is counted and stored, or counted and found too long. -/
theorem books_retainEvent (kind : String) (step : ℕ) {i : ℕ} {a : Actor}
    (ha : s.actors[i]? = some a) :
    (evidenceLimit < s.evidenceBytes + (s.eventRow kind step a).bytes ∧
        (s.retainEvent kind step i).books =
          (s.evidenceBytes + (s.eventRow kind step a).bytes, s.report.events,
            s.report.observations)) ∨
      (s.evidenceBytes + (s.eventRow kind step a).bytes ≤ evidenceLimit ∧
        (s.retainEvent kind step i).books =
          (s.evidenceBytes + (s.eventRow kind step a).bytes,
            s.report.events ++ [s.eventRow kind step a], s.report.observations)) := by
  rw [retainEvent, ha]
  simp only
  split_ifs with h
  · exact Or.inl ⟨h, by rw [books_fail]; rfl⟩
  · exact Or.inr ⟨not_lt.mp h, rfl⟩

end SharedState

/-! ### What a step stores -/

/-- The bytes of the row that the step is to store, as they are counted and as they are stored. -/
def World.due (w : World) : Action → Option (ℕ × ℕ)
  | .advance requested expired =>
    let index := w.shared.actors.findIdx fun a => a.declaration.actor = requested.actor
    if w.closed ∨ w.report.outcome ≠ .completed ∨ w.cancelled ∨ expired ∨
        w.steps[w.next]? ≠ some requested ∨ w.shared.phase? index ≠ some .parked then none
    else
      w.shared.actors[index]?.map fun a =>
        ((w.shared.eventRow "permit" w.next a).bytes, (w.shared.eventRow "permit" w.next a).bytes)
  | .control expired =>
    match w.ctl with
    | .arrived index _ =>
      w.shared.actors[index]?.map fun a =>
        ((w.shared.eventRow "arrival" w.next a).bytes, (w.shared.eventRow "arrival" w.next a).bytes)
    | .judging _ (.ok value) =>
      if w.cancelled ∨ expired ∨
          (parse value.render SharedState.observationLimits).toOption.isNone then none
      else some (value.bytes, (SharedState.observationRow w.setup.serde w.next value).bytes)
    | _ => none
  | _ => none

/-- How the books change in one step. -/
inductive Booked (w : World) (a : Action) (s : SharedState) : Prop
  | kept (h : s.books = w.shared.books) (hdue : w.due a = none)
  | refused {n m : ℕ} (hdue : w.due a = some (n, m))
      (hfull : evidenceLimit < w.shared.evidenceBytes + n)
      (hbytes : w.shared.evidenceBytes ≤ s.evidenceBytes)
      (hlimit : s.evidenceBytes ≤ evidenceLimit → s.evidenceBytes = w.shared.evidenceBytes)
      (hevents : s.report.events = w.shared.report.events)
      (hobservations : s.report.observations = w.shared.report.observations)
  | event {row : Json} (hdue : w.due a = some (row.bytes, row.bytes))
      (hroom : w.shared.evidenceBytes + row.bytes ≤ evidenceLimit)
      (hbooks : s.books = (w.shared.evidenceBytes + row.bytes, w.shared.report.events ++ [row],
        w.shared.report.observations))
  | observation {value : Json} (hdue : w.due a = some (value.bytes,
        (SharedState.observationRow w.setup.serde w.next value).bytes))
      (hroom : w.shared.evidenceBytes + value.bytes ≤ evidenceLimit)
      (hbooks : s.books = (w.shared.evidenceBytes + value.bytes, w.shared.report.events,
        w.shared.report.observations ++
          [SharedState.observationRow w.setup.serde w.next value]))

namespace World
variable (w : World)

@[simp] theorem shared_goto (c : Ctl) : (w.goto c).shared = w.shared := rfl

@[simp] theorem books_failed (o : Outcome) (d : String) :
    (w.fail o d).shared.books = w.shared.books := w.shared.books_fail o d

@[simp] theorem books_callCleanup (timeout : Duration) :
    (w.callCleanup timeout).shared.books = w.shared.books := by
  rcases w.callCleanup_spec timeout with ⟨-, heq⟩ | ⟨-, heq⟩ <;> rw [heq] <;> rfl

theorem books_enter (inCallback : Bool) : (w.enter inCallback).shared.books = w.shared.books := by
  unfold enter
  split <;> simp

theorem books_checkWorkers (workers : List String) :
    (w.checkWorkers workers).shared.books = w.shared.books := by
  simp only [checkWorkers]
  split_ifs <;> simp

theorem books_create (result : FactoryResult) :
    (w.create result).shared.books = w.shared.books := by
  cases result with
  | program workers =>
    simp only [create, acquire]
    split_ifs
    · rw [books_callCleanup, books_checkWorkers]
    · exact books_checkWorkers { w with acquired := true } workers
  | error e => simp [create]
  | panic => simp [create]

theorem books_spawn (i : ℕ) (result : Except String ThreadId) :
    (w.spawn i result).shared.books = w.shared.books := by
  cases result with
  | ok id => rfl
  | error e => simp [spawn]

theorem books_startWait (expired : Bool) :
    (w.startWait expired).shared.books = w.shared.books := by
  have hwait := w.shared.books_waitFor w.cancelled expired SharedState.allParked
  unfold startWait
  split <;> simp_all

theorem books_observe (caller : Caller) : (w.observe caller).shared.books = w.shared.books := by
  rw [observe]
  split_ifs <;> simp

theorem books_outcomeCheck (caller : Caller) :
    (w.outcomeCheck caller).shared.books = w.shared.books := by
  rw [outcomeCheck]
  split_ifs <;> simp

theorem books_wait (i : ℕ) (requested : Step) (expired : Bool) :
    (w.wait i requested expired).shared.books = w.shared.books := by
  have hwait := w.shared.books_waitFor w.cancelled expired (SharedState.notRunning i)
  unfold wait
  split <;> simp_all

theorem books_checkArrival : w.checkArrival.shared.books = w.shared.books := by
  rw [checkArrival]
  split_ifs <;> rfl

theorem books_finish : w.finish.shared.books = w.shared.books := by
  simp only [finish]
  split_ifs <;> simp

theorem books_reap (i : ℕ) : (w.reap i).shared.books = w.shared.books := by
  rw [reap]
  split_ifs <;> rfl

end World

theorem Booked.retained {w : World} {action : Action} {s : SharedState} {kind : String} {i : ℕ}
    {a : Actor} (ha : w.shared.actors[i]? = some a)
    (hdue : w.due action = some ((w.shared.eventRow kind w.next a).bytes,
      (w.shared.eventRow kind w.next a).bytes))
    (hs : s.books = (w.shared.retainEvent kind w.next i).books) : Booked w action s := by
  rcases w.shared.books_retainEvent kind w.next ha with ⟨hfull, heq⟩ | ⟨hroom, heq⟩
  · have hbooks := hs.trans heq
    simp only [SharedState.books, Prod.mk.injEq] at hbooks
    exact .refused hdue hfull (by omega) (by omega) hbooks.2.1 hbooks.2.2
  · exact .event hdue hroom (hs.trans heq)

theorem Booked.judge {w : World} {caller : Caller} {result : CallResult Json}
    (hctl : w.ctl = .judging caller result) (expired : Bool) :
    Booked w (.control expired) (w.judge caller result expired).shared := by
  simp only [World.judge, World.shared_goto]
  cases result with
  | error e =>
    refine .kept ?_ (by simp [World.due, hctl])
    unfold SharedState.judge
    split_ifs <;> simp
  | panic =>
    refine .kept ?_ (by simp [World.due, hctl])
    unfold SharedState.judge
    split_ifs <;> simp
  | ok value =>
    by_cases hcancelled : w.cancelled = true
    · exact .kept (by simp [SharedState.judge, hcancelled]) (by simp [World.due, hctl, hcancelled])
    by_cases hexpired : expired = true
    · refine .kept ?_ (by simp [World.due, hctl, hexpired])
      simp [SharedState.judge, hcancelled, hexpired]
    cases hparse : (parse value.render SharedState.observationLimits).toOption with
    | none =>
      refine .kept ?_ (by simp [World.due, hctl, hparse])
      simp [SharedState.judge, hcancelled, hexpired, hparse]
    | some j =>
      have hdue : w.due (.control expired) = some (value.bytes,
          (SharedState.observationRow w.setup.serde w.next value).bytes) := by
        simp [World.due, hctl, hcancelled, hexpired, hparse]
      by_cases hfull : evidenceLimit < w.shared.evidenceBytes + value.bytes
      · have hjudge : w.shared.judge w.setup.serde w.cancelled expired w.next (.ok value) =
            w.shared.fail .observationFailed "observation evidence bound exceeded" := by
          simp only [SharedState.judge, hcancelled, hexpired, hparse]
          exact if_pos (Or.inr hfull)
        rw [hjudge]
        exact .refused hdue hfull le_rfl (fun _ => rfl) SharedState.fail_events
          SharedState.fail_observations
      · have hjudge : w.shared.judge w.setup.serde w.cancelled expired w.next (.ok value) =
            w.shared.pushObservation w.setup.serde w.next value := by
          simp only [SharedState.judge, hcancelled, hexpired, hparse]
          exact if_neg (not_or.mpr ⟨by simp, hfull⟩)
        rw [hjudge]
        exact .observation hdue (not_lt.mp hfull) rfl

theorem Booked.advance {w : World} (requested : Step) (expired : Bool) :
    Booked w (.advance requested expired) (w.advance requested expired).shared := by
  by_cases hopen : w.closed = true ∨ w.report.outcome ≠ .completed
  · refine .kept (by rw [World.advance, if_pos hopen]) ?_
    rw [World.due, if_pos (by tauto)]
  have hadvance : (w.advance requested expired).shared =
      (w.shared.permit w.cancelled expired w.steps w.next requested).1 := by
    rw [World.advance, if_neg hopen]
    split <;> simp_all
  rw [hadvance]
  simp only [SharedState.permit]
  split_ifs with hcancelled hexpired hstep hparked hstopping
  · exact .kept (by simp) (by rw [World.due, if_pos (by tauto)])
  · exact .kept (by simp) (by rw [World.due, if_pos (by tauto)])
  · exact .kept (by simp) (by rw [World.due, if_pos (by tauto)])
  · exact .kept (by simp) (by rw [World.due, if_pos (by tauto)])
  all_goals
    obtain ⟨a, ha, -⟩ := Option.map_eq_some_iff.mp (not_not.mp hparked)
    refine @Booked.retained _ _ _ "permit" _ _ ha ?_ (by simp)
    rw [World.due, if_neg (by tauto), ha, Option.map_some]

theorem Booked.arrival {w : World} {i : ℕ} {requested : Step} (hctl : w.ctl = .arrived i requested)
    (expired : Bool) : Booked w (.control expired) (w.arrival i requested).shared := by
  have harrival : (w.arrival i requested).shared = (w.shared.arrival w.next i requested).1 := rfl
  rw [harrival]
  cases ha : w.shared.actors[i]? with
  | none =>
    refine .kept ?_ (by simp [World.due, hctl, ha])
    simp [SharedState.arrival, SharedState.retainEvent, ha]
  | some a =>
    refine @Booked.retained _ _ _ "arrival" _ _ ha (by simp [World.due, hctl, ha]) ?_
    simp only [SharedState.arrival]
    split
    · rfl
    · simp only
      split_ifs <;> simp

theorem World.step_booked {w w' : World} {action : Action} (h : w.step action = some w') :
    Booked w action w'.shared := by
  rcases World.step_move h with hw | hw
  · cases hw with
    | enter hctl => exact .kept (w.books_enter _) rfl
    | create hctl => exact .kept (w.books_create _) rfl
    | spawn hctl => exact .kept (w.books_spawn _ _) rfl
    | startWait hctl => exact .kept (w.books_startWait _) (by simp [World.due, hctl])
    | observe hctl => exact .kept (w.books_observe _) (by simp [World.due, hctl])
    | observer => exact .kept rfl rfl
    | judge hctl => exact .judge hctl _
    | outcomeCheck hctl => exact .kept (w.books_outcomeCheck _) (by simp [World.due, hctl])
    | wait hctl => exact .kept (w.books_wait _ _ _) (by simp [World.due, hctl])
    | arrival hctl => exact .arrival hctl _
    | join hctl hw =>
      refine .kept ?_ (by simp [World.due, hctl])
      rcases World.join_spec hw with ⟨rfl, -⟩ | ⟨t, c, -, -, -, rfl⟩ <;> rfl
    | joinFailed hctl => exact .kept (by simp) (by simp [World.due, hctl])
    | checkArrival hctl => exact .kept w.books_checkArrival (by simp [World.due, hctl])
    | complete hctl =>
      exact .kept ((World.books_callCleanup _ _).trans rfl) (by simp [World.due, hctl])
    | clean hctl => exact .kept (by simp [World.clean]) (by simp [World.due, hctl])
    | drain hctl =>
      refine .kept ?_ (by simp [World.due, hctl])
      rw [World.drain]
      split_ifs <;> rfl
    | reap hctl => exact .kept (w.books_reap _) (by simp [World.due, hctl])
    | tear => exact .kept rfl rfl
    | record hctl => exact .kept (by simp [World.record]) (by simp [World.due, hctl])
    | advance => exact .advance _ _
    | finish => exact .kept w.books_finish rfl
    | cleanup => exact .kept (w.books_callCleanup _) rfl
    | foreignCall => exact .kept rfl rfl
    | drop => exact .kept rfl rfl
    | dropJoin hctl hw =>
      refine .kept ?_ (by simp [World.due, hctl])
      rcases World.dropJoin_spec hw with ⟨-, rfl⟩ | ⟨t, -, -, rfl⟩ <;> rfl
    | dropTeardown => exact .kept rfl rfl
  · cases hw with
    | cancel => exact .kept rfl rfl
    | startWorker => exact .kept rfl rfl
    | wake _ _ hw =>
      refine .kept ?_ rfl
      unfold World.wake at hw
      split_ifs at hw <;> cases hw <;> rfl
    | @arrive thread i checkpoint _ _ _ _ hw =>
      refine .kept ?_ rfl
      have harrive := w.shared.books_arrive w.setup.adapter.checkpoints i thread checkpoint
      unfold World.arrive at hw
      split_ifs at hw
      split at hw <;> cases hw <;> simp_all [World.setPc, World.setThread]
    | returns => exact .kept rfl rfl
    | settle _ _ hw =>
      refine .kept ?_ rfl
      unfold World.settle at hw
      split at hw <;> cases hw
      exact w.shared.books_settle _ _
    | terminate => exact .kept rfl rfl

/-! ### The counter -/

/-- The events that are stored have been counted, within the limit. -/
structure Accounted (s : SharedState) : Prop where
  bounded : rowBytes s.report.events ≤ evidenceLimit
  below : rowBytes s.report.events ≤ s.evidenceBytes

theorem Booked.accounted {w : World} {action : Action} {s : SharedState} (h : Booked w action s)
    (hs : Accounted w.shared) : Accounted s := by
  obtain ⟨hbounded, hbelow⟩ := hs
  cases h with
  | kept hbooks =>
    simp only [SharedState.books, Prod.mk.injEq] at hbooks
    obtain ⟨hbytes, hevents, -⟩ := hbooks
    constructor <;> simpa only [hbytes, hevents]
  | refused hdue hfull hbytes hlimit hevents hobservations =>
    constructor <;> rw [hevents]
    · exact hbounded
    · exact hbelow.trans hbytes
  | event hdue hroom hbooks =>
    simp only [SharedState.books, Prod.mk.injEq] at hbooks
    obtain ⟨hbytes, hevents, -⟩ := hbooks
    constructor <;> rw [hevents, rowBytes_concat] <;> omega
  | observation hdue hroom hbooks =>
    simp only [SharedState.books, Prod.mk.injEq] at hbooks
    obtain ⟨hbytes, hevents, -⟩ := hbooks
    constructor <;> rw [hevents] <;> omega

theorem accounted {w : World} (h : execution.Reachable w) : Accounted w.shared :=
  h.invariant (fun _ ⟨_, _, _, _, hw⟩ => hw ▸ ⟨Nat.zero_le _, le_rfl⟩)
    fun _ _ _ _ hs hw => (World.step_booked hw).accounted hs

/-- What a stored row takes beyond what is counted for it. It can be less than nothing: `-0` is
stored as `0`. -/
def World.surplus (w : World) (action : Action) : ℤ :=
  match w.due action with
  | some (n, m) => if w.shared.evidenceBytes + n ≤ evidenceLimit then (m : ℤ) - n else 0
  | none => 0

theorem World.surplus_due {w : World} {action : Action} {n m : ℕ}
    (hdue : w.due action = some (n, m)) (hroom : w.shared.evidenceBytes + n ≤ evidenceLimit) :
    w.surplus action = (m : ℤ) - n := by
  rw [surplus, hdue]
  exact if_pos hroom

/-- The counter never falls. -/
theorem Booked.bytes_le {w : World} {action : Action} {s : SharedState} (h : Booked w action s) :
    w.shared.evidenceBytes ≤ s.evidenceBytes := by
  cases h with
  | kept hbooks => exact (congrArg Prod.fst hbooks).ge
  | refused hdue hfull hbytes => exact hbytes
  | event hdue hroom hbooks => exact (Nat.le_add_right _ _).trans (congrArg Prod.fst hbooks).ge
  | observation hdue hroom hbooks =>
    exact (Nat.le_add_right _ _).trans (congrArg Prod.fst hbooks).ge

/-- As long as the counter is within the limit, the evidence runs ahead of it by the surplus. -/
theorem Booked.evidence {w : World} {action : Action} {s : SharedState} (h : Booked w action s)
    (hs : s.evidenceBytes ≤ evidenceLimit) :
    (s.evidence : ℤ) - s.evidenceBytes =
      w.shared.evidence - w.shared.evidenceBytes + w.surplus action := by
  cases h with
  | kept hbooks hdue =>
    simp only [SharedState.books, Prod.mk.injEq] at hbooks
    obtain ⟨hbytes, hevents, hobservations⟩ := hbooks
    have hsurplus : w.surplus action = 0 := by rw [World.surplus, hdue]
    rw [SharedState.evidence, SharedState.evidence, hbytes, hevents, hobservations, hsurplus,
      add_zero]
  | refused hdue hfull hbytes hlimit hevents hobservations =>
    have hsurplus : w.surplus action = 0 := by
      rw [World.surplus, hdue]
      exact if_neg (not_le.mpr hfull)
    rw [SharedState.evidence, SharedState.evidence, hlimit hs, hevents, hobservations, hsurplus,
      add_zero]
  | event hdue hroom hbooks =>
    simp only [SharedState.books, Prod.mk.injEq] at hbooks
    obtain ⟨hbytes, hevents, hobservations⟩ := hbooks
    rw [SharedState.evidence, SharedState.evidence, hbytes, hevents, hobservations, rowBytes_concat,
      World.surplus_due hdue hroom]
    push_cast
    ring
  | observation hdue hroom hbooks =>
    simp only [SharedState.books, Prod.mk.injEq] at hbooks
    obtain ⟨hbytes, hevents, hobservations⟩ := hbooks
    rw [SharedState.evidence, SharedState.evidence, hbytes, hevents, hobservations, rowBytes_concat,
      World.surplus_due hdue hroom]
    push_cast
    ring

/-! ### Runs that leave room for what is stored -/

/-- When the counter takes the row that is due, the limit has room as well for the row as it is
stored, beside all that has been stored. -/
def World.Ample (w : World) (action : Action) : Prop :=
  ∀ n m, w.due action = some (n, m) → w.shared.evidenceBytes + n ≤ evidenceLimit →
    w.shared.evidence + m ≤ evidenceLimit

instance (w : World) (action : Action) : Decidable (w.Ample action) :=
  decidable_of_iff (∀ p ∈ w.due action, w.shared.evidenceBytes + p.1 ≤ evidenceLimit →
      w.shared.evidence + p.2 ≤ evidenceLimit)
    ⟨fun h n m hdue => h (n, m) hdue, fun h p hp => h p.1 p.2 hp⟩

/-- The executions whose steps are all ample. -/
def ampleExecution : TransitionSystem World Action := execution.restrict World.Ample

theorem World.ample_iff {w : World} {action : Action} {n m : ℕ} (hdue : w.due action = some (n, m))
    (hroom : w.shared.evidenceBytes + n ≤ evidenceLimit) :
    w.Ample action ↔ w.shared.evidence + m ≤ evidenceLimit := by
  refine ⟨fun h => h n m hdue hroom, fun h n' m' hdue' _ => ?_⟩
  rw [hdue, Option.some.injEq, Prod.mk.injEq] at hdue'
  omega

/-- A step keeps the evidence within the limit exactly when it is ample. -/
theorem step_evidence_iff {w w' : World} {action : Action}
    (h : w.step action = some w') (hw : w.shared.evidence ≤ evidenceLimit) :
    w'.shared.evidence ≤ evidenceLimit ↔ w.Ample action := by
  rcases World.step_booked h with ⟨hbooks, hdue⟩ | ⟨hdue, hfull, -, -, hevents, hobservations⟩ |
    ⟨hdue, hroom, hbooks⟩ | ⟨hdue, hroom, hbooks⟩
  · simp only [SharedState.books, Prod.mk.injEq] at hbooks
    refine iff_of_true (by simpa only [SharedState.evidence, hbooks] using hw) ?_
    simp [World.Ample, hdue]
  · refine iff_of_true (by simpa only [SharedState.evidence, hevents, hobservations] using hw) ?_
    intro n' m' hdue' hroom
    rw [hdue, Option.some.injEq, Prod.mk.injEq] at hdue'
    omega
  · simp only [SharedState.books, Prod.mk.injEq] at hbooks
    rw [World.ample_iff hdue hroom, SharedState.evidence, hbooks.2.1, hbooks.2.2, rowBytes_concat,
      SharedState.evidence, Nat.add_right_comm]
  · simp only [SharedState.books, Prod.mk.injEq] at hbooks
    rw [World.ample_iff hdue hroom, SharedState.evidence, hbooks.2.1, hbooks.2.2, rowBytes_concat,
      SharedState.evidence, Nat.add_assoc]

/-- Every state of a run is within the limit exactly when every step of it is ample. -/
theorem run_within_iff {w w' : World} (hw : w.shared.evidence ≤ evidenceLimit) {actions : List Action}
    (hrun : execution.run w actions = some w') :
    (∀ actions' u, actions' <+: actions → execution.run w actions' = some u →
      u.shared.evidence ≤ evidenceLimit) ↔ ampleExecution.run w actions = some w' := by
  induction actions generalizing w with
  | nil =>
    refine iff_of_true (fun actions' u hprefix hu => ?_) hrun
    rw [List.prefix_nil.mp hprefix] at hu
    cases hu
    exact hw
  | cons action actions ih =>
    obtain ⟨v, hv, hrest⟩ := TransitionSystem.run_cons.mp hrun
    have hstep := step_evidence_iff hv hw
    have hample : ampleExecution.run w (action :: actions) = some w' ↔
        w.Ample action ∧ ampleExecution.run v actions = some w' := by
      rw [TransitionSystem.run_cons]
      refine ⟨fun ⟨u, hu, hrun⟩ => ?_, fun ⟨ha, hrun⟩ =>
        ⟨v, TransitionSystem.restrict_step.mpr ⟨ha, hv⟩, hrun⟩⟩
      obtain ⟨ha, hu⟩ := TransitionSystem.restrict_step.mp hu
      rw [hv] at hu
      cases hu
      exact ⟨ha, hrun⟩
    rw [hample, ← hstep]
    constructor
    · intro h
      have hv' : v.shared.evidence ≤ evidenceLimit :=
        h [action] v ⟨actions, rfl⟩ (TransitionSystem.run_cons.mpr ⟨v, hv, rfl⟩)
      refine ⟨hv', (ih hv' hrest).mp fun actions' u hprefix hu => ?_⟩
      exact h (action :: actions') u (List.cons_prefix_cons.mpr ⟨rfl, hprefix⟩)
        (TransitionSystem.run_cons.mpr ⟨v, hv, hu⟩)
    · rintro ⟨hv', hrest'⟩ actions' u hprefix hu
      cases actions' with
      | nil =>
        cases hu
        exact hw
      | cons action' actions' =>
        obtain ⟨rfl, htail⟩ := List.cons_prefix_cons.mp hprefix
        obtain ⟨v', hv'', hu⟩ := TransitionSystem.run_cons.mp hu
        rw [hv] at hv''
        cases hv''
        exact (ih hv' hrest).mpr hrest' actions' u htail hu

end MirrorRust
