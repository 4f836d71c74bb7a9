import MirrorRust.Deserialize
import MirrorRust.Decoding

/-! The messages that are well formed, field by field, and those that are decoded all the same. -/
namespace MirrorRust
namespace Conformance

/-! ### The types of the fields -/

def Required (T : Json → Prop) (value : Option Json) : Prop := ∃ j, value = some j ∧ T j

/-- A field that may be absent, or null. -/
def Nullable (T : Json → Prop) (value : Option Json) : Prop := ∀ j, value = some j → j = .null ∨ T j

/-- A field that may be absent, but not null. -/
def Defaulted (T : Json → Prop) (value : Option Json) : Prop := ∀ j, value = some j → T j

def IsString (j : Json) : Prop := ∃ s, j = .string s

def IsArray (j : Json) : Prop := ∃ items, j = .array items

def ArrayOf (T : Json → Prop) (j : Json) : Prop := ∃ items, j = .array items ∧ ∀ i ∈ items, T i

/-- A record of ITF values. -/
def IsRecord (j : Json) : Prop :=
  ∃ fields, j = .object fields ∧ ¬ IsMarker fields ∧ ∀ p ∈ fields, p.2.Itf

def IsOneOf (words : List String) (j : Json) : Prop := ∃ s ∈ words, j = .string s

def IsSegment (j : Json) : Prop :=
  (∃ name, j = .object [("field", .string name)]) ∨
    ∃ index i, j = .object [("index", index)] ∧ index.asU64 = some i

/-- The values that a hint of a kind has. -/
def hintValues : String → Option (List String)
  | "value_mismatch" | "type_mismatch" => some ["expected", "actual"]
  | "missing" | "missing_elem" => some ["expected"]
  | "extra" | "extra_elem" => some ["actual"]
  | "truncated" => some []
  | _ => none

def IsHint (j : Json) : Prop :=
  ∃ obj kind keys, j = .object obj ∧ Fields.get obj "kind" = some (.string kind) ∧
    Required (ArrayOf IsSegment) (Fields.get obj "path") ∧ hintValues kind = some keys ∧
    ∀ key ∈ keys, Required Json.Itf (Fields.get obj key)

def IsSpecResult (j : Json) : Prop :=
  j = .string "valid" ∨ ∃ result, j = .object result ∧ Required IsString (Fields.get result "invalid")

def IsGenTraces (j : Json) : Prop :=
  ∃ gen, j = .object gen ∧ Required (ArrayOf IsString) (Fields.get gen "itfTracePaths") ∧
    Nullable IsArray (Fields.get gen "itfTraces")

def IsOutcome (j : Json) : Prop :=
  ∃ outcome, j = .object outcome ∧ Nullable IsSpecResult (Fields.get outcome "validate") ∧
    Nullable IsGenTraces (Fields.get outcome "genTraces") ∧
    Nullable IsString (Fields.get outcome "error")

/-- Every field that a message defines has its type, or may be left out and is absent or null. -/
def Typed (obj : Fields) : String → Prop
  | "spec_validated" => Required IsSpecResult (obj.get "result")
  | "initial_state" => Required IsString (obj.get "action") ∧ Required IsRecord (obj.get "state")
  | "next_step" => Required IsString (obj.get "action") ∧ Required IsRecord (obj.get "parameters")
  | "step_mismatch" =>
    Nullable IsString (obj.get "action") ∧ Required IsRecord (obj.get "expected") ∧
      Required IsRecord (obj.get "actual") ∧ Nullable (ArrayOf IsHint) (obj.get "hints")
  | "gen_traces_done" => IsGenTraces (.object obj)
  | "protocol_error" | "register_error" => Required IsString (obj.get "error")
  | "job_accepted" =>
    Required IsString (obj.get "jobId") ∧
      Required (IsOneOf ["validate", "gen_traces"]) (obj.get "kind")
  | "job_status" =>
    Required IsString (obj.get "jobId") ∧
      Required (IsOneOf ["pending", "running", "done", "failed", "cancelled", "unknown"])
        (obj.get "phase")
  | "job_result" => Required IsString (obj.get "jobId") ∧ Required IsOutcome (obj.get "outcome")
  | _ => True

/-! ### What the decoder accepts -/

def Accepts {α : Type} (x : Decode α) : Prop := ∃ a, x = .ok a

variable {α β : Type}

@[simp] theorem accepts_ok (a : α) : Accepts (.ok a : Decode α) := ⟨a, rfl⟩

@[simp] theorem accepts_pure (a : α) : Accepts (pure a : Decode α) := ⟨a, rfl⟩

@[simp] theorem not_accepts_error (e : Fault Error) : ¬ Accepts (.error e : Decode α) := nofun

@[simp] theorem not_accepts_throw (e : Fault Error) : ¬ Accepts (throw e : Decode α) := nofun

theorem accepts_bind {x : Decode α} {f : α → Decode β} {P : Prop}
    (h : ∀ a, x = .ok a → (Accepts (f a) ↔ P)) : Accepts (x >>= f) ↔ Accepts x ∧ P := by
  cases x with
  | error e => exact iff_of_false nofun fun h => nomatch h.1
  | ok a => exact (h a rfl).trans (and_iff_right ⟨a, rfl⟩).symm

theorem accepts_last {x : Decode α} {f : α → β} : Accepts (x >>= fun a => pure (f a)) ↔ Accepts x :=
  (accepts_bind fun _ _ => iff_of_true (accepts_pure _) trivial).trans (and_iff_left trivial)

theorem accepts_mapM {f : α → Decode β} {xs : List α} :
    Accepts (xs.mapM f) ↔ ∀ x ∈ xs, Accepts (f x) := by
  induction xs with
  | nil => simp
  | cons x xs ih =>
    rw [List.mapM_cons, List.forall_mem_cons, ← ih]
    exact accepts_bind fun _ _ => accepts_last

theorem strField_accepts {obj : Fields} {key : String} :
    Accepts (strField obj key) ↔ Required IsString (obj.get key) := by
  unfold strField Required IsString
  cases obj.get key with
  | none => simp
  | some j => cases j <;> simp [Json.asStr]

theorem walk_record_iff {j : Json} : (∃ r, walk j = .ok (.record r)) ↔ IsRecord j := by
  constructor
  · rintro ⟨r, hr⟩
    cases j with
    | null => cases hr
    | bool b => cases hr
    | string t => cases hr
    | number n =>
      obtain ⟨z, -, hz⟩ := walk_number.mp hr
      cases hz
    | array items =>
      obtain ⟨vs, -, hvs⟩ := walk_array.mp hr
      cases hvs
    | object fields =>
      rcases walk_object.mp hr with hmarker | ⟨hmarker, fs, hfs, -⟩
      · cases hmarker
      · refine ⟨fields, rfl, hmarker, fun p hp => ?_⟩
        obtain ⟨q, -, -, hq⟩ := exists_image_of_mem (walkFields_ok.mp hfs) hp
        exact itf_of_walk hq
  · rintro ⟨fields, rfl, hmarker, hfields⟩
    obtain ⟨v, hv⟩ := walk_of_itf (.record hmarker hfields)
    rcases walk_object.mp hv with hmarker' | ⟨-, fs, -, rfl⟩
    · exact absurd hmarker'.isMarker hmarker
    · exact ⟨_, hv⟩

theorem walkRecord_accepts {value : Option Json} {field : String} :
    Accepts (walkRecord value field) ↔ Required IsRecord value := by
  cases value with
  | none => simp [walkRecord, Required]
  | some j =>
    have hrequired : Required IsRecord (some j) ↔ IsRecord j := by simp [Required]
    rw [hrequired, ← walk_record_iff]
    unfold walkRecord
    cases hwalk : walk j with
    | error e => simp [hwalk]
    | ok v => cases v <;> simp [hwalk]

theorem pathSegment_accepts {j : Json} : Accepts (pathSegment j) ↔ IsSegment j := by
  unfold pathSegment IsSegment
  split
  · rename_i key j
    split
    · simp
    · split <;> simp [*]
    · refine iff_of_false (not_accepts_error _) ?_
      rintro (⟨name, hj⟩ | ⟨index, i, hj, -⟩)
      · cases hj
        simp_all
      · cases hj
        simp_all
  · rename_i hno
    refine iff_of_false (not_accepts_error _) ?_
    rintro (⟨name, rfl⟩ | ⟨index, i, rfl, -⟩)
    · exact hno _ _ rfl
    · exact hno _ _ rfl

theorem pathSegments_accepts {value : Option Json} :
    Accepts (pathSegments value) ↔ Required (ArrayOf IsSegment) value := by
  unfold pathSegments
  split
  · simp [accepts_mapM, pathSegment_accepts, Required, ArrayOf]
  · rename_i hno
    refine iff_of_false (not_accepts_error _) ?_
    rintro ⟨_, rfl, items, rfl, -⟩
    exact hno items rfl

theorem hintValue_accepts {obj : Fields} {key : String} :
    Accepts (hintValue obj key) ↔ Required Json.Itf (obj.get key) := by
  unfold hintValue
  split
  · rename_i j hj
    simp [hj, Required, Accepts, walk_accepts]
  · rename_i hnone
    simp [hnone, Required]

theorem hintValues_accept {obj : Fields} (f : Value → Value → DiffHint) :
    Accepts (do return f (← hintValue obj "expected") (← hintValue obj "actual")) ↔
      Required Json.Itf (obj.get "expected") ∧ Required Json.Itf (obj.get "actual") := by
  rw [← hintValue_accepts, ← hintValue_accepts]
  exact accepts_bind fun _ _ => accepts_last

theorem hintValue_accepts_last {obj : Fields} {key : String} (f : Value → DiffHint) :
    Accepts (do return f (← hintValue obj key)) ↔ Required Json.Itf (obj.get key) :=
  accepts_last.trans hintValue_accepts

theorem decodeHint_accepts {j : Json} : Accepts (decodeHint j) ↔ IsHint j := by
  unfold decodeHint IsHint
  split
  · rename_i obj
    cases hkind : (Fields.get obj "kind").bind Json.asStr with
    | none =>
      refine iff_of_false (not_accepts_throw _) ?_
      rintro ⟨_, kind, keys, ⟨⟩, hstring, -⟩
      exact bind_asStr_none.mp hkind kind hstring
    | some kind =>
      have hstring := bind_asStr.mp hkind
      have hkeys : Accepts (decodeHint (.object obj)) ↔
          Required (ArrayOf IsSegment) (Fields.get obj "path") ∧
            ∃ keys, hintValues kind = some keys ∧
              ∀ key ∈ keys, Required Json.Itf (Fields.get obj key) := by
        unfold decodeHint
        rw [← pathSegments_accepts]
        simp only [hkind]
        refine accepts_bind fun path _ => ?_
        split
        all_goals try simp only [hintValues_accept, hintValue_accepts_last]
        all_goals simp [hintValues, *]
      unfold decodeHint at hkeys
      simp only [hkind] at hkeys
      rw [hkeys]
      constructor
      · rintro ⟨hpath, keys, hvalues, hall⟩
        exact ⟨obj, kind, keys, rfl, hstring, hpath, hvalues, hall⟩
      · rintro ⟨_, kind', keys, ⟨⟩, hstring', hpath, hvalues, hall⟩
        cases hstring.symm.trans hstring'
        exact ⟨hpath, keys, hvalues, hall⟩
  · rename_i hno
    refine iff_of_false (not_accepts_error _) ?_
    rintro ⟨obj, _, _, rfl, -⟩
    exact hno obj rfl

theorem decodeSpecResult_accepts {value : Option Json} :
    Accepts (decodeSpecResult value) ↔ Required IsSpecResult value := by
  unfold decodeSpecResult
  split
  · simp [Required, IsSpecResult]
  · rename_i result
    cases hinvalid : (Fields.get result "invalid").bind Json.asStr with
    | none =>
      refine iff_of_false (not_accepts_error _) ?_
      rintro ⟨_, ⟨⟩, (hvalid | ⟨_, ⟨⟩, _, hj, s, rfl⟩)⟩
      · cases hvalid
      · exact bind_asStr_none.mp hinvalid s hj
    | some detail =>
      exact iff_of_true (accepts_ok _)
        ⟨_, rfl, Or.inr ⟨result, rfl, _, bind_asStr.mp hinvalid, detail, rfl⟩⟩
  · rename_i hvalid hobject
    refine iff_of_false (not_accepts_error _) ?_
    rintro ⟨_, rfl, (rfl | ⟨result, rfl, -⟩)⟩
    · exact hvalid rfl
    · exact hobject result rfl

theorem stringArray_accepts {value : Option Json} {field : String} :
    Accepts (stringArray value field) ↔ Required (ArrayOf IsString) value := by
  unfold stringArray Required ArrayOf
  cases value with
  | none => simp
  | some j =>
    cases j with
    | array items =>
      simp only [Json.asArray, Option.bind_some, accepts_mapM, Option.some.injEq, exists_eq_left',
        Json.array.injEq]
      refine forall₂_congr fun entry _ => ?_
      cases entry <;> simp [Json.asStr, IsString]
    | _ => simp [Json.asArray]

theorem traceArray_accepts {value : Option Json} :
    Accepts (traceArray value) ↔ Defaulted IsArray value := by
  unfold traceArray Defaulted IsArray
  split
  · simp
  · simp
  · rename_i j hno
    refine iff_of_false (not_accepts_error _) fun h => ?_
    obtain ⟨items, rfl⟩ := h j rfl
    exact hno items rfl

theorem required_oneOf {words : List String} {value : Option Json} :
    Required (IsOneOf words) value ↔ ∃ s ∈ words, value = some (.string s) := by
  constructor
  · rintro ⟨_, hj, s, hs, rfl⟩
    exact ⟨s, hs, hj⟩
  · rintro ⟨s, hs, hj⟩
    exact ⟨_, hj, s, hs, rfl⟩

theorem decodeKind_accepts {value : Option Json} :
    Accepts (decodeKind (value.bind Json.asStr)) ↔
      Required (IsOneOf ["validate", "gen_traces"]) value := by
  rw [required_oneOf]
  unfold decodeKind
  split <;> simp_all [bind_asStr]

theorem decodePhase_accepts {value : Option Json} :
    Accepts (decodePhase (value.bind Json.asStr)) ↔
      Required (IsOneOf ["pending", "running", "done", "failed", "cancelled", "unknown"]) value := by
  rw [required_oneOf]
  unfold decodePhase
  split <;> simp_all [bind_asStr]

/-! ### The fields that are read leniently -/

/-- The traces that the decoder accepts. -/
def TracesAccepted (gen : Fields) : Prop :=
  Required (ArrayOf IsString) (gen.get "itfTracePaths") ∧ Defaulted IsArray (gen.get "itfTraces")

/-- The outcomes that the decoder accepts: the first kind that it finds, and for `genTraces` only an
object is found, and for `error` only a string. -/
def OutcomeAccepted (outcome : Fields) : Prop :=
  Required IsSpecResult (outcome.get "validate") ∨
    outcome.get "validate" = none ∧
      ((∃ gen, outcome.get "genTraces" = some (.object gen) ∧ TracesAccepted gen) ∨
        (∀ gen, outcome.get "genTraces" ≠ some (.object gen)) ∧
          Required IsString (outcome.get "error"))

theorem gen_accepts {gen : Fields} {f : List String → List Json → α} :
    Accepts (do
        let paths ← stringArray (gen.get "itfTracePaths") "itfTracePaths"
        let traces ← traceArray (gen.get "itfTraces")
        return f paths traces) ↔ TracesAccepted gen := by
  rw [TracesAccepted, ← @stringArray_accepts _ "itfTracePaths", ← traceArray_accepts]
  exact accepts_bind fun _ _ => accepts_last

theorem decodeJobOutcome_accepts {value : Option Json} :
    Accepts (decodeJobOutcome value) ↔
      ∃ outcome, value = some (.object outcome) ∧ OutcomeAccepted outcome := by
  unfold decodeJobOutcome
  cases hobject : value.bind Json.asObject with
  | none =>
    refine iff_of_false (not_accepts_throw _) ?_
    rintro ⟨outcome, hvalue, -⟩
    rw [bind_asObject.mpr hvalue] at hobject
    cases hobject
  | some outcome =>
    have hvalue := bind_asObject.mp hobject
    rw [hvalue]
    simp only [Option.some.injEq, Json.object.injEq, exists_eq_left']
    unfold OutcomeAccepted
    cases hvalidate : Fields.get outcome "validate" with
    | some validate =>
      simp only [reduceCtorEq, false_and, or_false]
      rw [← decodeSpecResult_accepts]
      exact accepts_last
    | none =>
      have hno : ¬ Required IsSpecResult none := nofun
      simp only [hno, false_or, true_and]
      cases hgen : (Fields.get outcome "genTraces").bind Json.asObject with
      | some gen =>
        have hobject := bind_asObject.mp hgen
        simp only [hobject, Option.some.injEq, Json.object.injEq, exists_eq_left', ne_eq,
          forall_eq', false_and, or_false]
        exact gen_accepts
      | none =>
        have hobject : ∀ gen, Fields.get outcome "genTraces" ≠ some (.object gen) := by
          intro gen h
          rw [bind_asObject.mpr h] at hgen
          cases hgen
        simp only [hobject, false_and, exists_false, false_or, ne_eq, not_false_eq_true,
          implies_true, true_and]
        cases herror : (Fields.get outcome "error").bind Json.asStr with
        | some e => exact iff_of_true (accepts_pure _) ⟨_, bind_asStr.mp herror, e, rfl⟩
        | none =>
          refine iff_of_false (not_accepts_throw _) ?_
          rintro ⟨_, hj, e, rfl⟩
          exact bind_asStr_none.mp herror e hj

/-- The messages that the decoder accepts. -/
def Accepted (obj : Fields) : String → Prop
  | "step_mismatch" =>
    Required IsRecord (obj.get "expected") ∧ Required IsRecord (obj.get "actual") ∧
      Defaulted (ArrayOf IsHint) (obj.get "hints")
  | "gen_traces_done" => TracesAccepted obj
  | "job_result" =>
    Required IsString (obj.get "jobId") ∧
      ∃ outcome, obj.get "outcome" = some (.object outcome) ∧ OutcomeAccepted outcome
  | step => Typed obj step

theorem hints_accept {value : Option Json} {f : List DiffHint → MirrorMessage} :
    Accepts (match value with
      | none => do
        let hints ← pure []
        pure (f hints)
      | some (.array hints) => do
        let hints ← hints.mapM decodeHint
        pure (f hints)
      | some _ => do
        let hints ← throw (invalidValue "hints must be an array")
        pure (f hints) : Decode MirrorMessage) ↔ Defaulted (ArrayOf IsHint) value := by
  unfold Defaulted ArrayOf
  split
  · exact iff_of_true (accepts_pure _) nofun
  · rw [accepts_last, accepts_mapM]
    simp only [decodeHint_accepts, Option.some.injEq, forall_eq', Json.array.injEq,
      exists_eq_left']
  · rename_i j hno
    refine iff_of_false (not_accepts_throw _) fun h => ?_
    obtain ⟨items, rfl, -⟩ := h j rfl
    exact hno items rfl

theorem walkMessage_accepts {obj : Fields} {step : String}
    (h : obj.get "proto_step" = some (.string step)) :
    Accepts (walkMessage obj) ↔ Accepted obj step := by
  have hstep : (obj.get "proto_step").bind Json.asStr = some step := bind_asStr.mpr h
  unfold walkMessage
  simp only [hstep]
  split
  · exact accepts_last.trans decodeSpecResult_accepts
  · exact (accepts_bind fun _ _ => accepts_last).trans
      (and_congr strField_accepts walkRecord_accepts)
  · exact (accepts_bind fun _ _ => accepts_last).trans
      (and_congr strField_accepts walkRecord_accepts)
  · exact iff_of_true (accepts_pure _) trivial
  · refine (accepts_bind fun expected _ => accepts_bind fun actual _ => ?_).trans
      (and_congr walkRecord_accepts (and_congr walkRecord_accepts Iff.rfl))
    exact hints_accept
  · exact iff_of_true (accepts_pure _) trivial
  · exact gen_accepts
  · exact accepts_last.trans strField_accepts
  · exact accepts_last.trans strField_accepts
  · exact (accepts_bind fun _ _ => accepts_last).trans
      (and_congr strField_accepts decodeKind_accepts)
  · exact (accepts_bind fun _ _ => accepts_last).trans
      (and_congr strField_accepts decodePhase_accepts)
  · exact (accepts_bind fun _ _ => accepts_last).trans
      (and_congr strField_accepts decodeJobOutcome_accepts)
  · refine iff_of_true (accepts_pure _) ?_
    unfold Accepted Typed
    split <;> first | contradiction | skip
    split <;> first | contradiction | trivial

/-! ### The messages that are accepted although a field is ill typed -/

/-- An outcome of which only the first kind that is found has been checked. -/
def OutcomeLenient (outcome : Fields) : Prop :=
  (Required IsSpecResult (outcome.get "validate") ∧
      ¬ (Nullable IsGenTraces (outcome.get "genTraces") ∧
        Nullable IsString (outcome.get "error"))) ∨
    (outcome.get "validate" = none ∧
      (∃ gen, outcome.get "genTraces" = some (.object gen) ∧ TracesAccepted gen) ∧
        ¬ Nullable IsString (outcome.get "error")) ∨
    outcome.get "validate" = none ∧
      (∃ j, outcome.get "genTraces" = some j ∧ j ≠ .null ∧ ∀ gen, j ≠ .object gen) ∧
        Required IsString (outcome.get "error")

/-- A mismatch whose action is no text, or a result with such an outcome, and all else in order. -/
def Lenient (obj : Fields) : String → Prop
  | "step_mismatch" =>
    ¬ Nullable IsString (obj.get "action") ∧ Required IsRecord (obj.get "expected") ∧
      Required IsRecord (obj.get "actual") ∧ Defaulted (ArrayOf IsHint) (obj.get "hints")
  | "job_result" =>
    Required IsString (obj.get "jobId") ∧
      ∃ outcome, obj.get "outcome" = some (.object outcome) ∧ OutcomeLenient outcome
  | _ => False

variable {T : Json → Prop} {value : Option Json}

theorem Defaulted.nullable (h : Defaulted T value) : Nullable T value := fun j hj => Or.inr (h j hj)

theorem Required.nullable (h : Required T value) : Nullable T value := by
  obtain ⟨j, rfl, hj⟩ := h
  intro j' hj'
  cases hj'
  exact Or.inr hj

theorem nullable_none : Nullable T none := nofun

theorem TracesAccepted.typed {gen : Fields} (h : TracesAccepted gen) : IsGenTraces (.object gen) :=
  ⟨gen, rfl, h.1, h.2.nullable⟩

theorem outcome_typed_iff {outcome : Fields} :
    (OutcomeAccepted outcome → IsOutcome (.object outcome)) ↔ ¬ OutcomeLenient outcome := by
  have htyped : IsOutcome (.object outcome) ↔
      Nullable IsSpecResult (outcome.get "validate") ∧
        Nullable IsGenTraces (outcome.get "genTraces") ∧
          Nullable IsString (outcome.get "error") := by
    unfold IsOutcome
    simp only [Json.object.injEq, exists_eq_left']
  rw [htyped]
  constructor
  · rintro h (⟨hvalidate, hill⟩ | ⟨hvalidate, hgen, hill⟩ | ⟨hvalidate, ⟨j, hj, hnull, hno⟩, herror⟩)
    · exact hill (h (Or.inl hvalidate)).2
    · exact hill (h (Or.inr ⟨hvalidate, Or.inl hgen⟩)).2.2
    · have hfound : ∀ gen, outcome.get "genTraces" ≠ some (.object gen) := by
        intro gen hgen
        rw [hj] at hgen
        exact hno gen (Option.some.inj hgen)
      have hgen := (h (Or.inr ⟨hvalidate, Or.inr ⟨hfound, herror⟩⟩)).2.1 j hj
      rcases hgen with rfl | ⟨gen, rfl, -⟩
      · exact hnull rfl
      · exact hno gen rfl
  · intro hlenient haccepted
    unfold OutcomeLenient at hlenient
    push Not at hlenient
    obtain ⟨hfirst, hsecond, hthird⟩ := hlenient
    rcases haccepted with hvalidate | ⟨hvalidate, hgen | ⟨hfound, herror⟩⟩
    · exact ⟨hvalidate.nullable, hfirst hvalidate⟩
    · have herror := hsecond hvalidate hgen
      obtain ⟨gen, hgen, htraces⟩ := hgen
      rw [hvalidate, hgen]
      exact ⟨nullable_none, Required.nullable ⟨_, rfl, htraces.typed⟩, herror⟩
    · rw [hvalidate]
      refine ⟨nullable_none, fun j hj => ?_, herror.nullable⟩
      by_cases hnull : j = .null
      · exact Or.inl hnull
      · refine absurd herror (hthird hvalidate ⟨j, hj, hnull, fun gen hgen => ?_⟩)
        exact hfound gen (hgen ▸ hj)

theorem typed_iff (obj : Fields) (step : String) :
    (Accepted obj step → Typed obj step) ↔ ¬ Lenient obj step := by
  unfold Accepted
  split
  · change (_ → Nullable IsString _ ∧ Required IsRecord _ ∧ Required IsRecord _ ∧
      Nullable (ArrayOf IsHint) _) ↔ ¬ (_ ∧ Required IsRecord _ ∧ Required IsRecord _ ∧ _)
    constructor
    · rintro h ⟨hill, hrest⟩
      exact hill (h hrest).1
    · rintro h ⟨hexpected, hactual, hhints⟩
      refine ⟨?_, hexpected, hactual, hhints.nullable⟩
      by_contra hill
      exact h ⟨hill, hexpected, hactual, hhints⟩
  · exact iff_of_true TracesAccepted.typed id
  · change (_ → Required IsString _ ∧ Required IsOutcome _) ↔ ¬ (Required IsString _ ∧ _)
    constructor
    · rintro h ⟨hjob, outcome, houtcome, hlenient⟩
      refine outcome_typed_iff.mp (fun haccepted => ?_) hlenient
      obtain ⟨-, j, hj, htyped⟩ := h ⟨hjob, outcome, houtcome, haccepted⟩
      rw [houtcome] at hj
      exact Option.some.inj hj ▸ htyped
    · rintro h ⟨hjob, outcome, houtcome, haccepted⟩
      refine ⟨hjob, _, houtcome, outcome_typed_iff.mpr (fun hlenient => ?_) haccepted⟩
      exact h ⟨hjob, outcome, houtcome, hlenient⟩
  · refine iff_of_true id ?_
    unfold Lenient
    split <;> first | contradiction | exact id

/-- A message is decoded only if all its fields have their types, exactly when it is not one of the
leniently read ones. -/
theorem decoded_typed_iff {line : String} {obj : Fields} {step : String}
    (hparse : parse line messageLimits = .ok (.object obj))
    (hstep : obj.get "proto_step" = some (.string step)) :
    ((∃ message, decodeMirrorMessage line = .ok message) → Typed obj step) ↔
      ¬ Lenient obj step := by
  rw [← typed_iff, ← walkMessage_accepts hstep]
  unfold decodeMirrorMessage
  simp only [hparse]
  rfl

/-- A mismatch with a hint. -/
def hintedLine : String :=
  "\x7b\"proto_step\":\"step_mismatch\",\"action\":\"inc\",\"expected\":\x7b\"n\":1\x7d," ++
    "\"actual\":\x7b\"n\":2\x7d,\"hints\":[\x7b\"kind\":\"extra\",\"path\":[\x7b\"index\":0\x7d]," ++
    "\"actual\":2\x7d]\x7d"

def hint : Json := .object
  [("actual", .number "2"), ("kind", .string "extra"),
    ("path", .array [.object [("index", .number "0")]])]

def hinted : Fields :=
  [("action", .string "inc"), ("actual", .object [("n", .number "2")]),
    ("expected", .object [("n", .number "1")]), ("hints", .array [hint]),
    ("proto_step", .string "step_mismatch")]

theorem parse_hintedLine : parse hintedLine messageLimits = .ok (.object hinted) :=
  ok_of_toOption (by decide +kernel)

theorem accepts_hintedLine : ∃ message, decodeMirrorMessage hintedLine = .ok message := by
  unfold decodeMirrorMessage
  simp only [parse_hintedLine]
  exact ⟨_, rfl⟩

theorem decoded_typed_hinted : Typed hinted "step_mismatch" := by
  have hstrict : ¬ Lenient hinted "step_mismatch" := fun hlenient =>
    hlenient.1 fun j hj => Or.inr ⟨"inc", (Option.some.inj hj).symm⟩
  exact (decoded_typed_iff parse_hintedLine rfl).mpr hstrict accepts_hintedLine

/-- A mismatch with a number for an action. -/
def mismatchLine : String :=
  "\x7b\"proto_step\":\"step_mismatch\",\"action\":1,\"expected\":\x7b\x7d,\"actual\":\x7b\x7d\x7d"

theorem parse_mismatchLine : parse mismatchLine messageLimits =
    .ok (.object [("action", .number "1"), ("actual", .object []), ("expected", .object []),
      ("proto_step", .string "step_mismatch")]) :=
  ok_of_toOption (by decide +kernel)

/-- A failed job whose traces are no object. -/
def outcomeLine : String :=
  "\x7b\"proto_step\":\"job_result\",\"jobId\":\"j\"," ++
    "\"outcome\":\x7b\"genTraces\":1,\"error\":\"e\"\x7d\x7d"

theorem parse_outcomeLine : parse outcomeLine messageLimits =
    .ok (.object [("jobId", .string "j"),
      ("outcome", .object [("error", .string "e"), ("genTraces", .number "1")]),
      ("proto_step", .string "job_result")]) :=
  ok_of_toOption (by decide +kernel)

/-- Both are decoded. -/
theorem decoded_ill_typed :
    (∃ message, decodeMirrorMessage mismatchLine = .ok message) ∧
      (∃ message, decodeMirrorMessage outcomeLine = .ok message) ∧
      ¬ ∀ line obj step, parse line messageLimits = .ok (.object obj) →
        Fields.get obj "proto_step" = some (.string step) →
        (∃ message, decodeMirrorMessage line = .ok message) → Typed obj step := by
  have hempty : Required IsRecord (some (.object [])) := ⟨_, rfl, [], rfl, id, nofun⟩
  have haccepts : ∀ {line obj step}, parse line messageLimits = .ok (.object obj) →
      Fields.get obj "proto_step" = some (.string step) → Accepted obj step →
      ∃ message, decodeMirrorMessage line = .ok message := by
    intro line obj step hparse hstep haccepted
    obtain ⟨message, hmessage⟩ := (walkMessage_accepts hstep).mpr haccepted
    refine ⟨message, ?_⟩
    unfold decodeMirrorMessage
    simp only [hparse]
    exact hmessage
  have hmismatch := haccepts parse_mismatchLine rfl ⟨hempty, hempty, nofun⟩
  refine ⟨hmismatch, haccepts parse_outcomeLine rfl ⟨⟨_, rfl, "j", rfl⟩, _, rfl, Or.inr ⟨rfl,
    Or.inr ⟨nofun, _, rfl, "e", rfl⟩⟩⟩, fun h => ?_⟩
  have htyped := h mismatchLine _ "step_mismatch" parse_mismatchLine rfl hmismatch
  rcases htyped.1 _ rfl with hnull | ⟨s, hs⟩
  · cases hnull
  · cases hs

end Conformance
end MirrorRust
