import MirrorRust.Protocol

/-! Whatever a decoder of the protocol refuses, it refuses with a protocol error. -/
namespace MirrorRust

/-! ### Members of a type -/

/-- The text of a field that is a string. -/
theorem bind_asStr {value : Option Json} {s : String} :
    value.bind Json.asStr = some s ↔ value = some (.string s) := by
  cases value with
  | none => simp
  | some j => cases j <;> simp [Json.asStr]

theorem bind_asStr_none {value : Option Json} :
    value.bind Json.asStr = none ↔ ∀ s, value ≠ some (.string s) := by
  rw [Option.eq_none_iff_forall_ne_some]
  exact forall_congr' fun s => not_congr bind_asStr

theorem bind_asObject {value : Option Json} {fields : Fields} :
    value.bind Json.asObject = some fields ↔ value = some (.object fields) := by
  cases value with
  | none => simp
  | some j => cases j <;> simp [Json.asObject]

/-! ### Refusals -/

/-- Whatever a decoder refuses, it refuses with a protocol error. -/
def Decode.Refuses {α : Type} (x : Decode α) : Prop :=
  ∀ e, x = .error (.error e) → ∃ message, e = .protocolError message

namespace Decode
variable {α β : Type}

/-- A guard at the head of a `do` block. -/
theorem ite_bind (c : Prop) [Decidable c] (x y : Except (Fault Error) α)
    (f : α → Except (Fault Error) β) :
    ((if c then x else y) >>= f) = if c then x >>= f else y >>= f := by
  split_ifs <;> rfl

@[simp] theorem ok_bind (a : α) (f : α → Except (Fault Error) β) :
    ((.ok a : Except (Fault Error) α) >>= f) = f a := rfl

@[simp] theorem error_bind (e : Fault Error) (f : α → Except (Fault Error) β) :
    ((.error e : Except (Fault Error) α) >>= f) = .error e := rfl

@[simp] theorem refuses_ok (a : α) : Refuses (.ok a : Decode α) := nofun

@[simp] theorem refuses_pure (a : α) : Refuses (pure a : Decode α) := nofun

@[simp] theorem refuses_invalid (message : String) :
    Refuses (.error (invalidValue message) : Decode α) := by
  intro e h
  exact ⟨_, (Fault.error.inj (Except.error.inj h)).symm⟩

@[simp] theorem refuses_throw (message : String) :
    Refuses (throw (invalidValue message) : Decode α) := refuses_invalid message

@[simp] theorem refuses_panic (message : String) : Refuses (.error (.panic message) : Decode α) :=
  nofun

theorem Refuses.bind {x : Decode α} {f : α → Decode β} (hx : Refuses x)
    (hf : ∀ a, Refuses (f a)) : Refuses (x >>= f) := by
  intro e h
  cases x with
  | error fault => exact hx e (congrArg Except.error (Except.error.inj h))
  | ok a => exact hf a e h

theorem refuses_mapM {f : α → Decode β} (hf : ∀ a, Refuses (f a)) (xs : List α) :
    Refuses (xs.mapM f) := by
  induction xs with
  | nil => exact refuses_pure []
  | cons x xs ih =>
    rw [List.mapM_cons]
    exact (hf x).bind fun _ => ih.bind fun _ => refuses_pure _

theorem numberToBigint_refuses (n : String) : Refuses (numberToBigint n) := by
  unfold numberToBigint
  dsimp only [bind, Except.bind]
  repeat' split
  all_goals simp_all

theorem walk_pair {k l : String} (h : ¬ (k = "tag" ∧ l = "value")) (t w : Json) :
    walk (.object [(k, t), (l, w)]) =
      walk t >>= fun v => walk w >>= fun u => .ok (.record (Assoc.ofList [(k, v), (l, u)])) := by
  cases t <;> simp only [walk, if_neg h]

/-- By induction on the cases of the decoder. -/
theorem walk_refuses (j : Json) : Refuses (walk j) := by
  refine walk.induct (fun j => Refuses (walk j)) (fun fs => Refuses (walkFields fs))
    (fun es => Refuses (walkEntries es)) (fun js => Refuses (walkItems js)) ?_ ?_ ?_ ?_ ?_ ?_ ?_ ?_
    ?_ ?_ ?_ ?_ ?_ ?_ ?_ ?_ ?_ ?_ ?_ ?_ ?_ ?_ ?_ ?_ ?_ ?_ j
  all_goals intros
  all_goals first
    | simp only [walk, walkItems, walkEntries, walkFields, refuses_ok]
    | unfold walkEntries
    | rw [walk_pair (by assumption)]
  all_goals repeat' first
    | assumption
    | exact refuses_ok _
    | exact refuses_invalid _
    | exact numberToBigint_refuses _
    | contradiction
    | refine Refuses.bind ?_ fun _ => ?_
    | split

/-! ### The fields of a message -/

theorem strField_refuses (obj : Fields) (key : String) : Refuses (strField obj key) := by
  unfold strField
  split
  · exact refuses_ok _
  · exact refuses_invalid _

theorem walkRecord_refuses (value : Option Json) (field : String) :
    Refuses (walkRecord value field) := by
  unfold walkRecord
  split
  · refine (walk_refuses _).bind fun v => ?_
    split
    · exact refuses_pure _
    · exact refuses_throw _
  · exact refuses_throw _

theorem pathSegment_refuses (j : Json) : Refuses (pathSegment j) := by
  unfold pathSegment
  repeat' split
  all_goals first | exact refuses_ok _ | exact refuses_invalid _

theorem pathSegments_refuses (value : Option Json) : Refuses (pathSegments value) := by
  unfold pathSegments
  split
  · exact refuses_mapM pathSegment_refuses _
  · exact refuses_invalid _

theorem hintValue_refuses (obj : Fields) (key : String) : Refuses (hintValue obj key) := by
  unfold hintValue
  split
  · exact walk_refuses _
  · exact refuses_invalid _

/-- A difference is refused at one of its members. -/
theorem decodeHint_refuses (j : Json) : Refuses (decodeHint j) := by
  unfold decodeHint
  split
  · split
    · exact refuses_throw _
    · refine (pathSegments_refuses _).bind fun path => ?_
      split
      all_goals repeat' first
        | exact refuses_pure _
        | exact refuses_throw _
        | refine (hintValue_refuses _ _).bind fun _ => ?_
  · exact refuses_invalid _

theorem decodeSpecResult_refuses (value : Option Json) : Refuses (decodeSpecResult value) := by
  unfold decodeSpecResult
  repeat' split
  all_goals first | exact refuses_ok _ | exact refuses_invalid _

theorem stringArray_refuses (value : Option Json) (field : String) :
    Refuses (stringArray value field) := by
  unfold stringArray
  split
  · refine refuses_mapM (fun entry => ?_) _
    split
    · exact refuses_ok _
    · exact refuses_invalid _
  · exact refuses_invalid _

theorem traceArray_refuses (value : Option Json) : Refuses (traceArray value) := by
  unfold traceArray
  split
  · exact refuses_ok _
  · exact refuses_ok _
  · exact refuses_invalid _

/-- The result of a job, of each of its kinds. -/
theorem decodeJobOutcome_refuses (value : Option Json) : Refuses (decodeJobOutcome value) := by
  unfold decodeJobOutcome
  split
  · exact refuses_throw _
  · repeat' first
      | exact refuses_pure _
      | exact refuses_throw _
      | refine (decodeSpecResult_refuses _).bind fun _ => ?_
      | refine (stringArray_refuses _ _).bind fun _ => ?_
      | refine (traceArray_refuses _).bind fun _ => ?_
      | split

theorem decodeKind_refuses (kind : Option String) : Refuses (decodeKind kind) := by
  unfold decodeKind
  split
  all_goals first | exact refuses_ok _ | exact refuses_invalid _

theorem decodePhase_refuses (phase : Option String) : Refuses (decodePhase phase) := by
  unfold decodePhase
  split
  all_goals first | exact refuses_ok _ | exact refuses_invalid _

/-! ### Messages -/

theorem walkMessage_refuses (obj : Fields) : Refuses (walkMessage obj) := by
  unfold walkMessage
  split
  · exact refuses_throw _
  · split
    all_goals repeat' first
      | exact refuses_pure _
      | exact refuses_throw _
      | refine (decodeSpecResult_refuses _).bind fun _ => ?_
      | refine (strField_refuses _ _).bind fun _ => ?_
      | refine (walkRecord_refuses _ _).bind fun _ => ?_
      | refine (stringArray_refuses _ _).bind fun _ => ?_
      | refine (traceArray_refuses _).bind fun _ => ?_
      | refine (decodeKind_refuses _).bind fun _ => ?_
      | refine (decodePhase_refuses _).bind fun _ => ?_
      | refine (decodeJobOutcome_refuses _).bind fun _ => ?_
      | refine (refuses_mapM decodeHint_refuses _).bind fun _ => ?_
      | refine Refuses.bind ?_ fun _ => ?_
      | split

/-- A line of the mirror is decoded, or it is refused with a protocol error. -/
theorem decodeMirrorMessage_refuses (line : String) : Refuses (decodeMirrorMessage line) := by
  unfold decodeMirrorMessage
  split
  · intro e h
    exact ⟨_, (Fault.error.inj (Except.error.inj h)).symm⟩
  · exact refuses_panic _
  · exact walkMessage_refuses _
  · exact refuses_ok _

end Decode
end MirrorRust
