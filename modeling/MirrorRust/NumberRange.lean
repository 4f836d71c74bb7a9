import MirrorRust.Decoding
import MirrorRust.JsonPanics
import MirrorRust.BareNumbers

/-! The fixed-width arithmetic behind a bare number: when the scale of its digits and the zeros that
it stands for stay in range. -/
namespace MirrorRust

namespace Json

mutual

/-- The number lexemes of a tree. -/
def numbers : Json → List String
  | .number n => [n]
  | .array items => numbersItems items
  | .object fields => numbersFields fields
  | _ => []

def numbersItems : List Json → List String
  | [] => []
  | j :: items => numbers j ++ numbersItems items

def numbersFields : List (String × Json) → List String
  | [] => []
  | p :: fields => numbers p.2 ++ numbersFields fields

end

end Json

/-! ### The parts of a lexeme -/

/-- The mantissa of a lexeme and its exponent, unless that is no `i64`. -/
def numberParts (n : String) : List Char × Option ℤ :=
  let unsigned := match n.toList with
    | '-' :: rest => rest
    | cs => cs
  match splitOnce (fun c => c == 'e' || c == 'E') unsigned with
  | some (m, e) => (m, parseI64 e)
  | none => (unsigned, some 0)

/-- The digits before and after the point. -/
def mantissaParts (mantissa : List Char) : List Char × List Char :=
  (splitOnce (· == '.') mantissa).getD (mantissa, [])

/-- The difference of the exponent and the number of fraction digits has a negation in `i64`, and
the digits fit in a string together with the zeros that the exponent adds. -/
def NumberInRange (n : String) : Prop :=
  let (whole, fraction) := mantissaParts (numberParts n).1
  ∀ exponent ∈ (numberParts n).2, -2 ^ 63 < exponent - fraction.length ∧
    (0 ≤ exponent - fraction.length → whole.length + exponent < 2 ^ 63)

/-- The digits after scaling, for an exponent that is an `i64`. -/
def scaleDigits (whole fraction : List Char) (exponent : ℤ) : Except (Fault Error) (List Char) :=
  let digits := whole ++ fraction
  let scale : ℤ := exponent - fraction.length
  if scale < -2 ^ 63 then .error (.panic "attempt to subtract with overflow")
  else if 0 ≤ scale then
    if digits.length + scale.toNat ≥ 2 ^ 63 then .error (.panic "capacity overflow")
    else .ok (digits ++ List.replicate scale.toNat '0')
  else if scale = -2 ^ 63 then .error (.panic "attempt to negate with overflow")
  else
    let remove := (-scale).toNat
    if remove > digits.length || !(digits.drop (digits.length - remove)).all (· == '0') then
      .error (invalidValue "bare JSON number not in ITF integral grammar")
    else
      let kept := digits.take (digits.length - remove)
      .ok (if kept.isEmpty then ['0'] else kept)

def Decode.Calm {α : Type} (x : Decode α) : Prop := ∀ message, x ≠ .error (.panic message)

theorem Decode.calm_bind_iff {α β : Type} {x : Decode α} {f : α → Decode β}
    (hf : ∀ a, Decode.Calm (f a)) : Decode.Calm (x >>= f) ↔ Decode.Calm x := by
  cases x with
  | ok a => exact iff_of_true (hf a) fun _ => nofun
  | error e =>
    cases e with
    | error e => exact iff_of_true (fun _ => nofun) fun _ => nofun
    | panic message => exact iff_of_false (fun h => h _ rfl) fun h => h _ rfl

theorem scaleDigits_calm_iff (whole fraction : List Char) (exponent : ℤ) :
    Decode.Calm (scaleDigits whole fraction exponent) ↔ -2 ^ 63 < exponent - fraction.length ∧
      (0 ≤ exponent - fraction.length → whole.length + exponent < 2 ^ 63) := by
  unfold Decode.Calm scaleDigits
  simp only
  split_ifs with hsub hpos hroom hneg hfits
  · refine iff_of_false (fun h => h _ rfl) fun h => ?_
    omega
  · refine iff_of_false (fun h => h _ rfl) fun h => ?_
    have hlength := h.2 hpos
    rw [List.length_append] at hroom
    omega
  · refine iff_of_true (fun _ => nofun) ⟨by omega, fun _ => ?_⟩
    rw [List.length_append] at hroom
    omega
  · refine iff_of_false (fun h => h _ rfl) fun h => ?_
    omega
  all_goals exact iff_of_true (fun _ => nofun) ⟨by omega, fun h => absurd h hpos⟩

/-- The last step: the digits as an integer, which a string of digits always is. -/
def readDigits (negative : Bool) (digits : List Char) : Except (Fault Error) ℤ :=
  match parseBigInt (String.ofList (if negative then '-' :: digits else digits)) with
  | some z => .ok z
  | none => .error (invalidValue "malformed bare JSON integer")

theorem scaleDigits_bind (whole fraction : List Char) (exponent : ℤ)
    (f : List Char → Except (Fault Error) ℤ) :
    scaleDigits whole fraction exponent >>= f =
      let digits := whole ++ fraction
      let scale : ℤ := exponent - fraction.length
      let remove := (-scale).toNat
      let kept := digits.take (digits.length - remove)
      if scale < -2 ^ 63 then .error (.panic "attempt to subtract with overflow")
      else if 0 ≤ scale then
        if digits.length + scale.toNat ≥ 2 ^ 63 then .error (.panic "capacity overflow")
        else f (digits ++ List.replicate scale.toNat '0')
      else if scale = -2 ^ 63 then .error (.panic "attempt to negate with overflow")
      else if remove > digits.length || !(digits.drop (digits.length - remove)).all (· == '0') then
        .error (invalidValue "bare JSON number not in ITF integral grammar")
      else f (if kept.isEmpty then ['0'] else kept) := by
  simp only [scaleDigits]
  simp only [Decode.ite_bind, Decode.ok_bind, Decode.error_bind]

theorem numberToBigint_eq (n : String) :
    ∃ negative, numberToBigint n =
      match (numberParts n).2 with
      | none => .error (invalidValue "bad number exponent")
      | some exponent =>
        scaleDigits (mantissaParts (numberParts n).1).1 (mantissaParts (numberParts n).1).2 exponent
          >>= readDigits negative := by
  unfold numberToBigint numberParts
  split
  rename_i negative unsigned hsigned
  have hunsigned : (match n.toList with
      | '-' :: rest => rest
      | cs => cs) = unsigned := by
    refine Eq.trans ?_ (congrArg Prod.snd hsigned)
    split <;> simp [*]
  refine ⟨negative, ?_⟩
  simp only [hunsigned]
  cases hsplit : splitOnce (fun c => c == 'e' || c == 'E') unsigned with
  | none =>
    simp only [Decode.ok_bind]
    rw [scaleDigits_bind]
    rfl
  | some p =>
    obtain ⟨mantissa, e⟩ := p
    cases hexponent : parseI64 e with
    | none => simp only [hexponent, Decode.error_bind]
    | some exponent =>
      simp only [Decode.ok_bind, hexponent]
      rw [scaleDigits_bind]
      rfl

theorem readDigits_calm (negative : Bool) (digits : List Char) :
    Decode.Calm (readDigits negative digits) := by
  unfold readDigits
  split <;> exact fun _ => nofun

theorem numberToBigint_calm_iff (n : String) :
    Decode.Calm (numberToBigint n) ↔ NumberInRange n := by
  obtain ⟨negative, h⟩ := numberToBigint_eq n
  rw [h, NumberInRange]
  cases (numberParts n).2 with
  | none => exact iff_of_true (fun _ => nofun) nofun
  | some exponent =>
    have hscale := scaleDigits_calm_iff (mantissaParts (numberParts n).1).1
      (mantissaParts (numberParts n).1).2 exponent
    simp only [Option.mem_some, forall_eq']
    rw [← hscale]
    exact Decode.calm_bind_iff fun _ => readDigits_calm _ _

/-! ### Whole messages -/

namespace Decode
variable {α β : Type}

@[simp] theorem calm_ok (a : α) : Calm (.ok a : Decode α) := fun _ => nofun

@[simp] theorem calm_pure (a : α) : Calm (pure a : Decode α) := fun _ => nofun

@[simp] theorem calm_invalid (message : String) : Calm (.error (invalidValue message) : Decode α) :=
  fun _ => nofun

@[simp] theorem calm_throw (message : String) : Calm (throw (invalidValue message) : Decode α) :=
  fun _ => nofun

theorem Calm.bind {x : Decode α} {f : α → Decode β} (hx : Calm x) (hf : ∀ a, Calm (f a)) :
    Calm (x >>= f) := (calm_bind_iff hf).mpr hx

theorem calm_mapM {f : α → Decode β} {xs : List α} (hf : ∀ x ∈ xs, Calm (f x)) :
    Calm (xs.mapM f) := by
  induction xs with
  | nil => exact calm_pure []
  | cons x xs ih =>
    obtain ⟨hx, hxs⟩ := List.forall_mem_cons.mp hf
    rw [List.mapM_cons]
    exact hx.bind fun _ => (ih hxs).bind fun _ => calm_pure _

end Decode

/-- Every number of the tree is in range. -/
def Json.InRange (j : Json) : Prop := ∀ n ∈ j.numbers, NumberInRange n

namespace Json

theorem inRangeItems_iff {items : List Json} :
    (∀ n ∈ numbersItems items, NumberInRange n) ↔ ∀ j ∈ items, InRange j := by
  induction items with
  | nil => simp [numbersItems]
  | cons j items ih =>
    rw [numbersItems, List.forall_mem_append, ih, List.forall_mem_cons]
    rfl

theorem inRangeFields_iff {fields : List (String × Json)} :
    (∀ n ∈ numbersFields fields, NumberInRange n) ↔ ∀ p ∈ fields, InRange p.2 := by
  induction fields with
  | nil => simp [numbersFields]
  | cons p fields ih =>
    rw [numbersFields, List.forall_mem_append, ih, List.forall_mem_cons]
    rfl

@[simp] theorem inRange_number {n : String} : InRange (.number n) ↔ NumberInRange n := by
  simp [InRange, numbers]

@[simp] theorem inRange_array {items : List Json} :
    InRange (.array items) ↔ ∀ j ∈ items, InRange j := by
  rw [InRange, numbers, inRangeItems_iff]

@[simp] theorem inRange_object {fields : List (String × Json)} :
    InRange (.object fields) ↔ ∀ p ∈ fields, InRange p.2 := by
  rw [InRange, numbers, inRangeFields_iff]

end Json

namespace Decode

theorem walk_calm (j : Json) : j.InRange → Calm (walk j) := by
  refine walk.induct (fun j => j.InRange → Calm (walk j))
    (fun fs => (∀ p ∈ fs, p.2.InRange) → Calm (walkFields fs))
    (fun es => (∀ j ∈ es, j.InRange) → Calm (walkEntries es))
    (fun js => (∀ j ∈ js, j.InRange) → Calm (walkItems js)) ?_ ?_ ?_ ?_ ?_ ?_ ?_ ?_
    ?_ ?_ ?_ ?_ ?_ ?_ ?_ ?_ ?_ ?_ ?_ ?_ ?_ ?_ ?_ ?_ ?_ ?_ j
  all_goals intros
  all_goals try simp only [Json.inRange_number, Json.inRange_array, Json.inRange_object,
    List.forall_mem_cons] at *
  all_goals first
    | simp only [walk, walkItems, walkEntries, walkFields, calm_ok]
    | unfold walkEntries
    | unfold walkFields
    | rw [walk_pair (by assumption)]
  all_goals repeat' first
    | exact calm_ok _
    | exact calm_invalid _
    | exact (numberToBigint_calm_iff _).mpr (by assumption)
    | contradiction
    | refine Calm.bind ?_ fun _ => ?_
    | split
  all_goals tauto

/-! ### The fields of a message -/

/-- What a lookup finds is in range when every member is. -/
theorem get_inRange {obj : Fields} (h : ∀ p ∈ obj, p.2.InRange) {key : String} :
    ∀ j ∈ Fields.get obj key, j.InRange := by
  intro j hj
  induction obj with
  | nil => exact nomatch hj
  | cons p obj ih =>
    obtain ⟨hp, hobj⟩ := List.forall_mem_cons.mp h
    rw [Fields.get, Assoc.get?_cons] at hj
    split_ifs at hj
    · exact Option.mem_some.mp hj ▸ hp
    · exact ih hobj hj

theorem strField_calm (obj : Fields) (key : String) : Calm (strField obj key) := by
  unfold strField
  split
  · exact calm_ok _
  · exact calm_invalid _

theorem walkRecord_calm {value : Option Json} (h : ∀ j ∈ value, j.InRange) (field : String) :
    Calm (walkRecord value field) := by
  unfold walkRecord
  split
  · refine (walk_calm _ (h _ rfl)).bind fun v => ?_
    split
    · exact calm_pure _
    · exact calm_throw _
  · exact calm_throw _

theorem pathSegment_calm (j : Json) : Calm (pathSegment j) := by
  unfold pathSegment
  repeat' split
  all_goals first | exact calm_ok _ | exact calm_invalid _

theorem pathSegments_calm (value : Option Json) : Calm (pathSegments value) := by
  unfold pathSegments
  split
  · exact calm_mapM fun j _ => pathSegment_calm j
  · exact calm_invalid _

theorem hintValue_calm {obj : Fields} (h : ∀ p ∈ obj, p.2.InRange) (key : String) :
    Calm (hintValue obj key) := by
  unfold hintValue
  split
  · exact walk_calm _ (get_inRange h _ ‹_›)
  · exact calm_invalid _

theorem decodeHint_calm {j : Json} (h : j.InRange) : Calm (decodeHint j) := by
  unfold decodeHint
  split
  · rw [Json.inRange_object] at h
    split
    · exact calm_throw _
    · refine (pathSegments_calm _).bind fun path => ?_
      split
      all_goals repeat' first
        | exact calm_pure _
        | exact calm_throw _
        | refine (hintValue_calm h _).bind fun _ => ?_
  · exact calm_invalid _

theorem decodeSpecResult_calm (value : Option Json) : Calm (decodeSpecResult value) := by
  unfold decodeSpecResult
  repeat' split
  all_goals first | exact calm_ok _ | exact calm_invalid _

theorem stringArray_calm (value : Option Json) (field : String) :
    Calm (stringArray value field) := by
  unfold stringArray
  split
  · refine calm_mapM fun entry _ => ?_
    split
    · exact calm_ok _
    · exact calm_invalid _
  · exact calm_invalid _

theorem traceArray_calm (value : Option Json) : Calm (traceArray value) := by
  unfold traceArray
  split
  · exact calm_ok _
  · exact calm_ok _
  · exact calm_invalid _

theorem decodeJobOutcome_calm (value : Option Json) : Calm (decodeJobOutcome value) := by
  unfold decodeJobOutcome
  split
  · exact calm_throw _
  · repeat' first
      | exact calm_pure _
      | exact calm_throw _
      | refine (decodeSpecResult_calm _).bind fun _ => ?_
      | refine (stringArray_calm _ _).bind fun _ => ?_
      | refine (traceArray_calm _).bind fun _ => ?_
      | split

theorem decodeKind_calm (kind : Option String) : Calm (decodeKind kind) := by
  unfold decodeKind
  split
  all_goals first | exact calm_ok _ | exact calm_invalid _

theorem decodePhase_calm (phase : Option String) : Calm (decodePhase phase) := by
  unfold decodePhase
  split
  all_goals first | exact calm_ok _ | exact calm_invalid _

theorem walkMessage_calm {obj : Fields} (h : ∀ p ∈ obj, p.2.InRange) : Calm (walkMessage obj) := by
  unfold walkMessage
  split
  · exact calm_throw _
  · split
    all_goals repeat' first
      | exact calm_pure _
      | exact calm_throw _
      | refine (decodeSpecResult_calm _).bind fun _ => ?_
      | refine (strField_calm _ _).bind fun _ => ?_
      | refine (walkRecord_calm (get_inRange h) _).bind fun _ => ?_
      | refine (stringArray_calm _ _).bind fun _ => ?_
      | refine (traceArray_calm _).bind fun _ => ?_
      | refine (decodeKind_calm _).bind fun _ => ?_
      | refine (decodePhase_calm _).bind fun _ => ?_
      | refine (decodeJobOutcome_calm _).bind fun _ => ?_
    simp only
    split
    · exact (calm_pure _).bind fun _ => calm_pure _
    · rename_i hints hfound
      have hhints := Json.inRange_array.mp (get_inRange h _ hfound)
      exact (calm_mapM fun j hj => decodeHint_calm (hhints j hj)).bind fun _ => calm_pure _
    · exact (calm_throw _).bind fun _ => calm_pure _

theorem decodeMirrorMessage_calm {line : String}
    (h : ∀ j, parse line messageLimits = .ok j → j.InRange) : Calm (decodeMirrorMessage line) := by
  unfold decodeMirrorMessage
  split
  · exact fun _ => nofun
  · exact absurd ‹_› (parse_ne_panic _ _ _)
  · exact walkMessage_calm (Json.inRange_object.mp (h _ ‹_›))
  · exact calm_ok _

end Decode

/-- Exactly the lexemes in range are decoded without a panic; a line whose numbers are all in range
never makes the decoder panic. -/
theorem decoding_calm_iff (n line : String) :
    (Decode.Calm (numberToBigint n) ↔ NumberInRange n) ∧
      ((∀ j, parse line messageLimits = .ok j → ∀ n ∈ j.numbers, NumberInRange n) →
        Decode.Calm (decodeMirrorMessage line)) :=
  ⟨numberToBigint_calm_iff n, Decode.decodeMirrorMessage_calm⟩

/-- The lexeme `1e3`. -/
theorem decoding_calm_sample : Decode.Calm (numberToBigint "1e3") ↔ NumberInRange "1e3" :=
  (decoding_calm_iff "1e3" "1e3").1

/-- A state with one number, as far from zero as the exponent allows. -/
def hostileLine : String :=
  "\x7b\"proto_step\":\"initial_state\",\"action\":\"a\"," ++
    "\"state\":\x7b\"x\":1e9223372036854775807\x7d\x7d"

theorem hostileLine_panics : ¬ Decode.Calm (decodeMirrorMessage hostileLine) := by
  have hline : decodeMirrorMessage hostileLine = .error (.panic "capacity overflow") :=
    (@decode_of_parse _ [("action", .string "a"), ("proto_step", .string "initial_state"),
      ("state", .object [("x", .number "1e9223372036854775807")])] (by decide +kernel)).trans rfl
  exact fun h => h _ hline

/-- The line is short and its number is accepted; the other two overflows occur as well. -/
theorem decoding_overflows :
    ¬ (∀ line : String, line.utf8ByteSize ≤ 65535 → ∀ j, parse line messageLimits = .ok j →
        ∀ n ∈ j.numbers, Decode.Calm (numberToBigint n)) ∧
      numberToBigint "1.5e-9223372036854775808" =
        .error (.panic "attempt to subtract with overflow") ∧
      numberToBigint "1e-9223372036854775808" =
        .error (.panic "attempt to negate with overflow") := by
  refine ⟨fun h => hostileLine_panics (Decode.decodeMirrorMessage_calm fun j hj n hn => ?_),
    rfl, rfl⟩
  exact (numberToBigint_calm_iff n).mp (h hostileLine (by decide +kernel) j hj n hn)

end MirrorRust
