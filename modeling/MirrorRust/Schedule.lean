import MirrorRust.JsonParser

/-! Schedule artifacts: the closed record of one schedule, its strict reader and
writer, and the admission of a schedule by an adapter. -/
namespace MirrorRust

def PROFILE : String := "mirrorrust.cooperative-checkpoints/v1"

def SCHEMA : String := "mirrors.checkpoint-schedule/v1"

/-- The checkpoint that ends an actor. -/
def COMPLETION : String := "$done"

structure Identity where
  modelSemanticDigest : String
  mappingSha256 : String
  implementationSha256 : String
  deriving DecidableEq

structure Step where
  actor : String
  checkpoint : String
  deriving DecidableEq

structure Schedule where
  schema : String
  profile : String
  identity : Identity
  inputs : Json
  steps : List Step
  deriving DecidableEq

def Schedule.new (identity : Identity) (inputs : Json) (steps : List Step) : Schedule :=
  { schema := SCHEMA, profile := PROFILE, identity := identity, inputs := inputs, steps := steps }

structure ActorDeclaration where
  actor : String
  operation : String
  deriving DecidableEq

/-- A span of time in nanoseconds. -/
abbrev Duration := ℕ

def Duration.fromSecs (n : ℕ) : Duration := n * 1_000_000_000

def Duration.asMillis (d : Duration) : ℕ := d / 1_000_000

structure Policy where
  maxActors : ℕ
  maxSteps : ℕ
  executionTimeout : Duration
  cleanupTimeout : Duration

/-- The bounds an execution has unless its caller gives others. -/
def Policy.default : Policy :=
  { maxActors := 64
    maxSteps := 65_536
    executionTimeout := .fromSecs 2
    cleanupTimeout := .fromSecs 1 }

inductive Outcome
  | completed
  | invalidSchedule
  | incompatibleIdentity
  | cancelled
  | timedOut
  | unexpectedCheckpoint
  | uncontrolledActor
  | applicationFailed
  | observationFailed
  | resourceFailed
  deriving DecidableEq

inductive Cleanup
  | notStarted
  | confirmed
  | incomplete
  | teardownFailed
  deriving DecidableEq

/-- The part of an adapter that admission reads. -/
structure AdapterDeclaration where
  identity : Identity
  actors : List ActorDeclaration
  checkpoints : List String

/-! ### Names and bounds -/

def isAsciiAlphanumeric (c : Char) : Bool :=
  c.isDigit || ('a' ≤ c && c ≤ 'z') || ('A' ≤ c && c ≤ 'Z')

def identifier (value : String) : Bool :=
  value != "" && value.utf8ByteSize ≤ 128 &&
    value.toList.all fun c => isAsciiAlphanumeric c || "_-./".toList.contains c

def digest (value : String) : Bool :=
  value.utf8ByteSize == 64 && value.toList.all fun c => c.isDigit || ('a' ≤ c && c ≤ 'f')

def identityValid (i : Identity) : Bool :=
  digest i.modelSemanticDigest && digest i.mappingSha256 && digest i.implementationSha256

def budget (d : Duration) : Bool := d != 0 && d ≤ .fromSecs 86_400

/-! ### Trees of `serde_json` -/

/-- What `serde_json` does to the lexeme of a number, and how it refuses a tree. -/
structure Serde where
  /-- The lexeme of a number of a tree that `from_value` reads. -/
  visited : String → String
  /-- The lexeme of a number that is parsed from its text: by `to_value` and `json!`, and by
  `from_value` under the number token. -/
  parsed : String → String
  /-- The message of `from_value` for a type. -/
  refusal : String → Json → String
  parsed_parsed : ∀ n, parsed (parsed n) = parsed n
  parsed_nat : ∀ n : ℕ, parsed (toString n) = toString n

/-- Every lexeme is kept. -/
def Serde.plain : Serde :=
  { visited := id
    parsed := id
    refusal := fun _ _ => ""
    parsed_parsed := fun _ => rfl
    parsed_nat := fun _ => rfl }

namespace Json
variable (serde : Serde)

mutual

/-- `to_value` of a tree: its numbers are parsed again. -/
def toValue : Json → Json
  | .null => .null
  | .bool b => .bool b
  | .number n => .number (serde.parsed n)
  | .string s => .string s
  | .array items => .array (toValueItems items)
  | .object fields => .object (toValueFields fields)

def toValueItems : List Json → List Json
  | [] => []
  | j :: items => j.toValue :: toValueItems items

def toValueFields : List (String × Json) → List (String × Json)
  | [] => []
  | (key, j) :: fields => (key, j.toValue) :: toValueFields fields

end

variable {serde}

theorem toValueItems_eq (items : List Json) :
    toValueItems serde items = items.map (toValue serde) := by
  induction items with
  | nil => rfl
  | cons j items ih => rw [toValueItems, ih, List.map_cons]

theorem toValueFields_eq (fields : List (String × Json)) :
    toValueFields serde fields = fields.map fun p => (p.1, p.2.toValue serde) := by
  induction fields with
  | nil => rfl
  | cons p fields ih => rw [toValueFields, ih, List.map_cons]

@[simp] theorem toValue_array (items : List Json) :
    (array items).toValue serde = .array (items.map (toValue serde)) :=
  congrArg array (toValueItems_eq items)

theorem toValue_object (fields : List (String × Json)) :
    (object fields).toValue serde = .object (fields.map fun p => (p.1, p.2.toValue serde)) :=
  congrArg object (toValueFields_eq fields)

@[simp] theorem toValue_obj (fields : List (String × Json)) :
    (obj fields).toValue serde = obj (fields.map fun p => (p.1, p.2.toValue serde)) := by
  rw [obj, obj, toValue_object, Assoc.ofList_map_snd]

@[simp] theorem toValue_null : null.toValue serde = .null := rfl

@[simp] theorem toValue_bool (b : Bool) : (bool b).toValue serde = .bool b := rfl

@[simp] theorem toValue_string (s : String) : (string s).toValue serde = .string s := rfl

@[simp] theorem toValue_ofNat (n : ℕ) : (ofNat n).toValue serde = ofNat n :=
  congrArg number (serde.parsed_nat n)

/-- A tree that has been through `to_value` comes out of it as it is. -/
@[simp] theorem toValue_toValue (j : Json) : (j.toValue serde).toValue serde = j.toValue serde := by
  induction j with
  | null | bool | string => rfl
  | number n => exact congrArg number (serde.parsed_parsed n)
  | array items ih =>
    rw [toValue_array, toValue_array, List.map_map]
    exact congrArg array (List.map_congr_left ih)
  | object fields ih =>
    rw [toValue_object, toValue_object, List.map_map]
    exact congrArg object (List.map_congr_left fun p hp => congrArg (Prod.mk p.1) (ih p hp))

theorem index_toValue (j : Json) (key : String) :
    (j.toValue serde).index key = (j.index key).toValue serde := by
  cases j with
  | object fields =>
    rw [toValue_object, index, index, Assoc.get?_map_snd]
    cases Assoc.get? key fields <;> rfl
  | array items => rw [toValue_array]; rfl
  | _ => rfl

end Json

/-! ### Serialization -/

section Serialize
variable (object : List (String × Json) → Json)

def Identity.serialize (i : Identity) : Json :=
  object [("modelSemanticDigest", .string i.modelSemanticDigest),
    ("mappingSha256", .string i.mappingSha256),
    ("implementationSha256", .string i.implementationSha256)]

def Step.serialize (s : Step) : Json :=
  object [("actor", .string s.actor), ("checkpoint", .string s.checkpoint)]

def Schedule.serialize (s : Schedule) : Json :=
  object [("schema", .string s.schema), ("profile", .string s.profile),
    ("identity", s.identity.serialize object), ("inputs", s.inputs),
    ("steps", .array (s.steps.map (Step.serialize object)))]

def ActorDeclaration.serialize (a : ActorDeclaration) : Json :=
  object [("actor", .string a.actor), ("operation", .string a.operation)]

end Serialize

/-- `to_string`: the members in the order of the declaration. -/
def Schedule.text (s : Schedule) : String := (s.serialize .object).render

/-- The tree of that text: the members in key order. -/
def Schedule.tree (s : Schedule) : Json := s.serialize Json.obj

/-- `to_value`, which parses the numbers of the inputs again. -/
def Schedule.toJson (serde : Serde) (s : Schedule) : Json :=
  { s with inputs := s.inputs.toValue serde }.tree

def ActorDeclaration.toJson (a : ActorDeclaration) : Json := a.serialize Json.obj

theorem Schedule.toJson_toValue (serde : Serde) (s : Schedule) :
    (s.toJson serde).toValue serde = s.toJson serde := by
  have hstep : ∀ t : Step, (t.serialize Json.obj).toValue serde = t.serialize Json.obj := fun t => by
    simp [Step.serialize]
  simp [toJson, tree, serialize, Identity.serialize, Function.comp_def, hstep]

def Outcome.name : Outcome → String
  | .completed => "completed"
  | .invalidSchedule => "invalid_schedule"
  | .incompatibleIdentity => "incompatible_identity"
  | .cancelled => "cancelled"
  | .timedOut => "timed_out"
  | .unexpectedCheckpoint => "unexpected_checkpoint"
  | .uncontrolledActor => "uncontrolled_actor"
  | .applicationFailed => "application_failed"
  | .observationFailed => "observation_failed"
  | .resourceFailed => "resource_failed"

def Cleanup.name : Cleanup → String
  | .notStarted => "not_started"
  | .confirmed => "confirmed"
  | .incomplete => "incomplete"
  | .teardownFailed => "teardown_failed"

/-! ### Deserialization from a tree -/

/-- The members of a derived struct that denies unknown fields, in declaration order.
A sequence of the right length is read as well. -/
def readStruct (names : List String) : Json → Option (List Json)
  | .object fields =>
    if fields.all fun p => names.contains p.1 then names.mapM fun name => Assoc.get? name fields
    else none
  | .array items => if items.length = names.length then some items else none
  | _ => none

def Identity.fromValue (j : Json) : Option Identity := do
  match ← readStruct ["modelSemanticDigest", "mappingSha256", "implementationSha256"] j with
  | [.string m, .string a, .string i] =>
    return { modelSemanticDigest := m, mappingSha256 := a, implementationSha256 := i }
  | _ => none

def Step.fromValue (j : Json) : Option Step := do
  match ← readStruct ["actor", "checkpoint"] j with
  | [.string actor, .string checkpoint] => return { actor := actor, checkpoint := checkpoint }
  | _ => none

def ActorDeclaration.fromValue (j : Json) : Option ActorDeclaration := do
  match ← readStruct ["actor", "operation"] j with
  | [.string actor, .string operation] => return { actor := actor, operation := operation }
  | _ => none

/-- The key that marks a number in the generic deserializer of `serde_json`. -/
def NUMBER_TOKEN : String := "$serde_json::private::Number"

section FromValue
variable (serde : Serde)

mutual

/-- A tree read through the generic deserializer. An object whose first key is the number
token is read as a number, and rejected when it is none. -/
def fromValue : Json → Option Json
  | .null => some .null
  | .bool b => some (.bool b)
  | .number n => some (.number (serde.visited n))
  | .string s => some (.string s)
  | .array items => (fromItems items).map .array
  | .object [] => some (.object [])
  | .object ((key, item) :: fields) =>
    if key = NUMBER_TOKEN then
      match item, fields with
      | .string n, [] => if isNumber n.toList then some (.number (serde.parsed n)) else none
      | _, _ => none
    else do
      let item ← fromValue item
      return .object ((key, item) :: (← fromFields fields))

def fromItems : List Json → Option (List Json)
  | [] => some []
  | j :: items => do
    let j ← fromValue j
    return j :: (← fromItems items)

def fromFields : List (String × Json) → Option (List (String × Json))
  | [] => some []
  | (key, j) :: fields => do
    let j ← fromValue j
    return (key, j) :: (← fromFields fields)

end

def Schedule.fromValue (j : Json) : Option Schedule := do
  match ← readStruct ["schema", "profile", "identity", "inputs", "steps"] j with
  | [.string schema, .string profile, identity, inputs, .array steps] =>
    return { schema := schema
             profile := profile
             identity := ← Identity.fromValue identity
             inputs := ← MirrorRust.fromValue serde inputs
             steps := ← steps.mapM Step.fromValue }
  | _ => none

/-! ### The artifact -/

def scheduleLimits : Limits :=
  { maxBytes := 8 * 1_048_576, maxDepth := 32, maxNodes := 600_000, rejectDuplicateKeys := true }

def stepValid (s : Step) : Bool :=
  identifier s.actor && (s.checkpoint == COMPLETION || identifier s.checkpoint)

def parseSchedule (text : String) : Except (Fault String) Schedule := do
  let value ← parse text scheduleLimits
  match Schedule.fromValue serde value with
  | none => throw (.error (serde.refusal "Schedule" value))
  | some schedule =>
    if schedule.schema ≠ SCHEMA ∨ schedule.profile ≠ PROFILE ∨ !identityValid schedule.identity ∨
        schedule.steps.length > 65_536 ∨ schedule.steps.any (!stepValid ·) then
      throw (.error "invalid schedule schema, profile, identity or steps")
    if schedule.inputs.render.utf8ByteSize > 65_535 then throw (.error "inputs exceed bound")
    return schedule

def encodeSchedule (schedule : Schedule) : Except (Fault String) String := do
  let _ ← parseSchedule serde schedule.text
  return schedule.text

/-- What the strict reader checks of a schedule. -/
structure Schedule.WellFormed (s : Schedule) : Prop where
  schema : s.schema = SCHEMA
  profile : s.profile = PROFILE
  identity : identityValid s.identity = true
  length : s.steps.length ≤ 65_536
  steps : ∀ step ∈ s.steps, stepValid step = true
  inputs : s.inputs.render.utf8ByteSize ≤ 65_535

variable {serde}

theorem parseSchedule_eq_ok {text : String} {s : Schedule} :
    parseSchedule serde text = .ok s ↔
      (∃ value, parse text scheduleLimits = .ok value ∧
        Schedule.fromValue serde value = some s) ∧ s.WellFormed := by
  unfold parseSchedule
  cases hparse : parse text scheduleLimits with
  | error e => simp [bind, Except.bind]
  | ok value =>
    cases hread : Schedule.fromValue serde value with
    | none => simp [bind, Except.bind, hread, throw, throwThe, MonadExceptOf.throw]
    | some r =>
      simp only [bind, Except.bind, pure, Except.pure, throw, throwThe, MonadExceptOf.throw,
        Except.ok.injEq, exists_eq_left', hread, Option.some.injEq]
      constructor
      · intro h
        split_ifs at h with hchecks hsize
        cases h
        simp only [not_or, not_not, not_lt, Bool.not_eq_true', Bool.not_eq_false,
          List.any_eq_true, not_exists, not_and] at hchecks
        obtain ⟨hschema, hprofile, hidentity, hlength, hsteps⟩ := hchecks
        exact ⟨rfl, hschema, hprofile, hidentity, hlength, hsteps, not_lt.mp hsize⟩
      · rintro ⟨rfl, hschema, hprofile, hidentity, hlength, hsteps, hsize⟩
        rw [if_neg, if_neg (not_lt.mpr hsize)]
        simp only [not_or, not_not, not_lt, Bool.not_eq_true', Bool.not_eq_false,
          List.any_eq_true, not_exists, not_and]
        exact ⟨hschema, hprofile, hidentity, hlength, hsteps⟩

theorem encodeSchedule_eq_ok {s : Schedule} {text : String} :
    encodeSchedule serde s = .ok text ↔
      text = s.text ∧ ∃ r, parseSchedule serde s.text = .ok r := by
  unfold encodeSchedule
  cases parseSchedule serde s.text <;> simp [bind, Except.bind, pure, Except.pure, eq_comm]

variable (serde)

/-! ### Admission -/

/-- The actors that end, when every step is an interval of a live actor up to a declared
checkpoint. -/
def checkSteps (actors checkpoints : List String) : List Step → List String →
    Except String (List String)
  | [], done => .ok done
  | step :: steps, done =>
    if step.actor ∉ actors ∨ step.actor ∈ done then
      .error "unknown actor or interval after completion"
    else if step.checkpoint = COMPLETION then
      checkSteps actors checkpoints steps (step.actor :: done)
    else if step.checkpoint ∉ checkpoints then .error "undeclared checkpoint"
    else checkSteps actors checkpoints steps done

/-- The message of a failure; a panic has its own. -/
def Fault.text : Fault String → String
  | .error e => e
  | .panic message => message

/-- `admit`. -/
def admitSchedule (schedule : Schedule) (adapter : AdapterDeclaration) (policy : Policy) :
    Except (Outcome × String) Unit := do
  let invalid (s : String) : Except (Outcome × String) Unit := throw (.invalidSchedule, s)
  if let .error e := encodeSchedule serde schedule then throw (.invalidSchedule, e.text)
  if schedule.identity ≠ adapter.identity ∨ !identityValid adapter.identity then
    throw (.incompatibleIdentity, "adapter identity differs")
  if policy.maxActors = 0 ∨ policy.maxActors > 64 ∨ policy.maxSteps = 0 ∨
      policy.maxSteps > 65_536 ∨ !budget policy.executionTimeout ∨
      !budget policy.cleanupTimeout then
    invalid "invalid policy bounds"
  if adapter.actors = [] ∨ adapter.actors.length > policy.maxActors ∨
      schedule.steps.length > policy.maxSteps then
    invalid "actor/step bounds exceeded"
  let actors := adapter.actors.map (·.actor)
  let operations := adapter.actors.map (·.operation)
  if !actors.all identifier ∨ !operations.all identifier ∨ ¬ actors.Nodup ∨
      ¬ operations.Nodup then
    invalid "duplicate/invalid actor or operation"
  if !adapter.checkpoints.all identifier ∨ ¬ adapter.checkpoints.Nodup then
    invalid "duplicate/invalid checkpoint"
  match checkSteps actors adapter.checkpoints schedule.steps [] with
  | .error e => invalid e
  | .ok done =>
    if !actors.all (done.contains ·) ∨ !done.all (actors.contains ·) then
      invalid "every actor requires one terminal interval"

end FromValue
end MirrorRust
