import MirrorRust.Schedule
import MirrorRust.JsonSpelling

/-! Schedule artifacts are read back as they were written, except for the inputs that the generic
deserializer changes. -/
namespace MirrorRust

/-! ### The generic deserializer -/

section Kept
variable (serde : Serde)

namespace Json

mutual

/-- No object starts with the number token, and every number keeps its lexeme. -/
def Kept : Json → Prop
  | .number n => serde.visited n = n
  | .array items => KeptItems items
  | .object fields => fields.head?.map Prod.fst ≠ some NUMBER_TOKEN ∧ KeptFields fields
  | _ => True

def KeptItems : List Json → Prop
  | [] => True
  | j :: items => Kept j ∧ KeptItems items

def KeptFields : List (String × Json) → Prop
  | [] => True
  | (_, j) :: fields => Kept j ∧ KeptFields fields

end

end Json

variable {serde}

theorem fromItems_self {items : List Json}
    (ih : ∀ j ∈ items, fromValue serde j = some j ↔ j.Kept serde) :
    fromItems serde items = some items ↔ Json.KeptItems serde items := by
  induction items with
  | nil => simp [fromItems, Json.KeptItems]
  | cons j items ihs =>
    have hj := ih j (by simp)
    have hitems := ihs fun k hk => ih k (by simp [hk])
    rw [Json.KeptItems, ← hj, ← hitems, fromItems]
    cases hjv : fromValue serde j <;> cases hiv : fromItems serde items <;> simp

theorem fromFields_self {fields : List (String × Json)}
    (ih : ∀ p ∈ fields, fromValue serde p.2 = some p.2 ↔ p.2.Kept serde) :
    fromFields serde fields = some fields ↔ Json.KeptFields serde fields := by
  induction fields with
  | nil => simp [fromFields, Json.KeptFields]
  | cons p fields ihs =>
    obtain ⟨key, j⟩ := p
    have hj : fromValue serde j = some j ↔ j.Kept serde := ih (key, j) (by simp)
    have hfields := ihs fun q hq => ih q (by simp [hq])
    rw [Json.KeptFields, ← hj, ← hfields, fromFields]
    cases hjv : fromValue serde j <;> cases hfv : fromFields serde fields <;> simp

/-- An object that starts with the number token does not come back as an object. -/
theorem fromValue_token (item : Json) (fields : List (String × Json)) :
    ∀ others, fromValue serde (.object ((NUMBER_TOKEN, item) :: fields)) ≠
      some (.object others) := by
  intro others h
  rw [fromValue.eq_def] at h
  simp only [if_true] at h
  split at h
  · split_ifs at h
    cases h
  · cases h

theorem fromValue_fields {key : String} {item : Json} {fields : List (String × Json)}
    (hkey : key ≠ NUMBER_TOKEN) : fromValue serde (.object ((key, item) :: fields)) =
      (fromFields serde ((key, item) :: fields)).map .object := by
  rw [fromValue.eq_def, fromFields]
  simp only [if_neg hkey]
  cases fromValue serde item <;> cases fromFields serde fields <;> rfl

/-- The trees that come back from the generic deserializer unchanged. -/
theorem fromValue_self (j : Json) : fromValue serde j = some j ↔ j.Kept serde := by
  induction j with
  | null | bool | string => simp [fromValue, Json.Kept]
  | number n => simp [fromValue, Json.Kept]
  | array items ih =>
    rw [Json.Kept, ← fromItems_self ih, fromValue]
    cases fromItems serde items <;> simp
  | object fields ih =>
    rw [Json.Kept, ← fromFields_self ih]
    cases fields with
    | nil => simp [fromValue, fromFields]
    | cons p fields =>
      obtain ⟨key, item⟩ := p
      by_cases hkey : key = NUMBER_TOKEN
      · subst hkey
        simp only [List.head?_cons, Option.map_some, ne_eq, not_true_eq_false, false_and, iff_false]
        exact fromValue_token item fields _
      · have hhead : ((key, item) :: fields).head?.map Prod.fst ≠ some NUMBER_TOKEN := by
          simpa using hkey
        rw [fromValue_fields hkey]
        cases fromFields serde ((key, item) :: fields) <;> simp [hkey]

end Kept

/-! ### Reading a written record -/

/-- A struct written as an object is read back member by member. -/
theorem readStruct_obj {fields : List (String × Json)} (hnodup : (fields.map Prod.fst).Nodup) :
    readStruct (fields.map Prod.fst) (Json.obj fields) = some (fields.map Prod.snd) := by
  have hmem : ∀ p, p ∈ Assoc.ofList fields ↔ p ∈ fields :=
    Assoc.mem_ofList fun p hp q hq h => List.inj_on_of_nodup_map hnodup hp hq h
  have hget : ∀ p ∈ fields, Assoc.get? p.1 (Assoc.ofList fields) = some p.2 := fun p hp =>
    (Assoc.get?_eq_some (Assoc.ofList_sorted fields)).mpr ((hmem p).mpr hp)
  have hall : ∀ xs : List (String × Json), (∀ p ∈ xs, p ∈ fields) →
      (xs.map Prod.fst).mapM (fun name => Assoc.get? name (Assoc.ofList fields)) =
        some (xs.map Prod.snd) := by
    intro xs hxs
    induction xs with
    | nil => rfl
    | cons p xs ih =>
      have hp := hget p (hxs p (by simp))
      simp [hp, ih fun q hq => hxs q (by simp [hq])]
  have hknown : (Assoc.ofList fields).all (fun p => (fields.map Prod.fst).contains p.1) = true := by
    rw [List.all_eq_true]
    intro p hp
    rw [List.contains_iff_mem]
    exact List.mem_map_of_mem ((hmem p).mp hp)
  rw [Json.obj, readStruct, if_pos hknown]
  exact hall fields fun p hp => hp

theorem identity_fromValue (i : Identity) :
    Identity.fromValue (i.serialize Json.obj) = some i := by
  have h : readStruct ["modelSemanticDigest", "mappingSha256", "implementationSha256"]
      (i.serialize Json.obj) = some _ := readStruct_obj (by simp)
  rw [Identity.fromValue, h]
  rfl

theorem step_fromValue (s : Step) : Step.fromValue (s.serialize Json.obj) = some s := by
  have h : readStruct ["actor", "checkpoint"] (s.serialize Json.obj) = some _ :=
    readStruct_obj (by simp)
  rw [Step.fromValue, h]
  rfl

theorem steps_fromValue (steps : List Step) :
    (steps.map (Step.serialize Json.obj)).mapM Step.fromValue = some steps := by
  induction steps with
  | nil => rfl
  | cons s steps ih => simp [step_fromValue, ih]

variable {serde : Serde}

/-- A written schedule comes back with the inputs as the generic deserializer reads them. -/
theorem schedule_fromValue (s : Schedule) :
    Schedule.fromValue serde s.tree =
      (fromValue serde s.inputs).map fun inputs => { s with inputs := inputs } := by
  have h : readStruct ["schema", "profile", "identity", "inputs", "steps"] s.tree = some _ :=
    readStruct_obj (by simp)
  rw [Schedule.fromValue, h]
  simp only [List.map_cons, List.map_nil, bind, Option.bind, identity_fromValue, steps_fromValue]
  cases fromValue serde s.inputs <;> rfl

/-! ### The round trip -/

theorem denote_steps (steps : List Step) :
    Json.denoteItems (steps.map (Step.serialize .object)) = steps.map (Step.serialize Json.obj) := by
  induction steps with
  | nil => rfl
  | cons s steps ih =>
    rw [List.map_cons, Json.denoteItems, ih]
    rfl

/-- The text of a schedule stands for its tree. -/
theorem denote_schedule {s : Schedule} (hs : s.inputs.Ordered) :
    (s.serialize .object).denote = s.tree := by
  have hinputs := Json.ordered_denote hs
  simp only [Schedule.serialize, Json.denote, Json.denoteFields, Identity.serialize, denote_steps,
    hinputs, Schedule.tree, Json.obj]

theorem tokens_schedule {s : Schedule} (hs : s.inputs.Tokens) : (s.serialize .object).Tokens := by
  have hsteps : Json.TokensItems (s.steps.map (Step.serialize .object)) := by
    rw [Json.tokensItems_iff]
    intro j hj
    obtain ⟨step, -, rfl⟩ := List.mem_map.mp hj
    simp [Step.serialize, Json.Tokens, Json.TokensFields]
  simp [Schedule.serialize, Identity.serialize, Json.Tokens, Json.TokensFields, hs, hsteps]

theorem distinct_schedule {s : Schedule} (hs : s.inputs.Distinct) :
    (s.serialize .object).Distinct := by
  have hsteps : Json.DistinctItems (s.steps.map (Step.serialize .object)) := by
    induction s.steps with
    | nil => trivial
    | cons step steps ih =>
      exact ⟨by simp [Step.serialize, Json.Distinct, Json.DistinctFields], ih⟩
  simp [Schedule.serialize, Identity.serialize, Json.Distinct, Json.DistinctFields, hs, hsteps]

/-- What a written schedule is read back as. -/
theorem encode_read {s : Schedule} {text : String} (hs : s.inputs.IsValue)
    (h : encodeSchedule serde s = .ok text) :
    ∃ inputs, fromValue serde s.inputs = some inputs ∧
      parseSchedule serde text = .ok { s with inputs := inputs } := by
  obtain ⟨rfl, r, hr⟩ := encodeSchedule_eq_ok.mp h
  obtain ⟨⟨value, hparse, hread⟩, -⟩ := parseSchedule_eq_ok.mp hr
  have hvalue : value = s.tree := by
    rw [parse_render (tokens_schedule hs.tokens) hparse, denote_schedule hs.ordered]
  rw [hvalue, schedule_fromValue, Option.map_eq_some_iff] at hread
  obtain ⟨inputs, hinputs, rfl⟩ := hread
  exact ⟨inputs, hinputs, hr⟩

/-- A schedule that was written is read back as itself exactly when the generic deserializer keeps
its inputs. -/
theorem parseSchedule_encode (s : Schedule) (text : String) (hs : s.inputs.IsValue)
    (h : encodeSchedule serde s = .ok text) :
    parseSchedule serde text = .ok s ↔ s.inputs.Kept serde := by
  obtain ⟨inputs, hinputs, hread⟩ := encode_read hs h
  have hsame : ({ s with inputs := inputs } : Schedule) = s ↔ inputs = s.inputs := by
    constructor
    · intro heq
      exact congrArg Schedule.inputs heq
    · rintro rfl
      rfl
  rw [← fromValue_self, hread, hinputs, Except.ok.injEq, Option.some.injEq, hsame]

/-! ### Steps in another order -/

theorem Json.Ordered.distinct {j : Json} (h : j.Ordered) : j.Distinct := by
  induction j with
  | null | bool | number | string => trivial
  | array items ih =>
    have hitems : Json.DistinctItems items := by
      induction items with
      | nil => trivial
      | cons j items ihs => exact ⟨ih j (by simp) h.1, ihs (fun k hk => ih k (by simp [hk])) h.2⟩
    exact hitems
  | object fields ih =>
    obtain ⟨hsorted, hfields⟩ := h
    have hmembers : Json.DistinctFields fields := by
      clear hsorted
      induction fields with
      | nil => trivial
      | cons p fields ihs =>
        exact ⟨ih p (by simp) hfields.1, ihs (fun q hq => ih q (by simp [hq])) hfields.2⟩
    exact ⟨hsorted.imp fun hlt => hlt.ne, hmembers⟩

theorem serialize_perm {s : Schedule} {steps : List Step} (h : steps.Perm s.steps) :
    ({ s with steps := steps }.serialize .object).chars.Perm (s.serialize .object).chars := by
  have hitems : (Json.itemChars true (steps.map (Step.serialize .object))).Perm
      (Json.itemChars true (s.steps.map (Step.serialize .object))) :=
    Json.itemChars_perm (h.map _) true
  refine List.perm_iff_count.mpr fun c => ?_
  have hcount := hitems.count_eq c
  simp only [Schedule.serialize, Json.chars, Json.fieldChars, List.count_append, List.count_cons,
    hcount]

/-- Whether a schedule can be written does not depend on the order of its steps. -/
theorem encodeSchedule_perm {s : Schedule} {steps : List Step} {text : String}
    (hs : s.inputs.IsValue) (hperm : steps.Perm s.steps) (h : encodeSchedule serde s = .ok text) :
    encodeSchedule serde { s with steps := steps } = .ok { s with steps := steps }.text := by
  obtain ⟨rfl, r, hr⟩ := encodeSchedule_eq_ok.mp h
  obtain ⟨⟨value, hparse, hread⟩, hwell⟩ := parseSchedule_eq_ok.mp hr
  have htokens := tokens_schedule hs.tokens
  have hdistinct := distinct_schedule hs.ordered.distinct
  obtain ⟨hfits, hsize⟩ := parse_render_fits htokens hdistinct rfl hparse
  have hvalue : value = s.tree := by rw [parse_render htokens hparse, denote_schedule hs.ordered]
  rw [hvalue, schedule_fromValue, Option.map_eq_some_iff] at hread
  obtain ⟨inputs, hinputs, rfl⟩ := hread
  -- the text of the other schedule is as long, as deep and as large
  let other : Schedule := { s with steps := steps }
  have hsteps : (steps.map (Step.serialize .object)).Perm (s.steps.map (Step.serialize .object)) :=
    hperm.map _
  have hother : (other.serialize .object).Fits scheduleLimits := by
    refine ⟨?_, ?_, fun _ => distinct_schedule (s := other) hs.ordered.distinct⟩
    · have hdepth := hfits.depth
      simp only [Schedule.serialize, Json.depth, Json.depthFields] at hdepth ⊢
      rwa [Json.depthItems_perm hsteps]
    · have hnodes := hfits.nodes
      simp only [Schedule.serialize, Json.nodes, Json.nodesFields] at hnodes ⊢
      rwa [Json.nodesItems_perm hsteps]
  have hbytes : (other.serialize .object).render.utf8ByteSize ≤ scheduleLimits.maxBytes := by
    have hlength := utf8_length_perm (serialize_perm hperm)
    rw [← length_utf8, Json.render, String.toList_ofList] at hsize ⊢
    exact hlength.trans_le hsize
  have hparsed := parse_render_ok (tokens_schedule (s := other) hs.tokens) hother hbytes
  rw [denote_schedule (s := other) hs.ordered] at hparsed
  have hread : Schedule.fromValue serde other.tree = some { other with inputs := inputs } := by
    rw [schedule_fromValue]
    exact congrArg (Option.map _) hinputs
  have hwell' : ({ other with inputs := inputs } : Schedule).WellFormed :=
    ⟨hwell.schema, hwell.profile, hwell.identity, hperm.length_eq.trans_le hwell.length,
      fun t ht => hwell.steps t (hperm.subset ht), hwell.inputs⟩
  exact encodeSchedule_eq_ok.mpr
    ⟨rfl, { other with inputs := inputs }, parseSchedule_eq_ok.mpr ⟨⟨_, hparsed, hread⟩, hwell'⟩⟩

/-! ### A schedule

One actor that stops at a checkpoint and ends, with some inputs. -/

namespace Solo

def identity : Identity :=
  let digest := String.ofList (List.replicate 64 'a')
  { modelSemanticDigest := digest, mappingSha256 := digest, implementationSha256 := digest }

def schedule : Schedule := .new identity .null [⟨"a", "read"⟩, ⟨"a", COMPLETION⟩]

def withInputs (inputs : Json) : Schedule := { schedule with inputs := inputs }

theorem identity_valid : identityValid identity = true := by decide +kernel

/-- The schedule is short, its inputs are read back as `read`, and its steps are valid. -/
abbrev Brief (serde : Serde) (inputs read : Json) (steps : List Step) : Prop :=
  ((Schedule.new identity inputs steps).serialize .object).chars.length ≤ 1_000 ∧
    fromValue serde inputs = some read ∧ read.chars.length ≤ 1_000 ∧
    steps.length ≤ 65_536 ∧ ∀ step ∈ steps, stepValid step = true

/-- A short schedule of this identity can be written. -/
theorem new_encodes {serde : Serde} {inputs read : Json} {steps : List Step}
    (hvalue : inputs.IsValue)
    (hfits : ((Schedule.new identity inputs steps).serialize .object).Fits scheduleLimits)
    (hbrief : Brief serde inputs read steps) :
    encodeSchedule serde (.new identity inputs steps) =
      .ok (Schedule.new identity inputs steps).text := by
  obtain ⟨hlength, hread, hbound, hsteps, hvalid⟩ := hbrief
  have hsize : (Schedule.new identity inputs steps).text.utf8ByteSize ≤ scheduleLimits.maxBytes := by
    have hbytes := utf8ByteSize_le ((Schedule.new identity inputs steps).serialize .object).chars
    have hmax : 4_000 ≤ scheduleLimits.maxBytes := by decide
    rw [Schedule.text, Json.render]
    omega
  have hparse := parse_render_ok (tokens_schedule (s := .new identity inputs steps) hvalue.tokens)
    hfits hsize
  rw [denote_schedule (s := .new identity inputs steps) hvalue.ordered] at hparse
  have hschedule : Schedule.fromValue serde (Schedule.new identity inputs steps).tree =
      some (.new identity read steps) := by
    rw [schedule_fromValue]
    exact congrArg (Option.map _) hread
  have hwell : (Schedule.new identity read steps).WellFormed :=
    ⟨rfl, rfl, identity_valid, hsteps, hvalid, (utf8ByteSize_le read.chars).trans (by omega)⟩
  exact encodeSchedule_eq_ok.mpr
    ⟨rfl, .new identity read steps, parseSchedule_eq_ok.mpr ⟨⟨_, hparse, hschedule⟩, hwell⟩⟩

theorem encodes : encodeSchedule .plain schedule = .ok schedule.text :=
  @new_encodes _ .null .null _ ⟨trivial, trivial⟩
    ⟨by decide, by decide, fun _ => distinct_schedule trivial⟩ (by decide +kernel)

/-- Inputs the generic deserializer keeps. -/
def kept : Json := .object [("limit", .string "3")]

/-- Inputs it reads as a number. -/
def tokenKey : Json := .object [(NUMBER_TOKEN, .string "1")]

theorem isValue_member (key s : String) : (Json.object [(key, .string s)]).IsValue :=
  ⟨⟨trivial, trivial⟩, List.pairwise_singleton _ _, trivial, trivial⟩

theorem distinct_member (key s : String) : (Json.object [(key, .string s)]).Distinct :=
  ⟨List.nodup_singleton _, trivial, trivial⟩

theorem kept_encodes : encodeSchedule .plain (withInputs kept) = .ok (withInputs kept).text :=
  @new_encodes _ kept kept _ (isValue_member _ _)
    ⟨by decide, by decide, fun _ => distinct_schedule (distinct_member _ _)⟩ (by decide +kernel)

theorem tokenKey_encodes :
    encodeSchedule .plain (withInputs tokenKey) = .ok (withInputs tokenKey).text :=
  @new_encodes _ tokenKey (.number "1") _ (isValue_member _ _)
    ⟨by decide, by decide, fun _ => distinct_schedule (distinct_member _ _)⟩ (by decide +kernel)

end Solo

/-! ### Exponents

An exponent without a sign gets one when `serde_json` parses its lexeme. -/

namespace Exponent

/-- The flag says that the character before is the mark of an exponent. -/
def sign : Bool → List Char → List Char
  | _, [] => []
  | marked, c :: cs =>
    if marked && c.isDigit then '+' :: c :: sign false cs
    else c :: sign (c == 'e' || c == 'E') cs

theorem not_mark {c : Char} (h : c.isDigit = true) : (c == 'e' || c == 'E') = false := by
  have hne : ∀ d : Char, d.isDigit = false → (c == d) = false := by
    intro d hd
    rw [beq_eq_false_iff_ne]
    rintro rfl
    exact Bool.false_ne_true (hd.symm.trans h)
  rw [hne 'e' (by decide), hne 'E' (by decide)]
  rfl

theorem sign_sign (marked : Bool) (cs : List Char) : sign marked (sign marked cs) = sign marked cs := by
  induction cs generalizing marked with
  | nil => rfl
  | cons c cs ih =>
    rw [sign]
    split_ifs with h
    · have hdigit : c.isDigit = true := (Bool.and_eq_true_iff.mp h).2
      have hplus : (marked && Char.isDigit '+') = false := Bool.and_false marked
      simp only [sign, hplus, Bool.false_eq_true, if_false, Bool.false_and, not_mark hdigit, ih]
      rfl
    · simp only [sign, h, Bool.false_eq_true, if_false, ih]

theorem sign_digits {cs : List Char} (h : ∀ c ∈ cs, c.isDigit = true) : sign false cs = cs := by
  induction cs with
  | nil => rfl
  | cons c cs ih =>
    obtain ⟨hc, hcs⟩ := List.forall_mem_cons.mp h
    rw [sign, Bool.false_and, if_neg Bool.false_ne_true, not_mark hc, ih hcs]

def signing : Serde where
  visited := id
  parsed n := String.ofList (sign false n.toList)
  refusal _ _ := ""
  parsed_parsed n := by rw [String.toList_ofList, sign_sign]
  parsed_nat n := by
    rw [Nat.toString_eq_ofList_toDigits, String.toList_ofList, sign_digits]
    exact fun c hc => Nat.isDigit_of_mem_toDigits (by decide) (by decide) hc

/-- Two lexemes of one number. -/
def inputs : List Json := [.number "1e5", .number "1e+5"]

theorem isValue_inputs : ∀ input ∈ inputs, input.IsValue := by
  have hdigits : Digits ['1'] ∧ Digits ['5'] :=
    ⟨⟨List.cons_ne_nil _ _, by simp⟩, List.cons_ne_nil _ _, by simp⟩
  have hvalue : ∀ mark, mark = [] ∨ mark = ['+'] →
      (Json.number (String.ofList ('1' :: 'e' :: mark ++ ['5']))).IsValue := by
    intro mark hmark
    refine ⟨?_, trivial⟩
    show IsNumberToken (String.ofList _).toList
    rw [String.toList_ofList]
    exact ⟨[], ['1'], [], 'e' :: (mark ++ ['5']), rfl, Or.inl rfl, Or.inr ⟨hdigits.1, by simp⟩,
      Or.inl rfl, Or.inr ⟨'e', mark, ['5'], rfl, Or.inl rfl, hmark.imp_right Or.inl, hdigits.2⟩⟩
  exact List.forall_mem_cons.mpr ⟨hvalue [] (Or.inl rfl),
    List.forall_mem_singleton.mpr (hvalue ['+'] (Or.inr rfl))⟩

/-- A short schedule can be written with either of them. -/
theorem new_encodes {steps : List Step}
    (hfits : ∀ n, ((Schedule.new Solo.identity (.number n) steps).serialize .object).Fits
      scheduleLimits)
    (hbrief : ∀ input ∈ inputs, Solo.Brief signing input input steps) :
    ∀ input ∈ inputs, encodeSchedule signing (.new Solo.identity input steps) =
      .ok (Schedule.new Solo.identity input steps).text := by
  intro input hinput
  obtain ⟨n, rfl⟩ : ∃ n, input = .number n := by
    simp only [inputs, List.mem_cons, List.not_mem_nil, or_false] at hinput
    rcases hinput with rfl | rfl
    · exact ⟨_, rfl⟩
    · exact ⟨_, rfl⟩
  exact Solo.new_encodes (isValue_inputs _ hinput) (hfits n) (hbrief _ hinput)

end Exponent

theorem parseSchedule_encode_kept :
    parseSchedule .plain (Solo.withInputs Solo.kept).text = .ok (Solo.withInputs Solo.kept) ↔
      Solo.kept.Kept .plain :=
  parseSchedule_encode _ _ (Solo.isValue_member _ _) Solo.kept_encodes

theorem parseSchedule_encode_tokenKey :
    encodeSchedule .plain (Solo.withInputs Solo.tokenKey) = .ok (Solo.withInputs Solo.tokenKey).text ∧
      parseSchedule .plain (Solo.withInputs Solo.tokenKey).text ≠ .ok (Solo.withInputs Solo.tokenKey) := by
  refine ⟨Solo.tokenKey_encodes, ?_⟩
  obtain ⟨inputs, hinputs, hread⟩ := encode_read (Solo.isValue_member _ _) Solo.tokenKey_encodes
  have hnumber : fromValue .plain (Solo.withInputs Solo.tokenKey).inputs = some (.number "1") := rfl
  rw [hread]
  intro heq
  have hsame : inputs = Solo.tokenKey := congrArg Schedule.inputs (Except.ok.inj heq)
  rw [hnumber, hsame] at hinputs
  cases hinputs

end MirrorRust
