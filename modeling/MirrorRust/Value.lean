import MirrorRust.Json
import MirrorRust.Foundation.Outcome

/-! Tagged ITF values and their clean JSON form: the encoder used by reported
states and the decoder used by every message of the mirror. -/
namespace MirrorRust

/-- The tagged representation of a model value. -/
inductive Value
  | int (n : ℤ)
  | bool (b : Bool)
  | str (s : String)
  | set (items : List Value)
  | seq (items : List Value)
  | tuple (items : List Value)
  | map (entries : List (Value × Value))
  | record (fields : List (String × Value))
  | variant (tag : String) (value : Value)
  | unserializable (s : String)
  | null
  deriving Inhabited

/-- A state map: field name to tagged value, in key order. -/
abbrev State := List (String × Value)

inductive PathSegment
  | field (name : String)
  | index (i : ℕ)

inductive DiffHint
  | valueMismatch (path : List PathSegment) (expected actual : Value)
  | missing (path : List PathSegment) (expected : Value)
  | extra (path : List PathSegment) (actual : Value)
  | missingElem (path : List PathSegment) (expected : Value)
  | extraElem (path : List PathSegment) (actual : Value)
  | typeMismatch (path : List PathSegment) (expected actual : Value)
  | truncated (path : List PathSegment)

inductive Error
  | specInvalid (detail : String)
  | protocolError (message : String)
  | registerFailed (message : String)
  | stepMismatch (action : String) (params expected actual : State) (hints : List DiffHint)
  | unexpectedMessage (message : String)
  | invalidArgument (message : String)
  | specSource (message : String)
  | transportClosed
  | tls (message : String)
  | registry (message : String)
  | io (message : String)
  | json (message : String)

namespace Value

/-- Induction over values, with one hypothesis for each part. -/
@[induction_eliminator]
theorem induct {P : Value → Prop} (int : ∀ n, P (.int n)) (bool : ∀ b, P (.bool b))
    (str : ∀ s, P (.str s)) (set : ∀ items, (∀ v ∈ items, P v) → P (.set items))
    (seq : ∀ items, (∀ v ∈ items, P v) → P (.seq items))
    (tuple : ∀ items, (∀ v ∈ items, P v) → P (.tuple items))
    (map : ∀ entries, (∀ p ∈ entries, P p.1 ∧ P p.2) → P (.map entries))
    (record : ∀ fields, (∀ p ∈ fields, P p.2) → P (.record fields))
    (variant : ∀ tag v, P v → P (.variant tag v))
    (unserializable : ∀ s, P (.unserializable s)) (null : P .null) (v : Value) : P v :=
  @Value.rec P (fun items => ∀ v ∈ items, P v) (fun entries => ∀ p ∈ entries, P p.1 ∧ P p.2)
    (fun fields => ∀ p ∈ fields, P p.2) (fun p => P p.1 ∧ P p.2) (fun p => P p.2)
    int bool str set seq tuple map record variant unserializable null
    (by simp) (fun _ _ h hs => List.forall_mem_cons.mpr ⟨h, hs⟩)
    (by simp) (fun _ _ h hs => List.forall_mem_cons.mpr ⟨h, hs⟩)
    (by simp) (fun _ _ h hs => List.forall_mem_cons.mpr ⟨h, hs⟩)
    (fun _ _ h h' => ⟨h, h'⟩) (fun _ _ h => h) v

end Value

/-! ### Numbers -/

/-- `BigInt::from_str`: an optional sign, then digits that may be separated by underscores. -/
def parseBigInt (s : String) : Option ℤ :=
  let (negative, rest) := match s.toList with
    | '-' :: '+' :: cs => (true, '-' :: '+' :: cs)
    | '-' :: cs => (true, cs)
    | cs => (false, cs)
  let rest := match rest with
    | '+' :: '+' :: cs => '+' :: '+' :: cs
    | '+' :: cs => cs
    | cs => cs
  if rest.isEmpty || rest.head? == some '_' || !rest.all (fun c => c.isDigit || c == '_') then none
  else
    let n := Nat.ofDigitChars 10 (rest.filter (· != '_')) 0
    some (if negative then -(n : ℤ) else n)

/-- `i64::from_str`. -/
def parseI64 (s : List Char) : Option ℤ :=
  let (negative, digits) := match s with
    | '-' :: cs => (true, cs)
    | '+' :: cs => (false, cs)
    | cs => (false, cs)
  if digits.isEmpty || !digits.all Char.isDigit then none
  else
    let n : ℤ := Nat.ofDigitChars 10 digits 0
    let z := if negative then -n else n
    if -2 ^ 63 ≤ z ∧ z < 2 ^ 63 then some z else none

def splitOnce (p : Char → Bool) (s : List Char) : Option (List Char × List Char) :=
  match s.dropWhile (fun c => !p c) with
  | [] => none
  | _ :: rest => some (s.takeWhile (fun c => !p c), rest)

def invalidValue (message : String) : Fault Error :=
  .error (.protocolError ("invalid ITF value: " ++ message))

/-- A bare number as an integer. Overflow checks are on: an out-of-range difference or
negation panics, as does a request for zeros that ends above `isize::MAX` bytes. An allocation that
fails below that bound, or for the sign that `format!` puts in front, is outside the model. -/
def numberToBigint (n : String) : Except (Fault Error) ℤ := do
  let (negative, unsigned) := match n.toList with
    | '-' :: rest => (true, rest)
    | cs => (false, cs)
  let (mantissa, exponent) ← match splitOnce (fun c => c == 'e' || c == 'E') unsigned with
    | some (m, e) =>
      match parseI64 e with
      | some z => .ok (m, z)
      | none => .error (invalidValue "bad number exponent")
    | none => .ok (unsigned, 0)
  let (whole, fraction) := (splitOnce (· == '.') mantissa).getD (mantissa, [])
  let digits := whole ++ fraction
  let scale : ℤ := exponent - fraction.length
  if scale < -2 ^ 63 then .error (.panic "attempt to subtract with overflow")
  let digits ←
    if 0 ≤ scale then
      if digits.length + scale.toNat ≥ 2 ^ 63 then .error (.panic "capacity overflow")
      else .ok (digits ++ List.replicate scale.toNat '0')
    else if scale = -2 ^ 63 then .error (.panic "attempt to negate with overflow")
    else
      let remove := (-scale).toNat
      if remove > digits.length || !(digits.drop (digits.length - remove)).all (· == '0') then
        .error (invalidValue "bare JSON number not in ITF integral grammar")
      else
        let kept := digits.take (digits.length - remove)
        .ok (if kept.isEmpty then ['0'] else kept)
  match parseBigInt (String.ofList (if negative then '-' :: digits else digits)) with
  | some z => .ok z
  | none => .error (invalidValue "malformed bare JSON integer")

/-! ### Encoding -/

mutual

def encodeValue : Value → Json
  | .int n => Json.obj [("#bigint", .string (toString n))]
  | .bool b => .bool b
  | .str s => .string s
  | .set items => Json.obj [("#set", .array (encodeItems items))]
  | .seq items => .array (encodeItems items)
  | .tuple items => Json.obj [("#tup", .array (encodeItems items))]
  | .map entries => Json.obj [("#map", .array (encodeEntries entries))]
  | .record fields => Json.obj (encodeFields fields)
  | .variant tag v => Json.obj [("tag", .string tag), ("value", encodeValue v)]
  | .unserializable s => Json.obj [("#unserializable", .string s)]
  | .null => .null

def encodeItems : List Value → List Json
  | [] => []
  | v :: items => encodeValue v :: encodeItems items

def encodeEntries : List (Value × Value) → List Json
  | [] => []
  | (k, v) :: entries => .array [encodeValue k, encodeValue v] :: encodeEntries entries

def encodeFields : List (String × Value) → List (String × Json)
  | [] => []
  | (k, v) :: fields => (k, encodeValue v) :: encodeFields fields

end

def encodeState (state : State) : Json := Json.obj (encodeFields state)

/-! ### Decoding -/

def debugControl (c : Char) : List Char :=
  ['\\', 'u', '\x7b'] ++ Nat.toDigits 16 c.toNat ++ ['\x7d']

/-- `{:?}` of a string. Control characters are escaped; the other characters that Rust finds
unprintable (combining, private and unassigned ones) are written as they are here. -/
def debugStr (s : String) : String :=
  String.ofList ('\"' :: (s.toList.flatMap fun c =>
    if c = '\"' then ['\\', '\"']
    else if c = '\\' then ['\\', '\\']
    else if c = '\n' then ['\\', 'n']
    else if c = '\r' then ['\\', 'r']
    else if c = '\t' then ['\\', 't']
    else if c.toNat = 0 then ['\\', '0']
    else if c.toNat < 0x20 ∨ 0x7f ≤ c.toNat ∧ c.toNat < 0xa0 then debugControl c
    else [c]) ++ ['\"'])

mutual

/-- Decode ITF JSON. A marker object has exactly one member, of the marker's payload
type, or exactly the members `tag` and `value`; every other object is a record. -/
def walk : Json → Except (Fault Error) Value
  | .null => .ok .null
  | .bool b => .ok (.bool b)
  | .string s => .ok (.str s)
  | .number n => do .ok (.int (← numberToBigint n))
  | .array items => do .ok (.seq (← walkItems items))
  | .object [(key, .string raw)] =>
    if key = "#bigint" then
      if raw = "" then .ok .null
      else match parseBigInt raw with
        | some n => .ok (.int n)
        | none => .error (invalidValue ("malformed #bigint " ++ debugStr raw))
    else if key = "#unserializable" then .ok (.unserializable raw)
    else .ok (.record [(key, .str raw)])
  | .object [(key, .array items)] =>
    if key = "#tup" then do .ok (.tuple (← walkItems items))
    else if key = "#set" then do .ok (.set (← walkItems items))
    else if key = "#map" then do .ok (.map (← walkEntries items))
    else do .ok (.record [(key, .seq (← walkItems items))])
  | .object [(k, t), (l, w)] =>
    if k = "tag" ∧ l = "value" then
      match t with
      | .string tag => do .ok (.variant tag (← walk w))
      | _ => .error (invalidValue "variant tag must be a string")
    else do .ok (.record (Assoc.ofList [(k, ← walk t), (l, ← walk w)]))
  | .object fields => do .ok (.record (Assoc.ofList (← walkFields fields)))

def walkItems : List Json → Except (Fault Error) (List Value)
  | [] => .ok []
  | j :: items => do
    let v ← walk j
    .ok (v :: (← walkItems items))

def walkEntries : List Json → Except (Fault Error) (List (Value × Value))
  | [] => .ok []
  | .array [k, v] :: entries => do
    let key ← walk k
    let value ← walk v
    .ok ((key, value) :: (← walkEntries entries))
  | .array _ :: _ => .error (invalidValue "#map entry must have exactly two elements")
  | _ :: _ => .error (invalidValue "#map entry must be a two-element array")

def walkFields : List (String × Json) → Except (Fault Error) (List (String × Value))
  | [] => .ok []
  | (k, j) :: fields => do
    let v ← walk j
    .ok ((k, v) :: (← walkFields fields))

end

end MirrorRust
