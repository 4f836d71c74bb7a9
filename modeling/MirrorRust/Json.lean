import MirrorRust.Foundation.OrderedMap

/-! JSON trees as `serde_json::Value` holds them with `arbitrary_precision`:
numbers keep their lexeme, and the members of an object are in key order. -/
namespace MirrorRust

inductive Json
  | null
  | bool (b : Bool)
  | number (lexeme : String)
  | string (s : String)
  | array (items : List Json)
  | object (fields : List (String × Json))
  deriving Inhabited

namespace Json

/-- Induction over trees, with one hypothesis for each element or member. -/
@[induction_eliminator]
theorem induct {P : Json → Prop} (null : P .null) (bool : ∀ b, P (.bool b))
    (number : ∀ n, P (.number n)) (string : ∀ s, P (.string s))
    (array : ∀ items, (∀ j ∈ items, P j) → P (.array items))
    (object : ∀ fields, (∀ p ∈ fields, P p.2) → P (.object fields)) (j : Json) : P j :=
  @Json.rec P (fun items => ∀ j ∈ items, P j) (fun fields => ∀ p ∈ fields, P p.2) (fun p => P p.2)
    null bool number string array object
    (by simp) (fun _ _ h hs => by simpa using ⟨h, hs⟩)
    (by simp) (fun _ _ h hs => List.forall_mem_cons.mpr ⟨h, hs⟩) (fun _ _ h => h) j

mutual

def decEq : (i j : Json) → Decidable (i = j)
  | .null, .null => isTrue rfl
  | .bool a, .bool b => decidable_of_iff (a = b) (by simp)
  | .number a, .number b => decidable_of_iff (a = b) (by simp)
  | .string a, .string b => decidable_of_iff (a = b) (by simp)
  | .array a, .array b => have := decEqItems a b; decidable_of_iff (a = b) (by simp)
  | .object a, .object b => have := decEqFields a b; decidable_of_iff (a = b) (by simp)
  | .null, .bool _ | .null, .number _ | .null, .string _ | .null, .array _ | .null, .object _
  | .bool _, .null | .bool _, .number _ | .bool _, .string _ | .bool _, .array _ | .bool _, .object _
  | .number _, .null | .number _, .bool _ | .number _, .string _ | .number _, .array _
  | .number _, .object _
  | .string _, .null | .string _, .bool _ | .string _, .number _ | .string _, .array _
  | .string _, .object _
  | .array _, .null | .array _, .bool _ | .array _, .number _ | .array _, .string _
  | .array _, .object _
  | .object _, .null | .object _, .bool _ | .object _, .number _ | .object _, .string _
  | .object _, .array _ => isFalse nofun

def decEqItems : (a b : List Json) → Decidable (a = b)
  | [], [] => isTrue rfl
  | [], _ :: _ | _ :: _, [] => isFalse nofun
  | i :: a, j :: b =>
    have := decEq i j
    have := decEqItems a b
    decidable_of_iff (i = j ∧ a = b) (by simp)

def decEqFields : (a b : List (String × Json)) → Decidable (a = b)
  | [], [] => isTrue rfl
  | [], _ :: _ | _ :: _, [] => isFalse nofun
  | (k, i) :: a, (l, j) :: b =>
    have := decEq i j
    have := decEqFields a b
    decidable_of_iff (k = l ∧ i = j ∧ a = b) (by simp [and_assoc])

end

instance : DecidableEq Json := decEq

/-! ### Reading a tree -/

/-- `value[key]`: the member, or null when there is none. -/
def index (j : Json) (key : String) : Json :=
  match j with
  | .object fields => (Assoc.get? key fields).getD .null
  | _ => .null

def asBool : Json → Option Bool
  | .bool b => some b
  | _ => none

def asStr : Json → Option String
  | .string s => some s
  | _ => none

def asArray : Json → Option (List Json)
  | .array items => some items
  | _ => none

def asObject : Json → Option (List (String × Json))
  | .object fields => some fields
  | _ => none

def isNull : Json → Bool
  | .null => true
  | _ => false

/-- `str::parse` for an unsigned integer below `bound`: an optional plus sign and digits. -/
def parseUnsigned (bound : Nat) (s : String) : Option Nat :=
  let digits := match s.toList with
    | '+' :: cs => cs
    | cs => cs
  if digits.isEmpty || !digits.all Char.isDigit then none
  else
    let n := Nat.ofDigitChars 10 digits 0
    if n < bound then some n else none

def asU64 : Json → Option Nat
  | .number n => parseUnsigned (2 ^ 64) n
  | _ => none

/-! ### Building a tree -/

/-- An object literal; the members are put in key order. -/
def obj (fields : List (String × Json)) : Json := .object (Assoc.ofList fields)

def ofNat (n : Nat) : Json := .number (toString n)

/-- `value[key] = item` on an object. -/
def set (j : Json) (key : String) (item : Json) : Json :=
  match j with
  | .object fields => .object (Assoc.insert key item fields)
  | j => j

@[simp] theorem obj_singleton (key : String) (j : Json) : obj [(key, j)] = .object [(key, j)] := rfl

theorem obj_tag_value (i j : Json) :
    obj [("tag", i), ("value", j)] = .object [("tag", i), ("value", j)] :=
  congrArg Json.object
    (Assoc.ofList_of_sorted (List.pairwise_pair.mpr (show "tag" < "value" by decide)))

@[simp] theorem index_obj (fields : List (String × Json)) (key : String) :
    (obj fields).index key = (Assoc.get? key fields.reverse).getD .null := by
  simp only [obj, index, Assoc.get?_ofList]

/-! ### Compact text -/

/-- How a character is written inside a string token. -/
def escape (c : Char) : List Char :=
  if c = '\"' then ['\\', '\"']
  else if c = '\\' then ['\\', '\\']
  else if c.toNat < 0x20 then
    match c.toNat with
    | 0x08 => ['\\', 'b']
    | 0x09 => ['\\', 't']
    | 0x0a => ['\\', 'n']
    | 0x0c => ['\\', 'f']
    | 0x0d => ['\\', 'r']
    | n => ['\\', 'u', '0', '0', Nat.digitChar (n / 16), Nat.digitChar (n % 16)]
  else [c]

def quoted (s : String) : List Char := '\"' :: (s.toList.flatMap escape ++ ['\"'])

mutual

def chars : Json → List Char
  | .null => ['n', 'u', 'l', 'l']
  | .bool true => ['t', 'r', 'u', 'e']
  | .bool false => ['f', 'a', 'l', 's', 'e']
  | .number n => n.toList
  | .string s => quoted s
  | .array items => '[' :: itemChars true items
  | .object fields => '{' :: fieldChars true fields

def itemChars (first : Bool) : List Json → List Char
  | [] => [']']
  | j :: items => (if first then [] else [',']) ++ (chars j ++ itemChars false items)

def fieldChars (first : Bool) : List (String × Json) → List Char
  | [] => ['}']
  | (k, j) :: fields =>
    (if first then [] else [',']) ++ (quoted k ++ ':' :: (chars j ++ fieldChars false fields))

end

/-- `to_string`. -/
def render (j : Json) : String := String.ofList (chars j)

end Json
end MirrorRust
