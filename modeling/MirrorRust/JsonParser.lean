import MirrorRust.Json
import MirrorRust.Foundation.Outcome
import MirrorRust.Foundation.Utf8

/-! The bounded JSON parser. It walks the UTF-8 bytes of the text with a cursor and
cuts tokens out of the text; a cut inside a character panics. -/
namespace MirrorRust

/-! ### UTF-8 text -/

/-- The text after the first `n` bytes, when they end at a character boundary. -/
def dropBytes : List Char → ℕ → Option (List Char)
  | cs, 0 => some cs
  | [], _ + 1 => none
  | c :: cs, n + 1 => if c.utf8Size ≤ n + 1 then dropBytes cs (n + 1 - c.utf8Size) else none

/-- The first `n` bytes of the text, when they end at a character boundary. -/
def takeBytes : List Char → ℕ → Option (List Char)
  | _, 0 => some []
  | [], _ + 1 => none
  | c :: cs, n + 1 =>
    if c.utf8Size ≤ n + 1 then (takeBytes cs (n + 1 - c.utf8Size)).map (c :: ·) else none

/-- `&text[start..stop]`. -/
def slice (text : List Char) (start stop : ℕ) : Option (List Char) :=
  if start ≤ stop then (dropBytes text start).bind fun rest => takeBytes rest (stop - start)
  else none

/-! ### String tokens -/

def hexValue (c : Char) : Option ℕ :=
  if c.isDigit then some (c.toNat - '0'.toNat)
  else if 'a' ≤ c ∧ c ≤ 'f' then some (c.toNat - 'a'.toNat + 10)
  else if 'A' ≤ c ∧ c ≤ 'F' then some (c.toNat - 'A'.toNat + 10)
  else none

def hex4 (a b c d : Char) : Option ℕ := do
  return (((← hexValue a) * 16 + (← hexValue b)) * 16 + (← hexValue c)) * 16 + (← hexValue d)

/-- The character of a one letter escape. -/
def unescape : Char → Option Char
  | '\"' => some '\"'
  | '\\' => some '\\'
  | '/' => some '/'
  | 'b' => some '\x08'
  | 'f' => some '\x0c'
  | 'n' => some '\n'
  | 'r' => some '\r'
  | 't' => some '\t'
  | _ => none

def isHighSurrogate (n : ℕ) : Bool := 0xd800 ≤ n && n < 0xdc00

def isLowSurrogate (n : ℕ) : Bool := 0xdc00 ≤ n && n < 0xe000

/-- The content of a string token up to its closing quote, which must be the last character. -/
def decodeContent : List Char → Option (List Char)
  | [] => none
  | '\"' :: rest => if rest = [] then some [] else none
  | '\\' :: 'u' :: a :: b :: c :: d :: rest => do
    let high ← hex4 a b c d
    if isLowSurrogate high then none
    else if isHighSurrogate high then
      match rest with
      | '\\' :: 'u' :: e :: f :: g :: h :: rest => do
        let low ← hex4 e f g h
        if isLowSurrogate low then
          let n := 0x10000 + (high - 0xd800) * 0x400 + (low - 0xdc00)
          (decodeContent rest).map (Char.ofNat n :: ·)
        else none
      | _ => none
    else (decodeContent rest).map (Char.ofNat high :: ·)
  | '\\' :: e :: rest => do
    let c ← unescape e
    (decodeContent rest).map (c :: ·)
  | c :: rest => if c.toNat < 0x20 ∨ c = '\\' then none else (decodeContent rest).map (c :: ·)

/-- `serde_json::from_str` on a quoted token. -/
def decodeToken : List Char → Option String
  | '\"' :: content => (decodeContent content).map String.ofList
  | _ => none

/-! ### The parser -/

structure Limits where
  maxBytes : ℕ
  maxDepth : ℕ
  maxNodes : ℕ
  rejectDuplicateKeys : Bool

structure Parser where
  text : List Char
  cursor : ℕ
  nodes : ℕ
  limits : Limits

abbrev Parse := StateT Parser (Except (Fault String))

namespace Parser

/-- `self.text.as_bytes().get(self.at)`. -/
def peek : Parse (Option UInt8) := do
  let p ← get
  return (utf8 p.text)[p.cursor]?

def bump (n : ℕ) : Parse Unit := modify fun p => { p with cursor := p.cursor + n }

def error {α : Type} (message : String) : Parse α := do
  let p ← get
  throw (.error ("JSON decode failed at byte " ++ toString p.cursor ++ ": " ++ message))

def cut (start stop : ℕ) : Parse (List Char) := do
  let p ← get
  match slice p.text start stop with
  | some token => return token
  | none => throw (.panic "byte index is not a char boundary")

/-- Move over the bytes that satisfy `f`. -/
def skipWhile (f : UInt8 → Bool) : Parse Unit :=
  modify fun p =>
    { p with cursor := p.cursor + (((utf8 p.text).drop p.cursor).takeWhile f).length }

def isSpace (b : UInt8) : Bool := b == 0x20 || b == 0x09 || b == 0x0d || b == 0x0a

def isDigit (b : UInt8) : Bool := 0x30 ≤ b && b ≤ 0x39

def skipWs : Parse Unit := skipWhile isSpace

/-- Where the string content stops: at its closing quote, or at an error. -/
def scanString : List UInt8 → ℕ → Except (ℕ × String) ℕ
  | [], cursor => .error (cursor, "unterminated string")
  | byte :: bytes, cursor =>
    if byte = 0x22 then .ok (cursor + 1)
    else if byte = 0x5c then
      match bytes with
      | [] => .error (cursor + 1, "unterminated string")
      | _ :: bytes => scanString bytes (cursor + 2)
    else if byte ≤ 0x1f then .error (cursor, "unescaped control character in string")
    else scanString bytes (cursor + 1)

def string : Parse String := do
  let start := (← get).cursor
  bump 1
  let p ← get
  match scanString ((utf8 p.text).drop p.cursor) p.cursor with
  | .error (cursor, message) =>
    set { p with cursor := cursor }
    error message
  | .ok cursor =>
    set { p with cursor := cursor }
    match decodeToken (← cut start cursor) with
    | some s => return s
    | none => error "invalid string token"

def digits (message : String) : Parse Unit := do
  match ← peek with
  | some b => if isDigit b then skipWhile isDigit else error message
  | none => error message

def number : Parse Json := do
  let start := (← get).cursor
  if (← peek) = some 0x2d then bump 1
  match ← peek with
  | some 0x30 =>
    bump 1
    match ← peek with
    | some b => if isDigit b then error "invalid number integer part"
    | none => pure ()
  | _ => digits "invalid number integer part"
  if (← peek) = some 0x2e then
    bump 1
    digits "fraction requires at least one digit"
  if (← peek) = some 0x65 ∨ (← peek) = some 0x45 then
    bump 1
    if (← peek) = some 0x2b ∨ (← peek) = some 0x2d then bump 1
    digits "exponent requires at least one digit"
  let p ← get
  return .number (String.ofList (← cut start p.cursor))

def literal (word : String) : Parse Unit := do
  let p ← get
  match dropBytes p.text p.cursor with
  | none => throw (.panic "byte index is not a char boundary")
  | some rest =>
    if word.toList.isPrefixOf rest then bump word.utf8ByteSize
    else error ("expected '" ++ word ++ "'")

def enter (depth : ℕ) : Parse Unit := do
  let p ← get
  if depth ≥ p.limits.maxDepth then error ("JSON nesting exceeds " ++ toString p.limits.maxDepth)

mutual

def value (fuel depth : ℕ) : Parse Json :=
  match fuel with
  | 0 => throw (.panic "recursion bound")
  | fuel + 1 => do
    skipWs
    modify fun p => { p with nodes := p.nodes + 1 }
    let p ← get
    if p.nodes > p.limits.maxNodes then error ("JSON nodes exceed " ++ toString p.limits.maxNodes)
    match ← peek with
    | some 0x7b =>
      enter depth
      object fuel (depth + 1)
    | some 0x5b =>
      enter depth
      array fuel (depth + 1)
    | some 0x22 => return .string (← string)
    | some 0x74 =>
      literal "true"
      return .bool true
    | some 0x66 =>
      literal "false"
      return .bool false
    | some 0x6e =>
      literal "null"
      return .null
    | some b => if b = 0x2d ∨ isDigit b then number else error "expected a JSON value"
    | none => error "expected a JSON value"

def array (fuel depth : ℕ) : Parse Json :=
  match fuel with
  | 0 => throw (.panic "recursion bound")
  | fuel + 1 => do
    bump 1
    skipWs
    if (← peek) = some 0x5d then
      bump 1
      return .array []
    elements fuel depth []

/-- The loop of `array`, with the values so far in reverse. -/
def elements (fuel depth : ℕ) (values : List Json) : Parse Json :=
  match fuel with
  | 0 => throw (.panic "recursion bound")
  | fuel + 1 => do
    let values := (← value fuel depth) :: values
    skipWs
    match ← peek with
    | some 0x2c =>
      bump 1
      elements fuel depth values
    | some 0x5d =>
      bump 1
      return .array values.reverse
    | _ => error "expected ',' or ']'"

def object (fuel depth : ℕ) : Parse Json :=
  match fuel with
  | 0 => throw (.panic "recursion bound")
  | fuel + 1 => do
    bump 1
    skipWs
    if (← peek) = some 0x7d then
      bump 1
      return .object []
    members fuel depth .empty []

/-- The loop of `object`, with the members and the keys so far. -/
def members (fuel depth : ℕ) (values : OrderedMap String Json) (keys : List String) : Parse Json :=
  match fuel with
  | 0 => throw (.panic "recursion bound")
  | fuel + 1 => do
    skipWs
    if (← peek) ≠ some 0x22 then error "object key must be a string"
    let key ← string
    let p ← get
    if p.limits.rejectDuplicateKeys ∧ key ∈ keys then
      error ("duplicate object key '" ++ key ++ "'")
    skipWs
    if (← peek) ≠ some 0x3a then error "expected ':' after object key"
    bump 1
    let item ← value fuel depth
    let values := values.insert key item
    skipWs
    match ← peek with
    | some 0x2c =>
      bump 1
      members fuel depth values (key :: keys)
    | some 0x7d =>
      bump 1
      return .object values.entries
    | _ => error "expected ',' or '\x7d'"

end

end Parser

/-- Parse a text given by its characters. The recursion takes three steps for each byte at most. -/
def parseChars (text : List Char) (limits : Limits) : Except (Fault String) Json := do
  let size := (utf8 text).length
  if size > limits.maxBytes then
    throw (.error ("JSON payload exceeds " ++ toString limits.maxBytes ++ " bytes"))
  let start : Parser := { text := text, cursor := 0, nodes := 0, limits := limits }
  let run : Parse Json := do
    let value ← Parser.value (3 * size + 3) 0
    Parser.skipWs
    let p ← get
    if p.cursor ≠ size then Parser.error "trailing characters after JSON value"
    return value
  run.run' start

def parse (text : String) (limits : Limits) : Except (Fault String) Json :=
  parseChars text.toList limits

/-- The whole text is one JSON number. -/
def isNumber (text : List Char) : Bool :=
  let start : Parser := { text := text, cursor := 0, nodes := 0, limits := ⟨0, 0, 0, false⟩ }
  match Parser.number start with
  | .ok (_, p) => p.cursor == (utf8 text).length
  | .error _ => false

end MirrorRust
