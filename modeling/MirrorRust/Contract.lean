import MirrorRust.Protocol
import MirrorRust.Framing

/-! The closed records of the model interface, and the contract a registration carries: every
record has its fields and no others, and nothing is larger than its bound. -/
namespace MirrorRust

inductive NegotiatedError
  | legacy (e : Error)
  | registration (code message : String)
  | modelInterface (code message : String)

abbrev Negotiated := Except NegotiatedError

def miError (code message : String) : NegotiatedError := .modelInterface code message

/-- The error of most refusals. -/
def unexpected (message : String) : NegotiatedError :=
  miError "negotiation_status_unexpected" message

def MODEL_INTERFACE_CONTRACT_SCHEMA : String := "mirrors.model-interface/v1"

def MODEL_INTERFACE_NEGOTIATION_SCHEMA : String := "mirrors.model-interface-negotiation/v1"

def MODEL_INTERFACE_DESCRIPTOR_SCHEMA : String := "mirrors.model-interface-descriptor/v1"

def STATE_COMPUTER_CONTRACT_VERSION : String := "mirrors.state-computer/v1"

def strictLimits : Limits :=
  { maxBytes := MAX_PROTOCOL_LINE_BYTES
    maxDepth := 128
    maxNodes := 16_384
    rejectDuplicateKeys := true }

def strictParse (text : String) : Except (Fault NegotiatedError) Json :=
  match parse text strictLimits with
  | .ok j => .ok j
  | .error e => .error (e.map unexpected)

/-! ### Records and strings -/

/-- `ok_or_else` with a refusal. -/
def orUnexpected {α : Type} (value : Option α) (message : String) : Negotiated α :=
  match value with
  | some a => .ok a
  | none => .error (unexpected message)

/-- `map[key]` for a member that is there. -/
def Fields.item (map : Fields) (key : String) : Json := (map.get key).getD .null

def object (value : Json) (path : String) (allowed required : List String) : Negotiated Fields := do
  let map ← orUnexpected value.asObject (path ++ ": object expected")
  if let some key := (map.map Prod.fst).find? fun key => decide (key ∉ allowed) then
    throw (unexpected (path ++ ": unknown field '" ++ key ++ "'"))
  if let some key := required.find? fun key => decide (Fields.get map key = none) then
    throw (unexpected (path ++ ": missing required field '" ++ key ++ "'"))
  return map

def shortString (value : Json) (path : String) : Negotiated String := do
  let text ← orUnexpected value.asStr (path ++ ": string expected")
  if text.utf8ByteSize > 256 then throw (unexpected (path ++ ": exceeds 256 UTF-8 bytes"))
  return text

def canonicalDecimal (value : String) : Bool :=
  let digits := match value.toList with
    | '-' :: cs => cs
    | cs => cs
  !digits.isEmpty && digits.all Char.isDigit && (digits == ['0'] || digits.head? != some '0') &&
    value != "-0"

/-! ### Literals, paths and types -/

/-- A check that counts the nodes it has seen; a refusal keeps the count. -/
abbrev Tally := ExceptT NegotiatedError (StateM ℕ)

/-- The verdict of a check that starts at `n`, and the count it ends with. -/
def Tally.outcome {α : Type} (x : Tally α) (n : ℕ) : Negotiated α × ℕ := (x.run.run n).run

/-- One more node, up to a bound. -/
def tallyNode (bound : ℕ) (message : String) : Tally Unit := do
  modify (· + 1)
  if (← get) > bound then throw (unexpected message)

/-- `validate_itf_literal` with the levels that are left: the source counts up to 128. -/
def validateItfLiteral : ℕ → Json → String → Tally Unit
  | 0, _, path => throw (unexpected (path ++ ": canonical ITF literal nesting exceeds 128"))
  | levels + 1, value, path => do
    tallyNode 16_384 (path ++ ": canonical ITF literal nodes exceed 16384")
    let initial ← orUnexpected value.asObject (path ++ ": canonical ITF literal object expected")
    let kind ← orUnexpected ((Fields.get initial "kind").bind Json.asStr)
      (path ++ ": canonical ITF literal kind expected")
    match kind with
    | "int" =>
      let fields ← object value path ["kind", "value"] ["kind", "value"]
      let integer ← shortString (fields.item "value") path
      if !canonicalDecimal integer then
        throw (unexpected (path ++ ": canonical decimal integer string expected"))
    | "bool" =>
      let fields ← object value path ["kind", "value"] ["kind", "value"]
      if (fields.item "value").asBool.isNone then
        throw (unexpected (path ++ ": Boolean expected"))
    | "str" =>
      let fields ← object value path ["kind", "value"] ["kind", "value"]
      let _ ← shortString (fields.item "value") path
    | "null" =>
      let _ ← object value path ["kind"] ["kind"]
    | "set" | "seq" | "tuple" =>
      let fields ← object value path ["kind", "values"] ["kind", "values"]
      let values ← orUnexpected (fields.item "values").asArray (path ++ ": values array expected")
      values.forM fun item => validateItfLiteral levels item path
    | "record" =>
      let fields ← object value path ["kind", "fields"] ["kind", "fields"]
      let entries ← orUnexpected (fields.item "fields").asArray (path ++ ": fields array expected")
      entries.forM fun entry => do
        let entry ← object entry path ["name", "value"] ["name", "value"]
        let _ ← shortString (entry.item "name") path
        validateItfLiteral levels (entry.item "value") path
    | "map" =>
      let fields ← object value path ["kind", "entries"] ["kind", "entries"]
      let entries ← orUnexpected (fields.item "entries").asArray (path ++ ": entries array expected")
      entries.forM fun entry => do
        let entry ← object entry path ["key", "value"] ["key", "value"]
        validateItfLiteral levels (entry.item "key") path
        validateItfLiteral levels (entry.item "value") path
    | "variant" =>
      let fields ← object value path ["kind", "tag", "payload"] ["kind", "tag", "payload"]
      let _ ← shortString (fields.item "tag") path
      validateItfLiteral levels (fields.item "payload") path
    | kind => throw (unexpected (path ++ ": unknown canonical ITF literal '" ++ kind ++ "'"))

def validatePath (value : Json) (path : String) : Tally Unit :=
  match value with
  | .object [(kind, value)] =>
    match kind with
    | "field" | "variantValue" => do
      let _ ← shortString value path
    | "index" =>
      if value.asU64.isSome then return () else throw (unexpected (path ++ ": invalid path selector"))
    | "mapKey" => validateItfLiteral 128 value path
    | _ => throw (unexpected (path ++ ": invalid path selector"))
  | _ => throw (unexpected (path ++ ": exactly one selector required"))

/-- `validate_model_type` with the levels that are left: the source counts up to 32. -/
def validateModelType : ℕ → Json → String → Tally Unit
  | 0, _, path => throw (unexpected (path ++ ": type depth exceeds 32"))
  | levels + 1, value, path => do
    tallyNode 8_192 (path ++ ": type nodes exceed 8192")
    let tagged ← orUnexpected value.asObject (path ++ ": tagged model type expected")
    let kind ← orUnexpected ((Fields.get tagged "kind").bind Json.asStr)
      (path ++ ": tagged model type expected")
    match kind with
    | "int" | "bool" | "str" | "null" =>
      let _ ← object value path ["kind"] ["kind"]
    | "set" | "seq" =>
      let tagged ← object value path ["kind", "element"] ["kind", "element"]
      validateModelType levels (tagged.item "element") path
    | "tuple" =>
      let tagged ← object value path ["kind", "elements"] ["kind", "elements"]
      let elements ← orUnexpected (tagged.item "elements").asArray
        (path ++ ": elements array expected")
      elements.forM fun element => validateModelType levels element path
    | "record" | "variant" =>
      let listName := if kind = "record" then "fields" else "cases"
      let name := if kind = "record" then "wireName" else "tag"
      let payload := if kind = "record" then "type" else "payload"
      let tagged ← object value path ["kind", listName] ["kind", listName]
      let entries ← orUnexpected (tagged.item listName).asArray
        (path ++ ": " ++ listName ++ " array expected")
      let _ ← entries.foldlM (fun names entry => do
        let entry ← object entry path [name, payload] [name, payload]
        let label ← shortString (entry.item name) path
        if label = "" ∨ label ∈ names then
          throw (unexpected (path ++ ": duplicate or empty label"))
        validateModelType levels (entry.item payload) path
        return label :: names) ([] : List String)
    | "map" =>
      let tagged ← object value path ["kind", "key", "value"] ["kind", "key", "value"]
      validateModelType levels (tagged.item "key") path
      validateModelType levels (tagged.item "value") path
    | "opaqueItf" =>
      let tagged ← object value path ["kind", "description"] ["kind", "description"]
      let _ ← shortString (tagged.item "description") path
    | kind => throw (unexpected (path ++ ": unknown model type " ++ kind))

/-! ### Actions, observations and contracts -/

/-- A member that is neither missing nor null. -/
def Fields.present (map : Fields) (key : String) : Option Json :=
  (map.get key).filter fun value => !value.isNull

/-- `as_array` with at most `bound` elements. -/
def boundedArray (value : Json) (bound : ℕ) : Option (List Json) :=
  value.asArray.filter fun items => decide (items.length ≤ bound)

def validateInput (input : Json) (path : String) : Tally Unit := do
  let input ← object input path ["id", "from", "expectedType"] ["id", "from"]
  let _ ← shortString (input.item "id") path
  let source ← object (input.item "from") path ["root", "path"] ["root", "path"]
  if (source.item "root").asStr ∉ [some "initialState", some "stepParameters"] then
    throw (unexpected (path ++ ": invalid path root"))
  let segments ← orUnexpected (boundedArray (source.item "path") 32) (path ++ ": path limit exceeded")
  segments.forM fun segment => validatePath segment path
  if let some expected := input.present "expectedType" then validateModelType 32 expected path

def validateAction (value : Json) (path : String) : Tally Unit := do
  let action ← object value path ["id", "wireAction", "wireAliases", "inputs"]
    ["id", "wireAction", "wireAliases", "inputs"]
  let _ ← shortString (action.item "id") path
  let _ ← shortString (action.item "wireAction") path
  let aliases ← orUnexpected (boundedArray (action.item "wireAliases") 16)
    (path ++ ": alias resource limit exceeded")
  aliases.forM fun item => do
    let _ ← shortString item path
  let inputs ← orUnexpected (boundedArray (action.item "inputs") 128)
    (path ++ ": input resource limit exceeded")
  inputs.forM fun input => validateInput input path

def validateObservation (observation : Json) (path : String) : Tally Unit := do
  let observation ← object observation path ["id", "wireName", "provenance", "expectedType"]
    ["id", "wireName", "provenance"]
  let _ ← shortString (observation.item "id") path
  let _ ← shortString (observation.item "wireName") path
  if (observation.item "provenance").asStr ∉ [some "implementation", some "oracle", some "derived"]
  then throw (unexpected "invalid observation provenance")
  if let some expected := observation.present "expectedType" then validateModelType 32 expected path

/-- `validate_contract`, with the count of nodes that its parts share. -/
def countContract (value : Json) : Tally Unit := do
  let path := "modelInterface.contract.inline"
  let names := ["schema", "interfaceVersion", "model", "wire", "initializers", "actions",
    "observations"]
  let contract ← object value path names names
  if contract.item "schema" ≠ .string MODEL_INTERFACE_CONTRACT_SCHEMA then
    throw (unexpected "modelInterface contract schema is unsupported")
  let _ ← shortString (contract.item "interfaceVersion") path
  let model ← object (contract.item "model") path ["module", "source"] ["module", "source"]
  let _ ← shortString (model.item "module") path
  let _ ← shortString (model.item "source") path
  let wire ← object (contract.item "wire") path ["actionVariable", "parameterVariable"]
    ["actionVariable", "parameterVariable"]
  let _ ← shortString (wire.item "actionVariable") path
  if !(wire.item "parameterVariable").isNull then
    let _ ← shortString (wire.item "parameterVariable") path
  let initializers ← orUnexpected (boundedArray (contract.item "initializers") 32)
    "modelInterface initializers limit exceeded"
  let actions ← orUnexpected (boundedArray (contract.item "actions") 256)
    "modelInterface actions limit exceeded"
  let observations ← orUnexpected (boundedArray (contract.item "observations") 1024)
    "modelInterface observations limit exceeded"
  (initializers ++ actions).forM fun action => validateAction action path
  observations.forM fun observation => validateObservation observation path

def validateContract (value : Json) : Negotiated Unit := ((countContract value).outcome 0).1

end MirrorRust
