import MirrorRust.Contract
import MirrorRust.JsonPanics
import MirrorRust.JsonSpelling

/-! The negotiation of a compiled model interface: the request that goes with a registration, and
what the first reply authorizes. -/
namespace MirrorRust

/-! ### Digests -/

structure SemanticDigest where
  bytes : List UInt8
  length_eq : bytes.length = 32
  deriving DecidableEq

namespace SemanticDigest

def isHexByte (byte : UInt8) : Bool := (0x30 ≤ byte && byte ≤ 0x39) || (0x61 ≤ byte && byte ≤ 0x66)

def nibble (byte : UInt8) : UInt8 := if byte ≤ 0x39 then byte - 0x30 else byte - 0x61 + 10

/-- The bytes that are spelled by the pairs of digits. -/
def pairs : List UInt8 → List UInt8
  | high :: low :: rest => (nibble high <<< 4 ||| nibble low) :: pairs rest
  | _ => []

theorem length_pairs (bytes : List UInt8) : (pairs bytes).length = bytes.length / 2 := by
  induction bytes using pairs.induct with
  | case1 high low rest ih =>
    rw [pairs, List.length_cons, ih, List.length_cons, List.length_cons]
    omega
  | case2 bytes hbytes =>
    rcases bytes with _ | ⟨a, _ | ⟨b, rest⟩⟩
    · rfl
    · simp [pairs]
    · exact absurd rfl (hbytes a b rest)

def fromHex (value : String) : Negotiated SemanticDigest :=
  if h : (utf8 value.toList).length = 64 ∧ (utf8 value.toList).all isHexByte = true then
    .ok ⟨pairs (utf8 value.toList), by rw [length_pairs, h.1]⟩
  else
    .error (miError "descriptor_digest_invalid"
      "semantic digest must contain 64 lowercase hexadecimal characters")

/-- `strip_prefix`. -/
def stripPrefix (start value : String) : Option String :=
  if start.toList <+: value.toList then
    some (String.ofList (value.toList.drop start.toList.length))
  else none

def parseWire (value : String) : Negotiated SemanticDigest :=
  match stripPrefix "sha256:" value with
  | some hex => fromHex hex
  | none =>
    .error (miError "descriptor_digest_invalid" "semantic digest must start with sha256:")

/-- The two digits of a byte. -/
def hexPair (byte : UInt8) : List Char :=
  [Nat.digitChar (byte >>> 4).toNat, Nat.digitChar (byte &&& 0xf).toNat]

def toHex (digest : SemanticDigest) : String := String.ofList (digest.bytes.flatMap hexPair)

def toWire (digest : SemanticDigest) : String := "sha256:" ++ digest.toHex

/-! ### Canonical digests -/

/-- The byte of a digit. -/
def hexByte (n : UInt8) : UInt8 := if n < 10 then 0x30 + n else 0x61 + (n - 10)

theorem hexByte_nibble {byte : UInt8} (h : isHexByte byte = true) : hexByte (nibble byte) = byte ∧
    nibble byte < 16 := by
  have hall : ∀ n < 256, isHexByte (UInt8.ofNat n) = true →
      hexByte (nibble (UInt8.ofNat n)) = UInt8.ofNat n ∧ nibble (UInt8.ofNat n) < 16 := by
    decide +kernel
  have hbyte := hall byte.toNat byte.toNat_lt
  rw [UInt8.ofNat_toNat] at hbyte
  exact hbyte h

theorem nibble_halves {high low : UInt8} (hhigh : high < 16) (hlow : low < 16) :
    (high <<< 4 ||| low) >>> 4 = high ∧ (high <<< 4 ||| low) &&& 0xf = low := by
  have hall : ∀ m < 16, ∀ n < 16,
      (UInt8.ofNat m <<< 4 ||| UInt8.ofNat n) >>> 4 = UInt8.ofNat m ∧
        (UInt8.ofNat m <<< 4 ||| UInt8.ofNat n) &&& 0xf = UInt8.ofNat n := by
    decide +kernel
  have hbyte := hall high.toNat (UInt8.lt_iff_toNat_lt.mp hhigh) low.toNat
    (UInt8.lt_iff_toNat_lt.mp hlow)
  rwa [UInt8.ofNat_toNat, UInt8.ofNat_toNat] at hbyte

theorem utf8_hexPair (byte : UInt8) :
    utf8 (hexPair byte) = [hexByte (byte >>> 4), hexByte (byte &&& 0xf)] := by
  have hall : ∀ n < 256, utf8 (hexPair (UInt8.ofNat n)) =
      [hexByte (UInt8.ofNat n >>> 4), hexByte (UInt8.ofNat n &&& 0xf)] := by
    decide +kernel
  have hbyte := hall byte.toNat byte.toNat_lt
  rwa [UInt8.ofNat_toNat] at hbyte

/-- The digits of a byte spell the byte. -/
theorem pair_hexPair (byte : UInt8) :
    isHexByte (hexByte (byte >>> 4)) = true ∧ isHexByte (hexByte (byte &&& 0xf)) = true ∧
      nibble (hexByte (byte >>> 4)) <<< 4 ||| nibble (hexByte (byte &&& 0xf)) = byte := by
  have hall : ∀ n < 256, isHexByte (hexByte (UInt8.ofNat n >>> 4)) = true ∧
      isHexByte (hexByte (UInt8.ofNat n &&& 0xf)) = true ∧
      nibble (hexByte (UInt8.ofNat n >>> 4)) <<< 4 ||| nibble (hexByte (UInt8.ofNat n &&& 0xf)) =
        UInt8.ofNat n := by
    decide +kernel
  have hbyte := hall byte.toNat byte.toNat_lt
  rwa [UInt8.ofNat_toNat] at hbyte

theorem pairs_hexPairs (bytes : List UInt8) :
    (utf8 (bytes.flatMap hexPair)).length = 2 * bytes.length ∧
      (utf8 (bytes.flatMap hexPair)).all isHexByte = true ∧
      pairs (utf8 (bytes.flatMap hexPair)) = bytes := by
  induction bytes with
  | nil => exact ⟨rfl, rfl, rfl⟩
  | cons byte bytes ih =>
    obtain ⟨hlength, hall, hpairs⟩ := ih
    obtain ⟨hhigh, hlow, hbyte⟩ := pair_hexPair byte
    have hcons : utf8 ((byte :: bytes).flatMap hexPair) =
        hexByte (byte >>> 4) :: hexByte (byte &&& 0xf) :: utf8 (bytes.flatMap hexPair) := by
      rw [List.flatMap_cons, utf8_append, utf8_hexPair]
      rfl
    rw [hcons]
    refine ⟨?_, ?_, ?_⟩
    · simp only [List.length_cons, hlength]
      omega
    · simp only [List.all_cons, hhigh, hlow, hall, Bool.and_self]
    · rw [pairs, hbyte, hpairs]

theorem hexPairs_pairs {bytes : List UInt8} (heven : bytes.length % 2 = 0)
    (h : bytes.all isHexByte = true) : utf8 ((pairs bytes).flatMap hexPair) = bytes := by
  induction bytes using pairs.induct with
  | case1 high low rest ih =>
    simp only [List.all_cons, Bool.and_eq_true] at h
    obtain ⟨hhigh, hlow, hrest⟩ := h
    obtain ⟨hhigh, hhighLt⟩ := hexByte_nibble hhigh
    obtain ⟨hlow, hlowLt⟩ := hexByte_nibble hlow
    obtain ⟨hleft, hright⟩ := nibble_halves hhighLt hlowLt
    have htail := ih (by simp only [List.length_cons] at heven; omega) hrest
    rw [pairs, List.flatMap_cons, utf8_append, utf8_hexPair, hleft, hright, hhigh, hlow, htail]
    rfl
  | case2 bytes hbytes =>
    rcases bytes with _ | ⟨a, _ | ⟨b, rest⟩⟩
    · rfl
    · simp at heven
    · exact absurd rfl (hbytes a b rest)

/-- A digest has one spelling. -/
theorem fromHex_iff {value : String} {digest : SemanticDigest} :
    fromHex value = .ok digest ↔ value = digest.toHex := by
  unfold fromHex
  constructor
  · intro h
    split_ifs at h with hvalid
    · obtain ⟨hlength, hall⟩ := hvalid
      cases h
      have hbytes := hexPairs_pairs (by rw [hlength]) hall
      rw [toHex, utf8_injective hbytes, String.ofList_toList]
  · rintro rfl
    obtain ⟨hlength, hall, hpairs⟩ := pairs_hexPairs digest.bytes
    rw [digest.length_eq] at hlength
    have hlist : digest.toHex.toList = digest.bytes.flatMap hexPair := String.toList_ofList
    rw [dif_pos (by rw [hlist]; exact ⟨hlength, hall⟩)]
    simp only [hlist, hpairs]

theorem parseWire_iff {value : String} {digest : SemanticDigest} :
    parseWire value = .ok digest ↔ value = digest.toWire := by
  have hstrip : ∀ hex, stripPrefix "sha256:" value = some hex ↔ value = "sha256:" ++ hex := by
    intro hex
    unfold stripPrefix
    constructor
    · intro h
      split_ifs at h with hprefix
      · obtain ⟨rest, hrest⟩ := hprefix
        rw [← hrest, List.drop_left] at h
        have hhex := Option.some.inj h
        rw [← hhex]
        refine String.toList_inj.mp ?_
        rw [String.toList_append, ← hrest]
        exact congrArg _ String.toList_ofList.symm
    · rintro rfl
      rw [String.toList_append, if_pos (List.prefix_append _ _), List.drop_left,
        String.ofList_toList]
  unfold parseWire
  cases hhex : stripPrefix "sha256:" value with
  | none =>
    constructor
    · intro h
      cases h
    · intro h
      rw [(hstrip _).mpr h] at hhex
      cases hhex
  | some hex =>
    rw [(hstrip hex).mp hhex]
    refine fromHex_iff.trans ⟨fun h => by rw [h, toWire], fun h => ?_⟩
    exact (String.append_right_inj _).mp h

theorem toWire_inj {digest other : SemanticDigest} (h : digest.toWire = other.toWire) :
    digest = other := by
  have hleft := parseWire_iff.mpr h
  have hself := parseWire_iff.mpr (rfl : digest.toWire = digest.toWire)
  exact Except.ok.inj (hself.symm.trans hleft)

end SemanticDigest

/-! ### The request -/

structure GeneratedModelInterface where
  semanticDigest : String
  contractJson : String

inductive NegotiationPolicy
  | require
  | prefer
  deriving DecidableEq

inductive ModelInterfaceStatus
  | matched
  | resolved
  | notModified
  | mismatch
  | unsupported
  | unavailable
  | tooLarge
  deriving DecidableEq

structure ModelInterfaceVerifyRequest where
  policy : NegotiationPolicy
  expectedSemanticDigest : SemanticDigest
  contract : Json

/-- An error that is returned. -/
def returned {α : Type} (result : Negotiated α) : Except (Fault NegotiatedError) α :=
  match result with
  | .ok a => .ok a
  | .error e => .error (.error e)

def makeVerifyRequest (metadata : GeneratedModelInterface) (policy : NegotiationPolicy) :
    Except (Fault NegotiatedError) ModelInterfaceVerifyRequest := do
  let expectedSemanticDigest ← returned (SemanticDigest.fromHex metadata.semanticDigest)
  let contract ← strictParse metadata.contractJson
  returned (validateContract contract)
  return { policy, expectedSemanticDigest, contract }

def requestJson (request : ModelInterfaceVerifyRequest) : Json :=
  .obj [("schema", .string MODEL_INTERFACE_NEGOTIATION_SCHEMA),
    ("request", .string "verify"),
    ("policy", .string (if request.policy = .require then "require" else "prefer")),
    ("acceptDescriptorSchemas", .array [.string MODEL_INTERFACE_DESCRIPTOR_SCHEMA]),
    ("expectedSemanticDigest", .string request.expectedSemanticDigest.toWire),
    ("contract", .obj [("inline", request.contract)])]

/-- The text of the registration is read back, which puts its members in key order. -/
def encodeRegistration (registration : ClientMessage) (request : ModelInterfaceVerifyRequest) :
    Negotiated String :=
  let encoded := (registration.serialize.denote.set "modelInterface" (requestJson request)).render
  if encoded.utf8ByteSize > MAX_PROTOCOL_LINE_BYTES then
    .error (unexpected "model-interface registration exceeds 65535 bytes")
  else .ok encoded

/-! ### The registry -/

structure CompiledAdapterKey where
  semanticDigest : SemanticDigest
  adapterId : String
  targetProfile : String
  stateComputerContractVersion : String
  deriving DecidableEq

structure CompiledAdapterRegistration (φ : Type) where
  key : CompiledAdapterKey
  factory : φ

abbrev CompiledAdapterRegistry (φ : Type) := List (CompiledAdapterRegistration φ)

def resolveIndex {φ : Type} (registrations : CompiledAdapterRegistry φ) (key : CompiledAdapterKey) :
    Negotiated ℕ :=
  match registrations.zipIdx.filter fun entry => decide (entry.1.key = key) with
  | _ :: _ :: _ =>
    .error (miError "adapter_ambiguous"
      ("multiple exact adapters are registered for " ++ key.adapterId))
  | [(_, index)] => .ok index
  | [] =>
    let identity := registrations.filter fun entry =>
      decide (entry.key.semanticDigest = key.semanticDigest ∧ entry.key.adapterId = key.adapterId)
    if !identity.isEmpty &&
        identity.all fun entry => decide (entry.key.targetProfile ≠ key.targetProfile) then
      .error (miError "target_profile_mismatch"
        ("adapter target profile does not match " ++ key.targetProfile))
    else if identity.any fun entry => decide (entry.key.targetProfile = key.targetProfile) then
      .error (miError "state_computer_contract_mismatch"
        ("adapter StateComputer contract does not match " ++ key.stateComputerContractVersion))
    else
      .error (miError "adapter_not_registered" ("adapter is not registered: " ++ key.adapterId))

/-! ### The reply -/

def status (value : String) : Negotiated ModelInterfaceStatus :=
  match value with
  | "matched" => .ok .matched
  | "resolved" => .ok .resolved
  | "not_modified" => .ok .notModified
  | "mismatch" => .ok .mismatch
  | "unsupported" => .ok .unsupported
  | "unavailable" => .ok .unavailable
  | "too_large" => .ok .tooLarge
  | value => .error (unexpected ("unknown model-interface status: " ++ value))

def optionalDigest (map : Fields) (key : String) : Negotiated (Option SemanticDigest) :=
  match map.get key with
  | none | some .null => .ok none
  | some (.string value) => (SemanticDigest.parseWire value).map some
  | _ =>
    .error (miError "descriptor_digest_invalid" ("modelInterface." ++ key ++ ": string expected"))

def optionalShortString (map : Fields) (key : String) : Negotiated (Option String) :=
  match map.get key with
  | none | some .null => .ok none
  | some value => (shortString value ("modelInterface." ++ key)).map some

def optionalNonnegativeInteger (map : Fields) (key : String) : Negotiated Bool :=
  match map.get key with
  | none | some .null => .ok false
  | some (.number value) =>
    if value.toList.all Char.isDigit then .ok true
    else .error (unexpected ("modelInterface." ++ key ++ ": nonnegative integer expected"))
  | _ => .error (unexpected ("modelInterface." ++ key ++ ": nonnegative integer expected"))

inductive Authorization
  | matched (digest : SemanticDigest) (descriptorSchema : String)
  | fallback

inductive RegistrationReply
  | registerError (error : String)
  | specValid
  | specInvalid (detail : String)
  | protocolError (error : String)
  | other (step : String)

def registrationReply (outer : Fields) : Negotiated RegistrationReply := do
  let step ← orUnexpected ((outer.get "proto_step").bind Json.asStr)
    "registration reply proto_step must be a string"
  let stringField (name : String) : Negotiated String :=
    orUnexpected ((outer.get name).bind Json.asStr)
      ("registration reply " ++ name ++ " must be a string")
  match step with
  | "register_error" => return .registerError (← stringField "error")
  | "protocol_error" => return .protocolError (← stringField "error")
  | "spec_validated" =>
    match outer.get "result" with
    | some (.string "valid") => return .specValid
    | some (.object result) =>
      return .specInvalid (← orUnexpected ((Fields.get result "invalid").bind Json.asStr)
        "invalid spec result must contain a string")
    | _ => throw (unexpected "spec result has an invalid shape")
  | other => return .other other

/-- What `decode_authorization` makes of a registration error with an extension. -/
def authorizeFailure (extension : Json) (request : ModelInterfaceVerifyRequest) (error : String) :
    Negotiated Authorization := do
  let failure ← object extension "modelInterface"
    ["schema", "status", "code", "expectedSemanticDigest", "actualSemanticDigest",
      "provenanceDigest", "descriptorBytes"]
    ["schema", "status", "code"]
  if failure.item "schema" ≠ .string MODEL_INTERFACE_NEGOTIATION_SCHEMA then
    throw (unexpected "unsupported model-interface failure schema")
  let failureStatus ← status (← shortString (failure.item "status") "modelInterface.status")
  if failureStatus ∉ [.mismatch, .unsupported, .unavailable] then
    throw (unexpected "unexpected status on verify register_error")
  let code ← shortString (failure.item "code") "modelInterface.code"
  if code = "" then throw (unexpected "model-interface failure code is empty")
  let expected ← optionalDigest failure "expectedSemanticDigest"
  let _ ← optionalDigest failure "actualSemanticDigest"
  let _ ← optionalDigest failure "provenanceDigest"
  let hasDescriptorBytes ← optionalNonnegativeInteger failure "descriptorBytes"
  if expected.any fun digest => decide (digest ≠ request.expectedSemanticDigest) then
    throw (miError "interface_digest_mismatch"
      "failure expectedSemanticDigest does not match the request pin")
  if failureStatus = .mismatch ∧ expected = none then
    throw (unexpected "mismatch failure lacks expectedSemanticDigest")
  if hasDescriptorBytes then
    throw (unexpected "descriptorBytes is forbidden on a verify registration failure")
  throw (.registration code error)

/-- What `decode_authorization` makes of a valid spec without an extension. -/
def authorizeMissing (request : ModelInterfaceVerifyRequest) (fallback : Bool) :
    Negotiated Authorization :=
  if request.policy = .prefer ∧ fallback = true then .ok .fallback
  else
    .error (miError
      (if request.policy = .prefer then "legacy_fallback_unavailable" else "negotiation_missing")
      "model-interface negotiation reply is missing")

/-- What `decode_authorization` makes of a valid spec with an extension. -/
def authorizeReply (extension : Json) (request : ModelInterfaceVerifyRequest) (fallback : Bool) :
    Negotiated Authorization := do
  let reply ← object extension "modelInterface"
    ["schema", "status", "descriptorSchema", "semanticDigest", "provenanceDigest",
      "descriptorBytes", "descriptor"]
    ["schema", "status"]
  if reply.item "schema" ≠ .string MODEL_INTERFACE_NEGOTIATION_SCHEMA then
    throw (unexpected "unsupported model-interface negotiation schema")
  let descriptorSchema ← optionalShortString reply "descriptorSchema"
  let semanticDigest ← optionalDigest reply "semanticDigest"
  let provenanceDigest ← optionalDigest reply "provenanceDigest"
  let hasDescriptorBytes ← optionalNonnegativeInteger reply "descriptorBytes"
  let hasDescriptor := (reply.present "descriptor").isSome
  match ← status (← shortString (reply.item "status") "modelInterface.status") with
  | .matched =>
    let descriptor ← orUnexpected descriptorSchema "matched reply lacks descriptorSchema"
    let digest ← orUnexpected semanticDigest "matched reply lacks semanticDigest"
    if descriptor ≠ MODEL_INTERFACE_DESCRIPTOR_SCHEMA ∨ digest ≠ request.expectedSemanticDigest ∨
        hasDescriptor = true ∨ hasDescriptorBytes = true then
      throw (miError "interface_digest_mismatch"
        "invalid or mismatched compiled model-interface reply")
    return .matched digest descriptor
  | .unsupported | .unavailable =>
    if descriptorSchema.isSome = true ∨ semanticDigest.isSome = true ∨
        provenanceDigest.isSome = true ∨ hasDescriptorBytes = true ∨ hasDescriptor = true then
      throw (unexpected "descriptor identity fields are forbidden when resolution is unavailable")
    if request.policy = .prefer ∧ fallback = true then return .fallback
    else throw (unexpected "model-interface fallback status is not permitted")
  | .tooLarge => throw (unexpected "too_large is invalid for compiled verification")
  | .mismatch =>
    if hasDescriptor = true ∨ hasDescriptorBytes = true then
      throw (unexpected "descriptor payload is forbidden for mismatch")
    throw (miError "interface_digest_mismatch" "model-interface digest mismatch")
  | .resolved | .notModified =>
    throw (unexpected "descriptor status is invalid for compiled verification")

/-- `decode_authorization` after the line is parsed. -/
def authorize (raw : Json) (request : ModelInterfaceVerifyRequest) (fallback : Bool) :
    Negotiated Authorization := do
  let outer ← orUnexpected raw.asObject "mirror registration reply must be an object"
  match ← registrationReply outer with
  | .registerError error =>
    match Fields.present outer "modelInterface" with
    | none => throw (.legacy (.registerFailed error))
    | some extension => authorizeFailure extension request error
  | .specInvalid detail => throw (.legacy (.specInvalid detail))
  | .specValid =>
    match Fields.present outer "modelInterface" with
    | none => authorizeMissing request fallback
    | some extension => authorizeReply extension request fallback
  | .protocolError error => throw (.legacy (.protocolError error))
  | .other other => throw (unexpected ("expected registration result, got " ++ other))

def decodeAuthorization (line : String) (request : ModelInterfaceVerifyRequest) (fallback : Bool) :
    Except (Fault NegotiatedError) Authorization := do
  returned (authorize (← strictParse line) request fallback)

end MirrorRust
