import MirrorRust.Framing
import MirrorRust.Foundation.Failover
import MirrorRust.Tally

/-! Mirrors from a registry: the candidates of an answer, the pin of each of them, and the attempts
to connect. -/
namespace MirrorRust

/-! ### Texts -/

/-- The characters with the Unicode property `White_Space`. -/
def isWhitespace (c : Char) : Bool :=
  (0x09 ≤ c.toNat && c.toNat ≤ 0x0d) || c.toNat == 0x20 || c.toNat == 0x85 || c.toNat == 0xa0 ||
    c.toNat == 0x1680 || (0x2000 ≤ c.toNat && c.toNat ≤ 0x200a) || c.toNat == 0x2028 ||
    c.toNat == 0x2029 || c.toNat == 0x202f || c.toNat == 0x205f || c.toNat == 0x3000

def trimMatches (f : Char → Bool) (text : List Char) : List Char :=
  ((text.dropWhile f).reverse.dropWhile f).reverse

/-- `str::trim`. -/
def trim (s : String) : String := String.ofList (trimMatches isWhitespace s.toList)

def isAsciiHexdigit (c : Char) : Bool :=
  c.isDigit || ('a' ≤ c && c ≤ 'f') || ('A' ≤ c && c ≤ 'F')

/-! ### The address of the registry -/

structure HttpUrl where
  host : String
  port : ℕ
  pathPrefix : String
  deriving DecidableEq

def rsplitOnce (d : Char) (text : List Char) : Option (List Char × List Char) :=
  match text.reverse.span fun c => decide (c ≠ d) with
  | (after, _ :: before) => some (before.reverse, after.reverse)
  | (_, []) => none

def parseHttpUrl (url : String) : Option HttpUrl := do
  let rest ← if "http://".toList.isPrefixOf url.toList then some (url.toList.drop 7) else none
  let (authority, rawPrefix) := rest.span fun c => decide (c ≠ '/')
  if authority = [] then none
  let (host, port) ← match rsplitOnce ':' authority with
    | some (host, port) =>
      if host ≠ [] then do
        let port ← Json.parseUnsigned (2 ^ 16) (String.ofList port)
        some (host, port)
      else some (authority, 80)
    | none => some (authority, 80)
  let path := trimMatches (fun c => c == '/') rawPrefix
  some
    { host := String.ofList host
      port := port
      pathPrefix := if path = [] then "" else String.ofList ('/' :: path) }

example : parseHttpUrl "http://127.0.0.1:8500/consul/" = some ⟨"127.0.0.1", 8500, "/consul"⟩ := by
  decide +kernel

/-! ### The answer of the registry -/

def HttpUrl.request (url : HttpUrl) : String :=
  "GET " ++ url.pathPrefix ++ "/v1/health/service/modelmirrors HTTP/1.1\r\nHost: " ++ url.host ++
    ":" ++ toString url.port ++ "\r\nAccept: application/json\r\nConnection: close\r\n\r\n"

/-- The bytes before the first blank line, and the bytes after it. -/
def splitResponse : List UInt8 → Option (List UInt8 × List UInt8)
  | 0x0d :: 0x0a :: 0x0d :: 0x0a :: body => some ([], body)
  | b :: bytes => (splitResponse bytes).map fun (headers, body) => (b :: headers, body)
  | [] => none

/-- The body of a response with the status 200. -/
def responseBody (response : List UInt8) : Option (List UInt8) := do
  let (headers, body) ← splitResponse response
  let headers ← fromUtf8 headers
  let status := headers.toList.takeWhile fun c => decide (c ≠ '\n')
  if "HTTP/1.1 200 ".toList.isPrefixOf status ∨ "HTTP/1.0 200 ".toList.isPrefixOf status then
    some body
  else none

structure MirrorServiceInfo where
  id : String
  host : String
  port : ℕ
  certSha256 : Option String
  deriving DecidableEq

def normalizePin (pin : String) : Option String :=
  let normalized := (trim pin).toList.map Char.toLower
  if (utf8 normalized).length = 64 ∧ normalized.all isAsciiHexdigit = true then
    some (String.ofList normalized)
  else none

/-- The pin of a service. -/
def entryPin (service : Fields) : Option (Option String) :=
  match ((Fields.get service "Meta").bind Json.asObject).bind fun m => Fields.get m "cert-sha256" with
  | none => some none
  | some .null => some none
  | some (.string pin) => (normalizePin pin).map some
  | some _ => none

def parseEntry (value : Json) : Option MirrorServiceInfo := do
  let entry ← value.asObject
  let service ← (Fields.get entry "Service").bind Json.asObject
  let host := trim (← (Fields.get service "Address").bind Json.asStr)
  if host = "" then none
  let port ← (Fields.get service "Port").bind Json.asU64
  if ¬ (port < 2 ^ 16 ∧ port ≠ 0) then none
  let certSha256 ← entryPin service
  some
    { id := ((Fields.get service "ID").bind Json.asStr).getD ""
      host := host
      port := port
      certSha256 := certSha256 }

/-! ### Pins of a connection -/

structure TlsOptions where
  caPath : String
  certPath : String
  keyPath : String
  pin : Option String
  serverName : Option String
  handshakeTimeout : ℕ

def normalizeFingerprint (pin : String) : Except Error String :=
  let normalized := ((trim pin).toList.filter fun c => decide (c ≠ ':')).map Char.toLower
  if (utf8 normalized).length ≠ 64 ∨ normalized.all isAsciiHexdigit = false then
    .error (.invalidArgument "certificate pin must be 64 hexadecimal SHA-256 characters")
  else .ok (String.ofList normalized)

def checkPin (options : TlsOptions) (fingerprint : String) : Except Error Unit := do
  if let some pin := options.pin then
    let expected ← normalizeFingerprint pin
    if fingerprint ≠ expected then
      throw (.tls ("certificate fingerprint mismatch: expected " ++ expected ++ ", got " ++
        fingerprint))

/-- The world outside: what the registry answers, what the body of an answer holds, and what comes
of a handshake. -/
structure Network (σ T : Type) where
  /-- The bytes that come back from a host and a port for a request. -/
  exchange : String → ℕ → String → Option (List UInt8)
  /-- `serde_json::from_slice`. -/
  fromSlice : List UInt8 → Option Json
  /-- `connect_tls_mirror` up to the check of the pin: a session, and the fingerprint of its peer. -/
  handshake : String → ℕ → TlsOptions → σ → Except Error (String × T) × σ
  /-- The text of an error. -/
  display : Error → String

namespace Network
variable {σ T : Type} (net : Network σ T)

def connectTlsMirror (host : String) (port : ℕ) (options : TlsOptions) (w : σ) :
    Except Error T × σ :=
  match net.handshake host port options w with
  | (.error e, w) => (.error e, w)
  | (.ok (fingerprint, session), w) =>
    match checkPin options fingerprint with
    | .error e => (.error e, w)
    | .ok () => (.ok session, w)

/-- The entries of the registry: none where anything about the answer is wrong. -/
def registryEntries (registryUrl : String) : List Json :=
  let entries := do
    let url ← parseHttpUrl registryUrl
    let body ← responseBody (← net.exchange url.host url.port url.request)
    (← net.fromSlice body).asArray
  entries.getD []

def discoverMirrors (registryUrl : String) : List MirrorServiceInfo :=
  (net.registryEntries registryUrl).filterMap parseEntry

def attemptOptions (tls : TlsOptions) (pinOverride : Option String)
    (candidate : MirrorServiceInfo) : TlsOptions :=
  { tls with pin := (pinOverride.or tls.pin).or candidate.certSha256 }

/-- The loop over the candidates, with the failures so far. -/
def tryCandidates (tls : TlsOptions) (pinOverride : Option String) :
    List MirrorServiceInfo → List String → σ → Except Error T × σ
  | [], failures, w =>
    (.error (.registry ("all mirror candidates failed: " ++ "; ".intercalate failures)), w)
  | candidate :: candidates, failures, w =>
    match net.connectTlsMirror candidate.host candidate.port
        (attemptOptions tls pinOverride candidate) w with
    | (.ok session, w) => (.ok session, w)
    | (.error e, w) =>
      let failure := candidate.id ++ "(" ++ candidate.host ++ ":" ++ toString candidate.port ++
        "): " ++ net.display e
      tryCandidates tls pinOverride candidates (failures ++ [failure]) w

def connectMirrorFromRegistry (registryUrl : String) (tls : TlsOptions)
    (pinOverride : Option String) (w : σ) : Except Error T × σ :=
  let candidates := net.discoverMirrors registryUrl
  if candidates = [] then (.error (.registry "no usable mirror candidates"), w)
  else net.tryCandidates tls pinOverride candidates [] w

end Network

/-! ### Which pins are used -/

theorem toLower_toLower (c : Char) : c.toLower.toLower = c.toLower := by
  by_cases h : c.val ≥ 'A'.val ∧ c.val ≤ 'Z'.val
  · have hval : c.toLower.val = c.val + ('a'.val - 'A'.val) := by
      unfold Char.toLower
      rw [dif_pos h]
    have hshift : ('a'.val - 'A'.val).toNat = 32 := rfl
    have hz : 'Z'.val.toNat = 90 := rfl
    have ha : 'A'.val.toNat = 65 := rfl
    have hlower : ¬ (c.toLower.val ≥ 'A'.val ∧ c.toLower.val ≤ 'Z'.val) := by
      rw [hval]
      simp only [ge_iff_le, UInt32.le_iff_toNat_le, UInt32.toNat_add, hshift, hz, ha] at h ⊢
      omega
    generalize c.toLower = d at hlower
    unfold Char.toLower
    rw [dif_neg hlower]
  · have hc : c.toLower = c := by
      unfold Char.toLower
      rw [dif_neg h]
    rw [hc, hc]

theorem isAsciiHexdigit_plain {c : Char} (h : isAsciiHexdigit c = true) :
    c ≠ ':' ∧ isWhitespace c = false := by
  have hrange : (48 ≤ c.toNat ∧ c.toNat ≤ 57) ∨ (97 ≤ c.toNat ∧ c.toNat ≤ 102) ∨
      (65 ≤ c.toNat ∧ c.toNat ≤ 70) := by
    have hval : c.val.toNat = c.toNat := rfl
    have hletters : 'a'.val.toNat = 97 ∧ 'f'.val.toNat = 102 ∧ 'A'.val.toNat = 65 ∧
        'F'.val.toNat = 70 := ⟨rfl, rfl, rfl, rfl⟩
    have hdigits : '0'.toNat = 48 ∧ '9'.toNat = 57 := ⟨rfl, rfl⟩
    simp only [isAsciiHexdigit, Bool.or_eq_true, Bool.and_eq_true, decide_eq_true_eq,
      Char.isDigit_iff_toNat, Char.le_def, UInt32.le_iff_toNat_le] at h
    omega
  constructor
  · rintro rfl
    have : ':'.toNat = 58 := rfl
    omega
  · simp only [isWhitespace, Bool.or_eq_false_iff, Bool.and_eq_false_iff, decide_eq_false_iff_not,
      beq_eq_false_iff_ne]
    omega

theorem dropWhile_eq_self {f : Char → Bool} {text : List Char} (h : ∀ c ∈ text, f c = false) :
    text.dropWhile f = text := by
  cases text with
  | nil => rfl
  | cons c text => rw [List.dropWhile_cons, if_neg (by rw [h c List.mem_cons_self]; decide)]

/-- A pin from the registry is as the check of a peer wants it. -/
theorem normalizeFingerprint_normalizePin {pin normalized : String}
    (h : normalizePin pin = some normalized) : normalizeFingerprint normalized = .ok normalized := by
  simp only [normalizePin] at h
  split_ifs at h with hpin
  rw [← Option.some.inj h]
  obtain ⟨hlength, hall⟩ := hpin
  generalize hdigits : (trim pin).toList.map Char.toLower = digits at hlength hall ⊢
  have hplain : ∀ c ∈ digits, c ≠ ':' ∧ isWhitespace c = false := fun c hc =>
    isAsciiHexdigit_plain (List.all_eq_true.mp hall c hc)
  have htrim : trim (String.ofList digits) = String.ofList digits := by
    have hreverse : ∀ c ∈ digits.reverse, isWhitespace c = false := fun c hc =>
      (hplain c (List.mem_reverse.mp hc)).2
    rw [trim, trimMatches, String.toList_ofList, dropWhile_eq_self fun c hc => (hplain c hc).2,
      dropWhile_eq_self hreverse, List.reverse_reverse]
  have hfilter : digits.filter (fun c => decide (c ≠ ':')) = digits :=
    List.filter_eq_self.mpr fun c hc => decide_eq_true (hplain c hc).1
  have hlower : digits.map Char.toLower = digits := by
    rw [← hdigits, List.map_map]
    exact List.map_congr_left fun c _ => toLower_toLower c
  simp only [normalizeFingerprint, htrim, String.toList_ofList, hfilter, hlower]
  rw [if_neg]
  rintro (hne | hno)
  · exact hne hlength
  · rw [hall] at hno
    cases hno

namespace Network
variable {σ T : Type} {net : Network σ T}

def attempt (net : Network σ T) (tls : TlsOptions) (pinOverride : Option String)
    (candidate : MirrorServiceInfo) : σ → Except Error T × σ :=
  net.connectTlsMirror candidate.host candidate.port (attemptOptions tls pinOverride candidate)

theorem tryCandidates_spec {tls : TlsOptions} {pinOverride : Option String}
    {candidates : List MirrorServiceInfo} {failures : List String} {w : σ} :
    (∀ t w', net.tryCandidates tls pinOverride candidates failures w = (.ok t, w') ↔
        FirstSucceeds (net.attempt tls pinOverride) candidates w t w') ∧
      ∀ w', (∃ e, net.tryCandidates tls pinOverride candidates failures w = (.error e, w')) ↔
        AllFail (net.attempt tls pinOverride) candidates w w' := by
  induction candidates generalizing failures w with
  | nil =>
    refine ⟨fun t w' => iff_of_false nofun ?_, fun w' => ?_⟩
    · rintro ⟨before, c, after, w₁, hcs, -⟩
      cases before <;> cases hcs
    · constructor
      · rintro ⟨e, h⟩
        cases h
        exact .nil w
      · intro h
        cases h
        exact ⟨_, rfl⟩
  | cons c cs ih =>
    rw [tryCandidates]
    cases hc : net.connectTlsMirror c.host c.port (attemptOptions tls pinOverride c) w with
    | mk result w₁ =>
      have hattempt : net.attempt tls pinOverride c w = (result, w₁) := hc
      cases result with
      | ok t =>
        refine ⟨fun u w' => ?_, fun w' => iff_of_false nofun (allFail_cons_ok hattempt)⟩
        rw [firstSucceeds_cons_ok hattempt, Prod.mk.injEq, Except.ok.injEq]
      | error e =>
        refine ⟨fun u w' => ?_, fun w' => ?_⟩
        · rw [firstSucceeds_cons_error hattempt]
          exact ih.1 u w'
        · rw [allFail_cons_error hattempt]
          exact ih.2 w'

theorem connect_spec {registryUrl : String} {tls : TlsOptions} {pinOverride : Option String} {w : σ} :
    (∀ t w', net.connectMirrorFromRegistry registryUrl tls pinOverride w = (.ok t, w') ↔
        FirstSucceeds (net.attempt tls pinOverride) (net.discoverMirrors registryUrl) w t w') ∧
      ∀ w', (∃ e, net.connectMirrorFromRegistry registryUrl tls pinOverride w = (.error e, w')) ↔
        AllFail (net.attempt tls pinOverride) (net.discoverMirrors registryUrl) w w' := by
  unfold connectMirrorFromRegistry
  by_cases hnone : net.discoverMirrors registryUrl = []
  · rw [hnone]
    refine ⟨fun t w' => iff_of_false nofun ?_, fun w' => ?_⟩
    · rintro ⟨before, c, after, w₁, hcs, -⟩
      cases before <;> cases hcs
    · constructor
      · rintro ⟨e, h⟩
        cases h
        exact .nil w
      · intro h
        cases h
        exact ⟨_, rfl⟩
  · simp only [if_neg hnone]
    exact tryCandidates_spec

end Network

/-- The entry has a `Meta` object with this under `cert-sha256`. -/
def CarriesPin (value pin : Json) : Prop :=
  ∃ entry service m : Fields, value = .object entry ∧
    Fields.get entry "Service" = some (.object service) ∧
      Fields.get service "Meta" = some (.object m) ∧ Fields.get m "cert-sha256" = some pin

theorem parseEntry_pin {value : Json} {c : MirrorServiceInfo} (h : parseEntry value = some c) :
    ∃ entry service : Fields, value = .object entry ∧
      Fields.get entry "Service" = some (.object service) ∧ entryPin service = some c.certSha256 := by
  unfold parseEntry at h
  obtain ⟨entry, hentry, h⟩ := Option.bind_eq_some_iff.mp h
  obtain ⟨service, hservice, h⟩ := Option.bind_eq_some_iff.mp h
  obtain ⟨address, -, h⟩ := Option.bind_eq_some_iff.mp h
  simp only at h
  split at h
  · cases h
  · obtain ⟨port, -, h⟩ := Option.bind_eq_some_iff.mp h
    split at h
    · cases h
    · obtain ⟨certSha256, hpin, h⟩ := Option.bind_eq_some_iff.mp h
      cases h
      obtain ⟨j, hj, hobject⟩ := Option.bind_eq_some_iff.mp hservice
      rw [asObject_eq_some.mp hobject] at hj
      exact ⟨entry, service, asObject_eq_some.mp hentry, hj, hpin⟩

theorem entryPin_carried {service m : Fields} {pin : Json} {p : Option String}
    (hmeta : Fields.get service "Meta" = some (.object m))
    (hpin : Fields.get m "cert-sha256" = some pin) (hnull : pin ≠ .null)
    (h : entryPin service = some p) :
    ∃ raw normalized, pin = .string raw ∧ normalizePin raw = some normalized ∧
      p = some normalized := by
  have hmember : ((Fields.get service "Meta").bind Json.asObject).bind
      (fun m => Fields.get m "cert-sha256") = some pin := by
    rw [hmeta]
    exact hpin
  unfold entryPin at h
  rw [hmember] at h
  cases pin with
  | null => exact absurd rfl hnull
  | string raw =>
    obtain ⟨normalized, hnormalized, rfl⟩ := Option.map_eq_some_iff.mp h
    exact ⟨raw, normalized, rfl, hnormalized, rfl⟩
  | _ => cases h

theorem entryPin_some {service : Fields} {normalized : String}
    (h : entryPin service = some (some normalized)) :
    ∃ m raw, Fields.get service "Meta" = some (.object m) ∧
      Fields.get m "cert-sha256" = some (.string raw) ∧ normalizePin raw = some normalized := by
  unfold entryPin at h
  split at h
  · cases h
  · cases h
  · next raw hmember =>
    obtain ⟨p, hp, hsome⟩ := Option.map_eq_some_iff.mp h
    cases hsome
    obtain ⟨m, hm, hpin⟩ := Option.bind_eq_some_iff.mp hmember
    obtain ⟨j, hj, hobject⟩ := Option.bind_eq_some_iff.mp hm
    rw [asObject_eq_some.mp hobject] at hj
    exact ⟨m, raw, hj, hpin, hp⟩
  · cases h

/-- An entry with a pin that is not null becomes no candidate, or one with this pin normalized. -/
theorem parseEntry_carried {value pin : Json} {c : MirrorServiceInfo} (hcarries : CarriesPin value pin)
    (hnull : pin ≠ .null) (h : parseEntry value = some c) :
    ∃ raw normalized, pin = .string raw ∧ normalizePin raw = some normalized ∧
      c.certSha256 = some normalized := by
  obtain ⟨entry, service, m, rfl, hservice, hmeta, hpin⟩ := hcarries
  obtain ⟨entry', service', hentry, hservice', hcert⟩ := parseEntry_pin h
  cases hentry
  rw [hservice] at hservice'
  cases hservice'
  exact entryPin_carried hmeta hpin hnull hcert

theorem parseEntry_normalized {value : Json} {c : MirrorServiceInfo} {normalized : String}
    (h : parseEntry value = some c) (hcert : c.certSha256 = some normalized) :
    ∃ raw, CarriesPin value (.string raw) ∧ normalizePin raw = some normalized := by
  obtain ⟨entry, service, rfl, hservice, hpin⟩ := parseEntry_pin h
  rw [hcert] at hpin
  obtain ⟨m, raw, hmeta, hraw, hnormalized⟩ := entryPin_some hpin
  exact ⟨raw, ⟨entry, service, m, rfl, hservice, hmeta, hraw⟩, hnormalized⟩

end MirrorRust
