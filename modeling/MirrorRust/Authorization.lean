import MirrorRust.Negotiation

/-! What a registration reply must say to authorize an adapter, or the fallback. -/
namespace MirrorRust

/-! ### The checks of one member -/

/-- A member is missing or null. -/
def Absent (map : Fields) (key : String) : Prop := map.get key = none ∨ map.get key = some .null

theorem negotiated_bind {α β : Type} {x : Negotiated α} {f : α → Negotiated β} {b : β} :
    (x >>= f) = .ok b ↔ ∃ a, x = .ok a ∧ f a = .ok b := bind_ok_iff

theorem negotiated_pure {α : Type} {a b : α} : (pure a : Negotiated α) = .ok b ↔ a = b := by
  constructor
  · intro h
    exact Except.ok.inj h
  · rintro rfl
    rfl

theorem refuse_iff {α β : Type} {e : NegotiatedError} {rest : α → Negotiated β} {b : β} :
    ((throw e : Negotiated α) >>= rest) = .ok b ↔ False := by
  constructor
  · intro h
    cases h
  · exact False.elim

/-- The rest after a refusal under a condition. -/
theorem refuse_if {P : Prop} [Decidable P] {α β : Type} {e : NegotiatedError}
    {f : α → Negotiated β} {rest : Negotiated β} {b : β} :
    (if P then (throw e : Negotiated α) >>= f else rest) = .ok b ↔ ¬ P ∧ rest = .ok b := by
  split_ifs with h
  · simp only [refuse_iff, h, not_true_eq_false, false_and]
  · simp only [h, not_false_eq_true, true_and]

theorem orUnexpected_iff {α : Type} {value : Option α} {message : String} {a : α} :
    orUnexpected value message = .ok a ↔ value = some a := by
  cases value with
  | none =>
    constructor
    · intro h
      cases h
    · intro h
      cases h
  | some b => exact ⟨fun h => congrArg some (Except.ok.inj h), fun h => congrArg _ (Option.some.inj h)⟩

theorem asObject_iff {j : Json} {map : Fields} : j.asObject = some map ↔ j = .object map := by
  cases j <;> simp [Json.asObject]

theorem asStr_iff {j : Json} {text : String} : j.asStr = some text ↔ j = .string text := by
  cases j <;> simp [Json.asStr]

theorem object_iff {value : Json} {path : String} {allowed required : List String} {map : Fields} :
    object value path allowed required = .ok map ↔ value = .object map ∧
      (∀ key ∈ map.map Prod.fst, key ∈ allowed) ∧ ∀ key ∈ required, map.get key ≠ none := by
  unfold object
  rw [negotiated_bind]
  simp only [orUnexpected_iff, asObject_iff]
  constructor
  · rintro ⟨map', rfl, h⟩
    cases hallowed : (map'.map Prod.fst).find? fun key => decide (key ∉ allowed) with
    | some key =>
      simp only [hallowed, refuse_iff] at h
    | none =>
      cases hrequired : required.find? fun key => decide (Fields.get map' key = none) with
      | some key => simp only [hallowed, hrequired, refuse_iff] at h
      | none =>
        simp only [hallowed, hrequired, negotiated_pure] at h
        subst h
        rw [List.find?_eq_none] at hallowed hrequired
        exact ⟨rfl, fun key hkey => by simpa using hallowed key hkey,
          fun key hkey => by simpa using hrequired key hkey⟩
  · rintro ⟨rfl, hallowed, hrequired⟩
    refine ⟨map, rfl, ?_⟩
    have hfirst : (map.map Prod.fst).find? (fun key => decide (key ∉ allowed)) = none :=
      List.find?_eq_none.mpr fun key hkey => by simpa using hallowed key hkey
    have hsecond : required.find? (fun key => decide (Fields.get map key = none)) = none :=
      List.find?_eq_none.mpr fun key hkey => by simpa using hrequired key hkey
    simp only [hfirst, hsecond, negotiated_pure]

theorem shortString_iff {value : Json} {path text : String} :
    shortString value path = .ok text ↔ value = .string text ∧ text.utf8ByteSize ≤ 256 := by
  unfold shortString
  rw [negotiated_bind]
  simp only [orUnexpected_iff, asStr_iff]
  constructor
  · rintro ⟨text', rfl, h⟩
    split_ifs at h with hsize
    · exact absurd h (by rw [refuse_iff]; exact id)
    · cases h
      exact ⟨rfl, not_lt.mp hsize⟩
  · rintro ⟨rfl, hsize⟩
    refine ⟨text, rfl, ?_⟩
    rw [if_neg (not_lt.mpr hsize)]
    rfl

theorem optionalDigest_iff {map : Fields} {key : String} {digest : Option SemanticDigest} :
    optionalDigest map key = .ok digest ↔ (Absent map key ∧ digest = none) ∨
      ∃ d : SemanticDigest, map.get key = some (.string d.toWire) ∧ digest = some d := by
  unfold optionalDigest Absent
  cases hget : map.get key with
  | none => simp [eq_comm]
  | some value =>
    cases value with
    | null => simp [eq_comm]
    | string text =>
      cases hparse : SemanticDigest.parseWire text with
      | error e =>
        have hnone : ∀ d : SemanticDigest, text ≠ d.toWire := by
          intro d hd
          rw [SemanticDigest.parseWire_iff.mpr hd] at hparse
          cases hparse
        simp [Except.map, hparse, hnone]
      | ok d =>
        have hd := SemanticDigest.parseWire_iff.mp hparse
        subst hd
        simp only [Except.map, hparse, Option.some.injEq, Json.string.injEq, Except.ok.injEq]
        constructor
        · rintro rfl
          exact Or.inr ⟨d, rfl, rfl⟩
        · rintro (⟨h | h, -⟩ | ⟨d', hd, rfl⟩)
          · cases h
          · cases h
          · rw [SemanticDigest.toWire_inj hd]
    | _ => simp

theorem optionalShortString_iff {map : Fields} {key : String} {text : Option String} :
    optionalShortString map key = .ok text ↔ (Absent map key ∧ text = none) ∨
      ∃ s, map.get key = some (.string s) ∧ s.utf8ByteSize ≤ 256 ∧ text = some s := by
  unfold optionalShortString Absent
  cases hget : map.get key with
  | none => simp [eq_comm]
  | some value =>
    have hshort : ∀ s, (shortString value ("modelInterface." ++ key)).map some = .ok (some s) ↔
        value = .string s ∧ s.utf8ByteSize ≤ 256 := by
      intro s
      rw [← shortString_iff]
      cases shortString value ("modelInterface." ++ key) <;> simp [Except.map]
    have hnone : (shortString value ("modelInterface." ++ key)).map some ≠ .ok none := by
      cases shortString value ("modelInterface." ++ key) <;> simp [Except.map]
    cases value with
    | null => simp [eq_comm]
    | string value =>
      cases text with
      | none => simpa using hnone
      | some s =>
        simp only [hshort, Json.string.injEq, Option.some.injEq]
        constructor
        · rintro ⟨rfl, hsize⟩
          exact Or.inr ⟨value, rfl, hsize, rfl⟩
        · rintro (⟨h | h, -⟩ | ⟨s', rfl, hsize, rfl⟩)
          · cases h
          · cases h
          · exact ⟨rfl, hsize⟩
    | _ =>
      cases text with
      | none => simpa using hnone
      | some s => simpa using hshort s

theorem optionalNonnegativeInteger_false {map : Fields} {key : String} :
    optionalNonnegativeInteger map key = .ok false ↔ Absent map key := by
  unfold optionalNonnegativeInteger Absent
  cases hget : map.get key with
  | none => simp
  | some value =>
    cases value with
    | null => simp
    | number n =>
      simp only
      split_ifs <;> simp
    | _ => simp

/-- The word of a status. -/
def ModelInterfaceStatus.wire : ModelInterfaceStatus → String
  | .matched => "matched"
  | .resolved => "resolved"
  | .notModified => "not_modified"
  | .mismatch => "mismatch"
  | .unsupported => "unsupported"
  | .unavailable => "unavailable"
  | .tooLarge => "too_large"

theorem status_iff {value : String} {s : ModelInterfaceStatus} :
    status value = .ok s ↔ value = s.wire := by
  unfold status
  constructor
  · intro h
    split at h <;> cases h <;> rfl
  · rintro rfl
    cases s <;> rfl

theorem present_none {map : Fields} {key : String} : map.present key = none ↔ Absent map key := by
  unfold Fields.present Absent
  cases hget : map.get key with
  | none => simp
  | some value => cases value <;> simp [Json.isNull]

theorem present_some {map : Fields} {key : String} {value : Json} :
    map.present key = some value ↔ map.get key = some value ∧ value ≠ .null := by
  unfold Fields.present
  cases hget : map.get key with
  | none => simp
  | some j =>
    rw [Option.filter_some]
    cases j <;> simp [Json.isNull] <;> rintro rfl <;> simp

theorem item_string {map : Fields} {key text : String} :
    map.item key = .string text ↔ map.get key = some (.string text) := by
  unfold Fields.item
  cases hget : map.get key with
  | none => simp
  | some value => simp

/-! ### The reply -/

/-- The members of a negotiation reply. -/
def replyNames : List String :=
  ["schema", "status", "descriptorSchema", "semanticDigest", "provenanceDigest",
    "descriptorBytes", "descriptor"]

/-- The line reports a valid specification, with the members `outer`. -/
structure SpecValidReply (line : String) (outer : Fields) : Prop where
  parsed : strictParse line = .ok (.object outer)
  step : outer.get "proto_step" = some (.string "spec_validated")
  result : outer.get "result" = some (.string "valid")

/-- The extension matches the digest that the request has pinned. -/
structure MatchedExtension (extension : Fields) (pin : SemanticDigest) : Prop where
  names : ∀ key ∈ extension.map Prod.fst, key ∈ replyNames
  schema : extension.get "schema" = some (.string MODEL_INTERFACE_NEGOTIATION_SCHEMA)
  status : extension.get "status" = some (.string "matched")
  descriptorSchema : extension.get "descriptorSchema" =
    some (.string MODEL_INTERFACE_DESCRIPTOR_SCHEMA)
  semanticDigest : extension.get "semanticDigest" = some (.string pin.toWire)
  provenanceDigest : Absent extension "provenanceDigest" ∨
    ∃ digest : SemanticDigest, extension.get "provenanceDigest" = some (.string digest.toWire)
  descriptor : Absent extension "descriptor"
  descriptorBytes : Absent extension "descriptorBytes"

/-- The extension names no descriptor, as the mirror cannot resolve one. -/
structure UnresolvedExtension (extension : Fields) : Prop where
  names : ∀ key ∈ extension.map Prod.fst, key ∈ replyNames
  schema : extension.get "schema" = some (.string MODEL_INTERFACE_NEGOTIATION_SCHEMA)
  status : extension.get "status" = some (.string "unsupported") ∨
    extension.get "status" = some (.string "unavailable")
  descriptorSchema : Absent extension "descriptorSchema"
  semanticDigest : Absent extension "semanticDigest"
  provenanceDigest : Absent extension "provenanceDigest"
  descriptor : Absent extension "descriptor"
  descriptorBytes : Absent extension "descriptorBytes"

/-- The line authorizes the registered adapter. -/
def MatchedLine (line : String) (pin : SemanticDigest) : Prop :=
  ∃ outer extension, SpecValidReply line outer ∧
    outer.get "modelInterface" = some (.object extension) ∧ MatchedExtension extension pin

/-- The line authorizes a fallback, where there may be one. -/
def FallbackLine (line : String) : Prop :=
  ∃ outer, SpecValidReply line outer ∧ (Absent outer "modelInterface" ∨
    ∃ extension, outer.get "modelInterface" = some (.object extension) ∧
      UnresolvedExtension extension)

theorem authorizeReply_iff {extension : Json} {request : ModelInterfaceVerifyRequest}
    {fallback : Bool} {authority : Authorization} :
    authorizeReply extension request fallback = .ok authority ↔ ∃ reply, extension = .object reply ∧
      ((authority = .matched request.expectedSemanticDigest MODEL_INTERFACE_DESCRIPTOR_SCHEMA ∧
          MatchedExtension reply request.expectedSemanticDigest) ∨
        (authority = .fallback ∧ request.policy = .prefer ∧ fallback = true ∧
          UnresolvedExtension reply)) := by
  unfold authorizeReply
  simp only [negotiated_bind, object_iff, refuse_if, optionalShortString_iff, optionalDigest_iff,
    shortString_iff, status_iff]
  constructor
  · rintro ⟨reply, ⟨rfl, hnames, -⟩, hschema, descriptorSchema, hdescriptorSchema, digest, hdigest,
      provenance, hprovenance, bytes, hbytes, word, ⟨hword, -⟩, s, rfl, h⟩
    have hschema := item_string.mp (not_not.mp hschema)
    have hword := item_string.mp hword
    refine ⟨reply, rfl, ?_⟩
    have hunresolved : s = .unsupported ∨ s = .unavailable →
        ¬ (descriptorSchema.isSome = true ∨ digest.isSome = true ∨ provenance.isSome = true ∨
          bytes = true ∨ (reply.present "descriptor").isSome = true) →
        UnresolvedExtension reply := by
      intro hs hforbidden
      simp only [not_or, Bool.not_eq_true, Option.isSome_eq_false_iff, Option.isNone_iff_eq_none]
        at hforbidden
      obtain ⟨hnoSchema, hnoDigest, hnoProvenance, rfl, hnoDescriptor⟩ := hforbidden
      have hstatus : reply.get "status" = some (.string "unsupported") ∨
          reply.get "status" = some (.string "unavailable") := by
        rcases hs with rfl | rfl
        · exact Or.inl hword
        · exact Or.inr hword
      refine ⟨hnames, hschema, hstatus, ?_, ?_, ?_, present_none.mp hnoDescriptor,
        optionalNonnegativeInteger_false.mp hbytes⟩
      · rcases hdescriptorSchema with ⟨habsent, -⟩ | ⟨text, -, -, htext⟩
        · exact habsent
        · rw [hnoSchema] at htext
          cases htext
      · rcases hdigest with ⟨habsent, -⟩ | ⟨d, -, hd⟩
        · exact habsent
        · rw [hnoDigest] at hd
          cases hd
      · rcases hprovenance with ⟨habsent, -⟩ | ⟨d, -, hd⟩
        · exact habsent
        · rw [hnoProvenance] at hd
          cases hd
    have hfallback : ∀ {message : String},
        (if request.policy = .prefer ∧ fallback = true then pure .fallback
          else throw (unexpected message) : Negotiated Authorization) = .ok authority →
        authority = .fallback ∧ request.policy = .prefer ∧ fallback = true := by
      intro message h
      split_ifs at h with hprefer
      exact ⟨(negotiated_pure.mp h).symm, hprefer⟩
    cases s with
    | matched =>
      simp only [negotiated_bind, orUnexpected_iff, refuse_if, negotiated_pure, not_or, not_not,
        Bool.not_eq_true, Option.isSome_eq_false_iff, Option.isNone_iff_eq_none] at h
      obtain ⟨text, rfl, d, rfl, ⟨rfl, rfl, hnoDescriptor, rfl⟩, rfl⟩ := h
      refine Or.inl ⟨rfl, hnames, hschema, hword, ?_, ?_, ?_, present_none.mp hnoDescriptor,
        optionalNonnegativeInteger_false.mp hbytes⟩
      · rcases hdescriptorSchema with ⟨-, htext⟩ | ⟨text, hget, -, htext⟩
        · cases htext
        · cases htext
          exact hget
      · rcases hdigest with ⟨-, hd⟩ | ⟨d, hget, hd⟩
        · cases hd
        · cases hd
          exact hget
      · rcases hprovenance with ⟨habsent, -⟩ | ⟨d, hget, -⟩
        · exact Or.inl habsent
        · exact Or.inr ⟨d, hget⟩
    | unsupported =>
      simp only [refuse_if] at h
      obtain ⟨hauthority, hpolicy, hpresent⟩ := hfallback h.2
      exact Or.inr ⟨hauthority, hpolicy, hpresent, hunresolved (Or.inl rfl) h.1⟩
    | unavailable =>
      simp only [refuse_if] at h
      obtain ⟨hauthority, hpolicy, hpresent⟩ := hfallback h.2
      exact Or.inr ⟨hauthority, hpolicy, hpresent, hunresolved (Or.inr rfl) h.1⟩
    | mismatch =>
      simp only [refuse_if] at h
      cases h.2
    | tooLarge => cases h
    | resolved => cases h
    | notModified => cases h
  · rintro ⟨reply, rfl, ⟨rfl, h⟩ | ⟨rfl, hpolicy, hpresent, h⟩⟩
    · have hrequired : ∀ key ∈ ["schema", "status"], Fields.get reply key ≠ none := by
        simp [h.schema, h.status]
      obtain ⟨provenance, hprovenance⟩ : ∃ provenance,
          (Absent reply "provenanceDigest" ∧ provenance = none) ∨
            ∃ d : SemanticDigest, Fields.get reply "provenanceDigest" = some (.string d.toWire) ∧
              provenance = some d := by
        rcases h.provenanceDigest with habsent | ⟨d, hd⟩
        · exact ⟨none, Or.inl ⟨habsent, rfl⟩⟩
        · exact ⟨some d, Or.inr ⟨d, hd, rfl⟩⟩
      refine ⟨reply, ⟨rfl, h.names, hrequired⟩, not_not.mpr (item_string.mpr h.schema),
        some MODEL_INTERFACE_DESCRIPTOR_SCHEMA, Or.inr ⟨_, h.descriptorSchema, by decide, rfl⟩,
        some request.expectedSemanticDigest, Or.inr ⟨_, h.semanticDigest, rfl⟩,
        provenance, hprovenance, false, optionalNonnegativeInteger_false.mpr h.descriptorBytes,
        "matched", ⟨item_string.mpr h.status, by decide⟩, .matched, rfl, ?_⟩
      simp only [negotiated_bind, orUnexpected_iff, refuse_if, negotiated_pure]
      exact ⟨_, rfl, _, rfl, by simp [present_none.mpr h.descriptor], rfl⟩
    · obtain ⟨s, hs, hword⟩ : ∃ s : ModelInterfaceStatus, (s = .unsupported ∨ s = .unavailable) ∧
          Fields.get reply "status" = some (.string s.wire) := by
        rcases h.status with hword | hword
        · exact ⟨.unsupported, Or.inl rfl, hword⟩
        · exact ⟨.unavailable, Or.inr rfl, hword⟩
      have hrequired : ∀ key ∈ ["schema", "status"], Fields.get reply key ≠ none := by
        simp [h.schema, hword]
      have hsize : s.wire.utf8ByteSize ≤ 256 := by
        rcases hs with rfl | rfl <;> decide
      refine ⟨reply, ⟨rfl, h.names, hrequired⟩, not_not.mpr (item_string.mpr h.schema),
        none, Or.inl ⟨h.descriptorSchema, rfl⟩, none, Or.inl ⟨h.semanticDigest, rfl⟩,
        none, Or.inl ⟨h.provenanceDigest, rfl⟩, false,
        optionalNonnegativeInteger_false.mpr h.descriptorBytes, s.wire,
        ⟨item_string.mpr hword, hsize⟩, s, rfl, ?_⟩
      rcases hs with rfl | rfl <;>
        simp [present_none.mpr h.descriptor, hpolicy, hpresent, negotiated_pure]

/-- The reply that an outer record spells, when it reports a valid specification. -/
theorem registrationReply_specValid {outer : Fields} :
    registrationReply outer = .ok .specValid ↔
      outer.get "proto_step" = some (.string "spec_validated") ∧
        outer.get "result" = some (.string "valid") := by
  unfold registrationReply
  simp only [negotiated_bind, orUnexpected_iff, Option.bind_eq_some_iff, asStr_iff]
  constructor
  · rintro ⟨step, ⟨j, hstep, rfl⟩, h⟩
    split at h
    · obtain ⟨error, -, h⟩ := negotiated_bind.mp h
      cases h
    · obtain ⟨error, -, h⟩ := negotiated_bind.mp h
      cases h
    · split at h
      · exact ⟨hstep, by assumption⟩
      · obtain ⟨detail, -, h⟩ := negotiated_bind.mp h
        cases h
      · cases h
    · cases h
  · rintro ⟨hstep, hresult⟩
    refine ⟨"spec_validated", ⟨_, hstep, rfl⟩, ?_⟩
    simp only [hresult]
    rfl

theorem authorize_iff {raw : Json} {request : ModelInterfaceVerifyRequest} {fallback : Bool}
    {authority : Authorization} :
    authorize raw request fallback = .ok authority ↔ ∃ outer, raw = .object outer ∧
      registrationReply outer = .ok .specValid ∧
      (match Fields.present outer "modelInterface" with
        | none => authorizeMissing request fallback
        | some extension => authorizeReply extension request fallback) = .ok authority := by
  have hfailure : ∀ extension error,
      authorizeFailure extension request error ≠ .ok authority := by
    intro extension error h
    unfold authorizeFailure at h
    simp only [negotiated_bind, refuse_if] at h
    repeat obtain ⟨_, h⟩ := h
  unfold authorize
  simp only [negotiated_bind, orUnexpected_iff, asObject_iff]
  constructor
  · rintro ⟨outer, rfl, reply, hreply, h⟩
    refine ⟨outer, rfl, ?_⟩
    cases reply with
    | specValid => exact ⟨hreply, h⟩
    | registerError error =>
      simp only at h
      split at h
      · cases h
      · exact absurd h (hfailure _ _)
    | specInvalid detail => cases h
    | protocolError error => cases h
    | other step => cases h
  · rintro ⟨outer, rfl, hreply, h⟩
    exact ⟨outer, rfl, .specValid, hreply, h⟩

theorem authorizeMissing_iff {request : ModelInterfaceVerifyRequest} {fallback : Bool}
    {authority : Authorization} :
    authorizeMissing request fallback = .ok authority ↔
      authority = .fallback ∧ request.policy = .prefer ∧ fallback = true := by
  unfold authorizeMissing
  split_ifs with h
  · simp [h, eq_comm]
  · simp only [false_iff]
    exact fun hauthority => h hauthority.2

/-! ### The decision -/

theorem decodeAuthorization_iff {line : String} {request : ModelInterfaceVerifyRequest}
    {fallback : Bool} {authority : Authorization} :
    decodeAuthorization line request fallback = .ok authority ↔
      ∃ raw, strictParse line = .ok raw ∧ authorize raw request fallback = .ok authority := by
  unfold decodeAuthorization
  cases hparse : strictParse line with
  | error e => simp [bind, Except.bind]
  | ok raw =>
    simp only [bind, Except.bind, returned, Except.ok.injEq, exists_eq_left']
    cases authorize raw request fallback <;> simp

/-- Where the reply is admitted, it is one of the two lines. -/
theorem decodeAuthorization_cases {line : String} {request : ModelInterfaceVerifyRequest}
    {fallback : Bool} {authority : Authorization} :
    decodeAuthorization line request fallback = .ok authority ↔
      (authority = .matched request.expectedSemanticDigest MODEL_INTERFACE_DESCRIPTOR_SCHEMA ∧
          MatchedLine line request.expectedSemanticDigest) ∨
        (authority = .fallback ∧ request.policy = .prefer ∧ fallback = true ∧
          FallbackLine line) := by
  rw [decodeAuthorization_iff]
  simp only [authorize_iff, registrationReply_specValid]
  constructor
  · rintro ⟨raw, hparse, outer, rfl, ⟨hstep, hresult⟩, h⟩
    have hvalid : SpecValidReply line outer := ⟨hparse, hstep, hresult⟩
    cases hextension : Fields.present outer "modelInterface" with
    | none =>
      simp only [hextension, authorizeMissing_iff] at h
      obtain ⟨hauthority, hpolicy, hpresent⟩ := h
      exact Or.inr ⟨hauthority, hpolicy, hpresent, outer, hvalid,
        Or.inl (present_none.mp hextension)⟩
    | some extension =>
      simp only [hextension, authorizeReply_iff] at h
      obtain ⟨reply, rfl, ⟨hauthority, hmatched⟩ | ⟨hauthority, hpolicy, hpresent, hunresolved⟩⟩ := h
      · exact Or.inl ⟨hauthority, outer, reply, hvalid, (present_some.mp hextension).1, hmatched⟩
      · exact Or.inr ⟨hauthority, hpolicy, hpresent, outer, hvalid,
          Or.inr ⟨reply, (present_some.mp hextension).1, hunresolved⟩⟩
  · have hobject : ∀ {outer extension : Fields},
        outer.get "modelInterface" = some (.object extension) →
        outer.present "modelInterface" = some (.object extension) :=
      fun h => present_some.mpr ⟨h, by intro h; cases h⟩
    rintro (⟨rfl, outer, extension, hvalid, hget, hmatched⟩ |
      ⟨rfl, hpolicy, hpresent, outer, hvalid, habsent | ⟨extension, hget, hunresolved⟩⟩)
    · refine ⟨_, hvalid.parsed, outer, rfl, ⟨hvalid.step, hvalid.result⟩, ?_⟩
      simp only [hobject hget, authorizeReply_iff]
      exact ⟨extension, rfl, Or.inl ⟨trivial, hmatched⟩⟩
    · refine ⟨_, hvalid.parsed, outer, rfl, ⟨hvalid.step, hvalid.result⟩, ?_⟩
      simp only [present_none.mpr habsent, authorizeMissing_iff]
      exact ⟨trivial, hpolicy, hpresent⟩
    · refine ⟨_, hvalid.parsed, outer, rfl, ⟨hvalid.step, hvalid.result⟩, ?_⟩
      simp only [hobject hget, authorizeReply_iff]
      exact ⟨extension, rfl, Or.inr ⟨trivial, hpolicy, hpresent, hunresolved⟩⟩

theorem strictParse_error {line : String} {e : Fault NegotiatedError}
    (h : strictParse line = .error e) : ∃ message, e = .error (unexpected message) := by
  unfold strictParse at h
  rcases parse_cases line strictLimits with ⟨j, hparse⟩ | ⟨message, hparse⟩
  · rw [hparse] at h
    cases h
  · rw [hparse] at h
    cases h
    exact ⟨message, rfl⟩

/-- A line that is not admitted is refused with an error. -/
theorem decodeAuthorization_error {line : String} {request : ModelInterfaceVerifyRequest}
    {fallback : Bool} {e : Fault NegotiatedError}
    (h : decodeAuthorization line request fallback = .error e) : ∃ e', e = .error e' := by
  unfold decodeAuthorization at h
  cases hparse : strictParse line with
  | error e' =>
    obtain ⟨message, rfl⟩ := strictParse_error hparse
    rw [hparse] at h
    cases h
    exact ⟨_, rfl⟩
  | ok raw =>
    rw [hparse] at h
    simp only [bind, Except.bind, returned] at h
    split at h
    · cases h
    · cases h
      exact ⟨_, rfl⟩

end MirrorRust
