import MirrorRust.Replay
import MirrorRust.Tally

/-! What a negotiation refuses, it refuses with an error of its own: a mismatch of a step is not
among them. -/
namespace MirrorRust

/-! ### Members and records -/

namespace Negotiated
variable {α β : Type}

/-- Whatever is refused, it is not with a mismatch of a step. -/
def Refuses (x : Negotiated α) : Prop := isStepMismatch x = false

theorem refuses_ok (a : α) : Refuses (.ok a) := rfl

theorem refuses_pure (a : α) : Refuses (pure a) := rfl

theorem refuses_error (code message : String) :
    Refuses (.error (miError code message) : Negotiated α) := rfl

theorem refuses_throw (code message : String) :
    Refuses (throw (miError code message) : Negotiated α) := rfl

theorem Refuses.error {e : NegotiatedError} (h : Refuses (.error e : Negotiated α)) :
    Refuses (.error e : Negotiated β) := by
  cases e with
  | legacy e =>
    cases e with
    | stepMismatch _ _ _ _ _ => cases h
    | _ => rfl
  | _ => rfl

theorem Refuses.bind {x : Negotiated α} {f : α → Negotiated β} (hx : Refuses x)
    (hf : ∀ a, Refuses (f a)) : Refuses (x >>= f) := by
  cases x with
  | error e => exact hx.error
  | ok a => exact hf a

theorem Refuses.map {x : Negotiated α} (hx : Refuses x) (f : α → β) : Refuses (x.map f) := by
  cases x with
  | error e => exact hx.error
  | ok a => exact refuses_ok _

theorem orUnexpected_refuses (value : Option α) (message : String) :
    Refuses (orUnexpected value message) := by
  unfold orUnexpected
  split
  · exact refuses_ok _
  · exact refuses_error _ _

theorem object_refuses (value : Json) (path : String) (allowed required : List String) :
    Refuses (object value path allowed required) := by
  unfold object
  refine (orUnexpected_refuses _ _).bind fun map => ?_
  repeat' first
    | exact refuses_pure _
    | exact (refuses_throw _ _).bind fun _ => refuses_pure _
    | refine (refuses_throw _ _).bind fun _ => ?_
    | split

theorem shortString_refuses (value : Json) (path : String) : Refuses (shortString value path) := by
  unfold shortString
  refine (orUnexpected_refuses _ _).bind fun text => ?_
  split
  · exact (refuses_throw _ _).bind fun _ => refuses_pure _
  · exact refuses_pure _

end Negotiated

/-! ### Contracts -/

namespace Tally
variable {α β : Type}

/-- The same for a check with a counter, wherever it starts. -/
def Refuses (x : Tally α) : Prop := ∀ n, Negotiated.Refuses (x.outcome n).1

theorem refuses_pure (a : α) : Refuses (pure a : Tally α) :=
  fun _ => Negotiated.refuses_ok a

theorem refuses_throw (message : String) : Refuses (throw (unexpected message) : Tally α) :=
  fun _ => Negotiated.refuses_error _ message

theorem Refuses.bind {x : Tally α} {f : α → Tally β} (hx : Refuses x)
    (hf : ∀ a, Refuses (f a)) : Refuses (x >>= f) := by
  intro n
  have hn := hx n
  rw [outcome_bind]
  rcases hout : x.outcome n with ⟨e | a, m⟩
  · rw [hout] at hn
    exact Negotiated.Refuses.error hn
  · exact hf a m

theorem refuses_lift {y : Negotiated α} (hy : Negotiated.Refuses y) :
    Refuses (liftM y : Tally α) := by
  intro n
  rw [outcome_lift]
  exact hy

theorem refuses_tallyNode (bound : ℕ) (message : String) : Refuses (tallyNode bound message) := by
  intro n
  rw [outcome_tallyNode]
  split
  · exact Negotiated.refuses_error _ _
  · exact Negotiated.refuses_ok _

theorem refuses_forM {f : β → Tally Unit} (hf : ∀ b, Refuses (f b)) (items : List β) :
    Refuses (items.forM f) := by
  induction items with
  | nil => exact refuses_pure ()
  | cons item items ih => exact (hf item).bind fun _ => ih

theorem refuses_foldlM {f : α → β → Tally α} (hf : ∀ a b, Refuses (f a b)) (items : List β)
    (a : α) : Refuses (items.foldlM f a) := by
  induction items generalizing a with
  | nil => exact refuses_pure a
  | cons item items ih =>
    rw [List.foldlM_cons]
    exact (hf a item).bind ih

theorem refuses_unexpected (value : Option α) (message : String) :
    Refuses (liftM (orUnexpected value message) : Tally α) :=
  refuses_lift (Negotiated.orUnexpected_refuses value message)

theorem refuses_object (value : Json) (path : String) (allowed required : List String) :
    Refuses (liftM (object value path allowed required) : Tally Fields) :=
  refuses_lift (Negotiated.object_refuses value path allowed required)

theorem refuses_shortString (value : Json) (path : String) :
    Refuses (liftM (shortString value path) : Tally String) :=
  refuses_lift (Negotiated.shortString_refuses value path)

/-- A literal is refused at one of its nodes, whatever is left of the levels. -/
theorem refuses_literal (levels : ℕ) (value : Json) (path : String) :
    Refuses (validateItfLiteral levels value path) := by
  induction levels generalizing value path with
  | zero => exact refuses_throw _
  | succ levels ih =>
    unfold validateItfLiteral
    refine (refuses_tallyNode _ _).bind fun _ => ?_
    refine (refuses_unexpected _ _).bind fun initial => ?_
    refine (refuses_unexpected _ _).bind fun kind => ?_
    split
    all_goals repeat' first
      | with_reducible exact refuses_pure _
      | with_reducible exact refuses_throw _
      | with_reducible exact ih _ _
      | with_reducible refine (refuses_object _ _ _ _).bind fun _ => ?_
      | with_reducible refine (refuses_shortString _ _).bind fun _ => ?_
      | with_reducible refine (refuses_unexpected _ _).bind fun _ => ?_
      | with_reducible refine (refuses_throw _).bind fun _ => ?_
      | with_reducible refine (ih _ _).bind fun _ => ?_
      | with_reducible refine refuses_forM (fun _ => ?_) _
      | split

theorem refuses_path (value : Json) (path : String) : Refuses (validatePath value path) := by
  unfold validatePath
  split
  · split
    all_goals repeat' first
      | with_reducible exact refuses_pure _
      | with_reducible exact refuses_throw _
      | with_reducible exact refuses_literal _ _ _
      | with_reducible refine (refuses_shortString _ _).bind fun _ => ?_
      | split
  · exact refuses_throw _

/-- So is a type. -/
theorem refuses_type (levels : ℕ) (value : Json) (path : String) :
    Refuses (validateModelType levels value path) := by
  induction levels generalizing value path with
  | zero => exact refuses_throw _
  | succ levels ih =>
    unfold validateModelType
    refine (refuses_tallyNode _ _).bind fun _ => ?_
    refine (refuses_unexpected _ _).bind fun tagged => ?_
    refine (refuses_unexpected _ _).bind fun kind => ?_
    split
    all_goals repeat' first
      | with_reducible exact refuses_pure _
      | with_reducible exact refuses_throw _
      | with_reducible exact ih _ _
      | with_reducible refine (refuses_object _ _ _ _).bind fun _ => ?_
      | with_reducible refine (refuses_shortString _ _).bind fun _ => ?_
      | with_reducible refine (refuses_unexpected _ _).bind fun _ => ?_
      | with_reducible refine (refuses_throw _).bind fun _ => ?_
      | with_reducible refine (ih _ _).bind fun _ => ?_
      | with_reducible refine (refuses_foldlM (fun _ _ => ?_) _ _).bind fun _ => ?_
      | with_reducible refine refuses_forM (fun _ => ?_) _
      | split

theorem refuses_input (input : Json) (path : String) : Refuses (validateInput input path) := by
  unfold validateInput
  repeat' first
    | with_reducible exact refuses_pure _
    | with_reducible exact refuses_type _ _ _
    | with_reducible refine (refuses_object _ _ _ _).bind fun _ => ?_
    | with_reducible refine (refuses_shortString _ _).bind fun _ => ?_
    | with_reducible refine (refuses_unexpected _ _).bind fun _ => ?_
    | with_reducible refine (refuses_throw _).bind fun _ => ?_
    | with_reducible refine (refuses_forM (fun _ => refuses_path _ _) _).bind fun _ => ?_
    | split

theorem refuses_action (value : Json) (path : String) : Refuses (validateAction value path) := by
  unfold validateAction
  repeat' first
    | with_reducible exact refuses_pure _
    | with_reducible refine (refuses_object _ _ _ _).bind fun _ => ?_
    | with_reducible refine (refuses_shortString _ _).bind fun _ => ?_
    | with_reducible refine (refuses_unexpected _ _).bind fun _ => ?_
    | with_reducible exact refuses_forM (fun _ => refuses_input _ _) _
    | with_reducible refine (refuses_forM (fun _ => ?_) _).bind fun _ => ?_

theorem refuses_observation (observation : Json) (path : String) :
    Refuses (validateObservation observation path) := by
  unfold validateObservation
  repeat' first
    | with_reducible exact refuses_pure _
    | with_reducible exact refuses_type _ _ _
    | with_reducible refine (refuses_object _ _ _ _).bind fun _ => ?_
    | with_reducible refine (refuses_shortString _ _).bind fun _ => ?_
    | with_reducible refine (refuses_throw _).bind fun _ => ?_
    | split

/-- A contract is refused at a member, at a bound, or where its order is not the canonical one. -/
theorem refuses_contract (value : Json) : Refuses (countContract value) := by
  unfold countContract
  repeat' first
    | with_reducible refine (refuses_object _ _ _ _).bind fun _ => ?_
    | with_reducible refine (refuses_shortString _ _).bind fun _ => ?_
    | with_reducible refine (refuses_unexpected _ _).bind fun _ => ?_
    | with_reducible refine (refuses_throw _).bind fun _ => ?_
    | with_reducible refine (refuses_forM (fun _ => refuses_action _ _) _).bind fun _ => ?_
    | with_reducible exact refuses_forM (fun _ => refuses_observation _ _) _
    | split

end Tally

/-! ### Requests and replies -/

namespace Negotiated
variable {α : Type}

theorem validateContract_refuses (value : Json) : Refuses (validateContract value) :=
  Tally.refuses_contract value 0

theorem fromHex_refuses (value : String) : Refuses (SemanticDigest.fromHex value) := by
  unfold SemanticDigest.fromHex
  split
  · exact refuses_ok _
  · exact refuses_error _ _

theorem optionalDigest_refuses (map : Fields) (key : String) : Refuses (optionalDigest map key) := by
  unfold optionalDigest
  split
  · exact refuses_ok _
  · exact refuses_ok _
  · refine Refuses.map ?_ some
    unfold SemanticDigest.parseWire
    split
    · exact fromHex_refuses _
    · exact refuses_error _ _
  · exact refuses_error _ _

theorem optionalShortString_refuses (map : Fields) (key : String) :
    Refuses (optionalShortString map key) := by
  unfold optionalShortString
  split
  · exact refuses_ok _
  · exact refuses_ok _
  · exact (shortString_refuses _ _).map some

theorem optionalNonnegativeInteger_refuses (map : Fields) (key : String) :
    Refuses (optionalNonnegativeInteger map key) := by
  unfold optionalNonnegativeInteger
  repeat' split
  all_goals first | exact refuses_ok _ | exact refuses_error _ _

theorem status_refuses (value : String) : Refuses (status value) := by
  unfold status
  split
  all_goals first | exact refuses_ok _ | exact refuses_error _ _

/-- The first line that the mirror sends after a registration. -/
theorem registrationReply_refuses (outer : Fields) : Refuses (registrationReply outer) := by
  unfold registrationReply
  refine (orUnexpected_refuses _ _).bind fun step => ?_
  split
  · exact (orUnexpected_refuses _ _).bind fun _ => refuses_pure _
  · exact (orUnexpected_refuses _ _).bind fun _ => refuses_pure _
  · split
    · exact refuses_pure _
    · exact (orUnexpected_refuses _ _).bind fun _ => refuses_pure _
    · exact refuses_throw _ _
  · exact refuses_pure _

theorem authorizeFailure_refuses (extension : Json) (request : ModelInterfaceVerifyRequest)
    (error : String) : Refuses (authorizeFailure extension request error) := by
  unfold authorizeFailure
  refine (object_refuses _ _ _ _).bind fun failure => ?_
  repeat' first
    | exact (refuses_ok ())
    | refine (refuses_throw _ _).bind fun _ => ?_
    | refine (optionalDigest_refuses _ _).bind fun _ => ?_
    | refine (optionalNonnegativeInteger_refuses _ _).bind fun _ => ?_
    | refine (shortString_refuses _ _).bind fun _ => ?_
    | refine (status_refuses _).bind fun _ => ?_
    | split

/-- The status of a reply, with its digests. -/
theorem authorizeReply_refuses (extension : Json) (request : ModelInterfaceVerifyRequest)
    (fallback : Bool) : Refuses (authorizeReply extension request fallback) := by
  unfold authorizeReply
  refine (object_refuses _ _ _ _).bind fun reply => ?_
  repeat' first
    | exact refuses_pure _
    | exact refuses_throw _ _
    | refine (refuses_throw _ _).bind fun _ => ?_
    | refine (optionalDigest_refuses _ _).bind fun _ => ?_
    | refine (optionalShortString_refuses _ _).bind fun _ => ?_
    | refine (optionalNonnegativeInteger_refuses _ _).bind fun _ => ?_
    | refine (shortString_refuses _ _).bind fun _ => ?_
    | refine (orUnexpected_refuses _ _).bind fun _ => ?_
    | refine (status_refuses _).bind fun _ => ?_
    | split

theorem authorize_refuses (raw : Json) (request : ModelInterfaceVerifyRequest) (fallback : Bool) :
    Refuses (authorize raw request fallback) := by
  unfold authorize
  refine (orUnexpected_refuses _ _).bind fun outer => ?_
  refine (registrationReply_refuses _).bind fun reply => ?_
  split
  · split
    · rfl
    · exact authorizeFailure_refuses _ _ _
  · rfl
  · split
    · unfold authorizeMissing
      split
      · exact refuses_ok _
      · exact refuses_error _ _
    · exact authorizeReply_refuses _ _ _
  · rfl
  · exact refuses_throw _ _

/-- No registration has the key, or more than one has it. -/
theorem resolveIndex_refuses {φ : Type} (registrations : CompiledAdapterRegistry φ)
    (key : CompiledAdapterKey) : Refuses (resolveIndex registrations key) := by
  unfold resolveIndex
  dsimp only
  repeat' split
  all_goals first | exact refuses_ok _ | exact refuses_error _ _

theorem encodeRegistration_refuses (registration : ClientMessage)
    (request : ModelInterfaceVerifyRequest) : Refuses (encodeRegistration registration request) := by
  unfold encodeRegistration
  dsimp only
  split
  · exact refuses_error _ _
  · exact refuses_ok _

/-- An error of the client's own side is no mismatch. -/
theorem refuses_local {e : Error} (h : e.Local) :
    Refuses (.error (.legacy e) : Negotiated α) := by
  cases e with
  | stepMismatch _ _ _ _ _ => exact absurd h id
  | _ => rfl

end Negotiated

end MirrorRust
