import QuorumCrypt.Schemes.Types

/-!
# Round protocols

`protocols/src/interface.rs`. A protocol is a state with five methods, as the trait
`ThresholdRoundProtocol` has them. A method that returns `Err` ends the run of the protocol, so the
state it leaves behind is not kept. What `do_round` draws from the random generator is an argument.
-/

namespace QuorumCrypt

open Rust

inductive ProtocolError where
  | schemeError (error : SchemeError)
  | invalidCiphertext
  | instanceNotFound
  | internalError
  | notFinished
  | invalidRound
  | invalidShare
  deriving DecidableEq

/-- The outcome of a method of a protocol. -/
abbrev ProtocolOutcome (α : Type) := Outcome ProtocolError α

/-- `?` on a `SchemeError` in a method that returns a `ProtocolError`. -/
def liftScheme {α : Type} (x : SchemeOutcome α) : ProtocolOutcome α :=
  x.mapErr .schemeError

@[simp] theorem liftScheme_ok {α : Type} (a : α) : liftScheme (.ok a) = .ok a := rfl

theorem liftScheme_eq_ok {α : Type} {x : SchemeOutcome α} {a : α} :
    liftScheme x = .ok a ↔ x = .ok a :=
  Outcome.mapErr_eq_ok

/-- The trait `ThresholdRoundProtocol`, with states `σ`, messages `μ` and random draws `ρ`. -/
structure ThresholdRoundProtocol (σ μ ρ : Type) where
  doRound : σ → ρ → ProtocolOutcome (μ × σ)
  isReadyForNextRound : σ → Bool
  isReadyToFinalize : σ → Bool
  finalize : σ → ProtocolOutcome (Bytes × σ)
  update : σ → μ → ProtocolOutcome σ
  /-- `ProtocolMessageWrapper::is_default`: such a message is not sent. -/
  isDefault : μ → Bool

/-- `ProtocolMessageWrapper::unwrap`, the same for all message types: the payload has to be UTF-8,
where `expect` panics, and JSON of the message type. The argument is what `serde_json` makes of a
text with the decoders of the message type, which may themselves panic. -/
def unwrapPayload {μ : Type} (fromStr : String → Outcome Unit μ) (payload : Bytes) :
    ProtocolOutcome μ :=
  match String.fromUTF8? payload.toByteArray with
  | none => .panic
  | some text => (fromStr text).mapErr fun _ => .internalError

end QuorumCrypt
