import QuorumCrypt.Base.Outcome

/-!
# Schemes, groups and errors

The enumerations of `scheme_types.proto` with what `scheme_types_impl.rs` says about them, and the
errors of `interface.rs`.
-/

namespace QuorumCrypt

abbrev Bytes := List UInt8

inductive ThresholdScheme where
  | bz03
  | sg02
  | bls04
  | cks05
  | frost
  | sh00
  deriving DecidableEq

inductive Group where
  | bls12381
  | bn254
  | ed25519
  | rsa512
  | rsa1024
  | rsa2048
  | rsa4096
  deriving DecidableEq

inductive ThresholdOperation where
  | encryption
  | signature
  | coin
  deriving DecidableEq

def ThresholdOperation.asStrName : ThresholdOperation → String
  | encryption => "Encryption"
  | signature => "Signature"
  | coin => "Coin"

namespace ThresholdScheme

/-- The name the generated protobuf code gives the variant. -/
def asStrName : ThresholdScheme → String
  | bz03 => "Bz03"
  | sg02 => "Sg02"
  | bls04 => "Bls04"
  | cks05 => "Cks05"
  | frost => "Frost"
  | sh00 => "Sh00"

/-- The number that encodes the scheme in a serialized value. -/
def getId : ThresholdScheme → Int
  | bz03 => 0
  | sg02 => 1
  | bls04 => 2
  | cks05 => 3
  | frost => 4
  | sh00 => 5

def getOperation : ThresholdScheme → ThresholdOperation
  | bz03 => .encryption
  | sg02 => .encryption
  | bls04 => .signature
  | cks05 => .coin
  | frost => .signature
  | sh00 => .signature

end ThresholdScheme

namespace Group

def asStrName : Group → String
  | bls12381 => "Bls12381"
  | bn254 => "Bn254"
  | ed25519 => "Ed25519"
  | rsa512 => "Rsa512"
  | rsa1024 => "Rsa1024"
  | rsa2048 => "Rsa2048"
  | rsa4096 => "Rsa4096"

/-- The number that encodes the group in a serialized value. -/
def asI32 : Group → Int
  | bls12381 => 0
  | bn254 => 1
  | ed25519 => 2
  | rsa512 => 3
  | rsa1024 => 4
  | rsa2048 => 5
  | rsa4096 => 6

/-- Whether the group is a discrete logarithm group. -/
def isDl : Group → Bool
  | bls12381 => true
  | bn254 => true
  | ed25519 => true
  | rsa512 => false
  | rsa1024 => false
  | rsa2048 => false
  | rsa4096 => false

def supportsPairings : Group → Bool
  | bls12381 => true
  | bn254 => true
  | ed25519 => false
  | rsa512 => false
  | rsa1024 => false
  | rsa2048 => false
  | rsa4096 => false

end Group

inductive SchemeError where
  | wrongGroup
  | wrongScheme
  | wrongKeyProvided
  | serializationFailed
  | deserializationFailed
  | curveDoesNotSupportPairings
  | paramsNotSet
  | idNotFound
  | incompatibleGroup
  | wrongState
  | previousRoundNotExecuted
  | invalidRound
  | invalidShare
  | protocolNotFinished
  | notReadyForNextRound
  | messageNotSpecified
  | messageAlreadySpecified
  | serializationError (details : String)
  | unknownScheme
  | unknownGroupString
  | unknownGroup
  | ioError
  | invalidParams (details : Option String)
  | aborted (details : String)
  | keyNotFound
  | macFailure
  | noMoreCommitments
  deriving DecidableEq

/-- `Display`. -/
def SchemeError.toString : SchemeError → String
  | wrongGroup => "Wrong group"
  | wrongScheme => "Wrong scheme"
  | wrongKeyProvided => "Wrong key provided"
  | serializationFailed => "Serialization failed"
  | deserializationFailed => "Deserialization failed"
  | curveDoesNotSupportPairings => "Curve does not support pairings"
  | paramsNotSet => "Parameters not set"
  | idNotFound => "ID not found"
  | incompatibleGroup => "Incompatible group"
  | wrongState => "Wrong state"
  | previousRoundNotExecuted => "Previous round not executed"
  | invalidRound => "Invalid round"
  | invalidShare => "Invalid share"
  | protocolNotFinished => "Protocol not finished"
  | notReadyForNextRound => "Not ready for next round"
  | messageNotSpecified => "Message not specified"
  | messageAlreadySpecified => "Message already specified"
  | serializationError details => "Serialization error: " ++ details
  | unknownScheme => "Unknown scheme"
  | unknownGroupString => "Unknown group string"
  | unknownGroup => "Unknown group"
  | ioError => "I/O error"
  | invalidParams none => "Invalid parameters"
  | invalidParams (some details) => "Invalid parameters: " ++ details
  | aborted details => "Protocol aborted: " ++ details
  | keyNotFound => "Key not found"
  | macFailure => "MAC Failure"
  | noMoreCommitments => "No more commitments available"

/-- The outcome of a function of the scheme layer. -/
abbrev SchemeOutcome (α : Type) := Rust.Outcome SchemeError α

end QuorumCrypt
