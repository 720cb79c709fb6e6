import QuorumCrypt.Base.HashMap
import QuorumCrypt.Schemes.Interface

/-!
# The key store

`keys/key_store.rs`: the keys of a node by their id, and the two ways in which the key for a request is
found. The key manager answers the lookups of the instance manager from one store, which it reads
from a file when it starts and does not change while it runs.
-/

namespace QuorumCrypt

open Rust

/-- A public key, with the private share of the node if it has one. -/
structure KeyEntry (K : Curves) where
  id : String
  isDefault : Bool
  sk : Option (PrivateKeyShare K)
  pk : PublicKey K

structure KeyStore (K : Curves) where
  keyEntries : HashMap String (KeyEntry K)

inductive KeyStoreError where
  | duplicateEntry (id : String)
  | idMismatch
  | idNotFound (id : String)
  deriving DecidableEq

def KeyStoreError.toString : KeyStoreError → String
  | duplicateEntry id => "Key with id '" ++ id ++ "' already exists"
  | idMismatch => "Key id does not match key"
  | idNotFound id => "Could not find a key with the given key_id '" ++ id ++ "'"

namespace KeyStore

variable {K : Curves}

def getKeyById (store : KeyStore K) (id : String) : Except KeyStoreError (KeyEntry K) :=
  match store.keyEntries.lookup id with
  | none => .error (.idNotFound id)
  | some entry => .ok entry

/-- Among several entries of one scheme and group, the default one is meant. -/
def getKeyBySchemeAndGroup (order : IterationOrder String (KeyEntry K)) (store : KeyStore K)
    (scheme : ThresholdScheme) (group : Group) : Except String (KeyEntry K) :=
  let matching := (store.keyEntries.values order).filter fun entry =>
    entry.pk.getScheme = scheme ∧ group = entry.pk.getGroup
  match matching with
  | [] => .error "No key matches the given scheme and group."
  | [entry] => .ok entry
  | _ =>
      match matching.filter KeyEntry.isDefault with
      | [] => .error "Could not find a default key for this scheme. Please specify a key id."
      | [entry] => .ok entry
      | _ => .error "Could not select a default key for this scheme. Please specify a key id."

/-- The lookups of the instance manager: by id when the request names one. -/
def lookup (order : IterationOrder String (KeyEntry K)) (store : KeyStore K)
    (scheme : ThresholdScheme) (group : Group) : Option String → Except String (KeyEntry K)
  | some id => (store.getKeyById id).mapError KeyStoreError.toString
  | none => store.getKeyBySchemeAndGroup order scheme group

end KeyStore

end QuorumCrypt
