import QuorumCrypt.Schemes.Sg02
import QuorumCrypt.Schemes.Bz03
import QuorumCrypt.Schemes.Bls04
import QuorumCrypt.Schemes.Cks05
import QuorumCrypt.Schemes.Sh00
import QuorumCrypt.Schemes.Frost

/-!
# One interface to all schemes

`interface.rs` and `keys/keys.rs`: the sums over the schemes and the functions that dispatch on them.
A value of a discrete logarithm scheme carries its curve, since the code tags every group element
with one. A value of another scheme than the key is an `Err`. A value of another curve is not: the
group operations panic on operands of different curves, and the pairing panics on Ed25519.
-/

namespace QuorumCrypt

open Rust

/-- The discrete logarithm groups. -/
inductive Curve where
  | bls12381
  | bn254
  | ed25519
  deriving DecidableEq

def Curve.group : Curve → Group
  | bls12381 => .bls12381
  | bn254 => .bn254
  | ed25519 => .ed25519

theorem Curve.isDl_group (c : Curve) : c.group.isDl = true := by
  cases c <;> rfl

/-- The curve of a discrete logarithm group. -/
def Group.curve : Group → Option Curve
  | .bls12381 => some .bls12381
  | .bn254 => some .bn254
  | .ed25519 => some .ed25519
  | .rsa512 | .rsa1024 | .rsa2048 | .rsa4096 => none

@[simp] theorem Group.curve_group (c : Curve) : c.group.curve = some c := by
  cases c <;> rfl

/-- What `mcore` offers for every curve: the points, the points of the extension (on Ed25519 the code
takes ordinary points there), and the pairing where there is one. -/
structure Curves where
  Point : Curve → Type
  Point2 : Curve → Type
  Target : Curve → Type
  [commGroupPoint : ∀ c, CommGroup (Point c)]
  [commGroupPoint2 : ∀ c, CommGroup (Point2 c)]
  [commGroupTarget : ∀ c, CommGroup (Target c)]
  [decidableEqPoint : ∀ c, DecidableEq (Point c)]
  [decidableEqTarget : ∀ c, DecidableEq (Target c)]
  ecp : ∀ c, EcGroup (Point c)
  ecp2 : ∀ c, EcGroup (Point2 c)
  group_ecp : ∀ c, (ecp c).group = c.group
  group_ecp2 : ∀ c, (ecp2 c).group = c.group
  pairing : ∀ c, c.group.supportsPairings = true →
    BilinearPairing (Target c) (ecp2 c).toPrimeGroup (ecp c).toPrimeGroup

attribute [instance] Curves.commGroupPoint Curves.commGroupPoint2 Curves.commGroupTarget
  Curves.decidableEqPoint Curves.decidableEqTarget

/-- The curve `c` with its pairing. -/
def Curves.pairingCurve (K : Curves) (c : Curve) (hc : c.group.supportsPairings = true) :
    PairingCurve (K.Point2 c) (K.Point c) (K.Target c) where
  ecp2 := K.ecp2 c
  ecp := K.ecp c
  pairing := K.pairing c hc
  group_eq := by rw [K.group_ecp2, K.group_ecp]
  supportsPairings_group := by rw [K.group_ecp, hc]

theorem Curve.supportsPairings_bn254 : Curve.bn254.group.supportsPairings = true := rfl

/-- The residues modulo seven in the place of every curve. -/
def Curves.seven : Curves where
  Point _ := Multiplicative (ZMod 7)
  Point2 _ := Multiplicative (ZMod 7)
  Target _ := Multiplicative (ZMod 7)
  ecp c := EcGroup.residues 7 Nat.prime_seven c.group c.isDl_group
  ecp2 c := EcGroup.residues 7 Nat.prime_seven c.group c.isDl_group
  group_ecp _ := rfl
  group_ecp2 _ := rfl
  pairing _ _ := @BilinearPairing.residues 7 fact_prime_seven

variable (K : Curves)

/-! ### Keys -/

inductive PublicKey where
  | sg02 (c : Curve) (key : Sg02PublicKey (K.Point c))
  | bz03 (c : Curve) (key : Bz03PublicKey (K.Point2 c) (K.Point c))
  | bls04 (c : Curve) (key : Bls04PublicKey (K.Point c))
  | cks05 (c : Curve) (key : Cks05PublicKey (K.Point c))
  | sh00 (key : Sh00PublicKey)
  | frost (c : Curve) (key : FrostPublicKey (K.Point c))

inductive PrivateKeyShare where
  | sg02 (c : Curve) (key : Sg02PrivateKey (K.Point c))
  | bz03 (c : Curve) (key : Bz03PrivateKey (K.Point2 c) (K.Point c))
  | bls04 (c : Curve) (key : Bls04PrivateKey (K.Point c))
  | cks05 (c : Curve) (key : Cks05PrivateKey (K.Point c))
  | sh00 (key : Sh00PrivateKey)
  | frost (c : Curve) (key : FrostPrivateKey (K.Point c))

variable {K}

namespace PublicKey

def getScheme : PublicKey K → ThresholdScheme
  | sg02 _ _ => .sg02
  | bz03 _ _ => .bz03
  | bls04 _ _ => .bls04
  | cks05 _ _ => .cks05
  | sh00 _ => .sh00
  | frost _ _ => .frost

def getGroup : PublicKey K → Group
  | sg02 c _ => c.group
  | bz03 c _ => c.group
  | bls04 c _ => c.group
  | cks05 c _ => c.group
  | sh00 key => key.group
  | frost c _ => c.group

end PublicKey

namespace PrivateKeyShare

def getScheme : PrivateKeyShare K → ThresholdScheme
  | sg02 _ _ => .sg02
  | bz03 _ _ => .bz03
  | bls04 _ _ => .bls04
  | cks05 _ _ => .cks05
  | sh00 _ => .sh00
  | frost _ _ => .frost

def getKeyId : PrivateKeyShare K → String
  | sg02 _ key => key.pubkey.id
  | bz03 _ key => key.pubkey.id
  | bls04 _ key => key.pubkey.id
  | cks05 _ key => key.pubkey.id
  | sh00 key => key.pubkey.id
  | frost _ key => key.pubkey.id

def getShareId : PrivateKeyShare K → UInt16
  | sg02 _ key => key.id
  | bz03 _ key => key.id
  | bls04 _ key => key.id
  | cks05 _ key => key.id
  | sh00 key => key.id
  | frost _ key => key.id

def getGroup : PrivateKeyShare K → Group
  | sg02 c _ => c.group
  | bz03 c _ => c.group
  | bls04 c _ => c.group
  | cks05 c _ => c.group
  | sh00 key => key.pubkey.group
  | frost c _ => c.group

def getThreshold : PrivateKeyShare K → UInt16
  | sg02 _ key => key.pubkey.k
  | bz03 _ key => key.pubkey.k
  | bls04 _ key => key.pubkey.k
  | cks05 _ key => key.pubkey.k
  | sh00 key => key.pubkey.t
  | frost _ key => key.pubkey.k

def getPublicKey : PrivateKeyShare K → PublicKey K
  | sg02 c key => .sg02 c key.pubkey
  | bz03 c key => .bz03 c key.pubkey
  | bls04 c key => .bls04 c key.pubkey
  | cks05 c key => .cks05 c key.pubkey
  | sh00 key => .sh00 key.pubkey
  | frost c key => .frost c key.pubkey

theorem getScheme_getPublicKey (key : PrivateKeyShare K) :
    key.getPublicKey.getScheme = key.getScheme := by
  cases key <;> rfl

end PrivateKeyShare

/-! ### Ciphertexts, shares and signatures -/

variable (K)

inductive Ciphertext where
  | sg02 (c : Curve) (ct : Sg02Ciphertext (K.Point c))
  | bz03 (c : Curve) (ct : Bz03Ciphertext (K.Point2 c) (K.Point c))

inductive DecryptionShare where
  | sg02 (c : Curve) (share : Sg02DecryptionShare (K.Point c))
  | bz03 (c : Curve) (share : Bz03DecryptionShare (K.Point2 c))

inductive SignatureShare where
  | bls04 (c : Curve) (share : Bls04SignatureShare (K.Point2 c))
  | sh00 (share : Sh00SignatureShare)
  | frost (c : Curve) (share : FrostSignatureShare)

inductive Signature where
  | bls04 (c : Curve) (sig : Bls04Signature (K.Point2 c))
  | sh00 (sig : Sh00Signature)
  | frost (c : Curve) (sig : FrostSignature (K.Point c))

inductive CoinShare where
  | cks05 (c : Curve) (share : Cks05CoinShare (K.Point c))

variable {K}

namespace Ciphertext

def getCk : Ciphertext K → Bytes
  | sg02 _ ct => ct.ck
  | bz03 _ ct => ct.ck

def getScheme : Ciphertext K → ThresholdScheme
  | sg02 _ _ => .sg02
  | bz03 _ _ => .bz03

def getGroup : Ciphertext K → Group
  | sg02 c _ => c.group
  | bz03 c _ => c.group

def getKeyId : Ciphertext K → String
  | sg02 _ ct => ct.keyId
  | bz03 _ ct => ct.keyId

end Ciphertext

def DecryptionShare.getId : DecryptionShare K → UInt16
  | sg02 _ share => share.id
  | bz03 _ share => share.id

def SignatureShare.getId : SignatureShare K → UInt16
  | bls04 _ share => share.id
  | sh00 share => share.id
  | frost _ share => share.id

def CoinShare.getId : CoinShare K → UInt16
  | cks05 _ share => share.id

/-- The encoding of a signature: the id of the scheme and the encoding of the scheme's own value. -/
def Signature.toBytes (E : Primitives) : Signature K → Bytes
  | bls04 c sig => E.asn1Write [.int ThresholdScheme.bls04.getId, .octets (sig.toBytes E (K.ecp2 c))]
  | sh00 sig => E.asn1Write [.int ThresholdScheme.sh00.getId, .octets (sig.toBytes E)]
  | frost c sig => E.asn1Write [.int ThresholdScheme.frost.getId, .octets (sig.toBytes E (K.ecp c))]

/-- Run an operation on a value of the curve `c`, given one of the curve `c'`. The group operations
panic when the curves differ. -/
def onCurve {α : Type} (F : Curve → Type) (c c' : Curve) (value : F c')
    (operation : F c → SchemeOutcome α) : SchemeOutcome α :=
  if h : c' = c then operation (h ▸ value) else .panic

@[simp] theorem onCurve_self {α : Type} (F : Curve → Type) (c : Curve) (value : F c)
    (operation : F c → SchemeOutcome α) : onCurve F c c value operation = operation value := by
  simp [onCurve]

theorem onCurve_eq_ok {α : Type} {F : Curve → Type} {c c' : Curve} {value : F c'}
    {operation : F c → SchemeOutcome α} {a : α} :
    onCurve F c c' value operation = .ok a ↔ ∃ h : c' = c, operation (h ▸ value) = .ok a := by
  unfold onCurve
  split
  · rename_i h
    exact ⟨fun hok => ⟨h, hok⟩, fun ⟨_, hok⟩ => hok⟩
  · rename_i h
    simp [h]

/-- Run an operation that pairs, which panics on a curve without a pairing. -/
def withPairing {α : Type} (c : Curve)
    (operation : PairingCurve (K.Point2 c) (K.Point c) (K.Target c) → SchemeOutcome α) :
    SchemeOutcome α :=
  if h : c.group.supportsPairings = true then operation (K.pairingCurve c h) else .panic

theorem withPairing_eq_ok {α : Type} {c : Curve}
    {operation : PairingCurve (K.Point2 c) (K.Point c) (K.Target c) → SchemeOutcome α} {a : α} :
    withPairing c operation = .ok a
      ↔ ∃ hc : c.group.supportsPairings = true, operation (K.pairingCurve c hc) = .ok a := by
  unfold withPairing
  split
  · rename_i h
    exact ⟨fun hok => ⟨h, hok⟩, fun ⟨_, hok⟩ => hok⟩
  · rename_i h
    simp [h]

theorem withPairing_eq {α : Type} {c : Curve} (hc : c.group.supportsPairings = true)
    (operation : PairingCurve (K.Point2 c) (K.Point c) (K.Target c) → SchemeOutcome α) :
    withPairing c operation = operation (K.pairingCurve c hc) := by
  simp [withPairing, hc]

/-- `unwrap_enum_vec!`: all values are of one variant, or the error. -/
def unwrapEnumVec {S T : Type} (variant : S → Option T) (err : SchemeError) (vec : List S) :
    SchemeOutcome (List T) :=
  vec.mapM fun val =>
    match variant val with
    | some x => .ok x
    | none => .err err

/-- Interpolation indexes the first share and multiplies the others to it: it panics on an empty
vector and on shares of different curves. -/
def onOneCurve {F : Curve → Type} {α : Type} (shares : List (Σ c, F c))
    (operation : ∀ c, List (F c) → SchemeOutcome α) : SchemeOutcome α :=
  match shares with
  | [] => .panic
  | ⟨c, _⟩ :: _ => do
      let shares ← shares.mapM fun share => onCurve F c share.1 share.2 .ok
      operation c shares

variable (E : Primitives)

/-! ### Threshold ciphers -/

namespace DecryptionShare

def asSg02 : DecryptionShare K → Option (Σ c, Sg02DecryptionShare (K.Point c))
  | sg02 c share => some ⟨c, share⟩
  | bz03 _ _ => none

def asBz03 : DecryptionShare K → Option (Σ c, Bz03DecryptionShare (K.Point2 c))
  | bz03 c share => some ⟨c, share⟩
  | sg02 _ _ => none

end DecryptionShare

namespace ThresholdCipher

def encrypt (msg label : Bytes) (pubkey : PublicKey K) (params : Drawn) :
    SchemeOutcome (Ciphertext K) :=
  match pubkey with
  | .sg02 c key => .sg02 c <$> Sg02ThresholdCipher.encrypt E (K.ecp c) msg label key params
  | .bz03 c key => withPairing c fun C =>
      .bz03 c <$> Bz03ThresholdCipher.encrypt E C msg label key params
  | _ => .err .wrongKeyProvided

def verifyCiphertext (ct : Ciphertext K) (pubkey : PublicKey K) : SchemeOutcome Bool :=
  match ct with
  | .sg02 c ct =>
      match pubkey with
      | .sg02 c' key => onCurve (fun c => Sg02PublicKey (K.Point c)) c c' key fun key =>
          .ok (Sg02ThresholdCipher.verifyCiphertext E (K.ecp c) ct key)
      | _ => .err .wrongKeyProvided
  | .bz03 c ct =>
      match pubkey with
      | .bz03 _ key => withPairing c fun C => Bz03ThresholdCipher.verifyCiphertext E C ct key
      | _ => .err .wrongKeyProvided

def verifyShare (share : DecryptionShare K) (ct : Ciphertext K) (pubkey : PublicKey K) :
    SchemeOutcome Bool :=
  match ct with
  | .sg02 c ct =>
      match share with
      | .sg02 c' s =>
          match pubkey with
          | .sg02 c'' key =>
              onCurve (fun c => Sg02DecryptionShare (K.Point c)) c c' s fun s =>
              onCurve (fun c => Sg02PublicKey (K.Point c)) c c'' key fun key =>
                Sg02ThresholdCipher.verifyShare E (K.ecp c) s ct key
          | _ => .err .wrongKeyProvided
      | _ => .err .wrongScheme
  | .bz03 c ct =>
      match share with
      | .bz03 c' s =>
          match pubkey with
          | .bz03 c'' key => withPairing c fun C =>
              onCurve (fun c => Bz03DecryptionShare (K.Point2 c)) c c' s fun s =>
              onCurve (fun c => Bz03PublicKey (K.Point2 c) (K.Point c)) c c'' key fun key =>
                Bz03ThresholdCipher.verifyShare C s ct key
          | _ => .err .wrongKeyProvided
      | _ => .err .wrongScheme

def partialDecrypt (ct : Ciphertext K) (privkey : PrivateKeyShare K) (params : Drawn) :
    SchemeOutcome (DecryptionShare K) :=
  match ct with
  | .sg02 c ct =>
      match privkey with
      | .sg02 c' key => onCurve (fun c => Sg02PrivateKey (K.Point c)) c c' key fun key =>
          .ok (.sg02 c (Sg02ThresholdCipher.partialDecrypt E (K.ecp c) ct key params))
      | _ => .err .wrongKeyProvided
  | .bz03 c ct =>
      match privkey with
      | .bz03 c' key =>
          onCurve (fun c => Bz03PrivateKey (K.Point2 c) (K.Point c)) c c' key fun key =>
          .ok (.bz03 c (Bz03ThresholdCipher.partialDecrypt ct key))
      | _ => .err .wrongKeyProvided

def assemble (shares : List (DecryptionShare K)) (ct : Ciphertext K) : SchemeOutcome Bytes :=
  match ct with
  | .sg02 _ ct => do
      let shares ← unwrapEnumVec DecryptionShare.asSg02 .wrongScheme shares
      onOneCurve shares fun c shares => Sg02ThresholdCipher.assemble E (K.ecp c) shares ct
  | .bz03 _ ct => do
      let shares ← unwrapEnumVec DecryptionShare.asBz03 .wrongScheme shares
      onOneCurve shares fun c shares => Bz03ThresholdCipher.assemble E (K.ecp2 c) shares ct

end ThresholdCipher

/-! ### Threshold signatures -/

namespace SignatureShare

def asBls04 : SignatureShare K → Option (Σ c, Bls04SignatureShare (K.Point2 c))
  | bls04 c share => some ⟨c, share⟩
  | _ => none

def asSh00 : SignatureShare K → Option Sh00SignatureShare
  | sh00 share => some share
  | _ => none

end SignatureShare

namespace ThresholdSignature

/-- On Ed25519 the hash to a point of the extension panics. -/
def partialSign (msg label : Bytes) (secret : PrivateKeyShare K) (params : Drawn) :
    SchemeOutcome (SignatureShare K) :=
  match secret with
  | .bls04 c s => withPairing c fun C =>
      .ok (.bls04 c (Bls04ThresholdSignature.partialSign E C msg label s))
  | .sh00 s => .sh00 <$> Sh00ThresholdSignature.partialSign E msg label s params.scalar
  | _ => .err .wrongKeyProvided

def verifyShare (share : SignatureShare K) (msg : Bytes) (pubkey : PublicKey K) :
    SchemeOutcome Bool :=
  match share with
  | .bls04 c s =>
      match pubkey with
      | .bls04 c' key => withPairing c fun C =>
          onCurve (fun c => Bls04PublicKey (K.Point c)) c c' key fun key =>
            Bls04ThresholdSignature.verifyShare E C s msg key
      | _ => .err .wrongKeyProvided
  | .sh00 s =>
      match pubkey with
      | .sh00 key => Sh00ThresholdSignature.verifyShare E s msg key
      | _ => .err .wrongKeyProvided
  | .frost _ _ => .err .wrongScheme

def assemble (shares : List (SignatureShare K)) (msg : Bytes) (pubkey : PublicKey K) :
    SchemeOutcome (Signature K) :=
  match pubkey with
  | .bls04 _ key => do
      let shares ← unwrapEnumVec SignatureShare.asBls04 .wrongScheme shares
      onOneCurve shares fun c shares =>
        .bls04 c <$> Bls04ThresholdSignature.assemble (K.ecp2 c) shares msg key
  | .sh00 key => do
      let shares ← unwrapEnumVec SignatureShare.asSh00 .wrongScheme shares
      .sh00 <$> Sh00ThresholdSignature.assemble E shares msg key
  | _ => .err .wrongKeyProvided

end ThresholdSignature

/-! ### Threshold coins -/

def CoinShare.asCks05 : CoinShare K → Option (Σ c, Cks05CoinShare (K.Point c))
  | cks05 c share => some ⟨c, share⟩

namespace ThresholdCoin

def createShare (name : Bytes) (privateKey : PrivateKeyShare K) (rng : Drawn) :
    SchemeOutcome (CoinShare K) :=
  match privateKey with
  | .cks05 c sk => .cks05 c <$> Cks05ThresholdCoin.createShare E (K.ecp c) name sk rng.scalar
  | _ => .err .wrongKeyProvided

def verifyShare (share : CoinShare K) (name : Bytes) (publicKey : PublicKey K) :
    SchemeOutcome Bool :=
  match publicKey with
  | .cks05 c pk =>
      match share with
      | .cks05 c' s => onCurve (fun c => Cks05CoinShare (K.Point c)) c c' s fun s =>
          Cks05ThresholdCoin.verifyShare E (K.ecp c) s name pk
  | _ => .err .wrongKeyProvided

def assemble (shares : List (CoinShare K)) : SchemeOutcome UInt8 := do
  let shares ← unwrapEnumVec CoinShare.asCks05 .wrongScheme shares
  onOneCurve shares fun c shares => Cks05ThresholdCoin.assemble (K.ecp c) shares

end ThresholdCoin

/-! ### Shares of one variant and one curve -/

theorem unwrapEnumVec_map {S T U : Type} (variant : S → Option T) (inject : U → S) (value : U → T)
    (h : ∀ x, variant (inject x) = some (value x)) (err : SchemeError) (xs : List U) :
    unwrapEnumVec variant err (xs.map inject) = .ok (xs.map value) := by
  rw [unwrapEnumVec]
  induction xs with
  | nil => rfl
  | cons x xs ih => rw [List.map_cons, List.mapM_cons, h, ih]; rfl

theorem onOneCurve_map {F : Curve → Type} {α : Type} {c : Curve} {xs : List (F c)} (hne : xs ≠ [])
    (operation : ∀ c, List (F c) → SchemeOutcome α) :
    onOneCurve (xs.map fun x => (⟨c, x⟩ : Σ c, F c)) operation = operation c xs := by
  have hmap : ∀ xs : List (F c),
      (xs.map fun x => (⟨c, x⟩ : Σ c, F c)).mapM
        (fun share => onCurve F c share.1 share.2 .ok) = .ok xs := by
    intro xs
    induction xs with
    | nil => rfl
    | cons x xs ih => rw [List.map_cons, List.mapM_cons, ih, onCurve_self]; rfl
  cases xs with
  | nil => exact absurd rfl hne
  | cons x xs =>
      change ((List.map _ (x :: xs)).mapM _ >>= fun shares => operation c shares) = _
      rw [hmap, Outcome.ok_bind]

section OneCurve

variable {c : Curve}

theorem ThresholdCipher.assemble_sg02 {shares : List (Sg02DecryptionShare (K.Point c))}
    (hne : shares ≠ []) (c' : Curve) (ct : Sg02Ciphertext (K.Point c')) :
    ThresholdCipher.assemble E (shares.map (.sg02 c)) (.sg02 c' ct)
      = Sg02ThresholdCipher.assemble E (K.ecp c) shares ct := by
  rw [ThresholdCipher.assemble,
    unwrapEnumVec_map DecryptionShare.asSg02 (DecryptionShare.sg02 c) (fun s => ⟨c, s⟩) fun _ => rfl,
    Outcome.ok_bind, onOneCurve_map hne]

theorem ThresholdCipher.assemble_bz03 {shares : List (Bz03DecryptionShare (K.Point2 c))}
    (hne : shares ≠ []) (c' : Curve) (ct : Bz03Ciphertext (K.Point2 c') (K.Point c')) :
    ThresholdCipher.assemble E (shares.map (.bz03 c)) (.bz03 c' ct)
      = Bz03ThresholdCipher.assemble E (K.ecp2 c) shares ct := by
  rw [ThresholdCipher.assemble,
    unwrapEnumVec_map DecryptionShare.asBz03 (DecryptionShare.bz03 c) (fun s => ⟨c, s⟩) fun _ => rfl,
    Outcome.ok_bind, onOneCurve_map hne]

theorem ThresholdSignature.assemble_bls04 {shares : List (Bls04SignatureShare (K.Point2 c))}
    (hne : shares ≠ []) (msg : Bytes) (c' : Curve) (key : Bls04PublicKey (K.Point c')) :
    ThresholdSignature.assemble E (shares.map (.bls04 c)) msg (.bls04 c' key)
      = .bls04 c <$> Bls04ThresholdSignature.assemble (K.ecp2 c) shares msg key := by
  rw [ThresholdSignature.assemble,
    unwrapEnumVec_map SignatureShare.asBls04 (SignatureShare.bls04 c) (fun s => ⟨c, s⟩) fun _ => rfl,
    Outcome.ok_bind, onOneCurve_map hne]

theorem ThresholdSignature.assemble_sh00 (shares : List Sh00SignatureShare) (msg : Bytes)
    (key : Sh00PublicKey) :
    ThresholdSignature.assemble E (shares.map (.sh00 (K := K))) msg (.sh00 key)
      = .sh00 <$> Sh00ThresholdSignature.assemble E shares msg key := by
  rw [ThresholdSignature.assemble,
    unwrapEnumVec_map SignatureShare.asSh00 .sh00 (fun s => s) fun _ => rfl, Outcome.ok_bind, List.map_id']

theorem ThresholdCoin.assemble_cks05 {shares : List (Cks05CoinShare (K.Point c))}
    (hne : shares ≠ []) :
    ThresholdCoin.assemble (shares.map (.cks05 (K := K) c))
      = Cks05ThresholdCoin.assemble (K.ecp c) shares := by
  rw [ThresholdCoin.assemble,
    unwrapEnumVec_map CoinShare.asCks05 (CoinShare.cks05 c) (fun s => ⟨c, s⟩) fun _ => rfl,
    Outcome.ok_bind, onOneCurve_map hne]

end OneCurve

end QuorumCrypt
