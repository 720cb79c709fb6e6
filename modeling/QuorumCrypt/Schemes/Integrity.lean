import QuorumCrypt.Schemes.Sg02
import QuorumCrypt.Schemes.Bz03

/-!
# What the check of a ciphertext binds

The ciphers accept a ciphertext when a hash of some of its fields fits the rest. Here two accepted
ciphertexts with the same point and the same proof are compared. Sg02 hashes the wrapped key and the
label one after the other, so only their concatenation is bound: bytes may be moved from the label to
the wrapped key, where the decryption cuts them off again. Bz03 hashes the wrapped key alone. Of the
hash functions only this is assumed, that they tell the two hashed strings apart.
-/

namespace QuorumCrypt

open Rust

/-- The hash tells the two strings apart. -/
def Separates (hash : Bytes → ℕ) (b b' : Bytes) : Prop := hash b = hash b' → b = b'

/-- A wrapped key longer than the digest is cut to its length. -/
theorem openMessage_append {E : Primitives} (point ctxt extra : Bytes) {ck : Bytes}
    (hck : ck.length = 32) :
    openMessage E point (ck ++ extra) ctxt = openMessage E point ck ctxt := by
  have hxor : xor (E.hash256 point) (ck ++ extra) = xor (E.hash256 point) ck := by
    have hsame : (E.hash256 point).length = ck.length := by rw [E.length_hash256, hck]
    have happend : List.zipWith (fun x y : UInt8 => x ^^^ y) (E.hash256 point ++ []) (ck ++ extra)
        = List.zipWith (fun x y => x ^^^ y) (E.hash256 point) ck
          ++ List.zipWith (fun x y => x ^^^ y) [] extra := List.zipWith_append hsame
    simpa [xor] using happend
  rw [openMessage, openMessage, hxor]

namespace Sg02ThresholdCipher

variable {G : Type} [CommGroup G] {E : Primitives} {C : EcGroup G}

/-- The points that are hashed after the wrapped key and the label. -/
def hashedPoints (C : EcGroup G) (ct : Sg02Ciphertext G) (pk : Sg02PublicKey G) : Bytes :=
  C.toBytes ct.u ++ C.toBytes (C.newPowBig ct.f / ct.u ^ ct.e) ++ C.toBytes ct.uBar
    ++ C.toBytes (pk.gBar ^ ct.f / ct.uBar ^ ct.e)

/-- The string the proof of a ciphertext hashes. -/
def hashedBytes (C : EcGroup G) (ct : Sg02Ciphertext G) (pk : Sg02PublicKey G) : Bytes :=
  ct.ck ++ ct.label ++ hashedPoints C ct pk

/-- The hash of the proof as a function of that string. -/
def proofHash (E : Primitives) (C : EcGroup G) (b : Bytes) : ℕ := hashToScalar E C b % C.order

theorem verifyCiphertext_iff {ct : Sg02Ciphertext G} {pk : Sg02PublicKey G} :
    verifyCiphertext E C ct pk = true ↔ ct.e = proofHash E C (hashedBytes C ct pk) := by
  rw [verifyCiphertext, beq_iff_eq, h1, proofHash, hashedBytes, hashedPoints]
  simp only [List.append_assoc]

/-- Two ciphertexts with the same point and proof. -/
structure SameProof (ct ct' : Sg02Ciphertext G) : Prop where
  u : ct.u = ct'.u
  uBar : ct.uBar = ct'.uBar
  e : ct.e = ct'.e
  f : ct.f = ct'.f

theorem SameProof.hashedPoints_eq {ct ct' : Sg02Ciphertext G} (hsame : SameProof ct ct')
    (pk : Sg02PublicKey G) : hashedPoints C ct pk = hashedPoints C ct' pk := by
  rw [hashedPoints, hashedPoints, hsame.u, hsame.uBar, hsame.e, hsame.f]

/-- What is bound is the concatenation of the wrapped key and the label. -/
theorem ck_append_label_eq {pk : Sg02PublicKey G} {ct ct' : Sg02Ciphertext G}
    (haccept : verifyCiphertext E C ct pk = true) (haccept' : verifyCiphertext E C ct' pk = true)
    (hsame : SameProof ct ct')
    (hhash : Separates (proofHash E C) (hashedBytes C ct pk) (hashedBytes C ct' pk)) :
    ct.ck ++ ct.label = ct'.ck ++ ct'.label := by
  have hbytes : hashedBytes C ct pk = hashedBytes C ct' pk := by
    apply hhash
    rw [← verifyCiphertext_iff.mp haccept, ← verifyCiphertext_iff.mp haccept', hsame.e]
  rw [hashedBytes, hashedBytes, hsame.hashedPoints_eq pk] at hbytes
  exact List.append_cancel_right hbytes

/-- Move the first `i` bytes of the label to the end of the wrapped key. -/
def moveBytes (i : ℕ) (ct : Sg02Ciphertext G) : Sg02Ciphertext G :=
  { ct with ck := ct.ck ++ ct.label.take i, label := ct.label.drop i }

theorem hashedBytes_moveBytes (i : ℕ) (ct : Sg02Ciphertext G) (pk : Sg02PublicKey G) :
    hashedBytes C (moveBytes i ct) pk = hashedBytes C ct pk := by
  change ct.ck ++ ct.label.take i ++ ct.label.drop i ++ hashedPoints C ct pk = _
  rw [List.append_assoc ct.ck, List.take_append_drop, hashedBytes]

theorem verifyCiphertext_moveBytes (i : ℕ) (ct : Sg02Ciphertext G) (pk : Sg02PublicKey G) :
    verifyCiphertext E C (moveBytes i ct) pk = verifyCiphertext E C ct pk := by
  rw [Bool.eq_iff_iff, verifyCiphertext_iff, verifyCiphertext_iff, hashedBytes_moveBytes]
  rfl

theorem assemble_moveBytes (i : ℕ) {ct : Sg02Ciphertext G} (hck : ct.ck.length = 32)
    (shares : List (Sg02DecryptionShare G)) :
    assemble E C shares (moveBytes i ct) = assemble E C shares ct := by
  rw [assemble, assemble]
  apply congrArg (interpolate C shares >>= ·)
  funext ry
  exact openMessage_append _ _ _ hck

/-- `encrypt` returns the label it was given and a wrapped key as long as the digest. -/
theorem label_and_length_of_encrypt {msg label : Bytes} {pk : Sg02PublicKey G} {params : Drawn}
    {ct : Sg02Ciphertext G} (hct : encrypt E C msg label pk params = .ok ct) :
    ct.label = label ∧ ct.ck.length = 32 := by
  obtain ⟨⟨encryption, ck⟩, hseal, hct⟩ := Outcome.bind_eq_ok.mp hct
  obtain ⟨ctxt, -, hpair⟩ := Outcome.bind_eq_ok.mp hseal
  obtain ⟨rfl, rfl⟩ := Prod.mk.inj (Outcome.ok.inj hpair)
  obtain rfl := Outcome.ok.inj hct
  refine ⟨rfl, ?_⟩
  rw [xor, List.length_zipWith, E.length_hash256, params.symmKey.property, Nat.min_self]

end Sg02ThresholdCipher

namespace Bz03ThresholdCipher

variable {G₂ G₁ Gt : Type} [CommGroup G₂] [CommGroup G₁] [CommGroup Gt] {E : Primitives}
  {C : PairingCurve G₂ G₁ Gt}

/-- The string the check of a ciphertext hashes. -/
def hashedBytes (C : PairingCurve G₂ G₁ Gt) (ct : Bz03Ciphertext G₂ G₁) : Bytes :=
  C.ecp2.toBytes ct.u ++ ct.ck

/-- The exponent of the check as a function of that string. -/
def checkHash (E : Primitives) (C : PairingCurve G₂ G₁ Gt) (b : Bytes) : ℕ :=
  C.ecp.scalarFromBytes (List.replicate (48 - 32) 0 ++ E.hash256 b) % C.ecp.order

variable [DecidableEq Gt]

/-- The wrapped key is bound unless the point is the neutral element. -/
theorem ck_eq {H₂ H₁ : Type} {pk : Bz03PublicKey H₂ H₁} {ct ct' : Bz03Ciphertext G₂ G₁}
    (haccept : verifyCiphertext E C ct pk = .ok true)
    (haccept' : verifyCiphertext E C ct' pk = .ok true) (hu : ct.u = ct'.u) (hhr : ct.hr = ct'.hr)
    (hhash : Separates (checkHash E C) (hashedBytes C ct) (hashedBytes C ct')) (hne : ct.u ≠ 1) :
    ct.ck = ct'.ck := by
  have hpair : C.pairing.pair ct.u (h E C ct.u ct.ck) = C.pairing.pair ct.u (h E C ct.u ct'.ck) := by
    have hleft := C.ddh_eq_ok_true.mp haccept
    have hright := C.ddh_eq_ok_true.mp haccept'
    rw [← hu, ← hhr] at hright
    exact hleft.trans hright.symm
  have hpoint : C.ecp.generator ^ checkHash E C (hashedBytes C ct)
      = C.ecp.generator ^ checkHash E C (hashedBytes C ct') := by
    rw [hashedBytes, hashedBytes, ← hu]
    exact (C.pairing.pair_right_inj hne).mp hpair
  have hbytes : hashedBytes C ct = hashedBytes C ct' := by
    apply hhash
    rwa [C.ecp.generator_pow_inj, ZMod.natCast_eq_natCast_iff', checkHash, checkHash, Nat.mod_mod,
      Nat.mod_mod] at hpoint
  rw [hashedBytes, hashedBytes, hu] at hbytes
  exact List.append_cancel_left hbytes

/-- No ciphertext of Bz03 is tied to its label: under any other one it is accepted as before and
decrypts to the same. -/
theorem relabel {H₂ H₁ : Type} (pk : Bz03PublicKey H₂ H₁) (ct : Bz03Ciphertext G₂ G₁)
    (label : Bytes) (shares : List (Bz03DecryptionShare G₂)) :
    verifyCiphertext E C { ct with label } pk = verifyCiphertext E C ct pk
      ∧ assemble E C.ecp2 shares { ct with label } = assemble E C.ecp2 shares ct := ⟨rfl, rfl⟩

end Bz03ThresholdCipher

/-- When the check of a ciphertext ties it to its label and its wrapped key. Of two accepted Sg02
ciphertexts with one proof, exactly when the wrapped keys have the same length; of two accepted Bz03
ciphertexts, exactly when the labels are the same anyway, and so are the wrapped keys if the point is
the neutral element. -/
theorem label_and_ck_bound_iff {G G₂ G₁ Gt : Type} [CommGroup G] [CommGroup G₂] [CommGroup G₁]
    [CommGroup Gt] [DecidableEq Gt] (E : Primitives) (C : EcGroup G) (D : PairingCurve G₂ G₁ Gt) :
    (∀ (pk : Sg02PublicKey G) (ct ct' : Sg02Ciphertext G),
      Sg02ThresholdCipher.verifyCiphertext E C ct pk = true →
      Sg02ThresholdCipher.verifyCiphertext E C ct' pk = true →
      Sg02ThresholdCipher.SameProof ct ct' →
      Separates (Sg02ThresholdCipher.proofHash E C) (Sg02ThresholdCipher.hashedBytes C ct pk)
        (Sg02ThresholdCipher.hashedBytes C ct' pk) →
      (ct.label = ct'.label ∧ ct.ck = ct'.ck ↔ ct.ck.length = ct'.ck.length))
    ∧ (∀ (pk : Bz03PublicKey G₂ G₁) (ct ct' : Bz03Ciphertext G₂ G₁),
      Bz03ThresholdCipher.verifyCiphertext E D ct pk = .ok true →
      Bz03ThresholdCipher.verifyCiphertext E D ct' pk = .ok true →
      ct.u = ct'.u → ct.hr = ct'.hr →
      Separates (Bz03ThresholdCipher.checkHash E D) (Bz03ThresholdCipher.hashedBytes D ct)
        (Bz03ThresholdCipher.hashedBytes D ct') →
      (ct.label = ct'.label ∧ ct.ck = ct'.ck
        ↔ ct.label = ct'.label ∧ (ct.u = 1 → ct.ck = ct'.ck)))
    ∧ ∀ (pk : Bz03PublicKey G₂ G₁) (ct : Bz03Ciphertext G₂ G₁) (label : Bytes)
        (shares : List (Bz03DecryptionShare G₂)),
      Bz03ThresholdCipher.verifyCiphertext E D { ct with label } pk
          = Bz03ThresholdCipher.verifyCiphertext E D ct pk
        ∧ Bz03ThresholdCipher.assemble E D.ecp2 shares { ct with label }
          = Bz03ThresholdCipher.assemble E D.ecp2 shares ct := by
  refine ⟨?_, ?_, ?_⟩
  · intro pk ct ct' haccept haccept' hsame hhash
    have hbound := Sg02ThresholdCipher.ck_append_label_eq haccept haccept' hsame hhash
    constructor
    · intro heq
      rw [heq.2]
    · intro hlength
      obtain ⟨hck, hlabel⟩ := List.append_inj hbound hlength
      exact ⟨hlabel, hck⟩
  · intro pk ct ct' haccept haccept' hu hhr hhash
    constructor
    · intro heq
      exact ⟨heq.1, fun _ => heq.2⟩
    · intro heq
      refine ⟨heq.1, ?_⟩
      by_cases hne : ct.u = 1
      · exact heq.2 hne
      · exact Bz03ThresholdCipher.ck_eq haccept haccept' hu hhr hhash hne
  · intro pk ct label shares
    exact Bz03ThresholdCipher.relabel pk ct label shares

/-- One party over the residues modulo seven encrypts `[104]` with Bz03 under the label `[9]`. The
ciphertext is accepted under the empty label too, but with no other wrapped key. -/
theorem label_and_ck_bound_iff_seven :
    ∃ (pk : Bz03PublicKey (Multiplicative (ZMod 7)) (Multiplicative (ZMod 7)))
      (ct : Bz03Ciphertext (Multiplicative (ZMod 7)) (Multiplicative (ZMod 7))),
      Bz03ThresholdCipher.verifyCiphertext .truncating .seven ct pk = .ok true
      ∧ ct.label = [9] ∧ ct.u ≠ 1
      ∧ Bz03ThresholdCipher.verifyCiphertext .truncating .seven { ct with label := [] } pk = .ok true
      ∧ ∀ ck, Bz03ThresholdCipher.verifyCiphertext .truncating .seven { ct with ck } pk = .ok true →
        Separates (Bz03ThresholdCipher.checkHash .truncating .seven)
          (Bz03ThresholdCipher.hashedBytes .seven ct)
          (Bz03ThresholdCipher.hashedBytes .seven { ct with ck }) →
        ct.ck = ck := by
  let pk := Bz03ThresholdCipher.publicKey .truncating .seven 1 1 id
  obtain ⟨ct, hct⟩ : ∃ ct, Bz03ThresholdCipher.encrypt .truncating .seven [104] [9] pk
      ⟨fun i => i + 1, Drawn.counting.symmKey⟩ = .ok ct :=
    Bz03ThresholdCipher.encrypt_returns fun key nonce => ⟨_, rfl⟩
  have haccept := Bz03ThresholdCipher.verifyCiphertext_encrypt hct
  have hne : ct.u ≠ 1 := by
    rw [(Bz03ThresholdCipher.encrypt_eq_ok hct).2.1]
    decide +kernel
  have hlabel : ct.label = [9] := by
    obtain ⟨sealed, -, heq⟩ := Outcome.bind_eq_ok.mp hct
    rw [← Outcome.ok.inj heq]
  obtain ⟨-, hbound, hrelabel⟩ := label_and_ck_bound_iff .truncating EcGroup.seven PairingCurve.seven
  refine ⟨pk, ct, haccept, hlabel, hne, (hrelabel pk ct [] []).1.trans haccept, ?_⟩
  intro ck haccept' hhash
  exact ((hbound pk ct { ct with ck } haccept haccept' rfl rfl hhash).mpr
    ⟨rfl, fun hone => absurd hone hne⟩).2

/-- One party over the residues modulo seven encrypts `[104]` under the label `[9]`. With the label
moved into the wrapped key the ciphertext is accepted under the empty label, with the same proof, and
decrypts to the same. -/
theorem label_moved_seven :
    ∃ (pk : Sg02PublicKey (Multiplicative (ZMod 7)))
      (ct ct' : Sg02Ciphertext (Multiplicative (ZMod 7)))
      (shares : List (Sg02DecryptionShare (Multiplicative (ZMod 7)))),
      Sg02ThresholdCipher.verifyCiphertext .truncating .seven ct pk = true
      ∧ Sg02ThresholdCipher.verifyCiphertext .truncating .seven ct' pk = true
      ∧ Sg02ThresholdCipher.SameProof ct ct'
      ∧ Separates (Sg02ThresholdCipher.proofHash .truncating .seven)
          (Sg02ThresholdCipher.hashedBytes .seven ct pk)
          (Sg02ThresholdCipher.hashedBytes .seven ct' pk)
      ∧ ct.label = [9] ∧ ct'.label = []
      ∧ Sg02ThresholdCipher.assemble .truncating .seven shares ct = .ok [104]
      ∧ Sg02ThresholdCipher.assemble .truncating .seven shares ct' = .ok [104] := by
  let pk := Sg02ThresholdCipher.publicKey .truncating .seven 1 1 id
  obtain ⟨ct, hct⟩ : ∃ ct, Sg02ThresholdCipher.encrypt .truncating .seven [104] [9] pk .counting
      = .ok ct := Sg02ThresholdCipher.encrypt_returns fun key nonce => ⟨_, rfl⟩
  obtain ⟨hlabel, hlength⟩ := Sg02ThresholdCipher.label_and_length_of_encrypt hct
  have haccept := Sg02ThresholdCipher.verifyCiphertext_encrypt hct
  -- the share of the one party
  let share : Sg02DecryptionShare (Multiplicative (ZMod 7)) :=
    ⟨1, [9], ct.u ^ dealtShare EcGroup.seven.order 1 id 1, 0, 0⟩
  have hassemble : Sg02ThresholdCipher.assemble .truncating .seven [share] ct = .ok [104] := by
    apply Sg02ThresholdCipher.assemble_eq_ok (k := 1) (n := 1) le_rfl (by decide) hct
    · intro s hs
      obtain rfl := List.mem_singleton.mp hs
      rfl
    · rfl
    · exact List.nodup_singleton _
    · intro s hs
      obtain rfl := List.mem_singleton.mp hs
      exact le_rfl
  refine ⟨pk, ct, Sg02ThresholdCipher.moveBytes 1 ct, [share], haccept, ?_, ⟨rfl, rfl, rfl, rfl⟩, ?_,
    hlabel, ?_, hassemble, ?_⟩
  · rw [Sg02ThresholdCipher.verifyCiphertext_moveBytes]
    exact haccept
  · intro _
    rw [Sg02ThresholdCipher.hashedBytes_moveBytes]
  · change ct.label.drop 1 = []
    rw [hlabel]
    rfl
  · rw [Sg02ThresholdCipher.assemble_moveBytes 1 hlength]
    exact hassemble

end QuorumCrypt
