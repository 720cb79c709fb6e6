import QuorumCrypt.Protocols.ShareRound
import QuorumCrypt.Schemes.Interface

/-!
# The cipher, signature and coin protocols

`threshold_cipher/protocol.rs`, `threshold_signature/protocol.rs` and `threshold_coin/protocol.rs` as
instances of a protocol of one round, and which shares a node holds after any run.
-/

namespace QuorumCrypt

open Rust

variable {K : Curves} (E : Primitives)

/-- A decryption share is computed only for a ciphertext that `verify_ciphertext` accepts. -/
def ThresholdCipherProtocol (privateKey : PrivateKeyShare K) (ciphertext : Ciphertext K) :
    ShareRound (DecryptionShare K) where
  threshold := privateKey.getThreshold
  getId := DecryptionShare.getId
  ownShare params := do
    let validCtxt ← liftScheme
      (ThresholdCipher.verifyCiphertext E ciphertext privateKey.getPublicKey)
    if !validCtxt then .err .invalidCiphertext
    else liftScheme (ThresholdCipher.partialDecrypt E ciphertext privateKey params)
  verifyShare share := ThresholdCipher.verifyShare E share ciphertext privateKey.getPublicKey
  assemble shares := liftScheme (ThresholdCipher.assemble E shares ciphertext)

/-- Every use of the message unwraps the option. -/
def ThresholdSignatureProtocol (privateKey : PrivateKeyShare K) (message : Option Bytes)
    (label : Bytes) : ShareRound (SignatureShare K) where
  threshold := privateKey.getThreshold
  getId := SignatureShare.getId
  ownShare params := do
    let message ← Outcome.unwrap message
    liftScheme (ThresholdSignature.partialSign E message label privateKey params)
  verifyShare share := do
    let message ← Outcome.unwrap message
    ThresholdSignature.verifyShare E share message privateKey.getPublicKey
  assemble shares := do
    let message ← Outcome.unwrap message
    let sig ← liftScheme (ThresholdSignature.assemble E shares message privateKey.getPublicKey)
    .ok (sig.toBytes E)

def ThresholdCoinProtocol (privateKey : PrivateKeyShare K) (name : Bytes) :
    ShareRound (CoinShare K) where
  threshold := privateKey.getThreshold
  getId := CoinShare.getId
  ownShare rng := liftScheme (ThresholdCoin.createShare E name privateKey rng)
  verifyShare share := ThresholdCoin.verifyShare E share name privateKey.getPublicKey
  assemble shares := do
    let coin ← liftScheme (ThresholdCoin.assemble shares)
    .ok [coin]

/-! ### Suppression -/

namespace ShareRound

variable {S : Type} (P : ShareRound S)

/-- No delivered share that `verify_share` accepts is lost: the node holds one with its id, and it is
ready to finalize when accepted shares of as many parties as the threshold were delivered. -/
def NoSuppression (e : Execution (ShareState S) (ShareMessage S)) : Prop :=
  (∀ share ∈ deliveredShares e, P.verifyShare share = .ok true →
    ∃ held ∈ e.protocol.validShares,
      P.getId held = P.getId share ∧ P.verifyShare held = .ok true)
  ∧ ∀ ids : Finset UInt16, P.threshold.toNat ≤ ids.card →
    (∀ id ∈ ids, ∃ share ∈ deliveredShares e, P.getId share = id ∧ P.verifyShare share = .ok true) →
    P.isReadyToFinalize e.protocol = true

/-- The first share a node sees under the id of an accepted share is an accepted one. The first share
it sees under its own id is its own. -/
def FirstAccepted (own : S) (delivered : List S) : Prop :=
  ∀ share ∈ delivered, P.verifyShare share = .ok true →
    ∃ first, (own :: delivered).find? (fun s => P.getId s == P.getId share) = some first
      ∧ P.verifyShare first = .ok true

variable {P}

/-- The first share with an id is what the node holds under the id, if it accepts it. -/
theorem Collected.mem_iff_first {own : S} {state : ShareState S} {delivered : List S}
    (h : Collected P own state delivered) (share : S) :
    (∃ held ∈ state.validShares, P.getId held = P.getId share ∧ P.verifyShare held = .ok true)
      ↔ ∃ first, (own :: delivered).find? (fun s => P.getId s == P.getId share) = some first
        ∧ P.verifyShare first = .ok true := by
  by_cases hown : P.getId own = P.getId share
  · have hfind : (own :: delivered).find? (fun s => P.getId s == P.getId share) = some own := by
      simp [hown]
    rw [hfind]
    constructor
    · rintro ⟨held, hheld, hid, haccept⟩
      rcases (h.mem held).mp hheld with rfl | ⟨hne, -⟩
      · exact ⟨held, rfl, haccept⟩
      · exact absurd (hid.trans hown.symm) hne
    · rintro ⟨first, hfirst, haccept⟩
      obtain rfl := Option.some.inj hfirst
      exact ⟨own, (h.mem own).mpr (.inl rfl), hown, haccept⟩
  · have hfind : (own :: delivered).find? (fun s => P.getId s == P.getId share)
        = delivered.find? (fun s => P.getId s == P.getId share) := by
      rw [List.find?_cons_of_neg (by simpa using hown)]
    rw [hfind]
    constructor
    · rintro ⟨held, hheld, hid, haccept⟩
      rcases (h.mem held).mp hheld with rfl | ⟨-, hfirst, -⟩
      · exact absurd hid hown
      · exact ⟨held, hid ▸ hfirst, haccept⟩
    · rintro ⟨first, hfirst, haccept⟩
      have hid : P.getId first = P.getId share := by
        have hpred := List.find?_some hfirst
        simpa using hpred
      refine ⟨first, (h.mem first).mpr (.inr ⟨?_, hid ▸ hfirst, haccept⟩), hid, haccept⟩
      exact fun heq => hown (heq.symm.trans hid)

/-- Distinct ids under which the node holds a share are no more than its shares. -/
theorem card_le_length_validShares (state : ShareState S) {ids : Finset UInt16}
    (h : ∀ id ∈ ids, ∃ held ∈ state.validShares, P.getId held = id) :
    ids.card ≤ state.validShares.length := by
  have hsubset : ids ⊆ (state.validShares.map P.getId).toFinset := by
    intro id hid
    obtain ⟨held, hheld, rfl⟩ := h id hid
    exact List.mem_toFinset.mpr (List.mem_map_of_mem hheld)
  calc ids.card ≤ (state.validShares.map P.getId).toFinset.card := Finset.card_le_card hsubset
    _ ≤ (state.validShares.map P.getId).length := List.toFinset_card_le _
    _ = state.validShares.length := List.length_map _

/-- A run loses no share exactly when the first share under every id is a good one. -/
theorem noSuppression_iff {rng : ℕ → Drawn} {own : S} (hown : P.ownShare (rng 0) = .ok own)
    (messages : List (ShareMessage S)) :
    P.NoSuppression (P.run rng messages)
      ↔ P.FirstAccepted own (deliveredShares (P.run rng messages)) := by
  have hcollected := (runInv_run hown messages).collected
  constructor
  · rintro ⟨hheld, -⟩ share hshare haccept
    exact (hcollected.mem_iff_first share).mp (hheld share hshare haccept)
  · intro hfirst
    have hheld : ∀ share ∈ deliveredShares (P.run rng messages), P.verifyShare share = .ok true →
        ∃ held ∈ (P.run rng messages).protocol.validShares,
          P.getId held = P.getId share ∧ P.verifyShare held = .ok true :=
      fun share hshare haccept =>
        (hcollected.mem_iff_first share).mpr (hfirst share hshare haccept)
    refine ⟨hheld, fun ids hcard hids => ?_⟩
    have hlength : ids.card ≤ (P.run rng messages).protocol.validShares.length := by
      refine card_le_length_validShares (P := P) _ fun id hid => ?_
      obtain ⟨share, hshare, rfl, haccept⟩ := hids id hid
      obtain ⟨held, hmem, hid, -⟩ := hheld share hshare haccept
      exact ⟨held, hmem, hid⟩
    simp only [isReadyToFinalize, decide_eq_true_eq]
    omega

end ShareRound

/-- In each of the three protocols, after `do_round` and any deliveries, no accepted share is
suppressed if and only if the first share seen under its id is accepted. -/
theorem noSuppression_iff_firstAccepted (rng : ℕ → Drawn) :
    (∀ (privateKey : PrivateKeyShare K) (ciphertext : Ciphertext K) (own : DecryptionShare K)
        (messages : List (ShareMessage (DecryptionShare K))),
      let P := ThresholdCipherProtocol E privateKey ciphertext
      P.ownShare (rng 0) = .ok own →
      (P.NoSuppression (P.run rng messages)
        ↔ P.FirstAccepted own (ShareRound.deliveredShares (P.run rng messages))))
    ∧ (∀ (privateKey : PrivateKeyShare K) (message : Option Bytes) (label : Bytes)
        (own : SignatureShare K) (messages : List (ShareMessage (SignatureShare K))),
      let P := ThresholdSignatureProtocol E privateKey message label
      P.ownShare (rng 0) = .ok own →
      (P.NoSuppression (P.run rng messages)
        ↔ P.FirstAccepted own (ShareRound.deliveredShares (P.run rng messages))))
    ∧ ∀ (privateKey : PrivateKeyShare K) (name : Bytes) (own : CoinShare K)
        (messages : List (ShareMessage (CoinShare K))),
      let P := ThresholdCoinProtocol E privateKey name
      P.ownShare (rng 0) = .ok own →
      (P.NoSuppression (P.run rng messages)
        ↔ P.FirstAccepted own (ShareRound.deliveredShares (P.run rng messages))) :=
  ⟨fun _ _ _ messages hown => ShareRound.noSuppression_iff hown messages,
    fun _ _ _ _ messages hown => ShareRound.noSuppression_iff hown messages,
    fun _ _ _ messages hown => ShareRound.noSuppression_iff hown messages⟩

/-- The Bls04 keys of two parties with threshold two, over the residues modulo seven. -/
def bls04KeySeven (id : UInt16) : Bls04PrivateKey (Curves.seven.Point .bn254) where
  id := id
  xi := dealtShare 7 2 (fun i => i) id
  pubkey := Bls04ThresholdSignature.publicKey .truncating (Curves.seven.pairingCurve .bn254 rfl) 2 2
    fun i => i

theorem generateKeys_bls04KeySeven : Bls04ThresholdSignature.generateKeys .truncating
    (Curves.seven.pairingCurve .bn254 rfl) 2 2 (fun i => i) = .ok [bls04KeySeven 1, bls04KeySeven 2] := by
  decide +kernel

/-- The share of the second party on the empty message. -/
def bls04ShareSeven : SignatureShare Curves.seven :=
  .bls04 .bn254 (Bls04ThresholdSignature.partialSign .truncating
    (Curves.seven.pairingCurve .bn254 rfl) [] [] (bls04KeySeven 2))

/-- A share under the id of the second party that is not accepted. -/
def bls04ForgerySeven : SignatureShare Curves.seven :=
  .bls04 .bn254 { id := 2, label := [], data := Multiplicative.ofAdd (1 : ZMod 7) }

/-- With nothing but valid shares the condition holds and nothing is lost. -/
theorem noSuppression_iff_firstAccepted_seven :
    let P := ThresholdSignatureProtocol .truncating (.bls04 .bn254 (bls04KeySeven 1)) (some []) []
    P.NoSuppression (P.run (fun _ => .counting) [.share bls04ShareSeven]) := by
  intro P
  have hown : P.ownShare .counting
      = .ok (.bls04 .bn254 (Bls04ThresholdSignature.partialSign .truncating
        (Curves.seven.pairingCurve .bn254 rfl) [] [] (bls04KeySeven 1))) := rfl
  refine ((noSuppression_iff_firstAccepted .truncating fun _ => .counting).2.1 _ _ _ _ _ hown).mpr ?_
  intro share hshare haccept
  have hdelivered : ShareRound.deliveredShares
      (P.run (fun _ => .counting) [.share bls04ShareSeven]) = [bls04ShareSeven] := rfl
  rw [hdelivered, List.mem_singleton] at hshare
  subst hshare
  exact ⟨bls04ShareSeven, rfl, haccept⟩

/-- The first party sees a forgery under the id of the second, and then the share of the second: it
accepts the share, and does not keep it. -/
theorem suppression_seven :
    Bls04ThresholdSignature.generateKeys .truncating (Curves.seven.pairingCurve .bn254 rfl) 2 2
        (fun i => i) = .ok [bls04KeySeven 1, bls04KeySeven 2]
      ∧ let P := ThresholdSignatureProtocol .truncating (.bls04 .bn254 (bls04KeySeven 1)) (some []) []
        P.verifyShare bls04ShareSeven = .ok true
        ∧ ¬ P.NoSuppression
          (P.run (fun _ => .counting) [.share bls04ForgerySeven, .share bls04ShareSeven]) := by
  refine ⟨generateKeys_bls04KeySeven, by decide +kernel, ?_⟩
  rintro ⟨hheld, -⟩
  obtain ⟨held, hmem, hid, -⟩ := hheld bls04ShareSeven (.tail _ (.head _)) (by decide +kernel)
  have hids : ((ThresholdSignatureProtocol .truncating (.bls04 .bn254 (bls04KeySeven 1)) (some []) []).run
      (fun _ => .counting) [.share bls04ForgerySeven, .share bls04ShareSeven]).protocol.validShares.map
      SignatureShare.getId = [1] := by decide +kernel
  have hone := List.mem_map_of_mem (f := SignatureShare.getId) hmem
  rw [hids, List.mem_singleton] at hone
  have htwo : SignatureShare.getId held = 2 := hid
  rw [hone] at htwo
  exact absurd htwo (by decide)

end QuorumCrypt
