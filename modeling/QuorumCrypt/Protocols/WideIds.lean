import QuorumCrypt.Protocols.Agreement
import QuorumCrypt.Schemes.StrongPrime

/-!
# Sh00 with more than 255 parties

The weights of `interpolate` belong to the ids cast to `u8`. For a party with an id from 256 on that
signs alone, under a threshold of one, the weight is wrong, and its signature is never the one that
the parties with smaller ids compute, unless the hashed message has order at most four.
-/

namespace QuorumCrypt

open Rust BigInt

namespace Sh00ThresholdSignature

/-- The weight of a party that signs alone and whose id does not fit in a byte. -/
theorem lagCoeff_wide {id : UInt16} {n : ℕ} (hwide : 256 ≤ id.toNat) (hn : id.toNat ≤ n) :
    (id.toNat - (id.toNat % 256 : ℕ) : ℤ) * lagCoeff [id.toUInt8] id.toNat (fac n)
      = -(2 * (id.toNat % 256 : ℕ) * fac n) := by
  have hbyte : id.toUInt8.toNat = id.toNat % 256 := UInt16.toNat_toUInt8 id
  have hne : (id.toNat : ℤ) ≠ (id.toNat % 256 : ℕ) := by omega
  have hdvd : (id.toNat - (id.toNat % 256 : ℕ) : ℤ) ∣ fac n := by
    rw [fac_eq_factorial, ← Nat.cast_sub (Nat.mod_le _ _), Int.natCast_dvd_natCast]
    exact Nat.dvd_factorial (by omega) (by omega)
  obtain ⟨q, hq⟩ := hdvd
  have hpos : (id.toNat - (id.toNat % 256 : ℕ) : ℤ) ≠ 0 := by omega
  simp only [lagCoeff, List.foldl_cons, List.foldl_nil, hbyte, if_pos hne, one_mul]
  rw [hq, mul_assoc _ q, Int.mul_tdiv_cancel_left _ hpos]
  ring

theorem interpolate_singleton {N : ℕ} [NeZero N] (hN : 1 < N) {share : Sh00SignatureShare}
    {y : (ZMod N)ˣ} (hy : (share.xi : ZMod N) = y) (delta : ℕ) :
    interpolate [share] N delta
      = .ok ((y ^ lagCoeff [share.id.toUInt8] share.id.toNat delta : (ZMod N)ˣ) : ZMod N).val := by
  have hone : 1 = ((1 : (ZMod N)ˣ) : ZMod N).val := by
    rw [Units.val_one, ZMod.val_one_eq_one_mod, Nat.mod_eq_of_lt hN]
  rw [interpolate, hone]
  refine (foldlM_powMod Sh00SignatureShare.xi (fun _ => y) _ [share] 1 (by simpa using hy)).trans ?_
  simp

section Wide

variable {E : Primitives} {group : Group} {n e : ℕ} (draw : Sh00Draw group.modsize)

/-- Under a threshold of one every share is the secret exponent divided by `n!`. -/
theorem dealtRsaShare_one (hn : n < 2 ^ (group.modsize / 2 - 3)) (id : UInt16) :
    (dealtRsaShare 1 n e draw id : ℤ) * fac n
      ≡ BigInt.invMod e draw.primes.order [ZMOD draw.primes.order] := by
  have : NeZero draw.primes.order :=
    ⟨Nat.mul_ne_zero draw.primes.prime_half₁.ne_zero draw.primes.prime_half₂.ne_zero⟩
  have hshare := rsaShareOf_mul_fac (k := 1) (coprime_fac draw hn)
    (coefficients (BigInt.invMod e draw.primes.order) draw.coeff) id.toNat
  rw [dealtRsaShare, dealingShare]
  simpa [rsaPolynomial, coefficients] using hshare

/-- What a party with a wide id interpolates from its own share is a wrong power of what the others
interpolate. -/
theorem wide_pow (hn : n < 2 ^ (group.modsize / 2 - 3)) {id : UInt16} (hwide : 256 ≤ id.toNat)
    (hid : id.toNat ≤ n) (x : (ZMod draw.primes.modulus)ˣ) :
    ((x ^ (2 * dealtRsaShare 1 n e draw id)) ^ lagCoeff [id.toUInt8] id.toNat (fac n))
        ^ (id.toNat - (id.toNat % 256 : ℕ) : ℤ)
      = ((x ^ 4) ^ (BigInt.invMod e draw.primes.order : ℤ)) ^ (-(id.toNat % 256 : ℕ) : ℤ) := by
  have hexponent : (2 * dealtRsaShare 1 n e draw id : ℕ) * (lagCoeff [id.toUInt8] id.toNat (fac n)
        * (id.toNat - (id.toNat % 256 : ℕ) : ℤ))
      = (4 : ℕ) * ((dealtRsaShare 1 n e draw id : ℤ) * fac n * -(id.toNat % 256 : ℕ)) := by
    rw [Nat.cast_mul, Nat.cast_ofNat, Nat.cast_ofNat]
    linear_combination (2 * (dealtRsaShare 1 n e draw id : ℤ)) * lagCoeff_wide hwide hid
  rw [← zpow_natCast, ← zpow_mul, ← zpow_mul, hexponent, zpow_mul, zpow_natCast, zpow_mul,
    draw.primes.pow_four_zpow_congr x (dealtRsaShare_one draw hn id)]

/-- What a party assembles from its own share alone. -/
theorem assemble_singleton {msg : Bytes} {x : ℕ} {j : ℤ}
    (hx : H E msg (publicKey E group 1 n e draw) = .ok (x, j))
    {u xUnit : (ZMod draw.primes.modulus)ˣ} (hu : (draw.u : ZMod draw.primes.modulus) = u)
    (hxUnit : (x : ZMod draw.primes.modulus) = xUnit) {share : Sh00SignatureShare}
    (hxi : share.xi ≡ x ^ (2 * dealtRsaShare 1 n e draw share.id) [MOD draw.primes.modulus]) :
    assemble E [share] msg (publicKey E group 1 n e draw)
      = .ok ⟨(signatureUnit e u xUnit ((xUnit ^ (2 * dealtRsaShare 1 n e draw share.id))
          ^ lagCoeff [share.id.toUInt8] share.id.toNat (fac n)) j
            : ZMod draw.primes.modulus).val⟩ := by
  refine assemble_of_interpolate draw.dealing hx hu hxUnit
    (interpolate_singleton draw.primes.one_lt_modulus ?_ _)
  rw [(ZMod.natCast_eq_natCast_iff _ _ _).mpr hxi, Nat.cast_pow, hxUnit,
    ← Units.val_pow_eq_pow_val]

/-- The two interpolated values lead to different signatures. -/
theorem signatureUnit_wide_ne (hn : n < 2 ^ (group.modsize / 2 - 3))
    (he : e.Coprime draw.primes.order)
    (ha : (extEuclid 4 e).1.natAbs.Coprime draw.primes.order)
    {id : UInt16} (hwide : 256 ≤ id.toNat) (hid : id.toNat ≤ n)
    {x : (ZMod draw.primes.modulus)ˣ} (hx : x ^ 4 ≠ 1) (u : (ZMod draw.primes.modulus)ˣ) (j : ℤ) :
    signatureUnit e u x
        ((x ^ (2 * dealtRsaShare 1 n e draw id)) ^ lagCoeff [id.toUInt8] id.toNat (fac n)) j
      ≠ signatureUnit e u x ((x ^ 4) ^ BigInt.invMod e draw.primes.order) j := by
  intro heq
  set w := (x ^ (2 * dealtRsaShare 1 n e draw id)) ^ lagCoeff [id.toUInt8] id.toNat (fac n) with hw
  set a := (extEuclid 4 e).1 with haeq
  set d := BigInt.invMod e draw.primes.order with hd
  have hroots : w ^ a = ((x ^ 4) ^ (d : ℤ)) ^ a := by
    simp only [signatureUnit] at heq
    rw [zpow_natCast]
    split at heq
    · exact mul_right_cancel (mul_left_cancel heq)
    · exact mul_right_cancel heq
  -- the `t`-th powers, with `t` the id less its last byte
  have hpow : ((x ^ 4) ^ (d : ℤ)) ^ ((id.toNat : ℤ) * a) = 1 := by
    have hwide' := wide_pow (e := e) draw hn hwide hid x
    rw [← hw, ← hd] at hwide'
    have hcalc : ((x ^ 4) ^ (d : ℤ)) ^ (a * (id.toNat - (id.toNat % 256 : ℕ) : ℤ))
        = ((x ^ 4) ^ (d : ℤ)) ^ (-(id.toNat % 256 : ℕ) * a : ℤ) := by
      rw [zpow_mul, ← hroots, ← zpow_mul, mul_comm a, zpow_mul, hwide', ← zpow_mul]
    rw [← mul_inv_eq_one, ← zpow_neg, ← zpow_add] at hcalc
    rw [← hcalc]
    congr 1
    ring
  have hroot : (x ^ 4) ^ ((id.toNat : ℤ) * a) = 1 := by
    have hinv := invMod_mul_modEq_one draw.dealing he
    have hraise := congrArg (· ^ (e : ℤ)) hpow
    simp only [one_zpow] at hraise
    rw [← zpow_mul, ← zpow_mul] at hraise
    rw [← hraise]
    refine draw.primes.pow_four_zpow_congr x ?_
    have hmul := (hinv.mul_right ((id.toNat : ℤ) * a)).symm
    rw [one_mul, mul_right_comm, mul_assoc] at hmul
    exact hmul
  -- the exponent has no factor in common with the order of `x ^ 4`
  have hcoprime : ((id.toNat : ℤ) * a).natAbs.Coprime draw.primes.order := by
    rw [Int.natAbs_mul, Int.natAbs_natCast]
    refine Nat.Coprime.mul_left ?_ ha
    refine (coprime_fac draw hn).coprime_dvd_left ?_
    rw [fac_eq_factorial]
    exact Nat.dvd_factorial (by omega) hid
  have hunit : (x ^ 4) ^ draw.primes.order = 1 := by
    have := draw.primes.pow_four_zpow_congr x
      (a := draw.primes.order) (b := 0) (by simp [Int.ModEq])
    simpa using this
  refine hx (orderOf_eq_one_iff.mp (Nat.dvd_one.mp ?_))
  rw [← hcoprime.gcd_eq_one]
  refine Nat.dvd_gcd ?_ (orderOf_dvd_of_pow_eq_one hunit)
  exact Int.natCast_dvd.mp (orderOf_dvd_iff_zpow_eq_one.mpr hroot)

/-- The keys of a dealing are those of the parties. -/
theorem exists_key_of_party {k : ℕ} {keys : List Sh00PrivateKey}
    (hkeys : generateKeys E group k n e draw = .ok keys) {id : UInt16} (hpos : 1 ≤ id.toNat)
    (hid : id.toNat ≤ n) : ∃ sk ∈ keys, sk.id = id := by
  obtain ⟨-, -, hkeys⟩ := Outcome.bind_eq_ok.mp hkeys
  by_cases hgroup : group.isDl = true
  · simp [hgroup] at hkeys
  rw [if_neg hgroup] at hkeys
  rw [← Outcome.ok.inj hkeys]
  refine ⟨_, List.mem_mapIdx.mpr ⟨id.toNat - 1, by simp; omega, rfl⟩, ?_⟩
  change UInt16.ofNat (id.toNat - 1 + 1) = id
  rw [Nat.sub_add_cancel hpos, UInt16.ofNat_toNat]

end Wide

end Sh00ThresholdSignature

/-- A node whose threshold is one finishes when its own share comes back to it. -/
theorem ShareRound.status_run_own {S : Type} {P : ShareRound S} {rng : ℕ → Drawn} {own : S}
    (hown : P.ownShare (rng 0) = .ok own) (hthreshold : P.threshold.toNat ≤ 1) {result : Bytes}
    (hassemble : P.assemble [own] = .ok result) :
    (P.run rng [.share own]).status = .finished result := by
  have hready : P.protocol.isReadyToFinalize
      { validShares := [own], finished := false, receivedShareIds := {P.getId own} } = true := by
    simpa [ShareRound.protocol, ShareRound.isReadyToFinalize] using hthreshold
  have hupdate : P.protocol.update
      { validShares := [own], finished := false, receivedShareIds := {P.getId own} } (.share own)
      = .ok { validShares := [own], finished := false, receivedShareIds := {P.getId own} } := by
    simp [ShareRound.protocol, ShareRound.update]
  rw [ShareRound.run, Execution.run, ShareRound.start_eq hown, List.foldl_cons, List.foldl_nil]
  simp only [Execution.onMessage, hupdate, Execution.advance, hready, if_true,
    Execution.performFinalize]
  simp [ShareRound.protocol, ShareRound.finalize, hassemble]

section Disagreement

variable {K : Curves} {E : Primitives} {group : Group} {n e : ℕ} (draw : Sh00Draw group.modsize)

/-- A party that signs alone ends with what its own share assembles to. -/
theorem exists_run_own (hn : n ≤ 65535) {keys : List Sh00PrivateKey}
    (hkeys : Sh00ThresholdSignature.generateKeys E group 1 n e draw = .ok keys)
    {sk : Sh00PrivateKey} (hsk : sk ∈ keys) {msg : Bytes} {x : ℕ} {j : ℤ}
    (hx : Sh00ThresholdSignature.H E msg (Sh00ThresholdSignature.publicKey E group 1 n e draw)
      = .ok (x, j)) {sig : Sh00Signature}
    (hassemble : ∀ s : Sh00SignatureShare, s.id = sk.id →
      s.xi ≡ x ^ (2 * Sh00ThresholdSignature.dealtRsaShare 1 n e draw sk.id)
        [MOD draw.primes.modulus] →
      Sh00ThresholdSignature.assemble E [s] msg
        (Sh00ThresholdSignature.publicKey E group 1 n e draw) = .ok sig)
    (label : Bytes) (rng : ℕ → Drawn) :
    let node := ThresholdSignatureProtocol (K := K) E (.sh00 sk) (some msg) label
    ∃ own, node.ownShare (rng 0) = .ok own
      ∧ (node.run rng [.share own]).status = .finished ((Signature.sh00 (K := K) sig).toBytes E) := by
  intro node
  obtain ⟨hpos, hle, hsi, hpubkey⟩ := Sh00ThresholdSignature.exists_party_of_mem draw hn hkeys hsk
  obtain ⟨s, hs, hid, hxi, -⟩ := Sh00ThresholdSignature.exists_partialSign draw.dealing hpos hle hsi
    hpubkey hx label (rng 0).scalar
  have hxi : s.xi ≡ x ^ (2 * Sh00ThresholdSignature.dealtRsaShare 1 n e draw sk.id)
      [MOD draw.primes.modulus] := by
    rw [hxi, BigInt.powModNat_eq]
    exact Nat.mod_modEq _ _
  have hown : node.ownShare (rng 0) = .ok (.sh00 s) := by
    change liftScheme (SignatureShare.sh00
      <$> Sh00ThresholdSignature.partialSign E msg label sk (rng 0).scalar) = _
    rw [hs]
    rfl
  refine ⟨_, hown, ShareRound.status_run_own hown ?_ ?_⟩
  · change sk.pubkey.t.toNat ≤ 1
    rw [hpubkey]
    exact (toNat_ofNat_of_le (by decide)).le
  · change (liftScheme (ThresholdSignature.assemble E ([s].map .sh00) msg (.sh00 sk.pubkey))
      >>= fun sig => .ok (sig.toBytes E)) = _
    rw [ThresholdSignature.assemble_sh00, hpubkey, hassemble s hid hxi]
    rfl

/-- Under a threshold of one, a party with an id from 256 on and a party with a smaller one that each
get back their own share end with different signatures of the same message. -/
theorem exists_disagreement (hn : n ≤ 65535) (he : e.Coprime draw.primes.order)
    (ha : (extEuclid 4 e).1.natAbs.Coprime draw.primes.order) {keys : List Sh00PrivateKey}
    (hkeys : Sh00ThresholdSignature.generateKeys E group 1 n e draw = .ok keys)
    {sk sk' : Sh00PrivateKey} (hsk : sk ∈ keys) (hsk' : sk' ∈ keys) (hnarrow : sk.id.toNat ≤ 255)
    (hwide : 256 ≤ sk'.id.toNat) {msg : Bytes} {x : ℕ} {j : ℤ}
    (hx : Sh00ThresholdSignature.H E msg (Sh00ThresholdSignature.publicKey E group 1 n e draw)
      = .ok (x, j)) (hfour : ¬ x ^ 4 ≡ 1 [MOD draw.primes.modulus]) (label : Bytes)
    (rng : ℕ → Drawn) :
    let node := ThresholdSignatureProtocol (K := K) E (.sh00 sk) (some msg) label
    let node' := ThresholdSignatureProtocol (K := K) E (.sh00 sk') (some msg) label
    ∃ own own' sig sig', node.ownShare (rng 0) = .ok own ∧ node'.ownShare (rng 0) = .ok own'
      ∧ (node.run rng [.share own]).status = .finished ((Signature.sh00 (K := K) sig).toBytes E)
      ∧ (node'.run rng [.share own']).status = .finished ((Signature.sh00 (K := K) sig').toBytes E)
      ∧ sig.sig ≠ sig'.sig := by
  intro node node'
  obtain ⟨hpos, hle, -, -⟩ := Sh00ThresholdSignature.exists_party_of_mem draw hn hkeys hsk
  obtain ⟨-, hle', -, -⟩ := Sh00ThresholdSignature.exists_party_of_mem draw hn hkeys hsk'
  have hsize := Sh00ThresholdSignature.lt_of_generateKeys draw hn hkeys
  obtain ⟨h, hUnit, u, xUnit, -, -, hu, hxUnit, -⟩ :=
    Sh00ThresholdSignature.exists_unit_of_H draw.dealing hx
  have hfourUnit : xUnit ^ 4 ≠ 1 := by
    intro heq
    refine hfour ((ZMod.natCast_eq_natCast_iff _ _ _).mp ?_)
    rw [Nat.cast_pow, hxUnit, ← Units.val_pow_eq_pow_val, heq, Units.val_one, Nat.cast_one]
  obtain ⟨own, hown, hrun⟩ := exists_run_own (K := K) draw hn hkeys hsk hx
    (fun s hid hxi => Sh00ThresholdSignature.assemble_eq_ok draw.dealing le_rfl
      (Sh00ThresholdSignature.coprime_fac draw hsize) hx hu hxUnit
      (by simpa [hid] using hxi)
      (by simpa [hid] using ⟨hpos, hle, hnarrow⟩) (by simp) (by simp))
    label rng
  obtain ⟨own', hown', hrun'⟩ := exists_run_own (K := K) draw hn hkeys hsk' hx
    (fun s hid hxi => hid ▸ Sh00ThresholdSignature.assemble_singleton draw hx hu hxUnit (hid ▸ hxi))
    label rng
  refine ⟨own, own', _, _, hown, hown', hrun, hrun', fun heq => ?_⟩
  refine Sh00ThresholdSignature.signatureUnit_wide_ne draw hsize he ha hwide hle' hfourUnit u j ?_
  exact Units.ext (ZMod.val_injective _ heq.symm)

end Disagreement

/-! ### Two parties of one dealing -/

def drawRsa512 : Sh00Draw Group.rsa512.modsize where
  primes := safePrimesRsa512
  size₁ := by decide +kernel
  size₂ := by decide +kernel
  v := 2
  coeff _ := 0
  u := 5
  u_found := by decide +kernel
  u_coprime := by decide +kernel

/-- The hash of the message `[1]` when the digests are the padded first bytes. -/
def hashRsa512 : ℕ :=
  ofBytesBE (List.replicate 12 ((1 : UInt8) :: List.replicate 31 0)).flatten
    % safePrimesRsa512.modulus

theorem toBytes_sh00_injective {K : Curves} {sig sig' : Sh00Signature}
    (h : (Signature.sh00 (K := K) sig).toBytes Primitives.truncating
      = (Signature.sh00 (K := K) sig').toBytes Primitives.truncating) : sig.sig = sig'.sig := by
  have hbytes : ∀ s : Sh00Signature, (Signature.sh00 (K := K) s).toBytes Primitives.truncating
      = toBytesBE 8 ThresholdScheme.sh00.getId.toNat ++ BigInt.toBytes s.sig := by
    intro s
    simp [Signature.toBytes, Sh00Signature.toBytes, Primitives.truncating]
  rw [hbytes, hbytes, List.append_cancel_left_eq] at h
  rw [← ofBytesBE_toBytes sig.sig, h, ofBytesBE_toBytes]

/-- Parties 1 and 257 of one dealing for 257 parties return different signatures of one message,
each from its own share alone. -/
theorem parties_one_and_257_disagree :
    ∃ keys, Sh00ThresholdSignature.generateKeys Primitives.truncating .rsa512 1 257 65537 drawRsa512
        = .ok keys ∧
      ∃ sk ∈ keys, ∃ sk' ∈ keys, sk.id = 1 ∧ sk'.id = 257 ∧
        ∃ own own' result result',
          let node := ThresholdSignatureProtocol (K := Curves.seven) Primitives.truncating (.sh00 sk)
            (some [1]) []
          let node' := ThresholdSignatureProtocol (K := Curves.seven) Primitives.truncating
            (.sh00 sk') (some [1]) []
          node.ownShare .counting = .ok own ∧ node'.ownShare .counting = .ok own'
            ∧ (node.run (fun _ => .counting) [.share own]).status = .finished result
            ∧ (node'.run (fun _ => .counting) [.share own']).status = .finished result'
            ∧ result ≠ result' := by
  have hkeys : ∃ keys, Sh00ThresholdSignature.generateKeys Primitives.truncating .rsa512 1 257 65537
      drawRsa512 = .ok keys := ⟨_, rfl⟩
  obtain ⟨keys, hkeys⟩ := hkeys
  obtain ⟨sk, hsk, hid⟩ := Sh00ThresholdSignature.exists_key_of_party drawRsa512 hkeys
    (by decide : 1 ≤ (1 : UInt16).toNat) (by decide)
  obtain ⟨sk', hsk', hid'⟩ := Sh00ThresholdSignature.exists_key_of_party drawRsa512 hkeys
    (by decide : 1 ≤ (257 : UInt16).toNat) (by decide)
  have ha : (extEuclid 4 65537).1 = -16384 := by simp [extEuclid]
  obtain ⟨x, j, hx, hcases⟩ := Sh00ThresholdSignature.exists_H drawRsa512.dealing (k := 1) (n := 257)
    (e := 65537) (by decide +kernel : Sh00ThresholdSignature.H1 Primitives.truncating [1]
      safePrimesRsa512.modulus Group.rsa512.modsize = .ok hashRsa512) (by decide +kernel)
  have hfour : ¬ x ^ 4 ≡ 1 [MOD safePrimesRsa512.modulus] := by
    rcases hcases with heq | heq
    · rw [heq]
      decide +kernel
    · rw [heq]
      decide +kernel
  obtain ⟨own, own', sig, sig', hown, hown', hrun, hrun', hne⟩ :=
    exists_disagreement (K := Curves.seven) drawRsa512 (by decide) (by decide +kernel)
      (by rw [ha]; decide +kernel) hkeys hsk hsk' (by rw [hid]; decide) (by rw [hid']; decide) hx
      hfour [] fun _ => .counting
  exact ⟨keys, hkeys, sk, hsk, sk', hsk', hid, hid', own, own', _, _, hown, hown', hrun, hrun',
    fun heq => hne (toBytes_sh00_injective heq)⟩

end QuorumCrypt
