import QuorumCrypt.Schemes.Interface

/-!
# Key generation

`keys/key_generator.rs`: the arms of `generate_keys` under one interface. A group that does not go with
the scheme is an error, except for Frost, which asks any group for its order and panics on RSA.
-/

namespace QuorumCrypt

open Rust

namespace KeyGenerator

variable {K : Curves} (E : Primitives)

/-- The scalars come from `rng`; `draw` is what the generator returns for an RSA key, and `e` its
public exponent. -/
def generateKeys (k n : ℕ) (rng : ℕ → ℕ) (scheme : ThresholdScheme) (group : Group) (e : ℕ)
    (draw : group.isDl = false → Sh00Draw group.modsize) :
    SchemeOutcome (List (PrivateKeyShare K)) := do
  checkParams k n
  match scheme with
  | .bz03 =>
      match group.curve with
      | none => .err .curveDoesNotSupportPairings
      | some c =>
          if hc : c.group.supportsPairings = true then
            List.map (.bz03 c) <$> Bz03ThresholdCipher.generateKeys E (K.pairingCurve c hc) k n rng
          else .err .curveDoesNotSupportPairings
  | .sg02 =>
      match group.curve with
      | none => .err .incompatibleGroup
      | some c => List.map (.sg02 c) <$> Sg02ThresholdCipher.generateKeys E (K.ecp c) k n rng
  | .bls04 =>
      match group.curve with
      | none => .err .curveDoesNotSupportPairings
      | some c =>
          if hc : c.group.supportsPairings = true then
            List.map (.bls04 c) <$> Bls04ThresholdSignature.generateKeys E (K.pairingCurve c hc) k n rng
          else .err .curveDoesNotSupportPairings
  | .cks05 =>
      match group.curve with
      | none => .err .incompatibleGroup
      | some c => List.map (.cks05 c) <$> Cks05ThresholdCoin.generateKeys E (K.ecp c) k n rng
  | .frost =>
      match group.curve with
      | none => .panic
      | some c => List.map (.frost c) <$> Frost.generateKeys E (K.ecp c) k n rng
  | .sh00 =>
      if hgroup : group.isDl = false then
        List.map .sh00 <$> Sh00ThresholdSignature.generateKeys E group k n e (draw hgroup)
      else .err .incompatibleGroup

/-- The keys of one of the schemes. Of an RSA key only the length of its tables matters here, not where
its primes come from. -/
inductive OfScheme (k n : ℕ) : PrivateKeyShare K → Prop
  | bz03 {c : Curve} {hc : c.group.supportsPairings = true} {rng keys key}
      (hkeys : Bz03ThresholdCipher.generateKeys E (K.pairingCurve c hc) k n rng = .ok keys)
      (hkey : key ∈ keys) : OfScheme k n (.bz03 c key)
  | sg02 {c : Curve} {rng keys key}
      (hkeys : Sg02ThresholdCipher.generateKeys E (K.ecp c) k n rng = .ok keys)
      (hkey : key ∈ keys) : OfScheme k n (.sg02 c key)
  | bls04 {c : Curve} {hc : c.group.supportsPairings = true} {rng keys key}
      (hkeys : Bls04ThresholdSignature.generateKeys E (K.pairingCurve c hc) k n rng = .ok keys)
      (hkey : key ∈ keys) : OfScheme k n (.bls04 c key)
  | cks05 {c : Curve} {rng keys key}
      (hkeys : Cks05ThresholdCoin.generateKeys E (K.ecp c) k n rng = .ok keys)
      (hkey : key ∈ keys) : OfScheme k n (.cks05 c key)
  | frost {c : Curve} {rng keys key}
      (hkeys : Frost.generateKeys E (K.ecp c) k n rng = .ok keys)
      (hkey : key ∈ keys) : OfScheme k n (.frost c key)
  | sh00 {group : Group} {N e delta : ℕ} {verificationKey : Sh00VerificationKey} {key : Sh00PrivateKey}
      (hgroup : group.isDl = false) (hlength : verificationKey.vi.length = n)
      (hpubkey : key.pubkey = Sh00PublicKey.new E (UInt16.ofNat n) (UInt16.ofNat k) N e verificationKey
        delta group) : OfScheme k n (.sh00 key)

variable {E}

theorem exists_mem_of_map {S : Type} {wrap : S → PrivateKeyShare K} {x : SchemeOutcome (List S)}
    {keys : List (PrivateKeyShare K)} (hkeys : (List.map wrap <$> x) = .ok keys)
    {key : PrivateKeyShare K} (hkey : key ∈ keys) :
    ∃ inner, x = .ok inner ∧ ∃ sk ∈ inner, wrap sk = key := by
  obtain ⟨inner, hinner, rfl⟩ := Outcome.map_eq_ok.mp hkeys
  exact ⟨inner, hinner, List.mem_map.mp hkey⟩

/-- Every key comes from the arm of its scheme. -/
theorem ofScheme_of_mem {k n : ℕ} {rng : ℕ → ℕ} {scheme : ThresholdScheme} {group : Group} {e : ℕ}
    {draw : group.isDl = false → Sh00Draw group.modsize} {keys : List (PrivateKeyShare K)}
    (hkeys : generateKeys E k n rng scheme group e draw = .ok keys) {key : PrivateKeyShare K}
    (hkey : key ∈ keys) : OfScheme E k n key := by
  obtain ⟨-, -, hkeys⟩ := Outcome.bind_eq_ok.mp hkeys
  cases scheme with
  | bz03 =>
      simp only at hkeys
      split at hkeys
      · cases hkeys
      · split at hkeys
        · obtain ⟨inner, hinner, sk, hsk, rfl⟩ := exists_mem_of_map hkeys hkey
          exact .bz03 hinner hsk
        · cases hkeys
  | sg02 =>
      simp only at hkeys
      split at hkeys
      · cases hkeys
      · obtain ⟨inner, hinner, sk, hsk, rfl⟩ := exists_mem_of_map hkeys hkey
        exact .sg02 hinner hsk
  | bls04 =>
      simp only at hkeys
      split at hkeys
      · cases hkeys
      · split at hkeys
        · obtain ⟨inner, hinner, sk, hsk, rfl⟩ := exists_mem_of_map hkeys hkey
          exact .bls04 hinner hsk
        · cases hkeys
  | cks05 =>
      simp only at hkeys
      split at hkeys
      · cases hkeys
      · obtain ⟨inner, hinner, sk, hsk, rfl⟩ := exists_mem_of_map hkeys hkey
        exact .cks05 hinner hsk
  | frost =>
      simp only at hkeys
      split at hkeys
      · cases hkeys
      · obtain ⟨inner, hinner, sk, hsk, rfl⟩ := exists_mem_of_map hkeys hkey
        exact .frost hinner hsk
  | sh00 =>
      simp only at hkeys
      split at hkeys
      · rename_i hgroup
        obtain ⟨inner, hinner, sk, hsk, rfl⟩ := exists_mem_of_map hkeys hkey
        rw [Sh00ThresholdSignature.eq_dealingKeys _ hinner] at hsk
        obtain ⟨i, hi, rfl⟩ := List.mem_mapIdx.mp hsk
        exact .sh00 hgroup (by simp [Sh00ThresholdSignature.shamirShareRsa]) rfl
      · cases hkeys

end KeyGenerator

end QuorumCrypt
