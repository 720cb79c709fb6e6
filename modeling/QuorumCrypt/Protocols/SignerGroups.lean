import QuorumCrypt.Protocols.Frost

/-!
# Which signer groups are drawn

`protocols/src/frost/protocol.rs`: `SignerGroup::new` is not told the number of parties. It takes the
threshold for `f + 1` and draws from `1..=3 * f + 1`. The keys may have been dealt for fewer parties, and
then a signer group has members that do not exist, or for so high a threshold that `3 * f + 1` is no
`u16`.

Here the numbers that the seeded generator returns are any stream. The loop is run for a number of
draws, and has not returned if there are not enough different ones among them.
-/

namespace QuorumCrypt

open Rust

namespace SignerGroup

variable {values : ℕ → UInt16} {t : ℕ}

/-- `SignerGroup::new` for a stream of numbers, if it returns within so many draws. -/
def newFrom (values : ℕ → UInt16) (t : UInt16) (fuel : ℕ) : Option (ProtocolOutcome SignerGroup) :=
  if t = 0 ∨ 65535 < 3 * (t.toNat - 1) + 1 then some .panic
  else
    let signerIdentifiers := drawIds values t.toNat fuel 0 []
    if signerIdentifiers.length < t.toNat then none else some (.ok ⟨signerIdentifiers⟩)

/-- With the streams that draw every number sooner or later, it is the function of the protocol. -/
theorem newFrom_eq_new {draws : SignerDraws} {t : UInt16} {msg : Bytes} {group : SignerGroup}
    (h : new draws t msg = .ok group) :
    newFrom (draws.draw msg (UInt16.ofNat (3 * (t.toNat - 1) + 1))) t
      (draws.enough msg (UInt16.ofNat (3 * (t.toNat - 1) + 1))) = some (.ok group) := by
  have hlength := (of_new h).2.1
  unfold new at h
  split at h
  · cases h
  · rename_i hparams
    obtain rfl := Outcome.ok.inj h
    rw [newFrom, if_neg hparams, if_neg]
    exact hlength.not_lt

/-! ### What the loop keeps -/

theorem mem_drawIds_of_mem (fuel i : ℕ) {ids : List UInt16} {id : UInt16} (h : id ∈ ids) :
    id ∈ drawIds values t fuel i ids := by
  induction fuel generalizing i ids with
  | zero => exact h
  | succ fuel ih =>
      unfold drawIds
      split
      · apply ih
        split
        · exact h
        · exact List.mem_cons_of_mem _ h
      · exact h

/-- The first number that is drawn is always a member. -/
theorem first_mem_drawIds (ht : 0 < t) {fuel : ℕ} (hlength : t ≤ (drawIds values t fuel 0 []).length) :
    values 0 ∈ drawIds values t fuel 0 [] := by
  cases fuel with
  | zero =>
      change t ≤ 0 at hlength
      omega
  | succ fuel =>
      rw [drawIds, List.length_nil, if_pos ht]
      exact mem_drawIds_of_mem fuel 1 List.mem_cons_self

/-- So many different numbers are drawn sooner or later. -/
def Distinct (values : ℕ → UInt16) (k : ℕ) : Prop :=
  ∃ ids : List UInt16, ids.Nodup ∧ ids.length = k ∧ ∀ id ∈ ids, ∃ i, values i = id

/-- Finitely many numbers have been drawn after some time. -/
theorem exists_fuel (ids : List UInt16) (hdrawn : ∀ id ∈ ids, ∃ i, values i = id) :
    ∃ fuel, ∀ id ∈ ids, ∃ i < fuel, values i = id := by
  induction ids with
  | nil => exact ⟨0, fun _ h => absurd h List.not_mem_nil⟩
  | cons id ids ih =>
      rw [List.forall_mem_cons] at hdrawn
      obtain ⟨i, hi⟩ := hdrawn.1
      obtain ⟨fuel, hfuel⟩ := ih hdrawn.2
      refine ⟨max (i + 1) fuel, List.forall_mem_cons.mpr ⟨⟨i, by omega, hi⟩, ?_⟩⟩
      intro id' hid'
      obtain ⟨j, hj, hvalue⟩ := hfuel id' hid'
      exact ⟨j, by omega, hvalue⟩

/-- Then the loop ends. -/
theorem exists_length_drawIds (h : Distinct values t) :
    ∃ fuel, (drawIds values t fuel 0 []).length = t := by
  obtain ⟨ids, hnodup, hlength, hdrawn⟩ := h
  obtain ⟨fuel, hfuel⟩ := exists_fuel ids hdrawn
  refine ⟨fuel, le_antisymm (length_drawIds_le fuel 0 (Nat.zero_le _)) ?_⟩
  have hcases : t ≤ (drawIds values t fuel 0 []).length ∨ _ := length_drawIds_or_mem fuel 0 []
  rcases hcases with henough | ⟨-, hall⟩
  · exact henough
  · have hsubset : ids ⊆ drawIds values t fuel 0 [] := by
      intro id hid
      obtain ⟨i, hi, rfl⟩ := hfuel id hid
      exact hall i (Nat.zero_le _) (by omega)
    rw [← hlength]
    exact hlength ▸ (List.subperm_of_subset hnodup hsubset).length_le

/-! ### Groups of parties that exist -/

/-- Every number is from the range that is asked for. -/
def InRange (values : ℕ → UInt16) (k : ℕ) : Prop :=
  ∀ i, 1 ≤ (values i).toNat ∧ (values i).toNat ≤ 3 * (k - 1) + 1

/-- As many different ids as the threshold, of parties that exist and have a verification key. -/
structure Valid {G : Type} (group : SignerGroup) (k n : ℕ) (h : List G) : Prop where
  nodup : group.signerIdentifiers.Nodup
  length_eq : group.signerIdentifiers.length = k
  exists_party : ∀ id ∈ group.signerIdentifiers, 1 ≤ id.toNat ∧ id.toNat ≤ n
    ∧ ∃ vk, verificationKeyAt h id = .ok vk

/-- A group for which the first number drawn is above the number of parties is not valid. -/
theorem not_valid_of_first {G : Type} {k n : ℕ} {h : List G} {t : UInt16} (ht : 1 ≤ t.toNat)
    (hfirst : n < (values 0).toNat) {fuel : ℕ} {group : SignerGroup}
    (hnew : newFrom values t fuel = some (.ok group)) : ¬ group.Valid k n h := by
  intro hvalid
  unfold newFrom at hnew
  split at hnew
  · cases hnew
  · dsimp only at hnew
    split at hnew
    · cases hnew
    · rename_i hlength
      obtain rfl := Outcome.ok.inj (Option.some.inj hnew)
      have hmem := first_mem_drawIds ht (not_lt.mp hlength)
      exact absurd (hvalid.exists_party _ hmem).2.1 (not_le.mpr hfirst)

section Keys

variable {G : Type} [CommGroup G] {E : Primitives} {C : EcGroup G} {k n : ℕ} {rng : ℕ → ℕ}
  {keys : List (FrostPrivateKey G)} {key : FrostPrivateKey G}

theorem exists_valid (hkeys : Frost.generateKeys E C k n rng = .ok keys) (hkey : key ∈ keys)
    (hn : n ≤ 65535) (hparties : 3 * (k - 1) + 1 ≤ n) (hrange : InRange values k)
    (hdistinct : Distinct values k) :
    ∃ fuel group, newFrom values key.pubkey.k fuel = some (.ok group)
      ∧ group.Valid k n key.pubkey.h := by
  obtain ⟨hk, hkn, -⟩ := Frost.generateKeys_eq_ok.mp hkeys
  have hpubkey := Frost.pubkey_of_mem hkeys hkey
  have ht : key.pubkey.k.toNat = k := by
    rw [hpubkey]
    exact toNat_ofNat_of_le (hkn.trans hn)
  obtain ⟨fuel, hlength⟩ := exists_length_drawIds hdistinct
  refine ⟨fuel, ⟨drawIds values k fuel 0 []⟩, ?_, ?_, hlength, ?_⟩
  · have hparams : ¬ (key.pubkey.k = 0 ∨ 65535 < 3 * (key.pubkey.k.toNat - 1) + 1) := by
      rw [not_or, ht]
      refine ⟨fun hzero => ?_, by omega⟩
      rw [hzero, UInt16.toNat_zero] at ht
      omega
    rw [newFrom, if_neg hparams, ht, if_neg hlength.not_lt]
  · exact nodup_drawIds fuel 0 List.nodup_nil
  · intro id hid
    rcases mem_drawIds fuel 0 hid with hnil | ⟨i, rfl⟩
    · cases hnil
    · obtain ⟨hpos, hle⟩ := hrange i
      rw [hpubkey]
      exact ⟨hpos, hle.trans hparties, _, Frost.verificationKeyAt_publicKey hpos (hle.trans hparties)⟩

/-- The numbers from `m` down, over and over. -/
def countdown (m i : ℕ) : UInt16 := UInt16.ofNat (m - i % m)

theorem toNat_countdown {m : ℕ} (hm : m ≤ 65535) (i : ℕ) : (countdown m i).toNat = m - i % m :=
  toNat_ofNat_of_le (by omega)

theorem inRange_countdown {m : ℕ} (hpos : 1 ≤ m) (hm : m ≤ 65535) (hle : m ≤ 3 * (k - 1) + 1) :
    InRange (countdown m) k := by
  intro i
  have hmod := Nat.mod_lt i hpos
  rw [toNat_countdown hm]
  omega

theorem distinct_countdown {m : ℕ} (hm : m ≤ 65535) (hk : k ≤ m) : Distinct (countdown m) k := by
  refine ⟨(List.range k).map (countdown m), ?_, by rw [List.length_map, List.length_range], ?_⟩
  · refine List.Nodup.map_on ?_ List.nodup_range
    intro i hi j hj heq
    rw [List.mem_range] at hi hj
    have hnat := congrArg UInt16.toNat heq
    rw [toNat_countdown hm, toNat_countdown hm, Nat.mod_eq_of_lt (by omega),
      Nat.mod_eq_of_lt (by omega)] at hnat
    omega
  · intro id hid
    obtain ⟨i, -, rfl⟩ := List.mem_map.mp hid
    exact ⟨i, rfl⟩

end Keys

end SignerGroup

open SignerGroup in
/-- Whatever is drawn from the range, the signer group has as many members as the threshold, all of them
parties that exist, if and only if there are at least `3 * (k - 1) + 1` parties. -/
theorem signer_group_valid_iff {G : Type} [CommGroup G] {E : Primitives} {C : EcGroup G} {k n : ℕ}
    {rng : ℕ → ℕ} {keys : List (FrostPrivateKey G)}
    (hkeys : Frost.generateKeys E C k n rng = .ok keys) (hn : n ≤ 65535) {key : FrostPrivateKey G}
    (hkey : key ∈ keys) :
    (∀ values, InRange values k → Distinct values k →
      ∃ fuel group, newFrom values key.pubkey.k fuel = some (.ok group)
        ∧ group.Valid k n key.pubkey.h)
      ↔ 3 * (k - 1) + 1 ≤ n := by
  obtain ⟨hk, hkn, -⟩ := Frost.generateKeys_eq_ok.mp hkeys
  have ht : key.pubkey.k.toNat = k := by
    rw [Frost.pubkey_of_mem hkeys hkey]
    exact toNat_ofNat_of_le (hkn.trans hn)
  constructor
  · intro h
    by_contra hparties
    -- the highest id of the range comes first, as far as it is a `u16`
    set m := min (3 * (k - 1) + 1) 65535 with hm
    obtain ⟨fuel, group, hnew, hvalid⟩ := h (countdown m)
      (inRange_countdown (by omega) (by omega) (by omega)) (distinct_countdown (by omega) (by omega))
    by_cases hfits : 3 * (k - 1) + 1 ≤ 65535
    · refine not_valid_of_first (by omega) ?_ hnew hvalid
      rw [toNat_countdown (by omega), Nat.zero_mod]
      omega
    · rw [newFrom, if_pos (.inr (by omega))] at hnew
      cases hnew
  · intro hparties values hrange hdistinct
    exact exists_valid hkeys hkey hn hparties hrange hdistinct

/-- The keys of the tests. -/
theorem exists_frostKey_seven {k n : ℕ} (hk : 1 ≤ k) (hkn : k ≤ n) :
    ∃ keys, Frost.generateKeys .truncating (Curves.seven.ecp .ed25519) k n id = .ok keys
      ∧ ∃ key ∈ keys, key.id = 1 := by
  have hkeys : Frost.generateKeys .truncating (Curves.seven.ecp .ed25519) k n id = .ok _ :=
    Frost.generateKeys_eq_ok.mpr ⟨hk, hkn, rfl⟩
  exact ⟨_, hkeys, Frost.exists_mem_of_party hkeys (by decide) (by simpa using hk.trans hkn)⟩

open SignerGroup in
/-- Four parties and a threshold of two. -/
theorem signer_group_valid_two_of_four :
    ∃ keys, Frost.generateKeys .truncating (Curves.seven.ecp .ed25519) 2 4 id = .ok keys
      ∧ ∃ key ∈ keys, ∀ values, InRange values 2 → Distinct values 2 →
        ∃ fuel group, newFrom values key.pubkey.k fuel = some (.ok group)
          ∧ group.Valid 2 4 key.pubkey.h := by
  obtain ⟨keys, hkeys, key, hkey, -⟩ := exists_frostKey_seven (k := 2) (n := 4) (by decide) (by decide)
  exact ⟨keys, hkeys, key, hkey, (signer_group_valid_iff hkeys (by decide) hkey).mpr (by decide)⟩

open SignerGroup in
/-- Four parties and a threshold of three, as in the demo: the ids are drawn from `1..=7`, and the group
may have the members seven, six and five. -/
theorem signer_group_three_of_four_not_valid :
    ∃ keys, Frost.generateKeys .truncating (Curves.seven.ecp .ed25519) 3 4 id = .ok keys
      ∧ ∃ key ∈ keys, InRange (countdown 7) 3 ∧ Distinct (countdown 7) 3
        ∧ newFrom (countdown 7) key.pubkey.k 3 = some (.ok ⟨[5, 6, 7]⟩)
        ∧ ¬ ∃ fuel group, newFrom (countdown 7) key.pubkey.k fuel = some (.ok group)
          ∧ group.Valid 3 4 key.pubkey.h := by
  obtain ⟨keys, hkeys, key, hkey, -⟩ := exists_frostKey_seven (k := 3) (n := 4) (by decide) (by decide)
  have hthreshold : key.pubkey.k = 3 := by
    rw [Frost.pubkey_of_mem hkeys hkey]
    rfl
  refine ⟨keys, hkeys, key, hkey, inRange_countdown (by decide) (by decide) (by decide),
    distinct_countdown (by decide) (by decide), ?_, ?_⟩
  · rw [hthreshold]
    rfl
  · rintro ⟨fuel, group, hnew, hvalid⟩
    refine not_valid_of_first ?_ ?_ hnew hvalid
    · rw [hthreshold]
      decide
    · decide

end QuorumCrypt
