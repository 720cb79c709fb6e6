import QuorumCrypt.Orchestration.Executor
import QuorumCrypt.Schemes.Interface
import QuorumCrypt.Base.HashMap

/-!
# The FROST protocol

`protocols/src/frost/protocol.rs`: a first round in which the signers commit to nonces, and a second
one in which they send their shares. Messages carry an id next to the commitment or share they hold,
which has an id of its own, and the protocol files them under the id of the message. Commitments and
shares from the network carry the curve they are on.

The commitment lists and share lists that are handed to the scheme are read off hash maps, so their
order is that of the maps of the node.
-/

namespace QuorumCrypt

open Rust

/-- A commitment and the curve of its points. -/
abbrev CurveCommitment (K : Curves) := (c : Curve) × PublicCommitment (K.Point c)

/-- A share and the curve of its scalar. -/
structure CurveShare where
  curve : Curve
  share : FrostSignatureShare
  deriving DecidableEq

inductive FrostData (K : Curves) where
  | commitment (commitment : CurveCommitment K)
  | share (share : CurveShare)
  | precomputation (commitments : List (CurveCommitment K))
  | default

structure FrostMessage (K : Curves) where
  id : UInt16
  data : FrostData K

def FrostMessage.isDefault {K : Curves} (message : FrostMessage K) : Bool :=
  match message.data with
  | .default => true
  | _ => false

inductive FrostOptions where
  | precomputeOnly
  | precomputation
  | noPrecomputation
  deriving DecidableEq

/-! ### The signer group -/

/-- What `StdRng`, seeded with the hash of a message, draws from `1..=n`. Every number is drawn sooner
or later, so the loop that draws a signer group ends. -/
structure SignerDraws where
  draw : Bytes → UInt16 → ℕ → UInt16
  range : ∀ msg n i, 1 ≤ n → 1 ≤ draw msg n i ∧ draw msg n i ≤ n
  enough : Bytes → UInt16 → ℕ
  draw_enough : ∀ msg n id, 1 ≤ id → id ≤ n → ∃ i < enough msg n, draw msg n i = id

/-- The numbers in turn. -/
def SignerDraws.counting : SignerDraws where
  draw _ n i := UInt16.ofNat (i % n.toNat + 1)
  range := by
    intro msg n i hn
    rw [UInt16.le_iff_toNat_le, UInt16.toNat_one] at hn
    have hlt : n.toNat < 65536 := n.toNat_lt
    have hmod : i % n.toNat < n.toNat := Nat.mod_lt _ (by omega)
    rw [UInt16.le_iff_toNat_le, UInt16.le_iff_toNat_le, toNat_ofNat_of_le (by omega),
      UInt16.toNat_one]
    omega
  enough _ n := n.toNat
  draw_enough := by
    intro msg n id hlow hhigh
    rw [UInt16.le_iff_toNat_le] at hlow hhigh
    rw [UInt16.toNat_one] at hlow
    refine ⟨id.toNat - 1, by omega, ?_⟩
    rw [Nat.mod_eq_of_lt (by omega), Nat.sub_add_cancel hlow, UInt16.ofNat_toNat]

structure SignerGroup where
  signerIdentifiers : List UInt16

namespace SignerGroup

/-- The loop that draws until there are `t` different ids. -/
def drawIds (draw : ℕ → UInt16) (t : ℕ) : ℕ → ℕ → List UInt16 → List UInt16
  | 0, _, ids => ids
  | fuel + 1, i, ids =>
      if ids.length < t then
        drawIds draw t fuel (i + 1) (if draw i ∈ ids then ids else draw i :: ids)
      else ids

/-- The number of parties is taken to be `3 * f + 1` for a threshold of `f + 1`, in `u16`. -/
def new (draws : SignerDraws) (t : UInt16) (msg : Bytes) : ProtocolOutcome SignerGroup :=
  if t = 0 ∨ 65535 < 3 * (t.toNat - 1) + 1 then .panic
  else
    let n := UInt16.ofNat (3 * (t.toNat - 1) + 1)
    .ok ⟨drawIds (draws.draw msg n) t.toNat (draws.enough msg n) 0 []⟩

section Draw

variable {draw : ℕ → UInt16} {t : ℕ}

theorem nodup_drawIds (fuel i : ℕ) {ids : List UInt16} (h : ids.Nodup) :
    (drawIds draw t fuel i ids).Nodup := by
  induction fuel generalizing i ids with
  | zero => exact h
  | succ fuel ih =>
      unfold drawIds
      split
      · split
        · exact ih _ h
        · exact ih _ (h.cons ‹_›)
      · exact h

theorem mem_drawIds (fuel i : ℕ) {ids : List UInt16} {id : UInt16}
    (h : id ∈ drawIds draw t fuel i ids) : id ∈ ids ∨ ∃ j, draw j = id := by
  induction fuel generalizing i ids with
  | zero => exact .inl h
  | succ fuel ih =>
      unfold drawIds at h
      split at h
      · rcases ih _ h with hids | hdrawn
        · split at hids
          · exact .inl hids
          · rcases List.mem_cons.mp hids with rfl | hids
            · exact .inr ⟨i, rfl⟩
            · exact .inl hids
        · exact .inr hdrawn
      · exact .inl h

theorem length_drawIds_le (fuel i : ℕ) {ids : List UInt16} (h : ids.length ≤ t) :
    (drawIds draw t fuel i ids).length ≤ t := by
  induction fuel generalizing i ids with
  | zero => exact h
  | succ fuel ih =>
      unfold drawIds
      split
      · split
        · exact ih _ h
        · exact ih _ (by rw [List.length_cons]; omega)
      · exact h

/-- Either there are enough ids, or everything that was drawn is among them. -/
theorem length_drawIds_or_mem (fuel i : ℕ) (ids : List UInt16) :
    t ≤ (drawIds draw t fuel i ids).length
      ∨ (∀ id ∈ ids, id ∈ drawIds draw t fuel i ids)
        ∧ ∀ j, i ≤ j → j < i + fuel → draw j ∈ drawIds draw t fuel i ids := by
  induction fuel generalizing i ids with
  | zero => exact .inr ⟨fun id hid => hid, fun j hj hj' => by omega⟩
  | succ fuel ih =>
      unfold drawIds
      split
      · set next := if draw i ∈ ids then ids else draw i :: ids with hnext
        have hsub : ∀ id ∈ ids, id ∈ next := by
          intro id hid
          rw [hnext]
          split
          · exact hid
          · exact List.mem_cons_of_mem _ hid
        have hdrawn : draw i ∈ next := by
          rw [hnext]
          split
          · assumption
          · exact List.mem_cons_self
        rcases ih (i + 1) next with hlength | ⟨hids, hdraws⟩
        · exact .inl hlength
        · refine .inr ⟨fun id hid => hids id (hsub id hid), fun j hj hj' => ?_⟩
          by_cases heq : j = i
          · exact heq ▸ hids _ hdrawn
          · exact hdraws j (by omega) (by omega)
      · exact .inl (by omega)

end Draw

/-- The signer group has as many members as the threshold, out of the assumed number of parties. -/
theorem of_new {draws : SignerDraws} {t : UInt16} {msg : Bytes} {group : SignerGroup}
    (h : new draws t msg = .ok group) :
    group.signerIdentifiers.Nodup ∧ group.signerIdentifiers.length = t.toNat
      ∧ ∀ id ∈ group.signerIdentifiers, 1 ≤ id.toNat ∧ id.toNat ≤ 3 * (t.toNat - 1) + 1 := by
  unfold new at h
  split at h
  · cases h
  rename_i hparams
  obtain rfl := Outcome.ok.inj h
  rw [not_or, not_lt] at hparams
  obtain ⟨hzero, hmax⟩ := hparams
  have hpos : t.toNat ≠ 0 := fun heq => hzero (UInt16.toNat_inj.mp heq)
  set n := UInt16.ofNat (3 * (t.toNat - 1) + 1) with hn
  have hnat : n.toNat = 3 * (t.toNat - 1) + 1 := by
    rw [hn, toNat_ofNat_of_le hmax]
  have hone : 1 ≤ n := UInt16.le_iff_toNat_le.mpr (by rw [hnat, UInt16.toNat_one]; omega)
  have hnodup : (drawIds (draws.draw msg n) t.toNat (draws.enough msg n) 0 []).Nodup :=
    nodup_drawIds _ 0 List.nodup_nil
  refine ⟨hnodup, le_antisymm (length_drawIds_le _ _ (Nat.zero_le _)) ?_, ?_⟩
  · have hdrawn : t.toNat ≤ (drawIds (draws.draw msg n) t.toNat (draws.enough msg n) 0 []).length
        ∨ _ := length_drawIds_or_mem _ 0 []
    rcases hdrawn with hlength | ⟨-, hdraws⟩
    · exact hlength
    · -- every party was drawn
      have hall : ((List.range n.toNat).map fun i => UInt16.ofNat (i + 1)).Subperm
          (drawIds (draws.draw msg n) t.toNat (draws.enough msg n) 0 []) := by
        refine List.subperm_of_subset ?_ ?_
        · refine List.Nodup.map_on ?_ List.nodup_range
          intro i hi j hj heq
          rw [List.mem_range] at hi hj
          have := congrArg UInt16.toNat heq
          rw [toNat_ofNat_of_le (by omega), toNat_ofNat_of_le (by omega)] at this
          omega
        · intro id hid
          obtain ⟨i, hi, rfl⟩ := List.mem_map.mp hid
          rw [List.mem_range] at hi
          have hid : (UInt16.ofNat (i + 1)).toNat = i + 1 := by
            exact toNat_ofNat_of_le (by omega)
          obtain ⟨j, hj, hdraw⟩ := draws.draw_enough msg n (UInt16.ofNat (i + 1))
            (UInt16.le_iff_toNat_le.mpr (by rw [hid, UInt16.toNat_one]; omega))
            (UInt16.le_iff_toNat_le.mpr (by rw [hid]; omega))
          exact hdraw ▸ hdraws j (Nat.zero_le _) (by omega)
      have hlength := hall.length_le
      rw [List.length_map, List.length_range] at hlength
      refine le_trans ?_ hlength
      omega
  · intro id hid
    rcases mem_drawIds _ _ hid with hnil | ⟨j, rfl⟩
    · cases hnil
    · obtain ⟨hlow, hhigh⟩ := draws.range msg n j hone
      rw [UInt16.le_iff_toNat_le] at hlow hhigh
      rw [UInt16.toNat_one] at hlow
      omega

/-- A signer group is drawn when the assumed number of parties is a `u16`. -/
theorem exists_new (draws : SignerDraws) {k : ℕ} (hk : 1 ≤ k) (hparties : 3 * (k - 1) + 1 ≤ 65535)
    (msg : Bytes) : ∃ group, new draws (UInt16.ofNat k) msg = .ok group := by
  have ht : (UInt16.ofNat k).toNat = k := toNat_ofNat_of_le (by omega)
  refine ⟨_, if_neg ?_⟩
  rw [not_or, not_lt, ht]
  refine ⟨fun hzero => ?_, hparties⟩
  rw [hzero] at ht
  simp at ht
  omega

end SignerGroup

structure FrostPrecomputation (K : Curves) where
  group : SignerGroup
  nonce : Nonce
  commitments : HashMap UInt16 (CurveCommitment K)

def FrostPrecomputation.insert {K : Curves} (self : FrostPrecomputation K) (id : UInt16)
    (commitment : CurveCommitment K) : FrostPrecomputation K :=
  { self with commitments := self.commitments.insert id commitment }

/-! ### Calls into the scheme

The hash functions are those of Ed25519; for another curve `get_context_string(group).unwrap()`
panics. So does an operation on points or scalars of different curves. -/

section Calls

variable {K : Curves} {c : Curve} (hash : FrostHashes)

def hashesOf (c : Curve) : SchemeOutcome FrostHashes := if c = .ed25519 then .ok hash else .panic

def CurveCommitment.id (commitment : CurveCommitment K) : UInt16 := commitment.2.id

/-- The commitment as one on the curve `c`. -/
def CurveCommitment.on? (c : Curve) (commitment : CurveCommitment K) :
    Option (PublicCommitment (K.Point c)) :=
  if h : commitment.1 = c then some (h ▸ commitment.2) else none

/-- The list that the group operations see. -/
def commitmentsOn (c : Curve) (commitmentList : List (CurveCommitment K)) :
    SchemeOutcome (List (PublicCommitment (K.Point c))) :=
  Outcome.unwrap (commitmentList.mapM (CurveCommitment.on? c))

def Frost.commitOn (key : FrostPrivateKey (K.Point c)) (randomBytes : Bytes × Bytes) :
    SchemeOutcome (PublicCommitment (K.Point c) × Nonce) := do
  let hash ← hashesOf hash c
  .ok (commit (K.ecp c) hash key randomBytes.1 randomBytes.2)

def Frost.getGroupCommitmentOn (commitmentList : List (CurveCommitment K)) (message : Bytes)
    (key : FrostPrivateKey (K.Point c)) : SchemeOutcome (K.Point c) := do
  let hash ← hashesOf hash c
  let commitmentList ← commitmentsOn c commitmentList
  getGroupCommitment (K.ecp c) hash commitmentList message key

/-- The binding factor of the node is looked up before the points are multiplied. -/
def Frost.partialSignOn (nonce : Nonce) (commitmentList : List (CurveCommitment K)) (message : Bytes)
    (key : FrostPrivateKey (K.Point c)) (nodeId : UInt16) :
    SchemeOutcome (FrostSignatureShare × K.Point c) := do
  let hash ← hashesOf hash c
  if nodeId ∉ commitmentList.map CurveCommitment.id then .err .idNotFound
  else
    let commitmentList ← commitmentsOn c commitmentList
    partialSign (K.ecp c) hash nonce commitmentList message key nodeId

/-- The commitment of the signer is looked up before anything else. -/
def Frost.verifyShareOn (share : CurveShare) (pubkey : FrostPublicKey (K.Point c)) (message : Bytes)
    (commitmentList : List (CurveCommitment K)) : SchemeOutcome Bool :=
  if share.share.id ∉ commitmentList.map CurveCommitment.id then .err .idNotFound
  else do
    let hash ← hashesOf hash c
    let commitmentList ← commitmentsOn c commitmentList
    if share.curve = c then verifyShare (K.ecp c) hash share.share pubkey message commitmentList
    else .panic

/-- Only the first `k` shares are read. -/
def Frost.assembleOn (groupCommitment : K.Point c) (key : FrostPrivateKey (K.Point c))
    (shares : List CurveShare) : SchemeOutcome (FrostSignature (K.Point c)) :=
  if ∀ share ∈ shares.take key.pubkey.k.toNat, share.curve = c then
    assemble (K.ecp c) groupCommitment key (shares.map CurveShare.share)
  else .panic

@[simp] theorem hashesOf_ed25519 : hashesOf hash .ed25519 = .ok hash := rfl

theorem hashesOf_eq_ok {hash hash' : FrostHashes} (h : hashesOf hash c = .ok hash') :
    c = .ed25519 ∧ hash' = hash := by
  unfold hashesOf at h
  split at h
  · exact ⟨‹_›, (Outcome.ok.inj h).symm⟩
  · cases h

theorem CurveCommitment.on?_eq_some {commitment : CurveCommitment K}
    {p : PublicCommitment (K.Point c)} : commitment.on? c = some p ↔ commitment = ⟨c, p⟩ := by
  obtain ⟨c', p'⟩ := commitment
  unfold CurveCommitment.on?
  constructor
  · intro h
    split at h
    · rename_i hcurve
      cases hcurve
      rw [← Option.some.inj h]
    · cases h
  · rintro ⟨⟩
    exact dif_pos rfl

/-- The group operations work when all commitments are on the curve. -/
theorem commitmentsOn_eq_ok {list : List (CurveCommitment K)}
    {cs : List (PublicCommitment (K.Point c))} :
    commitmentsOn c list = .ok cs ↔ list = cs.map (Sigma.mk c) := by
  rw [commitmentsOn, Outcome.unwrap_eq_ok]
  induction list generalizing cs with
  | nil =>
      cases cs with
      | nil => simp
      | cons p cs => simp
  | cons commitment list ih =>
      rw [List.mapM_cons]
      cases cs with
      | nil => simp [Option.bind_eq_some_iff]
      | cons p cs =>
          simp only [Option.bind_eq_bind, Option.bind_eq_some_iff, Option.pure_def,
            Option.some.injEq, List.cons.injEq, List.map_cons]
          constructor
          · rintro ⟨q, hq, qs, hqs, rfl, rfl⟩
            exact ⟨CurveCommitment.on?_eq_some.mp hq, ih.mp hqs⟩
          · rintro ⟨hp, hcs⟩
            exact ⟨p, CurveCommitment.on?_eq_some.mpr hp, cs, ih.mpr hcs, rfl, rfl⟩

theorem map_id_map_mk (cs : List (PublicCommitment (K.Point c))) :
    (cs.map (Sigma.mk c)).map (CurveCommitment.id (K := K)) = cs.map PublicCommitment.id := by
  rw [List.map_map]
  rfl

theorem Frost.id_of_commitOn {key : FrostPrivateKey (K.Point c)} {randomBytes : Bytes × Bytes}
    {comm : PublicCommitment (K.Point c)} {nonce : Nonce}
    (h : commitOn hash key randomBytes = .ok (comm, nonce)) : comm.id = key.id := by
  obtain ⟨_, -, hcommit⟩ := Outcome.bind_eq_ok.mp h
  obtain ⟨rfl, -⟩ := Prod.mk.inj (Outcome.ok.inj hcommit)
  rfl

theorem Frost.id_of_partialSignOn {nonce : Nonce} {list : List (CurveCommitment K)} {msg : Bytes}
    {key : FrostPrivateKey (K.Point c)} {id : UInt16} {share : FrostSignatureShare} {R : K.Point c}
    (h : partialSignOn hash nonce list msg key id = .ok (share, R)) : share.id = id := by
  obtain ⟨_, -, h⟩ := Outcome.bind_eq_ok.mp h
  split at h
  · cases h
  · obtain ⟨_, -, hsign⟩ := Outcome.bind_eq_ok.mp h
    exact id_of_partialSign hsign

/-- An accepted share is on the curve of the key, as are all commitments. -/
theorem Frost.verifyShareOn_eq_ok_true {share : CurveShare} {pubkey : FrostPublicKey (K.Point c)}
    {msg : Bytes} {list : List (CurveCommitment K)}
    (h : verifyShareOn hash share pubkey msg list = .ok true) :
    c = .ed25519 ∧ share.curve = c ∧ ∃ cs, list = cs.map (Sigma.mk c)
      ∧ verifyShare (K.ecp c) hash share.share pubkey msg cs = .ok true := by
  by_cases hid : share.share.id ∉ list.map CurveCommitment.id
  · rw [verifyShareOn, if_pos hid] at h
    cases h
  rw [verifyShareOn, if_neg hid] at h
  obtain ⟨hash', hhash, hlist⟩ := Outcome.bind_eq_ok.mp h
  obtain ⟨hc, rfl⟩ := hashesOf_eq_ok hhash
  obtain ⟨cs, hcs, hverify⟩ := Outcome.bind_eq_ok.mp hlist
  by_cases hcurve : share.curve = c
  · rw [if_pos hcurve] at hverify
    exact ⟨hc, hcurve, cs, commitmentsOn_eq_ok.mp hcs, hverify⟩
  · rw [if_neg hcurve] at hverify
    cases hverify

end Calls

/-! ### The calls on Ed25519 -/

section Ed25519

variable {K : Curves} (hash : FrostHashes) {key : FrostPrivateKey (K.Point .ed25519)} {msg : Bytes}
  (cs : List (PublicCommitment (K.Point .ed25519)))

theorem Frost.getGroupCommitmentOn_map :
    getGroupCommitmentOn hash (cs.map (Sigma.mk .ed25519)) msg key
      = .ok (groupCommitment (K.ecp .ed25519) hash key.pubkey cs msg) := by
  rw [getGroupCommitmentOn, hashesOf_ed25519, Outcome.ok_bind, commitmentsOn_eq_ok.mpr rfl,
    Outcome.ok_bind, getGroupCommitment_eq]

theorem Frost.partialSignOn_map {nonce : Nonce} {id : UInt16}
    (hid : id ∈ cs.map PublicCommitment.id) :
    partialSignOn hash nonce (cs.map (Sigma.mk .ed25519)) msg key id
      = partialSign (K.ecp .ed25519) hash nonce cs msg key id := by
  rw [partialSignOn, hashesOf_ed25519, Outcome.ok_bind, map_id_map_mk, if_neg (not_not.mpr hid),
    commitmentsOn_eq_ok.mpr rfl, Outcome.ok_bind]

theorem Frost.verifyShareOn_map {share : FrostSignatureShare}
    (hid : share.id ∈ cs.map PublicCommitment.id) :
    verifyShareOn hash ⟨.ed25519, share⟩ key.pubkey msg (cs.map (Sigma.mk .ed25519))
      = verifyShare (K.ecp .ed25519) hash share key.pubkey msg cs := by
  rw [verifyShareOn, map_id_map_mk, if_neg (not_not.mpr hid), hashesOf_ed25519, Outcome.ok_bind,
    commitmentsOn_eq_ok.mpr rfl, Outcome.ok_bind, if_pos rfl]

theorem Frost.assembleOn_map {R : K.Point .ed25519} (shares : List FrostSignatureShare) :
    assembleOn R key (shares.map (CurveShare.mk .ed25519)) = assemble (K.ecp .ed25519) R key shares := by
  have hcurve : ∀ share ∈ (shares.map (CurveShare.mk .ed25519)).take key.pubkey.k.toNat,
      share.curve = .ed25519 := by
    intro share hshare
    obtain ⟨s, -, rfl⟩ := List.mem_map.mp (List.mem_of_mem_take hshare)
    rfl
  have hmap : (shares.map (CurveShare.mk .ed25519)).map CurveShare.share = shares := by
    rw [List.map_map]
    exact List.map_id _
  rw [assembleOn, if_pos hcurve, hmap]

end Ed25519

/-! ### The protocol -/

/-- The state of the protocol of a node whose key is on the curve `c`. -/
structure FrostProtocol (K : Curves) (c : Curve) where
  round : ℕ
  key : FrostPrivateKey (K.Point c)
  label : Bytes
  msg : Bytes
  nonce : Option Nonce
  commitment : Option (CurveCommitment K)
  commitmentList : HashMap UInt16 (CurveCommitment K)
  precomputationList : List (FrostPrecomputation K)
  groupCommitment : Option (K.Point c)
  shares : HashMap UInt16 CurveShare
  notVerifiedShares : Finset UInt16
  finished : Bool
  options : FrostOptions
  signerGroup : SignerGroup

/-- The order in which a node reads its maps. -/
structure FrostOrders (K : Curves) where
  commitments : IterationOrder UInt16 (CurveCommitment K)
  shares : IterationOrder UInt16 CurveShare

def FrostOrders.latest (K : Curves) : FrostOrders K := ⟨.latest _ _, .latest _ _⟩

namespace FrostProtocol

variable {K : Curves} {c : Curve}

/-- A key of another scheme panics. Without a precomputation the protocol starts before its first
round, with one it starts after it. -/
def new (draws : SignerDraws) (key : PrivateKeyShare K) (msg label : Bytes) (options : FrostOptions)
    (precomputation : Option (FrostPrecomputation K)) :
    ProtocolOutcome ((c : Curve) × FrostProtocol K c) :=
  match key with
  | .frost c k => do
      let signerGroup ← SignerGroup.new draws k.pubkey.k msg
      let self : FrostProtocol K c :=
        { round := 0, key := k, label, msg, nonce := none, commitment := none, commitmentList := ∅
          precomputationList := [], groupCommitment := none, shares := ∅, notVerifiedShares := ∅
          finished := false, options, signerGroup }
      match precomputation with
      | none => .ok ⟨c, self⟩
      | some precomputation =>
          .ok ⟨c, { self with
            round := 1
            nonce := some precomputation.nonce
            commitment := precomputation.commitments.lookup k.id
            commitmentList := precomputation.commitments }⟩
  | _ => .panic

variable (E : Primitives) (hash : FrostHashes) (orders : FrostOrders K)

def threshold (self : FrostProtocol K c) : ℕ := self.key.pubkey.k.toNat

def contains (self : FrostProtocol K c) (id : UInt16) : Bool :=
  id ∈ self.signerGroup.signerIdentifiers

/-- The commitment list handed to the scheme. -/
def commitments (self : FrostProtocol K c) : List (CurveCommitment K) :=
  self.commitmentList.values orders.commitments

/-- `verify_share` on the commitments the node has. Its `Err` is reported as `InvalidShare`. -/
def verifyShare (self : FrostProtocol K c) (share : CurveShare) : ProtocolOutcome Bool :=
  (Frost.verifyShareOn hash share self.key.pubkey self.msg (self.commitments orders)).mapErr
    fun _ => .invalidShare

def updateCommitment (self : FrostProtocol K c) (id : UInt16) (commitment : CurveCommitment K) :
    ProtocolOutcome (FrostProtocol K c) :=
  if self.options = .precomputeOnly then .ok self
  else if self.contains id ∧ id ∉ self.commitmentList then
    let self := { self with commitmentList := self.commitmentList.insert id commitment }
    -- if there is a share for this commitment, it can be verified now
    match self.shares.lookup id with
    | none => .ok self
    | some share => do
        let _ ← verifyShare hash orders self share
        .ok { self with
          shares := self.shares.insert id share
          notVerifiedShares := self.notVerifiedShares.erase id }
  else .ok self

/-- The result of `verify_share` is only asked for `is_err`. -/
def updateShare (self : FrostProtocol K c) (id : UInt16) (share : CurveShare) :
    ProtocolOutcome (FrostProtocol K c) :=
  if self.contains id ∧ id ∉ self.shares then
    if id ∉ self.commitmentList then
      .ok { self with
        notVerifiedShares := insert id self.notVerifiedShares
        shares := self.shares.insert id share }
    else do
      let _ ← verifyShare hash orders self share
      .ok { self with shares := self.shares.insert id share }
  else .ok self

/-- Into the precomputations that the node has, one commitment each. -/
def insertPrecomputations (self : FrostProtocol K c) (id : UInt16) (p : List (CurveCommitment K)) :
    FrostProtocol K c :=
  { self with
    precomputationList := self.precomputationList.mapIdx fun i precomputation =>
      match p[i]? with
      | some commitment => precomputation.insert id commitment
      | none => precomputation }

/-- To sign in this execution, the last of the commitments is used, and it replaces an older one. -/
def updatePrecomputation (self : FrostProtocol K c) (id : UInt16)
    (precomputations : List (CurveCommitment K)) : ProtocolOutcome (FrostProtocol K c) :=
  match precomputations.getLast? with
  | none => .err .invalidShare
  | some comm =>
      if self.contains id then
        if self.options = .precomputation then
          .ok ({ self with commitmentList := self.commitmentList.insert id comm }.insertPrecomputations
            id precomputations.dropLast)
        else .ok (self.insertPrecomputations id precomputations)
      else .ok self

def update (self : FrostProtocol K c) (message : FrostMessage K) :
    ProtocolOutcome (FrostProtocol K c) :=
  match message.data with
  | .commitment commitment => updateCommitment hash orders self message.id commitment
  | .share share => updateShare hash orders self message.id share
  | .precomputation precomputations => updatePrecomputation self message.id precomputations
  | .default => .err .internalError

/-- Whether a map has an entry for every signer. -/
def allPresent {ν : Type} (self : FrostProtocol K c) (m : HashMap UInt16 ν) : Bool :=
  self.signerGroup.signerIdentifiers.all fun id => id ∈ m

def isReadyForNextRound (self : FrostProtocol K c) : Bool :=
  match self.round with
  | 1 => self.threshold ≤ self.commitmentList.len && self.allPresent self.commitmentList
  | 2 => (self.threshold ≤ self.shares.len ∧ self.notVerifiedShares = ∅)
      && self.allPresent self.shares
  | _ => false

def isReadyToFinalize (self : FrostProtocol K c) : Bool :=
  (self.shares.len = self.threshold ∧ self.notVerifiedShares = ∅) && self.allPresent self.shares

/-- The number of commitments a node precomputes. -/
def numPrecomputations : ℕ := 10

def precompute (self : FrostProtocol K c) (drawn : ℕ → Bytes × Bytes) :
    SchemeOutcome (FrostData K × FrostProtocol K c) := do
  let commitments ← (List.range numPrecomputations).mapM fun i => Frost.commitOn hash self.key (drawn i)
  .ok (.precomputation (commitments.map fun (comm, _) => ⟨c, comm⟩),
    { self with
      precomputationList := self.precomputationList ++ commitments.map fun (comm, nonce) =>
        { group := self.signerGroup, nonce, commitments := AList.singleton self.key.id ⟨c, comm⟩ } })

/-- The first round: commit, if the node is a signer that has not yet committed. -/
def doRoundZero (self : FrostProtocol K c) (drawn : ℕ → Bytes × Bytes) :
    ProtocolOutcome (FrostData K × FrostProtocol K c) :=
  if self.options ≠ .noPrecomputation then do
    let (data, self) ← liftScheme (precompute hash self drawn)
    .ok (data, { self with round := self.round + 1 })
  else if self.contains self.key.id ∧ self.key.id ∉ self.commitmentList then do
    let (comm, nonce) ← liftScheme (Frost.commitOn hash self.key (drawn 0))
    .ok (.commitment ⟨c, comm⟩,
      { self with
        nonce := some nonce
        commitment := some ⟨c, comm⟩
        commitmentList := self.commitmentList.insert self.key.id ⟨c, comm⟩
        round := self.round + 1 })
  else .ok (.default, { self with round := self.round + 1 })

/-- The second round: sign, if the node is a signer whose share is not there yet. -/
def doRoundOne (self : FrostProtocol K c) : ProtocolOutcome (FrostData K × FrostProtocol K c) :=
  if self.contains self.key.id ∧ self.key.id ∉ self.shares then do
    let nonce ← Outcome.unwrap self.nonce
    let (share, groupCommitment) ← liftScheme
      (Frost.partialSignOn hash nonce (self.commitments orders) self.msg self.key self.key.id)
    .ok (.share ⟨c, share⟩,
      { self with
        round := self.round + 1
        groupCommitment := some groupCommitment
        shares := self.shares.insert self.key.id ⟨c, share⟩ })
  else .ok (.default, { self with round := self.round + 1 })

def doRound (self : FrostProtocol K c) (drawn : ℕ → Bytes × Bytes) :
    ProtocolOutcome (FrostMessage K × FrostProtocol K c) :=
  match self.round with
  | 0 => do
      let (data, self) ← doRoundZero hash self drawn
      .ok (⟨self.key.id, data⟩, self)
  | 1 => do
      let (data, self) ← doRoundOne hash orders self
      .ok (⟨self.key.id, data⟩, self)
  | _ => .err .invalidRound

/-- The signature before it is encoded. -/
def signature (self : FrostProtocol K c) : ProtocolOutcome (FrostSignature (K.Point c)) := do
  let groupCommitment ← liftScheme
    (Frost.getGroupCommitmentOn hash (self.commitments orders) self.msg self.key)
  liftScheme (Frost.assembleOn groupCommitment self.key (self.shares.values orders.shares))

def finalize (self : FrostProtocol K c) : ProtocolOutcome (Bytes × FrostProtocol K c) := do
  let sig ← signature hash orders self
  .ok ((Signature.frost c sig).toBytes E, { self with finished := true })

/-- The protocol that the executor runs. -/
def protocol (c : Curve) :
    ThresholdRoundProtocol (FrostProtocol K c) (FrostMessage K) (ℕ → Bytes × Bytes) where
  doRound := doRound hash orders
  isReadyForNextRound := isReadyForNextRound
  isReadyToFinalize := isReadyToFinalize
  finalize := finalize E hash orders
  update := update hash orders
  isDefault := FrostMessage.isDefault

/-! ### What a call can do -/

variable {E hash orders} {self self' : FrostProtocol K c} {message : FrostMessage K}

variable (hash orders self message) in
/-- The states that `update` can lead to. -/
inductive Updated : FrostProtocol K c → Prop
  /-- No commitment and no share is stored. -/
  | ignored (precomputationList : List (FrostPrecomputation K)) :
      Updated { self with precomputationList }
  | committed (commitment : CurveCommitment K) (hdata : message.data = .commitment commitment)
      (hsigner : message.id ∈ self.signerGroup.signerIdentifiers)
      (hnew : message.id ∉ self.commitmentList) (hnone : message.id ∉ self.shares) :
      Updated { self with commitmentList := self.commitmentList.insert message.id commitment }
  /-- A share that came before its commitment is checked now. -/
  | overtaken (commitment : CurveCommitment K) (share : CurveShare) (valid : Bool)
      (hdata : message.data = .commitment commitment)
      (hsigner : message.id ∈ self.signerGroup.signerIdentifiers)
      (hnew : message.id ∉ self.commitmentList) (hshare : self.shares.lookup message.id = some share)
      (hverify : verifyShare hash orders
        { self with commitmentList := self.commitmentList.insert message.id commitment } share
          = .ok valid) :
      Updated { self with
        commitmentList := self.commitmentList.insert message.id commitment
        shares := self.shares.insert message.id share
        notVerifiedShares := self.notVerifiedShares.erase message.id }
  | early (share : CurveShare) (hdata : message.data = .share share)
      (hsigner : message.id ∈ self.signerGroup.signerIdentifiers)
      (hnew : message.id ∉ self.shares) (hnone : message.id ∉ self.commitmentList) :
      Updated { self with
        notVerifiedShares := insert message.id self.notVerifiedShares
        shares := self.shares.insert message.id share }
  | shared (share : CurveShare) (valid : Bool) (hdata : message.data = .share share)
      (hsigner : message.id ∈ self.signerGroup.signerIdentifiers)
      (hnew : message.id ∉ self.shares) (hcommitted : message.id ∈ self.commitmentList)
      (hverify : verifyShare hash orders self share = .ok valid) :
      Updated { self with shares := self.shares.insert message.id share }
  /-- A precomputed commitment replaces the one that is there. -/
  | precomputed (commitment : CurveCommitment K) (precomputationList : List (FrostPrecomputation K))
      (commitments : List (CurveCommitment K)) (hdata : message.data = .precomputation commitments)
      (hlast : commitments.getLast? = some commitment) (hoptions : self.options = .precomputation)
      (hsigner : message.id ∈ self.signerGroup.signerIdentifiers) :
      Updated { self with
        commitmentList := self.commitmentList.insert message.id commitment
        precomputationList }

theorem updated_of_updateCommitment {commitment : CurveCommitment K}
    (hdata : message.data = .commitment commitment)
    (h : updateCommitment hash orders self message.id commitment = .ok self') :
    Updated hash orders self message self' := by
  unfold updateCommitment at h
  split at h
  · obtain rfl := Outcome.ok.inj h
    exact .ignored self.precomputationList
  split at h
  · rename_i hcond
    obtain ⟨hsigner, hnew⟩ := hcond
    dsimp only at h
    split at h
    · rename_i hnone
      obtain rfl := Outcome.ok.inj h
      exact .committed commitment hdata (by simpa [contains] using hsigner) hnew
        (AList.lookup_eq_none.mp hnone)
    · rename_i share hshare
      obtain ⟨valid, hverify, heq⟩ := Outcome.bind_eq_ok.mp h
      obtain rfl := Outcome.ok.inj heq
      exact .overtaken commitment share valid hdata (by simpa [contains] using hsigner) hnew hshare
        hverify
  · obtain rfl := Outcome.ok.inj h
    exact .ignored self.precomputationList

theorem updated_of_updateShare {share : CurveShare} (hdata : message.data = .share share)
    (h : updateShare hash orders self message.id share = .ok self') :
    Updated hash orders self message self' := by
  unfold updateShare at h
  split at h
  · rename_i hcond
    obtain ⟨hsigner, hnew⟩ := hcond
    split at h
    · rename_i hnone
      obtain rfl := Outcome.ok.inj h
      exact .early share hdata (by simpa [contains] using hsigner) hnew hnone
    · rename_i hcommitted
      obtain ⟨valid, hverify, heq⟩ := Outcome.bind_eq_ok.mp h
      obtain rfl := Outcome.ok.inj heq
      exact .shared share valid hdata (by simpa [contains] using hsigner) hnew
        (not_not.mp hcommitted) hverify
  · obtain rfl := Outcome.ok.inj h
    exact .ignored self.precomputationList

theorem updated_of_updatePrecomputation {precomputations : List (CurveCommitment K)}
    (hdata : message.data = .precomputation precomputations)
    (h : updatePrecomputation self message.id precomputations = .ok self') :
    Updated hash orders self message self' := by
  unfold updatePrecomputation at h
  split at h
  · cases h
  rename_i commitment hlast
  split at h
  · rename_i hsigner
    split at h
    · rename_i hoptions
      obtain rfl := Outcome.ok.inj h
      exact .precomputed commitment _ _ hdata hlast hoptions (by simpa [contains] using hsigner)
    · obtain rfl := Outcome.ok.inj h
      exact .ignored _
  · obtain rfl := Outcome.ok.inj h
    exact .ignored self.precomputationList

/-- All that a delivery can do. -/
theorem updated_of_update (h : update hash orders self message = .ok self') :
    Updated hash orders self message self' := by
  unfold update at h
  split at h
  · exact updated_of_updateCommitment ‹_› h
  · exact updated_of_updateShare ‹_› h
  · exact updated_of_updatePrecomputation ‹_› h
  · cases h

variable (hash orders self) in
/-- What `do_round` can return when nothing is precomputed. -/
inductive RoundDone (drawn : ℕ → Bytes × Bytes) : FrostData K → FrostProtocol K c → Prop
  | committed (comm : PublicCommitment (K.Point c)) (nonce : Nonce) (hround : self.round = 0)
      (hsigner : self.key.id ∈ self.signerGroup.signerIdentifiers)
      (hcommit : Frost.commitOn hash self.key (drawn 0) = .ok (comm, nonce)) :
      RoundDone drawn (.commitment ⟨c, comm⟩) { self with
        nonce := some nonce
        commitment := some ⟨c, comm⟩
        commitmentList := self.commitmentList.insert self.key.id ⟨c, comm⟩
        round := self.round + 1 }
  | signed (nonce : Nonce) (share : FrostSignatureShare) (groupCommitment : K.Point c)
      (hround : self.round = 1) (hsigner : self.key.id ∈ self.signerGroup.signerIdentifiers)
      (hnew : self.key.id ∉ self.shares) (hnonce : self.nonce = some nonce)
      (hsign : Frost.partialSignOn hash nonce (self.commitments orders) self.msg self.key self.key.id
        = .ok (share, groupCommitment)) :
      RoundDone drawn (.share ⟨c, share⟩) { self with
        round := self.round + 1
        groupCommitment := some groupCommitment
        shares := self.shares.insert self.key.id ⟨c, share⟩ }
  | idle (hround : self.round = 0 ∨ self.round = 1) :
      RoundDone drawn .default { self with round := self.round + 1 }

/-- All that a round can do, whether or not something is precomputed. -/
theorem roundDone_or_precomputed {drawn : ℕ → Bytes × Bytes}
    (h : doRound hash orders self drawn = .ok (message, self')) :
    message.id = self.key.id ∧ (RoundDone hash orders self drawn message.data self'
      ∨ self.options ≠ .noPrecomputation ∧ self.round = 0
        ∧ ∃ next, precompute hash self drawn = .ok (message.data, next)
          ∧ self' = { next with round := next.round + 1 }) := by
  unfold doRound at h
  split at h
  · rename_i hround
    obtain ⟨⟨data, next⟩, hdone, heq⟩ := Outcome.bind_eq_ok.mp h
    obtain ⟨rfl, rfl⟩ := Prod.mk.inj (Outcome.ok.inj heq)
    unfold doRoundZero at hdone
    split at hdone
    · rename_i hoptions
      obtain ⟨⟨data', next'⟩, hprecompute, hnext⟩ := Outcome.bind_eq_ok.mp hdone
      obtain ⟨rfl, rfl⟩ := Prod.mk.inj (Outcome.ok.inj hnext)
      have hok := liftScheme_eq_ok.mp hprecompute
      obtain ⟨_, -, hstate⟩ := Outcome.bind_eq_ok.mp hok
      obtain ⟨-, rfl⟩ := Prod.mk.inj (Outcome.ok.inj hstate)
      exact ⟨rfl, .inr ⟨hoptions, hround, _, hok, rfl⟩⟩
    split at hdone
    · rename_i hcond
      obtain ⟨⟨comm, nonce⟩, hcommit, hnext⟩ := Outcome.bind_eq_ok.mp hdone
      obtain ⟨rfl, rfl⟩ := Prod.mk.inj (Outcome.ok.inj hnext)
      exact ⟨rfl, .inl (.committed comm nonce hround (by simpa [contains] using hcond.1)
        (liftScheme_eq_ok.mp hcommit))⟩
    · obtain ⟨rfl, rfl⟩ := Prod.mk.inj (Outcome.ok.inj hdone)
      exact ⟨rfl, .inl (.idle (.inl hround))⟩
  · rename_i hround
    obtain ⟨⟨data, next⟩, hdone, heq⟩ := Outcome.bind_eq_ok.mp h
    obtain ⟨rfl, rfl⟩ := Prod.mk.inj (Outcome.ok.inj heq)
    unfold doRoundOne at hdone
    split at hdone
    · rename_i hcond
      obtain ⟨nonce, hnonce, hsigned⟩ := Outcome.bind_eq_ok.mp hdone
      obtain ⟨⟨share, R⟩, hsign, hnext⟩ := Outcome.bind_eq_ok.mp hsigned
      obtain ⟨rfl, rfl⟩ := Prod.mk.inj (Outcome.ok.inj hnext)
      exact ⟨rfl, .inl (.signed nonce share R hround (by simpa [contains] using hcond.1) hcond.2
        (Outcome.unwrap_eq_ok.mp hnonce) (liftScheme_eq_ok.mp hsign))⟩
    · obtain ⟨rfl, rfl⟩ := Prod.mk.inj (Outcome.ok.inj hdone)
      exact ⟨rfl, .inl (.idle (.inr hround))⟩
  · cases h

/-- All that a round can do when nothing is precomputed. -/
theorem roundDone_of_doRound {drawn : ℕ → Bytes × Bytes}
    (hoptions : self.options = .noPrecomputation)
    (h : doRound hash orders self drawn = .ok (message, self')) :
    message.id = self.key.id ∧ RoundDone hash orders self drawn message.data self' := by
  obtain ⟨hid, hdone⟩ := roundDone_or_precomputed h
  exact ⟨hid, hdone.resolve_right fun hprecomputed => hprecomputed.1 hoptions⟩

/-- What `precompute` changes. -/
theorem of_precompute_eq_ok {drawn : ℕ → Bytes × Bytes} {data : FrostData K}
    (h : precompute hash self drawn = .ok (data, self')) :
    ∃ list, self' = { self with precomputationList := list } := by
  obtain ⟨_, -, hstate⟩ := Outcome.bind_eq_ok.mp h
  obtain ⟨-, rfl⟩ := Prod.mk.inj (Outcome.ok.inj hstate)
  exact ⟨_, rfl⟩

/-! ### The round counter -/

theorem round_update (h : update hash orders self message = .ok self') :
    self'.round = self.round := by
  cases updated_of_update h <;> rfl

theorem round_doRound {drawn : ℕ → Bytes × Bytes}
    (h : doRound hash orders self drawn = .ok (message, self')) : self'.round = self.round + 1 := by
  obtain ⟨-, hdone | ⟨-, -, next, hprecompute, heq⟩⟩ := roundDone_or_precomputed h
  · generalize message.data = data at hdone
    cases hdone <;> rfl
  · obtain ⟨list, rfl⟩ := of_precompute_eq_ok hprecompute
    rw [heq]

end FrostProtocol

end QuorumCrypt
