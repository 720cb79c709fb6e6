import QuorumCrypt.Protocols.FrostSafety

/-!
# FROST among honest nodes

All parties of a dealing run the protocol on one message, and only their own messages circulate, with
any delay, reordering or repetition. What each of them can hold is fixed from the start: under the id
of a signer there is the commitment of this signer, or nothing, and the share that it computes from
all commitments, or nothing. So no check ever fails, and all that finish return one signature.
-/

namespace QuorumCrypt

open Rust

/-- One signing by the parties of a dealing of Ed25519 keys. -/
structure Ceremony (K : Curves) (E : Primitives) where
  k : ℕ
  n : ℕ
  keyRng : ℕ → ℕ
  hash : FrostHashes
  msg : Bytes
  label : Bytes
  group : SignerGroup
  rng : UInt16 → ℕ → ℕ → Bytes × Bytes
  one_le_k : 1 ≤ k
  k_le : k ≤ 65535
  n_lt : n < (K.ecp .ed25519).order
  nodup : group.signerIdentifiers.Nodup
  length_signers : group.signerIdentifiers.length = k
  range : ∀ id ∈ group.signerIdentifiers, 1 ≤ id.toNat ∧ id.toNat ≤ n

namespace Ceremony

variable {K : Curves} {E : Primitives} (R : Ceremony K E)

abbrev signers : List UInt16 := R.group.signerIdentifiers

/-- The key of a party. -/
def key (id : UInt16) : FrostPrivateKey (K.Point .ed25519) where
  id := id
  x := dealtShare (K.ecp .ed25519).order R.k R.keyRng id
  pubkey := Frost.publicKey E (K.ecp .ed25519) R.k R.n R.keyRng

def commitmentOf (id : UInt16) : PublicCommitment (K.Point .ed25519) :=
  (Frost.commit (K.ecp .ed25519) R.hash (R.key id) (R.rng id 0 0).1 (R.rng id 0 0).2).1

def nonceOf (id : UInt16) : Nonce :=
  (Frost.commit (K.ecp .ed25519) R.hash (R.key id) (R.rng id 0 0).1 (R.rng id 0 0).2).2

/-- The commitments of all signers. -/
def commitmentList : List (PublicCommitment (K.Point .ed25519)) := R.signers.map R.commitmentOf

/-- The share of a signer that knows all commitments. -/
def shareOf (id : UInt16) : FrostSignatureShare :=
  match Frost.partialSign (K.ecp .ed25519) R.hash (R.nonceOf id) R.commitmentList R.msg (R.key id) id
  with
  | .ok (share, _) => share
  | _ => ⟨id, 0⟩

/-- The signature of the signers. -/
def signature : FrostSignature (K.Point .ed25519) where
  R := Frost.groupCommitment (K.ecp .ed25519) R.hash (R.key 0).pubkey R.commitmentList R.msg
  z := (R.signers.map R.shareOf).foldl (fun z share => (z + share.data) % (K.ecp .ed25519).order) 0

theorem map_id_commitmentList (ids : List UInt16) :
    (ids.map R.commitmentOf).map PublicCommitment.id = ids := by
  rw [List.map_map]
  exact List.map_id _

theorem threshold_key (id : UInt16) : (R.key id).pubkey.k.toNat = R.k :=
  toNat_ofNat_of_le R.k_le

theorem pubkey_key (id : UInt16) :
    (R.key id).pubkey = Frost.publicKey E (K.ecp .ed25519) R.k R.n R.keyRng := rfl

theorem partialSign_commitmentList {id : UInt16} (hid : id ∈ R.signers) :
    Frost.partialSign (K.ecp .ed25519) R.hash (R.nonceOf id) R.commitmentList R.msg (R.key id) id
      = .ok (R.shareOf id,
        Frost.groupCommitment (K.ecp .ed25519) R.hash (R.key id).pubkey R.commitmentList R.msg) := by
  have hmem : id ∈ R.commitmentList.map PublicCommitment.id := by
    rw [commitmentList, map_id_commitmentList]
    exact hid
  rw [shareOf, Frost.partialSign_eq hmem]

theorem shareOf_id (id : UInt16) : (R.shareOf id).id = id := by
  unfold shareOf
  split
  · rename_i share G hsign
    exact Frost.id_of_partialSign hsign
  · rfl

theorem verifyShare_shareOf {id : UInt16} (hid : id ∈ R.signers) :
    Frost.verifyShare (K.ecp .ed25519) R.hash (R.shareOf id) (R.key 0).pubkey R.msg R.commitmentList
      = .ok true := by
  have hnodup : (R.commitmentList.map PublicCommitment.id).Nodup := by
    rw [commitmentList, map_id_commitmentList]
    exact R.nodup
  exact Frost.verifyShare_partialSign (R.pubkey_key id) (R.range id hid).1 (R.range id hid).2 rfl
    (Frost.commitmentForParticipant_of_mem hnodup (List.mem_map_of_mem hid)) rfl rfl
    (R.partialSign_commitmentList hid)

/-- Any order of the shares of all signers assembles to the signature. -/
theorem assemble_eq {shares : List FrostSignatureShare}
    (hperm : shares.Perm (R.signers.map R.shareOf)) (id : UInt16) :
    Frost.assemble (K.ecp .ed25519) R.signature.R (R.key id) shares = .ok R.signature := by
  have hlength : shares.length = R.k := by
    rw [hperm.length_eq, List.length_map, R.length_signers]
  rw [Frost.assemble, R.threshold_key, if_neg (by omega), ← hlength, List.take_length,
    Frost.foldl_data_eq_of_perm hperm]
  rfl

/-- The signature is valid. -/
theorem verify_signature :
    Frost.verify (K.ecp .ed25519) R.hash R.signature (R.key 0).pubkey R.msg = true := by
  have hlength : (R.signers.map R.shareOf).length = R.k := by
    rw [List.length_map, R.length_signers]
  have hshareids : (R.signers.map R.shareOf).map FrostSignatureShare.id = R.signers := by
    rw [List.map_map]
    exact (List.map_congr_left fun id _ => R.shareOf_id id).trans (List.map_id _)
  have hids : R.commitmentList.map PublicCommitment.id = R.signers := R.map_id_commitmentList _
  obtain ⟨sig, hassemble, hvalid⟩ := Frost.verify_of_verifyShare R.one_le_k R.n_lt
    (R.pubkey_key 0) (by rw [hids]; exact R.nodup) (by rw [hids, hshareids])
    (by rw [hlength, R.threshold_key]) hlength.ge (fun s hs => by
      obtain ⟨id, hid, rfl⟩ := List.mem_map.mp hs
      exact R.verifyShare_shareOf hid)
  have heq : R.signature = sig := Outcome.ok.inj ((R.assemble_eq (.refl _) 0).symm.trans hassemble)
  rw [heq, hvalid]

/-! ### One node -/

/-- The protocol of a party before its first round. -/
def init (id : UInt16) : FrostProtocol K .ed25519 where
  round := 0
  key := R.key id
  label := R.label
  msg := R.msg
  nonce := none
  commitment := none
  commitmentList := ∅
  precomputationList := []
  groupCommitment := none
  shares := ∅
  notVerifiedShares := ∅
  finished := false
  options := .noPrecomputation
  signerGroup := R.group

/-- A message that a signer sends. -/
inductive Honest : FrostMessage K → Prop
  | commitment {id : UInt16} (hid : id ∈ R.signers) :
      Honest ⟨id, .commitment ⟨.ed25519, R.commitmentOf id⟩⟩
  | share {id : UInt16} (hid : id ∈ R.signers) : Honest ⟨id, .share ⟨.ed25519, R.shareOf id⟩⟩

/-- What a node holds after its first round. -/
structure NodeInv (id : UInt16) (state : FrostProtocol K .ed25519) : Prop where
  filed : FrostProtocol.Filed (R.init id) state
  nonce : id ∈ R.signers → state.nonce = some (R.nonceOf id)
  own : id ∈ R.signers → id ∈ state.commitmentList
  commitments : ∀ j v, state.commitmentList.lookup j = some v → v = ⟨.ed25519, R.commitmentOf j⟩
  shares : ∀ j v, state.shares.lookup j = some v → v = ⟨.ed25519, R.shareOf j⟩
  round : state.round = 1 ∨ state.round = 2

section Node

variable {R} {id : UInt16} {state state' : FrostProtocol K .ed25519} {orders : FrostOrders K}

theorem commitments_eq
    (h : ∀ j v, state.commitmentList.lookup j = some v → v = ⟨.ed25519, R.commitmentOf j⟩) :
    state.commitments orders
      = ((state.commitmentList.keysIn orders.commitments).map R.commitmentOf).map
        (Sigma.mk .ed25519) := by
  rw [List.map_map]
  exact HashMap.values_eq_map _ h

/-- On honest shares `verify_share` returns, as soon as the commitment of the signer is there. -/
theorem exists_verifyShare (orders : FrostOrders K) (hkey : state.key = R.key id)
    (h : ∀ j v, state.commitmentList.lookup j = some v → v = ⟨.ed25519, R.commitmentOf j⟩)
    {j : UInt16} (hj : j ∈ R.signers) (hmem : j ∈ state.commitmentList) :
    ∃ valid, FrostProtocol.verifyShare R.hash orders state ⟨.ed25519, R.shareOf j⟩ = .ok valid := by
  set ids := state.commitmentList.keysIn orders.commitments with hids
  have hjids : j ∈ (ids.map R.commitmentOf).map PublicCommitment.id := by
    rw [R.map_id_commitmentList, hids, (HashMap.keysIn_perm _ _).mem_iff]
    exact AList.mem_keys.mp hmem
  obtain ⟨c, -, -, hfound⟩ :=
    (Frost.commitmentForParticipant_cases (ids.map R.commitmentOf) j).resolve_right
      fun hnot => hnot.1 hjids
  have hverify : ∃ valid, Frost.verifyShareOn R.hash ⟨.ed25519, R.shareOf j⟩ state.key.pubkey
      state.msg (state.commitments orders) = .ok valid := by
    rw [commitments_eq h, hkey, Frost.verifyShareOn_map _ _ (by rwa [R.shareOf_id]),
      Frost.verifyShare_eq (by rw [R.shareOf_id]; exact hfound), R.shareOf_id, R.pubkey_key,
      Frost.verificationKeyAt_publicKey (R.range j hj).1 (R.range j hj).2, Outcome.ok_bind]
    exact ⟨_, rfl⟩
  obtain ⟨valid, hvalid⟩ := hverify
  exact ⟨valid, Outcome.mapErr_eq_ok.mpr hvalid⟩

/-- No delivery of an honest message fails. -/
theorem NodeInv.exists_update (h : R.NodeInv id state) (orders : FrostOrders K) {message : FrostMessage K}
    (hmessage : R.Honest message) :
    ∃ state', FrostProtocol.update R.hash orders state message = .ok state' := by
  have hkey : state.key = R.key id := h.filed.key
  cases hmessage with
  | @commitment j hj =>
      have hoptions : state.options ≠ .precomputeOnly := by
        rw [h.filed.options]
        decide
      change ∃ state', FrostProtocol.updateCommitment R.hash orders state j _ = .ok state'
      rw [FrostProtocol.updateCommitment, if_neg hoptions]
      split
      · dsimp only
        split
        · exact ⟨_, rfl⟩
        · rename_i share hshare
          -- the share came before the commitment
          let inserted : FrostProtocol K .ed25519 :=
            { state with
              commitmentList := state.commitmentList.insert j ⟨.ed25519, R.commitmentOf j⟩ }
          have hinserted : inserted.key = R.key id := hkey
          obtain ⟨valid, hvalid⟩ := exists_verifyShare orders hinserted
            (HashMap.forall_lookup_insert rfl h.commitments) hj ((AList.mem_insert _).mpr (.inl rfl))
          rw [h.shares j share hshare]
          exact ⟨_, congrArg (· >>= _) hvalid⟩
      · exact ⟨_, rfl⟩
  | @share j hj =>
      simp only [FrostProtocol.update, FrostProtocol.updateShare]
      split
      · split
        · exact ⟨_, rfl⟩
        · rename_i hcommitted
          obtain ⟨valid, hvalid⟩ := exists_verifyShare orders hkey h.commitments hj
            (not_not.mp hcommitted)
          rw [hvalid]
          exact ⟨_, rfl⟩
      · exact ⟨_, rfl⟩

/-- A delivery leaves the node with what honest nodes sent. -/
theorem NodeInv.update (h : R.NodeInv id state) {message : FrostMessage K}
    (hmessage : R.Honest message)
    (hupdate : FrostProtocol.update R.hash orders state message = .ok state') :
    R.NodeInv id state' := by
  have hfiled := h.filed.update hupdate
  obtain ⟨-, hnonce, hown, hcommitments, hshares, hround⟩ := h
  have hcommitment : ∀ commitment, message.data = .commitment commitment →
      commitment = ⟨.ed25519, R.commitmentOf message.id⟩ := by
    intro commitment hdata
    cases hmessage with
    | commitment hid => exact (FrostData.commitment.inj hdata).symm
    | share hid => cases hdata
  have hshare : ∀ share, message.data = .share share →
      share = ⟨.ed25519, R.shareOf message.id⟩ := by
    intro share hdata
    cases hmessage with
    | commitment hid => cases hdata
    | share hid => exact (FrostData.share.inj hdata).symm
  cases FrostProtocol.updated_of_update hupdate with
  | ignored _ => exact ⟨hfiled, hnonce, hown, hcommitments, hshares, hround⟩
  | committed commitment hdata _ _ _ =>
      exact ⟨hfiled, hnonce, fun hid => HashMap.mem_insert_of_mem _ (hown hid),
        HashMap.forall_lookup_insert (hcommitment _ hdata) hcommitments, hshares, hround⟩
  | overtaken commitment share _ hdata _ _ hfound _ =>
      exact ⟨hfiled, hnonce, fun hid => HashMap.mem_insert_of_mem _ (hown hid),
        HashMap.forall_lookup_insert (hcommitment _ hdata) hcommitments,
        HashMap.forall_lookup_insert (hshares _ _ hfound) hshares, hround⟩
  | early share hdata _ _ _ =>
      exact ⟨hfiled, hnonce, hown, hcommitments,
        HashMap.forall_lookup_insert (hshare _ hdata) hshares, hround⟩
  | shared share _ hdata _ _ _ _ =>
      exact ⟨hfiled, hnonce, hown, hcommitments,
        HashMap.forall_lookup_insert (hshare _ hdata) hshares, hround⟩
  | precomputed _ _ _ _ _ hoptions _ =>
      have hnone : state.options = .noPrecomputation := hfiled.options
      rw [hoptions] at hnone
      cases hnone

/-- With all commitments, the order in which they are read does not matter. -/
theorem NodeInv.sort_eq (h : R.NodeInv id state) (hall : ∀ j ∈ R.signers, j ∈ state.commitmentList) :
    Frost.sortCommitments ((state.commitmentList.keysIn orders.commitments).map R.commitmentOf)
      = Frost.sortCommitments R.commitmentList := by
  have hkeys : state.commitmentList.keys.Perm R.signers :=
    HashMap.keys_perm_of_mem_iff R.nodup fun j => ⟨h.filed.commitments j, hall j⟩
  have hperm := (HashMap.keysIn_perm orders.commitments state.commitmentList).trans hkeys
  refine Frost.sortCommitments_eq_of_perm (hperm.map R.commitmentOf) ?_
  rw [R.map_id_commitmentList]
  exact hperm.nodup_iff.mpr R.nodup

/-- The second round of a node that has all commitments. -/
theorem NodeInv.exists_doRound (h : R.NodeInv id state) (orders : FrostOrders K) (hround : state.round = 1)
    (hall : ∀ j ∈ R.signers, j ∈ state.commitmentList) (drawn : ℕ → Bytes × Bytes) :
    ∃ message state', FrostProtocol.doRound R.hash orders state drawn = .ok (message, state')
      ∧ R.NodeInv id state' ∧ (message.isDefault = true ∨ R.Honest message) := by
  have hkey : state.key = R.key id := h.filed.key
  have hid : state.key.id = id := by rw [hkey]; rfl
  have hgroup : state.signerGroup = R.group := h.filed.signerGroup
  have hone : FrostProtocol.doRound R.hash orders state drawn
      = FrostProtocol.doRoundOne R.hash orders state >>= fun done =>
        .ok (⟨done.2.key.id, done.1⟩, done.2) := by
    rw [FrostProtocol.doRound, hround]
    rfl
  by_cases hcond : state.contains state.key.id ∧ state.key.id ∉ state.shares
  · have hsigner : id ∈ R.signers := by
      simpa [FrostProtocol.contains, hid, hgroup] using hcond.1
    have hmem : id ∈ ((state.commitmentList.keysIn orders.commitments).map R.commitmentOf).map
        PublicCommitment.id := by
      rw [R.map_id_commitmentList, (HashMap.keysIn_perm _ _).mem_iff]
      exact AList.mem_keys.mp (hall id hsigner)
    have hmsg : state.msg = R.msg := h.filed.msg
    have hsign : Frost.partialSignOn R.hash (R.nonceOf id) (state.commitments orders) state.msg
        state.key state.key.id = .ok (R.shareOf id, R.signature.R) := by
      rw [commitments_eq h.commitments, hid, hkey, hmsg, Frost.partialSignOn_map _ _ hmem,
        Frost.partialSign_eq_of_sort (h.sort_eq hall), R.partialSign_commitmentList hsigner]
      rfl
    rw [FrostProtocol.doRoundOne, if_pos hcond, h.nonce hsigner, Outcome.unwrap_some,
      Outcome.ok_bind, hsign, liftScheme_ok, Outcome.ok_bind, Outcome.ok_bind] at hone
    refine ⟨_, _, hone, ⟨h.filed.doRound (fun _ => ?_) hone, fun _ => rfl, h.own, h.commitments,
      HashMap.forall_lookup_insert (by rw [hid]) h.shares, .inr (by rw [hround])⟩, .inr ?_⟩
    · rw [hgroup]
      exact hall
    · rw [hid]
      exact .share hsigner
  · rw [FrostProtocol.doRoundOne, if_neg hcond, Outcome.ok_bind] at hone
    refine ⟨_, _, hone, ⟨h.filed.doRound (fun _ => ?_) hone, h.nonce, h.own, h.commitments, h.shares,
      .inr (by rw [hround])⟩, .inl rfl⟩
    rw [hgroup]
    exact hall

/-- A node that is ready finalizes with the signature of the signers. -/
theorem NodeInv.signature_eq (h : R.NodeInv id state) (orders : FrostOrders K)
    (hready : state.isReadyToFinalize = true) :
    FrostProtocol.signature R.hash orders state = .ok R.signature := by
  obtain ⟨-, hsharekeys, hcommitmentkeys⟩ := h.filed.keys_perm hready R.nodup
  have hkey : state.key = R.key id := h.filed.key
  have hmsg : state.msg = R.msg := h.filed.msg
  have hall : ∀ j ∈ R.signers, j ∈ state.commitmentList := fun j hj =>
    AList.mem_keys.mpr (hcommitmentkeys.mem_iff.mpr hj)
  have hshares : state.shares.values orders.shares
      = ((state.shares.keysIn orders.shares).map R.shareOf).map (CurveShare.mk .ed25519) := by
    rw [List.map_map]
    exact HashMap.values_eq_map _ h.shares
  rw [FrostProtocol.signature, commitments_eq h.commitments, hkey, hmsg,
    Frost.getGroupCommitmentOn_map, Frost.groupCommitment_eq_of_sort (h.sort_eq hall), liftScheme_ok,
    Outcome.ok_bind, hshares, Frost.assembleOn_map]
  exact congrArg liftScheme
    (R.assemble_eq (((HashMap.keysIn_perm _ _).trans hsharekeys).map R.shareOf) id)

/-- A node in its second round that is ready for another one is ready to finalize. -/
theorem NodeInv.isReadyToFinalize_of_round (h : R.NodeInv id state) (hround : state.round = 2)
    (hready : state.isReadyForNextRound = true) : state.isReadyToFinalize = true := by
  have hkey : state.key = R.key id := h.filed.key
  have hgroup : state.signerGroup = R.group := h.filed.signerGroup
  simp only [FrostProtocol.isReadyForNextRound, hround, Bool.and_eq_true, decide_eq_true_eq] at hready
  obtain ⟨⟨-, hverified⟩, hpresent⟩ := hready
  have hall : ∀ j ∈ R.signers, j ∈ state.shares := by
    simpa [FrostProtocol.allPresent, hgroup] using hpresent
  have hkeys : state.shares.keys.Perm R.signers :=
    HashMap.keys_perm_of_mem_iff R.nodup fun j => ⟨h.filed.shares j, hall j⟩
  have hlen : state.shares.len = state.threshold := by
    rw [HashMap.len_eq, hkeys.length_eq, R.length_signers, FrostProtocol.threshold, hkey,
      R.threshold_key]
  simp [FrostProtocol.isReadyToFinalize, hlen, hverified, hpresent]

end Node

/-! ### One execution -/

/-- A node of the ceremony has sent only honest messages, and it runs or has returned the signature. -/
structure ExecutionInv (id : UInt16) (e : Execution (FrostProtocol K .ed25519) (FrostMessage K)) :
    Prop where
  node : R.NodeInv id e.protocol
  sent : ∀ message ∈ e.sent, R.Honest message
  status : e.status = .running
    ∨ e.status = .finished ((Signature.frost .ed25519 R.signature).toBytes E)

section Execution

variable {R} {id : UInt16} {orders : FrostOrders K}

/-- The first round of a party. -/
theorem executionInv_start (id : UInt16) (orders : FrostOrders K) :
    R.ExecutionInv id
      (Execution.start (FrostProtocol.protocol E R.hash orders .ed25519) (R.rng id) (R.init id)) := by
  have hfiled : FrostProtocol.Filed (R.init id) (R.init id) :=
    ⟨rfl, rfl, rfl, rfl, fun j hj => absurd hj (AList.notMem_empty j),
      fun j hj => absurd hj (AList.notMem_empty j), fun j hj => absurd hj (AList.notMem_empty j)⟩
  have hzero : FrostProtocol.doRound R.hash orders (R.init id) (R.rng id 0)
      = FrostProtocol.doRoundZero R.hash (R.init id) (R.rng id 0) >>= fun done =>
        .ok (⟨done.2.key.id, done.1⟩, done.2) := rfl
  have hoptions : ¬ (R.init id).options ≠ .noPrecomputation := not_not.mpr rfl
  rw [FrostProtocol.doRoundZero, if_neg hoptions] at hzero
  by_cases hsigner : id ∈ R.signers
  · have hcond : (R.init id).contains (R.init id).key.id
        ∧ (R.init id).key.id ∉ (R.init id).commitmentList :=
      ⟨decide_eq_true hsigner, AList.notMem_empty _⟩
    rw [if_pos hcond] at hzero
    rw [Execution.start, Execution.performRound_of_ok hzero]
    refine ⟨⟨hfiled.doRound (fun hround => by cases hround) hzero, fun _ => rfl,
      fun _ => (AList.mem_insert _).mpr (.inl rfl), HashMap.forall_lookup_insert rfl ?_, ?_,
      .inl rfl⟩, ?_, .inl rfl⟩
    · intro j v hlookup
      cases hlookup
    · intro j v hlookup
      cases hlookup
    · intro message hmessage
      obtain rfl := List.mem_singleton.mp hmessage
      exact .commitment hsigner
  · have hcond : ¬ ((R.init id).contains (R.init id).key.id
        ∧ (R.init id).key.id ∉ (R.init id).commitmentList) :=
      fun hcond => hsigner (of_decide_eq_true hcond.1)
    rw [if_neg hcond] at hzero
    rw [Execution.start, Execution.performRound_of_ok hzero]
    refine ⟨⟨hfiled.doRound (fun hround => by cases hround) hzero,
      fun hid => absurd hid hsigner, fun hid => absurd hid hsigner, ?_, ?_, .inl rfl⟩, ?_, .inl rfl⟩
    · intro j v hlookup
      cases hlookup
    · intro j v hlookup
      cases hlookup
    · intro message hmessage
      cases hmessage

theorem ExecutionInv.onMessage {e : Execution (FrostProtocol K .ed25519) (FrostMessage K)}
    (h : R.ExecutionInv id e) {message : FrostMessage K} (hmessage : R.Honest message) :
    R.ExecutionInv id (Execution.onMessage (FrostProtocol.protocol E R.hash orders .ed25519)
      (R.rng id) e message) := by
  obtain ⟨hnode, hsent, hstatus⟩ := h
  rcases hstatus with hrunning | hfinished
  · obtain ⟨state, hupdate⟩ := hnode.exists_update orders hmessage
    have hnode' := hnode.update hmessage hupdate
    rw [Execution.onMessage_of_ok hrunning hupdate, Execution.advance]
    split
    · rename_i hready
      have hfinalize : FrostProtocol.finalize E R.hash orders state
          = .ok ((Signature.frost .ed25519 R.signature).toBytes E, { state with finished := true }) := by
        rw [FrostProtocol.finalize, hnode'.signature_eq orders hready, Outcome.ok_bind]
      rw [Execution.performFinalize_of_ok hfinalize]
      obtain ⟨⟨hkey, hmsg, hoptions, hgroup, hcs, hss, hcovered⟩, hnonce, hown, hcommitments, hshares,
        hround⟩ := hnode'
      exact ⟨⟨⟨hkey, hmsg, hoptions, hgroup, hcs, hss, hcovered⟩, hnonce, hown, hcommitments, hshares,
        hround⟩, hsent, .inr rfl⟩
    · rename_i hnot
      split
      · rename_i hready
        have hround : state.round = 1 := hnode'.round.resolve_right fun htwo =>
          hnot (hnode'.isReadyToFinalize_of_round htwo hready)
        have hgroup : state.signerGroup = R.group := hnode'.filed.signerGroup
        have hall := FrostProtocol.mem_of_isReadyForNextRound hready hround
        rw [hgroup] at hall
        obtain ⟨answer, next, hdone, hnext, hanswer⟩ := hnode'.exists_doRound orders hround hall _
        rw [Execution.performRound_of_ok hdone]
        refine ⟨hnext, fun m hm => ?_, .inl rfl⟩
        dsimp only at hm
        split at hm
        · exact hsent m hm
        · rename_i hdefault
          rcases List.mem_append.mp hm with hm | hm
          · exact hsent m hm
          · rw [List.mem_singleton.mp hm]
            exact hanswer.resolve_left hdefault
      · exact ⟨hnode', hsent, .inl rfl⟩
  · rw [Execution.onMessage, if_pos (by rw [hfinished]; simp)]
    exact ⟨hnode, hsent, .inr hfinished⟩

end Execution

end Ceremony

/-! ### All nodes -/

/-- The nodes of one request: their keys, their random numbers and the order in which each reads its
maps. -/
structure FrostNetwork (K : Curves) where
  E : Primitives
  hash : FrostHashes
  draws : SignerDraws
  keys : List (FrostPrivateKey (K.Point .ed25519))
  msg : Bytes
  label : Bytes
  orders : UInt16 → FrostOrders K
  rng : UInt16 → ℕ → ℕ → Bytes × Bytes

namespace FrostNetwork

variable {K : Curves} (N : FrostNetwork K)

def protocol (id : UInt16) :
    ThresholdRoundProtocol (FrostProtocol K .ed25519) (FrostMessage K) (ℕ → Bytes × Bytes) :=
  FrostProtocol.protocol N.E N.hash (N.orders id) .ed25519

/-- The executions of the nodes, by id. -/
abbrev System (K : Curves) := UInt16 → Execution (FrostProtocol K .ed25519) (FrostMessage K)

/-- Every node has created its protocol, with these options and perhaps a precomputation, and done
its first call of `do_round`. -/
def StartedWith (options : FrostOptions)
    (precomputations : UInt16 → Option (FrostPrecomputation K)) (s : System K) : Prop :=
  ∀ key ∈ N.keys, ∃ init,
    FrostProtocol.new N.draws (.frost .ed25519 key) N.msg N.label options (precomputations key.id)
      = .ok ⟨.ed25519, init⟩
    ∧ s key.id = Execution.start (N.protocol key.id) (N.rng key.id) init

/-- A node gets a message that some node has sent. Nothing is taken away by this, so the same message
may be delivered to every node, again, late or never. -/
inductive ReachableWith (options : FrostOptions)
    (precomputations : UInt16 → Option (FrostPrecomputation K)) : System K → Prop
  | start {s : System K} (hstarted : N.StartedWith options precomputations s) :
      ReachableWith options precomputations s
  | deliver {s : System K} {sender receiver : FrostPrivateKey (K.Point .ed25519)}
      {message : FrostMessage K} (hs : ReachableWith options precomputations s)
      (hsender : sender ∈ N.keys) (hreceiver : receiver ∈ N.keys)
      (hmessage : message ∈ (s sender.id).sent) :
      ReachableWith options precomputations (Function.update s receiver.id
        (Execution.onMessage (N.protocol receiver.id) (N.rng receiver.id) (s receiver.id) message))

/-- The nodes sign at once, and precompute nothing. -/
abbrev Started (s : System K) : Prop := N.StartedWith .noPrecomputation (fun _ => none) s

abbrev Reachable (s : System K) : Prop := N.ReachableWith .noPrecomputation (fun _ => none) s

variable {N} {k n : ℕ} {keyRng : ℕ → ℕ}

/-- The nodes of a network whose keys were dealt take part in one ceremony. -/
theorem exists_ceremony
    (hkeys : Frost.generateKeys N.E (K.ecp .ed25519) k n keyRng = .ok N.keys)
    (hparties : 3 * (k - 1) + 1 ≤ n) (hn : n ≤ 65535) (horder : n < (K.ecp .ed25519).order) :
    ∃ R : Ceremony K N.E, R.hash = N.hash ∧ R.msg = N.msg ∧ R.rng = N.rng
      ∧ ∀ key ∈ N.keys, key.pubkey = (R.key 0).pubkey
        ∧ FrostProtocol.new N.draws (.frost .ed25519 key) N.msg N.label .noPrecomputation none
          = .ok ⟨.ed25519, R.init key.id⟩ := by
  obtain ⟨hk, hkn, -⟩ := Frost.generateKeys_eq_ok.mp hkeys
  have ht : (UInt16.ofNat k).toNat = k := toNat_ofNat_of_le (hkn.trans hn)
  obtain ⟨group, hgroup⟩ := SignerGroup.exists_new N.draws hk (hparties.trans hn) N.msg
  obtain ⟨hnodup, hlength, hrange⟩ := SignerGroup.of_new hgroup
  rw [ht] at hlength hrange
  let R : Ceremony K N.E :=
    { k, n, keyRng, hash := N.hash, msg := N.msg, label := N.label, group, rng := N.rng
      one_le_k := hk, k_le := hkn.trans hn, n_lt := horder, nodup := hnodup
      length_signers := hlength
      range := fun id hid => ⟨(hrange id hid).1, (hrange id hid).2.trans hparties⟩ }
  refine ⟨R, rfl, rfl, rfl, fun key hkey => ?_⟩
  obtain ⟨-, -, hx⟩ := Frost.exists_party_of_mem hn hkeys hkey
  have hpubkey := Frost.pubkey_of_mem hkeys hkey
  have heq : key = R.key key.id := by
    obtain ⟨id, x, pubkey⟩ := key
    rw [Ceremony.key, FrostPrivateKey.mk.injEq]
    exact ⟨rfl, hx, hpubkey⟩
  refine ⟨hpubkey, ?_⟩
  rw [heq]
  change (SignerGroup.new N.draws (UInt16.ofNat k) N.msg >>= _) = _
  rw [hgroup]
  rfl

/-- In every reachable state every node is one of the ceremony. -/
theorem executionInv_of_reachable {R : Ceremony K N.E} (hhash : R.hash = N.hash)
    (hrng : R.rng = N.rng)
    (hinit : ∀ key ∈ N.keys,
      FrostProtocol.new N.draws (.frost .ed25519 key) N.msg N.label .noPrecomputation none
        = .ok ⟨.ed25519, R.init key.id⟩) {s : System K} (hs : N.Reachable s) :
    ∀ key ∈ N.keys, R.ExecutionInv key.id (s key.id) := by
  induction hs with
  | start hstarted =>
      intro key hkey
      obtain ⟨init, hnew, hstart⟩ := hstarted key hkey
      rw [hinit key hkey] at hnew
      obtain rfl := eq_of_heq (Sigma.mk.inj (Outcome.ok.inj hnew)).2
      rw [hstart, protocol, ← hhash, ← hrng]
      exact R.executionInv_start key.id (N.orders key.id)
  | @deliver s sender receiver message _ hsender hreceiver hmessage ih =>
      intro key hkey
      by_cases heq : key.id = receiver.id
      · rw [heq, Function.update_self, protocol, ← hhash, ← hrng]
        exact (ih receiver hreceiver).onMessage ((ih sender hsender).sent message hmessage)
      · rw [Function.update_of_ne heq]
        exact ih key hkey

variable (N) in
/-- All parties of a dealing run the protocol on one message, and only their own messages circulate.
Under every schedule no call returns an `Err` or panics, and every node that finishes returns the
same signature, which is valid. -/
theorem honest_nodes_agree
    (hkeys : Frost.generateKeys N.E (K.ecp .ed25519) k n keyRng = .ok N.keys)
    (hparties : 3 * (k - 1) + 1 ≤ n) (hn : n ≤ 65535) (horder : n < (K.ecp .ed25519).order) :
    (∃ s, N.Started s)
      ∧ ∃ sig, (∀ key ∈ N.keys,
          Frost.verify (K.ecp .ed25519) N.hash sig key.pubkey N.msg = true)
        ∧ ∀ s, N.Reachable s → ∀ key ∈ N.keys, (s key.id).status = .running
          ∨ (s key.id).status = .finished ((Signature.frost .ed25519 sig).toBytes N.E) := by
  obtain ⟨R, hhash, hmsg, hrng, hall⟩ := exists_ceremony hkeys hparties hn horder
  refine ⟨⟨fun id => Execution.start (N.protocol id) (N.rng id) (R.init id), ?_⟩, R.signature, ?_, ?_⟩
  · intro key hkey
    exact ⟨R.init key.id, (hall key hkey).2, rfl⟩
  · intro key hkey
    rw [(hall key hkey).1, ← hhash, ← hmsg]
    exact R.verify_signature
  · intro s hs key hkey
    exact (executionInv_of_reachable hhash hrng (fun key hkey => (hall key hkey).2) hs key hkey).status

/-- Parties over the residues modulo seven that sign the empty message. -/
def ofKeysSeven (keys : List (FrostPrivateKey (Curves.seven.Point .ed25519))) :
    FrostNetwork Curves.seven where
  E := .truncating
  hash := .ones
  draws := .counting
  keys
  msg := []
  label := []
  orders _ := .latest _
  rng _ _ _ := ([], [])

/-- One party that signs alone. -/
def seven : FrostNetwork Curves.seven := ofKeysSeven [frostKeySeven]

/-- Four parties, of which the first two sign. -/
def fourSeven : FrostNetwork Curves.seven := ofKeysSeven frostKeysSeven

/-- The four nodes after their first round. -/
def startedFourSeven : System Curves.seven := fun id =>
  Execution.start (fourSeven.protocol id) (fourSeven.rng id) (frostOfSeven id)

theorem started_fourSeven : fourSeven.Started startedFourSeven := by
  intro key hkey
  obtain ⟨id, -, rfl⟩ := List.mem_map.mp hkey
  exact ⟨frostOfSeven id, new_frostOfSeven id, rfl⟩

/-- A node gets the message with this number of those that another one has sent. -/
def relaySeven (s : System Curves.seven) (sender receiver : UInt16) (number : ℕ) :
    System Curves.seven :=
  match (s sender).sent[number]? with
  | none => s
  | some message => Function.update s receiver
      (Execution.onMessage (fourSeven.protocol receiver) (fourSeven.rng receiver) (s receiver) message)

theorem reachable_relaySeven {s : System Curves.seven} (hs : fourSeven.Reachable s)
    (sender receiver : UInt16) (number : ℕ) (hsender : sender ∈ [1, 2, 3, 4])
    (hreceiver : receiver ∈ [1, 2, 3, 4]) :
    fourSeven.Reachable (relaySeven s sender receiver number) := by
  unfold relaySeven
  cases hmessage : (s sender).sent[number]? with
  | none => exact hs
  | some message =>
      exact @ReachableWith.deliver _ _ _ _ _ (frostKeyOfSeven sender) (frostKeyOfSeven receiver) _ hs
        (List.mem_map_of_mem hsender) (List.mem_map_of_mem hreceiver) (List.mem_of_getElem? hmessage)

/-- The first two parties get each other's commitments, and the first the share of the second. -/
theorem honest_nodes_agree_seven :
    ∃ sig s, fourSeven.Reachable s
      ∧ (s 1).status = .finished ((Signature.frost .ed25519 sig).toBytes .truncating)
      ∧ ∀ key ∈ fourSeven.keys, Frost.verify (Curves.seven.ecp .ed25519) .ones sig key.pubkey []
        = true := by
  obtain ⟨-, sig, hvalid, hall⟩ := honest_nodes_agree fourSeven (k := 2) (n := 4)
    generateKeys_frostKeysSeven (by decide) (by decide) (by decide)
  have hcommitted := reachable_relaySeven (.start started_fourSeven) 2 1 0 (by decide) (by decide)
  have hsigned := reachable_relaySeven hcommitted 1 2 0 (by decide) (by decide)
  have hdone := reachable_relaySeven hsigned 2 1 1 (by decide) (by decide)
  refine ⟨sig, _, hdone, (hall _ hdone (frostKeyOfSeven 1) List.mem_cons_self).resolve_left ?_, hvalid⟩
  decide +kernel

end FrostNetwork

end QuorumCrypt
