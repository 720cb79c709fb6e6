import QuorumCrypt.Base.Processes
import QuorumCrypt.Orchestration.FrostRobustness
import QuorumCrypt.Protocols.FrostAgreement
import Mathlib.Algebra.Order.BigOperators.Group.List

/-!
# Honest nodes finish

All parties of a dealing run FROST on one message, and only their own messages circulate. A message may be
late or come again, and it may come before one that was sent earlier; what a node has not got yet it keeps
waiting for. So when no node waits for a message that some node has sent, all nodes have finished, also
those that do not sign. There are only so many messages, and whichever of them comes next brings this
about.

A share is checked against the commitments that the node has at that moment, which are perhaps not all of
them. The answer of the check is not looked at, so an honest share is kept.
-/

namespace QuorumCrypt

open Rust

/-! ### What is filed -/

namespace FrostProtocol

variable {K : Curves} {c : Curve} {self : FrostProtocol K c} {j : UInt16}

/-- The shares that wait for a check are those that came before the commitments of their signers. -/
structure Pending (state : FrostProtocol K c) : Prop where
  shares : ∀ j ∈ state.notVerifiedShares, j ∈ state.shares
  commitments : ∀ j ∈ state.notVerifiedShares, j ∉ state.commitmentList

/-- The commitment of a signer is there once it has been delivered, and nothing else is new. -/
theorem filed_commitment (hoptions : self.options ≠ .precomputeOnly) (hsigner : self.contains j = true)
    (commitment : CurveCommitment K) :
    (∀ i, i ∈ (self.filed ⟨j, .commitment commitment⟩).commitmentList
        ↔ i ∈ self.commitmentList ∨ i = j)
      ∧ (∀ i, i ∈ (self.filed ⟨j, .commitment commitment⟩).shares ↔ i ∈ self.shares)
      ∧ (self.Pending → (self.filed ⟨j, .commitment commitment⟩).Pending) := by
  by_cases hnew : j ∈ self.commitmentList
  · have hfiled : self.filed ⟨j, .commitment commitment⟩ = self := if_neg fun h => h.2.2 hnew
    rw [hfiled]
    refine ⟨fun i => (or_iff_left_of_imp ?_).symm, fun _ => .rfl, fun h => h⟩
    rintro rfl
    exact hnew
  · have hcond : self.options ≠ .precomputeOnly ∧ self.contains j ∧ j ∉ self.commitmentList :=
      ⟨hoptions, hsigner, hnew⟩
    simp only [filed, if_pos hcond]
    cases hshare : self.shares.lookup j with
    | none =>
        refine ⟨fun i => by rw [AList.mem_insert, or_comm], fun _ => .rfl, fun h => ⟨h.shares, ?_⟩⟩
        intro i hi hmem
        rcases (AList.mem_insert _).mp hmem with rfl | hmem
        · exact AList.lookup_eq_none.mp hshare (h.shares i hi)
        · exact h.commitments i hi hmem
    | some share =>
        have hmem := HashMap.mem_of_lookup hshare
        have hshares : ∀ i, i ∈ self.shares.insert j share ↔ i ∈ self.shares := by
          intro i
          rw [AList.mem_insert]
          refine or_iff_right_of_imp ?_
          rintro rfl
          exact hmem
        refine ⟨fun i => by rw [AList.mem_insert, or_comm], hshares, fun h => ⟨?_, ?_⟩⟩
        · intro i hi
          exact (hshares i).mpr (h.shares i (Finset.mem_of_mem_erase hi))
        · intro i hi hmem
          obtain ⟨hne, hi⟩ := Finset.mem_erase.mp hi
          exact h.commitments i hi (((AList.mem_insert _).mp hmem).resolve_left hne)

/-- The share of a signer is there once it has been delivered, and nothing else is new. -/
theorem filed_share (hsigner : self.contains j = true) (share : CurveShare) :
    (self.filed ⟨j, .share share⟩).commitmentList = self.commitmentList
      ∧ (∀ i, i ∈ (self.filed ⟨j, .share share⟩).shares ↔ i ∈ self.shares ∨ i = j)
      ∧ (self.Pending → (self.filed ⟨j, .share share⟩).Pending) := by
  by_cases hnew : j ∈ self.shares
  · have hfiled : self.filed ⟨j, .share share⟩ = self := if_neg fun h => h.2 hnew
    rw [hfiled]
    refine ⟨rfl, fun i => (or_iff_left_of_imp ?_).symm, fun h => h⟩
    rintro rfl
    exact hnew
  · have hcond : self.contains j ∧ j ∉ self.shares := ⟨hsigner, hnew⟩
    have hshares : ∀ i, i ∈ self.shares.insert j share ↔ i ∈ self.shares ∨ i = j := by
      intro i
      rw [AList.mem_insert, or_comm]
    simp only [filed, if_pos hcond]
    by_cases hcommitted : j ∈ self.commitmentList
    · rw [if_neg (not_not.mpr hcommitted)]
      refine ⟨rfl, hshares, fun h => ⟨fun i hi => (hshares i).mpr (.inl (h.shares i hi)), h.commitments⟩⟩
    · rw [if_pos hcommitted]
      refine ⟨rfl, hshares, fun h => ⟨?_, ?_⟩⟩
      · intro i hi
        rcases Finset.mem_insert.mp hi with rfl | hi
        · exact (hshares i).mpr (.inr rfl)
        · exact (hshares i).mpr (.inl (h.shares i hi))
      · intro i hi
        rcases Finset.mem_insert.mp hi with rfl | hi
        · exact hcommitted
        · exact h.commitments i hi

/-- A signer whose share is not there yet signs in the second round, and otherwise only the round is
counted. -/
theorem signed_or_idle {self' : FrostProtocol K c} {hash : FrostHashes} {orders : FrostOrders K}
    {drawn : ℕ → Bytes × Bytes} {message : FrostMessage K} (hround : self.round = 1)
    (h : doRound hash orders self drawn = .ok (message, self')) :
    (self.contains self.key.id ∧ self.key.id ∉ self.shares ∧ ∃ share groupCommitment,
        message = ⟨self.key.id, .share share⟩
        ∧ self' = { self with
          round := self.round + 1
          groupCommitment := some groupCommitment
          shares := self.shares.insert self.key.id share })
      ∨ (¬ (self.contains self.key.id ∧ self.key.id ∉ self.shares)
        ∧ message = ⟨self.key.id, .default⟩ ∧ self' = { self with round := self.round + 1 }) := by
  rw [doRound, hround] at h
  obtain ⟨⟨data, next⟩, hdone, heq⟩ := Outcome.bind_eq_ok.mp h
  obtain ⟨rfl, rfl⟩ := Prod.mk.inj (Outcome.ok.inj heq)
  by_cases hcond : self.contains self.key.id ∧ self.key.id ∉ self.shares
  · rw [doRoundOne, if_pos hcond] at hdone
    obtain ⟨nonce, -, hsigned⟩ := Outcome.bind_eq_ok.mp hdone
    obtain ⟨⟨share, groupCommitment⟩, -, hnext⟩ := Outcome.bind_eq_ok.mp hsigned
    obtain ⟨rfl, rfl⟩ := Prod.mk.inj (Outcome.ok.inj hnext)
    exact .inl ⟨hcond.1, hcond.2, _, _, rfl, rfl⟩
  · rw [doRoundOne, if_neg hcond] at hdone
    obtain ⟨rfl, rfl⟩ := Prod.mk.inj (Outcome.ok.inj hdone)
    exact .inr ⟨hcond, rfl, rfl⟩

end FrostProtocol

namespace Ceremony

variable {K : Curves} {E : Primitives} (R : Ceremony K E)

/-- The message with the commitment of a signer. -/
def commitmentFrom (id : UInt16) : FrostMessage K := ⟨id, .commitment ⟨.ed25519, R.commitmentOf id⟩⟩

/-- The message with the share of a signer. -/
def shareFrom (id : UInt16) : FrostMessage K := ⟨id, .share ⟨.ed25519, R.shareOf id⟩⟩

theorem honest_iff {message : FrostMessage K} :
    R.Honest message ↔ ∃ j ∈ R.signers, message = R.commitmentFrom j ∨ message = R.shareFrom j := by
  constructor
  · intro h
    cases h with
    | @commitment j hj => exact ⟨j, hj, .inl rfl⟩
    | @share j hj => exact ⟨j, hj, .inr rfl⟩
  · rintro ⟨j, hj, rfl | rfl⟩
    · exact .commitment hj
    · exact .share hj

theorem commitmentFrom_ne_shareFrom (i j : UInt16) : R.commitmentFrom i ≠ R.shareFrom j := by
  intro heq
  cases congrArg FrostMessage.data heq

variable {R} {id : UInt16} {state state' : FrostProtocol K .ed25519} {orders : FrostOrders K}

/-- What a node has after a message of a signer. -/
structure Files (R : Ceremony K E) (state : FrostProtocol K .ed25519) (message : FrostMessage K)
    (state' : FrostProtocol K .ed25519) : Prop where
  round : state'.round = state.round
  commitments : ∀ j, j ∈ state'.commitmentList
    ↔ j ∈ state.commitmentList ∨ message = R.commitmentFrom j
  shares : ∀ j, j ∈ state'.shares ↔ j ∈ state.shares ∨ message = R.shareFrom j
  pending : state.Pending → state'.Pending

theorem NodeInv.files (h : R.NodeInv id state) {message : FrostMessage K} (hmessage : R.Honest message)
    (hupdate : FrostProtocol.update R.hash orders state message = .ok state') :
    R.Files state message state' := by
  have hround := FrostProtocol.round_update hupdate
  obtain ⟨-, rfl⟩ := FrostProtocol.update_eq_ok_iff.mp hupdate
  have hcontains : ∀ j ∈ R.signers, state.contains j = true := by
    intro j hj
    have hgroup : state.signerGroup = R.group := h.filed.signerGroup
    simpa [FrostProtocol.contains, hgroup] using hj
  obtain ⟨j, hj, rfl | rfl⟩ := R.honest_iff.mp hmessage
  · have hoptions : state.options ≠ .precomputeOnly := by
      rw [h.filed.options]
      decide
    obtain ⟨hcommitments, hshares, hpending⟩ :=
      FrostProtocol.filed_commitment hoptions (hcontains j hj) ⟨.ed25519, R.commitmentOf j⟩
    refine ⟨hround, fun i => (hcommitments i).trans (or_congr_right ?_), fun i => ?_, hpending⟩
    · refine ⟨fun heq => by rw [heq], fun heq => ?_⟩
      exact (congrArg FrostMessage.id heq).symm
    · exact (hshares i).trans (or_iff_left (R.commitmentFrom_ne_shareFrom j i)).symm
  · obtain ⟨hcommitments, hshares, hpending⟩ :=
      FrostProtocol.filed_share (hcontains j hj) ⟨.ed25519, R.shareOf j⟩
    refine ⟨hround, fun i => ?_, fun i => (hshares i).trans (or_congr_right ?_), hpending⟩
    · rw [shareFrom, hcommitments]
      exact (or_iff_left (R.commitmentFrom_ne_shareFrom i j).symm).symm
    · refine ⟨fun heq => by rw [heq], fun heq => ?_⟩
      exact (congrArg FrostMessage.id heq).symm

/-! ### What is due -/

/-- With the commitments of all signers a node is ready for its second round. -/
theorem NodeInv.isReadyForNextRound (h : R.NodeInv id state) (hround : state.round = 1)
    (hall : ∀ j ∈ R.signers, j ∈ state.commitmentList) : state.isReadyForNextRound = true := by
  have hkey : state.key = R.key id := h.filed.key
  have hgroup : state.signerGroup = R.group := h.filed.signerGroup
  have hkeys : state.commitmentList.keys.Perm R.signers :=
    HashMap.keys_perm_of_mem_iff R.nodup fun j => ⟨h.filed.commitments j, hall j⟩
  have hlen : state.commitmentList.len = state.threshold := by
    rw [HashMap.len_eq, hkeys.length_eq, R.length_signers, FrostProtocol.threshold, hkey,
      R.threshold_key]
  have hpresent : state.allPresent state.commitmentList = true := by
    rw [FrostProtocol.allPresent, hgroup]
    exact List.all_eq_true.mpr fun j hj => decide_eq_true (hall j hj)
  simp [FrostProtocol.isReadyForNextRound, hround, hlen, hpresent]

/-- With all commitments and shares it is ready to finalize. -/
theorem NodeInv.isReadyToFinalize (h : R.NodeInv id state) (hpending : state.Pending)
    (hcommitments : ∀ j ∈ R.signers, j ∈ state.commitmentList)
    (hshares : ∀ j ∈ R.signers, j ∈ state.shares) : state.isReadyToFinalize = true := by
  have hkey : state.key = R.key id := h.filed.key
  have hgroup : state.signerGroup = R.group := h.filed.signerGroup
  have hkeys : state.shares.keys.Perm R.signers :=
    HashMap.keys_perm_of_mem_iff R.nodup fun j => ⟨h.filed.shares j, hshares j⟩
  have hlen : state.shares.len = state.threshold := by
    rw [HashMap.len_eq, hkeys.length_eq, R.length_signers, FrostProtocol.threshold, hkey,
      R.threshold_key]
  have hverified : state.notVerifiedShares = ∅ := by
    refine Finset.eq_empty_of_forall_notMem fun j hj => hpending.commitments j hj ?_
    exact hcommitments j (h.filed.shares j (hpending.shares j hj))
  have hpresent : state.allPresent state.shares = true := by
    rw [FrostProtocol.allPresent, hgroup]
    exact List.all_eq_true.mpr fun j hj => decide_eq_true (hshares j hj)
  simp [FrostProtocol.isReadyToFinalize, hlen, hverified, hpresent]

theorem NodeInv.mem_shares (h : R.NodeInv id state) (hready : state.isReadyToFinalize = true) :
    ∀ j ∈ R.signers, j ∈ state.shares := by
  have hgroup : state.signerGroup = R.group := h.filed.signerGroup
  simp only [FrostProtocol.isReadyToFinalize, Bool.and_eq_true, FrostProtocol.allPresent,
    hgroup] at hready
  exact fun j hj => of_decide_eq_true (List.all_eq_true.mp hready.2 j hj)

/-- A message of a node under its own id is its commitment or its share. -/
theorem Honest.eq_of_id {message : FrostMessage K} (h : R.Honest message) :
    message = R.commitmentFrom message.id ∨ message = R.shareFrom message.id := by
  obtain ⟨j, -, rfl | rfl⟩ := R.honest_iff.mp h
  · exact .inl rfl
  · exact .inr rfl

/-! ### One execution -/

/-- What the messages that came in have done to a node, and what it has sent. -/
structure UpToDate (R : Ceremony K E) (id : UInt16) (state : FrostProtocol K .ed25519)
    (sent delivered : List (FrostMessage K)) : Prop where
  pending : state.Pending
  commitments : ∀ j, R.commitmentFrom j ∈ delivered → j ∈ state.commitmentList
  shares : ∀ j, R.shareFrom j ∈ delivered → j ∈ state.shares
  sender : ∀ m ∈ sent, m.id = id
  committed : id ∈ R.signers → R.commitmentFrom id ∈ sent
  signed : id ∈ R.signers → id ∈ state.shares → R.shareFrom id ∈ sent
  second : state.round = 2 → id ∈ R.signers → id ∈ state.shares

section UpToDate

variable {sent delivered : List (FrostMessage K)}

/-- A message with the id of the node is one that it has sent itself. -/
theorem UpToDate.update (h : R.UpToDate id state sent delivered) {message : FrostMessage K}
    (hfiles : R.Files state message state') (hown : message.id = id → message ∈ sent) :
    R.UpToDate id state' sent (delivered ++ [message]) where
  pending := hfiles.pending h.pending
  commitments j hj := by
    refine (hfiles.commitments j).mpr ((List.mem_append.mp hj).imp (h.commitments j) ?_)
    exact fun heq => (List.mem_singleton.mp heq).symm
  shares j hj := by
    refine (hfiles.shares j).mpr ((List.mem_append.mp hj).imp (h.shares j) ?_)
    exact fun heq => (List.mem_singleton.mp heq).symm
  sender := h.sender
  committed := h.committed
  signed hid hmem := by
    rcases (hfiles.shares id).mp hmem with hmem | heq
    · exact h.signed hid hmem
    · exact heq ▸ hown (congrArg FrostMessage.id heq)
  second htwo hid := (hfiles.shares id).mpr (.inl (h.second (hfiles.round ▸ htwo) hid))

/-- The second round: a node that signs sends its share, and one that had all shares before has them
still. -/
theorem UpToDate.doRound (h : R.UpToDate id state sent delivered) (hnode : R.NodeInv id state)
    (hround : state.round = 1) {drawn : ℕ → Bytes × Bytes} {answer : FrostMessage K}
    (hdo : FrostProtocol.doRound R.hash orders state drawn = .ok (answer, state'))
    (hanswer : answer.isDefault = true ∨ R.Honest answer) :
    R.UpToDate id state' (if answer.isDefault then sent else sent ++ [answer]) delivered
      ∧ (state'.isReadyToFinalize = true → state.isReadyToFinalize = true
        ∨ id ∈ R.signers ∧ R.shareFrom id ∉ delivered) := by
  have hkey : state.key.id = id := by
    rw [show state.key = R.key id from hnode.filed.key]
    rfl
  have hgroup : state.signerGroup = R.group := hnode.filed.signerGroup
  have hcontains : state.contains state.key.id = true ↔ id ∈ R.signers := by
    rw [FrostProtocol.contains, hkey, hgroup, decide_eq_true_iff]
  rcases FrostProtocol.signed_or_idle hround hdo with
    ⟨hsigner, hnew, share, groupCommitment, rfl, rfl⟩ | ⟨hidle, rfl, rfl⟩
  · have hmine : (⟨state.key.id, .share share⟩ : FrostMessage K) = R.shareFrom id := by
      rcases (hanswer.resolve_left Bool.false_ne_true).eq_of_id with heq | heq
      · cases congrArg FrostMessage.data heq
      · rw [heq]
        exact congrArg R.shareFrom hkey
    have hinsert : ∀ j, j ∈ state.shares.insert state.key.id share ↔ j = id ∨ j ∈ state.shares := by
      intro j
      rw [AList.mem_insert, hkey]
    rw [hkey] at hnew
    refine ⟨⟨⟨?_, h.pending.commitments⟩, h.commitments, ?_, ?_, ?_, ?_, ?_⟩, fun _ => .inr ?_⟩
    · exact fun j hj => (hinsert j).mpr (.inr (h.pending.shares j hj))
    · exact fun j hj => (hinsert j).mpr (.inr (h.shares j hj))
    · intro m hm
      rcases List.mem_append.mp hm with hm | hm
      · exact h.sender m hm
      · rw [List.mem_singleton.mp hm]
        exact hkey
    · exact fun hid => List.mem_append_left _ (h.committed hid)
    · exact fun _ _ => List.mem_append_right _ (List.mem_singleton.mpr hmine.symm)
    · exact fun _ _ => (hinsert id).mpr (.inl rfl)
    · -- the share of the node has not come back yet
      exact ⟨hcontains.mp hsigner, fun hback => hnew (h.shares id hback)⟩
  · refine ⟨⟨⟨h.pending.shares, h.pending.commitments⟩, h.commitments, h.shares, h.sender, h.committed,
      h.signed, fun _ hid => ?_⟩, fun hready => .inl hready⟩
    rw [hcontains, hkey] at hidle
    exact not_not.mp fun hnot => hidle ⟨hid, hnot⟩

end UpToDate

/-- While a node runs, something may be due only when another message is sure to come: before the first
one, and between the share of the node and its return. A signer that has stopped has sent its share. -/
structure Progress (R : Ceremony K E) (id : UInt16)
    (e : Execution (FrostProtocol K .ed25519) (FrostMessage K)) : Prop where
  upToDate : e.status = .running → R.UpToDate id e.protocol e.sent e.delivered
  nextRound : e.status = .running → e.delivered ≠ [] → e.protocol.round = 1 →
    e.protocol.isReadyForNextRound = false
  finalize : e.status = .running → e.delivered ≠ [] → e.protocol.isReadyToFinalize = true →
    id ∈ R.signers ∧ R.shareFrom id ∉ e.delivered
  sender : ∀ m ∈ e.sent, m.id = id
  committed : id ∈ R.signers → R.commitmentFrom id ∈ e.sent
  ended : e.status ≠ .running → id ∈ R.signers → R.shareFrom id ∈ e.sent

theorem progress_start (id : UInt16) (orders : FrostOrders K) :
    R.Progress id
      (Execution.start (FrostProtocol.protocol E R.hash orders .ed25519) (R.rng id) (R.init id)) := by
  have hinv := R.executionInv_start id orders
  rw [Execution.start] at hinv ⊢
  set first : Execution (FrostProtocol K .ed25519) (FrostMessage K) := ⟨R.init id, [], [], .running⟩
  rcases Execution.performRound_cases (FrostProtocol.protocol E R.hash orders .ed25519) (R.rng id) first
    with ⟨message, state, hround, heq⟩ | ⟨error, -, heq⟩ | ⟨-, heq⟩
  · rw [heq] at hinv ⊢
    have hzero : FrostProtocol.doRound R.hash orders (R.init id) (R.rng id 0) = .ok (message, state) :=
      hround
    obtain ⟨hid, hdone⟩ := FrostProtocol.roundDone_of_doRound rfl hzero
    set sent : List (FrostMessage K) :=
      if (FrostProtocol.protocol E R.hash orders .ed25519).isDefault message then first.sent
      else first.sent ++ [message] with hsent
    -- a signer sends its commitment, and the others send nothing
    obtain ⟨hcommitted, hround, hshares, hverified⟩ : (id ∈ R.signers → R.commitmentFrom id ∈ sent)
        ∧ state.round = 1 ∧ state.shares = ∅ ∧ state.notVerifiedShares = ∅ := by
      generalize hdata : message.data = data at hdone
      cases hdone with
      | committed comm nonce _ _ _ =>
          have hdefault : message.isDefault = false := by rw [FrostMessage.isDefault, hdata]
          have hmem : message ∈ sent := by
            rw [hsent]
            change message ∈ if message.isDefault = true then _ else _
            rw [hdefault]
            exact List.mem_singleton.mpr rfl
          refine ⟨fun _ => ?_, rfl, rfl, rfl⟩
          rcases (hinv.sent message hmem).eq_of_id with heq | heq
          · rw [hid] at heq
            exact heq ▸ hmem
          · rw [heq] at hdata
            cases hdata
      | signed _ _ _ hone => cases hone
      | idle _ =>
          exact ⟨fun hmem => absurd (hinv.node.own hmem) (AList.notMem_empty id), rfl, rfl, rfl⟩
    have hsender : ∀ m ∈ sent, m.id = id := by
      intro m hm
      rw [hsent] at hm
      split at hm
      · cases hm
      · rw [List.mem_singleton.mp hm, hid]
        rfl
    have hnone : ∀ j, j ∉ state.shares := by
      intro j
      rw [hshares]
      exact AList.notMem_empty j
    have hpending : state.Pending :=
      ⟨fun j hj => by simp [hverified] at hj, fun j hj => by simp [hverified] at hj⟩
    refine ⟨fun _ => ⟨hpending, ?_, ?_, hsender, hcommitted, ?_, ?_⟩, fun _ hne => absurd rfl hne,
      fun _ hne => absurd rfl hne, hsender, hcommitted, fun hstopped => absurd rfl hstopped⟩
    · intro j hj
      cases hj
    · intro j hj
      cases hj
    · exact fun _ hmem => absurd hmem (hnone id)
    · intro htwo
      rw [hround] at htwo
      cases htwo
  · have hstatus := hinv.status
    rw [heq] at hstatus
    rcases hstatus with h | h
    all_goals cases h
  · have hstatus := hinv.status
    rw [heq] at hstatus
    rcases hstatus with h | h
    all_goals cases h

/-- A turn of the executor. -/
theorem Progress.onMessage {e : Execution (FrostProtocol K .ed25519) (FrostMessage K)}
    (h : R.Progress id e) (hinv : R.ExecutionInv id e) {message : FrostMessage K}
    (hmessage : R.Honest message) (hown : message.id = id → message ∈ e.sent) :
    R.Progress id (Execution.onMessage (FrostProtocol.protocol E R.hash orders .ed25519) (R.rng id) e
      message) := by
  by_cases hrunning : e.status = .running
  · obtain ⟨state, hupdate⟩ := hinv.node.exists_update orders hmessage
    have hnode := hinv.node.update hmessage hupdate
    have hkept := (h.upToDate hrunning).update (hinv.node.files hmessage hupdate) hown
    let P := FrostProtocol.protocol E R.hash orders .ed25519
    have hdelivered : (Execution.onMessage P (R.rng id) e message).delivered = e.delivered ++ [message] :=
      Execution.delivered_onMessage hrunning message
    rw [Execution.onMessage_of_ok hrunning hupdate, Execution.advance] at hdelivered ⊢
    by_cases hfinal : P.isReadyToFinalize state = true
    · have hfinalize : FrostProtocol.finalize E R.hash orders state
          = .ok ((Signature.frost .ed25519 R.signature).toBytes E, { state with finished := true }) := by
        rw [FrostProtocol.finalize, hnode.signature_eq orders hfinal, Outcome.ok_bind]
      rw [if_pos hfinal, Execution.performFinalize_of_ok hfinalize]
      refine ⟨fun hstopped => ?_, fun hstopped => ?_, fun hstopped => ?_, h.sender, h.committed,
        fun _ hid => hkept.signed hid (hnode.mem_shares hfinal id hid)⟩
      all_goals cases hstopped
    · rw [if_neg hfinal] at hdelivered ⊢
      by_cases hnext : P.isReadyForNextRound state = true
      · have hround : state.round = 1 := hnode.round.resolve_right fun htwo =>
          hfinal (hnode.isReadyToFinalize_of_round htwo hnext)
        have hgroup : state.signerGroup = R.group := hnode.filed.signerGroup
        have hall := FrostProtocol.mem_of_isReadyForNextRound hnext hround
        rw [hgroup] at hall
        obtain ⟨answer, next, hdo, -, hanswer⟩ := hnode.exists_doRound orders hround hall
          (R.rng id (⟨state, e.sent, e.calls ++ [.update e.protocol message], .running⟩ :
            Execution (FrostProtocol K .ed25519) (FrostMessage K)).rounds)
        rw [if_pos hnext, Execution.performRound_of_ok hdo] at hdelivered ⊢
        obtain ⟨hkept', hready⟩ := hkept.doRound hnode hround hdo hanswer
        refine ⟨fun _ => hdelivered ▸ hkept', fun _ _ hone => ?_, fun _ _ hfinal' => ?_, hkept'.sender,
          hkept'.committed, fun hstopped => absurd rfl hstopped⟩
        · have htwo := FrostProtocol.round_doRound hdo
          rw [hround] at htwo
          exact absurd (hone.symm.trans htwo) (by decide)
        · rw [hdelivered]
          exact (hready hfinal').resolve_left hfinal
      · rw [if_neg hnext] at hdelivered ⊢
        exact ⟨fun _ => hdelivered ▸ hkept, fun _ _ _ => Bool.eq_false_iff.mpr hnext,
          fun _ _ hready => absurd hready hfinal, h.sender, h.committed,
          fun hstopped => absurd rfl hstopped⟩
  · rw [Execution.onMessage, if_pos hrunning]
    exact h

/-! ### What is still to come -/

variable (R) in
/-- All messages that are sent. -/
def messages : List (FrostMessage K) := R.signers.map R.commitmentFrom ++ R.signers.map R.shareFrom

theorem mem_messages {message : FrostMessage K} (h : R.Honest message) : message ∈ R.messages := by
  obtain ⟨j, hj, rfl | rfl⟩ := R.honest_iff.mp h
  · exact List.mem_append_left _ (List.mem_map_of_mem hj)
  · exact List.mem_append_right _ (List.mem_map_of_mem hj)

open scoped Classical in
variable (R) in
/-- The number of messages that a node may still get. -/
noncomputable def outstanding (e : Execution (FrostProtocol K .ed25519) (FrostMessage K)) : ℕ :=
  (R.messages.toFinset \ e.delivered.toFinset).card

theorem outstanding_le (e : Execution (FrostProtocol K .ed25519) (FrostMessage K)) :
    R.outstanding e ≤ 2 * R.k := by
  classical
  calc R.outstanding e ≤ R.messages.toFinset.card := Finset.card_le_card Finset.sdiff_subset
    _ ≤ R.messages.length := List.toFinset_card_le _
    _ = 2 * R.k := by
      rw [messages, List.length_append, List.length_map, List.length_map, R.length_signers]
      omega

theorem outstanding_lt {e e' : Execution (FrostProtocol K .ed25519) (FrostMessage K)}
    {message : FrostMessage K} (hmessage : R.Honest message) (hnew : message ∉ e.delivered)
    (hdelivered : e'.delivered = e.delivered ++ [message]) : R.outstanding e' < R.outstanding e := by
  classical
  have hinsert : e'.delivered.toFinset = insert message e.delivered.toFinset := by
    rw [hdelivered, List.toFinset_append, List.toFinset_cons, List.toFinset_nil, Finset.union_comm]
    rfl
  rw [outstanding, hinsert, Finset.sdiff_insert]
  refine Finset.card_erase_lt_of_mem (Finset.mem_sdiff.mpr ⟨?_, ?_⟩)
  · exact List.mem_toFinset.mpr (mem_messages hmessage)
  · exact fun hmem => hnew (List.mem_toFinset.mp hmem)

end Ceremony

/-! ### All nodes -/

namespace FrostNetwork

variable {K : Curves} (N : FrostNetwork K)

/-- A message on its way from one node to another. -/
structure Delivery (K : Curves) where
  sender : FrostPrivateKey (K.Point .ed25519)
  receiver : FrostPrivateKey (K.Point .ed25519)
  message : FrostMessage K

/-- The receiver takes the message. -/
def deliver (s : System K) (d : Delivery K) : Option (System K) :=
  some (Function.update s d.receiver.id
    (Execution.onMessage (N.protocol d.receiver.id) (N.rng d.receiver.id) (s d.receiver.id) d.message))

/-- The message has been sent to a node that still runs and has not got it. -/
structure Due (s : System K) (d : Delivery K) : Prop where
  sender : d.sender ∈ N.keys
  receiver : d.receiver ∈ N.keys
  sent : d.message ∈ (s d.sender.id).sent
  running : (s d.receiver.id).status = .running
  new : d.message ∉ (s d.receiver.id).delivered

variable {N} {k n : ℕ} {keyRng : ℕ → ℕ} {R : Ceremony K N.E} {s : System K}

theorem progress_of_reachable (hhash : R.hash = N.hash) (hrng : R.rng = N.rng)
    (hinit : ∀ key ∈ N.keys,
      FrostProtocol.new N.draws (.frost .ed25519 key) N.msg N.label .noPrecomputation none
        = .ok ⟨.ed25519, R.init key.id⟩) (hs : N.Reachable s) :
    ∀ key ∈ N.keys, R.Progress key.id (s key.id) := by
  induction hs with
  | start hstarted =>
      intro key hkey
      obtain ⟨init, hnew, hstart⟩ := hstarted key hkey
      rw [hinit key hkey] at hnew
      obtain rfl := eq_of_heq (Sigma.mk.inj (Outcome.ok.inj hnew)).2
      rw [hstart, protocol, ← hhash, ← hrng]
      exact Ceremony.progress_start key.id (N.orders key.id)
  | @deliver s sender receiver message hs hsender hreceiver hmessage ih =>
      intro key hkey
      by_cases heq : key.id = receiver.id
      · have hinv := executionInv_of_reachable hhash hrng hinit hs
        have hhonest := (hinv sender hsender).sent message hmessage
        rw [heq, Function.update_self, protocol, ← hhash, ← hrng]
        refine (ih receiver hreceiver).onMessage (hinv receiver hreceiver) hhonest fun hid => ?_
        rwa [← hid, (ih sender hsender).sender message hmessage]
      · rw [Function.update_of_ne heq]
        exact ih key hkey

/-- When nothing is due, every node has finished. -/
theorem finished_of_not_due (hsigner : ∀ j ∈ R.signers, ∃ key ∈ N.keys, key.id = j)
    (hinv : ∀ key ∈ N.keys, R.ExecutionInv key.id (s key.id))
    (hprogress : ∀ key ∈ N.keys, R.Progress key.id (s key.id)) (hnone : ∀ d, ¬ N.Due s d) :
    ∀ key ∈ N.keys,
      (s key.id).status = .finished ((Signature.frost .ed25519 R.signature).toBytes N.E) := by
  have hgot : ∀ sender ∈ N.keys, ∀ message ∈ (s sender.id).sent, ∀ key ∈ N.keys,
      (s key.id).status = .running → message ∈ (s key.id).delivered := by
    intro sender hsender message hmessage key hkey hrunning
    by_contra hnew
    exact hnone ⟨sender, key, message⟩ ⟨hsender, hkey, hmessage, hrunning, hnew⟩
  have hcommitted : ∀ key ∈ N.keys, (s key.id).status = .running →
      ∀ j ∈ R.signers, R.commitmentFrom j ∈ (s key.id).delivered := by
    intro key hkey hrunning j hj
    obtain ⟨sender, hsender, rfl⟩ := hsigner j hj
    exact hgot sender hsender _ ((hprogress sender hsender).committed hj) key hkey hrunning
  have hnonempty : ∀ key ∈ N.keys, (s key.id).status = .running → (s key.id).delivered ≠ [] := by
    intro key hkey hrunning
    have hlength : 0 < R.signers.length := by
      rw [R.length_signers]
      exact R.one_le_k
    obtain ⟨j, hj⟩ := List.exists_mem_of_length_pos hlength
    exact List.ne_nil_of_mem (hcommitted key hkey hrunning j hj)
  -- with all commitments every node has come to its second round
  have hround : ∀ key ∈ N.keys, (s key.id).status = .running → (s key.id).protocol.round = 2 := by
    intro key hkey hrunning
    refine (hinv key hkey).node.round.resolve_left fun hone => ?_
    have hready := (hinv key hkey).node.isReadyForNextRound hone fun j hj =>
      ((hprogress key hkey).upToDate hrunning).commitments j (hcommitted key hkey hrunning j hj)
    rw [(hprogress key hkey).nextRound hrunning (hnonempty key hkey hrunning) hone] at hready
    cases hready
  have hshared : ∀ sender ∈ N.keys, sender.id ∈ R.signers →
      R.shareFrom sender.id ∈ (s sender.id).sent := by
    intro sender hsender hid
    by_cases hrunning : (s sender.id).status = .running
    · have hkept := (hprogress sender hsender).upToDate hrunning
      exact hkept.signed hid (hkept.second (hround sender hsender hrunning) hid)
    · exact (hprogress sender hsender).ended hrunning hid
  -- so all shares have been sent, and nobody waits for one
  intro key hkey
  refine (hinv key hkey).status.resolve_left fun hrunning => ?_
  have hall : ∀ j ∈ R.signers, R.shareFrom j ∈ (s key.id).delivered := by
    intro j hj
    obtain ⟨sender, hsender, rfl⟩ := hsigner j hj
    exact hgot sender hsender _ (hshared sender hsender hj) key hkey hrunning
  have hkept := (hprogress key hkey).upToDate hrunning
  have hready := (hinv key hkey).node.isReadyToFinalize hkept.pending
    (fun j hj => hkept.commitments j (hcommitted key hkey hrunning j hj))
    (fun j hj => hkept.shares j (hall j hj))
  obtain ⟨hid, hback⟩ := (hprogress key hkey).finalize hrunning (hnonempty key hkey hrunning) hready
  exact hback (hall key.id hid)

/-- A delivery that is due leaves less to come. -/
theorem outstanding_lt (hinv : ∀ key ∈ N.keys, R.ExecutionInv key.id (s key.id)) {d : Delivery K}
    {s' : System K} (hdue : N.Due s d) (hstep : N.deliver s d = some s') :
    (N.keys.map fun key => R.outstanding (s' key.id)).sum
      < (N.keys.map fun key => R.outstanding (s key.id)).sum := by
  obtain rfl := Option.some.inj hstep
  have hhonest := (hinv d.sender hdue.sender).sent d.message hdue.sent
  have hless : R.outstanding (Execution.onMessage (N.protocol d.receiver.id) (N.rng d.receiver.id)
      (s d.receiver.id) d.message) < R.outstanding (s d.receiver.id) :=
    Ceremony.outstanding_lt hhonest hdue.new (Execution.delivered_onMessage hdue.running d.message)
  refine List.sum_lt_sum _ _ (fun key _ => ?_) ⟨d.receiver, hdue.receiver, ?_⟩
  · by_cases heq : key.id = d.receiver.id
    · rw [heq, Function.update_self]
      exact hless.le
    · rw [Function.update_of_ne heq]
  · rw [Function.update_self]
    exact hless

/-- The number of parties and the threshold can be read off the public key. -/
theorem of_publicKey_eq {E : Primitives} {C : EcGroup (K.Point .ed25519)} {k' n' : ℕ} {keyRng' : ℕ → ℕ}
    (h : Frost.publicKey E C k n keyRng = Frost.publicKey E C k' n' keyRng') (hk : k ≤ 65535)
    (hk' : k' ≤ 65535) : k = k' ∧ n = n' := by
  have hthreshold := congrArg (fun pk => pk.k.toNat) h
  have hlength := congrArg (fun pk => pk.h.length) h
  simp only [Frost.publicKey, FrostPublicKey.new, List.length_map, length_dealtShares]
    at hthreshold hlength
  rw [toNat_ofNat_of_le hk, toNat_ofNat_of_le hk'] at hthreshold
  exact ⟨hthreshold, hlength⟩

variable (N) in
/-- All parties of a dealing run the protocol on one message, and only their own messages circulate. From
every reachable state on, whatever is delivered next: after at most `2 * k` deliveries for each node there
is no message left that a node waits for, and then every node has finished, all with the same valid
signature. -/
theorem honest_nodes_finish
    (hkeys : Frost.generateKeys N.E (K.ecp .ed25519) k n keyRng = .ok N.keys)
    (hparties : 3 * (k - 1) + 1 ≤ n) (hn : n ≤ 65535) (horder : n < (K.ecp .ed25519).order) :
    ∃ sig, (∀ key ∈ N.keys, Frost.verify (K.ecp .ed25519) N.hash sig key.pubkey N.msg = true)
      ∧ ∀ s, N.Reachable s →
        (∀ schedule s', Takes N.deliver N.Due s schedule s' →
          schedule.length ≤ 2 * k * N.keys.length
          ∧ ((∀ d, ¬ N.Due s' d) → ∀ key ∈ N.keys,
            (s' key.id).status = .finished ((Signature.frost .ed25519 sig).toBytes N.E)))
        ∧ ∃ schedule s', Takes N.deliver N.Due s schedule s' ∧ ∀ d, ¬ N.Due s' d := by
  obtain ⟨R, hhash, hmsg, hrng, hall⟩ := exists_ceremony hkeys hparties hn horder
  obtain ⟨hk, hkn, -⟩ := Frost.generateKeys_eq_ok.mp hkeys
  have hinit := fun key hkey => (hall key hkey).2
  have hparty : ∀ j : UInt16, 1 ≤ j.toNat → j.toNat ≤ n → ∃ key ∈ N.keys, key.id = j := fun j =>
    Frost.exists_mem_of_party hkeys
  obtain ⟨hRk, hRn⟩ : k = R.k ∧ n = R.n := by
    obtain ⟨key, hkey, -⟩ := hparty 1 (by decide) (by simpa using hk.trans hkn)
    have hsame : Frost.publicKey N.E (K.ecp .ed25519) k n keyRng
        = Frost.publicKey N.E (K.ecp .ed25519) R.k R.n R.keyRng := by
      rw [← Frost.pubkey_of_mem hkeys hkey, (hall key hkey).1]
      exact R.pubkey_key 0
    exact of_publicKey_eq hsame (hkn.trans hn) R.k_le
  have hsigner : ∀ j ∈ R.signers, ∃ key ∈ N.keys, key.id = j := by
    intro j hj
    exact hparty j (R.range j hj).1 (hRn ▸ (R.range j hj).2)
  have hstep : ∀ s d s', N.Reachable s → N.Due s d → N.deliver s d = some s' → N.Reachable s'
      ∧ (N.keys.map fun key => R.outstanding (s' key.id)).sum
        < (N.keys.map fun key => R.outstanding (s key.id)).sum := by
    intro s d s' hs hdue hdeliver
    refine ⟨?_, outstanding_lt (executionInv_of_reachable hhash hrng hinit hs) hdue hdeliver⟩
    obtain rfl := Option.some.inj hdeliver
    exact hs.deliver hdue.sender hdue.receiver hdue.sent
  refine ⟨R.signature, fun key hkey => ?_, fun s hs => ⟨fun schedule s' htakes => ?_, ?_⟩⟩
  · rw [(hall key hkey).1, ← hhash, ← hmsg]
    exact R.verify_signature
  · obtain ⟨hs', hlength⟩ := Takes.length_le hstep hs htakes
    have hbound : (N.keys.map fun key => R.outstanding (s key.id)).sum
        ≤ (N.keys.map fun key => R.outstanding (s key.id)).length • (2 * R.k) := by
      refine List.sum_le_card_nsmul _ _ fun x hx => ?_
      obtain ⟨key, -, rfl⟩ := List.mem_map.mp hx
      exact Ceremony.outstanding_le _
    rw [List.length_map, smul_eq_mul, ← hRk, Nat.mul_comm] at hbound
    refine ⟨by omega, fun hnone => finished_of_not_due hsigner ?_ ?_ hnone⟩
    · exact executionInv_of_reachable hhash hrng hinit hs'
    · exact progress_of_reachable hhash hrng hinit hs'
  · obtain ⟨schedule, s', htakes, hfinal⟩ := Takes.exists_final hstep hs
    exact ⟨schedule, s', htakes, fun d hdue => by cases hfinal d hdue⟩

/-- Four parties, of which two sign: all four finish. -/
theorem honest_nodes_finish_seven :
    ∃ sig schedule s', Takes fourSeven.deliver fourSeven.Due startedFourSeven schedule s'
      ∧ schedule.length ≤ 16
      ∧ ∀ key ∈ fourSeven.keys,
        (s' key.id).status = .finished ((Signature.frost .ed25519 sig).toBytes .truncating)
        ∧ Frost.verify (Curves.seven.ecp .ed25519) .ones sig key.pubkey [] = true := by
  obtain ⟨sig, hvalid, hall⟩ := honest_nodes_finish fourSeven (k := 2) (n := 4)
    generateKeys_frostKeysSeven (by decide) (by decide) (by decide)
  obtain ⟨hbound, schedule, s', htakes, hnone⟩ := hall _ (.start started_fourSeven)
  obtain ⟨hlength, hfinished⟩ := hbound schedule s' htakes
  exact ⟨sig, schedule, s', htakes, hlength, fun key hkey =>
    ⟨hfinished hnone key hkey, hvalid key hkey⟩⟩

end FrostNetwork

end QuorumCrypt
