import QuorumCrypt.Protocols.FrostNonces

/-!
# The two ids of a FROST message

A message has an id, and so has the commitment or share in it. `update` files under the first, and
the scheme reads the second: binding factors and Lagrange coefficients are those of the ids inside.
Nothing compares the two. As long as they agree, and a precomputation that an instance starts with
fits its signer group, everything is filed under its own id and the scheme works with the ids of the
signers.
-/

namespace QuorumCrypt

open Rust

/-- The id of the message is that of what `update` may file. -/
def FrostMessage.Truthful {K : Curves} (message : FrostMessage K) : Prop :=
  match message.data with
  | .commitment commitment => commitment.id = message.id
  | .share share => share.share.id = message.id
  | .precomputation commitments => ∀ commitment ∈ commitments.getLast?, commitment.id = message.id
  | .default => True

namespace FrostProtocol

variable {K : Curves} {c : Curve} {E : Primitives} {hash : FrostHashes} {orders : FrostOrders K}
  {init self self' : FrostProtocol K c} {message : FrostMessage K}

/-! ### The commitments that the scheme is called with -/

variable (orders) in
/-- The commitments with which `update` calls `verify_share`, if it does. -/
def verifiedAgainst (self : FrostProtocol K c) (message : FrostMessage K) :
    Option (List (CurveCommitment K)) :=
  match message.data with
  | .commitment commitment =>
      if self.options ≠ .precomputeOnly ∧ self.contains message.id
          ∧ message.id ∉ self.commitmentList ∧ message.id ∈ self.shares then
        some (HashMap.values orders.commitments (self.commitmentList.insert message.id commitment))
      else none
  | .share _ =>
      if self.contains message.id ∧ message.id ∉ self.shares ∧ message.id ∈ self.commitmentList then
        some (self.commitments orders)
      else none
  | _ => none

variable (orders) in
/-- The commitments with which a call of the executor calls `partial_sign`, `verify_share` or
`get_group_commitment`, if it does. -/
def schemeCommitments : Call (FrostProtocol K c) (FrostMessage K) → Option (List (CurveCommitment K))
  | .doRound self => self.signingNonce.map fun _ => self.commitments orders
  | .update self message => verifiedAgainst orders self message
  | .finalize self => some (self.commitments orders)

/-! ### Everything under its own id -/

/-- Commitments and shares are filed under their own ids, and commitments under ids of signers. -/
structure Consistent (init state : FrostProtocol K c) : Prop where
  key : state.key = init.key
  signerGroup : state.signerGroup = init.signerGroup
  commitments : ∀ id commitment, state.commitmentList.lookup id = some commitment →
    commitment.id = id ∧ id ∈ init.signerGroup.signerIdentifiers
  shares : ∀ id share, state.shares.lookup id = some share → share.share.id = id

theorem Consistent.update (h : Consistent init self)
    (htrue : message.id ∈ init.signerGroup.signerIdentifiers → message.Truthful)
    (hupdate : update hash orders self message = .ok self') : Consistent init self' := by
  obtain ⟨hkey, hgroup, hcommitments, hshares⟩ := h
  unfold FrostMessage.Truthful at htrue
  cases updated_of_update hupdate with
  | ignored _ => exact ⟨hkey, hgroup, hcommitments, hshares⟩
  | committed commitment hdata hsigner hnew hnone =>
      rw [hgroup] at hsigner
      rw [hdata] at htrue
      exact ⟨hkey, hgroup, HashMap.forall_lookup_insert ⟨htrue hsigner, hsigner⟩ hcommitments, hshares⟩
  | overtaken commitment share valid hdata hsigner hnew hshare hverify =>
      rw [hgroup] at hsigner
      rw [hdata] at htrue
      exact ⟨hkey, hgroup, HashMap.forall_lookup_insert ⟨htrue hsigner, hsigner⟩ hcommitments,
        HashMap.forall_lookup_insert (hshares _ _ hshare) hshares⟩
  | early share hdata hsigner hnew hnone =>
      rw [hgroup] at hsigner
      rw [hdata] at htrue
      exact ⟨hkey, hgroup, hcommitments, HashMap.forall_lookup_insert (htrue hsigner) hshares⟩
  | shared share valid hdata hsigner hnew hcommitted hverify =>
      rw [hgroup] at hsigner
      rw [hdata] at htrue
      exact ⟨hkey, hgroup, hcommitments, HashMap.forall_lookup_insert (htrue hsigner) hshares⟩
  | precomputed commitment _ list hdata hlast hoptions hsigner =>
      rw [hgroup] at hsigner
      rw [hdata] at htrue
      exact ⟨hkey, hgroup,
        HashMap.forall_lookup_insert ⟨htrue hsigner commitment hlast, hsigner⟩ hcommitments, hshares⟩

/-- A node makes its commitment and its share under its own id. -/
theorem Consistent.doRound (h : Consistent init self) {drawn : ℕ → Bytes × Bytes}
    (hround : doRound hash orders self drawn = .ok (message, self')) : Consistent init self' := by
  obtain ⟨hkey, hgroup, hcommitments, hshares⟩ := h
  obtain ⟨-, hdone | ⟨-, -, next, hprecompute, heq⟩⟩ := roundDone_or_precomputed hround
  · generalize message.data = data at hdone
    cases hdone with
    | committed comm nonce hzero hsigner hcommit =>
        rw [hgroup] at hsigner
        exact ⟨hkey, hgroup,
          HashMap.forall_lookup_insert ⟨Frost.id_of_commitOn hash hcommit, hsigner⟩ hcommitments, hshares⟩
    | signed nonce share R hone hsigner hnew hnonce hsign =>
        exact ⟨hkey, hgroup, hcommitments,
          HashMap.forall_lookup_insert (Frost.id_of_partialSignOn hash hsign) hshares⟩
    | idle _ => exact ⟨hkey, hgroup, hcommitments, hshares⟩
  · obtain ⟨list, rfl⟩ := of_precompute_eq_ok hprecompute
    rw [heq]
    exact ⟨hkey, hgroup, hcommitments, hshares⟩

theorem preserves_consistent (init : FrostProtocol K c) :
    Execution.PreservesOn (protocol E hash orders c)
      (fun message => message.id ∈ init.signerGroup.signerIdentifiers → message.Truthful)
      (Consistent init) where
  update h htrue hupdate := h.update htrue hupdate
  doRound h _ hround := h.doRound hround
  finalize h hfinalize := by
    obtain ⟨sig, -, heq⟩ := Outcome.bind_eq_ok.mp hfinalize
    obtain ⟨-, rfl⟩ := Prod.mk.inj (Outcome.ok.inj heq)
    exact ⟨h.key, h.signerGroup, h.commitments, h.shares⟩

/-- As many commitments as there are signers, all of signers and with different ids, are those of
the signers. -/
theorem perm_signers_of_length {m : HashMap UInt16 (CurveCommitment K)} {signers : List UInt16}
    (hm : ∀ id commitment, m.lookup id = some commitment → commitment.id = id ∧ id ∈ signers)
    (hlength : (m.values orders.commitments).length = signers.length) :
    ((m.values orders.commitments).map CurveCommitment.id).Perm signers := by
  have hkeys : ((m.values orders.commitments).map CurveCommitment.id).Perm m.keys := by
    have hids := HashMap.map_values_perm (f := CurveCommitment.id) (g := fun id => id)
      orders.commitments fun id commitment h => (hm id commitment h).1
    rwa [List.map_id'] at hids
  refine hkeys.trans (List.Subperm.perm_of_length_le ?_ ?_)
  · refine List.subperm_of_subset m.keys_nodup fun id hid => ?_
    obtain ⟨commitment, hlookup⟩ := Option.isSome_iff_exists.mp
      (AList.lookup_isSome.mpr (AList.mem_keys.mp hid))
    exact (hm id commitment hlookup).2
  · rw [← hlength, HashMap.length_values, HashMap.len_eq]

theorem Consistent.perm_signers (h : Consistent init self)
    (hlength : (self.commitments orders).length = init.signerGroup.signerIdentifiers.length) :
    ((self.commitments orders).map CurveCommitment.id).Perm init.signerGroup.signerIdentifiers :=
  perm_signers_of_length h.commitments hlength

/-- The commitments that a call hands to the scheme are those of the signers once there are enough. -/
theorem Consistent.perm_schemeCommitments {call : Call (FrostProtocol K c) (FrostMessage K)}
    (h : Consistent init call.state)
    (htrue : ∀ message, call.delivered = some message →
      message.id ∈ init.signerGroup.signerIdentifiers → message.Truthful)
    {list : List (CurveCommitment K)} (hlist : schemeCommitments orders call = some list)
    (hlength : list.length = init.signerGroup.signerIdentifiers.length) :
    (list.map CurveCommitment.id).Perm init.signerGroup.signerIdentifiers := by
  cases call with
  | doRound self =>
      obtain ⟨nonce, -, rfl⟩ := Option.map_eq_some_iff.mp hlist
      exact h.perm_signers hlength
  | finalize self =>
      obtain rfl := Option.some.inj hlist
      exact h.perm_signers hlength
  | update self message =>
      have hmessage := htrue message rfl
      simp only [schemeCommitments, verifiedAgainst] at hlist
      unfold FrostMessage.Truthful at hmessage
      split at hlist
      · rename_i commitment hdata
        split at hlist
        · rename_i hcond
          have hsigner : message.id ∈ init.signerGroup.signerIdentifiers := by
            have hgroup : self.signerGroup = init.signerGroup := h.signerGroup
            rw [← hgroup]
            simpa [contains] using hcond.2.1
          rw [hdata] at hmessage
          obtain rfl := Option.some.inj hlist
          exact perm_signers_of_length
            (HashMap.forall_lookup_insert ⟨hmessage hsigner, hsigner⟩ h.commitments) hlength
        · cases hlist
      · split at hlist
        · obtain rfl := Option.some.inj hlist
          exact h.perm_signers hlength
        · cases hlist
      · cases hlist

/-- An instance without a precomputation is consistent at the start, and one with a precomputation
that fits is. -/
theorem consistent_of_new {draws : SignerDraws} {key : FrostPrivateKey (K.Point c)}
    {msg label : Bytes} {options : FrostOptions} {precomputation : Option (FrostPrecomputation K)}
    (h : new draws (.frost c key) msg label options precomputation = .ok ⟨c, init⟩)
    (hprecomputation : ∀ p ∈ precomputation, ∀ id commitment,
      p.commitments.lookup id = some commitment →
        commitment.id = id ∧ id ∈ init.signerGroup.signerIdentifiers) :
    SignerGroup.new draws key.pubkey.k msg = .ok init.signerGroup ∧ Consistent init init := by
  obtain ⟨group, hgroup, heq⟩ := Outcome.bind_eq_ok.mp h
  cases precomputation with
  | none =>
      obtain rfl := eq_of_heq (Sigma.mk.inj (Outcome.ok.inj heq)).2
      exact ⟨hgroup, rfl, rfl, by simp, by simp⟩
  | some p =>
      obtain rfl := eq_of_heq (Sigma.mk.inj (Outcome.ok.inj heq)).2
      exact ⟨hgroup, rfl, rfl, hprecomputation p rfl, by simp⟩

end FrostProtocol

open FrostProtocol in
/-- Whatever messages arrive, in whatever order and mode: when the id of every message that claims to
be of a signer is that of what it holds, and a precomputation that the instance starts with has
commitments of signers under their own ids, then all commitments and shares are filed under their own
ids in every state. A call of the scheme with as many commitments as the threshold then uses the ids
of the signers, each once. -/
theorem filed_under_own_id (K : Curves) (E : Primitives) (hash : FrostHashes) (orders : FrostOrders K)
    (draws : SignerDraws) (rng : ℕ → ℕ → Bytes × Bytes) {c : Curve}
    {key : FrostPrivateKey (K.Point c)} {msg label : Bytes} {options : FrostOptions}
    {precomputation : Option (FrostPrecomputation K)} {init : FrostProtocol K c}
    (hnew : FrostProtocol.new draws (.frost c key) msg label options precomputation = .ok ⟨c, init⟩)
    (hprecomputation : ∀ p ∈ precomputation, ∀ id commitment,
      p.commitments.lookup id = some commitment →
        commitment.id = id ∧ id ∈ init.signerGroup.signerIdentifiers)
    {messages : List (FrostMessage K)}
    (hmessages : ∀ m ∈ messages, m.id ∈ init.signerGroup.signerIdentifiers → m.Truthful) :
    (∀ s ∈ (Execution.run (protocol E hash orders c) rng init messages).states,
      (∀ id commitment, s.commitmentList.lookup id = some commitment → commitment.id = id)
        ∧ ∀ id share, s.shares.lookup id = some share → share.share.id = id)
    ∧ ∀ call ∈ (Execution.run (protocol E hash orders c) rng init messages).calls,
      ∀ list, schemeCommitments orders call = some list → list.length = key.pubkey.k.toNat →
        (list.map CurveCommitment.id).Nodup
        ∧ (∀ id, id ∈ list.map CurveCommitment.id ↔ id ∈ init.signerGroup.signerIdentifiers)
        ∧ ∀ cs, commitmentsOn c list = .ok cs →
          let used := Frost.computeBindingFactors (K.ecp c) hash key.pubkey cs msg
          used.2.map BindingFactor.id = Frost.participantsFromCommitmentList used.1
          ∧ (Frost.participantsFromCommitmentList used.1).Perm (list.map CurveCommitment.id) := by
  obtain ⟨hgroup, hinit⟩ := consistent_of_new hnew hprecomputation
  obtain ⟨hnodup, hlengthGroup, -⟩ := SignerGroup.of_new hgroup
  have hpreserves : Execution.PreservesOn (protocol E hash orders c) _ (Consistent init) :=
    preserves_consistent init
  have hstart : ∀ m s', FrostProtocol.doRound hash orders init (rng 0) = .ok (m, s') →
      Consistent init s' := fun m s' hround => hinit.doRound hround
  constructor
  · intro s hs
    have hconsistent := hpreserves.states hinit hstart hmessages s hs
    exact ⟨fun id commitment hlookup => (hconsistent.commitments id commitment hlookup).1,
      hconsistent.shares⟩
  · intro call hcall list hlist hlength
    obtain ⟨hconsistent, htrue⟩ := hpreserves.calls hinit hstart hmessages call hcall
    have hperm := hconsistent.perm_schemeCommitments htrue hlist (hlength.trans hlengthGroup.symm)
    refine ⟨hperm.nodup_iff.mpr hnodup, fun id => hperm.mem_iff, fun cs hcs => ?_⟩
    obtain ⟨hids, hparticipants⟩ := Frost.participants_computeBindingFactors (K.ecp c) hash
      key.pubkey cs msg
    rw [commitmentsOn_eq_ok.mp hcs, map_id_map_mk]
    exact ⟨hids, hparticipants⟩

/-! ### A commitment under the wrong id -/

/-- The run over one commitment, in a message of the second party. -/
def frostPairRunSeven (commitment : CurveCommitment Curves.seven) :
    Execution (FrostProtocol Curves.seven .ed25519) (FrostMessage Curves.seven) :=
  Execution.run (FrostProtocol.protocol .truncating .ones (.latest _) .ed25519)
    (fun _ _ => ([], [])) (frostOfSeven 1) [⟨2, .commitment commitment⟩]

/-- The state in which the first party signs. -/
def frostPairSignsSeven (commitment : CurveCommitment Curves.seven) :
    FrostProtocol Curves.seven .ed25519 :=
  { frostOfSeven 1 with
    round := 1
    nonce := some ⟨1, 1⟩
    commitment := some frostCommitmentSeven
    commitmentList := (AList.singleton 1 frostCommitmentSeven).insert 2 commitment }

theorem mem_calls_frostPairRunSeven (commitment : CurveCommitment Curves.seven) :
    .doRound (frostPairSignsSeven commitment) ∈ (frostPairRunSeven commitment).calls := by
  have hrun : frostPairRunSeven commitment = Execution.performRound
      (FrostProtocol.protocol .truncating .ones (.latest _) .ed25519) (fun _ _ => ([], []))
      ⟨frostPairSignsSeven commitment, [⟨1, .commitment frostCommitmentSeven⟩], _, .running⟩ := rfl
  rw [hrun, Execution.calls_performRound]
  exact List.mem_append_right _ List.mem_cons_self

/-- With the commitment of the second party, the ids that the first signs with differ. -/
theorem filed_under_own_id_seven :
    ∃ call ∈ (frostPairRunSeven (frostCommitmentOfSeven 2)).calls, ∃ list,
      FrostProtocol.schemeCommitments (.latest _) call = some list ∧ list.length = 2
      ∧ (list.map CurveCommitment.id).Nodup := by
  have hmessages : ∀ m ∈ [(⟨2, .commitment (frostCommitmentOfSeven 2)⟩ : FrostMessage Curves.seven)],
      m.id ∈ (frostOfSeven 1).signerGroup.signerIdentifiers → m.Truthful := by
    intro m hm _
    rw [List.mem_singleton.mp hm]
    rfl
  obtain ⟨-, hlists⟩ := filed_under_own_id Curves.seven .truncating .ones (.latest _) .counting
    (fun _ _ => ([], [])) (new_frostOfSeven 1) (by simp) hmessages
  have hcall := mem_calls_frostPairRunSeven (frostCommitmentOfSeven 2)
  exact ⟨_, hcall, _, rfl, rfl, (hlists _ hcall _ rfl rfl).1⟩

/-- The second party sends a commitment that has the id of the first. It is filed under the id of the
second, and the first party signs with its own id twice. -/
theorem filed_under_other_id_seven :
    FrostProtocol.new .counting (.frost .ed25519 (frostKeyOfSeven 1)) [] [] .noPrecomputation none
        = .ok ⟨.ed25519, frostOfSeven 1⟩
      ∧ (∃ s ∈ (frostPairRunSeven (frostCommitmentOfSeven 1)).states, ∃ commitment,
        s.commitmentList.lookup 2 = some commitment ∧ commitment.id ≠ 2)
      ∧ ∃ call ∈ (frostPairRunSeven (frostCommitmentOfSeven 1)).calls, ∃ list,
        FrostProtocol.schemeCommitments (.latest _) call = some list
        ∧ list.length = (frostKeyOfSeven 1).pubkey.k.toNat
        ∧ list.map CurveCommitment.id = [1, 1] := by
  have hcall := mem_calls_frostPairRunSeven (frostCommitmentOfSeven 1)
  refine ⟨rfl, ⟨frostPairSignsSeven (frostCommitmentOfSeven 1), ?_, _, rfl, by decide⟩,
    _, hcall, _, rfl, rfl, rfl⟩
  exact List.mem_append_left _ (List.mem_map_of_mem (f := Call.state) hcall)

end QuorumCrypt
