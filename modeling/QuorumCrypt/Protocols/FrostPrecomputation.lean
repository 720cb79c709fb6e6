import QuorumCrypt.Protocols.FrostAgreement

/-!
# Precomputed FROST commitments

With `FrostOptions::PrecomputeOnly` the nodes are to draw commitments for later signatures and exit,
and with `FrostOptions::Precomputation` to use one of them at once. Neither works, for any keys and
any message. A node that only precomputes is never ready for another round and never for `finalize`,
the only place where `finished` is set, so `get_precomputations` always returns `WrongState`. A node
that is to sign at once does not keep the nonce of the commitment it uses: when it has the commitments
of all signers, its second round unwraps a nonce that is not there.
-/

namespace QuorumCrypt

open Rust

/-- A message with precomputed commitments. -/
def FrostMessage.IsPrecomputation {K : Curves} (message : FrostMessage K) : Prop :=
  ∃ commitments, commitments ≠ [] ∧ message.data = .precomputation commitments

namespace FrostProtocol

section

variable {K : Curves} {c : Curve}

/-- The gathered precomputations, once the precomputation has finished. -/
def getPrecomputations (self : FrostProtocol K c) : SchemeOutcome (List (FrostPrecomputation K)) :=
  if 1 < self.precomputationList.length ∧ self.finished then .ok self.precomputationList
  else .err .wrongState

end

variable {K : Curves} {E : Primitives} {hash : FrostHashes} {orders : FrostOrders K}
  {init self : FrostProtocol K .ed25519} {message : FrostMessage K}

variable (hash orders self) in
/-- Precomputed commitments are taken in. They are filed only when the node is to sign at once. -/
theorem exists_update (hmessage : message.IsPrecomputation) :
    ∃ commitmentList precomputationList,
      update hash orders self message = .ok { self with commitmentList, precomputationList }
      ∧ (self.options ≠ .precomputation → commitmentList = self.commitmentList)
      ∧ (self.options = .precomputation →
        (∀ id ∈ self.commitmentList, id ∈ commitmentList)
        ∧ (message.id ∈ self.signerGroup.signerIdentifiers → message.id ∈ commitmentList)) := by
  obtain ⟨commitments, hne, hdata⟩ := hmessage
  rw [update, hdata]
  dsimp only
  rw [updatePrecomputation, List.getLast?_eq_some_getLast hne]
  dsimp only
  by_cases hsigner : self.contains message.id = true
  · rw [if_pos hsigner]
    by_cases hoptions : self.options = .precomputation
    · rw [if_pos hoptions]
      refine ⟨_, _, rfl, fun hnot => absurd hoptions hnot, fun _ => ⟨fun id hid => ?_, fun _ => ?_⟩⟩
      · exact HashMap.mem_insert_of_mem _ hid
      · exact (AList.mem_insert _).mpr (.inl rfl)
    · rw [if_neg hoptions]
      exact ⟨_, _, rfl, fun _ => rfl, fun heq => absurd heq hoptions⟩
  · rw [if_neg hsigner]
    refine ⟨_, _, rfl, fun _ => rfl, fun _ => ⟨fun id hid => hid, fun hmem => ?_⟩⟩
    exact absurd (by simpa [contains] using hmem) hsigner

/-- A node after its first round, before it has anything to sign with. -/
structure Waiting (init state : FrostProtocol K .ed25519) : Prop where
  round : state.round = 1
  key : state.key = init.key
  signerGroup : state.signerGroup = init.signerGroup
  options : state.options = init.options
  nonce : state.nonce = none
  shares : state.shares = ∅
  finished : state.finished = false

theorem Waiting.not_isReadyToFinalize (h : Waiting init self) (hpos : 0 < init.threshold) :
    self.isReadyToFinalize = false := by
  have hlen : self.shares.len ≠ self.threshold := by
    rw [h.shares, threshold, h.key]
    exact (Nat.ne_of_gt hpos).symm
  simp [isReadyToFinalize, hlen]

theorem Waiting.isReadyForNextRound_iff (h : Waiting init self) :
    self.isReadyForNextRound = true ↔ init.threshold ≤ self.commitmentList.len
      ∧ ∀ id ∈ init.signerGroup.signerIdentifiers, id ∈ self.commitmentList := by
  simp [isReadyForNextRound, h.round, allPresent, threshold, h.key, h.signerGroup]

theorem Waiting.getPrecomputations (h : Waiting init self) :
    self.getPrecomputations = .err .wrongState := by
  simp [FrostProtocol.getPrecomputations, h.finished]

/-- A signer has no nonce in its second round. -/
theorem Waiting.doRound_panics (h : Waiting init self)
    (hsigner : init.key.id ∈ init.signerGroup.signerIdentifiers) (drawn : ℕ → Bytes × Bytes) :
    doRound hash orders self drawn = .panic := by
  have hcond : self.contains self.key.id ∧ self.key.id ∉ self.shares := by
    rw [h.shares, h.key, contains, h.signerGroup]
    exact ⟨by simpa using hsigner, AList.notMem_empty _⟩
  simp only [doRound, h.round, doRoundOne]
  rw [if_pos hcond, h.nonce]
  rfl

variable (hash) in
theorem exists_mapM_commitOn (key : FrostPrivateKey (K.Point .ed25519)) (drawn : ℕ → Bytes × Bytes)
    (is : List ℕ) :
    ∃ commitments, is.mapM (fun i => Frost.commitOn hash key (drawn i)) = .ok commitments
      ∧ commitments.length = is.length := by
  induction is with
  | nil => exact ⟨[], rfl, rfl⟩
  | cons i is ih =>
      obtain ⟨commitments, hok, hlength⟩ := ih
      refine ⟨Frost.commit (K.ecp .ed25519) hash key (drawn i).1 (drawn i).2 :: commitments, ?_, ?_⟩
      · rw [List.mapM_cons, hok]
        rfl
      · rw [List.length_cons, List.length_cons, hlength]

variable (hash orders) in
/-- The first round sends precomputed commitments, and files nothing. -/
theorem exists_doRound_precompute (hround : init.round = 0) (hoptions : init.options ≠ .noPrecomputation)
    (hnonce : init.nonce = none) (hshares : init.shares = ∅) (hfinished : init.finished = false)
    (drawn : ℕ → Bytes × Bytes) :
    ∃ message state, doRound hash orders init drawn = .ok (message, state)
      ∧ message.id = init.key.id ∧ message.IsPrecomputation ∧ Waiting init state
      ∧ state.commitmentList = init.commitmentList := by
  obtain ⟨commitments, hok, hlength⟩ :=
    exists_mapM_commitOn hash init.key drawn (List.range numPrecomputations)
  simp only [doRound, hround, doRoundZero]
  rw [if_pos hoptions, precompute, hok]
  refine ⟨_, _, rfl, rfl, ⟨_, ?_, rfl⟩, ?_, rfl⟩
  · rw [Ne, List.map_eq_nil_iff, ← List.length_eq_zero_iff, hlength, List.length_range]
    decide
  · exact ⟨congrArg (· + 1) hround, rfl, rfl, rfl, hnonce, hshares, hfinished⟩

/-! ### One node -/

variable {rng : ℕ → ℕ → Bytes × Bytes}

/-- The state of a node that is about to precompute. -/
structure Fresh (init : FrostProtocol K .ed25519) : Prop where
  round : init.round = 0
  options : init.options ≠ .noPrecomputation
  nonce : init.nonce = none
  commitmentList : init.commitmentList = ∅
  shares : init.shares = ∅
  finished : init.finished = false
  threshold : 0 < init.threshold

variable (E hash orders rng) in
/-- After the first round a node waits, and has sent its precomputed commitments. -/
theorem Fresh.exists_start (h : Fresh init) :
    ∃ message state, Execution.start (protocol E hash orders .ed25519) rng init
        = ⟨state, [message], [.doRound init], .running⟩
      ∧ message.id = init.key.id ∧ message.IsPrecomputation ∧ Waiting init state
      ∧ state.commitmentList = ∅ := by
  obtain ⟨message, state, hround, hid, hmessage, hwaiting, hlist⟩ :=
    exists_doRound_precompute hash orders h.round h.options h.nonce h.shares h.finished (rng 0)
  have hdefault : (protocol E hash orders .ed25519).isDefault message = false := by
    obtain ⟨commitments, -, hdata⟩ := hmessage
    change message.isDefault = false
    rw [FrostMessage.isDefault, hdata]
  refine ⟨message, state, ?_, hid, hmessage, hwaiting, hlist.trans h.commitmentList⟩
  have hperform := Execution.performRound_of_ok (P := protocol E hash orders .ed25519)
    (e := ⟨init, [], [], .running⟩) hround
  rw [hdefault] at hperform
  exact hperform

variable (E hash orders rng) in
/-- Precomputed commitments that arrive are taken in. Then the node waits on, or does its second
round. -/
theorem Waiting.exists_onMessage {e : Execution (FrostProtocol K .ed25519) (FrostMessage K)}
    (h : Waiting init e.protocol) (hpos : 0 < init.threshold) (hrunning : e.status = .running)
    (hmessage : message.IsPrecomputation) :
    ∃ state calls, Waiting init state
      ∧ (init.options ≠ .precomputation → state.commitmentList = e.protocol.commitmentList)
      ∧ (init.options = .precomputation →
        (∀ id ∈ e.protocol.commitmentList, id ∈ state.commitmentList)
        ∧ (message.id ∈ init.signerGroup.signerIdentifiers → message.id ∈ state.commitmentList))
      ∧ Execution.onMessage (protocol E hash orders .ed25519) rng e message
        = if state.isReadyForNextRound then
            Execution.performRound (protocol E hash orders .ed25519) rng
              ⟨state, e.sent, calls, .running⟩
          else ⟨state, e.sent, calls, .running⟩ := by
  obtain ⟨list, precomputations, hupdate, hsame, hfiled⟩ := exists_update hash orders e.protocol hmessage
  rw [h.options] at hsame hfiled
  rw [h.signerGroup] at hfiled
  have hnext : Waiting init
      { e.protocol with commitmentList := list, precomputationList := precomputations } := by
    obtain ⟨hround, hkey, hgroup, hoptions, hnonce, hshares, hfinished⟩ := h
    exact ⟨hround, hkey, hgroup, hoptions, hnonce, hshares, hfinished⟩
  refine ⟨_, e.calls ++ [.update e.protocol message], hnext, hsame, hfiled, ?_⟩
  have hfinal : ¬ (protocol E hash orders .ed25519).isReadyToFinalize
      { e.protocol with commitmentList := list, precomputationList := precomputations } = true := by
    change ¬ isReadyToFinalize _ = true
    rw [hnext.not_isReadyToFinalize hpos]
    exact Bool.false_ne_true
  rw [Execution.onMessage_of_ok hrunning hupdate, Execution.advance, if_neg hfinal]
  rfl

/-! ### A node that only precomputes -/

/-- A node that only precomputes, whatever precomputed commitments it has got. -/
structure Quiet (init : FrostProtocol K .ed25519)
    (e : Execution (FrostProtocol K .ed25519) (FrostMessage K)) : Prop where
  waiting : Waiting init e.protocol
  commitmentList : e.protocol.commitmentList = ∅
  sent : ∀ m ∈ e.sent, m.IsPrecomputation
  status : e.status = .running

theorem Fresh.quiet (h : Fresh init) :
    Quiet init (Execution.start (protocol E hash orders .ed25519) rng init) := by
  obtain ⟨message, state, hstart, -, hmessage, hwaiting, hlist⟩ := h.exists_start E hash orders rng
  rw [hstart]
  refine ⟨hwaiting, hlist, fun m hm => ?_, rfl⟩
  rw [List.mem_singleton.mp hm]
  exact hmessage

/-- It takes in what it gets and waits on. -/
theorem Quiet.onMessage (hpos : 0 < init.threshold) (hoptions : init.options = .precomputeOnly)
    {e : Execution (FrostProtocol K .ed25519) (FrostMessage K)} (h : Quiet init e)
    (hmessage : message.IsPrecomputation) :
    Quiet init (Execution.onMessage (protocol E hash orders .ed25519) rng e message) := by
  obtain ⟨hwaiting, hlist, hsent, hrunning⟩ := h
  obtain ⟨state, calls, hnext, hsame, -, heq⟩ :=
    hwaiting.exists_onMessage E hash orders rng hpos hrunning hmessage
  have hnone : state.commitmentList = ∅ := by
    rw [hsame (by rw [hoptions]; decide), hlist]
  have hready : ¬ state.isReadyForNextRound = true := by
    rw [hnext.isReadyForNextRound_iff, hnone]
    intro hboth
    exact absurd hpos (Nat.not_lt.mpr hboth.1)
  rw [heq, if_neg hready]
  exact ⟨hnext, hnone, hsent, rfl⟩

/-! ### A signer that is to sign at once -/

/-- A signer that has filed the commitments of signers among the messages, and waits for more. -/
structure Collecting (init : FrostProtocol K .ed25519) (messages : List (FrostMessage K))
    (e : Execution (FrostProtocol K .ed25519) (FrostMessage K)) : Prop where
  running : e.status = .running
  waiting : Waiting init e.protocol
  filed : ∀ m ∈ messages, m.id ∈ init.signerGroup.signerIdentifiers →
    m.id ∈ e.protocol.commitmentList
  notReady : messages ≠ [] → ¬ e.protocol.isReadyForNextRound = true

theorem Collecting.onMessage {messages : List (FrostMessage K)}
    {e : Execution (FrostProtocol K .ed25519) (FrostMessage K)} (h : Collecting init messages e)
    (hpos : 0 < init.threshold) (hoptions : init.options = .precomputation)
    (hsigner : init.key.id ∈ init.signerGroup.signerIdentifiers) (hmessage : message.IsPrecomputation) :
    (Execution.onMessage (protocol E hash orders .ed25519) rng e message).status = .panicked
      ∨ Collecting init (messages ++ [message])
        (Execution.onMessage (protocol E hash orders .ed25519) rng e message) := by
  obtain ⟨hrunning, hwaiting, hfiled, -⟩ := h
  obtain ⟨state, calls, hnext, -, hlist, heq⟩ :=
    hwaiting.exists_onMessage E hash orders rng hpos hrunning hmessage
  obtain ⟨hkept, hnew⟩ := hlist hoptions
  rw [heq]
  by_cases hready : state.isReadyForNextRound = true
  · -- all commitments are there, and the second round asks for the nonce
    refine .inl ?_
    rw [if_pos hready, Execution.performRound]
    have hpanic : (protocol E hash orders .ed25519).doRound state
        (rng (Execution.rounds ⟨state, e.sent, calls, .running⟩)) = .panic :=
      hnext.doRound_panics hsigner _
    rw [hpanic]
  · refine .inr ?_
    rw [if_neg hready]
    refine ⟨rfl, hnext, fun m hm hid => ?_, fun _ => hready⟩
    rcases List.mem_append.mp hm with hm | hm
    · exact hkept m.id (hfiled m hm hid)
    · obtain rfl := List.mem_singleton.mp hm
      exact hnew hid

theorem panicked_or_collecting (hfresh : Fresh init) (hoptions : init.options = .precomputation)
    (hsigner : init.key.id ∈ init.signerGroup.signerIdentifiers) (messages : List (FrostMessage K))
    (hmessages : ∀ m ∈ messages, m.IsPrecomputation) :
    (Execution.run (protocol E hash orders .ed25519) rng init messages).status = .panicked
      ∨ Collecting init messages (Execution.run (protocol E hash orders .ed25519) rng init messages) := by
  induction messages using List.reverseRecOn with
  | nil =>
      obtain ⟨message, state, hstart, -, -, hwaiting, -⟩ := hfresh.exists_start E hash orders rng
      rw [Execution.run, List.foldl_nil, hstart]
      exact .inr ⟨rfl, hwaiting, by simp, by simp⟩
  | append_singleton messages message ih =>
      have hmessage := hmessages message (List.mem_append_right _ List.mem_cons_self)
      have hrest := ih fun m hm => hmessages m (List.mem_append_left _ hm)
      rw [Execution.run_append, List.foldl_cons, List.foldl_nil]
      rcases hrest with hpanicked | hcollecting
      · refine .inl ?_
        rw [Execution.onMessage, if_pos (by rw [hpanicked]; decide)]
        exact hpanicked
      · exact hcollecting.onMessage hfresh.threshold hoptions hsigner hmessage

/-- A signer that has got precomputed commitments of all signers has panicked. -/
theorem panicked_of_all (hfresh : Fresh init) (hoptions : init.options = .precomputation)
    (hsigner : init.key.id ∈ init.signerGroup.signerIdentifiers)
    (hnodup : init.signerGroup.signerIdentifiers.Nodup)
    (hlength : init.signerGroup.signerIdentifiers.length = init.threshold)
    {messages : List (FrostMessage K)} (hmessages : ∀ m ∈ messages, m.IsPrecomputation)
    (hall : ∀ id ∈ init.signerGroup.signerIdentifiers, ∃ m ∈ messages, m.id = id) :
    (Execution.run (protocol E hash orders .ed25519) rng init messages).status = .panicked := by
  refine (panicked_or_collecting hfresh hoptions hsigner messages hmessages).resolve_right ?_
  intro hcollecting
  generalize Execution.run (protocol E hash orders .ed25519) rng init messages = e at hcollecting
  have hpresent : ∀ id ∈ init.signerGroup.signerIdentifiers, id ∈ e.protocol.commitmentList := by
    intro id hid
    obtain ⟨m, hm, rfl⟩ := hall id hid
    exact hcollecting.filed m hm hid
  have hne : messages ≠ [] := by
    obtain ⟨m, hm, -⟩ := hall _ hsigner
    exact List.ne_nil_of_mem hm
  refine hcollecting.notReady hne (hcollecting.waiting.isReadyForNextRound_iff.mpr ⟨?_, hpresent⟩)
  rw [← hlength, HashMap.len_eq]
  refine (List.subperm_of_subset hnodup fun id hid => ?_).length_le
  exact AList.mem_keys.mpr (hpresent id hid)

end FrostProtocol

/-! ### All nodes -/

namespace FrostNetwork

variable {K : Curves} (N : FrostNetwork K)

/-- A node has neither failed nor panicked, and a result it returned is a valid signature. -/
def Sound (key : FrostPrivateKey (K.Point .ed25519))
    (e : Execution (FrostProtocol K .ed25519) (FrostMessage K)) : Prop :=
  match e.status with
  | .running => True
  | .finished result => ∃ sig, result = (Signature.frost .ed25519 sig).toBytes N.E
      ∧ Frost.verify (K.ecp .ed25519) N.hash sig key.pubkey N.msg = true
  | .failed _ => False
  | .panicked => False

/-- What the precomputation modes are for. -/
structure PrecomputationModes : Prop where
  /-- Nodes that are to precompute and sign do so. -/
  signs : ∀ s, N.ReachableWith .precomputation (fun _ => none) s →
    ∀ key ∈ N.keys, N.Sound key (s key.id)
  /-- Nodes that only precompute can get lists that agree, each with its own nonces. -/
  completes : ∃ s, N.ReachableWith .precomputeOnly (fun _ => none) s
    ∧ ∃ lists : UInt16 → List (FrostPrecomputation K),
      (∀ key ∈ N.keys, (s key.id).protocol.getPrecomputations = .ok (lists key.id))
      ∧ ∀ key ∈ N.keys, key.id ∈ (s key.id).protocol.signerGroup.signerIdentifiers →
        ∀ (i : ℕ) (p : FrostPrecomputation K), (lists key.id)[i]? = some p →
          (∃ comm randomBytes, Frost.commitOn N.hash key randomBytes = .ok (comm, p.nonce)
            ∧ p.commitments.lookup key.id = some ⟨.ed25519, comm⟩)
          ∧ ∀ key' ∈ N.keys, key'.id ∈ (s key'.id).protocol.signerGroup.signerIdentifiers →
            ∃ p' : FrostPrecomputation K, (lists key'.id)[i]? = some p'
              ∧ ∀ id, p'.commitments.lookup id = p.commitments.lookup id
  /-- With an entry of these lists, the same on every node, the nodes sign any message. -/
  reuses : ∀ s, N.ReachableWith .precomputeOnly (fun _ => none) s →
    ∀ lists : UInt16 → List (FrostPrecomputation K),
      (∀ key ∈ N.keys, (s key.id).protocol.getPrecomputations = .ok (lists key.id)) →
      ∀ (i : ℕ) (msg : Bytes), (∀ key ∈ N.keys, i < (lists key.id).length) →
        (∀ s', { N with msg }.ReachableWith .noPrecomputation (fun id => (lists id)[i]?) s' →
          ∀ key ∈ N.keys, { N with msg }.Sound key (s' key.id))
        ∧ ∃ s', { N with msg }.ReachableWith .noPrecomputation (fun id => (lists id)[i]?) s'
          ∧ ∃ key ∈ N.keys, ∃ result, (s' key.id).status = .finished result

variable {N} {k n : ℕ} {keyRng : ℕ → ℕ} {options : FrostOptions}
  {precomputations : UInt16 → Option (FrostPrecomputation K)}

/-- One node may get any messages that were sent, one after the other. -/
theorem reachableWith_foldl {s : System K} (hs : N.ReachableWith options precomputations s)
    {receiver : FrostPrivateKey (K.Point .ed25519)} (hreceiver : receiver ∈ N.keys)
    {messages : List (FrostMessage K)}
    (hmessages : ∀ m ∈ messages, ∃ sender ∈ N.keys, m ∈ (s sender.id).sent) :
    N.ReachableWith options precomputations (Function.update s receiver.id
      (messages.foldl (Execution.onMessage (N.protocol receiver.id) (N.rng receiver.id))
        (s receiver.id))) := by
  induction messages using List.reverseRecOn with
  | nil =>
      rw [List.foldl_nil, Function.update_eq_self]
      exact hs
  | append_singleton messages message ih =>
      have hrest := ih fun m hm => hmessages m (List.mem_append_left _ hm)
      obtain ⟨sender, hsender, hsent⟩ :=
        hmessages message (List.mem_append_right _ List.mem_cons_self)
      set e := messages.foldl (Execution.onMessage (N.protocol receiver.id) (N.rng receiver.id))
        (s receiver.id) with he
      have hmessage : message ∈ (Function.update s receiver.id e sender.id).sent := by
        by_cases heq : sender.id = receiver.id
        · rw [heq, Function.update_self, he]
          rw [heq] at hsent
          exact Execution.mem_sent_foldl hsent messages
        · rwa [Function.update_of_ne heq]
      have hnext := ReachableWith.deliver hrest hsender hreceiver hmessage
      rw [Function.update_self, Function.update_idem] at hnext
      rw [List.foldl_append, List.foldl_cons, List.foldl_nil, ← he]
      exact hnext

variable (options) in
/-- The states in which the nodes start to precompute. -/
theorem exists_fresh (hkeys : Frost.generateKeys N.E (K.ecp .ed25519) k n keyRng = .ok N.keys)
    (hparties : 3 * (k - 1) + 1 ≤ n) (hn : n ≤ 65535) (hoptions : options ≠ .noPrecomputation) :
    ∃ (group : SignerGroup) (init : UInt16 → FrostProtocol K .ed25519),
      group.signerIdentifiers.Nodup ∧ group.signerIdentifiers.length = k
      ∧ (∀ id ∈ group.signerIdentifiers, ∃ key ∈ N.keys, key.id = id)
      ∧ (∀ id, (init id).Fresh ∧ (init id).key.id = id ∧ (init id).signerGroup = group
        ∧ (init id).options = options ∧ (init id).threshold = k)
      ∧ ∀ key ∈ N.keys, FrostProtocol.new N.draws (.frost .ed25519 key) N.msg N.label options none
        = .ok ⟨.ed25519, init key.id⟩ := by
  obtain ⟨hk, hkn, -⟩ := Frost.generateKeys_eq_ok.mp hkeys
  obtain ⟨group, hgroup⟩ := SignerGroup.exists_new N.draws hk (hparties.trans hn) N.msg
  have ht : (UInt16.ofNat k).toNat = k := toNat_ofNat_of_le (hkn.trans hn)
  obtain ⟨hnodup, hlength, hrange⟩ := SignerGroup.of_new hgroup
  rw [ht] at hlength hrange
  let keyOf (id : UInt16) : FrostPrivateKey (K.Point .ed25519) :=
    { id, x := dealtShare (K.ecp .ed25519).order k keyRng id
      pubkey := Frost.publicKey N.E (K.ecp .ed25519) k n keyRng }
  let init (id : UInt16) : FrostProtocol K .ed25519 :=
    { round := 0, key := keyOf id, label := N.label, msg := N.msg, nonce := none, commitment := none
      commitmentList := ∅, precomputationList := [], groupCommitment := none, shares := ∅
      notVerifiedShares := ∅, finished := false, options, signerGroup := group }
  have hthreshold : ∀ id, (init id).threshold = k := fun _ => ht
  refine ⟨group, init, hnodup, hlength, fun id hid => ?_, fun id => ?_, fun key hkey => ?_⟩
  · obtain ⟨hlow, hhigh⟩ := hrange id hid
    exact Frost.exists_mem_of_party hkeys hlow (hhigh.trans hparties)
  · refine ⟨⟨rfl, hoptions, rfl, rfl, rfl, rfl, ?_⟩, rfl, rfl, rfl, hthreshold id⟩
    rw [hthreshold]
    exact hk
  · have heq : key = keyOf key.id := by
      obtain ⟨-, -, hx⟩ := Frost.exists_party_of_mem hn hkeys hkey
      have hpubkey := Frost.pubkey_of_mem hkeys hkey
      obtain ⟨id, x, pubkey⟩ := key
      rw [FrostPrivateKey.mk.injEq]
      exact ⟨rfl, hx, hpubkey⟩
    rw [heq]
    change (SignerGroup.new N.draws (UInt16.ofNat k) N.msg >>= _) = _
    rw [hgroup]
    rfl

/-- Nodes that only precompute wait forever. -/
theorem quiet_of_reachableWith {init : UInt16 → FrostProtocol K .ed25519}
    (hnew : ∀ key ∈ N.keys,
      FrostProtocol.new N.draws (.frost .ed25519 key) N.msg N.label .precomputeOnly none
        = .ok ⟨.ed25519, init key.id⟩)
    (hfresh : ∀ id, (init id).Fresh ∧ (init id).options = .precomputeOnly)
    {s : System K} (hs : N.ReachableWith .precomputeOnly (fun _ => none) s) :
    ∀ key ∈ N.keys, FrostProtocol.Quiet (init key.id) (s key.id) := by
  induction hs with
  | start hstarted =>
      intro key hkey
      obtain ⟨state, hstate, heq⟩ := hstarted key hkey
      rw [hnew key hkey] at hstate
      obtain rfl := eq_of_heq (Sigma.mk.inj (Outcome.ok.inj hstate)).2
      rw [heq]
      exact (hfresh key.id).1.quiet
  | @deliver s sender receiver message _ hsender hreceiver hmessage ih =>
      intro key hkey
      by_cases heq : key.id = receiver.id
      · obtain ⟨hreceiverFresh, hoptions⟩ := hfresh receiver.id
        rw [heq, Function.update_self]
        exact (ih receiver hreceiver).onMessage hreceiverFresh.threshold hoptions
          ((ih sender hsender).sent message hmessage)
      · rw [Function.update_of_ne heq]
        exact ih key hkey

/-- When a signer that is to sign at once gets the precomputed commitments of all signers, its own
among them, it panics. -/
theorem exists_panicked (hkeys : Frost.generateKeys N.E (K.ecp .ed25519) k n keyRng = .ok N.keys)
    (hparties : 3 * (k - 1) + 1 ≤ n) (hn : n ≤ 65535) :
    ∃ s, N.ReachableWith .precomputation (fun _ => none) s
      ∧ ∃ key ∈ N.keys, (s key.id).status = .panicked := by
  obtain ⟨hk, -, -⟩ := Frost.generateKeys_eq_ok.mp hkeys
  obtain ⟨group, init, hnodup, hlength, hparty, hinit, hnew⟩ :=
    exists_fresh .precomputation hkeys hparties hn (by decide)
  let s : System K := fun id => Execution.start (N.protocol id) (N.rng id) (init id)
  have hs : N.ReachableWith .precomputation (fun _ => none) s :=
    .start fun key hkey => ⟨init key.id, hnew key hkey, rfl⟩
  have hmessage : ∀ id, ∃ m : FrostMessage K, m ∈ (s id).sent ∧ m.id = id ∧ m.IsPrecomputation := by
    intro id
    obtain ⟨hfresh, hid, -⟩ := hinit id
    obtain ⟨m, state, hstart, hm, hprecomputation, -⟩ :=
      hfresh.exists_start N.E N.hash (N.orders id) (N.rng id)
    refine ⟨m, ?_, hm.trans hid, hprecomputation⟩
    change m ∈ (Execution.start (N.protocol id) (N.rng id) (init id)).sent
    rw [protocol, hstart]
    exact List.mem_singleton.mpr rfl
  choose m hsent hid hprecomputation using hmessage
  obtain ⟨signer, hsigner⟩ : ∃ signer, signer ∈ group.signerIdentifiers :=
    List.exists_mem_of_length_pos (by omega)
  obtain ⟨key, hkey, rfl⟩ := hparty signer hsigner
  obtain ⟨hfresh, hown, hgroup, hoptions, hthreshold⟩ := hinit key.id
  have hdelivered : ∀ message ∈ group.signerIdentifiers.map m,
      ∃ sender ∈ N.keys, message ∈ (s sender.id).sent := by
    intro message hmem
    obtain ⟨id, hid, rfl⟩ := List.mem_map.mp hmem
    obtain ⟨sender, hsender, rfl⟩ := hparty id hid
    exact ⟨sender, hsender, hsent sender.id⟩
  refine ⟨_, reachableWith_foldl hs hkey hdelivered, key, hkey, ?_⟩
  rw [Function.update_self]
  refine FrostProtocol.panicked_of_all hfresh hoptions ?_ ?_ ?_ ?_ ?_
  · rw [hgroup, hown]
    exact hsigner
  · rw [hgroup]
    exact hnodup
  · rw [hgroup, hthreshold]
    exact hlength
  · intro message hmem
    obtain ⟨id, -, rfl⟩ := List.mem_map.mp hmem
    exact hprecomputation id
  · intro id hmem
    rw [hgroup] at hmem
    exact ⟨m id, List.mem_map_of_mem hmem, hid id⟩

/-- Nodes that only precompute never get their precomputations. -/
theorem wrongState_of_reachableWith
    (hkeys : Frost.generateKeys N.E (K.ecp .ed25519) k n keyRng = .ok N.keys)
    (hparties : 3 * (k - 1) + 1 ≤ n) (hn : n ≤ 65535) {s : System K}
    (hs : N.ReachableWith .precomputeOnly (fun _ => none) s) :
    ∀ key ∈ N.keys, (s key.id).status = .running
      ∧ (s key.id).protocol.getPrecomputations = .err .wrongState := by
  intro key hkey
  obtain ⟨group, init, -, -, -, hinit, hnew⟩ :=
    exists_fresh .precomputeOnly hkeys hparties hn (by decide)
  have hquiet := quiet_of_reachableWith hnew
    (fun id => ⟨(hinit id).1, (hinit id).2.2.2.1⟩) hs key hkey
  exact ⟨hquiet.status, hquiet.waiting.getPrecomputations⟩

theorem not_precomputationModes
    (hkeys : Frost.generateKeys N.E (K.ecp .ed25519) k n keyRng = .ok N.keys)
    (hparties : 3 * (k - 1) + 1 ≤ n) (hn : n ≤ 65535) : ¬ N.PrecomputationModes := by
  intro hmodes
  obtain ⟨-, -, key, hkey, -⟩ := exists_panicked hkeys hparties hn
  obtain ⟨s, hs, lists, hlists, -⟩ := hmodes.completes
  have hwrong := (wrongState_of_reachableWith hkeys hparties hn hs key hkey).2
  rw [hlists key hkey] at hwrong
  cases hwrong

variable (N) in
/-- For all dealt keys and all messages: nodes that only precompute never get their precomputations,
under no schedule, and nodes that are to sign at once can be brought to panic with their own
messages. -/
theorem precomputation_modes_fail
    (hkeys : Frost.generateKeys N.E (K.ecp .ed25519) k n keyRng = .ok N.keys)
    (hparties : 3 * (k - 1) + 1 ≤ n) (hn : n ≤ 65535) :
    ¬ N.PrecomputationModes
      ∧ (∀ s, N.ReachableWith .precomputeOnly (fun _ => none) s → ∀ key ∈ N.keys,
        (s key.id).status = .running
        ∧ (s key.id).protocol.getPrecomputations = .err .wrongState)
      ∧ ∃ s, N.ReachableWith .precomputation (fun _ => none) s
        ∧ ∃ key ∈ N.keys, (s key.id).status = .panicked :=
  ⟨not_precomputationModes hkeys hparties hn,
    fun _ hs => wrongState_of_reachableWith hkeys hparties hn hs, exists_panicked hkeys hparties hn⟩

/-- The party that signs alone gets its precomputed commitments back and panics. -/
theorem precomputation_modes_fail_seven :
    ∃ s, seven.ReachableWith .precomputation (fun _ => none) s ∧ (s 1).status = .panicked := by
  obtain ⟨-, -, s, hs, key, hkey, hstatus⟩ := precomputation_modes_fail seven (k := 1) (n := 1)
    generateKeys_frostSeven (by decide) (by decide)
  obtain rfl := List.mem_singleton.mp hkey
  exact ⟨s, hs, hstatus⟩

/-- It never gets its precomputations either. -/
theorem precomputations_withheld_seven :
    (∃ s, seven.StartedWith .precomputeOnly (fun _ => none) s)
      ∧ (∀ s, seven.ReachableWith .precomputeOnly (fun _ => none) s →
        (s 1).protocol.getPrecomputations = .err .wrongState)
      ∧ ¬ seven.PrecomputationModes := by
  refine ⟨⟨fun id => Execution.start (seven.protocol id) (seven.rng id)
    { frostSeven with options := .precomputeOnly }, fun key hkey => ?_⟩, fun s hs => ?_, ?_⟩
  · obtain rfl := List.mem_singleton.mp hkey
    exact ⟨_, rfl, rfl⟩
  · exact (wrongState_of_reachableWith (N := seven) (k := 1) (n := 1) generateKeys_frostSeven
      (by decide) (by decide) hs frostKeySeven (List.mem_singleton.mpr rfl)).2
  · exact not_precomputationModes (N := seven) (k := 1) (n := 1) generateKeys_frostSeven
      (by decide) (by decide)

end FrostNetwork

end QuorumCrypt
