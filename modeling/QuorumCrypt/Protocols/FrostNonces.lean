import QuorumCrypt.Protocols.FrostSafety

/-!
# The nonce of a FROST node

A node that reveals two shares made with one nonce reveals its key. The nonce is drawn together with
the commitment in the first round and handed to `partial_sign` in the second, so what stands between
the key and whoever sends the messages is the round counter, and the rule that the first commitment
filed under an id stays.
-/

namespace QuorumCrypt

open Rust

namespace FrostProtocol

variable {K : Curves} {c : Curve} {E : Primitives} {hash : FrostHashes} {orders : FrostOrders K}
  {init self self' : FrostProtocol K c} {drawn : ℕ → Bytes × Bytes}

/-- The nonce with which `do_round` calls `partial_sign`, if it does. -/
def signingNonce (self : FrostProtocol K c) : Option Nonce :=
  if self.round = 1 ∧ self.contains self.key.id ∧ self.key.id ∉ self.shares then self.nonce else none

theorem of_signingNonce_eq_some {nonce : Nonce} (h : self.signingNonce = some nonce) :
    self.round = 1 ∧ self.nonce = some nonce := by
  unfold signingNonce at h
  split at h
  · rename_i hcond
    exact ⟨hcond.1, h⟩
  · cases h

/-- The calls of `partial_sign` in an execution, with the nonce and the state of each. -/
def signings (e : Execution (FrostProtocol K c) (FrostMessage K)) :
    List (Nonce × FrostProtocol K c) :=
  e.roundStates.filterMap fun self => self.signingNonce.map fun nonce => (nonce, self)

theorem mem_signings {e : Execution (FrostProtocol K c) (FrostMessage K)} {nonce : Nonce} :
    (nonce, self) ∈ signings e ↔ self ∈ e.roundStates ∧ self.signingNonce = some nonce := by
  rw [signings, List.mem_filterMap]
  constructor
  · intro h
    obtain ⟨state, hstate, hmap⟩ := h
    obtain ⟨nonce', hnonce, heq⟩ := Option.map_eq_some_iff.mp hmap
    obtain ⟨rfl, rfl⟩ := Prod.mk.inj heq
    exact ⟨hstate, hnonce⟩
  · intro h
    obtain ⟨hstate, hnonce⟩ := h
    exact ⟨self, hstate, by rw [hnonce, Option.map_some]⟩

/-- Only the second round signs, and the rounds of a run are done in order. -/
theorem length_signings_le_one {e : Execution (FrostProtocol K c) (FrostMessage K)}
    (h : e.InOrder FrostProtocol.round) : (signings e).length ≤ 1 := by
  have hpairwise : (signings e).Pairwise fun p q => p.2.round < q.2.round := by
    refine List.Pairwise.filterMap _ ?_ h.pairwise
    intro s s' hlt p hp q hq
    obtain ⟨nonce, -, rfl⟩ := Option.map_eq_some_iff.mp hp
    obtain ⟨nonce', -, rfl⟩ := Option.map_eq_some_iff.mp hq
    exact hlt
  have hone : ∀ p ∈ signings e, p.2.round = 1 := by
    intro p hp
    exact (of_signingNonce_eq_some (mem_signings.mp hp).2).1
  generalize signings e = list at hpairwise hone
  match list with
  | [] => exact Nat.zero_le 1
  | [p] => exact le_rfl
  | p :: q :: rest =>
      have hlt : p.2.round < q.2.round := List.rel_of_pairwise_cons hpairwise List.mem_cons_self
      have hp := hone p List.mem_cons_self
      have hq := hone q (List.mem_cons_of_mem _ List.mem_cons_self)
      omega

variable (hash init drawn) in
/-- From the first round on: a nonce is that of the commitment the node has filed under its own id. -/
structure Paired (state : FrostProtocol K c) : Prop where
  filed : Filed init state
  round : 1 ≤ state.round
  own : ∀ nonce, state.nonce = some nonce →
    ∃ comm, Frost.commitOn hash init.key (drawn 0) = .ok (comm, nonce)
      ∧ state.commitmentList.lookup init.key.id = some ⟨c, comm⟩

theorem Paired.update (h : Paired hash init drawn self) {message : FrostMessage K}
    (hupdate : update hash orders self message = .ok self') : Paired hash init drawn self' := by
  refine ⟨h.filed.update hupdate, (round_update hupdate).symm ▸ h.round, ?_⟩
  have hkept : message.id ∉ self.commitmentList → ∀ commitment nonce, self.nonce = some nonce →
      ∃ comm, Frost.commitOn hash init.key (drawn 0) = .ok (comm, nonce)
        ∧ (self.commitmentList.insert message.id commitment).lookup init.key.id
          = some ⟨c, comm⟩ := by
    intro hnew commitment nonce hnonce
    obtain ⟨comm, hcommit, hlookup⟩ := h.own nonce hnonce
    refine ⟨comm, hcommit, ?_⟩
    have hmem : init.key.id ∈ self.commitmentList :=
      AList.lookup_isSome.mp (by rw [hlookup]; rfl)
    have hne : init.key.id ≠ message.id := by
      intro heq
      exact hnew (heq ▸ hmem)
    rwa [AList.lookup_insert_ne hne]
  cases updated_of_update hupdate with
  | ignored _ => exact h.own
  | committed commitment hdata hsigner hnew hnone => exact hkept hnew commitment
  | overtaken commitment share valid hdata hsigner hnew hshare hverify =>
      exact hkept hnew commitment
  | early share hdata hsigner hnew hnone => exact h.own
  | shared share valid hdata hsigner hnew hcommitted hverify => exact h.own
  | precomputed commitment _ _ hdata hlast hprecomputation hsigner =>
      rw [h.filed.options] at hprecomputation
      cases hprecomputation

theorem Paired.doRound (h : Paired hash init drawn self) (hready : self.isReadyForNextRound = true)
    {drawn' : ℕ → Bytes × Bytes} {message : FrostMessage K}
    (hround : doRound hash orders self drawn' = .ok (message, self')) :
    Paired hash init drawn self' := by
  have hfiled := h.filed.doRound (mem_of_isReadyForNextRound hready) hround
  have hnext := round_doRound hround
  obtain ⟨-, hdone⟩ := roundDone_of_doRound h.filed.options hround
  refine ⟨hfiled, by omega, ?_⟩
  have hpositive := h.round
  generalize message.data = data at hdone
  cases hdone with
  | committed comm nonce hzero hsigner hcommit => omega
  | signed nonce share R hone hsigner hnew hnonce hsign => exact h.own
  | idle _ => exact h.own

theorem preserves_paired :
    Execution.Preserves (protocol E hash orders c) (Paired hash init drawn) where
  update h hupdate := h.update hupdate
  doRound h hready hround := h.doRound hready hround
  finalize h hfinalize := by
    have hfiled := (preserves_filed init).finalize h.filed hfinalize
    obtain ⟨sig, -, heq⟩ := Outcome.bind_eq_ok.mp hfinalize
    obtain ⟨-, rfl⟩ := Prod.mk.inj (Outcome.ok.inj heq)
    exact ⟨hfiled, h.round, h.own⟩

/-- The first round draws the nonce and files the commitment. -/
theorem paired_of_doRound (hfiled : Filed init init) (hzero : init.round = 0)
    (hnone : init.nonce = none) {message : FrostMessage K}
    (hround : FrostProtocol.doRound hash orders init drawn = .ok (message, self)) :
    Paired hash init drawn self := by
  have hnext := round_doRound hround
  refine ⟨hfiled.doRound (by simp [hzero]) hround, by omega, ?_⟩
  obtain ⟨-, hdone⟩ := roundDone_of_doRound hfiled.options hround
  generalize message.data = data at hdone
  cases hdone with
  | committed comm nonce hzero hsigner hcommit =>
      intro nonce' hnonce
      obtain rfl := Option.some.inj hnonce
      exact ⟨comm, hcommit, AList.lookup_insert _⟩
  | signed nonce share R hone hsigner hnew hnonce hsign => omega
  | idle _ =>
      intro nonce hnonce
      rw [hnone] at hnonce
      cases hnonce

end FrostProtocol

open FrostProtocol in
/-- Whatever messages arrive, a node that precomputes nothing hands its nonce to `partial_sign` at
most once, and then it has one commitment for every signer and its own is the one that was drawn with
the nonce. -/
theorem nonce_signs_once (K : Curves) (E : Primitives) (hash : FrostHashes) (orders : FrostOrders K)
    (draws : SignerDraws) (rng : ℕ → ℕ → Bytes × Bytes) {c : Curve}
    {key : FrostPrivateKey (K.Point c)} {msg label : Bytes} {init : FrostProtocol K c}
    (hnew : FrostProtocol.new draws (.frost c key) msg label .noPrecomputation none = .ok ⟨c, init⟩)
    (messages : List (FrostMessage K)) :
    (signings (Execution.run (protocol E hash orders c) rng init messages)).length ≤ 1
      ∧ ∀ nonce self,
        (nonce, self) ∈ signings (Execution.run (protocol E hash orders c) rng init messages) →
        (∀ id, id ∈ self.commitmentList ↔ id ∈ init.signerGroup.signerIdentifiers)
        ∧ ∃ comm, Frost.commitOn hash key (rng 0 0) = .ok (comm, nonce)
          ∧ self.commitmentList.lookup key.id = some ⟨c, comm⟩ := by
  have horder : (Execution.run (protocol E hash orders c) rng init messages).InOrder
      FrostProtocol.round := by
    refine Execution.inOrder_run rng (fun s m s' h => round_update h) (fun s d m s' h => ?_) init messages
    rw [round_doRound h]
    exact Nat.lt_succ_self _
  refine ⟨length_signings_le_one horder, fun nonce self hmem => ?_⟩
  obtain ⟨hstate, hsigns⟩ := mem_signings.mp hmem
  obtain ⟨hone, hnonce⟩ := of_signingNonce_eq_some hsigns
  obtain ⟨-, hinit⟩ := new_eq_ok hnew
  have hzero : init.round = 0 := by rw [hinit]
  have hnone : init.nonce = none := by rw [hinit]
  have hkey : init.key = key := by rw [hinit]
  have hpaired : ∀ m s', FrostProtocol.doRound hash orders init (rng 0) = .ok (m, s') →
      Paired hash init (rng 0) s' := by
    intro m s' hround
    exact paired_of_doRound (filed_init hnew) hzero hnone hround
  have hpreserves : Execution.Preserves (protocol E hash orders c) (Paired hash init (rng 0)) :=
    preserves_paired
  have hmessages : ∀ m ∈ messages, True := fun _ _ => trivial
  rcases hpreserves.preservesOn.of_mem_roundStates hpaired hmessages hstate with rfl | ⟨hinv, hready⟩
  · omega
  obtain ⟨comm, hcommit, hlookup⟩ := hinv.own nonce hnonce
  rw [hkey] at hcommit hlookup
  refine ⟨fun id => ⟨hinv.filed.commitments id, fun hid => ?_⟩, comm, hcommit, hlookup⟩
  exact mem_of_isReadyForNextRound hready hone id (hinv.filed.signerGroup ▸ hid)

/-- The only signer gets its own commitment back and signs. -/
def frostSigningSeven : Execution (FrostProtocol Curves.seven .ed25519) (FrostMessage Curves.seven) :=
  Execution.run (FrostProtocol.protocol .truncating .ones (.latest _) .ed25519)
    (fun _ _ => ([], [])) frostSeven [⟨1, .commitment frostCommitmentSeven⟩]

theorem nonce_signs_once_seven :
    ∃ nonce self, (nonce, self) ∈ FrostProtocol.signings frostSigningSeven
      ∧ (FrostProtocol.signings frostSigningSeven).length ≤ 1
      ∧ ∃ comm, Frost.commitOn .ones frostKeySeven ([], []) = .ok (comm, nonce)
        ∧ self.commitmentList.lookup 1 = some ⟨.ed25519, comm⟩ := by
  have hmem : (⟨1, 1⟩, { frostSignedSeven 0 with shares := ∅ })
      ∈ FrostProtocol.signings frostSigningSeven := List.mem_singleton.mpr rfl
  obtain ⟨honce, hsigned⟩ := nonce_signs_once Curves.seven .truncating .ones (.latest _) .counting
    (fun _ _ => ([], [])) new_frostSeven [⟨1, .commitment frostCommitmentSeven⟩]
  obtain ⟨-, comm, hcommit, hlookup⟩ := hsigned _ _ hmem
  exact ⟨_, _, hmem, honce, comm, hcommit, hlookup⟩

end QuorumCrypt
