import QuorumCrypt.Protocols.Frost

/-!
# What a FROST node signs

Commitments and shares are filed under ids of signers only, and a share whose commitment is missing
is noted as not verified, so `finalize` is only called with one commitment and one share for every
signer. That the shares are good does not follow: `update` throws the answer of `verify_share` away
unless it is an `Err`, a share may have been checked when commitments were still missing, and the id
of the message need not be the id of what it holds. When the filed shares pass the check against all
commitments, the signature is valid.
-/

namespace QuorumCrypt

open Rust

namespace FrostProtocol

variable {K : Curves} {c : Curve} {E : Primitives} {hash : FrostHashes} {orders : FrostOrders K}

/-- What does not change in a run without precomputation, and where things are filed. -/
structure Filed (init state : FrostProtocol K c) : Prop where
  key : state.key = init.key
  msg : state.msg = init.msg
  options : state.options = .noPrecomputation
  signerGroup : state.signerGroup = init.signerGroup
  commitments : ∀ id ∈ state.commitmentList, id ∈ init.signerGroup.signerIdentifiers
  shares : ∀ id ∈ state.shares, id ∈ init.signerGroup.signerIdentifiers
  covered : ∀ id ∈ state.shares, id ∈ state.commitmentList ∨ id ∈ state.notVerifiedShares

section Preserved

variable {init self self' : FrostProtocol K c}

theorem Filed.update (h : Filed init self) {message : FrostMessage K}
    (hupdate : update hash orders self message = .ok self') : Filed init self' := by
  obtain ⟨hkey, hmsg, hoptions, hgroup, hcommitments, hshares, hcovered⟩ := h
  cases updated_of_update hupdate with
  | ignored _ => exact ⟨hkey, hmsg, hoptions, hgroup, hcommitments, hshares, hcovered⟩
  | committed commitment hdata hsigner hnew hnone =>
      refine ⟨hkey, hmsg, hoptions, hgroup,
        HashMap.forall_mem_insert (hgroup ▸ hsigner) hcommitments, hshares, fun id hid => ?_⟩
      exact (hcovered id hid).imp_left (HashMap.mem_insert_of_mem commitment)
  | overtaken commitment share valid hdata hsigner hnew hshare hverify =>
      refine ⟨hkey, hmsg, hoptions, hgroup,
        HashMap.forall_mem_insert (hgroup ▸ hsigner) hcommitments,
        HashMap.forall_mem_insert (hgroup ▸ hsigner) hshares, fun id hid => ?_⟩
      by_cases heq : id = message.id
      · exact .inl (AList.mem_insert _ |>.mpr (.inl heq))
      · have hid : id ∈ self.shares := (AList.mem_insert _ |>.mp hid).resolve_left heq
        exact (hcovered id hid).imp (HashMap.mem_insert_of_mem commitment)
          fun hid => Finset.mem_erase.mpr ⟨heq, hid⟩
  | early share hdata hsigner hnew hnone =>
      refine ⟨hkey, hmsg, hoptions, hgroup, hcommitments,
        HashMap.forall_mem_insert (hgroup ▸ hsigner) hshares,
        HashMap.forall_mem_insert (.inr (Finset.mem_insert_self _ _)) fun id hid => ?_⟩
      exact (hcovered id hid).imp_right fun hid => Finset.mem_insert_of_mem hid
  | shared share valid hdata hsigner hnew hcommitted hverify =>
      exact ⟨hkey, hmsg, hoptions, hgroup, hcommitments,
        HashMap.forall_mem_insert (hgroup ▸ hsigner) hshares,
        HashMap.forall_mem_insert (.inl hcommitted) hcovered⟩
  | precomputed commitment _ _ hdata hlast hprecomputation hsigner =>
      rw [hoptions] at hprecomputation
      cases hprecomputation

/-- A round keeps what is filed, the second one when all commitments are there. -/
theorem Filed.doRound (h : Filed init self) {drawn : ℕ → Bytes × Bytes} {message : FrostMessage K}
    (hready : self.round = 1 → ∀ id ∈ self.signerGroup.signerIdentifiers, id ∈ self.commitmentList)
    (hround : doRound hash orders self drawn = .ok (message, self')) : Filed init self' := by
  obtain ⟨-, hdone⟩ := roundDone_of_doRound h.options hround
  obtain ⟨hkey, hmsg, hoptions, hgroup, hcommitments, hshares, hcovered⟩ := h
  generalize message.data = data at hdone
  cases hdone with
  | committed comm nonce hzero hsigner hcommit =>
      refine ⟨hkey, hmsg, hoptions, hgroup,
        HashMap.forall_mem_insert (hgroup ▸ hsigner) hcommitments, hshares, fun id hid => ?_⟩
      exact (hcovered id hid).imp_left (HashMap.mem_insert_of_mem _)
  | signed nonce share R hone hsigner hnew hnonce hsign =>
      exact ⟨hkey, hmsg, hoptions, hgroup, hcommitments,
        HashMap.forall_mem_insert (hgroup ▸ hsigner) hshares,
        HashMap.forall_mem_insert (.inl (hready hone _ hsigner)) hcovered⟩
  | idle _ => exact ⟨hkey, hmsg, hoptions, hgroup, hcommitments, hshares, hcovered⟩

theorem mem_of_isReadyForNextRound (hready : self.isReadyForNextRound = true)
    (hround : self.round = 1) :
    ∀ id ∈ self.signerGroup.signerIdentifiers, id ∈ self.commitmentList := by
  have hpresent : self.allPresent self.commitmentList = true := by
    have hboth := hready
    simp only [isReadyForNextRound, hround, Bool.and_eq_true] at hboth
    exact hboth.2
  simpa [allPresent] using hpresent

theorem preserves_filed (init : FrostProtocol K c) :
    Execution.Preserves (protocol E hash orders c) (Filed init) where
  update h hupdate := h.update hupdate
  doRound h hready hround := h.doRound (mem_of_isReadyForNextRound hready) hround
  finalize h hfinalize := by
    obtain ⟨sig, -, heq⟩ := Outcome.bind_eq_ok.mp hfinalize
    obtain ⟨-, rfl⟩ := Prod.mk.inj (Outcome.ok.inj heq)
    exact ⟨h.key, h.msg, h.options, h.signerGroup, h.commitments, h.shares, h.covered⟩

end Preserved

/-- With everything filed and ready, there is one commitment and one share for every signer. -/
theorem Filed.keys_perm {init self : FrostProtocol K c} (h : Filed init self)
    (hready : self.isReadyToFinalize = true)
    (hnodup : init.signerGroup.signerIdentifiers.Nodup) :
    self.shares.len = init.key.pubkey.k.toNat
      ∧ self.shares.keys.Perm init.signerGroup.signerIdentifiers
      ∧ self.commitmentList.keys.Perm init.signerGroup.signerIdentifiers := by
  simp only [isReadyToFinalize, Bool.and_eq_true, decide_eq_true_eq, allPresent, List.all_eq_true,
    h.signerGroup] at hready
  obtain ⟨⟨hlen, hverified⟩, hall⟩ := hready
  rw [threshold, h.key] at hlen
  refine ⟨hlen, HashMap.keys_perm_of_mem_iff hnodup fun id => ⟨h.shares id, hall id⟩,
    HashMap.keys_perm_of_mem_iff hnodup fun id => ⟨h.commitments id, fun hid => ?_⟩⟩
  refine (h.covered id (hall id hid)).resolve_right ?_
  rw [hverified]
  exact Finset.notMem_empty id

variable (hash orders) in
/-- Everything is filed under its own id, and every share passes the check against all commitments. -/
structure Checked (state : FrostProtocol K c) : Prop where
  commitments : ∀ id commitment, state.commitmentList.lookup id = some commitment →
    commitment.id = id
  shares : ∀ id share, state.shares.lookup id = some share →
    share.share.id = id ∧ verifyShare hash orders state share = .ok true

/-- All commitments and shares of a checked state are on Ed25519. -/
theorem Checked.exists_lists {self : FrostProtocol K .ed25519} (h : Checked hash orders self)
    (hne : self.shares.len ≠ 0) :
    ∃ (cs : List (PublicCommitment (K.Point .ed25519))) (shares : List FrostSignatureShare),
      self.commitments orders = cs.map (Sigma.mk .ed25519)
      ∧ self.shares.values orders.shares = shares.map (CurveShare.mk .ed25519)
      ∧ ∀ s ∈ shares, Frost.verifyShare (K.ecp .ed25519) hash s self.key.pubkey self.msg cs
        = .ok true := by
  have hverify : ∀ share ∈ self.shares.values orders.shares, share.curve = .ed25519
      ∧ ∃ cs, self.commitments orders = cs.map (Sigma.mk .ed25519)
        ∧ Frost.verifyShare (K.ecp .ed25519) hash share.share self.key.pubkey self.msg cs
          = .ok true := by
    intro share hshare
    obtain ⟨id, hid⟩ := HashMap.mem_values.mp hshare
    obtain ⟨-, hcurve, cs, hcs, haccept⟩ := Frost.verifyShareOn_eq_ok_true hash
      (Outcome.mapErr_eq_ok.mp (h.shares id share hid).2)
    exact ⟨hcurve, cs, hcs, haccept⟩
  obtain ⟨first, hfirst⟩ : ∃ first, first ∈ self.shares.values orders.shares := by
    refine List.exists_mem_of_length_pos ?_
    rw [HashMap.length_values]
    omega
  obtain ⟨-, cs, hcs, -⟩ := hverify first hfirst
  refine ⟨cs, (self.shares.values orders.shares).map CurveShare.share, hcs, ?_, ?_⟩
  · rw [List.map_map]
    refine (List.map_id' _).symm.trans (List.map_congr_left fun share hshare => ?_)
    rw [Function.comp_apply, ← (hverify share hshare).1]
  · intro s hs
    obtain ⟨share, hshare, rfl⟩ := List.mem_map.mp hs
    obtain ⟨-, cs', hcs', haccept⟩ := hverify share hshare
    rw [hcs] at hcs'
    rwa [List.map_injective_iff.mpr sigma_mk_injective hcs']

/-- The signature of a checked state is valid. -/
theorem Checked.verify_signature {k n : ℕ} {keyRng : ℕ → ℕ} {init self : FrostProtocol K .ed25519}
    (hchecked : Checked hash orders self) (hfiled : Filed init self)
    (hready : self.isReadyToFinalize = true)
    (hnodup : init.signerGroup.signerIdentifiers.Nodup)
    (hpubkey : init.key.pubkey = Frost.publicKey E (K.ecp .ed25519) k n keyRng) (hk : 1 ≤ k)
    (hkmax : k ≤ 65535) (hn : n < (K.ecp .ed25519).order) {sig : FrostSignature (K.Point .ed25519)}
    (hsig : signature hash orders self = .ok sig) :
    Frost.verify (K.ecp .ed25519) hash sig init.key.pubkey init.msg = true := by
  obtain ⟨hlen, hsharekeys, hcommitmentkeys⟩ := hfiled.keys_perm hready hnodup
  have hthreshold : init.key.pubkey.k.toNat = k := by
    rw [hpubkey]
    exact toNat_ofNat_of_le hkmax
  obtain ⟨cs, shares, hcs, hshares, haccept⟩ := hchecked.exists_lists (by omega)
  rw [hfiled.key, hfiled.msg] at haccept
  have hcsids : (cs.map PublicCommitment.id).Perm self.commitmentList.keys := by
    rw [← map_id_map_mk, ← hcs, FrostProtocol.commitments]
    simpa using HashMap.map_values_perm (f := CurveCommitment.id) (g := fun id => id)
      orders.commitments hchecked.commitments
  have hshareids : (shares.map FrostSignatureShare.id).Perm self.shares.keys := by
    have hids := HashMap.map_values_perm (f := fun s : CurveShare => s.share.id)
      (g := fun id => id) orders.shares fun id share hid => (hchecked.shares id share hid).1
    rw [hshares, List.map_map, List.map_id'] at hids
    exact hids
  have hlength : shares.length = init.key.pubkey.k.toNat := by
    rw [← hlen, ← HashMap.length_values orders.shares, hshares, List.length_map]
  obtain ⟨sig', hassemble, hvalid⟩ := Frost.verify_of_verifyShare hk hn hpubkey
    (hcsids.nodup_iff.mpr self.commitmentList.keys_nodup)
    (hshareids.trans (hsharekeys.trans (hcsids.trans hcommitmentkeys).symm)) hlength (by omega) haccept
  rw [signature, hcs, hshares, hfiled.key, hfiled.msg, Frost.getGroupCommitmentOn_map,
    liftScheme_ok, Outcome.ok_bind, Frost.assembleOn_map] at hsig
  have heq : sig = sig' := Outcome.ok.inj ((liftScheme_eq_ok.mp hsig).symm.trans hassemble)
  rw [heq, hvalid]

/-- What `new` returns for a FROST key and no precomputation. -/
theorem new_eq_ok {draws : SignerDraws} {key : FrostPrivateKey (K.Point c)} {msg label : Bytes}
    {options : FrostOptions} {init : FrostProtocol K c}
    (h : new draws (.frost c key) msg label options none = .ok ⟨c, init⟩) :
    SignerGroup.new draws key.pubkey.k msg = .ok init.signerGroup
      ∧ init = { round := 0, key, label, msg, nonce := none, commitment := none, commitmentList := ∅
                 precomputationList := [], groupCommitment := none, shares := ∅
                 notVerifiedShares := ∅, finished := false, options
                 signerGroup := init.signerGroup } := by
  obtain ⟨group, hgroup, heq⟩ := Outcome.bind_eq_ok.mp h
  obtain rfl := eq_of_heq (Sigma.mk.inj (Outcome.ok.inj heq)).2
  exact ⟨hgroup, rfl⟩

/-- At the start nothing is filed. -/
theorem filed_init {draws : SignerDraws} {key : FrostPrivateKey (K.Point c)} {msg label : Bytes}
    {init : FrostProtocol K c}
    (h : new draws (.frost c key) msg label .noPrecomputation none = .ok ⟨c, init⟩) :
    Filed init init := by
  obtain ⟨-, hinit⟩ := new_eq_ok h
  refine ⟨rfl, rfl, by rw [hinit], rfl, ?_, ?_, ?_⟩ <;>
  · rw [hinit]
    exact fun id hid => absurd hid (AList.notMem_empty id)

/-- In every run `finalize` is only called on states in which everything is filed. -/
theorem filed_of_mem_finalized {draws : SignerDraws} {key : FrostPrivateKey (K.Point c)}
    {msg label : Bytes} {init : FrostProtocol K c}
    (h : new draws (.frost c key) msg label .noPrecomputation none = .ok ⟨c, init⟩)
    {rng : ℕ → ℕ → Bytes × Bytes} {messages : List (FrostMessage K)} {self : FrostProtocol K c}
    (hself : self ∈ (Execution.run (protocol E hash orders c) rng init messages).finalized) :
    Filed init self ∧ self.isReadyToFinalize = true := by
  have hfiled := filed_init h
  have hround : init.round = 0 := by
    rw [(new_eq_ok h).2]
  refine ((preserves_filed init).run hfiled ?_ messages).2 self hself
  intro message self' hdone
  exact hfiled.doRound (by simp [hround]) hdone

end FrostProtocol

open FrostProtocol in
/-- Whatever messages a node gets, in whatever order: when every share it has filed at the end passes
`verify_share` against all commitments it has filed, and everything is filed under its own id, then
the signature that `finalize` returns is valid. -/
theorem finalize_valid_of_checked (K : Curves) (E : Primitives) (hash : FrostHashes)
    (orders : FrostOrders K) (draws : SignerDraws) (rng : ℕ → ℕ → Bytes × Bytes) {k n : ℕ}
    {keyRng : ℕ → ℕ} {keys : List (FrostPrivateKey (K.Point .ed25519))}
    (hkeys : Frost.generateKeys E (K.ecp .ed25519) k n keyRng = .ok keys) (hk : k ≤ 65535)
    (hn : n < (K.ecp .ed25519).order) {key : FrostPrivateKey (K.Point .ed25519)}
    (hkey : key ∈ keys) {msg label : Bytes} {init : FrostProtocol K .ed25519}
    (hnew : FrostProtocol.new draws (.frost .ed25519 key) msg label .noPrecomputation none
      = .ok ⟨.ed25519, init⟩) (messages : List (FrostMessage K)) :
    ∀ self ∈ (Execution.run (protocol E hash orders .ed25519) rng init messages).finalized,
      Checked hash orders self → ∀ result self', finalize E hash orders self = .ok (result, self') →
      ∃ sig, result = (Signature.frost .ed25519 sig).toBytes E
        ∧ Frost.verify (K.ecp .ed25519) hash sig key.pubkey msg = true := by
  intro self hself hchecked result self' hfinalize
  obtain ⟨hgroup, hinit⟩ := new_eq_ok hnew
  obtain ⟨hfiled, hready⟩ := filed_of_mem_finalized hnew hself
  obtain ⟨hnodup, -, -⟩ := SignerGroup.of_new hgroup
  obtain ⟨sig, hsig, heq⟩ := Outcome.bind_eq_ok.mp hfinalize
  obtain ⟨rfl, -⟩ := Prod.mk.inj (Outcome.ok.inj heq)
  have hpubkey := Frost.pubkey_of_mem hkeys hkey
  have hinitkey : init.key = key := by rw [hinit]
  have hinitmsg : init.msg = msg := by rw [hinit]
  have hvalid := hchecked.verify_signature hfiled hready hnodup (hinitkey ▸ hpubkey)
    (Frost.generateKeys_eq_ok.mp hkeys).1 hk hn hsig
  rw [hinitkey, hinitmsg] at hvalid
  exact ⟨sig, rfl, hvalid⟩

/-! ### A node that signs with a forged share -/

/-- The key of the only party of a dealing over the residues modulo seven. -/
def frostKeySeven : FrostPrivateKey (Curves.seven.Point .ed25519) where
  id := 1
  x := 1
  pubkey := Frost.publicKey .truncating (Curves.seven.ecp .ed25519) 1 1 fun i => i + 1

/-- The protocol of this party, on the empty message. -/
def frostSeven : FrostProtocol Curves.seven .ed25519 where
  round := 0
  key := frostKeySeven
  label := []
  msg := []
  nonce := none
  commitment := none
  commitmentList := ∅
  precomputationList := []
  groupCommitment := none
  shares := ∅
  notVerifiedShares := ∅
  finished := false
  options := .noPrecomputation
  signerGroup := ⟨[1]⟩

/-- The commitment of the party, when the hash functions return one. -/
def frostCommitmentSeven : CurveCommitment Curves.seven :=
  ⟨.ed25519, 1, (Curves.seven.ecp .ed25519).generator, (Curves.seven.ecp .ed25519).generator⟩

/-- A share with the given data, under the id of the party. -/
def frostShareSeven (data : ℕ) : FrostMessage Curves.seven := ⟨1, .share ⟨.ed25519, 1, data⟩⟩

/-- The state in which the node finalizes after it got the share. -/
def frostSignedSeven (data : ℕ) : FrostProtocol Curves.seven .ed25519 :=
  { frostSeven with
    round := 1
    nonce := some ⟨1, 1⟩
    commitment := some frostCommitmentSeven
    commitmentList := AList.singleton 1 frostCommitmentSeven
    shares := AList.singleton 1 ⟨.ed25519, 1, data⟩ }

def frostRunSeven (data : ℕ) :
    Execution (FrostProtocol Curves.seven .ed25519) (FrostMessage Curves.seven) :=
  Execution.run (FrostProtocol.protocol .truncating .ones (.latest _) .ed25519)
    (fun _ _ => ([], [])) frostSeven [frostShareSeven data]

/-! Four parties with threshold two. The seeded generator makes the first two sign. -/

/-- The key of one of the four. -/
def frostKeyOfSeven (id : UInt16) : FrostPrivateKey (Curves.seven.Point .ed25519) where
  id
  x := dealtShare (Curves.seven.ecp .ed25519).order 2 (fun i => i + 1) id
  pubkey := Frost.publicKey .truncating (Curves.seven.ecp .ed25519) 2 4 fun i => i + 1

def frostKeysSeven : List (FrostPrivateKey (Curves.seven.Point .ed25519)) :=
  [1, 2, 3, 4].map frostKeyOfSeven

/-- The protocol of one of the four, on the empty message. -/
def frostOfSeven (id : UInt16) : FrostProtocol Curves.seven .ed25519 :=
  { frostSeven with key := frostKeyOfSeven id, signerGroup := ⟨[2, 1]⟩ }

/-- A commitment with the given id. -/
def frostCommitmentOfSeven (id : UInt16) : CurveCommitment Curves.seven :=
  ⟨.ed25519, id, (Curves.seven.ecp .ed25519).generator, (Curves.seven.ecp .ed25519).generator⟩

/-- The first party gets the commitment and the share of the second. -/
def frostPairSignedSeven :
    Execution (FrostProtocol Curves.seven .ed25519) (FrostMessage Curves.seven) :=
  Execution.run (FrostProtocol.protocol .truncating .ones (.latest _) .ed25519) (fun _ _ => ([], []))
    (frostOfSeven 1)
    [⟨2, .commitment (frostCommitmentOfSeven 2)⟩, ⟨2, .share ⟨.ed25519, 2, 4⟩⟩]

theorem generateKeys_frostKeysSeven :
    Frost.generateKeys .truncating (Curves.seven.ecp .ed25519) 2 4 (fun i => i + 1)
      = .ok frostKeysSeven := by decide +kernel

theorem new_frostOfSeven (id : UInt16) :
    FrostProtocol.new .counting (.frost .ed25519 (frostKeyOfSeven id)) [] [] .noPrecomputation none
      = .ok ⟨.ed25519, frostOfSeven id⟩ := rfl

theorem generateKeys_frostSeven :
    Frost.generateKeys .truncating (Curves.seven.ecp .ed25519) 1 1 (fun i => i + 1)
      = .ok [frostKeySeven] := by decide +kernel

theorem new_frostSeven :
    FrostProtocol.new .counting (.frost .ed25519 frostKeySeven) [] [] .noPrecomputation none
      = .ok ⟨.ed25519, frostSeven⟩ := rfl

/-- The checks, entry by entry. -/
theorem FrostProtocol.checked_of_entries {K : Curves} {c : Curve} {hash : FrostHashes}
    {orders : FrostOrders K} {state : FrostProtocol K c}
    (hcommitments : ∀ e ∈ state.commitmentList.entries, CurveCommitment.id e.2 = e.1)
    (hshares : ∀ e ∈ state.shares.entries, e.2.share.id = e.1
      ∧ verifyShare hash orders state e.2 = .ok true) : Checked hash orders state where
  commitments id commitment h := hcommitments ⟨id, commitment⟩ (AList.mem_lookup_iff.mp h)
  shares id share h := hshares ⟨id, share⟩ (AList.mem_lookup_iff.mp h)

/-- With two commitments and the shares that belong to them the node returns a valid signature. -/
theorem finalize_valid_of_checked_seven :
    ∃ sig, frostPairSignedSeven.status = .finished ((Signature.frost .ed25519 sig).toBytes .truncating)
      ∧ Frost.verify (Curves.seven.ecp .ed25519) .ones sig (frostKeyOfSeven 1).pubkey [] = true := by
  let state := frostPairSignedSeven.finalized.head (by decide +kernel)
  have hchecked : FrostProtocol.Checked .ones (.latest _) state :=
    FrostProtocol.checked_of_entries (by decide +kernel) (by decide +kernel)
  let sig : FrostSignature (Curves.seven.Point .ed25519) := ⟨Multiplicative.ofAdd (4 : ZMod 7), 5⟩
  have hsig : FrostProtocol.signature .ones (.latest _) state = .ok sig := by decide +kernel
  have hfinalize : FrostProtocol.finalize .truncating .ones (.latest _) state
      = .ok ((Signature.frost .ed25519 sig).toBytes .truncating, { state with finished := true }) := by
    rw [FrostProtocol.finalize, hsig]
    rfl
  obtain ⟨sig', hresult, hvalid⟩ := finalize_valid_of_checked Curves.seven .truncating .ones
    (.latest _) .counting (fun _ _ => ([], [])) generateKeys_frostKeysSeven (by decide) (by decide)
    List.mem_cons_self (new_frostOfSeven 1) _ state (List.head_mem _) hchecked _ _ hfinalize
  refine ⟨sig', ?_, hvalid⟩
  rw [← hresult]
  decide +kernel

/-- The only signer gets a share with its own id and wrong data before it has signed: it stores the
share, is ready, and returns a signature that is not valid. -/
theorem forged_share_signed_seven :
    Frost.generateKeys .truncating (Curves.seven.ecp .ed25519) 1 1 (fun i => i + 1)
        = .ok [frostKeySeven]
      ∧ FrostProtocol.new .counting (.frost .ed25519 frostKeySeven) [] [] .noPrecomputation none
        = .ok ⟨.ed25519, frostSeven⟩
      ∧ ∃ self ∈ (frostRunSeven 0).finalized, ∃ sig,
        FrostProtocol.signature .ones (.latest _) self = .ok sig
        ∧ (frostRunSeven 0).status
          = .finished ((Signature.frost (K := Curves.seven) .ed25519 sig).toBytes .truncating)
        ∧ Frost.verify (Curves.seven.ecp .ed25519) .ones sig frostKeySeven.pubkey [] = false :=
  ⟨generateKeys_frostSeven, new_frostSeven, frostSignedSeven 0, List.mem_singleton.mpr rfl, _, rfl, rfl,
    by decide +kernel⟩

end QuorumCrypt
