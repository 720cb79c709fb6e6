import QuorumCrypt.Orchestration.Robustness

/-!
# Which payloads the FROST protocol withstands

The checks that `update` makes return `Err` or panic on a commitment or a share that does not fit, and
what it does not check makes a later call return `Err` or panic: the ids inside the commitments, and
the curves.
-/

namespace QuorumCrypt

open Rust

namespace Frost

variable {K : Curves} {c : Curve}

theorem exists_commitmentsOn_iff {list : List (CurveCommitment K)} :
    (∃ cs, commitmentsOn c list = .ok cs) ↔ ∀ commitment ∈ list, commitment.1 = c := by
  constructor
  · rintro ⟨cs, hcs⟩ commitment hmem
    rw [commitmentsOn_eq_ok.mp hcs] at hmem
    obtain ⟨p, -, rfl⟩ := List.mem_map.mp hmem
    rfl
  · intro h
    have hmap : ∃ cs : List (PublicCommitment (K.Point c)), list = cs.map (Sigma.mk c) := by
      induction list with
      | nil => exact ⟨[], rfl⟩
      | cons commitment list ih =>
          obtain ⟨c', p⟩ := commitment
          obtain rfl : c' = c := h _ List.mem_cons_self
          obtain ⟨cs, rfl⟩ := ih fun commitment hmem => h commitment (List.mem_cons_of_mem _ hmem)
          exact ⟨p :: cs, rfl⟩
    obtain ⟨cs, hcs⟩ := hmap
    exact ⟨cs, commitmentsOn_eq_ok.mpr hcs⟩

theorem exists_verificationKeyAt_iff {α : Type} {verificationKey : List α} {id : UInt16} :
    (∃ vk, verificationKeyAt verificationKey id = .ok vk)
      ↔ 1 ≤ id.toNat ∧ id.toNat ≤ verificationKey.length := by
  unfold verificationKeyAt
  split
  · rename_i hzero
    simp [hzero]
  · rename_i hzero
    have hpos : id.toNat ≠ 0 := fun heq => hzero (UInt16.toNat_inj.mp heq)
    constructor
    · rintro ⟨vk, hvk⟩
      obtain ⟨hlt, -⟩ := List.getElem?_eq_some_iff.mp (Outcome.index_eq_ok.mp hvk)
      omega
    · rintro ⟨-, hle⟩
      exact ⟨_, Outcome.index_eq_ok.mpr (List.getElem?_eq_getElem (by omega))⟩

/-- `verify_share` returns an answer when everything is on Ed25519, some commitment has the id of the
share, and there is a party with that id. -/
theorem exists_verifyShareOn_iff {hash : FrostHashes} {share : CurveShare}
    {pubkey : FrostPublicKey (K.Point c)} {msg : Bytes} {list : List (CurveCommitment K)} :
    (∃ valid, verifyShareOn hash share pubkey msg list = .ok valid)
      ↔ c = .ed25519 ∧ share.curve = c ∧ (∀ commitment ∈ list, commitment.1 = c)
        ∧ share.share.id ∈ list.map CurveCommitment.id
        ∧ 1 ≤ share.share.id.toNat ∧ share.share.id.toNat ≤ pubkey.h.length := by
  unfold verifyShareOn
  by_cases hid : share.share.id ∈ list.map CurveCommitment.id
  · rw [if_neg (not_not.mpr hid)]
    constructor
    · rintro ⟨valid, hvalid⟩
      obtain ⟨hash', hhash, hrest⟩ := Outcome.bind_eq_ok.mp hvalid
      obtain ⟨cs, hcs, hverify⟩ := Outcome.bind_eq_ok.mp hrest
      by_cases hcurve : share.curve = c
      · rw [if_pos hcurve] at hverify
        obtain ⟨commitment, hcommitment, -⟩ := Outcome.bind_eq_ok.mp hverify
        rw [verifyShare_eq hcommitment] at hverify
        obtain ⟨vk, hvk, -⟩ := Outcome.bind_eq_ok.mp hverify
        exact ⟨(hashesOf_eq_ok hhash).1, hcurve, exists_commitmentsOn_iff.mp ⟨cs, hcs⟩, hid,
          exists_verificationKeyAt_iff.mp ⟨vk, hvk⟩⟩
      · rw [if_neg hcurve] at hverify
        cases hverify
    · rintro ⟨rfl, hcurve, hlist, -, hparty⟩
      obtain ⟨cs, hcs⟩ := exists_commitmentsOn_iff.mpr hlist
      obtain ⟨vk, hvk⟩ := exists_verificationKeyAt_iff.mpr hparty
      rw [commitmentsOn_eq_ok.mp hcs, map_id_map_mk] at hid
      rcases commitmentForParticipant_cases cs share.share.id with ⟨p, -, -, hp⟩ | ⟨hnot, -⟩
      · rw [hashesOf_ed25519, Outcome.ok_bind, hcs, Outcome.ok_bind, if_pos hcurve, verifyShare_eq hp,
          hvk]
        exact ⟨_, rfl⟩
      · exact absurd hid hnot
  · rw [if_pos hid]
    simp [hid]

end Frost

namespace FrostProtocol

variable {K : Curves} {c : Curve} (E : Primitives) (hash : FrostHashes) (orders : FrostOrders K)

/-- All commitments the node has are on its curve. -/
def OnCurve (self : FrostProtocol K c) : Prop :=
  ∀ id commitment, self.commitmentList.lookup id = some commitment → commitment.1 = c

/-- Some commitment of the node carries this id. -/
def Names (self : FrostProtocol K c) (id : UInt16) : Prop :=
  ∃ key commitment, self.commitmentList.lookup key = some commitment ∧ commitment.2.id = id

/-- `verify_share` has an answer for the share. -/
def Checkable (self : FrostProtocol K c) (share : CurveShare) : Prop :=
  c = .ed25519 ∧ share.curve = c ∧ self.OnCurve ∧ self.Names share.share.id
    ∧ 1 ≤ share.share.id.toNat ∧ share.share.id.toNat ≤ self.key.pubkey.h.length

/-- The state after the message is filed. -/
def filed (self : FrostProtocol K c) (message : FrostMessage K) : FrostProtocol K c :=
  match message.data with
  | .commitment commitment =>
      if self.options ≠ .precomputeOnly ∧ self.contains message.id
          ∧ message.id ∉ self.commitmentList then
        let self := { self with
          commitmentList := self.commitmentList.insert message.id commitment }
        match self.shares.lookup message.id with
        | none => self
        | some share =>
            { self with
              shares := self.shares.insert message.id share
              notVerifiedShares := self.notVerifiedShares.erase message.id }
      else self
  | .share share =>
      if self.contains message.id ∧ message.id ∉ self.shares then
        if message.id ∉ self.commitmentList then
          { self with
            notVerifiedShares := insert message.id self.notVerifiedShares
            shares := self.shares.insert message.id share }
        else { self with shares := self.shares.insert message.id share }
      else self
  | .precomputation precomputations =>
      match precomputations.getLast? with
      | none => self
      | some comm =>
          if self.contains message.id then
            if self.options = .precomputation then
              { self with
                commitmentList := self.commitmentList.insert message.id comm }.insertPrecomputations
                  message.id precomputations.dropLast
            else self.insertPrecomputations message.id precomputations
          else self
  | .default => self

/-- The message is not refused: it is not the default one, not an empty precomputation, and the share
that it makes the node check can be checked. -/
def Admits (self : FrostProtocol K c) (message : FrostMessage K) : Prop :=
  match message.data with
  | .commitment commitment =>
      self.options ≠ .precomputeOnly ∧ self.contains message.id
          ∧ message.id ∉ self.commitmentList →
        ∀ share, self.shares.lookup message.id = some share →
          { self with
            commitmentList := self.commitmentList.insert message.id commitment }.Checkable share
  | .share share =>
      self.contains message.id ∧ message.id ∉ self.shares → message.id ∈ self.commitmentList →
        self.Checkable share
  | .precomputation precomputations => precomputations ≠ []
  | .default => False

/-- What the node does next cannot fail: when it signs, it has a nonce, all commitments are on its
curve, and one of them carries its id; when it finalizes, all commitments and shares are on its
curve. -/
def GoesOn (self : FrostProtocol K c) : Prop :=
  (self.isReadyToFinalize = true → c = .ed25519 ∧ self.OnCurve
    ∧ ∀ id share, self.shares.lookup id = some share → share.curve = c)
  ∧ (self.isReadyToFinalize = false → self.isReadyForNextRound = true → self.round = 1
    ∧ (self.contains self.key.id ∧ self.key.id ∉ self.shares →
      self.nonce ≠ none ∧ c = .ed25519 ∧ self.OnCurve ∧ self.Names self.key.id))

/-- A message of no use: the default one, an empty precomputation, one from another curve or with
another id inside than outside, and a share that `verify_share` does not accept when the commitment of
its signer is there. -/
def Unusable (self : FrostProtocol K c) (message : FrostMessage K) : Prop :=
  match message.data with
  | .commitment commitment => commitment.1 ≠ c ∨ commitment.2.id ≠ message.id
  | .share share => share.curve ≠ c ∨ share.share.id ≠ message.id
      ∨ (message.id ∈ self.commitmentList ∧ verifyShare hash orders self share ≠ .ok true)
  | .precomputation precomputations => precomputations = []
      ∨ ∃ commitment ∈ precomputations, commitment.1 ≠ c ∨ commitment.2.id ≠ message.id
  | .default => True

/-- A payload that does no harm. One that is of no use must be ignored while nothing is due. -/
def Welcome (fromStr : String → Outcome Unit (FrostMessage K)) (self : FrostProtocol K c)
    (payload : Bytes) : Prop :=
  ∃ message, unwrapPayload fromStr payload = .ok message
    ∧ self.Admits message ∧ (self.filed message).GoesOn
    ∧ (Unusable hash orders self message → self.isReadyToFinalize = false
      ∧ self.isReadyForNextRound = false ∧ self.filed message = self)

/-- A message that comes from outside the signer group, or under an id that already has an entry of
its kind. A node that precomputes only ignores all commitments. A precomputation is filed for every
signer, so under the id of one it may only insert what is there. -/
def Ignores (self : FrostProtocol K c) (message : FrostMessage K) : Prop :=
  match message.data with
  | .commitment _ => self.options = .precomputeOnly ∨ self.contains message.id = false
      ∨ message.id ∈ self.commitmentList
  | .share _ => self.contains message.id = false ∨ message.id ∈ self.shares
  | .precomputation precomputations => self.contains message.id = false
      ∨ ∀ comm, precomputations.getLast? = some comm →
        if self.options = .precomputation then
          self.commitmentList.insert message.id comm = self.commitmentList
            ∧ self.insertPrecomputations message.id precomputations.dropLast = self
        else self.insertPrecomputations message.id precomputations = self
  | .default => True

variable {E hash orders} {self self' : FrostProtocol K c} {message : FrostMessage K}

variable (orders) in
theorem forall_commitments_iff :
    (∀ commitment ∈ self.commitments orders, commitment.1 = c) ↔ self.OnCurve := by
  unfold commitments OnCurve
  constructor
  · intro h id commitment hlookup
    exact h commitment (HashMap.mem_values.mpr ⟨id, hlookup⟩)
  · intro h commitment hmem
    obtain ⟨id, hlookup⟩ := HashMap.mem_values.mp hmem
    exact h id commitment hlookup

variable (orders) in
theorem mem_map_commitments_iff {id : UInt16} :
    id ∈ (self.commitments orders).map CurveCommitment.id ↔ self.Names id := by
  rw [List.mem_map]
  constructor
  · rintro ⟨commitment, hmem, hid⟩
    obtain ⟨key, hlookup⟩ := HashMap.mem_values.mp hmem
    exact ⟨key, commitment, hlookup, hid⟩
  · rintro ⟨key, commitment, hlookup, hid⟩
    exact ⟨commitment, HashMap.mem_values.mpr ⟨key, hlookup⟩, hid⟩

variable (hash orders) in
theorem exists_verifyShare_iff {share : CurveShare} :
    (∃ valid, verifyShare hash orders self share = .ok valid) ↔ self.Checkable share := by
  simp only [verifyShare, Outcome.mapErr_eq_ok]
  rw [Frost.exists_verifyShareOn_iff, forall_commitments_iff orders,
    mem_map_commitments_iff orders, Checkable]

/-- A delivery returns `Ok` when the message is admitted, and then it is filed. -/
theorem update_eq_ok_iff :
    update hash orders self message = .ok self' ↔ self.Admits message ∧ self' = self.filed message := by
  have hverify : ∀ (state : FrostProtocol K c) (share : CurveShare) (next : FrostProtocol K c),
      (do let _ ← verifyShare hash orders state share
          (.ok next : ProtocolOutcome (FrostProtocol K c))) = .ok self'
        ↔ state.Checkable share ∧ self' = next := by
    intro state share next
    rw [Outcome.bind_eq_ok, ← exists_verifyShare_iff hash orders]
    simp only [Outcome.ok.injEq, exists_and_right, eq_comm]
  have hreturn : ∀ state : FrostProtocol K c,
      (.ok state : ProtocolOutcome (FrostProtocol K c)) = .ok self' ↔ self' = state := by
    intro state
    rw [Outcome.ok.injEq, eq_comm]
  unfold update Admits filed
  cases hdata : message.data with
  | commitment commitment =>
      dsimp only
      unfold updateCommitment
      by_cases hoptions : self.options = .precomputeOnly
      · simp [hoptions, hreturn]
      by_cases hcond : self.contains message.id = true ∧ message.id ∉ self.commitmentList
      · rw [if_neg hoptions, if_pos hcond, if_pos ⟨hoptions, hcond⟩]
        dsimp only
        cases hshare : self.shares.lookup message.id with
        | none => simp [hreturn]
        | some share =>
            dsimp only
            rw [hverify]
            simp [hoptions, hcond]
      · rw [if_neg hoptions, if_neg hcond, if_neg fun h => hcond h.2, hreturn, iff_and_self]
        exact fun _ h => absurd h.2 hcond
  | share share =>
      dsimp only
      unfold updateShare
      by_cases hcond : self.contains message.id = true ∧ message.id ∉ self.shares
      · rw [if_pos hcond, if_pos hcond]
        by_cases hcommitted : message.id ∈ self.commitmentList
        · rw [if_neg (not_not.mpr hcommitted), if_neg (not_not.mpr hcommitted), hverify]
          simp [hcond, hcommitted]
        · rw [if_pos hcommitted, if_pos hcommitted]
          simp [hcommitted, hreturn]
      · rw [if_neg hcond, if_neg hcond, hreturn, iff_and_self]
        exact fun _ h => absurd h hcond
  | precomputation precomputations =>
      dsimp only
      unfold updatePrecomputation
      cases hlast : precomputations.getLast? with
      | none =>
          rw [List.getLast?_eq_none_iff] at hlast
          simp [hlast]
      | some comm =>
          have hne : precomputations ≠ [] := by
            rintro rfl
            cases hlast
          dsimp only
          split
          · split <;> simp [hne, hreturn]
          · simp [hne, hreturn]
  | default => simp

theorem insert_ne_of_notMem {α : Type} {list : AList fun _ : UInt16 => α} {id : UInt16} (value : α)
    (h : id ∉ list) : list.insert id value ≠ list := by
  intro heq
  rw [← heq] at h
  exact h ((AList.mem_insert _).mpr (.inl rfl))

/-- Exactly the ignored messages leave the node as it is. -/
theorem filed_eq_self_iff : self.filed message = self ↔ self.Ignores message := by
  unfold filed Ignores
  cases message.data with
  | commitment commitment =>
      dsimp only
      constructor
      · intro h
        by_contra hfresh
        push Not at hfresh
        obtain ⟨hoptions, hcontains, hnew⟩ := hfresh
        rw [if_pos ⟨hoptions, by simpa using hcontains, hnew⟩] at h
        apply insert_ne_of_notMem commitment hnew
        have hlist := congrArg commitmentList h
        split at hlist <;> exact hlist
      · intro h
        rw [if_neg]
        rintro ⟨hoptions, hcontains, hnew⟩
        rcases h with h | h | h
        · exact hoptions h
        · rw [h] at hcontains
          cases hcontains
        · exact hnew h
  | share share =>
      dsimp only
      constructor
      · intro h
        by_contra hfresh
        push Not at hfresh
        obtain ⟨hcontains, hnew⟩ := hfresh
        rw [if_pos ⟨by simpa using hcontains, hnew⟩] at h
        apply insert_ne_of_notMem share hnew
        have hlist := congrArg shares h
        split at hlist <;> exact hlist
      · intro h
        rw [if_neg]
        rintro ⟨hcontains, hnew⟩
        rcases h with h | h
        · rw [h] at hcontains
          cases hcontains
        · exact hnew h
  | precomputation precomputations =>
      dsimp only
      cases hlast : precomputations.getLast? with
      | none => simp
      | some comm =>
          simp only [Option.some.injEq, forall_eq']
          by_cases hcontains : self.contains message.id = true
          · rw [if_pos hcontains, or_iff_right (by simp [hcontains])]
            split
            · constructor
              · intro h
                have hlist : self.commitmentList.insert message.id comm = self.commitmentList :=
                  congrArg commitmentList h
                rw [hlist] at h
                exact ⟨hlist, h⟩
              · rintro ⟨hlist, h⟩
                rwa [hlist]
            · rfl
          · rw [if_neg hcontains]
            exact iff_of_true rfl (.inl (by simpa using hcontains))
  | default => exact iff_of_true rfl trivial

/-- A welcome payload of no use is one that the node ignores, while nothing is due. -/
theorem welcome_iff_ignores {fromStr : String → Outcome Unit (FrostMessage K)} {payload : Bytes} :
    self.Welcome hash orders fromStr payload ↔ ∃ message, unwrapPayload fromStr payload = .ok message
      ∧ self.Admits message ∧ (self.filed message).GoesOn
      ∧ (Unusable hash orders self message → self.isReadyToFinalize = false
        ∧ self.isReadyForNextRound = false ∧ self.Ignores message) := by
  simp only [Welcome, filed_eq_self_iff]

theorem exists_finalize_iff (hready : self.isReadyToFinalize = true) :
    (∃ value, finalize E hash orders self = .ok value)
      ↔ c = .ed25519 ∧ self.OnCurve
        ∧ ∀ id share, self.shares.lookup id = some share → share.curve = c := by
  have hlength : (self.shares.values orders.shares).length = self.key.pubkey.k.toNat := by
    rw [HashMap.length_values]
    simp only [isReadyToFinalize, Bool.and_eq_true, decide_eq_true_eq] at hready
    exact hready.1.1
  have hshares : (∀ share ∈ self.shares.values orders.shares, share.curve = c)
      ↔ ∀ id share, self.shares.lookup id = some share → share.curve = c := by
    constructor
    · intro h id share hlookup
      exact h share (HashMap.mem_values.mpr ⟨id, hlookup⟩)
    · intro h share hmem
      obtain ⟨id, hlookup⟩ := HashMap.mem_values.mp hmem
      exact h id share hlookup
  constructor
  · rintro ⟨value, hvalue⟩
    obtain ⟨sig, hsig, -⟩ := Outcome.bind_eq_ok.mp hvalue
    obtain ⟨R, hR, hassemble⟩ := Outcome.bind_eq_ok.mp hsig
    rw [liftScheme_eq_ok] at hR hassemble
    obtain ⟨hash', hhash, hrest⟩ := Outcome.bind_eq_ok.mp hR
    obtain ⟨cs, hcs, -⟩ := Outcome.bind_eq_ok.mp hrest
    refine ⟨(hashesOf_eq_ok hhash).1, (forall_commitments_iff orders).mp
      (Frost.exists_commitmentsOn_iff.mp ⟨cs, hcs⟩), hshares.mp ?_⟩
    unfold Frost.assembleOn at hassemble
    split at hassemble
    · rename_i hcurve
      rwa [List.take_of_length_le hlength.le] at hcurve
    · cases hassemble
  · rintro ⟨rfl, hcurve, hlookup⟩
    obtain ⟨cs, hcs⟩ := Frost.exists_commitmentsOn_iff.mpr ((forall_commitments_iff orders).mpr hcurve)
    have hR : Frost.getGroupCommitmentOn hash (cs.map (Sigma.mk .ed25519)) self.msg self.key
        = .ok (Frost.groupCommitment (K.ecp .ed25519) hash self.key.pubkey cs self.msg) :=
      Frost.getGroupCommitmentOn_map hash cs
    have hall : ∀ share ∈ (self.shares.values orders.shares).take self.key.pubkey.k.toNat,
        share.curve = .ed25519 := by
      rw [List.take_of_length_le hlength.le]
      exact hshares.mpr hlookup
    rw [finalize, signature, commitmentsOn_eq_ok.mp hcs, hR, liftScheme_ok, Outcome.ok_bind,
      Frost.assembleOn, if_pos hall, Frost.assemble, if_neg (by rw [List.length_map]; omega)]
    exact ⟨_, rfl⟩

/-- A round that is due returns `Ok` when the node has nothing to sign, or can sign. -/
theorem exists_doRound_iff (hready : self.isReadyForNextRound = true) (drawn : ℕ → Bytes × Bytes) :
    (∃ value, doRound hash orders self drawn = .ok value)
      ↔ self.round = 1 ∧ (self.contains self.key.id ∧ self.key.id ∉ self.shares →
        self.nonce ≠ none ∧ c = .ed25519 ∧ self.OnCurve ∧ self.Names self.key.id) := by
  by_cases hround : self.round = 1
  · have hone : (∃ value, doRound hash orders self drawn = .ok value)
        ↔ ∃ value, doRoundOne hash orders self = .ok value := by
      unfold doRound
      rw [hround]
      dsimp only
      constructor
      · rintro ⟨value, hvalue⟩
        obtain ⟨done, hdone, -⟩ := Outcome.bind_eq_ok.mp hvalue
        exact ⟨done, hdone⟩
      · rintro ⟨done, hdone⟩
        exact ⟨_, Outcome.bind_eq_ok.mpr ⟨done, hdone, rfl⟩⟩
    rw [hone, and_iff_right hround]
    unfold doRoundOne
    by_cases hcond : self.contains self.key.id = true ∧ self.key.id ∉ self.shares
    · rw [if_pos hcond]
      constructor
      · rintro ⟨value, hvalue⟩ -
        obtain ⟨nonce, hnonce, hsigned⟩ := Outcome.bind_eq_ok.mp hvalue
        obtain ⟨signed, hsign, -⟩ := Outcome.bind_eq_ok.mp hsigned
        rw [liftScheme_eq_ok] at hsign
        obtain ⟨hash', hhash, hrest⟩ := Outcome.bind_eq_ok.mp hsign
        split at hrest
        · cases hrest
        · rename_i hid
          obtain ⟨cs, hcs, -⟩ := Outcome.bind_eq_ok.mp hrest
          refine ⟨?_, (hashesOf_eq_ok hhash).1, (forall_commitments_iff orders).mp
            (Frost.exists_commitmentsOn_iff.mp ⟨cs, hcs⟩),
            (mem_map_commitments_iff orders).mp (not_not.mp hid)⟩
          rw [Outcome.unwrap_eq_ok.mp hnonce]
          simp
      · intro h
        obtain ⟨hnonce, rfl, hcurve, hnames⟩ := h hcond
        obtain ⟨nonce, hnonce⟩ := Option.ne_none_iff_exists'.mp hnonce
        obtain ⟨cs, hcs⟩ := Frost.exists_commitmentsOn_iff.mpr
          ((forall_commitments_iff orders).mpr hcurve)
        have hid := (mem_map_commitments_iff orders).mpr hnames
        rw [commitmentsOn_eq_ok.mp hcs, map_id_map_mk] at hid
        rw [hnonce, Outcome.unwrap_some, Outcome.ok_bind, commitmentsOn_eq_ok.mp hcs,
          Frost.partialSignOn_map hash cs hid, Frost.partialSign_eq hid]
        exact ⟨_, rfl⟩
    · rw [if_neg hcond]
      exact iff_of_true ⟨_, rfl⟩ fun h => absurd h hcond
  · -- the node has done both rounds
    have htwo : self.round = 2 := by
      unfold isReadyForNextRound at hready
      split at hready
      · exact absurd ‹_› hround
      · assumption
      · cases hready
    simp [doRound, htwo]

/-- A round is counted. -/
theorem round_of_doRound {drawn : ℕ → Bytes × Bytes} (hready : self.isReadyForNextRound = true)
    (h : doRound hash orders self drawn = .ok (message, self')) : self'.round = self.round + 1 := by
  have hok : ∃ value, doRound hash orders self drawn = .ok value := ⟨_, h⟩
  have hround := ((exists_doRound_iff hready drawn).mp hok).1
  unfold doRound at h
  rw [hround] at h
  obtain ⟨⟨data, next⟩, hdone, heq⟩ := Outcome.bind_eq_ok.mp h
  obtain ⟨-, rfl⟩ := Prod.mk.inj (Outcome.ok.inj heq)
  unfold doRoundOne at hdone
  split at hdone
  · obtain ⟨nonce, -, hsigned⟩ := Outcome.bind_eq_ok.mp hdone
    obtain ⟨signed, -, hnext⟩ := Outcome.bind_eq_ok.mp hsigned
    obtain ⟨-, rfl⟩ := Prod.mk.inj (Outcome.ok.inj hnext)
    rfl
  · obtain ⟨-, rfl⟩ := Prod.mk.inj (Outcome.ok.inj hdone)
    rfl

/-- A message does not change the round. -/
theorem round_filed : (self.filed message).round = self.round := by
  unfold filed
  split
  · split
    · dsimp only
      split <;> rfl
    · rfl
  · split
    · split <;> rfl
    · rfl
  · split
    · rfl
    · split
      · split <;> rfl
      · rfl
  · rfl

/-- In every state, a payload is withstood exactly when it is welcome. -/
theorem withstands_iff_welcome {rng : ℕ → ℕ → Bytes × Bytes}
    {fromStr : String → Outcome Unit (FrostMessage K)}
    {e : Execution (FrostProtocol K c) (FrostMessage K)} (hrunning : e.status = .running)
    (payload : Bytes) :
    Execution.Withstands (protocol E hash orders c) rng fromStr (Unusable hash orders) e payload
      ↔ e.protocol.Welcome hash orders fromStr payload := by
  rw [Execution.withstands_iff hrunning]
  · unfold Welcome
    refine exists_congr fun message => ?_
    constructor
    · rintro ⟨s, hunwrap, hupdate, hfinalize, hround, hunusable⟩
      obtain ⟨hadmits, rfl⟩ := update_eq_ok_iff.mp hupdate
      refine ⟨hunwrap, hadmits, ⟨fun hready => ?_, fun hready hnext => ?_⟩, fun h => ?_⟩
      · exact (exists_finalize_iff hready).mp (hfinalize hready)
      · exact (exists_doRound_iff hnext _).mp (hround hready hnext)
      · obtain ⟨hready, hnext, hsame⟩ := hunusable h
        rw [hsame] at hready hnext
        exact ⟨hready, hnext, hsame⟩
    · rintro ⟨hunwrap, hadmits, ⟨hfinalize, hround⟩, hunusable⟩
      refine ⟨_, hunwrap, update_eq_ok_iff.mpr ⟨hadmits, rfl⟩, fun hready => ?_, fun hready hnext => ?_,
        fun h => ?_⟩
      · exact (exists_finalize_iff hready).mpr (hfinalize hready)
      · exact (exists_doRound_iff hnext _).mpr (hround hready hnext)
      · obtain ⟨hready, hnext, hsame⟩ := hunusable h
        rw [hsame]
        exact ⟨hready, hnext, rfl⟩
  · rintro s d m s' hnext hcall message hupdate rfl
    have hround := round_of_doRound hnext hcall
    rw [(update_eq_ok_iff.mp hupdate).2, round_filed] at hround
    omega

end FrostProtocol

/-- In each of the four protocols, in every state of every run and for every payload, the executor
withstands the payload if and only if it is welcome; and a run all of whose payloads are welcome goes
on or ends with a result. -/
theorem payload_withstood_iff_welcome {K : Curves} (E : Primitives) (hash : FrostHashes)
    (orders : FrostOrders K) :
    (∀ (privateKey : PrivateKeyShare K) (ciphertext : Ciphertext K) (rng : ℕ → Drawn)
        (fromStr : String → Outcome Unit (ShareMessage (DecryptionShare K))),
      let P := ThresholdCipherProtocol E privateKey ciphertext
      Execution.WithstandsExactly P.protocol rng fromStr P.Unusable (P.Welcome fromStr)
        (ShareState.new _))
    ∧ (∀ (privateKey : PrivateKeyShare K) (message : Option Bytes) (label : Bytes) (rng : ℕ → Drawn)
        (fromStr : String → Outcome Unit (ShareMessage (SignatureShare K))),
      let P := ThresholdSignatureProtocol E privateKey message label
      Execution.WithstandsExactly P.protocol rng fromStr P.Unusable (P.Welcome fromStr)
        (ShareState.new _))
    ∧ (∀ (privateKey : PrivateKeyShare K) (name : Bytes) (rng : ℕ → Drawn)
        (fromStr : String → Outcome Unit (ShareMessage (CoinShare K))),
      let P := ThresholdCoinProtocol E privateKey name
      Execution.WithstandsExactly P.protocol rng fromStr P.Unusable (P.Welcome fromStr)
        (ShareState.new _))
    ∧ ∀ (c : Curve) (init : FrostProtocol K c) (rng : ℕ → ℕ → Bytes × Bytes)
        (fromStr : String → Outcome Unit (FrostMessage K)),
      Execution.WithstandsExactly (FrostProtocol.protocol E hash orders c) rng fromStr
        (FrostProtocol.Unusable hash orders) (FrostProtocol.Welcome hash orders fromStr) init := by
  refine ⟨?_, ?_, ?_, ?_⟩
  · intro privateKey ciphertext rng fromStr
    exact .of_iff fun past payload h => ShareRound.withstands_iff_welcome rng past payload h
  · intro privateKey message label rng fromStr
    exact .of_iff fun past payload h => ShareRound.withstands_iff_welcome rng past payload h
  · intro privateKey name rng fromStr
    exact .of_iff fun past payload h => ShareRound.withstands_iff_welcome rng past payload h
  · intro c init rng fromStr
    exact .of_iff fun past payload h => FrostProtocol.withstands_iff_welcome h payload

/-- A decoder that reads the share of the second party from every text. -/
def decodeShareSeven (_ : String) : Outcome Unit (ShareMessage (SignatureShare Curves.seven)) :=
  .ok (.share bls04ShareSeven)

/-- A decoder that reads the commitment of the second signer from the empty text, and from every other
one its share. -/
def decodeFrostSeven (text : String) : Outcome Unit (FrostMessage Curves.seven) :=
  .ok (if text = "" then ⟨2, .commitment (frostCommitmentOfSeven 2)⟩
    else ⟨2, .share ⟨.ed25519, 2, 4⟩⟩)

/-- The first of the signers after these payloads. -/
def frostPayloadsSeven (payloads : List Bytes) :
    Execution (FrostProtocol Curves.seven .ed25519) (FrostMessage Curves.seven) :=
  Execution.runPayloads (FrostProtocol.protocol .truncating .ones (.latest _) .ed25519)
    (fun _ _ => ([], [])) decodeFrostSeven (frostOfSeven 1) payloads

namespace FrostProtocol

theorem onCurve_of_entries {K : Curves} {c : Curve} {self : FrostProtocol K c}
    (h : ∀ e ∈ self.commitmentList.entries, Sigma.fst e.2 = c) : self.OnCurve :=
  fun id commitment hlookup => h ⟨id, commitment⟩ (AList.mem_lookup_iff.mp hlookup)

/-- The commitment of the second signer makes the first one sign. -/
theorem welcome_commitmentSeven : (frostPayloadsSeven []).protocol.Welcome .ones (.latest _)
    decodeFrostSeven [] := by
  let filed := (frostPayloadsSeven []).protocol.filed ⟨2, .commitment (frostCommitmentOfSeven 2)⟩
  have hfinalize : filed.isReadyToFinalize = false := by decide +kernel
  have hcurve : filed.OnCurve := onCurve_of_entries (by decide +kernel)
  have hnonce : filed.nonce.isSome = true := by decide +kernel
  refine ⟨⟨2, .commitment (frostCommitmentOfSeven 2)⟩, rfl, ?_, ⟨?_, ?_⟩, ?_⟩
  · rintro - share hshare
    cases hshare
  · intro hready
    rw [hfinalize] at hready
    cases hready
  · rintro - -
    exact ⟨by decide +kernel, fun _ => ⟨Option.isSome_iff_ne_none.mp hnonce, rfl, hcurve,
      1, frostCommitmentOfSeven 1, by decide +kernel, rfl⟩⟩
  · rintro (h | h) <;> exact absurd rfl h

/-- Its share is checked, and the first one assembles the signature. -/
theorem welcome_shareSeven : (frostPayloadsSeven [[]]).protocol.Welcome .ones
    (.latest _) decodeFrostSeven [1] := by
  let state := (frostPayloadsSeven [[]]).protocol
  let filed := state.filed ⟨2, .share ⟨.ed25519, 2, 4⟩⟩
  have hcurve : state.OnCurve := onCurve_of_entries (by decide +kernel)
  have hfiled : filed.OnCurve := onCurve_of_entries (by decide +kernel)
  have hshares : ∀ e ∈ filed.shares.entries, e.2.curve = .ed25519 := by decide +kernel
  have hfinalize : filed.isReadyToFinalize = true := by decide +kernel
  have hvalid : verifyShare .ones (.latest _) state ⟨.ed25519, 2, 4⟩ = .ok true := by decide +kernel
  refine ⟨⟨2, .share ⟨.ed25519, 2, 4⟩⟩, rfl, ?_, ⟨?_, ?_⟩, ?_⟩
  · intro _ _
    exact (exists_verifyShare_iff .ones (.latest _)).mp ⟨true, hvalid⟩
  · intro _
    exact ⟨rfl, hfiled, fun id share h => hshares ⟨id, share⟩ (AList.mem_lookup_iff.mp h)⟩
  · intro hready
    rw [hfinalize] at hready
    cases hready
  · rintro (h | h | ⟨-, h⟩)
    · exact absurd rfl h
    · exact absurd rfl h
    · exact absurd hvalid h

end FrostProtocol

/-- A Bls04 node gets the share of the second party and assembles the signature, and so does a FROST
node that gets the commitment and the share of the second signer. -/
theorem payload_withstood_iff_welcome_seven :
    let P := ThresholdSignatureProtocol .truncating (.bls04 .bn254 (bls04KeySeven 1)) (some []) []
    (Execution.runPayloads P.protocol (fun _ => .counting) decodeShareSeven (ShareState.new _)
      [[]]).Survives
    ∧ (frostPayloadsSeven [[], [1]]).Survives := by
  have hexactly := payload_withstood_iff_welcome .truncating .ones (.latest Curves.seven)
  constructor
  · refine (hexactly.2.1 _ _ _ _ _).2 _ rfl ?_
    intro past payload hextends _
    obtain ⟨rfl, rfl⟩ : past = [] ∧ payload = [] := by
      obtain ⟨rest, hrest⟩ := hextends
      cases past with
      | nil => exact ⟨rfl, by simpa using (List.cons.inj hrest).1⟩
      | cons p past => simp at hrest
    refine ⟨bls04ShareSeven, rfl, ?_⟩
    rw [if_neg (by decide +kernel)]
    exact ⟨by decide +kernel, fun _ => ⟨_, rfl⟩⟩
  · refine (hexactly.2.2.2 _ _ _ _).2 _ rfl ?_
    rintro past payload ⟨rest, hrest⟩ -
    rcases past with - | ⟨first, - | ⟨second, past⟩⟩
    · obtain ⟨rfl, -⟩ := List.cons.inj hrest
      exact FrostProtocol.welcome_commitmentSeven
    · obtain ⟨rfl, hnext⟩ := List.cons.inj hrest
      obtain ⟨rfl, -⟩ := List.cons.inj hnext
      exact FrostProtocol.welcome_shareSeven
    · simp at hrest

/-- A byte that is no UTF-8 makes the executor panic, although the protocol runs. -/
theorem payload_ends_run_seven :
    let P := ThresholdSignatureProtocol .truncating (.bls04 .bn254 (bls04KeySeven 1)) (some []) []
    let e := Execution.runPayloads P.protocol (fun _ => .counting) decodeShareSeven (ShareState.new _) []
    e.status = .running
      ∧ (Execution.onPayload P.protocol (fun _ => .counting) decodeShareSeven e [255]).status = .panicked
      ∧ ¬ Execution.Withstands P.protocol (fun _ => .counting) decodeShareSeven P.Unusable e [255] := by
  intro P e
  have hpanicked : (Execution.onPayload P.protocol (fun _ => .counting) decodeShareSeven e [255]).status
      = .panicked := by decide +kernel
  refine ⟨rfl, hpanicked, ?_⟩
  rintro ⟨hrunning | ⟨result, hresult⟩, -⟩
  · rw [hpanicked] at hrunning
    cases hrunning
  · rw [hpanicked] at hresult
    cases hresult

end QuorumCrypt
