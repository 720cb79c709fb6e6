import QuorumCrypt.Orchestration.Identity

/-!
# Requests and the keys they run with

A request names a scheme and a group, and it may name a key. A key that is named is taken as it is:
`setup_instance` compares neither its scheme nor its group with the request, and the protocol is chosen
by the request alone. The constructor of the FROST protocol panics on a key of another scheme, and a
panic there ends the instance manager. Here is for which keys `start` does what it should.
-/

namespace QuorumCrypt

open Rust

variable {K : Curves}

/-- The key is one of the scheme and the group of the request, and the scheme performs its operation. -/
def StartInstanceRequest.KeyAgrees (request : StartInstanceRequest K) (key : PrivateKeyShare K) : Prop :=
  key.getScheme = request.getScheme ∧ key.getGroup = request.getGroup
    ∧ key.getScheme.getOperation = request.getOperation

/-- A signer group can be drawn for the threshold. -/
def ThresholdFits (k : UInt16) : Prop := k ≠ 0 ∧ 3 * (k.toNat - 1) + 1 ≤ 65535

theorem SignerGroup.exists_new_iff (draws : SignerDraws) (t : UInt16) (msg : Bytes) :
    (∃ group, SignerGroup.new draws t msg = .ok group) ↔ ThresholdFits t := by
  unfold SignerGroup.new ThresholdFits
  split
  · rename_i h
    simp only [reduceCtorEq, exists_false, false_iff, not_and, not_le]
    intro hzero
    exact h.resolve_left hzero
  · rename_i h
    rw [not_or, not_lt] at h
    exact iff_of_true ⟨_, rfl⟩ h

/-- The request is for a signature under FROST. -/
def StartInstanceRequest.RunsFrost : StartInstanceRequest K → Prop
  | signature _ _ scheme _ _ => scheme = .frost
  | _ => False

/-- The protocol of the request can be set up with the key. -/
def StartInstanceRequest.Startable (request : StartInstanceRequest K) (key : PrivateKeyShare K) : Prop :=
  request.RunsFrost → key.getScheme = .frost ∧ ThresholdFits key.getThreshold

namespace InstanceManager

variable (ctx : ManagerContext K)

/-- What `start` should do: return an error and change nothing, or return the id of an instance that
runs with a key that agrees with the request. -/
def StartAgrees (self : InstanceManager K) (request : StartInstanceRequest K)
    (syncResponder : Option Responder) : Prop :=
  match start ctx self request syncResponder with
  | .ok (.ok id, self') => id ∈ self'.instances.instanceData
      ∧ ∃ e, self'.executorOf id = some e ∧ request.KeyAgrees e.protocol.key
  | .ok (.error _, self') => self'.instances = self.instances ∧ self'.backlog = self.backlog
  | .err _ => False
  | .panic => False

/-- The private share that is found for the request, if there is one, agrees with it. For FROST, a
signer group can be drawn. -/
def FoundKeyAgrees (request : StartInstanceRequest K) : Prop :=
  ∀ key, privateKeyFor ctx request = some key → request.KeyAgrees key
    ∧ (request.getScheme = .frost → ThresholdFits key.getThreshold)

/-- The key that a request would run with agrees with it: that of the instance which is there under
its id, and otherwise the one that is found for it. -/
def RightKey (self : InstanceManager K) (request : StartInstanceRequest K) : Prop :=
  if assignInstanceId ctx.hash256 request ∈ self.instances.instanceData then
    ∃ e, self.executorOf (assignInstanceId ctx.hash256 request) = some e
      ∧ request.KeyAgrees e.protocol.key
  else FoundKeyAgrees ctx request

variable {ctx} {self : InstanceManager K} {request : StartInstanceRequest K}

/-- The constructor of the protocol returns exactly for the keys the protocol can be set up with. -/
theorem exists_newProtocol_iff_startable {draws : SignerDraws} {key : PrivateKeyShare K} :
    (∃ protocol, newProtocol draws key request = .ok protocol) ↔ request.Startable key := by
  cases request with
  | decryption ciphertext => exact iff_of_true ⟨_, rfl⟩ fun hfrost => hfrost.elim
  | coin name scheme group keyId => exact iff_of_true ⟨_, rfl⟩ fun hfrost => hfrost.elim
  | signature message label scheme group keyId =>
      by_cases hfrost : scheme = .frost
      · cases key with
        | frost c k =>
            have hgroup := SignerGroup.exists_new_iff draws k.pubkey.k message
            simp only [newProtocol, if_pos hfrost, FrostProtocol.new]
            constructor
            · rintro ⟨protocol, hprotocol⟩ -
              obtain ⟨state, hstate, -⟩ := Outcome.bind_eq_ok.mp hprotocol
              obtain ⟨signers, hsigners, -⟩ := Outcome.bind_eq_ok.mp hstate
              exact ⟨rfl, hgroup.mp ⟨signers, hsigners⟩⟩
            · intro hstartable
              obtain ⟨signers, hsigners⟩ := hgroup.mpr (hstartable hfrost).2
              rw [hsigners]
              exact ⟨_, rfl⟩
        | _ =>
            refine iff_of_false ?_ fun hstartable => by cases (hstartable hfrost).1
            rintro ⟨protocol, hprotocol⟩
            simp [newProtocol, hfrost, FrostProtocol.new] at hprotocol
      · refine iff_of_true ⟨.signature key (some message) label, ?_⟩ fun h => absurd h hfrost
        rw [newProtocol, if_neg hfrost]

/-- For a key that agrees with the request, the constructor returns if there is a signer group. -/
theorem exists_newProtocol_iff {draws : SignerDraws} {key : PrivateKeyShare K}
    (h : request.KeyAgrees key) :
    (∃ protocol, newProtocol draws key request = .ok protocol)
      ↔ (request.getScheme = .frost → ThresholdFits key.getThreshold) := by
  obtain ⟨hscheme, -, hoperation⟩ := h
  rw [exists_newProtocol_iff_startable]
  cases request with
  | decryption ciphertext =>
      refine iff_of_true (fun hfrost => hfrost.elim) fun hfrost => ?_
      cases ciphertext <;> cases hfrost
  | coin name scheme group keyId =>
      refine iff_of_true (fun hfrost => hfrost.elim) fun hfrost => ?_
      rw [hscheme, hfrost] at hoperation
      cases hoperation
  | signature message label scheme group keyId =>
      exact forall_congr' fun hfrost => and_iff_right (hscheme.trans hfrost)

/-- What the instance manager should do with a request that is new and for which there is a key. -/
theorem startAgrees_of_key {key : PrivateKeyShare K}
    (hmem : assignInstanceId ctx.hash256 request ∉ self.instances.instanceData)
    (hkey : privateKeyFor ctx request = some key) (syncResponder : Option Responder) :
    StartAgrees ctx self request syncResponder
      ↔ (∃ protocol, newProtocol ctx.draws key request = .ok protocol) ∧ request.KeyAgrees key := by
  rw [StartAgrees, start_of_key hmem hkey]
  cases hprotocol : newProtocol ctx.draws key request with
  | ok protocol =>
      simp only [Outcome.ok_bind, instances_forwardBackloggedMessages]
      have hexecutor : ((self.launch (assignInstanceId ctx.hash256 request) request protocol
          syncResponder).forwardBackloggedMessages (assignInstanceId ctx.hash256 request)).executorOf
            (assignInstanceId ctx.hash256 request)
          = some ⟨assignInstanceId ctx.hash256 request, request, protocol⟩ := by
        rw [executorOf, spawned_forwardBackloggedMessages]
        exact executorOf_launch _ _ _
      rw [hexecutor, ← key_newProtocol hprotocol]
      constructor
      · rintro ⟨-, e, he, hagrees⟩
        obtain rfl := Option.some.inj he
        exact ⟨⟨protocol, rfl⟩, hagrees⟩
      · rintro ⟨-, hagrees⟩
        exact ⟨mem_insert_self _ _ _, _, rfl, hagrees⟩
  | err error => simp
  | panic => simp

/-- `start` does what it should exactly when the key is right. -/
theorem startAgrees_iff_rightKey (syncResponder : Option Responder) :
    StartAgrees ctx self request syncResponder ↔ RightKey ctx self request := by
  by_cases hmem : assignInstanceId ctx.hash256 request ∈ self.instances.instanceData
  · rw [StartAgrees, start_of_mem hmem, RightKey, if_pos hmem]
    exact and_iff_right hmem
  rw [RightKey, if_neg hmem]
  cases hkey : privateKeyFor ctx request with
  | none =>
      rw [StartAgrees, start_of_key_eq_none hmem hkey]
      refine iff_of_true ⟨rfl, rfl⟩ fun key hsome => ?_
      rw [hkey] at hsome
      cases hsome
  | some key =>
      rw [startAgrees_of_key hmem hkey]
      constructor
      · rintro ⟨hprotocol, hagrees⟩ key' hkey'
        obtain rfl := Option.some.inj (hkey.symm.trans hkey')
        exact ⟨hagrees, (exists_newProtocol_iff hagrees).mp hprotocol⟩
      · intro hfound
        obtain ⟨hagrees, hfits⟩ := hfound key hkey
        exact ⟨(exists_newProtocol_iff hagrees).mpr hfits, hagrees⟩

/-- In a run, the key of an instance is the one that was found for the request that started it. -/
theorem Traced.rightKey {events : List (ManagerEvent K)} (h : Traced ctx events self)
    (hfound : ∀ r ∈ request :: requestsOf events, FoundKeyAgrees ctx r)
    (hsame : ∀ r ∈ requestsOf events,
      assignInstanceId ctx.hash256 r = assignInstanceId ctx.hash256 request →
      r.getScheme = request.getScheme ∧ r.getGroup = request.getGroup
        ∧ r.getOperation = request.getOperation) :
    RightKey ctx self request := by
  unfold RightKey
  split
  · rename_i hmem
    obtain ⟨inst, hinst⟩ := Option.isSome_iff_exists.mp (AList.lookup_isSome.mpr hmem)
    obtain ⟨e, he⟩ := h.exists_executorOf hinst
    obtain ⟨hspawned, hid⟩ := mem_of_executorOf he
    obtain ⟨hassigned, hrequest⟩ := h.spawned e hspawned
    obtain ⟨hscheme, hgroup, hoperation⟩ := hsame e.request hrequest (hassigned.symm.trans hid)
    obtain ⟨hagrees, -⟩ := hfound e.request (List.mem_cons_of_mem _ hrequest) _ (h.key e hspawned)
    refine ⟨e, he, ?_⟩
    rw [StartInstanceRequest.KeyAgrees, ← hscheme, ← hgroup, ← hoperation]
    exact hagrees
  · exact hfound request List.mem_cons_self

end InstanceManager

open InstanceManager in
/-- In every state and for every request, `start` does what it should if and only if the key that the
request would run with agrees with it. In every run in which the keys found for the requests agree with
them, and requests with one id ask for one scheme, group and operation, it does so for every request. -/
theorem start_agrees_iff_key_agrees (ctx : ManagerContext K) :
    (∀ (self : InstanceManager K) (request : StartInstanceRequest K)
        (syncResponder : Option Responder),
      StartAgrees ctx self request syncResponder ↔ RightKey ctx self request)
    ∧ ∀ (events : List (ManagerEvent K)) (self : InstanceManager K)
        (request : StartInstanceRequest K) (syncResponder : Option Responder),
      InstanceManager.run ctx events = .ok self →
      (∀ r ∈ request :: requestsOf events, FoundKeyAgrees ctx r) →
      (∀ r ∈ requestsOf events,
        assignInstanceId ctx.hash256 r = assignInstanceId ctx.hash256 request →
        r.getScheme = request.getScheme ∧ r.getGroup = request.getGroup
          ∧ r.getOperation = request.getOperation) →
      StartAgrees ctx self request syncResponder := by
  refine ⟨fun self request syncResponder => startAgrees_iff_rightKey syncResponder, ?_⟩
  intro events self request syncResponder hrun hfound hsame
  exact (startAgrees_iff_rightKey syncResponder).mpr ((traced_run hrun).rightKey hfound hsame)

open InstanceManager in
/-- A request for the scheme and the group of the only key, after another such request. -/
theorem start_agrees_iff_key_agrees_seven :
    ∃ self, InstanceManager.run managerSeven (requestsSeven [signSeven [1]]) = .ok self
      ∧ StartAgrees managerSeven self (signSeven [2]) none := by
  refine ⟨_, rfl, (start_agrees_iff_key_agrees managerSeven).2
    (requestsSeven [signSeven [1]]) _ _ _ rfl ?_ ?_⟩
  · intro r hr key hkey
    rw [requestsOf_requestsSeven] at hr
    have hmem : r = signSeven [2] ∨ r = signSeven [1] := by simpa using hr
    rcases hmem with rfl | rfl
    · obtain rfl := Option.some.inj hkey
      exact ⟨⟨rfl, rfl, rfl⟩, fun h => by cases h⟩
    · obtain rfl := Option.some.inj hkey
      exact ⟨⟨rfl, rfl, rfl⟩, fun h => by cases h⟩
  · intro r hr _
    rw [requestsOf_requestsSeven] at hr
    obtain rfl : r = signSeven [1] := by simpa using hr
    exact ⟨rfl, rfl, rfl⟩

open InstanceManager in
/-- A request for a FROST signature that names a Bls04 key ends the manager, and one for a coin that
names it starts a coin protocol with it. -/
theorem start_disagrees_seven :
    start managerSeven new (.signature [1] [] .frost .ed25519 (some "key")) none = .panic
      ∧ ¬ StartAgrees managerSeven new (.signature [1] [] .frost .ed25519 (some "key")) none
      ∧ ∃ self, start managerSeven new (.coin [1] .cks05 .ed25519 (some "key")) none
          = .ok (.ok (assignInstanceId managerSeven.hash256
            (.coin (K := Curves.seven) [1] .cks05 .ed25519 (some "key"))), self)
        ∧ self.spawned.map (fun e => e.protocol.key.getScheme) = [.bls04] := by
  exact ⟨rfl, fun h => h, _, rfl, rfl⟩

end QuorumCrypt
