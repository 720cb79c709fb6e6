import QuorumCrypt.Orchestration.Provenance
import QuorumCrypt.Protocols.Agreement

/-!
# Requests for a protocol of one round

The executors of a request for a decryption, a coin or a signature other than FROST run a protocol of one
round. Their payloads come from the network, so a payload need not be a message, and a message need not
carry a good share. Whatever they carry: where the accepted shares determine the output, as for Bz03 and
Bls04, a node has no other answer to the request.
-/

namespace QuorumCrypt

open Rust

namespace Execution

variable {σ μ ρ : Type} {P : ThresholdRoundProtocol σ μ ρ} {rng : ℕ → ρ}
  {fromStr : String → Outcome Unit μ}

variable (P rng fromStr) in
/-- A run over payloads is a run over the messages that they decode to, or it has panicked. -/
theorem runPayloads_cases (protocol : σ) (payloads : List Bytes) :
    (∃ messages, (∀ m ∈ messages, ∃ payload ∈ payloads, unwrapPayload fromStr payload = .ok m)
        ∧ runPayloads P rng fromStr protocol payloads = run P rng protocol messages)
      ∨ (runPayloads P rng fromStr protocol payloads).status = .panicked := by
  induction payloads using List.reverseRecOn with
  | nil => exact .inl ⟨[], by simp, rfl⟩
  | append_singleton payloads payload ih =>
      have hstep : runPayloads P rng fromStr protocol (payloads ++ [payload])
          = onPayload P rng fromStr (runPayloads P rng fromStr protocol payloads) payload := by
        rw [runPayloads, List.foldl_append]
        rfl
      rw [hstep, onPayload]
      split
      · refine ih.imp_left ?_
        rintro ⟨messages, hdecoded, hrun⟩
        refine ⟨messages, fun m hm => ?_, hrun⟩
        obtain ⟨payload', hpayload, hm⟩ := hdecoded m hm
        exact ⟨payload', List.mem_append_left _ hpayload, hm⟩
      · rename_i hrunning
        obtain ⟨messages, hdecoded, hrun⟩ :=
          ih.resolve_right fun hpanicked => hrunning (by simp [hpanicked])
        split
        · rename_i message hmessage
          refine .inl ⟨messages ++ [message], ?_, ?_⟩
          · intro m hm
            rcases List.mem_append.mp hm with hm | hm
            · obtain ⟨payload', hpayload, hm⟩ := hdecoded m hm
              exact ⟨payload', List.mem_append_left _ hpayload, hm⟩
            · rw [List.mem_singleton.mp hm]
              exact ⟨payload, List.mem_append_right _ List.mem_cons_self, hmessage⟩
          · rw [hrun, run_append]
            rfl
        · exact .inr rfl

/-- When all payloads are messages, the run is over these. -/
theorem runPayloads_map {encode : μ → Bytes} (protocol : σ) {messages : List μ}
    (h : ∀ m ∈ messages, unwrapPayload fromStr (encode m) = .ok m) :
    runPayloads P rng fromStr protocol (messages.map encode) = run P rng protocol messages := by
  induction messages using List.reverseRecOn with
  | nil => rfl
  | append_singleton messages message ih =>
      have hlast := h message (List.mem_append_right _ List.mem_cons_self)
      rw [List.map_append, runPayloads, List.foldl_append, run_append]
      change onPayload P rng fromStr (runPayloads P rng fromStr protocol (messages.map encode))
        (encode message) = onMessage P rng (run P rng protocol messages) message
      rw [ih fun m hm => h m (List.mem_append_left _ hm), onPayload, hlast]
      split
      · rename_i hstopped
        rw [onMessage, if_pos hstopped]
      · rfl

section Reactions

variable {wire : Wire μ} {instanceId : String} {protocol : σ} {taken : List NetMessage}

/-- The execution of the messages that an executor took. -/
theorem reactTo_eq_finish_ok {result : Bytes}
    (h : reactTo P rng wire instanceId protocol taken = .finish (.ok result)) :
    (runPayloads P rng wire.fromStr protocol (taken.map NetMessage.messageData)).status
      = .finished result := by
  rw [reactTo, reaction] at h
  split at h
  · rename_i result' hstatus
    obtain rfl := Except.ok.inj (Reaction.finish.inj h)
    exact hstatus
  · cases h
  · cases h
  · split at h <;> cases h

/-- An executor sends messages of its instance. -/
theorem of_reactTo_eq_send {message : NetMessage}
    (h : reactTo P rng wire instanceId protocol taken = .send message) :
    message.instanceId = instanceId ∧ ∃ m,
      m ∈ (runPayloads P rng wire.fromStr protocol (taken.map NetMessage.messageData)).sent
      ∧ message.messageData = asBytes (wire.toString m) := by
  rw [reactTo, reaction] at h
  split at h
  · cases h
  · cases h
  · cases h
  · split at h
    · cases h
    · rename_i m rest hdrop
      obtain rfl := Reaction.send.inj h
      exact ⟨rfl, m, List.mem_of_mem_drop (hdrop ▸ List.mem_cons_self), rfl⟩

end Reactions

end Execution

variable {K : Curves} {S : Type}

/-- The executors that a node spawns for the request run the protocol of one round. -/
def RunsRound (ctx : ServerContext K) (request : StartInstanceRequest K) (P : ShareRound S)
    (wire : Wire (ShareMessage S)) : Prop :=
  ∀ spawned executor taken, SpawnedFor ctx.toManagerContext (· = request) spawned →
    spawned.react ctx.protocols executor taken
      = Execution.reactTo P.protocol (ctx.protocols.draws executor) wire spawned.instanceId (.new S) taken

section Kinds

variable {ctx : ServerContext K} {key : PrivateKeyShare K}

theorem SpawnedFor.protocol_eq {request : StartInstanceRequest K} {spawned : Spawned K}
    (h : SpawnedFor ctx.toManagerContext (· = request) spawned)
    (hkey : InstanceManager.privateKeyFor ctx.toManagerContext request = some key) :
    InstanceManager.newProtocol ctx.draws key request = .ok spawned.protocol := by
  have hprotocol := h.protocol
  have hfound := h.key
  rw [h.request, hkey, Option.some.injEq] at hfound
  rwa [h.request, ← hfound] at hprotocol

theorem runsRound_decryption {ciphertext : Ciphertext K}
    (hkey : InstanceManager.privateKeyFor ctx.toManagerContext (.decryption ciphertext) = some key) :
    RunsRound ctx (.decryption ciphertext)
      (ThresholdCipherProtocol ctx.protocols.primitives key ciphertext) ctx.protocols.decryptionWire := by
  intro spawned executor taken h
  have hprotocol := h.protocol_eq hkey
  rw [Spawned.react, ← Outcome.ok.inj hprotocol]

theorem runsRound_signature {message label : Bytes} {scheme : ThresholdScheme} {group : Group}
    {keyId : Option String} (hscheme : scheme ≠ .frost)
    (hkey : InstanceManager.privateKeyFor ctx.toManagerContext
      (.signature message label scheme group keyId) = some key) :
    RunsRound ctx (.signature message label scheme group keyId)
      (ThresholdSignatureProtocol ctx.protocols.primitives key (some message) label)
      ctx.protocols.signatureWire := by
  intro spawned executor taken h
  have hprotocol := h.protocol_eq hkey
  rw [InstanceManager.newProtocol, if_neg hscheme] at hprotocol
  rw [Spawned.react, ← Outcome.ok.inj hprotocol]

theorem runsRound_coin {name : Bytes} {scheme : ThresholdScheme} {group : Group}
    {keyId : Option String}
    (hkey : InstanceManager.privateKeyFor ctx.toManagerContext (.coin name scheme group keyId)
      = some key) :
    RunsRound ctx (.coin name scheme group keyId)
      (ThresholdCoinProtocol ctx.protocols.primitives key name) ctx.protocols.coinWire := by
  intro spawned executor taken h
  have hprotocol := h.protocol_eq hkey
  rw [Spawned.react, ← Outcome.ok.inj hprotocol]

end Kinds

/-! ### The answers to a request -/

/-- The action brings no other request with the id of this one. -/
def Action.Respects (hash256 : Bytes → Bytes) (request : StartInstanceRequest K) : Action K → Prop
  | .request command hclient => ∀ other, (ManagerEvent.command command hclient).request? = some other →
      assignInstanceId hash256 other = assignInstanceId hash256 request → other = request
  | _ => True

namespace Server

variable {ctx : ServerContext K} {self : Server K} {request : StartInstanceRequest K}

/-- The requests that may have the id are the request itself. -/
def Sole (hash256 : Bytes → Bytes) (request other : StartInstanceRequest K) : Prop :=
  assignInstanceId hash256 other = assignInstanceId hash256 request → other = request

theorem sole_of_respects {action : Action K} (h : action.Respects ctx.hash256 request)
    (command : InstanceManagerCommand K) (hclient : command.isClientCommand = true)
    (other : StartInstanceRequest K) (haction : action = .request command hclient)
    (hother : (ManagerEvent.command command hclient).request? = some other) :
    Sole ctx.hash256 request other := by
  subst haction
  exact h other hother

theorem spawnedFor_of_sole {spawned : Spawned K}
    (h : SpawnedFor ctx.toManagerContext (Sole ctx.hash256 request) spawned)
    (hid : spawned.instanceId = assignInstanceId ctx.hash256 request) :
    SpawnedFor ctx.toManagerContext (· = request) spawned :=
  ⟨h.request (h.instanceId.symm.trans hid), h.instanceId, h.key, h.protocol⟩

/-- A run in which no other request has the id. -/
theorem routed_of_respects
    (h : Reachable (Server.step ctx) (fun _ action => action.Respects ctx.hash256 request) new self) :
    Routed ctx (fun _ => True) (Sole ctx.hash256 request) self
      ∧ ∃ events, Accounted ctx events self := by
  refine h.invariant (motive := fun self : Server K =>
    Routed ctx (fun _ => True) (Sole ctx.hash256 request) self ∧ ∃ events, Accounted ctx events self)
    ⟨routed_new ctx _ _, [], accounted_new ctx⟩ ?_
  rintro self action self' ⟨hrouted, events, haccounted⟩ hrespects hstep
  obtain ⟨more, haccounted'⟩ := haccounted.step hstep
  have hrouted' := hrouted.step haccounted (fun _ _ _ _ => trivial) (sole_of_respects hrespects)
    (fun _ _ _ => trivial) hstep
  exact ⟨hrouted', events ++ more, haccounted'⟩

/-- The node has no answer to the request but this one: no executor came to another one, and the instance
has no other one. -/
def OnlyAnswer (ctx : ServerContext K) (server : Server K) (request : StartInstanceRequest K)
    (output : Bytes) : Prop :=
  (∀ bytes, server.Computed ctx (assignInstanceId ctx.hash256 request) (.ok bytes) → bytes = output)
  ∧ ∀ inst bytes,
    server.manager.instances.instanceData.lookup (assignInstanceId ctx.hash256 request) = some inst →
    inst.result = some (.ok bytes) → bytes = output

/-- Some executor has taken a message that decodes to this one. -/
def HasTaken {μ : Type} (server : Server K) (wire : Wire μ) (message : μ) : Prop :=
  ∃ executor taken, taken ∈ server.taken executor
    ∧ unwrapPayload wire.fromStr taken.messageData = .ok message

/-- When the shares that can be accepted determine the output, the network has no say in the answer. -/
theorem onlyAnswer_of_determined {P : ShareRound S} {wire : Wire (ShareMessage S)}
    (hruns : RunsRound ctx request P wire) {output : Bytes}
    (hdetermined : ∀ drawn messages, (∀ m ∈ messages, self.HasTaken wire m) →
      P.Determined drawn messages (.ok output))
    (h : Reachable (Server.step ctx) (fun _ action => action.Respects ctx.hash256 request) new self) :
    self.OnlyAnswer ctx request output := by
  obtain ⟨hrouted, events, haccounted⟩ := routed_of_respects h
  have hcomputed : ∀ bytes,
      self.Computed ctx (assignInstanceId ctx.hash256 request) (.ok bytes) → bytes = output := by
    rintro bytes ⟨executor, spawned, hspawned, hid, -, hreact⟩
    have hfor := spawnedFor_of_sole (hrouted.spawned spawned (List.mem_of_getElem? hspawned)) hid
    rw [hruns spawned executor _ hfor] at hreact
    have hfinished := Execution.reactTo_eq_finish_ok hreact
    rcases Execution.runPayloads_cases P.protocol (ctx.protocols.draws executor) wire.fromStr
      (ShareState.new S) ((self.taken executor).map NetMessage.messageData) with
      ⟨messages, hdecoded, hrun⟩ | hpanicked
    · rw [hrun] at hfinished
      refine (Outcome.ok.inj ((hdetermined _ messages fun m hm => ?_).result hfinished)).symm
      obtain ⟨payload, hpayload, hm⟩ := hdecoded m hm
      obtain ⟨taken, htaken, rfl⟩ := List.mem_map.mp hpayload
      exact ⟨executor, taken, htaken, hm⟩
    · rw [hpanicked] at hfinished
      cases hfinished
  refine ⟨hcomputed, fun inst bytes hinst hresult => hcomputed bytes ?_⟩
  obtain ⟨executor, spawned, hspawned, hid, hevent⟩ :=
    (InstanceManager.traced_run haccounted.run).results _ inst _ hinst hresult
  exact hid ▸ haccounted.computed (routed_of_reachable h) hspawned hevent

end Server

open Server in
/-- In every state that a node with a key of a dealing can come to, whatever the network brings, and
whatever else is requested under other ids: for a request to sign with Bls04 it has no answer but the
signature that the dealt secret gives, and for a request to decrypt a Bz03 ciphertext none but what was
encrypted. So two nodes never give different answers to one request. -/
theorem answers_unique {ctx : ServerContext K} {c : Curve} (hc : c.group.supportsPairings = true)
    {k n : ℕ} {keyRng : ℕ → ℕ} (hmax : n ≤ 65535) (hn : n < (K.ecp c).order) :
    (∀ keys sk message label scheme group keyId self,
      Bls04ThresholdSignature.generateKeys ctx.protocols.primitives (K.pairingCurve c hc) k n keyRng
        = .ok keys → sk ∈ keys → scheme ≠ .frost →
      InstanceManager.privateKeyFor ctx.toManagerContext
        (.signature message label scheme group keyId) = some (.bls04 c sk) →
      Reachable (Server.step ctx) (fun _ action =>
        action.Respects ctx.hash256 (.signature message label scheme group keyId)) new self →
      self.OnlyAnswer ctx (.signature message label scheme group keyId)
        ((Signature.bls04 (K := K) c
          ⟨Bls04ThresholdSignature.H ctx.protocols.primitives (K.pairingCurve c hc) message
            ^ dealtSecret (K.ecp c).order keyRng⟩).toBytes ctx.protocols.primitives))
    ∧ ∀ keys sk msg label params ct self,
      Bz03ThresholdCipher.generateKeys ctx.protocols.primitives (K.pairingCurve c hc) k n keyRng
        = .ok keys → sk ∈ keys →
      Bz03ThresholdCipher.encrypt ctx.protocols.primitives (K.pairingCurve c hc) msg label sk.pubkey
        params = .ok ct →
      InstanceManager.privateKeyFor ctx.toManagerContext (.decryption (.bz03 c ct))
        = some (.bz03 c sk) →
      Reachable (Server.step ctx) (fun _ action =>
        action.Respects ctx.hash256 (.decryption (.bz03 c ct))) new self →
      self.OnlyAnswer ctx (.decryption (.bz03 c ct)) msg := by
  refine ⟨?_, ?_⟩
  · intro keys sk message label scheme group keyId self hkeys hsk hscheme hkey hreachable
    exact onlyAnswer_of_determined (runsRound_signature hscheme hkey)
      (fun _ messages _ => determined_bls04 hc hkeys hmax hn hsk message label messages) hreachable
  · intro keys sk msg label params ct self hkeys hsk hct hkey hreachable
    exact onlyAnswer_of_determined (runsRound_decryption hkey)
      (fun _ messages _ => determined_bz03 hc hkeys hmax hn hsk hct messages) hreachable

theorem respects_finishingSeven : ∀ action ∈ finishingSeven,
    action.Respects serverSeven.hash256 (signSeven []) := by
  simp only [finishingSeven, signingSeven, floodSeven, List.mem_append, List.mem_cons,
    List.not_mem_nil, or_false, List.replicate, List.flatten_cons, List.flatten_nil]
  rintro action (((((rfl | rfl | rfl) | rfl | rfl) | rfl | rfl) | rfl | rfl | rfl))
  · intro other hother _
    exact (Option.some.inj hother).symm
  all_goals trivial

/-- The Bz03 keys of two parties with threshold two. -/
def bz03KeySeven (id : UInt16) :
    Bz03PrivateKey (Curves.seven.Point2 .bn254) (Curves.seven.Point .bn254) where
  id := id
  xi := dealtShare 7 2 (fun i => i + 1) id
  pubkey := Bz03ThresholdCipher.publicKey .truncating
    (Curves.seven.pairingCurve .bn254 Curve.supportsPairings_bn254) 2 2 fun i => i + 1

theorem generateKeys_bz03KeySeven : Bz03ThresholdCipher.generateKeys .truncating
    (Curves.seven.pairingCurve .bn254 rfl) 2 2 (fun i => i + 1)
    = .ok [bz03KeySeven 1, bz03KeySeven 2] :=
  Bz03ThresholdCipher.generateKeys_eq_ok.mpr ⟨by decide, by decide, rfl⟩

/-- A ciphertext of the bytes 104 and 105 under the label 9. -/
def bz03CiphertextSeven :
    Bz03Ciphertext (Curves.seven.Point2 .bn254) (Curves.seven.Point .bn254) where
  label := [9]
  ctxt := List.replicate 32 7 ++ List.replicate 12 0 ++ [104, 105]
  u := Multiplicative.ofAdd (1 : ZMod 7)
  ck := List.replicate 15 7 ++ [6] ++ List.replicate 16 7
  hr := Multiplicative.ofAdd (1 : ZMod 7)
  keyId := ""

theorem encrypt_bz03CiphertextSeven : Bz03ThresholdCipher.encrypt .truncating
    (Curves.seven.pairingCurve .bn254 rfl) [104, 105] [9] (bz03KeySeven 1).pubkey
    { Drawn.counting with scalar := fun i => i + 1 } = .ok bz03CiphertextSeven := rfl

def decryptSeven : StartInstanceRequest Curves.seven :=
  .decryption (.bz03 .bn254 bz03CiphertextSeven)

/-- The first party, with its Bz03 key. The text of a share is the id of its party. -/
def deciphererSeven : ServerContext Curves.seven :=
  { serverSeven with
    store :=
      { keyEntries := AList.singleton ""
          { id := ""
            isDefault := true
            sk := some (.bz03 .bn254 (bz03KeySeven 1))
            pk := .bz03 .bn254 (bz03KeySeven 1).pubkey } }
    protocols :=
      { protocolsSeven with
        decryptionWire :=
          { toString := fun _ => "1"
            fromStr := fun text =>
              let party := if text = "1" then bz03KeySeven 1 else bz03KeySeven 2
              .ok (.share (.bz03 .bn254
                (Bz03ThresholdCipher.partialDecrypt bz03CiphertextSeven party))) } } }

/-- The instance of a request on a node of which only the store and the protocols differ. -/
def requestIdSeven (request : StartInstanceRequest Curves.seven) : String :=
  assignInstanceId managerSeven.hash256 request

/-- A request is made. The share of this node comes back to it, and that of the second party arrives. -/
def requestedSeven (request : StartInstanceRequest Curves.seven) : List (Action Curves.seven) :=
  [.request (.createInstance request ⟨0, false⟩)
      (InstanceManagerCommand.isClientCommand_createInstance _ _),
    .managerCommand, .executorStarts 0, .networkOutgoing, .managerMessage,
    .networkReceives { peerSeven with instanceId := requestIdSeven request }, .managerMessage,
    .executorTakes 0, .executorTakes 0, .managerCommand]

theorem respects_requestedSeven (request : StartInstanceRequest Curves.seven) :
    ∀ action ∈ requestedSeven request, action.Respects managerSeven.hash256 request := by
  simp only [requestedSeven, List.mem_cons, List.not_mem_nil, or_false]
  rintro action (rfl | rfl | rfl | rfl | rfl | rfl | rfl | rfl | rfl | rfl)
  · intro other hother _
    exact (Option.some.inj hother).symm
  all_goals trivial

namespace Server

/-- The instance with this id has an outcome other than an `Err`. -/
def hasAnswer (server : Server Curves.seven) (id : String) : Bool :=
  (server.manager.instances.instanceData.lookup id).any fun inst =>
    inst.result.any fun result => result.isOk

/-- What an instance has for an answer is the only answer it can have. -/
theorem OnlyAnswer.eq_of_hasAnswer {ctx : ServerContext Curves.seven} {server : Server Curves.seven}
    {request : StartInstanceRequest Curves.seven} {answer : Bytes}
    (h : server.OnlyAnswer ctx request answer)
    (hanswer : server.hasAnswer (assignInstanceId ctx.hash256 request) = true) :
    ∃ inst, server.manager.instances.instanceData.lookup
        (assignInstanceId ctx.hash256 request) = some inst
      ∧ inst.result = some (.ok answer) := by
  obtain ⟨inst, hinst, hresult⟩ := (Option.any_eq_true _ _).mp hanswer
  obtain ⟨result, hresult, hok⟩ := (Option.any_eq_true _ _).mp hresult
  cases result with
  | error error => cases hok
  | ok bytes =>
      obtain rfl := h.2 inst bytes hinst hresult
      exact ⟨inst, hinst, hresult⟩

end Server

open Server in
/-- The first of two parties has signed the empty message, and another one has decrypted. -/
theorem answers_unique_seven :
    (∃ self : Server Curves.seven, runAllowed (step serverSeven) (fun _ _ => True) new finishingSeven
        = some self
      ∧ ∃ inst, self.manager.instances.instanceData.lookup signIdSeven = some inst
        ∧ inst.result = some (.ok ((Signature.bls04 (K := Curves.seven) .bn254
          ⟨Bls04ThresholdSignature.H .truncating (Curves.seven.pairingCurve .bn254 rfl) []
            ^ dealtSecret 7 fun i => i⟩).toBytes .truncating)))
    ∧ ∃ self : Server Curves.seven,
      runAllowed (step deciphererSeven) (fun _ _ => True) new (requestedSeven decryptSeven) = some self
      ∧ ∃ inst, self.manager.instances.instanceData.lookup (requestIdSeven decryptSeven) = some inst
        ∧ inst.result = some (.ok [104, 105]) := by
  constructor
  · have hrun : (runAllowed (step serverSeven) (fun _ _ => True) new finishingSeven).any
        (fun self => self.hasAnswer signIdSeven) = true := by decide +kernel
    obtain ⟨self, hself, hanswer⟩ := (Option.any_eq_true _ _).mp hrun
    have hreachable : Reachable (step serverSeven) (fun _ action =>
        action.Respects serverSeven.hash256 (signSeven [])) new self :=
      (Reachable.start.of_forall hself respects_finishingSeven).mono fun _ _ h => h.1
    have honly := (@answers_unique _ serverSeven .bn254 rfl 2 2 (fun i => i) (by decide)
      (by decide)).1 _ _ [] [] .bls04 .bn254 none self generateKeys_bls04KeySeven
      List.mem_cons_self (by decide) rfl hreachable
    exact ⟨self, hself, honly.eq_of_hasAnswer hanswer⟩
  · have hrun : (runAllowed (step deciphererSeven) (fun _ _ => True) new
        (requestedSeven decryptSeven)).any
        (fun self => self.hasAnswer (requestIdSeven decryptSeven)) = true := by decide +kernel
    obtain ⟨self, hself, hanswer⟩ := (Option.any_eq_true _ _).mp hrun
    have hreachable : Reachable (step deciphererSeven) (fun _ action =>
        action.Respects deciphererSeven.hash256 decryptSeven) new self :=
      (Reachable.start.of_forall hself (respects_requestedSeven decryptSeven)).mono fun _ _ h => h.1
    have honly := (answers_unique rfl (by decide) (by decide)).2 _ _ _ _ _ _ self
      generateKeys_bz03KeySeven List.mem_cons_self encrypt_bz03CiphertextSeven rfl hreachable
    exact ⟨self, hself, honly.eq_of_hasAnswer hanswer⟩

end QuorumCrypt
