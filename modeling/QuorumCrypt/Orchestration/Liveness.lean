import QuorumCrypt.Orchestration.Cluster

/-!
# A cluster answers

Nodes that hold the keys of a dealing take steps in any order, some of them stop, and the network delivers
what it delivers. When enough nodes are left that have got the request and each other's messages, and
these nodes have nothing left to do, then each of them has answered the request, all with the same bytes:
the plaintext, the signature or the coin (`Cluster.answered`).
-/

namespace QuorumCrypt

open Rust

variable {K : Curves} {S : Type}

namespace InstanceManager

/-- A finished instance has a result. -/
theorem result_of_finished {ctx : ManagerContext K} {events : List (ManagerEvent K)}
    {self : InstanceManager K} (h : run ctx events = .ok self) :
    ∀ id inst, self.instances.instanceData.lookup id = some inst → inst.finished = true →
      ∃ result, inst.result = some result := by
  refine run_induction (motive := fun _ self => ∀ id inst,
    self.instances.instanceData.lookup id = some inst → inst.finished = true →
      ∃ result, inst.result = some result) ?_ ?_ h
  · intro id inst hinst
    cases hinst
  · intro _ self event self' ih hok id inst hinst hfinished
    cases turn_of_onEvent hok with
    | known _ _ => exact ih id inst hinst hfinished
    | refused _ _ _ => exact ih id inst hinst hfinished
    | launched _ _ _ _ =>
        rw [instances_emit, instances_forwardBackloggedMessages] at hinst
        rcases lookup_insert_cases hinst with ⟨-, rfl⟩ | hinst
        · cases hfinished
        · exact ih id inst hinst hfinished
    | status _ => exact ih id inst hinst hfinished
    | absent _ => exact ih id inst hinst hfinished
    | settled _ _ =>
        rcases lookup_settle_cases hinst with ⟨-, rfl⟩ | ⟨-, hinst⟩
        · exact ⟨_, Instance.result_settled _ _⟩
        · exact ih id inst hinst hfinished
    | message message =>
        rw [instances_onNetMessage] at hinst
        exact ih id inst hinst hfinished
    | tick => exact ih id inst hinst hfinished

end InstanceManager

/-- The first executor of the instance came to the output and has reported it. No executor came to
anything else. If the instance was started again since and has no result yet, then it is a later executor
that it waits for. -/
structure Server.Answered (ctx : ServerContext K) (server : Server K) (id : String) (output : Bytes) :
    Prop where
  reported : ∃ events executor, InstanceManager.run ctx.toManagerContext events = .ok server.manager
    ∧ server.manager.IsFirst id executor ∧ .terminated executor (.ok output) ∈ events
  only : ∀ result, server.Computed ctx id result → result = .ok output
  cached : ∀ inst, server.manager.instances.instanceData.lookup id = some inst →
    inst.result = some (.ok output)
      ∨ ∃ later, inst.messageChannelSender = some later ∧ ¬ server.manager.IsFirst id later

/-! ### The cluster -/

def Action.received? : Action K → Option WireMessage
  | networkReceives message => some message
  | _ => none

def Action.isTick : Action K → Bool
  | managerTick => true
  | _ => false

namespace Cluster

variable {ι : Type} {ctx : ι → ServerContext K}

/-- One node takes a step. What it has to do with the others is left to the network. -/
def step [DecidableEq ι] (ctx : ι → ServerContext K) (cluster : ι → Node K) (action : ι × Action K) :
    Option (ι → Node K) :=
  ((cluster action.1).step (ctx action.1) action.2).map (Function.update cluster action.1)

/-- A message of the instance that comes in was sent by a node, and no tick removes the backlog of the
instance. -/
def Fair (id : String) (cluster : ι → Node K) (action : ι × Action K) : Prop :=
  (∀ message ∈ action.2.received?, message.instanceId = id →
    ∃ j, message.toNetMessage ∈ (cluster j).broadcast)
  ∧ (action.2.isTick = true →
    ∀ data ∈ (cluster action.1).server.manager.backlog.lookup id, data.checked = false)

instance [Fintype ι] (id : String) (cluster : ι → Node K) (action : ι × Action K) :
    Decidable (Fair id cluster action) :=
  inferInstanceAs (Decidable ((∀ message ∈ action.2.received?, message.instanceId = id →
    ∃ j, message.toNetMessage ∈ (cluster j).broadcast) ∧ (_ → ∀ data ∈ _, _)))

/-- The nodes have the same hash function and the same serialisation. -/
structure Uniform (ctx : ι → ServerContext K) (hash256 : Bytes → Bytes) (protocols : ProtocolContext K) :
    Prop where
  hash256 : ∀ i, (ctx i).hash256 = hash256
  primitives : ∀ i, (ctx i).protocols.primitives = protocols.primitives
  decryptionWire : ∀ i, (ctx i).protocols.decryptionWire = protocols.decryptionWire
  signatureWire : ∀ i, (ctx i).protocols.signatureWire = protocols.signatureWire
  coinWire : ∀ i, (ctx i).protocols.coinWire = protocols.coinWire

/-- The nodes of the set have not stopped, have got the request, and have got the messages that the
others have sent for it. None of their tasks has anything to do. -/
structure Settled (ctx : ι → ServerContext K) (id : String) (cluster : ι → Node K) (nodes : Finset ι) :
    Prop where
  alive : ∀ i ∈ nodes, (cluster i).server.Alive
  atRest : ∀ i ∈ nodes, (cluster i).server.AtRest (ctx i)
  started : ∀ i ∈ nodes, ∃ spawned ∈ (cluster i).server.manager.spawned, spawned.instanceId = id
  delivered : ∀ i ∈ nodes, ∀ j ∈ nodes, ∀ m ∈ (cluster j).broadcast, m.instanceId = id →
    m ∈ (cluster i).received

/-- A node of a cluster runs as it would alone. -/
theorem server_of_reachable [DecidableEq ι] {cluster : ι → Node K}
    {allowed : (ι → Node K) → ι × Action K → Prop}
    (h : Reachable (Cluster.step ctx) allowed (fun _ => .new) cluster) (i : ι) :
    Reachable (Server.step (ctx i)) (fun _ _ => True) .new (cluster i).server := by
  refine h.invariant (motive := fun cluster : ι → Node K =>
    Reachable (Server.step (ctx i)) (fun _ _ => True) .new (cluster i).server) .start ?_
  rintro cluster ⟨j, action⟩ cluster' hreachable - hstep
  obtain ⟨node', hnode, rfl⟩ := Option.map_eq_some_iff.mp hstep
  obtain ⟨server, hserver, rfl⟩ := Option.map_eq_some_iff.mp hnode
  by_cases heq : i = j
  · subst heq
    rw [Function.update_self]
    exact hreachable.next action trivial hserver
  · rw [Function.update_of_ne heq]
    exact hreachable

section Committee

variable {party : ι → ShareRound S} {ident : ι → UInt16} {k : ℕ} {output : Bytes}
  {wire : Wire (ShareMessage S)} {hash256 : Bytes → Bytes} {request : StartInstanceRequest K}
  {cluster cluster' : ι → Node K} {nodes : Finset ι}

/-- What holds of each node in every state of the cluster. -/
def Inv (ctx : ι → ServerContext K) (party : ι → ShareRound S) (wire : Wire (ShareMessage S))
    (request : StartInstanceRequest K) (id : String) (cluster : ι → Node K) : Prop :=
  ∀ i, NodeInv (ctx i) (Honest party wire id) request id (cluster i)

/-- A step of one node keeps what holds of all nodes. -/
theorem Inv.step [DecidableEq ι] (hhash : ∀ i, (ctx i).hash256 = hash256)
    (hruns : ∀ i, RunsRound (ctx i) request (party i) wire)
    (h : Inv ctx party wire request (assignInstanceId hash256 request) cluster) {action : ι × Action K}
    (hrespects : action.2.Respects hash256 request)
    (hfair : Fair (assignInstanceId hash256 request) cluster action)
    (hstep : Cluster.step ctx cluster action = some cluster') :
    Inv ctx party wire request (assignInstanceId hash256 request) cluster' := by
  obtain ⟨i, action⟩ := action
  obtain ⟨node', hnode, rfl⟩ := Option.map_eq_some_iff.mp hstep
  intro j
  by_cases heq : j = i
  · subst heq
    rw [Function.update_self]
    refine (h j).step (hhash j ▸ hrespects) ?_ ?_ ?_ hnode
    · intro executor taken m hreaction
      have hhonest := Server.honest_of_reaction (hruns j) (h j).routed hreaction
      rwa [hhash j] at hhonest
    · rintro message rfl - hid
      obtain ⟨sender, hmem⟩ := hfair.1 message rfl hid
      exact ((h sender).broadcast _ hmem).1 hid
    · rintro rfl data hdata
      exact hfair.2 rfl data hdata
  · rw [Function.update_of_ne heq]
    exact h j

theorem inv_of_reachable [DecidableEq ι] (hhash : ∀ i, (ctx i).hash256 = hash256)
    (hruns : ∀ i, RunsRound (ctx i) request (party i) wire)
    (h : Reachable (Cluster.step ctx) (fun cluster action => action.2.Respects hash256 request
      ∧ Fair (assignInstanceId hash256 request) cluster action) (fun _ => .new) cluster) :
    Inv ctx party wire request (assignInstanceId hash256 request) cluster := by
  refine h.invariant (motive := Inv ctx party wire request (assignInstanceId hash256 request))
    (fun _ => nodeInv_new) ?_
  rintro cluster action cluster' hinv ⟨hrespects, hfair⟩ hstep
  exact hinv.step hhash hruns hrespects hfair hstep

/-- In a settled cluster each of the nodes has answered. -/
theorem Inv.answered (hhash : ∀ i, (ctx i).hash256 = hash256)
    (hruns : ∀ i, RunsRound (ctx i) request (party i) wire)
    (hcommittee : Committee party ident k output) (hwire : SharesTravel party wire)
    (h : Inv ctx party wire request (assignInstanceId hash256 request) cluster)
    (hsettled : Settled ctx (assignInstanceId hash256 request) cluster nodes) (hk : k ≤ nodes.card)
    {i : ι} (hi : i ∈ nodes) :
    (cluster i).server.Answered (ctx i) (assignInstanceId hash256 request) output := by
  have hheard : ∀ j ∈ nodes, ∃ drawn share, (party j).ownShare drawn = .ok share
      ∧ ⟨assignInstanceId hash256 request, asBytes (wire.toString (.share share))⟩
        ∈ (cluster i).received := by
    intro j hj
    obtain ⟨e, hfirst⟩ := InstanceManager.exists_isFirst (hsettled.started j hj)
    have hinv := h j
    rw [← hhash j] at hinv hfirst
    obtain ⟨drawn, share, hshare, hmem⟩ := hinv.exists_broadcast hcommittee (hruns j)
      (hsettled.alive j hj) (hsettled.atRest j hj) hfirst
    rw [hhash j] at hmem
    exact ⟨drawn, share, hshare, hsettled.delivered i hi j hj _ hmem rfl⟩
  have hinv := h i
  obtain ⟨e, hfirst⟩ := InstanceManager.exists_isFirst (hsettled.started i hi)
  rw [← hhash i] at hinv hfirst hheard ⊢
  obtain ⟨events, haccounted⟩ := hinv.accounted
  have hreported := hinv.answers hcommittee (hruns i) hwire (hsettled.alive i hi) (hsettled.atRest i hi)
    hfirst hi hk hheard haccounted
  refine ⟨⟨events, e, haccounted.run, hfirst, hreported⟩, ?_, ?_⟩
  · intro result hcomputed
    exact hinv.only hcommittee (hruns i) hwire hcomputed
  · intro inst hinst
    cases hfinished : inst.finished with
    | true =>
        obtain ⟨result, hresult⟩ :=
          InstanceManager.result_of_finished haccounted.run _ inst hinst hfinished
        obtain ⟨executor, spawned, hspawned, hid, hevent⟩ :=
          (InstanceManager.traced_run haccounted.run).results _ inst result hinst hresult
        obtain rfl := hinv.only hcommittee (hruns i) hwire
          (hid ▸ haccounted.computed hinv.routed hspawned hevent)
        exact .inl hresult
    | false =>
        -- the first executor has reported, so it is not the one that the instance waits for
        obtain ⟨done, hmanaged, hdone⟩ := haccounted.managed
        obtain ⟨later, -, hsender, -, -, hlater⟩ := hmanaged.running _ inst hinst hfinished
        refine .inr ⟨later, hsender, fun hfirst' => hlater ?_⟩
        rw [hfirst'.unique hfirst, hdone, terminationsOf_eq]
        exact List.mem_map_of_mem (mem_reportsOf.mpr hreported)

end Committee

end Cluster

/-! ### The requests of a dealing -/

/-- Nodes with different keys of one dealing, a request that they can answer, the threshold, and the
answer. The shares survive their serialisation. -/
inductive Served {ι : Type} (protocols : ProtocolContext K) :
    (ι → PrivateKeyShare K) → StartInstanceRequest K → ℕ → Bytes → Prop
  | sg02 {c : Curve} {k n : ℕ} {keyRng : ℕ → ℕ} {keys : List (Sg02PrivateKey (K.Point c))}
      {sk : ι → Sg02PrivateKey (K.Point c)} {dealt : Sg02PrivateKey (K.Point c)} {msg label : Bytes}
      {params : Drawn} {ct : Sg02Ciphertext (K.Point c)}
      (hkeys : Sg02ThresholdCipher.generateKeys protocols.primitives (K.ecp c) k n keyRng = .ok keys)
      (hn : n < (K.ecp c).order) (hmem : ∀ i, sk i ∈ keys)
      (hinjective : Function.Injective fun i => (sk i).id) (hdealt : dealt ∈ keys)
      (hct : Sg02ThresholdCipher.encrypt protocols.primitives (K.ecp c) msg label dealt.pubkey params
        = .ok ct)
      (hwire : SharesTravel (fun i => ThresholdCipherProtocol protocols.primitives (.sg02 c (sk i))
        (.sg02 c ct)) protocols.decryptionWire) :
      Served protocols (fun i => .sg02 c (sk i)) (.decryption (.sg02 c ct)) k msg
  | bz03 {c : Curve} {k n : ℕ} {keyRng : ℕ → ℕ}
      {keys : List (Bz03PrivateKey (K.Point2 c) (K.Point c))}
      {sk : ι → Bz03PrivateKey (K.Point2 c) (K.Point c)}
      {dealt : Bz03PrivateKey (K.Point2 c) (K.Point c)} {msg label : Bytes} {params : Drawn}
      {ct : Bz03Ciphertext (K.Point2 c) (K.Point c)} (hc : c.group.supportsPairings = true)
      (hkeys : Bz03ThresholdCipher.generateKeys protocols.primitives (K.pairingCurve c hc) k n keyRng
        = .ok keys)
      (hmax : n ≤ 65535) (hn : n < (K.ecp c).order) (hmem : ∀ i, sk i ∈ keys)
      (hinjective : Function.Injective fun i => (sk i).id) (hdealt : dealt ∈ keys)
      (hct : Bz03ThresholdCipher.encrypt protocols.primitives (K.pairingCurve c hc) msg label dealt.pubkey
        params = .ok ct)
      (hwire : SharesTravel (fun i => ThresholdCipherProtocol protocols.primitives (.bz03 c (sk i))
        (.bz03 c ct)) protocols.decryptionWire) :
      Served protocols (fun i => .bz03 c (sk i)) (.decryption (.bz03 c ct)) k msg
  | bls04 {c : Curve} {k n : ℕ} {keyRng : ℕ → ℕ} {keys : List (Bls04PrivateKey (K.Point c))}
      {sk : ι → Bls04PrivateKey (K.Point c)} {message label : Bytes} {scheme : ThresholdScheme}
      {group : Group} {keyId : Option String} (hc : c.group.supportsPairings = true)
      (hkeys : Bls04ThresholdSignature.generateKeys protocols.primitives (K.pairingCurve c hc) k n keyRng
        = .ok keys)
      (hmax : n ≤ 65535) (hn : n < (K.ecp c).order) (hmem : ∀ i, sk i ∈ keys)
      (hinjective : Function.Injective fun i => (sk i).id) (hscheme : scheme ≠ .frost)
      (hwire : SharesTravel (fun i => ThresholdSignatureProtocol protocols.primitives (.bls04 c (sk i))
        (some message) label) protocols.signatureWire) :
      Served protocols (fun i => .bls04 c (sk i)) (.signature message label scheme group keyId) k
        ((Signature.bls04 (K := K) c
          ⟨Bls04ThresholdSignature.H protocols.primitives (K.pairingCurve c hc) message
            ^ dealtSecret (K.ecp c).order keyRng⟩).toBytes protocols.primitives)
  | cks05 {c : Curve} {k n : ℕ} {keyRng : ℕ → ℕ} {keys : List (Cks05PrivateKey (K.Point c))}
      {sk : ι → Cks05PrivateKey (K.Point c)} {name : Bytes} {scheme : ThresholdScheme}
      {group : Group} {keyId : Option String} {coin : UInt8}
      (hkeys : Cks05ThresholdCoin.generateKeys protocols.primitives (K.ecp c) k n keyRng = .ok keys)
      (hmax : n ≤ 65535) (hn : n < (K.ecp c).order) (hmem : ∀ i, sk i ∈ keys)
      (hinjective : Function.Injective fun i => (sk i).id)
      (hcoin : Cks05ThresholdCoin.H2 (K.ecp c) (Cks05ThresholdCoin.H protocols.primitives (K.ecp c) name
        ^ dealtSecret (K.ecp c).order keyRng) = .ok coin)
      (hwire : SharesTravel (fun i => ThresholdCoinProtocol protocols.primitives (.cks05 c (sk i)) name)
        protocols.coinWire) :
      Served protocols (fun i => .cks05 c (sk i)) (.coin name scheme group keyId) k [coin]

open Cluster in
/-- In every state that a cluster can come to: when nodes that are as many as the threshold have not
stopped, have got the request and each other's messages, and have nothing left to do, then each of them
has answered the request, and with the same bytes. -/
theorem cluster_answers {ι : Type} [DecidableEq ι] {ctx : ι → ServerContext K}
    {hash256 : Bytes → Bytes} {protocols : ProtocolContext K} (huniform : Uniform ctx hash256 protocols)
    {key : ι → PrivateKeyShare K} {request : StartInstanceRequest K} {k : ℕ} {output : Bytes}
    (hserved : Served protocols key request k output)
    (hkey : ∀ i, InstanceManager.privateKeyFor (ctx i).toManagerContext request = some (key i))
    {cluster : ι → Node K}
    (h : Reachable (Cluster.step ctx) (fun cluster action => action.2.Respects hash256 request
      ∧ Fair (assignInstanceId hash256 request) cluster action) (fun _ => .new) cluster)
    {nodes : Finset ι} (hsettled : Settled ctx (assignInstanceId hash256 request) cluster nodes)
    (hk : k ≤ nodes.card) :
    ∀ i ∈ nodes,
      (cluster i).server.Answered (ctx i) (assignInstanceId hash256 request) output := by
  have hall : ∀ {S : Type} {party : ι → ShareRound S} {ident : ι → UInt16}
      {wire : Wire (ShareMessage S)}, (∀ i, RunsRound (ctx i) request (party i) wire) →
      Committee party ident k output → SharesTravel party wire → ∀ i ∈ nodes,
        (cluster i).server.Answered (ctx i) (assignInstanceId hash256 request) output := by
    intro S party ident wire hruns hcommittee hwire i hi
    have hinv := inv_of_reachable huniform.hash256 hruns h
    exact hinv.answered huniform.hash256 hruns hcommittee hwire hsettled hk hi
  cases hserved with
  | sg02 hkeys hn hmem hinjective hdealt hct hwire =>
      refine hall (fun i => ?_) (committee_sg02 hkeys hn hmem hinjective hdealt hct) hwire
      have hruns := runsRound_decryption (hkey i)
      rwa [huniform.primitives i, huniform.decryptionWire i] at hruns
  | bz03 hc hkeys hmax hn hmem hinjective hdealt hct hwire =>
      refine hall (fun i => ?_) (committee_bz03 hc hkeys hmax hn hmem hinjective hdealt hct) hwire
      have hruns := runsRound_decryption (hkey i)
      rwa [huniform.primitives i, huniform.decryptionWire i] at hruns
  | @bls04 c _ n keyRng keys sk message label scheme group keyId hc hkeys hmax hn hmem hinjective hscheme
      hwire =>
      refine hall (fun i => ?_) (committee_bls04 hc hkeys hmax hn hmem hinjective message label) hwire
      have hruns := runsRound_signature hscheme (hkey i)
      rwa [huniform.primitives i, huniform.signatureWire i] at hruns
  | cks05 hkeys hmax hn hmem hinjective hcoin hwire =>
      refine hall (fun i => ?_) (committee_cks05 hkeys hmax hn hmem hinjective hcoin) hwire
      have hruns := runsRound_coin (hkey i)
      rwa [huniform.primitives i, huniform.coinWire i] at hruns

/-- Two nodes, each with its key. -/
def clusterSeven (i : Fin 2) : ServerContext Curves.seven :=
  { serverSeven with
    myId := UInt32.ofNat (i + 1)
    store :=
      { keyEntries := AList.singleton "key"
          { id := "key"
            isDefault := true
            sk := some (.bls04 .bn254 (bls04KeySeven (UInt16.ofNat (i + 1))))
            pk := .bls04 .bn254 (bls04KeySeven 1).pubkey } } }

def sharesSeven (i : Fin 2) : WireMessage where
  instanceId := signIdSeven
  messageData := asBytes (if i = 0 then "1" else "2")
  metadata := ⟨UInt16.ofNat (i + 1), .gossip⟩

/-- A node gets the request and sends its share. -/
def startedSeven (i : Fin 2) : List (Fin 2 × Action Curves.seven) :=
  signingSeven.map (fun action => (i, action))
    ++ [(i, .networkOutgoing), (i, .managerMessage), (i, .executorTakes 0)]

/-- A node gets the share of another one. -/
def deliveredSeven (i j : Fin 2) : List (Fin 2 × Action Curves.seven) :=
  [(i, .networkReceives (sharesSeven j)), (i, .managerMessage), (i, .executorTakes 0),
    (i, .managerCommand)]

def answeringSeven : List (Fin 2 × Action Curves.seven) :=
  startedSeven 0 ++ startedSeven 1 ++ deliveredSeven 0 1 ++ deliveredSeven 1 0

def NetworkTask.isWaiting : NetworkTask → Bool
  | waiting => true
  | _ => false

/-- Nothing is left to do, and the messages have been delivered. -/
def SettledSeven (cluster : Fin 2 → Node Curves.seven) : Prop :=
  ∀ i, (cluster i).server.work (clusterSeven i) = 0
    ∧ (cluster i).server.managerTask = .waiting ∧ (cluster i).server.networkTask.isWaiting = true
    ∧ (cluster i).server.manager.spawned.map Spawned.instanceId = [signIdSeven]
    ∧ ∀ j, ∀ m ∈ (cluster j).broadcast, m ∈ (cluster i).received

instance (cluster : Fin 2 → Node Curves.seven) : Decidable (SettledSeven cluster) :=
  inferInstanceAs (Decidable (∀ _, _ ∧ _ ∧ _ ∧ _ ∧ ∀ _, ∀ _ ∈ _, _))

theorem served_seven : Served protocolsSeven
    (fun i : Fin 2 => .bls04 .bn254 (bls04KeySeven (UInt16.ofNat (i + 1)))) (signSeven []) 2
    ((Signature.bls04 (K := Curves.seven) .bn254
      ⟨Bls04ThresholdSignature.H .truncating (Curves.seven.pairingCurve .bn254 rfl) []
        ^ dealtSecret 7 fun i => i⟩).toBytes .truncating) := by
  refine .bls04 rfl generateKeys_bls04KeySeven (by decide) (by decide) ?_ ?_ (by decide) ?_
  · intro i
    fin_cases i
    · exact List.mem_cons_self
    · exact List.mem_cons_of_mem _ List.mem_cons_self
  · decide
  · intro i drawn share hshare
    fin_cases i
    all_goals
      obtain rfl := Outcome.ok.inj hshare
      rfl

open Cluster in
theorem cluster_answers_seven :
    ∃ cluster, runAllowed (Cluster.step clusterSeven) (Fair signIdSeven) (fun _ => .new) answeringSeven
        = some cluster
      ∧ ∀ i, (cluster i).server.Answered (clusterSeven i) signIdSeven
        ((Signature.bls04 (K := Curves.seven) .bn254
          ⟨Bls04ThresholdSignature.H .truncating (Curves.seven.pairingCurve .bn254 rfl) []
            ^ dealtSecret 7 fun i => i⟩).toBytes .truncating) := by
  have hrun : (runAllowed (Cluster.step clusterSeven) (Fair signIdSeven) (fun _ => .new)
      answeringSeven).any (fun cluster => SettledSeven cluster) = true := by decide +kernel
  obtain ⟨cluster, hcluster, hend⟩ := (Option.any_eq_true _ _).mp hrun
  have hend : SettledSeven cluster := of_decide_eq_true hend
  have hrespects : ∀ action ∈ answeringSeven,
      action.2.Respects managerSeven.hash256 (signSeven []) := by
    have hstarted : ∀ i, ∀ action ∈ startedSeven i,
        action.2.Respects managerSeven.hash256 (signSeven []) := by
      intro i
      simp only [startedSeven, signingSeven, List.map_cons, List.map_nil, List.cons_append,
        List.nil_append, List.forall_mem_cons]
      refine ⟨fun other hother _ => (Option.some.inj hother).symm, ?_⟩
      exact ⟨trivial, trivial, trivial, trivial, trivial, List.forall_mem_nil _⟩
    have hdelivered : ∀ i j, ∀ action ∈ deliveredSeven i j,
        action.2.Respects managerSeven.hash256 (signSeven []) := by
      intro i j
      simp only [deliveredSeven, List.forall_mem_cons]
      exact ⟨trivial, trivial, trivial, trivial, List.forall_mem_nil _⟩
    intro action haction
    simp only [answeringSeven, List.mem_append] at haction
    rcases haction with ((haction | haction) | haction) | haction
    · exact hstarted 0 action haction
    · exact hstarted 1 action haction
    · exact hdelivered 0 1 action haction
    · exact hdelivered 1 0 action haction
  have hreachable : Reachable (Cluster.step clusterSeven) (fun cluster action =>
      action.2.Respects managerSeven.hash256 (signSeven []) ∧ Fair signIdSeven cluster action)
      (fun _ => .new) cluster := Reachable.start.of_forall hcluster hrespects
  have huniform : Uniform clusterSeven managerSeven.hash256 protocolsSeven :=
    ⟨fun _ => rfl, fun _ => rfl, fun _ => rfl, fun _ => rfl, fun _ => rfl⟩
  have hsettled : Settled clusterSeven (assignInstanceId managerSeven.hash256 (signSeven [])) cluster
      Finset.univ := by
    refine ⟨fun i _ => ?_, fun i _ => ?_, fun i _ => ?_, fun i _ j _ m hm _ => (hend i).2.2.2.2 j m hm⟩
    · obtain ⟨-, hmanager, hnetwork, -⟩ := hend i
      refine ⟨by rw [hmanager]; exact ManagerTask.noConfusion, fun hended => ?_⟩
      rw [hended] at hnetwork
      cases hnetwork
    · have hserver := server_of_reachable hreachable i
      obtain ⟨events, haccounted⟩ := Server.exists_accounted hserver
      exact Server.atRest_of_work_eq_zero haccounted (Server.routed_of_reachable hserver) (hend i).1
    · obtain ⟨-, -, -, hspawned, -⟩ := hend i
      have hmem : signIdSeven ∈ (cluster i).server.manager.spawned.map Spawned.instanceId := by
        rw [hspawned]
        exact List.mem_cons_self
      exact List.mem_map.mp hmem
  refine ⟨cluster, hcluster, fun i => ?_⟩
  exact cluster_answers huniform served_seven (fun i => by fin_cases i <;> rfl) hreachable hsettled
    (by decide) i (Finset.mem_univ i)
end QuorumCrypt
