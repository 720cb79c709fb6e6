import QuorumCrypt.Orchestration.Transit
import QuorumCrypt.Orchestration.Rest
import QuorumCrypt.Protocols.Committee

/-!
# Nodes that answer a request together

The nodes of a committee get the same request, each from its own clients, and send each other their
shares. Any of them may stop at any time, messages may arrive late, twice and in any order, and the tasks
of a node may take turns in any way. When the nodes that are left have come to rest, have got each
other's messages, and are as many as the threshold, then each of them has answered the request, and all
with the same bytes.

Two things are asked of the network and the clock. A message for this request comes from a node of the
committee: a share that is not a good one can keep the good share of the same party out. And no tick
removes a backlog of this request.
-/

namespace QuorumCrypt

open Rust

variable {K : Curves} {S : Type}

/-! ### Nodes that have come to rest -/

namespace Server

variable {ctx : ServerContext K} {self self' : Server K} {events : List (ManagerEvent K)}
  {Q : NetMessage → Prop} {R : StartInstanceRequest K → Prop} {executor : ℕ} {id : String}

def Alive (server : Server K) : Prop := server.managerTask ≠ .ended ∧ server.networkTask ≠ .ended

/-- What that means for the tasks and the channels. -/
structure Idle (server : Server K) : Prop where
  managerTask : server.managerTask = .waiting
  networkTask : server.networkTask = .waiting
  commands : server.commands = []
  incoming : server.incoming = []
  outgoing : server.outgoing = []
  tasks : ∀ executor, server.tasks executor = .absent
    ∨ (server.tasks executor = .receiving ∧ server.channels executor = [])
    ∨ server.tasks executor = .ended
  flushing : ∀ executor, server.flushing executor = []

/-- An executor that is idle waits for a message that is not there. -/
theorem AtRest.tasks (hrest : self.AtRest ctx) (executor : ℕ) : self.tasks executor = .absent
    ∨ (self.tasks executor = .receiving ∧ self.channels executor = [])
    ∨ self.tasks executor = .ended := by
  cases htask : self.tasks executor with
  | absent => exact .inl rfl
  | ended => exact .inr (.inr rfl)
  | starting =>
      have hnone := hrest (.executorStarts executor) rfl
      simp [step, onExecutorStarts, htask] at hnone
  | sending m =>
      have hnone := hrest (.executorResumes executor) rfl
      simp [step, onExecutorResumes, htask] at hnone
  | reporting result =>
      have hnone := hrest (.executorResumes executor) rfl
      simp [step, onExecutorResumes, htask] at hnone
  | receiving =>
      refine .inr (.inl ⟨rfl, ?_⟩)
      cases hchannel : self.channels executor with
      | nil => rfl
      | cons m rest =>
          have hnone := hrest (.executorTakes executor) rfl
          simp [step, onExecutorTakes, htask, hchannel] at hnone

/-- Nothing is left of a backlog: its executor would take something first. -/
theorem AtRest.flushing (hrest : self.AtRest ctx) (haccounted : Accounted ctx events self)
    (hrouted : Routed ctx Q R self) (executor : ℕ) : self.flushing executor = [] := by
  cases hflushing : self.flushing executor with
  | nil => rfl
  | cons m rest =>
      exfalso
      have hnone := hrest (.flushSends executor) rfl
      rcases hrest.tasks executor with htask | ⟨htask, hchannel⟩ | htask
      · obtain ⟨⟨spawned, hspawned, -⟩, -⟩ :=
          hrouted.flushing executor m (hflushing ▸ List.mem_cons_self)
        have htrack := haccounted.tasks executor
        have hlt := (List.getElem?_eq_some_iff.mp hspawned).1
        simp only [OnTrack, htask] at htrack
        omega
      · simp [step, onFlushSends, hflushing, htask, hchannel, Full, channelCapacity] at hnone
      · simp [step, onFlushSends, hflushing, htask] at hnone

theorem AtRest.idle (hrest : self.AtRest ctx) (halive : self.Alive)
    (haccounted : Accounted ctx events self) (hrouted : Routed ctx Q R self) : self.Idle := by
  have hmanager : self.managerTask = .waiting := by
    cases htask : self.managerTask with
    | waiting => rfl
    | ended => exact absurd htask halive.1
    | sending e m =>
        have hnone := hrest .managerResumes rfl
        simp [step, onManagerResumes, htask] at hnone
  have hnetwork : self.networkTask = .waiting := by
    cases htask : self.networkTask with
    | waiting => rfl
    | ended => exact absurd htask halive.2
    | sending m =>
        have hnone := hrest .networkResumes rfl
        simp [step, onNetworkResumes, htask] at hnone
  refine ⟨hmanager, hnetwork, ?_, ?_, ?_, hrest.tasks, hrest.flushing haccounted hrouted⟩
  · cases hcommands : self.commands with
    | nil => rfl
    | cons event commands =>
        have hnone := hrest .managerCommand rfl
        simp only [step, onManagerCommand, hmanager, hcommands] at hnone
        split at hnone <;> cases hnone
  · cases hincoming : self.incoming with
    | nil => rfl
    | cons m incoming =>
        have hnone := hrest .managerMessage rfl
        simp only [step, onManagerMessage, hmanager, hincoming] at hnone
        split at hnone <;> cases hnone
  · cases houtgoing : self.outgoing with
    | nil => rfl
    | cons m outgoing =>
        have hnone := hrest .networkOutgoing rfl
        simp [step, onNetworkOutgoing, hnetwork, houtgoing] at hnone

/-- In a node at rest the first executor of an instance has taken every message that came for it, or it
has ended. -/
theorem Located.taken {m : NetMessage} (h : Located id self m) (hidle : self.Idle)
    (haccounted : Accounted ctx events self) (hfirst : self.manager.IsFirst id executor) :
    m ∈ self.taken executor ∨ self.tasks executor = .ended := by
  cases h with
  | stopped h =>
      rw [hidle.managerTask, hidle.networkTask] at h
      rcases h with h | h <;> cases h
  | network h =>
      rw [hidle.networkTask] at h
      cases h
  | incoming h =>
      rw [hidle.incoming] at h
      cases h
  | backlog hnone h =>
      obtain ⟨spawned, hspawned, hid⟩ := hfirst.spawned
      exact absurd hid (hnone spawned (List.mem_of_getElem? hspawned))
  | sending e _ h =>
      rw [hidle.managerTask] at h
      cases h
  | executor e he h =>
      obtain rfl := he.unique hfirst
      rcases h with h | h | h | h
      · rw [hidle.flushing] at h
        cases h
      · rcases hidle.tasks e with htask | ⟨-, hchannel⟩ | htask
        · have htrack := haccounted.tasks e
          have hlt := hfirst.lt
          simp only [OnTrack, htask] at htrack
          omega
        · rw [hchannel] at h
          cases h
        · exact .inr htask
      · exact .inl h
      · exact .inr h

/-- What comes to the network layer in a step, from the others or from the node itself. -/
def arrival? (ctx : ServerContext K) (server : Server K) : Action K → Option NetMessage
  | .networkOutgoing => server.departure? .networkOutgoing
  | .networkReceives message =>
      match server.networkTask, message.metadata.channel with
      | .waiting, .tob => none
      | .waiting, _ =>
          if NetworkManager.addressed ctx.myId message then some message.toNetMessage else none
      | _, _ => none
  | _ => none

/-- A message that has just come in is on its way. -/
theorem located_arrival {action : Action K} {m : NetMessage} (harrival : self.arrival? ctx action = some m)
    (hstep : self.step ctx action = some self') (id : String) : Located id self' m := by
  cases action with
  | networkOutgoing =>
      simp only [arrival?, departure?] at harrival
      split at harrival
      · rename_i hwaiting
        simp only [step, onNetworkOutgoing] at hstep
        split at hstep
        · rename_i message outgoing _ houtgoing
          obtain rfl := Option.some.inj hstep
          rw [houtgoing, List.head?_cons] at harrival
          obtain rfl := Option.some.inj harrival
          exact located_forward _ id message
        · cases hstep
      · cases harrival
  | networkReceives message =>
      simp only [arrival?] at harrival
      simp only [step, onNetworkReceives] at hstep
      split at harrival
      · cases harrival
      · rename_i hwaiting hchannel
        split at harrival
        · rename_i haddressed
          obtain rfl := Option.some.inj harrival
          rw [hwaiting] at hstep
          cases hcase : message.metadata.channel with
          | tob => exact absurd hcase hchannel
          | gossip =>
              simp only [hcase, if_pos haddressed, Option.some.injEq] at hstep
              exact hstep ▸ located_forward self id _
          | pointToPoint receivers =>
              simp only [hcase, if_pos haddressed, Option.some.injEq] at hstep
              exact hstep ▸ located_forward self id _
        · cases harrival
      · cases harrival
  | _ => cases harrival

end Server

/-! ### The messages of an executor -/

/-- What an executor sends carries the id of its instance. -/
theorem Spawned.instanceId_of_react {ctx : ProtocolContext K} {executor : ℕ} {spawned : Spawned K}
    {taken : List NetMessage} {m : NetMessage} (h : spawned.react ctx executor taken = .send m) :
    m.instanceId = spawned.instanceId := by
  unfold Spawned.react at h
  split at h
  · exact (Execution.of_reactTo_eq_send h).1
  · exact (Execution.of_reactTo_eq_send h).1
  · exact (Execution.of_reactTo_eq_send h).1
  · exact (Execution.of_reactTo_eq_send h).1

/-- A protocol of one round sends its own share and nothing else. -/
theorem ShareRound.mem_sent_runPayloads {P : ShareRound S} {rng : ℕ → Drawn}
    {fromStr : String → Outcome Unit (ShareMessage S)} {payloads : List Bytes} {m : ShareMessage S}
    (h : m ∈ (Execution.runPayloads P.protocol rng fromStr (.new S) payloads).sent) :
    ∃ own, P.ownShare (rng 0) = .ok own ∧ m = .share own := by
  rcases sent_runPayloads P rng fromStr payloads with heq | ⟨own, hown, heq⟩
  · rw [heq] at h
    cases h
  · rw [heq, List.mem_singleton] at h
    exact ⟨own, hown, h⟩

section Committee

variable {ι : Type} {party : ι → ShareRound S} {wire : Wire (ShareMessage S)} {id : String}

/-- A message for the instance is a share that a party of the committee has made. -/
def Honest (party : ι → ShareRound S) (wire : Wire (ShareMessage S)) (id : String) (m : NetMessage) :
    Prop :=
  m.instanceId = id → ∃ j drawn share, (party j).ownShare drawn = .ok share
    ∧ m.messageData = asBytes (wire.toString (.share share))

/-- The executors of a node that follows the code send such messages. -/
theorem Server.honest_of_reaction {ctx : ServerContext K} {self : Server K} {Q : NetMessage → Prop}
    {request : StartInstanceRequest K} {i : ι} (hruns : RunsRound ctx request (party i) wire)
    (hrouted : Routed ctx Q (Sole ctx.hash256 request) self) {executor : ℕ} {taken : List NetMessage}
    {m : NetMessage} (hreaction : self.reactionOf ctx executor taken = .send m) :
    Honest party wire (assignInstanceId ctx.hash256 request) m := by
  intro hid
  unfold reactionOf at hreaction
  split at hreaction
  · cases hreaction
  · rename_i spawned hspawned
    have hsame := Spawned.instanceId_of_react hreaction
    have hfor := spawnedFor_of_sole (hrouted.spawned spawned (List.mem_of_getElem? hspawned))
      (hsame.symm.trans hid)
    rw [hruns spawned executor taken hfor] at hreaction
    obtain ⟨-, message, hsent, hdata⟩ := Execution.of_reactTo_eq_send hreaction
    obtain ⟨own, hown, rfl⟩ := ShareRound.mem_sent_runPayloads hsent
    exact ⟨i, _, own, hown, hdata⟩

end Committee

/-! ### The nodes -/

/-- A node, with a record of what has gone out and what has come in. -/
structure Node (K : Curves) where
  server : Server K
  broadcast : List NetMessage
  received : List NetMessage

def Node.new : Node K := ⟨.new, [], []⟩

def Node.step (ctx : ServerContext K) (node : Node K) (action : Action K) : Option (Node K) :=
  (node.server.step ctx action).map fun server =>
    { server
      broadcast := node.broadcast ++ (node.server.departure? action).toList
      received := node.received ++ (node.server.arrival? ctx action).toList }

/-- What holds of a node in every state. -/
structure NodeInv (ctx : ServerContext K) (Q : NetMessage → Prop) (request : StartInstanceRequest K)
    (id : String) (node : Node K) : Prop where
  accounted : ∃ events, Server.Accounted ctx events node.server
  routed : Server.Routed ctx Q (Server.Sole ctx.hash256 request) node.server
  announced : Server.Announced ctx node.broadcast node.server
  located : ∀ m ∈ node.received, m.instanceId = id → Server.Located id node.server m
  broadcast : ∀ m ∈ node.broadcast, Q m ∧ m ∈ node.received

section NodeSteps

variable {ctx : ServerContext K} {Q : NetMessage → Prop} {request : StartInstanceRequest K} {id : String}
  {node node' : Node K}

theorem nodeInv_new : NodeInv ctx Q request id (.new : Node K) where
  accounted := ⟨[], Server.accounted_new ctx⟩
  routed := Server.routed_new ctx Q _
  announced := Server.announced_new ctx
  located m hm := by cases hm
  broadcast m hm := by cases hm

theorem Server.Routed.departure {self : Server K} {R : StartInstanceRequest K → Prop}
    (h : Server.Routed ctx Q R self) {action : Action K} {m : NetMessage}
    (hdeparture : self.departure? action = some m) : Q m ∧ self.arrival? ctx action = some m := by
  cases action with
  | networkOutgoing =>
      refine ⟨?_, hdeparture⟩
      simp only [Server.departure?] at hdeparture
      split at hdeparture
      · exact h.outgoing m (List.mem_of_mem_head? hdeparture)
      · cases hdeparture
  | _ => cases hdeparture

theorem NodeInv.step (h : NodeInv ctx Q request id node) {action : Action K}
    (hrespects : action.Respects ctx.hash256 request)
    (hsend : ∀ executor taken m, node.server.reactionOf ctx executor taken = .send m → Q m)
    (hreceive : ∀ message, action = .networkReceives message →
      NetworkManager.addressed ctx.myId message = true → Q message.toNetMessage)
    (hfresh : action = .managerTick →
      ∀ data, node.server.manager.backlog.lookup id = some data → data.checked = false)
    (hstep : node.step ctx action = some node') : NodeInv ctx Q request id node' := by
  obtain ⟨server, hserver, rfl⟩ := Option.map_eq_some_iff.mp hstep
  obtain ⟨events, haccounted⟩ := h.accounted
  obtain ⟨more, haccounted'⟩ := haccounted.step hserver
  refine ⟨⟨events ++ more, haccounted'⟩, ?_, h.announced.step hserver, ?_, ?_⟩
  · exact h.routed.step haccounted hsend (Server.sole_of_respects hrespects) hreceive hserver
  · intro m hm hid
    rcases List.mem_append.mp hm with hm | hm
    · exact (h.located m hm hid).step hid haccounted h.routed hfresh hserver
    · exact Server.located_arrival (Option.mem_toList.mp hm) hserver id
  · intro m hm
    rcases List.mem_append.mp hm with hm | hm
    · exact ⟨(h.broadcast m hm).1, List.mem_append_left _ (h.broadcast m hm).2⟩
    · obtain ⟨hproperty, harrival⟩ := h.routed.departure (Option.mem_toList.mp hm)
      exact ⟨hproperty, List.mem_append_right _ (Option.mem_toList.mpr harrival)⟩

end NodeSteps

/-! ### The answer of a node -/

/-- The payload of what an executor sends is the text of the message. -/
theorem unwrapPayload_asBytes {μ : Type} (fromStr : String → Outcome Unit μ) (text : String) :
    unwrapPayload fromStr (asBytes text) = (fromStr text).mapErr fun _ => .internalError := by
  have hbytes : (asBytes text).toByteArray = text.toUTF8 := by
    apply ByteArray.ext
    rw [List.data_toByteArray, asBytes, Array.toArray_toList]
  have htext : String.fromUTF8? text.toUTF8 = some text := by
    unfold String.fromUTF8?
    split
    · rfl
    · rename_i h
      exact absurd text.isValidUTF8 (by simpa using h)
  rw [unwrapPayload, hbytes, htext]

namespace Execution

variable {σ μ ρ : Type} {P : ThresholdRoundProtocol σ μ ρ} {rng : ℕ → ρ} {wire : Wire μ}
  {instanceId : String} {protocol : σ} {taken : List NetMessage}

theorem reactTo_of_finished {result : Bytes}
    (h : (runPayloads P rng wire.fromStr protocol (taken.map NetMessage.messageData)).status
      = .finished result) :
    reactTo P rng wire instanceId protocol taken = .finish (.ok result) := by
  rw [reactTo, reaction, h]

theorem reactTo_of_running
    (h : (runPayloads P rng wire.fromStr protocol (taken.map NetMessage.messageData)).status
      = .running) :
    reactTo P rng wire instanceId protocol taken = .receive
      ∨ ∃ m, reactTo P rng wire instanceId protocol taken = .send m := by
  rw [reactTo, reaction, h]
  dsimp only
  split
  · exact .inl rfl
  · exact .inr ⟨_, rfl⟩

end Execution

section Answer

variable {ι : Type} {party : ι → ShareRound S} {ident : ι → UInt16} {k : ℕ} {output : Bytes}
  {wire : Wire (ShareMessage S)} {ctx : ServerContext K} {request : StartInstanceRequest K}
  {node : Node K} {i : ι} {e : ℕ}

/-- The shares that parties make survive the way over the network. -/
def SharesTravel (party : ι → ShareRound S) (wire : Wire (ShareMessage S)) : Prop :=
  ∀ j drawn share, (party j).ownShare drawn = .ok share →
    wire.fromStr (wire.toString (.share share)) = .ok (.share share)

theorem SharesTravel.unwrapPayload (h : SharesTravel party wire) {m : ShareMessage S}
    (hm : FromParty party m) : unwrapPayload wire.fromStr (asBytes (wire.toString m)) = .ok m := by
  obtain ⟨j, drawn, share, hj, rfl⟩ := hm
  rw [unwrapPayload_asBytes, h j drawn share hj]
  rfl

/-- Messages of parties, as an executor sees them. -/
theorem exists_messages {id : String} {taken : List NetMessage}
    (h : ∀ m ∈ taken, m.instanceId = id ∧ Honest party wire id m) :
    ∃ messages : List (ShareMessage S), taken.map NetMessage.messageData
        = messages.map (fun m => asBytes (wire.toString m))
      ∧ ∀ m ∈ messages, FromParty party m := by
  induction taken with
  | nil => exact ⟨[], rfl, fun m hm => by cases hm⟩
  | cons m taken ih =>
      obtain ⟨messages, hmessages, hparty⟩ := ih fun m hm => h m (List.mem_cons_of_mem _ hm)
      obtain ⟨hid, hhonest⟩ := h m List.mem_cons_self
      obtain ⟨j, drawn, share, hj, hdata⟩ := hhonest hid
      refine ⟨.share share :: messages, ?_, ?_⟩
      · rw [List.map_cons, List.map_cons, hmessages, hdata]
      · intro m' hm'
        rcases List.mem_cons.mp hm' with rfl | hm'
        · exact ⟨j, drawn, share, hj, rfl⟩
        · exact hparty m' hm'

/-- What an executor for the request does next: it finishes with the output when it has heard of enough
parties, and it goes on until then. -/
theorem NodeInv.reactionOf_cases (hcommittee : Committee party ident k output)
    (hruns : RunsRound ctx request (party i) wire) (hwire : SharesTravel party wire)
    (h : NodeInv ctx (Honest party wire (assignInstanceId ctx.hash256 request)) request
      (assignInstanceId ctx.hash256 request) node) {spawned : Spawned K}
    (hspawned : node.server.manager.spawned[e]? = some spawned)
    (hid : spawned.instanceId = assignInstanceId ctx.hash256 request) :
    ∃ messages : List (ShareMessage S), (node.server.taken e).map NetMessage.messageData
        = messages.map (fun m => asBytes (wire.toString m))
      ∧ (∀ m ∈ messages, FromParty party m)
      ∧ (node.server.reactionOf ctx e (node.server.taken e) = .finish (.ok output)
        ∨ ¬ (messages ≠ [] ∧ k ≤ ((party i).heard (ident i) messages).card)
          ∧ (node.server.reactionOf ctx e (node.server.taken e) = .receive
            ∨ ∃ m, node.server.reactionOf ctx e (node.server.taken e) = .send m)) := by
  have hfor := Server.spawnedFor_of_sole (h.routed.spawned spawned (List.mem_of_getElem? hspawned)) hid
  -- what the executor took are messages of parties
  have htaken : ∀ m ∈ node.server.taken e, m.instanceId = assignInstanceId ctx.hash256 request
      ∧ Honest party wire (assignInstanceId ctx.hash256 request) m := by
    intro m hm
    obtain ⟨⟨spawned', hspawned', hid'⟩, hhonest⟩ := h.routed.taken e m hm
    obtain rfl := Option.some.inj (hspawned.symm.trans hspawned')
    exact ⟨hid'.symm.trans hid, hhonest⟩
  obtain ⟨messages, hmessages, hparty⟩ := exists_messages htaken
  refine ⟨messages, hmessages, hparty, ?_⟩
  have hrun : Execution.runPayloads (party i).protocol (ctx.protocols.draws e) wire.fromStr
      (ShareState.new S) ((node.server.taken e).map NetMessage.messageData)
      = (party i).run (ctx.protocols.draws e) messages := by
    rw [hmessages]
    exact Execution.runPayloads_map _ fun m hm => hwire.unwrapPayload (hparty m hm)
  have hstatus := hcommittee.status_run i (ctx.protocols.draws e) hparty
  rw [← hrun] at hstatus
  have hreaction : node.server.reactionOf ctx e (node.server.taken e)
      = Execution.reactTo (party i).protocol (ctx.protocols.draws e) wire spawned.instanceId (.new S)
        (node.server.taken e) := by
    rw [Server.reactionOf, hspawned]
    exact hruns spawned e _ hfor
  rw [hreaction]
  split at hstatus
  · exact .inl (Execution.reactTo_of_finished hstatus)
  · rename_i hfew
    exact .inr ⟨hfew, Execution.reactTo_of_running hstatus⟩

/-- The share of a node at rest has gone out. -/
theorem NodeInv.exists_broadcast (hcommittee : Committee party ident k output)
    (hruns : RunsRound ctx request (party i) wire)
    (h : NodeInv ctx (Honest party wire (assignInstanceId ctx.hash256 request)) request
      (assignInstanceId ctx.hash256 request) node)
    (halive : node.server.Alive) (hrest : node.server.AtRest ctx)
    (hfirst : node.server.manager.IsFirst (assignInstanceId ctx.hash256 request) e) :
    ∃ drawn share, (party i).ownShare drawn = .ok share
      ∧ ⟨assignInstanceId ctx.hash256 request, asBytes (wire.toString (.share share))⟩
        ∈ node.broadcast := by
  obtain ⟨events, haccounted⟩ := h.accounted
  have hidle := hrest.idle halive haccounted h.routed
  obtain ⟨spawned, hspawned, hid⟩ := hfirst.spawned
  have hfor := Server.spawnedFor_of_sole (h.routed.spawned spawned (List.mem_of_getElem? hspawned)) hid
  obtain ⟨share, hshare⟩ := hcommittee.returns i (ctx.protocols.draws e 0)
  refine ⟨_, share, hshare, ?_⟩
  have hreaction : node.server.reactionOf ctx e []
      = .send ⟨assignInstanceId ctx.hash256 request, asBytes (wire.toString (.share share))⟩ := by
    rw [Server.reactionOf, hspawned]
    change spawned.react ctx.protocols e [] = _
    rw [hruns spawned e [] hfor, ← hid, Execution.reactTo]
    have hstart : Execution.runPayloads (party i).protocol (ctx.protocols.draws e) wire.fromStr
        (ShareState.new S) [] = _ := ShareRound.start_eq hshare
    rw [List.map_nil, hstart]
    rfl
  have hpast : ∀ task, node.server.tasks e = task →
      task = .absent ∨ task = .receiving ∨ task = .ended := by
    rintro _ rfl
    exact (hidle.tasks e).imp_right (Or.imp_left And.left)
  rcases h.announced e _ hreaction with htask | htask | htask | hstopped | hmem
  · have htrack := haccounted.tasks e
    have hlt := hfirst.lt
    simp only [Server.OnTrack, htask] at htrack
    omega
  · rcases hpast _ htask with h | h | h
    all_goals cases h
  · rcases hpast _ htask with h | h | h
    all_goals cases h
  · exact absurd hstopped halive.2
  · rwa [hidle.outgoing, List.append_nil] at hmem

/-- A node at rest that has got the first messages of enough parties, its own among them, has the output
for the result of its first executor. -/
theorem NodeInv.answers (hcommittee : Committee party ident k output)
    (hruns : RunsRound ctx request (party i) wire) (hwire : SharesTravel party wire)
    (h : NodeInv ctx (Honest party wire (assignInstanceId ctx.hash256 request)) request
      (assignInstanceId ctx.hash256 request) node)
    (halive : node.server.Alive) (hrest : node.server.AtRest ctx)
    (hfirst : node.server.manager.IsFirst (assignInstanceId ctx.hash256 request) e)
    {from' : Finset ι} (hi : i ∈ from') (hk : k ≤ from'.card)
    (hheard : ∀ j ∈ from', ∃ drawn share, (party j).ownShare drawn = .ok share
      ∧ ⟨assignInstanceId ctx.hash256 request, asBytes (wire.toString (.share share))⟩
        ∈ node.received) {events : List (ManagerEvent K)}
    (haccounted : Server.Accounted ctx events node.server) :
    .terminated e (.ok output) ∈ events := by
  have hidle := hrest.idle halive haccounted h.routed
  obtain ⟨spawned, hspawned, hid⟩ := hfirst.spawned
  obtain ⟨messages, hmessages, hparty, hcases⟩ :=
    h.reactionOf_cases hcommittee hruns hwire hspawned hid
  have hended : node.server.tasks e = .ended := by
    by_contra hopen
    have htrack := haccounted.tasks e
    rcases hidle.tasks e with htask | ⟨htask, -⟩ | htask
    · simp only [Server.OnTrack, htask] at htrack
      have hlt := hfirst.lt
      omega
    · -- it has heard of all these parties
      have hmem : ∀ j ∈ from', ∃ drawn share, (party j).ownShare drawn = .ok share
          ∧ .share share ∈ messages := by
        intro j hj
        obtain ⟨drawn, share, hshare, hreceived⟩ := hheard j hj
        have hlocated := h.located _ hreceived rfl
        have hmem := (hlocated.taken hidle haccounted hfirst).resolve_right hopen
        have hdata := List.mem_map_of_mem (f := NetMessage.messageData) hmem
        rw [hmessages, List.mem_map] at hdata
        obtain ⟨m, hm, hsame⟩ := hdata
        have hdecode := hwire.unwrapPayload (hparty m hm)
        rw [hsame, hwire.unwrapPayload ⟨j, drawn, share, hshare, rfl⟩] at hdecode
        obtain rfl := Outcome.ok.inj hdecode
        exact ⟨drawn, share, hshare, hm⟩
      have hsubset : from'.image ident ⊆ (party i).heard (ident i) messages := by
        intro id hid'
        obtain ⟨j, hj, rfl⟩ := Finset.mem_image.mp hid'
        obtain ⟨drawn, share, hshare, hm⟩ := hmem j hj
        refine Finset.mem_insert_of_mem (List.mem_toFinset.mpr ?_)
        rw [← hcommittee.getId i j drawn share hshare]
        exact List.mem_map_of_mem (List.mem_filterMap.mpr ⟨_, hm, rfl⟩)
      have hcard : k ≤ ((party i).heard (ident i) messages).card := by
        calc k ≤ from'.card := hk
          _ = (from'.image ident).card := (Finset.card_image_of_injective _ hcommittee.injective).symm
          _ ≤ _ := Finset.card_le_card hsubset
      have hne : messages ≠ [] := by
        obtain ⟨drawn, share, -, hm⟩ := hmem i hi
        exact List.ne_nil_of_mem hm
      have hreaction := hcases.resolve_right fun hfew => hfew.1 ⟨hne, hcard⟩
      simp only [Server.OnTrack, htask, hreaction] at htrack
      rcases htrack.2 with hreceive | ⟨m, hsend⟩
      · cases hreceive
      · cases hsend
    · exact hopen htask
  -- the executor has not failed, so it has reported
  rcases haccounted.ended e hended with ⟨result, hreport⟩ | hstopped | hstopped | hpanic
  · have hresult := (haccounted.reported e result hreport).2
    rcases hcases with hfinish | ⟨-, hreceive | ⟨m, hsend⟩⟩
    · obtain rfl := Reaction.finish.inj (hresult.symm.trans hfinish)
      rw [Server.reports, hidle.commands, List.append_nil] at hreport
      exact mem_reportsOf.mp hreport
    · cases hresult.symm.trans hreceive
    · cases hresult.symm.trans hsend
  · exact absurd hstopped halive.1
  · exact absurd hstopped halive.2
  · rcases hcases with hfinish | ⟨-, hreceive | ⟨m, hsend⟩⟩
    · cases hpanic.symm.trans hfinish
    · cases hpanic.symm.trans hreceive
    · cases hpanic.symm.trans hsend

/-- Whatever an executor for the request comes to is the output. -/
theorem NodeInv.only (hcommittee : Committee party ident k output)
    (hruns : RunsRound ctx request (party i) wire) (hwire : SharesTravel party wire)
    (h : NodeInv ctx (Honest party wire (assignInstanceId ctx.hash256 request)) request
      (assignInstanceId ctx.hash256 request) node) {result : Except ProtocolError Bytes}
    (hcomputed : node.server.Computed ctx (assignInstanceId ctx.hash256 request) result) :
    result = .ok output := by
  obtain ⟨e, spawned, hspawned, hid, -, hreact⟩ := hcomputed
  obtain ⟨messages, -, -, hcases⟩ := h.reactionOf_cases hcommittee hruns hwire hspawned hid
  have hreaction : node.server.reactionOf ctx e (node.server.taken e) = .finish result := by
    rw [Server.reactionOf, hspawned]
    exact hreact
  rcases hcases with hfinish | ⟨-, hreceive | ⟨m, hsend⟩⟩
  · exact Reaction.finish.inj (hreaction.symm.trans hfinish)
  · cases hreaction.symm.trans hreceive
  · cases hreaction.symm.trans hsend

end Answer

end QuorumCrypt
