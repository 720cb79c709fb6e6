import QuorumCrypt.Orchestration.InstanceManager
import QuorumCrypt.Schemes.Serialization

/-!
# The loop of the network layer

`network/src/network_manager/network_manager.rs` with the messages of `types/message.rs` and the function
`deliver` of the two gossip modules. Bytes from the network are turned into a message by a conversion that
panics when they are no UTF-8 or no JSON of a message, and a message for the total order broadcast runs
into `todo!()`. Either ends the task of the network layer, and with it the node hears nothing any more.

The reader of JSON, `serde_json::from_str`, is a parameter.
-/

namespace QuorumCrypt

open Rust

inductive Channel where
  | gossip
  | tob
  | pointToPoint (receiverId : List UInt32)
  deriving DecidableEq

structure NetMessageMetadata where
  senderId : UInt16
  channel : Channel
  deriving DecidableEq

/-- A message as it is on the network. Behind the network layer only the instance and the data count. -/
structure WireMessage extends NetMessage where
  metadata : NetMessageMetadata
  deriving DecidableEq

/-- How `run` ends, if it does. -/
inductive NetworkStatus where
  | running
  | returned (result : Except String Unit)
  | panicked

structure NetworkManager where
  myId : UInt32
  /-- What was broadcast, oldest first. -/
  broadcasts : List WireMessage
  /-- What was sent to the instance manager, oldest first. -/
  incoming : List WireMessage
  status : NetworkStatus

/-- What the gossip module gets from the network. -/
inductive GossipEvent where
  | message (data : Bytes)
  | other

/-- What wakes the `select!` of the loop. -/
inductive NetworkEvent where
  | outgoing (message : Option WireMessage)
  | gossip (event : GossipEvent)
  | gossipClosed
  | shutdown

namespace NetworkManager

variable (fromStr : String → Option WireMessage)

/-- `From<Vec<u8>> for NetMessage`. -/
def fromVec (vec : Bytes) : Outcome String WireMessage := do
  let text ← Outcome.unwrap (fromUtf8 vec)
  Outcome.unwrap (fromStr text)

/-- `deliver`: any other event of the network is passed over. -/
def deliver : GossipEvent → Outcome String (Option WireMessage)
  | .message data => some <$> fromVec fromStr data
  | .other => .ok none

/-- After `init`. -/
def new (myId : UInt32) : NetworkManager :=
  { myId, broadcasts := [], incoming := [], status := .running }

def forward (self : NetworkManager) (message : WireMessage) : NetworkManager :=
  { self with incoming := self.incoming ++ [message] }

/-- The branch of a message from the network. -/
def onGossip (self : NetworkManager) (message : WireMessage) : NetworkManager :=
  match message.metadata.channel with
  | .gossip => self.forward message
  | .tob => { self with status := .panicked }
  | .pointToPoint receiverId => if self.myId ∈ receiverId then self.forward message else self

/-- One turn of the loop. -/
def onEvent (self : NetworkManager) (event : NetworkEvent) : NetworkManager :=
  match self.status with
  | .returned _ | .panicked => self
  | .running =>
      match event with
      | .outgoing none =>
          { self with status := .returned (.error "The protocol layer has closed the channel") }
      | .outgoing (some message) =>
          -- a message of this node comes back to it
          { self with broadcasts := self.broadcasts ++ [message] }.forward message
      | .gossip event =>
          match deliver fromStr event with
          | .ok none => self
          | .ok (some message) => self.onGossip message
          | .err _ | .panic => { self with status := .panicked }
      | .gossipClosed => { self with status := .returned (.error "The gossip channel has closed") }
      | .shutdown => { self with status := .returned (.ok ()) }

def run (self : NetworkManager) (events : List NetworkEvent) : NetworkManager :=
  events.foldl (onEvent fromStr) self

/-! ### What the loop should do -/

/-- The node is among those a message is for. -/
def addressed (myId : UInt32) (message : WireMessage) : Bool :=
  match message.metadata.channel with
  | .gossip | .tob => true
  | .pointToPoint receiverId => decide (myId ∈ receiverId)

/-- What the loop has to do with while nobody stops it. -/
inductive Traffic where
  | outgoing (message : WireMessage)
  | received (data : Bytes)
  | other

def Traffic.toEvent : Traffic → NetworkEvent
  | .outgoing message => .outgoing (some message)
  | .received data => .gossip (.message data)
  | .other => .gossip .other

/-- The message that the instance manager should get. -/
def forwarded? (myId : UInt32) : Traffic → Option WireMessage
  | .outgoing message => some message
  | .received data => ((fromUtf8 data).bind fromStr).filter (addressed myId)
  | .other => none

/-- The bytes are those of a message for another channel than the total order broadcast. -/
def Handled (data : Bytes) : Prop :=
  ∃ message, (fromUtf8 data).bind fromStr = some message ∧ message.metadata.channel ≠ .tob

/-- The loop goes on, and the instance manager got every message for this node once, unchanged and in
order, and no other. -/
structure Survives (manager : NetworkManager) (traffic : List Traffic) : Prop where
  running : (run fromStr manager (traffic.map Traffic.toEvent)).status = .running
  incoming : (run fromStr manager (traffic.map Traffic.toEvent)).incoming
    = manager.incoming ++ traffic.filterMap (forwarded? fromStr manager.myId)

/-! ### When it does -/

variable {fromStr}

theorem deliver_message_eq {data : Bytes} :
    deliver fromStr (.message data) = match (fromUtf8 data).bind fromStr with
      | some message => .ok (some message)
      | none => .panic := by
  cases htext : fromUtf8 data with
  | none => simp [deliver, fromVec, htext]
  | some text => cases hjson : fromStr text <;> simp [deliver, fromVec, htext, hjson]

/-- A loop that has ended stays as it is. -/
theorem run_of_ended {self : NetworkManager} (h : self.status ≠ .running) (events : List NetworkEvent) :
    run fromStr self events = self := by
  induction events with
  | nil => rfl
  | cons event events ih =>
      have hstep : onEvent fromStr self event = self := by
        unfold onEvent
        split
        · rfl
        · rfl
        · rename_i hrunning
          exact absurd hrunning h
      rw [run, List.foldl_cons, hstep]
      exact ih

/-- A message that the loop can handle is sent on exactly when it is for this node. -/
theorem onGossip_eq (self : NetworkManager) {message : WireMessage}
    (htob : message.metadata.channel ≠ .tob) :
    self.onGossip message = if addressed self.myId message then self.forward message else self := by
  obtain ⟨base, senderId, channel⟩ := message
  cases channel with
  | gossip => rfl
  | tob => exact absurd rfl htob
  | pointToPoint receiverId => simp [onGossip, addressed]

/-- One turn that can be handled: the loop goes on, and sends what it should. -/
theorem onEvent_of_handled {self : NetworkManager} (hrunning : self.status = .running)
    {traffic : Traffic} (hhandled : ∀ data, traffic = .received data → Handled fromStr data) :
    (onEvent fromStr self traffic.toEvent).status = .running
      ∧ (onEvent fromStr self traffic.toEvent).myId = self.myId
      ∧ (onEvent fromStr self traffic.toEvent).incoming
        = self.incoming ++ (forwarded? fromStr self.myId traffic).toList := by
  cases traffic with
  | outgoing message => simp [Traffic.toEvent, onEvent, hrunning, forward, forwarded?]
  | other => simp [Traffic.toEvent, onEvent, hrunning, deliver, forwarded?]
  | received data =>
      obtain ⟨message, hmessage, htob⟩ := hhandled data rfl
      simp only [Traffic.toEvent, onEvent, hrunning, deliver_message_eq, hmessage, onGossip_eq self htob,
        forwarded?]
      by_cases haddressed : addressed self.myId message = true
      · simp [Option.filter, haddressed, hrunning, forward]
      · simp [Option.filter, haddressed, hrunning]

/-- Bytes that cannot be handled end the loop with a panic. -/
theorem status_of_not_handled {self : NetworkManager} (hrunning : self.status = .running) {data : Bytes}
    (hhandled : ¬ Handled fromStr data) :
    (onEvent fromStr self (.gossip (.message data))).status = .panicked := by
  cases hmessage : (fromUtf8 data).bind fromStr with
  | none => simp [onEvent, hrunning, deliver_message_eq, hmessage]
  | some message =>
      have hchannel : message.metadata.channel = .tob := by
        by_contra hne
        exact hhandled ⟨message, hmessage, hne⟩
      simp [onEvent, hrunning, deliver_message_eq, hmessage, onGossip, hchannel]

/-- The loop survives what it gets, in whatever order, exactly when all the bytes that it receives are
those of messages, and none is for the total order broadcast. -/
theorem survives_iff (myId : UInt32) (traffic : List Traffic) :
    Survives fromStr (new myId) traffic ↔ ∀ data, .received data ∈ traffic → Handled fromStr data := by
  suffices hrun : ∀ self : NetworkManager, self.status = .running →
      (Survives fromStr self traffic ↔ ∀ data, .received data ∈ traffic → Handled fromStr data) from
    hrun (new myId) rfl
  induction traffic with
  | nil =>
      intro self hrunning
      exact iff_of_true ⟨hrunning, by simp [run]⟩ (by simp)
  | cons first traffic ih =>
      intro self hrunning
      by_cases hfirst : ∀ data, first = .received data → Handled fromStr data
      · obtain ⟨hrunning', hid, hincoming⟩ := onEvent_of_handled hrunning hfirst
        have hsurvives : Survives fromStr self (first :: traffic)
            ↔ Survives fromStr (onEvent fromStr self first.toEvent) traffic := by
          constructor
          · intro h
            refine ⟨h.running, ?_⟩
            rw [hid, hincoming, List.append_assoc]
            refine h.incoming.trans ?_
            cases hforwarded : forwarded? fromStr self.myId first <;> simp [hforwarded]
          · intro h
            refine ⟨h.running, h.incoming.trans ?_⟩
            rw [hid, hincoming, List.append_assoc]
            cases hforwarded : forwarded? fromStr self.myId first <;> simp [hforwarded]
        rw [hsurvives, ih _ hrunning']
        constructor
        · intro h data hdata
          obtain heq | hmem := List.mem_cons.mp hdata
          · exact hfirst data heq.symm
          · exact h data hmem
        · exact fun h data hdata => h data (List.mem_cons_of_mem _ hdata)
      · push Not at hfirst
        obtain ⟨data, rfl, hnot⟩ := hfirst
        refine iff_of_false (fun h => ?_) fun h => hnot (h data List.mem_cons_self)
        have hpanicked := status_of_not_handled hrunning hnot
        have hstays : run fromStr (onEvent fromStr self (.gossip (.message data)))
            (traffic.map Traffic.toEvent) = onEvent fromStr self (.gossip (.message data)) :=
          run_of_ended (by rw [hpanicked]; exact NetworkStatus.noConfusion) _
        have hstatus := h.running
        change (run fromStr (onEvent fromStr self (.gossip (.message data)))
          (traffic.map Traffic.toEvent)).status = .running at hstatus
        rw [hstays, hpanicked] at hstatus
        cases hstatus

/-- A gossip message of party 1, and its JSON. -/
def gossipMessage : WireMessage :=
  { instanceId := "a", messageData := [7], metadata := { senderId := 1, channel := .gossip } }

def gossipText : String :=
  "\x7b\"instance_id\":\"a\",\"metadata\":\x7b\"sender_id\":1,\"channel\":\"Gossip\"\x7d,"
    ++ "\"message_data\":[7]\x7d"

/-- One byte that is no UTF-8 ends the loop, and the message after it is lost. -/
theorem invalid_byte_ends_loop :
    let fromStr := fun text => if text = gossipText then some gossipMessage else none
    let traffic : List Traffic := [.received [0xff], .received gossipText.toUTF8.toList]
    let final := run fromStr (new 1) (traffic.map Traffic.toEvent)
    final.status = .panicked ∧ final.incoming = [] ∧ ¬ Survives fromStr (new 1) traffic := by
  intro fromStr traffic final
  have hfirst : fromUtf8 [0xff] = none := rfl
  have hnot : ¬ Handled fromStr [0xff] := by
    rintro ⟨message, hmessage, -⟩
    rw [hfirst] at hmessage
    cases hmessage
  have hpanicked : (onEvent fromStr (new 1) (.gossip (.message [0xff]))).status = .panicked :=
    status_of_not_handled rfl hnot
  have hfinal : final = onEvent fromStr (new 1) (.gossip (.message [0xff])) :=
    run_of_ended (by rw [hpanicked]; exact NetworkStatus.noConfusion) _
  refine ⟨by rw [hfinal, hpanicked], by rw [hfinal]; rfl, fun h => ?_⟩
  have hrunning : final.status = .running := h.running
  rw [hfinal, hpanicked] at hrunning
  cases hrunning

end NetworkManager

end QuorumCrypt
