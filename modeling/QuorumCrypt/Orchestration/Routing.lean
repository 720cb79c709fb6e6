import QuorumCrypt.Orchestration.Reports

/-!
# The messages in a node

A message comes from an executor of the node or from the network. It goes through the network layer and
the manager, may lie in a backlog for a while, and ends with an executor. On its way nothing is made up
and nothing is sent to the wrong executor (`Routed`): what all executors send and what the network brings
has in common is true of every message in the node, and an executor only takes messages for its instance.
-/

namespace QuorumCrypt

open Rust

variable {K : Curves}

/-- What comes over the channel of commands. -/
def ManagerEvent.isCommand : ManagerEvent K → Bool
  | command _ _ => true
  | terminated _ _ => true
  | message _ => false
  | tick => false

namespace InstanceManager

variable {ctx : ManagerContext K} {self self' : InstanceManager K} {event : ManagerEvent K}

/-- A command starts one executor, which gets what is in the backlog of its instance, or none. -/
theorem turn_command_cases (h : Turn ctx self event self') (hcommand : event.isCommand = true) :
    (self'.spawned = self.spawned ∧ self'.backlog = self.backlog
      ∧ ∀ executor, messagesTo executor (self'.effects.drop self.effects.length) = [])
    ∨ ∃ request protocol, self'.spawned
        = self.spawned ++ [⟨assignInstanceId ctx.hash256 request, request, protocol⟩]
      ∧ assignInstanceId ctx.hash256 request ∉ self.instances.instanceData
      ∧ event.request? = some request
      ∧ privateKeyFor ctx request = some protocol.key
      ∧ newProtocol ctx.draws protocol.key request = .ok protocol
      ∧ self'.backlog = self.backlog.erase (assignInstanceId ctx.hash256 request)
      ∧ ∀ executor, messagesTo executor (self'.effects.drop self.effects.length)
        = if self.spawned.length = executor then self.backlogged (assignInstanceId ctx.hash256 request)
          else [] := by
  have hnone : (self'.spawned = self.spawned ∧ self'.backlog = self.backlog) →
      self'.spawned.length ≤ self.spawned.length → (∀ message, event ≠ .message message) →
      self'.spawned = self.spawned ∧ self'.backlog = self.backlog
        ∧ ∀ executor, messagesTo executor (self'.effects.drop self.effects.length) = [] := by
    intro hsame hle hevent
    refine ⟨hsame.1, hsame.2, fun executor => messagesTo_turn h hevent ?_⟩
    omega
  cases h with
  | known _ _ => exact .inl (hnone ⟨rfl, rfl⟩ le_rfl fun _ h => by cases h)
  | refused _ _ _ => exact .inl (hnone ⟨rfl, rfl⟩ le_rfl fun _ h => by cases h)
  | @launched command hclient request responder syncResponder protocol hcreation hnew hkey hprotocol =>
      refine .inr ⟨request, protocol, ?_, hnew, request?_of_creation hcreation, hkey, hprotocol, ?_,
        fun executor => ?_⟩
      · rw [spawned_emit, spawned_forwardBackloggedMessages, launch]
      · rw [forwardBackloggedMessages_launch]
        rfl
      · rw [effects_launch, messagesTo_append, messagesTo_map_forwarded]
        exact List.append_nil _
  | status _ => exact .inl (hnone ⟨rfl, rfl⟩ le_rfl fun _ h => by cases h)
  | absent _ => exact .inl (hnone ⟨rfl, rfl⟩ le_rfl fun _ h => by cases h)
  | settled _ _ => exact .inl (hnone ⟨rfl, rfl⟩ le_rfl fun _ h => by cases h)
  | message message => cases hcommand
  | tick => cases hcommand

theorem backlogged_erase (backlog : HashMap String BacklogData) (id id' : String)
    (h : self.backlog = backlog.erase id) (message : NetMessage) (hmem : message ∈ self.backlogged id') :
    id' ≠ id ∧ message ∈ ((backlog.lookup id').elim [] BacklogData.messages) := by
  rw [backlogged, h] at hmem
  by_cases heq : id' = id
  · rw [heq, AList.lookup_erase] at hmem
    cases hmem
  · rw [AList.lookup_erase_ne heq] at hmem
    exact ⟨heq, hmem⟩

/-- An arrival changes the backlog of its own instance only. -/
theorem mem_backlogged_onNetMessage {message m : NetMessage} {id : String}
    (h : m ∈ (self.onNetMessage message).backlogged id) :
    m ∈ self.backlogged id ∨ (m = message ∧ id = message.instanceId) := by
  by_cases hmem : message.instanceId ∈ self.instances.instanceData
  · have hsame : (self.onNetMessage message).backlog = self.backlog := by
      obtain ⟨inst, hinst⟩ := Option.isSome_iff_exists.mp (AList.lookup_isSome.mpr hmem)
      rw [onNetMessage, hinst]
      dsimp only
      split <;> rfl
    rw [backlogged, hsame] at h
    exact .inl h
  by_cases heq : id = message.instanceId
  · subst heq
    rw [backlogged, lookup_backlog_onNetMessage hmem] at h
    cases hlookup : self.backlog.lookup message.instanceId with
    | none =>
        rw [hlookup] at h
        exact .inr ⟨List.mem_singleton.mp h, rfl⟩
    | some data =>
        rw [hlookup] at h
        rcases List.mem_append.mp h with h | h
        · left
          rw [backlogged, hlookup]
          exact h
        · exact .inr ⟨List.mem_singleton.mp h, rfl⟩
  · left
    rw [onNetMessage, AList.lookup_eq_none.mpr hmem, backlogged] at h
    dsimp only at h
    rwa [AList.lookup_insert_ne heq] at h

theorem mem_backlogged_onTick {m : NetMessage} {id : String} (h : m ∈ self.onTick.backlogged id) :
    m ∈ self.backlogged id := by
  rw [backlogged, lookup_onTick] at h
  rw [backlogged]
  cases hlookup : self.backlog.lookup id with
  | none =>
      rw [hlookup] at h
      cases h
  | some data =>
      rw [hlookup, Option.bind_some] at h
      split at h
      · cases h
      · exact h

end InstanceManager

/-- The executor was spawned for one of the requests, with the key and the protocol for it. -/
structure SpawnedFor (ctx : ManagerContext K) (R : StartInstanceRequest K → Prop)
    (spawned : Spawned K) : Prop where
  request : R spawned.request
  instanceId : spawned.instanceId = assignInstanceId ctx.hash256 spawned.request
  key : InstanceManager.privateKeyFor ctx spawned.request = some spawned.protocol.key
  protocol : InstanceManager.newProtocol ctx.draws spawned.protocol.key spawned.request
    = .ok spawned.protocol

namespace Server

variable {ctx : ServerContext K} {self self' : Server K} {executor : ℕ} {message : NetMessage}
  {Q : NetMessage → Prop} {R : StartInstanceRequest K → Prop} {events : List (ManagerEvent K)}

/-- The message is for the instance of the executor. -/
def Meant (server : Server K) (executor : ℕ) (message : NetMessage) : Prop :=
  ∃ spawned, server.manager.spawned[executor]? = some spawned
    ∧ spawned.instanceId = message.instanceId

theorem Meant.of_isPrefix (h : self.Meant executor message)
    (hextends : self.manager.spawned <+: self'.manager.spawned) : self'.Meant executor message := by
  obtain ⟨spawned, hspawned, hid⟩ := h
  obtain ⟨more, hmore⟩ := hextends
  refine ⟨spawned, ?_, hid⟩
  rw [← hmore, List.getElem?_append_left (List.getElem?_eq_some_iff.mp hspawned).1, hspawned]

/-- Every message in the node has the property `Q` and lies where it belongs, and every request has the
property `R`. -/
structure Routed (ctx : ServerContext K) (Q : NetMessage → Prop) (R : StartInstanceRequest K → Prop)
    (server : Server K) : Prop where
  outgoing : ∀ m ∈ server.outgoing, Q m
  network : ∀ m, server.networkTask = .sending m → Q m
  incoming : ∀ m ∈ server.incoming, Q m
  backlog : ∀ id, ∀ m ∈ server.manager.backlogged id, m.instanceId = id ∧ Q m
  manager : ∀ executor m, server.managerTask = .sending executor m → server.Meant executor m ∧ Q m
  flushing : ∀ executor, ∀ m ∈ server.flushing executor, server.Meant executor m ∧ Q m
  channels : ∀ executor, ∀ m ∈ server.channels executor, server.Meant executor m ∧ Q m
  taken : ∀ executor, ∀ m ∈ server.taken executor, server.Meant executor m ∧ Q m
  tasks : ∀ executor m, server.tasks executor = .sending m → Q m
  commands : ∀ event ∈ server.clients ++ server.commands, event.isCommand = true
    ∧ ∀ request, event.request? = some request → R request
  spawned : ∀ spawned ∈ server.manager.spawned, SpawnedFor ctx.toManagerContext R spawned

theorem routed_new (ctx : ServerContext K) (Q : NetMessage → Prop) (R : StartInstanceRequest K → Prop) :
    Routed ctx Q R (new : Server K) where
  outgoing _ h := by cases h
  network _ h := by cases h
  incoming _ h := by cases h
  backlog _ _ h := by cases h
  manager _ _ h := by cases h
  flushing _ _ h := by cases h
  channels _ _ h := by cases h
  taken _ _ h := by cases h
  tasks _ _ h := by cases h
  commands _ h := by cases h
  spawned _ h := by cases h

/-! ### Sends -/

theorem Routed.push (h : Routed ctx Q R self) (hmeant : self.Meant executor message ∧ Q message) :
    Routed ctx Q R (self.push executor message) where
  outgoing := h.outgoing
  network := h.network
  incoming := h.incoming
  backlog := h.backlog
  manager := h.manager
  flushing := h.flushing
  channels executor' m hm := by
    by_cases heq : executor' = executor
    · subst heq
      simp only [Server.push, Function.update_self, List.mem_append, List.mem_singleton] at hm
      rcases hm with hm | rfl
      · exact h.channels executor' m hm
      · exact hmeant
    · simp only [Server.push, Function.update_of_ne heq] at hm
      exact h.channels executor' m hm
  taken := h.taken
  tasks := h.tasks
  commands := h.commands
  spawned := h.spawned

theorem Routed.sendMessage (h : Routed ctx Q R self) (hmeant : self.Meant executor message ∧ Q message) :
    Routed ctx Q R (self.sendMessage executor message) := by
  unfold Server.sendMessage
  split
  · exact { h with manager := fun _ _ hsending => ManagerTask.noConfusion hsending }
  · split
    · refine { h with manager := fun executor' m hsending => ?_ }
      obtain ⟨rfl, rfl⟩ := ManagerTask.sending.inj hsending
      exact hmeant
    · exact { h.push hmeant with manager := fun _ _ hsending => ManagerTask.noConfusion hsending }

theorem Routed.forward (h : Routed ctx Q R self) (hmessage : Q message) :
    Routed ctx Q R (self.forward message) := by
  unfold Server.forward
  split
  · exact { h with network := fun _ hsending => NetworkTask.noConfusion hsending }
  · split
    · refine { h with network := fun m hsending => ?_ }
      obtain rfl := NetworkTask.sending.inj hsending
      exact hmessage
    · refine { h with
        network := fun _ hsending => NetworkTask.noConfusion hsending
        incoming := fun m hm => ?_ }
      rcases List.mem_append.mp hm with hm | hm
      · exact h.incoming m hm
      · exact List.mem_singleton.mp hm ▸ hmessage

theorem Routed.setTask (h : Routed ctx Q R self) {task : ExecutorTask}
    (htask : ∀ m, task = .sending m → Q m) : Routed ctx Q R (self.setTask executor task) := by
  refine { h with tasks := fun executor' m hsending => ?_ }
  by_cases heq : executor' = executor
  · subst heq
    simp only [Server.setTask, Function.update_self] at hsending
    exact htask m hsending
  · simp only [Server.setTask, Function.update_of_ne heq] at hsending
    exact h.tasks executor' m hsending

theorem Routed.perform (h : Routed ctx Q R self) {reaction : Reaction}
    (hsend : ∀ m, reaction = .send m → Q m) : Routed ctx Q R (self.perform executor reaction) := by
  obtain ⟨after, hafter⟩ : ∃ after, after = self.perform executor reaction := ⟨_, rfl⟩
  have hperformed := performed_perform self executor reaction
  rw [← hafter] at hperformed ⊢
  have hidle : ∀ task : ExecutorTask, (∀ m, task ≠ .sending m) →
      Routed ctx Q R (self.setTask executor task) := by
    intro task hne
    exact h.setTask fun m heq => absurd heq (hne m)
  cases hperformed with
  | receives => exact hidle _ fun _ => ExecutorTask.noConfusion
  | panics => exact hidle _ fun _ => ExecutorTask.noConfusion
  | unsent _ => exact hidle _ fun _ => ExecutorTask.noConfusion
  | @blocked message _ _ =>
      refine h.setTask fun m hsending => ?_
      obtain rfl := ExecutorTask.sending.inj hsending
      exact hsend _ rfl
  | @sent message _ _ =>
      refine { hidle .receiving fun _ => ExecutorTask.noConfusion with outgoing := fun m hm => ?_ }
      rcases List.mem_append.mp hm with hm | hm
      · exact h.outgoing m hm
      · exact List.mem_singleton.mp hm ▸ hsend _ rfl
  | lost _ => exact hidle _ fun _ => ExecutorTask.noConfusion
  | waits _ _ => exact hidle _ fun _ => ExecutorTask.noConfusion
  | @reported result _ _ =>
      refine { hidle .ended fun _ => ExecutorTask.noConfusion with commands := fun event hevent => ?_ }
      rw [← List.append_assoc] at hevent
      rcases List.mem_append.mp hevent with hevent | hevent
      · exact h.commands event hevent
      · rw [List.mem_singleton.mp hevent]
        exact ⟨rfl, fun _ hrequest => by cases hrequest⟩

/-! ### Steps -/

theorem Routed.onRequest (h : Routed ctx Q R self) {event : ManagerEvent K}
    (hevent : event.isCommand = true ∧ ∀ request, event.request? = some request → R request) :
    Routed ctx Q R (self.onRequest event) := by
  have hall : ∀ event' ∈ self.clients ++ self.commands ++ [event], event'.isCommand = true
      ∧ ∀ request, event'.request? = some request → R request := by
    intro event' hmem
    rcases List.mem_append.mp hmem with hmem | hmem
    · exact h.commands event' hmem
    · exact List.mem_singleton.mp hmem ▸ hevent
  unfold Server.onRequest
  split
  · exact h
  · split
    · refine { h with commands := fun event' hmem => hall event' ?_ }
      simp only [List.mem_append] at hmem ⊢
      tauto
    · refine { h with commands := fun event' hmem => hall event' ?_ }
      rwa [List.append_assoc]

theorem Routed.onClientResumes (h : Routed ctx Q R self) (hstep : self.onClientResumes = some self') :
    Routed ctx Q R self' := by
  unfold Server.onClientResumes at hstep
  split at hstep
  · cases hstep
  · rename_i event clients hpending
    have hall : ∀ event' ∈ event :: clients ++ self.commands, event'.isCommand = true
        ∧ ∀ request, event'.request? = some request → R request := hpending ▸ h.commands
    split at hstep
    · obtain rfl := Option.some.inj hstep
      exact { h with commands := fun event' hmem => hall event' (List.mem_cons_of_mem _ hmem) }
    · split at hstep
      · cases hstep
      · obtain rfl := Option.some.inj hstep
        refine { h with commands := fun event' hmem => hall event' ?_ }
        simp only [List.mem_append, List.mem_cons, List.not_mem_nil, or_false] at hmem ⊢
        tauto

/-- The manager takes a command: a new executor may get what was in the backlog of its instance. -/
theorem Routed.afterCommand (h : Routed ctx Q R self) {manager : InstanceManager K}
    {event : ManagerEvent K} (hcommand : event.isCommand = true)
    (hrequest : ∀ request, event.request? = some request → R request)
    (hevent : InstanceManager.onEvent ctx.toManagerContext self.manager event = .ok manager) :
    Routed ctx Q R (self.afterCommand manager) := by
  have hextends : self.manager.spawned <+: manager.spawned := InstanceManager.spawned_isPrefix hevent
  have hmeant : ∀ executor m, self.Meant executor m ∧ Q m →
      (self.afterCommand manager).Meant executor m ∧ Q m :=
    fun executor m hm => ⟨hm.1.of_isPrefix hextends, hm.2⟩
  have hturn := InstanceManager.turn_command_cases (InstanceManager.turn_of_onEvent hevent) hcommand
  refine ⟨h.outgoing, h.network, h.incoming, ?_, fun e m hm => hmeant e m (h.manager e m hm), ?_,
    fun e m hm => hmeant e m (h.channels e m hm), fun e m hm => hmeant e m (h.taken e m hm), ?_,
    h.commands, ?_⟩
  · intro id m hm
    rcases hturn with ⟨-, hbacklog, -⟩ | ⟨request, protocol, -, -, -, -, -, hbacklog, -⟩
    · apply h.backlog id m
      rwa [InstanceManager.backlogged, ← hbacklog]
    · exact h.backlog id m (InstanceManager.backlogged_erase _ _ _ hbacklog m hm).2
  · intro executor m hm
    rcases List.mem_append.mp hm with hm | hm
    · exact hmeant executor m (h.flushing executor m hm)
    rcases hturn with ⟨-, -, hnone⟩ | ⟨request, protocol, hspawned, -, -, -, -, -, hsent⟩
    · rw [hnone] at hm
      cases hm
    · rw [hsent] at hm
      split at hm
      · rename_i heq
        obtain ⟨hid, hproperty⟩ := h.backlog _ m hm
        subst heq
        refine ⟨⟨⟨assignInstanceId ctx.hash256 request, request, protocol⟩, ?_, hid.symm⟩, hproperty⟩
        change manager.spawned[self.manager.spawned.length]? = _
        rw [hspawned]
        exact List.getElem?_concat_length
      · cases hm
  · intro executor m hm
    change (if _ then _ else _) = _ at hm
    split at hm
    · cases hm
    · exact h.tasks executor m hm
  · intro spawned hmem
    change spawned ∈ manager.spawned at hmem
    rcases hturn with ⟨hspawned, -⟩ | ⟨request, protocol, hspawned, -, hcreation, hkey, hprotocol, -⟩
    · exact h.spawned spawned (hspawned ▸ hmem)
    · rw [hspawned, List.mem_append, List.mem_singleton] at hmem
      rcases hmem with hmem | rfl
      · exact h.spawned spawned hmem
      · exact ⟨hrequest request hcreation, rfl, hkey, hprotocol⟩

theorem Routed.onManagerCommand (h : Routed ctx Q R self)
    (hstep : self.onManagerCommand ctx = some self') : Routed ctx Q R self' := by
  unfold Server.onManagerCommand at hstep
  split at hstep
  · rename_i event commands _ hcommands
    have hall : ∀ event' ∈ self.clients ++ event :: commands, event'.isCommand = true
        ∧ ∀ request, event'.request? = some request → R request := hcommands ▸ h.commands
    have hrest : ∀ event' ∈ self.clients ++ commands, event'.isCommand = true
        ∧ ∀ request, event'.request? = some request → R request := by
      intro event' hmem
      apply hall
      simp only [List.mem_append, List.mem_cons] at hmem ⊢
      tauto
    split at hstep
    · rename_i manager hevent
      obtain rfl := Option.some.inj hstep
      obtain ⟨hcommand, hrequest⟩ := hall event (List.mem_append_right _ List.mem_cons_self)
      exact { h.afterCommand hcommand hrequest hevent with commands := hrest }
    · obtain rfl := Option.some.inj hstep
      exact { h with
        manager := fun _ _ hsending => ManagerTask.noConfusion hsending
        commands := hrest }
  · cases hstep

/-- The manager takes a message. It knows which executor it is for. -/
theorem Routed.onManagerMessage (h : Routed ctx Q R self) (haccounted : Accounted ctx events self)
    (hstep : self.onManagerMessage = some self') : Routed ctx Q R self' := by
  unfold Server.onManagerMessage at hstep
  split at hstep
  · rename_i message incoming _ hincoming
    have hmessage : Q message := h.incoming message (hincoming ▸ List.mem_cons_self)
    have hspawned : (self.manager.onNetMessage message).spawned = self.manager.spawned :=
      InstanceManager.spawned_onNetMessage message
    have hextends : self.manager.spawned <+: (self.manager.onNetMessage message).spawned := by
      rw [hspawned]
    have hmeant : ∀ executor m, self.Meant executor m ∧ Q m →
        Meant { self with incoming, manager := self.manager.onNetMessage message } executor m ∧ Q m :=
      fun executor m hm => ⟨hm.1.of_isPrefix hextends, hm.2⟩
    have hnext : Routed ctx Q R
        { self with incoming, manager := self.manager.onNetMessage message } := by
      refine ⟨h.outgoing, h.network, ?_, ?_, fun e m hm => hmeant e m (h.manager e m hm),
        fun e m hm => hmeant e m (h.flushing e m hm), fun e m hm => hmeant e m (h.channels e m hm),
        fun e m hm => hmeant e m (h.taken e m hm), h.tasks, h.commands,
        fun spawned hmem => h.spawned spawned (hspawned ▸ hmem)⟩
      · intro m hm
        exact h.incoming m (hincoming ▸ List.mem_cons_of_mem _ hm)
      · intro id m hm
        rcases InstanceManager.mem_backlogged_onNetMessage hm with hm | ⟨rfl, rfl⟩
        · exact h.backlog id m hm
        · exact ⟨rfl, hmessage⟩
    dsimp only at hstep
    split at hstep
    · obtain rfl := Option.some.inj hstep
      exact hnext
    · rename_i executor hrecipient
      obtain rfl := Option.some.inj hstep
      obtain ⟨done, hmanaged, -⟩ :=
        InstanceManager.managed_run haccounted.run haccounted.terminationsOf_nodup
      obtain ⟨spawned, hexecutor, hid, -⟩ := hmanaged.recipient_eq_some_iff.mp hrecipient
      exact hnext.sendMessage (hmeant executor message ⟨⟨spawned, hexecutor, hid⟩, hmessage⟩)
  · cases hstep

theorem Routed.onManagerTick (h : Routed ctx Q R self) (hstep : self.onManagerTick = some self') :
    Routed ctx Q R self' := by
  unfold Server.onManagerTick at hstep
  split at hstep
  · obtain rfl := Option.some.inj hstep
    exact { h with backlog := fun id m hm => h.backlog id m (InstanceManager.mem_backlogged_onTick hm) }
  · cases hstep

theorem Routed.onManagerResumes (h : Routed ctx Q R self) (hstep : self.onManagerResumes = some self') :
    Routed ctx Q R self' := by
  unfold Server.onManagerResumes at hstep
  split at hstep
  · rename_i executor message hsending
    obtain rfl := Option.some.inj hstep
    exact h.sendMessage (h.manager executor message hsending)
  · cases hstep

theorem Routed.onNetworkOutgoing (h : Routed ctx Q R self) (hstep : self.onNetworkOutgoing = some self') :
    Routed ctx Q R self' := by
  unfold Server.onNetworkOutgoing at hstep
  split at hstep
  · rename_i message outgoing _ houtgoing
    obtain rfl := Option.some.inj hstep
    have hall : ∀ m ∈ message :: outgoing, Q m := houtgoing ▸ h.outgoing
    have htaken : Routed ctx Q R { self with outgoing } :=
      { h with outgoing := fun m hm => hall m (List.mem_cons_of_mem _ hm) }
    exact htaken.forward (hall message List.mem_cons_self)
  · cases hstep

theorem Routed.onNetworkReceives (h : Routed ctx Q R self) {message : WireMessage}
    (hmessage : NetworkManager.addressed ctx.myId message = true → Q message.toNetMessage)
    (hstep : self.onNetworkReceives ctx message = some self') : Routed ctx Q R self' := by
  unfold Server.onNetworkReceives at hstep
  split at hstep
  · obtain rfl := Option.some.inj hstep
    exact { h with network := fun _ hsending => NetworkTask.noConfusion hsending }
  · split at hstep
    · rename_i haddressed
      obtain rfl := Option.some.inj hstep
      exact h.forward (hmessage haddressed)
    · obtain rfl := Option.some.inj hstep
      exact h
  · cases hstep

theorem Routed.onNetworkResumes (h : Routed ctx Q R self) (hstep : self.onNetworkResumes = some self') :
    Routed ctx Q R self' := by
  unfold Server.onNetworkResumes at hstep
  split at hstep
  · rename_i message hsending
    obtain rfl := Option.some.inj hstep
    exact h.forward (h.network message hsending)
  · cases hstep

theorem Routed.onExecutorStarts (h : Routed ctx Q R self)
    (hsend : ∀ taken m, self.reactionOf ctx executor taken = .send m → Q m)
    (hstep : self.onExecutorStarts ctx executor = some self') : Routed ctx Q R self' := by
  unfold Server.onExecutorStarts at hstep
  split at hstep
  · obtain rfl := Option.some.inj hstep
    exact h.perform (hsend [])
  · cases hstep

theorem Routed.onExecutorTakes (h : Routed ctx Q R self)
    (hsend : ∀ taken m, self.reactionOf ctx executor taken = .send m → Q m)
    (hstep : self.onExecutorTakes ctx executor = some self') : Routed ctx Q R self' := by
  unfold Server.onExecutorTakes at hstep
  split at hstep
  · rename_i message rest _ hchannel
    obtain rfl := Option.some.inj hstep
    have hall : ∀ m ∈ message :: rest, self.Meant executor m ∧ Q m := hchannel ▸ h.channels executor
    have htaken : Routed ctx Q R { self with
        taken := Function.update self.taken executor (self.taken executor ++ [message])
        channels := Function.update self.channels executor rest } := by
      refine ⟨h.outgoing, h.network, h.incoming, h.backlog, h.manager, h.flushing, ?_, ?_, h.tasks,
        h.commands, h.spawned⟩
      · intro executor' m hm
        by_cases heq : executor' = executor
        · subst heq
          simp only [Function.update_self] at hm
          exact hall m (List.mem_cons_of_mem _ hm)
        · simp only [Function.update_of_ne heq] at hm
          exact h.channels executor' m hm
      · intro executor' m hm
        by_cases heq : executor' = executor
        · subst heq
          simp only [Function.update_self, List.mem_append, List.mem_singleton] at hm
          rcases hm with hm | rfl
          · exact h.taken executor' m hm
          · exact hall m List.mem_cons_self
        · simp only [Function.update_of_ne heq] at hm
          exact h.taken executor' m hm
    exact htaken.perform (hsend _)
  · cases hstep

theorem Routed.onExecutorResumes (h : Routed ctx Q R self)
    (hstep : self.onExecutorResumes executor = some self') : Routed ctx Q R self' := by
  unfold Server.onExecutorResumes at hstep
  split at hstep
  · rename_i message htask
    obtain rfl := Option.some.inj hstep
    refine h.perform fun m heq => ?_
    obtain rfl := Reaction.send.inj heq
    exact h.tasks executor _ htask
  · obtain rfl := Option.some.inj hstep
    exact h.perform fun _ heq => Reaction.noConfusion heq
  · cases hstep

theorem Routed.onExecutorCloses (h : Routed ctx Q R self)
    (hstep : self.onExecutorCloses executor = some self') : Routed ctx Q R self' := by
  unfold Server.onExecutorCloses at hstep
  split at hstep
  · obtain rfl := Option.some.inj hstep
    exact h.perform fun _ heq => Reaction.noConfusion heq
  · cases hstep

theorem Routed.onFlushSends (h : Routed ctx Q R self) (hstep : self.onFlushSends executor = some self') :
    Routed ctx Q R self' := by
  unfold Server.onFlushSends at hstep
  split at hstep
  · cases hstep
  · rename_i message rest hpending
    have hall : ∀ m ∈ message :: rest, self.Meant executor m ∧ Q m := hpending ▸ h.flushing executor
    have hflush :
        Routed ctx Q R { self with flushing := Function.update self.flushing executor rest } := by
      refine { h with flushing := fun executor' m hm => ?_ }
      by_cases heq : executor' = executor
      · subst heq
        simp only [Function.update_self] at hm
        exact hall m (List.mem_cons_of_mem _ hm)
      · simp only [Function.update_of_ne heq] at hm
        exact h.flushing executor' m hm
    split at hstep
    · obtain rfl := Option.some.inj hstep
      exact hflush
    · split at hstep
      · cases hstep
      · obtain rfl := Option.some.inj hstep
        exact hflush.push (hall message List.mem_cons_self)

/-- A step makes nothing up: what comes in comes from the network or from an executor. -/
theorem Routed.step (h : Routed ctx Q R self) (haccounted : Accounted ctx events self)
    (hsend : ∀ executor taken m, self.reactionOf ctx executor taken = .send m → Q m)
    {action : Action K}
    (hrequest : ∀ command hclient request, action = .request command hclient →
      (ManagerEvent.command command hclient).request? = some request → R request)
    (hreceive : ∀ message, action = .networkReceives message →
      NetworkManager.addressed ctx.myId message = true → Q message.toNetMessage)
    (hstep : self.step ctx action = some self') : Routed ctx Q R self' := by
  cases action with
  | request command hclient =>
      obtain rfl := Option.some.inj hstep
      exact h.onRequest ⟨rfl, fun request => hrequest command hclient request rfl⟩
  | clientResumes => exact h.onClientResumes hstep
  | managerCommand => exact h.onManagerCommand hstep
  | managerMessage => exact h.onManagerMessage haccounted hstep
  | managerTick => exact h.onManagerTick hstep
  | managerResumes => exact h.onManagerResumes hstep
  | managerStops =>
      simp only [Server.step, Server.onManagerStops] at hstep
      split at hstep
      · obtain rfl := Option.some.inj hstep
        exact { h with manager := fun _ _ hsending => ManagerTask.noConfusion hsending }
      · cases hstep
  | networkOutgoing => exact h.onNetworkOutgoing hstep
  | networkReceives message => exact h.onNetworkReceives (hreceive message rfl) hstep
  | networkResumes => exact h.onNetworkResumes hstep
  | networkStops =>
      simp only [Server.step, Server.onNetworkStops] at hstep
      split at hstep
      · obtain rfl := Option.some.inj hstep
        exact { h with network := fun _ hsending => NetworkTask.noConfusion hsending }
      · cases hstep
  | executorStarts executor => exact h.onExecutorStarts (hsend executor) hstep
  | executorTakes executor => exact h.onExecutorTakes (hsend executor) hstep
  | executorResumes executor => exact h.onExecutorResumes hstep
  | executorCloses executor => exact h.onExecutorCloses hstep
  | flushSends executor => exact h.onFlushSends hstep

/-- Whatever the network brings, an executor takes messages for its own instance only. -/
theorem routed_of_reachable {allowed : Server K → Action K → Prop}
    (h : Reachable (step ctx) allowed new self) : Routed ctx (fun _ => True) (fun _ => True) self := by
  refine (h.invariant (motive := fun self : Server K =>
    Routed ctx (fun _ => True) (fun _ => True) self ∧ ∃ events, Accounted ctx events self)
    ⟨routed_new ctx _ _, [], accounted_new ctx⟩ ?_).1
  rintro self action self' ⟨hrouted, events, haccounted⟩ - hstep
  obtain ⟨more, haccounted'⟩ := haccounted.step hstep
  have hrouted' := hrouted.step haccounted (fun _ _ _ _ => trivial) (fun _ _ _ _ _ => trivial)
    (fun _ _ _ => trivial) hstep
  exact ⟨hrouted', events ++ more, haccounted'⟩

end Server

end QuorumCrypt
