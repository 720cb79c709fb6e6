import QuorumCrypt.Orchestration.OneRound

/-!
# No message is lost on its way

Between the network layer and the executor a message for an instance is handed from one task to the next.
In every state it lies with one of them, with the backlog of the instance as long as this has not been
started, or with its first executor, unless a task has ended: so when a node comes to rest, its executors
have taken everything. What an executor has to say in its first round does not get lost either.
-/

namespace QuorumCrypt

open Rust

variable {K : Curves}

namespace InstanceManager

/-- The first executor that was spawned for the instance. -/
structure IsFirst (manager : InstanceManager K) (id : String) (executor : ℕ) : Prop where
  spawned : ∃ spawned, manager.spawned[executor]? = some spawned ∧ spawned.instanceId = id
  least : ∀ other spawned, manager.spawned[other]? = some spawned → spawned.instanceId = id →
    executor ≤ other

variable {self self' : InstanceManager K} {id : String} {executor : ℕ}

theorem IsFirst.lt (h : self.IsFirst id executor) : executor < self.spawned.length := by
  obtain ⟨spawned, hspawned, -⟩ := h.spawned
  exact (List.getElem?_eq_some_iff.mp hspawned).1

theorem IsFirst.unique {executor' : ℕ} (h : self.IsFirst id executor) (h' : self.IsFirst id executor') :
    executor = executor' := by
  obtain ⟨spawned, hspawned, hid⟩ := h.spawned
  obtain ⟨spawned', hspawned', hid'⟩ := h'.spawned
  have hle := h.least executor' spawned' hspawned' hid'
  have hge := h'.least executor spawned hspawned hid
  omega

theorem IsFirst.of_isPrefix (h : self.IsFirst id executor) (hextends : self.spawned <+: self'.spawned) :
    self'.IsFirst id executor := by
  obtain ⟨spawned, hspawned, hid⟩ := h.spawned
  obtain ⟨more, hmore⟩ := hextends
  refine ⟨⟨spawned, ?_, hid⟩, fun other spawned' hother hid' => ?_⟩
  · rw [← hmore, List.getElem?_append_left h.lt, hspawned]
  · by_cases hlt : other < self.spawned.length
    · rw [← hmore, List.getElem?_append_left hlt] at hother
      exact h.least other spawned' hother hid'
    · have hfirst := h.lt
      omega

theorem isFirst_concat (h : ∀ spawned ∈ self.spawned, spawned.instanceId ≠ id) {spawned : Spawned K}
    (hspawned : self'.spawned = self.spawned ++ [spawned]) (hid : spawned.instanceId = id) :
    self'.IsFirst id self.spawned.length := by
  refine ⟨⟨spawned, ?_, hid⟩, fun other spawned' hother hid' => ?_⟩
  · rw [hspawned]
    exact List.getElem?_concat_length
  · by_contra hlt
    rw [hspawned, List.getElem?_append_left (Nat.lt_of_not_le hlt)] at hother
    exact h spawned' (List.mem_of_getElem? hother) hid'

/-- An instance that was started has a first executor. -/
theorem exists_isFirst (h : ∃ spawned ∈ self.spawned, spawned.instanceId = id) :
    ∃ executor, self.IsFirst id executor := by
  have hexists : ∃ executor : ℕ, ∃ spawned, self.spawned[executor]? = some spawned
      ∧ spawned.instanceId = id := by
    obtain ⟨spawned, hmem, hid⟩ := h
    obtain ⟨executor, hspawned⟩ := List.mem_iff_getElem?.mp hmem
    exact ⟨executor, spawned, hspawned, hid⟩
  classical
  refine ⟨Nat.find hexists, Nat.find_spec hexists, fun other spawned hother hid => ?_⟩
  exact Nat.find_min' hexists ⟨spawned, hother, hid⟩

end InstanceManager

namespace Server

open InstanceManager

variable {ctx : ServerContext K} {self self' : Server K} {executor : ℕ} {m : NetMessage} {id : String}
  {events : List (ManagerEvent K)}

/-- The message is with the executor or with the task for its backlog, or the executor has ended. -/
def Has (server : Server K) (executor : ℕ) (m : NetMessage) : Prop :=
  m ∈ server.flushing executor ∨ m ∈ server.channels executor ∨ m ∈ server.taken executor
    ∨ server.tasks executor = .ended

/-- Where a message for the instance is. -/
inductive Located (id : String) (server : Server K) (m : NetMessage) : Prop
  | stopped (h : server.managerTask = .ended ∨ server.networkTask = .ended)
  | network (h : server.networkTask = .sending m)
  | incoming (h : m ∈ server.incoming)
  | backlog (hfirst : ∀ spawned ∈ server.manager.spawned, spawned.instanceId ≠ id)
      (h : m ∈ server.manager.backlogged id)
  | sending (e : ℕ) (hfirst : server.manager.IsFirst id e) (h : server.managerTask = .sending e m)
  | executor (e : ℕ) (hfirst : server.manager.IsFirst id e) (h : server.Has e m)

/-- A step that leaves the manager alone. -/
theorem Located.of_manager_eq (h : Located id self m) (hmanager : self'.manager = self.manager)
    (hstopped : self.managerTask = .ended ∨ self.networkTask = .ended →
      self'.managerTask = .ended ∨ self'.networkTask = .ended)
    (hnetwork : self.networkTask = .sending m → Located id self' m)
    (hincoming : m ∈ self.incoming → Located id self' m)
    (hsending : ∀ e, self.manager.IsFirst id e → self.managerTask = .sending e m → Located id self' m)
    (hhas : ∀ e, self.Has e m → self'.Has e m) : Located id self' m := by
  cases h with
  | stopped h => exact .stopped (hstopped h)
  | network h => exact hnetwork h
  | incoming h => exact hincoming h
  | backlog hfirst h => exact .backlog (hmanager ▸ hfirst) (hmanager ▸ h)
  | sending e hfirst h => exact hsending e hfirst h
  | executor e hfirst h => exact .executor e (hmanager ▸ hfirst) (hhas e h)

/-- A step of an executor or of the task for a backlog. -/
theorem Located.of_has (h : Located id self m) (hmanager : self'.manager = self.manager)
    (hmanagerTask : self'.managerTask = self.managerTask)
    (hnetworkTask : self'.networkTask = self.networkTask) (hincoming : self'.incoming = self.incoming)
    (hhas : ∀ e, self.Has e m → self'.Has e m) : Located id self' m := by
  refine h.of_manager_eq hmanager ?_ (fun h => .network (hnetworkTask.trans h))
    (fun h => .incoming (hincoming ▸ h))
    (fun e hfirst h => .sending e (hmanager ▸ hfirst) (hmanagerTask.trans h)) hhas
  rw [hmanagerTask, hnetworkTask]
  exact fun h => h

/-! ### Sends -/

theorem Has.push (h : self.Has executor m) (executor' : ℕ) (message : NetMessage) :
    (self.push executor' message).Has executor m := by
  refine h.imp_right (Or.imp_left fun hmem => ?_)
  by_cases heq : executor = executor'
  · subst heq
    simp only [Server.push, Function.update_self]
    exact List.mem_append_left _ hmem
  · simpa only [Server.push, Function.update_of_ne heq] using hmem

theorem has_push_self (self : Server K) (executor : ℕ) (m : NetMessage) :
    (self.push executor m).Has executor m := by
  refine .inr (.inl ?_)
  simp only [Server.push, Function.update_self]
  exact List.mem_append_right _ (List.mem_singleton_self _)

theorem Has.sendMessage (h : self.Has executor m) (executor' : ℕ) (message : NetMessage) :
    (self.sendMessage executor' message).Has executor m := by
  unfold Server.sendMessage
  split
  · exact h
  · split
    · exact h
    · exact h.push executor' message

/-- What the manager sends to the first executor is on its way to it. -/
theorem located_sendMessage (hfirst : self.manager.IsFirst id executor) (m : NetMessage) :
    Located id (self.sendMessage executor m) m := by
  have hfirst' : (self.sendMessage executor m).manager.IsFirst id executor := by
    rwa [manager_sendMessage]
  unfold sendMessage at hfirst' ⊢
  split
  · rename_i htask
    exact .executor executor hfirst (.inr (.inr (.inr htask)))
  · split
    · exact .sending executor hfirst rfl
    · exact .executor executor hfirst (has_push_self self executor m)

/-- A send of the manager does not lose anything else. -/
theorem Located.sendMessage (h : Located id self m) {executor' : ℕ} {message : NetMessage}
    (hsending : ∀ e m', self.managerTask = .sending e m' → e = executor' ∧ m' = message)
    (hopen : self.managerTask ≠ .ended) : Located id (self.sendMessage executor' message) m := by
  obtain ⟨-, -, -, -, hnetwork⟩ := sendMessage_frame self executor' message
  have hincoming : (self.sendMessage executor' message).incoming = self.incoming := by
    unfold Server.sendMessage
    split
    · rfl
    · split <;> rfl
  refine h.of_manager_eq (manager_sendMessage _ _ _) ?_ (fun h => .network (hnetwork.trans h))
    (fun h => .incoming (hincoming ▸ h)) ?_ fun e h => h.sendMessage executor' message
  · rintro (hended | hended)
    · exact absurd hended hopen
    · exact .inr (hnetwork.trans hended)
  · intro e hfirst h
    obtain ⟨rfl, rfl⟩ := hsending e m h
    exact located_sendMessage hfirst m

/-- The network layer hands over what it sends. -/
theorem located_forward (self : Server K) (id : String) (m : NetMessage) :
    Located id (self.forward m) m := by
  unfold forward
  split
  · rename_i hended
    exact .stopped (.inl hended)
  · split
    · exact .network rfl
    · exact .incoming (List.mem_append_right _ (List.mem_singleton_self _))

theorem Located.forward (h : Located id self m) {message : NetMessage}
    (hsending : ∀ m', self.networkTask = .sending m' → m' = message)
    (hopen : self.networkTask ≠ .ended) : Located id (self.forward message) m := by
  obtain ⟨htasks, htaken, -, -, hmanager⟩ := forward_frame self message
  have hchannels : (self.forward message).flushing = self.flushing
      ∧ (self.forward message).channels = self.channels := by
    unfold Server.forward
    split
    · exact ⟨rfl, rfl⟩
    · split <;> exact ⟨rfl, rfl⟩
  refine h.of_manager_eq (manager_forward _ _) ?_ ?_ ?_ ?_ ?_
  · rintro (hended | hended)
    · exact .inl (hmanager.trans hended)
    · exact absurd hended hopen
  · intro h
    obtain rfl := hsending m h
    exact located_forward self id m
  · intro hmem
    unfold Server.forward
    split
    · exact .incoming hmem
    · split
      · exact .incoming hmem
      · exact .incoming (List.mem_append_left _ hmem)
  · intro e hfirst h
    exact .sending e (by rwa [manager_forward]) (hmanager.trans h)
  · intro e h
    rw [Has, hchannels.1, hchannels.2, htaken, htasks]
    exact h

/-- What an executor does with a reaction leaves all messages where they are. -/
theorem Located.perform (h : Located id self m) (hopen : self.tasks executor ≠ .ended)
    (reaction : Reaction) : Located id (self.perform executor reaction) m := by
  have hsame : (self.perform executor reaction).taken = self.taken
      ∧ (self.perform executor reaction).networkTask = self.networkTask
      ∧ (self.perform executor reaction).incoming = self.incoming := by
    unfold Server.perform
    repeat' split
    all_goals exact ⟨rfl, rfl, rfl⟩
  obtain ⟨task, htasks⟩ := perform_cases self executor reaction
  refine h.of_has (manager_perform _ _ _) (managerTask_perform _ _ _) hsame.2.1 hsame.2.2 ?_
  intro e h
  rw [Has, flushing_perform, channels_perform, hsame.1, htasks]
  refine h.imp_right (Or.imp_right (Or.imp_right fun hended => ?_))
  have hne : e ≠ executor := by
    rintro rfl
    exact hopen hended
  rwa [Function.update_of_ne hne]

/-! ### Steps -/

/-- The first executor of an instance gets what is in its backlog. -/
theorem Located.afterCommand (h : Located id self m) {manager : InstanceManager K}
    {event : ManagerEvent K} (hcommand : event.isCommand = true)
    (hevent : onEvent ctx.toManagerContext self.manager event = .ok manager)
    (commands : List (ManagerEvent K)) :
    Located id { self.afterCommand manager with commands } m := by
  have hextends : self.manager.spawned <+: manager.spawned := spawned_isPrefix hevent
  cases h with
  | stopped h => exact .stopped h
  | network h => exact .network h
  | incoming h => exact .incoming h
  | sending e hfirst h => exact .sending e (hfirst.of_isPrefix hextends) h
  | executor e hfirst h =>
      refine .executor e (hfirst.of_isPrefix hextends) ?_
      rcases h with hmem | hmem | hmem | hended
      · exact .inl (List.mem_append_left _ hmem)
      · exact .inr (.inl hmem)
      · exact .inr (.inr (.inl hmem))
      · exact .inr (.inr (.inr ((if_neg fun h => absurd hfirst.lt (Nat.not_lt.mpr h.1)).trans hended)))
  | backlog hfirst h =>
      rcases turn_command_cases (turn_of_onEvent hevent) hcommand with
        ⟨hspawned, hbacklog, -⟩ | ⟨request, protocol, hspawned, -, -, -, -, hbacklog, hsent⟩
      · refine .backlog (fun spawned hmem => hfirst spawned (hspawned ▸ hmem)) ?_
        change m ∈ (manager.backlog.lookup id).elim [] _
        rwa [hbacklog]
      · by_cases hid : assignInstanceId ctx.hash256 request = id
        · refine .executor self.manager.spawned.length (isFirst_concat hfirst hspawned hid) (.inl ?_)
          refine List.mem_append_right _ ?_
          rw [hsent, if_pos rfl, hid]
          exact h
        · refine .backlog (fun spawned hmem => ?_) ?_
          · change spawned ∈ manager.spawned at hmem
            rw [hspawned, List.mem_append, List.mem_singleton] at hmem
            rcases hmem with hmem | rfl
            · exact hfirst spawned hmem
            · exact hid
          · change m ∈ (manager.backlog.lookup id).elim [] _
            rwa [hbacklog, AList.lookup_erase_ne (Ne.symm hid)]

theorem Located.onManagerCommand {Q : NetMessage → Prop} {R : StartInstanceRequest K → Prop}
    (h : Located id self m) (hrouted : Routed ctx Q R self)
    (hstep : self.onManagerCommand ctx = some self') : Located id self' m := by
  unfold Server.onManagerCommand at hstep
  split at hstep
  · rename_i event commands _ hcommands
    split at hstep
    · rename_i manager hevent
      obtain rfl := Option.some.inj hstep
      have hmem : event ∈ self.clients ++ self.commands :=
        List.mem_append_right _ (hcommands ▸ List.mem_cons_self)
      exact h.afterCommand (hrouted.commands event hmem).1 hevent commands
    · obtain rfl := Option.some.inj hstep
      exact .stopped (.inl rfl)
  · cases hstep

/-- A message that arrives goes to the first executor of its instance, if that has not reported, and into
the backlog before there is one. -/
theorem located_onNetMessage (haccounted : Accounted ctx events self) (incoming : List NetMessage)
    (message : NetMessage) :
    Located message.instanceId
      (match self.manager.recipient message.instanceId with
        | none => { self with incoming, manager := self.manager.onNetMessage message }
        | some executor => Server.sendMessage
            { self with incoming, manager := self.manager.onNetMessage message } executor message)
      message := by
  have hspawned : (self.manager.onNetMessage message).spawned = self.manager.spawned :=
    spawned_onNetMessage message
  have hextends : self.manager.spawned <+: (self.manager.onNetMessage message).spawned := by
    rw [hspawned]
  obtain ⟨done, hmanaged, hdone⟩ := managed_run haccounted.run haccounted.terminationsOf_nodup
  by_cases hstarted : ∃ spawned ∈ self.manager.spawned, spawned.instanceId = message.instanceId
  · obtain ⟨e, hfirst⟩ := exists_isFirst hstarted
    have hfirst' := hfirst.of_isPrefix hextends
    by_cases hreported : e ∈ done
    · -- the first executor has ended
      obtain ⟨result, hevent⟩ : ∃ result, .terminated e result ∈ events := by
        have hmem := hdone e hreported
        rw [terminationsOf_eq, List.mem_map] at hmem
        obtain ⟨⟨executor, result⟩, hmem, rfl⟩ := hmem
        exact ⟨result, mem_reportsOf.mp hmem⟩
      have hended : Has { self with incoming, manager := self.manager.onNetMessage message } e message :=
        .inr (.inr (.inr (haccounted.reaction hevent).1))
      split
      · exact .executor e hfirst' hended
      · rename_i executor _
        refine .executor e ?_ (hended.sendMessage executor message)
        rwa [manager_sendMessage]
    · -- the manager sends to it
      obtain ⟨spawned, hexecutor, hid⟩ := hfirst.spawned
      have hrecipient : self.manager.recipient message.instanceId = some e :=
        hmanaged.recipient_eq_some_iff.mpr ⟨spawned, hexecutor, hid, hreported⟩
      rw [hrecipient]
      exact located_sendMessage hfirst' message
  · -- there is no instance yet
    have hnone : ∀ spawned ∈ self.manager.spawned, spawned.instanceId ≠ message.instanceId :=
      fun spawned hmem hid => hstarted ⟨spawned, hmem, hid⟩
    have habsent : message.instanceId ∉ self.manager.instances.instanceData := by
      intro hmem
      obtain ⟨inst, hinst⟩ := Option.isSome_iff_exists.mp (AList.lookup_isSome.mpr hmem)
      obtain ⟨spawned, hspawned, hid, -⟩ := (traced_run haccounted.run).instances _ inst hinst
      exact hnone spawned hspawned hid
    have hrecipient : self.manager.recipient message.instanceId = none := by
      rw [recipient, AList.lookup_eq_none.mpr habsent, Option.bind_none]
    rw [hrecipient]
    refine .backlog (fun spawned hmem => hnone spawned (hspawned ▸ hmem)) ?_
    change message ∈ ((self.manager.onNetMessage message).backlog.lookup _).elim [] _
    rw [lookup_backlog_onNetMessage habsent]
    cases self.manager.backlog.lookup message.instanceId with
    | none => exact List.mem_singleton_self _
    | some data => exact List.mem_append_right _ (List.mem_singleton_self _)

/-- Messages that are in a backlog stay there when another one arrives. -/
theorem mem_backlogged_of_mem {manager : InstanceManager K} (message : NetMessage)
    (h : m ∈ manager.backlogged id) (hnew : id ∉ manager.instances.instanceData) :
    m ∈ (manager.onNetMessage message).backlogged id := by
  by_cases heq : id = message.instanceId
  · subst heq
    rw [backlogged, lookup_backlog_onNetMessage hnew]
    rw [backlogged] at h
    cases hlookup : manager.backlog.lookup message.instanceId with
    | none =>
        rw [hlookup] at h
        cases h
    | some data =>
        rw [hlookup] at h
        exact List.mem_append_left _ h
  · rw [onNetMessage]
    split
    · split <;> exact h
    · rw [backlogged] at h ⊢
      dsimp only
      rwa [AList.lookup_insert_ne heq]

theorem Located.onManagerMessage (h : Located id self m) (hm : m.instanceId = id)
    (haccounted : Accounted ctx events self) (hstep : self.onManagerMessage = some self') :
    Located id self' m := by
  unfold Server.onManagerMessage at hstep
  split at hstep
  · rename_i message incoming hwaiting hincoming
    obtain rfl : self' = (match self.manager.recipient message.instanceId with
        | none => { self with incoming, manager := self.manager.onNetMessage message }
        | some e => Server.sendMessage
            { self with incoming, manager := self.manager.onNetMessage message } e message) := by
      cases hrecipient : self.manager.recipient message.instanceId with
      | none =>
          simp only [hrecipient] at hstep
          exact (Option.some.inj hstep).symm
      | some e =>
          simp only [hrecipient] at hstep
          exact (Option.some.inj hstep).symm
    by_cases heq : m = message
    · subst hm heq
      exact located_onNetMessage haccounted incoming m
    -- any other message stays where it is
    have hspawned : (self.manager.onNetMessage message).spawned = self.manager.spawned :=
      spawned_onNetMessage message
    have hextends : self.manager.spawned <+: (self.manager.onNetMessage message).spawned := by
      rw [hspawned]
    have hnext : Located id { self with incoming, manager := self.manager.onNetMessage message } m := by
      cases h with
      | stopped h => exact .stopped h
      | network h => exact .network h
      | incoming h =>
          rw [hincoming] at h
          exact .incoming ((List.mem_cons.mp h).resolve_left heq)
      | sending e hfirst h => cases hwaiting.symm.trans h
      | executor e hfirst h => exact .executor e (hfirst.of_isPrefix hextends) h
      | backlog hfirst h =>
          refine .backlog (fun spawned hmem => hfirst spawned (hspawned ▸ hmem)) ?_
          refine mem_backlogged_of_mem message h fun hmem => ?_
          obtain ⟨inst, hinst⟩ := Option.isSome_iff_exists.mp (AList.lookup_isSome.mpr hmem)
          obtain ⟨spawned, hmem, hid, -⟩ := (traced_run haccounted.run).instances _ inst hinst
          exact hfirst spawned hmem hid
    split
    · exact hnext
    · refine hnext.sendMessage (fun e m' hsending => ?_) fun hended => ?_
      · cases hwaiting.symm.trans hsending
      · cases hwaiting.symm.trans hended
  · cases hstep

/-- A tick leaves the backlog of the instance alone, if it has not seen it before. -/
theorem Located.onManagerTick (h : Located id self m)
    (hfresh : ∀ data, self.manager.backlog.lookup id = some data → data.checked = false)
    (hstep : self.onManagerTick = some self') : Located id self' m := by
  unfold Server.onManagerTick at hstep
  split at hstep
  · obtain rfl := Option.some.inj hstep
    cases h with
    | stopped h => exact .stopped h
    | network h => exact .network h
    | incoming h => exact .incoming h
    | sending e hfirst h => exact .sending e ⟨hfirst.spawned, hfirst.least⟩ h
    | executor e hfirst h => exact .executor e ⟨hfirst.spawned, hfirst.least⟩ h
    | backlog hfirst h =>
        refine .backlog hfirst ?_
        rw [backlogged] at h
        change m ∈ (self.manager.onTick.backlog.lookup id).elim [] _
        rw [lookup_onTick]
        cases hlookup : self.manager.backlog.lookup id with
        | none =>
            rw [hlookup] at h
            cases h
        | some data =>
            rw [hlookup] at h
            rw [Option.bind_some, hfresh data hlookup, if_neg Bool.false_ne_true]
            exact h
  · cases hstep

theorem Located.onExecutorTakes (h : Located id self m)
    (hstep : self.onExecutorTakes ctx executor = some self') : Located id self' m := by
  unfold Server.onExecutorTakes at hstep
  split at hstep
  · rename_i message rest htask hchannel
    obtain rfl := Option.some.inj hstep
    have hopen : self.tasks executor ≠ .ended := by
      rw [htask]
      exact ExecutorTask.noConfusion
    have htaken : Located id { self with
        taken := Function.update self.taken executor (self.taken executor ++ [message])
        channels := Function.update self.channels executor rest } m := by
      refine h.of_has rfl rfl rfl rfl fun e h => ?_
      by_cases heq : e = executor
      · subst heq
        simp only [Has, Function.update_self, List.mem_append, List.mem_singleton]
        rw [Has, hchannel, List.mem_cons] at h
        tauto
      · simpa only [Has, Function.update_of_ne heq] using h
    exact htaken.perform hopen _
  · cases hstep

theorem Located.onFlushSends (h : Located id self m)
    (hstep : self.onFlushSends executor = some self') : Located id self' m := by
  unfold Server.onFlushSends at hstep
  split at hstep
  · cases hstep
  · rename_i message rest hpending
    split at hstep
    · rename_i hended
      obtain rfl := Option.some.inj hstep
      refine h.of_has rfl rfl rfl rfl fun e h => ?_
      by_cases heq : e = executor
      · subst heq
        exact .inr (.inr (.inr hended))
      · simpa only [Has, Function.update_of_ne heq] using h
    · split at hstep
      · cases hstep
      · obtain rfl := Option.some.inj hstep
        refine h.of_has rfl rfl rfl rfl fun e h => ?_
        by_cases heq : e = executor
        · subst heq
          simp only [Has, Server.push, Function.update_self, List.mem_append, List.mem_singleton]
          rw [Has, hpending, List.mem_cons] at h
          tauto
        · simpa only [Has, Server.push, Function.update_of_ne heq] using h

/-- A step does not lose a message for the instance. -/
theorem Located.step {Q : NetMessage → Prop} {R : StartInstanceRequest K → Prop}
    (h : Located id self m) (hm : m.instanceId = id) (haccounted : Accounted ctx events self)
    (hrouted : Routed ctx Q R self) {action : Action K}
    (hfresh : action = .managerTick →
      ∀ data, self.manager.backlog.lookup id = some data → data.checked = false)
    (hstep : self.step ctx action = some self') : Located id self' m := by
  have hsame : self'.manager = self.manager → self'.managerTask = self.managerTask →
      self'.networkTask = self.networkTask → self'.incoming = self.incoming →
      self'.flushing = self.flushing → self'.channels = self.channels → self'.taken = self.taken →
      self'.tasks = self.tasks → Located id self' m := by
    intro hmanager hmanagerTask hnetworkTask hincoming hflushing hchannels htaken htasks
    refine h.of_has hmanager hmanagerTask hnetworkTask hincoming fun e h => ?_
    rwa [Has, hflushing, hchannels, htaken, htasks]
  cases action with
  | request command hclient =>
      obtain rfl := Option.some.inj hstep
      apply hsame
      all_goals
        unfold onRequest
        split
        · rfl
        · split <;> rfl
  | clientResumes =>
      simp only [Server.step, onClientResumes] at hstep
      split at hstep
      · cases hstep
      · split at hstep
        · obtain rfl := Option.some.inj hstep
          exact hsame rfl rfl rfl rfl rfl rfl rfl rfl
        · split at hstep
          · cases hstep
          · obtain rfl := Option.some.inj hstep
            exact hsame rfl rfl rfl rfl rfl rfl rfl rfl
  | managerCommand => exact h.onManagerCommand hrouted hstep
  | managerMessage => exact h.onManagerMessage hm haccounted hstep
  | managerTick => exact h.onManagerTick (hfresh rfl) hstep
  | managerResumes =>
      simp only [Server.step, onManagerResumes] at hstep
      split at hstep
      · rename_i executor message hsending
        obtain rfl := Option.some.inj hstep
        refine h.sendMessage (fun e m' h => ?_) fun hended => by cases hsending.symm.trans hended
        exact ManagerTask.sending.inj (h.symm.trans hsending)
      · cases hstep
  | managerStops =>
      simp only [Server.step, onManagerStops] at hstep
      split at hstep
      · obtain rfl := Option.some.inj hstep
        exact .stopped (.inl rfl)
      · cases hstep
  | networkOutgoing =>
      simp only [Server.step, onNetworkOutgoing] at hstep
      split at hstep
      · rename_i message outgoing hwaiting _
        obtain rfl := Option.some.inj hstep
        have htaken : Located id { self with outgoing } m := h.of_has rfl rfl rfl rfl fun _ h => h
        refine htaken.forward (fun m' h => ?_) fun hended => ?_
        · cases hwaiting.symm.trans h
        · cases hwaiting.symm.trans hended
      · cases hstep
  | networkReceives message =>
      simp only [Server.step, onNetworkReceives] at hstep
      split at hstep
      · obtain rfl := Option.some.inj hstep
        exact .stopped (.inr rfl)
      · rename_i hwaiting _
        split at hstep
        · obtain rfl := Option.some.inj hstep
          refine h.forward (fun m' h => ?_) fun hended => ?_
          · cases hwaiting.symm.trans h
          · cases hwaiting.symm.trans hended
        · obtain rfl := Option.some.inj hstep
          exact h
      · cases hstep
  | networkResumes =>
      simp only [Server.step, onNetworkResumes] at hstep
      split at hstep
      · rename_i message hsending
        obtain rfl := Option.some.inj hstep
        refine h.forward (fun m' h => ?_) fun hended => by cases hsending.symm.trans hended
        exact NetworkTask.sending.inj (h.symm.trans hsending)
      · cases hstep
  | networkStops =>
      simp only [Server.step, onNetworkStops] at hstep
      split at hstep
      · obtain rfl := Option.some.inj hstep
        exact .stopped (.inr rfl)
      · cases hstep
  | executorStarts executor =>
      simp only [Server.step, onExecutorStarts] at hstep
      split at hstep
      · rename_i htask
        obtain rfl := Option.some.inj hstep
        exact h.perform (by rw [htask]; exact ExecutorTask.noConfusion) _
      · cases hstep
  | executorTakes executor => exact h.onExecutorTakes hstep
  | executorResumes executor =>
      simp only [Server.step, onExecutorResumes] at hstep
      split at hstep
      · rename_i htask
        obtain rfl := Option.some.inj hstep
        exact h.perform (by rw [htask]; exact ExecutorTask.noConfusion) _
      · rename_i htask
        obtain rfl := Option.some.inj hstep
        exact h.perform (by rw [htask]; exact ExecutorTask.noConfusion) _
      · cases hstep
  | executorCloses executor =>
      simp only [Server.step, onExecutorCloses] at hstep
      split at hstep
      · rename_i htask _ _ _
        obtain rfl := Option.some.inj hstep
        exact h.perform (by rw [htask]; exact ExecutorTask.noConfusion) _
      · cases hstep
  | flushSends executor => exact h.onFlushSends hstep

/-! ### What the executors send in their first round -/

/-- What an executor sends in its first round has gone out, or it will. -/
def Announced (ctx : ServerContext K) (broadcast : List NetMessage) (server : Server K) : Prop :=
  ∀ executor m, server.reactionOf ctx executor [] = .send m →
    server.tasks executor = .absent ∨ server.tasks executor = .starting
      ∨ server.tasks executor = .sending m ∨ server.networkTask = .ended
      ∨ m ∈ broadcast ++ server.outgoing

variable {broadcast : List NetMessage}

/-- What goes out in a step. -/
def departure? (server : Server K) : Action K → Option NetMessage
  | .networkOutgoing =>
      match server.networkTask with
      | .waiting => server.outgoing.head?
      | _ => none
  | _ => none

theorem announced_new (ctx : ServerContext K) : Announced ctx [] (new : Server K) :=
  fun _ _ _ => .inl rfl

theorem Announced.of_eq (h : Announced ctx broadcast self)
    (hspawned : self'.manager.spawned = self.manager.spawned) (htasks : self'.tasks = self.tasks)
    (hnetwork : self.networkTask = .ended → self'.networkTask = .ended)
    (houtgoing : self'.outgoing = self.outgoing) : Announced ctx broadcast self' := by
  intro executor m hreaction
  rw [reactionOf_congr hspawned] at hreaction
  rw [htasks, houtgoing]
  exact (h executor m hreaction).imp_right (Or.imp_right (Or.imp_right (Or.imp_left hnetwork)))

/-- An executor that has done its first round, or does it now. -/
theorem Announced.perform (h : Announced ctx broadcast self) {mid : Server K} {reaction : Reaction}
    (hmanager : mid.manager = self.manager) (htasks : mid.tasks = self.tasks)
    (hnetwork : mid.networkTask = self.networkTask) (houtgoing : mid.outgoing = self.outgoing)
    (hexecutor : ∀ m, self.reactionOf ctx executor [] = .send m →
      reaction = .send m ∨ self.networkTask = .ended ∨ m ∈ broadcast ++ self.outgoing) :
    Announced ctx broadcast (mid.perform executor reaction) := by
  have hother : ∀ task e, e ≠ executor → (mid.setTask executor task).tasks e = self.tasks e := by
    intro task e hne
    simp only [setTask, Function.update_of_ne hne, htasks]
  have hkept : ∀ after : Server K, after.manager = mid.manager →
      (∃ task, after.tasks = (mid.setTask executor task).tasks) →
      after.networkTask = mid.networkTask → (∃ more, after.outgoing = mid.outgoing ++ more) →
      (∀ m, reaction = .send m → after.tasks executor = .sending m ∨ after.networkTask = .ended
        ∨ m ∈ broadcast ++ after.outgoing) →
      Announced ctx broadcast after := by
    rintro after hmanager' ⟨task, htasks'⟩ hnetwork' ⟨more, hmore⟩ hsend e m hreaction
    have hspawned : after.manager.spawned = self.manager.spawned := by rw [hmanager', hmanager]
    rw [reactionOf_congr hspawned] at hreaction
    have hmem : m ∈ broadcast ++ self.outgoing → m ∈ broadcast ++ after.outgoing := by
      rw [hmore, houtgoing, ← List.append_assoc]
      exact List.mem_append_left _
    by_cases heq : e = executor
    · subst heq
      rcases hexecutor m hreaction with hsent | hended | hold
      · exact .inr (.inr (hsend m hsent))
      · exact .inr (.inr (.inr (.inl ((hnetwork'.trans hnetwork).trans hended))))
      · exact .inr (.inr (.inr (.inr (hmem hold))))
    · rw [htasks', hother _ e heq, hnetwork', hnetwork]
      exact (h e m hreaction).imp_right (Or.imp_right (Or.imp_right (Or.imp_right hmem)))
  have hnil : ∃ more, mid.outgoing = mid.outgoing ++ more := ⟨[], (List.append_nil _).symm⟩
  obtain ⟨after, hafter⟩ : ∃ after, after = mid.perform executor reaction := ⟨_, rfl⟩
  have hperformed := performed_perform mid executor reaction
  rw [← hafter] at hperformed ⊢
  cases hperformed with
  | receives => exact hkept _ rfl ⟨_, rfl⟩ rfl hnil fun _ h => Reaction.noConfusion h
  | panics => exact hkept _ rfl ⟨_, rfl⟩ rfl hnil fun _ h => Reaction.noConfusion h
  | unsent hended => exact hkept _ rfl ⟨_, rfl⟩ rfl hnil fun _ _ => .inr (.inl hended)
  | blocked _ _ =>
      refine hkept _ rfl ⟨_, rfl⟩ rfl hnil fun m h => .inl ?_
      obtain rfl := Reaction.send.inj h
      simp only [setTask, Function.update_self]
  | sent _ _ =>
      refine hkept _ rfl ⟨_, rfl⟩ rfl ⟨_, rfl⟩ fun m h => .inr (.inr ?_)
      obtain rfl := Reaction.send.inj h
      exact List.mem_append_right _ (List.mem_append_right _ (List.mem_singleton_self _))
  | lost _ => exact hkept _ rfl ⟨_, rfl⟩ rfl hnil fun _ h => Reaction.noConfusion h
  | waits _ _ => exact hkept _ rfl ⟨_, rfl⟩ rfl hnil fun _ h => Reaction.noConfusion h
  | reported _ _ => exact hkept _ rfl ⟨_, rfl⟩ rfl hnil fun _ h => Reaction.noConfusion h

/-- An executor that takes messages or reports has sent its first one. -/
theorem Announced.of_task (h : Announced ctx broadcast self) {task : ExecutorTask}
    (htask : self.tasks executor = task) (habsent : task ≠ .absent) (hstarting : task ≠ .starting)
    (m : NetMessage) (hreaction : self.reactionOf ctx executor [] = .send m) :
    task = .sending m ∨ self.networkTask = .ended ∨ m ∈ broadcast ++ self.outgoing := by
  have hcases := h executor m hreaction
  rw [htask] at hcases
  exact (hcases.resolve_left habsent).resolve_left hstarting

theorem Announced.onManagerCommand (h : Announced ctx broadcast self)
    (hstep : self.onManagerCommand ctx = some self') : Announced ctx broadcast self' := by
  unfold Server.onManagerCommand at hstep
  split at hstep
  · split at hstep
    · rename_i manager hevent
      obtain rfl := Option.some.inj hstep
      have hextends : self.manager.spawned <+: manager.spawned := spawned_isPrefix hevent
      intro executor m hreaction
      by_cases hlt : executor < self.manager.spawned.length
      · have hsame : (self.afterCommand manager).reactionOf ctx executor []
            = self.reactionOf ctx executor [] := reactionOf_of_isPrefix hextends hlt []
        have hold : self.reactionOf ctx executor [] = .send m := hsame.symm.trans hreaction
        have htask : (self.afterCommand manager).tasks executor = self.tasks executor :=
          if_neg fun hnew => absurd hnew.1 (Nat.not_le.mpr hlt)
        exact htask.symm ▸ h executor m hold
      · -- an executor without a protocol sends nothing
        by_cases hnew : executor < manager.spawned.length
        · exact .inr (.inl (if_pos ⟨Nat.not_lt.mp hlt, hnew⟩))
        · have hnone : manager.spawned[executor]? = none := List.getElem?_eq_none (Nat.not_lt.mp hnew)
          have hpanic : (self.afterCommand manager).reactionOf ctx executor [] = .panic :=
            reactionOf_of_none hnone
          cases hpanic.symm.trans hreaction
    · obtain rfl := Option.some.inj hstep
      exact h.of_eq rfl rfl (fun h => h) rfl
  · cases hstep

theorem Announced.forward (h : Announced ctx broadcast self) (hopen : self.networkTask ≠ .ended)
    (message : NetMessage) : Announced ctx broadcast (self.forward message) := by
  obtain ⟨htasks, -, -, -, -⟩ := forward_frame self message
  refine h.of_eq (by rw [manager_forward]) htasks (fun hended => absurd hended hopen) ?_
  unfold Server.forward
  split
  · rfl
  · split <;> rfl

/-- What an executor has to say does not get lost, whatever the tasks do. -/
theorem Announced.step (h : Announced ctx broadcast self) {action : Action K}
    (hstep : self.step ctx action = some self') :
    Announced ctx (broadcast ++ (self.departure? action).toList) self' := by
  have hsame : self.departure? action = none → Announced ctx broadcast self' →
      Announced ctx (broadcast ++ (self.departure? action).toList) self' := by
    intro hnone h
    rwa [hnone, Option.toList_none, List.append_nil]
  cases action with
  | request command hclient =>
      obtain rfl := Option.some.inj hstep
      refine hsame rfl (h.of_eq ?_ ?_ ?_ ?_)
      all_goals
        unfold onRequest
        split
        · first | rfl | exact fun h => h
        · split <;> first | rfl | exact fun h => h
  | clientResumes =>
      simp only [Server.step, onClientResumes] at hstep
      split at hstep
      · cases hstep
      · split at hstep
        · obtain rfl := Option.some.inj hstep
          exact hsame rfl (h.of_eq rfl rfl (fun h => h) rfl)
        · split at hstep
          · cases hstep
          · obtain rfl := Option.some.inj hstep
            exact hsame rfl (h.of_eq rfl rfl (fun h => h) rfl)
  | managerCommand => exact hsame rfl (h.onManagerCommand hstep)
  | managerMessage =>
      simp only [Server.step, onManagerMessage] at hstep
      split at hstep
      · rename_i message incoming _ _
        have hnext : Announced ctx broadcast
            { self with incoming, manager := self.manager.onNetMessage message } :=
          h.of_eq (spawned_onNetMessage message) rfl (fun h => h) rfl
        split at hstep
        · obtain rfl := Option.some.inj hstep
          exact hsame rfl hnext
        · rename_i executor _
          obtain rfl := Option.some.inj hstep
          obtain ⟨htasks, -, -, -, hnetwork⟩ := sendMessage_frame
            { self with incoming, manager := self.manager.onNetMessage message } executor message
          refine hsame rfl (hnext.of_eq (by rw [manager_sendMessage]) htasks
            (fun hended => hnetwork.trans hended) ?_)
          unfold sendMessage
          split
          · rfl
          · split <;> rfl
      · cases hstep
  | managerTick =>
      simp only [Server.step, onManagerTick] at hstep
      split at hstep
      · obtain rfl := Option.some.inj hstep
        exact hsame rfl (h.of_eq rfl rfl (fun h => h) rfl)
      · cases hstep
  | managerResumes =>
      simp only [Server.step, onManagerResumes] at hstep
      split at hstep
      · rename_i executor message _
        obtain rfl := Option.some.inj hstep
        obtain ⟨htasks, -, -, -, hnetwork⟩ := sendMessage_frame self executor message
        refine hsame rfl (h.of_eq (by rw [manager_sendMessage]) htasks
          (fun hended => hnetwork.trans hended) ?_)
        unfold sendMessage
        split
        · rfl
        · split <;> rfl
      · cases hstep
  | managerStops =>
      simp only [Server.step, onManagerStops] at hstep
      split at hstep
      · obtain rfl := Option.some.inj hstep
        exact hsame rfl (h.of_eq rfl rfl (fun h => h) rfl)
      · cases hstep
  | networkOutgoing =>
      simp only [Server.step, onNetworkOutgoing] at hstep
      split at hstep
      · rename_i message outgoing hwaiting houtgoing
        obtain rfl := Option.some.inj hstep
        have hdeparture : self.departure? .networkOutgoing = some message := by
          simp only [departure?, hwaiting, houtgoing, List.head?_cons]
        -- the message is counted among those that went out
        have htaken : Announced ctx (broadcast ++ [message]) { self with outgoing } := by
          intro executor m hreaction
          rw [List.append_assoc, List.singleton_append, ← houtgoing]
          exact h executor m hreaction
        rw [hdeparture]
        refine htaken.forward (fun hended => ?_) message
        cases hwaiting.symm.trans hended
      · cases hstep
  | networkReceives message =>
      simp only [Server.step, onNetworkReceives] at hstep
      split at hstep
      · obtain rfl := Option.some.inj hstep
        exact hsame rfl (h.of_eq rfl rfl (fun _ => rfl) rfl)
      · rename_i hwaiting _
        split at hstep
        · obtain rfl := Option.some.inj hstep
          refine hsame rfl (h.forward (fun hended => ?_) _)
          cases hwaiting.symm.trans hended
        · obtain rfl := Option.some.inj hstep
          exact hsame rfl h
      · cases hstep
  | networkResumes =>
      simp only [Server.step, onNetworkResumes] at hstep
      split at hstep
      · rename_i hsending
        obtain rfl := Option.some.inj hstep
        refine hsame rfl (h.forward (fun hended => ?_) _)
        cases hsending.symm.trans hended
      · cases hstep
  | networkStops =>
      simp only [Server.step, onNetworkStops] at hstep
      split at hstep
      · obtain rfl := Option.some.inj hstep
        exact hsame rfl (h.of_eq rfl rfl (fun _ => rfl) rfl)
      · cases hstep
  | executorStarts executor =>
      simp only [Server.step, onExecutorStarts] at hstep
      split at hstep
      · obtain rfl := Option.some.inj hstep
        exact hsame rfl (h.perform rfl rfl rfl rfl fun _ hreaction => .inl hreaction)
      · cases hstep
  | executorTakes executor =>
      simp only [Server.step, onExecutorTakes] at hstep
      split at hstep
      · rename_i htask _
        obtain rfl := Option.some.inj hstep
        refine hsame rfl (h.perform rfl rfl rfl rfl fun m hreaction => .inr ?_)
        exact (h.of_task htask ExecutorTask.noConfusion ExecutorTask.noConfusion m hreaction).resolve_left
          ExecutorTask.noConfusion
      · cases hstep
  | executorResumes executor =>
      simp only [Server.step, onExecutorResumes] at hstep
      split at hstep
      · rename_i htask
        obtain rfl := Option.some.inj hstep
        refine hsame rfl (h.perform rfl rfl rfl rfl fun m hreaction => ?_)
        refine (h.of_task htask ExecutorTask.noConfusion ExecutorTask.noConfusion m hreaction).imp_left ?_
        intro hsending
        rw [ExecutorTask.sending.inj hsending]
      · rename_i htask
        obtain rfl := Option.some.inj hstep
        refine hsame rfl (h.perform rfl rfl rfl rfl fun m hreaction => .inr ?_)
        exact (h.of_task htask ExecutorTask.noConfusion ExecutorTask.noConfusion m hreaction).resolve_left
          ExecutorTask.noConfusion
      · cases hstep
  | executorCloses executor =>
      simp only [Server.step, onExecutorCloses] at hstep
      split at hstep
      · rename_i htask _ _ _
        obtain rfl := Option.some.inj hstep
        refine hsame rfl (h.perform rfl rfl rfl rfl fun m hreaction => .inr ?_)
        exact (h.of_task htask ExecutorTask.noConfusion ExecutorTask.noConfusion m hreaction).resolve_left
          ExecutorTask.noConfusion
      · cases hstep
  | flushSends executor =>
      simp only [Server.step, onFlushSends] at hstep
      split at hstep
      · cases hstep
      · split at hstep
        · obtain rfl := Option.some.inj hstep
          exact hsame rfl (h.of_eq rfl rfl (fun h => h) rfl)
        · split at hstep
          · cases hstep
          · obtain rfl := Option.some.inj hstep
            exact hsame rfl (h.of_eq rfl rfl (fun h => h) rfl)

end Server

end QuorumCrypt
