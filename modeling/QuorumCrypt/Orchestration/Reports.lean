import QuorumCrypt.Orchestration.Deadlock
import QuorumCrypt.Orchestration.SyncResults

/-!
# What the executors report

The manager believes what an executor reports, and it counts on each executor to report once. Here the
whole node is looked at: the manager, the executors, the network layer and the channels between them, in
any order of their steps and with any network. An executor reports at most once, and what it reports is
what its protocol came to on the messages that it took (`Accounted`).
-/

namespace QuorumCrypt

open Rust

variable {K : Curves}

namespace Server

variable {ctx : ServerContext K} {self self' : Server K} {executor : ℕ} {message : NetMessage}

/-! ### What an executor does with a reaction -/

/-- All that `perform` can do. -/
inductive Performed (server : Server K) (executor : ℕ) : Reaction → Server K → Prop
  | receives : Performed server executor .receive (server.setTask executor .receiving)
  | panics : Performed server executor .panic (server.setTask executor .ended)
  | unsent {message : NetMessage} (h : server.networkTask = .ended) :
      Performed server executor (.send message) (server.setTask executor .ended)
  | blocked {message : NetMessage} (h : server.networkTask ≠ .ended) (hfull : Full server.outgoing) :
      Performed server executor (.send message) (server.setTask executor (.sending message))
  | sent {message : NetMessage} (h : server.networkTask ≠ .ended) (hroom : ¬ Full server.outgoing) :
      Performed server executor (.send message)
        { server.setTask executor .receiving with outgoing := server.outgoing ++ [message] }
  | lost {result : Except ProtocolError Bytes} (h : server.managerTask = .ended) :
      Performed server executor (.finish result) (server.setTask executor .ended)
  | waits {result : Except ProtocolError Bytes} (h : server.managerTask ≠ .ended)
      (hfull : Full server.commands) :
      Performed server executor (.finish result) (server.setTask executor (.reporting result))
  | reported {result : Except ProtocolError Bytes} (h : server.managerTask ≠ .ended)
      (hroom : ¬ Full server.commands) :
      Performed server executor (.finish result)
        { server.setTask executor .ended with
          commands := server.commands ++ [.terminated executor result] }

theorem performed_perform (self : Server K) (executor : ℕ) (reaction : Reaction) :
    Performed self executor reaction (self.perform executor reaction) := by
  cases reaction with
  | receive => exact .receives
  | panic => exact .panics
  | send message =>
      rw [perform]
      split
      · rename_i h
        exact .unsent h
      · rename_i h
        split
        · rename_i hfull
          exact .blocked h hfull
        · rename_i hroom
          exact .sent h hroom
  | finish result =>
      rw [perform]
      split
      · rename_i h
        exact .lost h
      · rename_i h
        split
        · rename_i hfull
          exact .waits h hfull
        · rename_i hroom
          exact .reported h hroom

/-! ### An executor and its protocol -/

/-- The task of an executor is where its protocol is, after the messages it has taken. -/
def OnTrack (ctx : ServerContext K) (self : Server K) (executor : ℕ) : Prop :=
  match self.tasks executor with
  | .absent => self.manager.spawned.length ≤ executor ∧ self.taken executor = []
  | .starting => executor < self.manager.spawned.length ∧ self.taken executor = []
  | .receiving => executor < self.manager.spawned.length
      ∧ (self.reactionOf ctx executor (self.taken executor) = .receive
        ∨ ∃ message, self.reactionOf ctx executor (self.taken executor) = .send message)
  | .sending message => executor < self.manager.spawned.length
      ∧ self.reactionOf ctx executor (self.taken executor) = .send message
  | .reporting result => executor < self.manager.spawned.length
      ∧ self.reactionOf ctx executor (self.taken executor) = .finish result
  | .ended => executor < self.manager.spawned.length

end Server

/-! ### What the executors report -/

/-- The executor that reports in an event, and what it reports. -/
def ManagerEvent.report? : ManagerEvent K → Option (ℕ × Except ProtocolError Bytes)
  | terminated executor result => some (executor, result)
  | _ => none

def reportsOf (events : List (ManagerEvent K)) : List (ℕ × Except ProtocolError Bytes) :=
  events.filterMap ManagerEvent.report?

section Reports

variable {events more : List (ManagerEvent K)} {executor : ℕ} {result : Except ProtocolError Bytes}

theorem reportsOf_append : reportsOf (events ++ more) = reportsOf events ++ reportsOf more :=
  List.filterMap_append

theorem mem_reportsOf : (executor, result) ∈ reportsOf events ↔ .terminated executor result ∈ events := by
  constructor
  · intro h
    obtain ⟨event, hmem, hreport⟩ := List.mem_filterMap.mp h
    cases event with
    | terminated executor' result' =>
        obtain ⟨rfl, rfl⟩ := Prod.mk.inj (Option.some.inj hreport)
        exact hmem
    | _ => cases hreport
  · intro h
    exact List.mem_filterMap.mpr ⟨_, h, rfl⟩

theorem terminationsOf_eq : terminationsOf events = (reportsOf events).map Prod.fst := by
  rw [terminationsOf, reportsOf, List.map_filterMap]
  apply List.filterMap_congr
  intro event _
  cases event <;> rfl

end Reports

namespace Server

variable {ctx : ServerContext K} {self self' : Server K} {executor : ℕ} {message : NetMessage}

/-- What the executors have reported, to the manager or to its channel. -/
def reports (events : List (ManagerEvent K)) (self : Server K) : List (ℕ × Except ProtocolError Bytes) :=
  reportsOf (events ++ self.commands)

/-- The runs of the executors and what the manager has heard of them. -/
structure Accounted (ctx : ServerContext K) (events : List (ManagerEvent K)) (server : Server K) :
    Prop where
  run : InstanceManager.run ctx.toManagerContext events = .ok server.manager
  managed : ∃ done, InstanceManager.Managed done server.manager
    ∧ ∀ executor, executor ∈ done ↔ executor ∈ terminationsOf events
  once : ((server.reports events).map Prod.fst).Nodup
  reported : ∀ executor result, (executor, result) ∈ server.reports events →
    server.tasks executor = .ended
      ∧ server.reactionOf ctx executor (server.taken executor) = .finish result
  clients : reportsOf server.clients = []
  tasks : ∀ executor, server.OnTrack ctx executor
  ended : ∀ executor, server.tasks executor = .ended →
    (∃ result, (executor, result) ∈ server.reports events)
      ∨ server.managerTask = .ended ∨ server.networkTask = .ended
      ∨ server.reactionOf ctx executor (server.taken executor) = .panic

variable {events events' : List (ManagerEvent K)}

theorem reactionOf_congr (h : self'.manager.spawned = self.manager.spawned) (executor : ℕ)
    (taken : List NetMessage) :
    self'.reactionOf ctx executor taken = self.reactionOf ctx executor taken := by
  rw [reactionOf, reactionOf, h]

theorem reactionOf_of_none (h : self.manager.spawned[executor]? = none) {taken : List NetMessage} :
    self.reactionOf ctx executor taken = .panic := by
  rw [reactionOf, h]

/-- The reaction of an executor that is there does not change when others are spawned. -/
theorem reactionOf_of_isPrefix (h : self.manager.spawned <+: self'.manager.spawned)
    (hlt : executor < self.manager.spawned.length) (taken : List NetMessage) :
    self'.reactionOf ctx executor taken = self.reactionOf ctx executor taken := by
  obtain ⟨more, hmore⟩ := h
  rw [reactionOf, reactionOf, ← hmore, List.getElem?_append_left hlt]

theorem OnTrack.lt (h : self.OnTrack ctx executor) (hne : self.tasks executor ≠ .absent) :
    executor < self.manager.spawned.length := by
  unfold OnTrack at h
  cases htask : self.tasks executor with
  | absent => exact absurd htask hne
  | ended => simpa only [htask] using h
  | _ =>
      simp only [htask] at h
      exact h.1

/-- An executor is on its way as long as it, its protocol and what it took stay the same. -/
theorem OnTrack.of_eq (h : self.OnTrack ctx executor)
    (hspawned : self'.manager.spawned = self.manager.spawned)
    (htask : self'.tasks executor = self.tasks executor)
    (htaken : self'.taken executor = self.taken executor) : self'.OnTrack ctx executor := by
  unfold OnTrack at h ⊢
  simpa only [hspawned, htask, htaken, reactionOf_congr hspawned] using h

/-- Nor does it matter that others are spawned. -/
theorem OnTrack.of_isPrefix (h : self.OnTrack ctx executor)
    (hextends : self.manager.spawned <+: self'.manager.spawned)
    (hlt : executor < self.manager.spawned.length)
    (htask : self'.tasks executor = self.tasks executor)
    (htaken : self'.taken executor = self.taken executor) : self'.OnTrack ctx executor := by
  have hlt' : executor < self'.manager.spawned.length := hlt.trans_le hextends.length_le
  unfold OnTrack at h ⊢
  rw [htask, htaken, reactionOf_of_isPrefix hextends hlt]
  cases hcase : self.tasks executor with
  | absent =>
      simp only [hcase] at h
      omega
  | ended => exact hlt'
  | _ =>
      simp only [hcase] at h
      exact ⟨hlt', h.2⟩

theorem onTrack_of_absent (htask : self.tasks executor = .absent)
    (hle : self.manager.spawned.length ≤ executor) (htaken : self.taken executor = []) :
    self.OnTrack ctx executor := by
  simp only [OnTrack, htask]
  exact ⟨hle, htaken⟩

theorem onTrack_of_starting (htask : self.tasks executor = .starting)
    (hlt : executor < self.manager.spawned.length) (htaken : self.taken executor = []) :
    self.OnTrack ctx executor := by
  simp only [OnTrack, htask]
  exact ⟨hlt, htaken⟩

/-- The executors do nothing, and nothing is reported. -/
theorem Accounted.of_tasks_eq (h : Accounted ctx events self) (hsame : self'.manager = self.manager)
    (htasks : self'.tasks = self.tasks) (htaken : self'.taken = self.taken)
    (hclients : reportsOf self'.clients = [])
    (hreports : (self'.reports events).Sublist (self.reports events))
    (hmanager : self'.reports events = self.reports events
        ∧ (self.managerTask = .ended → self'.managerTask = .ended)
      ∨ self'.managerTask = .ended)
    (hnetwork : self.networkTask = .ended → self'.networkTask = .ended) :
    Accounted ctx events self' where
  run := hsame ▸ h.run
  managed := hsame ▸ h.managed
  once := h.once.sublist (hreports.map Prod.fst)
  reported executor result hmem := by
    have hspawned : self'.manager.spawned = self.manager.spawned := by rw [hsame]
    rw [htasks, htaken, reactionOf_congr hspawned]
    exact h.reported executor result (hreports.subset hmem)
  clients := hclients
  tasks executor := (h.tasks executor).of_eq (by rw [hsame]) (by rw [htasks]) (by rw [htaken])
  ended executor htask := by
    have hspawned : self'.manager.spawned = self.manager.spawned := by rw [hsame]
    rcases hmanager with ⟨hequal, htask'⟩ | hended
    · rw [hequal, htaken, reactionOf_congr hspawned]
      rw [htasks] at htask
      exact (h.ended executor htask).imp_right (Or.imp htask' (Or.imp_left hnetwork))
    · exact .inr (.inl hended)

/-- One executor goes on. -/
theorem Accounted.of_task (h : Accounted ctx events self) {task : ExecutorTask}
    (hmanager : self'.manager = self.manager)
    (htasks : self'.tasks = Function.update self.tasks executor task)
    (htaken : ∀ other, other ≠ executor → self'.taken other = self.taken other)
    (hclients : self'.clients = self.clients) (hmanagerTask : self'.managerTask = self.managerTask)
    (hnetworkTask : self'.networkTask = self.networkTask) (hopen : self.tasks executor ≠ .ended)
    (htrack : self'.OnTrack ctx executor)
    (hcommands : (self'.commands = self.commands ∧ (task = .ended → self.managerTask = .ended
        ∨ self.networkTask = .ended ∨ self'.reactionOf ctx executor (self'.taken executor) = .panic))
      ∨ ∃ result, self'.commands = self.commands ++ [.terminated executor result] ∧ task = .ended
        ∧ self'.reactionOf ctx executor (self'.taken executor) = .finish result) :
    Accounted ctx events self' := by
  have hspawned : self'.manager.spawned = self.manager.spawned := by rw [hmanager]
  have htask : self'.tasks executor = task := by rw [htasks, Function.update_self]
  have hother : ∀ other, other ≠ executor → self'.tasks other = self.tasks other := by
    intro other hne
    rw [htasks, Function.update_of_ne hne]
  have hnew : ∀ result, (executor, result) ∉ self.reports events :=
    fun result hmem => hopen (h.reported executor result hmem).1
  have hold : ∀ other result, (other, result) ∈ self.reports events → self'.tasks other = .ended
      ∧ self'.reactionOf ctx other (self'.taken other) = .finish result := by
    intro other result hmem
    have hne : other ≠ executor := by
      rintro rfl
      exact hnew result hmem
    rw [hother other hne, htaken other hne, reactionOf_congr hspawned]
    exact h.reported other result hmem
  have htracks : ∀ other, self'.OnTrack ctx other := by
    intro other
    by_cases heq : other = executor
    · exact heq ▸ htrack
    · exact (h.tasks other).of_eq hspawned (hother other heq) (htaken other heq)
  have hended : ∀ other, other ≠ executor → self'.tasks other = .ended →
      (∃ result, (other, result) ∈ self.reports events) ∨ self'.managerTask = .ended
        ∨ self'.networkTask = .ended ∨ self'.reactionOf ctx other (self'.taken other) = .panic := by
    intro other hne hended
    rw [hmanagerTask, hnetworkTask, htaken other hne, reactionOf_congr hspawned]
    exact h.ended other (hother other hne ▸ hended)
  have hrun : InstanceManager.run ctx.toManagerContext events = .ok self'.manager := by
    rw [hmanager]
    exact h.run
  have hmanaged : ∃ done, InstanceManager.Managed done self'.manager
      ∧ ∀ executor, executor ∈ done ↔ executor ∈ terminationsOf events := by
    rw [hmanager]
    exact h.managed
  rcases hcommands with ⟨hcommands, hstopped⟩ | ⟨result, hcommands, rfl, hreaction⟩
  · have hsame : self'.reports events = self.reports events := by rw [reports, reports, hcommands]
    refine ⟨hrun, hmanaged, hsame ▸ h.once, hsame ▸ hold, hclients ▸ h.clients, htracks, ?_⟩
    intro other hstop
    rw [hsame]
    by_cases heq : other = executor
    · subst heq
      rw [hmanagerTask, hnetworkTask]
      exact .inr (hstopped (htask ▸ hstop))
    · exact hended other heq hstop
  · have hmore : self'.reports events = self.reports events ++ [(executor, result)] := by
      rw [reports, reports, hcommands, ← List.append_assoc, reportsOf_append]
      rfl
    refine ⟨hrun, hmanaged, ?_, ?_, hclients ▸ h.clients, htracks, ?_⟩
    · rw [hmore, List.map_append, List.nodup_append]
      refine ⟨h.once, List.nodup_singleton _, ?_⟩
      intro other hother other' hlast heq
      obtain ⟨⟨first, result'⟩, hmem, rfl⟩ := List.mem_map.mp hother
      obtain rfl : first = executor := heq.trans (List.mem_singleton.mp hlast)
      exact hnew result' hmem
    · intro other result' hmem
      rw [hmore, List.mem_append, List.mem_singleton] at hmem
      rcases hmem with hmem | heq
      · exact hold other result' hmem
      · obtain ⟨rfl, rfl⟩ := Prod.mk.inj heq
        exact ⟨htask, hreaction⟩
    · intro other hstop
      rw [hmore]
      by_cases heq : other = executor
      · subst heq
        exact .inl ⟨result, List.mem_append_right _ List.mem_cons_self⟩
      · exact (hended other heq hstop).imp_left fun ⟨result', hmem⟩ =>
          ⟨result', List.mem_append_left _ hmem⟩

/-- What an executor does follows from the messages that it has taken. -/
theorem Accounted.perform (h : Accounted ctx events self) {mid : Server K} {reaction : Reaction}
    (hmanager : mid.manager = self.manager) (htasks : mid.tasks = self.tasks)
    (htaken : ∀ other, other ≠ executor → mid.taken other = self.taken other)
    (hcommands : mid.commands = self.commands) (hclients : mid.clients = self.clients)
    (hmanagerTask : mid.managerTask = self.managerTask)
    (hnetworkTask : mid.networkTask = self.networkTask) (hopen : self.tasks executor ≠ .ended)
    (hlt : executor < self.manager.spawned.length)
    (hreaction : mid.reactionOf ctx executor (mid.taken executor) = reaction) :
    Accounted ctx events (mid.perform executor reaction) := by
  have hlt' : executor < mid.manager.spawned.length := by rwa [hmanager]
  have hset : ∀ task, (mid.setTask executor task).tasks = Function.update self.tasks executor task := by
    intro task
    rw [setTask, htasks]
  obtain ⟨after, hafter⟩ : ∃ after, after = mid.perform executor reaction := ⟨_, rfl⟩
  have hperformed := performed_perform mid executor reaction
  rw [← hafter] at hperformed ⊢
  cases hperformed with
  | receives =>
      refine h.of_task hmanager (hset _) htaken hclients hmanagerTask hnetworkTask hopen ?_
        (.inl ⟨hcommands, ExecutorTask.noConfusion⟩)
      simp only [OnTrack, setTask, Function.update_self]
      exact ⟨hlt', .inl hreaction⟩
  | panics =>
      refine h.of_task hmanager (hset _) htaken hclients hmanagerTask hnetworkTask hopen ?_
        (.inl ⟨hcommands, fun _ => .inr (.inr hreaction)⟩)
      simp only [OnTrack, setTask, Function.update_self]
      exact hlt'
  | unsent hended =>
      refine h.of_task hmanager (hset _) htaken hclients hmanagerTask hnetworkTask hopen ?_
        (.inl ⟨hcommands, fun _ => .inr (.inl (hnetworkTask ▸ hended))⟩)
      simp only [OnTrack, setTask, Function.update_self]
      exact hlt'
  | blocked _ _ =>
      refine h.of_task hmanager (hset _) htaken hclients hmanagerTask hnetworkTask hopen ?_
        (.inl ⟨hcommands, ExecutorTask.noConfusion⟩)
      simp only [OnTrack, setTask, Function.update_self]
      exact ⟨hlt', hreaction⟩
  | sent _ _ =>
      refine h.of_task hmanager (hset _) htaken hclients hmanagerTask hnetworkTask hopen ?_
        (.inl ⟨hcommands, ExecutorTask.noConfusion⟩)
      simp only [OnTrack, setTask, Function.update_self]
      exact ⟨hlt', .inr ⟨_, hreaction⟩⟩
  | lost hended =>
      refine h.of_task hmanager (hset _) htaken hclients hmanagerTask hnetworkTask hopen ?_
        (.inl ⟨hcommands, fun _ => .inl (hmanagerTask ▸ hended)⟩)
      simp only [OnTrack, setTask, Function.update_self]
      exact hlt'
  | waits _ _ =>
      refine h.of_task hmanager (hset _) htaken hclients hmanagerTask hnetworkTask hopen ?_
        (.inl ⟨hcommands, ExecutorTask.noConfusion⟩)
      simp only [OnTrack, setTask, Function.update_self]
      exact ⟨hlt', hreaction⟩
  | reported _ _ =>
      refine h.of_task hmanager (hset _) htaken hclients hmanagerTask hnetworkTask hopen ?_
        (.inr ⟨_, by rw [hcommands], rfl, hreaction⟩)
      simp only [OnTrack, setTask, Function.update_self]
      exact hlt'

/-! ### Steps -/

theorem accounted_new (ctx : ServerContext K) : Accounted ctx [] (new : Server K) where
  run := rfl
  managed := ⟨[], InstanceManager.managed_new, fun _ => Iff.rfl⟩
  once := List.nodup_nil
  reported _ _ h := by cases h
  clients := rfl
  tasks _ := ⟨Nat.zero_le _, rfl⟩
  ended _ h := by cases h

/-- The network layer, the clients and the tasks that send a backlog do not touch the executors. -/
theorem Accounted.of_frame (h : Accounted ctx events self) (hmanager : self'.manager = self.manager)
    (htasks : self'.tasks = self.tasks) (htaken : self'.taken = self.taken)
    (hclients : reportsOf self'.clients = [])
    (hcommands : reportsOf self'.commands = reportsOf self.commands)
    (hmanagerTask : self.managerTask = .ended → self'.managerTask = .ended)
    (hnetwork : self.networkTask = .ended → self'.networkTask = .ended) :
    Accounted ctx events self' := by
  have hsame : self'.reports events = self.reports events := by
    rw [reports, reports, reportsOf_append, reportsOf_append, hcommands]
  refine h.of_tasks_eq hmanager htasks htaken hclients ?_ ?_ hnetwork
  · rw [hsame]
  · exact .inl ⟨hsame, hmanagerTask⟩

theorem Accounted.onRequest (h : Accounted ctx events self) {event : ManagerEvent K}
    (hevent : event.report? = none) : Accounted ctx events (self.onRequest event) := by
  have hnone : reportsOf [event] = [] := by
    rw [reportsOf, List.filterMap_cons_none hevent, List.filterMap_nil]
  unfold Server.onRequest
  split
  · exact h
  · split
    · refine h.of_frame rfl rfl rfl ?_ rfl id id
      rw [reportsOf_append, h.clients, hnone, List.append_nil]
    · refine h.of_frame rfl rfl rfl h.clients ?_ id id
      rw [reportsOf_append, hnone, List.append_nil]

theorem Accounted.onClientResumes (h : Accounted ctx events self)
    (hstep : self.onClientResumes = some self') : Accounted ctx events self' := by
  unfold Server.onClientResumes at hstep
  split at hstep
  · cases hstep
  · rename_i event clients hpending
    have hclients : reportsOf ([event] ++ clients) = [] := by
      rw [List.singleton_append, ← hpending]
      exact h.clients
    rw [reportsOf_append, List.append_eq_nil_iff] at hclients
    split at hstep
    · obtain rfl := Option.some.inj hstep
      exact h.of_frame rfl rfl rfl hclients.2 rfl id id
    · split at hstep
      · cases hstep
      · obtain rfl := Option.some.inj hstep
        refine h.of_frame rfl rfl rfl hclients.2 ?_ id id
        rw [reportsOf_append, hclients.1, List.append_nil]

theorem terminationsOf_append_singleton {event : ManagerEvent K} {executor : ℕ} :
    executor ∈ terminationsOf (events ++ [event])
      ↔ executor ∈ terminationsOf events ∨ event.terminated? = some executor := by
  rw [terminationsOf, terminationsOf, List.filterMap_append, List.mem_append]
  apply or_congr_right
  cases event <;> simp [ManagerEvent.terminated?, eq_comm]

/-- The executors that have reported are those that the manager knows to have. -/
theorem Accounted.managed_append (h : Accounted ctx events self) {event : ManagerEvent K}
    {commands : List (ManagerEvent K)} (hcommands : self.commands = event :: commands)
    {manager : InstanceManager K}
    (hevent : InstanceManager.onEvent ctx.toManagerContext self.manager event = .ok manager) :
    ∃ done, InstanceManager.Managed done manager
      ∧ ∀ executor, executor ∈ done ↔ executor ∈ terminationsOf (events ++ [event]) := by
  obtain ⟨done, hmanaged, hdone⟩ := h.managed
  -- it reports now, so it has not before
  have hnew : ∀ executor, event.terminated? = some executor →
      executor < self.manager.spawned.length ∧ executor ∉ done := by
    intro executor hterminated
    cases event with
    | terminated executor' result =>
        obtain rfl := Option.some.inj hterminated
        have hreports : self.reports events
            = reportsOf events ++ (executor', result) :: reportsOf commands := by
          rw [reports, hcommands, reportsOf_append]
          rfl
        have hmem : (executor', result) ∈ self.reports events := by
          rw [hreports, List.mem_append]
          exact .inr List.mem_cons_self
        have htask := (h.reported executor' result hmem).1
        refine ⟨(h.tasks executor').lt (by rw [htask]; exact ExecutorTask.noConfusion), ?_⟩
        have honce := h.once
        rw [hreports, List.map_append, List.nodup_append] at honce
        rw [hdone, terminationsOf_eq]
        exact fun hold => honce.2.2 executor' hold executor' List.mem_cons_self rfl
    | _ => cases hterminated
  obtain ⟨done', hmanaged', hdone'⟩ :=
    hmanaged.onEvent hevent fun executor hterminated => (hnew executor hterminated).2
  refine ⟨done', hmanaged', fun executor => ?_⟩
  rw [hdone', terminationsOf_append_singleton, hdone]
  exact or_congr_right ⟨And.left, fun h => ⟨h, (hnew executor h).1⟩⟩

/-- The manager takes a command, and new executors are started. -/
theorem Accounted.afterCommand (h : Accounted ctx events self) {event : ManagerEvent K}
    {commands : List (ManagerEvent K)} (hcommands : self.commands = event :: commands)
    {manager : InstanceManager K}
    (hevent : InstanceManager.onEvent ctx.toManagerContext self.manager event = .ok manager) :
    Accounted ctx (events ++ [event]) { self.afterCommand manager with commands } := by
  have hextends : self.manager.spawned <+: manager.spawned := InstanceManager.spawned_isPrefix hevent
  have hsame : ({ self.afterCommand manager with commands } : Server K).reports (events ++ [event])
      = self.reports events := by
    rw [reports, reports, hcommands, List.append_assoc, List.singleton_append]
  have hold : ∀ executor, executor < self.manager.spawned.length →
      ({ self.afterCommand manager with commands } : Server K).tasks executor = self.tasks executor :=
    fun executor hlt => if_neg fun hnew => absurd hnew.1 (Nat.not_le.mpr hlt)
  have hreaction : ∀ executor taken, executor < self.manager.spawned.length →
      ({ self.afterCommand manager with commands } : Server K).reactionOf ctx executor taken
        = self.reactionOf ctx executor taken :=
    fun executor taken hlt => reactionOf_of_isPrefix hextends hlt taken
  refine ⟨InstanceManager.run_append_singleton.mpr ⟨_, h.run, hevent⟩, h.managed_append hcommands hevent,
    hsame ▸ h.once, ?_, h.clients, ?_, ?_⟩
  · intro executor result hmem
    rw [hsame] at hmem
    obtain ⟨htask, hresult⟩ := h.reported executor result hmem
    have hlt := (h.tasks executor).lt (by rw [htask]; exact ExecutorTask.noConfusion)
    exact ⟨(hold executor hlt).trans htask, (hreaction executor _ hlt).trans hresult⟩
  · intro executor
    have htrack := h.tasks executor
    by_cases hlt : executor < self.manager.spawned.length
    · exact htrack.of_isPrefix hextends hlt (hold executor hlt) rfl
    · -- an executor that was not there has taken nothing
      have habsent : self.tasks executor = .absent := by
        by_contra hne
        exact hlt (htrack.lt hne)
      simp only [OnTrack, habsent] at htrack
      by_cases hnew : executor < manager.spawned.length
      · exact onTrack_of_starting (if_pos ⟨Nat.not_lt.mp hlt, hnew⟩) hnew htrack.2
      · exact onTrack_of_absent ((if_neg fun h => hnew h.2).trans habsent) (Nat.not_lt.mp hnew) htrack.2
  · intro executor htask
    rw [hsame]
    by_cases hlt : executor < self.manager.spawned.length
    · rw [hreaction executor _ hlt]
      exact h.ended executor ((hold executor hlt).symm.trans htask)
    · -- it is not among those that have ended
      have htask' : (if self.manager.spawned.length ≤ executor ∧ executor < manager.spawned.length
          then ExecutorTask.starting else self.tasks executor) = .ended := htask
      split at htask'
      · cases htask'
      · exact absurd ((h.tasks executor).lt (by rw [htask']; exact ExecutorTask.noConfusion)) hlt

theorem Accounted.onManagerCommand (h : Accounted ctx events self)
    (hstep : self.onManagerCommand ctx = some self') :
    ∃ more, Accounted ctx (events ++ more) self' := by
  unfold Server.onManagerCommand at hstep
  split at hstep
  · rename_i event commands _ hcommands
    split at hstep
    · rename_i manager hevent
      obtain rfl := Option.some.inj hstep
      exact ⟨[event], h.afterCommand hcommands hevent⟩
    · obtain rfl := Option.some.inj hstep
      refine ⟨[], ?_⟩
      rw [List.append_nil]
      refine h.of_tasks_eq rfl rfl rfl h.clients ?_ (.inr rfl) id
      rw [reports, reports, reportsOf_append, reportsOf_append, hcommands]
      exact (List.Sublist.refl _).append ((List.sublist_cons_self _ _).filterMap _)
  · cases hstep

/-- The manager goes on with a message or a tick. -/
theorem Accounted.of_turn (h : Accounted ctx events self) {event : ManagerEvent K}
    (hevent : InstanceManager.onEvent ctx.toManagerContext self.manager event = .ok self'.manager)
    (hreport : event.report? = none) (hspawned : self'.manager.spawned = self.manager.spawned)
    (htasks : self'.tasks = self.tasks) (htaken : self'.taken = self.taken)
    (hclients : self'.clients = self.clients) (hcommands : self'.commands = self.commands)
    (hopen : self.managerTask ≠ .ended) (hnetwork : self'.networkTask = self.networkTask) :
    Accounted ctx (events ++ [event]) self' := by
  have hsame : self'.reports (events ++ [event]) = self.reports events := by
    have hnone : reportsOf [event] = [] := by
      rw [reportsOf, List.filterMap_cons_none hreport, List.filterMap_nil]
    rw [reports, reports, hcommands, reportsOf_append, reportsOf_append, reportsOf_append, hnone,
      List.append_nil]
  have hmanaged : ∃ done, InstanceManager.Managed done self'.manager
      ∧ ∀ executor, executor ∈ done ↔ executor ∈ terminationsOf (events ++ [event]) := by
    obtain ⟨done, hmanaged, hdone⟩ := h.managed
    have hnone : event.terminated? = none := by
      cases event with
      | terminated _ _ => cases hreport
      | _ => rfl
    obtain ⟨done', hmanaged', hdone'⟩ :=
      hmanaged.onEvent hevent fun executor hsome => by rw [hnone] at hsome; cases hsome
    refine ⟨done', hmanaged', fun executor => ?_⟩
    rw [hdone', terminationsOf_append_singleton, hdone, hnone]
    simp
  refine ⟨InstanceManager.run_append_singleton.mpr ⟨_, h.run, hevent⟩, hmanaged, hsame ▸ h.once, ?_,
    hclients ▸ h.clients, ?_, ?_⟩
  · intro executor result hmem
    rw [htasks, htaken, reactionOf_congr hspawned]
    exact h.reported executor result (hsame ▸ hmem)
  · exact fun executor => (h.tasks executor).of_eq hspawned (by rw [htasks]) (by rw [htaken])
  · intro executor htask
    rw [hsame, htaken, hnetwork, reactionOf_congr hspawned]
    rcases h.ended executor (htasks ▸ htask) with hreported | hended | hrest
    · exact .inl hreported
    · exact absurd hended hopen
    · exact .inr (.inr hrest)

section Frames

variable (self executor message)

/-- A send of the manager or of the network layer does not touch the executors. -/
theorem sendMessage_frame :
    (self.sendMessage executor message).tasks = self.tasks
      ∧ (self.sendMessage executor message).taken = self.taken
      ∧ (self.sendMessage executor message).clients = self.clients
      ∧ (self.sendMessage executor message).commands = self.commands
      ∧ (self.sendMessage executor message).networkTask = self.networkTask := by
  unfold sendMessage
  split
  · exact ⟨rfl, rfl, rfl, rfl, rfl⟩
  · split <;> exact ⟨rfl, rfl, rfl, rfl, rfl⟩

theorem forward_frame :
    (self.forward message).tasks = self.tasks ∧ (self.forward message).taken = self.taken
      ∧ (self.forward message).clients = self.clients
      ∧ (self.forward message).commands = self.commands
      ∧ (self.forward message).managerTask = self.managerTask := by
  unfold forward
  split
  · exact ⟨rfl, rfl, rfl, rfl, rfl⟩
  · split <;> exact ⟨rfl, rfl, rfl, rfl, rfl⟩

end Frames

theorem Accounted.onManagerMessage (h : Accounted ctx events self)
    (hstep : self.onManagerMessage = some self') :
    ∃ more, Accounted ctx (events ++ more) self' := by
  unfold Server.onManagerMessage at hstep
  split at hstep
  · rename_i message incoming hwaiting _
    have hopen : self.managerTask ≠ .ended := by
      rw [hwaiting]
      exact ManagerTask.noConfusion
    refine ⟨[.message message], ?_⟩
    dsimp only at hstep
    split at hstep
    · obtain rfl := Option.some.inj hstep
      exact h.of_turn rfl rfl (InstanceManager.spawned_onNetMessage message) rfl rfl rfl rfl hopen rfl
    · rename_i executor _
      obtain rfl := Option.some.inj hstep
      obtain ⟨htasks, htaken, hclients, hcommands, hnetwork⟩ := sendMessage_frame
        { self with incoming, manager := self.manager.onNetMessage message } executor message
      refine h.of_turn ?_ rfl ?_ htasks htaken hclients hcommands hopen hnetwork
      · rw [manager_sendMessage]
        rfl
      · rw [manager_sendMessage]
        exact InstanceManager.spawned_onNetMessage message
  · cases hstep

theorem Accounted.onManagerTick (h : Accounted ctx events self)
    (hstep : self.onManagerTick = some self') : ∃ more, Accounted ctx (events ++ more) self' := by
  unfold Server.onManagerTick at hstep
  split at hstep
  · rename_i hwaiting
    obtain rfl := Option.some.inj hstep
    have hopen : self.managerTask ≠ .ended := by
      rw [hwaiting]
      exact ManagerTask.noConfusion
    exact ⟨[.tick], h.of_turn rfl rfl rfl rfl rfl rfl rfl hopen rfl⟩
  · cases hstep

theorem Accounted.onManagerResumes (h : Accounted ctx events self)
    (hstep : self.onManagerResumes = some self') : Accounted ctx events self' := by
  unfold Server.onManagerResumes at hstep
  split at hstep
  · rename_i executor message hsending
    obtain rfl := Option.some.inj hstep
    obtain ⟨htasks, htaken, hclients, hcommands, hnetwork⟩ := sendMessage_frame self executor message
    refine h.of_frame (manager_sendMessage _ _ _) htasks htaken (hclients ▸ h.clients)
      (by rw [hcommands]) ?_ (fun hended => hnetwork.trans hended)
    intro hended
    cases hsending.symm.trans hended
  · cases hstep

theorem Accounted.forward (h : Accounted ctx events self) (hopen : self.networkTask ≠ .ended)
    (message : NetMessage) : Accounted ctx events (self.forward message) := by
  obtain ⟨htasks, htaken, hclients, hcommands, hmanager⟩ := forward_frame self message
  exact h.of_frame (manager_forward _ _) htasks htaken (hclients ▸ h.clients) (by rw [hcommands])
    (fun hended => hmanager.trans hended) fun hended => absurd hended hopen

theorem Accounted.onNetworkOutgoing (h : Accounted ctx events self)
    (hstep : self.onNetworkOutgoing = some self') : Accounted ctx events self' := by
  unfold Server.onNetworkOutgoing at hstep
  split at hstep
  · rename_i message outgoing hwaiting _
    obtain rfl := Option.some.inj hstep
    have htaken : Accounted ctx events { self with outgoing } :=
      h.of_frame rfl rfl rfl h.clients rfl id id
    apply htaken.forward
    intro hended
    cases hwaiting.symm.trans hended
  · cases hstep

theorem Accounted.onNetworkReceives (h : Accounted ctx events self) {message : WireMessage}
    (hstep : self.onNetworkReceives ctx message = some self') : Accounted ctx events self' := by
  unfold Server.onNetworkReceives at hstep
  split at hstep
  · obtain rfl := Option.some.inj hstep
    exact h.of_frame rfl rfl rfl h.clients rfl id fun _ => rfl
  · rename_i hwaiting _
    split at hstep
    · obtain rfl := Option.some.inj hstep
      apply h.forward
      intro hended
      cases hwaiting.symm.trans hended
    · obtain rfl := Option.some.inj hstep
      exact h
  · cases hstep

theorem Accounted.onNetworkResumes (h : Accounted ctx events self)
    (hstep : self.onNetworkResumes = some self') : Accounted ctx events self' := by
  unfold Server.onNetworkResumes at hstep
  split at hstep
  · rename_i message hsending
    obtain rfl := Option.some.inj hstep
    apply h.forward
    intro hended
    cases hsending.symm.trans hended
  · cases hstep

theorem Accounted.onExecutorStarts (h : Accounted ctx events self)
    (hstep : self.onExecutorStarts ctx executor = some self') : Accounted ctx events self' := by
  unfold Server.onExecutorStarts at hstep
  split at hstep
  · rename_i htask
    obtain rfl := Option.some.inj hstep
    have htrack := h.tasks executor
    simp only [OnTrack, htask] at htrack
    refine h.perform rfl rfl (fun _ _ => rfl) rfl rfl rfl rfl ?_ htrack.1 (by rw [htrack.2])
    rw [htask]
    exact ExecutorTask.noConfusion
  · cases hstep

theorem Accounted.onExecutorTakes (h : Accounted ctx events self)
    (hstep : self.onExecutorTakes ctx executor = some self') : Accounted ctx events self' := by
  unfold Server.onExecutorTakes at hstep
  split at hstep
  · rename_i message rest htask _
    obtain rfl := Option.some.inj hstep
    have htrack := h.tasks executor
    simp only [OnTrack, htask] at htrack
    refine h.perform rfl rfl ?_ rfl rfl rfl rfl ?_ htrack.1 ?_
    · intro other hne
      exact Function.update_of_ne hne _ _
    · rw [htask]
      exact ExecutorTask.noConfusion
    · dsimp only
      rw [Function.update_self]
      rfl
  · cases hstep

theorem Accounted.onExecutorResumes (h : Accounted ctx events self)
    (hstep : self.onExecutorResumes executor = some self') : Accounted ctx events self' := by
  have htrack := h.tasks executor
  unfold Server.onExecutorResumes at hstep
  split at hstep
  · rename_i message htask
    obtain rfl := Option.some.inj hstep
    simp only [OnTrack, htask] at htrack
    refine h.perform rfl rfl (fun _ _ => rfl) rfl rfl rfl rfl ?_ htrack.1 htrack.2
    rw [htask]
    exact ExecutorTask.noConfusion
  · rename_i result htask
    obtain rfl := Option.some.inj hstep
    simp only [OnTrack, htask] at htrack
    refine h.perform rfl rfl (fun _ _ => rfl) rfl rfl rfl rfl ?_ htrack.1 htrack.2
    rw [htask]
    exact ExecutorTask.noConfusion
  · cases hstep

/-- An executor whose channel is closed reports to nobody: the manager is gone. -/
theorem Accounted.onExecutorCloses (h : Accounted ctx events self)
    (hstep : self.onExecutorCloses executor = some self') : Accounted ctx events self' := by
  unfold Server.onExecutorCloses at hstep
  split at hstep
  · rename_i htask hmanager _ _
    obtain rfl := Option.some.inj hstep
    have htrack := h.tasks executor
    simp only [OnTrack, htask] at htrack
    have hlost : self.perform executor (.finish (.error .notFinished))
        = self.setTask executor .ended := by
      simp only [Server.perform, hmanager]
    rw [hlost]
    refine h.of_task rfl rfl (fun _ _ => rfl) rfl rfl rfl ?_ ?_ (.inl ⟨rfl, fun _ => .inl hmanager⟩)
    · rw [htask]
      exact ExecutorTask.noConfusion
    · simp only [OnTrack, setTask, Function.update_self]
      exact htrack.1
  · cases hstep

theorem Accounted.onFlushSends (h : Accounted ctx events self)
    (hstep : self.onFlushSends executor = some self') : Accounted ctx events self' := by
  unfold Server.onFlushSends at hstep
  split at hstep
  · cases hstep
  · split at hstep
    · obtain rfl := Option.some.inj hstep
      exact h.of_frame rfl rfl rfl h.clients rfl id id
    · split at hstep
      · cases hstep
      · obtain rfl := Option.some.inj hstep
        exact h.of_frame rfl rfl rfl h.clients rfl id id

/-- A step of any task keeps the account. -/
theorem Accounted.step (h : Accounted ctx events self) {action : Action K}
    (hstep : self.step ctx action = some self') : ∃ more, Accounted ctx (events ++ more) self' := by
  have hsame : Accounted ctx events self' → ∃ more, Accounted ctx (events ++ more) self' := by
    intro h'
    exact ⟨[], by rwa [List.append_nil]⟩
  cases action with
  | request command hclient =>
      obtain rfl := Option.some.inj hstep
      exact hsame (h.onRequest rfl)
  | clientResumes => exact hsame (h.onClientResumes hstep)
  | managerCommand => exact h.onManagerCommand hstep
  | managerMessage => exact h.onManagerMessage hstep
  | managerTick => exact h.onManagerTick hstep
  | managerResumes => exact hsame (h.onManagerResumes hstep)
  | managerStops =>
      simp only [Server.step, Server.onManagerStops] at hstep
      split at hstep
      · obtain rfl := Option.some.inj hstep
        exact hsame (h.of_frame rfl rfl rfl h.clients rfl (fun _ => rfl) id)
      · cases hstep
  | networkOutgoing => exact hsame (h.onNetworkOutgoing hstep)
  | networkReceives message => exact hsame (h.onNetworkReceives hstep)
  | networkResumes => exact hsame (h.onNetworkResumes hstep)
  | networkStops =>
      simp only [Server.step, Server.onNetworkStops] at hstep
      split at hstep
      · obtain rfl := Option.some.inj hstep
        exact hsame (h.of_frame rfl rfl rfl h.clients rfl id fun _ => rfl)
      · cases hstep
  | executorStarts executor => exact hsame (h.onExecutorStarts hstep)
  | executorTakes executor => exact hsame (h.onExecutorTakes hstep)
  | executorResumes executor => exact hsame (h.onExecutorResumes hstep)
  | executorCloses executor => exact hsame (h.onExecutorCloses hstep)
  | flushSends executor => exact hsame (h.onFlushSends hstep)

/-- Every state that a node can come to is accounted for. -/
theorem exists_accounted {allowed : Server K → Action K → Prop}
    (h : Reachable (step ctx) allowed new self) : ∃ events, Accounted ctx events self := by
  refine h.invariant (motive := fun self : Server K => ∃ events, Accounted ctx events self)
    ⟨[], accounted_new ctx⟩ ?_
  rintro self action self' ⟨events, haccounted⟩ - hstep
  obtain ⟨more, haccounted'⟩ := haccounted.step hstep
  exact ⟨events ++ more, haccounted'⟩

/-- An executor reports to the manager once. -/
theorem Accounted.terminationsOf_nodup (h : Accounted ctx events self) :
    (terminationsOf events).Nodup := by
  have honce := h.once
  rw [reports, reportsOf_append, List.map_append, List.nodup_append] at honce
  rw [terminationsOf_eq]
  exact honce.1

/-- What the manager has heard of an executor is what its protocol came to. -/
theorem Accounted.reaction (h : Accounted ctx events self) {result : Except ProtocolError Bytes}
    (hmem : .terminated executor result ∈ events) :
    self.tasks executor = .ended
      ∧ self.reactionOf ctx executor (self.taken executor) = .finish result := by
  apply h.reported
  rw [reports, reportsOf_append, List.mem_append]
  exact .inl (mem_reportsOf.mpr hmem)

end Server

end QuorumCrypt
