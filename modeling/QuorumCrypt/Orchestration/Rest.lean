import QuorumCrypt.Orchestration.Work

/-!
# A node comes to rest

A run of steps that the tasks of a node take of themselves ends, because there is only so much to do. It
ends in a state in which no task has anything to do, or in a deadlock: a cycle of full channels through the
manager is the only thing that can keep a node from coming to rest.
-/

namespace QuorumCrypt

open Rust

variable {K : Curves}

namespace Server

/-- No task has anything to do. -/
def AtRest (ctx : ServerContext K) (server : Server K) : Prop :=
  ∀ action : Action K, action.isInternal = true → server.step ctx action = none

section Steps

variable {ctx : ServerContext K} {self self' : Server K} {Q : NetMessage → Prop}
  {R : StartInstanceRequest K → Prop} {events : List (ManagerEvent K)}

theorem not_full_nil {α : Type} : ¬ Full ([] : List α) := by
  rw [not_full_iff]
  exact Nat.succ_pos _

/-- Nothing changes any more: the tasks have nothing to do, or they try again to send. -/
structure Stuck (ctx : ServerContext K) (server : Server K) : Prop where
  clients : server.onClientResumes = none
  command : server.onManagerCommand ctx = none
  message : server.onManagerMessage = none
  outgoing : server.onNetworkOutgoing = none
  starts : ∀ executor, server.onExecutorStarts ctx executor = none
  takes : ∀ executor, server.onExecutorTakes ctx executor = none
  closes : ∀ executor, server.onExecutorCloses executor = none
  flush : ∀ executor, server.onFlushSends executor = none
  manager : ∀ server', server.onManagerResumes = some server' → server' = server
  network : ∀ server', server.onNetworkResumes = some server' → server' = server
  executors : ∀ executor server', server.onExecutorResumes executor = some server' → server' = server

theorem stuck_of_not_works (haccounted : Accounted ctx events self) (hrouted : Routed ctx Q R self)
    (h : ∀ action, Works ctx self action → self.step ctx action = none) : Stuck ctx self := by
  have hsame : ∀ action : Action K, action.isInternal = true → ∀ server', self.step ctx action
      = some server' → server' = self := by
    intro action hinternal server' hstep
    by_contra hne
    have hnone := h action ⟨hinternal, by rw [hstep]; exact fun heq => hne (Option.some.inj heq)⟩
    rw [hnone] at hstep
    cases hstep
  have hnone : ∀ action : Action K, action.isInternal = true →
      (∀ server', self.step ctx action = some server' → server'.work ctx < self.work ctx) →
      self.step ctx action = none := by
    intro action hinternal hlt
    refine Option.eq_none_iff_forall_ne_some.mpr fun server' hstep => ?_
    have hless := hlt server' hstep
    rw [hsame action hinternal server' hstep] at hless
    exact absurd hless (Nat.lt_irrefl _)
  refine ⟨?_, ?_, ?_, ?_, ?_, ?_, ?_, ?_, hsame .managerResumes rfl, hsame .networkResumes rfl,
    fun executor => hsame (.executorResumes executor) rfl⟩
  · exact hnone .clientResumes rfl fun _ => work_onClientResumes
  · exact hnone .managerCommand rfl fun _ => work_onManagerCommand hrouted
  · exact hnone .managerMessage rfl fun _ => work_onManagerMessage
  · exact hnone .networkOutgoing rfl fun _ => work_onNetworkOutgoing
  · exact fun executor => hnone (.executorStarts executor) rfl fun _ =>
      work_onExecutorStarts (haccounted.tasks executor)
  · exact fun executor => hnone (.executorTakes executor) rfl fun _ =>
      work_onExecutorTakes (haccounted.tasks executor)
  · exact fun executor => hnone (.executorCloses executor) rfl fun _ =>
      work_onExecutorCloses (haccounted.tasks executor)
  · exact fun executor => hnone (.flushSends executor) rfl fun _ =>
      work_onFlushSends hrouted.lt_of_flushing

namespace Stuck

variable (h : Stuck ctx self)
include h

theorem waitsFor_of_manager {executor : ℕ} {message : NetMessage}
    (hsending : self.managerTask = .sending executor message) :
    self.WaitsFor .manager (.executor executor) := by
  have hsame : self.sendMessage executor message = self :=
    h.manager _ (by rw [onManagerResumes, hsending])
  have htask : (self.sendMessage executor message).managerTask = .sending executor message := by
    rw [hsame, hsending]
  unfold sendMessage at htask
  split at htask
  · cases htask
  · rename_i hopen
    split at htask
    · rename_i hfull
      exact .manager hsending hfull hopen
    · cases htask

theorem waitsFor_of_network {message : NetMessage} (hsending : self.networkTask = .sending message) :
    self.WaitsFor .network .manager
      ∧ ∃ executor message, self.managerTask = .sending executor message := by
  have hsame : self.forward message = self := h.network _ (by rw [onNetworkResumes, hsending])
  have htask : (self.forward message).networkTask = .sending message := by rw [hsame, hsending]
  unfold forward at htask
  split at htask
  · cases htask
  · rename_i hopen
    split at htask
    · rename_i hfull
      refine ⟨.network hsending hfull hopen, ?_⟩
      -- a manager that waits for a message would take one
      cases hmanager : self.managerTask with
      | sending executor message => exact ⟨executor, message, rfl⟩
      | ended => exact absurd hmanager hopen
      | waiting =>
          have hmessage := h.message
          cases hincoming : self.incoming with
          | nil =>
              rw [hincoming] at hfull
              exact absurd hfull not_full_nil
          | cons m incoming =>
              simp only [onManagerMessage, hmanager, hincoming] at hmessage
              split at hmessage <;> cases hmessage
    · cases htask

theorem waitsFor_of_executor {executor : ℕ} {message : NetMessage}
    (hsending : self.tasks executor = .sending message) :
    self.WaitsFor (.executor executor) .network ∧ ∃ message, self.networkTask = .sending message := by
  have hsame : self.perform executor (.send message) = self :=
    h.executors executor _ (by rw [onExecutorResumes, hsending])
  have htask : (self.perform executor (.send message)).tasks executor = .sending message := by
    rw [hsame, hsending]
  have hperformed := performed_perform self executor (.send message)
  generalize hafter : self.perform executor (.send message) = after at hperformed htask
  cases hperformed with
  | unsent _ =>
      simp only [setTask, Function.update_self] at htask
      cases htask
  | sent _ _ =>
      simp only [setTask, Function.update_self] at htask
      cases htask
  | blocked hopen hfull =>
      refine ⟨.sending hsending hfull hopen, ?_⟩
      cases hnetwork : self.networkTask with
      | sending message => exact ⟨message, rfl⟩
      | ended => exact absurd hnetwork hopen
      | waiting =>
          have houtgoing := h.outgoing
          cases hqueue : self.outgoing with
          | nil =>
              rw [hqueue] at hfull
              exact absurd hfull not_full_nil
          | cons m outgoing =>
              simp only [onNetworkOutgoing, hnetwork, hqueue] at houtgoing
              cases houtgoing

theorem waitsFor_of_reporting {executor : ℕ} {result : Except ProtocolError Bytes}
    (hreporting : self.tasks executor = .reporting result) :
    self.WaitsFor (.executor executor) .manager
      ∧ ∃ executor message, self.managerTask = .sending executor message := by
  have hsame : self.perform executor (.finish result) = self :=
    h.executors executor _ (by rw [onExecutorResumes, hreporting])
  have htask : (self.perform executor (.finish result)).tasks executor = .reporting result := by
    rw [hsame, hreporting]
  have hperformed := performed_perform self executor (.finish result)
  generalize hafter : self.perform executor (.finish result) = after at hperformed htask
  cases hperformed with
  | lost _ =>
      simp only [setTask, Function.update_self] at htask
      cases htask
  | reported _ _ =>
      simp only [setTask, Function.update_self] at htask
      cases htask
  | waits hopen hfull =>
      refine ⟨.reporting hreporting hfull hopen, ?_⟩
      cases hmanager : self.managerTask with
      | sending executor message => exact ⟨executor, message, rfl⟩
      | ended => exact absurd hmanager hopen
      | waiting =>
          have hcommand := h.command
          cases hcommands : self.commands with
          | nil =>
              rw [hcommands] at hfull
              exact absurd hfull not_full_nil
          | cons event commands =>
              simp only [onManagerCommand, hmanager, hcommands] at hcommand
              split at hcommand <;> cases hcommand

/-- The manager waits for an executor, and the executor for the manager, directly or through the network
layer. -/
theorem deadlock (haccounted : Accounted ctx events self) (hrouted : Routed ctx Q R self) {executor : ℕ}
    {message : NetMessage} (hsending : self.managerTask = .sending executor message) :
    Deadlock self.WaitsFor := by
  have hwaits := h.waitsFor_of_manager hsending
  refine ⟨.manager, Relation.TransGen.head hwaits ?_⟩
  have htrack := haccounted.tasks executor
  cases htask : self.tasks executor with
  | absent =>
      obtain ⟨⟨spawned, hspawned, -⟩, -⟩ := hrouted.manager executor message hsending
      have hlt := (List.getElem?_eq_some_iff.mp hspawned).1
      simp only [OnTrack, htask] at htrack
      omega
  | starting =>
      have hstarts := h.starts executor
      simp only [onExecutorStarts, htask] at hstarts
      cases hstarts
  | receiving =>
      have htakes := h.takes executor
      cases hwaits with
      | manager _ hfull _ =>
          cases hchannel : self.channels executor with
          | nil =>
              rw [hchannel] at hfull
              exact absurd hfull not_full_nil
          | cons m rest =>
              simp only [onExecutorTakes, htask, hchannel] at htakes
              cases htakes
  | sending m =>
      obtain ⟨hexecutor, m', hnetwork⟩ := h.waitsFor_of_executor htask
      exact .head hexecutor (.single (h.waitsFor_of_network hnetwork).1)
  | reporting result => exact .single (h.waitsFor_of_reporting htask).1
  | ended =>
      cases hwaits with
      | manager _ _ hopen => exact absurd htask hopen

/-- When the manager does not send, nobody does. -/
theorem atRest (hmanager : ∀ executor message, self.managerTask ≠ .sending executor message) :
    self.AtRest ctx := by
  have hnetwork : ∀ message, self.networkTask ≠ .sending message := by
    intro message hsending
    obtain ⟨-, executor, m, htask⟩ := h.waitsFor_of_network hsending
    exact hmanager executor m htask
  intro action hinternal
  cases action with
  | clientResumes => exact h.clients
  | managerCommand => exact h.command
  | managerMessage => exact h.message
  | managerResumes =>
      change self.onManagerResumes = none
      unfold onManagerResumes
      split
      · rename_i executor message htask
        exact absurd htask (hmanager executor message)
      · rfl
  | networkOutgoing => exact h.outgoing
  | networkResumes =>
      change self.onNetworkResumes = none
      unfold onNetworkResumes
      split
      · rename_i message htask
        exact absurd htask (hnetwork message)
      · rfl
  | executorStarts executor => exact h.starts executor
  | executorTakes executor => exact h.takes executor
  | executorResumes executor =>
      change self.onExecutorResumes executor = none
      unfold onExecutorResumes
      split
      · rename_i message htask
        obtain ⟨-, m, hsending⟩ := h.waitsFor_of_executor htask
        exact absurd hsending (hnetwork m)
      · rename_i result htask
        obtain ⟨-, executor', m, hsending⟩ := h.waitsFor_of_reporting htask
        exact absurd hsending (hmanager executor' m)
      · rfl
  | executorCloses executor => exact h.closes executor
  | flushSends executor => exact h.flush executor
  | _ => cases hinternal

end Stuck

/-- A node with nothing to do is at rest. -/
theorem atRest_of_work_eq_zero (haccounted : Accounted ctx events self) (hrouted : Routed ctx Q R self)
    (h : self.work ctx = 0) : self.AtRest ctx := by
  have hstuck : Stuck ctx self := by
    refine stuck_of_not_works haccounted hrouted fun action hworks => ?_
    refine Option.eq_none_iff_forall_ne_some.mpr fun server' hstep => ?_
    have hlt := work_lt_of_works haccounted hrouted hworks hstep
    omega
  refine hstuck.atRest fun executor message hsending => ?_
  simp only [work, hsending, ManagerTask.work_sending] at h
  omega

end Steps

/-- However the tasks of a node take turns, they change something at most as often as there is something to
do. When nothing changes any more, no task has anything to do, or the node is in a deadlock. And there is
such a run from every state that the node can come to. -/
theorem comes_to_rest {ctx : ServerContext K} {allowed : Server K → Action K → Prop} {self : Server K}
    (h : Reachable (step ctx) allowed new self) :
    (∀ actions self', Takes (step ctx) (Works ctx) self actions self' →
      actions.length ≤ self.work ctx
        ∧ ((∀ action, Works ctx self' action → self'.step ctx action = none) →
          self'.AtRest ctx ∨ Deadlock self'.WaitsFor))
    ∧ ∃ actions self', Takes (step ctx) (Works ctx) self actions self'
        ∧ (self'.AtRest ctx ∨ Deadlock self'.WaitsFor) := by
  let inv : Server K → Prop := fun self =>
    Routed ctx (fun _ => True) (fun _ => True) self ∧ ∃ events, Accounted ctx events self
  have hinv : inv self := ⟨routed_of_reachable h, exists_accounted h⟩
  have hstep : ∀ self action self', inv self → Works ctx self action → self.step ctx action = some self' →
      inv self' ∧ self'.work ctx < self.work ctx := by
    rintro self action self' ⟨hrouted, events, haccounted⟩ hworks hstep
    obtain ⟨more, haccounted'⟩ := haccounted.step hstep
    refine ⟨⟨?_, _, haccounted'⟩, work_lt_of_works haccounted hrouted hworks hstep⟩
    exact hrouted.step haccounted (fun _ _ _ _ => trivial) (fun _ _ _ _ _ => trivial)
      (fun _ _ _ => trivial) hstep
  have hfinal : ∀ self, inv self → (∀ action, Works ctx self action → self.step ctx action = none) →
      self.AtRest ctx ∨ Deadlock self.WaitsFor := by
    rintro self ⟨hrouted, events, haccounted⟩ hnone
    have hstuck := stuck_of_not_works haccounted hrouted hnone
    by_cases hsending : ∃ executor message, self.managerTask = .sending executor message
    · obtain ⟨executor, message, hsending⟩ := hsending
      exact .inr (hstuck.deadlock haccounted hrouted hsending)
    · exact .inl (hstuck.atRest fun executor message htask => hsending ⟨executor, message, htask⟩)
  refine ⟨fun actions self' htakes => ?_, ?_⟩
  · obtain ⟨hinv', hle⟩ := htakes.length_le hstep hinv
    exact ⟨by omega, hfinal self' hinv'⟩
  · obtain ⟨actions, self', htakes, hnone⟩ := Takes.exists_final hstep hinv
    exact ⟨actions, self', htakes, hfinal self' (htakes.length_le hstep hinv).1 hnone⟩

end Server

open Server in
/-- A node that has been asked to sign has seventeen steps to do at most. -/
theorem comes_to_rest_seven :
    ∃ self, runAllowed (step serverSeven) (fun _ _ => True) new signingSeven = some self
      ∧ self.work serverSeven = 17
      ∧ ∃ actions self', Takes (step serverSeven) (Works serverSeven) self actions self'
        ∧ actions.length ≤ 17 ∧ (self'.AtRest serverSeven ∨ Deadlock self'.WaitsFor) := by
  have hrun : (runAllowed (step serverSeven) (fun _ _ => True) new signingSeven).any
      (fun self => self.work serverSeven = 17) = true := by decide +kernel
  obtain ⟨self, hself, hwork⟩ := (Option.any_eq_true _ _).mp hrun
  have hwork := of_decide_eq_true hwork
  obtain ⟨hbound, actions, self', htakes, hend⟩ :=
    comes_to_rest (Reachable.start.of_runAllowed hself)
  have hlength := (hbound actions self' htakes).1
  exact ⟨self, hself, hwork, actions, self', htakes, hwork ▸ hlength, hend⟩

end QuorumCrypt
