import QuorumCrypt.Orchestration.KeyAgreement
import QuorumCrypt.Orchestration.CacheSafety

/-!
# The answers to the clients

A client waits on a oneshot channel for the answer to its command: the id of the instance or the error of
`start`, or the status of an instance. A request that cannot be started is answered only if it is
synchronous, and the manager does not survive a client that asked for a status and is gone, nor a key
that the FROST protocol cannot be set up with. Here is which commands are answered.
-/

namespace QuorumCrypt

open Rust

variable {K : Curves}

/-- The effect is a send on the responder of a command. -/
def Effect.isAnswer : Effect → Bool
  | answered _ _ => true
  | reported _ _ => true
  | delivered _ _ => false
  | forwarded _ _ => false

namespace InstanceManager

variable (ctx : ManagerContext K) (self : InstanceManager K)

/-- What the client of a command should get: what `start` returned, or the status of the instance. -/
def IsAnswerTo : InstanceManagerCommand K → Effect → Prop
  | .createInstance request responder, effect =>
      ∃ result self', start ctx self request none = .ok (result, self')
        ∧ effect = .answered responder result
  | .createInstanceSync request responder syncResponder, effect =>
      ∃ result self', start ctx self request (some syncResponder) = .ok (result, self')
        ∧ effect = .answered responder result
  | .getInstanceStatus instanceId responder, effect =>
      effect = .reported responder (self.getStatus instanceId)
  | _, _ => False

/-- The handler returns to the loop, and has sent one answer, which is the right one. -/
def AnsweredOnce (command : InstanceManagerCommand K) : Prop :=
  ∃ self' sent answer, handle ctx self command = .ok self' ∧ self'.effects = self.effects ++ sent
    ∧ sent.filter Effect.isAnswer = [answer] ∧ IsAnswerTo ctx self command answer

/-- The condition for that. -/
def Answerable : InstanceManagerCommand K → Prop
  | .createInstance request _ =>
      assignInstanceId ctx.hash256 request ∈ self.instances.instanceData
        ∨ ∃ key, privateKeyFor ctx request = some key ∧ request.Startable key
  | .createInstanceSync request _ _ =>
      assignInstanceId ctx.hash256 request ∈ self.instances.instanceData
        ∨ ∀ key, privateKeyFor ctx request = some key → request.Startable key
  | .getInstanceStatus _ responder => responder.isClosed = false
  | _ => False

variable {ctx self}

section Creation

variable {command : InstanceManagerCommand K} {request : StartInstanceRequest K} {responder : Responder}
  {syncResponder : Option Responder}

theorem isAnswerTo_of_start
    (hcreation : command.creation? = some (request, responder, syncResponder))
    {result : Except ProtocolError String} {self' : InstanceManager K}
    (hstart : start ctx self request syncResponder = .ok (result, self')) :
    IsAnswerTo ctx self command (.answered responder result) := by
  cases command with
  | createInstance request responder =>
      cases hcreation
      exact ⟨result, self', hstart, rfl⟩
  | createInstanceSync request responder syncResponder =>
      cases hcreation
      exact ⟨result, self', hstart, rfl⟩
  | _ => cases hcreation

/-- A request whose instance is there is answered with its id. -/
theorem answeredOnce_of_mem (hcreation : command.creation? = some (request, responder, syncResponder))
    (hmem : assignInstanceId ctx.hash256 request ∈ self.instances.instanceData) :
    AnsweredOnce ctx self command := by
  have hstart := start_of_mem hmem syncResponder
  exact ⟨_, _, _, handle_of_start hcreation hstart, rfl, rfl, isAnswerTo_of_start hcreation hstart⟩

/-- So is one that is started. -/
theorem answeredOnce_of_startable
    (hcreation : command.creation? = some (request, responder, syncResponder))
    (hnew : assignInstanceId ctx.hash256 request ∉ self.instances.instanceData)
    {key : PrivateKeyShare K} (hkey : privateKeyFor ctx request = some key)
    (hstartable : request.Startable key) : AnsweredOnce ctx self command := by
  obtain ⟨protocol, hprotocol⟩ := exists_newProtocol_iff_startable.mpr hstartable
  have hstart := start_of_newProtocol hnew hkey hprotocol syncResponder
  obtain ⟨sent, hsent⟩ := effects_forwardBackloggedMessages
    (self.launch (assignInstanceId ctx.hash256 request) request protocol syncResponder)
    (assignInstanceId ctx.hash256 request)
  refine ⟨_, sent.map (fun m => .forwarded m.1 m.2)
    ++ [.answered responder (.ok (assignInstanceId ctx.hash256 request))], _,
    handle_of_start hcreation hstart, ?_, ?_, isAnswerTo_of_start hcreation hstart⟩
  · rw [emit, hsent, ← List.append_assoc]
    rfl
  · have hforwarded : (sent.map fun m => Effect.forwarded m.1 m.2).filter Effect.isAnswer = [] := by
      rw [List.filter_eq_nil_iff]
      intro effect heffect
      obtain ⟨m, -, rfl⟩ := List.mem_map.mp heffect
      exact Bool.false_ne_true
    rw [List.filter_append, hforwarded]
    rfl

theorem startable_of_handle_eq_ok
    (hcreation : command.creation? = some (request, responder, syncResponder))
    (hnew : assignInstanceId ctx.hash256 request ∉ self.instances.instanceData)
    {key : PrivateKeyShare K} (hkey : privateKeyFor ctx request = some key)
    {self' : InstanceManager K} (hok : handle ctx self command = .ok self') :
    request.Startable key := by
  have hclient : command.isClientCommand = true := by
    cases command <;> first | rfl | cases hcreation
  have hturn : Turn ctx self (.command command hclient) self' := turn_of_onEvent hok
  cases hturn with
  | known hcreation' hmem =>
      obtain ⟨rfl, -⟩ := Prod.mk.inj (Option.some.inj (hcreation.symm.trans hcreation'))
      exact absurd hmem hnew
  | refused hcreation' _ hnone =>
      obtain ⟨rfl, -⟩ := Prod.mk.inj (Option.some.inj (hcreation.symm.trans hcreation'))
      rw [hkey] at hnone
      cases hnone
  | launched hcreation' _ hkey' hprotocol =>
      obtain ⟨rfl, -⟩ := Prod.mk.inj (Option.some.inj (hcreation.symm.trans hcreation'))
      obtain rfl := Option.some.inj (hkey.symm.trans hkey')
      exact exists_newProtocol_iff_startable.mp ⟨_, hprotocol⟩
  | status _ => cases hcreation

end Creation

end InstanceManager

open InstanceManager in
/-- A command of a client is answered exactly once, with the manager back in its loop, if and only if: a
request has its instance there already, or it has a key that its protocol can be set up with, or it is
synchronous and has no key; a client that asks for a status still waits for it. -/
theorem answered_once_iff (ctx : ManagerContext K) (self : InstanceManager K)
    (command : InstanceManagerCommand K) :
    AnsweredOnce ctx self command ↔ Answerable ctx self command := by
  cases command with
  | createInstance request responder =>
      constructor
      · rintro ⟨self', sent, answer, hok, heffects, hsent, -⟩
        by_cases hmem : assignInstanceId ctx.hash256 request ∈ self.instances.instanceData
        · exact .inl hmem
        right
        cases hkey : privateKeyFor ctx request with
        | some key => exact ⟨key, rfl, startable_of_handle_eq_ok rfl hmem hkey hok⟩
        | none =>
            -- nothing was sent
            have hrefused : handle ctx self (.createInstance request responder) = _ :=
              handle_of_start rfl (start_of_key_eq_none hmem hkey none)
            obtain rfl := Outcome.ok.inj (hok.symm.trans hrefused)
            obtain rfl := List.append_cancel_left heffects
            cases hsent
      · intro h
        by_cases hmem : assignInstanceId ctx.hash256 request ∈ self.instances.instanceData
        · exact answeredOnce_of_mem rfl hmem
        · obtain ⟨key, hkey, hstartable⟩ := h.resolve_left hmem
          exact answeredOnce_of_startable rfl hmem hkey hstartable
  | createInstanceSync request responder syncResponder =>
      constructor
      · rintro ⟨self', sent, answer, hok, -⟩
        by_cases hmem : assignInstanceId ctx.hash256 request ∈ self.instances.instanceData
        · exact .inl hmem
        · exact .inr fun key hkey => startable_of_handle_eq_ok rfl hmem hkey hok
      · intro h
        by_cases hmem : assignInstanceId ctx.hash256 request ∈ self.instances.instanceData
        · exact answeredOnce_of_mem rfl hmem
        · cases hkey : privateKeyFor ctx request with
          | some key => exact answeredOnce_of_startable rfl hmem hkey (h.resolve_left hmem key hkey)
          | none =>
              have hstart := start_of_key_eq_none hmem hkey (some syncResponder)
              exact ⟨_, _, _, handle_of_start rfl hstart, rfl, rfl, isAnswerTo_of_start rfl hstart⟩
  | getInstanceStatus instanceId responder =>
      constructor
      · rintro ⟨self', sent, answer, hok, -⟩
        rw [handle] at hok
        split at hok
        · cases hok
        · rename_i hopen
          exact Bool.eq_false_iff.mpr hopen
      · intro hopen
        refine ⟨self.emit [.reported responder (self.getStatus instanceId)],
          [.reported responder (self.getStatus instanceId)], _, ?_, rfl, rfl, rfl⟩
        rw [handle, if_neg (Bool.eq_false_iff.mp hopen)]
  | storeResult instanceId result =>
      refine iff_of_false ?_ id
      rintro ⟨self', sent, answer, -, -, -, hanswer⟩
      exact hanswer
  | updateInstanceStatus instanceId status error =>
      refine iff_of_false ?_ id
      rintro ⟨self', sent, answer, -, -, -, hanswer⟩
      exact hanswer

open InstanceManager in
/-- A manager that has just started sends no answer to a request for which it has no key, and stops when
a client that asked for a status is gone. -/
theorem unanswered_seven :
    InstanceManager.run managerSeven [] = .ok new
      ∧ ¬ AnsweredOnce managerSeven new (.createInstance (.coin [1] .cks05 .ed25519 none) ⟨0, false⟩)
      ∧ ¬ AnsweredOnce managerSeven new (.getInstanceStatus "" ⟨0, true⟩)
      ∧ handle managerSeven new (.getInstanceStatus "" ⟨0, true⟩) = .panic := by
  refine ⟨rfl, ?_, ?_, rfl⟩
  · rintro ⟨self', sent, answer, hok, heffects, hsent, -⟩
    have hnothing : handle managerSeven new
        (.createInstance (.coin [1] .cks05 .ed25519 none) ⟨0, false⟩) = .ok new := rfl
    obtain rfl := Outcome.ok.inj (hok.symm.trans hnothing)
    obtain rfl : sent = [] := heffects.symm
    cases hsent
  · rintro ⟨self', sent, answer, hok, -⟩
    cases hok

end QuorumCrypt
