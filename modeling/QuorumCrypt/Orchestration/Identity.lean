import QuorumCrypt.Orchestration.Transitions

/-!
# What identifies an instance

The id of an instance is a hash of fields of its request. Two requests with the same fields share one
instance, whatever else they ask for. Here is which requests are told apart, and that a run in which
all requests are told apart answers every request with its own instance and its own result.
-/

namespace QuorumCrypt

open Rust

variable {K : Curves}

/-! ### The id -/

theorem hexDigit_inj : ∀ a < 16, ∀ b < 16, hexDigit a = hexDigit b → a = b := by decide

theorem hexEncode_injective : Function.Injective hexEncode := by
  intro b b' h
  have hchars := String.ofList_injective h
  clear h
  induction b generalizing b' with
  | nil =>
      cases b' with
      | nil => rfl
      | cons y b' => simp at hchars
  | cons x b ih =>
      cases b' with
      | nil => simp at hchars
      | cons y b' =>
          simp only [List.flatMap_cons, List.cons_append, List.nil_append, List.cons.injEq] at hchars
          obtain ⟨hhigh, hlow, hrest⟩ := hchars
          have hx : x.toNat < 256 := x.toNat_lt
          have hy : y.toNat < 256 := y.toNat_lt
          have hdiv := hexDigit_inj _ (by omega) _ (by omega) hhigh
          have hmod := hexDigit_inj _ (by omega) _ (by omega) hlow
          have hbyte : x = y := UInt8.toNat_inj.mp (by omega)
          rw [hbyte, ih hrest]

/-- With a collision-free hash function two requests share an id when they share the hashed fields. -/
theorem assignInstanceId_eq_iff {hash256 : Bytes → Bytes} (hinj : Function.Injective hash256)
    {r r' : StartInstanceRequest K} :
    assignInstanceId hash256 r = assignInstanceId hash256 r' ↔ r.hashedFields = r'.hashedFields := by
  rw [assignInstanceId, assignInstanceId, hexEncode_injective.eq_iff, hinj.eq_iff]

theorem asBytes_injective : Function.Injective asBytes := by
  intro s t h
  rw [asBytes, asBytes] at h
  exact String.toByteArray_inj.mp (ByteArray.ext (Array.toList_inj.mp h))

/-- No name of a scheme is the beginning of another one. -/
theorem eq_of_scheme_isPrefix {s s' : ThresholdScheme} :
    asBytes s.asStrName <+: asBytes s'.asStrName → s = s' := by
  cases s <;> cases s' <;> decide +kernel

theorem eq_of_group_isPrefix {g g' : Group} :
    asBytes g.asStrName <+: asBytes g'.asStrName → g = g' := by
  cases g <;> cases g' <;> decide +kernel

/-- A name that cannot be the beginning of another can be split off. -/
theorem eq_of_append_eq {α : Type} {name : α → Bytes}
    (hname : ∀ {a a'}, name a <+: name a' → a = a') {a a' : α} {rest rest' : Bytes}
    (h : name a ++ rest = name a' ++ rest') : a = a' ∧ rest = rest' := by
  have heq : a = a' := by
    rcases List.prefix_or_prefix_of_prefix (List.prefix_append (name a) rest)
      (h ▸ List.prefix_append (name a') rest') with hpre | hpre
    · exact hname hpre
    · exact (hname hpre).symm
  subst heq
  exact ⟨rfl, List.append_cancel_left h⟩

theorem elim_asBytes (keyId : Option String) : keyId.elim [] asBytes = asBytes (keyId.getD "") := by
  cases keyId with
  | none => rfl
  | some id => rfl

/-- Behind labels of one length, the fields of a signature request can be read back. An absent key id
looks like an empty one. -/
theorem hashedFields_signature_eq_iff {message message' label label' : Bytes}
    {scheme scheme' : ThresholdScheme} {group group' : Group} {keyId keyId' : Option String}
    (hlength : label.length = label'.length) :
    (StartInstanceRequest.signature (K := K) message label scheme group keyId).hashedFields
        = (StartInstanceRequest.signature (K := K) message' label' scheme' group' keyId').hashedFields
      ↔ label = label' ∧ scheme = scheme' ∧ group = group' ∧ keyId.getD "" = keyId'.getD "" := by
  simp only [StartInstanceRequest.hashedFields, elim_asBytes]
  constructor
  · intro h
    rw [List.append_assoc, List.append_assoc, List.append_assoc, List.append_assoc] at h
    obtain ⟨hlabel, hrest⟩ := List.append_inj h hlength
    obtain ⟨hscheme, hrest⟩ := eq_of_append_eq eq_of_scheme_isPrefix hrest
    obtain ⟨hgroup, hrest⟩ := eq_of_append_eq eq_of_group_isPrefix hrest
    exact ⟨hlabel, hscheme, hgroup, asBytes_injective hrest⟩
  · rintro ⟨rfl, rfl, rfl, hkey⟩
    rw [hkey]

/-! ### Runs -/

/-- The request of an event. -/
def ManagerEvent.request? : ManagerEvent K → Option (StartInstanceRequest K)
  | command (.createInstance request _) _ => some request
  | command (.createInstanceSync request _ _) _ => some request
  | _ => none

theorem request?_of_creation {command : InstanceManagerCommand K}
    {hclient : command.isClientCommand = true} {request : StartInstanceRequest K} {responder : Responder}
    {syncResponder : Option Responder}
    (h : command.creation? = some (request, responder, syncResponder)) :
    (ManagerEvent.command command hclient).request? = some request := by
  cases command <;> cases h <;> rfl

/-- The requests of a run. -/
def requestsOf (events : List (ManagerEvent K)) : List (StartInstanceRequest K) :=
  events.filterMap ManagerEvent.request?

namespace InstanceManager

/-- Where the executors and the results of a state come from. -/
structure Traced (ctx : ManagerContext K) (events : List (ManagerEvent K))
    (manager : InstanceManager K) : Prop where
  spawned : ∀ e ∈ manager.spawned,
    e.instanceId = assignInstanceId ctx.hash256 e.request ∧ e.request ∈ requestsOf events
  key : ∀ e ∈ manager.spawned, privateKeyFor ctx e.request = some e.protocol.key
  instances : ∀ id inst, manager.instances.instanceData.lookup id = some inst →
    ∃ e ∈ manager.spawned, e.instanceId = id
      ∧ inst.scheme = e.request.getScheme ∧ inst.group = e.request.getGroup
  results : ∀ id inst result, manager.instances.instanceData.lookup id = some inst →
    inst.result = some result →
    ∃ i e, manager.spawned[i]? = some e ∧ e.instanceId = id ∧ .terminated i result ∈ events

section Step

variable {ctx : ManagerContext K} {events : List (ManagerEvent K)} {self self' : InstanceManager K}

/-- A state with the same executors whose instances were there before, but for the channels, the
status and the marks. -/
theorem Traced.of_lookup (h : Traced ctx events self) (hspawned : self'.spawned = self.spawned)
    (hlookup : ∀ id inst', self'.instances.instanceData.lookup id = some inst' →
      ∃ inst, self.instances.instanceData.lookup id = some inst ∧ inst'.scheme = inst.scheme
        ∧ inst'.group = inst.group ∧ inst'.result = inst.result) :
    Traced ctx events self' where
  spawned := by rw [hspawned]; exact h.spawned
  key := by rw [hspawned]; exact h.key
  instances id inst' hinst' := by
    obtain ⟨inst, hinst, hscheme, hgroup, -⟩ := hlookup id inst' hinst'
    rw [hspawned, hscheme, hgroup]
    exact h.instances id inst hinst
  results id inst' result hinst' hresult := by
    obtain ⟨inst, hinst, -, -, heq⟩ := hlookup id inst' hinst'
    rw [hspawned]
    exact h.results id inst result hinst (heq ▸ hresult)

theorem Traced.of_eq (h : Traced ctx events self) (hspawned : self'.spawned = self.spawned)
    (hinstances : self'.instances = self.instances) : Traced ctx events self' :=
  h.of_lookup hspawned fun _ inst hinst => ⟨inst, hinstances ▸ hinst, rfl, rfl, rfl⟩

theorem Traced.append (h : Traced ctx events self) (event : ManagerEvent K) :
    Traced ctx (events ++ [event]) self where
  spawned e he := by
    refine ⟨(h.spawned e he).1, ?_⟩
    rw [requestsOf, List.filterMap_append]
    exact List.mem_append_left _ (h.spawned e he).2
  key := h.key
  instances := h.instances
  results id inst result hinst hresult := by
    obtain ⟨i, e, hi, hid, hmem⟩ := h.results id inst result hinst hresult
    exact ⟨i, e, hi, hid, List.mem_append_left _ hmem⟩

theorem Traced.launch (h : Traced ctx events self) {request : StartInstanceRequest K}
    (hrequest : request ∈ requestsOf events) {protocol : ProtocolInstance K}
    (hkey : privateKeyFor ctx request = some protocol.key) (syncResponder : Option Responder) :
    Traced ctx events (self.launch (assignInstanceId ctx.hash256 request) request protocol
      syncResponder) where
  spawned e he := by
    rcases List.mem_append.mp he with he | he
    · exact h.spawned e he
    · rw [List.mem_singleton.mp he]
      exact ⟨rfl, hrequest⟩
  key e he := by
    rcases List.mem_append.mp he with he | he
    · exact h.key e he
    · rw [List.mem_singleton.mp he]
      exact hkey
  instances id inst hinst := by
    rcases lookup_insert_cases hinst with ⟨rfl, rfl⟩ | hinst
    · exact ⟨_, List.mem_append_right _ List.mem_cons_self, rfl, rfl, rfl⟩
    · obtain ⟨e, he, hid, hrest⟩ := h.instances id inst hinst
      exact ⟨e, List.mem_append_left _ he, hid, hrest⟩
  results id inst result hinst hresult := by
    rcases lookup_insert_cases hinst with ⟨-, rfl⟩ | hinst
    · cases hresult
    · obtain ⟨i, e, hi, hrest⟩ := h.results id inst result hinst hresult
      refine ⟨i, e, ?_, hrest⟩
      exact List.getElem?_append_left (List.getElem?_eq_some_iff.mp hi).1 ▸ hi

/-- An executor reports its result. -/
theorem Traced.settle (h : Traced ctx events self) {i : ℕ} {e : Spawned K}
    (he : self.spawned[i]? = some e) {inst : Instance}
    (hinst : self.instances.instanceData.lookup e.instanceId = some inst)
    {result : Except ProtocolError Bytes} (hevent : .terminated i result ∈ events) :
    Traced ctx events (self.settle e.instanceId inst result) where
  spawned := h.spawned
  key := h.key
  instances id inst' hinst' := by
    rcases lookup_settle_cases hinst' with ⟨rfl, rfl⟩ | ⟨-, hinst'⟩
    · rw [Instance.scheme_settled, Instance.group_settled]
      exact h.instances _ inst hinst
    · exact h.instances id inst' hinst'
  results id inst' result' hinst' hresult := by
    rcases lookup_settle_cases hinst' with ⟨rfl, rfl⟩ | ⟨-, hinst'⟩
    · rw [Instance.result_settled] at hresult
      obtain rfl := Option.some.inj hresult
      exact ⟨i, e, he, rfl, hevent⟩
    · exact h.results id inst' result' hinst' hresult

theorem Traced.onEvent (h : Traced ctx events self) {event : ManagerEvent K}
    (hok : onEvent ctx self event = .ok self') : Traced ctx (events ++ [event]) self' := by
  have h := h.append event
  have hevent : event ∈ events ++ [event] := List.mem_append_right _ List.mem_cons_self
  cases turn_of_onEvent hok with
  | known _ _ => exact h.of_eq rfl rfl
  | refused _ _ _ => exact h.of_eq rfl rfl
  | launched hcreation _ hkey _ =>
      have hrequest := List.mem_filterMap.mpr ⟨_, hevent, request?_of_creation hcreation⟩
      exact (h.launch hrequest hkey _).of_eq (spawned_forwardBackloggedMessages _)
        (instances_forwardBackloggedMessages _)
  | status _ => exact h.of_eq rfl rfl
  | absent _ => exact h
  | settled hspawned hinst => exact h.settle hspawned hinst hevent
  | message message => exact h.of_eq (spawned_onNetMessage message) (instances_onNetMessage message)
  | tick => exact h.of_eq rfl rfl

end Step

variable {ctx : ManagerContext K}

theorem traced_new (ctx : ManagerContext K) : Traced ctx [] (new (K := K)) where
  spawned e he := by cases he
  key e he := by cases he
  instances id inst hinst := by cases hinst
  results id inst result hinst := by cases hinst

theorem traced_run {events : List (ManagerEvent K)} {self : InstanceManager K}
    (h : run ctx events = .ok self) : Traced ctx events self :=
  run_induction (traced_new ctx) (fun _ _ _ _ htraced hevent => htraced.onEvent hevent) h

theorem mem_of_executorOf {self : InstanceManager K} {id : String} {e : Spawned K}
    (h : self.executorOf id = some e) : e ∈ self.spawned ∧ e.instanceId = id := by
  have hmem := List.mem_filter.mp (List.mem_of_getLast? h)
  exact ⟨hmem.1, by simpa using hmem.2⟩

/-- Every instance has an executor. -/
theorem Traced.exists_executorOf {events : List (ManagerEvent K)} {self : InstanceManager K}
    (h : Traced ctx events self) {id : String} {inst : Instance}
    (hinst : self.instances.instanceData.lookup id = some inst) :
    ∃ e, self.executorOf id = some e := by
  obtain ⟨e, he, hid, -⟩ := h.instances id inst hinst
  refine Option.isSome_iff_exists.mp (List.getLast?_isSome.mpr ?_)
  exact List.ne_nil_of_mem (List.mem_filter.mpr ⟨he, by simpa using hid⟩)

/-- What a request gets in a state: as long as there is an instance under its id, the request is
answered with it. Every executor under the id was spawned for this request, and the result of the
instance is one that such an executor reported. -/
structure OwnInstance (ctx : ManagerContext K) (events : List (ManagerEvent K))
    (manager : InstanceManager K) (request : StartInstanceRequest K) : Prop where
  spawned : ∀ e ∈ manager.spawned, e.instanceId = assignInstanceId ctx.hash256 request →
    e.request = request
  answered : ∀ inst syncResponder,
    manager.instances.instanceData.lookup (assignInstanceId ctx.hash256 request) = some inst →
    start ctx manager request syncResponder
        = .ok (.ok (assignInstanceId ctx.hash256 request), manager)
      ∧ inst.scheme = request.getScheme ∧ inst.group = request.getGroup
      ∧ ∃ e, manager.executorOf (assignInstanceId ctx.hash256 request) = some e ∧ e.request = request
  result : ∀ inst result,
    manager.instances.instanceData.lookup (assignInstanceId ctx.hash256 request) = some inst →
    inst.result = some result →
    ∃ i e, manager.spawned[i]? = some e ∧ e.request = request ∧ .terminated i result ∈ events

/-- A request that no other one of the run is confused with gets its own instance. -/
theorem Traced.ownInstance {events : List (ManagerEvent K)} {self : InstanceManager K}
    (h : Traced ctx events self) (hinj : Function.Injective ctx.hash256)
    {request : StartInstanceRequest K}
    (hdistinct : ∀ other ∈ requestsOf events,
      other = request ∨ other.hashedFields ≠ request.hashedFields) :
    OwnInstance ctx events self request := by
  have hown : ∀ e ∈ self.spawned, e.instanceId = assignInstanceId ctx.hash256 request →
      e.request = request := by
    intro e he hid
    obtain ⟨hassigned, hmem⟩ := h.spawned e he
    rcases hdistinct e.request hmem with heq | hne
    · exact heq
    · exact absurd ((assignInstanceId_eq_iff hinj).mp (hassigned.symm.trans hid)) hne
  refine ⟨hown, fun inst syncResponder hinst => ?_, fun inst result hinst hresult => ?_⟩
  · obtain ⟨e, he, hid, hscheme, hgroup⟩ := h.instances _ inst hinst
    obtain ⟨last, hlast⟩ := h.exists_executorOf hinst
    obtain ⟨hmem, hlastId⟩ := mem_of_executorOf hlast
    rw [hown e he hid] at hscheme hgroup
    exact ⟨start_of_mem (HashMap.mem_of_lookup hinst) syncResponder, hscheme, hgroup, last,
      hlast, hown last hmem hlastId⟩
  · obtain ⟨i, e, hi, hid, hmem⟩ := h.results _ inst result hinst hresult
    exact ⟨i, e, hi, hown e (List.mem_of_getElem? hi) hid, hmem⟩

end InstanceManager

open InstanceManager in
/-- Two requests get different ids exactly when they differ in the hashed fields: two signature
requests with labels of one length, when they differ in the label, the scheme, the group or the key
id. In a run, a request that differs there from all the others is answered with its own instance and
with its own result. -/
theorem requests_told_apart {hash256 : Bytes → Bytes} (hinj : Function.Injective hash256) :
    (∀ r r' : StartInstanceRequest K,
      (r ≠ r' → assignInstanceId hash256 r ≠ assignInstanceId hash256 r')
        ↔ (r = r' ∨ r.hashedFields ≠ r'.hashedFields))
    ∧ (∀ (message message' label label' : Bytes) (scheme scheme' : ThresholdScheme)
        (group group' : Group) (keyId keyId' : Option String), label.length = label'.length →
      (assignInstanceId hash256 (.signature (K := K) message label scheme group keyId)
          ≠ assignInstanceId hash256 (.signature (K := K) message' label' scheme' group' keyId')
        ↔ ¬ (label = label' ∧ scheme = scheme' ∧ group = group' ∧ keyId.getD "" = keyId'.getD "")))
    ∧ ∀ (draws : SignerDraws) (order : IterationOrder String (KeyEntry K)) (store : KeyStore K)
        (events : List (ManagerEvent K)) (self : InstanceManager K)
        (request : StartInstanceRequest K),
      InstanceManager.run ⟨hash256, draws, order, store⟩ events = .ok self →
      (∀ other ∈ requestsOf events, other = request ∨ other.hashedFields ≠ request.hashedFields) →
      OwnInstance ⟨hash256, draws, order, store⟩ events self request := by
  refine ⟨fun r r' => ?_, ?_, ?_⟩
  · rw [(assignInstanceId_eq_iff hinj).ne]
    tauto
  · intro message message' label label' scheme scheme' group group' keyId keyId' hlength
    rw [(assignInstanceId_eq_iff hinj).ne, Ne, hashedFields_signature_eq_iff hlength]
  · intro draws order store events self request hrun hdistinct
    exact (traced_run hrun).ownInstance hinj hdistinct

/-- A manager whose only key is the Bls04 share of the first party. The digest is the input. -/
def managerSeven : ManagerContext Curves.seven where
  hash256 b := b
  draws := .counting
  order := .latest _ _
  store :=
    { keyEntries := AList.singleton "key"
        { id := "key"
          isDefault := true
          sk := some (.bls04 .bn254 (bls04KeySeven 1))
          pk := .bls04 .bn254 (bls04KeySeven 1).pubkey } }

/-- A request to sign a message. -/
def signSeven (message : Bytes) : StartInstanceRequest Curves.seven :=
  .signature message [] .bls04 .bn254 none

/-- The events of the requests, with nobody waiting for the answers. -/
def requestsSeven (requests : List (StartInstanceRequest Curves.seven)) :
    List (ManagerEvent Curves.seven) :=
  requests.map fun request => .command (.createInstance request ⟨0, false⟩) rfl

theorem requestsOf_requestsSeven (requests : List (StartInstanceRequest Curves.seven)) :
    requestsOf (requestsSeven requests) = requests := by
  rw [requestsOf, requestsSeven, List.filterMap_map]
  exact List.filterMap_some

/-- A request to sign a message under a label. -/
def labelledSeven (message label : Bytes) : StartInstanceRequest Curves.seven :=
  .signature message label .bls04 .bn254 none

open InstanceManager in
/-- Two requests with different labels each get an instance of their own. -/
theorem requests_told_apart_seven :
    let first := labelledSeven [1] [7]
    let second := labelledSeven [2] [8]
    assignInstanceId managerSeven.hash256 first ≠ assignInstanceId managerSeven.hash256 second
      ∧ ∃ self, InstanceManager.run managerSeven (requestsSeven [first, second]) = .ok self
        ∧ OwnInstance managerSeven (requestsSeven [first, second]) self first
        ∧ OwnInstance managerSeven (requestsSeven [first, second]) self second := by
  intro first second
  have hinj : Function.Injective managerSeven.hash256 := fun _ _ h => h
  have hfields : first.hashedFields ≠ second.hashedFields := by decide +kernel
  obtain ⟨hids, -, hown⟩ := requests_told_apart (K := Curves.seven) hinj
  refine ⟨(hids first second).mpr (.inr hfields) (by simp [first, second, labelledSeven]), _, rfl,
    hown _ _ _ _ _ _ rfl ?_, hown _ _ _ _ _ _ rfl ?_⟩
  · intro other hother
    rw [requestsOf_requestsSeven, List.mem_pair] at hother
    obtain rfl | rfl := hother
    · exact .inl rfl
    · exact .inr hfields.symm
  · intro other hother
    rw [requestsOf_requestsSeven, List.mem_pair] at hother
    obtain rfl | rfl := hother
    · exact .inr hfields
    · exact .inl rfl

/-- The second of two requests to sign different messages is answered with the instance that signs the
first message. -/
theorem second_message_not_signed_seven :
    Function.Injective managerSeven.hash256
      ∧ signSeven [1] ≠ signSeven [2]
      ∧ assignInstanceId managerSeven.hash256 (signSeven [1])
        = assignInstanceId managerSeven.hash256 (signSeven [2])
      ∧ ∃ self, InstanceManager.run managerSeven (requestsSeven [signSeven [1], signSeven [2]])
          = .ok self
        ∧ self.effects
          = [.answered ⟨0, false⟩ (.ok (assignInstanceId managerSeven.hash256 (signSeven [1]))),
            .answered ⟨0, false⟩ (.ok (assignInstanceId managerSeven.hash256 (signSeven [2])))]
        ∧ self.spawned.map Spawned.request = [signSeven [1]] := by
  exact ⟨fun _ _ h => h, by simp [signSeven], rfl, _, rfl, rfl, rfl⟩

end QuorumCrypt
