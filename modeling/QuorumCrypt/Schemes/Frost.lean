import QuorumCrypt.Schemes.Common
import Mathlib.Data.List.Sort

/-!
# The FROST threshold signature

`signatures/frost.rs` and the Frost arm of `generate_keys`, over one curve. `compute_binding_factors`
sorts the commitment list it is given in place, so what follows it works on the sorted list. The
proofs rest on two facts: the binding factor of an entry depends on its id and on the sorted list
only, and the product of the equations that `verify_share` checks, over all signers, is the equation
that `verify` checks.
-/

namespace QuorumCrypt

open Rust

structure FrostPublicKey (G : Type) where
  id : String
  n : UInt16
  k : UInt16
  y : G
  h : List G
  deriving DecidableEq

structure FrostPrivateKey (G : Type) where
  id : UInt16
  x : ℕ
  pubkey : FrostPublicKey G
  deriving DecidableEq

structure PublicCommitment (G : Type) where
  id : UInt16
  hidingNonceCommitment : G
  bindingNonceCommitment : G
  deriving DecidableEq

structure Nonce where
  hidingNonce : ℕ
  bindingNonce : ℕ
  deriving DecidableEq

structure BindingFactor where
  id : UInt16
  factor : ℕ
  deriving DecidableEq

structure FrostSignatureShare where
  id : UInt16
  data : ℕ
  deriving DecidableEq

structure FrostSignature (G : Type) where
  R : G
  z : ℕ
  deriving DecidableEq

/-- The hash functions of the scheme. -/
structure FrostHashes where
  h1 : Bytes → ℕ
  h2 : Bytes → ℕ
  h3 : Bytes → ℕ
  h4 : Bytes → Bytes
  h5 : Bytes → Bytes

/-- Hash functions that return one. -/
def FrostHashes.ones : FrostHashes where
  h1 _ := 1
  h2 _ := 1
  h3 _ := 1
  h4 _ := []
  h5 _ := []

section

variable {G : Type} [CommGroup G] (E : Primitives) (C : EcGroup G) (hash : FrostHashes)

/-- The hash functions the code has for Ed25519; on another curve the context string is missing and
the first hash panics. -/
def frostHashes : FrostHashes :=
  let contextString : Bytes := "FROST-ED25519-SHA512-v1".toUTF8.toList
  let scalar (b : Bytes) : ℕ := C.scalarFromBytes b % C.order
  { h1 := fun b => scalar (E.hash512 (contextString ++ "rho".toUTF8.toList ++ b))
    h2 := fun b => scalar (E.hash512 b)
    h3 := fun b => C.scalarFromBytes (toBytesBE 32
      (ofBytesBE (E.hash512 (contextString ++ "nonce".toUTF8.toList ++ b))
        % 0x1000000000000000000000000000000014DEF9DEA2F79CD65812631A5CF5D3ED))
    h4 := fun b => E.hash512 (contextString ++ "msg".toUTF8.toList ++ b)
    h5 := fun b => E.hash512 (contextString ++ "com".toUTF8.toList ++ b) }

namespace FrostPublicKey

def toBytes (pk : FrostPublicKey G) : Bytes :=
  E.asn1Write ([.int C.group.asI32, .int pk.n.toNat, .int pk.k.toNat, .octets (C.toBytes pk.y)]
    ++ pk.h.map fun vk => .octets (C.toBytes vk))

def new (n k : ℕ) (y : G) (h : List G) : FrostPublicKey G :=
  let key : FrostPublicKey G := { id := "", n := UInt16.ofNat n, k := UInt16.ofNat k, y, h }
  { key with id := E.calcKeyId (key.toBytes E C) }

end FrostPublicKey

def FrostSignature.toBytes (sig : FrostSignature G) : Bytes :=
  E.asn1Write [.int C.group.asI32, .octets (C.toBytes sig.R), .octets (C.scalarToBytes sig.z)]

namespace Frost

/-- The Frost arm of `generate_keys`. The id passes through `usize`, so it wraps around. -/
def generateKeys (k n : ℕ) (rng : ℕ → ℕ) : SchemeOutcome (List (FrostPrivateKey G)) := do
  checkParams k n
  let x := C.newRand (rng 0)
  let y := C.newPowBig x
  let (shares, h) ← shamirShare C x k n fun i => rng (i + 1)
  let publicKey := FrostPublicKey.new E C n k y h
  .ok (numberShares shares fun id x => { id, x, pubkey := publicKey })

/-- The little-endian encoding with the top three bits cleared. -/
def serializeScalar (scalar : ℕ) : Bytes :=
  let bytes := (C.scalarToBytes scalar).reverse
  bytes.mapIdx fun i b => if i = bytes.length - 1 then b &&& 0x1f else b

def nonceGenerate (secret : ℕ) (randomBytes : Bytes) : ℕ :=
  hash.h3 (randomBytes ++ serializeScalar C secret)

/-- The two arguments of randomness are what the generator returns for the two nonces. -/
def commit (key : FrostPrivateKey G) (randomBytes randomBytes' : Bytes) :
    PublicCommitment G × Nonce :=
  let hidingNonce := nonceGenerate C hash key.x randomBytes
  let bindingNonce := nonceGenerate C hash key.x randomBytes'
  ({ id := key.id, hidingNonceCommitment := C.newPowBig hidingNonce,
     bindingNonceCommitment := C.newPowBig bindingNonce }, { hidingNonce, bindingNonce })

def encodeUint16 (val : UInt16) : Bytes := toBytesBE 2 val.toNat

def encodeGroupCommitmentList (commitmentList : List (PublicCommitment G)) : Bytes :=
  commitmentList.flatMap fun c =>
    encodeUint16 c.id ++ C.toBytes c.hidingNonceCommitment ++ C.toBytes c.bindingNonceCommitment

/-- `commitment_list.sort()`: by id, and stable. -/
def sortCommitments (commitmentList : List (PublicCommitment G)) : List (PublicCommitment G) :=
  commitmentList.insertionSort fun a b => a.id ≤ b.id

/-- The binding factors, with the list as the function leaves it. -/
def computeBindingFactors (pubkey : FrostPublicKey G) (commitmentList : List (PublicCommitment G))
    (msg : Bytes) : List (PublicCommitment G) × List BindingFactor :=
  let sorted := sortCommitments commitmentList
  let rhoInputPrefix := C.toBytes pubkey.y ++ hash.h4 msg
    ++ hash.h5 (encodeGroupCommitmentList C sorted)
  (sorted, sorted.map fun c => ⟨c.id, hash.h1 (rhoInputPrefix ++ encodeUint16 c.id)⟩)

def bindingFactorForParticipant (bindingFactorList : List BindingFactor) (identifier : UInt16) :
    SchemeOutcome BindingFactor :=
  match bindingFactorList.find? fun b => identifier == b.id with
  | some factor => .ok factor
  | none => .err .idNotFound

def commitmentForParticipant (commitmentList : List (PublicCommitment G)) (identifier : UInt16) :
    SchemeOutcome (PublicCommitment G) :=
  match commitmentList.find? fun c => identifier == c.id with
  | some commitment => .ok commitment
  | none => .err .idNotFound

def computeGroupCommitment (commitmentList : List (PublicCommitment G))
    (bindingFactorList : List BindingFactor) : SchemeOutcome G :=
  commitmentList.foldlM (fun groupCommitment c => do
    let bindingFactor ← bindingFactorForParticipant bindingFactorList c.id
    .ok (groupCommitment * c.hidingNonceCommitment
      * c.bindingNonceCommitment ^ bindingFactor.factor)) 1

def computeChallenge (groupCommitment : G) (pk : FrostPublicKey G) (msg : Bytes) : ℕ :=
  hash.h2 (C.toBytes groupCommitment ++ C.toBytes pk.y ++ msg)

def participantsFromCommitmentList (commitmentList : List (PublicCommitment G)) : List UInt16 :=
  commitmentList.map PublicCommitment.id

def getGroupCommitment (commitmentList : List (PublicCommitment G)) (message : Bytes)
    (key : FrostPrivateKey G) : SchemeOutcome G :=
  let (commitmentList, bindingFactorList) :=
    computeBindingFactors C hash key.pubkey commitmentList message
  computeGroupCommitment commitmentList bindingFactorList

def partialSign (nonce : Nonce) (commitmentList : List (PublicCommitment G)) (message : Bytes)
    (key : FrostPrivateKey G) (nodeId : UInt16) : SchemeOutcome (FrostSignatureShare × G) := do
  let (commitmentList, bindingFactorList) :=
    computeBindingFactors C hash key.pubkey commitmentList message
  let bindingFactor ← bindingFactorForParticipant bindingFactorList nodeId
  let groupCommitment ← computeGroupCommitment commitmentList bindingFactorList
  let participantList := participantsFromCommitmentList commitmentList
  let lambdaI := lagrangeCoeff C.order participantList nodeId.toNat
  let challenge := computeChallenge C hash groupCommitment key.pubkey message
  let share := ((nonce.hidingNonce + mulMod nonce.bindingNonce bindingFactor.factor C.order) % C.order
    + mulMod (mulMod lambdaI key.x C.order) challenge C.order) % C.order
  .ok ({ id := nodeId, data := share }, groupCommitment)

/-- `shares[i]` is out of bounds when there are fewer shares than the threshold. -/
def assemble (groupCommitment : G) (key : FrostPrivateKey G) (shares : List FrostSignatureShare) :
    SchemeOutcome (FrostSignature G) :=
  if shares.length < key.pubkey.k.toNat then .panic
  else
    .ok { R := groupCommitment
          z := (shares.take key.pubkey.k.toNat).foldl (fun z share => (z + share.data) % C.order) 0 }

section Verify

variable [DecidableEq G]

def verifyShare (share : FrostSignatureShare) (pubkey : FrostPublicKey G) (message : Bytes)
    (commitmentList : List (PublicCommitment G)) : SchemeOutcome Bool := do
  let shareCommitment ← commitmentForParticipant commitmentList share.id
  let (commitmentList, bindingFactorList) :=
    computeBindingFactors C hash pubkey commitmentList message
  let bindingFactor ← bindingFactorForParticipant bindingFactorList share.id
  let groupCommitment ← computeGroupCommitment commitmentList bindingFactorList
  let rcommitmentI := shareCommitment.hidingNonceCommitment
    * shareCommitment.bindingNonceCommitment ^ bindingFactor.factor
  let challenge := computeChallenge C hash groupCommitment pubkey message
  let participantList := participantsFromCommitmentList commitmentList
  let lambdaI := lagrangeCoeff C.order participantList share.id.toNat
  let l := C.newPowBig share.data
  let vk ← verificationKeyAt pubkey.h share.id
  let r := rcommitmentI * vk ^ mulMod lambdaI challenge C.order
  .ok (l == r)

def verify (signature : FrostSignature G) (pk : FrostPublicKey G) (msg : Bytes) : Bool :=
  let challenge := computeChallenge C hash signature.R pk msg
  let l := C.newPowBig signature.z
  let r := signature.R * pk.y ^ challenge
  l == r

end Verify

/-! ### Binding factors and the group commitment -/

/-- The binding factor of an id, given the commitment list in any order. -/
def bindingFactor (pubkey : FrostPublicKey G) (commitmentList : List (PublicCommitment G))
    (msg : Bytes) (id : UInt16) : ℕ :=
  hash.h1 (C.toBytes pubkey.y ++ hash.h4 msg
    ++ hash.h5 (encodeGroupCommitmentList C (sortCommitments commitmentList)) ++ encodeUint16 id)

/-- The part of the group commitment that belongs to one entry. -/
def commitmentShare (factor : UInt16 → ℕ) (c : PublicCommitment G) : G :=
  c.hidingNonceCommitment * c.bindingNonceCommitment ^ factor c.id

/-- The group commitment as a product. -/
def groupCommitment (pubkey : FrostPublicKey G) (commitmentList : List (PublicCommitment G))
    (msg : Bytes) : G :=
  ((sortCommitments commitmentList).map
    (commitmentShare (bindingFactor C hash pubkey commitmentList msg))).prod

/-- The challenge of a commitment list. -/
def challenge (pubkey : FrostPublicKey G) (commitmentList : List (PublicCommitment G))
    (msg : Bytes) : ℕ :=
  computeChallenge C hash (groupCommitment C hash pubkey commitmentList msg) pubkey msg

/-- The coefficient of a signer. -/
def lambda (commitmentList : List (PublicCommitment G)) (id : UInt16) : ℕ :=
  lagrangeCoeff C.order (participantsFromCommitmentList (sortCommitments commitmentList)) id.toNat

variable {C hash}
variable {pubkey : FrostPublicKey G} {commitmentList : List (PublicCommitment G)} {msg : Bytes}

omit [CommGroup G] in
theorem sortCommitments_perm (commitmentList : List (PublicCommitment G)) :
    (sortCommitments commitmentList).Perm commitmentList :=
  List.perm_insertionSort _ _

instance : Std.Total fun a b : PublicCommitment G => a.id ≤ b.id :=
  ⟨fun a b => UInt16.le_total a.id b.id⟩

instance : IsTrans (PublicCommitment G) fun a b => a.id ≤ b.id :=
  ⟨fun _ _ _ hab hbc => UInt16.le_trans hab hbc⟩

omit [CommGroup G] in
/-- When the ids differ, sorting forgets the order in which the map was read. -/
theorem sortCommitments_eq_of_perm {xs ys : List (PublicCommitment G)} (hperm : xs.Perm ys)
    (hnodup : (xs.map PublicCommitment.id).Nodup) : sortCommitments xs = sortCommitments ys := by
  have hinj : ∀ a ∈ xs, ∀ b ∈ xs, a.id = b.id → a = b := fun a ha b hb h =>
    List.inj_on_of_nodup_map hnodup ha hb h
  refine List.Perm.eq_of_pairwise ?_ (List.pairwise_insertionSort _ _)
    (List.pairwise_insertionSort _ _)
    (((sortCommitments_perm xs).trans hperm).trans (sortCommitments_perm ys).symm)
  intro a b ha hb hab hba
  refine hinj a ((sortCommitments_perm xs).mem_iff.mp ha) b ?_ (UInt16.le_antisymm hab hba)
  exact hperm.mem_iff.mpr ((sortCommitments_perm ys).mem_iff.mp hb)

/-- The ids of the binding factors and of the Lagrange coefficients are those of the commitments. -/
theorem participants_computeBindingFactors (C : EcGroup G) (hash : FrostHashes)
    (pubkey : FrostPublicKey G) (cs : List (PublicCommitment G)) (msg : Bytes) :
    (computeBindingFactors C hash pubkey cs msg).2.map BindingFactor.id
        = participantsFromCommitmentList (computeBindingFactors C hash pubkey cs msg).1
      ∧ (participantsFromCommitmentList (computeBindingFactors C hash pubkey cs msg).1).Perm
        (cs.map PublicCommitment.id) := by
  constructor
  · rw [computeBindingFactors, List.map_map]
    rfl
  · exact (sortCommitments_perm cs).map _

/-- A share has the id of the node that signs. -/
theorem id_of_partialSign {nonce : Nonce} {key : FrostPrivateKey G} {id : UInt16}
    {share : FrostSignatureShare} {R : G}
    (h : partialSign C hash nonce commitmentList msg key id = .ok (share, R)) : share.id = id := by
  obtain ⟨_, -, hsign⟩ := Outcome.bind_eq_ok.mp h
  obtain ⟨_, -, hsign⟩ := Outcome.bind_eq_ok.mp hsign
  obtain ⟨rfl, -⟩ := Prod.mk.inj (Outcome.ok.inj hsign)
  rfl

/-- The order of the list does not matter to a signer, nor to the group commitment. -/
theorem partialSign_eq_of_sort {xs ys : List (PublicCommitment G)}
    (h : sortCommitments xs = sortCommitments ys) (nonce : Nonce) (msg : Bytes)
    (key : FrostPrivateKey G) (id : UInt16) :
    partialSign C hash nonce xs msg key id = partialSign C hash nonce ys msg key id := by
  rw [partialSign, partialSign, computeBindingFactors, computeBindingFactors, h]

theorem groupCommitment_eq_of_sort {xs ys : List (PublicCommitment G)}
    (h : sortCommitments xs = sortCommitments ys) (pubkey : FrostPublicKey G) (msg : Bytes) :
    groupCommitment C hash pubkey xs msg = groupCommitment C hash pubkey ys msg := by
  have hfactor : bindingFactor C hash pubkey xs msg = bindingFactor C hash pubkey ys msg := by
    funext id
    rw [bindingFactor, bindingFactor, h]
  rw [groupCommitment, groupCommitment, h, hfactor]

omit [CommGroup G] in
theorem bindingFactorForParticipant_map (factor : UInt16 → ℕ) (cs : List (PublicCommitment G))
    (id : UInt16) :
    bindingFactorForParticipant (cs.map fun c => (⟨c.id, factor c.id⟩ : BindingFactor)) id
      = if id ∈ cs.map PublicCommitment.id then .ok ⟨id, factor id⟩ else .err .idNotFound := by
  induction cs with
  | nil => rfl
  | cons c cs ih =>
      by_cases hid : id = c.id
      · subst hid
        simp [bindingFactorForParticipant]
      · have hne : (id == c.id) = false := by simpa using hid
        simp only [bindingFactorForParticipant, List.map_cons, List.find?_cons, hne,
          List.mem_cons, hid, false_or] at ih ⊢
        exact ih

theorem foldlM_commitmentShare (factor : UInt16 → ℕ) (all cs : List (PublicCommitment G))
    (hcs : ∀ c ∈ cs, c ∈ all) (acc : G) :
    cs.foldlM (fun (groupCommitment : G) (c : PublicCommitment G) => do
      let b ← bindingFactorForParticipant
        (all.map fun c : PublicCommitment G => (⟨c.id, factor c.id⟩ : BindingFactor)) c.id
      (.ok (groupCommitment * c.hidingNonceCommitment * c.bindingNonceCommitment ^ b.factor)
        : SchemeOutcome G)) acc
      = .ok (acc * (cs.map (commitmentShare factor)).prod) := by
  induction cs generalizing acc with
  | nil => simp
  | cons c cs ih =>
      have hmem : c.id ∈ all.map PublicCommitment.id :=
        List.mem_map_of_mem (hcs c List.mem_cons_self)
      rw [List.foldlM_cons, bindingFactorForParticipant_map, if_pos hmem, Outcome.ok_bind,
        Outcome.ok_bind, ih fun c hc => hcs c (List.mem_cons_of_mem _ hc), List.map_cons,
        List.prod_cons, commitmentShare, mul_assoc, mul_assoc, mul_assoc]

theorem computeGroupCommitment_eq :
    computeGroupCommitment (computeBindingFactors C hash pubkey commitmentList msg).1
        (computeBindingFactors C hash pubkey commitmentList msg).2
      = .ok (groupCommitment C hash pubkey commitmentList msg) := by
  refine (foldlM_commitmentShare (bindingFactor C hash pubkey commitmentList msg)
    (sortCommitments commitmentList) (sortCommitments commitmentList) (fun _ h => h) 1).trans ?_
  rw [one_mul]
  rfl

/-- The group commitment of a list is always defined. -/
theorem getGroupCommitment_eq (key : FrostPrivateKey G) :
    getGroupCommitment C hash commitmentList msg key
      = .ok (groupCommitment C hash key.pubkey commitmentList msg) :=
  computeGroupCommitment_eq

theorem bindingFactorForParticipant_eq {id : UInt16}
    (hid : id ∈ commitmentList.map PublicCommitment.id) :
    bindingFactorForParticipant (computeBindingFactors C hash pubkey commitmentList msg).2 id
      = .ok ⟨id, bindingFactor C hash pubkey commitmentList msg id⟩ := by
  have hsorted : id ∈ (sortCommitments commitmentList).map PublicCommitment.id :=
    ((sortCommitments_perm commitmentList).map _).mem_iff.mpr hid
  refine (bindingFactorForParticipant_map (bindingFactor C hash pubkey commitmentList msg) _ id).trans ?_
  rw [if_pos hsorted]

/-- What `partial_sign` returns. -/
theorem partialSign_eq {key : FrostPrivateKey G} {nonce : Nonce} {id : UInt16}
    (hid : id ∈ commitmentList.map PublicCommitment.id) :
    partialSign C hash nonce commitmentList msg key id
      = .ok (⟨id, ((nonce.hidingNonce + mulMod nonce.bindingNonce
            (bindingFactor C hash key.pubkey commitmentList msg id) C.order) % C.order
          + mulMod (mulMod (lambda C commitmentList id) key.x C.order)
            (challenge C hash key.pubkey commitmentList msg) C.order) % C.order⟩,
        groupCommitment C hash key.pubkey commitmentList msg) := by
  rw [partialSign]
  change (bindingFactorForParticipant (computeBindingFactors C hash key.pubkey commitmentList msg).2 id
    >>= fun b => computeGroupCommitment (computeBindingFactors C hash key.pubkey commitmentList msg).1
      (computeBindingFactors C hash key.pubkey commitmentList msg).2 >>= _) = _
  rw [bindingFactorForParticipant_eq hid, Outcome.ok_bind, computeGroupCommitment_eq, Outcome.ok_bind]
  rfl

omit [CommGroup G] in
theorem mem_ids_of_commitmentForParticipant {id : UInt16} {c : PublicCommitment G}
    (h : commitmentForParticipant commitmentList id = .ok c) : c ∈ commitmentList ∧ c.id = id := by
  unfold commitmentForParticipant at h
  split at h
  · rename_i found hfound
    obtain rfl := Outcome.ok.inj h
    have hid := List.find?_some hfound
    exact ⟨List.mem_of_find?_eq_some hfound, (beq_iff_eq.mp hid).symm⟩
  · simp at h

omit [CommGroup G] in
/-- A commitment with this id is in the list, or the lookup fails. -/
theorem commitmentForParticipant_cases (commitmentList : List (PublicCommitment G)) (id : UInt16) :
    (∃ c ∈ commitmentList, c.id = id ∧ commitmentForParticipant commitmentList id = .ok c)
      ∨ id ∉ commitmentList.map PublicCommitment.id
        ∧ commitmentForParticipant commitmentList id = .err .idNotFound := by
  unfold commitmentForParticipant
  cases hfind : commitmentList.find? fun c => id == c.id with
  | some c =>
      have hid := List.find?_some hfind
      exact .inl ⟨c, List.mem_of_find?_eq_some hfind, (beq_iff_eq.mp hid).symm, rfl⟩
  | none =>
      refine .inr ⟨?_, rfl⟩
      intro hmem
      obtain ⟨c, hc, rfl⟩ := List.mem_map.mp hmem
      simpa using List.find?_eq_none.mp hfind c hc

omit [CommGroup G] in
/-- When the ids differ, every entry is found under its id. -/
theorem commitmentForParticipant_of_mem (hnodup : (commitmentList.map PublicCommitment.id).Nodup)
    {c : PublicCommitment G} (hc : c ∈ commitmentList) :
    commitmentForParticipant commitmentList c.id = .ok c := by
  rcases commitmentForParticipant_cases commitmentList c.id with
    ⟨d, hd, hid, hfound⟩ | ⟨hnot, -⟩
  · rw [hfound, List.inj_on_of_nodup_map hnodup hd hc hid]
  · exact absurd (List.mem_map_of_mem hc) hnot

section Verify

variable [DecidableEq G]

/-- What `verify_share` checks once it has found the commitment of the signer. -/
theorem verifyShare_eq {share : FrostSignatureShare} {c : PublicCommitment G}
    (hc : commitmentForParticipant commitmentList share.id = .ok c) :
    verifyShare C hash share pubkey msg commitmentList
      = verificationKeyAt pubkey.h share.id >>= fun vk =>
        .ok (C.generator ^ share.data == c.hidingNonceCommitment * c.bindingNonceCommitment
            ^ bindingFactor C hash pubkey commitmentList msg share.id
          * vk ^ mulMod (lambda C commitmentList share.id)
            (challenge C hash pubkey commitmentList msg) C.order) := by
  have hid : share.id ∈ commitmentList.map PublicCommitment.id := by
    obtain ⟨hmem, hcid⟩ := mem_ids_of_commitmentForParticipant hc
    exact hcid ▸ List.mem_map_of_mem hmem
  rw [verifyShare, hc, Outcome.ok_bind]
  change (bindingFactorForParticipant (computeBindingFactors C hash pubkey commitmentList msg).2
      share.id >>= fun b =>
    computeGroupCommitment (computeBindingFactors C hash pubkey commitmentList msg).1
      (computeBindingFactors C hash pubkey commitmentList msg).2 >>= _) = _
  rw [bindingFactorForParticipant_eq hid, Outcome.ok_bind, computeGroupCommitment_eq, Outcome.ok_bind]
  rfl

/-- An accepted share is the response of its signer to the challenge. -/
theorem verifyShare_eq_ok_true {share : FrostSignatureShare}
    (h : verifyShare C hash share pubkey msg commitmentList = .ok true) :
    ∃ c vk, commitmentForParticipant commitmentList share.id = .ok c
      ∧ verificationKeyAt pubkey.h share.id = .ok vk
      ∧ C.generator ^ share.data
        = commitmentShare (bindingFactor C hash pubkey commitmentList msg) c
          * vk ^ mulMod (lambda C commitmentList share.id)
            (challenge C hash pubkey commitmentList msg) C.order := by
  obtain ⟨c, hc, -⟩ := Outcome.bind_eq_ok.mp h
  have hcid := (mem_ids_of_commitmentForParticipant hc).2
  rw [verifyShare_eq hc] at h
  obtain ⟨vk, hvk, heq⟩ := Outcome.bind_eq_ok.mp h
  refine ⟨c, vk, hc, hvk, ?_⟩
  rw [commitmentShare, hcid]
  exact beq_iff_eq.mp (Outcome.ok.inj heq)

end Verify

/-! ### The keys of the parties -/

/-- The public key of a dealing. -/
def publicKey (E : Primitives) (C : EcGroup G) (k n : ℕ) (rng : ℕ → ℕ) : FrostPublicKey G :=
  FrostPublicKey.new E C n k (C.generator ^ dealtSecret C.order rng)
    ((dealtShares C.order (dealtSecret C.order rng) k n fun i => rng (i + 1)).map
      fun xi => C.generator ^ xi)

section Keys

variable {E : Primitives} {k n : ℕ} {rng : ℕ → ℕ}

theorem generateKeys_eq_ok {keys : List (FrostPrivateKey G)} :
    generateKeys E C k n rng = .ok keys ↔ 1 ≤ k ∧ k ≤ n ∧
      keys = numberShares (dealtShares C.order (dealtSecret C.order rng) k n fun i => rng (i + 1))
        fun id x => { id, x, pubkey := publicKey E C k n rng } := by
  refine (deal_eq_ok C _ k n _).trans ?_
  refine and_congr_right fun _ => and_congr_right fun _ => ?_
  rw [Outcome.ok.injEq, eq_comm]
  rfl

theorem pubkey_of_mem {keys : List (FrostPrivateKey G)}
    (hkeys : generateKeys E C k n rng = .ok keys) {key : FrostPrivateKey G} (hkey : key ∈ keys) :
    key.pubkey = publicKey E C k n rng := by
  obtain ⟨-, -, rfl⟩ := generateKeys_eq_ok.mp hkeys
  obtain ⟨i, -, rfl⟩ := (mem_numberShares _ _ _ _ _).mp hkey
  rfl

/-- With at most `u16::MAX` parties every key has the id and the share of one party. -/
theorem exists_party_of_mem (hn : n ≤ 65535) {keys : List (FrostPrivateKey G)}
    (hkeys : generateKeys E C k n rng = .ok keys) {key : FrostPrivateKey G} (hkey : key ∈ keys) :
    1 ≤ key.id.toNat ∧ key.id.toNat ≤ n ∧ key.x = dealtShare C.order k rng key.id := by
  obtain ⟨-, -, rfl⟩ := generateKeys_eq_ok.mp hkeys
  obtain ⟨id, hpos, hle, rfl⟩ := exists_id_of_mem_numberShares _ _ _ _ _ hn hkey
  exact ⟨hpos, hle, rfl⟩

/-- Every party has a key. -/
theorem exists_mem_of_party {keys : List (FrostPrivateKey G)}
    (hkeys : generateKeys E C k n rng = .ok keys) {id : UInt16} (hpos : 1 ≤ id.toNat)
    (hle : id.toNat ≤ n) : ∃ key ∈ keys, key.id = id := by
  obtain ⟨-, -, rfl⟩ := generateKeys_eq_ok.mp hkeys
  exact ⟨_, List.mem_of_getElem? (getElem?_numberShares _ _ _ _ _ hpos hle), rfl⟩

theorem verificationKeyAt_publicKey {id : UInt16} (hpos : 1 ≤ id.toNat) (hle : id.toNat ≤ n) :
    verificationKeyAt (publicKey E C k n rng).h id
      = .ok (C.generator ^ dealtShare C.order k rng id) :=
  verificationKeyAt_dealtShares C _ _ _ _ hpos hle

theorem of_verificationKeyAt_publicKey {id : UInt16} {vk : G}
    (h : verificationKeyAt (publicKey E C k n rng).h id = .ok vk) :
    1 ≤ id.toNat ∧ id.toNat ≤ n ∧ vk = C.generator ^ dealtShare C.order k rng id := by
  have hid := toNat_of_verificationKeyAt h
  have hlength : (publicKey E C k n rng).h.length = n := by
    simp [publicKey, FrostPublicKey.new]
  rw [hlength] at hid
  refine ⟨hid.1, hid.2, ?_⟩
  rw [verificationKeyAt_publicKey hid.1 hid.2] at h
  exact (Outcome.ok.inj h).symm

/-! ### The algebra of the scheme -/

/-- The exponents of the assembled signature add up. -/
theorem pow_sum_data (shares : List FrostSignatureShare) (z : ℕ) :
    C.generator ^ shares.foldl (fun z share => (z + share.data) % C.order) z
      = C.generator ^ z * (shares.map fun s => C.generator ^ s.data).prod := by
  induction shares generalizing z with
  | nil => simp
  | cons s shares ih =>
      rw [List.foldl_cons, ih, C.pow_mod, pow_add, List.map_cons, List.prod_cons, mul_assoc]

/-- The order in which the shares are added does not matter. -/
theorem foldl_data_eq_of_perm {xs ys : List FrostSignatureShare} (hperm : xs.Perm ys) (z : ℕ) :
    xs.foldl (fun z share => (z + share.data) % C.order) z
      = ys.foldl (fun z share => (z + share.data) % C.order) z := by
  refine hperm.foldl_eq' ?_ z
  intro a _ b _ z
  rw [Nat.mod_add_mod, Nat.mod_add_mod, add_right_comm]

/-- The right side of the equation of a share, as a function of the entry of the list. -/
def responseOf (C : EcGroup G) (hash : FrostHashes) (pubkey : FrostPublicKey G)
    (commitmentList : List (PublicCommitment G)) (msg : Bytes) (exponent : UInt16 → ℕ)
    (c : PublicCommitment G) : G :=
  commitmentShare (bindingFactor C hash pubkey commitmentList msg) c
    * (C.generator ^ exponent c.id) ^ mulMod (lambda C commitmentList c.id)
      (challenge C hash pubkey commitmentList msg) C.order

/-- The same function of the id of the signer, whose entry is looked up in the list. -/
def responseAt (C : EcGroup G) (hash : FrostHashes) (pubkey : FrostPublicKey G)
    (commitmentList : List (PublicCommitment G)) (msg : Bytes) (exponent : UInt16 → ℕ)
    (id : UInt16) : G :=
  match commitmentForParticipant commitmentList id with
  | .ok c => responseOf C hash pubkey commitmentList msg exponent c
  | _ => 1

theorem responseAt_of_ok {exponent : UInt16 → ℕ} {id : UInt16} {c : PublicCommitment G}
    (hc : commitmentForParticipant commitmentList id = .ok c) :
    responseAt C hash pubkey commitmentList msg exponent id
      = responseOf C hash pubkey commitmentList msg exponent c := by
  simp only [responseAt, hc]

/-- The right sides of all entries multiply up to the equation of the signature. -/
theorem prod_responseOf (hk : 1 ≤ k) (hn : n < C.order)
    (hnodup : (commitmentList.map PublicCommitment.id).Nodup) (hlength : k ≤ commitmentList.length)
    (hids : ∀ c ∈ commitmentList, c.id.toNat ≤ n) :
    ((sortCommitments commitmentList).map
      (responseOf C hash pubkey commitmentList msg (dealtShare C.order k rng))).prod
      = groupCommitment C hash pubkey commitmentList msg
        * (C.generator ^ dealtSecret C.order rng) ^ challenge C hash pubkey commitmentList msg := by
  have hperm := sortCommitments_perm commitmentList
  have hids' : ∀ id ∈ participantsFromCommitmentList (sortCommitments commitmentList),
      id.toNat ≤ n := by
    intro id hid
    obtain ⟨c, hc, rfl⟩ := List.mem_map.mp hid
    exact hids c (hperm.mem_iff.mp hc)
  have hlength' : k ≤ (participantsFromCommitmentList (sortCommitments commitmentList)).length := by
    rwa [participantsFromCommitmentList, List.length_map, hperm.length_eq]
  have hsecret := prod_pow_dealtShare C C.generator hk hn rng hlength'
    ((hperm.map _).nodup_iff.mpr hnodup) hids'
  rw [← hsecret]
  unfold responseOf
  rw [List.prod_map_mul, groupCommitment, ← powMonoidHom_apply, map_list_prod]
  congr 2
  rw [participantsFromCommitmentList, List.map_map, List.map_map]
  refine List.map_congr_left fun c _ => ?_
  rw [mulMod, C.pow_mod, pow_mul]
  rfl

section Accept

variable [DecidableEq G]

/-- The share a signer computes is accepted, when its entry of the list is what it committed to. -/
theorem verifyShare_partialSign {key : FrostPrivateKey G} {nonce : Nonce} {c : PublicCommitment G}
    (hpubkey : key.pubkey = publicKey E C k n rng) (hpos : 1 ≤ key.id.toNat)
    (hle : key.id.toNat ≤ n) (hx : key.x = dealtShare C.order k rng key.id)
    (hc : commitmentForParticipant commitmentList key.id = .ok c)
    (hhiding : c.hidingNonceCommitment = C.generator ^ nonce.hidingNonce)
    (hbinding : c.bindingNonceCommitment = C.generator ^ nonce.bindingNonce)
    {share : FrostSignatureShare} {R : G}
    (hsign : partialSign C hash nonce commitmentList msg key key.id = .ok (share, R)) :
    verifyShare C hash share key.pubkey msg commitmentList = .ok true := by
  have hmem : key.id ∈ commitmentList.map PublicCommitment.id := by
    obtain ⟨hmem, hcid⟩ := mem_ids_of_commitmentForParticipant hc
    exact hcid ▸ List.mem_map_of_mem hmem
  rw [partialSign_eq hmem, Outcome.ok.injEq, Prod.mk.injEq] at hsign
  obtain ⟨rfl, -⟩ := hsign
  rw [verifyShare_eq hc, hpubkey, verificationKeyAt_publicKey hpos hle, Outcome.ok_bind, hhiding,
    hbinding, ← pow_mul, ← pow_mul, ← pow_add, ← pow_add, Outcome.ok.injEq, beq_iff_eq]
  refine C.pow_congr C.generator ?_
  rw [hx]
  simp only [ZMod.natCast_mod, Nat.cast_add, Nat.cast_mul, cast_mulMod]
  ring

/-- Shares that are accepted against the whole list, one for each entry, assemble to a signature
that is accepted. -/
theorem verify_of_verifyShare (hk : 1 ≤ k) (hn : n < C.order) {key : FrostPrivateKey G}
    (hpubkey : key.pubkey = publicKey E C k n rng) {shares : List FrostSignatureShare}
    (hnodup : (commitmentList.map PublicCommitment.id).Nodup)
    (hperm : (shares.map FrostSignatureShare.id).Perm (commitmentList.map PublicCommitment.id))
    (hthreshold : shares.length = key.pubkey.k.toNat) (hlength : k ≤ shares.length)
    (haccept : ∀ s ∈ shares, verifyShare C hash s key.pubkey msg commitmentList = .ok true) :
    ∃ sig, assemble C (groupCommitment C hash key.pubkey commitmentList msg) key shares = .ok sig
      ∧ verify C hash sig key.pubkey msg = true := by
  -- both sides of the equations, indexed by the id of the signer
  let response := responseAt C hash key.pubkey commitmentList msg (dealtShare C.order k rng)
  have hshare : ∀ s ∈ shares, 1 ≤ s.id.toNat ∧ s.id.toNat ≤ n
      ∧ C.generator ^ s.data = response s.id := by
    intro s hs
    obtain ⟨c, vk, hc, hvk, heq⟩ := verifyShare_eq_ok_true (haccept s hs)
    rw [hpubkey] at hvk
    obtain ⟨hpos, hle, rfl⟩ := of_verificationKeyAt_publicKey hvk
    refine ⟨hpos, hle, ?_⟩
    simp only [response, responseAt_of_ok hc, responseOf, (mem_ids_of_commitmentForParticipant hc).2]
    exact heq
  have hentry : ∀ c ∈ sortCommitments commitmentList,
      responseOf C hash key.pubkey commitmentList msg (dealtShare C.order k rng) c
        = response c.id := by
    intro c hc
    have hmem := (sortCommitments_perm commitmentList).mem_iff.mp hc
    exact (responseAt_of_ok (commitmentForParticipant_of_mem hnodup hmem)).symm
  have hids : ∀ c ∈ commitmentList, c.id.toNat ≤ n := by
    intro c hc
    obtain ⟨s, hs, hid⟩ := List.mem_map.mp (hperm.mem_iff.mpr (List.mem_map_of_mem hc))
    exact hid ▸ (hshare s hs).2.1
  have hlist : commitmentList.length = shares.length := by
    simpa using hperm.length_eq.symm
  have hproduct : (shares.map fun s => C.generator ^ s.data).prod
      = ((sortCommitments commitmentList).map
        (responseOf C hash key.pubkey commitmentList msg (dealtShare C.order k rng))).prod := by
    rw [List.map_congr_left fun s hs => (hshare s hs).2.2, List.map_congr_left hentry]
    have hall := hperm.trans ((sortCommitments_perm commitmentList).symm.map PublicCommitment.id)
    have hmapped := (hall.map response).prod_eq
    rwa [List.map_map, List.map_map] at hmapped
  refine ⟨_, by rw [assemble, if_neg (by omega)], ?_⟩
  rw [verify, beq_iff_eq, ← hthreshold, List.take_length]
  change C.generator ^ _ = _
  rw [pow_sum_data, pow_zero, one_mul, hproduct, prod_responseOf hk hn hnodup (by omega) hids,
    hpubkey]
  rfl

end Accept

end Keys

end Frost

end

end QuorumCrypt
