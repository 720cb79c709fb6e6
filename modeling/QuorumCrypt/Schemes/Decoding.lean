import QuorumCrypt.Schemes.Serialization

/-!
# When the decoders return

The bytes come from clients and from other nodes, and the decoders do not return on all of them: they
hand points and scalars of any length to `mcore`, which indexes them, they dispatch on a group that
need not be a curve, and an RSA key names the length of its modulus. A malformed sequence is refused
before or after that, but not at these places.

Every type has a layout: its elements in order, with what must hold of them. A decoder returns exactly
on the bytes that fit the layout, and what fits is said of the elements alone.
-/

namespace QuorumCrypt

open Rust

variable {E : Primitives} {K : Curves} {α ρ σ : Type}

abbrev Asn1Layout (ρ : Type) := Layout Asn1Element ρ

namespace Asn1Reader

/-- The elements of the sequence fit the layout. Bytes that are no sequence are refused. -/
def Fits (R : Asn1Reader E) (layout : Asn1Layout ρ) (bytes : Bytes) : Prop :=
  ∀ contents, R.read bytes = some contents → layout.Fits contents.elements

/-- The bytes are a sequence of the elements of the layout, and nothing else. -/
def Reads (R : Asn1Reader E) (layout : Asn1Layout ρ) (bytes : Bytes) (r : ρ) : Prop :=
  ∃ contents, R.read bytes = some contents ∧ contents.complete = true
    ∧ layout.Reads contents.elements r []

theorem decides_parse (R : Asn1Reader E) {p : Asn1Parser α} {view : α → ρ} {layout : Asn1Layout ρ}
    (h : p.Follows view layout) (bytes : Bytes) :
    (R.parse bytes p).Decides view (R.Fits layout bytes) (R.Reads layout bytes) := by
  unfold Asn1Reader.parse
  cases hread : R.read bytes with
  | none =>
      constructor
      · simp [Fits, hread]
      · intro r
        simp [Reads, hread]
  | some contents =>
      have hp := h contents.elements
      have hbytes : R.Fits layout bytes ↔ layout.Fits contents.elements := by simp [Fits, hread]
      have hReads : ∀ r, R.Reads layout bytes r
          ↔ contents.complete = true ∧ layout.Reads contents.elements r [] := by
        intro r
        simp [Reads, hread]
      rw [← hbytes] at hp
      cases hrun : p.run contents.elements with
      | panic =>
          have hfits : ¬ R.Fits layout bytes := by
            rw [← hp.returns_iff, hrun]
            exact Outcome.not_returns_panic
          constructor
          · simp [hrun, hfits]
          · intro r
            simp [hrun, hfits]
      | err e =>
          have hfits : R.Fits layout bytes := by
            rw [← hp.returns_iff, hrun]
            exact Outcome.returns_err e
          have hreads : ∀ r, ¬ layout.Reads contents.elements r [] := by
            intro r hr
            obtain ⟨a, ha, -⟩ := (hp.ok_iff (r, [])).mpr ⟨hfits, hr⟩
            exact absurd (hrun.symm.trans ha) (by simp)
          constructor
          · simp [hrun, hfits]
          · intro r
            simp [hrun, hReads, hreads]
      | ok result =>
          obtain ⟨a, remaining⟩ := result
          have hfits : R.Fits layout bytes := by
            rw [← hp.returns_iff, hrun]
            exact Outcome.returns_ok _
          have hreads : ∀ r, layout.Reads contents.elements r [] ↔ view a = r ∧ remaining = [] := by
            intro r
            have hr := hp.ok_iff (r, [])
            rw [hrun] at hr
            simpa [hfits] using hr.symm
          by_cases hall : remaining = [] ∧ contents.complete = true
          · constructor
            · simp [hrun, hfits, hall]
            · intro r
              simp [hrun, hfits, hReads, hreads, hall]
          · constructor
            · simp [hrun, hfits, hall]
            · intro r
              simp only [hrun, Outcome.ok_bind, if_neg hall, hReads, hreads]
              constructor
              · intro hok
                obtain ⟨_, hok, _⟩ := hok
                cases hok
              · intro hok
                obtain ⟨-, hcomplete, -, hnil⟩ := hok
                exact absurd ⟨hnil, hcomplete⟩ hall

end Asn1Reader

/-! ### Places -/

section Places

variable {view : α → ρ}

def octetsPlace (rest : Bytes → Asn1Layout ρ) : Asn1Layout ρ := .next Asn1Element.asOctets rest

/-- A number of 64 bits, cut to 16. -/
def u16Place (rest : UInt16 → Asn1Layout ρ) : Asn1Layout ρ :=
  .next (Asn1Element.asUnsigned 64) fun value => rest (UInt16.ofNat value)

def groupPlace (rest : Group → Asn1Layout ρ) : Asn1Layout ρ :=
  .next Asn1Element.asSigned32 fun g => .given (fun group => Group.fromI32 g = some group) rest

/-- Here the group must be a curve. -/
def curveOf (group : Group) (rest : Curve → Asn1Layout ρ) : Asn1Layout ρ :=
  .require (group.isDl = true) (.given (fun c => group.curve = some c) rest)

/-- A value inside the bytes of an element. -/
def nested (R : Asn1Reader E) (layout : Asn1Layout σ) (bytes : Bytes) (rest : σ → Asn1Layout ρ) :
    Asn1Layout ρ :=
  .require (R.Fits layout bytes) (.given (R.Reads layout bytes) rest)

theorem follows_octets {f : Bytes → Asn1Parser α} {rest : Bytes → Asn1Layout ρ}
    (h : ∀ b, (f b).Follows view (rest b)) : (readOctets >>= f).Follows view (octetsPlace rest) :=
  Reader.follows_next h

theorem follows_u16 {f : UInt16 → Asn1Parser α} {rest : UInt16 → Asn1Layout ρ}
    (h : ∀ n, (f n).Follows view (rest n)) : (readU16 >>= f).Follows view (u16Place rest) := by
  rw [readU16, bind_assoc]
  apply Reader.follows_next
  intro value
  rw [pure_bind]
  exact h (UInt16.ofNat value)

theorem follows_group {f : Group → Asn1Parser α} {rest : Group → Asn1Layout ρ}
    (h : ∀ group, (f group).Follows view (rest group)) :
    (readGroup >>= f).Follows view (groupPlace rest) := by
  rw [readGroup, bind_assoc]
  apply Reader.follows_next
  intro g
  exact Reader.follows_given h

theorem decides_curve (group : Group) :
    (Outcome.unwrap group.curve : SchemeOutcome Curve).Decides id (group.isDl = true)
      fun c => group.curve = some c := by
  constructor
  · cases group <;> simp [Group.curve, Group.isDl]
  · intro c
    cases group <;> simp [Group.curve, Group.isDl]

theorem follows_curve (group : Group) {f : Curve → Asn1Parser α} {rest : Curve → Asn1Layout ρ}
    (h : ∀ c, (f c).Follows view (rest c)) :
    (onCurveOf group >>= f).Follows view (curveOf group rest) :=
  Reader.follows_call (decides_curve group) h

theorem follows_bigInt {f : ℕ → Asn1Parser α} {rest : Asn1Layout ρ}
    (h : ∀ x, (f x).Follows view rest) :
    (readBigInt >>= f).Follows view (octetsPlace fun _ => rest) := by
  rw [readBigInt, bind_assoc]
  apply follows_octets
  intro b
  rw [pure_bind]
  exact h (ofBytesBE b)

theorem follows_point {G : Type} [CommGroup G] {C : EcGroup G} (D : PointDecoder C) (b : Bytes)
    {f : G → Asn1Parser α} {rest : Asn1Layout ρ} (h : ∀ x, (f x).Follows view rest) :
    (Reader.call (D.fromBytes b) >>= f).Follows view (.require (D.InBounds b) rest) := by
  apply Reader.follows_require _ _ h
  · intro hb
    exact ⟨_, if_pos hb⟩
  · intro hb
    exact if_neg hb

theorem follows_scalar (c : Curve) (b : Bytes) {f : ℕ → Asn1Parser α} {rest : Asn1Layout ρ}
    (h : ∀ x, (f x).Follows view rest) :
    (Reader.call (K.scalarFromBytes c b) >>= f).Follows view
      (.require ((K.ecp c).modbytes ≤ b.length) rest) := by
  apply Reader.follows_require _ _ h
  · intro hb
    exact ⟨_, if_pos hb⟩
  · intro hb
    exact if_neg hb

variable (D : Decoders E K)

def pointPlace (c : Curve) (rest : Asn1Layout ρ) : Asn1Layout ρ :=
  octetsPlace fun b => .require ((D.ecp c).InBounds b) rest

variable (K) in
def scalarPlace (c : Curve) (rest : Asn1Layout ρ) : Asn1Layout ρ :=
  octetsPlace fun b => .require ((K.ecp c).modbytes ≤ b.length) rest

theorem follows_readPoint (c : Curve) {f : K.Point c → Asn1Parser α} {rest : Asn1Layout ρ}
    (h : ∀ x, (f x).Follows view rest) :
    (readPoint D c >>= f).Follows view (pointPlace D c rest) := by
  rw [readPoint, bind_assoc]
  apply follows_octets
  intro b
  exact follows_point (D.ecp c) b h

theorem follows_readScalar (c : Curve) {f : ℕ → Asn1Parser α} {rest : Asn1Layout ρ}
    (h : ∀ x, (f x).Follows view rest) :
    (readScalar K c >>= f).Follows view (scalarPlace K c rest) := by
  rw [readScalar, bind_assoc]
  apply follows_octets
  intro b
  exact follows_scalar c b h

end Places

/-! ### Layouts -/

section Layouts

variable (D : Decoders E K)

/-- Bz03, Bls04 and Cks05: a key names its curve, which the private key goes on with. -/
def publicKeyLayout (yFits : Curve → Bytes → Prop) : Asn1Layout Curve :=
  groupPlace fun group => u16Place fun n => u16Place fun _ => octetsPlace fun b =>
    curveOf group fun c => .require (yFits c b) (Layout.times (pointPlace D c) (.done c) n.toNat)

def sg02PublicKeyLayout : Asn1Layout Curve :=
  groupPlace fun group => u16Place fun n => u16Place fun _ => octetsPlace fun b =>
    curveOf group fun c => .require ((D.ecp c).InBounds b)
      (Layout.times (pointPlace D c) (pointPlace D c (.done c)) n.toNat)

def frostPublicKeyLayout : Asn1Layout Curve :=
  .next Asn1Element.asSigned32 fun g => u16Place fun n => u16Place fun _ =>
    .given (fun group => Group.fromI32 g = some group) fun group => octetsPlace fun b =>
      curveOf group fun c => .require ((D.ecp c).InBounds b)
        (Layout.times (pointPlace D c) (.done c) n.toNat)

def sh00VerificationKeyLayout : Asn1Layout Unit :=
  octetsPlace fun _ => u16Place fun len =>
    Layout.times (fun rest => octetsPlace fun _ => rest) (octetsPlace fun _ => .done ()) len.toNat

/-- The lengths of a modulus with a group. -/
def RsaModbits (modbits : ℕ) : Prop :=
  modbits = 512 ∨ modbits = 1024 ∨ modbits = 2048 ∨ modbits = 4096

def sh00PublicKeyLayout (R : Asn1Reader E) : Asn1Layout Unit :=
  u16Place fun _ => u16Place fun _ => octetsPlace fun _ => octetsPlace fun _ => octetsPlace fun vk =>
    nested R sh00VerificationKeyLayout vk fun _ => octetsPlace fun _ =>
      .next (Asn1Element.asUnsigned 64) fun modbits => .require (RsaModbits modbits) (.done ())

/-- The scalar stands before the key that names its curve. -/
def privateKeyLayout (pubkey : Asn1Layout Curve) : Asn1Layout Unit :=
  u16Place fun _ => octetsPlace fun b => octetsPlace fun pubbytes =>
    nested D.asn1 pubkey pubbytes fun c => .require ((K.ecp c).modbytes ≤ b.length) (.done ())

def sh00PrivateKeyLayout (R : Asn1Reader E) : Asn1Layout Unit :=
  u16Place fun _ => octetsPlace fun _ => octetsPlace fun _ => octetsPlace fun pubbytes =>
    nested R (sh00PublicKeyLayout R) pubbytes fun _ => .done ()

/-- The text at the end of a ciphertext. -/
def keyIdPlace : Asn1Layout Unit :=
  octetsPlace fun b => .given (fun keyId : String => fromUtf8 b = some keyId) fun _ => .done ()

def sg02CiphertextLayout : Asn1Layout Unit :=
  groupPlace fun group => octetsPlace fun _ => octetsPlace fun _ => octetsPlace fun b =>
    curveOf group fun c => .require ((D.ecp c).InBounds b)
      (pointPlace D c (scalarPlace K c (scalarPlace K c (octetsPlace fun _ => keyIdPlace))))

def bz03CiphertextLayout : Asn1Layout Unit :=
  groupPlace fun group => octetsPlace fun _ => octetsPlace fun _ => octetsPlace fun b =>
    curveOf group fun c => .require ((D.ecp2 c).InBounds b)
      (pointPlace D c (octetsPlace fun _ => keyIdPlace))

def sg02DecryptionShareLayout : Asn1Layout Unit :=
  u16Place fun _ => groupPlace fun group => octetsPlace fun _ => octetsPlace fun b =>
    curveOf group fun c => .require ((D.ecp c).InBounds b)
      (scalarPlace K c (scalarPlace K c (.done ())))

/-- The shares of Bz03 and Bls04. -/
def shareLayout : Asn1Layout Unit :=
  u16Place fun _ => groupPlace fun group => octetsPlace fun _ => octetsPlace fun b =>
    curveOf group fun c => .require ((D.ecp2 c).InBounds b) (.done ())

/-- Nothing here can panic. -/
def sh00SignatureShareLayout : Asn1Layout Unit :=
  u16Place fun _ => groupPlace fun _ => octetsPlace fun _ => octetsPlace fun _ => octetsPlace fun _ =>
    octetsPlace fun _ => .done ()

variable (K) in
def frostSignatureShareLayout : Asn1Layout Unit :=
  u16Place fun _ => groupPlace fun group => octetsPlace fun b =>
    curveOf group fun c => .require ((K.ecp c).modbytes ≤ b.length) (.done ())

def bls04SignatureLayout : Asn1Layout Unit :=
  groupPlace fun group => octetsPlace fun b =>
    curveOf group fun c => .require ((D.ecp2 c).InBounds b) (.done ())

def sh00SignatureLayout : Asn1Layout Unit := octetsPlace fun _ => .done ()

def frostSignatureLayout : Asn1Layout Unit :=
  groupPlace fun group => octetsPlace fun b =>
    curveOf group fun c => .require ((D.ecp c).InBounds b) (scalarPlace K c (.done ()))

def cks05CoinShareLayout : Asn1Layout Unit :=
  u16Place fun _ => groupPlace fun group => octetsPlace fun b =>
    curveOf group fun c => .require ((D.ecp c).InBounds b)
      (scalarPlace K c (scalarPlace K c (.done ())))

/-! ### Every decoder follows its layout -/

/-- The call is decided by the layout of its bytes. -/
abbrev Decoded {β : Type} (R : Asn1Reader E) (x : SchemeOutcome β) (view : β → ρ)
    (layout : Asn1Layout ρ) (bytes : Bytes) : Prop :=
  x.Decides view (R.Fits layout bytes) (R.Reads layout bytes)

theorem decoded_publicKey {Y P : Curve → Type} [∀ c, CommGroup (Y c)] {C : ∀ c, EcGroup (Y c)}
    (y : ∀ c, PointDecoder (C c))
    (key : ∀ c, String → UInt16 → UInt16 → Y c → List (K.Point c) → P c) (bytes : Bytes) :
    Decoded D.asn1 (publicKeyFromBytes D (fun c => (y c).fromBytes) key bytes) Sigma.fst
      (publicKeyLayout D fun c => (y c).InBounds) bytes := by
  apply D.asn1.decides_parse
  refine follows_group fun group => follows_u16 fun n => follows_u16 fun k => ?_
  refine follows_octets fun b => follows_curve group fun c => follows_point (y c) b fun _ => ?_
  apply Reader.follows_times (follows_readPoint D c)
  intro verificationKey
  exact Reader.follows_pure rfl

theorem decoded_sg02PublicKey (bytes : Bytes) :
    Decoded D.asn1 (Sg02PublicKey.fromBytes D bytes) Sigma.fst (sg02PublicKeyLayout D) bytes := by
  apply D.asn1.decides_parse
  refine follows_group fun group => follows_u16 fun n => follows_u16 fun k => ?_
  refine follows_octets fun b => follows_curve group fun c => follows_point (D.ecp c) b fun y => ?_
  apply Reader.follows_times (follows_readPoint D c)
  intro verificationKey
  apply follows_readPoint
  intro gBar
  exact Reader.follows_pure rfl

theorem decoded_frostPublicKey (bytes : Bytes) :
    Decoded D.asn1 (FrostPublicKey.fromBytes D bytes) Sigma.fst (frostPublicKeyLayout D) bytes := by
  apply D.asn1.decides_parse
  refine Reader.follows_next fun g => follows_u16 fun n => follows_u16 fun k => ?_
  refine Reader.follows_given fun group => follows_octets fun b => ?_
  refine follows_curve group fun c => follows_point (D.ecp c) b fun y => ?_
  apply Reader.follows_times (follows_readPoint D c)
  intro h
  exact Reader.follows_pure rfl

theorem decoded_sh00VerificationKey (R : Asn1Reader E) (bytes : Bytes) :
    Decoded R (Sh00VerificationKey.fromBytes R bytes) (fun _ => ()) sh00VerificationKeyLayout bytes := by
  apply R.decides_parse
  refine follows_bigInt fun v => follows_u16 fun len => ?_
  apply Reader.follows_times follows_bigInt
  intro vi
  apply follows_bigInt
  intro u
  exact Reader.follows_pure rfl

theorem mb2group_of_rsaModbits {modbits : ℕ} (h : RsaModbits modbits) :
    ∃ group, mb2group modbits = .ok group := by
  obtain rfl | rfl | rfl | rfl := h <;> exact ⟨_, rfl⟩

theorem mb2group_of_not_rsaModbits {modbits : ℕ} (h : ¬ RsaModbits modbits) :
    mb2group modbits = .panic := by
  unfold mb2group
  split <;> first | rfl | exact absurd (by simp [RsaModbits]) h

theorem decoded_sh00PublicKey (R : Asn1Reader E) (bytes : Bytes) :
    Decoded R (Sh00PublicKey.fromBytes R bytes) (fun _ => ()) (sh00PublicKeyLayout R) bytes := by
  apply R.decides_parse
  refine follows_u16 fun n => follows_u16 fun t => follows_bigInt fun N => follows_bigInt fun e => ?_
  refine follows_octets fun vk => Reader.follows_call (decoded_sh00VerificationKey R vk) fun _ => ?_
  refine follows_bigInt fun delta => Reader.follows_next fun modbits => ?_
  apply Reader.follows_require mb2group_of_rsaModbits mb2group_of_not_rsaModbits
  intro group
  exact Reader.follows_pure rfl

theorem decoded_privateKey {P S : Curve → Type} {pubkeyFromBytes : Bytes → SchemeOutcome (Σ c, P c)}
    {pubkey : Asn1Layout Curve}
    (hpub : ∀ bytes, Decoded D.asn1 (pubkeyFromBytes bytes) Sigma.fst pubkey bytes)
    (key : ∀ c, UInt16 → ℕ → P c → S c) (bytes : Bytes) :
    Decoded D.asn1 (privateKeyFromBytes D pubkeyFromBytes key bytes) (fun _ => ())
      (privateKeyLayout D pubkey) bytes := by
  apply D.asn1.decides_parse
  refine follows_u16 fun id => follows_octets fun b => follows_octets fun pubbytes => ?_
  refine Reader.follows_call (hpub pubbytes) fun pubkey => follows_scalar pubkey.1 b fun xi => ?_
  exact Reader.follows_pure rfl

theorem decoded_sh00PrivateKey (R : Asn1Reader E) (bytes : Bytes) :
    Decoded R (Sh00PrivateKey.fromBytes R bytes) (fun _ => ()) (sh00PrivateKeyLayout R) bytes := by
  apply R.decides_parse
  refine follows_u16 fun id => follows_octets fun m => follows_octets fun si => ?_
  refine follows_octets fun pubbytes => Reader.follows_call (decoded_sh00PublicKey R pubbytes) ?_
  intro pubkey
  exact Reader.follows_pure rfl

theorem follows_keyId {f : String → Asn1Parser α}
    (h : ∀ keyId, (f keyId).Follows (fun _ => ()) (.done ())) :
    (readOctets >>= fun b => known (fromUtf8 b) >>= f).Follows (fun _ => ()) keyIdPlace :=
  follows_octets fun _ => Reader.follows_given h

theorem decoded_sg02Ciphertext (bytes : Bytes) :
    Decoded D.asn1 (Sg02Ciphertext.fromBytes D bytes) (fun _ => ()) (sg02CiphertextLayout D) bytes := by
  apply D.asn1.decides_parse
  refine follows_group fun group => follows_octets fun label => follows_octets fun ctxt => ?_
  refine follows_octets fun b => follows_curve group fun c => follows_point (D.ecp c) b fun u => ?_
  refine follows_readPoint D c fun uBar => follows_readScalar c fun e => follows_readScalar c fun f => ?_
  refine follows_octets fun ck => follows_keyId fun keyId => ?_
  exact Reader.follows_pure rfl

theorem decoded_bz03Ciphertext (bytes : Bytes) :
    Decoded D.asn1 (Bz03Ciphertext.fromBytes D bytes) (fun _ => ()) (bz03CiphertextLayout D) bytes := by
  apply D.asn1.decides_parse
  refine follows_group fun group => follows_octets fun label => follows_octets fun ctxt => ?_
  refine follows_octets fun b => follows_curve group fun c => follows_point (D.ecp2 c) b fun u => ?_
  refine follows_readPoint D c fun hr => follows_octets fun ck => follows_keyId fun keyId => ?_
  exact Reader.follows_pure rfl

theorem decoded_sg02DecryptionShare (bytes : Bytes) :
    Decoded D.asn1 (Sg02DecryptionShare.fromBytes D bytes) (fun _ => ())
      (sg02DecryptionShareLayout D) bytes := by
  apply D.asn1.decides_parse
  refine follows_u16 fun id => follows_group fun group => follows_octets fun label => ?_
  refine follows_octets fun b => follows_curve group fun c => follows_point (D.ecp c) b fun data => ?_
  refine follows_readScalar c fun ei => follows_readScalar c fun fi => ?_
  exact Reader.follows_pure rfl

theorem decoded_share {S : Curve → Type} (share : ∀ c, UInt16 → Bytes → K.Point2 c → S c)
    (bytes : Bytes) :
    Decoded D.asn1 (shareFromBytes D share bytes) (fun _ => ()) (shareLayout D) bytes := by
  apply D.asn1.decides_parse
  refine follows_u16 fun id => follows_group fun group => follows_octets fun label => ?_
  refine follows_octets fun b => follows_curve group fun c => follows_point (D.ecp2 c) b fun data => ?_
  exact Reader.follows_pure rfl

theorem decoded_sh00SignatureShare (R : Asn1Reader E) (bytes : Bytes) :
    Decoded R (Sh00SignatureShare.fromBytes R bytes) (fun _ => ()) sh00SignatureShareLayout bytes := by
  apply R.decides_parse
  refine follows_u16 fun id => follows_group fun group => follows_octets fun label => ?_
  refine follows_bigInt fun xi => follows_bigInt fun z => follows_bigInt fun c => ?_
  exact Reader.follows_pure rfl

theorem decoded_frostSignatureShare (bytes : Bytes) :
    Decoded D.asn1 (FrostSignatureShare.fromBytes D bytes) (fun _ => ())
      (frostSignatureShareLayout K) bytes := by
  apply D.asn1.decides_parse
  refine follows_u16 fun id => follows_group fun group => follows_octets fun b => ?_
  refine follows_curve group fun c => follows_scalar c b fun data => ?_
  exact Reader.follows_pure rfl

theorem decoded_bls04Signature (bytes : Bytes) :
    Decoded D.asn1 (Bls04Signature.fromBytes D bytes) (fun _ => ()) (bls04SignatureLayout D) bytes := by
  apply D.asn1.decides_parse
  refine follows_group fun group => follows_octets fun b => ?_
  refine follows_curve group fun c => follows_point (D.ecp2 c) b fun sig => ?_
  exact Reader.follows_pure rfl

theorem decoded_sh00Signature (R : Asn1Reader E) (bytes : Bytes) :
    Decoded R (Sh00Signature.fromBytes R bytes) (fun _ => ()) sh00SignatureLayout bytes := by
  apply R.decides_parse
  apply follows_bigInt
  intro sig
  exact Reader.follows_pure rfl

theorem decoded_frostSignature (bytes : Bytes) :
    Decoded D.asn1 (FrostSignature.fromBytes D bytes) (fun _ => ()) (frostSignatureLayout D) bytes := by
  apply D.asn1.decides_parse
  refine follows_group fun group => follows_octets fun b => follows_curve group fun c => ?_
  refine follows_point (D.ecp c) b fun R => follows_readScalar c fun z => ?_
  exact Reader.follows_pure rfl

theorem decoded_cks05CoinShare (bytes : Bytes) :
    Decoded D.asn1 (Cks05CoinShare.fromBytes D bytes) (fun _ => ()) (cks05CoinShareLayout D) bytes := by
  apply D.asn1.decides_parse
  refine follows_u16 fun id => follows_group fun group => follows_octets fun b => ?_
  refine follows_curve group fun c => follows_point (D.ecp c) b fun data => ?_
  refine follows_readScalar c fun challenge => follows_readScalar c fun z => ?_
  exact Reader.follows_pure rfl

/-! ### The interface -/

/-- What the value of each scheme must fit. A scheme without such a value is refused. -/
abbrev SchemeFits := ThresholdScheme → Bytes → Prop

def PublicKey.fits : SchemeFits
  | .sg02, b => D.asn1.Fits (sg02PublicKeyLayout D) b
  | .bz03, b => D.asn1.Fits (publicKeyLayout D fun c => (D.ecp2 c).InBounds) b
  | .bls04, b => D.asn1.Fits (publicKeyLayout D fun c => (D.ecp c).InBounds) b
  | .cks05, b => D.asn1.Fits (publicKeyLayout D fun c => (D.ecp c).InBounds) b
  | .frost, b => D.asn1.Fits (frostPublicKeyLayout D) b
  | .sh00, b => D.asn1.Fits (sh00PublicKeyLayout D.asn1) b

def PrivateKeyShare.fits : SchemeFits
  | .sg02, b => D.asn1.Fits (privateKeyLayout D (sg02PublicKeyLayout D)) b
  | .bz03, b => D.asn1.Fits (privateKeyLayout D (publicKeyLayout D fun c => (D.ecp2 c).InBounds)) b
  | .bls04, b => D.asn1.Fits (privateKeyLayout D (publicKeyLayout D fun c => (D.ecp c).InBounds)) b
  | .cks05, b => D.asn1.Fits (privateKeyLayout D (publicKeyLayout D fun c => (D.ecp c).InBounds)) b
  | .frost, b => D.asn1.Fits (privateKeyLayout D (frostPublicKeyLayout D)) b
  | .sh00, b => D.asn1.Fits (sh00PrivateKeyLayout D.asn1) b

def Ciphertext.fits : SchemeFits
  | .sg02, b => D.asn1.Fits (sg02CiphertextLayout D) b
  | .bz03, b => D.asn1.Fits (bz03CiphertextLayout D) b
  | _, _ => True

def DecryptionShare.fits : SchemeFits
  | .sg02, b => D.asn1.Fits (sg02DecryptionShareLayout D) b
  | .bz03, b => D.asn1.Fits (shareLayout D) b
  | _, _ => True

def SignatureShare.fits : SchemeFits
  | .bls04, b => D.asn1.Fits (shareLayout D) b
  | .frost, b => D.asn1.Fits (frostSignatureShareLayout K) b
  | .sh00, b => D.asn1.Fits sh00SignatureShareLayout b
  | _, _ => True

def Signature.fits : SchemeFits
  | .bls04, b => D.asn1.Fits (bls04SignatureLayout D) b
  | .frost, b => D.asn1.Fits (frostSignatureLayout D) b
  | .sh00, b => D.asn1.Fits sh00SignatureLayout b
  | _, _ => True

def CoinShare.fits : SchemeFits
  | .cks05, b => D.asn1.Fits (cks05CoinShareLayout D) b
  | _, _ => True

end Layouts

/-- A value of the interface fits when the value inside does, if the bytes get as far as that. -/
def Asn1Reader.SchemeFits (R : Asn1Reader E) (fits : SchemeFits) (bytes : Bytes) : Prop :=
  ∀ contents id scheme b rest, R.read bytes = some contents →
    contents.elements = .int id :: .octets b :: rest → 0 ≤ id →
    ThresholdScheme.fromId id.toNat = some scheme → fits scheme b

/-- The decoder of a scheme wraps what is inside, and returns when that does. -/
theorem returns_decoder_iff {β γ : Type} {R : Asn1Reader E} {x : Bytes → SchemeOutcome β}
    {view : β → ρ} {layout : Asn1Layout ρ} (hx : ∀ b, Decoded R (x b) view layout b) {wrap : β → γ}
    {decoder : Bytes → SchemeOutcome γ} (h : some (fun b => wrap <$> x b) = some decoder)
    (b : Bytes) : (decoder b).Returns ↔ R.Fits layout b := by
  obtain rfl := Option.some.inj h
  rw [← (hx b).returns_iff]
  change (wrap <$> x b).Returns ↔ _
  cases x b <;> rfl

theorem returns_parse_iff (R : Asn1Reader E) (p : Asn1Parser α) (bytes : Bytes) :
    (R.parse bytes p).Returns
      ↔ ∀ contents, R.read bytes = some contents → (p.run contents.elements).Returns := by
  unfold Asn1Reader.parse
  cases R.read bytes with
  | none => simp
  | some contents =>
      simp only [Option.some.injEq, forall_eq']
      cases p.run contents.elements with
      | ok result =>
          simp only [Outcome.ok_bind, Outcome.returns_ok, iff_true]
          split <;> trivial
      | err e => rfl
      | panic => rfl

theorem lt_of_fromId {id : ℕ} {scheme : ThresholdScheme}
    (h : ThresholdScheme.fromId id = some scheme) : id < 256 := by
  unfold ThresholdScheme.fromId at h
  split at h <;> first | decide | cases h

theorem exists_of_asUnsigned {bits n : ℕ} {t : Asn1Element}
    (h : Asn1Element.asUnsigned bits t = some n) : ∃ v, t = .int v ∧ 0 ≤ v ∧ v.toNat = n := by
  cases t with
  | octets b => cases h
  | int v =>
      rw [Asn1Element.asUnsigned] at h
      split at h
      · rename_i hv
        exact ⟨v, rfl, hv.1, Option.some.inj h⟩
      · cases h

/-- Once the scheme is known, the value inside decides. -/
theorem returns_schemeFromBytes_iff (R : Asn1Reader E)
    {value : ThresholdScheme → Option (Bytes → SchemeOutcome α)} {fits : SchemeFits}
    (hsome : ∀ scheme decoder, value scheme = some decoder →
      ∀ b, (decoder b).Returns ↔ fits scheme b)
    (hnone : ∀ scheme, value scheme = none → ∀ b, fits scheme b) (bytes : Bytes) :
    (schemeFromBytes R bytes value).Returns ↔ R.SchemeFits fits bytes := by
  rw [schemeFromBytes, returns_parse_iff]
  -- the parser beyond the two elements
  have hvalue : ∀ id b rest, ((known (ThresholdScheme.fromId id) >>= fun scheme =>
      known (value scheme) >>= fun decoder => Reader.call (decoder b)).run rest).Returns
      ↔ ∀ scheme, ThresholdScheme.fromId id = some scheme → fits scheme b := by
    intro id b rest
    cases hscheme : ThresholdScheme.fromId id with
    | none => simp [known]
    | some scheme =>
        cases hdecoder : value scheme with
        | none => simp [known, hdecoder, hnone scheme hdecoder b]
        | some decoder =>
            have hb := hsome scheme decoder hdecoder b
            simp only [known, Reader.run_bind, Reader.run_call, Outcome.okOr_some, Outcome.ok_bind,
              hdecoder, Option.some.injEq, forall_eq', ← hb]
            cases decoder b <;> rfl
  constructor
  · intro h contents id scheme b rest hread helements hid hscheme
    have hsmall : id.toNat < 256 := lt_of_fromId hscheme
    have haccepts : Asn1Element.asUnsigned 8 (.int id) = some id.toNat := by
      rw [Asn1Element.asUnsigned, if_pos ⟨hid, by omega⟩]
    have hrun := h contents hread
    rw [helements, Reader.run_bind, readU8, Reader.run_next_cons_some haccepts, Outcome.ok_bind] at hrun
    exact (hvalue id.toNat b rest).mp hrun scheme hscheme
  · intro h contents hread
    cases helements : contents.elements with
    | nil => trivial
    | cons t ts =>
        rw [Reader.run_bind, readU8]
        cases haccepts : Asn1Element.asUnsigned 8 t with
        | none =>
            rw [Reader.run_next_cons_none haccepts]
            trivial
        | some id =>
            rw [Reader.run_next_cons_some haccepts, Outcome.ok_bind]
            obtain ⟨v, rfl, hv, rfl⟩ := exists_of_asUnsigned haccepts
            match ts with
            | [] => trivial
            | .int _ :: _ => trivial
            | .octets b :: rest =>
                apply (hvalue v.toNat b rest).mpr
                intro scheme hscheme
                exact h contents v scheme b rest hread helements hv hscheme

section Interface

variable (D : Decoders E K)

theorem PublicKey.returns_fromBytes_iff (bytes : Bytes) :
    (PublicKey.fromBytes D bytes).Returns ↔ D.asn1.SchemeFits (PublicKey.fits D) bytes := by
  apply returns_schemeFromBytes_iff
  · intro scheme decoder h b
    cases scheme with
    | sg02 => exact returns_decoder_iff (decoded_sg02PublicKey D) h b
    | bz03 => exact returns_decoder_iff (decoded_publicKey D D.ecp2 _) h b
    | bls04 => exact returns_decoder_iff (decoded_publicKey D D.ecp _) h b
    | cks05 => exact returns_decoder_iff (decoded_publicKey D D.ecp _) h b
    | frost => exact returns_decoder_iff (decoded_frostPublicKey D) h b
    | sh00 => exact returns_decoder_iff (decoded_sh00PublicKey D.asn1) h b
  · intro scheme h b
    cases scheme <;> cases h

theorem PrivateKeyShare.returns_fromBytes_iff (bytes : Bytes) :
    (PrivateKeyShare.fromBytes D bytes).Returns ↔ D.asn1.SchemeFits (PrivateKeyShare.fits D) bytes := by
  apply returns_schemeFromBytes_iff
  · intro scheme decoder h b
    cases scheme with
    | sg02 => exact returns_decoder_iff (decoded_privateKey D (decoded_sg02PublicKey D) _) h b
    | bz03 => exact returns_decoder_iff (decoded_privateKey D (decoded_publicKey D D.ecp2 _) _) h b
    | bls04 => exact returns_decoder_iff (decoded_privateKey D (decoded_publicKey D D.ecp _) _) h b
    | cks05 => exact returns_decoder_iff (decoded_privateKey D (decoded_publicKey D D.ecp _) _) h b
    | frost => exact returns_decoder_iff (decoded_privateKey D (decoded_frostPublicKey D) _) h b
    | sh00 => exact returns_decoder_iff (decoded_sh00PrivateKey D.asn1) h b
  · intro scheme h b
    cases scheme <;> cases h

theorem Ciphertext.returns_fromBytes_iff (bytes : Bytes) :
    (Ciphertext.fromBytes D bytes).Returns ↔ D.asn1.SchemeFits (Ciphertext.fits D) bytes := by
  apply returns_schemeFromBytes_iff
  · intro scheme decoder h b
    cases scheme with
    | sg02 => exact returns_decoder_iff (decoded_sg02Ciphertext D) h b
    | bz03 => exact returns_decoder_iff (decoded_bz03Ciphertext D) h b
    | _ => cases h
  · intro scheme h b
    cases scheme <;> trivial

theorem DecryptionShare.returns_fromBytes_iff (bytes : Bytes) :
    (DecryptionShare.fromBytes D bytes).Returns ↔ D.asn1.SchemeFits (DecryptionShare.fits D) bytes := by
  apply returns_schemeFromBytes_iff
  · intro scheme decoder h b
    cases scheme with
    | sg02 => exact returns_decoder_iff (decoded_sg02DecryptionShare D) h b
    | bz03 => exact returns_decoder_iff (decoded_share D _) h b
    | _ => cases h
  · intro scheme h b
    cases scheme <;> trivial

theorem SignatureShare.returns_fromBytes_iff (bytes : Bytes) :
    (SignatureShare.fromBytes D bytes).Returns ↔ D.asn1.SchemeFits (SignatureShare.fits D) bytes := by
  apply returns_schemeFromBytes_iff
  · intro scheme decoder h b
    cases scheme with
    | bls04 => exact returns_decoder_iff (decoded_share D _) h b
    | frost => exact returns_decoder_iff (decoded_frostSignatureShare D) h b
    | sh00 => exact returns_decoder_iff (decoded_sh00SignatureShare D.asn1) h b
    | _ => cases h
  · intro scheme h b
    cases scheme <;> trivial

theorem Signature.returns_fromBytes_iff (bytes : Bytes) :
    (Signature.fromBytes D bytes).Returns ↔ D.asn1.SchemeFits (Signature.fits D) bytes := by
  apply returns_schemeFromBytes_iff
  · intro scheme decoder h b
    cases scheme with
    | bls04 => exact returns_decoder_iff (decoded_bls04Signature D) h b
    | frost => exact returns_decoder_iff (decoded_frostSignature D) h b
    | sh00 => exact returns_decoder_iff (decoded_sh00Signature D.asn1) h b
    | _ => cases h
  · intro scheme h b
    cases scheme <;> trivial

theorem CoinShare.returns_fromBytes_iff (bytes : Bytes) :
    (CoinShare.fromBytes D bytes).Returns ↔ D.asn1.SchemeFits (CoinShare.fits D) bytes := by
  apply returns_schemeFromBytes_iff
  · intro scheme decoder h b
    cases scheme with
    | cks05 => exact returns_decoder_iff (decoded_cks05CoinShare D) h b
    | _ => cases h
  · intro scheme h b
    cases scheme <;> trivial

end Interface

/-- The decoders return on a byte string exactly when no element they reach breaks a condition: a point
is one `mcore` can index, a scalar has `MODBYTES` bytes, the group of a point or a scalar is a curve,
and the modulus of an RSA key has one of four lengths. -/
theorem decoders_return_iff (D : Decoders E K) (bytes : Bytes) :
    ((Ciphertext.fromBytes D bytes).Returns ↔ D.asn1.SchemeFits (Ciphertext.fits D) bytes)
    ∧ ((DecryptionShare.fromBytes D bytes).Returns
      ↔ D.asn1.SchemeFits (DecryptionShare.fits D) bytes)
    ∧ ((SignatureShare.fromBytes D bytes).Returns ↔ D.asn1.SchemeFits (SignatureShare.fits D) bytes)
    ∧ ((Signature.fromBytes D bytes).Returns ↔ D.asn1.SchemeFits (Signature.fits D) bytes)
    ∧ ((CoinShare.fromBytes D bytes).Returns ↔ D.asn1.SchemeFits (CoinShare.fits D) bytes)
    ∧ ((PublicKey.fromBytes D bytes).Returns ↔ D.asn1.SchemeFits (PublicKey.fits D) bytes)
    ∧ ((PrivateKeyShare.fromBytes D bytes).Returns
      ↔ D.asn1.SchemeFits (PrivateKeyShare.fits D) bytes) :=
  ⟨Ciphertext.returns_fromBytes_iff D bytes, DecryptionShare.returns_fromBytes_iff D bytes,
    SignatureShare.returns_fromBytes_iff D bytes, Signature.returns_fromBytes_iff D bytes,
    CoinShare.returns_fromBytes_iff D bytes, PublicKey.returns_fromBytes_iff D bytes,
    PrivateKeyShare.returns_fromBytes_iff D bytes⟩

/-- A Frost share of party one on Ed25519 whose scalar is the empty string. -/
theorem short_scalar_panics :
    ¬ (SignatureShare.fromBytes .seven [0x30, 0x0f, 0x02, 0x01, 0x04, 0x04, 0x0a, 0x30, 0x08, 0x02,
      0x01, 0x01, 0x02, 0x01, 0x02, 0x04, 0x00]).Returns := by
  decide

end QuorumCrypt
