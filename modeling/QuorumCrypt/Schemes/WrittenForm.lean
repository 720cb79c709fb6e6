import QuorumCrypt.Schemes.Decoding

/-!
# The form in which values are written

The decoders accept more than the encoders write, at four places: a number of 64 bits is cut to 16, a
scalar is read off the first `MODBYTES` bytes of a string of any length, `mcore` takes other bytes than
its own for points, and integers may begin with zeros. Here is which elements are of the form that is
written there, and what a parser has read when it returns: the elements it has taken, and the values
that it made of them.
-/

namespace QuorumCrypt

open Rust

variable {E : Primitives} {K : Curves}

namespace Asn1Reader

/-- DER has one encoding of every sequence, and the reader accepts no other. -/
def Strict (R : Asn1Reader E) : Prop :=
  ∀ bytes es, R.read bytes = some ⟨es, true⟩ → E.asn1Write es = bytes

theorem strict_der : Asn1Reader.der.Strict := fun _ _ => Der.write_of_read

/-- A property of the elements of a sequence, if there is one and nothing behind it. -/
def Elements (R : Asn1Reader E) (P : List Asn1Element → Prop) (bytes : Bytes) : Prop :=
  ∀ es, R.read bytes = some ⟨es, true⟩ → P es

variable {R : Asn1Reader E} {bytes : Bytes} {es : List Asn1Element}

theorem elements_iff {P : List Asn1Element → Prop} (h : R.read bytes = some ⟨es, true⟩) :
    R.Elements P bytes ↔ P es := by
  constructor
  · intro helements
    exact helements es h
  · intro hes es' h'
    cases h.symm.trans h'
    exact hes

theorem Strict.asn1Write_eq_iff (hstrict : R.Strict) (h : R.read bytes = some ⟨es, true⟩)
    {es' : List Asn1Element} : E.asn1Write es' = bytes ↔ es' = es := by
  constructor
  · rintro rfl
    cases (R.read_asn1Write es').symm.trans h
    rfl
  · rintro rfl
    exact hstrict bytes es' h

theorem exists_of_parse {α : Type} {p : Asn1Parser α} {a : α} (h : R.parse bytes p = .ok a) :
    ∃ es, R.read bytes = some ⟨es, true⟩ ∧ p.run es = .ok (a, []) := by
  rw [parse] at h
  split at h
  · cases h
  · rename_i contents hread
    obtain ⟨⟨a', rest⟩, hrun, hend⟩ := Outcome.bind_eq_ok.mp h
    dsimp only at hend
    split at hend
    · rename_i hall
      obtain ⟨rfl, hcomplete⟩ := hall
      obtain rfl := Outcome.ok.inj hend
      refine ⟨contents.elements, ?_, hrun⟩
      rw [hread, ← hcomplete]
    · cases hend

/-- Decoding a sequence, in terms of its elements. -/
theorem Strict.toBytes_eq_iff (hstrict : R.Strict) {α : Type} {p : Asn1Parser α} {a : α}
    {written : List Asn1Element} {canonical : List Asn1Element → Prop}
    (hp : ∀ es, p.run es = .ok (a, []) → (written = es ↔ canonical es))
    (h : R.parse bytes p = .ok a) :
    E.asn1Write written = bytes ↔ R.Elements canonical bytes := by
  obtain ⟨es, hread, hrun⟩ := exists_of_parse h
  rw [hstrict.asn1Write_eq_iff hread, elements_iff hread]
  exact hp es hrun

end Asn1Reader

/-! ### The right form -/

/-- A number that 16 bits hold. -/
def FitsU16 (value : ℤ) : Prop := value < 65536

/-- The encoding of a point. -/
def IsPoint {G : Type} [CommGroup G] (C : EcGroup G) (b : Bytes) : Prop := ∃ x, C.toBytes x = b

variable (K) in
/-- The bytes of a scalar, and no more. -/
def IsScalar (c : Curve) (b : Bytes) : Prop := b.length = (K.ecp c).modbytes

/-- No leading zero. -/
def IsBigInt (b : Bytes) : Prop := b.head? ≠ some 0

/-- What is said of the curve that a tag names, if it names one. -/
def OnCurveOf (g : ℤ) (P : Curve → Prop) : Prop := ∀ c, g = c.group.asI32 → P c

section Places

theorem toNat_ofNat_eq_iff {value : ℤ} (h : 0 ≤ value) :
    ((UInt16.ofNat value.toNat).toNat : ℤ) = value ↔ FitsU16 value := by
  rw [UInt16.toNat_ofNat', FitsU16]
  omega

theorem toBytes_point_eq_iff {G : Type} [CommGroup G] {C : EcGroup G} {D : PointDecoder C} {b : Bytes}
    {x : G} (h : D.fromBytes b = .ok x) : C.toBytes x = b ↔ IsPoint C b := by
  constructor
  · intro heq
    exact ⟨x, heq⟩
  · rintro ⟨x', rfl⟩
    obtain rfl := Outcome.ok.inj ((D.fromBytes_toBytes x').symm.trans h)
    rfl

theorem scalarToBytes_eq_iff {c : Curve} {b : Bytes} {x : ℕ} (h : K.scalarFromBytes c b = .ok x) :
    (K.ecp c).scalarToBytes x = b ↔ IsScalar K c b := by
  rw [IsScalar]
  constructor
  · rintro rfl
    exact length_toBytesBE _ _
  · intro hlength
    rw [Curves.scalarFromBytes, if_pos hlength.ge] at h
    obtain rfl := Outcome.ok.inj h
    rw [EcGroup.scalarToBytes, EcGroup.scalarFromBytes, ← hlength, List.take_length,
      toBytesBE_ofBytesBE]

theorem utf8Bytes_of_fromUtf8 {b : Bytes} {s : String} (h : fromUtf8 b = some s) : utf8Bytes s = b := by
  unfold fromUtf8 String.fromUTF8? at h
  split at h
  · obtain rfl := Option.some.inj h
    rfl
  · cases h

theorem onCurveOf_iff {c : Curve} {P : Curve → Prop} : OnCurveOf c.group.asI32 P ↔ P c := by
  constructor
  · intro h
    exact h c rfl
  · intro h c' heq
    have hgroup : some c'.group = some c.group := by
      rw [← Group.fromI32_asI32, ← Group.fromI32_asI32, heq]
    have hcurve := congrArg Group.curve (Option.some.inj hgroup)
    rw [Group.curve_group, Group.curve_group] at hcurve
    exact Option.some.inj hcurve ▸ h

end Places

/-! ### What the parsers have read -/

section Parsers

variable {α β : Type} {es : List Asn1Element} {result : α × List Asn1Element}

theorem exists_of_next {accepts : Asn1Element → Option β} {f : β → Asn1Parser α}
    (h : (Reader.next .deserializationFailed accepts >>= f).run es = .ok result) :
    ∃ e rest b, es = e :: rest ∧ accepts e = some b ∧ (f b).run rest = .ok result := by
  rw [Reader.run_bind] at h
  cases es with
  | nil => cases h
  | cons e rest =>
      cases haccepts : accepts e with
      | none =>
          rw [Reader.run_next_cons_none haccepts] at h
          cases h
      | some b =>
          rw [Reader.run_next_cons_some haccepts] at h
          exact ⟨e, rest, b, rfl, haccepts, h⟩

theorem exists_of_readOctets {f : Bytes → Asn1Parser α}
    (h : (readOctets >>= f).run es = .ok result) :
    ∃ b rest, es = .octets b :: rest ∧ (f b).run rest = .ok result := by
  obtain ⟨e, rest, b, rfl, hb, hf⟩ := exists_of_next h
  cases e with
  | int value => cases hb
  | octets b' =>
      obtain rfl := Option.some.inj hb
      exact ⟨b', rest, rfl, hf⟩

theorem exists_of_readU64 {f : ℕ → Asn1Parser α} (h : (readU64 >>= f).run es = .ok result) :
    ∃ value rest, es = .int value :: rest ∧ 0 ≤ value ∧ (f value.toNat).run rest = .ok result := by
  obtain ⟨e, rest, n, rfl, hn, hf⟩ := exists_of_next h
  obtain ⟨value, rfl, hvalue, rfl⟩ := exists_of_asUnsigned hn
  exact ⟨value, rest, rfl, hvalue, hf⟩

theorem exists_of_readU16 {f : UInt16 → Asn1Parser α} (h : (readU16 >>= f).run es = .ok result) :
    ∃ value rest, es = .int value :: rest ∧ 0 ≤ value
      ∧ (f (UInt16.ofNat value.toNat)).run rest = .ok result := by
  rw [readU16, bind_assoc] at h
  obtain ⟨value, rest, rfl, hvalue, hf⟩ := exists_of_readU64 h
  exact ⟨value, rest, rfl, hvalue, hf⟩

theorem asI32_of_fromI32 {g : ℤ} {group : Group} (h : Group.fromI32 g = some group) :
    group.asI32 = g := by
  unfold Group.fromI32 at h
  split at h <;> cases h <;> rfl

theorem exists_of_readI32 {f : ℤ → Asn1Parser α} (h : (readI32 >>= f).run es = .ok result) :
    ∃ g rest, es = .int g :: rest ∧ (f g).run rest = .ok result := by
  obtain ⟨e, rest, g, rfl, hg, hf⟩ := exists_of_next h
  cases e with
  | octets b => cases hg
  | int value =>
      rw [Asn1Element.asSigned32] at hg
      split at hg
      · obtain rfl := Option.some.inj hg
        exact ⟨value, rest, rfl, hf⟩
      · cases hg

theorem exists_of_call {x : SchemeOutcome β} {f : β → Asn1Parser α}
    (h : (Reader.call x >>= f).run es = .ok result) : ∃ b, x = .ok b ∧ (f b).run es = .ok result := by
  cases x with
  | ok b => exact ⟨b, rfl, h⟩
  | err e => cases h
  | panic => cases h

theorem exists_of_known {x : Option β} {f : β → Asn1Parser α}
    (h : (known x >>= f).run es = .ok result) : ∃ b, x = some b ∧ (f b).run es = .ok result := by
  obtain ⟨b, hb, hf⟩ := exists_of_call h
  cases x with
  | none => cases hb
  | some b' =>
      obtain rfl := Outcome.ok.inj hb
      exact ⟨b', rfl, hf⟩

theorem exists_of_readGroup {f : Group → Asn1Parser α}
    (h : (readGroup >>= f).run es = .ok result) :
    ∃ group rest, es = .int group.asI32 :: rest ∧ (f group).run rest = .ok result := by
  rw [readGroup, bind_assoc] at h
  obtain ⟨g, rest, rfl, hrest⟩ := exists_of_readI32 h
  obtain ⟨group, hgroup, hf⟩ := exists_of_known hrest
  exact ⟨group, rest, by rw [asI32_of_fromI32 hgroup], hf⟩

theorem exists_of_onCurveOf {group : Group} {f : Curve → Asn1Parser α}
    (h : (onCurveOf group >>= f).run es = .ok result) :
    ∃ c : Curve, group = c.group ∧ (f c).run es = .ok result := by
  obtain ⟨c, hc, hf⟩ := exists_of_call h
  refine ⟨c, ?_, hf⟩
  cases group <;> cases hc <;> rfl

theorem exists_of_readPoint {D : Decoders E K} {c : Curve} {f : K.Point c → Asn1Parser α}
    (h : (readPoint D c >>= f).run es = .ok result) :
    ∃ b rest x, es = .octets b :: rest ∧ (D.ecp c).fromBytes b = .ok x
      ∧ (f x).run rest = .ok result := by
  rw [readPoint, bind_assoc] at h
  obtain ⟨b, rest, rfl, h⟩ := exists_of_readOctets h
  obtain ⟨x, hx, hf⟩ := exists_of_call h
  exact ⟨b, rest, x, rfl, hx, hf⟩

theorem exists_of_readScalar {c : Curve} {f : ℕ → Asn1Parser α}
    (h : (readScalar K c >>= f).run es = .ok result) :
    ∃ b rest x, es = .octets b :: rest ∧ K.scalarFromBytes c b = .ok x
      ∧ (f x).run rest = .ok result := by
  rw [readScalar, bind_assoc] at h
  obtain ⟨b, rest, rfl, h⟩ := exists_of_readOctets h
  obtain ⟨x, hx, hf⟩ := exists_of_call h
  exact ⟨b, rest, x, rfl, hx, hf⟩

theorem exists_of_readBigInt {f : ℕ → Asn1Parser α} (h : (readBigInt >>= f).run es = .ok result) :
    ∃ b rest, es = .octets b :: rest ∧ (f (ofBytesBE b)).run rest = .ok result := by
  rw [readBigInt, bind_assoc] at h
  obtain ⟨b, rest, rfl, h⟩ := exists_of_readOctets h
  exact ⟨b, rest, rfl, h⟩

/-- A loop over one place: the strings it has read are what is written of the values, when each of them
is of the right form. -/
theorem exists_of_times {p : Asn1Parser β} {write : β → Bytes} {canonical : Bytes → Prop}
    (hp : ∀ {es b rest}, p.run es = .ok (b, rest) →
      ∃ bytes, es = .octets bytes :: rest ∧ (write b = bytes ↔ canonical bytes))
    {n : ℕ} {f : List β → Asn1Parser α} (h : (Reader.times n p >>= f).run es = .ok result) :
    ∃ read rest bs, bs.length = n ∧ es = read ++ rest ∧ (f bs).run rest = .ok result
      ∧ (bs.map (fun b => Asn1Element.octets (write b)) = read
        ↔ ∀ bytes, .octets bytes ∈ read → canonical bytes) := by
  let Reads (e : Asn1Element) (b : β) : Prop :=
    ∃ bytes, e = .octets bytes ∧ (write b = bytes ↔ canonical bytes)
  have hone : ∀ {es b rest}, p.run es = .ok (b, rest) → ∃ e, es = e :: rest ∧ Reads e b := by
    intro es b rest hrun
    obtain ⟨bytes, rfl, hbytes⟩ := hp hrun
    exact ⟨.octets bytes, rfl, bytes, rfl, hbytes⟩
  have hwrite : ∀ e b, Reads e b →
      (Asn1Element.octets (write b) = e ↔ ∀ bytes, e = .octets bytes → canonical bytes) := by
    rintro e b ⟨bytes, rfl, hbytes⟩
    rw [Asn1Element.octets.injEq, hbytes]
    simp
  rw [Reader.run_bind] at h
  obtain ⟨⟨bs, rest⟩, hbs, hf⟩ := Outcome.bind_eq_ok.mp h
  obtain ⟨hlength, read, rfl, hread⟩ := Reader.exists_of_run_times hone hbs
  refine ⟨read, rest, bs, hlength, rfl, hf, ?_⟩
  rw [Reader.map_eq_iff_of_forall₂ hwrite hread]
  constructor
  · intro h bytes hmem
    exact h _ hmem bytes rfl
  · rintro h e hmem bytes rfl
    exact h bytes hmem

theorem exists_of_readPoints {D : Decoders E K} {c : Curve} {n : ℕ} {f : List (K.Point c) → Asn1Parser α}
    (h : (Reader.times n (readPoint D c) >>= f).run es = .ok result) :
    ∃ read rest xs, xs.length = n ∧ es = read ++ rest ∧ (f xs).run rest = .ok result
      ∧ (xs.map (fun x => Asn1Element.octets ((K.ecp c).toBytes x)) = read
        ↔ ∀ b, .octets b ∈ read → IsPoint (K.ecp c) b) := by
  refine exists_of_times ?_ h
  intro es x rest hrun
  rw [← bind_pure (readPoint D c)] at hrun
  obtain ⟨b, rest', x', rfl, hx, hpure⟩ := exists_of_readPoint hrun
  obtain ⟨rfl, rfl⟩ := Prod.mk.inj (Outcome.ok.inj hpure)
  exact ⟨b, rfl, toBytes_point_eq_iff hx⟩

theorem exists_of_readBigInts {n : ℕ} {f : List ℕ → Asn1Parser α}
    (h : (Reader.times n readBigInt >>= f).run es = .ok result) :
    ∃ read rest xs, xs.length = n ∧ es = read ++ rest ∧ (f xs).run rest = .ok result
      ∧ (xs.map (fun x => Asn1Element.octets (BigInt.toBytes x)) = read
        ↔ ∀ b, .octets b ∈ read → IsBigInt b) := by
  refine exists_of_times ?_ h
  intro es x rest hrun
  rw [← bind_pure readBigInt] at hrun
  obtain ⟨b, rest', rfl, hpure⟩ := exists_of_readBigInt hrun
  obtain ⟨rfl, rfl⟩ := Prod.mk.inj (Outcome.ok.inj hpure)
  exact ⟨b, rfl, BigInt.toBytes_ofBytesBE_eq_iff b⟩

/-- The end of a parser that has taken all elements. -/
theorem eq_of_pure {a a' : α} (h : (pure a : Asn1Parser α).run es = .ok (a', [])) :
    a = a' ∧ es = [] :=
  Prod.mk.inj (Outcome.ok.inj h)

end Parsers

end QuorumCrypt
