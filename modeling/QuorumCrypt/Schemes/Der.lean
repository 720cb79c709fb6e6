import QuorumCrypt.Schemes.BigInt

/-!
# Sequences of integers and octet strings in DER

A writer and a reader for the sequences the schemes store and send: what the `asn1` crate is asked
for, and nothing more. Lengths are definite and minimal, integers are in two's complement with as few
bytes as they need. DER has no length above `256 ^ 126`; such a length is written in a form of its
own, so that reading inverts writing on every list.
-/

namespace QuorumCrypt

/-- What stands in a sequence up to the first element that cannot be read, and whether that is all
there is. -/
structure Asn1Contents where
  elements : List Asn1Element
  complete : Bool
  deriving DecidableEq

namespace Der

/-! ### Lengths -/

/-- The number of bytes of a number above zero. -/
def byteLength (x : ℕ) : ℕ := x.log2 / 8 + 1

theorem lt_pow_byteLength (x : ℕ) : x < 256 ^ byteLength x := by
  calc x < 2 ^ (x.log2 + 1) := Nat.lt_log2_self
    _ ≤ 2 ^ (8 * byteLength x) := Nat.pow_le_pow_right (by decide) (by unfold byteLength; omega)
    _ = 256 ^ byteLength x := by rw [pow_mul]; norm_num

def writeLength (n : ℕ) : Bytes :=
  if n < 128 then [UInt8.ofNat n]
  else if byteLength n < 127 then UInt8.ofNat (128 + byteLength n) :: toBytesBE (byteLength n) n
  else 255 :: (List.replicate n 0 ++ [1])

def readLength : Bytes → Option (ℕ × Bytes)
  | [] => none
  | b :: rest =>
      if b < 128 then some (b.toNat, rest)
      else if b = 255 then
        let n := (rest.takeWhile (· == 0)).length
        if 127 ≤ byteLength n ∧ rest[n]? = some 1 then some (n, rest.drop (n + 1)) else none
      else
        let size := b.toNat - 128
        let n := ofBytesBE (rest.take size)
        if size ≤ rest.length ∧ 128 ≤ n ∧ byteLength n = size then some (n, rest.drop size) else none

theorem readLength_writeLength (n : ℕ) (rest : Bytes) :
    readLength (writeLength n ++ rest) = some (n, rest) := by
  unfold writeLength
  split
  · rename_i hshort
    have hbyte : (UInt8.ofNat n).toNat = n := UInt8.toNat_ofNat_of_lt' (by change _ < 256; omega)
    have hlt : UInt8.ofNat n < 128 := by
      rw [UInt8.lt_iff_toNat_lt, hbyte]
      exact hshort
    rw [List.singleton_append, readLength, if_pos hlt, hbyte]
  · rename_i hlong
    split
    · rename_i hsize
      have hpos : 0 < byteLength n := Nat.succ_pos _
      have hbyte : (UInt8.ofNat (128 + byteLength n)).toNat = 128 + byteLength n :=
        UInt8.toNat_ofNat_of_lt' (by change _ < 256; omega)
      have hge : ¬ UInt8.ofNat (128 + byteLength n) < 128 := by
        rw [UInt8.lt_iff_toNat_lt, hbyte]
        change ¬ _ < 128
        omega
      have hne : UInt8.ofNat (128 + byteLength n) ≠ 255 := by
        intro h
        have := congrArg UInt8.toNat h
        rw [hbyte] at this
        change _ = 255 at this
        omega
      have htake : (toBytesBE (byteLength n) n ++ rest).take (byteLength n)
          = toBytesBE (byteLength n) n := List.take_left' (length_toBytesBE _ _)
      have hvalue : ofBytesBE (toBytesBE (byteLength n) n) = n := by
        rw [ofBytesBE_toBytesBE, Nat.mod_eq_of_lt (lt_pow_byteLength n)]
      rw [List.cons_append, readLength, if_neg hge, if_neg hne]
      simp only [hbyte, Nat.add_sub_cancel_left, htake, hvalue]
      rw [if_pos ⟨by simp [length_toBytesBE], by omega, trivial⟩,
        List.drop_left' (length_toBytesBE _ _)]
    · rename_i hsize
      have htake : ((List.replicate n (0 : UInt8) ++ [1] ++ rest).takeWhile (· == 0)).length = n := by
        rw [List.append_assoc, List.takeWhile_append_of_pos (by simp)]
        simp
      have hdrop : (List.replicate n (0 : UInt8) ++ [1] ++ rest).drop (n + 1) = rest :=
        List.drop_left' (by simp)
      have hmark : (List.replicate n (0 : UInt8) ++ [1] ++ rest)[n]? = some 1 := by
        rw [List.append_assoc, List.getElem?_append_right (by simp), List.length_replicate, Nat.sub_self]
        rfl
      rw [List.cons_append, readLength, if_neg (by decide), if_pos rfl]
      simp only [htake, hdrop]
      rw [if_pos ⟨by omega, hmark⟩]

/-- The leading zeros of a byte string. -/
theorem take_takeWhile_zero (b : Bytes) :
    b.take (b.takeWhile (· == 0)).length = List.replicate (b.takeWhile (· == 0)).length 0 := by
  rw [← List.prefix_iff_eq_take.mp (List.takeWhile_prefix _), List.eq_replicate_iff]
  refine ⟨rfl, fun byte hmem => ?_⟩
  have hzero := List.all_eq_true.mp (List.all_takeWhile (p := (· == 0))) byte hmem
  simpa using hzero

theorem byteLength_of_lt {n : ℕ} (h : n < 128) : byteLength n = 1 := by
  have hlog : n.log2 < 8 := by
    by_cases hzero : n = 0
    · rw [hzero]
      decide
    · exact (Nat.log2_lt hzero).mpr (by omega)
  unfold byteLength
  omega

/-- A length is read off one encoding only. -/
theorem writeLength_of_readLength {b rest : Bytes} {n : ℕ} (h : readLength b = some (n, rest)) :
    b = writeLength n ++ rest := by
  cases b with
  | nil => cases h
  | cons byte b =>
      rw [readLength] at h
      split at h
      · rename_i hshort
        obtain ⟨rfl, rfl⟩ := Prod.mk.inj (Option.some.inj h)
        have hlt : byte.toNat < 128 := UInt8.lt_iff_toNat_lt.mp hshort
        rw [writeLength, if_pos hlt, UInt8.ofNat_toNat, List.singleton_append]
      · rename_i hlong
        have hge : 128 ≤ byte.toNat := by
          rw [UInt8.lt_iff_toNat_lt, Nat.not_lt] at hlong
          exact hlong
        split at h
        · rename_i hmax
          dsimp only at h
          split at h
          · rename_i hmark
            obtain ⟨hsize, hmark⟩ := hmark
            obtain ⟨hn, rfl⟩ := Prod.mk.inj (Option.some.inj h)
            rw [hn] at hsize hmark ⊢
            have hzeros : b.take n = List.replicate n 0 := by
              rw [← hn]
              exact take_takeWhile_zero b
            have hshort : ¬ n < 128 := by
              intro hlt
              rw [byteLength_of_lt hlt] at hsize
              omega
            have hrest : b.drop n = 1 :: b.drop (n + 1) := by
              obtain ⟨hlt, heq⟩ := List.getElem?_eq_some_iff.mp hmark
              rw [List.drop_eq_getElem_cons hlt, heq]
            rw [writeLength, if_neg hshort, if_neg (Nat.not_lt.mpr hsize), List.cons_append,
              List.append_assoc, List.singleton_append, ← hzeros, ← hrest, List.take_append_drop, hmax]
          · cases h
        · rename_i hmax
          dsimp only at h
          split at h
          · rename_i hsize
            obtain ⟨hlength, hvalue, hbytes⟩ := hsize
            obtain ⟨rfl, rfl⟩ := Prod.mk.inj (Option.some.inj h)
            have hlt : byte.toNat < 255 := by
              have := byte.toNat_lt
              have hne : byte.toNat ≠ 255 := fun heq => hmax (UInt8.toNat_inj.mp heq)
              omega
            have htake : toBytesBE (byte.toNat - 128) (ofBytesBE (b.take (byte.toNat - 128)))
                = b.take (byte.toNat - 128) := by
              have hown := toBytesBE_ofBytesBE (b.take (byte.toNat - 128))
              rwa [List.length_take_of_le hlength] at hown
            have hbyte : UInt8.ofNat (128 + (byte.toNat - 128)) = byte := by
              rw [Nat.add_sub_cancel' hge, UInt8.ofNat_toNat]
            rw [writeLength, if_neg (by omega), hbytes, if_pos (by omega), hbyte, htake,
              List.cons_append, List.take_append_drop]
          · cases h

/-! ### Values with their tag and length -/

def writeTlv (tag : UInt8) (content : Bytes) : Bytes :=
  tag :: (writeLength content.length ++ content)

def readTlv : Bytes → Option (UInt8 × Bytes × Bytes)
  | [] => none
  | tag :: b =>
      match readLength b with
      | none => none
      | some (n, rest) => if n ≤ rest.length then some (tag, rest.take n, rest.drop n) else none

theorem readTlv_writeTlv (tag : UInt8) (content rest : Bytes) :
    readTlv (writeTlv tag content ++ rest) = some (tag, content, rest) := by
  rw [writeTlv, List.cons_append, readTlv, List.append_assoc, readLength_writeLength]
  simp

theorem writeTlv_of_readTlv {b content rest : Bytes} {tag : UInt8}
    (h : readTlv b = some (tag, content, rest)) : b = writeTlv tag content ++ rest := by
  cases b with
  | nil => cases h
  | cons first b =>
      rw [readTlv] at h
      split at h
      · cases h
      · rename_i n remaining hlength
        split at h
        · rename_i hle
          obtain ⟨rfl, hcontent⟩ := Prod.mk.inj (Option.some.inj h)
          obtain ⟨rfl, rfl⟩ := Prod.mk.inj hcontent
          rw [writeTlv, List.length_take_of_le hle, List.cons_append, List.append_assoc,
            List.take_append_drop, ← writeLength_of_readLength hlength]
        · cases h

/-! ### Integers -/

/-- The bytes of an integer: one bit more than its magnitude needs. -/
def intLength : ℤ → ℕ
  | .ofNat x => (x.log2 + 1) / 8 + 1
  | .negSucc x => (x.log2 + 1) / 8 + 1

def writeInt (i : ℤ) : Bytes :=
  match i with
  | .ofNat x => toBytesBE (intLength i) x
  | .negSucc x => toBytesBE (intLength i) (256 ^ intLength i - 1 - x)

def readInt (content : Bytes) : Option ℤ :=
  let unsigned := ofBytesBE content
  let i : ℤ := if 2 * unsigned < 256 ^ content.length then unsigned
    else unsigned - (256 ^ content.length : ℕ)
  if intLength i = content.length then some i else none

theorem two_mul_lt_pow (x : ℕ) : 2 * x < 256 ^ ((x.log2 + 1) / 8 + 1) := by
  calc 2 * x < 2 * 2 ^ (x.log2 + 1) := by have := @Nat.lt_log2_self x; omega
    _ = 2 ^ (x.log2 + 2) := by ring
    _ ≤ 2 ^ (8 * ((x.log2 + 1) / 8 + 1)) := Nat.pow_le_pow_right (by decide) (by omega)
    _ = 256 ^ ((x.log2 + 1) / 8 + 1) := by rw [pow_mul]; norm_num

/-- The complement of a number has the top bit set, and stands for the negative number. -/
theorem complement_signed {p h x : ℕ} (heven : p = 2 * h) (hlt : 2 * x < p) :
    ¬ 2 * (p - 1 - x) < p ∧ ((p - 1 - x : ℕ) : ℤ) - (p : ℕ) = .negSucc x := by
  rw [Int.negSucc_eq]
  omega

theorem readInt_writeInt (i : ℤ) : readInt (writeInt i) = some i := by
  cases i with
  | ofNat x =>
      have hlt : 2 * x < 256 ^ intLength (.ofNat x) := two_mul_lt_pow x
      have hvalue : ofBytesBE (toBytesBE (intLength (.ofNat x)) x) = x := by
        rw [ofBytesBE_toBytesBE, Nat.mod_eq_of_lt (by omega)]
      simp only [readInt, writeInt, length_toBytesBE, hvalue]
      rw [if_pos hlt]
      exact if_pos rfl
  | negSucc x =>
      have hlt : 2 * x < 256 ^ intLength (.negSucc x) := two_mul_lt_pow x
      have heven : 256 ^ intLength (.negSucc x) = 2 * (128 * 256 ^ ((x.log2 + 1) / 8)) := by
        rw [intLength, pow_succ]
        ring
      have hvalue : ofBytesBE (toBytesBE (intLength (.negSucc x)) (256 ^ intLength (.negSucc x) - 1 - x))
          = 256 ^ intLength (.negSucc x) - 1 - x := by
        rw [ofBytesBE_toBytesBE, Nat.mod_eq_of_lt (by omega)]
      obtain ⟨htop, hsigned⟩ := complement_signed heven hlt
      simp only [readInt, writeInt, length_toBytesBE, hvalue]
      rw [if_neg htop, hsigned]
      exact if_pos rfl

theorem writeInt_of_readInt {content : Bytes} {i : ℤ} (h : readInt content = some i) :
    writeInt i = content := by
  have hlt := ofBytesBE_lt content
  by_cases hsign : 2 * ofBytesBE content < 256 ^ content.length
  · simp only [readInt, if_pos hsign] at h
    split at h
    · rename_i hlength
      obtain rfl := Option.some.inj h
      change toBytesBE (intLength _) (ofBytesBE content) = content
      rw [hlength, toBytesBE_ofBytesBE]
    · cases h
  · have hneg : (ofBytesBE content : ℤ) - (256 ^ content.length : ℕ)
        = .negSucc (256 ^ content.length - 1 - ofBytesBE content) := by
      rw [Int.negSucc_eq]
      omega
    simp only [readInt, if_neg hsign, hneg] at h
    split at h
    · rename_i hlength
      obtain rfl := Option.some.inj h
      -- the complement of the complement is the value
      have hback : 256 ^ content.length - 1 - (256 ^ content.length - 1 - ofBytesBE content)
          = ofBytesBE content := by omega
      rw [writeInt, hlength, hback, toBytesBE_ofBytesBE]
    · cases h

/-! ### Sequences -/

def writeElement : Asn1Element → Bytes
  | .int value => writeTlv 0x02 (writeInt value)
  | .octets value => writeTlv 0x04 value

def readElement (b : Bytes) : Option (Asn1Element × Bytes) :=
  match readTlv b with
  | none => none
  | some (tag, content, rest) =>
      if tag = 0x02 then (readInt content).map fun value => (.int value, rest)
      else if tag = 0x04 then some (.octets content, rest)
      else none

theorem readElement_writeElement (e : Asn1Element) (rest : Bytes) :
    readElement (writeElement e ++ rest) = some (e, rest) := by
  cases e with
  | int value =>
      rw [readElement, writeElement, readTlv_writeTlv]
      simp only [if_pos, readInt_writeInt, Option.map_some]
  | octets value =>
      rw [readElement, writeElement, readTlv_writeTlv]
      rfl

theorem writeElement_of_readElement {b rest : Bytes} {e : Asn1Element}
    (h : readElement b = some (e, rest)) : b = writeElement e ++ rest := by
  unfold readElement at h
  split at h
  · cases h
  · rename_i tag content remaining htlv
    rw [writeTlv_of_readTlv htlv]
    split at h
    · rename_i htag
      obtain ⟨value, hvalue, heq⟩ := Option.map_eq_some_iff.mp h
      obtain ⟨rfl, rfl⟩ := Prod.mk.inj heq
      rw [writeElement, writeInt_of_readInt hvalue, htag]
    · split at h
      · rename_i htag
        obtain ⟨rfl, rfl⟩ := Prod.mk.inj (Option.some.inj h)
        rw [writeElement, htag]
      · cases h

theorem length_writeElement_pos (e : Asn1Element) : 0 < (writeElement e).length := by
  cases e <;> exact Nat.succ_pos _

/-- Every element takes a byte, so the length of the input is enough fuel. -/
def readElements : ℕ → Bytes → Asn1Contents
  | 0, b => ⟨[], b.isEmpty⟩
  | fuel + 1, b =>
      match readElement b with
      | none => ⟨[], b.isEmpty⟩
      | some (e, rest) =>
          let contents := readElements fuel rest
          ⟨e :: contents.elements, contents.complete⟩

theorem readElements_flatMap (es : List Asn1Element) {fuel : ℕ}
    (hfuel : (es.flatMap writeElement).length ≤ fuel) :
    readElements fuel (es.flatMap writeElement) = ⟨es, true⟩ := by
  induction es generalizing fuel with
  | nil => cases fuel <;> rfl
  | cons e es ih =>
      rw [List.flatMap_cons] at hfuel ⊢
      rw [List.length_append] at hfuel
      have hpos := length_writeElement_pos e
      cases fuel with
      | zero => omega
      | succ fuel =>
          simp only [readElements, readElement_writeElement]
          rw [ih (by omega)]

theorem flatMap_of_readElements {fuel : ℕ} {b : Bytes} {es : List Asn1Element}
    (h : readElements fuel b = ⟨es, true⟩) : b = es.flatMap writeElement := by
  have hempty : ∀ {b : Bytes} {es : List Asn1Element},
      (⟨[], b.isEmpty⟩ : Asn1Contents) = ⟨es, true⟩ → b = es.flatMap writeElement := by
    intro b es h
    obtain ⟨rfl, hnil⟩ := Asn1Contents.mk.inj h
    exact List.isEmpty_iff.mp hnil
  induction fuel generalizing b es with
  | zero => exact hempty h
  | succ fuel ih =>
      rw [readElements] at h
      split at h
      · exact hempty h
      · rename_i e rest helement
        obtain ⟨rfl, hcomplete⟩ := Asn1Contents.mk.inj h
        have hrest : readElements fuel rest = ⟨(readElements fuel rest).elements, true⟩ := by
          rw [← hcomplete]
        rw [List.flatMap_cons, writeElement_of_readElement helement, ← ih hrest]

def write (es : List Asn1Element) : Bytes := writeTlv 0x30 (es.flatMap writeElement)

def read (b : Bytes) : Option Asn1Contents :=
  match readTlv b with
  | none => none
  | some (tag, content, rest) =>
      if tag = 0x30 then
        let contents := readElements content.length content
        some ⟨contents.elements, contents.complete && rest.isEmpty⟩
      else none

/-- Reading inverts writing. -/
theorem read_write (es : List Asn1Element) : read (write es) = some ⟨es, true⟩ := by
  have h := readTlv_writeTlv 0x30 (es.flatMap writeElement) []
  rw [List.append_nil] at h
  rw [read, write, h]
  simp only [if_pos, readElements_flatMap es le_rfl]
  rfl

/-- A sequence that is read to its end is read off one encoding only. -/
theorem write_of_read {b : Bytes} {es : List Asn1Element} (h : read b = some ⟨es, true⟩) :
    write es = b := by
  unfold read at h
  split at h
  · cases h
  · rename_i tag content rest htlv
    split at h
    · rename_i htag
      obtain ⟨helements, hcomplete⟩ := Asn1Contents.mk.inj (Option.some.inj h)
      rw [Bool.and_eq_true, List.isEmpty_iff] at hcomplete
      obtain ⟨hcomplete, rfl⟩ := hcomplete
      have hcontent : readElements content.length content = ⟨es, true⟩ := by
        rw [← helements, ← hcomplete]
      rw [write, ← flatMap_of_readElements hcontent, writeTlv_of_readTlv htlv, htag, List.append_nil]
    · cases h

end Der

end QuorumCrypt
