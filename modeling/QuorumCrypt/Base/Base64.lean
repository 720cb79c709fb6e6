import Mathlib.Data.UInt
import Mathlib.Tactic.IntervalCases

/-!
# Base64 for file names and URLs

The alphabet with `-` and `_`, and padding. Three bytes become four digits; one or two bytes at the end
become two or three digits and fill up with `=`.
-/

namespace Base64

def digit (n : ℕ) : Char :=
  if n < 26 then Char.ofNat (65 + n)
  else if n < 52 then Char.ofNat (71 + n)
  else if n < 62 then Char.ofNat (n - 4)
  else if n = 62 then '-'
  else '_'

def value (c : Char) : Option ℕ :=
  if 65 ≤ c.toNat ∧ c.toNat ≤ 90 then some (c.toNat - 65)
  else if 97 ≤ c.toNat ∧ c.toNat ≤ 122 then some (c.toNat - 71)
  else if 48 ≤ c.toNat ∧ c.toNat ≤ 57 then some (c.toNat + 4)
  else if c = '-' then some 62
  else if c = '_' then some 63
  else none

theorem value_digit : ∀ n < 64, value (digit n) = some n := by decide

theorem digit_ne_pad : ∀ n < 64, digit n ≠ '=' := by decide

def encodeChars : List UInt8 → List Char
  | a :: b :: c :: rest =>
      digit (a.toNat / 4) :: digit (a.toNat % 4 * 16 + b.toNat / 16)
        :: digit (b.toNat % 16 * 4 + c.toNat / 64) :: digit (c.toNat % 64) :: encodeChars rest
  | [a, b] =>
      [digit (a.toNat / 4), digit (a.toNat % 4 * 16 + b.toNat / 16), digit (b.toNat % 16 * 4), '=']
  | [a] => [digit (a.toNat / 4), digit (a.toNat % 4 * 16), '=', '=']
  | [] => []

def decodeChars : List Char → Option (List UInt8)
  | p :: q :: r :: s :: rest => do
      let p ← value p
      let q ← value q
      let a := UInt8.ofNat (p * 4 + q / 16)
      if r = '=' then
        if s = '=' ∧ rest = [] then some [a] else none
      else
        let r ← value r
        let b := UInt8.ofNat (q % 16 * 16 + r / 4)
        if s = '=' then
          if rest = [] then some [a, b] else none
        else
          let s ← value s
          let c := UInt8.ofNat (r % 4 * 64 + s)
          let bytes ← decodeChars rest
          some (a :: b :: c :: bytes)
  | [] => some []
  | _ => none

def encode (b : List UInt8) : String := .ofList (encodeChars b)

def decode (s : String) : Option (List UInt8) := decodeChars s.toList

theorem decodeChars_encodeChars (b : List UInt8) : decodeChars (encodeChars b) = some b := by
  have hbyte : ∀ (a : UInt8) {n : ℕ}, n = a.toNat → UInt8.ofNat n = a := by
    intro a n hn
    rw [hn, UInt8.ofNat_toNat]
  induction b using encodeChars.induct with
  | case1 a b c rest ih =>
      have ha := a.toNat_lt
      have hb := b.toNat_lt
      have hc := c.toNat_lt
      have hp := value_digit (a.toNat / 4) (by omega)
      have hq := value_digit (a.toNat % 4 * 16 + b.toNat / 16) (by omega)
      have hr := value_digit (b.toNat % 16 * 4 + c.toNat / 64) (by omega)
      have hs := value_digit (c.toNat % 64) (by omega)
      have hr' := digit_ne_pad (b.toNat % 16 * 4 + c.toNat / 64) (by omega)
      have hs' := digit_ne_pad (c.toNat % 64) (by omega)
      simp only [encodeChars, decodeChars, hp, hq, hr, hs, hr', hs', ih, if_false, Option.bind_eq_bind,
        Option.bind_some]
      rw [hbyte a (by omega), hbyte b (by omega), hbyte c (by omega)]
  | case2 a b =>
      have ha := a.toNat_lt
      have hb := b.toNat_lt
      have hp := value_digit (a.toNat / 4) (by omega)
      have hq := value_digit (a.toNat % 4 * 16 + b.toNat / 16) (by omega)
      have hr := value_digit (b.toNat % 16 * 4) (by omega)
      have hr' := digit_ne_pad (b.toNat % 16 * 4) (by omega)
      simp only [encodeChars, decodeChars, hp, hq, hr, hr', if_false, if_true, Option.bind_eq_bind,
        Option.bind_some]
      rw [hbyte a (by omega), hbyte b (by omega)]
  | case3 a =>
      have ha := a.toNat_lt
      have hp := value_digit (a.toNat / 4) (by omega)
      have hq := value_digit (a.toNat % 4 * 16) (by omega)
      simp only [encodeChars, decodeChars, hp, hq, and_self, if_true, Option.bind_eq_bind,
        Option.bind_some]
      rw [hbyte a (by omega)]
  | case4 => rfl

theorem decode_encode (b : List UInt8) : decode (encode b) = some b := by
  rw [decode, encode, String.toList_ofList, decodeChars_encodeChars]

theorem encode_injective : Function.Injective encode := by
  intro b b' h
  have hdecode := congrArg decode h
  rwa [decode_encode, decode_encode, Option.some.injEq] at hdecode

example : encode [0x66, 0x6f, 0x6f, 0xff, 0xfe] = "Zm9v__4=" := by decide

end Base64
