import Mathlib.Algebra.GroupWithZero.Nat
import Mathlib.Data.Fin.Basic
import Mathlib.Data.List.Basic

/-!
# Base64

Three bytes are a number of 24 bits, which four digits to the base 64 spell
from the left. A last group of one or two bytes is filled with zero bits up to
the next digit, and signs of padding stand for the missing digits. The decoder
takes padding at the end only, and zeros for the filling.
-/

set_option autoImplicit false

namespace Lib.Base64

def padding : Char := '='

def letter (n : Fin 64) : Char :=
  if n.val < 26 then Char.ofNat (65+n.val)
  else if n.val < 52 then Char.ofNat (97+(n.val-26))
  else if n.val < 62 then Char.ofNat (48+(n.val-52))
  else if n.val = 62 then '+' else '/'

def value (c : Char) : Option (Fin 64) :=
  if 65 ≤ c.toNat ∧ c.toNat ≤ 90 then some (Fin.ofNat 64 (c.toNat-65))
  else if 97 ≤ c.toNat ∧ c.toNat ≤ 122 then some (Fin.ofNat 64 (c.toNat-97+26))
  else if 48 ≤ c.toNat ∧ c.toNat ≤ 57 then some (Fin.ofNat 64 (c.toNat-48+52))
  else if c = '+' then some 62
  else if c = '/' then some 63
  else none

def digits : ℕ → ℕ → List (Fin 64)
  | 0, _ => []
  | k+1, n => digits k (n/64)++[Fin.ofNat 64 n]

def number (bytes : List UInt8) : ℕ := bytes.foldl (fun n b => 256*n+b.toNat) 0

def quantum (bytes : List UInt8) : List Char :=
  (digits (bytes.length+1) (number bytes*4^(3-bytes.length))).map letter++
    List.replicate (3-bytes.length) padding

def encode : List UInt8 → List Char
  | [] => []
  | [b0] => quantum [b0]
  | [b0, b1] => quantum [b0, b1]
  | b0::b1::b2::bytes => quantum [b0, b1, b2]++encode bytes

def decode : List Char → Option (List UInt8)
  | [] => some []
  | c0::c1::c2::c3::rest =>
    if rest = [] ∧ c2 = padding ∧ c3 = padding then do
      let n := 64*(← value c0).val+(← value c1).val
      if n%16 = 0 then some [UInt8.ofNat (n/16)] else none
    else if rest = [] ∧ c3 = padding then do
      let n := 64*(64*(← value c0).val+(← value c1).val)+(← value c2).val
      if n%4 = 0 then some [UInt8.ofNat (n/1024), UInt8.ofNat (n/4)] else none
    else do
      let n := 64*(64*(64*(← value c0).val+(← value c1).val)+(← value c2).val)+(← value c3).val
      let bytes ← decode rest
      some (UInt8.ofNat (n/65536)::UInt8.ofNat (n/256)::UInt8.ofNat n::bytes)
  | _ => none

theorem value_letter (n : Fin 64) : value (letter n) = some n := by
  revert n
  decide

theorem letter_padding (n : Fin 64) : letter n ≠ padding := by
  revert n
  decide

theorem length_quantum (bytes : List UInt8) (h : bytes.length ≤ 3) :
    (quantum bytes).length = 4 := by
  have hdigits (k n : ℕ) : (digits k n).length = k := by
    induction k generalizing n with
    | zero => rfl
    | succ k ih => rw [digits, List.length_append, ih]; rfl
  rw [quantum, List.length_append, List.length_map, hdigits, List.length_replicate]
  omega

theorem length_encode (bytes : List UInt8) :
    (encode bytes).length = 4*((bytes.length+2)/3) := by
  induction bytes using encode.induct with
  | case1 => rfl
  | case2 b0 => rw [encode, length_quantum [b0] (by simp), List.length_singleton]
  | case3 b0 b1 => simp [encode, length_quantum]
  | case4 b0 b1 b2 bytes ih =>
    have hgroup := length_quantum [b0, b1, b2] (by simp)
    rw [encode, List.length_append, hgroup, ih, List.length_cons, List.length_cons,
      List.length_cons]
    omega

theorem quantum_one (b0 : UInt8) : quantum [b0] =
    [letter (Fin.ofNat 64 (b0.toNat*16/64)), letter (Fin.ofNat 64 (b0.toNat*16)), padding,
      padding] := by
  simp [quantum, digits, number]

theorem quantum_two (b0 b1 : UInt8) : quantum [b0, b1] =
    [letter (Fin.ofNat 64 ((256*b0.toNat+b1.toNat)*4/64/64)),
      letter (Fin.ofNat 64 ((256*b0.toNat+b1.toNat)*4/64)),
      letter (Fin.ofNat 64 ((256*b0.toNat+b1.toNat)*4)), padding] := by
  simp [quantum, digits, number]

theorem quantum_three (b0 b1 b2 : UInt8) : quantum [b0, b1, b2] =
    [letter (Fin.ofNat 64 ((256*(256*b0.toNat+b1.toNat)+b2.toNat)/64/64/64)),
      letter (Fin.ofNat 64 ((256*(256*b0.toNat+b1.toNat)+b2.toNat)/64/64)),
      letter (Fin.ofNat 64 ((256*(256*b0.toNat+b1.toNat)+b2.toNat)/64)),
      letter (Fin.ofNat 64 (256*(256*b0.toNat+b1.toNat)+b2.toNat))] := by
  simp [quantum, digits, number]

theorem ofNat_byte (b : UInt8) (n : ℕ) (h : n%256 = b.toNat) : UInt8.ofNat n = b := by
  apply UInt8.toNat_inj.mp
  rw [UInt8.toNat_ofNat', ← h]

/-- The decoder takes every text back. -/
theorem decode_encode (bytes : List UInt8) : decode (encode bytes) = some bytes := by
  induction bytes using encode.induct with
  | case1 => rfl
  | case2 b0 =>
    have h0 := b0.toNat_lt
    rw [encode, quantum_one, decode, if_pos ⟨rfl, rfl, rfl⟩]
    simp only [value_letter, Option.bind_eq_bind, Option.bind_some, Fin.val_ofNat]
    rw [if_pos (by omega), ofNat_byte b0 _ (by omega)]
  | case3 b0 b1 =>
    have h0 := b0.toNat_lt
    have h1 := b1.toNat_lt
    rw [encode, quantum_two, decode, if_neg (fun h => letter_padding _ h.2.1), if_pos ⟨rfl, rfl⟩]
    simp only [value_letter, Option.bind_eq_bind, Option.bind_some, Fin.val_ofNat]
    rw [if_pos (by omega), ofNat_byte b0 _ (by omega), ofNat_byte b1 _ (by omega)]
  | case4 b0 b1 b2 bytes ih =>
    have h0 := b0.toNat_lt
    have h1 := b1.toNat_lt
    have h2 := b2.toNat_lt
    rw [encode, quantum_three, List.cons_append, List.cons_append, List.cons_append,
      List.cons_append, List.nil_append, decode, if_neg (fun h => letter_padding _ h.2.1),
      if_neg (fun h => letter_padding _ h.2)]
    simp only [value_letter, ih, Option.bind_eq_bind, Option.bind_some, Fin.val_ofNat]
    rw [ofNat_byte b0 _ (by omega), ofNat_byte b1 _ (by omega), ofNat_byte b2 _ (by omega)]

end Lib.Base64
