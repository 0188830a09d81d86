import IronClaw.HttpExecute
import IronClaw.Lib.Base64

/-!
# Base64 written by hand

`base64_encode` of `tools/wasm/credential_injector.rs`: a loop over the bytes in
steps of three, with zeros for the bytes that are missing and a test for each
sign of padding. Reading the alphabet out of its bounds would panic.
-/

set_option autoImplicit false

namespace IronClaw.CredentialBase64
open IronClaw.HttpExecute Lib.Base64

def alphabetAt (i : UInt8) : Option Char := base64Alphabet[i.toNat]?

def byteAt (input : List UInt8) (i : ℕ) : UInt8 := if i < input.length then input.getD i 0 else 0

def encodeGroup (input : List UInt8) (i : ℕ) : Option (List Char) := do
  let b0 := byteAt input i
  let b1 := byteAt input (i+1)
  let b2 := byteAt input (i+2)
  let c0 ← alphabetAt (b0 >>> 2)
  let c1 ← alphabetAt (((b0 &&& 0x03) <<< 4) ||| (b1 >>> 4))
  let c2 ← (if i+1 < input.length then alphabetAt (((b1 &&& 0x0f) <<< 2) ||| (b2 >>> 6))
    else some '=')
  let c3 ← (if i+2 < input.length then alphabetAt (b2 &&& 0x3f) else some '=')
  some [c0, c1, c2, c3]

def encodeLoop (input : List UInt8) (i : ℕ) (result : List Char) : Option (List Char) :=
  if i < input.length then
    (encodeGroup input i).bind (fun group => encodeLoop input (i+3) (result++group))
  else some result
termination_by input.length-i

def base64EncodeBytes (input : List UInt8) : Option (List Char) := encodeLoop input 0 []

theorem letters : (List.finRange 64).map letter = base64Alphabet := by decide

theorem alphabetAt_letter (i : UInt8) (h : i.toNat < 64) :
    alphabetAt i = some (letter ⟨i.toNat, h⟩) := by
  have hlen : i.toNat < (List.finRange 64).length := by rw [List.length_finRange]; exact h
  rw [alphabetAt, ← letters, List.getElem?_map, List.getElem?_eq_getElem hlen,
    List.getElem_finRange]
  rfl

section bits

variable (b0 b1 b2 : UInt8)

theorem joined_bits (a b k : UInt8) (hk : k.toNat < 8) (ha : a.toNat*2^k.toNat < 256)
    (hb : b.toNat < 2^k.toNat) : ((a <<< k) ||| b).toNat = a.toNat*2^k.toNat+b.toNat := by
  have hshift : (a <<< k).toNat = a.toNat <<< k.toNat := by
    rw [UInt8.toNat_shiftLeft, Nat.mod_eq_of_lt hk, Nat.shiftLeft_eq, Nat.mod_eq_of_lt ha]
  rw [UInt8.toNat_or, hshift, ← Nat.shiftLeft_add_eq_or_of_lt hb, Nat.shiftLeft_eq]

theorem shifted_bits (b k : UInt8) (hk : k.toNat < 8) : (b >>> k).toNat = b.toNat/2^k.toNat := by
  rw [UInt8.toNat_shiftRight, Nat.mod_eq_of_lt hk, Nat.shiftRight_eq_div_pow]

theorem masked_bits (b : UInt8) (m : UInt8) (n : ℕ) (hm : m.toNat = 2^n-1) :
    (b &&& m).toNat = b.toNat%2^n := by
  rw [UInt8.toNat_and, hm, Nat.and_two_pow_sub_one_eq_mod]

theorem first_bits : (b0 >>> 2).toNat = b0.toNat/4 := shifted_bits b0 2 (by decide)

theorem second_bits : (((b0 &&& 0x03) <<< 4) ||| (b1 >>> 4)).toNat =
    b0.toNat%4*16+b1.toNat/16 := by
  have hlow : (b0 &&& 0x03).toNat = b0.toNat%4 := masked_bits b0 3 2 rfl
  have hhigh : (b1 >>> 4).toNat = b1.toNat/16 := shifted_bits b1 4 (by decide)
  have h1 := b1.toNat_lt
  have hfour : (4 : UInt8).toNat = 4 := rfl
  rw [joined_bits _ _ 4 (by decide) (by rw [hlow, hfour]; omega) (by rw [hhigh, hfour]; omega),
    hlow, hhigh, hfour]
  rfl

theorem third_bits : (((b1 &&& 0x0f) <<< 2) ||| (b2 >>> 6)).toNat =
    b1.toNat%16*4+b2.toNat/64 := by
  have hlow : (b1 &&& 0x0f).toNat = b1.toNat%16 := masked_bits b1 15 4 rfl
  have hhigh : (b2 >>> 6).toNat = b2.toNat/64 := shifted_bits b2 6 (by decide)
  have h2 := b2.toNat_lt
  have htwo : (2 : UInt8).toNat = 2 := rfl
  rw [joined_bits _ _ 2 (by decide) (by rw [hlow, htwo]; omega) (by rw [hhigh, htwo]; omega),
    hlow, hhigh, htwo]
  rfl

theorem fourth_bits : (b2 &&& 0x3f).toNat = b2.toNat%64 := masked_bits b2 63 6 rfl

theorem alphabetAt_digit (i : UInt8) (n : ℕ) (h : i.toNat = n%64) :
    alphabetAt i = some (letter (Fin.ofNat 64 n)) := by
  have hlt : i.toNat < 64 := by omega
  have hsame : (⟨i.toNat, hlt⟩ : Fin 64) = Fin.ofNat 64 n := Fin.ext h
  rw [alphabetAt_letter i hlt, hsame]

end bits

theorem byteAt_drop (input : List UInt8) (i k : ℕ) :
    byteAt input (i+k) = (input.drop i).getD k 0 := by
  unfold byteAt
  split
  · rw [List.getD_eq_getElem?_getD, List.getD_eq_getElem?_getD, List.getElem?_drop]
  · next hend =>
    rw [List.getD_eq_getElem?_getD, List.getElem?_drop, List.getElem?_eq_none (by omega)]
    rfl

/-- The body never reads the alphabet out of its bounds, and spells its group. -/
theorem group_quantum (input : List UInt8) (i : ℕ) (h : i < input.length) :
    encodeGroup input i = some (quantum ((input.drop i).take 3)) := by
  have hlen : (input.drop i).length = input.length-i := List.length_drop
  have h0 := byteAt_drop input i 0
  have h1 := byteAt_drop input i 1
  have h2 := byteAt_drop input i 2
  rw [Nat.add_zero] at h0
  simp only [encodeGroup, h0, h1, h2]
  match hrest : input.drop i with
  | [] =>
    rw [hrest, List.length_nil] at hlen
    omega
  | [b0] =>
    rw [hrest, List.length_singleton] at hlen
    have hb := b0.toNat_lt
    rw [if_neg (by omega), if_neg (by omega), List.take_of_length_le (by simp), quantum_one,
      List.getD_cons_zero, alphabetAt_digit (b0 >>> 2) (b0.toNat*16/64) (by rw [first_bits]; omega),
      alphabetAt_digit _ (b0.toNat*16) (by rw [second_bits]; simp; omega)]
    rfl
  | [b0, b1] =>
    rw [hrest, List.length_cons, List.length_singleton] at hlen
    have hb0 := b0.toNat_lt
    have hb1 := b1.toNat_lt
    rw [if_pos (by omega), if_neg (by omega), List.take_of_length_le (by simp), quantum_two,
      List.getD_cons_zero, List.getD_cons_succ, List.getD_cons_zero,
      alphabetAt_digit (b0 >>> 2) ((256*b0.toNat+b1.toNat)*4/64/64) (by rw [first_bits]; omega),
      alphabetAt_digit _ ((256*b0.toNat+b1.toNat)*4/64) (by rw [second_bits]; omega),
      alphabetAt_digit _ ((256*b0.toNat+b1.toNat)*4) (by rw [third_bits]; simp; omega)]
    rfl
  | b0::b1::b2::rest =>
    rw [hrest, List.length_cons, List.length_cons, List.length_cons] at hlen
    have hb0 := b0.toNat_lt
    have hb1 := b1.toNat_lt
    have hb2 := b2.toNat_lt
    obtain ⟨n, hn⟩ : ∃ n, n = 256*(256*b0.toNat+b1.toNat)+b2.toNat := ⟨_, rfl⟩
    rw [if_pos (by omega), if_pos (by omega), List.take_succ_cons, List.take_succ_cons,
      List.take_succ_cons, List.take_zero, quantum_three, ← hn, List.getD_cons_zero,
      List.getD_cons_succ, List.getD_cons_zero, List.getD_cons_succ, List.getD_cons_succ,
      List.getD_cons_zero,
      alphabetAt_digit (b0 >>> 2) (n/64/64/64) (by rw [first_bits]; omega),
      alphabetAt_digit _ (n/64/64) (by rw [second_bits]; omega),
      alphabetAt_digit _ (n/64) (by rw [third_bits]; omega),
      alphabetAt_digit (b2 &&& 0x3f) n (by rw [fourth_bits]; omega)]
    rfl

theorem encode_group (bytes : List UInt8) (h : bytes ≠ []) :
    encode bytes = quantum (bytes.take 3)++encode (bytes.drop 3) := by
  match bytes with
  | [] => exact absurd rfl h
  | [b0] => simp [encode]
  | [b0, b1] => simp [encode]
  | b0::b1::b2::rest => rfl

theorem loop_encode (input : List UInt8) (i : ℕ) (result : List Char) :
    encodeLoop input i result = some (result++encode (input.drop i)) := by
  induction i, result using encodeLoop.induct input with
  | case1 i result h ih =>
    have hne : input.drop i ≠ [] := by
      intro hnil
      rw [List.drop_eq_nil_iff] at hnil
      omega
    rw [encodeLoop, if_pos h, group_quantum input i h, Option.bind_some, ih,
      encode_group (input.drop i) hne, List.drop_drop, List.append_assoc]
  | case2 i result h =>
    rw [encodeLoop, if_neg h, List.drop_eq_nil_of_le (by omega), encode, List.append_nil]

/-- For all bytes the loop comes to an end without a read out of bounds, and
writes the padded text of the standard. -/
theorem base64_standard (input : List UInt8) :
    ∃ text, base64EncodeBytes input = some text ∧ text = encode input ∧
      text.length = 4*((input.length+2)/3) ∧ decode text = some input := by
  refine ⟨encode input, ?_, rfl, length_encode input, decode_encode input⟩
  rw [base64EncodeBytes, loop_encode, List.drop_zero, List.nil_append]

end IronClaw.CredentialBase64
