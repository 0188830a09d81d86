import Mathlib.Algebra.Order.Group.Nat
import Mathlib.Data.List.Basic

/-!
# Lossy reading of UTF-8

A lossy reader takes a character where one is encoded, and the replacement
character for each longest piece that begins none. Bytes that are read in
pieces give the text that they encode exactly when every piece does so alone:
no reading is shorter than its bytes, and one of the same length has lost
nothing.
-/

set_option autoImplicit false

namespace Lib.Utf8

def encode (cs : List Char) : List UInt8 := cs.flatMap String.utf8EncodeChar

def firstChar (bytes : List UInt8) : Option Char := bytes.toByteArray.utf8DecodeChar? 0

def goesOn (b c : UInt8) : Bool :=
  (b == 0xE0 && 0xA0 ≤ c && c ≤ 0xBF) || (0xE1 ≤ b && b ≤ 0xEC && 0x80 ≤ c && c ≤ 0xBF) ||
  (b == 0xED && 0x80 ≤ c && c ≤ 0x9F) || (0xEE ≤ b && b ≤ 0xEF && 0x80 ≤ c && c ≤ 0xBF) ||
  (b == 0xF0 && 0x90 ≤ c && c ≤ 0xBF) || (0xF1 ≤ b && b ≤ 0xF3 && 0x80 ≤ c && c ≤ 0xBF) ||
  (b == 0xF4 && 0x80 ≤ c && c ≤ 0x8F)

def invalidLength : List UInt8 → ℕ
  | b::c::d::_ =>
    if goesOn b c then if 0xF0 ≤ b && 0x80 ≤ d && d ≤ 0xBF then 3 else 2 else 1
  | [b, c] => if goesOn b c then 2 else 1
  | _ => 1

def lossyIn : ℕ → List UInt8 → List Char
  | 0, _ => []
  | n+1, bytes =>
    if bytes = [] then []
    else match firstChar bytes with
      | some c => c::lossyIn n (bytes.drop c.utf8Size)
      | none => '\uFFFD'::lossyIn n (bytes.drop (invalidLength bytes))

def lossy (bytes : List UInt8) : List Char := lossyIn bytes.length bytes

def Whole (bytes : List UInt8) : Prop := ∃ cs, bytes = encode cs

theorem encode_append (p q : List Char) : encode (p++q) = encode p++encode q :=
  List.flatMap_append

theorem encode_cons (c : Char) (cs : List Char) :
    encode (c::cs) = String.utf8EncodeChar c++encode cs := List.flatMap_cons

theorem encode_flatten (ps : List (List Char)) :
    encode ps.flatten = (ps.map encode).flatten := by
  induction ps with
  | nil => rfl
  | cons p ps ih => rw [List.flatten_cons, encode_append, ih, List.map_cons, List.flatten_cons]

theorem utf8EncodeChar_ne_nil (c : Char) : String.utf8EncodeChar c ≠ [] := by
  intro hnil
  have hlen := String.length_utf8EncodeChar c
  have hpos := c.utf8Size_pos
  rw [hnil, List.length_nil] at hlen
  omega

theorem firstChar_encoded (c : Char) (rest : List UInt8) :
    firstChar (String.utf8EncodeChar c++rest) = some c := by
  rw [firstChar, List.toByteArray_append]
  exact ByteArray.utf8DecodeChar?_utf8EncodeChar_append

variable (pieces : List (List UInt8)) (bytes : List UInt8)

theorem invalidLength_pos : 1 ≤ invalidLength bytes := by
  unfold invalidLength
  split
  · split
    · split <;> omega
    · omega
  · split <;> omega
  · omega

theorem invalidLength_le : invalidLength bytes ≤ 3 := by
  unfold invalidLength
  split
  · split
    · split <;> omega
    · omega
  · split <;> omega
  · omega

theorem lossyIn_encode (cs : List Char) (n : ℕ) (hn : (encode cs).length ≤ n) :
    lossyIn n (encode cs) = cs := by
  induction cs generalizing n with
  | nil => cases n <;> rfl
  | cons c cs ih =>
    have hpos := c.utf8Size_pos
    rw [encode_cons, List.length_append, String.length_utf8EncodeChar] at hn
    obtain ⟨m, rfl⟩ := Nat.exists_eq_add_of_le' (Nat.le_trans (by omega : 1 ≤ _) hn)
    have hne : encode (c::cs) ≠ [] := by
      rw [encode_cons]
      exact List.append_ne_nil_of_left_ne_nil (utf8EncodeChar_ne_nil c) _
    have hdrop : (encode (c::cs)).drop c.utf8Size = encode cs := by
      rw [encode_cons]
      exact List.drop_left' (String.length_utf8EncodeChar c)
    have hfirst : firstChar (encode (c::cs)) = some c := by
      rw [encode_cons]
      exact firstChar_encoded c _
    rw [lossyIn, if_neg hne, hfirst]
    show c::lossyIn m ((encode (c::cs)).drop c.utf8Size) = c::cs
    rw [hdrop, ih m (by omega)]

theorem lossy_encode (cs : List Char) : lossy (encode cs) = cs :=
  lossyIn_encode cs _ (Nat.le_refl _)

theorem encode_injective (p q : List Char) (h : encode p = encode q) : p = q := by
  rw [← lossy_encode p, h, lossy_encode]

theorem length_lossyIn (n : ℕ) (bytes : List UInt8) (hn : bytes.length ≤ n) :
    bytes.length ≤ (encode (lossyIn n bytes)).length := by
  induction n generalizing bytes with
  | zero =>
    rw [Nat.le_zero.mp hn]
    exact Nat.zero_le _
  | succ n ih =>
    by_cases hne : bytes = []
    · rw [hne]
      exact Nat.zero_le _
    · rw [lossyIn, if_neg hne]
      split
      · rename_i c _
        have hpos := c.utf8Size_pos
        have hrest := ih (bytes.drop c.utf8Size) (by rw [List.length_drop]; omega)
        rw [List.length_drop] at hrest
        rw [encode_cons, List.length_append, String.length_utf8EncodeChar]
        omega
      · have hpos := invalidLength_pos bytes
        have hle := invalidLength_le bytes
        have hrest := ih (bytes.drop (invalidLength bytes)) (by rw [List.length_drop]; omega)
        have hsize : '\uFFFD'.utf8Size = 3 := rfl
        rw [List.length_drop] at hrest
        rw [encode_cons, List.length_append, String.length_utf8EncodeChar, hsize]
        omega

theorem length_lossy : bytes.length ≤ (encode (lossy bytes)).length :=
  length_lossyIn _ bytes (Nat.le_refl _)

theorem length_pieces :
    pieces.flatten.length ≤ (encode (pieces.map lossy).flatten).length := by
  induction pieces with
  | nil => exact Nat.zero_le _
  | cons p pieces ih =>
    have hp := length_lossy p
    rw [List.flatten_cons, List.map_cons, List.flatten_cons, encode_append, List.length_append,
      List.length_append]
    omega

/-- Pieces whose readings encode the same bytes have each been read whole. -/
theorem whole_of_same (h : encode (pieces.map lossy).flatten = pieces.flatten) :
    ∀ p ∈ pieces, Whole p := by
  induction pieces with
  | nil => exact fun p hp => absurd hp List.not_mem_nil
  | cons p pieces ih =>
    rw [List.map_cons, List.flatten_cons, encode_append, List.flatten_cons] at h
    have hlen := congrArg List.length h
    have hp := length_lossy p
    have hrest := length_pieces pieces
    rw [List.length_append, List.length_append] at hlen
    obtain ⟨hfirst, hlater⟩ := List.append_inj h (by omega)
    intro q hq
    rcases List.mem_cons.mp hq with rfl | hq
    · exact ⟨lossy q, hfirst.symm⟩
    · exact ih hlater q hq

theorem same_of_whole (h : ∀ p ∈ pieces, Whole p) :
    encode (pieces.map lossy).flatten = pieces.flatten := by
  rw [encode_flatten, List.map_map]
  congr 1
  rw [List.map_congr_left (g := id), List.map_id]
  intro p hp
  obtain ⟨cs, rfl⟩ := h p hp
  exact congrArg encode (lossy_encode cs)

theorem lossy_pieces (text : List Char) (h : pieces.flatten = encode text) :
    (pieces.map lossy).flatten = text ↔ ∀ p ∈ pieces, Whole p := by
  constructor
  · intro hread
    exact whole_of_same pieces (by rw [hread, h])
  · intro hwhole
    exact encode_injective _ _ ((same_of_whole pieces hwhole).trans h)

end Lib.Utf8
