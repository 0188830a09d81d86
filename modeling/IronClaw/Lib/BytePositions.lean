import IronClaw.Lib.Search
import IronClaw.Lib.Utf8

/-!
# Characters and bytes of a text

A scan of the bytes of a text for ASCII characters stops where the scan of its
characters does: every byte of a longer encoding is above the ASCII ones.
-/

set_option autoImplicit false

namespace Lib.BytePositions
open Lib.Text Lib.Search Lib.Utf8

def bytePos (text : List Char) (i : ℕ) : ℕ := byteLen (text.take i)

def advance {α : Type} (p : α → Bool) (xs : List α) (i : ℕ) : ℕ :=
  i+((xs.drop i).takeWhile p).length

def Low (c : Char) : Prop := c.toNat < 128

instance (c : Char) : Decidable (Low c) := inferInstanceAs (Decidable (_ < _))

def byteOf (c : Char) : UInt8 := UInt8.ofNat c.toNat

theorem encode_low (c : Char) (h : Low c) : String.utf8EncodeChar c = [byteOf c] := by
  have hle : c.val.toNat ≤ 0x7f := Nat.le_of_lt_succ h
  unfold String.utf8EncodeChar
  exact if_pos hle

theorem size_low (c : Char) (h : Low c) : c.utf8Size = 1 := by
  rw [← String.length_utf8EncodeChar, encode_low c h, List.length_singleton]

theorem encode_high (c : Char) (h : ¬ Low c) : ∀ b ∈ String.utf8EncodeChar c, 128 ≤ b.toNat := by
  have hnot : ¬ c.val.toNat ≤ 0x7f := fun hle => h (Nat.lt_succ_of_le hle)
  unfold String.utf8EncodeChar
  simp only [if_neg hnot]
  split
  · simp only [List.mem_cons, List.not_mem_nil, or_false]
    rintro b (rfl | rfl) <;> rw [UInt8.toNat_ofNat'] <;> omega
  · split
    · simp only [List.mem_cons, List.not_mem_nil, or_false]
      rintro b (rfl | rfl | rfl) <;> rw [UInt8.toNat_ofNat'] <;> omega
    · simp only [List.mem_cons, List.not_mem_nil, or_false]
      rintro b (rfl | rfl | rfl | rfl) <;> rw [UInt8.toNat_ofNat'] <;> omega

theorem byteOf_low (c : Char) (h : Low c) : (byteOf c).toNat = c.toNat := by
  rw [byteOf, UInt8.toNat_ofNat']
  exact Nat.mod_eq_of_lt (Nat.lt_trans h (by omega))

theorem byteOf_inj (a c : Char) (ha : Low a) (hc : Low c) (h : byteOf c = byteOf a) : c = a := by
  have hnat : c.toNat = a.toNat := by rw [← byteOf_low c hc, h, byteOf_low a ha]
  exact Char.toNat_inj.mp hnat

theorem length_encode (cs : List Char) : (encode cs).length = byteLen cs := by
  induction cs with
  | nil => rfl
  | cons c cs ih =>
    rw [encode_cons, List.length_append, String.length_utf8EncodeChar, ih]
    rfl

/-! ## Positions -/

section

variable (text : List Char)

theorem encode_split (i : ℕ) : encode text = encode (text.take i)++encode (text.drop i) := by
  rw [← encode_append, List.take_append_drop]

theorem drop_bytePos (i : ℕ) : (encode text).drop (bytePos text i) = encode (text.drop i) := by
  rw [encode_split text i, List.drop_left']
  rw [length_encode]
  rfl

theorem bytePos_length : bytePos text text.length = (encode text).length := by
  rw [bytePos, List.take_length, length_encode]

theorem bytePos_zero : bytePos text 0 = 0 := rfl

theorem bytePos_succ (i : ℕ) (c : Char) (h : text[i]? = some c) :
    bytePos text (i+1) = bytePos text i+c.utf8Size := by
  obtain ⟨hlt, rfl⟩ := List.getElem?_eq_some_iff.mp h
  rw [bytePos, bytePos, List.take_succ_eq_append_getElem hlt, byteLen_append]
  rfl

theorem bytePos_le (i j : ℕ) (h : i ≤ j) : bytePos text i ≤ bytePos text j := by
  obtain ⟨k, rfl⟩ := Nat.exists_eq_add_of_le h
  rw [bytePos, bytePos, List.take_add, byteLen_append]
  exact Nat.le_add_right _ _

theorem bytePos_lt (i j : ℕ) (h : i < j) (hj : j ≤ text.length) :
    bytePos text i < bytePos text j := by
  have hi : i < text.length := by omega
  have hnext := bytePos_succ text i text[i] (List.getElem?_eq_getElem hi)
  have hpos := text[i].utf8Size_pos
  have hle := bytePos_le text (i+1) j h
  omega

theorem bytePos_lt_iff (i j : ℕ) (hj : j ≤ text.length) :
    bytePos text i < bytePos text j ↔ i < j := by
  refine ⟨fun h => ?_, fun h => bytePos_lt text i j h hj⟩
  by_contra hle
  have := bytePos_le text j i (not_lt.mp hle)
  omega

theorem bytePos_le_iff (i j : ℕ) (hi : i ≤ text.length) :
    bytePos text i ≤ bytePos text j ↔ i ≤ j := by
  rw [← not_lt, bytePos_lt_iff text j i hi, not_lt]

theorem boundary_bytePos (i : ℕ) : isBoundary text (bytePos text i) = true := by
  have h := boundary_append (text.take i) (text.drop i)
  rw [List.take_append_drop] at h
  exact h

theorem sliceFrom_bytePos (i : ℕ) : sliceFrom text (bytePos text i) = some (text.drop i) := by
  have h := sliceFrom_append (text.take i) (text.drop i)
  rw [List.take_append_drop] at h
  exact h

/-! ## Bytes at positions -/

theorem byte_head (a : Char) (ha : Low a) (cs : List Char) :
    (encode cs).head? = some (byteOf a) ↔ cs.head? = some a := by
  cases cs with
  | nil => exact iff_of_false (by simp [encode]) (by simp)
  | cons c cs =>
    rw [encode_cons, List.head?_cons, Option.some.injEq]
    by_cases hc : Low c
    · rw [encode_low c hc]
      refine ⟨fun h => byteOf_inj a c ha hc (Option.some.inj h), ?_⟩
      rintro rfl
      rfl
    · refine iff_of_false (fun h => ?_) (fun h => hc (h ▸ ha))
      have hne := utf8EncodeChar_ne_nil c
      obtain ⟨b, bs, hbytes⟩ := List.exists_cons_of_ne_nil hne
      have hb := encode_high c hc b (by rw [hbytes]; exact List.mem_cons_self)
      rw [hbytes] at h
      have hsame : b = byteOf a := Option.some.inj h
      rw [hsame, byteOf_low a ha] at hb
      exact absurd ha (not_lt.mpr hb)

theorem byte_at (a : Char) (ha : Low a) (i : ℕ) :
    (encode text)[bytePos text i]? = some (byteOf a) ↔ text[i]? = some a := by
  rw [← List.head?_drop, drop_bytePos, byte_head a ha, List.head?_drop]

theorem byte_within (i m : ℕ) (c : Char) (h : text[i]? = some c) (hm : m < c.utf8Size) :
    (encode text)[bytePos text i+m]? = (String.utf8EncodeChar c)[m]? := by
  obtain ⟨hlt, rfl⟩ := List.getElem?_eq_some_iff.mp h
  rw [← List.getElem?_drop, drop_bytePos, List.drop_eq_getElem_cons hlt, encode_cons,
    List.getElem?_append_left (by rw [String.length_utf8EncodeChar]; exact hm)]

theorem byte_other (a : Char) (ha : Low a) (i m : ℕ) (c : Char) (h : text[i]? = some c)
    (hne : c ≠ a) (hm : m < c.utf8Size) : (encode text)[bytePos text i+m]? ≠ some (byteOf a) := by
  rw [byte_within text i m c h hm]
  intro hbyte
  by_cases hc : Low c
  · rw [encode_low c hc] at hbyte
    exact hne (byteOf_inj a c ha hc (List.mem_singleton.mp (List.mem_of_getElem? hbyte)).symm)
  · have hb := encode_high c hc _ (List.mem_of_getElem? hbyte)
    rw [byteOf_low a ha] at hb
    exact absurd ha (not_lt.mpr hb)

/-- The byte in front of a position is an ASCII one if the character is. -/
theorem byte_before (a : Char) (ha : Low a) (i : ℕ) (hi : 0 < i) (hle : i ≤ text.length) :
    (encode text)[bytePos text i-1]? = some (byteOf a) ↔ text[i-1]? = some a := by
  obtain ⟨j, rfl⟩ := Nat.exists_eq_add_of_le' hi
  have hlt : j < text.length := hle
  have hchar : text[j]? = some text[j] := List.getElem?_eq_getElem hlt
  have hsize := text[j].utf8Size_pos
  rw [bytePos_succ text j _ hchar, Nat.add_sub_cancel, Nat.add_sub_assoc hsize,
    byte_within text j _ _ hchar (by omega), hchar, Option.some.injEq]
  by_cases hc : Low text[j]
  · rw [size_low _ hc, encode_low _ hc]
    refine ⟨fun h => byteOf_inj a _ ha hc (Option.some.inj h), fun h => ?_⟩
    rw [h]
    rfl
  · refine iff_of_false (fun h => ?_) (fun h => hc (h ▸ ha))
    have hb := encode_high _ hc _ (List.mem_of_getElem? h)
    rw [byteOf_low a ha] at hb
    exact absurd ha (not_lt.mpr hb)

/-! ## Scans -/

structure Agrees (p : UInt8 → Bool) (q : Char → Bool) : Prop where
  low : ∀ c, Low c → p (byteOf c) = q c
  high : ∀ b : UInt8, 128 ≤ b.toNat → p b = false
  wide : ∀ c, ¬ Low c → q c = false

variable {p : UInt8 → Bool} {q : Char → Bool}

theorem agrees_of (a : Char) (ha : Low a) :
    Agrees (fun b => decide (b = byteOf a)) (fun c => decide (c = a)) where
  low c hc := by
    rw [decide_eq_decide]
    exact ⟨byteOf_inj a c ha hc, congrArg byteOf⟩
  high b hb := by
    rw [decide_eq_false_iff_not]
    rintro rfl
    rw [byteOf_low a ha] at hb
    exact absurd ha (not_lt.mpr hb)
  wide c hc := by
    rw [decide_eq_false_iff_not]
    rintro rfl
    exact hc ha

theorem Agrees.length (h : Agrees p q) (cs : List Char) :
    ((encode cs).takeWhile p).length = (cs.takeWhile q).length := by
  induction cs with
  | nil => rfl
  | cons c cs ih =>
    rw [encode_cons]
    by_cases hc : Low c
    · rw [encode_low c hc, List.singleton_append, List.takeWhile_cons, List.takeWhile_cons,
        h.low c hc]
      split
      · rw [List.length_cons, List.length_cons, ih]
      · rfl
    · obtain ⟨b, bs, hbytes⟩ := List.exists_cons_of_ne_nil (utf8EncodeChar_ne_nil c)
      have hb := h.high b (encode_high c hc b (by rw [hbytes]; exact List.mem_cons_self))
      rw [hbytes, List.cons_append, List.takeWhile_cons, List.takeWhile_cons, hb, h.wide c hc]
      rfl

theorem Agrees.ascii (h : Agrees p q) (cs : List Char) :
    byteLen (cs.takeWhile q) = (cs.takeWhile q).length := by
  refine byteLen_ascii _ (fun c hc => ?_)
  have hq := List.mem_takeWhile_imp hc
  by_cases hlow : Low c
  · exact size_low c hlow
  · rw [h.wide c hlow] at hq
    cases hq

theorem Agrees.count (h : Agrees p q) (i : ℕ) :
    bytePos text (advance q text i) = bytePos text i+(advance q text i-i) := by
  have htake : (text.drop i).take ((text.drop i).takeWhile q).length =
      (text.drop i).takeWhile q :=
    (List.prefix_iff_eq_take.mp (List.takeWhile_prefix q)).symm
  rw [advance, Nat.add_sub_cancel_left, bytePos, List.take_add, byteLen_append, htake, h.ascii]
  rfl

theorem Agrees.advance (h : Agrees p q) (i : ℕ) :
    advance p (encode text) (bytePos text i) = bytePos text (advance q text i) := by
  rw [h.count text i, BytePositions.advance, BytePositions.advance, drop_bytePos, h.length,
    Nat.add_sub_cancel_left]

theorem find_char (a : Char) (cs : List Char) :
    find [a] cs = (cs.findIdx? (fun c => c = a)).map (fun n => byteLen (cs.take n)) := by
  induction cs with
  | nil => rfl
  | cons c cs ih =>
    rw [find, List.findIdx?_cons, ih]
    by_cases hc : c = a
    · simp [hc, byteLen]
    · have hfirst : List.isPrefixOf [a] (c::cs) = false := by
        rw [List.isPrefixOf, beq_eq_false_iff_ne.mpr (Ne.symm hc), Bool.false_and]
      rw [hfirst, if_neg Bool.false_ne_true, decide_eq_false hc, if_neg Bool.false_ne_true]
      cases cs.findIdx? (fun c => c = a) <;> simp [byteLen]

end

end Lib.BytePositions
