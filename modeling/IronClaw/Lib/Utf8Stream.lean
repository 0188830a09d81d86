import IronClaw.Lib.Utf8

/-!
# UTF-8 in pieces

Bytes that arrive in pieces are read up to the last whole character of each
piece, and what is left is read again in front of the next one. A text that
was encoded comes out character by character wherever its bytes were cut, and
no more than three bytes are ever left.
-/

set_option autoImplicit false

namespace Lib.Utf8

def errorLength : List UInt8 → Option ℕ
  | [b] => if 0xC2 ≤ b && b ≤ 0xF4 then none else some 1
  | [b, c] => if goesOn b c then none else some 1
  | [b, c, d] =>
    if goesOn b c then if 0xF0 ≤ b && 0x80 ≤ d && d ≤ 0xBF then none else some 2 else some 1
  | bytes => some (invalidLength bytes)

def validIn : ℕ → List UInt8 → List Char × List UInt8
  | 0, bytes => ([], bytes)
  | n+1, bytes =>
    match firstChar bytes with
    | some c => (c::(validIn n (bytes.drop c.utf8Size)).1, (validIn n (bytes.drop c.utf8Size)).2)
    | none => ([], bytes)

def valid (bytes : List UInt8) : List Char × List UInt8 := validIn bytes.length bytes

theorem firstChar_append (bytes more : List UInt8) (c : Char) (h : firstChar bytes = some c) :
    firstChar (bytes++more) = some c := by
  rw [firstChar, List.toByteArray_append]
  exact ByteArray.utf8DecodeChar?_append_eq_some h _

theorem firstChar_nil : firstChar [] = none := rfl

theorem goesOn_three (v : ℕ) (hlow : 0x7ff < v) (hhigh : v ≤ 0xffff)
    (hv : v < 0xd800 ∨ 0xdfff < v) :
    goesOn (UInt8.ofNat (v/4096 % 16+0xe0)) (UInt8.ofNat (v/64 % 64+0x80)) = true := by
  simp only [goesOn, Bool.or_eq_true, Bool.and_eq_true, decide_eq_true_eq, beq_iff_eq,
    UInt8.le_iff_toNat_le, ← UInt8.toNat_inj, UInt8.toNat_ofNat', UInt8.reduceToNat]
  omega

theorem goesOn_four (v : ℕ) (hlow : 0xffff < v) (hhigh : v < 0x110000) :
    goesOn (UInt8.ofNat (v/262144 % 8+0xf0)) (UInt8.ofNat (v/4096 % 64+0x80)) = true := by
  simp only [goesOn, Bool.or_eq_true, Bool.and_eq_true, decide_eq_true_eq, beq_iff_eq,
    UInt8.le_iff_toNat_le, ← UInt8.toNat_inj, UInt8.toNat_ofNat', UInt8.reduceToNat]
  omega

theorem lead_open (n : ℕ) (h : 0xC2 ≤ n ∧ n ≤ 0xF4) : errorLength [UInt8.ofNat n] = none := by
  have hn : (UInt8.ofNat n).toNat = n := by
    rw [UInt8.toNat_ofNat']
    omega
  simp only [errorLength, UInt8.le_iff_toNat_le, UInt8.reduceToNat, hn]
  simp [h]

theorem third_open (n m : ℕ) (c : UInt8) (hc : goesOn (UInt8.ofNat n) c = true)
    (hn : 0xF0 ≤ n ∧ n ≤ 0xFF) (hm : 0x80 ≤ m ∧ m ≤ 0xBF) :
    errorLength [UInt8.ofNat n, c, UInt8.ofNat m] = none := by
  have hn' : (UInt8.ofNat n).toNat = n := by
    rw [UInt8.toNat_ofNat']
    omega
  have hm' : (UInt8.ofNat m).toNat = m := by
    rw [UInt8.toNat_ofNat']
    omega
  simp only [errorLength, UInt8.le_iff_toNat_le, UInt8.reduceToNat, hc, hn', hm']
  simp [hn, hm]

/-- A character that is torn may still go on. -/
theorem torn_open (x : Char) (a b : List UInt8) (h : String.utf8EncodeChar x = a++b)
    (ha : a ≠ []) (hb : b ≠ []) : errorLength a = none := by
  have hvalid : x.val.toNat < 0xd800 ∨ 0xdfff < x.val.toNat ∧ x.val.toNat < 0x110000 := x.valid
  unfold String.utf8EncodeChar at h
  generalize x.val.toNat = v at h hvalid
  obtain ⟨p, a, rfl⟩ := List.exists_cons_of_ne_nil ha
  dsimp only at h
  split at h
  · obtain ⟨-, hrest⟩ := List.cons.inj h
    obtain ⟨-, rfl⟩ := List.append_eq_nil_iff.mp hrest.symm
    exact absurd rfl hb
  · split at h
    · obtain ⟨rfl, hrest⟩ := List.cons.inj h
      cases a with
      | nil => exact lead_open _ (by omega)
      | cons q a =>
        obtain ⟨-, hrest⟩ := List.cons.inj hrest
        obtain ⟨-, rfl⟩ := List.append_eq_nil_iff.mp hrest.symm
        exact absurd rfl hb
    · split at h
      · have hgoes := goesOn_three v (by omega) (by omega) (by omega)
        obtain ⟨rfl, hrest⟩ := List.cons.inj h
        rcases a with _ | ⟨q, _ | ⟨r, a⟩⟩
        · exact lead_open _ (by omega)
        · obtain ⟨rfl, -⟩ := List.cons.inj hrest
          exact if_pos hgoes
        · obtain ⟨-, hrest⟩ := List.cons.inj hrest
          obtain ⟨-, hrest⟩ := List.cons.inj hrest
          obtain ⟨-, rfl⟩ := List.append_eq_nil_iff.mp hrest.symm
          exact absurd rfl hb
      · have hgoes := goesOn_four v (by omega) (by omega)
        obtain ⟨rfl, hrest⟩ := List.cons.inj h
        rcases a with _ | ⟨q, _ | ⟨r, _ | ⟨t, a⟩⟩⟩
        · exact lead_open _ (by omega)
        · obtain ⟨rfl, -⟩ := List.cons.inj hrest
          exact if_pos hgoes
        · obtain ⟨rfl, hlater⟩ := List.cons.inj hrest
          obtain ⟨rfl, -⟩ := List.cons.inj hlater
          exact third_open _ _ _ hgoes (by omega) (by omega)
        · obtain ⟨-, hrest⟩ := List.cons.inj hrest
          obtain ⟨-, hrest⟩ := List.cons.inj hrest
          obtain ⟨-, hrest⟩ := List.cons.inj hrest
          obtain ⟨-, rfl⟩ := List.append_eq_nil_iff.mp hrest.symm
          exact absurd rfl hb

theorem torn_first (x : Char) (a b : List UInt8) (h : String.utf8EncodeChar x = a++b)
    (hb : b ≠ []) : firstChar a = none := by
  cases hfirst : firstChar a with
  | none => rfl
  | some c =>
    have hwhole := firstChar_append a b c hfirst
    rw [← h, ← List.append_nil (String.utf8EncodeChar x), firstChar_encoded] at hwhole
    obtain rfl := Option.some.inj hwhole
    have hsize := ByteArray.le_size_of_utf8DecodeChar?_eq_some hfirst
    have hlen := congrArg List.length h
    have hpos := List.length_pos_of_ne_nil hb
    rw [String.length_utf8EncodeChar, List.length_append] at hlen
    rw [List.size_toByteArray] at hsize
    omega

structure Cut (n : ℕ) (bytes more : List UInt8) (cs back : List Char) : Prop where
  text : cs = (validIn n bytes).1++back
  rest : (validIn n bytes).2++more = encode back
  short : (validIn n bytes).2.length ≤ 3
  torn : (validIn n bytes).2 ≠ [] → errorLength (validIn n bytes).2 = none

theorem validIn_cut (n : ℕ) (bytes more : List UInt8) (cs : List Char) (hn : bytes.length ≤ n)
    (h : bytes++more = encode cs) : ∃ back, Cut n bytes more cs back := by
  induction n generalizing bytes cs with
  | zero =>
    obtain rfl : bytes = [] := List.eq_nil_of_length_eq_zero (Nat.le_zero.mp hn)
    exact ⟨cs, rfl, h, by simp [validIn], fun hne => absurd rfl hne⟩
  | succ n ih =>
    cases cs with
    | nil =>
      obtain ⟨rfl, -⟩ := List.append_eq_nil_iff.mp h
      exact ⟨[], rfl, h, by simp [validIn, firstChar_nil], fun hne => absurd rfl hne⟩
    | cons x cs =>
      have whole : ∀ rest, bytes = String.utf8EncodeChar x++rest → rest++more = encode cs →
          ∃ back, Cut (n+1) bytes more (x::cs) back := by
        rintro rest rfl hrest
        have hdrop : (String.utf8EncodeChar x++rest).drop x.utf8Size = rest :=
          List.drop_left' (String.length_utf8EncodeChar x)
        have hread : validIn (n+1) (String.utf8EncodeChar x++rest) =
            (x::(validIn n rest).1, (validIn n rest).2) := by
          rw [validIn, firstChar_encoded]
          simp only [hdrop]
        have hpos := x.utf8Size_pos
        rw [List.length_append, String.length_utf8EncodeChar] at hn
        obtain ⟨back, hback⟩ := ih rest cs (by omega) hrest
        refine ⟨back, ?_, ?_, ?_, ?_⟩ <;> rw [hread]
        · exact congrArg (List.cons x) hback.text
        · exact hback.rest
        · exact hback.short
        · exact hback.torn
      have hx := h
      rw [encode_cons] at hx
      rcases List.append_eq_append_iff.mp hx with ⟨torn, htorn, hmore⟩ | ⟨rest, hbytes, hrest⟩
      · by_cases hb : torn = []
        · subst hb
          exact whole [] (by rw [htorn, List.append_nil, List.append_nil]) hmore
        · have hread : validIn (n+1) bytes = ([], bytes) := by
            rw [validIn, torn_first x bytes torn htorn hb]
          have hlen := congrArg List.length htorn
          have hpos := List.length_pos_of_ne_nil hb
          have hsize := x.utf8Size_le_four
          rw [String.length_utf8EncodeChar, List.length_append] at hlen
          refine ⟨x::cs, ?_, ?_, ?_, ?_⟩ <;> rw [hread]
          · rfl
          · exact h
          · change bytes.length ≤ 3
            omega
          · exact fun hne => torn_open x bytes torn htorn hne hb
      · exact whole rest hbytes hrest.symm

theorem valid_cut (bytes more : List UInt8) (cs : List Char) (h : bytes++more = encode cs) :
    ∃ back, Cut bytes.length bytes more cs back :=
  validIn_cut _ bytes more cs (Nat.le_refl _) h

theorem validIn_stops (n : ℕ) (bytes : List UInt8) (hn : bytes.length ≤ n) :
    firstChar (validIn n bytes).2 = none := by
  induction n generalizing bytes with
  | zero =>
    obtain rfl : bytes = [] := List.eq_nil_of_length_eq_zero (Nat.le_zero.mp hn)
    exact firstChar_nil
  | succ n ih =>
    rw [validIn]
    split
    · next c hc =>
      have hpos := c.utf8Size_pos
      exact ih _ (by rw [List.length_drop]; omega)
    · next hnone => exact hnone

theorem lossyIn_enough (n m : ℕ) (bytes : List UInt8) (hn : bytes.length ≤ n)
    (hm : bytes.length ≤ m) : lossyIn n bytes = lossyIn m bytes := by
  induction n generalizing m bytes with
  | zero =>
    obtain rfl : bytes = [] := List.eq_nil_of_length_eq_zero (Nat.le_zero.mp hn)
    cases m <;> rfl
  | succ n ih =>
    cases m with
    | zero =>
      obtain rfl : bytes = [] := List.eq_nil_of_length_eq_zero (Nat.le_zero.mp hm)
      rfl
    | succ m =>
      rw [lossyIn, lossyIn]
      split
      · rfl
      · cases firstChar bytes with
        | some c =>
          have hpos := c.utf8Size_pos
          dsimp only
          rw [ih m _ (by rw [List.length_drop]; omega) (by rw [List.length_drop]; omega)]
        | none =>
          have hpos := invalidLength_pos bytes
          dsimp only
          rw [ih m _ (by rw [List.length_drop]; omega) (by rw [List.length_drop]; omega)]

/-- A text in front of other bytes is read by itself. -/
theorem lossy_encoded (p : List Char) (more : List UInt8) :
    lossy (encode p++more) = p++lossy more := by
  induction p with
  | nil => rfl
  | cons c p ih =>
    have hpos := c.utf8Size_pos
    have hsplit : encode (c::p)++more = String.utf8EncodeChar c++(encode p++more) := by
      rw [encode_cons, List.append_assoc]
    have hne : String.utf8EncodeChar c++(encode p++more) ≠ [] :=
      List.append_ne_nil_of_left_ne_nil (utf8EncodeChar_ne_nil c) _
    have hdrop : (String.utf8EncodeChar c++(encode p++more)).drop c.utf8Size = encode p++more :=
      List.drop_left' (String.length_utf8EncodeChar c)
    have hlen : (String.utf8EncodeChar c++(encode p++more)).length =
        c.utf8Size+(encode p++more).length := by
      rw [List.length_append, String.length_utf8EncodeChar]
    obtain ⟨n, hn⟩ := Nat.exists_eq_add_of_le' (Nat.le_trans (by omega : 1 ≤ _) (le_of_eq hlen.symm))
    rw [hsplit, lossy, hn, lossyIn, if_neg hne, firstChar_encoded]
    dsimp only
    rw [hdrop, lossyIn_enough n _ _ (by omega) (Nat.le_refl _), List.cons_append, ← ih]
    rfl

theorem lossy_torn (bytes : List UInt8) (hfirst : firstChar bytes = none)
    (h : errorLength bytes = none) : lossy bytes = ['\uFFFD'] := by
  have hall : invalidLength bytes = bytes.length := by
    rcases bytes with _ | ⟨b, _ | ⟨c, _ | ⟨d, _ | ⟨e, bytes⟩⟩⟩⟩
    · cases h
    · rfl
    · simp only [errorLength] at h
      simp only [invalidLength]
      split at h
      · next hgoes => rw [if_pos hgoes]; rfl
      · cases h
    · simp only [errorLength] at h
      simp only [invalidLength]
      split at h
      · next hgoes =>
        split at h
        · next hthird => rw [if_pos hgoes, if_pos hthird]; rfl
        · cases h
      · cases h
    · cases h
  cases bytes with
  | nil => cases h
  | cons b bytes =>
    rw [lossy, List.length_cons, lossyIn, if_neg (List.cons_ne_nil b bytes), hfirst]
    dsimp only
    rw [hall, List.drop_length]
    cases bytes.length <;> rfl

/-- Of a text that breaks off in a character, one replacement more is read. -/
theorem lossy_cut (bytes more : List UInt8) (cs : List Char) (h : bytes++more = encode cs) :
    (encode (lossy bytes)).length ≤ (encode cs).length+1 := by
  obtain ⟨back, hcut⟩ := valid_cut bytes more cs h
  have hstops := validIn_stops bytes.length bytes (Nat.le_refl _)
  obtain ⟨htext, hrest, -, htorn⟩ := hcut
  generalize (validIn bytes.length bytes).1 = p at htext
  generalize (validIn bytes.length bytes).2 = t at hrest htorn hstops
  have hbytes : bytes = encode p++t := by
    rw [htext, encode_append, ← hrest, ← List.append_assoc] at h
    exact List.append_cancel_right h
  rw [hbytes, lossy_encoded, htext, encode_append, encode_append, List.length_append,
    List.length_append]
  by_cases ht : t = []
  · have hnone : (encode (lossy t)).length = 0 := by rw [ht]; rfl
    omega
  · have hreplaced : (encode (lossy t)).length = 3 := by
      rw [lossy_torn t hstops (htorn ht)]
      rfl
    have htwo : 2 ≤ (encode back).length := by
      by_contra hless
      have hone := congrArg List.length hrest
      have hpos := List.length_pos_of_ne_nil ht
      rw [List.length_append] at hone
      obtain rfl : more = [] := List.eq_nil_of_length_eq_zero (by omega)
      rw [List.append_nil] at hrest
      cases back with
      | nil => exact ht hrest
      | cons c back =>
        rw [hrest, encode_cons, firstChar_encoded] at hstops
        cases hstops
    omega

end Lib.Utf8
