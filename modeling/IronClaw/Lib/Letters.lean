import Mathlib.Data.List.Infix

/-!
# Lower case

Texts are lowered letter by letter with the tables of Unicode. A letter may
become several ones, and the capital sigma looks at its surroundings: it is
final after a cased letter and before none, with ignorable characters between
passed over. The tables are given; what is used of them is that marks such as
the dot are their own lower case and nobody else's, and that lowered letters
stay as they are.
-/

set_option autoImplicit false

namespace Lib.Letters

theorem isUpper_iff (c : Char) : c.isUpper = true ↔ 65 ≤ c.toNat ∧ c.toNat ≤ 90 := by
  have hdef : c.isUpper = decide ('A'.val ≤ c.val ∧ c.val ≤ 'Z'.val) := rfl
  rw [hdef, decide_eq_true_eq]
  exact Iff.rfl

theorem isLower_iff (c : Char) : c.isLower = true ↔ 97 ≤ c.toNat ∧ c.toNat ≤ 122 := by
  have hdef : c.isLower = (decide ('a'.val ≤ c.val) && decide (c.val ≤ 'z'.val)) := rfl
  rw [hdef, Bool.and_eq_true, decide_eq_true_eq, decide_eq_true_eq]
  exact Iff.rfl

theorem isAlpha_iff (c : Char) :
    c.isAlpha = true ↔ 65 ≤ c.toNat ∧ c.toNat ≤ 90 ∨ 97 ≤ c.toNat ∧ c.toNat ≤ 122 := by
  have hdef : c.isAlpha = (c.isUpper || c.isLower) := rfl
  rw [hdef, Bool.or_eq_true, isUpper_iff, isLower_iff]

structure Tables where
  lower : Char → List Char
  cased : Char → Bool
  ignorable : Char → Bool

section

variable (t : Tables)

def meetsCased (cs : List Char) : Bool :=
  ((cs.dropWhile t.ignorable).head?.map t.cased).getD false

def sigma (before after : List Char) : Char :=
  if meetsCased t before && !meetsCased t after then 'ς' else 'σ'

def lowerIn (before : List Char) : List Char → List Char → List Char
  | [], _ => []
  | c::cs, after =>
    (if c = 'Σ' then [sigma t before (cs++after)] else t.lower c)++lowerIn (c::before) cs after

def toLowercase (cs : List Char) : List Char := lowerIn t [] cs []

def Mark (m : Char) : Prop := m ≠ 'Σ' ∧ t.lower m = [m] ∧ ∀ c, m ∈ t.lower c → c = m

structure Documented : Prop where
  settled : ∀ c, ∀ d ∈ t.lower c, d ≠ 'Σ' ∧ t.lower d = [d]
  nonempty : ∀ c, t.lower c ≠ []
  sigmas : t.lower 'σ' = ['σ'] ∧ t.lower 'ς' = ['ς']

theorem lowerIn_append (before x y after : List Char) :
    lowerIn t before (x++y) after =
      lowerIn t before x (y++after)++lowerIn t (x.reverse++before) y after := by
  induction x generalizing before with
  | nil => rfl
  | cons c x ih =>
    simp only [List.cons_append, lowerIn, ih, List.append_assoc, List.reverse_cons,
      List.nil_append]

theorem meetsCased_append (x b b' : List Char) (h : meetsCased t b = meetsCased t b') :
    meetsCased t (x++b) = meetsCased t (x++b') := by
  induction x with
  | nil => exact h
  | cons c x ih =>
    by_cases hc : t.ignorable c = true
    · simpa [meetsCased, hc] using ih
    · simp [meetsCased, hc]

theorem lowerIn_congr (before before' cs after : List Char)
    (h : meetsCased t before = meetsCased t before') :
    lowerIn t before cs after = lowerIn t before' cs after := by
  induction cs generalizing before before' with
  | nil => rfl
  | cons c cs ih =>
    have hnext : meetsCased t (c::before) = meetsCased t (c::before') :=
      meetsCased_append t [c] before before' h
    simp only [lowerIn, sigma, h, ih _ _ hnext]

theorem lowerIn_after (before cs after after' : List Char)
    (h : meetsCased t after = meetsCased t after') :
    lowerIn t before cs after = lowerIn t before cs after' := by
  induction cs generalizing before with
  | nil => rfl
  | cons c cs ih => simp only [lowerIn, sigma, meetsCased_append t cs after after' h, ih]

theorem lowerIn_mark (m : Char) (hm : Mark t m) (before cs after : List Char) :
    lowerIn t before (m::cs) after = m::lowerIn t (m::before) cs after := by
  simp only [lowerIn, if_neg hm.1, hm.2.1, List.singleton_append]

structure Gap (m : Char) : Prop where
  mark : Mark t m
  met : t.ignorable m = false
  caseless : t.cased m = false

theorem toLowercase_gap (m : Char) (hm : Gap t m) (p q : List Char) :
    toLowercase t (p++m::q) = toLowercase t p++m::toLowercase t q := by
  have hblind : ∀ cs, meetsCased t (m::cs) = meetsCased t [] := by
    intro cs
    simp [meetsCased, hm.met, hm.caseless]
  rw [toLowercase, lowerIn_append, lowerIn_mark t m hm.mark, List.append_nil,
    lowerIn_after t _ p _ [] (hblind q), lowerIn_congr t _ [] q [] (hblind _)]
  rfl

theorem sigma_ne (m : Char) (hσ : m ≠ 'σ') (hς : m ≠ 'ς') (before after : List Char) :
    m ≠ sigma t before after := by
  unfold sigma
  split
  · exact hς
  · exact hσ

/-- A lowered text that starts with a mark comes from one that does. -/
theorem lowerIn_head (doc : Documented t) (m : Char) (hm : Mark t m) (hσ : m ≠ 'σ')
    (hς : m ≠ 'ς') (before cs after z : List Char) (h : lowerIn t before cs after = m::z) :
    ∃ d, cs = m::d ∧ z = lowerIn t (m::before) d after := by
  cases cs with
  | nil => cases h
  | cons c cs =>
    by_cases hc : c = m
    · rw [hc, lowerIn_mark t m hm] at h
      exact ⟨cs, by rw [hc], ((List.cons_eq_cons.mp h).2).symm⟩
    · -- what comes of the first letter is not empty and not the mark
      exfalso
      rw [lowerIn] at h
      split at h
      · exact sigma_ne t m hσ hς before (cs++after) (List.cons_eq_cons.mp h).1.symm
      · have hne := doc.nonempty c
        cases hout : t.lower c with
        | nil => exact hne hout
        | cons a out =>
          rw [hout] at h
          have ha := (List.cons_eq_cons.mp h).1
          exact hc (hm.2.2 c (by rw [hout, ← ha]; exact List.mem_cons_self))

theorem lowerIn_fixed (cs : List Char) (h : ∀ c ∈ cs, c ≠ 'Σ' ∧ t.lower c = [c])
    (before after : List Char) : lowerIn t before cs after = cs := by
  induction cs generalizing before with
  | nil => rfl
  | cons c cs ih =>
    have hc := h c List.mem_cons_self
    rw [lowerIn, if_neg hc.1, hc.2, ih (fun d hd => h d (List.mem_cons_of_mem c hd))]
    rfl

theorem lowerIn_settled (doc : Documented t) (before cs after : List Char) :
    ∀ c ∈ lowerIn t before cs after, c ≠ 'Σ' ∧ t.lower c = [c] := by
  induction cs generalizing before with
  | nil => exact fun _ hmem => nomatch hmem
  | cons c cs ih =>
    intro d hd
    rw [lowerIn] at hd
    rcases List.mem_append.mp hd with hd | hd
    · split at hd
      · rw [List.mem_singleton.mp hd]
        unfold sigma
        split
        · exact ⟨by decide, doc.sigmas.2⟩
        · exact ⟨by decide, doc.sigmas.1⟩
      · exact doc.settled c d hd
    · exact ih _ d hd

theorem toLowercase_idem (doc : Documented t) (cs : List Char) :
    toLowercase t (toLowercase t cs) = toLowercase t cs :=
  lowerIn_fixed t _ (lowerIn_settled t doc [] cs []) [] []

theorem lowerIn_plain (before cs after : List Char) (h : 'Σ' ∉ cs) :
    lowerIn t before cs after = cs.flatMap t.lower := by
  induction cs generalizing before with
  | nil => rfl
  | cons c cs ih =>
    obtain ⟨hc, hcs⟩ := not_or.mp (mt List.mem_cons.mpr h)
    rw [lowerIn, if_neg (Ne.symm hc), ih _ hcs, List.flatMap_cons]

/-- A capital sigma leaves a small one. -/
theorem sigma_left (before cs after : List Char) (h : 'Σ' ∈ cs) :
    'σ' ∈ lowerIn t before cs after ∨ 'ς' ∈ lowerIn t before cs after := by
  induction cs generalizing before with
  | nil => cases h
  | cons c cs ih =>
    rw [lowerIn, List.mem_append, List.mem_append]
    rcases List.mem_cons.mp h with hc | hcs
    · rw [if_pos hc.symm, List.mem_singleton, List.mem_singleton]
      unfold sigma
      split
      · exact Or.inr (Or.inl rfl)
      · exact Or.inl (Or.inl rfl)
    · exact (ih (c::before) hcs).imp Or.inr Or.inr

theorem toLowercase_infix (w cs : List Char) (h : w <:+: cs) (hσ : 'σ' ∉ toLowercase t w)
    (hς : 'ς' ∉ toLowercase t w) : toLowercase t w <:+: toLowercase t cs := by
  obtain ⟨p, q, rfl⟩ := h
  have hplain : 'Σ' ∉ w := by
    intro hcapital
    exact (sigma_left t [] w [] hcapital).elim hσ hς
  rw [toLowercase, toLowercase, lowerIn_append, lowerIn_append, lowerIn_plain t _ w _ hplain,
    lowerIn_plain t _ w _ hplain]
  exact ⟨_, _, rfl⟩

def Ascii : Prop := ∀ c : Char, c.toNat < 128 → t.lower c = [c.toLower]

theorem lowerIn_ascii (hascii : Ascii t) (before cs after : List Char)
    (h : ∀ c ∈ cs, c.toNat < 128) : lowerIn t before cs after = cs.map Char.toLower := by
  have hplain : 'Σ' ∉ cs := fun hcapital => absurd (h 'Σ' hcapital) (by decide)
  rw [lowerIn_plain t _ _ _ hplain]
  induction cs with
  | nil => rfl
  | cons c cs ih =>
    rw [List.flatMap_cons, hascii c (h c List.mem_cons_self), List.map_cons,
      ih (fun d hd => h d (List.mem_cons_of_mem c hd))
        (fun hcapital => hplain (List.mem_cons_of_mem c hcapital))]
    rfl

/-- Lowering neither adds nor drops a mark. -/
theorem count_lowerIn (m : Char) (hm : Mark t m) (hσ : m ≠ 'σ') (hς : m ≠ 'ς')
    (before cs after : List Char) :
    (lowerIn t before cs after).count m = cs.count m := by
  induction cs generalizing before with
  | nil => rfl
  | cons c cs ih =>
    by_cases hc : c = m
    · rw [hc, lowerIn_mark t m hm, List.count_cons_self, List.count_cons_self, ih]
    · have hnone : (if c = 'Σ' then [sigma t before (cs++after)] else t.lower c).count m = 0 := by
        rw [List.count_eq_zero]
        split
        · simpa using sigma_ne t m hσ hς before (cs++after)
        · exact fun hmem => hc (hm.2.2 c hmem)
      rw [lowerIn, List.count_append, hnone, ih, Nat.zero_add, List.count_cons_of_ne hc]

end

/-- A text splits at a mark in one way, once the marks behind it are counted. -/
theorem split_unique (m : Char) (x d x' d' : List Char) (h : x++m::d = x'++m::d')
    (hcount : d.count m = d'.count m) : d = d' := by
  rcases List.append_eq_append_iff.mp h with ⟨y, hy, hrest⟩ | ⟨y, hy, hrest⟩
  · cases y with
    | nil => exact (List.cons_eq_cons.mp hrest).2
    | cons a y =>
      have htail : d = y++m::d' := (List.cons_eq_cons.mp hrest).2
      rw [htail, List.count_append, List.count_cons_self] at hcount
      omega
  · cases y with
    | nil => exact ((List.cons_eq_cons.mp hrest).2).symm
    | cons a y =>
      have htail : d' = y++m::d := (List.cons_eq_cons.mp hrest).2
      rw [htail, List.count_append, List.count_cons_self] at hcount
      omega

/-! ## Letters of ASCII -/

theorem toLower_small (c : Char) :
    c.toLower = c ∨ (97 ≤ c.toLower.toNat ∧ c.toLower.toNat ≤ 122) := by
  by_cases h : 65 ≤ c.val.toNat ∧ c.val.toNat ≤ 90
  · right
    unfold Char.toLower
    simp only [Char.toNat]
    split
    · rename_i hc
      simp only [UInt32.toNat_add]
      have hshift : ('a'.val - 'A'.val).toNat = 32 := rfl
      omega
    · rename_i hc
      exact absurd h hc
  · left
    unfold Char.toLower
    split
    · rename_i hc
      exact absurd hc h
    · rfl

theorem toLower_toLower (c : Char) : c.toLower.toLower = c.toLower := by
  rcases toLower_small c with hsame | hsmall
  · rw [hsame, hsame]
  · generalize c.toLower = m at hsmall
    unfold Char.toLower
    split
    · rename_i hc
      have hle : m.val.toNat ≤ 90 := hc.2
      simp only [Char.toNat] at hsmall
      omega
    · rfl

theorem toLower_apart (c m : Char) (hm : m.toNat < 97 ∨ 122 < m.toNat) (h : c.toLower = m) :
    c = m := by
  rcases toLower_small c with hsame | hsmall
  · rw [← h, hsame]
  · rw [h] at hsmall
    omega

end Lib.Letters
