import IronClaw.Lib.Search

/-!
# Occurrences that overlap

A replacement from left to right meets one of two occurrences that share
characters and leaves the other. When it only puts a mark into what it meets, a
text is left exactly where two of its occurrences overlap, provided that the
mark is put outside of what occurrences can share.
-/

set_option autoImplicit false

namespace Lib.Overlap
open Lib.Search Lib.Words

section lists

variable {α : Type*}

def Border (w y : List α) : Prop := ∃ x z, x ≠ [] ∧ x++y = w ∧ y++z = w

theorem border_take (w y : List α) (h : Border w y) :
    ∃ k, k < w.length ∧ y.length = k ∧ w.take k = w.drop (w.length-k) := by
  obtain ⟨x, z, hx, hxy, hyz⟩ := h
  have hlen := congrArg List.length hxy
  have hpos := List.length_pos_of_ne_nil hx
  rw [List.length_append] at hlen
  refine ⟨y.length, by omega, rfl, ?_⟩
  have htake : w.take y.length = y := by
    rw [← hyz, List.take_left]
  have hdrop : w.drop (w.length-y.length) = y := by
    rw [show w.length-y.length = x.length by omega, ← hxy, List.drop_left]
  rw [htake, hdrop]

def Overlapping (w cs : List α) : Prop :=
  ∃ x y z, x ≠ [] ∧ y ≠ [] ∧ x++y = w ∧ y++z = w ∧ w++z <:+: cs

theorem prefix_append_cases (w s t : List α) (h : w <+: s++t) :
    w <+: s ∨ ∃ z, w = s++z ∧ z <+: t := by
  obtain ⟨q, hq⟩ := h
  obtain ⟨u, hs, _⟩ | ⟨u, hw, ht⟩ := List.append_eq_append_iff.mp hq
  · exact Or.inl ⟨u, hs.symm⟩
  · exact Or.inr ⟨u, hw, q, ht.symm⟩

/-- An occurrence in two texts lies in one of them or begins in the first. -/
theorem infix_append_cases (w s t : List α) (h : w <:+: s++t) :
    w <:+: s ∨ w <:+: t ∨ ∃ y z, y ≠ [] ∧ z ≠ [] ∧ y++z = w ∧ y <:+ s ∧ z <+: t := by
  induction s with
  | nil => exact Or.inr (Or.inl h)
  | cons c s ih =>
    rw [List.cons_append, List.infix_cons_iff, ← List.cons_append] at h
    obtain h | h := h
    · obtain h | ⟨z, hw, hz⟩ := prefix_append_cases w (c::s) t h
      · exact Or.inl h.isInfix
      · by_cases hnil : z = []
        · rw [hnil, List.append_nil] at hw
          rw [hw]
          exact Or.inl (List.infix_refl _)
        · exact Or.inr (Or.inr ⟨c::s, z, List.cons_ne_nil c s, hnil, hw.symm,
            List.suffix_refl _, hz⟩)
    · obtain h | h | ⟨y, z, hy, hz, hw, hys, hzt⟩ := ih h
      · exact Or.inl (List.infix_cons h)
      · exact Or.inr (Or.inl h)
      · exact Or.inr (Or.inr ⟨y, z, hy, hz, hw, hys.trans (List.suffix_cons c s), hzt⟩)

/-- Overlaps in a text that begins with the word. -/
theorem overlapping_match (w rest : List α) : Overlapping w (w++rest) ↔
    (∃ x y z, x ≠ [] ∧ y ≠ [] ∧ x++y = w ∧ y++z = w ∧ z <+: rest) ∨ Overlapping w rest := by
  constructor
  · rintro ⟨x, y, z, hx, hy, hxy, hyz, p, q, hin⟩
    rw [List.append_assoc] at hin
    obtain ⟨s, hw, hrest⟩ | ⟨p', hp, hrest⟩ := List.append_eq_append_iff.mp hin
    · by_cases hp : p = []
      · rw [hp, List.nil_append] at hw
        rw [← hw, List.append_assoc] at hrest
        exact Or.inl ⟨x, y, z, hx, hy, hxy, hyz, q, List.append_cancel_left hrest⟩
      · by_cases hs : s = []
        · rw [hs, List.nil_append] at hrest
          exact Or.inr ⟨x, y, z, hx, hy, hxy, hyz, [], q, by rw [List.nil_append, hrest]⟩
        · have hlen : s.length ≤ w.length := by
            rw [hw, List.length_append]
            exact Nat.le_add_left _ _
          have hpre : s <+: w := by
            refine @List.prefix_of_prefix_length_le _ _ _ (s++rest) ⟨rest, rfl⟩ ?_ hlen
            rw [← hrest, List.append_assoc]
            exact ⟨z++q, rfl⟩
          obtain ⟨z', hz'⟩ := hpre
          refine Or.inl ⟨p, s, z', hp, hs, hw.symm, hz', z++q, ?_⟩
          rw [← hz', List.append_assoc, List.append_assoc] at hrest
          exact List.append_cancel_left hrest
    · refine Or.inr ⟨x, y, z, hx, hy, hxy, hyz, p', q, ?_⟩
      rw [hrest, List.append_assoc]
  · rintro (⟨x, y, z, hx, hy, hxy, hyz, hz⟩ | ⟨x, y, z, hx, hy, hxy, hyz, hin⟩)
    · exact ⟨x, y, z, hx, hy, hxy, hyz, ((List.prefix_append_right_inj w).mpr hz).isInfix⟩
    · exact ⟨x, y, z, hx, hy, hxy, hyz, hin.trans (List.suffix_append w rest).isInfix⟩

/-- A word that ends a text has no other occurrence there. -/
theorem only_last_iff (w s : List α) (hw : w ≠ []) :
    (∀ p q, s++w = p++w++q → q = []) ↔ ¬ w <:+: s++w.dropLast := by
  constructor
  · rintro h ⟨p, q, hin⟩
    have hq := h p (q++[w.getLast hw]) (by
      rw [← List.append_assoc, hin, List.append_assoc, List.dropLast_concat_getLast])
    exact List.append_ne_nil_of_right_ne_nil q (List.cons_ne_nil _ _) hq
  · intro h p q hin
    by_contra hq
    refine h ⟨p, q.dropLast, ?_⟩
    have hlast := congrArg List.dropLast hin
    rw [List.dropLast_append_of_ne_nil hw, List.dropLast_append_of_ne_nil hq] at hlast
    exact hlast.symm

end lists

theorem replace_match (w new rest : List Char) (hw : w ≠ []) :
    replace w new (w++rest) = new++replace w new rest := by
  cases w with
  | nil => exact absurd rfl hw
  | cons c w =>
    have hpre : (c::w).isPrefixOf (c::(w++rest)) = true :=
      List.isPrefixOf_iff_prefix.mpr ⟨rest, rfl⟩
    rw [List.cons_append, replace, replaceFrom, if_pos hpre, replaceFrom_skip,
      List.length_cons, Nat.add_sub_cancel, List.drop_left]
    rfl

theorem replace_step (w new : List Char) (c : Char) (cs : List Char) (h : ¬ w <+: c::cs) :
    replace w new (c::cs) = c::replace w new cs := by
  have hpre : ¬ w.isPrefixOf (c::cs) = true := fun hp => h (List.isPrefixOf_iff_prefix.mp hp)
  rw [replace, replaceFrom, if_neg hpre]
  rfl

structure Marking (w a b : List Char) (m : Char) : Prop where
  parts : a++b = w
  fresh : m ∉ w
  left : ∀ y, Border w y → y.length ≤ a.length
  right : ∀ y, Border w y → y.length ≤ b.length
  nonempty : a ≠ []
  inside : b ≠ []

section marking

variable {w a b : List Char} {m : Char}

theorem Marking.word (h : Marking w a b m) : w ≠ [] := by
  intro hw
  have hparts := h.parts
  rw [hw, List.append_eq_nil_iff] at hparts
  exact h.nonempty hparts.1

/-- What begins the result without a mark begins the text. -/
theorem replace_begins (h : Marking w a b m) (u cs : List Char) (hu : m ∉ u)
    (hpre : u <+: replace w (a++m::b) cs) : u <+: cs := by
  induction cs generalizing u with
  | nil => exact hpre
  | cons c cs ih =>
    by_cases hw : w <+: c::cs
    · obtain ⟨rest, hrest⟩ := hw
      rw [← hrest, replace_match w _ rest h.word, List.append_assoc, List.cons_append] at hpre
      have hua := prefix_before u a _ m hpre hu
      rw [← hrest, ← h.parts, List.append_assoc]
      exact hua.trans ⟨b++rest, rfl⟩
    · rw [replace_step w _ c cs hw] at hpre
      cases u with
      | nil => exact List.nil_prefix
      | cons d u =>
        rw [List.cons_prefix_cons] at hpre
        have hd := ih u (fun hin => hu (List.mem_cons_of_mem d hin)) hpre.2
        rw [hpre.1, List.cons_prefix_cons]
        exact ⟨rfl, hd⟩

/-- What follows the shared characters of an occurrence is left. -/
theorem replace_keeps (h : Marking w a b m) (y z r : List Char) (hy : y ≠ []) (hw : y++z = w) :
    z <+: replace w (a++m::b) (z++r) := by
  induction z generalizing y with
  | nil => exact List.nil_prefix
  | cons c z ih =>
    by_cases hin : w <+: c::z++r
    · have hlen : (c::z).length ≤ w.length := by
        rw [← hw, List.length_append]
        exact Nat.le_add_left _ _
      have hzw : c::z <+: w := List.prefix_of_prefix_length_le ⟨r, rfl⟩ hin hlen
      obtain ⟨z', hz'⟩ := hzw
      have hshort := h.left (c::z) ⟨y, z', hy, hw, hz'⟩
      have hza : c::z <+: a :=
        List.prefix_of_prefix_length_le ⟨z', hz'⟩ ⟨b, h.parts⟩ hshort
      obtain ⟨rest, hrest⟩ := hin
      rw [← hrest, replace_match w _ rest h.word, List.append_assoc]
      exact hza.trans ⟨_, rfl⟩
    · rw [List.cons_append] at hin ⊢
      rw [replace_step w _ c _ hin, List.cons_prefix_cons]
      refine ⟨rfl, ih (y++[c]) (List.append_ne_nil_of_left_ne_nil hy _) ?_⟩
      rw [List.append_assoc, List.singleton_append, hw]

/-- The result of the rest of a text that begins with the word. -/
theorem survives_match (h : Marking w a b m) (rest : List Char) :
    w <:+: replace w (a++m::b) (w++rest) ↔
      (∃ x y z, x ≠ [] ∧ y ≠ [] ∧ x++y = w ∧ y++z = w ∧ z <+: rest) ∨
      w <:+: replace w (a++m::b) rest := by
  rw [replace_match w _ rest h.word, List.append_assoc, List.cons_append]
  constructor
  · intro hin
    obtain hin | hin := infix_beside w a _ m hin h.fresh
    · have hlen := hin.length_le
      have hparts := congrArg List.length h.parts
      rw [List.length_append] at hparts
      have hb := List.length_pos_of_ne_nil h.inside
      omega
    · obtain hin | hin | ⟨y, z, hy, hz, hw, hyb, hzr⟩ := infix_append_cases w b _ hin
      · have hlen := hin.length_le
        have hparts := congrArg List.length h.parts
        rw [List.length_append] at hparts
        have ha := List.length_pos_of_ne_nil h.nonempty
        omega
      · exact Or.inr hin
      · obtain ⟨x, hx⟩ := hyb
        have hfresh : m ∉ z := fun hm =>
          h.fresh (by rw [← hw]; exact List.mem_append_right y hm)
        refine Or.inl ⟨a++x, y, z, List.append_ne_nil_of_left_ne_nil h.nonempty x, hy, ?_, hw,
          replace_begins h z rest hfresh hzr⟩
        rw [List.append_assoc, hx, h.parts]
  · rintro (⟨x, y, z, hx, hy, hxy, hyz, hz⟩ | hin)
    · have hshort := h.right y ⟨x, z, hx, hxy, hyz⟩
      have hyb : y <:+ b := by
        refine @List.suffix_of_suffix_length_le _ _ w _ ⟨x, hxy⟩ ⟨a, h.parts⟩ hshort
      obtain ⟨b₁, hb⟩ := hyb
      obtain ⟨r, hr⟩ := hz
      obtain ⟨t, ht⟩ := replace_keeps h y z r hy hyz
      rw [← hr, ← ht, ← hb]
      refine ⟨a++m::b₁, t, ?_⟩
      simp only [← hyz, List.append_assoc, List.cons_append]
    · exact hin.trans ⟨a++m::b, [], by simp⟩

/-- The word is left exactly where two occurrences of it overlap. -/
theorem replaced_survives_iff (h : Marking w a b m) (cs : List Char) :
    w <:+: replace w (a++m::b) cs ↔ Overlapping w cs := by
  induction hn : cs.length using Nat.strong_induction_on generalizing cs with
  | _ n ih =>
    by_cases hw : w <+: cs
    · obtain ⟨rest, hrest⟩ := hw
      have hlen := congrArg List.length hrest
      rw [List.length_append] at hlen
      have hpos := List.length_pos_of_ne_nil h.word
      rw [← hrest, survives_match h rest, overlapping_match, ih rest.length (by omega) rest rfl]
    · cases cs with
      | nil =>
        constructor
        · intro hin
          exact absurd (List.eq_nil_of_infix_nil hin) h.word
        · rintro ⟨x, y, z, hx, hy, hxy, hyz, hin⟩
          have hnil := List.append_eq_nil_iff.mp (List.eq_nil_of_infix_nil hin)
          exact absurd hnil.1 h.word
      | cons c cs =>
        have hstep := ih cs.length (by rw [← hn, List.length_cons]; omega) cs rfl
        have hnot : ¬ w <+: replace w (a++m::b) (c::cs) := fun hin =>
          hw (replace_begins h w (c::cs) h.fresh hin)
        rw [replace_step w _ c cs hw] at hnot ⊢
        rw [List.infix_cons_iff, or_iff_right hnot, hstep]
        constructor
        · rintro ⟨x, y, z, hx, hy, hxy, hyz, hin⟩
          exact ⟨x, y, z, hx, hy, hxy, hyz, List.infix_cons hin⟩
        · rintro ⟨x, y, z, hx, hy, hxy, hyz, hin⟩
          obtain hin | hin := List.infix_cons_iff.mp hin
          · exact absurd ((List.prefix_append w z).trans hin) hw
          · exact ⟨x, y, z, hx, hy, hxy, hyz, hin⟩

end marking

end Lib.Overlap
