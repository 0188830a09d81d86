import IronClaw.Lib.Overlap

/-!
# Marks put into a text

A text into which a character is put at some places, each of which satisfies a
condition on what comes before and after it. A replacement that puts a
character into a word is of this kind. Words that have no such character are
followed from one text into the other, together with the last character before
them that is not to be ignored.
-/

set_option autoImplicit false

namespace Lib.Insertion
open Lib.Search Lib.Overlap

section placed

variable {α : Type*} (P : List α → List α → Prop) (e : α)

inductive Placed : List α → List α → List α → Prop
  | nil (seen : List α) : Placed seen [] []
  | keep {seen : List α} {c : α} {cs ds : List α} :
      Placed (seen++[c]) cs ds → Placed seen (c::cs) (c::ds)
  | put {seen : List α} {c : α} {cs ds : List α} :
      P seen (c::cs) → Placed (seen++[c]) cs ds → Placed seen (c::cs) (e::c::ds)

variable {P e}

theorem placed_keep (seen u t ds : List α) (h : Placed P e (seen++u) t ds) :
    Placed P e seen (u++t) (u++ds) := by
  induction u generalizing seen with
  | nil => rwa [List.append_nil] at h
  | cons c u ih =>
    refine .keep (ih (seen++[c]) ?_)
    rwa [List.append_assoc, List.singleton_append]

/-- What begins the new text and has no new character begins the old one. -/
theorem placed_prefix (seen vs ws x q : List α) (h : Placed P e seen vs ws) (hws : ws = x++q)
    (hx : e ∉ x) : ∃ r, vs = x++r := by
  induction h generalizing x with
  | nil seen =>
    rw [(List.append_eq_nil_iff.mp hws.symm).1]
    exact ⟨[], rfl⟩
  | keep _ ih =>
    cases x with
    | nil => exact ⟨_, rfl⟩
    | cons d x =>
      rw [List.cons_append, List.cons.injEq] at hws
      obtain ⟨r, hr⟩ := ih x hws.2 (fun hin => hx (List.mem_cons_of_mem d hin))
      exact ⟨r, by rw [hr, hws.1, List.cons_append]⟩
  | put _ _ _ =>
    cases x with
    | nil => exact ⟨_, rfl⟩
    | cons d x =>
      rw [List.cons_append, List.cons.injEq] at hws
      exact absurd (by rw [hws.1]; exact List.mem_cons_self) hx

def lastReal (real : α → Bool) (p : List α) : Option α := (p.filter real).getLast?

variable (real : α → Bool)

theorem lastReal_cons (c : α) (p : List α) :
    lastReal real (c::p) = (lastReal real p).or (if real c then some c else none) := by
  rw [lastReal, lastReal, List.filter_cons]
  split
  · rw [List.getLast?_cons]
    cases (List.filter real p).getLast? <;> rfl
  · cases (List.filter real p).getLast? <;> rfl

theorem lastReal_put (c : α) (p : List α) (hc : real c = true) :
    lastReal real (e::c::p) = lastReal real (c::p) := by
  rw [lastReal_cons, lastReal_cons, if_pos hc]
  cases lastReal real p <;> rfl

variable (hP : ∀ seen c cs, P seen (c::cs) → real c = true) (he : real e = true)

include hP he in
/-- A word of the new text is one of the old text, after the same element or put
right behind a new one. -/
theorem placed_back (seen vs ws p x q : List α) (h : Placed P e seen vs ws) (hws : ws = p++x++q)
    (hx : e ∉ x) (hne : x ≠ []) : ∃ p' q', vs = p'++x++q' ∧
      (lastReal real p = lastReal real p' ∨ lastReal real p = some e) := by
  induction h generalizing p with
  | nil seen =>
    have hnil := List.append_eq_nil_iff.mp hws.symm
    exact absurd (List.append_eq_nil_iff.mp hnil.1).2 hne
  | @keep seen c cs ds h ih =>
    cases p with
    | nil =>
      obtain ⟨r, hr⟩ := placed_prefix seen _ _ x q (.keep h) hws hx
      exact ⟨[], r, hr, Or.inl rfl⟩
    | cons d p =>
      rw [List.cons_append, List.cons_append, List.cons.injEq] at hws
      obtain ⟨p', q', hcs, hlast⟩ := ih p hws.2
      refine ⟨c::p', q', by rw [hcs]; rfl, ?_⟩
      rw [lastReal_cons, lastReal_cons, ← hws.1]
      obtain hlast | hlast := hlast
      · exact Or.inl (by rw [hlast])
      · exact Or.inr (by rw [hlast]; rfl)
  | @put seen c cs ds hc h ih =>
    have hreal := hP seen c cs hc
    match p, hws with
    | [], hws =>
      cases x with
      | nil => exact absurd rfl hne
      | cons d x =>
        have hd := (List.cons.inj hws).1
        exact absurd (by rw [hd]; exact List.mem_cons_self) hx
    | [d], hws =>
      have hd := List.cons.inj hws
      obtain ⟨r, hr⟩ := placed_prefix seen _ _ x q (.keep h) hd.2 hx
      refine ⟨[], r, hr, Or.inr ?_⟩
      rw [← hd.1, lastReal_cons, if_pos he]
      rfl
    | d::d'::p, hws =>
      have hd := List.cons.inj hws
      have hd' := List.cons.inj hd.2
      obtain ⟨p', q', hcs, hlast⟩ := ih p hd'.2
      refine ⟨c::p', q', by rw [hcs]; rfl, ?_⟩
      rw [← hd.1, ← hd'.1, lastReal_put real c p hreal, lastReal_cons, lastReal_cons]
      obtain hlast | hlast := hlast
      · exact Or.inl (by rw [hlast])
      · exact Or.inr (by rw [hlast]; rfl)

/-- Nothing is put into a text without places for it. -/
theorem placed_stays (seen x q ws : List α) (h : Placed P e seen (x++q) ws)
    (hx : ∀ x₁ c x₂, x = x₁++c::x₂ → ¬ P (seen++x₁) (c::x₂++q)) : ∃ q', ws = x++q' := by
  induction x generalizing seen ws with
  | nil => exact ⟨ws, rfl⟩
  | cons c x ih =>
    have hrest : ∀ x₁ d x₂, x = x₁++d::x₂ → ¬ P (seen++[c]++x₁) (d::x₂++q) := by
      intro x₁ d x₂ hsplit
      have hnot := hx (c::x₁) d x₂ (by rw [hsplit, List.cons_append])
      rwa [List.append_assoc, List.singleton_append]
    cases h with
    | keep h =>
      obtain ⟨q', hq'⟩ := ih (seen++[c]) _ h hrest
      exact ⟨q', by rw [hq', List.cons_append]⟩
    | put hc _ =>
      have hnot := hx [] c x rfl
      rw [List.append_nil] at hnot
      exact absurd hc hnot

include hP in
/-- A word of the old text in which nothing can be put is one of the new text. -/
theorem placed_keeps (seen p x q ws : List α) (h : Placed P e seen (p++x++q) ws)
    (hx : ∀ x₁ c x₂, x = x₁++c::x₂ → ¬ P (seen++p++x₁) (c::x₂++q)) :
    ∃ p' q', ws = p'++x++q' ∧ lastReal real p' = lastReal real p := by
  induction p generalizing seen ws with
  | nil =>
    rw [List.append_nil] at hx
    obtain ⟨q', hq'⟩ := placed_stays seen x q ws h hx
    exact ⟨[], q', hq', rfl⟩
  | cons d p ih =>
    have hrest : ∀ x₁ c x₂, x = x₁++c::x₂ → ¬ P (seen++[d]++p++x₁) (c::x₂++q) := by
      intro x₁ c x₂ hsplit
      have hnot := hx x₁ c x₂ hsplit
      rwa [List.append_assoc seen, List.singleton_append]
    cases h with
    | keep h =>
      obtain ⟨p', q', hws, hlast⟩ := ih (seen++[d]) _ h hrest
      exact ⟨d::p', q', by rw [hws]; rfl, by rw [lastReal_cons, lastReal_cons, hlast]⟩
    | put hd h =>
      obtain ⟨p', q', hws, hlast⟩ := ih (seen++[d]) _ h hrest
      refine ⟨e::d::p', q', by rw [hws]; rfl, ?_⟩
      rw [lastReal_put real d p' (hP _ _ _ hd), lastReal_cons, lastReal_cons, hlast]

end placed

section replace

variable (a b : List Char) (e : Char)

/-- A replacement that puts a character into a word. -/
theorem replace_placed (hb : b ≠ []) (seen s : List Char) :
    Placed (fun seen rest => a <:+ seen ∧ b <+: rest) e seen s (replace (a++b) (a++e::b) s) := by
  induction hn : s.length using Nat.strong_induction_on generalizing seen s with
  | _ n ih =>
    by_cases hw : a++b <+: s
    · obtain ⟨rest, hrest⟩ := hw
      have hlen := congrArg List.length hrest
      rw [List.length_append, List.length_append] at hlen
      have hpos := List.length_pos_of_ne_nil hb
      have hne : a++b ≠ [] := List.append_ne_nil_of_right_ne_nil a hb
      rw [← hrest, replace_match (a++b) _ rest hne, List.append_assoc, List.append_assoc]
      apply placed_keep
      cases b with
      | nil => exact absurd rfl hb
      | cons c b =>
        refine .put ⟨List.suffix_append seen a, List.prefix_append (c::b) rest⟩ ?_
        exact placed_keep _ b rest _ (ih rest.length (by omega) _ rest rfl)
    · cases s with
      | nil => exact .nil seen
      | cons c s =>
        rw [replace_step (a++b) _ c s hw]
        exact .keep (ih s.length (by rw [← hn, List.length_cons]; omega) _ s rfl)

/-- A word that cannot overlap with itself stands behind the new character. -/
theorem replace_escaped (w : List Char) (hw : w ≠ []) (he : e ∉ w)
    (hborder : ∀ y, y ≠ [] → ¬ Border w y) (s p q : List Char)
    (h : replace w (e::w) s = p++w++q) : p.getLast? = some e := by
  induction hn : s.length using Nat.strong_induction_on generalizing s p with
  | _ n ih =>
    by_cases hin : w <+: s
    · obtain ⟨rest, hrest⟩ := hin
      have hlen := congrArg List.length hrest
      have hpos := List.length_pos_of_ne_nil hw
      rw [List.length_append] at hlen
      have hbehind : ∀ p₁, replace w (e::w) rest = p₁++w++q → p₁.getLast? = some e := by
        intro p₁ h₁
        exact ih rest.length (by omega) rest p₁ h₁ rfl
      rw [← hrest, replace_match w _ rest hw] at h
      cases p with
      | nil =>
        cases w with
        | nil => exact absurd rfl hw
        | cons c w =>
          have hc := (List.cons.inj h).1
          exact absurd (by rw [hc]; exact List.mem_cons_self) he
      | cons d p =>
        obtain ⟨hd, h⟩ := List.cons.inj h
        change w++replace w (e::w) rest = p++w++q at h
        rw [List.append_assoc] at h
        obtain ⟨t, hp, ht⟩ | ⟨t, hwt, ht⟩ := List.append_eq_append_iff.mp h
        · rw [← List.append_assoc] at ht
          have hlast := hbehind t ht
          have hlong : d::p = (d::w)++t := by rw [hp, List.cons_append]
          rw [hlong, List.getLast?_append, hlast]
          rfl
        · by_cases hp : p = []
          · rw [hp, ← hd]
            rfl
          · by_cases ht' : t = []
            · rw [ht', List.nil_append] at ht
              have hlast := hbehind [] ht.symm
              cases hlast
            · have htw : t <+: w := by
                refine @List.prefix_of_prefix_length_le _ _ _ (w++q) ?_ ⟨q, rfl⟩ ?_
                · rw [ht]
                  exact List.prefix_append t _
                · rw [hwt, List.length_append]
                  exact Nat.le_add_left _ _
              obtain ⟨z, hz⟩ := htw
              exact absurd ⟨p, z, hp, hwt.symm, hz⟩ (hborder t ht')
    · cases s with
      | nil =>
        have hnil := List.append_eq_nil_iff.mp h.symm
        exact absurd (List.append_eq_nil_iff.mp hnil.1).2 hw
      | cons c s =>
        have hplaced := replace_placed [] w e hw [] (c::s)
        cases p with
        | nil =>
          obtain ⟨r, hr⟩ := placed_prefix [] _ _ w q hplaced h he
          exact absurd ⟨r, hr.symm⟩ hin
        | cons d p =>
          rw [replace_step w _ c s hin] at h
          have hlast := ih s.length (by rw [← hn, List.length_cons]; omega) s p
            (List.cons.inj h).2 rfl
          rw [List.getLast?_cons, hlast]
          rfl

end replace

end Lib.Insertion
