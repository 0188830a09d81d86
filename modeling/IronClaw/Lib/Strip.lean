import Mathlib.Data.List.DropRight
import Mathlib.Data.List.Infix

/-!
# Ends stripped and runs squeezed

Two ways to tidy a list of letters some of which are marked: the marked letters
at both ends are dropped, and a run of marked letters inside becomes its first
one. The ends of a squeezed list are those of the list, and what is tidy stays
as it is.
-/

set_option autoImplicit false

namespace Lib.Strip

variable {α : Type*} (p : α → Bool)

structure Bare (cs : List α) : Prop where
  first : ∀ c, cs.head? = some c → p c = false
  last : ∀ c, cs.getLast? = some c → p c = false

def strip (cs : List α) : List α := (cs.dropWhile p).rdropWhile p

variable (cs : List α)

theorem strip_bare (h : Bare p cs) : strip p cs = cs := by
  have hdrop : cs.dropWhile p = cs := by
    cases cs with
    | nil => rfl
    | cons c cs => rw [List.dropWhile_cons_of_neg (by simp [h.first c rfl])]
  rw [strip, hdrop, List.rdropWhile_eq_self_iff]
  intro hne
  rw [h.last _ (List.getLast?_eq_some_getLast hne)]
  exact Bool.false_ne_true

theorem bare_strip : Bare p (strip p cs) := by
  constructor
  · intro c hc
    obtain ⟨rest, hrest⟩ := List.rdropWhile_prefix p (cs.dropWhile p)
    have hhead : (cs.dropWhile p).head? = some c := by
      rw [← hrest, List.head?_append, show (cs.dropWhile p).rdropWhile p = strip p cs from rfl, hc,
        Option.some_or]
    have hnot := List.head?_dropWhile_not p cs
    rw [hhead] at hnot
    simpa using hnot
  · intro c hc
    have hne : strip p cs ≠ [] := by
      intro hnil
      rw [hnil] at hc
      cases hc
    have hnot := List.rdropWhile_last_not p (cs.dropWhile p) hne
    rw [List.getLast?_eq_some_getLast hne, Option.some.injEq] at hc
    rw [← hc]
    exact Bool.eq_false_iff.mpr hnot

theorem strip_eq_iff : strip p cs = cs ↔ Bare p cs := by
  constructor
  · intro h
    rw [← h]
    exact bare_strip p cs
  · exact strip_bare p cs

theorem strip_split : ∃ a b, cs = a++strip p cs++b ∧ (∀ c ∈ a, p c = true) ∧
    ∀ c ∈ b, p c = true := by
  refine ⟨cs.takeWhile p, (cs.dropWhile p).rtakeWhile p, ?_, fun c hc => List.mem_takeWhile_imp hc,
    fun c hc => List.mem_rtakeWhile_imp hc⟩
  rw [List.append_assoc, strip, List.rdropWhile_append_rtakeWhile,
    List.takeWhile_append_dropWhile]

theorem strip_length : (strip p cs).length ≤ cs.length := by
  obtain ⟨a, b, hsplit, -, -⟩ := strip_split p cs
  have hlen := congrArg List.length hsplit
  rw [List.length_append, List.length_append] at hlen
  omega

/-- A letter that is not marked stays, at the start behind marked letters only. -/
theorem strip_first (a cs : List α) (c : α) (ha : ∀ d ∈ a, p d = true) (hc : p c = false) :
    (strip p (a++c::cs)).head? = some c := by
  have hdrop : (a++c::cs).dropWhile p = c::cs := by
    rw [List.dropWhile_append_of_pos ha, List.dropWhile_cons_of_neg (by simp [hc])]
  have hne : strip p (a++c::cs) ≠ [] := by
    intro hnil
    rw [strip, hdrop, List.rdropWhile_eq_nil_iff] at hnil
    rw [hnil c List.mem_cons_self] at hc
    cases hc
  obtain ⟨rest, hrest⟩ := List.rdropWhile_prefix p (c::cs)
  rw [strip, hdrop] at hne ⊢
  have hhead := congrArg List.head? hrest
  rwa [List.head?_append_of_ne_nil _ hne] at hhead

theorem strip_last (cs b : List α) (c : α) (hb : ∀ d ∈ b, p d = true) (hc : p c = false) :
    (strip p (cs++c::b)).getLast? = some c := by
  have hdrop : ∃ kept, (cs++c::b).dropWhile p = kept++[c]++b := by
    have hhere : (c::b).dropWhile p = c::b := List.dropWhile_cons_of_neg (by simp [hc])
    rw [List.dropWhile_append, hhere]
    split
    · exact ⟨[], rfl⟩
    · exact ⟨cs.dropWhile p, by rw [List.append_assoc]; rfl⟩
  obtain ⟨kept, hkept⟩ := hdrop
  have hend : (kept++[c]++b).rdropWhile p = kept++[c] := by
    clear hkept
    induction b using List.reverseRecOn with
    | nil =>
      rw [List.append_nil, List.rdropWhile_concat_neg _ _ _ (by simp [hc])]
    | append_singleton b d ih =>
      rw [← List.append_assoc, List.rdropWhile_concat_pos _ _ _ (hb d (by simp))]
      exact ih (fun e he => hb e (List.mem_append_left _ he))
  rw [strip, hkept, hend, List.getLast?_concat]

def squeeze : Bool → List α → List α
  | _, [] => []
  | before, c::cs =>
    if p c = true then
      if before = true then squeeze true cs else c::squeeze true cs
    else c::squeeze false cs

theorem squeeze_length (before : Bool) (cs : List α) :
    (squeeze p before cs).length ≤ cs.length := by
  induction cs generalizing before with
  | nil => exact Nat.le_refl 0
  | cons c cs ih =>
    have htrue := ih true
    have hfalse := ih false
    rw [squeeze]
    split
    · split
      · exact Nat.le_succ_of_le htrue
      · exact Nat.succ_le_succ htrue
    · exact Nat.succ_le_succ hfalse

theorem squeeze_first : (squeeze p false cs).head? = cs.head? := by
  cases cs with
  | nil => rfl
  | cons c cs =>
    rw [squeeze]
    split <;> rfl

/-- A last letter that is not marked stays the last one. -/
theorem squeeze_last (before : Bool) (cs : List α) (c : α) (hc : p c = false) :
    (squeeze p before (cs++[c])).getLast? = some c := by
  induction cs generalizing before with
  | nil => rw [List.nil_append, squeeze, if_neg (by simp [hc])]; rfl
  | cons d cs ih =>
    have hbehind (b : Bool) : (d::squeeze p b (cs++[c])).getLast? = some c := by
      rw [List.getLast?_cons, ih b]
      rfl
    rw [List.cons_append, squeeze]
    split
    · split
      · exact ih true
      · exact hbehind true
    · exact hbehind false

def Doubled (cs : List α) : Prop :=
  ∃ a b c d, cs = a++c::d::b ∧ p c = true ∧ p d = true

theorem doubled_cons (c : α) (cs : List α) (h : Doubled p (c::cs)) :
    Doubled p cs ∨ p c = true ∧ ∃ d, cs.head? = some d ∧ p d = true := by
  obtain ⟨a, b, e, d, hsplit, he, hd⟩ := h
  cases a with
  | nil =>
    obtain ⟨rfl, rfl⟩ := List.cons.inj hsplit
    exact Or.inr ⟨he, d, rfl, hd⟩
  | cons x a =>
    obtain ⟨rfl, rfl⟩ := List.cons.inj hsplit
    exact Or.inl ⟨a, b, e, d, rfl, he, hd⟩

theorem squeeze_single : ¬ Doubled p (squeeze p false cs) ∧
    ¬ Doubled p (squeeze p true cs) ∧
      ∀ c, (squeeze p true cs).head? = some c → p c = false := by
  induction cs with
  | nil =>
    have hnil : ¬ Doubled p ([] : List α) := by
      rintro ⟨a, b, c, d, hsplit, -⟩
      simp at hsplit
    exact ⟨hnil, hnil, fun c hc => by cases hc⟩
  | cons c cs ih =>
    obtain ⟨hfalse, htrue, hhead⟩ := ih
    by_cases hc : p c = true
    · rw [squeeze, if_pos hc, if_neg Bool.false_ne_true, squeeze, if_pos hc, if_pos rfl]
      refine ⟨fun h => ?_, htrue, hhead⟩
      rcases doubled_cons p c _ h with h | ⟨-, d, hd, hmarked⟩
      · exact htrue h
      · rw [hhead d hd] at hmarked
        cases hmarked
    · have hsingle : ¬ Doubled p (c::squeeze p false cs) := by
        intro h
        rcases doubled_cons p c _ h with h | ⟨hmarked, -⟩
        · exact hfalse h
        · exact hc hmarked
      rw [squeeze, if_neg hc, squeeze, if_neg hc]
      refine ⟨hsingle, hsingle, fun d hd => ?_⟩
      rw [List.head?_cons, Option.some.injEq] at hd
      rw [← hd]
      simpa using hc

theorem squeeze_fixed (h : ¬ Doubled p cs) : squeeze p false cs = cs ∧
    ((∀ c, cs.head? = some c → p c = false) → squeeze p true cs = cs) := by
  induction cs with
  | nil => exact ⟨rfl, fun _ => rfl⟩
  | cons c cs ih =>
    have htail : ¬ Doubled p cs := by
      rintro ⟨a, b, e, d, rfl, hmarked⟩
      exact h ⟨c::a, b, e, d, rfl, hmarked⟩
    obtain ⟨hfalse, htrue⟩ := ih htail
    by_cases hc : p c = true
    · have hnext : ∀ d, cs.head? = some d → p d = false := by
        intro d hd
        obtain ⟨b, rfl⟩ := List.head?_eq_some_iff.mp hd
        rw [Bool.eq_false_iff]
        exact fun hmarked => h ⟨[], b, c, d, rfl, hc, hmarked⟩
      constructor
      · rw [squeeze, if_pos hc, if_neg Bool.false_ne_true, htrue hnext]
      · intro hhead
        rw [hhead c rfl] at hc
        cases hc
    · rw [squeeze, if_neg hc, squeeze, if_neg hc, hfalse]
      exact ⟨rfl, fun _ => rfl⟩

end Lib.Strip
