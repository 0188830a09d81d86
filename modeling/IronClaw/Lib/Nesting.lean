import Mathlib.Data.List.Basic

/-!
# Texts with opening and closing tags

A text is cut at its tags. What stands at depth zero is outside of all blocks. A
reader that does not count shows the text behind every closing tag; it shows
the text outside exactly if none follows the closing tag of an inner block.
-/

set_option autoImplicit false

namespace Lib.Nesting

structure Mark (α : Type*) where
  tag : List α
  closes : Bool
  gap : List α
  deriving DecidableEq

variable {α : Type*}

def Mark.depth (m : Mark α) (d : ℕ) : ℕ := if m.closes then d-1 else d+1

def Mark.text (m : Mark α) : List α := m.tag++m.gap

def wellNested : ℕ → List (Mark α) → Bool
  | d, [] => d = 0
  | d, m::ms => (!m.closes || 0 < d) && wellNested (m.depth d) ms

def outermost : ℕ → List (Mark α) → List α
  | _, [] => []
  | d, m::ms => (if m.depth d = 0 then m.gap else [])++outermost (m.depth d) ms

def behindClosings : List (Mark α) → List α
  | [] => []
  | m::ms => (if m.closes then m.gap else [])++behindClosings ms

def Sealed : ℕ → List (Mark α) → Prop
  | _, [] => True
  | d, m::ms => (m.closes = true → 0 < m.depth d → m.gap = []) ∧ Sealed (m.depth d) ms

def leftOpen : Bool → List (Mark α) → Bool
  | inside, [] => inside
  | _, m::ms => leftOpen (!m.closes) ms

theorem nested_closed (inside : Bool) (d : ℕ) (ms : List (Mark α))
    (hd : inside = true → 0 < d) (h : wellNested d ms = true) : leftOpen inside ms = false := by
  induction ms generalizing inside d with
  | nil =>
    have hzero : d = 0 := of_decide_eq_true h
    cases inside with
    | true => exact absurd (hd rfl) (by omega)
    | false => rfl
  | cons m ms ih =>
    refine ih (!m.closes) (m.depth d) (fun hopen => ?_) (Bool.and_eq_true_iff.mp h).2
    rw [Mark.depth, if_neg (by simpa using hopen)]
    exact Nat.succ_pos d

theorem depth_opens (m : Mark α) (d : ℕ) (h : m.closes = false) : m.depth d ≠ 0 := by
  rw [Mark.depth, h]
  exact Nat.succ_ne_zero d

theorem outermost_sublist (d : ℕ) (ms : List (Mark α)) :
    (outermost d ms).Sublist (behindClosings ms) := by
  induction ms generalizing d with
  | nil => exact .slnil
  | cons m ms ih =>
    refine List.Sublist.append ?_ (ih (m.depth d))
    cases hm : m.closes with
    | false =>
      rw [if_neg (depth_opens m d hm)]
      exact List.nil_sublist _
    | true =>
      rw [if_pos rfl]
      split
      · exact List.Sublist.refl _
      · exact List.nil_sublist _

/-- Without counting nothing more is shown exactly where inner blocks are sealed. -/
theorem behind_outermost_iff (d : ℕ) (ms : List (Mark α)) :
    behindClosings ms = outermost d ms ↔ Sealed d ms := by
  induction ms generalizing d with
  | nil => exact iff_of_true rfl trivial
  | cons m ms ih =>
    rw [behindClosings, outermost, Sealed, ← ih (m.depth d)]
    cases hm : m.closes with
    | false =>
      rw [if_neg Bool.false_ne_true, if_neg (depth_opens m d hm)]
      simp
    | true =>
      rw [if_pos rfl]
      by_cases hd : m.depth d = 0
      · rw [if_pos hd]
        simp [hd]
      · have hpos : 0 < m.depth d := Nat.pos_of_ne_zero hd
        rw [if_neg hd, List.nil_append]
        constructor
        · intro h
          have hlen := (outermost_sublist (m.depth d) ms).length_le
          rw [← h, List.length_append] at hlen
          have hgap : m.gap = [] := List.eq_nil_of_length_eq_zero (by omega)
          rw [hgap, List.nil_append] at h
          exact ⟨fun _ _ => hgap, h⟩
        · rintro ⟨hgap, h⟩
          rw [hgap rfl hpos, List.nil_append, h]

end Lib.Nesting
