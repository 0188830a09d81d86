import Mathlib.Data.List.Count
import Mathlib.Algebra.Order.Ring.Nat

/-!
# Events in windows that are reset when they are found expired

A window counts the events since its start. The first look at it after its
span is over starts it anew, so windows follow each other with gaps, and an
interval as long as the span meets two of them at most.
-/

set_option autoImplicit false

namespace Lib.Tumbling

def since (start : ℕ) (times : List ℕ) : ℕ := times.countP (fun t => start ≤ t)

def within (a b : ℕ) (times : List ℕ) : ℕ := times.countP (fun t => a ≤ t ∧ t ≤ b)

def between (a b : ℕ) (times : List ℕ) : ℕ := times.countP (fun t => a ≤ t ∧ t < b)

theorem since_cons (start now : ℕ) (times : List ℕ) (h : start ≤ now) :
    since start (now::times) = since start times+1 := by
  simp [since, h]

theorem since_later (start : ℕ) (times : List ℕ) (h : ∀ t ∈ times, t < start) :
    since start times = 0 := by
  rw [since, List.countP_eq_zero]
  intro t ht
  have hlt := h t ht
  simp only [decide_eq_true_eq]
  omega

theorem within_split (a b start : ℕ) (times : List ℕ) :
    within a b times ≤ between a start times+since start times := by
  induction times with
  | nil => exact Nat.le_refl 0
  | cons t times ih =>
    simp only [within, between, since, List.countP_cons, decide_eq_true_eq] at ih ⊢
    split_ifs <;> omega

theorem between_since (a b start : ℕ) (times : List ℕ) (h : start ≤ a) :
    between a b times ≤ since start times := by
  apply List.countP_mono_left
  intro t _ ht
  simp only [decide_eq_true_eq] at ht ⊢
  omega

structure Bounded (span limit start : ℕ) (times : List ℕ) : Prop where
  inside : ∀ t ∈ times, t < start+span
  current : since start times ≤ limit
  earlier : ∀ a, start ≤ a+span → between a start times ≤ limit
  anywhere : ∀ a, within a (a+span) times ≤ 2*limit

theorem bounded_nil (span limit start : ℕ) : Bounded span limit start [] where
  inside := by simp
  current := Nat.zero_le limit
  earlier _ _ := Nat.zero_le limit
  anywhere _ := Nat.zero_le (2*limit)

theorem bounded_reset (span limit start now : ℕ) (times : List ℕ)
    (h : Bounded span limit start times) (hexpired : start+span ≤ now) :
    Bounded span limit now times ∧ since now times = 0 := by
  have hbefore : ∀ t ∈ times, t < now := fun t ht => Nat.lt_of_lt_of_le (h.inside t ht) hexpired
  have hnone := since_later now times hbefore
  refine ⟨⟨?_, ?_, ?_, h.anywhere⟩, hnone⟩
  · intro t ht
    exact Nat.lt_add_right span (hbefore t ht)
  · rw [hnone]
    exact Nat.zero_le limit
  · intro a ha
    exact Nat.le_trans (between_since a now start times (by omega)) h.current

/-- An event in a window that has room for it. -/
theorem bounded_record (span limit start now : ℕ) (times : List ℕ)
    (h : Bounded span limit start times) (hstart : start ≤ now) (hnow : now < start+span)
    (hroom : since start times < limit) : Bounded span limit start (now::times) where
  inside := by
    intro t ht
    rcases List.mem_cons.mp ht with rfl | ht
    · exact hnow
    · exact h.inside t ht
  current := by
    rw [since_cons start now times hstart]
    exact hroom
  earlier a ha := by
    have hsame : between a start (now::times) = between a start times := by
      simp [between, Nat.not_lt.mpr hstart]
    rw [hsame]
    exact h.earlier a ha
  anywhere a := by
    by_cases hin : a ≤ now ∧ now ≤ a+span
    · have hold := within_split a (a+span) start times
      have hbefore := h.earlier a (by omega)
      have hone : within a (a+span) (now::times) = within a (a+span) times+1 := by
        simp [within, hin]
      omega
    · have hsame : within a (a+span) (now::times) = within a (a+span) times := by
        simp only [within, List.countP_cons]
        simp [hin]
      rw [hsame]
      exact h.anywhere a

end Lib.Tumbling
