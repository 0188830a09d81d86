import Mathlib.Logic.Function.Basic

/-!
# Tables

A table is a function from keys to optional entries, and a write replaces the
entry of one key. Proofs about a written table ask where an entry came from.
-/

set_option autoImplicit false

namespace Lib.Tables

variable {κ ν : Type*} [DecidableEq κ]

theorem update_entry (table : κ → Option ν) (key i : κ) (entry x : ν)
    (h : Function.update table key (some entry) i = some x) :
    (i = key ∧ x = entry) ∨ (i ≠ key ∧ table i = some x) := by
  by_cases hi : i = key
  · rw [hi, Function.update_self] at h
    exact Or.inl ⟨hi, (Option.some.inj h).symm⟩
  · rw [Function.update_of_ne hi] at h
    exact Or.inr ⟨hi, h⟩

theorem update_erased (table : κ → Option ν) (key i : κ) (x : ν)
    (h : Function.update table key none i = some x) : table i = some x := by
  by_cases hi : i = key
  · rw [hi, Function.update_self] at h
    simp at h
  · rwa [Function.update_of_ne hi] at h

end Lib.Tables
