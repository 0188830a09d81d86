import Mathlib.Data.List.Basic

/-!
# Runs of a machine given by its step function

The step function is total. Everything a step may choose is part of its
label, and a label that is not enabled leaves the state as it is. A run is
the list of its labels, so a statement about every run is a statement about
every list.
-/

set_option autoImplicit false

namespace Lib.Runs

variable {σ α : Type*} (step : α → σ → σ)

def run : List α → σ → σ
  | [], s => s
  | a::as, s => run as (step a s)

def Along (P : α → σ → Prop) : List α → σ → Prop
  | [], _ => True
  | a::as, s => P a s ∧ Along P as (step a s)

instance decidableAlong (P : α → σ → Prop) [∀ a s, Decidable (P a s)] :
    ∀ as s, Decidable (Along step P as s)
  | [], _ => isTrue trivial
  | a::as, s => @instDecidableAnd _ _ _ (decidableAlong P as (step a s))

variable (P : α → σ → Prop) (as bs : List α) (I : σ → Prop)

theorem along_all (as : List α) (s : σ) (h : ∀ a ∈ as, ∀ s, P a s) :
    Along step P as s := by
  induction as generalizing s with
  | nil => trivial
  | cons a as ih =>
    exact ⟨h a List.mem_cons_self s, ih _ (fun b hb => h b (List.mem_cons_of_mem a hb))⟩

theorem along_and (P Q : α → σ → Prop) (as : List α) (s : σ) (hp : Along step P as s)
    (hq : Along step Q as s) : Along step (fun a s => P a s ∧ Q a s) as s := by
  induction as generalizing s with
  | nil => trivial
  | cons a as ih => exact ⟨⟨hp.1, hq.1⟩, ih _ hp.2 hq.2⟩

theorem along_at (b : α) (s : σ) (h : Along step P (as++b::bs) s) : P b (run step as s) := by
  induction as generalizing s with
  | nil => exact h.1
  | cons a as ih => exact ih (step a s) h.2

theorem run_append (s : σ) :
    run step (as++bs) s = run step bs (run step as s) := by
  induction as generalizing s with
  | nil => rfl
  | cons a as ih => exact ih (step a s)

theorem along_append (s : σ) (ha : Along step P as s) (hb : Along step P bs (run step as s)) :
    Along step P (as++bs) s := by
  induction as generalizing s with
  | nil => exact hb
  | cons a as ih => exact ⟨ha.1, ih _ ha.2 hb⟩

theorem along_split (s : σ) (h : Along step P (as++bs) s) :
    Along step P as s ∧ Along step P bs (run step as s) := by
  induction as generalizing s with
  | nil => exact ⟨trivial, h⟩
  | cons a as ih =>
    obtain ⟨has, hbs⟩ := ih _ h.2
    exact ⟨⟨h.1, has⟩, hbs⟩

theorem run_invariant (h : ∀ a s, I s → I (step a s)) (as : List α) (s : σ) (hs : I s) :
    I (run step as s) := by
  induction as generalizing s with
  | nil => exact hs
  | cons a as ih => exact ih _ (h a s hs)

theorem guarded_invariant (C : α → σ → Prop) (I : σ → Prop)
    (h : ∀ a s, I s → C a s → I (step a s)) (as : List α) (s : σ)
    (hc : Along step C as s) (hs : I s) : I (run step as s) := by
  induction as generalizing s with
  | nil => exact hs
  | cons a as ih => exact ih _ hc.2 (h a s hs hc.1)

theorem along_of (C P : α → σ → Prop) (h : ∀ a s, I s → C a s → I (step a s) ∧ P a s) (as : List α)
    (s : σ) (hs : I s) (hc : Along step C as s) : Along step P as s := by
  induction as generalizing s with
  | nil => trivial
  | cons a as ih =>
    obtain ⟨hkeep, hp⟩ := h a s hs hc.1
    exact ⟨hp, ih _ hkeep hc.2⟩

theorem along_iff (P C : α → σ → Prop) (h : ∀ a s, I s → (P a s ↔ C a s) ∧ (C a s → I (step a s)))
    (as : List α) (s : σ) (hs : I s) : Along step P as s ↔ Along step C as s := by
  constructor
  · apply along_of step I P C _ as s hs
    intro a s hs hp
    have hc := (h a s hs).1.mp hp
    exact ⟨(h a s hs).2 hc, hc⟩
  · apply along_of step I C P _ as s hs
    intro a s hs hc
    exact ⟨(h a s hs).2 hc, (h a s hs).1.mpr hc⟩

end Lib.Runs
