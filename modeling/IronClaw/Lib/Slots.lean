import Mathlib.Data.List.Nodup

/-!
# Slots filled in any order

Parallel tasks deliver pairs of a slot number and a value, in any order and
possibly not at all. As long as no slot is addressed twice, what a slot holds
in the end depends on the set of arrivals only.
-/

set_option autoImplicit false

namespace Lib.Slots

variable {R : Type*}

def fill (slots : List (Option R)) (arrivals : List (ℕ × R)) : List (Option R) :=
  arrivals.foldl (fun s a => s.set a.1 (some a.2)) slots

def patch (slots : List (Option R)) (defaults : List (ℕ × R)) : List (Option R) :=
  defaults.foldl (fun s d => s.modify d.1 (fun x => some (x.getD d.2))) slots

variable (slots : List (Option R))

theorem fill_miss (arrivals : List (ℕ × R)) (i : ℕ) (h : i ∉ arrivals.map Prod.fst) :
    (fill slots arrivals)[i]? = slots[i]? := by
  induction arrivals generalizing slots with
  | nil => rfl
  | cons a arrivals ih =>
    rw [List.map_cons, List.mem_cons, not_or] at h
    have hrest := ih (slots.set a.1 (some a.2)) h.2
    rw [List.getElem?_set_ne (Ne.symm h.1)] at hrest
    exact hrest

theorem fill_hit (arrivals : List (ℕ × R)) (i : ℕ) (r : R) (h : (i, r) ∈ arrivals)
    (hn : (arrivals.map Prod.fst).Nodup) (hi : i < slots.length) :
    (fill slots arrivals)[i]? = some (some r) := by
  induction arrivals generalizing slots with
  | nil => simp at h
  | cons a arrivals ih =>
    rw [List.map_cons, List.nodup_cons] at hn
    rcases List.mem_cons.mp h with rfl | htail
    · have hmiss := fill_miss (slots.set i (some r)) arrivals i hn.1
      rw [List.getElem?_set_self hi] at hmiss
      exact hmiss
    · exact ih (slots.set a.1 (some a.2)) htail hn.2 (by rwa [List.length_set])

theorem patch_miss (defaults : List (ℕ × R)) (i : ℕ) (h : i ∉ defaults.map Prod.fst) :
    (patch slots defaults)[i]? = slots[i]? := by
  induction defaults generalizing slots with
  | nil => rfl
  | cons d defaults ih =>
    rw [List.map_cons, List.mem_cons, not_or] at h
    have hrest := ih (slots.modify d.1 (fun x => some (x.getD d.2))) h.2
    rw [List.getElem?_modify_ne _ _ (Ne.symm h.1)] at hrest
    exact hrest

theorem patch_hit (defaults : List (ℕ × R)) (i : ℕ) (r : R) (x : Option R) (h : (i, r) ∈ defaults)
    (hn : (defaults.map Prod.fst).Nodup) (hi : slots[i]? = some x) :
    (patch slots defaults)[i]? = some (some (x.getD r)) := by
  induction defaults generalizing slots with
  | nil => simp at h
  | cons d defaults ih =>
    rw [List.map_cons, List.nodup_cons] at hn
    rcases List.mem_cons.mp h with rfl | htail
    · have hmiss := patch_miss (slots.modify i (fun y => some (y.getD r))) defaults i hn.1
      rw [List.getElem?_modify_eq, hi] at hmiss
      exact hmiss
    · have hne : d.1 ≠ i := by
        intro e
        exact hn.1 (e ▸ List.mem_map_of_mem htail)
      have hslot : (slots.modify d.1 (fun y => some (y.getD d.2)))[i]? = some x := by
        rw [List.getElem?_modify_ne _ _ hne, hi]
      exact ih _ htail hn.2 hslot

end Lib.Slots
