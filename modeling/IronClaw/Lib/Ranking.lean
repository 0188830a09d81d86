import Mathlib.Data.List.Sort

/-!
# The best of a list

The best entries of a list under a score are its first ones once it is sorted,
best score first, up to a limit. An entry that is not among them scores no more
than any of them, and is missing only because they are as many as allowed.
-/

set_option autoImplicit false

namespace Lib.Ranking

variable {α β : Type*} [LinearOrder β] (score : α → β)

def ranked (xs : List α) : List α := xs.mergeSort (fun a b => decide (score b ≤ score a))

def best (limit : ℕ) (xs : List α) : List α := (ranked score xs).take limit

variable (limit : ℕ) (xs : List α)

theorem ranked_perm : (ranked score xs).Perm xs := List.mergeSort_perm xs _

theorem ranked_sorted :
    (ranked score xs).Pairwise (fun a b => score b ≤ score a) := by
  let order (a b : α) : Bool := decide (score b ≤ score a)
  have htrans (a b c : α) (hab : order a b = true) (hbc : order b c = true) :
      order a c = true := by
    simp only [order, decide_eq_true_eq] at hab hbc ⊢
    exact le_trans hbc hab
  have htotal (a b : α) : (order a b || order b a) = true := by
    simp only [order, Bool.or_eq_true, decide_eq_true_eq]
    exact le_total _ _
  exact (List.pairwise_mergeSort htrans htotal xs).imp (fun h => of_decide_eq_true h)

theorem best_subset (x : α) (h : x ∈ best score limit xs) : x ∈ xs :=
  (ranked_perm score xs).mem_iff.mp (List.mem_of_mem_take h)

theorem best_nodup {κ : Type*} (key : α → κ) (limit : ℕ) (xs : List α)
    (h : (xs.map key).Nodup) : ((best score limit xs).map key).Nodup := by
  rw [best, List.map_take]
  exact (((ranked_perm score xs).map key).nodup_iff.mpr h).sublist (List.take_sublist _ _)

theorem best_sorted :
    (best score limit xs).Pairwise (fun a b => score b ≤ score a) :=
  (ranked_sorted score xs).sublist (List.take_sublist _ _)

theorem best_length : (best score limit xs).length ≤ limit := by
  rw [best, List.length_take]
  exact Nat.min_le_left _ _

/-- What is left out is no better than what is kept, and there is no room for it. -/
theorem best_left (x : α) (hx : x ∈ xs) (hout : x ∉ best score limit xs) :
    (best score limit xs).length = limit ∧
      ∀ y ∈ best score limit xs, score x ≤ score y := by
  have hin : x ∈ ranked score xs := (ranked_perm score xs).mem_iff.mpr hx
  rw [← List.take_append_drop limit (ranked score xs), List.mem_append] at hin
  have hdrop := hin.resolve_left hout
  constructor
  · have hlong := List.length_pos_of_mem hdrop
    rw [List.length_drop] at hlong
    rw [best, List.length_take]
    omega
  · intro y hy
    have hsorted := ranked_sorted score xs
    rw [← List.take_append_drop limit (ranked score xs), List.pairwise_append] at hsorted
    exact hsorted.2.2 y hy x hdrop

end Lib.Ranking
