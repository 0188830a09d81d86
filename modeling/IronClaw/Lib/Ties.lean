import Mathlib.Data.List.Sort

/-!
# Lists sorted by a key

A stable sort keeps the order of the items with one key, so two lists sort to
the same list when their items of each key are the same. Parts joined in
another order give the same list when the parts that change places hold one
item only.
-/

set_option autoImplicit false

namespace Lib.Ties

variable {α ι : Type*}

section

variable (key : α → ℕ)

/-- The items of one key come out in the order in which they went in. -/
theorem filter_insertionSort (xs : List α) (k : ℕ) :
    (xs.insertionSort (fun a b => key a ≤ key b)).filter (fun a => key a = k) =
      xs.filter (fun a => key a = k) := by
  have htotal : Std.Total (fun a b : α => key a ≤ key b) := ⟨fun a b => Nat.le_total _ _⟩
  have htrans : IsTrans α (fun a b => key a ≤ key b) := ⟨fun _ _ _ => Nat.le_trans⟩
  have htied : (xs.filter (fun a => key a = k)).Pairwise (fun a b => key a ≤ key b) := by
    apply List.pairwise_of_forall_mem_list
    intro a ha b hb
    rw [of_decide_eq_true (List.mem_filter.mp ha).2, of_decide_eq_true (List.mem_filter.mp hb).2]
  have hkept := (List.sublist_insertionSort htied List.filter_sublist).filter
    (fun a => decide (key a = k))
  rw [List.filter_filter] at hkept
  simp only [Bool.and_self] at hkept
  have hlength := ((List.perm_insertionSort (fun a b => key a ≤ key b) xs).filter
    (fun a => decide (key a = k))).length_eq
  exact (hkept.eq_of_length hlength.symm).symm

theorem sorted_ext (xs ys : List α) (hxs : xs.Pairwise (fun a b => key a ≤ key b))
    (hys : ys.Pairwise (fun a b => key a ≤ key b))
    (h : ∀ k, xs.filter (fun a => key a = k) = ys.filter (fun a => key a = k)) : xs = ys := by
  induction xs generalizing ys with
  | nil =>
    cases ys with
    | nil => rfl
    | cons y ys => simpa using h (key y)
  | cons x xs ih =>
    cases ys with
    | nil => simpa using h (key x)
    | cons y ys =>
      have hmem : ∀ (z : α) (zs ws : List α),
          (z::zs).filter (fun a => key a = key z) = ws.filter (fun a => key a = key z) → z ∈ ws := by
        intro z zs ws heq
        have hin : z ∈ ws.filter (fun a => key a = key z) := by
          rw [← heq]
          simp
        exact (List.mem_filter.mp hin).1
      have hkey : key x = key y := by
        apply Nat.le_antisymm
        · rcases List.mem_cons.mp (hmem y ys _ (h (key y)).symm) with heq | hin
          · exact (congrArg key heq).ge
          · exact (List.pairwise_cons.mp hxs).1 y hin
        · rcases List.mem_cons.mp (hmem x xs _ (h (key x))) with heq | hin
          · exact (congrArg key heq).ge
          · exact (List.pairwise_cons.mp hys).1 x hin
      have hhead := h (key x)
      rw [List.filter_cons_of_pos (by simp), List.filter_cons_of_pos (by simp [hkey])] at hhead
      obtain ⟨rfl, htail⟩ := List.cons.inj hhead
      rw [ih ys (List.pairwise_cons.mp hxs).2 (List.pairwise_cons.mp hys).2]
      intro k
      by_cases hk : key x = k
      · rw [← hk]
        exact htail
      · have hrest := h k
        rwa [List.filter_cons_of_neg (by simpa using hk), List.filter_cons_of_neg
          (by simpa using hk)] at hrest

theorem insertionSort_ext (xs ys : List α)
    (h : ∀ k, xs.filter (fun a => key a = k) = ys.filter (fun a => key a = k)) :
    xs.insertionSort (fun a b => key a ≤ key b) = ys.insertionSort (fun a b => key a ≤ key b) := by
  have htotal : Std.Total (fun a b : α => key a ≤ key b) := ⟨fun a b => Nat.le_total _ _⟩
  have htrans : IsTrans α (fun a b => key a ≤ key b) := ⟨fun _ _ _ => Nat.le_trans⟩
  apply sorted_ext key _ _ (List.pairwise_insertionSort _ xs) (List.pairwise_insertionSort _ ys)
  intro k
  rw [filter_insertionSort, filter_insertionSort, h k]

end

theorem append_comm_same (xs ys : List α) (h : ∀ a ∈ xs, ∀ b ∈ ys, a = b) :
    xs++ys = ys++xs := by
  cases xs with
  | nil => rw [List.nil_append, List.append_nil]
  | cons x xs =>
    cases ys with
    | nil => rw [List.nil_append, List.append_nil]
    | cons y ys =>
      have hys : y::ys = List.replicate (y::ys).length x :=
        List.eq_replicate_of_mem fun b hb => (h x List.mem_cons_self b hb).symm
      have hxs : x::xs = List.replicate (x::xs).length x := by
        apply List.eq_replicate_of_mem
        intro a ha
        exact (h a ha y List.mem_cons_self).trans (h x List.mem_cons_self y List.mem_cons_self).symm
      rw [hxs, hys, List.replicate_append_replicate, List.replicate_append_replicate, Nat.add_comm]

/-- Joining parts in two orders. -/
theorem flatMap_moved (R S : ι → ι → Prop) (part : ι → List α) (ps qs : List ι)
    (hperm : ps.Perm qs) (hps : ps.Pairwise R) (hqs : qs.Pairwise S)
    (h : ∀ p q, R p q → S q p → ∀ a ∈ part p, ∀ b ∈ part q, a = b) :
    ps.flatMap part = qs.flatMap part := by
  induction qs generalizing ps with
  | nil => rw [List.perm_nil.mp hperm]
  | cons q qs ih =>
    obtain ⟨before, after, rfl⟩ := List.append_of_mem (hperm.mem_iff.mpr List.mem_cons_self)
    have hrest : (before++after).Perm qs := (List.perm_middle.symm.trans hperm).cons_inv
    have hsame : ∀ a ∈ before.flatMap part, ∀ b ∈ part q, a = b := by
      intro a ha b hb
      obtain ⟨p, hp, hap⟩ := List.mem_flatMap.mp ha
      refine h p q ?_ ?_ a hap b hb
      · exact (List.pairwise_append.mp hps).2.2 p hp q List.mem_cons_self
      · exact (List.pairwise_cons.mp hqs).1 p (hrest.mem_iff.mp (List.mem_append_left _ hp))
    have hkept := hps.sublist ((List.sublist_cons_self q after).append_left before)
    rw [List.flatMap_append, List.flatMap_cons, ← List.append_assoc, append_comm_same _ _ hsame,
      List.append_assoc, ← List.flatMap_append, List.flatMap_cons,
      ih (before++after) hrest hkept (List.pairwise_cons.mp hqs).2]

end Lib.Ties
