import Mathlib.Data.List.Range

/-!
# Windows on a sequence

A window is a pair of positions, the first one inside and the first one after;
it shows a run of the sequence. Pieces are laid over a sequence when each is
the run of a window, every window reaches as far into the next as it is told
to, and none lies inside the one before it. The lengths of the pieces then
settle where each window is, up to the place of the first.
-/

set_option autoImplicit false

namespace Lib.Windows

variable {α : Type*}

def run (xs : List α) (a b : ℕ) : List α := (xs.take b).drop a

structure Laid (xs : List α) (o : ℕ) (pieces : List (List α)) (windows : List (ℕ × ℕ)) :
    Prop where
  runs : pieces = windows.map (fun w => run xs w.1 w.2)
  bounds : ∀ w ∈ windows, w.1 ≤ w.2 ∧ w.2 ≤ xs.length
  overlap : windows.IsChain (fun v w => w.1+o = v.2)
  fresh : windows.IsChain (fun v w => ¬ (v.1 ≤ w.1 ∧ w.2 ≤ v.2))

theorem run_length (xs : List α) (a b : ℕ) (h : b ≤ xs.length) : (run xs a b).length = b-a := by
  rw [run, List.length_drop, List.length_take, Nat.min_eq_left h]

theorem take_run (xs : List α) (a b : ℕ) (h : a ≤ b) : xs.take a++run xs a b = xs.take b := by
  have hsplit := List.take_append_drop a (xs.take b)
  rwa [List.take_take, Nat.min_eq_left h] at hsplit

theorem run_append (xs : List α) (a b c : ℕ) (hab : a ≤ b) (hbc : b ≤ c) :
    run xs a b++run xs b c = run xs a c := by
  obtain hle | hle := Nat.le_total xs.length b
  · have hnil : run xs b c = [] := by
      rw [run, List.drop_eq_nil_iff, List.length_take]
      omega
    rw [hnil, List.append_nil, run, run, List.take_of_length_le hle,
      List.take_of_length_le (Nat.le_trans hle hbc)]
  · have hlen : a ≤ (xs.take b).length := by
      rw [List.length_take, Nat.min_eq_left hle]
      exact hab
    have hwhole : run xs a c = (xs.take b++run xs b c).drop a := by
      rw [take_run xs b c hbc]
      rfl
    rw [hwhole, List.drop_append_of_le_length hlen]
    rfl

theorem take_sublist (xs : List α) (a b c : ℕ) (ys : List α) (hab : a ≤ b)
    (hys : (xs.take b).Sublist ys) : (xs.take c).Sublist (ys++run xs a c) := by
  obtain hbc | hcb := Nat.le_total b c
  · rw [← take_run xs b c hbc]
    have hrun : (run xs b c).Sublist (run xs a c) := by
      rw [run, run, ← Nat.add_sub_cancel' hab, ← List.drop_drop]
      exact List.drop_sublist _ _
    exact hys.append hrun
  · have hshort : (xs.take c).Sublist (xs.take b) := by
      rw [← Nat.min_eq_left hcb, ← List.take_take]
      exact List.take_sublist _ _
    exact (hshort.trans hys).trans (List.sublist_append_left _ _)

theorem mem_run (xs : List α) (a b : ℕ) (x : α) (h : x ∈ run xs a b) : x ∈ xs :=
  List.mem_of_mem_take (List.mem_of_mem_drop h)

section laid

variable {xs : List α} {o : ℕ}

theorem Laid.length {pieces : List (List α)} {windows : List (ℕ × ℕ)}
    (h : Laid xs o pieces windows) : windows.length = pieces.length := by
  rw [h.runs, List.length_map]

theorem Laid.tail {p : List α} {pieces : List (List α)} {w : ℕ × ℕ} {windows : List (ℕ × ℕ)}
    (h : Laid xs o (p::pieces) (w::windows)) : Laid xs o pieces windows where
  runs := (List.cons.inj h.runs).2
  bounds := fun v hv => h.bounds v (List.mem_cons_of_mem w hv)
  overlap := h.overlap.tail
  fresh := h.fresh.tail

theorem Laid.head {p : List α} {pieces : List (List α)} {w : ℕ × ℕ} {windows : List (ℕ × ℕ)}
    (h : Laid xs o (p::pieces) (w::windows)) : w.1+p.length = w.2 := by
  have hw := h.bounds w List.mem_cons_self
  have hp := (List.cons.inj h.runs).1
  rw [hp, run_length xs _ _ hw.2]
  omega

/-- Pieces of one size before the last one: how far the last one reaches. -/
theorem Laid.reach (size : ℕ) (pieces : List (List α)) (last : List α)
    (windows : List (ℕ × ℕ)) (h : Laid xs o (pieces++[last]) windows)
    (hsize : ∀ p ∈ pieces, p.length = size) (ho : o ≤ size) :
    pieces.length*(size-o)+last.length ≤ xs.length := by
  suffices hend : ∀ w ∈ windows.head?,
      w.1+pieces.length*(size-o)+last.length ≤ xs.length by
    have hlen := h.length
    rw [List.length_append, List.length_singleton] at hlen
    obtain ⟨w, ws, hw⟩ := List.exists_cons_of_length_pos (l := windows) (by omega)
    have hlast := hend w (by simp [hw])
    omega
  induction pieces generalizing windows with
  | nil =>
    intro w hw
    obtain ⟨ws, hws⟩ := List.head?_eq_some_iff.mp hw
    rw [hws] at h
    have hreach := h.head
    have hbound := h.bounds w List.mem_cons_self
    simp only [List.length_nil, Nat.zero_mul, Nat.add_zero]
    omega
  | cons p pieces ih =>
    intro w hw
    obtain ⟨ws, hws⟩ := List.head?_eq_some_iff.mp hw
    rw [hws] at h
    have hlen := h.length
    simp only [List.cons_append, List.length_cons, List.length_append, List.length_nil] at hlen
    obtain ⟨v, vs, hv⟩ := List.exists_cons_of_length_pos (l := ws) (by omega)
    rw [hv] at h
    have hnext := ih (v::vs) h.tail (fun q hq => hsize q (List.mem_cons_of_mem p hq)) v rfl
    have hover : v.1+o = w.2 := (List.isChain_cons_cons.mp h.overlap).1
    have hreach := h.head
    have hp := hsize p List.mem_cons_self
    rw [hp] at hreach
    simp only [List.length_cons, Nat.add_mul, Nat.one_mul]
    omega

/-- A last piece no longer than the overlap lies inside the piece before it. -/
theorem Laid.last (pieces : List (List α)) (p last : List α) (windows : List (ℕ × ℕ))
    (h : Laid xs o (pieces++[p, last]) windows) (hp : o ≤ p.length) : o < last.length := by
  obtain ⟨front, back, hwin, hfront, hback⟩ := List.map_eq_append_iff.mp h.runs.symm
  have hfresh := h.fresh
  have hover := h.overlap
  rw [hwin] at hfresh hover
  have hlen := congrArg List.length hback
  rw [List.length_map] at hlen
  obtain ⟨v, w, hvw⟩ := List.length_eq_two.mp hlen
  rw [hvw] at hwin hback hfresh hover
  have hv := h.bounds v (by simp [hwin])
  have hw := h.bounds w (by simp [hwin])
  have hout := List.isChain_pair.mp hfresh.right_of_append
  have hjoin := List.isChain_pair.mp hover.right_of_append
  simp only [List.map_cons, List.map_nil, List.cons.injEq, and_true] at hback
  have hpl := congrArg List.length hback.1
  have hll := congrArg List.length hback.2
  rw [run_length xs _ _ hv.2] at hpl
  rw [run_length xs _ _ hw.2] at hll
  omega

def stepped (step o k len : ℕ) : List (ℕ × ℕ) :=
  (List.range (k+1)).map (fun j => (j*step, if j = k then len else j*step+(step+o)))

theorem stepped_runs (xs : List α) (step o k : ℕ) :
    (stepped step o k xs.length).map (fun w => run xs w.1 w.2) =
      (List.range k).map (fun j => run xs (j*step) (j*step+(step+o)))++
        [run xs (k*step) xs.length] := by
  rw [stepped, List.map_map, List.range_succ, List.map_append, List.map_singleton]
  congr 1
  · refine List.map_congr_left (fun j hj => ?_)
    rw [Function.comp_apply, if_neg (Nat.ne_of_lt (List.mem_range.mp hj))]
  · rw [Function.comp_apply, if_pos rfl]

theorem laid_stepped (xs : List α) (step o k : ℕ) (hstep : 0 < step)
    (hlast : k*step+o < xs.length) :
    Laid xs o ((List.range k).map (fun j => run xs (j*step) (j*step+(step+o)))++
      [run xs (k*step) xs.length]) (stepped step o k xs.length) where
  runs := (stepped_runs xs step o k).symm
  bounds := by
    intro w hw
    obtain ⟨j, hj, hjw⟩ := List.mem_map.mp hw
    have hle : (j+1)*step ≤ k*step ∨ j = k := by
      obtain hj | hj := Nat.lt_or_eq_of_le (Nat.lt_succ_iff.mp (List.mem_range.mp hj))
      · exact Or.inl (Nat.mul_le_mul_right step hj)
      · exact Or.inr hj
    rw [Nat.succ_mul] at hle
    rw [← hjw]
    split
    · next hjk =>
      rw [hjk]
      exact ⟨by omega, Nat.le_refl _⟩
    · exact ⟨by omega, by omega⟩
  overlap := by
    rw [stepped, List.isChain_map, List.isChain_range_succ]
    intro j hj
    rw [if_neg (Nat.ne_of_lt hj), Nat.succ_mul, Nat.add_assoc]
  fresh := by
    rw [stepped, List.isChain_map, List.isChain_range_succ]
    intro j hj
    have hle : (j+1)*step ≤ k*step := Nat.mul_le_mul_right step hj
    rw [if_neg (Nat.ne_of_lt hj), Nat.succ_mul]
    rw [Nat.succ_mul] at hle
    split
    · omega
    · omega

end laid

end Lib.Windows
