import IronClaw.LeakScan

/-!
# What a redaction leaves

The ranges are sorted by their starts and the pass keeps the end of the last
one only. The output is followed back to the byte positions that it copies. A
range that ends before an earlier one moves the pass back into bytes that the
earlier one covers.
-/

set_option autoImplicit false

namespace IronClaw.Redaction
open Lib.Text Lib.Search IronClaw.LeakScan

def utf8 (cs : List Char) : List UInt8 := cs.flatMap String.utf8EncodeChar

inductive Piece where
  | kept (position : ℕ)
  | marker
  deriving DecidableEq

def Piece.render (content : List UInt8) : Piece → List UInt8
  | .kept p => content[p]?.toList
  | .marker => utf8 redacted

def Piece.position : Piece → Option ℕ
  | .kept p => some p
  | .marker => none

def copied (a b : ℕ) : List Piece := (List.range' a (b-a)).map .kept

def piecesFrom (len : ℕ) (lastEnd : ℕ) : List (ℕ × ℕ) → List Piece
  | [] => copied lastEnd len
  | range::ranges => copied lastEnd range.1++.marker::piecesFrom len range.2 ranges

def pieces (len : ℕ) (ranges : List (ℕ × ℕ)) : List Piece := piecesFrom len 0 ranges

def positions (ps : List Piece) : List ℕ := ps.filterMap Piece.position

def covered (ranges : List (ℕ × ℕ)) (p : ℕ) : Bool := ranges.any (fun r => r.1 ≤ p && p < r.2)

structure Ranges (content : List Char) (ranges : List (ℕ × ℕ)) : Prop where
  forward : ∀ r ∈ ranges, r.1 ≤ r.2
  starts : ∀ r ∈ ranges, isBoundary content r.1 = true
  stops : ∀ r ∈ ranges, isBoundary content r.2 = true
  sorted : ranges.Pairwise (fun a b => a.1 ≤ b.1)

structure Exact (len : ℕ) (ranges : List (ℕ × ℕ)) (ps : List Piece) : Prop where
  copies : positions ps = (List.range len).filter (fun p => !covered ranges p)
  marked : ∀ a b, a < b → (∀ p, a ≤ p → p < b → covered ranges p = true) →
    ∃ before after, ps = before++.marker::after ∧
      (∀ p ∈ positions before, p < a) ∧ ∀ p ∈ positions after, b ≤ p

def nextStart (len : ℕ) (ranges : List (ℕ × ℕ)) : ℕ := (ranges.head?.map Prod.fst).getD len

def Advancing (len : ℕ) (ranges : List (ℕ × ℕ)) : Prop :=
  ∀ before r after, ranges = before++r::after → r.2 < nextStart len after →
    ∀ q ∈ before, q.2 ≤ r.2

section bytes

theorem utf8_append (p q : List Char) : utf8 (p++q) = utf8 p++utf8 q := List.flatMap_append

theorem utf8_length (cs : List Char) : (utf8 cs).length = byteLen cs := by
  induction cs with
  | nil => rfl
  | cons c cs ih =>
    change (String.utf8EncodeChar c++utf8 cs).length = c.utf8Size+byteLen cs
    rw [List.length_append, String.length_utf8EncodeChar, ih]

theorem render_copied (content : List UInt8) (a b : ℕ) :
    (copied a b).flatMap (Piece.render content) = (content.drop a).take (b-a) := by
  rw [copied, List.flatMap_map]
  induction b-a generalizing a with
  | zero => rfl
  | succ n ih =>
    rw [List.range'_succ, List.flatMap_cons, ih]
    by_cases h : a < content.length
    · rw [List.drop_eq_getElem_cons h, List.take_succ_cons]
      simp [Piece.render, h]
    · have h₁ : content.drop a = [] := List.drop_eq_nil_of_le (by omega)
      have h₂ : content.drop (a+1) = [] := List.drop_eq_nil_of_le (by omega)
      simp [Piece.render, h₁, h₂, List.getElem?_eq_none (Nat.le_of_not_lt h)]

variable (content : List Char)

theorem boundary_split (n : ℕ) (h : isBoundary content n = true) :
    ∃ p q, content = p++q ∧ byteLen p = n := by
  obtain ⟨q, hq⟩ := sliceTo_split content n
  exact ⟨sliceTo content n, q, hq, (boundary_iff content n).mp h⟩

theorem sliceFrom_utf8 (a : ℕ) (ha : isBoundary content a = true) :
    utf8 ((sliceFrom content a).getD []) = (utf8 content).drop a := by
  obtain ⟨p, q, hcontent, hp⟩ := boundary_split content a ha
  subst hp hcontent
  rw [sliceFrom_append, utf8_append, ← utf8_length, List.drop_left]
  rfl

theorem sliceTo_split_le (a b : ℕ) (hab : a ≤ b) :
    ∃ q, sliceTo content b = sliceTo content a++q := by
  induction content generalizing a b with
  | nil => exact ⟨[], rfl⟩
  | cons c cs ih =>
    simp only [sliceTo]
    by_cases ha : c.utf8Size ≤ a
    · obtain ⟨q, hq⟩ := ih (a-c.utf8Size) (b-c.utf8Size) (by omega)
      exact ⟨q, by rw [if_pos ha, if_pos (Nat.le_trans ha hab), hq, List.cons_append]⟩
    · exact ⟨_, by rw [if_neg ha, List.nil_append]⟩

theorem slice_utf8 (a b : ℕ) (ha : isBoundary content a = true) (hb : isBoundary content b = true)
    (hab : a ≤ b) :
    utf8 ((slice content a b).getD []) = ((utf8 content).drop a).take (b-a) := by
  obtain ⟨q, hq⟩ := sliceTo_split_le content a b hab
  obtain ⟨r, hr⟩ := sliceTo_split content b
  have hlen := (boundary_iff content a).mp ha
  have hlen' := (boundary_iff content b).mp hb
  rw [hq] at hr
  rw [hq, byteLen_append, hlen] at hlen'
  generalize sliceTo content a = p at hq hr hlen
  subst hr hlen
  rw [← hlen', slice_append, Nat.add_sub_cancel_left, ← utf8_length p, ← utf8_length q,
    utf8_append, utf8_append, List.append_assoc, List.drop_left, List.take_left]
  rfl

end bytes

variable (content : List Char)

/-- The pass writes what its pieces stand for. -/
theorem redactFrom_utf8 (ranges : List (ℕ × ℕ)) (h : Ranges content ranges) (lastEnd : ℕ)
    (hlast : isBoundary content lastEnd = true) :
    utf8 (redactFrom content lastEnd ranges) =
      (piecesFrom (byteLen content) lastEnd ranges).flatMap (Piece.render (utf8 content)) := by
  induction ranges generalizing lastEnd with
  | nil =>
    rw [redactFrom, piecesFrom, render_copied, ← utf8_length, List.take_of_length_le (by simp)]
    split
    · exact sliceFrom_utf8 content lastEnd hlast
    · next hge =>
      rw [List.drop_eq_nil_of_le (Nat.le_of_not_lt hge)]
      rfl
  | cons r rs ih =>
    have hr : isBoundary content r.1 = true := h.starts r List.mem_cons_self
    have hrest : Ranges content rs := {
      forward := fun q hq => h.forward q (List.mem_cons_of_mem r hq)
      starts := fun q hq => h.starts q (List.mem_cons_of_mem r hq)
      stops := fun q hq => h.stops q (List.mem_cons_of_mem r hq)
      sorted := h.sorted.tail }
    have hfirst : utf8 (if lastEnd < r.1 then (slice content lastEnd r.1).getD [] else []) =
        (copied lastEnd r.1).flatMap (Piece.render (utf8 content)) := by
      rw [render_copied]
      split
      · next hlt => exact slice_utf8 content lastEnd r.1 hlast hr (Nat.le_of_lt hlt)
      · next hge =>
        rw [Nat.sub_eq_zero_of_le (Nat.le_of_not_lt hge), List.take_zero]
        rfl
    rw [redactFrom, piecesFrom, utf8_append, utf8_append, hfirst,
      ih hrest r.2 (h.stops r List.mem_cons_self), List.flatMap_append, List.flatMap_cons,
      List.append_assoc]
    rfl

theorem applyRedactions_utf8 (ranges : List (ℕ × ℕ)) (h : Ranges content ranges) :
    utf8 (applyRedactions content ranges) =
      (pieces (byteLen content) ranges).flatMap (Piece.render (utf8 content)) := by
  by_cases hnil : ranges = []
  · subst hnil
    change utf8 content = _
    rw [pieces, piecesFrom, render_copied, List.drop_zero, List.take_of_length_le]
    rw [utf8_length]
    exact Nat.le_refl _
  · rw [applyRedactions, if_neg hnil, pieces]
    refine redactFrom_utf8 content ranges h 0 ?_
    cases content <;> rfl

section positions

theorem positions_append (ps qs : List Piece) : positions (ps++qs) = positions ps++positions qs :=
  List.filterMap_append

theorem positions_copied (a b : ℕ) : positions (copied a b) = List.range' a (b-a) := by
  rw [positions, copied, List.filterMap_map]
  exact List.filterMap_some

theorem positions_step (len l : ℕ) (r : ℕ × ℕ) (rs : List (ℕ × ℕ)) :
    positions (piecesFrom len l (r::rs)) =
      List.range' l (r.1-l)++positions (piecesFrom len r.2 rs) := by
  rw [piecesFrom, positions_append, positions_copied]
  rfl

theorem mem_copied (a b p : ℕ) : p ∈ List.range' a (b-a) ↔ a ≤ p ∧ p < b := by
  rw [List.mem_range'_1]
  omega

theorem covered_iff (ranges : List (ℕ × ℕ)) (p : ℕ) :
    covered ranges p = true ↔ ∃ r ∈ ranges, r.1 ≤ p ∧ p < r.2 := by
  simp [covered]

/-- The pass copies from the end of a range to the start of the next one. -/
theorem mem_positions (len l p : ℕ) (ranges : List (ℕ × ℕ)) :
    p ∈ positions (piecesFrom len l ranges) ↔ (l ≤ p ∧ p < nextStart len ranges) ∨
      ∃ before r after, ranges = before++r::after ∧ r.2 ≤ p ∧ p < nextStart len after := by
  induction ranges generalizing l with
  | nil =>
    rw [piecesFrom, positions_copied, mem_copied]
    constructor
    · exact Or.inl
    · rintro (h | ⟨before, r, after, hsplit, _⟩)
      · exact h
      · simp at hsplit
  | cons s rs ih =>
    rw [positions_step, List.mem_append, mem_copied, ih]
    constructor
    · rintro (h | h | ⟨before, r, after, hsplit, h⟩)
      · exact Or.inl h
      · exact Or.inr ⟨[], s, rs, rfl, h⟩
      · exact Or.inr ⟨s::before, r, after, by rw [hsplit, List.cons_append], h⟩
    · rintro (h | ⟨before, r, after, hsplit, h⟩)
      · exact Or.inl h
      · cases before with
        | nil =>
          rw [List.nil_append, List.cons.injEq] at hsplit
          rw [← hsplit.1, ← hsplit.2] at h
          exact Or.inr (Or.inl h)
        | cons q before =>
          rw [List.cons_append, List.cons.injEq] at hsplit
          exact Or.inr (Or.inr ⟨before, r, after, hsplit.2, h⟩)

/-- No byte outside the ranges is lost. -/
theorem uncovered_kept (len l p : ℕ) (ranges : List (ℕ × ℕ)) (hl : l ≤ p) (hlen : p < len)
    (h : covered ranges p = false) : p ∈ positions (piecesFrom len l ranges) := by
  induction ranges generalizing l with
  | nil =>
    rw [piecesFrom, positions_copied, mem_copied]
    exact ⟨hl, hlen⟩
  | cons r rs ih =>
    rw [covered, List.any_cons, Bool.or_eq_false_iff] at h
    rw [positions_step, List.mem_append, mem_copied]
    by_cases hstart : p < r.1
    · exact Or.inl ⟨hl, hstart⟩
    · have hstop : r.2 ≤ p := by
        have hnot := h.1
        simp at hnot
        omega
      exact Or.inr (ih r.2 hstop h.2)

theorem positions_ge (len l m : ℕ) (ranges : List (ℕ × ℕ)) (hl : m ≤ l)
    (hforward : ∀ r ∈ ranges, r.1 ≤ r.2) (hm : ∀ r ∈ ranges, m ≤ r.1) :
    ∀ p ∈ positions (piecesFrom len l ranges), m ≤ p := by
  intro p hp
  rw [mem_positions] at hp
  obtain ⟨hp, _⟩ | ⟨before, r, after, hsplit, hp, _⟩ := hp
  · exact Nat.le_trans hl hp
  · have hr : r ∈ ranges := by
      rw [hsplit]
      exact List.mem_append_right before List.mem_cons_self
    exact Nat.le_trans (hm r hr) (Nat.le_trans (hforward r hr) hp)

theorem positions_increasing (len l : ℕ) (ranges : List (ℕ × ℕ))
    (hforward : ∀ r ∈ ranges, r.1 ≤ r.2) (hsorted : ranges.Pairwise (fun a b => a.1 ≤ b.1)) :
    (positions (piecesFrom len l ranges)).Pairwise (· < ·) := by
  induction ranges generalizing l with
  | nil =>
    rw [piecesFrom, positions_copied]
    exact List.pairwise_lt_range'
  | cons r rs ih =>
    rw [List.pairwise_cons] at hsorted
    have hforward' : ∀ q ∈ rs, q.1 ≤ q.2 := fun q hq => hforward q (List.mem_cons_of_mem r hq)
    rw [positions_step, List.pairwise_append]
    refine ⟨List.pairwise_lt_range', ih r.2 hforward' hsorted.2, fun p hp q hq => ?_⟩
    have hlow := ((mem_copied l r.1 p).mp hp).2
    have hhigh := positions_ge len r.2 r.1 rs (hforward r List.mem_cons_self) hforward'
      hsorted.1 q hq
    omega

end positions

theorem boundary_le (n : ℕ) (h : isBoundary content n = true) :
    n ≤ byteLen content := by
  obtain ⟨q, hq⟩ := sliceTo_split content n
  have hlen := congrArg byteLen hq
  rw [byteLen_append, (boundary_iff content n).mp h] at hlen
  omega

section exact

variable (content : List Char) (ranges : List (ℕ × ℕ))

/-- No range that is left starts before `nextStart`. -/
theorem nextStart_le (len : ℕ) (after : List (ℕ × ℕ))
    (hsorted : after.Pairwise (fun a b => a.1 ≤ b.1)) :
    ∀ q ∈ after, nextStart len after ≤ q.1 := by
  intro q hq
  cases after with
  | nil => cases hq
  | cons r rs =>
    change r.1 ≤ q.1
    rw [List.mem_cons] at hq
    obtain hq | hq := hq
    · rw [hq]
    · exact (List.pairwise_cons.mp hsorted).1 q hq

theorem nextStart_le_len (after : List (ℕ × ℕ))
    (hin : ∀ r ∈ after, isBoundary content r.1 = true) :
    nextStart (byteLen content) after ≤ byteLen content := by
  cases after with
  | nil => exact Nat.le_refl _
  | cons r rs => exact boundary_le content r.1 (hin r List.mem_cons_self)

/-- A pass that advances copies no byte of a range. -/
theorem kept_uncovered (h : Ranges content ranges)
    (hadvancing : Advancing (byteLen content) ranges) (p : ℕ)
    (hp : p ∈ positions (pieces (byteLen content) ranges)) :
    p < byteLen content ∧ covered ranges p = false := by
  rw [pieces, mem_positions] at hp
  rw [← Bool.not_eq_true, covered_iff]
  obtain ⟨_, hp⟩ | ⟨before, r, after, hsplit, hstop, hp⟩ := hp
  · refine ⟨Nat.lt_of_lt_of_le hp (nextStart_le_len content ranges h.starts), ?_⟩
    rintro ⟨q, hq, hstart, _⟩
    have hle := nextStart_le (byteLen content) ranges h.sorted q hq
    omega
  · have hends := hadvancing before r after hsplit (Nat.lt_of_le_of_lt hstop hp)
    have hsorted := h.sorted
    have hstarts := h.starts
    rw [hsplit] at hsorted hstarts
    have hafter := (List.pairwise_cons.mp (List.pairwise_append.mp hsorted).2.1).2
    have hin : ∀ q ∈ after, isBoundary content q.1 = true := fun q hq =>
      hstarts q (List.mem_append_right before (List.mem_cons_of_mem r hq))
    refine ⟨Nat.lt_of_lt_of_le hp (nextStart_le_len content after hin), ?_⟩
    rintro ⟨q, hq, hstart, hcovers⟩
    rw [hsplit, List.mem_append, List.mem_cons] at hq
    obtain hq | hq | hq := hq
    · have hend := hends q hq
      omega
    · subst hq
      omega
    · have hle := nextStart_le (byteLen content) after hafter q hq
      omega

theorem copies_of_advancing (h : Ranges content ranges)
    (hadvancing : Advancing (byteLen content) ranges) :
    positions (pieces (byteLen content) ranges) =
      (List.range (byteLen content)).filter (fun p => !covered ranges p) := by
  have hkept : (positions (pieces (byteLen content) ranges)).Pairwise (· < ·) :=
    positions_increasing (byteLen content) 0 ranges h.forward h.sorted
  have hall := List.pairwise_lt_range (n := byteLen content)
  refine hkept.eq_of_mem_iff (hall.filter _) (fun p => ?_)
  rw [List.mem_filter, List.mem_range, Bool.not_eq_true']
  constructor
  · exact kept_uncovered content ranges h hadvancing p
  · rintro ⟨hlen, hp⟩
    exact uncovered_kept (byteLen content) 0 p ranges (Nat.zero_le p) hlen hp

theorem advancing_of_copies (h : Ranges content ranges)
    (hcopies : positions (pieces (byteLen content) ranges) =
      (List.range (byteLen content)).filter (fun p => !covered ranges p)) :
    Advancing (byteLen content) ranges := by
  intro before r after hsplit hgap q hq
  by_contra hend
  have hr : r ∈ ranges := by
    rw [hsplit]
    exact List.mem_append_right before List.mem_cons_self
  have hkept : r.2 ∈ positions (pieces (byteLen content) ranges) :=
    (mem_positions _ 0 r.2 ranges).mpr
      (Or.inr ⟨before, r, after, hsplit, Nat.le_refl _, hgap⟩)
  rw [hcopies, List.mem_filter, Bool.not_eq_true', ← Bool.not_eq_true, covered_iff] at hkept
  have hsorted := h.sorted
  rw [hsplit, List.pairwise_append] at hsorted
  have hstart : q.1 ≤ r.1 := hsorted.2.2 q hq r List.mem_cons_self
  refine hkept.2 ⟨q, ?_, Nat.le_trans hstart (h.forward r hr), Nat.lt_of_not_le hend⟩
  rw [hsplit]
  exact List.mem_append_left _ hq

/-- The marker of a range follows only bytes from before the range. -/
theorem marker_placed (len l : ℕ) (before after : List (ℕ × ℕ)) (r : ℕ × ℕ)
    (hbefore : ∀ q ∈ before, q.1 ≤ r.1) :
    ∃ ps, piecesFrom len l (before++r::after) = ps++.marker::piecesFrom len r.2 after ∧
      ∀ p ∈ positions ps, p < r.1 := by
  induction before generalizing l with
  | nil =>
    refine ⟨copied l r.1, rfl, fun p hp => ?_⟩
    rw [positions_copied, mem_copied] at hp
    exact hp.2
  | cons q before ih =>
    obtain ⟨ps, hps, hlow⟩ := ih q.2 (fun x hx => hbefore x (List.mem_cons_of_mem q hx))
    refine ⟨copied l q.1++.marker::ps, ?_, fun p hp => ?_⟩
    · rw [List.cons_append, piecesFrom, hps, List.append_assoc, List.cons_append]
    · rw [positions_append, positions_copied, List.mem_append, mem_copied] at hp
      obtain hp | hp := hp
      · exact Nat.lt_of_lt_of_le hp.2 (hbefore q List.mem_cons_self)
      · exact hlow p hp

theorem marked_of_copies (h : Ranges content ranges)
    (hcopies : positions (pieces (byteLen content) ranges) =
      (List.range (byteLen content)).filter (fun p => !covered ranges p)) (a b : ℕ) (hab : a < b)
    (hrun : ∀ p, a ≤ p → p < b → covered ranges p = true) :
    ∃ before after, pieces (byteLen content) ranges = before++.marker::after ∧
      (∀ p ∈ positions before, p < a) ∧ ∀ p ∈ positions after, b ≤ p := by
  obtain ⟨r, hr, hstart, hstop⟩ := (covered_iff ranges a).mp (hrun a (Nat.le_refl a) hab)
  obtain ⟨before, after, hsplit⟩ := List.append_of_mem hr
  have hsorted := h.sorted
  have hforward := h.forward
  rw [hsplit] at hsorted hforward
  have hbefore : ∀ q ∈ before, q.1 ≤ r.1 := fun q hq =>
    (List.pairwise_append.mp hsorted).2.2 q hq r List.mem_cons_self
  have hafter := (List.pairwise_cons.mp (List.pairwise_append.mp hsorted).2.1).1
  obtain ⟨ps, hps, hlow⟩ := marker_placed (byteLen content) 0 before after r hbefore
  rw [← hsplit] at hps
  refine ⟨ps, piecesFrom (byteLen content) r.2 after, hps, ?_, ?_⟩
  · exact fun p hp => Nat.lt_of_lt_of_le (hlow p hp) hstart
  · intro p hp
    have hge : r.1 ≤ p := positions_ge (byteLen content) r.2 r.1 after
      (h.forward r hr) (fun q hq => hforward q
        (List.mem_append_right before (List.mem_cons_of_mem r hq))) hafter p hp
    have hkept : p ∈ positions (pieces (byteLen content) ranges) := by
      rw [pieces, hps, positions_append]
      exact List.mem_append_right _ hp
    rw [hcopies, List.mem_filter, Bool.not_eq_true', ← Bool.not_eq_true] at hkept
    by_contra hlt
    by_cases hlow : a ≤ p
    · exact hkept.2 (hrun p hlow (Nat.lt_of_not_le hlt))
    · exact hkept.2 ((covered_iff ranges p).mpr ⟨r, hr, hge, by omega⟩)

/-- The output is read back from the copied positions, and the redaction is
exact when no range that ends before the next one starts is inside an earlier
one. -/
theorem applyRedactions_exact (h : Ranges content ranges) :
    utf8 (applyRedactions content ranges) =
        (pieces (byteLen content) ranges).flatMap (Piece.render (utf8 content)) ∧
      (Exact (byteLen content) ranges (pieces (byteLen content) ranges) ↔
        Advancing (byteLen content) ranges) := by
  refine ⟨applyRedactions_utf8 content ranges h, ?_, ?_⟩
  · intro hexact
    exact advancing_of_copies content ranges h hexact.copies
  · intro hadvancing
    have hcopies := copies_of_advancing content ranges h hadvancing
    exact ⟨hcopies, marked_of_copies content ranges h hcopies⟩

end exact

/-- Two ranges that overlap, the second one ending later. -/
theorem overlap_exact : Exact 6 [(0, 4), (1, 5)] (pieces 6 [(0, 4), (1, 5)]) := by
  have hranges : Ranges "abcdef".toList [(0, 4), (1, 5)] :=
    ⟨by decide, by decide, by decide, by decide⟩
  refine (applyRedactions_exact "abcdef".toList [(0, 4), (1, 5)] hranges).2.mpr ?_
  intro before r after hsplit _ q hq
  match before, hsplit with
  | [], _ => cases hq
  | [s], hsplit =>
    simp only [List.singleton_append, List.cons.injEq] at hsplit
    rw [List.mem_singleton] at hq
    rw [hq, ← hsplit.1, ← hsplit.2.1]
    decide
  | s::t::rest, hsplit =>
    have hlen := congrArg List.length hsplit
    simp only [List.length_append, List.length_cons, List.length_nil] at hlen
    omega

/-- Two bytes of the first range come out again behind the second one. -/
theorem nested_uncovered : Ranges "abcdef".toList [(0, 4), (1, 2)] ∧
    applyRedactions "abcdef".toList [(0, 4), (1, 2)] = "[REDACTED][REDACTED]cdef".toList ∧
    ¬ Exact 6 [(0, 4), (1, 2)] (pieces 6 [(0, 4), (1, 2)]) := by
  refine ⟨⟨by decide, by decide, by decide, by decide⟩, by decide, fun h => ?_⟩
  have hcopies := h.copies
  revert hcopies
  decide

section scan

end scan

end IronClaw.Redaction
