import Mathlib.Data.List.Pairwise
import IronClaw.InlineSpans

/-!
# The code regions of a text

The scanner gives the fenced blocks and the spans, in order and on character
boundaries. They are apart exactly if no span goes beyond the beginning of a
block.
-/

set_option autoImplicit false

namespace IronClaw.CodeRegions
open IronClaw.ResponseText IronClaw.CodeScanner IronClaw.FencedBlocks IronClaw.InlineSpans
open Lib.Text Lib.Utf8 Lib.BytePositions

section

variable (text : List Char)

def Outside (i e : ℕ) : Prop :=
  ∃ k a, Run text i k ∧ Run text a e ∧ k ≤ a ∧ e-a = k-i ∧
    ∀ s t, Fenced text s t → (k ≤ s ∨ t ≤ i) ∧ (e ≤ s ∨ t ≤ a)

structure Placed (regions : List CodeRegion) : Prop where
  sorted : regions.Pairwise (fun a b => a.start ≤ b.start)
  within : ∀ r ∈ regions, r.start < r.stop ∧ r.stop ≤ (encode text).length ∧
    isBoundary text r.start = true ∧ isBoundary text r.stop = true

structure Separate (regions : List CodeRegion) : Prop where
  disjoint : regions.Pairwise (fun a b => a.stop ≤ b.start ∨ b.stop ≤ a.start)
  kinds : ∀ r ∈ regions, ∃ i e, r = inBytes text ⟨i, e⟩ ∧ (Block text i e ∨ Outside text i e)

theorem regions_perm : (findCodeRegions text).Perm (fencedRegions text text.length 0++
    spansFrom text (fencedRegions text text.length 0) text.length 0) := by
  have hinline := inline_spans text (fencedRegions text text.length 0) [] text.length 0
    (fun r hr => absurd hr List.not_mem_nil)
  rw [List.append_nil] at hinline
  rw [findCodeRegions, hinline]
  exact List.mergeSort_perm _ _

theorem mem_regions (i e : ℕ) :
    CodeRegion.mk i e ∈ findCodeRegions text ↔ Fenced text i e ∨ Opened text i e := by
  rw [(regions_perm text).mem_iff, List.mem_append, fenced_iff, opened_iff]

theorem region_bounds (r : CodeRegion) (h : r ∈ findCodeRegions text) :
    r.start < r.stop ∧ r.stop ≤ text.length := by
  rcases (mem_regions text r.start r.stop).mp h with hfenced | hopened
  · exact block_bounds text _ _ hfenced.2
  · exact span_bounds text _ _ hopened.2.2

theorem regions_sorted : (findCodeRegions text).Pairwise (fun a b => a.start ≤ b.start) := by
  have htrans : ∀ a b c : CodeRegion, decide (a.start ≤ b.start) = true →
      decide (b.start ≤ c.start) = true → decide (a.start ≤ c.start) = true := by
    intro a b c hab hbc
    rw [decide_eq_true_eq] at *
    exact hab.trans hbc
  have htotal : ∀ a b : CodeRegion,
      (decide (a.start ≤ b.start) || decide (b.start ≤ a.start)) = true := by
    intro a b
    rw [Bool.or_eq_true, decide_eq_true_eq, decide_eq_true_eq]
    exact Nat.le_total _ _
  exact (List.pairwise_mergeSort htrans htotal _).imp of_decide_eq_true

theorem block_span (s t j e : ℕ) (hfenced : Fenced text s t) (hopened : Opened text j e)
    (h : ¬ (j < s ∧ s < e)) : t ≤ j ∨ e ≤ s := by
  by_contra hmeet
  exact hopened.2.1 ⟨s, t, hfenced, by omega, by omega⟩

theorem regions_disjoint : (findCodeRegions text).Pairwise
    (fun a b => a.stop ≤ b.start ∨ b.stop ≤ a.start) ↔ Apart text := by
  constructor
  · intro h j e hopened s t hfenced hin
    have hsymm : Std.Symm (fun a b : CodeRegion => a.stop ≤ b.start ∨ b.stop ≤ a.start) :=
      ⟨fun _ _ hab => hab.symm⟩
    have hne : CodeRegion.mk j e ≠ CodeRegion.mk s t := by
      intro heq
      have hstart := congrArg CodeRegion.start heq
      dsimp only at hstart
      omega
    have hapart := h.forall ((mem_regions text j e).mpr (Or.inr hopened))
      ((mem_regions text s t).mpr (Or.inl hfenced)) hne
    have hbounds := block_bounds text s t hfenced.2
    dsimp only at hapart
    omega
  · intro h
    rw [(regions_perm text).pairwise_iff (fun hab => hab.symm), List.pairwise_append]
    refine ⟨(fenced_apart text text.length 0 (Or.inl (Or.inl rfl))).imp Or.inl,
      (spans_apart text text.length 0 Relation.ReflTransGen.refl).1.imp Or.inl, ?_⟩
    intro a ha b hb
    have hfenced := (fenced_iff text a.start a.stop).mp ha
    have hopened := (opened_iff text b.start b.stop).mp hb
    exact block_span text _ _ _ _ hfenced hopened (h _ _ hopened _ _ hfenced)

theorem opened_outside (j e : ℕ) (hopened : Opened text j e) (h : Apart text) :
    Outside text j e := by
  obtain ⟨k, hk, a, ha, hrun, hlen, -⟩ := id hopened.2.2
  refine ⟨k, a, hk, hrun, ha, hlen, fun s t hfenced => ?_⟩
  have hjk := hk.1
  have hae := hrun.1
  have hapart := block_span text s t j e hfenced hopened (h j e hopened s t hfenced)
  omega

theorem fenced_within : Within text (fencedRegions text text.length 0) := by
  intro r hr
  have hbounds := block_bounds text _ _ ((fenced_iff text r.start r.stop).mp hr).2
  omega

/-- The scanner ends and slices on boundaries only; its regions are in order and
within the text. They are disjoint, and each a fenced block or a span outside
the blocks, exactly if no span has the beginning of a block in it. -/
theorem code_regions (text : List Char) :
    ∃ regions, scanCodeRegions text = some regions ∧ Placed text regions ∧
      (Separate text regions ↔ Apart text) := by
  refine ⟨_, scan_bytes text (fenced_within text), ⟨?_, ?_⟩, ?_⟩
  · rw [List.pairwise_map]
    exact (regions_sorted text).imp (bytePos_le text _ _)
  · intro r hr
    obtain ⟨c, hc, rfl⟩ := List.mem_map.mp hr
    obtain ⟨hlt, hle⟩ := region_bounds text c hc
    refine ⟨bytePos_lt text _ _ hlt hle, ?_, boundary_bytePos text _, boundary_bytePos text _⟩
    rw [← bytePos_length]
    exact bytePos_le text _ _ hle
  · have hdisjoint : ((findCodeRegions text).map (inBytes text)).Pairwise
        (fun a b => a.stop ≤ b.start ∨ b.stop ≤ a.start) ↔ Apart text := by
      rw [List.pairwise_map, ← regions_disjoint]
      refine List.Pairwise.iff_of_mem (fun {a b} ha hb => ?_)
      exact or_congr (bytePos_le_iff text _ _ (region_bounds text a ha).2)
        (bytePos_le_iff text _ _ (region_bounds text b hb).2)
    refine ⟨fun h => hdisjoint.mp h.disjoint, fun h => ⟨hdisjoint.mpr h, fun r hr => ?_⟩⟩
    obtain ⟨c, hc, rfl⟩ := List.mem_map.mp hr
    refine ⟨c.start, c.stop, rfl, ?_⟩
    rcases (mem_regions text c.start c.stop).mp hc with hfenced | hopened
    · exact Or.inl hfenced.2
    · exact Or.inr (opened_outside text _ _ hopened h)

end

def spill : List Char := "\x60a\n\x60\x60\x60\nx\x60\n\x60\x60\x60\n".toList

/-- A backtick in front of a block that has another one in it. -/
theorem spill_overlaps : scanCodeRegions spill = some [⟨0, 9⟩, ⟨3, 14⟩] ∧
    ¬ Separate spill [⟨0, 9⟩, ⟨3, 14⟩] := by
  constructor
  · have hfenced : fencedRegions spill spill.length 0 = [⟨3, 14⟩] := by decide
    have hinline : inlineRegions spill spill.length 0 [⟨3, 14⟩] = [⟨3, 14⟩, ⟨0, 9⟩] := by decide
    have hsorted : [CodeRegion.mk 3 14, ⟨0, 9⟩].mergeSort
        (fun a b => decide (a.start ≤ b.start)) = [⟨0, 9⟩, ⟨3, 14⟩] := by
      simp [List.mergeSort, List.MergeSort.Internal.splitInTwo]
    rw [scan_bytes spill (fenced_within spill), findCodeRegions, hfenced, hinline, hsorted]
    decide
  · intro h
    exact absurd h.disjoint (by decide)

end IronClaw.CodeRegions
