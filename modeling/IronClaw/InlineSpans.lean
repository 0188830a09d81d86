import IronClaw.FencedBlocks

/-!
# Inline spans of code

A span goes from a run of backticks outside the fenced blocks to the next run
of the same length. The second pass looks for that run in the whole text, so a
span can reach into a block or over it.
-/

set_option autoImplicit false

namespace IronClaw.InlineSpans
open IronClaw.ResponseText IronClaw.CodeScanner IronClaw.FencedBlocks
open Lib.Text Lib.Utf8 Lib.BytePositions
open IronClaw.ToolTagCut (skipped le_skipWhile tick_run closingTicks_lt)

section spans

variable (text : List Char)

def Run (a b : ℕ) : Prop :=
  a < b ∧ (∀ m, a ≤ m → m < b → text[m]? = some '\x60') ∧
    (0 < a → text[a-1]? ≠ some '\x60') ∧ text[b]? ≠ some '\x60'

def NoRun (len k : ℕ) : Prop := ∀ a b, Run text a b → k ≤ a → b-a ≠ len

def NextRun (len k e : ℕ) : Prop :=
  ∃ a, k ≤ a ∧ Run text a e ∧ e-a = len ∧ ∀ b f, Run text b f → k ≤ b → b < a → f-b ≠ len

def Span (j e : ℕ) : Prop := ∃ k, Run text j k ∧ NextRun text (k-j) k e

def Covered (j : ℕ) : Prop := ∃ s t, Fenced text s t ∧ s ≤ j ∧ j < t

inductive Move : ℕ → ℕ → Prop where
  | plain (j : ℕ) (hlt : j < text.length) (h : text[j]? = some '\x60' → Covered text j) :
      Move j (j+1)
  | span (j e : ℕ) (hout : ¬ Covered text j) (h : Span text j e) : Move j e
  | lone (j k : ℕ) (hout : ¬ Covered text j) (hrun : Run text j k)
      (h : NoRun text (k-j) k) : Move j k

def Opened (j e : ℕ) : Prop :=
  Relation.ReflTransGen (Move text) 0 j ∧ ¬ Covered text j ∧ Span text j e

def Apart : Prop := ∀ j e, Opened text j e → ∀ s t, Fenced text s t → ¬ (j < s ∧ s < e)

/-! ## Runs -/

theorem run_unique (a b c : ℕ) (hb : Run text a b) (hc : Run text a c) : b = c := by
  rcases Nat.lt_trichotomy b c with h | h | h
  · exact absurd (hc.2.1 b hb.1.le h) hb.2.2.2
  · exact h
  · exact absurd (hb.2.1 c hc.1.le h) hc.2.2.2

theorem run_apart (a b c d : ℕ) (hab : Run text a b) (hcd : Run text c d) (h : a < c) : b ≤ c := by
  by_contra hlt
  exact hcd.2.2.1 (by omega) (hab.2.1 (c-1) (by omega) (by omega))

theorem run_skip (a : ℕ) (ha : text[a]? = some '\x60') (hedge : 0 < a → text[a-1]? ≠ some '\x60') :
    Run text a (skipWhile (fun c => c = '\x60') text a) := by
  refine ⟨tick_run text a ha, fun m hm hlt => ?_, hedge, fun hend => ?_⟩
  · obtain ⟨c, hc, htick⟩ := skipped text (fun c => c = '\x60') a m hm hlt
    rw [hc, of_decide_eq_true htick]
  · rw [← List.head?_drop] at hend
    exact absurd (head_skip text (fun c => c = '\x60') a '\x60' hend) (by decide)

theorem nextRun_unique (len k e e' : ℕ) (h : NextRun text len k e) (h' : NextRun text len k e') :
    e = e' := by
  obtain ⟨a, ha, hrun, hlen, hfirst⟩ := h
  obtain ⟨b, hb, hrun', hlen', hfirst'⟩ := h'
  rcases Nat.lt_trichotomy a b with hab | rfl | hab
  · exact absurd hlen (hfirst' a e hrun ha hab)
  · exact run_unique text a e e' hrun hrun'
  · exact absurd hlen' (hfirst b e' hrun' hb hab)

theorem nextRun_found (len k e : ℕ) (h : NextRun text len k e) : ¬ NoRun text len k := by
  intro hnone
  obtain ⟨a, ha, hrun, hlen, -⟩ := h
  exact hnone a e hrun ha hlen

theorem span_unique (j e e' : ℕ) (h : Span text j e) (h' : Span text j e') : e = e' := by
  obtain ⟨k, hk, he⟩ := h
  obtain ⟨l, hl, he'⟩ := h'
  obtain rfl := run_unique text j k l hk hl
  exact nextRun_unique text _ k e e' he he'

theorem run_bound (a b : ℕ) (h : Run text a b) : b ≤ text.length := by
  have hlast := h.2.1 (b-1) (by have := h.1; omega) (by have := h.1; omega)
  obtain ⟨hlt, -⟩ := List.getElem?_eq_some_iff.mp hlast
  omega

theorem span_bounds (j e : ℕ) (h : Span text j e) : j < e ∧ e ≤ text.length := by
  obtain ⟨k, hk, a, ha, hrun, -, -⟩ := h
  have hjk := hk.1
  have hae := hrun.1
  exact ⟨by omega, run_bound text a e hrun⟩

theorem span_tick (j e : ℕ) (h : Span text j e) : text[j]? = some '\x60' := by
  obtain ⟨k, hk, -⟩ := h
  exact hk.2.1 j (Nat.le_refl j) hk.1

/-! ## The search for the closing run -/

/-- The search of the second pass gives the next run of the length. -/
theorem closingTicks_next (len fuel k : ℕ) (hfuel : text.length-k ≤ fuel)
    (hedge : text[k]? = some '\x60' → 0 < k → text[k-1]? ≠ some '\x60') :
    match closingTicks text len fuel k with
    | some e => NextRun text len k e
    | none => NoRun text len k := by
  have hbeyond (k : ℕ) (h : text.length ≤ k) : NoRun text len k := by
    intro a b hrun ha
    have hbound := run_bound text a b hrun
    have hlt := hrun.1
    omega
  induction fuel generalizing k with
  | zero => exact hbeyond k (by omega)
  | succ fuel ih =>
    rw [closingTicks]
    by_cases hend : text.length ≤ k
    · rw [if_pos hend]
      exact hbeyond k hend
    · rw [if_neg hend]
      by_cases htick : text[k]? = some '\x60'
      · rw [if_neg (not_not.mpr htick)]
        have hrun := run_skip text k htick (hedge htick)
        dsimp only
        generalize skipWhile (fun c => decide (c = '\x60')) text k = e at *
        have hlt := hrun.1
        -- a run from here on is this one, or it begins behind its end
        have hlater (a b : ℕ) (hab : Run text a b) (ha : k ≤ a) (hne : b-a = len)
            (hlen : e-k ≠ len) : e ≤ a := by
          rcases Nat.eq_or_lt_of_le ha with rfl | hka
          · rw [run_unique text k b e hab hrun] at hne
            exact absurd hne hlen
          · exact run_apart text k e a b hrun hab hka
        by_cases hlen : e-k = len
        · rw [if_pos hlen]
          exact ⟨k, Nat.le_refl k, hrun, hlen, fun b f _ hb hbk => by omega⟩
        · rw [if_neg hlen]
          have hrest := ih e (by omega) (fun h => absurd h hrun.2.2.2)
          cases hclose : closingTicks text len fuel e with
          | some stop =>
            rw [hclose] at hrest
            obtain ⟨a, ha, hrun', hlen', hfirst⟩ := hrest
            refine ⟨a, by omega, hrun', hlen', fun b f hbf hb hba heq => ?_⟩
            exact hfirst b f hbf (hlater b f hbf hb heq hlen) hba heq
          | none =>
            rw [hclose] at hrest
            exact fun a b hab ha heq => hrest a b hab (hlater a b hab ha heq hlen) heq
      · rw [if_pos htick]
        have hrest := ih (k+1) (by omega) (fun _ _ => by rwa [Nat.add_sub_cancel])
        have hlater (a b : ℕ) (hab : Run text a b) (ha : k ≤ a) : k+1 ≤ a := by
          refine Nat.lt_of_le_of_ne ha ?_
          rintro rfl
          exact htick (hab.2.1 k (Nat.le_refl k) hab.1)
        cases hclose : closingTicks text len fuel (k+1) with
        | some stop =>
          rw [hclose] at hrest
          obtain ⟨a, ha, hrun', hlen', hfirst⟩ := hrest
          exact ⟨a, by omega, hrun', hlen', fun b f hbf hb => hfirst b f hbf (hlater b f hbf hb)⟩
        | none =>
          rw [hclose] at hrest
          exact fun a b hab ha => hrest a b hab (hlater a b hab ha)

/-! ## The second pass -/

def spansFrom (fenced : List CodeRegion) : ℕ → ℕ → List CodeRegion
  | 0, _ => []
  | fuel+1, j =>
    if text.length ≤ j then []
    else if text[j]? ≠ some '\x60' ∨ isInsideCode j fenced = true then
      spansFrom fenced fuel (j+1)
    else
      let k := skipWhile (fun c => c = '\x60') text j
      match closingTicks text (k-j) text.length k with
      | some e => ⟨j, e⟩::spansFrom fenced fuel e
      | none => spansFrom fenced fuel k

/-- The spans found before a position do not hide it. -/
theorem inline_spans (fenced spans : List CodeRegion) (fuel j : ℕ) (h : ∀ r ∈ spans, r.stop ≤ j) :
    inlineRegions text fuel j (fenced++spans) = fenced++spans++spansFrom text fenced fuel j := by
  induction fuel generalizing j spans with
  | zero => exact (List.append_nil _).symm
  | succ fuel ih =>
    have hinside : isInsideCode j (fenced++spans) = isInsideCode j fenced := by
      have hnone : isInsideCode j spans = false := by
        rw [isInsideCode, List.any_eq_false]
        intro r hr
        have hstop := h r hr
        simp only [Bool.and_eq_true, decide_eq_true_eq]
        omega
      rw [isInsideCode, List.any_append]
      exact (congrArg (isInsideCode j fenced || ·) hnone).trans (Bool.or_false _)
    rw [inlineRegions, spansFrom, hinside]
    split
    · exact (List.append_nil _).symm
    · split
      · exact ih spans (j+1) (fun r hr => Nat.le_succ_of_le (h r hr))
      · dsimp only
        have hk := le_skipWhile text (fun c => c = '\x60') j
        cases hclose : closingTicks text (skipWhile (fun c => c = '\x60') text j-j) text.length
            (skipWhile (fun c => c = '\x60') text j) with
        | none => exact ih spans _ (fun r hr => (h r hr).trans hk)
        | some e =>
          have hlt := closingTicks_lt text _ _ _ e hclose
          have hspans : ∀ r ∈ spans++[CodeRegion.mk j e], r.stop ≤ e := by
            intro r hr
            rcases List.mem_append.mp hr with hr | hr
            · have hstop := h r hr
              omega
            · rw [List.mem_singleton.mp hr]
          have hrest := ih (spans++[⟨j, e⟩]) e hspans
          dsimp only
          rw [List.append_assoc, hrest, List.append_assoc, List.append_assoc, List.append_assoc,
            List.singleton_append]

theorem covered_iff (j : ℕ) :
    isInsideCode j (fencedRegions text text.length 0) = true ↔ Covered text j := by
  rw [isInsideCode, List.any_eq_true]
  constructor
  · rintro ⟨⟨s, t⟩, hr, hin⟩
    simp only [Bool.and_eq_true, decide_eq_true_eq] at hin
    exact ⟨s, t, (fenced_iff text s t).mp hr, hin⟩
  · rintro ⟨s, t, hfenced, hin⟩
    refine ⟨⟨s, t⟩, (fenced_iff text s t).mpr hfenced, ?_⟩
    simpa using hin

/-- Outside the blocks the pass does not stand inside a run. -/
theorem visited_edge (j : ℕ) (hj : Relation.ReflTransGen (Move text) 0 j)
    (hout : ¬ Covered text j) (htick : text[j]? = some '\x60') :
    0 < j → text[j-1]? ≠ some '\x60' := by
  rcases Relation.ReflTransGen.cases_tail hj with rfl | ⟨p, -, hmove⟩
  · exact fun h => absurd h (Nat.lt_irrefl 0)
  · cases hmove with
    | plain hlt hover =>
      intro _ hbefore
      rw [Nat.add_sub_cancel] at hbefore
      obtain ⟨s, t, hfenced, hs, ht⟩ := hover hbefore
      have hend : t = p+1 := by
        by_contra hne
        exact hout ⟨s, t, hfenced, by omega, by omega⟩
      rcases block_break text s t hfenced.2 with hstart | hlast
      · rcases hstart with hzero | ⟨-, hbreak⟩
        · omega
        · rw [hend, Nat.add_sub_cancel, hbefore] at hbreak
          exact absurd hbreak (by decide)
      · rw [List.getElem?_eq_none (by omega)] at htick
        cases htick
    | span _ _ hspan =>
      obtain ⟨k, -, a, -, hrun, -⟩ := hspan
      exact absurd htick hrun.2.2.2
    | lone _ _ hrun => exact absurd htick hrun.2.2.2

theorem move_unique (j a b : ℕ) (ha : Move text j a) (hb : Move text j b) : a = b := by
  cases ha with
  | plain hlt h =>
    cases hb with
    | plain => rfl
    | span _ hout hspan => exact absurd (h (span_tick text j b hspan)) hout
    | lone _ hout hrun => exact absurd (h (hrun.2.1 j (Nat.le_refl j) hrun.1)) hout
  | span _ hout hspan =>
    cases hb with
    | plain _ h => exact absurd (h (span_tick text j a hspan)) hout
    | span _ _ hspan' => exact span_unique text j a b hspan hspan'
    | lone _ _ hrun h =>
      obtain ⟨k, hk, hnext⟩ := hspan
      rw [run_unique text j k b hk hrun] at hnext
      exact absurd h (nextRun_found text _ _ a hnext)
  | lone _ hout hrun h =>
    cases hb with
    | plain _ hcovered => exact absurd (hcovered (hrun.2.1 j (Nat.le_refl j) hrun.1)) hout
    | span _ _ hspan =>
      obtain ⟨k, hk, hnext⟩ := hspan
      rw [run_unique text j k a hk hrun] at hnext
      exact absurd h (nextRun_found text _ _ b hnext)
    | lone _ _ hrun' _ => exact run_unique text j a b hrun hrun'

theorem move_increases (j k : ℕ) (h : Move text j k) : j < k ∧ k ≤ text.length := by
  cases h with
  | plain hlt _ => omega
  | span _ _ hspan => exact span_bounds text j k hspan
  | lone _ _ hrun _ => exact ⟨hrun.1, run_bound text j k hrun⟩

/-- What the second pass does at a position. -/
theorem spans_step (fuel j : ℕ) (hlt : j < text.length)
    (hj : Relation.ReflTransGen (Move text) 0 j) :
    (∃ e, ¬ Covered text j ∧ Span text j e ∧
      spansFrom text (fencedRegions text text.length 0) (fuel+1) j =
        ⟨j, e⟩::spansFrom text (fencedRegions text text.length 0) fuel e) ∨
    ∃ k, Move text j k ∧ (Covered text j ∨ ∀ e, ¬ Span text j e) ∧
      spansFrom text (fencedRegions text text.length 0) (fuel+1) j =
        spansFrom text (fencedRegions text text.length 0) fuel k := by
  rw [spansFrom, if_neg (not_le.mpr hlt)]
  by_cases hover : text[j]? ≠ some '\x60' ∨
      isInsideCode j (fencedRegions text text.length 0) = true
  · right
    rw [if_pos hover]
    rw [covered_iff] at hover
    refine ⟨j+1, Move.plain j hlt (fun h => hover.resolve_left (not_not.mpr h)), ?_, rfl⟩
    rcases hover with hother | hcovered
    · exact Or.inr (fun e hspan => hother (span_tick text j e hspan))
    · exact Or.inl hcovered
  · rw [if_neg hover]
    rw [covered_iff, not_or, not_not] at hover
    have hrun := run_skip text j hover.1 (visited_edge text j hj hover.2 hover.1)
    dsimp only
    generalize skipWhile (fun c => decide (c = '\x60')) text j = k at *
    have hnext := closingTicks_next text (k-j) text.length k (Nat.sub_le _ _)
      (fun h => absurd h hrun.2.2.2)
    cases hclose : closingTicks text (k-j) text.length k with
    | some e =>
      rw [hclose] at hnext
      exact Or.inl ⟨e, hover.2, ⟨k, hrun, hnext⟩, rfl⟩
    | none =>
      rw [hclose] at hnext
      refine Or.inr ⟨k, Move.lone j k hover.2 hrun hnext, Or.inr (fun e hspan => ?_), rfl⟩
      obtain ⟨l, hl, hfound⟩ := hspan
      rw [run_unique text j l k hl hrun] at hfound
      exact nextRun_found text _ _ e hfound hnext

theorem spans_end (fenced : List CodeRegion) (fuel j : ℕ) (h : text.length ≤ j) :
    spansFrom text fenced fuel j = [] := by
  cases fuel with
  | zero => rfl
  | succ fuel =>
    rw [spansFrom]
    exact if_pos h

theorem spans_sound (fuel j : ℕ) (hj : Relation.ReflTransGen (Move text) 0 j) :
    ∀ r ∈ spansFrom text (fencedRegions text text.length 0) fuel j, Opened text r.start r.stop := by
  induction fuel generalizing j with
  | zero => exact fun r hr => absurd hr List.not_mem_nil
  | succ fuel ih =>
    intro r hr
    by_cases hlt : j < text.length
    · rcases spans_step text fuel j hlt hj with ⟨e, hout, hspan, heq⟩ | ⟨k, hmove, -, heq⟩
      · rw [heq, List.mem_cons] at hr
        rcases hr with rfl | hr
        · exact ⟨hj, hout, hspan⟩
        · exact ih e (hj.tail (Move.span j e hout hspan)) r hr
      · rw [heq] at hr
        exact ih k (hj.tail hmove) r hr
    · rw [spans_end text _ _ j (not_lt.mp hlt)] at hr
      exact absurd hr List.not_mem_nil

theorem spans_complete (fuel j s e : ℕ) (hfuel : text.length-j ≤ fuel)
    (hj : Relation.ReflTransGen (Move text) 0 j) (hs : Relation.ReflTransGen (Move text) j s)
    (hout : ¬ Covered text s) (hspan : Span text s e) :
    CodeRegion.mk s e ∈ spansFrom text (fencedRegions text text.length 0) fuel j := by
  have hbounds := span_bounds text s e hspan
  induction fuel generalizing j with
  | zero =>
    rcases Relation.ReflTransGen.cases_head hs with rfl | ⟨k, hk, -⟩
    · omega
    · have hstep := move_increases text j k hk
      omega
  | succ fuel ih =>
    have hlt : j < text.length := by
      rcases Relation.ReflTransGen.cases_head hs with rfl | ⟨k, hk, -⟩
      · omega
      · have hstep := move_increases text j k hk
        omega
    have hlater (k : ℕ) (hk : Move text j k) (hne : s ≠ j) :
        CodeRegion.mk s e ∈ spansFrom text (fencedRegions text text.length 0) fuel k := by
      have hincreases := move_increases text j k hk
      rcases Relation.ReflTransGen.cases_head hs with heq | ⟨l, hl, hrest⟩
      · exact absurd heq.symm hne
      · rw [move_unique text j l k hl hk] at hrest
        exact ih k (by omega) (hj.tail hk) hrest
    rcases spans_step text fuel j hlt hj with ⟨e', hout', hspan', heq⟩ | ⟨k, hmove, hnone, heq⟩
    · rw [heq, List.mem_cons]
      by_cases hsame : s = j
      · subst hsame
        rw [span_unique text s e e' hspan hspan']
        exact Or.inl rfl
      · exact Or.inr (hlater e' (Move.span j e' hout' hspan') hsame)
    · rw [heq]
      refine hlater k hmove ?_
      rintro rfl
      exact hnone.elim hout (fun h => h e hspan)

/-- Each span begins behind the end of the one before. -/
theorem spans_apart (fuel j : ℕ) (hj : Relation.ReflTransGen (Move text) 0 j) :
    (spansFrom text (fencedRegions text text.length 0) fuel j).Pairwise
      (fun a b => a.stop ≤ b.start) ∧
    ∀ r ∈ spansFrom text (fencedRegions text text.length 0) fuel j, j ≤ r.start := by
  induction fuel generalizing j with
  | zero => exact ⟨List.Pairwise.nil, fun r hr => absurd hr List.not_mem_nil⟩
  | succ fuel ih =>
    by_cases hlt : j < text.length
    · rcases spans_step text fuel j hlt hj with ⟨e, hout, hspan, heq⟩ | ⟨k, hmove, -, heq⟩
      · obtain ⟨hrest, hstart⟩ := ih e (hj.tail (Move.span j e hout hspan))
        have hbounds := span_bounds text j e hspan
        rw [heq]
        refine ⟨List.pairwise_cons.mpr ⟨hstart, hrest⟩, fun r hr => ?_⟩
        rcases List.mem_cons.mp hr with rfl | hr
        · exact Nat.le_refl j
        · have hr' := hstart r hr
          omega
      · obtain ⟨hrest, hstart⟩ := ih k (hj.tail hmove)
        have hincreases := move_increases text j k hmove
        rw [heq]
        refine ⟨hrest, fun r hr => ?_⟩
        have hr' := hstart r hr
        omega
    · rw [spans_end text _ _ j (not_lt.mp hlt)]
      exact ⟨List.Pairwise.nil, fun r hr => absurd hr List.not_mem_nil⟩

theorem opened_iff (s e : ℕ) :
    CodeRegion.mk s e ∈ spansFrom text (fencedRegions text text.length 0) text.length 0 ↔
      Opened text s e := by
  constructor
  · exact spans_sound text text.length 0 Relation.ReflTransGen.refl _
  · rintro ⟨hreached, hout, hspan⟩
    exact spans_complete text text.length 0 s e (Nat.sub_le _ _) Relation.ReflTransGen.refl
      hreached hout hspan

end spans

end IronClaw.InlineSpans
