import IronClaw.Lib.Letters
import IronClaw.ResponseText

/-!
# The cut at tool tags

`truncate_at_tool_tags` of `llm/reasoning.rs` cuts a text at the first tool tag
outside code that nothing closes. The code regions before the cut are the same
in the text that is left: a region that goes on beyond it would hide the tag.
-/

set_option autoImplicit false

namespace IronClaw.ToolTagCut
open IronClaw.ResponseText Lib.Text Lib.Search Lib.Letters

def Opens (lower : List Char) (regions : List CodeRegion) (p : String) (q : ℕ) : Prop :=
  p.toList <+: lower.drop q ∧ isInsideCode q regions = false

def ClosesAt (lower : List Char) (p : String) (q s : ℕ) : Prop :=
  q+p.toList.length ≤ s ∧ ∃ close, closingTagFor p = some close ∧ close <+: lower.drop s

def OpensIn (text : List Char) : String → ℕ → Prop :=
  Opens (text.map Char.toLower) (findCodeRegions text)

def ClosesIn (text : List Char) : String → ℕ → ℕ → Prop := ClosesAt (text.map Char.toLower)

def AllClosed (text : List Char) : Prop :=
  ∀ p ∈ toolTagPatterns, ∀ q, OpensIn text p q → ∃ s, ClosesIn text p q s

structure FirstUnclosed (text : List Char) (u : ℕ) : Prop where
  unclosed : ∃ p ∈ toolTagPatterns, OpensIn text p u ∧ ∀ s, ¬ ClosesIn text p u s
  before : ∀ v < u, ∀ p ∈ toolTagPatterns, OpensIn text p v → ∃ s, ClosesIn text p v s

structure Stable (text : List Char) : Prop where
  cut : truncateAtToolTags text <+: text
  closed : AllClosed (truncateAtToolTags text)
  again : truncateAtToolTags (truncateAtToolTags text) = truncateAtToolTags text

section scanning

variable (text : List Char) (u : ℕ) (hu : text[u]? = some '<')

theorem takeWhile_stop {α : Type} (p : α → Bool) (a b : List α) (x : α) (hx : p x = false) :
    (a++x::b).takeWhile p = a.takeWhile p := by
  induction a with
  | nil => rw [List.nil_append, List.takeWhile_cons_of_neg (by simp [hx]), List.takeWhile_nil]
  | cons c a ih =>
    rw [List.cons_append, List.takeWhile_cons, List.takeWhile_cons, ih]

theorem skipped (p : Char → Bool) (i m : ℕ) (hi : i ≤ m) (hm : m < skipWhile p text i) :
    ∃ c, text[m]? = some c ∧ p c = true := by
  rw [skipWhile] at hm
  have hlt : m-i < ((text.drop i).takeWhile p).length := by omega
  refine ⟨((text.drop i).takeWhile p)[m-i], ?_, List.mem_takeWhile_imp (List.getElem_mem hlt)⟩
  obtain ⟨rest, hrest⟩ := List.takeWhile_prefix p (l := text.drop i)
  have hchar : text[m]? = (text.drop i)[m-i]? := by
    rw [List.getElem?_drop, Nat.add_sub_cancel' hi]
  have hin : (((text.drop i).takeWhile p)++rest)[m-i]? = ((text.drop i).takeWhile p)[m-i]? :=
    List.getElem?_append_left hlt
  rw [hrest, List.getElem?_eq_getElem hlt] at hin
  rw [hchar, hin]

theorem le_skipWhile (p : Char → Bool) (i : ℕ) : i ≤ skipWhile p text i := Nat.le_add_right _ _

theorem nextLine_some (i n : ℕ) (h : nextLine text i = some n) :
    i < n ∧ text[n-1]? = some '\n' := by
  obtain ⟨m, hm, rfl⟩ := Option.map_eq_some_iff.mp h
  obtain ⟨hlt, hnewline, -⟩ := List.findIdx?_eq_some_iff_getElem.mp hm
  refine ⟨by omega, ?_⟩
  rw [decide_eq_true_eq, List.getElem_drop] at hnewline
  rw [show i+m+1-1 = i+m by omega, ← hnewline]
  exact List.getElem?_eq_getElem _

include hu

theorem take_length : (text.take u).length = u := by
  obtain ⟨hlt, -⟩ := List.getElem?_eq_some_iff.mp hu
  rw [List.length_take]
  omega

theorem drop_split (i : ℕ) (hi : i ≤ u) :
    ∃ rest, text.drop i = (text.take u).drop i++ '<' ::rest := by
  obtain ⟨hlt, hchar⟩ := List.getElem?_eq_some_iff.mp hu
  refine ⟨text.drop (u+1), ?_⟩
  rw [← hchar, List.cons_getElem_drop_succ, ← List.drop_append_of_le_length,
    List.take_append_drop]
  rw [take_length text u hu]
  exact hi

theorem skip_take (p : Char → Bool) (hp : p '<' = false) (i : ℕ) (hi : i ≤ u) :
    skipWhile p (text.take u) i = skipWhile p text i ∧ skipWhile p text i ≤ u := by
  obtain ⟨rest, hrest⟩ := drop_split text u hu i hi
  have hsame : (text.drop i).takeWhile p = ((text.take u).drop i).takeWhile p := by
    rw [hrest, takeWhile_stop p _ _ _ hp]
  have hlen := (List.takeWhile_prefix p (l := (text.take u).drop i)).length_le
  rw [List.length_drop, take_length text u hu] at hlen
  rw [skipWhile, skipWhile, hsame]
  exact ⟨rfl, by omega⟩

theorem nextLine_take (i : ℕ) (hi : i ≤ u) :
    nextLine (text.take u) i = (nextLine text i).filter (fun n => decide (n ≤ u)) := by
  obtain ⟨rest, hrest⟩ := drop_split text u hu i hi
  have hlen : ((text.take u).drop i).length = u-i := by
    rw [List.length_drop, take_length text u hu]
  rw [nextLine, nextLine, hrest, List.findIdx?_append]
  cases hfirst : ((text.take u).drop i).findIdx? (fun c => c = '\n') with
  | some m =>
    have hlt := (List.findIdx?_eq_some_iff_getElem.mp hfirst).1
    rw [Option.some_or, Option.map_some, Option.filter_some_pos]
    rw [decide_eq_true_eq]
    omega
  | none =>
    rw [Option.none_or, Option.map_none]
    cases hrest' : ('<' ::rest).findIdx? (fun c => c = '\n') with
    | none => rfl
    | some m =>
      have hpos : m ≠ 0 := by
        rintro rfl
        obtain ⟨_, hchar, -⟩ := List.findIdx?_eq_some_iff_getElem.mp hrest'
        simp at hchar
      have hbeyond : ¬ i+(m+((text.take u).drop i).length)+1 ≤ u := by omega
      rw [Option.map_some, Option.map_some, Option.filter_some_neg (by simpa using hbeyond)]

end scanning

section fences

variable (text : List Char) (u : ℕ)

theorem closingFence_lt (c : Char) (len fuel line stop : ℕ)
    (h : closingFence text c len fuel line = some stop) : line < stop := by
  induction fuel generalizing line with
  | zero => cases h
  | succ fuel ih =>
    rw [closingFence] at h
    split at h
    · cases h
    · next hline =>
      dsimp only at h
      have hi := le_skipWhile text isBlank line
      have hk := le_skipWhile text (fun d => d = c) (skipWhile isBlank text line)
      have he := le_skipWhile text isBlank
        (skipWhile (fun d => d = c) text (skipWhile isBlank text line))
      split at h
      · rw [Option.some.injEq] at h
        split at h <;> omega
      · obtain ⟨n, hn, hrest⟩ := Option.bind_eq_some_iff.mp h
        exact Nat.lt_trans (nextLine_some text line n hn).1 (ih n hrest)

variable (hu : text[u]? = some '<')
include hu

/-- A closing fence before the cut closes the block in what is left. -/
theorem closingFence_take (c : Char) (hc : c ≠ '<' ∧ c ≠ '\n') (len f1 f2 line stop : ℕ)
    (h : closingFence text c len f1 line = some stop) (hstop : stop ≤ u) (hf : u-line ≤ f2) :
    closingFence (text.take u) c len f2 line = some stop := by
  induction f1 generalizing line f2 with
  | zero => cases h
  | succ f1 ih =>
    have hline := closingFence_lt text c len _ line stop h
    have hlong : u < text.length := (List.getElem?_eq_some_iff.mp hu).1
    obtain ⟨f2, rfl⟩ : ∃ f, f2 = f+1 := ⟨f2-1, by omega⟩
    obtain ⟨hi, hiu⟩ := skip_take text u hu isBlank rfl line (by omega)
    obtain ⟨hk, hku⟩ := skip_take text u hu (fun d => d = c)
      (decide_eq_false (Ne.symm hc.1)) _ hiu
    obtain ⟨he, heu⟩ := skip_take text u hu isBlank rfl _ hku
    rw [closingFence, if_neg (by omega)] at h
    rw [closingFence, take_length text u hu, if_neg (by omega)]
    dsimp only at h ⊢
    rw [hi, hk, he]
    generalize hgi : skipWhile isBlank text line = i at *
    generalize hgk : skipWhile (fun d => d = c) text i = k at *
    generalize hge : skipWhile isBlank text k = e at *
    by_cases hcond : len ≤ k-i ∧ (text.length ≤ e ∨ text[e]? = some '\n')
    · rw [if_pos hcond, Option.some.injEq] at h
      have hbefore : e < u ∧ e+1 = stop := by
        split at h <;> omega
      have hchar : (text.take u)[e]? = some '\n' := by
        rw [List.getElem?_take_of_lt hbefore.1]
        exact hcond.2.resolve_left (by omega)
      rw [if_pos ⟨hcond.1, Or.inr hchar⟩, if_pos hbefore.1, hbefore.2]
    · rw [if_neg hcond] at h
      obtain ⟨n, hn, hrest⟩ := Option.bind_eq_some_iff.mp h
      have hstep := closingFence_lt text c len _ n stop hrest
      obtain ⟨hafter, hbreak⟩ := nextLine_some text line n hn
      have hnext := nextLine_take text u hu line (by omega)
      rw [hn, Option.filter_some_pos (by simp; omega)] at hnext
      -- The line break before the cut stops every skip.
      have hstops : e ≤ n-1 := by
        by_contra hover
        have hskipped : ∃ d, text[n-1]? = some d ∧ (isBlank d = true ∨ d = c) := by
          by_cases hfirst : n-1 < i
          · obtain ⟨d, hd, hblank⟩ := skipped text isBlank line (n-1) (by omega) (hgi ▸ hfirst)
            exact ⟨d, hd, Or.inl hblank⟩
          by_cases hsecond : n-1 < k
          · obtain ⟨d, hd, hfence⟩ := skipped text _ i (n-1) (by omega) (hgk ▸ hsecond)
            exact ⟨d, hd, Or.inr (of_decide_eq_true hfence)⟩
          · obtain ⟨d, hd, hblank⟩ := skipped text isBlank k (n-1) (by omega) (by omega)
            exact ⟨d, hd, Or.inl hblank⟩
        obtain ⟨d, hd, hkind⟩ := hskipped
        rw [hbreak, Option.some.injEq] at hd
        rw [← hd] at hkind
        obtain hblank | hfence := hkind
        · cases hblank
        · exact hc.2 hfence.symm
      have hcond' : ¬ (len ≤ k-i ∧ (u ≤ e ∨ (text.take u)[e]? = some '\n')) := by
        rintro ⟨hlen, hend | hchar⟩
        · omega
        · rw [List.getElem?_take_of_lt (by omega)] at hchar
          exact hcond ⟨hlen, Or.inr hchar⟩
      rw [if_neg hcond', hnext, Option.bind_some]
      exact ih f2 n hrest (by omega)

omit hu in
theorem fenced_starts (fuel i : ℕ) : ∀ r ∈ fencedRegions text fuel i, i ≤ r.start := by
  induction fuel generalizing i with
  | zero => exact fun r hr => absurd hr List.not_mem_nil
  | succ fuel ih =>
    intro r hr
    have hnext (j n : ℕ) (hj : i ≤ j) (hn : nextLine text j = some n)
        (hr : r ∈ fencedRegions text fuel n) : i ≤ r.start := by
      have hlt := (nextLine_some text j n hn).1
      have hstart := ih n r hr
      omega
    rw [fencedRegions] at hr
    split at hr
    · cases hr
    · split at hr
      · split at hr
        · next n hn => exact hnext i n (le_refl i) hn hr
        · cases hr
      · dsimp only at hr
        have hj := le_skipWhile text isBlank i
        split at hr
        · cases hr
        · next c _ =>
          split at hr
          · split at hr
            · next n hn => exact hnext _ n hj hn hr
            · cases hr
          · split at hr
            · rw [List.mem_singleton.mp hr]
            · next body hbody =>
              split at hr
              · next stop hstop =>
                obtain hr | hr := List.mem_cons.mp hr
                · rw [hr]
                · have hk := le_skipWhile text (fun d => d = c) (skipWhile isBlank text i)
                  have hlt := (nextLine_some text _ body hbody).1
                  have hfence := closingFence_lt text c _ _ body stop hstop
                  have hstart := ih stop r hr
                  omega
              · rw [List.mem_singleton.mp hr]

theorem fenced_beyond (f1 f2 i : ℕ) (hi : u ≤ i) : fencedRegions (text.take u) f2 i =
    (fencedRegions text f1 i).filter (fun r => decide (r.start < u)) := by
  have hnone : fencedRegions (text.take u) f2 i = [] := by
    cases f2 with
    | zero => rfl
    | succ f2 => rw [fencedRegions, take_length text u hu, if_pos hi]
  rw [hnone, List.filter_eq_nil_iff.mpr]
  intro r hr
  have hstart := fenced_starts text f1 i r hr
  rw [decide_eq_true_eq]
  omega

/-- The blocks behind a line, when those behind every later position are known. -/
theorem rest_take (f1 f2 j : ℕ) (hju : j ≤ u)
    (hrest : ∀ n, j < n → (∀ r ∈ fencedRegions text f1 n, ¬ (r.start ≤ u ∧ u < r.stop)) →
      fencedRegions (text.take u) f2 n =
        (fencedRegions text f1 n).filter (fun r => decide (r.start < u)))
    (hout : ∀ r ∈ (match nextLine text j with
      | some n => fencedRegions text f1 n
      | none => []), ¬ (r.start ≤ u ∧ u < r.stop)) :
    (match nextLine (text.take u) j with
      | some n => fencedRegions (text.take u) f2 n
      | none => []) = (match nextLine text j with
      | some n => fencedRegions text f1 n
      | none => []).filter (fun r => decide (r.start < u)) := by
  rw [nextLine_take text u hu j hju]
  cases hn : nextLine text j with
  | none => rfl
  | some n =>
    have hafter := (nextLine_some text j n hn).1
    rw [hn] at hout
    by_cases hnu : n ≤ u
    · rw [Option.filter_some_pos (by simpa using hnu)]
      exact hrest n hafter hout
    · rw [Option.filter_some_neg (by simpa using hnu)]
      exact (fenced_beyond text u hu f1 0 n (by omega)).symm ▸ rfl

/-- The fenced blocks before the cut, where no block is cut. -/
theorem fencedRegions_take (f1 f2 i : ℕ) (hf1 : text.length-i ≤ f1) (hf2 : u-i ≤ f2)
    (hout : ∀ r ∈ fencedRegions text f1 i, ¬ (r.start ≤ u ∧ u < r.stop)) :
    fencedRegions (text.take u) f2 i =
      (fencedRegions text f1 i).filter (fun r => decide (r.start < u)) := by
  have hlong : u < text.length := (List.getElem?_eq_some_iff.mp hu).1
  have hlen := take_length text u hu
  induction f1 generalizing i f2 with
  | zero => exact fenced_beyond text u hu 0 f2 i (by omega)
  | succ f1 ih =>
    by_cases hi : u ≤ i
    · exact fenced_beyond text u hu _ f2 i hi
    obtain ⟨f2, rfl⟩ : ∃ f, f2 = f+1 := ⟨f2-1, by omega⟩
    have hline (j : ℕ) (hj : i ≤ j) (hju : j ≤ u) :=
      rest_take text u hu f1 f2 j hju (fun n hn => ih f2 n (by omega) (by omega))
    have htext := fencedRegions.eq_2 text i f1
    have htake := fencedRegions.eq_2 (text.take u) i f2
    rw [if_neg (by omega)] at htext htake
    rw [List.getElem?_take_of_lt (by omega)] at htake
    rw [htext] at hout ⊢
    rw [htake]
    clear htext htake
    by_cases hmid : 0 < i ∧ text[i-1]? ≠ some '\n'
    · rw [if_pos hmid] at hout ⊢
      rw [if_pos hmid]
      exact hline i (le_refl i) (by omega) hout
    · rw [if_neg hmid] at hout ⊢
      rw [if_neg hmid]
      obtain ⟨hskip, hju⟩ := skip_take text u hu isBlank rfl i (by omega)
      have hj := le_skipWhile text isBlank i
      rw [hskip]
      dsimp only at hout ⊢
      generalize hgj : skipWhile isBlank text i = j at *
      obtain ⟨c, hc⟩ : ∃ c, text[j]? = some c := ⟨_, List.getElem?_eq_getElem (by omega)⟩
      rw [hc] at hout ⊢
      dsimp only at hout ⊢
      by_cases hend : j = u
      · -- The line of the cut, which is blank before it, begins no block.
        have hchar : c = '<' := by
          rw [hend, hu, Option.some.injEq] at hc
          exact hc.symm
        have hnone : (text.take u)[j]? = none := by
          rw [List.getElem?_eq_none_iff]
          omega
        have hlast : nextLine (text.take u) j = none := by
          rw [nextLine, List.drop_eq_nil_of_le (by omega)]
          rfl
        have hplain : (c ≠ '\x60' ∧ c ≠ '~') ∨ skipWhile (fun d => d = c) text j-j < 3 := by
          rw [hchar]
          exact Or.inl (by decide)
        rw [if_pos hplain] at hout ⊢
        have hnothing := hline j hj hju hout
        rw [hlast] at hnothing
        rw [hnone]
        exact hnothing
      · rw [List.getElem?_take_of_lt (by omega), hc]
        dsimp only
        by_cases hplain : (c ≠ '\x60' ∧ c ≠ '~') ∨ skipWhile (fun d => d = c) text j-j < 3
        · have hplain' : (c ≠ '\x60' ∧ c ≠ '~') ∨
              skipWhile (fun d => d = c) (text.take u) j-j < 3 := by
            by_cases hkind : c ≠ '\x60' ∧ c ≠ '~'
            · exact Or.inl hkind
            · have hother : c ≠ '<' := fun h => hkind (by rw [h]; decide)
              rw [(skip_take text u hu (fun d => d = c) (decide_eq_false hother.symm) j hju).1]
              exact hplain
          rw [if_pos hplain] at hout ⊢
          rw [if_pos hplain']
          exact hline j hj hju hout
        · have hkind : c ≠ '<' ∧ c ≠ '\n' := by
            constructor
            · rintro rfl
              exact hplain (Or.inl (by decide))
            · rintro rfl
              exact hplain (Or.inl (by decide))
          obtain ⟨hrun, hku⟩ := skip_take text u hu (fun d => d = c)
            (decide_eq_false hkind.1.symm) j hju
          have hk := le_skipWhile text (fun d => d = c) j
          rw [hrun]
          generalize hgk : skipWhile (fun d => d = c) text j = k at *
          rw [if_neg hplain] at hout ⊢
          rw [if_neg hplain, nextLine_take text u hu k hku]
          cases hbody : nextLine text k with
          | none =>
            rw [hbody] at hout
            exact absurd ⟨by dsimp only; omega, hlong⟩ (hout _ List.mem_cons_self)
          | some body =>
            rw [hbody] at hout
            dsimp only at hout ⊢
            have hafter := (nextLine_some text k body hbody).1
            cases hstop : closingFence text c (k-j) text.length body with
            | none =>
              rw [hstop] at hout
              exact absurd ⟨by dsimp only; omega, hlong⟩ (hout _ List.mem_cons_self)
            | some stop =>
              rw [hstop] at hout
              have hstep := closingFence_lt text c (k-j) _ body stop hstop
              have hbefore : stop ≤ u := by
                by_contra hover
                exact hout _ List.mem_cons_self ⟨by dsimp only; omega, by dsimp only; omega⟩
              have hfence := closingFence_take text u hu c hkind (k-j) _ u body stop hstop hbefore
                (by omega)
              rw [Option.filter_some_pos (by simp; omega)]
              dsimp only
              rw [hlen, hfence]
              dsimp only
              rw [List.filter_cons_of_pos (by simp; omega), ih f2 stop (by omega) (by omega)
                (fun r hr => hout r (List.mem_cons_of_mem _ hr))]

end fences

section spans

variable (text : List Char) (u : ℕ)

theorem tick_run (k : ℕ) (hk : text[k]? = some '\x60') :
    k < skipWhile (fun c => c = '\x60') text k := by
  obtain ⟨hlt, hchar⟩ := List.getElem?_eq_some_iff.mp hk
  rw [skipWhile, List.drop_eq_getElem_cons hlt, hchar, List.takeWhile_cons_of_pos (by simp),
    List.length_cons]
  omega

theorem closingTicks_lt (len fuel k e : ℕ) (h : closingTicks text len fuel k = some e) : k < e := by
  induction fuel generalizing k with
  | zero => cases h
  | succ fuel ih =>
    rw [closingTicks] at h
    split at h
    · cases h
    · split at h
      · have hnext := ih (k+1) h
        omega
      · next htick =>
        have hrun := tick_run text k (not_not.mp htick)
        dsimp only at h
        split at h
        · rw [Option.some.injEq] at h
          rwa [← h]
        · exact Nat.lt_trans hrun (ih _ h)

/-- The spans that are added begin where the search stands. -/
theorem inline_starts (fuel j : ℕ) (regions : List CodeRegion) :
    ∃ added, inlineRegions text fuel j regions = regions++added ∧ ∀ r ∈ added, j ≤ r.start := by
  induction fuel generalizing j regions with
  | zero => exact ⟨[], (List.append_nil _).symm, fun r hr => absurd hr List.not_mem_nil⟩
  | succ fuel ih =>
    have hafter (k : ℕ) (hk : j ≤ k) : ∃ added, inlineRegions text fuel k regions = regions++added ∧
        ∀ r ∈ added, j ≤ r.start := by
      obtain ⟨added, heq, hstart⟩ := ih k regions
      exact ⟨added, heq, fun r hr => Nat.le_trans hk (hstart r hr)⟩
    rw [inlineRegions]
    split
    · exact ⟨[], (List.append_nil _).symm, fun r hr => absurd hr List.not_mem_nil⟩
    · split
      · exact hafter (j+1) (Nat.le_succ j)
      · dsimp only
        have hk := le_skipWhile text (fun c => c = '\x60') j
        split
        · next e he =>
          have hlt := closingTicks_lt text _ _ _ e he
          obtain ⟨added, heq, hstart⟩ := ih e (regions++[⟨j, e⟩])
          refine ⟨⟨j, e⟩::added, by rw [heq, List.append_assoc, List.singleton_append], fun r hr => ?_⟩
          obtain hr | hr := List.mem_cons.mp hr
          · rw [hr]
          · have hr := hstart r hr
            omega
        · exact hafter _ hk

theorem inside_filter (j : ℕ) (hj : j < u) (regions : List CodeRegion) :
    isInsideCode j (regions.filter (fun r => decide (r.start < u))) = isInsideCode j regions := by
  rw [isInsideCode, isInsideCode, List.any_filter]
  congr 1
  funext r
  by_cases hr : r.start < u
  · simp [hr]
  · have hout : ¬ r.start ≤ j := by omega
    simp [hr, hout]

variable (hu : text[u]? = some '<')
include hu

theorem closingTicks_take (len f1 f2 k : ℕ) (hk : k ≤ u) (hf1 : text.length-k ≤ f1)
    (hf2 : u-k ≤ f2) : closingTicks (text.take u) len f2 k =
      (closingTicks text len f1 k).filter (fun e => decide (e ≤ u)) := by
  have hlong : u < text.length := (List.getElem?_eq_some_iff.mp hu).1
  have hlen := take_length text u hu
  induction f1 generalizing k f2 with
  | zero => omega
  | succ f1 ih =>
    by_cases hend : k = u
    · have hnone : closingTicks (text.take u) len f2 k = none := by
        cases f2 with
        | zero => rfl
        | succ f2 => rw [closingTicks, hlen, if_pos (by omega)]
      rw [hnone]
      cases he : closingTicks text len (f1+1) k with
      | none => rfl
      | some e =>
        have hlt := closingTicks_lt text len _ k e he
        rw [Option.filter_some_neg (by simp; omega)]
    obtain ⟨f2, rfl⟩ : ∃ f, f2 = f+1 := ⟨f2-1, by omega⟩
    have htext := closingTicks.eq_2 text len k f1
    have htake := closingTicks.eq_2 (text.take u) len k f2
    rw [if_neg (by omega)] at htext htake
    rw [List.getElem?_take_of_lt (by omega)] at htake
    rw [htext, htake]
    by_cases htick : text[k]? ≠ some '\x60'
    · rw [if_pos htick, if_pos htick]
      exact ih f2 (k+1) (by omega) (by omega) (by omega)
    · have hrun := tick_run text k (not_not.mp htick)
      obtain ⟨hsame, hbefore⟩ := skip_take text u hu (fun c => c = '\x60') rfl k hk
      rw [if_neg htick, if_neg htick, hsame]
      dsimp only
      split
      · rw [Option.filter_some_pos (by simpa using hbefore)]
      · exact ih f2 _ hbefore (by omega) (by omega)

theorem inline_beyond (f1 f2 j : ℕ) (hj : u ≤ j) (regions : List CodeRegion) :
    inlineRegions (text.take u) f2 j (regions.filter (fun r => decide (r.start < u))) =
      (inlineRegions text f1 j regions).filter (fun r => decide (r.start < u)) := by
  have hkept : inlineRegions (text.take u) f2 j (regions.filter (fun r => decide (r.start < u))) =
      regions.filter (fun r => decide (r.start < u)) := by
    cases f2 with
    | zero => rfl
    | succ f2 => rw [inlineRegions, take_length text u hu, if_pos hj]
  obtain ⟨added, hadded, hstart⟩ := inline_starts text f1 j regions
  have hnone : added.filter (fun r => decide (r.start < u)) = [] := by
    rw [List.filter_eq_nil_iff]
    intro r hr
    have hr := hstart r hr
    rw [decide_eq_true_eq]
    omega
  rw [hkept, hadded, List.filter_append, hnone, List.append_nil]

/-- The spans before the cut, where no region is cut. -/
theorem inlineRegions_take (f1 f2 j : ℕ) (regions : List CodeRegion) (hf1 : text.length-j ≤ f1)
    (hf2 : u-j ≤ f2)
    (hout : ∀ r ∈ inlineRegions text f1 j regions, ¬ (r.start ≤ u ∧ u < r.stop)) :
    inlineRegions (text.take u) f2 j (regions.filter (fun r => decide (r.start < u))) =
      (inlineRegions text f1 j regions).filter (fun r => decide (r.start < u)) := by
  have hlong : u < text.length := (List.getElem?_eq_some_iff.mp hu).1
  have hlen := take_length text u hu
  induction f1 generalizing j f2 regions with
  | zero => exact inline_beyond text u hu 0 f2 j (by omega) regions
  | succ f1 ih =>
    by_cases hj : u ≤ j
    · exact inline_beyond text u hu _ f2 j hj regions
    obtain ⟨f2, rfl⟩ : ∃ f, f2 = f+1 := ⟨f2-1, by omega⟩
    have htext := inlineRegions.eq_2 text j regions f1
    have htake := inlineRegions.eq_2 (text.take u) j
      (regions.filter (fun r => decide (r.start < u))) f2
    rw [if_neg (by omega)] at htext htake
    rw [List.getElem?_take_of_lt (by omega), inside_filter u j (by omega)] at htake
    rw [htext] at hout ⊢
    rw [htake]
    clear htext htake
    by_cases hplain : text[j]? ≠ some '\x60' ∨ isInsideCode j regions = true
    · rw [if_pos hplain] at hout ⊢
      rw [if_pos hplain]
      exact ih f2 (j+1) regions (by omega) (by omega) hout
    · have hrun := tick_run text j (not_not.mp (not_or.mp hplain).1)
      obtain ⟨hsame, hbefore⟩ := skip_take text u hu (fun c => c = '\x60') rfl j (by omega)
      rw [if_neg hplain] at hout ⊢
      rw [if_neg hplain, hsame]
      dsimp only at hout ⊢
      generalize hgk : skipWhile (fun c => decide (c = '\x60')) text j = k at *
      rw [hlen, closingTicks_take text u hu (k-j) text.length u k hbefore (by omega) (by omega)]
      cases he : closingTicks text (k-j) text.length k with
      | none =>
        rw [he] at hout
        exact ih f2 k regions (by omega) (by omega) hout
      | some e =>
        rw [he] at hout
        dsimp only at hout ⊢
        have hlt := closingTicks_lt text _ _ k e he
        obtain ⟨added, hadded, -⟩ := inline_starts text f1 e (regions++[⟨j, e⟩])
        have hspan : e ≤ u := by
          by_contra hover
          refine hout ⟨j, e⟩ ?_ ⟨by dsimp only; omega, by dsimp only; omega⟩
          rw [hadded]
          simp
        rw [Option.filter_some_pos (by simpa using hspan)]
        have hnext := ih f2 e (regions++[⟨j, e⟩]) (by omega) (by omega) hout
        rw [List.filter_append, List.filter_cons_of_pos (by simp; omega), List.filter_nil] at hnext
        exact hnext

omit hu in
theorem inside_found (q : ℕ) : isInsideCode q (findCodeRegions text) =
    isInsideCode q (inlineRegions text text.length 0 (fencedRegions text text.length 0)) := by
  rw [findCodeRegions, isInsideCode, isInsideCode]
  exact (List.mergeSort_perm _ _).any_eq

/-- The code before a cut outside code is the same in what is left. -/
theorem inside_take (hout : isInsideCode u (findCodeRegions text) = false) (q : ℕ) (hq : q < u) :
    isInsideCode q (findCodeRegions (text.take u)) = isInsideCode q (findCodeRegions text) := by
  have hlen := take_length text u hu
  rw [inside_found] at hout
  have hapart : ∀ r ∈ inlineRegions text text.length 0 (fencedRegions text text.length 0),
      ¬ (r.start ≤ u ∧ u < r.stop) := by
    rintro r hr ⟨hstart, hstop⟩
    rw [isInsideCode, List.any_eq_false] at hout
    exact hout r hr (by simp [hstart, hstop])
  obtain ⟨added, hadded, -⟩ := inline_starts text text.length 0 (fencedRegions text text.length 0)
  have hfences := fencedRegions_take text u hu text.length u 0 (by omega) (by omega)
    (fun r hr => hapart r (by rw [hadded]; exact List.mem_append_left _ hr))
  have hspans := inlineRegions_take text u hu text.length u 0 _ (by omega) (by omega) hapart
  rw [inside_found, inside_found, hlen, hfences, hspans, inside_filter u q hq]

end spans

section search

def Headed (w : List Char) : Prop := w.head? = some '<' ∧ '<' ∉ w.tail

instance (w : List Char) : Decidable (Headed w) := inferInstanceAs (Decidable (_ ∧ _))

theorem patterns_headed : ∀ p ∈ toolTagPatterns, Headed p.toList := by decide

theorem closing_headed : ∀ p ∈ toolTagPatterns, ∀ close ∈ closingTagFor p, Headed close := by
  decide

theorem Headed.split {w : List Char} (h : Headed w) : ∃ t, w = '<' ::t ∧ '<' ∉ t := by
  obtain ⟨t, rfl⟩ := List.head?_eq_some_iff.mp h.1
  exact ⟨t, rfl, h.2⟩

theorem infix_drop (w cs : List Char) (i : ℕ) :
    w <:+: cs.drop i ↔ ∃ s, i ≤ s ∧ w <+: cs.drop s := by
  constructor
  · rintro ⟨a, b, hab⟩
    refine ⟨i+a.length, Nat.le_add_right _ _, b, ?_⟩
    rw [← List.drop_drop, ← hab, List.append_assoc, List.drop_left]
  · rintro ⟨s, hs, hpre⟩
    have hsuffix : cs.drop s <:+ cs.drop i := by
      rw [show s = i+(s-i) by omega, ← List.drop_drop]
      exact List.drop_suffix _ _
    exact hpre.isInfix.trans hsuffix.isInfix

variable (lower : List Char) (regions : List CodeRegion) (p : String)

def Found (start : ℕ) : Option ℕ → Prop
  | some u => start ≤ u ∧ (Opens lower regions p u ∧ ∀ s, ¬ ClosesAt lower p u s) ∧
      ∀ v, start ≤ v → v < u → Opens lower regions p v → ∃ s, ClosesAt lower p v s
  | none => ∀ v, start ≤ v → Opens lower regions p v → ∃ s, ClosesAt lower p v s

theorem Found.earlier {start next : ℕ} {o : Option ℕ} (h : Found lower regions p next o)
    (hle : start ≤ next) (hskip : ∀ v, start ≤ v → v < next → Opens lower regions p v →
      ∃ s, ClosesAt lower p v s) : Found lower regions p start o := by
  cases o with
  | none =>
    intro v hv hopen
    by_cases hnext : v < next
    · exact hskip v hv hnext hopen
    · exact h v (by omega) hopen
  | some u =>
    obtain ⟨hu, hfound, hbefore⟩ := h
    refine ⟨by omega, hfound, fun v hv hvu hopen => ?_⟩
    by_cases hnext : v < next
    · exact hskip v hv hnext hopen
    · exact hbefore v (by omega) hvu hopen

theorem closes_iff (q : ℕ) (rest : List Char) (hq : lower.drop q = p.toList++rest) :
    (closingTagFor p).any (fun close => decide (close <:+: rest)) = true ↔
      ∃ s, ClosesAt lower p q s := by
  have hrest : rest = lower.drop (q+p.toList.length) := by
    rw [← List.drop_drop, hq, List.drop_left]
  rw [Option.any_eq_true]
  constructor
  · rintro ⟨close, hclose, hin⟩
    rw [decide_eq_true_eq, hrest, infix_drop] at hin
    obtain ⟨s, hs, hpre⟩ := hin
    exact ⟨s, hs, close, hclose, hpre⟩
  · rintro ⟨s, hs, close, hclose, hpre⟩
    refine ⟨close, hclose, ?_⟩
    rw [decide_eq_true_eq, hrest, infix_drop]
    exact ⟨s, hs, hpre⟩

omit p in
/-- Two headed marks do not overlap. -/
theorem headed_apart (w rest : List Char) (hw : Headed w) (q : ℕ) (hq : lower.drop q = w++rest)
    (v : ℕ) (hv : q < v) (hlt : v < q+w.length) : ¬ w <+: lower.drop v := by
  obtain ⟨t, rfl, hx⟩ := hw.split
  intro hpre
  have hdrop : lower.drop v = t.drop (v-q-1)++rest := by
    rw [show v = q+(v-q-1+1) by omega, ← List.drop_drop, hq, List.cons_append, List.drop_succ_cons,
      List.drop_append_of_le_length]
    · congr 1
      congr 1
      omega
    · rw [List.length_cons] at hlt
      omega
  have hne : t.drop (v-q-1) ≠ [] := by
    rw [ne_eq, List.drop_eq_nil_iff]
    rw [List.length_cons] at hlt
    omega
  obtain ⟨c, cs, hc⟩ := List.exists_cons_of_ne_nil hne
  rw [hdrop, hc, List.cons_append, List.cons_prefix_cons] at hpre
  refine hx (List.mem_of_mem_drop (i := v-q-1) ?_)
  rw [hc, hpre.1]
  exact List.mem_cons_self

/-- The search goes over the openings of the tag in their order. -/
theorem unclosedTag_found (hp : Headed p.toList) (fuel start : ℕ)
    (hfuel : lower.length-start < fuel) :
    Found lower regions p start (unclosedTag lower regions p fuel start) := by
  obtain ⟨t, ht, hx⟩ := hp.split
  induction fuel generalizing start with
  | zero => omega
  | succ fuel ih =>
    rw [unclosedTag]
    cases hsplit : splitFirst p.toList (lower.drop start) with
    | none =>
      intro v hv hopen
      rw [splitFirst_eq_none _ _ (by rw [ht]; exact List.cons_ne_nil _ _), infix_drop] at hsplit
      exact absurd ⟨v, hv, hopen.1⟩ hsplit
    | some parts =>
      obtain ⟨before, rest⟩ := parts
      have hparts := splitFirst_parts _ _ _ _ hsplit
      have hlen := congrArg List.length hparts
      simp only [List.length_drop, List.length_append, ht, List.length_cons] at hlen
      have hpos : lower.drop (start+before.length) = p.toList++rest := by
        rw [← List.drop_drop, hparts, List.append_assoc, List.drop_left]
      have hskip : ∀ v, start ≤ v → v < start+before.length → ¬ p.toList <+: lower.drop v := by
        intro v hv hlt
        refine splitFirst_first _ _ _ _ hsplit ((lower.drop start).take (v-start)) _ ?_ ?_
        · rw [show lower.drop v = (lower.drop start).drop (v-start) by
            rw [List.drop_drop]; congr 1; omega, List.take_append_drop]
        · rw [List.length_take]
          omega
      have hclosed := closes_iff lower p (start+before.length) rest hpos
      dsimp only
      split
      · next hinside =>
        refine (ih (start+before.length+1) (by omega)).earlier lower regions p (by omega)
          (fun v hv hlt hopen => ?_)
        obtain hvpos | rfl := Nat.lt_succ_iff_lt_or_eq.mp hlt
        · exact absurd hopen.1 (hskip v hv hvpos)
        · rw [hopen.2] at hinside
          cases hinside
      · next houtside =>
        split
        · next hany =>
          refine (ih (start+before.length+p.toList.length) (by rw [ht]; simp; omega)).earlier
            lower regions p (by omega) (fun v hv hlt hopen => ?_)
          by_cases hvpos : v < start+before.length
          · exact absurd hopen.1 (hskip v hv hvpos)
          by_cases hsame : v = start+before.length
          · rw [hsame]
            exact hclosed.mp hany
          · exact absurd hopen.1 (headed_apart lower p.toList rest hp _ hpos v (by omega) hlt)
        · next hany =>
          refine ⟨by omega, ⟨⟨⟨rest, hpos.symm⟩, by simpa using houtside⟩, fun s hs => ?_⟩,
            fun v hv hlt hopen => absurd hopen.1 (hskip v hv hlt)⟩
          exact hany (hclosed.mpr ⟨s, hs⟩)

end search

section cut

variable (text : List Char)

theorem unclosed_found (p : String) (hp : p ∈ toolTagPatterns) :
    Found (text.map Char.toLower) (findCodeRegions text) p 0
      (unclosedTag (text.map Char.toLower) (findCodeRegions text) p (text.length+1) 0) :=
  unclosedTag_found _ _ p (patterns_headed p hp) _ 0 (by rw [List.length_map]; omega)

/-- The cut is at the first tag that is not closed. -/
theorem truncate_cases : (AllClosed text ∧ truncateAtToolTags text = text) ∨
    ∃ u, FirstUnclosed text u ∧ truncateAtToolTags text = text.take u := by
  have hfound (p : String) (hp : p ∈ toolTagPatterns) := unclosed_found text p hp
  unfold truncateAtToolTags
  cases hmin : (toolTagPatterns.filterMap (fun p => unclosedTag (text.map Char.toLower)
      (findCodeRegions text) p (text.length+1) 0)).min? with
  | none =>
    refine Or.inl ⟨fun p hp q hopen => ?_, by simp only [hmin]⟩
    rw [List.min?_eq_none_iff, List.filterMap_eq_nil_iff] at hmin
    have hclosed := hfound p hp
    rw [hmin p hp] at hclosed
    exact hclosed q (Nat.zero_le q) hopen
  | some u =>
    obtain ⟨hmem, hleast⟩ := List.min?_eq_some_iff.mp hmin
    obtain ⟨p, hp, hpos⟩ := List.mem_filterMap.mp hmem
    have hfirst := hfound p hp
    rw [hpos] at hfirst
    refine Or.inr ⟨u, ⟨⟨p, hp, hfirst.2.1⟩, fun v hv other hother hopen => ?_⟩, by simp only [hmin]⟩
    have hclosed := hfound other hother
    cases hresult : unclosedTag (text.map Char.toLower) (findCodeRegions text) other
        (text.length+1) 0 with
    | none =>
      rw [hresult] at hclosed
      exact hclosed v (Nat.zero_le v) hopen
    | some w =>
      rw [hresult] at hclosed
      have hw := hleast w (List.mem_filterMap.mpr ⟨other, hother, hresult⟩)
      exact hclosed.2.2 v (Nat.zero_le v) (by omega) hopen

theorem truncate_closed (h : AllClosed text) : truncateAtToolTags text = text := by
  obtain ⟨-, hsame⟩ | ⟨u, hfirst, -⟩ := truncate_cases text
  · exact hsame
  · obtain ⟨p, hp, hopen, hnone⟩ := hfirst.unclosed
    obtain ⟨s, hs⟩ := h p hp u hopen
    exact absurd hs (hnone s)

theorem first_unique (u v : ℕ) (hu : FirstUnclosed text u) (hv : FirstUnclosed text v) : u = v := by
  have hnot (u v : ℕ) (hu : FirstUnclosed text u) (hv : FirstUnclosed text v) : ¬ u < v := by
    intro hlt
    obtain ⟨p, hp, hopen, hnone⟩ := hu.unclosed
    obtain ⟨s, hs⟩ := hv.before u hlt p hp hopen
    exact hnone s hs
  exact Nat.le_antisymm (Nat.le_of_not_lt (hnot v u hv hu)) (Nat.le_of_not_lt (hnot u v hu hv))

/-- A headed mark stands in the part before another one when it begins there. -/
theorem headed_take (lower w : List Char) (hw : Headed w) (u : ℕ) (hu : lower[u]? = some '<')
    (q : ℕ) : w <+: (lower.take u).drop q ↔ q < u ∧ w <+: lower.drop q := by
  have hlen := take_length lower u hu
  obtain ⟨t, rfl, hx⟩ := hw.split
  constructor
  · intro hpre
    have hq : q < u := by
      by_contra hbeyond
      rw [List.drop_eq_nil_of_le (by omega), List.prefix_nil] at hpre
      cases hpre
    obtain ⟨rest, hrest⟩ := drop_split lower u hu q (Nat.le_of_lt hq)
    rw [hrest]
    exact ⟨hq, hpre.trans (List.prefix_append _ _)⟩
  · rintro ⟨hq, hpre⟩
    obtain ⟨rest, hrest⟩ := drop_split lower u hu q (Nat.le_of_lt hq)
    rw [hrest] at hpre
    by_cases hshort : ('<' ::t).length ≤ ((lower.take u).drop q).length
    · exact List.prefix_of_prefix_length_le hpre (List.prefix_append _ _) hshort
    · -- else the mark at the cut is inside it
      have hcut : (lower.take u).drop q++['<'] <+: (lower.take u).drop q++ '<' ::rest := by
        rw [List.prefix_append_right_inj, List.cons_prefix_cons]
        exact ⟨rfl, List.nil_prefix⟩
      have hin := List.prefix_of_prefix_length_le hcut hpre (by
        rw [List.length_append, List.length_singleton]
        omega)
      have hne : (lower.take u).drop q ≠ [] := by
        rw [ne_eq, List.drop_eq_nil_iff]
        omega
      obtain ⟨c, cs, hc⟩ := List.exists_cons_of_ne_nil hne
      rw [hc, List.cons_append, List.cons_prefix_cons] at hin
      exact absurd (hin.2.subset (by simp)) hx

variable {u : ℕ} (hfirst : FirstUnclosed text u)
include hfirst

theorem cut_char : text[u]? = some '<' := by
  obtain ⟨p, hp, ⟨hpre, -⟩, -⟩ := hfirst.unclosed
  obtain ⟨t, ht, -⟩ := (patterns_headed p hp).split
  obtain ⟨rest, hrest⟩ := hpre
  have hchar : (text.map Char.toLower)[u]? = some '<' := by
    rw [← Nat.add_zero u, ← List.getElem?_drop, ← hrest, ht]
    rfl
  rw [List.getElem?_map, Option.map_eq_some_iff] at hchar
  obtain ⟨c, hc, hlower⟩ := hchar
  rw [hc, toLower_apart c '<' (by decide) hlower]

theorem cut_outside : isInsideCode u (findCodeRegions text) = false := by
  obtain ⟨p, -, ⟨-, hout⟩, -⟩ := hfirst.unclosed
  exact hout

theorem opens_take (p : String) (hp : p ∈ toolTagPatterns) (q : ℕ) :
    OpensIn (text.take u) p q ↔ q < u ∧ OpensIn text p q := by
  have hchar := cut_char text hfirst
  have hlower : (text.map Char.toLower)[u]? = some '<' := by
    rw [List.getElem?_map, hchar]
    rfl
  rw [OpensIn, Opens, List.map_take, headed_take _ _ (patterns_headed p hp) u hlower, OpensIn, Opens,
    and_assoc]
  refine and_congr_right (fun hq => and_congr_right' ?_)
  rw [inside_take text u hchar (cut_outside text hfirst) q hq]

theorem closes_take (p : String) (hp : p ∈ toolTagPatterns) (q s : ℕ) :
    ClosesIn (text.take u) p q s ↔ s < u ∧ ClosesIn text p q s := by
  have hlower : (text.map Char.toLower)[u]? = some '<' := by
    rw [List.getElem?_map, cut_char text hfirst]
    rfl
  rw [ClosesIn, ClosesIn, ClosesAt, ClosesAt, List.map_take]
  constructor
  · rintro ⟨hs, close, hclose, hpre⟩
    rw [headed_take _ _ (closing_headed p hp close hclose) u hlower] at hpre
    exact ⟨hpre.1, hs, close, hclose, hpre.2⟩
  · rintro ⟨hlt, hs, close, hclose, hpre⟩
    refine ⟨hs, close, hclose, ?_⟩
    rw [headed_take _ _ (closing_headed p hp close hclose) u hlower]
    exact ⟨hlt, hpre⟩

end cut

/-- The cut is stable exactly when every tool tag before it is closed before it. -/
theorem truncateAtToolTags_stable (text : List Char) : Stable text ↔
    ∀ u, FirstUnclosed text u → ∀ p ∈ toolTagPatterns, ∀ q < u, OpensIn text p q →
      ∃ s < u, ClosesIn text p q s := by
  obtain ⟨hclosed, hsame⟩ | ⟨u, hfirst, hcut⟩ := truncate_cases text
  · refine iff_of_true ⟨?_, ?_, ?_⟩ (fun u hfirst => ?_)
    · rw [hsame]
    · rwa [hsame]
    · rw [hsame, hsame]
    · obtain ⟨p, hp, hopen, hnone⟩ := hfirst.unclosed
      obtain ⟨s, hs⟩ := hclosed p hp u hopen
      exact absurd hs (hnone s)
  · have hleft : AllClosed (text.take u) ↔ ∀ p ∈ toolTagPatterns, ∀ q < u, OpensIn text p q →
        ∃ s < u, ClosesIn text p q s := by
      refine forall₂_congr (fun p hp => forall_congr' (fun q => ?_))
      rw [opens_take text hfirst p hp, and_imp]
      refine forall₂_congr (fun hq hopen => ?_)
      simp only [closes_take text hfirst p hp]
    constructor
    · intro h v hv
      rw [first_unique text v u hv hfirst]
      have hclosed := h.closed
      rw [hcut] at hclosed
      exact hleft.mp hclosed
    · intro h
      have hclosed := hleft.mpr (h u hfirst)
      refine ⟨?_, ?_, ?_⟩
      · rw [hcut]
        exact List.take_prefix _ _
      · rwa [hcut]
      · rw [hcut]
        exact truncate_closed _ hclosed

/-- An unclosed tag inside a closed one takes the closing tag with it. -/
theorem inner_tag_unstable :
    ¬ Stable "<tool_call> a <function_call> b </tool_call>".toList := by
  intro h
  have hcut : truncateAtToolTags "<tool_call> a <function_call> b </tool_call>".toList =
      "<tool_call> a ".toList := by decide +kernel
  have hcut' : truncateAtToolTags "<tool_call> a ".toList = [] := by decide +kernel
  have hagain := h.again
  rw [hcut, hcut'] at hagain
  exact absurd hagain (by decide)

end IronClaw.ToolTagCut
