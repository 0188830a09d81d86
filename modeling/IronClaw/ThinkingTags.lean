import IronClaw.FlattenedCalls
import IronClaw.Lib.Nesting

/-!
# What is stripped as reasoning

`strip_thinking_tags_regex` goes through the thinking tags outside of code with
one flag: an opening tag sets it, a closing tag clears it, and text is kept
while it is clear. It does not count the open blocks.
-/

set_option autoImplicit false

namespace IronClaw.ThinkingTags
open IronClaw.ResponseText IronClaw.FlattenedCalls Lib.Text Lib.Search Lib.Nesting

def Placed (size : ℕ) : ℕ → List (ℕ × ℕ) → Prop
  | last, [] => last ≤ size
  | last, m::ms => last ≤ m.1 ∧ m.1 ≤ m.2 ∧ Placed size m.2 ms

structure Lexed (patterns : Patterns) : Prop where
  placed : ∀ text, Placed text.length 0 (patterns.thinkingTag.findIter text)
  quick : ∀ text, patterns.quickTag text = false →
    patterns.thinkingTag.findIter text = [] ∧ patterns.finalTag.isMatch text = false

theorem placed_earlier (size a b : ℕ) (ms : List (ℕ × ℕ)) (hab : a ≤ b)
    (h : Placed size b ms) : Placed size a ms := by
  cases ms with
  | nil => exact Nat.le_trans hab h
  | cons m ms => exact ⟨Nat.le_trans hab h.1, h.2⟩

theorem placed_filter (size last : ℕ) (ms : List (ℕ × ℕ)) (p : ℕ × ℕ → Bool)
    (h : Placed size last ms) : Placed size last (ms.filter p) := by
  induction ms generalizing last with
  | nil => exact h
  | cons m ms ih =>
    obtain ⟨hfirst, htag, hrest⟩ := h
    rw [List.filter_cons]
    split
    · exact ⟨hfirst, htag, ih m.2 hrest⟩
    · exact placed_earlier size last m.2 _ (Nat.le_trans hfirst htag) (ih m.2 hrest)

section

variable (regex : TagRegex) (text : List Char)

def nextStart (ms : List (ℕ × ℕ)) : ℕ := (ms.head?.map Prod.fst).getD text.length

def marksFrom : List (ℕ × ℕ) → List (Mark Char)
  | [] => []
  | m::ms => ⟨between text m.1 m.2, regex.closes (text.drop m.1),
      between text m.2 (nextStart text ms)⟩::marksFrom ms

theorem between_drop (a b : ℕ) (h : a ≤ b) : between text a b++text.drop b = text.drop a := by
  have hdrop : text.drop b = (text.drop a).drop (b-a) := by
    rw [List.drop_drop, Nat.add_sub_cancel' h]
  rw [between, List.drop_take, hdrop, List.take_append_drop]

/-- The tags and the texts between them make up the text. -/
theorem marks_text (last : ℕ) (ms : List (ℕ × ℕ)) (h : Placed text.length last ms) :
    text.drop last =
      between text last (nextStart text ms)++(marksFrom regex text ms).flatMap Mark.text := by
  induction ms generalizing last with
  | nil =>
    have hend := between_drop text last text.length h
    rw [List.drop_length] at hend
    exact hend.symm
  | cons m ms ih =>
    obtain ⟨hfirst, htag, hrest⟩ := h
    rw [marksFrom, List.flatMap_cons, Mark.text, List.append_assoc, ← ih m.2 hrest,
      between_drop text m.1 m.2 htag]
    exact (between_drop text last m.1 hfirst).symm

/-- Tags in code are passed over. -/
theorem scan_outside (regions : List CodeRegion) (ms : List (ℕ × ℕ)) (s : Scan) :
    ms.foldl (scanTag regex text regions) s =
      (ms.filter (fun m => !isInsideCode m.1 regions)).foldl (scanTag regex text []) s := by
  induction ms generalizing s with
  | nil => rfl
  | cons m ms ih =>
    rw [List.foldl_cons, ih]
    cases hm : isInsideCode m.1 regions with
    | true =>
      rw [List.filter_cons_of_neg (by simp [hm]), scanTag, if_pos hm]
    | false =>
      have hout : ¬isInsideCode m.1 regions = true := by
        rw [hm]
        exact Bool.false_ne_true
      have hnone : ¬isInsideCode m.1 [] = true := Bool.false_ne_true
      have hstep : scanTag regex text regions s m = scanTag regex text [] s m := by
        rw [scanTag, scanTag, if_neg hout, if_neg hnone]
      rw [List.filter_cons_of_pos (by simp [hm]), List.foldl_cons, hstep]

/-- The scan keeps what stands behind closing tags. -/
theorem scan_marks (ms : List (ℕ × ℕ)) (s : Scan)
    (hclosed : leftOpen s.inside (marksFrom regex text ms) = false) :
    (ms.foldl (scanTag regex text []) s).inside = false ∧
      (ms.foldl (scanTag regex text []) s).kept++
          text.drop (ms.foldl (scanTag regex text []) s).last =
        s.kept++(if s.inside then [] else between text s.last (nextStart text ms))++
          behindClosings (marksFrom regex text ms) := by
  induction ms generalizing s with
  | nil =>
    have hinside : s.inside = false := hclosed
    refine ⟨hinside, ?_⟩
    rw [hinside, if_neg Bool.false_ne_true, marksFrom, behindClosings, List.append_nil]
    simp [between, nextStart]
  | cons m ms ih =>
    have hstep : scanTag regex text [] s m =
        ⟨if s.inside then s.kept else s.kept++between text s.last m.1, m.2,
          !regex.closes (text.drop m.1)⟩ := by
      rw [scanTag, if_neg (by simp [isInsideCode])]
    have hrest := ih (scanTag regex text [] s m) (by rw [hstep]; exact hclosed)
    refine ⟨hrest.1, ?_⟩
    rw [List.foldl_cons, hrest.2, hstep, marksFrom, behindClosings]
    cases regex.closes (text.drop m.1) <;> cases s.inside <;> simp [nextStart]

end

section

variable (patterns : Patterns) (text : List Char)

def thinkingTags : List (ℕ × ℕ) :=
  (patterns.thinkingTag.findIter text).filter (fun m => !isInsideCode m.1 (findCodeRegions text))

def marks : List (Mark Char) := marksFrom patterns.thinkingTag text (thinkingTags patterns text)

def opening : List Char := between text 0 (nextStart text (thinkingTags patterns text))

def outside : List Char := opening patterns text++outermost 0 (marks patterns text)

def shown : List Char := opening patterns text++behindClosings (marks patterns text)

def finished (kept : List Char) : List Char :=
  let final := if patterns.finalTag.isMatch kept then
    (extractFinalContent patterns kept (findCodeRegions kept)).getD kept else kept
  let result := stripToolTags (stripPipeReasoningTags patterns final)
  collapseNewlines (stripBracketToolCalls result.length result)

theorem strip_nested (h : wellNested 0 (marks patterns text) = true) :
    stripThinkingTagsRegex patterns text (findCodeRegions text) = shown patterns text := by
  have hclosed := nested_closed false 0 (marks patterns text) (fun hopen => by cases hopen) h
  obtain ⟨hinside, hkept⟩ := scan_marks patterns.thinkingTag text (thinkingTags patterns text)
    ⟨[], 0, false⟩ hclosed
  rw [stripThinkingTagsRegex, scan_outside]
  unfold thinkingTags at hinside hkept
  simp only [hinside, hkept]
  rfl

theorem clean_nested (lexed : Lexed patterns) (h : wellNested 0 (marks patterns text) = true) :
    cleanResponse patterns text = finished patterns (shown patterns text) := by
  have hreasoning : stripReasoning patterns text =
      if patterns.finalTag.isMatch (shown patterns text) then
        (extractFinalContent patterns (shown patterns text)
          (findCodeRegions (shown patterns text))).getD (shown patterns text)
      else shown patterns text := by
    cases hquick : patterns.quickTag text with
    | false =>
      obtain ⟨hnone, hfinal⟩ := lexed.quick text hquick
      have hshown : shown patterns text = text := by
        simp [shown, opening, marks, thinkingTags, hnone, marksFrom, behindClosings, nextStart,
          between]
      rw [stripReasoning, if_pos hquick, hshown, if_neg (by simp [hfinal])]
    | true =>
      rw [stripReasoning, if_neg (by simp [hquick])]
      simp only [strip_nested patterns text h]
  rw [cleanResponse, hreasoning]
  rfl

structure Undisturbed (kept : List Char) : Prop where
  final : patterns.finalTag.isMatch kept = false
  pipe : patterns.pipeReasoningTag.isMatch kept = false
  tools : ∀ p ∈ toolTagPatterns, ¬p.toList <:+: kept
  calls : ¬calledTool <:+: kept

theorem finished_undisturbed (kept : List Char) (h : Undisturbed patterns kept) :
    finished patterns kept = collapseNewlines kept := by
  have hpipe : stripPipeReasoningTags patterns kept = kept := by
    rw [stripPipeReasoningTags, if_pos h.pipe]
  have htools : stripToolTags kept = kept :=
    strip_tool_tags kept toolTags (fun _ ht => ht) h.tools
  have hcalls : stripBracketToolCalls kept.length kept = kept := by
    cases hlen : kept.length with
    | zero => rfl
    | succ n => rw [stripBracketToolCalls, splitFirst_none calledTool kept calledTool_ne h.calls]
  simp only [finished, h.final, Bool.false_eq_true, if_false, hpipe, htools, hcalls]

def Rejoined : Prop := thinkingTags patterns (collapseNewlines (outside patterns text)) = []

end

def wordsFrom (words : List (List Char)) : ℕ → ℕ → List Char → List (ℕ × ℕ)
  | _, _, [] => []
  | n, skip+1, _::cs => wordsFrom words (n+1) skip cs
  | n, 0, c::cs =>
    match words.find? (fun w => w.isPrefixOf (c::cs)) with
    | some w => (n, n+w.length)::wordsFrom words (n+1) (w.length-1) cs
    | none => wordsFrom words (n+1) 0 cs

theorem words_placed (words : List (List Char)) (hne : ∀ w ∈ words, w ≠ []) (n skip last : ℕ)
    (cs : List Char) (hskip : skip ≤ cs.length) (hlast : last ≤ n+skip) :
    Placed (n+cs.length) last (wordsFrom words n skip cs) := by
  induction cs generalizing n skip last with
  | nil =>
    have hzero : skip = 0 := Nat.le_zero.mp hskip
    rw [hzero] at hlast
    exact hlast
  | cons c cs ih =>
    have hlen : n+(c::cs).length = n+1+cs.length := by
      rw [List.length_cons]
      omega
    rw [hlen]
    cases skip with
    | succ skip =>
      exact ih (n+1) skip last (Nat.le_of_succ_le_succ hskip) (by omega)
    | zero =>
      rw [wordsFrom]
      split
      · next w hw =>
        have hfound : w.isPrefixOf (c::cs) = true :=
          List.find?_some (p := fun w : List Char => w.isPrefixOf (c::cs)) hw
        have hshort := (List.isPrefixOf_iff_prefix.mp hfound).length_le
        have hpos := List.length_pos_of_ne_nil (hne w (List.mem_of_find?_eq_some hw))
        rw [List.length_cons] at hshort
        exact ⟨hlast, Nat.le_add_right n _,
          ih (n+1) (w.length-1) (n+w.length) (by omega) (by omega)⟩
      · exact ih (n+1) 0 last (Nat.zero_le _) (by omega)

def openTag : List Char := ['<', 't', 'h', 'i', 'n', 'k', '>']

def closeTag : List Char := ['<', '/', 't', 'h', 'i', 'n', 'k', '>']

def thinkTags : TagRegex where
  isMatch text := !(wordsFrom [openTag, closeTag] 0 0 text).isEmpty
  findIter text := wordsFrom [openTag, closeTag] 0 0 text
  closes text := closeTag.isPrefixOf text

def thinkPatterns : Patterns := ⟨thinkTags.isMatch, thinkTags, noTags, noTags⟩

theorem think_lexed : Lexed thinkPatterns := by
  refine ⟨fun text => ?_, fun text hquick => ⟨?_, rfl⟩⟩
  · have hplaced := words_placed [openTag, closeTag] (by decide) 0 0 0 text (Nat.zero_le _)
      (Nat.le_refl 0)
    rwa [Nat.zero_add] at hplaced
  · simpa [thinkPatterns, thinkTags] using hquick

def nestedText : List Char := openTag++ 'a'::(openTag++ 'b'::(closeTag++ 'c'::(closeTag++['d'])))

def splitText : List Char := ['<', 't', 'h']++openTag++ 'x'::(closeTag++['i', 'n', 'k', '>'])

theorem plain_regions (text : List Char)
    (h : inlineRegions text text.length 0 (fencedRegions text text.length 0) = []) :
    findCodeRegions text = [] := by
  rw [findCodeRegions, h, List.mergeSort_nil]

def sealedText : List Char := 'u'::(openTag++ 'a'::(openTag++ 'b'::(closeTag++closeTag++['v'])))

end IronClaw.ThinkingTags
