import Mathlib.Tactic.IntervalCases
import IronClaw.LlmMessage
import IronClaw.Lib.Search

/-!
# The text of a response

What `llm/reasoning.rs` does with the text that a model returns: tool calls
spelled out in it are recovered, reasoning and tool tags are stripped, and an
unclosed tool tag cuts the text off. Texts are lists of characters and
positions count characters where the source counts bytes. What the four
regular expressions match comes from outside. A loop that goes on with a rest
of the text has the length of the text for a bound.
-/

set_option autoImplicit false

namespace IronClaw.ResponseText
open IronClaw.JsonValue IronClaw.LlmMessage Lib.Text Lib.Search

structure ToolDefinition where
  name : String
  description : String
  parameters : Value
  deriving DecidableEq

structure TagRegex where
  isMatch : List Char → Bool
  findIter : List Char → List (ℕ × ℕ)
  closes : List Char → Bool

structure Patterns where
  quickTag : List Char → Bool
  thinkingTag : TagRegex
  finalTag : TagRegex
  pipeReasoningTag : TagRegex

structure CodeRegion where
  start : ℕ
  stop : ℕ
  deriving DecidableEq

def isBlank (c : Char) : Bool := c = ' ' || c = '\t'

def nextLine (text : List Char) (i : ℕ) : Option ℕ :=
  ((text.drop i).findIdx? (fun c => c = '\n')).map (fun n => i+n+1)

def skipWhile (p : Char → Bool) (text : List Char) (i : ℕ) : ℕ :=
  i+((text.drop i).takeWhile p).length

def closingFence (text : List Char) (fence : Char) (len : ℕ) : ℕ → ℕ → Option ℕ
  | 0, _ => none
  | fuel+1, line =>
    if text.length ≤ line then none
    else
      let i := skipWhile isBlank text line
      let k := skipWhile (fun c => c = fence) text i
      let e := skipWhile isBlank text k
      if len ≤ k-i ∧ (text.length ≤ e ∨ text[e]? = some '\n') then
        some (if e < text.length then e+1 else e)
      else (nextLine text line).bind (closingFence text fence len fuel)

def fencedRegions (text : List Char) : ℕ → ℕ → List CodeRegion
  | 0, _ => []
  | fuel+1, i =>
    if text.length ≤ i then []
    else if 0 < i ∧ text[i-1]? ≠ some '\n' then
      match nextLine text i with
      | some j => fencedRegions text fuel j
      | none => []
    else
      let j := skipWhile isBlank text i
      match text[j]? with
      | none => []
      | some c =>
        let k := skipWhile (fun d => d = c) text j
        if (c ≠ '\x60' ∧ c ≠ '~') ∨ k-j < 3 then
          match nextLine text j with
          | some next => fencedRegions text fuel next
          | none => []
        else match nextLine text k with
          | none => [⟨i, text.length⟩]
          | some body =>
            match closingFence text c (k-j) text.length body with
            | some stop => ⟨i, stop⟩::fencedRegions text fuel stop
            | none => [⟨i, text.length⟩]

def closingTicks (text : List Char) (len : ℕ) : ℕ → ℕ → Option ℕ
  | 0, _ => none
  | fuel+1, k =>
    if text.length ≤ k then none
    else if text[k]? ≠ some '\x60' then closingTicks text len fuel (k+1)
    else
      let e := skipWhile (fun c => c = '\x60') text k
      if e-k = len then some e else closingTicks text len fuel e

def isInsideCode (pos : ℕ) (regions : List CodeRegion) : Bool :=
  regions.any (fun r => r.start ≤ pos && pos < r.stop)

def inlineRegions (text : List Char) : ℕ → ℕ → List CodeRegion → List CodeRegion
  | 0, _, regions => regions
  | fuel+1, j, regions =>
    if text.length ≤ j then regions
    else if text[j]? ≠ some '\x60' ∨ isInsideCode j regions = true then
      inlineRegions text fuel (j+1) regions
    else
      let k := skipWhile (fun c => c = '\x60') text j
      match closingTicks text (k-j) text.length k with
      | some e => inlineRegions text fuel e (regions++[⟨j, e⟩])
      | none => inlineRegions text fuel k regions

def findCodeRegions (text : List Char) : List CodeRegion :=
  (inlineRegions text text.length 0 (fencedRegions text text.length 0)).mergeSort
    (fun a b => decide (a.start ≤ b.start))

def between (text : List Char) (a b : ℕ) : List Char := (text.take b).drop a

section Recover

variable (parse : String → Option Value)

def recoveredId (n : ℕ) : String := "recovered_" ++ toString n

def tagCall (names : List String) (n : ℕ) (inner : List Char) : Option ToolCall :=
  let bare := String.ofList inner
  match ((parse bare).bind (fun parsed => (parsed.get "name").bind Value.asStr)) with
  | some name =>
    if names.contains name then
      some ⟨recoveredId n, name,
        (((parse bare).bind (fun parsed => parsed.get "arguments"))).getD (.object [])⟩
    else if names.contains bare then some ⟨recoveredId n, bare, .object []⟩ else none
  | none => if names.contains bare then some ⟨recoveredId n, bare, .object []⟩ else none

def recoverTags (names : List String) (opening closing : List Char) :
    ℕ → List Char → List ToolCall → List ToolCall
  | 0, _, calls => calls
  | fuel+1, remaining, calls =>
    match splitFirst opening remaining with
    | none => calls
    | some (_, after) =>
      match splitFirst closing after with
      | none => calls
      | some (inner, rest) =>
        let inner := trimChars inner
        let found := if inner = [] then none else tagCall parse names calls.length inner
        recoverTags names opening closing fuel rest (calls++found.toList)

@[irreducible] def calledTool : List Char := "[Called tool `".toList

@[irreducible] def withArguments : List Char := " with arguments: ".toList

def recoverBrackets (names : List String) : ℕ → List Char → List ToolCall → List ToolCall
  | 0, _, calls => calls
  | fuel+1, remaining, calls =>
    match splitFirst calledTool remaining with
    | none => calls
    | some (_, afterPrefix) =>
      match splitFirst ['\x60'] afterPrefix with
      | none => calls
      | some (name, afterName) =>
        let name := String.ofList name
        if names.contains name = false then recoverBrackets names fuel afterName calls
        else
          let empty : ToolCall := ⟨recoveredId calls.length, name, .object []⟩
          if withArguments.isPrefixOf afterName then
            -- the last bracket of all that follows, not of this line
            match splitLast [']'] (afterName.drop withArguments.length) with
            | some (arguments, rest) =>
              recoverBrackets names fuel rest (calls++[{ empty with
                arguments := (parse (String.ofList arguments)).getD (.object []) }])
            | none => recoverBrackets names fuel afterName (calls++[empty])
          else recoverBrackets names fuel afterName (calls++[empty])

def toolTagPairs : List (List Char × List Char) :=
  [("<tool_call>".toList, "</tool_call>".toList),
   ("<|tool_call|>".toList, "<|/tool_call|>".toList),
   ("<function_call>".toList, "</function_call>".toList),
   ("<|function_call|>".toList, "<|/function_call|>".toList)]

def recoverToolCallsFromContent (content : List Char) (availableTools : List ToolDefinition) :
    List ToolCall :=
  let names := availableTools.map ToolDefinition.name
  let tagged := toolTagPairs.foldl (fun calls pair =>
    recoverTags parse names pair.1 pair.2 content.length content calls) []
  recoverBrackets parse names content.length content tagged

end Recover

def stripBracketToolCalls : ℕ → List Char → List Char
  | 0, remaining => remaining
  | fuel+1, remaining =>
    match splitFirst calledTool remaining with
    | none => remaining
    | some (before, rest) =>
      let after := calledTool++rest
      match splitFirst [']', '\n'] after with
      | some (_, rest) => before++stripBracketToolCalls fuel rest
      | none =>
        match splitLast [']'] after with
        | some (_, rest) => before++stripBracketToolCalls fuel rest
        | none => before++after

def toolTags : List String := ["tool_call", "function_call", "tool_calls"]

def toolTagPatterns : List String :=
  ["<tool_call>", "<tool_call ", "<function_call>", "<function_call ", "<tool_calls>",
   "<tool_calls ", "<|tool_call|>", "<|function_call|>", "<|tool_calls|>"]

def closingTagFor (pattern : String) : Option (List Char) :=
  let cs := pattern.toList
  if "<|".toList.isPrefixOf cs && "|>".toList.isSuffixOf (cs.drop 2) then
    some ("<|/".toList++((cs.drop 2).take (cs.length-4))++"|>".toList)
  else if "<".toList.isPrefixOf cs then
    some ("</".toList++trimChars ((cs.drop 1).rdropWhile (fun c => c = '>'))++">".toList)
  else none

def unclosedTag (lower : List Char) (regions : List CodeRegion) (pattern : String) :
    ℕ → ℕ → Option ℕ
  | 0, _ => none
  | fuel+1, searchFrom =>
    match splitFirst pattern.toList (lower.drop searchFrom) with
    | none => none
    | some (before, rest) =>
      let pos := searchFrom+before.length
      if isInsideCode pos regions then unclosedTag lower regions pattern fuel (pos+1)
      else if (closingTagFor pattern).any (fun close => decide (close <:+: rest)) then
        unclosedTag lower regions pattern fuel (pos+pattern.toList.length)
      else some pos

def truncateAtToolTags (text : List Char) : List Char :=
  let regions := findCodeRegions text
  let lower := text.map Char.toLower
  match (toolTagPatterns.filterMap
      (fun p => unclosedTag lower regions p (text.length+1) 0)).min? with
  | some pos => text.take pos
  | none => text

structure Scan where
  kept : List Char
  last : ℕ
  inside : Bool

def scanTag (regex : TagRegex) (text : List Char) (regions : List CodeRegion) (s : Scan)
    (m : ℕ × ℕ) : Scan :=
  if isInsideCode m.1 regions then s
  else
    let isClose := regex.closes (text.drop m.1)
    ⟨if s.inside then s.kept else s.kept++between text s.last m.1, m.2, !isClose⟩

structure FinalScan where
  parts : List Char
  last : ℕ
  inside : Bool
  found : Bool

def scanFinal (regex : TagRegex) (text : List Char) (regions : List CodeRegion) (s : FinalScan)
    (m : ℕ × ℕ) : FinalScan :=
  if isInsideCode m.1 regions then s
  else
    let isClose := regex.closes (text.drop m.1)
    if !s.inside && !isClose then ⟨s.parts, m.2, true, true⟩
    else if s.inside && isClose then ⟨s.parts++between text s.last m.1, m.2, false, s.found⟩
    else s

def extractFinalContent (patterns : Patterns) (text : List Char) (regions : List CodeRegion) :
    Option (List Char) :=
  let s := (patterns.finalTag.findIter text).foldl (scanFinal patterns.finalTag text regions)
    ⟨[], 0, false, false⟩
  if s.found then some (if s.inside then s.parts++text.drop s.last else s.parts) else none

def stripThinkingTagsRegex (patterns : Patterns) (text : List Char) (regions : List CodeRegion) :
    List Char :=
  let s := (patterns.thinkingTag.findIter text).foldl (scanTag patterns.thinkingTag text regions)
    ⟨[], 0, false⟩
  let trailing := text.drop s.last
  if s.inside then
    s.kept++(extractFinalContent patterns trailing (findCodeRegions trailing)).getD []
  else s.kept++trailing

def stripPipeReasoningTags (patterns : Patterns) (text : List Char) : List Char :=
  if patterns.pipeReasoningTag.isMatch text = false then text
  else
    let s := (patterns.pipeReasoningTag.findIter text).foldl
      (scanTag patterns.pipeReasoningTag text (findCodeRegions text)) ⟨[], 0, false⟩
    if s.inside then s.kept else s.kept++text.drop s.last

def earlier : Option ℕ → Option ℕ → Option ℕ
  | some a, some b => some (min a b)
  | some a, none => some a
  | none, b => b

def position (needle text : List Char) : Option ℕ := (splitFirst needle text).map (·.1.length)

def stripXmlTag (tag : String) : ℕ → List Char → List Char
  | 0, remaining => remaining
  | fuel+1, remaining =>
    let start := earlier (position ("<" ++ tag ++ ">").toList remaining)
      (position ("<" ++ tag ++ " ").toList remaining)
    match start with
    | none => remaining
    | some start =>
      -- a tag that nothing ends stays, after what was before it
      match splitFirst ['>'] (remaining.drop start) with
      | none => remaining.take start++remaining
      | some (_, rest) =>
        match splitFirst ("</" ++ tag ++ ">").toList rest with
        | some (_, rest) => remaining.take start++stripXmlTag tag fuel rest
        | none => remaining.take start

def stripPipeTag (tag : String) : ℕ → List Char → List Char
  | 0, remaining => remaining
  | fuel+1, remaining =>
    match splitFirst ("<|" ++ tag ++ "|>").toList remaining with
    | none => remaining
    | some (before, rest) =>
      match splitFirst ("<|/" ++ tag ++ "|>").toList (("<|" ++ tag ++ "|>").toList++rest) with
      | some (_, rest) => before++stripPipeTag tag fuel rest
      | none => before

def threeBreaks : List Char := ['\n', '\n', '\n']

def collapseFrom : ℕ → List Char → List Char
  | 0, text => text
  | fuel+1, text =>
    if threeBreaks <:+: text then collapseFrom fuel (replace threeBreaks ['\n', '\n'] text)
    else text

def collapseNewlines (text : List Char) : List Char := trimChars (collapseFrom text.length text)

def stripToolTags (text : List Char) : List Char :=
  toolTags.foldl (fun result tag =>
    let unxml := stripXmlTag tag result.length result
    stripPipeTag tag unxml.length unxml) text

def stripReasoning (patterns : Patterns) (text : List Char) : List Char :=
  if patterns.quickTag text = false then text
  else
    let after := stripThinkingTagsRegex patterns text (findCodeRegions text)
    if patterns.finalTag.isMatch after then
      (extractFinalContent patterns after (findCodeRegions after)).getD after
    else after

def cleanResponse (patterns : Patterns) (text : List Char) : List Char :=
  let result := stripToolTags (stripPipeReasoningTags patterns (stripReasoning patterns text))
  collapseNewlines (stripBracketToolCalls result.length result)

def squeeze : ℕ → List Char → List Char
  | _, [] => []
  | n, c::cs =>
    if c = '\n' then if 2 ≤ n then squeeze n cs else c::squeeze (n+1) cs
    else c::squeeze 0 cs

variable (cs : List Char)

theorem replace_three :
    replace threeBreaks ['\n', '\n'] ('\n' :: '\n' :: '\n' ::cs) =
      '\n' :: '\n' ::replace threeBreaks ['\n', '\n'] cs := by
  simp [replace, replaceFrom, threeBreaks, replaceFrom_skip]

theorem replace_other (c : Char) (cs : List Char) (h : ¬ threeBreaks <+: c::cs) :
    replace threeBreaks ['\n', '\n'] (c::cs) = c::replace threeBreaks ['\n', '\n'] cs := by
  rw [replace, replaceFrom, if_neg]
  · rfl
  · rw [List.isPrefixOf_iff_prefix]
    exact h

/-- The cases of a replacement: three line breaks, another character, the end. -/
theorem breaks_cases (motive : List Char → Prop) (nil : motive [])
    (three : ∀ cs, motive cs → motive ('\n' :: '\n' :: '\n' ::cs))
    (other : ∀ c cs, ¬ threeBreaks <+: c::cs → motive cs → motive (c::cs)) (cs : List Char) :
    motive cs := by
  induction hn : cs.length using Nat.strong_induction_on generalizing cs with
  | _ n ih =>
    cases cs with
    | nil => exact nil
    | cons c cs =>
      by_cases hpre : threeBreaks <+: c::cs
      · obtain ⟨rest, hrest⟩ := hpre
        rw [← hrest]
        apply three
        apply ih rest.length _ rest rfl
        rw [← hn, ← hrest]
        simp only [threeBreaks, List.length_append, List.length_cons]
        omega
      · apply other c cs hpre
        apply ih cs.length _ cs rfl
        rw [← hn, List.length_cons]
        omega

theorem squeeze_replace (n : ℕ) (hn : n ≤ 2) (cs : List Char) :
    squeeze n (replace threeBreaks ['\n', '\n'] cs) = squeeze n cs := by
  induction cs using breaks_cases generalizing n with
  | nil => rfl
  | three cs ih =>
    rw [replace_three]
    have htwo := ih 2 (by omega)
    interval_cases n <;> simp [squeeze, htwo]
  | other c cs h ih =>
    rw [replace_other c cs h]
    simp only [squeeze]
    split
    · split
      · exact ih n hn
      · rw [ih (n+1) (by omega)]
    · rw [ih 0 (by omega)]

theorem replace_length :
    (replace threeBreaks ['\n', '\n'] cs).length ≤ cs.length := by
  induction cs using breaks_cases with
  | nil => simp [replace, replaceFrom]
  | three cs ih =>
    rw [replace_three]
    simp only [List.length_cons]
    omega
  | other c cs h ih =>
    rw [replace_other c cs h]
    simp only [List.length_cons]
    omega

theorem replace_shorter (h : threeBreaks <:+: cs) :
    (replace threeBreaks ['\n', '\n'] cs).length < cs.length := by
  induction cs using breaks_cases with
  | nil => simp [threeBreaks] at h
  | three cs ih =>
    rw [replace_three]
    have := replace_length cs
    simp only [List.length_cons]
    omega
  | other c cs hpre ih =>
    rw [replace_other c cs hpre]
    have := ih ((List.infix_cons_iff.mp h).resolve_left hpre)
    simp only [List.length_cons]
    omega

/-- A text without three line breaks in a row has nothing to squeeze. -/
theorem squeeze_plain (n : ℕ) (hn : n ≤ 2) (cs : List Char)
    (h : ¬ threeBreaks <:+: List.replicate n '\n'++cs) : squeeze n cs = cs := by
  induction cs generalizing n with
  | nil => rfl
  | cons c cs ih =>
    have hrest : ¬ threeBreaks <:+: cs := by
      intro hin
      exact h (hin.trans ((List.suffix_cons c cs).trans (List.suffix_append _ _)).isInfix)
    simp only [squeeze]
    split
    · next hc =>
      rw [hc] at h
      split
      · have hfull : n = 2 := by omega
        rw [hfull] at h
        exact absurd ⟨[], cs, by simp [threeBreaks, List.replicate]⟩ h
      · rw [ih (n+1) (by omega)]
        rw [List.replicate_succ', List.append_assoc]
        exact h
    · rw [ih 0 (by omega)]
      simpa using hrest

theorem collapse_squeeze (fuel : ℕ) (cs : List Char) (h : cs.length ≤ fuel) :
    collapseFrom fuel cs = squeeze 0 cs := by
  induction fuel generalizing cs with
  | zero =>
    have hnil : cs = [] := List.eq_nil_of_length_eq_zero (by omega)
    rw [hnil]
    rfl
  | succ fuel ih =>
    rw [collapseFrom]
    split
    · next hin =>
      have hshort := replace_shorter cs hin
      rw [ih _ (by omega), squeeze_replace 0 (by omega)]
    · next hout =>
      rw [squeeze_plain 0 (by omega) cs (by simpa using hout)]

theorem squeeze_break (n : ℕ) (cs : List Char) :
    squeeze n (cs++['\n']) = squeeze n cs ∨ squeeze n (cs++['\n']) = squeeze n cs++['\n'] := by
  induction cs generalizing n with
  | nil =>
    by_cases hn : 2 ≤ n
    · left
      simp [squeeze, hn]
    · right
      simp [squeeze, hn]
  | cons c cs ih =>
    simp only [List.cons_append, squeeze]
    split
    · split
      · exact ih n
      · rcases ih (n+1) with h | h
        · exact Or.inl (by rw [h])
        · exact Or.inr (by rw [h, List.cons_append])
    · rcases ih 0 with h | h
      · exact Or.inl (by rw [h])
      · exact Or.inr (by rw [h, List.cons_append])

theorem trim_break : trimChars (cs++['\n']) = trimChars cs := by
  have hblank : isWhitespace '\n' = true := by decide
  unfold trimChars
  rw [List.dropWhile_append]
  split
  · next hempty =>
    have hnil : cs.dropWhile isWhitespace = [] := by simpa using hempty
    simp [hnil, hblank]
  · rw [List.rdropWhile_concat_pos _ _ _ hblank]

theorem collapse_break :
    collapseNewlines (cs++['\n']) = collapseNewlines cs := by
  unfold collapseNewlines
  rw [collapse_squeeze _ _ (le_refl _), collapse_squeeze _ _ (le_refl _)]
  rcases squeeze_break 0 cs with h | h
  · rw [h]
  · rw [h, trim_break]

theorem trim_within : trimChars cs <:+: cs := by
  unfold trimChars
  exact (List.rdropWhile_prefix _ _).isInfix.trans (List.dropWhile_suffix _).isInfix

theorem squeeze_begins (m cs : List Char) (hm : '\n' ∉ m) (h : m <+: squeeze 0 cs) :
    m <+: cs := by
  induction cs generalizing m with
  | nil => exact h
  | cons c cs ih =>
    cases m with
    | nil => exact List.nil_prefix
    | cons d m =>
      simp only [squeeze] at h
      split at h
      · next hc =>
        simp only [show ¬ 2 ≤ 0 by omega, if_false, List.cons_prefix_cons] at h
        rw [h.1, hc] at hm
        simp at hm
      · rw [List.cons_prefix_cons] at h ⊢
        exact ⟨h.1, ih m (fun hin => hm (List.mem_cons_of_mem d hin)) h.2⟩

/-- Squeezing line breaks brings nothing together within a line. -/
theorem squeeze_within (m cs : List Char) (n : ℕ) (hne : m ≠ []) (hm : '\n' ∉ m)
    (h : m <:+: squeeze n cs) : m <:+: cs := by
  induction cs generalizing n with
  | nil => exact h
  | cons c cs ih =>
    have hcons : ∀ k, m <:+: squeeze k cs → m <:+: c::cs :=
      fun k hk => (ih k hk).trans (List.suffix_cons c cs).isInfix
    simp only [squeeze] at h
    split at h
    · next hc =>
      split at h
      · exact hcons n h
      · rcases List.infix_cons_iff.mp h with hpre | hin
        · cases m with
          | nil => exact absurd rfl hne
          | cons d m =>
            rw [List.cons_prefix_cons] at hpre
            rw [hpre.1, hc] at hm
            simp at hm
        · exact hcons (n+1) hin
    · rcases List.infix_cons_iff.mp h with hpre | hin
      · cases m with
        | nil => exact absurd rfl hne
        | cons d m =>
          rw [List.cons_prefix_cons] at hpre
          have hrest := squeeze_begins m cs (fun hin => hm (List.mem_cons_of_mem d hin)) hpre.2
          exact (List.cons_prefix_cons.mpr ⟨hpre.1, hrest⟩).isInfix
      · exact hcons 0 hin

theorem collapse_within (m cs : List Char) (hne : m ≠ []) (hm : '\n' ∉ m)
    (h : m <:+: collapseNewlines cs) : m <:+: cs := by
  unfold collapseNewlines at h
  rw [collapse_squeeze _ _ (le_refl _)] at h
  exact squeeze_within m cs 0 hne hm (h.trans (trim_within _))

end IronClaw.ResponseText
