import IronClaw.JsonText
import IronClaw.ResponseText

/-!
# Tool calls spelled out in a message

`flatten_tool_messages` of `llm/nearai_chat.rs` writes the tool calls of an
assistant message as lines of its text, and `llm/reasoning.rs` reads such
lines back and strips them. One call is read back as it was written; the text
comes out of the stripping with its runs of line breaks collapsed and its ends
trimmed. Both hold for texts in which no tag is found.
-/

set_option autoImplicit false

namespace IronClaw.FlattenedCalls
open IronClaw.JsonValue IronClaw.LlmMessage IronClaw.JsonText IronClaw.ResponseText
open Lib.Text Lib.Search

inductive MessageContent where
  | text (text : List Char)
  | parts (parts : List ContentPart)
  deriving DecidableEq

structure CompletionToolCall where
  id : String
  name : String
  arguments : List Char
  deriving DecidableEq

structure ChatCompletionMessage where
  role : Role
  content : Option MessageContent
  toolCallId : Option String
  name : Option String
  toolCalls : Option (List CompletionToolCall)
  deriving DecidableEq

def MessageContent.asText : MessageContent → Option (List Char)
  | .text s => if s = [] then none else some s
  | .parts _ => none

def toCompletion (floats : FloatPrinter) (msg : ChatMessage) : ChatCompletionMessage :=
  let toolCalls := msg.toolCalls.map (fun calls =>
    calls.map (fun tc => ⟨tc.id, tc.name, printValue floats tc.arguments⟩))
  let content :=
    if msg.role = .assistant ∧ toolCalls.isSome ∧ msg.content = "" then none
    else if msg.contentParts ≠ [] then some (.parts (.text msg.content::msg.contentParts))
    else some (.text msg.content.toList)
  ⟨msg.role, content, msg.toolCallId, msg.name, toolCalls⟩

def calledLine (name : String) (arguments : List Char) : List Char :=
  calledTool++name.toList++ '\x60' ::(withArguments++arguments++[']'])

def returnedLine (name : String) (result : List Char) : List Char :=
  "[Tool `".toList++name.toList++"` returned: ".toList++result++[']']

def joinLines (lines : List (List Char)) : List Char := List.intercalate ['\n'] lines

def flattenMessage (msg : ChatCompletionMessage) : ChatCompletionMessage :=
  match msg.role, msg.toolCalls with
  | .assistant, some calls =>
    let text := (msg.content.bind MessageContent.asText).toList
    let parts := text++calls.map (fun tc => calledLine tc.name tc.arguments)
    ⟨.assistant, some (.text (joinLines parts)), none, none, none⟩
  | .tool, _ =>
    let result := (msg.content.bind MessageContent.asText).getD []
    ⟨.user, some (.text (returnedLine (msg.name.getD "unknown") result)), none, none, none⟩
  | _, _ => msg

def flattenToolMessages (messages : List ChatCompletionMessage) : List ChatCompletionMessage :=
  if messages.any (fun m => m.role = .tool) then messages.map flattenMessage else messages

structure Untagged (patterns : Patterns) (text : List Char) : Prop where
  quick : patterns.quickTag text = false
  pipe : patterns.pipeReasoningTag.isMatch text = false
  tools : ∀ p ∈ toolTagPatterns, ¬ p.toList <:+: text

theorem calledTool_line : '\n' ∉ calledTool := by decide +kernel

theorem calledTool_ne : calledTool ≠ [] := by decide +kernel

theorem withArguments_line : '\n' ∉ withArguments := by decide +kernel

def tailLines (lines : List (List Char)) : List Char := lines.flatMap (fun l => '\n' ::l)

variable (parse : String → Option Value) (names : List String) (fuel : ℕ) (text : List Char)
  (line : List Char) (lines : List (List Char))

theorem joinLines_cons :
    joinLines (line::lines) = line++tailLines lines := by
  induction lines generalizing line with
  | nil => simp [joinLines, tailLines, List.intercalate]
  | cons l lines ih =>
    have hrest := ih l
    unfold joinLines at hrest ⊢
    rw [List.intercalate_cons_cons, hrest]
    simp [tailLines]

def IsCall (line : List Char) : Prop :=
  ∃ body, line = calledTool++body++[']'] ∧ '\n' ∉ body

theorem calledLine_call (name : String) (arguments : List Char) (hname : '\n' ∉ name.toList)
    (harguments : '\n' ∉ arguments) : IsCall (calledLine name arguments) := by
  refine ⟨name.toList++ '\x60' ::(withArguments++arguments), by simp [calledLine], ?_⟩
  simp [hname, withArguments_line, harguments]

theorem no_line_end (h : '\n' ∉ line) : ¬ [']', '\n'] <:+: line :=
  fun hin => h (hin.subset (by simp))

theorem strip_succ (remaining : List Char) :
    stripBracketToolCalls (fuel+1) remaining =
      match splitFirst calledTool remaining with
      | none => remaining
      | some (before, rest) =>
        match splitFirst [']', '\n'] (calledTool++rest) with
        | some (_, rest) => before++stripBracketToolCalls fuel rest
        | none =>
          match splitLast [']'] (calledTool++rest) with
          | some (_, rest) => before++stripBracketToolCalls fuel rest
          | none => before++(calledTool++rest) := rfl

/-- One step of the stripping: a call is dropped with the line break after it. -/
theorem strip_call (text line : List Char) (lines : List (List Char)) (hline : IsCall line)
    (hfirst : splitFirst calledTool (text++(line++tailLines lines)) =
      some (text, (line++tailLines lines).drop calledTool.length)) :
    stripBracketToolCalls (fuel+1) (text++(line++tailLines lines)) =
      text++stripBracketToolCalls fuel ((tailLines lines).drop 1) := by
  obtain ⟨body, hbody, hbreak⟩ := hline
  have hinner : '\n' ∉ calledTool++body := by simp [calledTool_line, hbreak]
  have hafter : calledTool++(line++tailLines lines).drop calledTool.length =
      line++tailLines lines := by
    rw [hbody]
    simp
  rw [strip_succ, hfirst]
  simp only [hafter]
  cases lines with
  | nil =>
    have hline : '\n' ∉ line := by
      rw [hbody]
      simp [calledTool_line, hbreak]
    have hnone : splitFirst [']', '\n'] line = none :=
      splitFirst_none _ _ (by simp) (no_line_end line hline)
    have hlast : splitLast [']'] line = some (calledTool++body, []) := by
      rw [hbody]
      exact splitLast_end [']'] _ (by simp)
    simp only [tailLines, List.flatMap_nil, List.append_nil, hnone, hlast, List.drop_nil]
  | cons l lines =>
    have hend : splitFirst [']', '\n'] (line++tailLines (l::lines)) =
        some (calledTool++body, l++tailLines lines) := by
      have happend : line++tailLines (l::lines) =
          (calledTool++body)++([']']++['\n'])++(l++tailLines lines) := by
        simp [hbody, tailLines]
      rw [happend]
      exact splitFirst_ending [']'] _ _ '\n' hinner (by simp)
    simp only [hend]
    simp [tailLines]

theorem first_here (hline : IsCall line) :
    splitFirst calledTool ([]++(line++tailLines lines)) =
      some ([], (line++tailLines lines).drop calledTool.length) := by
  obtain ⟨body, hbody, -⟩ := hline
  have happend : []++(line++tailLines lines) =
      []++calledTool++(body++[']']++tailLines lines) := by
    simp [hbody]
  rw [happend, splitFirst_at calledTool [] _ calledTool_ne (by simp)]
  simp [hbody]

theorem first_later (text line : List Char) (lines : List (List Char)) (hline : IsCall line)
    (htext : ¬ calledTool <:+: text) :
    splitFirst calledTool ((text++['\n'])++(line++tailLines lines)) =
      some (text++['\n'], (line++tailLines lines).drop calledTool.length) := by
  obtain ⟨body, hbody, -⟩ := hline
  have happend : (text++['\n'])++(line++tailLines lines) =
      text++ '\n' ::(calledTool++(body++[']']++tailLines lines)) := by
    simp [hbody]
  rw [happend, splitFirst_after calledTool text _ '\n' calledTool_ne calledTool_line htext]
  simp [hbody]

theorem strip_lines (hlines : ∀ l ∈ lines, IsCall l) (hfuel : lines.length ≤ fuel) :
    stripBracketToolCalls fuel ((tailLines lines).drop 1) = [] := by
  induction lines generalizing fuel with
  | nil =>
    cases fuel with
    | zero => rfl
    | succ fuel =>
      have hnone := splitFirst_none calledTool [] calledTool_ne (by simp [calledTool_ne])
      rw [tailLines, List.flatMap_nil, List.drop_nil, strip_succ, hnone]
  | cons l lines ih =>
    cases fuel with
    | zero => simp at hfuel
    | succ fuel =>
      have hl := hlines l List.mem_cons_self
      have hstep := strip_call fuel [] l lines hl (first_here l lines hl)
      have hdrop : (tailLines (l::lines)).drop 1 = []++(l++tailLines lines) := by simp [tailLines]
      rw [hdrop, hstep, ih fuel (fun m hm => hlines m (List.mem_cons_of_mem l hm))
        (by simpa using hfuel)]
      rfl

/-- All calls are stripped from a text that has none of its own. -/
theorem strip_flattened (hlines : ∀ l ∈ lines, IsCall l) (htext : ¬ calledTool <:+: text)
    (hfuel : lines.length ≤ fuel) :
    stripBracketToolCalls fuel (text++tailLines lines) = text ∨
      stripBracketToolCalls fuel (text++tailLines lines) = text++['\n'] := by
  cases lines with
  | nil =>
    left
    have hnone := splitFirst_none calledTool text calledTool_ne htext
    cases fuel with
    | zero => exact List.append_nil text
    | succ fuel => rw [tailLines, List.flatMap_nil, List.append_nil, strip_succ, hnone]
  | cons l lines =>
    right
    cases fuel with
    | zero => simp at hfuel
    | succ fuel =>
      have hl := hlines l List.mem_cons_self
      have hstep := strip_call fuel (text++['\n']) l lines hl (first_later text l lines hl htext)
      have happend : text++tailLines (l::lines) = (text++['\n'])++(l++tailLines lines) := by
        simp [tailLines]
      rw [happend, hstep, strip_lines fuel lines
        (fun m hm => hlines m (List.mem_cons_of_mem l hm)) (by simpa using hfuel)]
      simp

theorem brackets_none (calls : List ToolCall) (h : ¬ calledTool <:+: text) :
    recoverBrackets parse names fuel text calls = calls := by
  cases fuel with
  | zero => rfl
  | succ fuel =>
    have hnone := splitFirst_none calledTool text calledTool_ne h
    rw [recoverBrackets, hnone]

/-- The last line of a text is read back: its name ends at the first backtick
and its arguments at the last bracket. -/
theorem brackets_call (name : String) (arguments : List Char) (v : Value) (calls : List ToolCall)
    (htext : ¬ calledTool <:+: text) (hname : names.contains name = true)
    (htick : '\x60' ∉ name.toList) (hparse : parse (String.ofList arguments) = some v) :
    recoverBrackets parse names (fuel+1) (text++ '\n' ::calledLine name arguments) calls =
      calls++[⟨recoveredId calls.length, name, v⟩] := by
  have hfirst : splitFirst calledTool (text++ '\n' ::calledLine name arguments) =
      some (text++['\n'], name.toList++ '\x60' ::(withArguments++arguments++[']'])) := by
    rw [calledLine, List.append_assoc]
    exact splitFirst_after calledTool text _ '\n' calledTool_ne calledTool_line htext
  have hended : splitFirst ['\x60'] (name.toList++ '\x60' ::(withArguments++arguments++[']'])) =
      some (name.toList, withArguments++arguments++[']']) := by
    have happend : name.toList++ '\x60' ::(withArguments++arguments++[']']) =
        name.toList++([]++['\x60'])++(withArguments++arguments++[']']) := by simp
    rw [happend]
    exact splitFirst_ending [] _ _ '\x60' htick (by simp)
  have hprefix : withArguments.isPrefixOf (withArguments++arguments++[']']) = true := by
    rw [List.isPrefixOf_iff_prefix, List.append_assoc]
    exact List.prefix_append _ _
  have hdrop : (withArguments++arguments++[']']).drop withArguments.length = arguments++[']'] := by
    rw [List.append_assoc, List.drop_left]
  have hlast : splitLast [']'] (arguments++[']']) = some (arguments, []) :=
    splitLast_end [']'] arguments (by simp)
  rw [recoverBrackets, hfirst]
  simp only [hended, String.ofList_toList, hname, hprefix, hdrop, hlast, hparse, if_true,
    Bool.true_eq_false, if_false, Option.getD_some]
  exact brackets_none parse names fuel [] _ (by simp [calledTool_ne])

theorem tags_none (opening closing : List Char) (fuel : ℕ) (text : List Char)
    (calls : List ToolCall) (hne : opening ≠ []) (h : ¬ opening <:+: text) :
    recoverTags parse names opening closing fuel text calls = calls := by
  cases fuel with
  | zero => rfl
  | succ fuel => rw [recoverTags, splitFirst_none opening text hne h]

theorem pair_pattern : ∀ pair ∈ toolTagPairs, pair.1 ≠ [] ∧ ∃ p ∈ toolTagPatterns,
    p.toList = pair.1 := by
  decide

theorem tag_pattern : ∀ tag ∈ toolTags, "<" ++ tag ++ ">" ∈ toolTagPatterns ∧
    "<" ++ tag ++ " " ∈ toolTagPatterns ∧ "<|" ++ tag ++ "|>" ∈ toolTagPatterns := by
  decide

theorem pattern_ne : ∀ p ∈ toolTagPatterns, p.toList ≠ [] := by decide

theorem tagged_none (pairs : List (List Char × List Char))
    (hpairs : ∀ pair ∈ pairs, pair ∈ toolTagPairs)
    (h : ∀ p ∈ toolTagPatterns, ¬ p.toList <:+: text) :
    pairs.foldl (fun calls pair =>
      recoverTags parse names pair.1 pair.2 text.length text calls) [] = [] := by
  induction pairs with
  | nil => rfl
  | cons pair pairs ih =>
    obtain ⟨hne, p, hp, heq⟩ := pair_pattern pair (hpairs pair List.mem_cons_self)
    have hpair : ¬ pair.1 <:+: text := heq ▸ h p hp
    rw [List.foldl_cons, tags_none parse names pair.1 pair.2 _ text [] hne hpair]
    exact ih (fun q hq => hpairs q (List.mem_cons_of_mem pair hq))

theorem strip_tag (tag : String) (fuel : ℕ) (text : List Char) (htag : tag ∈ toolTags)
    (h : ∀ p ∈ toolTagPatterns, ¬ p.toList <:+: text) :
    stripXmlTag tag fuel text = text ∧ stripPipeTag tag fuel text = text := by
  obtain ⟨hexact, hattributes, hpipe⟩ := tag_pattern tag htag
  have hnone : ∀ p ∈ toolTagPatterns, splitFirst p.toList text = none :=
    fun p hp => splitFirst_none p.toList text (pattern_ne p hp) (h p hp)
  cases fuel with
  | zero => exact ⟨rfl, rfl⟩
  | succ fuel =>
    constructor
    · simp only [stripXmlTag, position, hnone _ hexact, hnone _ hattributes, Option.map_none,
        earlier]
    · simp only [stripPipeTag, hnone _ hpipe]

theorem strip_tool_tags (tags : List String) (htags : ∀ tag ∈ tags, tag ∈ toolTags)
    (h : ∀ p ∈ toolTagPatterns, ¬ p.toList <:+: text) :
    tags.foldl (fun result tag =>
      let unxml := stripXmlTag tag result.length result
      stripPipeTag tag unxml.length unxml) text = text := by
  induction tags with
  | nil => rfl
  | cons tag tags ih =>
    have htag := htags tag List.mem_cons_self
    have hxml := (strip_tag tag text.length text htag h).1
    have hpipe := (strip_tag tag text.length text htag h).2
    rw [List.foldl_cons]
    simp only [hxml, hpipe]
    exact ih (fun t ht => htags t (List.mem_cons_of_mem tag ht))

theorem clean_untagged (patterns : Patterns) (text : List Char) (h : Untagged patterns text) :
    cleanResponse patterns text = collapseNewlines (stripBracketToolCalls text.length text) := by
  have hreasoning : stripReasoning patterns text = text := by
    rw [stripReasoning, if_pos h.quick]
  have hpipe : stripPipeReasoningTags patterns text = text := by
    rw [stripPipeReasoningTags, if_pos h.pipe]
  have htools : stripToolTags text = text :=
    strip_tool_tags text toolTags (fun _ ht => ht) h.tools
  simp only [cleanResponse, hreasoning, hpipe, htools]

theorem clean_flattened (patterns : Patterns) (text : List Char) (lines : List (List Char))
    (hlines : ∀ l ∈ lines, IsCall l) (htext : ¬ calledTool <:+: text)
    (h : Untagged patterns (text++tailLines lines)) :
    cleanResponse patterns (text++tailLines lines) = collapseNewlines text := by
  have hfuel : lines.length ≤ (text++tailLines lines).length := by
    have hlong : lines.length ≤ (tailLines lines).length := by
      clear hlines h
      induction lines with
      | nil => simp
      | cons l lines ih =>
        simp only [tailLines, List.flatMap_cons, List.length_append, List.length_cons] at ih ⊢
        omega
    rw [List.length_append]
    omega
  rw [clean_untagged patterns _ h]
  rcases strip_flattened _ text lines hlines htext hfuel with hstrip | hstrip
  · rw [hstrip]
  · rw [hstrip, collapse_break]

def flattenedText (floats : FloatPrinter) (content : String) (calls : List ToolCall) :
    List Char :=
  joinLines (content.toList::
    calls.map (fun tc => calledLine tc.name (printValue floats tc.arguments)))

/-- In a conversation with a tool message every assistant message with a text
and calls is rewritten to that text. -/
theorem flattened_message (floats : FloatPrinter) (before after : List ChatMessage)
    (msg : ChatMessage) (calls : List ToolCall) (hrole : msg.role = .assistant)
    (hcontent : msg.content ≠ "") (hparts : msg.contentParts = [])
    (hcalls : msg.toolCalls = some calls) (htool : ∃ m ∈ before++msg::after, m.role = .tool) :
    ((flattenToolMessages ((before++msg::after).map (toCompletion floats)))[before.length]?).bind
      ChatCompletionMessage.content = some (.text (flattenedText floats msg.content calls)) := by
  have hany : ((before++msg::after).map (toCompletion floats)).any (fun m => m.role = .tool) =
      true := by
    obtain ⟨m, hm, hmrole⟩ := htool
    rw [List.any_map, List.any_eq_true]
    exact ⟨m, hm, by simp [toCompletion, hmrole]⟩
  have hat : (before++msg::after)[before.length]? = some msg := by simp
  have hne : msg.content.toList ≠ [] := by
    intro h
    exact hcontent (String.toList_inj.mp h)
  rw [flattenToolMessages, if_pos hany, List.getElem?_map, List.getElem?_map, hat]
  simp [flattenMessage, toCompletion, hrole, hcalls, hcontent, hparts, MessageContent.asText, hne,
    flattenedText, Function.comp_def]

/-- One call is read back from the text it is flattened to, and all calls are
stripped from it, in texts without tags. -/
theorem flattened_calls_recovered (floats : FloatPrinter) (parse : String → Option Value)
    (patterns : Patterns) (tools : List ToolDefinition) (before after : List ChatMessage)
    (msg : ChatMessage) (calls : List ToolCall) (hrole : msg.role = .assistant)
    (hcontent : msg.content ≠ "") (hparts : msg.contentParts = [])
    (hcalls : msg.toolCalls = some calls) (htool : ∃ m ∈ before++msg::after, m.role = .tool)
    (hmarker : ¬ calledTool <:+: msg.content.toList)
    (hnames : ∀ tc ∈ calls, tc.name ∈ tools.map ToolDefinition.name ∧
      '\x60' ∉ tc.name.toList ∧ '\n' ∉ tc.name.toList)
    (hvalid : ∀ tc ∈ calls, ValidValue tc.arguments)
    (hparse : ∀ tc ∈ calls,
      parse (String.ofList (printValue floats tc.arguments)) = some tc.arguments)
    (htags : Untagged patterns (flattenedText floats msg.content calls)) :
    ∃ text,
      ((flattenToolMessages ((before++msg::after).map (toCompletion floats)))[before.length]?).bind
        ChatCompletionMessage.content = some (.text text) ∧
      (calls.length ≤ 1 → (recoverToolCallsFromContent parse text tools).map
        (fun tc => (tc.name, tc.arguments)) = calls.map (fun tc => (tc.name, tc.arguments))) ∧
      ¬ calledTool <:+: cleanResponse patterns text ∧
      cleanResponse patterns text = collapseNewlines msg.content.toList := by
  refine ⟨flattenedText floats msg.content calls,
    flattened_message floats before after msg calls hrole hcontent hparts hcalls htool, ?_, ?_⟩
  · intro hone
    have htagged := tagged_none parse (tools.map ToolDefinition.name)
      (flattenedText floats msg.content calls) toolTagPairs (fun _ hp => hp) htags.tools
    rw [recoverToolCallsFromContent]
    simp only [htagged]
    match calls, hone with
    | [], _ =>
      have htext : flattenedText floats msg.content [] = msg.content.toList := by
        simp [flattenedText, joinLines_cons, tailLines]
      rw [htext, brackets_none _ _ _ _ _ hmarker]
    | [tc], _ =>
      obtain ⟨havailable, htick, -⟩ := hnames tc List.mem_cons_self
      have htext : flattenedText floats msg.content [tc] =
          msg.content.toList++ '\n' ::calledLine tc.name (printValue floats tc.arguments) := by
        simp [flattenedText, joinLines_cons, tailLines]
      have hlength : (flattenedText floats msg.content [tc]).length =
          (flattenedText floats msg.content [tc]).length-1+1 := by
        rw [htext, List.length_append, List.length_cons]
        omega
      rw [hlength, htext, brackets_call parse _ _ _ tc.name _ tc.arguments [] hmarker
        (by simpa using havailable) htick (hparse tc List.mem_cons_self)]
      rfl
  · have hlines : ∀ l ∈ calls.map (fun tc => calledLine tc.name (printValue floats tc.arguments)),
        IsCall l := by
      intro l hl
      obtain ⟨tc, htc, rfl⟩ := List.mem_map.mp hl
      exact calledLine_call tc.name _ (hnames tc htc).2.2
        (value_line floats tc.arguments (hvalid tc htc))
    have hclean : cleanResponse patterns (flattenedText floats msg.content calls) =
        collapseNewlines msg.content.toList := by
      rw [flattenedText, joinLines_cons] at htags ⊢
      exact clean_flattened patterns _ _ hlines hmarker htags
    refine ⟨?_, hclean⟩
    rw [hclean]
    exact fun hin => hmarker (collapse_within calledTool _ calledTool_ne calledTool_line hin)

def noTags : TagRegex := ⟨fun _ => false, fun _ => [], fun _ => false⟩

def noPatterns : Patterns := ⟨fun _ => false, noTags, noTags, noTags⟩

def parseEmpty (s : String) : Option Value := if s = "\x7b\x7d" then some (.object []) else none

def twoTools : List ToolDefinition :=
  [⟨"echo", "Echo a text", .object []⟩, ⟨"time", "Tell the time", .object []⟩]

def callOf (name : String) : ToolCall := ⟨"call_1", name, .object []⟩

def callMessage (content : String) (names : List String) : ChatMessage :=
  .assistantWithToolCalls (some content) (names.map callOf)

theorem flattened_calls_recovered_echo :
    ∃ text, ((flattenToolMessages (([]++callMessage "Looking." ["echo"]::
        [ChatMessage.toolResult "call_1" "echo" "hi"]).map
          (toCompletion plainFloats)))[0]?).bind ChatCompletionMessage.content =
        some (.text text) ∧
      ([callOf "echo"].length ≤ 1 → (recoverToolCallsFromContent parseEmpty text twoTools).map
        (fun tc => (tc.name, tc.arguments)) =
          [callOf "echo"].map (fun tc => (tc.name, tc.arguments))) ∧
      ¬ calledTool <:+: cleanResponse noPatterns text ∧
      cleanResponse noPatterns text = collapseNewlines "Looking.".toList := by
  have htags : Untagged noPatterns (flattenedText plainFloats "Looking." [callOf "echo"]) :=
    ⟨rfl, rfl, by decide +kernel⟩
  exact flattened_calls_recovered plainFloats parseEmpty noPatterns twoTools []
    [ChatMessage.toolResult "call_1" "echo" "hi"] (callMessage "Looking." ["echo"])
    [callOf "echo"] rfl (by decide) rfl rfl
    ⟨ChatMessage.toolResult "call_1" "echo" "hi", by simp, rfl⟩ (by decide +kernel)
    (by decide) (by simp [callOf, ValidValue, ValidFields]) (by decide) htags

def flattenedContent (content : String) (names : List String) : Option MessageContent :=
  ((flattenToolMessages ([callMessage content names, .toolResult "call_1" "echo" "hi"].map
    (toCompletion plainFloats)))[0]?).bind ChatCompletionMessage.content

/-- Two calls come back as one, and a text with a tool tag comes back with one
more call and without its tag. -/
theorem flattened_calls_differ :
    (flattenedContent "Looking." ["echo", "time"]).map (fun c => match c with
      | .text text => (recoverToolCallsFromContent parseEmpty text twoTools).map
          (fun tc => (tc.name, tc.arguments))
      | .parts _ => []) = some [("echo", .object [])] ∧
    (flattenedContent "See <tool_call>echo</tool_call>" ["time"]).map (fun c => match c with
      | .text text => ((recoverToolCallsFromContent parseEmpty text twoTools).map
          (fun tc => (tc.name, tc.arguments)), String.ofList (cleanResponse noPatterns text))
      | .parts _ => ([], "")) =
        some ([("echo", .object []), ("time", .object [])], "See") := by
  decide +kernel

end IronClaw.FlattenedCalls
