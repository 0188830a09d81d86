import IronClaw.SafetyLayer
import IronClaw.ThreadHistory

/-!
# The fence around a tool's output

A successful tool result reaches a language model on three paths. Chat and jobs
send the wrapped text; a thread sends on later turns what it recorded, cut by
`truncate_preview`, which puts the closing tag back; the lightweight routine
loop cuts the wrapped text and puts nothing back. The fence is therefore closed
on every path exactly when the wrapped text fits the limit of that loop.
-/

set_option autoImplicit false

namespace IronClaw.OutputFence
open IronClaw.LlmMessage IronClaw.LeakScan IronClaw.ToolOutput IronClaw.SafetyLayer
open IronClaw.SessionThread IronClaw.ThreadHistory IronClaw.JsonValue Lib.Text

inductive RunStatus where
  | running
  | ok
  | attention
  | failed
  deriving DecidableEq

inductive RoutineError where
  | llmFailed (reason : String)
  | truncatedResponse
  | emptyResponse
  deriving DecidableEq

inductive FinishReason where
  | stop
  | length
  | toolUse
  | contentFilter
  | unknown
  deriving DecidableEq

structure CompletionResponse where
  content : String
  inputTokens : UInt32
  outputTokens : UInt32
  finishReason : FinishReason
  deriving DecidableEq

structure ToolCompletionResponse where
  content : Option String
  toolCalls : List ToolCall
  inputTokens : UInt32
  outputTokens : UInt32
  finishReason : FinishReason
  deriving DecidableEq

abbrev Outcome := Except RoutineError (RunStatus × Option String × Option Int32)

def handleTextResponse (content : String) (finishReason : FinishReason)
    (totalInputTokens totalOutputTokens : UInt32) : Outcome :=
  let content := trim content
  if content = "" then
    .error (if finishReason = .length then .truncatedResponse else .emptyResponse)
  else if content = "ROUTINE_OK" then
    .ok (.ok, none, some (totalInputTokens+totalOutputTokens).toInt32)
  else .ok (.attention, some content, some (totalInputTokens+totalOutputTokens).toInt32)

structure Entry where
  message : ChatMessage
  answers : Option (ToolCall × Except String String)

def plain (message : ChatMessage) : Entry := ⟨message, none⟩

def maxToolLoopMessages : ℕ := 32

def snapshotMessagesForToolIteration (messages : List Entry) : List Entry :=
  if messages.length ≤ maxToolLoopMessages then messages
  else
    match messages.head? with
    | some first =>
      if first.message.role = .system then
        first::messages.drop (max (messages.length-(maxToolLoopMessages-1)) 1)
      else messages.drop (messages.length-maxToolLoopMessages)
    | none => messages.drop (messages.length-maxToolLoopMessages)

def maxToolOutputChars : ℕ := 8192

def truncationMark : List Char := "\n... [output truncated to 8192 chars]".toList

def capToolOutput (content : String) : String :=
  if maxToolOutputChars < byteLen content.toList then
    String.ofList (sliceTo content.toList (floorBoundary content.toList maxToolOutputChars)++
      truncationMark)
  else content

structure Surroundings where
  complete : ℕ → List ChatMessage → Except String CompletionResponse
  completeWithTools : ℕ → List ChatMessage → Except String ToolCompletionResponse
  executeRoutineTool : ℕ → ℕ → ToolCall → Except String String

structure Run where
  requests : List (List Entry)
  outcome : Option Outcome

section

variable (compile : String → List Char → List Match) (toLowercase : List Char → List Char)
  (config : SafetyConfig)

def sanitized (name text : String) : String :=
  String.ofList (sanitizeToolOutput compile toLowercase config name text.toList).content

def resultText (name : String) : Except String String → String
  | .ok output => output
  | .error e => s!"Tool '{name}' failed: {e}"

@[irreducible]
def toolEntry (tc : ToolCall) (result : Except String String) : Option Entry :=
  (wrapForLlm tc.name
    (sanitized compile toLowercase config tc.name (resultText tc.name result))).map
      (fun wrapped =>
        ⟨ChatMessage.toolResult tc.id tc.name (capToolOutput wrapped), some (tc, result)⟩)

def toolEntries (execute : ℕ → ToolCall → Except String String) :
    ℕ → List ToolCall → Option (List Entry)
  | _, [] => some []
  | i, tc::tcs =>
    match toolEntry compile toLowercase config tc (execute i tc),
      toolEntries execute (i+1) tcs with
    | some entry, some entries => some (entry::entries)
    | _, _ => none

variable (around : Surroundings)

def toolLoop : ℕ → ℕ → List Entry → UInt32 → UInt32 → Run
  | 0, iteration, messages, totalInput, totalOutput =>
    match around.complete iteration (messages.map Entry.message) with
    | .error reason => ⟨[messages], some (.error (.llmFailed reason))⟩
    | .ok response => ⟨[messages], some (handleTextResponse response.content
        response.finishReason (totalInput+response.inputTokens)
        (totalOutput+response.outputTokens))⟩
  | left+1, iteration, messages, totalInput, totalOutput =>
    let request := snapshotMessagesForToolIteration messages
    match around.completeWithTools iteration (request.map Entry.message) with
    | .error reason => ⟨[request], some (.error (.llmFailed reason))⟩
    | .ok response =>
      let totalInput := totalInput+response.inputTokens
      let totalOutput := totalOutput+response.outputTokens
      if response.toolCalls = [] then
        ⟨[request], some (handleTextResponse (response.content.getD "") response.finishReason
          totalInput totalOutput)⟩
      else
        match toolEntries compile toLowercase config (around.executeRoutineTool iteration) 0
            response.toolCalls with
        | none => ⟨[request], none⟩
        | some entries =>
          let rest := toolLoop left (iteration+1)
            (messages++plain (.assistantWithToolCalls response.content response.toolCalls)::entries)
            totalInput totalOutput
          ⟨request::rest.requests, rest.outcome⟩

def executeLightweightWithTools (systemPrompt fullPrompt : String)
    (maxToolRounds lightweightMaxIterations : ℕ) : Run :=
  let messages :=
    if systemPrompt = "" then [plain (.user fullPrompt)]
    else [plain ⟨.system, systemPrompt, [], none, none, none⟩, plain (.user fullPrompt)]
  let maxIterations := min (min maxToolRounds lightweightMaxIterations) 5
  toolLoop compile toLowercase config around (maxIterations-1) 1 messages 0 0

end

def Closed (content : String) : Prop :=
  startsWith content openTag = true → endsWith content "</tool_output>" = true

def Fenced (content : String) : Prop :=
  startsWith content openTag = true ∧ endsWith content "</tool_output>" = true

theorem open_tag_list : openTag.toList = '<'::word := by decide

theorem ending_list : "</tool_output>".toList = ending := by decide

theorem close_tag_list : closeTag.toList = '\n'::ending := by decide

theorem fenced_iff (content : String) :
    Fenced content ↔ '<'::word <+: content.toList ∧ ending <:+ content.toList := by
  rw [Fenced, startsWith, endsWith, open_tag_list, ending_list, List.isPrefixOf_iff_prefix,
    List.isSuffixOf_iff_suffix]

theorem opening_starts (name : List Char) : '<'::word <+: opening name := by
  rw [opening, List.append_assoc, List.append_assoc]
  exact List.prefix_append _ _

theorem wrapped_fenced (name content text : String)
    (h : wrapForLlm name content = some text) : Fenced text := by
  rw [wrap_eq, Option.some.injEq] at h
  rw [fenced_iff, ← h, String.toList_ofList]
  constructor
  · rw [List.append_assoc, List.append_assoc]
    exact (opening_starts name.toList).trans (List.prefix_append _ _)
  · exact List.suffix_append _ _

theorem preview_starts (s : String) (n : ℕ) (hn : 100 ≤ n) (h : n < byteLen s.toList) :
    startsWith (truncatePreview s n) openTag = startsWith s openTag := by
  obtain ⟨rest, hs⟩ := sliceTo_split s.toList n
  have hbytes := byteLen_sliceTo_ge s.toList n h.le
  have hchars := byteLen_le (sliceTo s.toList n)
  have htag : openTag.toList.length = 12 := by decide
  exact startsWith_congr s (truncatePreview s n) openTag _ _ _ hs (truncate_long s n h) (by omega)

theorem preview_fenced (s : String) (n : ℕ) (hn : 100 ≤ n) (h : Fenced s) :
    Fenced (truncatePreview s n) := by
  by_cases hshort : byteLen s.toList ≤ n
  · rwa [truncate_short s n hshort]
  have hlong : n < byteLen s.toList := Nat.lt_of_not_le hshort
  constructor
  · rw [preview_starts s n hn hlong]
    exact h.1
  · rw [endsWith, ending_list, List.isSuffixOf_iff_suffix, truncate_long s n hlong, closing,
      if_pos h.1, close_tag_list]
    exact ((List.suffix_cons '\n' ending).trans (List.suffix_append _ _)).trans
      (List.suffix_append _ _)

/-- A cut keeps the opening tag and ends in the mark of the cut. -/
theorem capped_open (s : String) (h : Fenced s) (hlong : maxToolOutputChars < byteLen s.toList) :
    ¬ Closed (capToolOutput s) := by
  have hcap : (capToolOutput s).toList = sliceTo s.toList maxToolOutputChars++truncationMark := by
    rw [capToolOutput, if_pos hlong, String.toList_ofList, slice_floor]
  obtain ⟨rest, hs⟩ := sliceTo_split s.toList maxToolOutputChars
  have hbytes := byteLen_sliceTo_ge s.toList maxToolOutputChars hlong.le
  have hchars := byteLen_le (sliceTo s.toList maxToolOutputChars)
  have htag : openTag.toList.length = 12 := by decide
  have hstart := startsWith_congr s (capToolOutput s) openTag _ _ _ hs hcap
    (by rw [maxToolOutputChars] at *; omega)
  intro hclosed
  have hend := hclosed (hstart.trans h.1)
  rw [endsWith, ending_list, List.isSuffixOf_iff_suffix, hcap] at hend
  -- the last characters of the two texts differ
  obtain ⟨before, hbefore⟩ := hend
  have hlast := congrArg List.getLast? hbefore
  have hending : ending.getLast? = some '>' := by decide
  have hmark : truncationMark.getLast? = some ']' := by decide
  rw [List.getLast?_append, List.getLast?_append, hending, hmark, Option.some_or,
    Option.some_or] at hlast
  exact absurd hlast (by decide)

def closeTagCount (cs : List Char) : ℕ := cs.tails.countP opens

theorem closeTags_byteLen (cs : List Char) :
    byteLen (closeTags cs) = byteLen cs+3*closeTagCount cs := by
  have hzero : zeroWidth.utf8Size = 3 := by decide
  induction cs with
  | nil => decide
  | cons c cs ih =>
    have hcount : closeTagCount (c::cs) = closeTagCount cs+(if opens (c::cs) then 1 else 0) := by
      rw [closeTagCount, List.tails, List.countP_cons]
      rfl
    rw [closeTags, hcount]
    split
    · simp only [byteLen, ih, hzero]
      omega
    · simp only [byteLen, ih]
      omega

theorem wrapped_byteLen (name content text : String) (h : wrapForLlm name content = some text) :
    byteLen text.toList = byteLen (escapeXmlAttr name.toList)+byteLen content.toList+
      3*closeTagCount content.toList+37 := by
  have hopen : byteLen ('<'::word++" name=\"".toList) = 19 := by decide
  have hquote : byteLen ['"', '>', '\n'] = 3 := by decide
  have hend : byteLen (['\n']++ending) = 15 := by decide
  rw [wrap_eq, Option.some.injEq] at h
  rw [← h, String.toList_ofList, List.append_assoc, byteLen_append, byteLen_append, hend, opening,
    byteLen_append, byteLen_append, hopen, hquote, closeTags_byteLen]
  omega

section Paths

variable (compile : String → List Char → List Match) (toLowercase : List Char → List Char)
  (config : SafetyConfig)

def Made (e : Entry) : Prop :=
  ∀ tc result, e.answers = some (tc, result) →
    toolEntry compile toLowercase config tc result = some e

theorem plain_made (m : ChatMessage) : Made compile toLowercase config (plain m) := by
  intro tc result h
  exact absurd h (by simp [plain])

theorem toolEntry_some (tc : ToolCall) (result : Except String String) (e : Entry)
    (h : toolEntry compile toLowercase config tc result = some e) :
    ∃ wrapped, wrapForLlm tc.name
        (sanitized compile toLowercase config tc.name (resultText tc.name result)) = some wrapped ∧
      ⟨ChatMessage.toolResult tc.id tc.name (capToolOutput wrapped), some (tc, result)⟩ = e := by
  unfold toolEntry at h
  exact Option.map_eq_some_iff.mp h

theorem entry_made (tc : ToolCall) (result : Except String String) (e : Entry)
    (h : toolEntry compile toLowercase config tc result = some e) :
    Made compile toLowercase config e := by
  intro tc' result' hanswers
  obtain ⟨wrapped, -, he⟩ := toolEntry_some compile toLowercase config tc result e h
  rw [← he, Option.some.injEq, Prod.mk.injEq] at hanswers
  rw [← hanswers.1, ← hanswers.2]
  exact h

theorem entries_made (execute : ℕ → ToolCall → Except String String) (i : ℕ)
    (tcs : List ToolCall) (es : List Entry)
    (h : toolEntries compile toLowercase config execute i tcs = some es) :
    ∀ e ∈ es, Made compile toLowercase config e := by
  induction tcs generalizing i es with
  | nil =>
    obtain rfl := Option.some.inj h
    simp
  | cons tc tcs ih =>
    rw [toolEntries] at h
    split at h
    · next entry entries hentry hentries =>
      obtain rfl := Option.some.inj h
      intro e he
      rcases List.mem_cons.mp he with rfl | hrest
      · exact entry_made compile toLowercase config tc _ _ hentry
      · exact ih (i+1) entries hentries e hrest
    · cases h

theorem snapshot_subset (messages : List Entry) (e : Entry)
    (h : e ∈ snapshotMessagesForToolIteration messages) : e ∈ messages := by
  unfold snapshotMessagesForToolIteration at h
  split at h
  · exact h
  · split at h
    · next first hfirst =>
      split at h
      · rcases List.mem_cons.mp h with rfl | hrest
        · exact List.mem_of_mem_head? hfirst
        · exact List.mem_of_mem_drop hrest
      · exact List.mem_of_mem_drop h
    · exact List.mem_of_mem_drop h

/-- Every request of the loop holds only what the loop made. -/
theorem loop_made (around : Surroundings) (left iteration : ℕ) (messages : List Entry)
    (totalInput totalOutput : UInt32)
    (h : ∀ e ∈ messages, Made compile toLowercase config e) :
    ∀ request ∈ (toolLoop compile toLowercase config around left iteration messages totalInput
      totalOutput).requests, ∀ e ∈ request, Made compile toLowercase config e := by
  induction left generalizing iteration messages totalInput totalOutput with
  | zero =>
    intro request hrequest
    rw [toolLoop] at hrequest
    split at hrequest
    · rw [List.mem_singleton.mp hrequest]
      exact h
    · rw [List.mem_singleton.mp hrequest]
      exact h
  | succ left ih =>
    have hsnapshot : ∀ e ∈ snapshotMessagesForToolIteration messages,
        Made compile toLowercase config e := fun e he => h e (snapshot_subset messages e he)
    intro request hrequest
    simp only [toolLoop] at hrequest
    split at hrequest
    · rw [List.mem_singleton.mp hrequest]
      exact hsnapshot
    · next response hresponse =>
      split at hrequest
      · rw [List.mem_singleton.mp hrequest]
        exact hsnapshot
      · split at hrequest
        · rw [List.mem_singleton.mp hrequest]
          exact hsnapshot
        · next entries hentries =>
          rcases List.mem_cons.mp hrequest with rfl | hlater
          · exact hsnapshot
          · refine ih _ _ _ _ ?_ request hlater
            intro e he
            rcases List.mem_append.mp he with hold | hnew
            · exact h e hold
            · rcases List.mem_cons.mp hnew with rfl | hentry
              · exact plain_made compile toLowercase config _
              · exact entries_made compile toLowercase config _ _ _ entries hentries e hentry

theorem lightweight_made (around : Surroundings) (systemPrompt fullPrompt : String)
    (maxToolRounds lightweightMaxIterations : ℕ) :
    ∀ request ∈ (executeLightweightWithTools compile toLowercase config around systemPrompt
      fullPrompt maxToolRounds lightweightMaxIterations).requests,
      ∀ e ∈ request, Made compile toLowercase config e := by
  apply loop_made
  intro e he
  have hplain : ∃ m, e = plain m := by
    split at he
    · exact ⟨_, List.mem_singleton.mp he⟩
    · rcases List.mem_cons.mp he with rfl | htail
      · exact ⟨_, rfl⟩
      · exact ⟨_, List.mem_singleton.mp htail⟩
  obtain ⟨m, rfl⟩ := hplain
  exact plain_made compile toLowercase config m

variable (name output : String)

def Fits : Prop :=
  byteLen (escapeXmlAttr name.toList)+
    byteLen (sanitized compile toLowercase config name output).toList+
    3*closeTagCount (sanitized compile toLowercase config name output).toList+37 ≤
      maxToolOutputChars

inductive Recorded : String → Prop
  | sent (id content : String) (m : ChatMessage)
      (h : processToolResult compile toLowercase config name id (.ok output) =
        some (content, m)) : Recorded content
  | restored (content : String) (limit : ℕ) (h : Recorded content)
      (hlimit : limit = 500 ∨ limit = 1000) : Recorded (truncatePreview content limit)

structure ClosedOnEveryPath : Prop where
  direct : ∀ id, ∃ content m,
    processToolResult compile toLowercase config name id (.ok output) = some (content, m) ∧
      Closed m.content
  later : ∀ (render : Value → String) (t : Thread) (turn : Turn) (i : ℕ) (c : TurnToolCall)
    (text : String), turn ∈ t.turns → turn.toolCalls[i]? = some c → c.error = none →
    c.result = some (.string text) → Recorded compile toLowercase config name output text →
    ∃ m ∈ t.messages render, (turn.toolMessages render)[i+1]? = some m ∧ Closed m.content
  routine : ∀ (around : Surroundings) (systemPrompt fullPrompt : String)
    (maxToolRounds lightweightMaxIterations : ℕ),
    ∀ request ∈ (executeLightweightWithTools compile toLowercase config around systemPrompt
      fullPrompt maxToolRounds lightweightMaxIterations).requests,
      ∀ e ∈ request, ∀ tc, tc.name = name → e.answers = some (tc, .ok output) →
        Closed e.message.content

theorem processed (id : String) : ∃ wrapped,
    wrapForLlm name (sanitized compile toLowercase config name output) = some wrapped ∧
    processToolResult compile toLowercase config name id (.ok output) =
      some (wrapped, ChatMessage.toolResult id name wrapped) := by
  have hwrap := wrap_eq name (sanitized compile toLowercase config name output)
  refine ⟨_, hwrap, ?_⟩
  rw [sanitized] at hwrap
  simp only [processToolResult, hwrap, Option.map_some]
  rfl

theorem recorded_fenced (text : String)
    (h : Recorded compile toLowercase config name output text) : Fenced text := by
  induction h with
  | sent id content m hm =>
    obtain ⟨wrapped, hwrap, hprocessed⟩ := processed compile toLowercase config name output id
    rw [hprocessed, Option.some.injEq, Prod.mk.injEq] at hm
    rw [← hm.1]
    exact wrapped_fenced name _ wrapped hwrap
  | restored content limit h hlimit ih =>
    exact preview_fenced content limit (by omega) ih

theorem resultMessages_get (render : Value → String) (n i j : ℕ) (cs : List TurnToolCall)
    (c : TurnToolCall) (h : cs[j]? = some c) :
    (resultMessages render n i cs)[j]? =
      some (.toolResult (callId n (i+j)) c.name (c.content render)) := by
  induction cs generalizing i j with
  | nil => cases h
  | cons d cs ih =>
    cases j with
    | zero =>
      obtain rfl := Option.some.inj h
      rfl
    | succ j =>
      have hrest := ih (i+1) j h
      rw [show i+1+j = i+(j+1) by omega] at hrest
      exact hrest

theorem toolMessages_get (render : Value → String) (turn : Turn) (i : ℕ) (c : TurnToolCall)
    (h : turn.toolCalls[i]? = some c) :
    (turn.toolMessages render)[i+1]? =
      some (.toolResult (callId turn.turnNumber i) c.name (c.content render)) := by
  have hcalls : ¬ turn.toolCalls.isEmpty = true := by
    intro hempty
    rw [List.isEmpty_iff.mp hempty] at h
    cases h
  rw [Turn.toolMessages, if_neg hcalls, List.getElem?_cons_succ,
    resultMessages_get render turn.turnNumber 0 i turn.toolCalls c h, Nat.zero_add]

theorem later_closed (render : Value → String) (t : Thread) (turn : Turn) (i : ℕ)
    (c : TurnToolCall) (text : String) (hturn : turn ∈ t.turns)
    (hcall : turn.toolCalls[i]? = some c) (herror : c.error = none)
    (hresult : c.result = some (.string text))
    (hrecorded : Recorded compile toLowercase config name output text) :
    ∃ m ∈ t.messages render, (turn.toolMessages render)[i+1]? = some m ∧ Closed m.content := by
  have hget := toolMessages_get render turn i c hcall
  refine ⟨_, ?_, hget, ?_⟩
  · apply List.mem_flatMap.mpr
    refine ⟨turn, hturn, List.mem_cons_of_mem _ (List.mem_append_left _ ?_)⟩
    exact List.mem_of_getElem? hget
  · have hcontent : c.content render = truncatePreview text 1000 := by
      simp only [TurnToolCall.content, TurnToolCall.rawContent, herror, hresult]
    have hfenced := recorded_fenced compile toLowercase config name output text hrecorded
    intro _
    show endsWith (c.content render) "</tool_output>" = true
    rw [hcontent]
    exact (preview_fenced text 1000 (by omega) hfenced).2

theorem entry_closed_iff (tc : ToolCall) (htc : tc.name = name) (e : Entry)
    (h : toolEntry compile toLowercase config tc (.ok output) = some e) :
    Closed e.message.content ↔ Fits compile toLowercase config name output := by
  obtain ⟨wrapped, hwrap, he⟩ := toolEntry_some compile toLowercase config tc (.ok output) e h
  rw [resultText, htc] at hwrap
  have hfenced := wrapped_fenced name _ wrapped hwrap
  have hcontent : e.message.content = capToolOutput wrapped := by
    rw [← he]
    rfl
  rw [hcontent, Fits, ← wrapped_byteLen name _ wrapped hwrap]
  constructor
  · intro hclosed
    exact Nat.le_of_not_lt (fun hlong => capped_open wrapped hfenced hlong hclosed)
  · intro hfits _
    rw [capToolOutput, if_neg (Nat.not_lt.mpr hfits)]
    exact hfenced.2

def oneCall : Surroundings where
  complete _ _ := .ok ⟨"ROUTINE_OK", 0, 0, .stop⟩
  completeWithTools _ _ := .ok ⟨none, [⟨"call_1", name, .null⟩], 0, 0, .toolUse⟩
  executeRoutineTool _ _ _ := .ok output

theorem oneCall_sends : ∃ request ∈ (executeLightweightWithTools compile toLowercase config
      (oneCall name output) "" "check" 2 3).requests, ∃ e ∈ request,
    toolEntry compile toLowercase config ⟨"call_1", name, .null⟩ (.ok output) = some e := by
  have hentry : ∃ e, toolEntry compile toLowercase config ⟨"call_1", name, .null⟩ (.ok output) =
      some e := by
    rw [toolEntry, wrap_eq]
    exact ⟨_, rfl⟩
  obtain ⟨e, he⟩ := hentry
  have hentries : toolEntries compile toLowercase config
      ((oneCall name output).executeRoutineTool 1) 0 [⟨"call_1", name, .null⟩] = some [e] := by
    simp only [toolEntries, oneCall, he]
  refine ⟨[plain (.user "check"), plain (.assistantWithToolCalls none
    [⟨"call_1", name, .null⟩]), e], ?_, e, by simp, he⟩
  show _ ∈ (toolLoop compile toLowercase config (oneCall name output) 1 1
    [plain (.user "check")] 0 0).requests
  rw [toolLoop]
  simp only [oneCall, reduceCtorEq, if_false] at hentries ⊢
  rw [hentries]
  simp [toolLoop]

/-- Only the routine loop can leave the fence open, and does so exactly when
the wrapped output is longer than its limit. -/
theorem output_fence_closed_iff :
    ClosedOnEveryPath compile toLowercase config name output ↔
      Fits compile toLowercase config name output := by
  constructor
  · intro h
    obtain ⟨request, hrequest, e, he, hentry⟩ :=
      oneCall_sends compile toLowercase config name output
    have hanswers : e.answers = some (⟨"call_1", name, .null⟩, .ok output) := by
      obtain ⟨wrapped, -, hmade⟩ := toolEntry_some compile toLowercase config _ _ e hentry
      rw [← hmade]
    have hclosed := h.routine _ _ _ _ _ request hrequest e he _ rfl hanswers
    exact (entry_closed_iff compile toLowercase config name output _ rfl e hentry).mp hclosed
  · intro hfits
    refine ⟨?_, ?_, ?_⟩
    · intro id
      obtain ⟨wrapped, hwrap, hprocessed⟩ := processed compile toLowercase config name output id
      exact ⟨_, _, hprocessed, fun _ => (wrapped_fenced name _ wrapped hwrap).2⟩
    · exact later_closed compile toLowercase config name output
    · intro around systemPrompt fullPrompt maxToolRounds lightweightMaxIterations request hrequest
        e he tc htc hanswers
      have hmade := lightweight_made compile toLowercase config around systemPrompt fullPrompt
        maxToolRounds lightweightMaxIterations request hrequest e he tc _ hanswers
      exact (entry_closed_iff compile toLowercase config name output tc htc e hmade).mpr hfits

end Paths

def defaultConfig : SafetyConfig := ⟨100000, true⟩

def letters (n : ℕ) : String := String.ofList ('"'::(List.replicate n 'a'++['"']))

theorem letters_bytes (n : ℕ) : byteLen (letters n).toList = n+2 := by
  have hquote : byteLen ['"'] = 1 := by decide
  have hascii : byteLen (List.replicate n 'a') = n := by
    rw [byteLen_ascii, List.length_replicate]
    intro c hc
    rw [List.eq_of_mem_replicate hc]
    decide
  rw [letters, String.toList_ofList, ← List.singleton_append, byteLen_append, byteLen_append,
    hquote, hascii]
  omega

/-- The output is so long that the safety layer itself cuts it, before any
pattern is tried. -/
theorem long_output_open :
    ¬ ClosedOnEveryPath (fun _ _ => []) id defaultConfig "shell" (letters 100000) := by
  intro h
  obtain ⟨request, hrequest, e, he, hentry⟩ :=
    oneCall_sends (fun _ _ => []) id defaultConfig "shell" (letters 100000)
  obtain ⟨wrapped, hwrap, hmade⟩ := toolEntry_some (fun _ _ => []) id defaultConfig _ _ e hentry
  have hclosed := h.routine _ _ _ _ _ request hrequest e he ⟨"call_1", "shell", .null⟩ rfl
    (by rw [← hmade])
  rw [entry_closed_iff (fun _ _ => []) id defaultConfig "shell" (letters 100000) _ rfl e hentry,
    Fits] at hclosed
  have hcut : byteLen (sanitized (fun _ _ => []) id defaultConfig "shell" (letters 100000)).toList ≥
      99997 := by
    have hge := byteLen_sliceTo_ge (letters 100000).toList 100000 (by rw [letters_bytes]; omega)
    have hlong : defaultConfig.maxOutputLength < byteLen (letters 100000).toList := by
      rw [letters_bytes]
      show 100000 < 100000+2
      omega
    rw [sanitized, String.toList_ofList, sanitizeToolOutput, if_pos hlong]
    simp only [byteLen_append, slice_floor, defaultConfig]
    omega
  rw [maxToolOutputChars] at hclosed
  omega

end IronClaw.OutputFence
