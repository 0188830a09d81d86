import IronClaw.ApprovalChain
import IronClaw.ResponseText
import IronClaw.SafetyLayer
import IronClaw.Worker

/-!
# The agentic loop of a chat turn

`Agent::run_agentic_loop` with its `ChatDelegate`: every iteration refreshes
the tool definitions, cuts them down to what the active skills allow, asks
the language model and runs the calls it answers with. `processUserInput`
opens a turn with the loop and `processApprovalTurn` takes a suspended turn
up again, with the skills that the approval message itself activates.

The definitions of a round, the answers of the language model, the registry
its calls meet and what their tasks do come from outside, for every iteration
on its own. Prompts, token counts and status updates are left out.
-/

set_option autoImplicit false

namespace IronClaw.ChatLoop
open IronClaw.JsonValue IronClaw.LlmMessage IronClaw.SessionThread IronClaw.Submission
open IronClaw.Dispatcher IronClaw.Approval IronClaw.ApprovalChain IronClaw.ResponseText
open Lib.Text Lib.Search

inductive SkillTrust where
  | installed
  | trusted
  deriving DecidableEq

instance : Min SkillTrust := ⟨fun a b => if a = .installed then a else b⟩

structure LoadedSkill where
  trust : SkillTrust
  deriving DecidableEq

def readOnlyTools : List String :=
  ["memory_search", "memory_read", "memory_tree", "time", "echo", "json", "skill_list",
    "skill_search"]

structure AttenuationResult where
  tools : List ToolDefinition
  minTrust : SkillTrust
  explanation : String
  removedTools : List String

def attenuateTools (tools : List ToolDefinition) (activeSkills : List LoadedSkill) :
    AttenuationResult :=
  if activeSkills = [] then ⟨tools, .trusted, "No skills active, all tools available", []⟩
  else match (activeSkills.map LoadedSkill.trust).min?.getD .trusted with
  | .trusted =>
    ⟨tools, .trusted, "All active skills are trusted (full trust), all tools available", []⟩
  | .installed =>
    let kept := tools.filter (fun tool => readOnlyTools.contains tool.name)
    let removed := (tools.filter (fun tool => !readOnlyTools.contains tool.name)).map
      ToolDefinition.name
    ⟨kept, .installed,
      "Installed skill present: restricted to read-only tools, removed " ++
        toString removed.length ++ " tool(s): " ++ ", ".intercalate removed, removed⟩

def shownTools (tools : List ToolDefinition) (activeSkills : List LoadedSkill) :
    List ToolDefinition :=
  if activeSkills = [] then tools else (attenuateTools tools activeSkills).tools

structure ReasoningContext where
  messages : List ChatMessage
  availableTools : List ToolDefinition
  forceText : Bool

inductive LlmError where
  | contextLengthExceeded (used limit : ℕ)
  | other (text : String)
  deriving DecidableEq

def LlmError.display : LlmError → String
  | .contextLengthExceeded used limit =>
    "Context length exceeded: " ++ toString used ++ " tokens used, " ++ toString limit ++
      " allowed"
  | .other text => text

def invalidResponse (provider reason : String) : LlmError :=
  .other ("Invalid response from " ++ provider ++ ": " ++ reason)

def llmError (e : LlmError) : Error := .other ("LLM error: " ++ e.display)

structure ToolCompletion where
  content : Option String
  toolCalls : List ToolCall

structure Reply where
  completeWithTools : Except LlmError ToolCompletion
  complete : Except LlmError String

/-- The JSON reader, the patterns of `clean_response` and the test for a
promised tool call. -/
structure Reasoning where
  parse : String → Option Value
  patterns : Patterns
  signalsToolIntent : String → Bool

def unsure : String := "I'm not sure how to respond to that."

section Respond

variable (reasoning : Reasoning)

def cleaned (content : String) : List Char :=
  cleanResponse reasoning.patterns (truncateAtToolTags content.toList)

def finalText (content : String) : String :=
  if trimChars (cleaned reasoning content) = [] then unsure
  else String.ofList (cleaned reasoning content)

def respondPlain (reply : Reply) : Except LlmError Worker.RespondResult :=
  match reply.complete with
  | .error e => .error e
  | .ok content => .ok (.text (finalText reasoning content))

def respondWithTools (context : ReasoningContext) (reply : Reply) :
    Except LlmError Worker.RespondResult :=
  let effectiveTools := if context.forceText then [] else context.availableTools
  if effectiveTools ≠ [] then
    match reply.completeWithTools with
    | .error e => .error e
    | .ok response =>
      -- structured calls are taken as they are, whatever tools were offered
      if response.toolCalls ≠ [] then
        .ok (.toolCalls response.toolCalls
          (response.content.map (fun c => String.ofList (cleaned reasoning c))))
      else
        let content := response.content.getD unsure
        let recovered := recoverToolCallsFromContent reasoning.parse content.toList
          context.availableTools
        if recovered ≠ [] then
          let text := cleaned reasoning content
          .ok (.toolCalls recovered (if text = [] then none else some (String.ofList text)))
        else .ok (.text (finalText reasoning content))
  else respondPlain reasoning reply

end Respond

def system (content : String) : ChatMessage := ⟨.system, content, [], none, none, none⟩

def compactionNote : String :=
  "[Note: Earlier conversation history was automatically compacted " ++
    "to fit within the context window. The most recent exchange is preserved below.]"

def isSystem (m : ChatMessage) : Bool := m.role = .system

def lastUser (messages : List ChatMessage) : Option (List ChatMessage × List ChatMessage) :=
  let after := (messages.reverse.takeWhile (fun m => m.role ≠ .user)).reverse
  match messages.reverse.dropWhile (fun m => m.role ≠ .user) with
  | [] => none
  | user::before => some (before.reverse, user::after)

def compactMessagesForRetry (messages : List ChatMessage) : List ChatMessage :=
  match lastUser messages with
  | some (before, kept) =>
    before.filter isSystem++(if before = [] then [] else [system compactionNote])++kept
  | none => messages.filter isSystem++messages.filter (fun m => !isSystem m)

def compactContext (context : ReasoningContext) : ReasoningContext :=
  { context with
    messages := compactMessagesForRetry context.messages
    availableTools := if context.forceText then [] else context.availableTools }

def isInternalLine (line : List Char) : Bool :=
  let trimmed := trimChars line
  ("[Called tool ".toList.isPrefixOf trimmed && [']'].isSuffixOf trimmed) ||
    ("[Tool ".toList.isPrefixOf trimmed && decide (" returned:".toList <:+: trimmed) &&
      [']'].isSuffixOf trimmed)

def joinLines (lines : List (List Char)) : List Char :=
  lines.foldl (fun acc line => (if acc = [] then acc else acc++['\n'])++line) []

def stripInternalToolCallText (text : String) : String :=
  let result := trimChars (joinLines ((SafetyLayer.lines text.toList).filter
    (fun line => !isInternalLine line)))
  if result = [] then
    "I wasn't able to complete that request. Could you try rephrasing or providing more details?"
  else String.ofList result

structure Round where
  interrupted : Bool
  toolDefinitions : List ToolDefinition
  costLimit : Option String
  reply : Reply
  retry : Reply
  agent : Agent
  now : ℤ
  requestId : Uuid
  runs : Runs

structure Setting where
  reasoning : Reasoning
  threadId : Uuid
  maxToolIterations : ℕ

/-- One call of `run_agentic_loop`. `answer` is what becomes of a response
text before the turn is completed with it. -/
structure Leg where
  activeSkills : List LoadedSkill
  userTz : String
  toolDefinitions : List ToolDefinition
  rounds : ℕ → Round
  answer : String → String

inductive Ended where
  | outcome (o : LoopOutcome)
  | stopped
  | maxIterations

structure LoopState where
  session : Session
  context : ReasoningContext
  nudges : ℕ
  executed : List ToolCall

def interruptThread (t : Thread) : Thread :=
  match t.state with
  | .processing => t.interrupt
  | .awaitingApproval => t.interrupt
  | _ => t

def limitNudge : String :=
  "You are approaching the tool call limit. " ++
    "Provide your best final answer on the next response " ++
    "using the information you have gathered so far. " ++
    "Do not call any more tools."

section Loop

variable (setting : Setting) (message : IncomingMessage) (leg : Leg)

def isInterrupted (sess : Session) : Bool :=
  (sess.threads setting.threadId).any (fun t => t.state = .interrupted)

def beforeLlmCall (iteration : ℕ) (context : ReasoningContext) : ReasoningContext :=
  { messages :=
      if iteration = setting.maxToolIterations-1 then context.messages++[system limitNudge]
      else context.messages
    availableTools := shownTools (leg.rounds iteration).toolDefinitions leg.activeSkills
    forceText := setting.maxToolIterations ≤ iteration }

def callLlm (round : Round) (context : ReasoningContext) :
    ReasoningContext × Except Error Worker.RespondResult :=
  match round.costLimit with
  | some limit => (context, .error (llmError (invalidResponse "agent" limit)))
  | none =>
    match respondWithTools setting.reasoning context round.reply with
    | .ok result => (context, .ok result)
    | .error (.contextLengthExceeded _ _) =>
      match respondWithTools setting.reasoning (compactContext context) round.retry with
      | .ok result => (compactContext context, .ok result)
      | .error e => (compactContext context, .error (llmError e))
    | .error e => (context, .error (llmError e))

def handleText (text : String) (s : LoopState) : Option (Except Error Ended) × LoopState :=
  let intent := setting.reasoning.signalsToolIntent text
  if s.context.availableTools ≠ [] ∧ s.context.forceText = false ∧
      s.nudges < Worker.maxToolIntentNudges ∧ intent = true then
    (none, { s with
      nudges := s.nudges+1
      context := { s.context with messages :=
        s.context.messages++[.assistant text, .user Worker.toolIntentNudge] } })
  else
    (some (.ok (.outcome (.response (stripInternalToolCallText text)))),
      { s with nudges := if intent then s.nudges else 0 })

def handleCalls (round : Round) (calls : List ToolCall) (content : Option String)
    (s : LoopState) : Option (Except Error Ended) × LoopState :=
  let d := executeToolCalls round.agent message
    ⟨setting.threadId, round.now, round.requestId, leg.userTz⟩ round.runs s.session
    s.context.messages content calls
  (d.outcome.map (fun o => .ok (.outcome o)),
    { s with
      nudges := 0
      session := d.session
      context := { s.context with messages := d.context }
      executed := s.executed++d.executed })

def arrive (round : Round) (sess : Session) : Session :=
  if round.interrupted then sess.modifyThread setting.threadId interruptThread else sess

def iterate (iteration : ℕ) (s : LoopState) : Option (Except Error Ended) × LoopState :=
  let round := leg.rounds iteration
  let sess := arrive setting round s.session
  if isInterrupted setting sess then (some (.ok .stopped), { s with session := sess })
  else
    match callLlm setting round (beforeLlmCall setting leg iteration s.context) with
    | (context, .error e) => (some (.error e), { s with session := sess, context })
    | (context, .ok (.text text)) => handleText setting text { s with session := sess, context }
    | (context, .ok (.toolCalls calls content)) =>
      handleCalls setting message leg round calls content { s with session := sess, context }

def loop : ℕ → ℕ → LoopState → Except Error Ended × LoopState
  | 0, _, s => (.ok .maxIterations, s)
  | left+1, iteration, s =>
    match iterate setting message leg iteration s with
    | (some result, s) => (result, s)
    | (none, s) => loop left (iteration+1) s

def runAgenticLoop (initialMessages : List ChatMessage) (sess : Session) :
    Except Error LoopOutcome × Session × List ToolCall :=
  let context : ReasoningContext :=
    ⟨initialMessages, shownTools leg.toolDefinitions leg.activeSkills, false⟩
  let ended := loop setting message leg (setting.maxToolIterations+1) 1 ⟨sess, context, 0, []⟩
  let result := match ended.1 with
    | .error e => .error e
    | .ok (.outcome o) => .ok o
    | .ok .stopped => .error (.other
        ("Job error: Job " ++ uuidText setting.threadId ++ " context error: Interrupted"))
    | .ok .maxIterations => .error (llmError (invalidResponse "agent"
        ("Exceeded maximum tool iterations (" ++ toString setting.maxToolIterations ++ ")")))
  (result, ended.2.session, ended.2.executed)

end Loop

def settleThread (leg : Leg) (result : Except Error LoopOutcome) (t : Thread) : Thread :=
  match result with
  | .ok (.response text) => t.completeTurn (leg.answer text)
  | .ok (.needApproval pending) => t.awaitApproval pending
  | .error e => t.failTurn e.display

def settleResult (leg : Leg) : Except Error LoopOutcome → SubmissionResult
  | .ok (.response text) => .response (leg.answer text)
  | .ok (.needApproval pending) => needApproval pending
  | .error e => .error e.display

structure Processed where
  result : Except Error SubmissionResult
  session : Session
  executed : List ToolCall

structure Input where
  message : IncomingMessage
  content : String
  images : List ContentPart
  refusal : Option (Except Error SubmissionResult)
  compaction : Option ℕ
  leg : Leg

/-- `truncate_for_preview` of `agent_loop.rs`. -/
def truncateForPreview (output : String) (maxChars : ℕ) : String :=
  let shown := (output.toList.take (maxChars+50)).map (fun c => if c = '\n' then ' ' else c)
  let collapsed := (" ".intercalate (splitWhitespace (String.ofList shown))).toList
  if maxChars < collapsed.length then String.ofList (collapsed.take maxChars) ++ "..."
  else String.ofList collapsed

def waitingText (t : Thread) : String :=
  match t.pendingApproval with
  | some p => "Waiting for approval: " ++ p.toolName ++ " — " ++
      truncateForPreview p.description 80 ++ ". Use /interrupt to cancel."
  | none => "Waiting for approval. Use /interrupt to cancel."

def refuse (input : Input) (t : Thread) : Option (Except Error SubmissionResult) :=
  match t.state with
  | .processing => some (.ok (.error "Turn in progress. Use /interrupt to cancel."))
  | .awaitingApproval =>
    some (.ok (.okWithMessage (waitingText t)))
  | .completed => some (.ok (.error "Thread completed. Use /thread new."))
  | .idle => input.refusal
  | .interrupted => input.refusal

def compactThread (input : Input) (t : Thread) : Thread :=
  match input.compaction with
  | some keep => t.truncateTurns keep
  | none => t

def openTurn (input : Input) (t : Thread) : Thread :=
  ((compactThread input t).startTurn input.content).modifyLastTurn
    (fun turn => { turn with imageContentParts := input.images })

def processUserInput (render : Value → String) (setting : Setting) (input : Input)
    (sess : Session) : Processed :=
  match sess.threads setting.threadId with
  | none => ⟨.error (.jobNotFound setting.threadId), sess, []⟩
  | some thread =>
    match refuse input thread with
    | some answer => ⟨answer, sess, []⟩
    | none =>
      let opened := openTurn input thread
      let ended := runAgenticLoop setting input.message input.leg (opened.messages render)
        (sess.setThread setting.threadId opened)
      if isInterrupted setting ended.2.1 then ⟨.ok .interrupted, ended.2.1, ended.2.2⟩
      else
        ⟨.ok (settleResult input.leg ended.1),
          ended.2.1.modifyThread setting.threadId (settleThread input.leg ended.1), ended.2.2⟩

structure Continuation where
  stage : Stage
  leg : Leg

def processApprovalTurn (setting : Setting) (next : Continuation) (sess : Session) : Processed :=
  let step := processApproval next.stage setting.threadId sess
  match step.outcome with
  | .returned result => ⟨result, step.session, step.executed⟩
  | .resumes context =>
    let ended := runAgenticLoop setting next.stage.message next.leg context step.session
    ⟨.ok (settleResult next.leg ended.1),
      ended.2.1.modifyThread setting.threadId (settleThread next.leg ended.1),
      step.executed++ended.2.2⟩

def requestCalls (p : PendingApproval) : List ToolCall := pendingCall p::p.deferredToolCalls

def Quiet (threadId : Uuid) (before after : Session) : Prop :=
  ∀ t, before.threads threadId = some t → ∃ t', after.threads threadId = some t' ∧
    (t'.state = .awaitingApproval → t.state = .awaitingApproval) ∧
    t'.pendingApproval = t.pendingApproval

variable (threadId : Uuid)

theorem quiet_refl (sess : Session) : Quiet threadId sess sess := by
  intro t ht
  exact ⟨t, ht, id, rfl⟩

theorem quiet_trans (a b c : Session) (hab : Quiet threadId a b) (hbc : Quiet threadId b c) :
    Quiet threadId a c := by
  intro t ht
  obtain ⟨u, hu, hstate, hpending⟩ := hab t ht
  obtain ⟨v, hv, hstate', hpending'⟩ := hbc u hu
  exact ⟨v, hv, fun h => hstate (hstate' h), hpending'.trans hpending⟩

theorem quiet_modify (sess : Session) (f : Thread → Thread)
    (hstate : ∀ t, (f t).state = .awaitingApproval → t.state = .awaitingApproval)
    (hpending : ∀ t, (f t).pendingApproval = t.pendingApproval) :
    Quiet threadId sess (sess.modifyThread threadId f) := by
  intro t ht
  exact ⟨f t, modifyThread_threads sess threadId f t ht, hstate t, hpending t⟩

theorem quiet_touches (f : Turn → Turn) (a b : Session) (h : Touches threadId f a b) :
    Quiet threadId a b := by
  intro t ht
  obtain ⟨t', ht', -, hstate, hpending⟩ := h.2 t ht
  exact ⟨t', ht', fun hw => hstate ▸ hw, hpending⟩

theorem quiet_interrupt (sess : Session) :
    Quiet threadId sess (sess.modifyThread threadId interruptThread) := by
  apply quiet_modify
  · intro t
    unfold interruptThread
    cases hs : t.state <;> simp [hs, Thread.interrupt]
  · intro t
    unfold interruptThread
    cases t.state <;> rfl

section Quietness

variable (setting : Setting) (message : IncomingMessage) (leg : Leg)

theorem handleCalls_quiet (round : Round) (calls : List ToolCall) (content : Option String)
    (s : LoopState) : Quiet setting.threadId s.session
      (handleCalls setting message leg round calls content s).2.session :=
  quiet_touches _ _ _ _ (batch_touches round.agent message
    ⟨setting.threadId, round.now, round.requestId, leg.userTz⟩ round.runs s.session
    s.context.messages content calls)

/-- An iteration that runs no calls changes the session through an interrupt
at most and asks for nothing. -/
theorem iterate_cases (iteration : ℕ) (s : LoopState) :
    ((iterate setting message leg iteration s).2.session =
        arrive setting (leg.rounds iteration) s.session ∧
      (iterate setting message leg iteration s).2.executed = s.executed ∧
      ∀ p, (iterate setting message leg iteration s).1 ≠
        some (.ok (.outcome (.needApproval p)))) ∨
    ∃ context calls content,
      callLlm setting (leg.rounds iteration) (beforeLlmCall setting leg iteration s.context) =
        (context, .ok (.toolCalls calls content)) ∧
      iterate setting message leg iteration s =
        handleCalls setting message leg (leg.rounds iteration) calls content
          { s with session := arrive setting (leg.rounds iteration) s.session, context } := by
  unfold iterate
  dsimp only
  split
  · left
    exact ⟨rfl, rfl, by simp⟩
  · split
    · left
      exact ⟨rfl, rfl, by simp⟩
    · left
      unfold handleText
      dsimp only
      split
      · exact ⟨rfl, rfl, by simp⟩
      · exact ⟨rfl, rfl, by simp⟩
    · next context calls content hcall =>
      right
      exact ⟨context, calls, content, hcall, rfl⟩

theorem arrive_quiet (round : Round) (sess : Session) :
    Quiet setting.threadId sess (arrive setting round sess) := by
  unfold arrive
  split
  · exact quiet_interrupt _ _
  · exact quiet_refl _ _

theorem iterate_quiet (iteration : ℕ) (s : LoopState) :
    Quiet setting.threadId s.session (iterate setting message leg iteration s).2.session := by
  have harrive := arrive_quiet setting (leg.rounds iteration) s.session
  rcases iterate_cases setting message leg iteration s with ⟨hsame, -, -⟩ | ⟨context, calls, content,
    -, hcalls⟩
  · rw [hsame]
    exact harrive
  · rw [hcalls]
    exact quiet_trans _ _ _ _ harrive (handleCalls_quiet setting message leg _ calls content
      { s with session := arrive setting (leg.rounds iteration) s.session, context })

theorem loop_quiet (left iteration : ℕ) (s : LoopState) :
    Quiet setting.threadId s.session (loop setting message leg left iteration s).2.session := by
  induction left generalizing iteration s with
  | zero => exact quiet_refl _ _
  | succ left ih =>
    have hstep := iterate_quiet setting message leg iteration s
    rw [loop]
    split
    · next hit => rwa [hit] at hstep
    · next hit =>
      rw [hit] at hstep
      exact quiet_trans _ _ _ _ hstep (ih _ _)

theorem runAgenticLoop_quiet (messages : List ChatMessage) (sess : Session) :
    Quiet setting.threadId sess (runAgenticLoop setting message leg messages sess).2.1 :=
  loop_quiet setting message leg _ 1
    ⟨sess, ⟨messages, shownTools leg.toolDefinitions leg.activeSkills, false⟩, 0, []⟩

end Quietness

section Replay

variable (agent : Agent) (now : ℤ) (threadId : Uuid)

theorem deferredPostCall_quiet (r : ToolCall × Except Error String) (p : Postflight) :
    Quiet threadId p.session (deferredPostCall agent now threadId r p).session := by
  have hrecord := quiet_touches _ _ _ _ (touches_record p.session threadId
    (recordOutcome (processToolResult agent r.1 r.2) (isError r.2)))
  unfold deferredPostCall
  dsimp only
  split
  · apply quiet_trans _ _ _ _ hrecord
    apply quiet_modify
    · intro t h
      simp [Thread.completeTurn] at h
    · intro t
      rfl
  · exact hrecord

theorem deferredPostflight_quiet (rs : List (ToolCall × Except Error String)) (p : Postflight) :
    Quiet threadId p.session (deferredPostflight agent now threadId rs p).session := by
  induction rs generalizing p with
  | nil => exact quiet_refl _ _
  | cons r rs ih => exact quiet_trans _ _ _ _ (deferredPostCall_quiet agent now threadId r p) (ih _)

end Replay

def Free (t : Thread) : Prop := t.state ≠ .awaitingApproval ∧ t.pendingApproval = none

def WaitsFor (t : Thread) (p : PendingApproval) : Prop :=
  t.state = .awaitingApproval ∧ t.pendingApproval = some p

theorem free_quiet (a b : Session) (t : Thread) (h : Quiet threadId a b)
    (ht : a.threads threadId = some t) (hfree : Free t) :
    ∃ t', b.threads threadId = some t' ∧ Free t' := by
  obtain ⟨t', ht', hstate, hpending⟩ := h t ht
  exact ⟨t', ht', fun hw => hfree.1 (hstate hw), hpending.trans hfree.2⟩

theorem free_completeTurn (t : Thread) (response : String) (h : t.pendingApproval = none) :
    Free (t.completeTurn response) := ⟨by simp [Thread.completeTurn], h⟩

def Answered (threadId : Uuid) (calls : List ToolCall) (step : ApprovalStep) : Prop :=
  (∀ c ∈ step.executed, c ∈ calls) ∧ ∃ t, step.session.threads threadId = some t ∧
    (Free t ∨ ∃ next, WaitsFor t next ∧ (∀ c ∈ requestCalls next, c ∈ calls) ∧
      ∃ result, step.outcome = .returned result)

section Approvals

variable (stage : Stage) (threadId : Uuid) (p : PendingApproval)

variable (sess : Session)

theorem replayDeferred_answered (context : List ChatMessage) (th : Thread)
    (hth : sess.threads threadId = some th) (hfree : Free th) :
    Answered threadId p.deferredToolCalls (replayDeferred stage threadId p sess context) := by
  have hpost := deferredPostflight_quiet stage.agent stage.now threadId
    (deferredExecute stage.runs
      (deferredPreflight stage.agent sess 0 p.deferredToolCalls).1) ⟨sess, context, none⟩
  obtain ⟨t, ht, htfree⟩ := free_quiet threadId _ _ th hpost hth hfree
  rcases deferredPreflight_split stage.agent sess 0 p.deferredToolCalls with
    ⟨hask, hall⟩ | ⟨pre, c, rest, tool, allowAlways, hcalls, hpre, hask⟩
  · unfold replayDeferred
    dsimp only
    rw [hask]
    split
    · exact ⟨fun c hc => hall ▸ hc, t, ht, Or.inl htfree⟩
    · next heq => simp at heq
    · exact ⟨fun c hc => hall ▸ hc, t, ht, Or.inl htfree⟩
  · have hsub : ∀ d ∈ (deferredPreflight stage.agent sess 0 p.deferredToolCalls).1,
        d ∈ p.deferredToolCalls := by
      intro d hd
      rw [hpre] at hd
      rw [hcalls]
      exact List.mem_append_left _ hd
    unfold replayDeferred
    dsimp only
    rw [hask]
    split
    · exact ⟨hsub, t, ht, Or.inl htfree⟩
    · next ask _ heq =>
      have hcall : ask = ⟨0+pre.length, c, tool, allowAlways⟩ := (Option.some.inj heq).symm
      refine ⟨hsub, _, modifyThread_threads _ threadId _ t ht, Or.inr ⟨_, ⟨rfl, rfl⟩, ?_, _, rfl⟩⟩
      intro d hd
      rcases List.mem_cons.mp hd with rfl | hlater
      · rw [hcall, hcalls]
        exact List.mem_append_right _ List.mem_cons_self
      · exact List.mem_of_mem_drop hlater
    · next heq => simp at heq

theorem approve_answered (th : Thread) (hth : sess.threads threadId = some th)
    (hnone : th.pendingApproval = none) :
    Answered threadId (requestCalls p) (approve stage threadId p sess) := by
  have hopened : (if stage.always then sess.autoApproveTool p.toolName else sess).threads
      threadId = some th := by
    split
    · exact hth
    · exact hth
  have hprocessing := modifyThread_threads _ threadId
    (fun t => { t with state := .processing }) th hopened
  obtain ⟨t, ht, htfree⟩ := free_quiet threadId _ _ _
    (quiet_touches _ _ _ _ (touches_record _ threadId
      (recordOutcome (processToolResult stage.agent (pendingCall p)
        (stage.approvedRun (pendingCall p))) (isError (stage.approvedRun (pendingCall p))))))
    hprocessing ⟨by simp, hnone⟩
  unfold approve
  dsimp only
  split
  · refine ⟨?_, _, modifyThread_threads _ threadId _ t ht,
      Or.inl (free_completeTurn _ _ htfree.2)⟩
    intro c hc
    rw [List.mem_singleton.mp hc]
    exact List.mem_cons_self
  · obtain ⟨hsub, u, hu, hend⟩ := replayDeferred_answered stage threadId p _
      (p.contextMessages++[.toolResult (pendingCall p).id (pendingCall p).name
        (processToolResult stage.agent (pendingCall p) (stage.approvedRun (pendingCall p)))])
      t ht htfree
    refine ⟨?_, u, hu, ?_⟩
    · intro c hc
      rcases List.mem_cons.mp hc with rfl | hlater
      · exact List.mem_cons_self
      · exact List.mem_cons_of_mem _ (hsub c hlater)
    · rcases hend with hfree | ⟨next, hwaits, hcalls, hreturned⟩
      · exact Or.inl hfree
      · exact Or.inr ⟨next, hwaits, fun c hc => List.mem_cons_of_mem _ (hcalls c hc), hreturned⟩

/-- An approval submission to a thread that waits. -/
theorem processApproval_answered (th : Thread) (hth : sess.threads threadId = some th)
    (hwaits : WaitsFor th p) :
    Answered threadId (requestCalls p) (processApproval stage threadId sess) := by
  have htaken := taken_thread sess threadId { th with pendingApproval := none }
  rw [processApproval_waiting stage threadId sess th p hth hwaits.1 hwaits.2]
  dsimp only
  split
  · refine ⟨by simp, _, modifyThread_threads _ threadId _ _ htaken, Or.inr ⟨p, ⟨rfl, rfl⟩,
      fun c hc => hc, _, rfl⟩⟩
  · split
    · exact approve_answered stage threadId p _ _ htaken rfl
    · exact ⟨by simp [reject], _, modifyThread_threads _ threadId _ _ htaken,
        Or.inl (free_completeTurn _ _ rfl)⟩

/-- A submission to a thread that waits for nothing is ignored. -/
theorem processApproval_ignored (th : Thread) (hth : sess.threads threadId = some th)
    (hfree : ∀ p, ¬ WaitsFor th p) :
    ∃ after, after.threads threadId = some th ∧ processApproval stage threadId sess =
      ⟨.returned (.ok (.okWithMessage "")), after, []⟩ := by
  simp only [processApproval, hth]
  by_cases hstate : th.state = .awaitingApproval
  · have hnone : th.pendingApproval = none := by
      cases hp : th.pendingApproval with
      | none => rfl
      | some p => exact absurd ⟨hstate, hp⟩ (hfree p)
    have hsame : { th with pendingApproval := none } = th := by rw [← hnone]
    rw [if_neg (by simp [hstate]), hnone, hsame]
    exact ⟨_, taken_thread sess threadId th, rfl⟩
  · rw [if_pos hstate]
    exact ⟨sess, hth, rfl⟩

end Approvals

theorem settleThread_cases (leg : Leg) (result : Except Error LoopOutcome) (t : Thread) :
    ((settleThread leg result t).state ≠ .awaitingApproval ∧
      (settleThread leg result t).pendingApproval = t.pendingApproval) ∨
    ∃ p, result = .ok (.needApproval p) ∧ WaitsFor (settleThread leg result t) p := by
  unfold settleThread
  split
  · left
    exact ⟨by simp [Thread.completeTurn], rfl⟩
  · next p => exact Or.inr ⟨p, rfl, rfl, rfl⟩
  · left
    exact ⟨by simp [Thread.failTurn], rfl⟩

theorem openTurn_thread (input : Input) (t : Thread) :
    (openTurn input t).state = .processing ∧
      (openTurn input t).pendingApproval = t.pendingApproval := by
  refine ⟨rfl, ?_⟩
  show (compactThread input t).pendingApproval = t.pendingApproval
  unfold compactThread Thread.truncateTurns
  split
  · split
    · rfl
    · rfl
  · rfl

section Inputs

variable (render : Value → String) (setting : Setting)

def inputLoop (input : Input) (sess : Session) (thread : Thread) :
    Except Error LoopOutcome × Session × List ToolCall :=
  runAgenticLoop setting input.message input.leg ((openTurn input thread).messages render)
    (sess.setThread setting.threadId (openTurn input thread))

theorem processUserInput_refused (input : Input) (sess : Session) (thread : Thread)
    (answer : Except Error SubmissionResult) (hth : sess.threads setting.threadId = some thread)
    (h : refuse input thread = some answer) :
    processUserInput render setting input sess = ⟨answer, sess, []⟩ := by
  simp only [processUserInput, hth, h]

/-- An accepted input: the thread does not wait and keeps the request it had,
or it waits for what the loop asked. -/
theorem processUserInput_accepted (input : Input) (sess : Session) (thread : Thread)
    (hth : sess.threads setting.threadId = some thread) (h : refuse input thread = none) :
    (processUserInput render setting input sess).executed =
        (inputLoop render setting input sess thread).2.2 ∧
      ∃ t, (processUserInput render setting input sess).session.threads setting.threadId =
          some t ∧
        ((t.state ≠ .awaitingApproval ∧ t.pendingApproval = thread.pendingApproval) ∨
          ∃ p, (inputLoop render setting input sess thread).1 = .ok (.needApproval p) ∧
            WaitsFor t p) := by
  have hopened := openTurn_thread input thread
  obtain ⟨t, ht, hstate, hpending⟩ := runAgenticLoop_quiet setting input.message input.leg
    ((openTurn input thread).messages render)
    (sess.setThread setting.threadId (openTurn input thread)) _
    (taken_thread sess setting.threadId (openTurn input thread))
  have hbusy : t.state ≠ .awaitingApproval := by
    intro hw
    have := hstate hw
    simp [hopened.1] at this
  simp only [processUserInput, hth, h]
  split
  · exact ⟨rfl, t, ht, Or.inl ⟨hbusy, hpending.trans hopened.2⟩⟩
  · refine ⟨rfl, _, modifyThread_threads _ setting.threadId _ t ht, ?_⟩
    rcases settleThread_cases input.leg (inputLoop render setting input sess thread).1 t with
      ⟨hs, hp⟩ | hasked
    · exact Or.inl ⟨hs, hp.trans (hpending.trans hopened.2)⟩
    · exact Or.inr hasked

def resumedLoop (next : Continuation) (sess : Session) (context : List ChatMessage) :
    Except Error LoopOutcome × Session × List ToolCall :=
  runAgenticLoop setting next.stage.message next.leg context
    (processApproval next.stage setting.threadId sess).session

variable (next : Continuation) (sess : Session)

theorem processApprovalTurn_returned (result : Except Error SubmissionResult)
    (h : (processApproval next.stage setting.threadId sess).outcome = .returned result) :
    processApprovalTurn setting next sess =
      ⟨result, (processApproval next.stage setting.threadId sess).session,
        (processApproval next.stage setting.threadId sess).executed⟩ := by
  simp only [processApprovalTurn, h]

theorem processApprovalTurn_resumes (context : List ChatMessage)
    (h : (processApproval next.stage setting.threadId sess).outcome = .resumes context) :
    processApprovalTurn setting next sess =
      ⟨.ok (settleResult next.leg (resumedLoop setting next sess context).1),
        (resumedLoop setting next sess context).2.1.modifyThread setting.threadId
          (settleThread next.leg (resumedLoop setting next sess context).1),
        (processApproval next.stage setting.threadId sess).executed++
          (resumedLoop setting next sess context).2.2⟩ := by
  simp only [processApprovalTurn, h, resumedLoop]

/-- An approval submission to its end: the thread is free, or it waits for a
call of the request, or for what the resumed loop asked. -/
theorem processApprovalTurn_waiting (th : Thread) (p : PendingApproval)
    (hth : sess.threads setting.threadId = some th) (hwaits : WaitsFor th p) :
    ∃ t, (processApprovalTurn setting next sess).session.threads setting.threadId = some t ∧
      (Free t ∨ ∃ q, WaitsFor t q ∧ ((∀ c ∈ requestCalls q, c ∈ requestCalls p) ∨
        ∃ context, (processApproval next.stage setting.threadId sess).outcome = .resumes context ∧
          (resumedLoop setting next sess context).1 = .ok (.needApproval q))) := by
  obtain ⟨-, u, hu, hend⟩ := processApproval_answered next.stage setting.threadId p sess th hth
    hwaits
  cases hout : (processApproval next.stage setting.threadId sess).outcome with
  | returned result =>
    rw [processApprovalTurn_returned setting next sess result hout]
    refine ⟨u, hu, ?_⟩
    rcases hend with hfree | ⟨q, hq, hcalls, -⟩
    · exact Or.inl hfree
    · exact Or.inr ⟨q, hq, Or.inl hcalls⟩
  | resumes context =>
    have hufree : Free u := by
      rcases hend with hfree | ⟨q, -, -, result, hreturned⟩
      · exact hfree
      · rw [hout] at hreturned
        exact absurd hreturned (by simp)
    obtain ⟨t, ht, htfree⟩ := free_quiet _ _ _ u (runAgenticLoop_quiet setting
      next.stage.message next.leg context _) hu hufree
    rw [processApprovalTurn_resumes setting next sess context hout]
    refine ⟨_, modifyThread_threads _ setting.threadId _ t ht, ?_⟩
    rcases settleThread_cases next.leg (resumedLoop setting next sess context).1 t with
      ⟨hs, hp⟩ | ⟨q, hasked, hq⟩
    · exact Or.inl ⟨hs, hp.trans htfree.2⟩
    · exact Or.inr ⟨q, hq, Or.inr ⟨context, rfl, hasked⟩⟩

end Inputs

def webSetting : Setting :=
  { threadId := 0, maxToolIterations := 10
    reasoning :=
      { parse := fun _ => none, signalsToolIntent := fun _ => false
        patterns :=
          let none : TagRegex := ⟨fun _ => false, fun _ => [], fun _ => false⟩
          ⟨fun _ => false, none, none, none⟩ } }

def idleSession : Session := ⟨fun _ => some Thread.new, []⟩

end IronClaw.ChatLoop
