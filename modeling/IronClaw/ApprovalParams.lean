import IronClaw.HookSecrets

/-!
# The parameters that approval is decided on

Three paths ask a tool whether a call needs approval and then run it. The chat
asks after its hooks and prepares the parameters afterwards; a job prepares,
asks, and lets the hooks change the parameters afterwards; a subtask of the
scheduler prepares, asks, and prepares once more. Each path lets a call through
with the value that it asked about and the value that it runs.
-/

set_option autoImplicit false

namespace IronClaw.ApprovalParams
open IronClaw.JsonValue IronClaw.LlmMessage IronClaw.SessionThread IronClaw.Hooks
open IronClaw.Dispatcher IronClaw.Coercion IronClaw.HookSecrets

/-- A call that is let through without asking: what `requires_approval` was
evaluated on, if it was, and what the tool is run with. -/
structure Passage where
  decided : Option Value
  executed : Value

section

variable (agent : Agent) (schema : String → Value) (float : String → Option UInt64)

def evaluatedOn (tc : ToolCall) : Option Value :=
  if agent.autoApproveTools then none else (agent.tools tc.name).map (fun _ => tc.arguments)

def chatPasses (asked : Asked) (gates : Gates) (sess : Session) (original : ToolCall) :
    Option Passage :=
  match beforeToolCall agent asked.message asked.chatMoment original with
  | .error _ => none
  | .ok tc =>
    match approvalNeed agent sess tc with
    | some _ => none
    | none =>
      (executeToolWithSafety agent schema float gates tc.name tc.arguments).toOption.map
        (fun e => ⟨evaluatedOn agent tc, e⟩)

/-- `execute_tool_inner` evaluates the requirement on the prepared parameters. -/
def jobPasses (asked : Asked) (gates : Gates) (name : String) (params : Value) :
    Option Passage :=
  (executeToolInner agent schema float asked gates name params).toOption.map
    (fun e => ⟨some (prepareToolParams agent schema float name params), e⟩)

def executeToolTask (gates : Gates) (userId name : String) (params : Value) :
    Except ToolError Value :=
  match agent.tools name with
  | none => .error (.notFound name)
  | some tool =>
    if gates.cancelled then .error (.executionFailed name "Job is cancelled")
    else
      let normalized := prepareToolParams agent schema float name params
      if isBlockedOrDefault gates.allowedTools name (tool.requiresApproval normalized) then
        .error (.autonomousUnavailable name (autonomousUnavailableMessage name userId))
      else executeToolWithSafety agent schema float gates name normalized

def taskPasses (gates : Gates) (userId name : String) (params : Value) : Option Passage :=
  (executeToolTask agent schema float gates userId name params).toOption.map
    (fun e => ⟨some (prepareToolParams agent schema float name params), e⟩)

def Passage.Faithful (p : Passage) : Prop := ∀ v, p.decided = some v → p.executed = v

structure DecidedAsRun (asked : Asked) (tc : ToolCall) : Prop where
  chat : ∀ gates sess p, chatPasses agent schema float asked gates sess tc = some p → p.Faithful
  job : ∀ gates p, jobPasses agent schema float asked gates tc.name tc.arguments = some p →
    p.Faithful
  task : ∀ gates userId p,
    taskPasses agent schema float gates userId tc.name tc.arguments = some p → p.Faithful

def Prepared (name : String) (params : Value) : Prop :=
  settled (readers agent float) params (resolveRefs (schema name)) = true

theorem prepared_iff (name : String) (params : Value) :
    prepareToolParams agent schema float name params = params ↔
      Prepared agent schema float name params :=
  prepare_fixed (readers agent float) params (schema name)

def ChatPrepared (asked : Asked) (tool : Tool) (original : ToolCall) : Prop :=
  ∀ tc, beforeToolCall agent asked.message asked.chatMoment original = .ok tc →
    tool.requiresApproval tc.arguments = .always ∨
      Prepared agent schema float tc.name tc.arguments

def JobUnchanged (asked : Asked) (tc : ToolCall) : Prop :=
  ∀ text parsed, run agent.json agent.hooks asked.jobMoment (jobEvent agent asked tc.name
      (prepareToolParams agent schema float tc.name tc.arguments)) =
        .ok (.proceed (some text)) → agent.json.parse text = some parsed →
    prepareToolParams agent schema float tc.name parsed =
      prepareToolParams agent schema float tc.name tc.arguments

theorem executeWithSafety_open (name : String) (params : Value) (tool : Tool)
    (hname : name ≠ "") (htool : agent.tools name = some tool) :
    executeToolWithSafety agent schema float (openGates name) name params =
      .ok (prepareToolParams agent schema float name params) := by
  simp only [executeToolWithSafety, if_neg hname, htool, openGates]

theorem executeWithSafety_nameless (gates : Gates) (params : Value) :
    (executeToolWithSafety agent schema float gates "" params).toOption = none := rfl

def approvedSession (name : String) : Session := ⟨fun _ => none, [name]⟩

theorem approval_granted (tc : ToolCall) (tool : Tool) (htool : agent.tools tc.name = some tool)
    (h : tool.requiresApproval tc.arguments ≠ .always) :
    approvalNeed agent (approvedSession tc.name) tc = none := by
  have happroved : (approvedSession tc.name).isToolAutoApproved tc.name = true := by
    simp [approvedSession, Session.isToolAutoApproved]
  simp only [approvalNeed, happroved, if_true]
  split
  · rfl
  · rw [htool]
    cases hreq : tool.requiresApproval tc.arguments with
    | never => simp only [hreq]
    | unlessAutoApproved => simp only [hreq]
    | always => exact absurd hreq h

theorem approval_asked (sess : Session) (tc : ToolCall) (tool : Tool)
    (hauto : agent.autoApproveTools = false) (htool : agent.tools tc.name = some tool)
    (h : tool.requiresApproval tc.arguments = .always) :
    approvalNeed agent sess tc = some (tool, false) := by
  simp only [approvalNeed, hauto, Bool.false_eq_true, if_false, htool, h]

theorem chat_iff (asked : Asked) (original : ToolCall) (tool : Tool)
    (htool : agent.tools original.name = some tool) :
    (∀ gates sess p, chatPasses agent schema float asked gates sess original = some p →
      p.Faithful) ↔
      (original.name = "" ∨ agent.autoApproveTools = true ∨
        ChatPrepared agent schema float asked tool original) := by
  constructor
  · intro h
    by_cases hname : original.name = ""
    · exact .inl hname
    · cases hauto : agent.autoApproveTools with
      | true => exact .inr (.inl rfl)
      | false =>
        right
        right
        intro tc htc
        by_cases halways : tool.requiresApproval tc.arguments = .always
        · exact .inl halways
        · right
          have hkey := (beforeToolCall_key agent asked.message asked.chatMoment original tc htc).2
          rw [← hkey] at hname htool
          have hpass : chatPasses agent schema float asked (openGates tc.name)
              (approvedSession tc.name) original =
              some ⟨some tc.arguments,
                prepareToolParams agent schema float tc.name tc.arguments⟩ := by
            simp only [chatPasses, htc, approval_granted agent tc tool htool halways,
              executeWithSafety_open agent schema float tc.name tc.arguments tool hname htool,
              Except.toOption, Option.map_some, evaluatedOn, hauto, Bool.false_eq_true, if_false,
              htool]
          exact (prepared_iff agent schema float tc.name tc.arguments).mp
            (h _ _ _ hpass tc.arguments rfl)
  · intro hcond gates sess p hpass v hv
    unfold chatPasses at hpass
    split at hpass
    · cases hpass
    · rename_i tc htc
      have hkey := (beforeToolCall_key agent asked.message asked.chatMoment original tc htc).2
      split at hpass
      · cases hpass
      · rename_i hneed
        obtain ⟨e, hexec, rfl⟩ := Option.map_eq_some_iff.mp hpass
        rcases hcond with hname | hauto | hprep
        · rw [← hkey] at hname
          rw [hname, executeWithSafety_nameless] at hexec
          cases hexec
        · simp only [evaluatedOn, hauto, if_true] at hv
          cases hv
        · cases hauto : agent.autoApproveTools with
          | true =>
            simp only [evaluatedOn, hauto, if_true] at hv
            cases hv
          | false =>
            rw [← hkey] at htool
            simp only [evaluatedOn, hauto, Bool.false_eq_true, if_false, htool, Option.map_some,
              Option.some.injEq] at hv
            rw [← hv, executeWithSafety_params agent schema float gates _ _ e hexec]
            rcases hprep tc htc with halways | hprepared
            · rw [approval_asked agent sess tc tool hauto htool halways] at hneed
              cases hneed
            · exact (prepared_iff agent schema float tc.name tc.arguments).mpr hprepared

theorem job_iff (asked : Asked) (tc : ToolCall) (tool : Tool)
    (htool : agent.tools tc.name = some tool) :
    (∀ gates p, jobPasses agent schema float asked gates tc.name tc.arguments = some p →
      p.Faithful) ↔ JobUnchanged agent schema float asked tc := by
  constructor
  · intro h text parsed hrun hparse
    have hexec := inner_runs agent schema float asked tc.name tc.arguments tool text parsed htool
      hrun hparse
    have hpass : jobPasses agent schema float asked (openGates tc.name) tc.name tc.arguments =
        some ⟨some (prepareToolParams agent schema float tc.name tc.arguments),
          prepareToolParams agent schema float tc.name parsed⟩ := by
      unfold jobPasses
      rw [hexec]
      rfl
    exact h _ _ hpass _ rfl
  · intro hcond gates p hpass v hv
    obtain ⟨e, hexec, rfl⟩ := Option.map_eq_some_iff.mp hpass
    cases hv
    rcases inner_params agent schema float asked gates tc.name tc.arguments e hexec with
      ⟨text, parsed, hrun, hparse, rfl⟩ | ⟨-, rfl⟩
    · exact hcond text parsed hrun hparse
    · rfl

theorem task_iff (tc : ToolCall) (tool : Tool) (htool : agent.tools tc.name = some tool) :
    (∀ gates userId p, taskPasses agent schema float gates userId tc.name tc.arguments = some p →
      p.Faithful) ↔
      (tc.name = "" ∨ Prepared agent schema float tc.name
        (prepareToolParams agent schema float tc.name tc.arguments)) := by
  rw [← prepared_iff]
  constructor
  · intro h
    by_cases hname : tc.name = ""
    · exact .inl hname
    · right
      have hpass : taskPasses agent schema float (openGates tc.name) "" tc.name tc.arguments =
          some ⟨some (prepareToolParams agent schema float tc.name tc.arguments),
            prepareToolParams agent schema float tc.name
              (prepareToolParams agent schema float tc.name tc.arguments)⟩ := by
        unfold taskPasses executeToolTask
        simp only [htool]
        rw [if_neg (by simp [openGates]), executeWithSafety_open agent schema float tc.name _ tool
          hname htool, if_neg (by simp [openGates, open_not_blocked])]
        rfl
      exact h _ _ _ hpass _ rfl
  · intro hcond gates userId p hpass v hv
    obtain ⟨e, hexec, rfl⟩ := Option.map_eq_some_iff.mp hpass
    cases hv
    unfold executeToolTask at hexec
    rw [htool] at hexec
    simp only at hexec
    split at hexec
    · cases hexec
    · split at hexec
      · cases hexec
      · rcases hcond with hname | hfixed
        · rw [hname, executeWithSafety_nameless] at hexec
          cases hexec
        · rw [executeWithSafety_params agent schema float gates _ _ e hexec]
          exact hfixed

/-- Approval is decided on what runs exactly when the arguments that the chat's
hooks leave need no preparing, the job's hooks change nothing that survives it,
and preparing twice is preparing once for the subtask. -/
theorem decided_as_run_iff (asked : Asked) (tc : ToolCall) (tool : Tool)
    (htool : agent.tools tc.name = some tool) :
    DecidedAsRun agent schema float asked tc ↔
      (tc.name = "" ∨ agent.autoApproveTools = true ∨
        ChatPrepared agent schema float asked tool tc) ∧
      JobUnchanged agent schema float asked tc ∧
      (tc.name = "" ∨ Prepared agent schema float tc.name
        (prepareToolParams agent schema float tc.name tc.arguments)) := by
  rw [← chat_iff agent schema float asked tc tool htool,
    ← job_iff agent schema float asked tc tool htool, ← task_iff agent schema float tc tool htool]
  constructor
  · intro h
    exact ⟨h.chat, h.job, h.task⟩
  · intro h
    exact ⟨h.1, h.2.1, h.2.2⟩

end

def countSchema : Value :=
  .object [("properties", .object [("count", .object [("type", .string "integer")])]),
    ("type", .string "object")]

def countAgent : Agent :=
  { bareAgent with
    tools := fun name => if name = "repeat" then some ⟨"repeat", [], fun _ => .never⟩ else none }

def countCall (count : Value) : ToolCall := ⟨"call_1", "repeat", .object [("count", count)]⟩

theorem count_untouched (call : ToolCall) (tc : ToolCall)
    (h : beforeToolCall countAgent webMessage 0 call = .ok tc) : tc = call := by
  cases h
  rfl

theorem count_unmodified (asked : Asked) (tc : ToolCall) :
    JobUnchanged countAgent (fun _ => countSchema) (fun _ => none) asked tc := by
  intro text parsed hrun _
  cases hrun

/-- A call with a number, which is run as it is asked about. -/
theorem number_decided :
    DecidedAsRun countAgent (fun _ => countSchema) (fun _ => none) postAsked
      (countCall (.number (.posInt 5))) :=
  (decided_as_run_iff countAgent (fun _ => countSchema) (fun _ => none) postAsked
    (countCall (.number (.posInt 5))) _ rfl).mpr
    ⟨.inr (.inr (fun tc htc => .inr (by rw [count_untouched _ tc htc]; rfl))),
      count_unmodified _ _, .inr rfl⟩

/-- The chat asks about the text "5" and runs the number 5. -/
theorem text_decided_number_run :
    ¬ ∀ (agent : Agent) (schema : String → Value) (float : String → Option UInt64)
        (asked : Asked) (tc : ToolCall) (tool : Tool), agent.tools tc.name = some tool →
      DecidedAsRun agent schema float asked tc := by
  intro h
  have hrun := (h countAgent (fun _ => countSchema) (fun _ => none) postAsked
    (countCall (.string "5")) _ rfl).chat
  have hpass : chatPasses countAgent (fun _ => countSchema) (fun _ => none) postAsked
      (openGates "repeat") openSession (countCall (.string "5")) =
      some ⟨some (.object [("count", .string "5")]),
        .object [("count", .number (.posInt 5))]⟩ := rfl
  have heq := hrun _ _ _ hpass _ rfl
  exact absurd heq (by decide)

end IronClaw.ApprovalParams
