import IronClaw.Lib.Runs
import IronClaw.Dispatcher

/-!
# Approvals of a suspended batch

`Agent::process_approval`: the approved call runs, then the calls that were
deferred behind it are walked until one of them needs approval again, run and
recorded, and either a new request is stored on the thread or the agentic
loop goes on. The loop itself is the caller's; where it would be entered the
model stops with the context it is given.
-/

set_option autoImplicit false

namespace IronClaw.Approval
open IronClaw.JsonValue IronClaw.LlmMessage IronClaw.SessionThread IronClaw.Submission
open IronClaw.Hooks IronClaw.Dispatcher Lib.Slots

structure Stage where
  agent : Agent
  message : IncomingMessage
  now : ℤ
  requestId : Uuid
  request : Option Uuid
  approved : Bool
  always : Bool
  approvedRun : ToolCall → Except Error String
  runs : Runs

/-- `process_tool_result` of `tools/execute.rs`. -/
def processToolResult (agent : Agent) (tc : ToolCall) : Except Error String → String
  | .ok output => agent.wrapForLlm tc.name (agent.sanitizeToolOutput tc.name output)
  | .error e => "Error: " ++ e.display

def handleAuthIntercept (now : ℤ) (threadId : Uuid) (extension instructions : String)
    (sess : Session) : Session :=
  sess.modifyThread threadId (fun t => (t.enterAuthMode now extension).completeTurn instructions)

def deferredPreflight (agent : Agent) (sess : Session) :
    ℕ → List ToolCall → List ToolCall × Option Ask
  | _, [] => ([], none)
  | i, tc::rest =>
    match approvalNeed agent sess tc with
    | some (tool, allowAlways) => ([], some ⟨i, tc, tool, allowAlways⟩)
    | none =>
      let walked := deferredPreflight agent sess (i+1) rest
      (tc::walked.1, walked.2)

def numbered : ℕ → List ToolCall → List (ℕ × ToolCall)
  | _, [] => []
  | i, tc::rest => (i, tc)::numbered (i+1) rest

def deferredExecute (runs : Runs) (runnable : List ToolCall) :
    List (ToolCall × Except Error String) :=
  if runnable.length ≤ 1 then
    (numbered 0 runnable).map (fun t => (t.2, runs.result t.1 t.2))
  else
    let ordered := fill (List.replicate runnable.length none) (joinAll runs (numbered 0 runnable))
    (numbered 0 runnable).map (fun t => (t.2, ordered[t.1]?.join.getD (taskFailed t.2)))

def deferredPostCall (agent : Agent) (now : ℤ) (threadId : Uuid)
    (r : ToolCall × Except Error String) (p : Postflight) : Postflight :=
  let content := processToolResult agent r.1 r.2
  let recorded := recordInTurn p.session threadId (recordOutcome content (isError r.2))
  let auth := if p.deferredAuth = none then checkAuthRequired agent.json r.1.name r.2 else none
  let context := p.context++[.toolResult r.1.id r.1.name content]
  match auth with
  | some (extension, instructions) =>
    ⟨handleAuthIntercept now threadId extension instructions recorded, context, some instructions⟩
  | none => ⟨recorded, context, p.deferredAuth⟩

def deferredPostflight (agent : Agent) (now : ℤ) (threadId : Uuid) :
    List (ToolCall × Except Error String) → Postflight → Postflight
  | [], p => p
  | r::rs, p => deferredPostflight agent now threadId rs (deferredPostCall agent now threadId r p)

inductive ApprovalOutcome where
  | returned (result : Except Error SubmissionResult)
  | resumes (context : List ChatMessage)

structure ApprovalStep where
  outcome : ApprovalOutcome
  session : Session
  executed : List ToolCall

def pendingCall (p : PendingApproval) : ToolCall := ⟨p.toolCallId, p.toolName, p.parameters⟩

def rejectionText (toolName : String) : String :=
  "Tool '" ++ toolName ++ "' was rejected. The agent will not execute this tool.\n\n" ++
    "You can continue the conversation or try a different approach."

def needApproval (p : PendingApproval) : SubmissionResult :=
  .needApproval p.requestId p.toolName p.description p.displayParameters p.allowAlways

def replayDeferred (stage : Stage) (threadId : Uuid) (pending : PendingApproval)
    (sess : Session) (context : List ChatMessage) : ApprovalStep :=
  let pre := deferredPreflight stage.agent sess 0 pending.deferredToolCalls
  let post := deferredPostflight stage.agent stage.now threadId
    (deferredExecute stage.runs pre.1) ⟨sess, context, none⟩
  match post.deferredAuth, pre.2 with
  | some instructions, _ => ⟨.returned (.ok (.response instructions)), post.session, pre.1⟩
  | none, some ask =>
    let next := askPending ask stage.requestId post.context
      (pending.deferredToolCalls.drop (ask.idx+1)) pending.userTimezone
    ⟨.returned (.ok (needApproval next)),
      post.session.modifyThread threadId (fun t => t.awaitApproval next), pre.1⟩
  | none, none => ⟨.resumes post.context, post.session, pre.1⟩

def approve (stage : Stage) (threadId : Uuid) (pending : PendingApproval) (sess : Session) :
    ApprovalStep :=
  let sess := if stage.always then sess.autoApproveTool pending.toolName else sess
  let sess := sess.modifyThread threadId (fun t => { t with state := .processing })
  let call := pendingCall pending
  let result := stage.approvedRun call
  let content := processToolResult stage.agent call result
  let sess := recordInTurn sess threadId (recordOutcome content (isError result))
  match checkAuthRequired stage.agent.json call.name result with
  | some (extension, instructions) =>
    ⟨.returned (.ok (.response instructions)),
      handleAuthIntercept stage.now threadId extension instructions sess, [call]⟩
  | none =>
    let replay := replayDeferred stage threadId pending sess
      (pending.contextMessages++[.toolResult call.id call.name content])
    { replay with executed := call::replay.executed }

def reject (threadId : Uuid) (pending : PendingApproval) (sess : Session) : ApprovalStep :=
  ⟨.returned (.ok (.response (rejectionText pending.toolName))),
    sess.modifyThread threadId (fun t =>
      t.clearPendingApproval.completeTurn (rejectionText pending.toolName)), []⟩

def mismatched (request : Option Uuid) (pending : PendingApproval) : Bool :=
  match request with
  | some id => id ≠ pending.requestId
  | none => false

def processApproval (stage : Stage) (threadId : Uuid) (sess : Session) : ApprovalStep :=
  match sess.threads threadId with
  | none => ⟨.returned (.error (.jobNotFound threadId)), sess, []⟩
  | some thread =>
    if thread.state ≠ .awaitingApproval then
      ⟨.returned (.ok (.okWithMessage "")), sess, []⟩
    else
      let taken := sess.setThread threadId { thread with pendingApproval := none }
      match thread.pendingApproval with
      | none => ⟨.returned (.ok (.okWithMessage "")), taken, []⟩
      | some pending =>
        if mismatched stage.request pending then
          ⟨.returned (.ok (.error "Request ID mismatch. Use the correct request ID.")),
            taken.modifyThread threadId (fun t => t.awaitApproval pending), []⟩
        else if stage.approved then approve stage threadId pending taken
        else reject threadId pending taken

inductive Progress where
  | continues (context : List ChatMessage)
  | suspended
  | left
  deriving DecidableEq

structure Chain where
  progress : Progress
  session : Session
  hooked : List ToolCall
  rejected : List ToolCall
  executed : List ToolCall

def waits (sess : Session) (threadId : Uuid) : Bool :=
  match sess.threads threadId with
  | some t => t.state = .awaitingApproval && t.pendingApproval.isSome
  | none => false

def returnedProgress (sess : Session) (threadId : Uuid) : Progress :=
  if waits sess threadId then .suspended else .left

/-- `process_user_input` stores the request on the thread, unless the turn was
interrupted meanwhile. -/
def suspend (threadId : Uuid) (pending : PendingApproval) (sess : Session) : Session :=
  sess.modifyThread threadId (fun t =>
    if t.state = .interrupted then t else t.awaitApproval pending)

def startChain (agent : Agent) (message : IncomingMessage) (site : Site) (runs : Runs)
    (sess : Session) (context : List ChatMessage) (content : Option String)
    (calls : List ToolCall) : Chain :=
  let d := executeToolCalls agent message site runs sess context content calls
  match d.outcome with
  | none => ⟨.continues d.context, d.session, d.hooked, d.rejected, d.executed⟩
  | some (.response _) => ⟨.left, d.session, d.hooked, d.rejected, d.executed⟩
  | some (.needApproval pending) =>
    let waiting := suspend site.threadId pending d.session
    ⟨returnedProgress waiting site.threadId, waiting, d.hooked, d.rejected, d.executed⟩

def approveStep (threadId : Uuid) (stage : Stage) (ch : Chain) : Chain :=
  match ch.progress with
  | .suspended =>
    let r := processApproval stage threadId ch.session
    { ch with
      progress := match r.outcome with
        | .resumes context => .continues context
        | .returned _ => returnedProgress r.session threadId
      session := r.session
      executed := ch.executed++r.executed }
  | _ => ch

theorem processApproval_waiting (stage : Stage) (threadId : Uuid) (sess : Session) (th : Thread)
    (p : PendingApproval) (hth : sess.threads threadId = some th)
    (hstate : th.state = .awaitingApproval) (hpending : th.pendingApproval = some p) :
    processApproval stage threadId sess =
      let taken := sess.setThread threadId { th with pendingApproval := none }
      if mismatched stage.request p then
        ⟨.returned (.ok (.error "Request ID mismatch. Use the correct request ID.")),
          taken.modifyThread threadId (fun t => t.awaitApproval p), []⟩
      else if stage.approved then approve stage threadId p taken
      else reject threadId p taken := by
  simp only [processApproval, hth, hpending]
  rw [if_neg (by simp [hstate])]

theorem taken_thread (sess : Session) (threadId : Uuid) (th : Thread) :
    (sess.setThread threadId th).threads threadId = some th := by
  simp [Session.setThread]

theorem waits_pending (sess : Session) (threadId : Uuid) (h : waits sess threadId = true) :
    ∃ th p, sess.threads threadId = some th ∧ th.state = .awaitingApproval ∧
      th.pendingApproval = some p := by
  unfold waits at h
  split at h
  · next th hth =>
    simp only [Bool.and_eq_true, decide_eq_true_eq] at h
    obtain ⟨p, hp⟩ := Option.isSome_iff_exists.mp h.2
    exact ⟨th, p, hth, h.1, hp⟩
  · simp at h

theorem suspend_waits (threadId : Uuid) (p : PendingApproval) (sess : Session) (t : Thread)
    (ht : sess.threads threadId = some t) (hstate : t.state ≠ .interrupted) :
    (suspend threadId p sess).threads threadId = some (t.awaitApproval p) ∧
      returnedProgress (suspend threadId p sess) threadId = .suspended := by
  have hwaiting : (suspend threadId p sess).threads threadId = some (t.awaitApproval p) := by
    rw [suspend, modifyThread_threads _ _ _ _ ht, if_neg hstate]
  refine ⟨hwaiting, ?_⟩
  unfold returnedProgress waits
  rw [hwaiting]
  simp [Thread.awaitApproval]

/-- A thread that waits after `suspend` waits for the request it was given:
one that was interrupted or unknown does not wait. -/
theorem suspend_pending (threadId : Uuid) (p q : PendingApproval) (sess : Session) (th : Thread)
    (hwaits : returnedProgress (suspend threadId p sess) threadId = .suspended)
    (hth : (suspend threadId p sess).threads threadId = some th)
    (hq : th.pendingApproval = some q) : q = p := by
  cases hbefore : sess.threads threadId with
  | none =>
    simp only [suspend, Session.modifyThread, hbefore] at hth
    simp at hth
  | some t =>
    by_cases hi : t.state = .interrupted
    · have hsame : (suspend threadId p sess).threads threadId = some t := by
        rw [suspend, modifyThread_threads _ _ _ _ hbefore, if_pos hi]
      simp [returnedProgress, waits, hsame, hi] at hwaits
    · rw [(suspend_waits threadId p sess t hbefore hi).1] at hth
      rw [← Option.some.inj hth] at hq
      exact (Option.some.inj hq).symm

/-- The session in which the approved call has been recorded still holds the
thread. -/
theorem approve_session (stage : Stage) (threadId : Uuid) (p : PendingApproval) (sess : Session)
    (th : Thread) (hth : sess.threads threadId = some th) :
    ∃ sess' t content, sess'.threads threadId = some t ∧
      approve stage threadId p sess =
        match checkAuthRequired stage.agent.json (pendingCall p).name
            (stage.approvedRun (pendingCall p)) with
        | some (extension, instructions) =>
          ⟨.returned (.ok (.response instructions)),
            handleAuthIntercept stage.now threadId extension instructions sess', [pendingCall p]⟩
        | none =>
          let replay := replayDeferred stage threadId p sess'
            (p.contextMessages++[.toolResult p.toolCallId p.toolName content])
          ⟨replay.outcome, replay.session, pendingCall p::replay.executed⟩ := by
  have hopened : ∃ t, (if stage.always then sess.autoApproveTool p.toolName else sess).threads
      threadId = some t := by
    split
    · exact ⟨th, hth⟩
    · exact ⟨th, hth⟩
  obtain ⟨t, ht⟩ := hopened
  have hprocessing := modifyThread_threads _ threadId
    (fun t => { t with state := .processing }) t ht
  have hrecorded := modifyThread_threads _ threadId (fun t => t.modifyLastTurn
    (recordOutcome (processToolResult stage.agent (pendingCall p)
      (stage.approvedRun (pendingCall p))) (isError (stage.approvedRun (pendingCall p)))))
    _ hprocessing
  exact ⟨_, _, _, hrecorded, rfl⟩

end IronClaw.Approval
