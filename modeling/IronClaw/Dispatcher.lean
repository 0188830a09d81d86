import IronClaw.Lib.Slots
import IronClaw.Hooks
import IronClaw.SessionThread
import IronClaw.Submission

/-!
# The chat dispatcher's tool batches

`ChatDelegate::execute_tool_calls`: calls are recorded, then walked in order
until one needs approval, then run in parallel, then their results are
recorded and shown to the language model in order. Tools, the safety layer
and the JSON reader come from outside; what a task returns, which tasks die
and in which order they finish is given per batch.

Next to what the function returns the model keeps which calls passed their
hooks, which were rejected and which were executed. Status updates sent to
channels are left out.
-/

set_option autoImplicit false

namespace IronClaw.Dispatcher
open IronClaw.JsonValue IronClaw.LlmMessage IronClaw.SessionThread IronClaw.Submission
open IronClaw.Hooks Lib.Text Lib.Slots

inductive ApprovalRequirement where
  | never
  | unlessAutoApproved
  | always
  deriving DecidableEq

structure Tool where
  description : String
  sensitiveParams : List String
  requiresApproval : Value → ApprovalRequirement

structure Agent where
  tools : String → Option Tool
  hooks : List Hook
  autoApproveTools : Bool
  json : Json
  sanitizeToolOutput : String → String → String
  wrapForLlm : String → String → String

structure Runs where
  result : ℕ → ToolCall → Except Error String
  panics : ℕ → Bool
  order : List (ℕ × ToolCall) → List (ℕ × ToolCall)
  order_perm : ∀ tasks, (order tasks).Perm tasks

def redactParams (params : Value) (sensitive : List String) : Value :=
  match params with
  | .object fields => .object (sensitive.foldl (fun obj key =>
      if (lookup key obj).isSome then insert key (.string "[REDACTED]") obj else obj) fields)
  | other => other

def Agent.sensitive (agent : Agent) (toolName : String) : List String :=
  match agent.tools toolName with
  | some tool => tool.sensitiveParams
  | none => []

def Agent.safeArgs (agent : Agent) (tc : ToolCall) : Value :=
  redactParams tc.arguments (agent.sensitive tc.name)

def restoreSensitive (original : Value) (sensitive : List String) : Value → Value
  | .object fields => .object (sensitive.foldl (fun obj key =>
      match original.get key with
      | some v => insert key v obj
      | none => obj) fields)
  | other => other

def beforeToolCall (agent : Agent) (message : IncomingMessage) (idx : ℕ) (tc : ToolCall) :
    Except String ToolCall :=
  match run agent.json agent.hooks idx
      (.toolCall tc.name (agent.safeArgs tc) message.userId "chat") with
  | .error (.rejected reason) => .error ("Tool call rejected by hook: " ++ reason)
  | .error err => .error ("Tool call blocked by hook policy: " ++ err.display)
  | .ok (.proceed (some newParams)) =>
    match agent.json.parse newParams with
    | some parsed =>
      .ok { tc with arguments := restoreSensitive tc.arguments (agent.sensitive tc.name) parsed }
    | none => .ok tc
  | .ok _ => .ok tc

def approvalNeed (agent : Agent) (sess : Session) (tc : ToolCall) : Option (Tool × Bool) :=
  if agent.autoApproveTools then none
  else match agent.tools tc.name with
  | none => none
  | some tool =>
    match tool.requiresApproval tc.arguments with
    | .never => none
    | .unlessAutoApproved => if sess.isToolAutoApproved tc.name then none else some (tool, true)
    | .always => some (tool, false)

def isSharedRelay (message : IncomingMessage) : Bool :=
  endsWith message.channel "-relay" &&
    (message.metadata.get "event_type").bind Value.asStr ≠ some "direct_message"

def relayDenial (tc : ToolCall) : String :=
  "Tool '" ++ tc.name ++ "' requires approval and cannot run in shared channels. " ++
    "Ask the user to message me directly (DM) to use this tool."

inductive PreflightOutcome where
  | rejected (message : String)
  | runnable
  deriving DecidableEq

structure Ask where
  idx : ℕ
  call : ToolCall
  tool : Tool
  allowAlways : Bool

structure Preflight where
  entries : List (ToolCall × PreflightOutcome)
  runnable : List (ℕ × ToolCall)
  approvalNeeded : Option Ask
  hooked : List ToolCall

inductive Verdict where
  | reject (call : ToolCall) (message : String)
  | deny (call : ToolCall)
  | ask (call : ToolCall) (tool : Tool) (allowAlways : Bool)
  | run (call : ToolCall)

def preflightCall (agent : Agent) (message : IncomingMessage) (sess : Session) (idx : ℕ)
    (original : ToolCall) : Verdict :=
  match beforeToolCall agent message idx original with
  | .error text => .reject original text
  | .ok tc =>
    match approvalNeed agent sess tc with
    | none => .run tc
    | some (tool, allowAlways) =>
      if isSharedRelay message then .deny tc else .ask tc tool allowAlways

def preflight (agent : Agent) (message : IncomingMessage) (sess : Session) (idx : ℕ) :
    List ToolCall → Preflight → Preflight
  | [], p => p
  | original::rest, p =>
    match preflightCall agent message sess idx original with
    | .reject tc text =>
      preflight agent message sess (idx+1) rest
        { p with entries := p.entries++[(tc, .rejected text)] }
    | .deny tc =>
      preflight agent message sess (idx+1) rest
        { p with
          entries := p.entries++[(tc, .rejected (relayDenial tc))], hooked := p.hooked++[tc] }
    | .ask tc tool allowAlways =>
      { p with approvalNeeded := some ⟨idx, tc, tool, allowAlways⟩, hooked := p.hooked++[tc] }
    | .run tc =>
      preflight agent message sess (idx+1) rest
        { p with
          entries := p.entries++[(tc, .runnable)]
          runnable := p.runnable++[(p.entries.length, tc)]
          hooked := p.hooked++[tc] }

def taskFailed (tc : ToolCall) : Except Error String :=
  .error (.toolExecutionFailed tc.name "Task failed during execution")

def joinAll (runs : Runs) (tasks : List (ℕ × ToolCall)) :
    List (ℕ × Except Error String) :=
  ((runs.order tasks).filter (fun t => !runs.panics t.1)).map
    (fun t => (t.1, runs.result t.1 t.2))

def execute (runs : Runs) (tasks : List (ℕ × ToolCall)) (size : ℕ) :
    List (Option (Except Error String)) :=
  if tasks.length ≤ 1 then
    fill (List.replicate size none) (tasks.map (fun t => (t.1, runs.result t.1 t.2)))
  else
    patch (fill (List.replicate size none) (joinAll runs tasks))
      (tasks.map (fun t => (t.1, taskFailed t.2)))

/-- `check_auth_required`: the extension and the instructions for the user. -/
def checkAuthRequired (json : Json) (toolName : String) (result : Except Error String) :
    Option (String × String) :=
  if toolName ≠ "tool_auth" ∧ toolName ≠ "tool_activate" then none
  else match result with
  | .error _ => none
  | .ok output => do
    let parsed ← json.parse output
    if parsed.get "awaiting_token" = some (.bool true) then
      let name ← (← parsed.get "name").asStr
      let instructions := ((parsed.get "instructions").bind Value.asStr).getD
        "Please provide your API token/key."
      return (name, instructions)
    else none

structure Postflight where
  session : Session
  context : List ChatMessage
  deferredAuth : Option String

def resultContent (agent : Agent) (tc : ToolCall) : Except Error String → String
  | .ok output => agent.wrapForLlm tc.name (agent.sanitizeToolOutput tc.name output)
  | .error e => "Tool '" ++ tc.name ++ "' failed: " ++ e.display

def recordOutcome (content : String) (isError : Bool) (turn : Turn) : Turn :=
  if isError then turn.recordToolError content else turn.recordToolResult (.string content)

def isError : Except Error String → Bool
  | .ok _ => false
  | .error _ => true

def recordInTurn (sess : Session) (threadId : Uuid) (f : Turn → Turn) : Session :=
  sess.modifyThread threadId (fun t => t.modifyLastTurn f)

def postflightCall (agent : Agent) (now : ℤ) (threadId : Uuid)
    (entry : ToolCall × PreflightOutcome) (slot : Option (Except Error String))
    (p : Postflight) : Postflight :=
  let tc := entry.1
  match entry.2 with
  | .rejected text =>
    { p with
      session := recordInTurn p.session threadId (recordOutcome text true)
      context := p.context++[.toolResult tc.id tc.name text] }
  | .runnable =>
    let result := slot.getD (.error (.toolExecutionFailed tc.name "No result available"))
    let auth := if p.deferredAuth = none then checkAuthRequired agent.json tc.name result else none
    let authed := match auth with
      | some (extension, instructions) =>
        { p with
          session := p.session.modifyThread threadId (fun t => t.enterAuthMode now extension)
          deferredAuth := some instructions }
      | none => p
    let content := resultContent agent tc result
    { authed with
      session := recordInTurn authed.session threadId (recordOutcome content (isError result))
      context := authed.context++[.toolResult tc.id tc.name content] }

def postflight (agent : Agent) (now : ℤ) (threadId : Uuid)
    (slots : List (Option (Except Error String))) :
    ℕ → List (ToolCall × PreflightOutcome) → Postflight → Postflight
  | _, [], p => p
  | i, entry::rest, p =>
    postflight agent now threadId slots (i+1) rest
      (postflightCall agent now threadId entry (slots[i]?.join) p)

inductive LoopOutcome where
  | response (text : String)
  | needApproval (pending : PendingApproval)
  deriving DecidableEq

structure Dispatch where
  outcome : Option LoopOutcome
  session : Session
  context : List ChatMessage
  hooked : List ToolCall
  rejected : List ToolCall
  executed : List ToolCall

def recordBatch (agent : Agent) (sess : Session) (threadId : Uuid) (calls : List ToolCall) :
    Session :=
  recordInTurn sess threadId (fun turn =>
    calls.foldl (fun t tc => t.recordToolCall tc.name (agent.safeArgs tc)) turn)

def rejectedCalls (entries : List (ToolCall × PreflightOutcome)) : List ToolCall :=
  (entries.filter (fun e => e.2 ≠ .runnable)).map Prod.fst

def askPending (ask : Ask) (requestId : Uuid) (context : List ChatMessage)
    (deferred : List ToolCall) (timezone : Option String) : PendingApproval :=
  { requestId, toolName := ask.call.name, parameters := ask.call.arguments
    displayParameters := redactParams ask.call.arguments ask.tool.sensitiveParams
    description := ask.tool.description, toolCallId := ask.call.id
    contextMessages := context, deferredToolCalls := deferred
    userTimezone := timezone, allowAlways := ask.allowAlways }

structure Site where
  threadId : Uuid
  now : ℤ
  requestId : Uuid
  userTz : String

def executeToolCalls (agent : Agent) (message : IncomingMessage) (site : Site) (runs : Runs)
    (sess : Session) (context : List ChatMessage) (content : Option String)
    (calls : List ToolCall) : Dispatch :=
  let context := context++[.assistantWithToolCalls content calls]
  let sess := recordBatch agent sess site.threadId calls
  let pre := preflight agent message sess 0 calls ⟨[], [], none, []⟩
  let slots := execute runs pre.runnable pre.entries.length
  let post := postflight agent site.now site.threadId slots 0 pre.entries ⟨sess, context, none⟩
  let outcome := match post.deferredAuth, pre.approvalNeeded with
    | some instructions, _ => some (.response instructions)
    | none, some ask => some (.needApproval (askPending ask site.requestId post.context
        (calls.drop (ask.idx+1)) (some site.userTz)))
    | none, none => none
  ⟨outcome, post.session, post.context, pre.hooked, rejectedCalls pre.entries,
    pre.runnable.map Prod.snd⟩

def runnableFrom : ℕ → List (ToolCall × PreflightOutcome) → List (ℕ × ToolCall)
  | _, [] => []
  | n, (tc, .runnable)::es => (n, tc)::runnableFrom (n+1) es
  | n, (_, .rejected _)::es => runnableFrom (n+1) es

theorem runnableFrom_ge (n k : ℕ) (tc : ToolCall) (es : List (ToolCall × PreflightOutcome))
    (h : (k, tc) ∈ runnableFrom n es) : n ≤ k := by
  induction es generalizing n with
  | nil => simp [runnableFrom] at h
  | cons e es ih =>
    obtain ⟨tc', outcome⟩ := e
    cases outcome with
    | rejected text =>
      have := ih (n+1) h
      omega
    | runnable =>
      rcases List.mem_cons.mp h with heq | htail
      · have := congrArg Prod.fst heq
        exact this.ge
      · have := ih (n+1) htail
        omega

theorem mem_runnableFrom (n i : ℕ) (tc : ToolCall) (es : List (ToolCall × PreflightOutcome))
    (h : es[i]? = some (tc, .runnable)) : (n+i, tc) ∈ runnableFrom n es := by
  induction es generalizing n i with
  | nil => simp at h
  | cons e es ih =>
    obtain ⟨tc', outcome⟩ := e
    cases i with
    | zero =>
      simp only [List.getElem?_cons_zero, Option.some.injEq, Prod.mk.injEq] at h
      obtain ⟨rfl, rfl⟩ := h
      exact List.mem_cons_self
    | succ i =>
      have hnext := ih (n+1) i (by simpa using h)
      rw [show n+1+i = n+(i+1) by omega] at hnext
      cases outcome with
      | rejected text => exact hnext
      | runnable => exact List.mem_cons_of_mem _ hnext

theorem runnableFrom_nodup (n : ℕ) (es : List (ToolCall × PreflightOutcome)) :
    ((runnableFrom n es).map Prod.fst).Nodup := by
  induction es generalizing n with
  | nil => exact List.nodup_nil
  | cons e es ih =>
    obtain ⟨tc, outcome⟩ := e
    cases outcome with
    | rejected text => exact ih (n+1)
    | runnable =>
      rw [runnableFrom, List.map_cons, List.nodup_cons]
      constructor
      · intro hmem
        obtain ⟨⟨k, tc'⟩, hk, rfl⟩ := List.mem_map.mp hmem
        have := runnableFrom_ge _ _ _ _ hk
        omega
      · exact ih (n+1)

theorem runnableFrom_calls (n : ℕ) (es : List (ToolCall × PreflightOutcome)) :
    (runnableFrom n es).map Prod.snd = (es.filter (fun e => e.2 = .runnable)).map Prod.fst := by
  induction es generalizing n with
  | nil => rfl
  | cons e es ih =>
    obtain ⟨tc, outcome⟩ := e
    cases outcome with
    | rejected text => simpa [runnableFrom] using ih (n+1)
    | runnable => simpa [runnableFrom] using ih (n+1)

theorem executed_or_rejected (n : ℕ) (es : List (ToolCall × PreflightOutcome)) :
    ((runnableFrom n es).map Prod.snd++rejectedCalls es).Perm (es.map Prod.fst) := by
  rw [runnableFrom_calls, rejectedCalls, ← List.map_append]
  apply List.Perm.map
  simpa using List.filter_append_perm (fun e : ToolCall × PreflightOutcome => e.2 = .runnable) es

def ownResult (runs : Runs) (several : Bool) (i : ℕ) (tc : ToolCall) : Except Error String :=
  if several && runs.panics i then taskFailed tc else runs.result i tc

def several (tasks : List (ℕ × ToolCall)) : Bool := decide (1 < tasks.length)

theorem joinAll_nodup (runs : Runs) (tasks : List (ℕ × ToolCall))
    (h : (tasks.map Prod.fst).Nodup) : ((joinAll runs tasks).map Prod.fst).Nodup := by
  have hperm : (((runs.order tasks).map Prod.fst)).Nodup :=
    ((runs.order_perm tasks).map Prod.fst).nodup_iff.mpr h
  have hsub : (((runs.order tasks).filter (fun t => !runs.panics t.1)).map Prod.fst).Sublist
      ((runs.order tasks).map Prod.fst) := List.filter_sublist.map Prod.fst
  rw [joinAll, List.map_map]
  exact hperm.sublist hsub

theorem joinAll_slot (runs : Runs) (tasks : List (ℕ × ToolCall)) (i : ℕ) (tc : ToolCall)
    (size : ℕ) (h : (tasks.map Prod.fst).Nodup) (hmem : (i, tc) ∈ tasks) (hi : i < size) :
    (fill (List.replicate size none) (joinAll runs tasks))[i]? =
      some (if runs.panics i then none else some (runs.result i tc)) := by
  have horder : (i, tc) ∈ runs.order tasks := (runs.order_perm tasks).mem_iff.mpr hmem
  by_cases hp : runs.panics i = true
  · rw [if_pos hp, fill_miss]
    · simp [hi]
    · intro hin
      obtain ⟨⟨j, r⟩, hj, rfl⟩ := List.mem_map.mp hin
      obtain ⟨t, ht, heq⟩ := List.mem_map.mp hj
      have hlive := (List.mem_filter.mp ht).2
      have hidx := congrArg Prod.fst heq
      simp only at hidx hp
      rw [hidx, hp] at hlive
      simp at hlive
  · rw [if_neg hp]
    apply fill_hit _ _ _ _ _ (joinAll_nodup runs tasks h)
    · simpa using hi
    · apply List.mem_map.mpr
      exact ⟨(i, tc), List.mem_filter.mpr ⟨horder, by simpa using hp⟩, rfl⟩

/-- Whatever order the tasks finish in, the slot of a call holds its own
result. -/
theorem execute_slot (runs : Runs) (es : List (ToolCall × PreflightOutcome)) (i : ℕ)
    (tc : ToolCall) (h : es[i]? = some (tc, .runnable)) :
    (execute runs (runnableFrom 0 es) es.length)[i]? =
      some (some (ownResult runs (several (runnableFrom 0 es)) i tc)) := by
  have hmem : (i, tc) ∈ runnableFrom 0 es := by
    simpa using mem_runnableFrom 0 i tc es h
  have hi : i < es.length := (List.getElem?_eq_some_iff.mp h).1
  have hnodup := runnableFrom_nodup 0 es
  generalize runnableFrom 0 es = tasks at hmem hnodup
  unfold execute ownResult several
  by_cases hsingle : tasks.length ≤ 1
  · rw [if_pos hsingle, if_neg (by simp; omega)]
    apply fill_hit
    · exact List.mem_map.mpr ⟨(i, tc), hmem, rfl⟩
    · rwa [List.map_map]
    · simpa using hi
  · have hslot := joinAll_slot runs tasks i tc es.length hnodup hmem hi
    have hpatch := patch_hit _ (tasks.map (fun t => (t.1, taskFailed t.2))) i (taskFailed tc) _
      (List.mem_map.mpr ⟨(i, tc), hmem, rfl⟩) (by rwa [List.map_map]) hslot
    rw [if_neg hsingle, hpatch]
    have hmany : 1 < tasks.length := Nat.lt_of_not_le hsingle
    by_cases hp : runs.panics i = true
    · simp [hp, hmany]
    · simp [hp]

section Walk

variable (agent : Agent) (message : IncomingMessage) (sess : Session)

def Verdict.entry : Verdict → Option (ToolCall × PreflightOutcome)
  | .reject tc text => some (tc, .rejected text)
  | .deny tc => some (tc, .rejected (relayDenial tc))
  | .run tc => some (tc, .runnable)
  | .ask _ _ _ => none

def entriesFrom : ℕ → List ToolCall → List (ToolCall × PreflightOutcome)
  | _, [] => []
  | i, c::cs =>
    match (preflightCall agent message sess i c).entry with
    | some e => e::entriesFrom (i+1) cs
    | none => []

def askFrom : ℕ → List ToolCall → Option Ask
  | _, [] => none
  | i, c::cs =>
    match preflightCall agent message sess i c with
    | .ask tc tool allowAlways => some ⟨i, tc, tool, allowAlways⟩
    | _ => askFrom (i+1) cs

def hookedFrom : ℕ → List ToolCall → List ToolCall
  | _, [] => []
  | i, c::cs =>
    match preflightCall agent message sess i c with
    | .reject _ _ => hookedFrom (i+1) cs
    | .deny tc => tc::hookedFrom (i+1) cs
    | .ask tc _ _ => [tc]
    | .run tc => tc::hookedFrom (i+1) cs

variable (i : ℕ) (calls : List ToolCall)

/-- The loop with its accumulators, written as a walk over the calls. -/
theorem preflight_eq (p : Preflight) (h : p.approvalNeeded = none) :
    preflight agent message sess i calls p =
      ⟨p.entries++entriesFrom agent message sess i calls,
        p.runnable++runnableFrom p.entries.length (entriesFrom agent message sess i calls),
        askFrom agent message sess i calls,
        p.hooked++hookedFrom agent message sess i calls⟩ := by
  induction calls generalizing i p with
  | nil => simp [preflight, entriesFrom, askFrom, hookedFrom, runnableFrom, ← h]
  | cons c cs ih =>
    simp only [preflight, entriesFrom, askFrom, hookedFrom]
    cases preflightCall agent message sess i c with
    | reject tc text =>
      simp only [Verdict.entry]
      rw [ih]
      · simp [runnableFrom]
      · exact h
    | deny tc =>
      simp only [Verdict.entry]
      rw [ih]
      · simp [runnableFrom]
      · exact h
    | ask tc tool allowAlways => simp [Verdict.entry, runnableFrom]
    | run tc =>
      simp only [Verdict.entry]
      rw [ih]
      · simp [runnableFrom]
      · exact h

theorem beforeToolCall_key (c tc : ToolCall) (h : beforeToolCall agent message i c = .ok tc) :
    tc.id = c.id ∧ tc.name = c.name := by
  unfold beforeToolCall at h
  split at h
  · simp at h
  · simp at h
  · split at h
    · have htc := Except.ok.inj h
      subst htc
      exact ⟨rfl, rfl⟩
    · have htc := Except.ok.inj h
      subst htc
      exact ⟨rfl, rfl⟩
  · have htc := Except.ok.inj h
    subst htc
    exact ⟨rfl, rfl⟩

def Verdict.call : Verdict → ToolCall
  | .reject tc _ => tc
  | .deny tc => tc
  | .ask tc _ _ => tc
  | .run tc => tc

/-- Hooks may change the arguments of a call, never its id or its tool. -/
theorem preflightCall_key (c : ToolCall) :
    (preflightCall agent message sess i c).call.id = c.id ∧
      (preflightCall agent message sess i c).call.name = c.name := by
  unfold preflightCall
  split
  · exact ⟨rfl, rfl⟩
  · next tc htc =>
    have hkey := beforeToolCall_key agent message i c tc htc
    split
    · exact hkey
    · split
      · exact hkey
      · exact hkey

theorem verdict_entry_call (v : Verdict) (e : ToolCall × PreflightOutcome)
    (h : v.entry = some e) : e.1 = v.call := by
  cases v <;> simp only [Verdict.entry, Option.some.injEq, reduceCtorEq] at h <;> subst h <;> rfl

def key (c : ToolCall) : String × String := (c.id, c.name)

theorem entriesFrom_keys :
    (entriesFrom agent message sess i calls).map (fun e => key e.1) =
      (calls.take (entriesFrom agent message sess i calls).length).map key := by
  induction calls generalizing i with
  | nil => rfl
  | cons c cs ih =>
    simp only [entriesFrom]
    split
    · next e he =>
      have hkey : key e.1 = key c := by
        have hcall := preflightCall_key agent message sess i c
        rw [verdict_entry_call _ e he, key, hcall.1, hcall.2, key]
      simp only [List.map_cons, List.length_cons, List.take_succ_cons, hkey, ih (i+1)]
    · rfl

/-- The walk ends at the end of the batch or at the call that has to wait. -/
theorem walk_split :
    (askFrom agent message sess i calls = none ∧
      (entriesFrom agent message sess i calls).length = calls.length) ∨
    ∃ pre c rest tc tool allowAlways,
      calls = pre++c::rest ∧
      (entriesFrom agent message sess i calls).length = pre.length ∧
      preflightCall agent message sess (i+pre.length) c = .ask tc tool allowAlways ∧
      askFrom agent message sess i calls = some ⟨i+pre.length, tc, tool, allowAlways⟩ := by
  induction calls generalizing i with
  | nil => exact Or.inl ⟨rfl, rfl⟩
  | cons c cs ih =>
    cases hv : preflightCall agent message sess i c with
    | ask tc tool allowAlways =>
      right
      exact ⟨[], c, cs, tc, tool, allowAlways, rfl, by simp [entriesFrom, hv, Verdict.entry],
        by simpa using hv, by simp [askFrom, hv]⟩
    | _ =>
      simp only [entriesFrom, askFrom, hv, Verdict.entry, List.length_cons]
      rcases ih (i+1) with ⟨hask, hlen⟩ | ⟨pre, d, rest, tc, tool, aa, hcs, hlen, hd, hask⟩
      · exact Or.inl ⟨hask, by rw [hlen]⟩
      · right
        have hidx : i+1+pre.length = i+(c::pre).length := by
          simp only [List.length_cons]
          omega
        rw [hidx] at hd hask
        exact ⟨c::pre, d, rest, tc, tool, aa, by rw [hcs]; rfl, by simp [hlen], hd, hask⟩

/-- What runs or waits has passed its hooks. -/
theorem hookedFrom_covers :
    (((entriesFrom agent message sess i calls).filter (fun e => e.2 = .runnable)).map Prod.fst++
      ((askFrom agent message sess i calls).map Ask.call).toList).Sublist
        (hookedFrom agent message sess i calls) := by
  induction calls generalizing i with
  | nil => exact List.Sublist.refl _
  | cons c cs ih =>
    have hnext := ih (i+1)
    cases hv : preflightCall agent message sess i c with
    | reject tc text => simpa [entriesFrom, askFrom, hookedFrom, hv, Verdict.entry] using hnext
    | deny tc =>
      simpa [entriesFrom, askFrom, hookedFrom, hv, Verdict.entry] using
        hnext.trans (List.sublist_cons_self tc _)
    | ask tc tool allowAlways => simp [entriesFrom, askFrom, hookedFrom, hv, Verdict.entry]
    | run tc => simpa [entriesFrom, askFrom, hookedFrom, hv, Verdict.entry] using hnext

theorem preflightCall_ne_deny (c tc : ToolCall) (h : isSharedRelay message = false) :
    preflightCall agent message sess i c ≠ .deny tc := by
  unfold preflightCall
  split
  · simp
  · split
    · simp
    · simp [h]

/-- Off shared relays nothing that passed its hooks is turned away. -/
theorem hookedFrom_exact (h : isSharedRelay message = false) :
    hookedFrom agent message sess i calls =
      ((entriesFrom agent message sess i calls).filter (fun e => e.2 = .runnable)).map Prod.fst++
        ((askFrom agent message sess i calls).map Ask.call).toList := by
  induction calls generalizing i with
  | nil => rfl
  | cons c cs ih =>
    have hnext := ih (i+1)
    cases hv : preflightCall agent message sess i c with
    | reject tc text => simpa [entriesFrom, askFrom, hookedFrom, hv, Verdict.entry] using hnext
    | deny tc => exact absurd hv (preflightCall_ne_deny agent message sess i c tc h)
    | ask tc tool allowAlways => simp [entriesFrom, askFrom, hookedFrom, hv, Verdict.entry]
    | run tc => simpa [entriesFrom, askFrom, hookedFrom, hv, Verdict.entry] using hnext

end Walk

section Outcomes

variable (agent : Agent)

def outcomeOf (slot : Option (Except Error String)) (entry : ToolCall × PreflightOutcome) :
    String × Bool :=
  match entry.2 with
  | .rejected text => (text, true)
  | .runnable =>
    let result := slot.getD (.error (.toolExecutionFailed entry.1.name "No result available"))
    (resultContent agent entry.1 result, isError result)

def outcomesFrom (slots : List (Option (Except Error String))) :
    ℕ → List (ToolCall × PreflightOutcome) → List (ToolCall × String × Bool)
  | _, [] => []
  | i, e::es => (e.1, outcomeOf agent slots[i]?.join e)::outcomesFrom slots (i+1) es

def resultMessage (o : ToolCall × String × Bool) : ChatMessage := .toolResult o.1.id o.1.name o.2.1

variable (sess : Session) (threadId : Uuid) (now : ℤ)

theorem postflightCall_context (threadId : Uuid) (e : ToolCall × PreflightOutcome)
    (slot : Option (Except Error String)) (p : Postflight) :
    (postflightCall agent now threadId e slot p).context =
      p.context++[resultMessage (e.1, outcomeOf agent slot e)] := by
  obtain ⟨tc, outcome⟩ := e
  cases outcome with
  | rejected text => rfl
  | runnable =>
    simp only [postflightCall, outcomeOf, resultMessage]
    split <;> rfl

theorem postflight_context (threadId : Uuid) (slots : List (Option (Except Error String))) (i : ℕ)
    (es : List (ToolCall × PreflightOutcome)) (p : Postflight) :
    (postflight agent now threadId slots i es p).context =
      p.context++(outcomesFrom agent slots i es).map resultMessage := by
  induction es generalizing i p with
  | nil => simp [postflight, outcomesFrom]
  | cons e es ih =>
    rw [postflight, ih, postflightCall_context]
    simp [outcomesFrom]

def Touches (threadId : Uuid) (f : Turn → Turn) (before after : Session) : Prop :=
  after.autoApprovedTools = before.autoApprovedTools ∧
  ∀ t, before.threads threadId = some t → ∃ t', after.threads threadId = some t' ∧
    t'.turns = modifyLast f t.turns ∧ t'.state = t.state ∧
    t'.pendingApproval = t.pendingApproval

theorem modifyThread_threads (f : Thread → Thread) (t : Thread)
    (h : sess.threads threadId = some t) :
    (sess.modifyThread threadId f).threads threadId = some (f t) := by
  simp [Session.modifyThread, h, Session.setThread]

theorem modifyThread_autoApproved (f : Thread → Thread) :
    (sess.modifyThread threadId f).autoApprovedTools = sess.autoApprovedTools := by
  unfold Session.modifyThread
  split <;> rfl

theorem modifyLast_comp {α : Type} (f g : α → α) (xs : List α) :
    modifyLast g (modifyLast f xs) = modifyLast (fun x => g (f x)) xs := by
  induction xs with
  | nil => rfl
  | cons x xs ih =>
    cases xs with
    | nil => rfl
    | cons y ys =>
      simp only [modifyLast] at ih ⊢
      cases hys : modifyLast f (y::ys) with
      | nil => cases ys <;> simp [modifyLast] at hys
      | cons z zs =>
        rw [hys] at ih
        simp only [modifyLast, ih]

theorem modifyLast_id {α : Type} (xs : List α) : modifyLast (fun x => x) xs = xs := by
  induction xs with
  | nil => rfl
  | cons x xs ih =>
    cases xs with
    | nil => rfl
    | cons y ys => simp only [modifyLast, ih]

theorem modifyLast_concat {α : Type} (f : α → α) (xs : List α) (x : α) :
    modifyLast f (xs++[x]) = xs++[f x] := by
  induction xs with
  | nil => rfl
  | cons y xs ih =>
    cases xs with
    | nil => rfl
    | cons z zs => simpa [modifyLast] using ih

theorem touches_refl (sess : Session) :
    Touches threadId (fun turn => turn) sess sess := by
  refine ⟨rfl, ?_⟩
  intro t ht
  exact ⟨t, ht, (modifyLast_id t.turns).symm, rfl, rfl⟩

theorem touches_trans (f g : Turn → Turn) (a b c : Session) (hab : Touches threadId f a b)
    (hbc : Touches threadId g b c) :
    Touches threadId (fun turn => g (f turn)) a c := by
  refine ⟨hbc.1.trans hab.1, ?_⟩
  intro t ht
  obtain ⟨u, hu, hturns, hstate, hpend⟩ := hab.2 t ht
  obtain ⟨v, hv, hturns', hstate', hpend'⟩ := hbc.2 u hu
  refine ⟨v, hv, ?_, hstate'.trans hstate, hpend'.trans hpend⟩
  rw [hturns', hturns, modifyLast_comp]

theorem touches_record (f : Turn → Turn) :
    Touches threadId f sess (recordInTurn sess threadId f) := by
  refine ⟨modifyThread_autoApproved sess threadId _, ?_⟩
  intro t ht
  exact ⟨t.modifyLastTurn f, modifyThread_threads sess threadId _ t ht, rfl, rfl, rfl⟩

theorem touches_auth (extension : String) :
    Touches threadId (fun turn => turn) sess
      (sess.modifyThread threadId (fun t => t.enterAuthMode now extension)) := by
  refine ⟨modifyThread_autoApproved sess threadId _, ?_⟩
  intro t ht
  exact ⟨t.enterAuthMode now extension, modifyThread_threads sess threadId _ t ht,
    (modifyLast_id t.turns).symm, rfl, rfl⟩

theorem postflightCall_touches (threadId : Uuid) (e : ToolCall × PreflightOutcome)
    (slot : Option (Except Error String)) (p : Postflight) :
    Touches threadId (recordOutcome (outcomeOf agent slot e).1 (outcomeOf agent slot e).2)
      p.session (postflightCall agent now threadId e slot p).session := by
  obtain ⟨tc, outcome⟩ := e
  cases outcome with
  | rejected text => exact touches_record _ _ _
  | runnable =>
    simp only [postflightCall, outcomeOf]
    split
    · next extension instructions _ =>
      exact touches_trans _ _ _ _ _ _ (touches_auth p.session threadId now extension)
        (touches_record _ _ _)
    · exact touches_record _ _ _

def recordAll (os : List (ToolCall × String × Bool)) (turn : Turn) : Turn :=
  os.foldl (fun t o => recordOutcome o.2.1 o.2.2 t) turn

theorem postflight_touches (threadId : Uuid) (slots : List (Option (Except Error String))) (i : ℕ)
    (es : List (ToolCall × PreflightOutcome)) (p : Postflight) :
    Touches threadId (recordAll (outcomesFrom agent slots i es)) p.session
      (postflight agent now threadId slots i es p).session := by
  induction es generalizing i p with
  | nil => exact touches_refl threadId p.session
  | cons e es ih =>
    have hcall := postflightCall_touches agent now threadId e (slots[i]?.join) p
    have hrest := ih (i+1) (postflightCall agent now threadId e (slots[i]?.join) p)
    have hboth := touches_trans threadId _ _ _ _ _ hcall hrest
    exact hboth

def ownOutcome (runs : Runs) (several : Bool) (i : ℕ) (entry : ToolCall × PreflightOutcome) :
    String × Bool :=
  match entry.2 with
  | .rejected text => (text, true)
  | .runnable =>
    let result := ownResult runs several i entry.1
    (resultContent agent entry.1 result, isError result)

def ownOutcomes (runs : Runs) (several : Bool) :
    ℕ → List (ToolCall × PreflightOutcome) → List (ToolCall × String × Bool)
  | _, [] => []
  | i, e::es => (e.1, ownOutcome agent runs several i e)::ownOutcomes runs several (i+1) es

theorem outcomesFrom_own (runs : Runs) (pre es : List (ToolCall × PreflightOutcome)) :
    outcomesFrom agent (execute runs (runnableFrom 0 (pre++es)) (pre++es).length) pre.length es =
      ownOutcomes agent runs (several (runnableFrom 0 (pre++es))) pre.length es := by
  induction es generalizing pre with
  | nil => rfl
  | cons e es ih =>
    have hnext := ih (pre++[e])
    have hlen : (pre++[e]).length = pre.length+1 := by simp
    rw [List.append_assoc, List.singleton_append, hlen] at hnext
    rw [outcomesFrom, ownOutcomes, hnext]
    obtain ⟨tc, outcome⟩ := e
    cases outcome with
    | rejected text => rfl
    | runnable =>
      have hslot := execute_slot runs (pre++(tc, .runnable)::es) pre.length tc (by simp)
      simp only [outcomeOf, ownOutcome, hslot, Option.join_some, Option.getD_some]

end Outcomes

section Batch

variable (agent : Agent) (message : IncomingMessage) (site : Site) (runs : Runs) (sess : Session)
  (context : List ChatMessage) (content : Option String) (calls : List ToolCall)

def batchEntries : List (ToolCall × PreflightOutcome) := entriesFrom agent message sess 0 calls

def batchOutcomes : List (ToolCall × String × Bool) :=
  ownOutcomes agent runs (several (runnableFrom 0 (batchEntries agent message sess calls))) 0
    (batchEntries agent message sess calls)

theorem preflightCall_congr (s s' : Session) (i : ℕ) (c : ToolCall)
    (h : s'.autoApprovedTools = s.autoApprovedTools) :
    preflightCall agent message s' i c = preflightCall agent message s i c := by
  have hneed : ∀ tc, approvalNeed agent s' tc = approvalNeed agent s tc := by
    intro tc
    unfold approvalNeed Session.isToolAutoApproved
    rw [h]
  simp only [preflightCall, hneed]

theorem walk_congr (s s' : Session) (i : ℕ) (h : s'.autoApprovedTools = s.autoApprovedTools) :
    entriesFrom agent message s' i calls = entriesFrom agent message s i calls ∧
      askFrom agent message s' i calls = askFrom agent message s i calls ∧
      hookedFrom agent message s' i calls = hookedFrom agent message s i calls := by
  induction calls generalizing i with
  | nil => exact ⟨rfl, rfl, rfl⟩
  | cons c cs ih =>
    obtain ⟨he, ha, hh⟩ := ih (i+1)
    simp only [entriesFrom, askFrom, hookedFrom, preflightCall_congr agent message s s' i c h,
      he, ha, hh, and_self]

theorem recordBatch_autoApproved (threadId : Uuid) :
    (recordBatch agent sess threadId calls).autoApprovedTools = sess.autoApprovedTools :=
  (touches_record sess threadId _).1

theorem batch_preflight (threadId : Uuid) :
    preflight agent message (recordBatch agent sess threadId calls) 0 calls ⟨[], [], none, []⟩ =
      ⟨batchEntries agent message sess calls,
        runnableFrom 0 (batchEntries agent message sess calls),
        askFrom agent message sess 0 calls, hookedFrom agent message sess 0 calls⟩ := by
  have hauto := recordBatch_autoApproved agent sess calls threadId
  obtain ⟨hentries, hask, hhooked⟩ := walk_congr agent message calls sess _ 0 hauto
  rw [preflight_eq _ _ _ _ _ _ rfl, hentries, hask, hhooked]
  rfl

theorem batch_postflight (p : Postflight) :
    (postflight agent site.now site.threadId
      (execute runs (runnableFrom 0 (batchEntries agent message sess calls))
        (batchEntries agent message sess calls).length) 0
      (batchEntries agent message sess calls) p).context =
        p.context++(batchOutcomes agent message runs sess calls).map resultMessage ∧
    Touches site.threadId (recordAll (batchOutcomes agent message runs sess calls)) p.session
      (postflight agent site.now site.threadId
        (execute runs (runnableFrom 0 (batchEntries agent message sess calls))
          (batchEntries agent message sess calls).length) 0
        (batchEntries agent message sess calls) p).session := by
  have hown := outcomesFrom_own agent runs [] (batchEntries agent message sess calls)
  simp only [List.nil_append, List.length_nil] at hown
  rw [batchOutcomes, ← hown]
  exact ⟨postflight_context _ _ _ _ _ _ _, postflight_touches _ _ _ _ _ _ _⟩

theorem batch_context :
    (executeToolCalls agent message site runs sess context content calls).context =
      context++[.assistantWithToolCalls content calls]++
        (batchOutcomes agent message runs sess calls).map resultMessage := by
  simp only [executeToolCalls, batch_preflight, batch_postflight]

theorem batch_touches :
    Touches site.threadId (fun turn => recordAll (batchOutcomes agent message runs sess calls)
        (calls.foldl (fun t tc => t.recordToolCall tc.name (agent.safeArgs tc)) turn)) sess
      (executeToolCalls agent message site runs sess context content calls).session := by
  simp only [executeToolCalls, batch_preflight]
  have hrecord := touches_record sess site.threadId (fun turn =>
    calls.foldl (fun t tc => t.recordToolCall tc.name (agent.safeArgs tc)) turn)
  have hpost := (batch_postflight agent message site runs sess calls
    ⟨recordBatch agent sess site.threadId calls,
      context++[.assistantWithToolCalls content calls], none⟩).2
  exact touches_trans _ _ _ _ _ _ hrecord hpost

end Batch

def bareAgent : Agent :=
  { tools := fun _ => none, hooks := [], autoApproveTools := false
    json := ⟨fun _ => none, fun _ => "null"⟩
    sanitizeToolOutput := fun _ output => output
    wrapForLlm := fun _ text => text }

def echoRuns : Runs := ⟨fun _ tc => .ok tc.name, fun _ => false, id, fun tasks => .refl tasks⟩

def openThread : Thread := (Thread.new).startTurn "hello"

def openSession : Session := ⟨fun _ => some openThread, []⟩

def webMessage : IncomingMessage := ⟨"web", "owner", "hello", none, none, .null, false⟩

def webSite : Site := ⟨0, 0, 1, "UTC"⟩

end IronClaw.Dispatcher
