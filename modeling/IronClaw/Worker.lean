import IronClaw.JobLifecycle
import IronClaw.LlmMessage

/-!
# A job's worker and its scheduler

The worker of `worker/job.rs` is a task that is cut at the places where it
waits: for a message, for the language model, for tools, for the lock of the
job contexts. The scheduler of `agent/scheduler.rs` stops the job and passes
messages on, holding its lock of the job table while it does so. Every step
of either side is a label, and so is everything they wait for.
-/

set_option autoImplicit false

namespace IronClaw.Worker
open IronClaw.JsonValue IronClaw.LlmMessage IronClaw.JobLifecycle

inductive WorkerMessage where
  | start
  | stop
  | ping
  | userMessage (content : String)
  deriving DecidableEq

def followUpTexts : List WorkerMessage → List String
  | [] => []
  | .userMessage content::rest => content::followUpTexts rest
  | _::rest => followUpTexts rest

inductive Entry where
  | followUp (content : String)
  | own (message : ChatMessage)
  deriving DecidableEq

def Entry.message : Entry → ChatMessage
  | .followUp content => .user content
  | .own message => message

def injected : List Entry → List String
  | [] => []
  | .followUp content::rest => content::injected rest
  | .own _::rest => injected rest

structure PlannedAction where
  toolName : String
  parameters : Value
  reasoning : String
  deriving DecidableEq

structure ActionPlan where
  goal : String
  actions : List PlannedAction
  deriving DecidableEq

inductive RespondResult where
  | text (text : String)
  | toolCalls (calls : List ToolCall) (content : Option String)
  deriving DecidableEq

/-- What a round of `call_llm` receives: a non-empty selection of tools, or a
response after an empty one, or an error. -/
inductive LlmReturn where
  | selected (first : ToolCall) (rest : List ToolCall) (reasoning : Option String)
  | responded (result : RespondResult) (tokens : ℕ)
  | rateLimited
  | failed (error : String)
  deriving DecidableEq

structure ToolReturn where
  wrapped : String
  unavailable : Option String
  deriving DecidableEq

inductive After where
  | finish
  | planEnd
  | answered
  | capped
  | budget (iteration nudges : ℕ) (toolsAvailable : Bool) (result : RespondResult)
  | rateLimited
  deriving DecidableEq

inductive Pc where
  | waiting
  | planning
  | planSignals (index : ℕ) (actions : List PlannedAction)
  | planTool (index : ℕ) (action : PlannedAction) (rest : List PlannedAction)
  | planReview
  | planEnded
  | signals (iteration nudges : ℕ) (stopRequested : Bool) (firstUserMessage : Option String)
  | stateCheck (iteration nudges : ℕ)
  | thinking (iteration nudges : ℕ)
  | tools (iteration : ℕ) (calls : List ToolCall)
  | returned
  | report (target : JobState) (reason : String) (after : After)
  | finished
  deriving DecidableEq

structure Task where
  pc : Pc
  messages : List Entry
  rateLimits : ℕ
  stopTaken : Bool
  checks : ℕ
  overrun : ℕ
  deriving DecidableEq

structure Config where
  jobId : String
  title : String
  description : String
  usePlanning : Bool
  maxIterations : Option ℕ
  signalsCompletion : String → Bool
  signalsToolIntent : String → Bool

def maxWorkerIterations : ℕ := 500

def Config.iterationCap (cfg : Config) : ℕ := min (cfg.maxIterations.getD 50) maxWorkerIterations

def maxToolIntentNudges : ℕ := 2

def maxConsecutiveRateLimits : ℕ := 10

def toolIntentNudge : String :=
  "You said you would perform an action, but you did not include any tool calls.\n" ++
  "Do NOT describe what you intend to do — actually call the tool now.\n" ++
  "Use the tool_calls mechanism to invoke the appropriate tool."

def systemText (cfg : Config) : String :=
  "You are an autonomous agent working on a job.\n\nJob: " ++ cfg.title ++
  "\nDescription: " ++ cfg.description ++
  "\n\nYou have access to tools to complete this job. Plan your approach and execute tools as needed.\n" ++
  "You may request multiple tools at once if they can be executed in parallel.\n" ++
  "Report when the job is complete or if you encounter issues you cannot resolve."

def planText (plan : ActionPlan) : String :=
  "I've created a plan to accomplish this goal: " ++ plan.goal ++ "\n\nSteps:\n" ++
  "\n".intercalate (plan.actions.zipIdx.map
    (fun a => toString (a.2+1) ++ ". " ++ a.1.toolName ++ " - " ++ a.1.reasoning))

def planReviewText : String :=
  "All planned actions have been executed. Is the job complete? If not, what else needs to be done?"

def completedText : String := "Job completed successfully"

def contextError (cfg : Config) (reason : String) : String :=
  "Job " ++ cfg.jobId ++ " context error: " ++ reason

def rateLimitError : String := "Provider rate-limit-exhausted rate limited, retry after None"

namespace Task

def goto (t : Task) (pc : Pc) : Task := { t with pc := pc }

def push (t : Task) (message : ChatMessage) : Task :=
  { t with messages := t.messages++[.own message] }

def inject (t : Task) (content : String) : Task :=
  { t with messages := t.messages++[.followUp content] }

/-- The failure ends `execution_loop` and is reported by `Worker::run`. -/
def fail (t : Task) (error : String) : Task := t.goto (.report .failed error .finish)

/-- The head of the `for` loop of `run_agentic_loop`. -/
def nextIteration (cfg : Config) (t : Task) (iteration nudges : ℕ) : Task :=
  if iteration ≤ cfg.iterationCap then t.goto (.signals iteration nudges false none)
  else t.goto (.report .failed "Maximum iterations exceeded: job hit the iteration cap" .capped)

def enterIteration (t : Task) (iteration nudges : ℕ) : Task :=
  { t with
    pc := .thinking iteration nudges
    overrun := if t.stopTaken then t.overrun+1 else t.overrun }

def enterAction (cfg : Config) (t : Task) (index : ℕ) (action : PlannedAction)
    (rest : List PlannedAction) : Task :=
  let call : ToolCall :=
    ⟨"plan_" ++ cfg.jobId ++ "_" ++ toString index, action.toolName, action.parameters⟩
  { (t.push (.assistantWithToolCalls none [call])) with
    pc := .planTool index action rest
    overrun := if t.stopTaken then t.overrun+1 else t.overrun }

def check (t : Task) : Task := { t with checks := t.checks+1 }

def takeStop (t : Task) : Task := { t with stopTaken := true }

/-- The beginning of `Worker::run` after the start signal, up to the first
wait of `execution_loop`. -/
def begin (cfg : Config) (t : Task) : Task :=
  let t := t.push ⟨.system, systemText cfg, [], none, none, none⟩
  if cfg.usePlanning then t.goto .planning else t.nextIteration cfg 1 0

/-- `handle_text_response`, with the nudge before it. -/
def handleText (cfg : Config) (t : Task) (iteration nudges : ℕ) (toolsAvailable : Bool)
    (text : String) : Task :=
  if toolsAvailable && nudges < maxToolIntentNudges && cfg.signalsToolIntent text then
    ((t.push (.assistant text)).push (.user toolIntentNudge)).nextIteration cfg
      (iteration+1) (nudges+1)
  else
    let nudges := if cfg.signalsToolIntent text then nudges else 0
    if text = "" then t.nextIteration cfg (iteration+1) nudges
    else if cfg.signalsCompletion text then t.goto (.report .completed completedText .answered)
    else (t.push (.assistant text)).nextIteration cfg (iteration+1) nudges

def handleResult (cfg : Config) (t : Task) (iteration nudges : ℕ) (toolsAvailable : Bool) :
    RespondResult → Task
  | .text text => t.handleText cfg iteration nudges toolsAvailable text
  | .toolCalls calls content =>
    (t.push (.assistantWithToolCalls content calls)).goto (.tools iteration calls)

def resultMessage (id name : String) (r : ToolReturn) : ChatMessage := .toolResult id name r.wrapped

def takeResults (t : Task) (results : ToolCall → ToolReturn) : List ToolCall → Task × Option String
  | [] => (t, none)
  | call::calls =>
    let t := t.push (resultMessage call.id call.name (results call))
    match (results call).unavailable with
    | some error => (t, some error)
    | none => t.takeResults results calls

end Task

inductive Input where
  | tick
  | plan (result : Except String ActionPlan)
  | tool (result : ToolReturn)
  | review (result : Except String String)
  | llm (toolsAvailable : Bool) (result : LlmReturn)
  | tools (results : ToolCall → ToolReturn)

/-- The end of `call_llm`: the context with its tokens counted, and the task. -/
def callLlm (cfg : Config) (ctx : JobContext) (t : Task) (iteration nudges : ℕ)
    (toolsAvailable : Bool) : LlmReturn → JobContext × Task
  | .selected first rest reasoning =>
    (ctx, { t with rateLimits := 0 }.handleResult cfg iteration nudges toolsAvailable
      (.toolCalls (first::rest) reasoning))
  | .responded result tokens =>
    let t := { t with rateLimits := 0 }
    if tokens = 0 then (ctx, t.handleResult cfg iteration nudges toolsAvailable result)
    else match ctx.addTokens tokens with
    | (ctx, none) => (ctx, t.handleResult cfg iteration nudges toolsAvailable result)
    | (ctx, some error) =>
      (ctx, t.goto (.report .failed error (.budget iteration nudges toolsAvailable result)))
  | .rateLimited =>
    let t := { t with rateLimits := t.rateLimits+1 }
    if maxConsecutiveRateLimits ≤ t.rateLimits then
      (ctx, t.goto (.report .failed "Persistent rate limiting: exceeded retry limit" .rateLimited))
    else (ctx, t.handleResult cfg iteration nudges toolsAvailable (.text ""))
  | .failed error => (ctx, t.fail error)

/-- `mark_completed`, `mark_failed` and `mark_stuck` differ in the target. -/
def afterReport (cfg : Config) (t : Task) : After → Except String Unit → Task
  | .finish, _ => t.goto .finished
  | .planEnd, .ok _ => t.goto .planEnded
  | .answered, _ => t.goto .returned
  | .capped, .ok _ => t.goto .returned
  | .budget iteration nudges toolsAvailable result, .ok _ =>
    t.handleResult cfg iteration nudges toolsAvailable result
  | .rateLimited, .ok _ => t.fail rateLimitError
  | .planEnd, .error reason => t.fail (contextError cfg reason)
  | .capped, .error reason => t.fail (contextError cfg reason)
  | .budget _ _ _ _, .error reason => t.fail (contextError cfg reason)
  | .rateLimited, .error reason => t.fail (contextError cfg reason)

/-- The states in which `check_signals` ends the loop. -/
def endsLoop : JobState → Bool
  | .cancelled => true
  | .failed => true
  | .completed => true
  | .submitted => true
  | .accepted => true
  | _ => false

def settled (state : JobState) : Bool :=
  state.isTerminal || state = .stuck || state = .completed

inductive StopPhase where
  | idle
  | sending
  | sleeping
  | cancelling
  | done
  deriving DecidableEq

/-- The job with everything that touches it. `sends` are the calls of
`send_message` that hold a sender, `accepted` the messages of those that have
returned, `sent` counts what was put on the channel after the start signal. -/
structure Machine where
  ctx : JobContext
  persisted : List JobState
  task : Task
  queue : List WorkerMessage
  registered : Bool
  sends : List String
  accepted : List String
  sent : ℕ
  stop : StopPhase
  abortRequested : Bool
  deriving DecidableEq

def channelCapacity : ℕ := 16

namespace Machine

def channelClosed (m : Machine) : Bool := m.task.pc = .finished

def sendersGone (m : Machine) : Bool :=
  !m.registered && (m.stop = .idle || m.stop = .done) && m.sends = []

/-- `rx.recv()` at the beginning of `Worker::run`. -/
def receiveStart (cfg : Config) (m : Machine) : Machine :=
  match m.queue with
  | [] => if m.sendersGone then { m with task := m.task.goto .finished } else m
  | .stop::queue => { m with task := m.task.takeStop.goto .finished, queue := queue }
  | _::queue => { m with task := m.task.begin cfg, queue := queue }

/-- One `try_recv` of `execute_plan`, before the next action. -/
def drainPlan (cfg : Config) (m : Machine) (index : ℕ) (action : PlannedAction)
    (rest : List PlannedAction) : Machine :=
  match m.queue with
  | [] => { m with task := m.task.enterAction cfg index action rest }
  | .stop::queue => { m with task := m.task.takeStop.goto .planEnded, queue := queue }
  | .userMessage content::queue =>
    { m with task := (m.task.inject content).goto .planEnded, queue := queue }
  | _::queue => { m with queue := queue }

/-- One `try_recv` of `check_signals`, and what it returns once the channel is
empty. -/
def drainSignals (m : Machine) (iteration nudges : ℕ) (stopRequested : Bool)
    (firstUserMessage : Option String) : Machine :=
  match m.queue with
  | .stop::queue =>
    { m with task := m.task.takeStop.goto (.signals iteration nudges true firstUserMessage)
             queue := queue }
  | .userMessage content::queue =>
    { m with task := m.task.goto (.signals iteration nudges stopRequested
               (if firstUserMessage.isNone then some content else firstUserMessage))
             queue := queue }
  | _::queue => { m with queue := queue }
  | [] =>
    if stopRequested then { m with task := m.task.goto .returned }
    else match firstUserMessage with
    | some content =>
      { m with task := (m.task.check.inject content).enterIteration iteration nudges }
    | none => { m with task := m.task.check.goto (.stateCheck iteration nudges) }

def reportOutcome (cfg : Config) (m : Machine) (now : ℤ) (target : JobState) (reason : String)
    (after : After) : Machine :=
  match m.ctx.transitionTo now target (some reason) with
  | .ok ctx =>
    { m with
      ctx := ctx
      persisted := m.persisted++[target]
      task := afterReport cfg m.task after (.ok ()) }
  | .error text => { m with task := afterReport cfg m.task after (.error text) }

def advance (cfg : Config) (input : Input) (ctx : JobContext) (t : Task) : JobContext × Task :=
  match t.pc, input with
  | .planning, .plan (.ok plan) =>
    (ctx, (t.push (.assistant (planText plan))).goto (.planSignals 0 plan.actions))
  | .planning, .plan (.error _) => (ctx, t.nextIteration cfg 1 0)
  | .planSignals _ [], _ => (ctx, (t.push (.user planReviewText)).goto .planReview)
  | .planTool index action rest, .tool r =>
    let t := t.push (Task.resultMessage ("plan_" ++ cfg.jobId ++ "_" ++ toString index)
      action.toolName r)
    match r.unavailable with
    | some error => (ctx, t.fail error)
    | none => (ctx, t.goto (.planSignals (index+1) rest))
  | .planReview, .review (.error error) => (ctx, t.fail error)
  | .planReview, .review (.ok response) =>
    let t := t.push (.assistant response)
    if cfg.signalsCompletion response then
      (ctx, t.goto (.report .completed completedText .planEnd))
    else (ctx, t.goto .planEnded)
  | .planEnded, _ =>
    if settled ctx.state then (ctx, t.goto .returned) else (ctx, t.nextIteration cfg 1 0)
  | .stateCheck iteration nudges, _ =>
    if endsLoop ctx.state then (ctx, t.goto .returned)
    else (ctx, t.enterIteration iteration nudges)
  | .thinking iteration nudges, .llm toolsAvailable result =>
    callLlm cfg ctx t iteration nudges toolsAvailable result
  | .tools iteration calls, .tools results =>
    match t.takeResults results calls with
    | (t, some error) => (ctx, t.fail error)
    | (t, none) => (ctx, t.nextIteration cfg (iteration+1) 0)
  | .returned, _ =>
    if settled ctx.state then (ctx, t.goto .finished)
    else (ctx, t.goto (.report .completed completedText .finish))
  | _, _ => (ctx, t)

def work (cfg : Config) (now : ℤ) (input : Input) (m : Machine) : Machine :=
  match m.task.pc with
  | .waiting => m.receiveStart cfg
  | .planSignals index (action::rest) => m.drainPlan cfg index action rest
  | .signals iteration nudges stopRequested firstUserMessage =>
    m.drainSignals iteration nudges stopRequested firstUserMessage
  | .report target reason after => m.reportOutcome cfg now target reason after
  | _ =>
    let next := advance cfg input m.ctx m.task
    { m with ctx := next.1, task := next.2 }

/-- The task can be left where it waits, never between two `try_recv` of one
drain. -/
def yields : Pc → Bool
  | .signals _ _ stopRequested firstUserMessage => !stopRequested && firstUserMessage.isNone
  | .finished => false
  | _ => true

/-- The waits that lie within the timeout of `execution_loop`. -/
def timed : Pc → Bool
  | .waiting => false
  | .returned => false
  | .report _ _ .finish => false
  | pc => yields pc

def timeout (m : Machine) : Machine :=
  if timed m.task.pc then
    { m with task := m.task.goto (.report .stuck "Execution timeout" .finish) }
  else m

def dropTask (m : Machine) : Machine :=
  if m.abortRequested && yields m.task.pc then { m with task := m.task.goto .finished } else m

/-- The first half of `send_message`: the sender of a known job. -/
def sendMessage (content : String) (m : Machine) : Machine :=
  if m.registered then { m with sends := m.sends++[content] } else m

def deliver (index : ℕ) (m : Machine) : Machine :=
  match m.sends[index]? with
  | none => m
  | some content =>
    if m.channelClosed then { m with sends := m.sends.eraseIdx index }
    else if m.queue.length < channelCapacity then
      { m with
        sends := m.sends.eraseIdx index
        queue := m.queue++[.userMessage content]
        accepted := m.accepted++[content]
        sent := m.sent+1 }
    else m

def ping (m : Machine) : Machine :=
  if m.channelClosed then m
  else if m.queue.length < channelCapacity then
    { m with queue := m.queue++[.ping], sent := m.sent+1 }
  else m

def reap (m : Machine) : Machine :=
  if m.task.pc = .finished then { m with registered := false } else m

def callStop (m : Machine) : Machine :=
  if m.registered then { m with registered := false, stop := .sending } else m

def sendStop (m : Machine) : Machine :=
  if m.stop = .sending then
    if m.channelClosed then { m with stop := .sleeping }
    else if m.queue.length < channelCapacity then
      { m with queue := m.queue++[.stop], sent := m.sent+1, stop := .sleeping }
    else m
  else m

def abortTask (m : Machine) : Machine :=
  if m.stop = .sleeping then
    { m with stop := .cancelling, abortRequested := !m.channelClosed }
  else m

def cancelJob (now : ℤ) (m : Machine) : Machine :=
  if m.stop = .cancelling then
    match m.ctx.transitionTo now .cancelled (some "Stopped by scheduler") with
    | .ok ctx => { m with ctx := ctx, persisted := m.persisted++[.cancelled], stop := .done }
    | .error _ => { m with persisted := m.persisted++[.cancelled], stop := .done }
  else m

end Machine

inductive Label where
  | work (now : ℤ) (input : Input)
  | timeout
  | dropTask
  | sendMessage (content : String)
  | deliver (index : ℕ)
  | ping
  | reap
  | callStop
  | sendStop
  | abortTask
  | cancelJob (now : ℤ)

def step (cfg : Config) : Label → Machine → Machine
  | .work now input, m => m.work cfg now input
  | .timeout, m => m.timeout
  | .dropTask, m => m.dropTask
  | .sendMessage content, m => m.sendMessage content
  | .deliver index, m => m.deliver index
  | .ping, m => m.ping
  | .reap, m => m.reap
  | .callStop, m => m.callStop
  | .sendStop, m => m.sendStop
  | .abortTask, m => m.abortTask
  | .cancelJob now, m => m.cancelJob now

/-- What `schedule_with_context` leaves: the job in progress and in the table,
the start signal in the channel. -/
def scheduled (ctx : JobContext) : Machine :=
  { ctx := { ctx with state := .inProgress }
    persisted := []
    task := ⟨.waiting, [], 0, false, 0, 0⟩
    queue := [.start]
    registered := true
    sends := []
    accepted := []
    sent := 0
    stop := .idle
    abortRequested := false }

def freshContext : JobContext := ⟨.pending, 0, 0, none, none, 0, []⟩

def plainConfig : Config :=
  { jobId := "job-1", title := "Tidy up", description := "Tidy up the inbox"
    usePlanning := false, maxIterations := none
    signalsCompletion := fun _ => false, signalsToolIntent := fun _ => false }

def tick : Label := .work 0 .tick

end IronClaw.Worker
