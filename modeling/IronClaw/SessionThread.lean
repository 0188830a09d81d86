import Mathlib.Algebra.Group.Int.Defs
import IronClaw.Lib.Text
import IronClaw.LlmMessage

/-!
# Sessions, threads and turns

The conversation record of `agent/session.rs`. A turn holds the user input,
the tool calls made for it and the response; a thread is its turns with the
approval or the token it waits for. Clock readings that nothing reads back
are left out, those of an auth request are nanoseconds.

`messages` spells a thread out for the language model and `restoreFromMessages`
reads such a spelling back with the three nested peeking loops of the source.
-/

set_option autoImplicit false

namespace IronClaw.SessionThread
open IronClaw.JsonValue IronClaw.LlmMessage Lib.Text

inductive ThreadState where
  | idle
  | processing
  | awaitingApproval
  | completed
  | interrupted
  deriving DecidableEq

inductive TurnState where
  | processing
  | completed
  | failed
  | interrupted
  deriving DecidableEq

structure TurnToolCall where
  name : String
  parameters : Value
  result : Option Value
  error : Option String
  deriving DecidableEq

structure Turn where
  turnNumber : ℕ
  userInput : String
  response : Option String
  toolCalls : List TurnToolCall
  state : TurnState
  error : Option String
  imageContentParts : List ContentPart
  deriving DecidableEq

structure PendingAuth where
  extensionName : String
  createdAt : ℤ
  deriving DecidableEq

def authModeTtl : ℤ := 300*10^9

def PendingAuth.isExpired (now : ℤ) (p : PendingAuth) : Bool := authModeTtl < now-p.createdAt

structure PendingApproval where
  requestId : Uuid
  toolName : String
  parameters : Value
  displayParameters : Value
  description : String
  toolCallId : String
  contextMessages : List ChatMessage
  deferredToolCalls : List ToolCall
  userTimezone : Option String
  allowAlways : Bool
  deriving DecidableEq

structure Thread where
  state : ThreadState
  turns : List Turn
  pendingApproval : Option PendingApproval
  pendingAuth : Option PendingAuth
  deriving DecidableEq

structure Session where
  threads : Uuid → Option Thread
  autoApprovedTools : List String

def Session.setThread (s : Session) (id : Uuid) (t : Thread) : Session :=
  { s with threads := fun j => if j = id then some t else s.threads j }

def Session.modifyThread (s : Session) (id : Uuid) (f : Thread → Thread) : Session :=
  match s.threads id with
  | some t => s.setThread id (f t)
  | none => s

def Session.isToolAutoApproved (s : Session) (toolName : String) : Bool :=
  s.autoApprovedTools.contains toolName

def Session.autoApproveTool (s : Session) (toolName : String) : Session :=
  { s with autoApprovedTools := toolName::s.autoApprovedTools }

def Turn.new (turnNumber : ℕ) (userInput : String) : Turn :=
  ⟨turnNumber, userInput, none, [], .processing, none, []⟩

def Turn.complete (t : Turn) (response : String) : Turn :=
  { t with response := some response, state := .completed, imageContentParts := [] }

def Turn.fail (t : Turn) (error : String) : Turn :=
  { t with error := some error, state := .failed, imageContentParts := [] }

def Turn.interrupt (t : Turn) : Turn :=
  { t with state := .interrupted, imageContentParts := [] }

def Turn.recordToolCall (t : Turn) (name : String) (params : Value) : Turn :=
  { t with toolCalls := t.toolCalls++[⟨name, params, none, none⟩] }

def modifyLast {α : Type} (f : α → α) : List α → List α
  | [] => []
  | [x] => [f x]
  | x::y::xs => x::modifyLast f (y::xs)

def Turn.recordToolResult (t : Turn) (result : Value) : Turn :=
  { t with toolCalls := modifyLast (fun c => { c with result := some result }) t.toolCalls }

def Turn.recordToolError (t : Turn) (error : String) : Turn :=
  { t with toolCalls := modifyLast (fun c => { c with error := some error }) t.toolCalls }

def Thread.new : Thread := ⟨.idle, [], none, none⟩

def Thread.turnNumber (t : Thread) : ℕ := t.turns.length+1

def Thread.modifyLastTurn (t : Thread) (f : Turn → Turn) : Thread :=
  { t with turns := modifyLast f t.turns }

def Thread.startTurn (t : Thread) (userInput : String) : Thread :=
  { t with turns := t.turns++[Turn.new t.turns.length userInput], state := .processing }

def Thread.completeTurn (t : Thread) (response : String) : Thread :=
  { t.modifyLastTurn (fun turn => turn.complete response) with state := .idle }

def Thread.failTurn (t : Thread) (error : String) : Thread :=
  { t.modifyLastTurn (fun turn => turn.fail error) with state := .idle }

def Thread.awaitApproval (t : Thread) (pending : PendingApproval) : Thread :=
  { t with state := .awaitingApproval, pendingApproval := some pending }

def Thread.clearPendingApproval (t : Thread) : Thread :=
  { t with pendingApproval := none, state := .idle }

def Thread.enterAuthMode (t : Thread) (now : ℤ) (extensionName : String) : Thread :=
  { t with pendingAuth := some ⟨extensionName, now⟩ }

def Thread.interrupt (t : Thread) : Thread :=
  { t.modifyLastTurn Turn.interrupt with state := .interrupted }

def renumber (n : ℕ) : List Turn → List Turn
  | [] => []
  | t::ts => { t with turnNumber := n }::renumber (n+1) ts

def Thread.truncateTurns (t : Thread) (keep : ℕ) : Thread :=
  if keep < t.turns.length then
    { t with turns := renumber 0 (t.turns.drop (t.turns.length-keep)) }
  else t

/-- `truncate_preview` of `channels/web/util.rs`. -/
def truncatePreview (s : String) (maxBytes : ℕ) : String :=
  if byteLen s.toList ≤ maxBytes then s
  else
    let stop := floorBoundary s.toList maxBytes
    let result := String.ofList (sliceTo s.toList stop) ++ "..."
    if startsWith s "<tool_output" && !endsWith result "</tool_output>" then
      result ++ "\n</tool_output>"
    else result

def callId (turnNumber i : ℕ) : String := "turn" ++ toString turnNumber ++ "_" ++ toString i

section Messages

variable (render : Value → String)

def TurnToolCall.rawContent (c : TurnToolCall) : Option String :=
  match c.error, c.result with
  | some err, _ => some err
  | none, some (.string s) => some s
  | none, some other => some (render other)
  | none, none => none

def TurnToolCall.content (c : TurnToolCall) : String :=
  match c.rawContent render with
  | some raw => truncatePreview raw 1000
  | none => "OK"

def syntheticCalls (turnNumber : ℕ) : ℕ → List TurnToolCall → List ToolCall
  | _, [] => []
  | i, c::cs => ⟨callId turnNumber i, c.name, c.parameters⟩::syntheticCalls turnNumber (i+1) cs

def resultMessages (turnNumber : ℕ) : ℕ → List TurnToolCall → List ChatMessage
  | _, [] => []
  | i, c::cs =>
    .toolResult (callId turnNumber i) c.name (c.content render)::
      resultMessages turnNumber (i+1) cs

def Turn.userMessage (t : Turn) : ChatMessage :=
  if t.imageContentParts.isEmpty then .user t.userInput
  else .userWithParts t.userInput t.imageContentParts

def Turn.toolMessages (t : Turn) : List ChatMessage :=
  if t.toolCalls.isEmpty then []
  else .assistantWithToolCalls none (syntheticCalls t.turnNumber 0 t.toolCalls)::
    resultMessages render t.turnNumber 0 t.toolCalls

def Turn.responseMessages (t : Turn) : List ChatMessage :=
  match t.response with
  | some response => [.assistant response]
  | none => []

def Turn.messages (t : Turn) : List ChatMessage :=
  t.userMessage::(t.toolMessages render++t.responseMessages)

def Thread.messages (t : Thread) : List ChatMessage := t.turns.flatMap (Turn.messages render)

end Messages

def setResult (calls : List TurnToolCall) (idx : ℕ) (content : String) : List TurnToolCall :=
  calls.modify idx (fun c => { c with result := some (.string content) })

def takeResults (base : ℕ) : ℕ → Turn → List ChatMessage → Turn × List ChatMessage
  | _, turn, [] => (turn, [])
  | pos, turn, m::rest =>
    if m.role = .tool then
      takeResults base (pos+1)
        { turn with toolCalls := setResult turn.toolCalls (base+pos) m.content } rest
    else (turn, m::rest)

theorem takeResults_length (base pos : ℕ) (turn : Turn) (ms : List ChatMessage) :
    (takeResults base pos turn ms).2.length ≤ ms.length := by
  induction ms generalizing pos turn with
  | nil => exact le_refl _
  | cons m rest ih =>
    simp only [takeResults]
    split
    · exact (ih _ _).trans (Nat.le_succ _)
    · exact le_refl _

def recordCalls (turn : Turn) (calls : List ToolCall) : Turn :=
  calls.foldl (fun t c => t.recordToolCall c.name c.arguments) turn

def takeCalls (turn : Turn) : List ChatMessage → Turn × List ChatMessage
  | [] => (turn, [])
  | m::rest =>
    match m.role, m.toolCalls with
    | .assistant, some calls =>
      let taken := takeResults turn.toolCalls.length 0 (recordCalls turn calls) rest
      takeCalls taken.1 taken.2
    | _, _ => (turn, m::rest)
termination_by ms => ms.length
decreasing_by
  exact Nat.lt_succ_of_le (takeResults_length _ _ _ _)

theorem takeCalls_length (turn : Turn) (ms : List ChatMessage) :
    (takeCalls turn ms).2.length ≤ ms.length := by
  induction turn, ms using takeCalls.induct with
  | case1 turn => simp [takeCalls]
  | case2 turn m rest calls hr hc taken ih =>
    rw [takeCalls, hr, hc]
    exact ih.trans ((takeResults_length _ _ _ _).trans (Nat.le_succ _))
  | case3 turn m rest h =>
    rw [takeCalls]
    split
    · next calls hr hc => exact absurd hc (h calls hr)
    · exact le_refl _

def takeResponse (turn : Turn) : List ChatMessage → Turn × List ChatMessage
  | [] => (turn, [])
  | m::rest =>
    if m.role = .assistant ∧ m.toolCalls = none then (turn.complete m.content, rest)
    else (turn, m::rest)

theorem takeResponse_length (turn : Turn) (ms : List ChatMessage) :
    (takeResponse turn ms).2.length ≤ ms.length := by
  cases ms with
  | nil => exact le_refl _
  | cons m rest =>
    simp only [takeResponse]
    split
    · exact Nat.le_succ _
    · exact le_refl _

def restoreTurns (turnNumber : ℕ) : List ChatMessage → List Turn
  | [] => []
  | m::rest =>
    if m.role = .user then
      let called := takeCalls (Turn.new turnNumber m.content) rest
      let answered := takeResponse called.1 called.2
      answered.1::restoreTurns (turnNumber+1) answered.2
    else restoreTurns turnNumber rest
termination_by ms => ms.length
decreasing_by
  · exact Nat.lt_succ_of_le ((takeResponse_length _ _).trans (takeCalls_length _ _))
  · exact Nat.lt_succ_self _

def Thread.restoreFromMessages (t : Thread) (messages : List ChatMessage) : Thread :=
  { t with state := .idle, turns := restoreTurns 0 messages }

end IronClaw.SessionThread
