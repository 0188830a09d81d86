import Mathlib.Algebra.Group.Nat.Defs
import IronClaw.Lib.Text
import IronClaw.LlmMessage

/-!
# Submissions and their results

The commands of `agent/submission.rs`. The parser compares the lowered text
with its command names in a fixed order, so the names of one block are a
table. Lowering, UUID syntax and the JSON reader are given from outside.
-/

set_option autoImplicit false

namespace IronClaw.Submission
open IronClaw.JsonValue IronClaw.LlmMessage Lib.Text

structure IncomingMessage where
  channel : String
  userId : String
  content : String
  threadId : Option String
  conversationScopeId : Option String
  metadata : Value
  isInternal : Bool
  deriving DecidableEq

def IncomingMessage.conversationScope (m : IncomingMessage) : Option String :=
  m.conversationScopeId.or m.threadId

inductive Submission where
  | userInput (content : String)
  | execApproval (requestId : Uuid) (approved always : Bool)
  | approvalResponse (approved always : Bool)
  | interrupt
  | compact
  | undo
  | redo
  | resume (checkpointId : Uuid)
  | clear
  | switchThread (threadId : Uuid)
  | newThread
  | heartbeat
  | summarize
  | suggest
  | jobStatus (jobId : Option String)
  | jobCancel (jobId : String)
  | quit
  | systemCommand (command : String) (args : List String)
  deriving DecidableEq

inductive SubmissionResult where
  | response (content : String)
  | needApproval (requestId : Uuid) (toolName description : String) (parameters : Value)
      (allowAlways : Bool)
  | ok (message : Option String)
  | error (message : String)
  | interrupted
  deriving DecidableEq

def SubmissionResult.okWithMessage (message : String) : SubmissionResult := .ok (some message)

inductive Error where
  | jobNotFound (id : Uuid)
  | toolExecutionFailed (name reason : String)
  | other (text : String)
  deriving DecidableEq

def hexText (width n : ℕ) : String :=
  String.ofList ((List.range width).reverse.map (fun i => Nat.digitChar (n/16^i%16)))

def uuidText (u : Uuid) : String :=
  hexText 8 (u.toNat/2^96) ++ "-" ++ hexText 4 (u.toNat/2^80) ++ "-" ++
    hexText 4 (u.toNat/2^64) ++ "-" ++ hexText 4 (u.toNat/2^48) ++ "-" ++ hexText 12 u.toNat

def Error.display : Error → String
  | .jobNotFound id => "Job error: Job " ++ uuidText id ++ " not found"
  | .toolExecutionFailed name reason =>
    "Tool error: Tool " ++ name ++ " execution failed: " ++ reason
  | .other text => text

/-- The library functions the parser calls: `str::to_lowercase`,
`Uuid::parse_str` and `serde_json::from_str::<Submission>`. -/
structure Syntax where
  toLowercase : String → String
  parseUuid : String → Option Uuid
  fromJson : String → Option Submission

def controlCommands : List (String × Submission) :=
  [("/undo", .undo), ("/redo", .redo), ("/interrupt", .interrupt), ("/stop", .interrupt),
    ("/compact", .compact), ("/clear", .clear), ("/heartbeat", .heartbeat),
    ("/summarize", .summarize), ("/summary", .summarize), ("/suggest", .suggest),
    ("/thread new", .newThread), ("/new", .newThread)]

def systemCommands : List (String × Submission) :=
  [("/help", .systemCommand "help" []), ("/?", .systemCommand "help" []),
    ("/version", .systemCommand "version" []), ("/tools", .systemCommand "tools" []),
    ("/skills", .systemCommand "skills" [])]

def laterSystemCommands : List (String × Submission) :=
  [("/ping", .systemCommand "ping" []), ("/debug", .systemCommand "debug" []),
    ("/restart", .systemCommand "restart" [])]

def quitCommands : List String := ["/quit", "/exit", "/shutdown"]

def approvalCommands : List (String × Submission) :=
  ["yes", "y", "approve", "ok", "/approve", "/yes", "/y"].map
      (fun c => (c, .approvalResponse true false))++
  ["always", "a", "yes always", "approve always", "/always", "/a"].map
      (fun c => (c, .approvalResponse true true))++
  ["no", "n", "deny", "reject", "cancel", "/deny", "/no", "/n"].map
      (fun c => (c, .approvalResponse false false))

/-- A command that takes words: `starts_with`, then every word but the first. -/
def wordsCommand (name lead trimmed lower : String) : Option Submission :=
  if startsWith lower lead then
    some (.systemCommand name ((splitWhitespace trimmed).drop 1))
  else none

def statusCommand (lower : String) : Option Submission :=
  if lower = "/status" ∨ lower = "/progress" then some (.jobStatus none)
  else
    match (stripPrefix lower "/status ").orElse (fun _ => stripPrefix lower "/progress ") with
    | some rest => if trim rest = "" then none else some (.jobStatus (some (trim rest)))
    | none => none

def cancelCommand (lower : String) : Option Submission :=
  match stripPrefix lower "/cancel " with
  | some rest => if trim rest = "" then none else some (.jobCancel (trim rest))
  | none => none

def switchCommand (stx : Syntax) (lower : String) : Option Submission :=
  match stripPrefix lower "/thread " with
  | some rest =>
    if trim rest = "new" then none else (stx.parseUuid (trim rest)).map .switchThread
  | none => none

def resumeCommand (stx : Syntax) (lower : String) : Option Submission :=
  match stripPrefix lower "/resume " with
  | some rest => (stx.parseUuid (trim rest)).map .resume
  | none => none

def structuredApproval (stx : Syntax) (trimmed : String) : Option Submission :=
  if trimmed.toList.head? = some '\x7b' then
    match stx.fromJson trimmed with
    | some (.execApproval id approved always) => some (.execApproval id approved always)
    | _ => none
  else none

def firstSome : List (Option Submission) → Submission → Submission
  | [], fallback => fallback
  | some s::_, _ => s
  | none::rest, fallback => firstSome rest fallback

def parse (stx : Syntax) (content : String) : Submission :=
  let trimmed := trim content
  let lower := stx.toLowercase trimmed
  firstSome
    [controlCommands.lookup lower,
      systemCommands.lookup lower,
      wordsCommand "skills" "/skills " trimmed lower,
      laterSystemCommands.lookup lower,
      wordsCommand "model" "/model" trimmed lower,
      if lower ∈ quitCommands then some .quit else none,
      statusCommand lower,
      if lower = "/list" then some (.jobStatus none) else none,
      cancelCommand lower,
      switchCommand stx lower,
      resumeCommand stx lower,
      structuredApproval stx trimmed,
      approvalCommands.lookup lower]
    (.userInput content)

def Foreign (lower : String) (r : Option Submission) : Prop :=
  (lower ∈ quitCommands → r = none) ∧ r ≠ some .quit

theorem firstSome_ne (rs : List (Option Submission)) (s fallback : Submission)
    (h : ∀ r ∈ rs, r ≠ some s) (hf : fallback ≠ s) : firstSome rs fallback ≠ s := by
  induction rs with
  | nil => exact hf
  | cons r rs ih =>
    have hr := h r List.mem_cons_self
    have hrs := ih (fun q hq => h q (List.mem_cons_of_mem r hq))
    cases r with
    | none => exact hrs
    | some t =>
      intro e
      exact hr (congrArg some e)

theorem mem_of_lookup (table : List (String × Submission)) (key : String) (s : Submission)
    (h : table.lookup key = some s) : (key, s) ∈ table := by
  induction table with
  | nil => simp at h
  | cons p table ih =>
    obtain ⟨k, t⟩ := p
    rw [List.lookup_cons] at h
    by_cases hk : key = k
    · subst hk
      simp at h
      simp [h]
    · rw [beq_false_of_ne hk] at h
      exact List.mem_cons_of_mem _ (ih h)

theorem foreign_lookup (table : List (String × Submission)) (lower : String)
    (h : ∀ p ∈ table, p.1 ∉ quitCommands ∧ p.2 ≠ .quit) : Foreign lower (table.lookup lower) := by
  constructor
  · intro hq
    cases hl : table.lookup lower with
    | none => rfl
    | some s => exact absurd hq (h _ (mem_of_lookup table lower s hl)).1
  · intro hl
    exact (h _ (mem_of_lookup table lower _ hl)).2 rfl

theorem foreign_words (name lead trimmed lower : String)
    (h : ∀ c ∈ quitCommands, startsWith c lead = false) :
    Foreign lower (wordsCommand name lead trimmed lower) := by
  constructor
  · intro hq
    simp [wordsCommand, h lower hq]
  · unfold wordsCommand
    split <;> simp

theorem stripPrefix_none (s t : String) (h : startsWith s t = false) : stripPrefix s t = none := by
  simp [stripPrefix, h]

theorem foreign_status (lower : String) : Foreign lower (statusCommand lower) := by
  constructor
  · intro hq
    simp only [quitCommands, List.mem_cons, List.not_mem_nil, or_false] at hq
    rcases hq with rfl | rfl | rfl <;> decide
  · unfold statusCommand
    split
    · simp
    · split
      · split <;> simp
      · simp

theorem foreign_strip (lead lower : String) (f : String → Option Submission)
    (h : ∀ c ∈ quitCommands, startsWith c lead = false) (hf : ∀ s, f s ≠ some .quit) :
    Foreign lower (match stripPrefix lower lead with
      | some rest => f rest
      | none => none) := by
  constructor
  · intro hq
    rw [stripPrefix_none lower lead (h lower hq)]
  · split
    · exact hf _
    · simp

theorem foreign_list (lower : String) :
    Foreign lower (if lower = "/list" then some (.jobStatus none) else none) := by
  constructor
  · intro hq
    simp only [quitCommands, List.mem_cons, List.not_mem_nil, or_false] at hq
    rcases hq with rfl | rfl | rfl <;> decide
  · split <;> simp

theorem structured_ne_quit (stx : Syntax) (trimmed : String) :
    structuredApproval stx trimmed ≠ some .quit := by
  unfold structuredApproval
  split
  · split <;> simp
  · simp

/-- Only the three quit commands, in any case and with any padding, are
parsed as a request to quit. -/
theorem parse_eq_quit (stx : Syntax) (content : String) :
    parse stx content = .quit ↔ stx.toLowercase (trim content) ∈ quitCommands := by
  simp only [parse]
  generalize stx.toLowercase (trim content) = lower
  have hcontrol := foreign_lookup controlCommands lower (by decide)
  have hsystem := foreign_lookup systemCommands lower (by decide)
  have hskills := foreign_words "skills" "/skills " (trim content) lower (by decide)
  have hlater := foreign_lookup laterSystemCommands lower (by decide)
  have hmodel := foreign_words "model" "/model" (trim content) lower (by decide)
  have hstatus := foreign_status lower
  have hlist := foreign_list lower
  have hcancel : Foreign lower (cancelCommand lower) := foreign_strip "/cancel " lower
    (fun rest => if trim rest = "" then none else some (.jobCancel (trim rest)))
    (by decide) (fun s => by split <;> simp)
  have hswitch : Foreign lower (switchCommand stx lower) := foreign_strip "/thread " lower
    (fun rest => if trim rest = "new" then none else (stx.parseUuid (trim rest)).map .switchThread)
    (by decide) (fun s => by split <;> simp)
  have hresume : Foreign lower (resumeCommand stx lower) := foreign_strip "/resume " lower
    (fun rest => (stx.parseUuid (trim rest)).map .resume) (by decide) (fun s => by simp)
  have happroval := foreign_lookup approvalCommands lower (by decide)
  constructor
  · intro h
    by_contra hq
    refine firstSome_ne _ _ _ ?_ (by simp) h
    simp only [List.forall_mem_cons, if_neg hq]
    exact ⟨hcontrol.2, hsystem.2, hskills.2, hlater.2, hmodel.2, by simp, hstatus.2, hlist.2,
      hcancel.2, hswitch.2, hresume.2, structured_ne_quit stx _, happroval.2, by simp⟩
  · intro hq
    rw [hcontrol.1 hq, hsystem.1 hq, hskills.1 hq, hlater.1 hq, hmodel.1 hq, if_pos hq]
    rfl

end IronClaw.Submission
