import Mathlib.Data.List.Find
import IronClaw.ApprovalParams
import IronClaw.CoercionLaws
import IronClaw.JsonMap

/-!
# What a job leaves behind of a tool call

`Worker::execute_tool_inner` records the action with the redacted copy of the
parameters; `process_tool_result_job` writes the call into the event log and the
live stream with a preview of the parameters as the model chose them. The trail
of a call is the recorded action, the stored events, the broadcast events and
the failure record. The tool, its duration, the sanitizer and the printers are
given. A sensitive value is told by the preview alone, unless the schema reads
another key by it.
-/

set_option autoImplicit false

namespace IronClaw.AuditTrail
open IronClaw.JsonValue IronClaw.LlmMessage IronClaw.Hooks IronClaw.Dispatcher
open IronClaw.Coercion IronClaw.CoercionLaws IronClaw.HookSecrets IronClaw.JsonMap
open IronClaw.JsonText Lib.Text

inductive ToolRun where
  | succeeded (result : Value) (elapsed : ℕ)
  | failed (error : String) (elapsed : ℕ)
  | timedOut (elapsed : ℕ)
  deriving DecidableEq

structure Durations where
  timeout : String
  retryAfter : Option ℕ → String

inductive CallError where
  | tool (e : ToolError)
  | timeout (name : String)
  deriving DecidableEq

def displayTool (durations : Durations) : ToolError → String
  | .notFound name => "Tool " ++ name ++ " not found"
  | .executionFailed name reason => "Tool " ++ name ++ " execution failed: " ++ reason
  | .invalidParameters name reason =>
    "Invalid parameters for tool " ++ name ++ ": " ++ reason
  | .autonomousUnavailable name reason =>
    "Tool " ++ name ++ " is not available for autonomous execution: " ++ reason
  | .rateLimited name retryAfter =>
    "Tool " ++ name ++ " is rate limited, retry after " ++ durations.retryAfter retryAfter

def CallError.display (durations : Durations) : CallError → String
  | .tool e => "Tool error: " ++ displayTool durations e
  | .timeout name =>
    "Tool error: Tool " ++ name ++ " timed out after " ++ durations.timeout

structure ActionRecord where
  sequence : ℕ
  toolName : String
  input : Value
  outputRaw : Option String
  outputSanitized : Option String
  duration : ℕ
  success : Bool
  error : Option String
  deriving DecidableEq

inductive SseEvent where
  | jobMessage (jobId role content : String)
  | jobToolUse (jobId toolName : String) (input : Value)
  | jobToolResult (jobId toolName output : String)
  | jobStatus (jobId message : String)
  | jobResult (jobId status : String) (sessionId : Option String)
      (fallbackDeliverable : Option Value)
  deriving DecidableEq

structure Trail where
  actions : List ActionRecord
  events : Fields
  sse : List SseEvent
  failures : List (String × String)
  deriving DecidableEq

structure WorkerDeps where
  jobId : String
  store : Bool
  sseTx : Bool
  nextSequence : Option ℕ

/-- `truncate_for_preview` of `agentic_loop.rs`. -/
def truncateForPreview (s : String) (max : ℕ) : String :=
  if byteLen s.toList ≤ max then s
  else String.ofList (sliceTo s.toList (floorBoundary s.toList max)) ++ "..."

def textOr (data : Value) (key default : String) : String :=
  ((data.get key).bind Value.asStr).getD default

/-- The live event that `log_event` makes of a stored one. -/
def sseOf (jobId eventType : String) (data : Value) : Option SseEvent :=
  if eventType = "message" then
    some (.jobMessage jobId (textOr data "role" "assistant") (textOr data "content" ""))
  else if eventType = "tool_use" then
    some (.jobToolUse jobId (textOr data "tool_name" "unknown") ((data.get "input").getD .null))
  else if eventType = "tool_result" then
    some (.jobToolResult jobId (textOr data "tool_name" "unknown") (textOr data "output" ""))
  else if eventType = "status" then some (.jobStatus jobId (textOr data "message" ""))
  else if eventType = "result" then
    some (.jobResult jobId (textOr data "status" "completed")
      ((data.get "session_id").bind Value.asStr) (data.get "fallback_deliverable"))
  else none

def logEvent (deps : WorkerDeps) (eventType : String) (data : Value) (t : Trail) : Trail :=
  { t with
    events := if deps.store then t.events++[(eventType, data)] else t.events
    sse := if deps.sseTx then t.sse++(sseOf deps.jobId eventType data).toList else t.sse }

section

variable (agent : Agent) (schema : String → Value) (float : String → Option UInt64)
variable (deps : WorkerDeps) (durations : Durations) (execute : Value → ToolRun)
variable (pretty : Value → String)

def recordAction (name : String) (effective : Value) (sequence : ℕ) (run : ToolRun) :
    ActionRecord :=
  let input := redactParams effective (agent.sensitive name)
  match run with
  | .succeeded result elapsed =>
    ⟨sequence, name, input, some (pretty result),
      some (agent.sanitizeToolOutput name (pretty result)), elapsed, true, none⟩
  | .failed error elapsed => ⟨sequence, name, input, none, none, elapsed, false, some error⟩
  | .timedOut elapsed =>
    ⟨sequence, name, input, none, none, elapsed, false, some "Execution timeout"⟩

/-- What the caller of `execute_tool_inner` receives of a run. -/
def resultOf (name : String) : ToolRun → Except CallError String
  | .succeeded result _ => .ok (pretty result)
  | .failed error _ => .error (.tool (.executionFailed name error))
  | .timedOut _ => .error (.timeout name)

/-- `execute_tool_inner` with its records. -/
def executeRecorded (asked : Asked) (gates : Gates) (name : String) (params : Value) :
    List ActionRecord × Except CallError String :=
  match executeToolInner agent schema float asked gates name params with
  | .error e => ([], .error (.tool e))
  | .ok effective =>
    let run := execute effective
    ((deps.nextSequence.map (fun n => recordAction agent pretty name effective n run)).toList,
      resultOf pretty name run)

def toolUse (name : String) (params : Value) : Value :=
  .object [("input", .string (truncateForPreview (agent.json.print params) 500)),
    ("tool_name", .string name)]

def toolResult (name : String) (success : Bool) (output : String) : Value :=
  .object [("output", .string (truncateForPreview output 500)), ("success", .bool success),
    ("tool_name", .string name)]

/-- `process_tool_result_job` without the message for the model. -/
def processToolResultJob (name : String) (params : Value) (result : Except CallError String)
    (t : Trail) : Trail :=
  let t := logEvent deps "tool_use" (toolUse agent name params) t
  match result with
  | .ok raw =>
    logEvent deps "tool_result" (toolResult name true (agent.sanitizeToolOutput name raw)) t
  | .error e =>
    let t := if deps.store then
      { t with failures := t.failures++[(name, e.display durations)] } else t
    logEvent deps "tool_result" (toolResult name false ("Error: " ++ e.display durations)) t

def trail (asked : Asked) (gates : Gates) (name : String) (params : Value) : Trail :=
  let (actions, result) := executeRecorded agent schema float deps execute pretty asked gates
    name params
  processToolResultJob agent deps durations name params result ⟨actions, [], [], []⟩

def outcome (asked : Asked) (gates : Gates) (name : String) (params : Value) :
    Except ToolError ToolRun :=
  (executeToolInner agent schema float asked gates name params).map execute

/-- The parameters that the hooks and the preparation leave, as
`execute_tool_inner` computes them between its checks. -/
def effectiveParams (asked : Asked) (name : String) (params : Value) : Value :=
  let normalized := prepareToolParams agent schema float name params
  match run agent.json agent.hooks asked.jobMoment (jobEvent agent asked name normalized) with
  | .ok (.proceed (some text)) =>
    match agent.json.parse text with
    | some parsed => prepareToolParams agent schema float name parsed
    | none => normalized
  | _ => normalized

def SameOutside (sensitive : List String) : Value → Value → Prop
  | .object fields, .object fields' => ∀ key,
    (key ∈ sensitive → (lookup key fields).isSome = (lookup key fields').isSome) ∧
    (key ∉ sensitive → lookup key fields = lookup key fields')
  | v, v' => v = v'

structure Shows (floats : FloatPrinter) (fields fields' : Fields) (key : String) :
    Prop where
  first : ∃ before value value' after after', fields = before++(key, value)::after ∧
    fields' = before++(key, value')::after' ∧ value ≠ value'
  early : ∃ common c c' rest rest', printValue floats (.object fields) = common++c::rest ∧
    printValue floats (.object fields') = common++c'::rest' ∧ c ≠ c' ∧
    (byteLen (common++[c]) ≤ 500 ∨ byteLen (common++[c']) ≤ 500)

def PreviewedAlike (floats : FloatPrinter) (name : String)
    (fields fields' : Fields) : Prop :=
  deps.store = false ∧ deps.sseTx = false ∨
    ∀ key ∈ agent.sensitive name, ¬ Shows floats fields fields' key

inductive Runs (asked : Asked) (name : String) (params : Value) : Value → Prop where
  | prepared (h : ∀ text, run agent.json agent.hooks asked.jobMoment
      (jobEvent agent asked name (prepareToolParams agent schema float name params)) =
        .ok (.proceed (some text)) → agent.json.parse text = none) :
      Runs asked name params (prepareToolParams agent schema float name params)
  | rewritten (text : String) (parsed : Value) (h : run agent.json agent.hooks asked.jobMoment
      (jobEvent agent asked name (prepareToolParams agent schema float name params)) =
        .ok (.proceed (some text))) (hparse : agent.json.parse text = some parsed) :
      Runs asked name params (prepareToolParams agent schema float name parsed)

def Refused (asked : Asked) (gates : Gates) (name : String) (params : Value) : Prop :=
  ∀ tool, agent.tools name = some tool →
    isBlockedOrDefault gates.allowedTools name
        (tool.requiresApproval (prepareToolParams agent schema float name params)) = true ∨
      gates.limited ≠ none ∨
      (∃ e, run agent.json agent.hooks asked.jobMoment
        (jobEvent agent asked name (prepareToolParams agent schema float name params)) = .error e) ∨
      gates.cancelled = true ∨
      ∀ e, Runs agent schema float asked name params e → gates.validate e ≠ []

def RecordedAlike (asked : Asked) (gates : Gates) (name : String) (params params' : Value) :
    Prop :=
  deps.nextSequence = none ∨ Refused agent schema float asked gates name params ∨
    ∀ e e', Runs agent schema float asked name params e →
      Runs agent schema float asked name params' e' → SameOutside (agent.sensitive name) e e'

variable (sensitive : List String) (fields fields' : Fields) (floats : FloatPrinter) (asked : Asked)

theorem inner_effective (gates : Gates) (name : String) (params e : Value)
    (h : executeToolInner agent schema float asked gates name params = .ok e) :
    e = effectiveParams agent schema float asked name params := by
  unfold effectiveParams
  rcases inner_params agent schema float asked gates name params e
    (congrArg Except.toOption h) with ⟨text, parsed, hrun, hparse, rfl⟩ | ⟨hnone, rfl⟩
  · simp only [hrun, hparse]
  · simp only
    split
    · rename_i text hrun
      rw [hnone text hrun]
    · rfl

def actionsOf (name : String) (effective : Value) : Except ToolError ToolRun → List ActionRecord
  | .error _ => []
  | .ok run => (deps.nextSequence.map
      (fun n => recordAction agent pretty name effective n run)).toList

def answerOf (name : String) : Except ToolError ToolRun → Except CallError String
  | .error e => .error (.tool e)
  | .ok run => resultOf pretty name run

theorem executeRecorded_eq (gates : Gates) (name : String) (params : Value) :
    executeRecorded agent schema float deps execute pretty asked gates name params =
      (actionsOf agent deps pretty name (effectiveParams agent schema float asked name params)
          (outcome agent schema float execute asked gates name params),
        answerOf pretty name (outcome agent schema float execute asked gates name params)) := by
  unfold executeRecorded outcome
  cases hinner : executeToolInner agent schema float asked gates name params with
  | error e => rfl
  | ok effective =>
    rw [← inner_effective agent schema float asked gates name params effective hinner]
    rfl

def resultEvent (name : String) : Except CallError String → Value
  | .ok raw => toolResult name true (agent.sanitizeToolOutput name raw)
  | .error e => toolResult name false ("Error: " ++ e.display durations)

def failureOf (name : String) : Except CallError String → List (String × String)
  | .ok _ => []
  | .error e => if deps.store then [(name, e.display durations)] else []

theorem processed_eq (name : String) (params : Value) (result : Except CallError String)
    (actions : List ActionRecord) :
    processToolResultJob agent deps durations name params result ⟨actions, [], [], []⟩ =
      ⟨actions,
        if deps.store then [("tool_use", toolUse agent name params),
          ("tool_result", resultEvent agent durations name result)] else [],
        if deps.sseTx then
          [.jobToolUse deps.jobId name (.string (truncateForPreview (agent.json.print params) 500)),
            .jobToolResult deps.jobId name
              (textOr (resultEvent agent durations name result) "output" "")] else [],
        failureOf deps durations name result⟩ := by
  cases result <;> cases hstore : deps.store <;> cases hsse : deps.sseTx <;>
    simp [processToolResultJob, logEvent, hstore, hsse, failureOf, sseOf, toolUse, toolResult,
      resultEvent, textOr, Value.get, lookup, Value.asStr]

theorem runs_iff (name : String) (params e : Value) :
    Runs agent schema float asked name params e ↔
      e = effectiveParams agent schema float asked name params := by
  constructor
  · intro h
    unfold effectiveParams
    cases h with
    | prepared hkept =>
      simp only
      split
      · rename_i text hrun
        rw [hkept text hrun]
      · rfl
    | rewritten text parsed hrun hparse => simp only [hrun, hparse]
  · rintro rfl
    unfold effectiveParams
    simp only
    split
    · rename_i text hrun
      cases hparse : agent.json.parse text with
      | some parsed => exact .rewritten text parsed hrun hparse
      | none =>
        refine .prepared fun text' hrun' => ?_
        rw [hrun] at hrun'
        obtain rfl : text = text' := by simpa using hrun'
        exact hparse
    · rename_i hnone
      exact .prepared fun text hrun => absurd hrun (hnone text)

theorem refused_iff (gates : Gates) (name : String) (params : Value) :
    (∃ e, executeToolInner agent schema float asked gates name params = .error e) ↔
      Refused agent schema float asked gates name params := by
  simp only [Refused, runs_iff, forall_eq]
  unfold executeToolInner effectiveParams
  cases htool : agent.tools name with
  | none => simp
  | some tool =>
    simp only [Option.some.injEq, forall_eq']
    by_cases hblocked : isBlockedOrDefault gates.allowedTools name
        (tool.requiresApproval (prepareToolParams agent schema float name params)) = true
    · simp [hblocked]
    · rw [if_neg hblocked]
      cases gates.limited with
      | some retryAfter => simp
      | none =>
        cases hrun : run agent.json agent.hooks asked.jobMoment (jobEvent agent asked name
            (prepareToolParams agent schema float name params)) with
        | error err => cases err <;> simp
        | ok outcome =>
          cases gates.cancelled with
          | true => simp
          | false =>
            simp only [hblocked, ne_eq, not_true_eq_false, reduceCtorEq, exists_false, false_or,
              Bool.false_eq_true, if_false]
            cases outcome with
            | proceed modified =>
              cases modified with
              | none =>
                generalize gates.validate _ = errors
                cases errors <;> simp
              | some text =>
                generalize gates.validate _ = errors
                cases errors <;> simp
            | reject reason =>
              generalize gates.validate _ = errors
              cases errors <;> simp

/-! ## Redacted copies -/

theorem redacted_ordered (fields : Fields) (h : Ordered fields) :
    Ordered (redactFields sensitive fields) := by
  induction sensitive generalizing fields with
  | nil => exact h
  | cons key rest ih =>
    show Ordered (redactFields rest (if _ then _ else _))
    apply ih
    split
    · exact insert_ordered key _ fields h
    · exact h

def Wellformed (v : Value) : Prop := ∀ fields, v = .object fields → Ordered fields

/-- Two redacted copies are the same when the values are the same outside the
sensitive keys. -/
theorem redact_same_iff (v v' : Value) (hv : Wellformed v) (hv' : Wellformed v') :
    redactParams v sensitive = redactParams v' sensitive ↔ SameOutside sensitive v v' := by
  cases v with
  | object fields =>
    cases v' with
    | object fields' =>
      rw [redact_object, redact_object, SameOutside, Value.object.injEq]
      have hlookup : redactFields sensitive fields = redactFields sensitive fields' ↔
          ∀ key, lookup key (redactFields sensitive fields) =
            lookup key (redactFields sensitive fields') :=
        ⟨fun h key => by rw [h], fun h => ordered_ext _ _
          (redacted_ordered sensitive fields (hv fields rfl))
          (redacted_ordered sensitive fields' (hv' fields' rfl)) h⟩
      rw [hlookup]
      refine forall_congr' fun key => ?_
      rw [lookup_redact, lookup_redact]
      by_cases hkey : key ∈ sensitive
      · simp only [hkey, if_true, not_true_eq_false, false_implies, and_true, forall_const]
        cases lookup key fields <;> cases lookup key fields' <;> simp
      · simp only [hkey, if_false, not_false_eq_true, false_implies, true_and, forall_const]
    | null => simp [redactParams, SameOutside]
    | bool b => simp [redactParams, SameOutside]
    | number n => simp [redactParams, SameOutside]
    | string s => simp [redactParams, SameOutside]
    | array xs => simp [redactParams, SameOutside]
  | null => cases v' <;> simp [redactParams, SameOutside]
  | bool b => cases v' <;> simp [redactParams, SameOutside]
  | number n => cases v' <;> simp [redactParams, SameOutside]
  | string s => cases v' <;> simp [redactParams, SameOutside]
  | array xs => cases v' <;> simp [redactParams, SameOutside]

def ReadsOrdered : Prop :=
  ∀ text fields, agent.json.parse text = some (.object fields) → Ordered fields

theorem prepared_object (hshrinks : Shrinks (readers agent float)) (name : String)
    (fields : Fields) :
    prepareToolParams agent schema float name (.object fields) =
      .object (fields.map (fun f => (f.1, fitField (readers agent float)
        (some (resolveRefs (schema name))) fields f))) :=
  fitIn_object (readers agent float) hshrinks (some (resolveRefs (schema name))) fields

theorem prepared_ordered (hreads : ReadsOrdered agent) (hshrinks : Shrinks (readers agent float))
    (name : String) (params : Value) (h : Wellformed params) :
    Wellformed (prepareToolParams agent schema float name params) := by
  have hobject : ∀ own, Ordered own →
      Wellformed (prepareToolParams agent schema float name (.object own)) := by
    intro own hown fields heq
    rw [prepared_object agent schema float hshrinks] at heq
    rw [← Value.object.inj heq, Ordered, List.map_map]
    exact hown
  intro fields heq
  cases params with
  | object own => exact hobject own (h own rfl) fields heq
  | string s =>
    change fitIn (readers agent float) (some (resolveRefs (schema name))) (.string s) = _ at heq
    rw [fitIn_text (readers agent float) hshrinks] at heq
    rcases coerceText_cases (readers agent float) (fit (readers agent float)) s
      (resolveRefs (schema name)) with
      htext | ⟨-, -, -, hnull⟩ | ⟨-, -, ⟨n, hint⟩ | ⟨bits, -, -, hfloat⟩ | ⟨b, hbool⟩ |
        ⟨read, hread, hcontainer, hinner⟩⟩
    · cases htext.symm.trans heq
    · cases hnull.symm.trans heq
    · rw [hint] at heq
      have hplain := (ofInt_plain n).1
      rw [heq] at hplain
      cases hplain
    · rw [hfloat] at heq
      have hplain := ofFloat_plain bits
      rw [heq] at hplain
      cases hplain
    · cases hbool.symm.trans heq
    · rw [hinner] at heq
      cases read with
      | object own => exact hobject own (hreads s own hread) fields heq
      | array items =>
        have harray := fitIn_array (readers agent float) hshrinks
          (some (resolveRefs (schema name))) items
        cases harray.symm.trans heq
      | _ => cases hcontainer
  | array items =>
    have harray := fitIn_array (readers agent float) hshrinks (some (resolveRefs (schema name)))
      items
    cases harray.symm.trans heq
  | null => cases (fitIn_null (readers agent float) (some (resolveRefs (schema name)))).symm.trans heq
  | bool b =>
    cases (fitIn_bool (readers agent float) (some (resolveRefs (schema name))) b).symm.trans heq
  | number n =>
    cases (fitIn_number (readers agent float) (some (resolveRefs (schema name))) n).symm.trans heq

theorem runs_ordered (hreads : ReadsOrdered agent) (hshrinks : Shrinks (readers agent float))
    (asked : Asked) (name : String) (params e : Value) (h : Wellformed params)
    (hruns : Runs agent schema float asked name params e) : Wellformed e := by
  cases hruns with
  | prepared _ => exact prepared_ordered agent schema float hreads hshrinks name params h
  | rewritten text parsed _ hparse =>
    refine prepared_ordered agent schema float hreads hshrinks name parsed fun fields heq => ?_
    exact hreads text fields (heq ▸ hparse)

/-! ## What a schema makes of the other keys -/

theorem lookup_map (g : String × Value → Value) (fields : Fields) (key : String) :
    lookup key (fields.map (fun f => (f.1, g f))) =
      (lookup key fields).map (fun v => g (key, v)) := by
  induction fields with
  | nil => rfl
  | cons f fields ih =>
    obtain ⟨k, v⟩ := f
    rw [List.map_cons, lookup, lookup]
    by_cases hk : k = key
    · rw [if_pos hk, if_pos hk, hk, Option.map_some]
    · rw [if_neg hk, if_neg hk, ih]

def ReadAlike (name : String) (fields fields' : Fields) : Prop :=
  ∀ key ∉ agent.sensitive name, fieldPlace (some (resolveRefs (schema name))) fields key =
    fieldPlace (some (resolveRefs (schema name))) fields' key

theorem prepared_same (hshrinks : Shrinks (readers agent float)) (name : String)
    (fields fields' : Fields)
    (hsame : SameOutside (agent.sensitive name) (.object fields) (.object fields'))
    (hread : ReadAlike agent schema name fields fields') :
    SameOutside (agent.sensitive name) (prepareToolParams agent schema float name (.object fields))
      (prepareToolParams agent schema float name (.object fields')) := by
  rw [prepared_object agent schema float hshrinks, prepared_object agent schema float hshrinks]
  intro key
  obtain ⟨hsecret, hopen⟩ := hsame key
  rw [lookup_map, lookup_map]
  constructor
  · intro hkey
    rw [Option.isSome_map, Option.isSome_map]
    exact hsecret hkey
  · intro hkey
    rw [hopen hkey]
    refine congrArg (fun g => (lookup key fields').map g) (funext fun v => ?_)
    rw [fitField, fitField, emptied, emptied, fieldSchema, fieldSchema, hread key hkey]

/-- The hooks see the redacted copy, so they cannot tell parameters apart that
are prepared alike. -/
theorem recorded_alike (hreads : ReadsOrdered agent) (hshrinks : Shrinks (readers agent float))
    (asked : Asked) (gates : Gates) (name : String) (fields fields' : Fields)
    (hordered : Ordered fields) (hordered' : Ordered fields')
    (hsame : SameOutside (agent.sensitive name) (.object fields) (.object fields'))
    (hread : ReadAlike agent schema name fields fields') :
    RecordedAlike agent schema float deps asked gates name (.object fields) (.object fields') := by
  have hprepared := prepared_same agent schema float hshrinks name fields fields' hsame hread
  have hwell : Wellformed (.object fields) := fun own h => Value.object.inj h ▸ hordered
  have hwell' : Wellformed (.object fields') := fun own h => Value.object.inj h ▸ hordered'
  have hredacted := (redact_same_iff _ _ _
    (prepared_ordered agent schema float hreads hshrinks name _ hwell)
    (prepared_ordered agent schema float hreads hshrinks name _ hwell')).mpr hprepared
  have hevent : jobEvent agent asked name
        (prepareToolParams agent schema float name (.object fields)) =
      jobEvent agent asked name
        (prepareToolParams agent schema float name (.object fields')) := by
    rw [jobEvent, jobEvent, hredacted]
  right
  right
  intro e e' he he'
  cases he with
  | prepared hkept =>
    cases he' with
    | prepared _ => exact hprepared
    | rewritten text parsed hrun hparse =>
      rw [← hevent] at hrun
      rw [hkept text hrun] at hparse
      cases hparse
  | rewritten text parsed hrun hparse =>
    cases he' with
    | prepared hkept =>
      rw [hevent] at hrun
      rw [hkept text hrun] at hparse
      cases hparse
    | rewritten text' parsed' hrun' hparse' =>
      rw [← hevent, hrun] at hrun'
      obtain rfl : text = text' := by simpa using hrun'
      obtain rfl : parsed = parsed' := by simpa [hparse] using hparse'
      exact (redact_same_iff _ _ _
        (prepared_ordered agent schema float hreads hshrinks name parsed
          fun own h => hreads text own (h ▸ hparse))
        (prepared_ordered agent schema float hreads hshrinks name parsed
          fun own h => hreads text own (h ▸ hparse))).mp rfl

def IsVariant (schema variant : Value) : Prop :=
  ∃ combinator ∈ ["allOf", "oneOf", "anyOf"], variant ∈ variantsOf schema combinator

inductive Variant : Value → Value → Prop where
  | direct (schema variant : Value) (h : IsVariant schema variant) : Variant schema variant
  | nested (schema outer variant : Value) (h : IsVariant schema outer)
      (hin : Variant outer variant) : Variant schema variant

def Untagged (sensitive : List String) (schema : Value) : Prop :=
  ∀ variant, Variant schema variant → ∀ props, propertiesOf variant = some props →
    ∀ p ∈ props, p.1 ∈ sensitive → discriminator p.2 = none

theorem matches_same (hsame : SameOutside sensitive (.object fields) (.object fields'))
    (variant : Value)
    (h : ∀ props, propertiesOf variant = some props → ∀ p ∈ props, p.1 ∈ sensitive →
      discriminator p.2 = none) :
    matchesVariant fields variant = matchesVariant fields' variant := by
  unfold matchesVariant
  cases hprops : propertiesOf variant with
  | none => rfl
  | some props =>
    refine congrArg (· && _) ?_
    rw [Bool.eq_iff_iff, List.all_eq_true, List.all_eq_true]
    refine forall₂_congr fun p hp => ?_
    by_cases hsecret : p.1 ∈ sensitive
    · rw [h props hprops p hp hsecret]
    · rw [(hsame p.1).2 hsecret]

theorem variants_same (hsame : SameOutside sensitive (.object fields) (.object fields')) (left : ℕ)
    (schema : Value) (h : Untagged sensitive schema) :
    sameVariants fields fields' left schema = true := by
  induction left generalizing schema with
  | zero => rfl
  | succ left ih =>
    have hinner : ∀ variant, IsVariant schema variant →
        sameVariants fields fields' left variant = true :=
      fun variant hin => ih variant fun w hw => h w (.nested _ _ _ hin hw)
    simp only [sameVariants, Bool.and_eq_true, List.all_eq_true, decide_eq_true_eq]
    refine ⟨fun variant hin => hinner variant ⟨"allOf", by decide, hin⟩, fun key hkey => ⟨?_, ?_⟩⟩
    · refine List.find?_congr fun variant hin => ?_
      exact matches_same sensitive fields fields' hsame variant
        (h variant (.direct _ _ ⟨key, List.mem_cons_of_mem _ hkey, hin⟩))
    · rw [Option.all_eq_true]
      exact fun variant hfound => hinner variant
        ⟨key, List.mem_cons_of_mem _ hkey, List.mem_of_find?_eq_some hfound⟩

/-! ## Texts that are cut -/

def cut (max : ℕ) (s : List Char) : List Char :=
  if byteLen s ≤ max then s else sliceTo s max++['.', '.', '.']

theorem preview_cut (s : String) (max : ℕ) :
    (truncateForPreview s max).toList = cut max s.toList := by
  rw [truncateForPreview, cut]
  split
  · rfl
  · rw [String.toList_append, String.toList_ofList, slice_floor]
    rfl

theorem first_difference (s t : List Char) : s <+: t ∨ t <+: s ∨
    ∃ common c c' rest rest', s = common++c::rest ∧ t = common++c'::rest' ∧ c ≠ c' := by
  induction s generalizing t with
  | nil => exact .inl List.nil_prefix
  | cons a s ih =>
    cases t with
    | nil => exact .inr (.inl List.nil_prefix)
    | cons b t =>
      by_cases hab : a = b
      · subst hab
        rcases ih t with h | h | ⟨common, c, c', rest, rest', hs, ht, hne⟩
        · exact .inl (List.cons_prefix_cons.mpr ⟨rfl, h⟩)
        · exact .inr (.inl (List.cons_prefix_cons.mpr ⟨rfl, h⟩))
        · exact .inr (.inr ⟨a::common, c, c', rest, rest', by rw [hs]; rfl, by rw [ht]; rfl, hne⟩)
      · exact .inr (.inr ⟨[], a, b, s, t, rfl, rfl, hab⟩)

theorem prefix_sliceTo (p q : List Char) (n : ℕ) (h : byteLen p ≤ n) : p <+: sliceTo (p++q) n := by
  induction p generalizing n with
  | nil => exact List.nil_prefix
  | cons c p ih =>
    rw [byteLen] at h
    rw [List.cons_append, sliceTo, if_pos (by omega)]
    exact List.cons_prefix_cons.mpr ⟨rfl, ih _ (by omega)⟩

theorem sliceTo_stop (p rest : List Char) (c : Char) (n : ℕ) (h : byteLen p ≤ n)
    (hc : n < byteLen (p++[c])) : sliceTo (p++c::rest) n = p := by
  induction p generalizing n with
  | nil =>
    rw [List.nil_append, byteLen, byteLen] at hc
    rw [List.nil_append, sliceTo, if_neg (by omega)]
  | cons d p ih =>
    rw [byteLen] at h
    rw [List.cons_append, byteLen] at hc
    rw [List.cons_append, sliceTo, if_pos (by omega), ih _ (by omega) (by omega)]

theorem prefix_cut (p q : List Char) (max : ℕ) (h : byteLen p ≤ max) : p <+: cut max (p++q) := by
  rw [cut]
  split
  · exact List.prefix_append p q
  · exact (prefix_sliceTo p q max h).trans (List.prefix_append _ _)

theorem same_char (p : List Char) (c c' : Char) (u : List Char) (h : p++[c] <+: u)
    (h' : p++[c'] <+: u) : c = c' := by
  obtain ⟨r, hr⟩ := h
  obtain ⟨r', hr'⟩ := h'
  rw [← hr', List.append_assoc, List.append_assoc] at hr
  exact (List.cons.inj (List.append_cancel_left hr)).1

/-- A difference that is not cut off is seen: the mark of the cut does not end
like an object. -/
theorem cut_apart (max : ℕ) (common rest rest' : List Char) (c c' : Char) (hne : c ≠ c')
    (hc : byteLen (common++[c]) ≤ max) (hlast : (common++c::rest).getLast? = some '}') :
    cut max (common++c::rest) ≠ cut max (common++c'::rest') := by
  intro heq
  have hsplit : ∀ d r, common++d::r = (common++[d])++r := by
    intro d r
    rw [List.append_assoc, List.singleton_append]
  have hbytes : byteLen common ≤ max := by
    rw [byteLen_append] at hc
    omega
  have hseen : common++[c] <+: cut max (common++c'::rest') := by
    rw [← heq, hsplit c rest]
    exact prefix_cut _ rest max hc
  by_cases hfits : byteLen (common++[c']) ≤ max
  · refine hne (same_char common c c' _ hseen ?_)
    rw [hsplit c' rest']
    exact prefix_cut _ rest' max hfits
  · have hlong : ¬ byteLen (common++c'::rest') ≤ max := by
      rw [hsplit c' rest', byteLen_append]
      omega
    have hcut : cut max (common++c'::rest') = common++['.', '.', '.'] := by
      rw [cut, if_neg hlong, sliceTo_stop common rest' c' max hbytes (by omega)]
    rw [hcut] at heq
    rw [cut] at heq
    split at heq
    · rw [heq] at hlast
      simp at hlast
    · have hslice := (prefix_sliceTo (common++[c]) rest max hc).length_le
      have hlength := congrArg List.length heq
      rw [← hsplit c rest] at hslice
      simp only [List.length_append, List.length_cons, List.length_nil] at hslice hlength
      omega

theorem cut_alike (max : ℕ) (common rest rest' : List Char) (c c' : Char)
    (hc : max < byteLen (common++[c])) (hc' : max < byteLen (common++[c'])) :
    cut max (common++c::rest) = cut max (common++c'::rest') := by
  have hlong : ∀ d r, max < byteLen (common++[d]) → ¬ byteLen (common++d::r) ≤ max := by
    intro d r hd
    rw [byteLen_append] at hd ⊢
    rw [byteLen, byteLen] at hd
    rw [byteLen]
    omega
  rw [cut, cut, if_neg (hlong c rest hc), if_neg (hlong c' rest' hc')]
  by_cases hcommon : byteLen common ≤ max
  · rw [sliceTo_stop common rest c max hcommon hc, sliceTo_stop common rest' c' max hcommon hc']
  · rw [sliceTo_within common _ max (by omega), sliceTo_within common _ max (by omega)]

theorem fields_last (fields : Fields) (start : List Char) :
    (start++printFields floats fields).getLast? = some '}' := by
  induction fields generalizing start with
  | nil => simp [printFields]
  | cons f fields ih =>
    obtain ⟨k, x⟩ := f
    have hsplit : start++printFields floats ((k, x)::fields) =
        (start++(',' ::(printString k++ ':' ::printValue floats x)))++
          printFields floats fields := by
      simp [printFields]
    rw [hsplit]
    exact ih _

theorem object_last (fields : Fields) :
    (printValue floats (.object fields)).getLast? = some '}' := by
  cases fields with
  | nil => rfl
  | cons f fields =>
    obtain ⟨k, x⟩ := f
    have hsplit : printValue floats (.object ((k, x)::fields)) =
        ('{' ::(printString k++ ':' ::printValue floats x))++printFields floats fields := by
      simp [printValue]
    rw [hsplit]
    exact fields_last floats fields _

theorem object_leads (fields fields' : Fields) (hvalid : ValidFields fields)
    (hvalid' : ValidFields fields')
    (h : printValue floats (.object fields) <+: printValue floats (.object fields')) :
    fields = fields' := by
  obtain ⟨rest, hrest⟩ := h
  cases fields with
  | nil =>
    cases fields' with
    | nil => rfl
    | cons f fields' =>
      obtain ⟨k, x⟩ := f
      simp only [printValue, printString, List.cons_append, List.cons.injEq, true_and] at hrest
      exact absurd hrest.1 (by decide)
  | cons f fields =>
    obtain ⟨k, x⟩ := f
    cases fields' with
    | nil =>
      simp only [printValue, printString, List.cons_append, List.cons.injEq, true_and] at hrest
      exact absurd hrest.1 (by decide)
    | cons f fields' =>
      obtain ⟨l, y⟩ := f
      have htails : printFields floats ((k, x)::fields)++rest =
          printFields floats ((l, y)::fields')++[] := by
        rw [List.append_nil, printFields, printFields]
        rw [printValue, printValue] at hrest
        exact congrArg (List.cons ',') (List.cons.inj hrest).2
      exact (fields_delimited floats _ _ rest [] hvalid hvalid' htails).1

/-! ## The first key that differs -/

theorem same_keys (hordered : Ordered fields) (hordered' : Ordered fields')
    (hsame : SameOutside sensitive (.object fields) (.object fields')) :
    fields.map Prod.fst = fields'.map Prod.fst := by
  have hblank : fields.map (fun f => (f.1, Value.null)) =
      fields'.map (fun f => (f.1, Value.null)) := by
    apply ordered_ext
    · rw [Ordered, List.map_map]
      exact hordered
    · rw [Ordered, List.map_map]
      exact hordered'
    · intro key
      rw [lookup_map (fun _ => .null), lookup_map (fun _ => .null)]
      obtain ⟨hsecret, hopen⟩ := hsame key
      by_cases hkey : key ∈ sensitive
      · have hsome := hsecret hkey
        revert hsome
        cases lookup key fields <;> cases lookup key fields' <;> simp
      · rw [hopen hkey]
  have hkeys := congrArg (List.map Prod.fst) hblank
  rwa [List.map_map, List.map_map] at hkeys

theorem first_field (hkeys : fields.map Prod.fst = fields'.map Prod.fst) (hne : fields ≠ fields') :
    ∃ before key value value' after after', fields = before++(key, value)::after ∧
      fields' = before++(key, value')::after' ∧ value ≠ value' := by
  induction fields generalizing fields' with
  | nil => exact absurd (List.map_eq_nil_iff.mp hkeys.symm).symm hne
  | cons f fields ih =>
    obtain ⟨key, value⟩ := f
    cases fields' with
    | nil => cases hkeys
    | cons f' fields' =>
      obtain ⟨key', value'⟩ := f'
      rw [List.map_cons, List.map_cons, List.cons.injEq] at hkeys
      obtain ⟨rfl, hkeys⟩ := hkeys
      by_cases hvalue : value = value'
      · subst hvalue
        obtain ⟨before, k, v, v', after, after', hfields, hfields', hdiffers⟩ :=
          ih fields' hkeys fun heq => hne (by rw [heq])
        exact ⟨(key, value)::before, k, v, v', after, after', by rw [hfields]; rfl,
          by rw [hfields']; rfl, hdiffers⟩
      · exact ⟨[], key, value, value', fields, fields', rfl, rfl, hvalue⟩

theorem first_sensitive (hordered : Ordered fields) (hordered' : Ordered fields')
    (hsame : SameOutside sensitive (.object fields) (.object fields')) (hne : fields ≠ fields') :
    ∃ key ∈ sensitive, ∃ before value value' after after', fields = before++(key, value)::after ∧
      fields' = before++(key, value')::after' ∧ value ≠ value' := by
  obtain ⟨before, key, value, value', after, after', hfields, hfields', hdiffers⟩ :=
    first_field fields fields' (same_keys sensitive fields fields' hordered hordered' hsame) hne
  refine ⟨key, ?_, before, value, value', after, after', hfields, hfields', hdiffers⟩
  by_contra hkey
  have hlookup := (hsame key).2 hkey
  rw [mem_lookup key value fields hordered (by simp [hfields]),
    mem_lookup key value' fields' hordered' (by simp [hfields'])] at hlookup
  exact hdiffers (Option.some.inj hlookup)

/-- The preview tells two objects apart when the first sensitive key that differs
shows its difference before the cut. -/
theorem preview_same_iff (hprint : ∀ v, (agent.json.print v).toList = printValue floats v)
    (name : String) (fields fields' : Fields) (hvalid : ValidFields fields)
    (hvalid' : ValidFields fields') (hordered : Ordered fields) (hordered' : Ordered fields')
    (hsame : SameOutside (agent.sensitive name) (.object fields) (.object fields')) :
    truncateForPreview (agent.json.print (.object fields)) 500 =
        truncateForPreview (agent.json.print (.object fields')) 500 ↔
      ∀ key ∈ agent.sensitive name, ¬ Shows floats fields fields' key := by
  rw [← String.toList_inj, preview_cut, preview_cut, hprint, hprint]
  constructor
  · rintro heq key - ⟨-, common, c, c', rest, rest', htext, htext', hne, hfits⟩
    have hlast := object_last floats fields
    have hlast' := object_last floats fields'
    rw [htext] at heq hlast
    rw [htext'] at heq hlast'
    rcases hfits with hfits | hfits
    · exact cut_apart 500 common rest rest' c c' hne hfits hlast heq
    · exact cut_apart 500 common rest' rest c' c hne.symm hfits hlast' heq.symm
  · intro hhidden
    by_cases hfields : fields = fields'
    · rw [hfields]
    · obtain ⟨key, hkey, hfirst⟩ := first_sensitive (agent.sensitive name) fields fields' hordered
        hordered' hsame hfields
      rcases first_difference (printValue floats (.object fields))
        (printValue floats (.object fields')) with
        hprefix | hprefix | ⟨common, c, c', rest, rest', htext, htext', hne⟩
      · exact absurd (object_leads floats fields fields' hvalid hvalid' hprefix) hfields
      · exact absurd (object_leads floats fields' fields hvalid' hvalid hprefix).symm hfields
      · have hlate : ¬ (byteLen (common++[c]) ≤ 500 ∨ byteLen (common++[c']) ≤ 500) :=
          fun hearly => hhidden key hkey
            ⟨hfirst, common, c, c', rest, rest', htext, htext', hne, hearly⟩
        rw [htext, htext']
        exact cut_alike 500 common rest rest' c c' (by omega) (by omega)

/-- Two calls whose parameters differ in sensitive values and which have the same
outcome leave the same trail exactly when no sensitive key shows its difference
in a preview that is kept, and what the tool would be run with, if it is
recorded, is the same outside the sensitive keys. A schema that no sensitive key
tags reads the other keys alike, whatever the hooks do. -/
theorem same_trail_iff (hprint : ∀ v, (agent.json.print v).toList = printValue floats v)
    (hreads : ReadsOrdered agent) (hshrinks : Shrinks (readers agent float)) (asked : Asked)
    (gates : Gates) (name : String) (fields fields' : Fields) (hvalid : ValidFields fields)
    (hvalid' : ValidFields fields') (hordered : Ordered fields) (hordered' : Ordered fields')
    (hsame : SameOutside (agent.sensitive name) (.object fields) (.object fields'))
    (h : outcome agent schema float execute asked gates name (.object fields) =
      outcome agent schema float execute asked gates name (.object fields')) :
    (trail agent schema float deps durations execute pretty asked gates name (.object fields) =
        trail agent schema float deps durations execute pretty asked gates name (.object fields') ↔
      PreviewedAlike agent deps floats name fields fields' ∧
        RecordedAlike agent schema float deps asked gates name (.object fields) (.object fields')) ∧
    (ReadAlike agent schema name fields fields' →
      RecordedAlike agent schema float deps asked gates name (.object fields) (.object fields')) ∧
    (Untagged (agent.sensitive name) (resolveRefs (schema name)) →
      RecordedAlike agent schema float deps asked gates name (.object fields)
        (.object fields')) := by
  have hread := recorded_alike agent schema float deps hreads hshrinks asked gates name fields
    fields' hordered hordered' hsame
  refine ⟨?_, hread, fun huntagged => hread fun key _ => ?_⟩
  · unfold trail
    simp only [executeRecorded_eq, processed_eq, ← h, Trail.mk.injEq, and_true]
    rw [and_comm]
    apply and_congr
    · -- the events differ in the preview alone
      rw [PreviewedAlike, ← preview_same_iff agent floats hprint name fields fields' hvalid hvalid'
        hordered hordered' hsame]
      cases hstore : deps.store <;> cases hsse : deps.sseTx <;> simp [toolUse]
    · have hwell : ∀ own : Fields, Ordered own → Wellformed (.object own) :=
        fun own hown _ heq => Value.object.inj heq ▸ hown
      have hruns : (∀ e e', Runs agent schema float asked name (.object fields) e →
          Runs agent schema float asked name (.object fields') e' →
            SameOutside (agent.sensitive name) e e') ↔
          redactParams (effectiveParams agent schema float asked name (.object fields))
              (agent.sensitive name) =
            redactParams (effectiveParams agent schema float asked name (.object fields'))
              (agent.sensitive name) := by
        simp only [runs_iff, forall_eq, forall_eq_apply_imp_iff]
        refine (redact_same_iff _ _ _ ?_ ?_).symm
        · exact runs_ordered agent schema float hreads hshrinks asked name _ _ (hwell fields hordered)
            ((runs_iff agent schema float asked name _ _).mpr rfl)
        · exact runs_ordered agent schema float hreads hshrinks asked name _ _ (hwell fields' hordered')
            ((runs_iff agent schema float asked name _ _).mpr rfl)
      rw [RecordedAlike, hruns, ← refused_iff]
      unfold outcome
      cases hinner : executeToolInner agent schema float asked gates name (.object fields) with
      | error e => simp [actionsOf, Except.map]
      | ok effective =>
        cases hseq : deps.nextSequence with
        | none => simp [actionsOf, hseq, Except.map]
        | some n =>
          simp only [Except.map, actionsOf, hseq]
          cases execute effective <;> simp [recordAction]
  · have hvariants := variants_same (agent.sensitive name) fields fields' hsame
      (maxCombinatorDepth+1) (resolveRefs (schema name)) huntagged
    rw [fieldPlace, fieldPlace, Option.bind_some, Option.bind_some,
      fieldSchemas_same fields fields' _ hvariants]

end

def quietAgent : Agent := { postAgent with hooks := [] }

def tokenParams (token : String) : Value := .object [("token", .string token)]

def durations : Durations := ⟨"60s", fun _ => "None"⟩

def steadyTool (_ : Value) : ToolRun := .succeeded .null 3

def lateFields (token : String) : Fields :=
  [("note", .string (String.ofList (List.replicate 500 'a'))), ("token", .string token)]

theorem quiet_reads : ReadsOrdered quietAgent := by
  intro text fields hread
  simp only [quietAgent, postAgent, postJson] at hread
  split at hread
  · cases hread
    simp only [Ordered, List.map_cons, List.map_nil]
    decide
  · split at hread
    · cases hread
      exact (ordered_cons _ _ _).mpr ⟨by simp, ordered_nil⟩
    · cases hread

theorem quiet_shrinks : Shrinks (readers quietAgent (fun _ => none)) := by
  intro text v hread
  simp only [readers, quietAgent, postAgent, postJson] at hread
  split at hread
  · next htext =>
    cases hread
    rw [htext]
    decide
  · split at hread
    · next htext =>
      cases hread
      rw [htext]
      decide
    · cases hread

theorem post_untagged : Untagged ["token"] (resolveRefs postSchema) := by
  intro variant hvariant
  have hnone : ∀ v, ¬ IsVariant (resolveRefs postSchema) v := by
    rintro v ⟨combinator, hcombinator, hin⟩
    have hempty : ∀ c ∈ ["allOf", "oneOf", "anyOf"],
        variantsOf (resolveRefs postSchema) c = [] := by
      decide
    rw [hempty combinator hcombinator] at hin
    cases hin
  cases hvariant with
  | direct _ _ h => exact absurd h (hnone variant)
  | nested _ outer _ h _ => exact absurd h (hnone outer)

def lateOpening : List Char :=
  '{' ::(printString "note"++ ':' ::printString (String.ofList (List.replicate 500 'a')))

theorem letters_length (n : ℕ) : byteLen ((List.replicate n 'a').flatMap escape) = n := by
  induction n with
  | zero => rfl
  | succ n ih =>
    rw [List.replicate_succ, List.flatMap_cons, byteLen_append, ih, Nat.add_comm]
    rfl

theorem opening_long : 500 < byteLen lateOpening := by
  have hbrace := Char.utf8Size_pos '{'
  simp only [lateOpening, printString, String.toList_ofList, byteLen, byteLen_append,
    letters_length]
  omega

theorem late_text (token : String) : printValue plainFloats (.object (lateFields token)) =
    lateOpening++printFields plainFloats [("token", .string token)] := by
  rw [lateFields, printValue, lateOpening, List.cons_append, List.append_assoc, List.cons_append]
  rfl

theorem late_hidden (token token' : String) :
    ¬ Shows plainFloats (lateFields token) (lateFields token') "token" := by
  rintro ⟨-, common, c, c', rest, rest', htext, htext', hne, hearly⟩
  have hlong := opening_long
  rw [late_text] at htext htext'
  -- the texts begin alike up to the token
  have hbehind : lateOpening <+: common := by
    rcases List.prefix_or_prefix_of_prefix (⟨_, rfl⟩ : lateOpening <+: _)
      (⟨c::rest, htext.symm⟩ : common <+: _) with h | h
    · exact h
    · obtain ⟨tail, htail⟩ := h
      cases tail with
      | nil => rw [← htail, List.append_nil]
      | cons d tail =>
        rw [← htail, List.append_assoc] at htext htext'
        have hd := (List.cons.inj (List.append_cancel_left htext)).1
        have hd' := (List.cons.inj (List.append_cancel_left htext')).1
        exact absurd (hd.symm.trans hd') hne
  obtain ⟨tail, rfl⟩ := hbehind
  simp only [byteLen_append] at hearly
  omega

theorem late_ordered (token : String) : Ordered (lateFields token) := by
  simp only [Ordered, lateFields, List.map_cons, List.map_nil]
  decide

theorem quiet_outcome (params : Value) :
    outcome quietAgent (fun _ => postSchema) (fun _ => none) steadyTool postAsked (openGates "post")
      "post" params = .ok (.succeeded .null 3) := by rfl

/-- With a database and a live stream the calls leave one trail: the token is cut
off the preview and redacted in the recorded action. -/
theorem late_token_same_trail :
    trail quietAgent (fun _ => postSchema) (fun _ => none) ⟨"1", true, true, some 0⟩ durations
        steadyTool printed postAsked (openGates "post") "post" (.object (lateFields "sk-1")) =
      trail quietAgent (fun _ => postSchema) (fun _ => none) ⟨"1", true, true, some 0⟩ durations
        steadyTool printed postAsked (openGates "post") "post" (.object (lateFields "sk-2")) := by
  have hsame : SameOutside ["token"] (.object (lateFields "sk-1"))
      (.object (lateFields "sk-2")) := by
    intro key
    constructor
    · intro hkey
      rw [List.mem_singleton.mp hkey]
      rfl
    · intro hkey
      have hne : ¬ "token" = key := fun h => hkey (List.mem_singleton.mpr h.symm)
      simp only [lateFields, lookup, if_neg hne]
  have htrail := same_trail_iff quietAgent (fun _ => postSchema) (fun _ => none)
    ⟨"1", true, true, some 0⟩ durations steadyTool printed plainFloats
    (fun v => String.toList_ofList) quiet_reads quiet_shrinks postAsked (openGates "post") "post"
    (lateFields "sk-1") (lateFields "sk-2") ⟨trivial, trivial, trivial⟩ ⟨trivial, trivial, trivial⟩
    (late_ordered "sk-1") (late_ordered "sk-2") hsame
    ((quiet_outcome _).trans (quiet_outcome _).symm)
  refine htrail.1.mpr ⟨.inr fun key hkey => ?_, htrail.2.2 post_untagged⟩
  obtain rfl : key = "token" := List.mem_singleton.mp hkey
  exact late_hidden "sk-1" "sk-2"

theorem token_same (token token' : String) :
    SameOutside ["token"] (tokenParams token) (tokenParams token') := by
  intro key
  constructor
  · intro hkey
    rw [List.mem_singleton.mp hkey]
    rfl
  · intro hkey
    have hne : ¬ "token" = key := fun h => hkey (List.mem_singleton.mpr h.symm)
    simp only [lookup, if_neg hne]

/-- With a database the token stands in the stored event. -/
theorem token_in_trail :
    ¬ ∀ (agent : Agent) (schema : String → Value) (float : String → Option UInt64)
        (deps : WorkerDeps) (durations : Durations) (execute : Value → ToolRun)
        (pretty : Value → String) (asked : Asked) (gates : Gates) (name : String)
        (fields fields' : Fields),
      SameOutside (agent.sensitive name) (.object fields) (.object fields') →
      outcome agent schema float execute asked gates name (.object fields) =
        outcome agent schema float execute asked gates name (.object fields') →
      trail agent schema float deps durations execute pretty asked gates name (.object fields) =
        trail agent schema float deps durations execute pretty asked gates name
          (.object fields') := by
  intro h
  have hsame := h quietAgent (fun _ => postSchema) (fun _ => none) ⟨"1", true, true, some 0⟩
    durations steadyTool printed postAsked (openGates "post") "post"
    [("token", .string "sk-1")] [("token", .string "sk-2")] (token_same "sk-1" "sk-2")
    ((quiet_outcome _).trans (quiet_outcome _).symm)
  exact absurd (congrArg Trail.events hsame) (by decide)

end IronClaw.AuditTrail
