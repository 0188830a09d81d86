import IronClaw.JsonValue

/-!
# The hook registry

Hooks of `hooks/hook.rs` and the chain that `hooks/registry.rs` runs. The
registry holds the hooks in the order of their priorities. A hook may keep
state of its own, so what it answers depends on the event and on the moment
it is asked at.
-/

set_option autoImplicit false

namespace IronClaw.Hooks
open IronClaw.JsonValue

inductive HookPoint where
  | beforeInbound
  | beforeToolCall
  | beforeOutbound
  | onSessionStart
  | onSessionEnd
  | transformResponse
  deriving DecidableEq

inductive HookEvent where
  | inbound (userId channel content : String) (threadId : Option String)
  | toolCall (toolName : String) (parameters : Value) (userId context : String)
  | outbound (userId channel content : String) (threadId : Option String)
  | sessionStart (userId sessionId : String)
  | sessionEnd (userId sessionId : String)
  | responseTransform (userId threadId response : String)
  deriving DecidableEq

def HookEvent.hookPoint : HookEvent → HookPoint
  | .inbound _ _ _ _ => .beforeInbound
  | .toolCall _ _ _ _ => .beforeToolCall
  | .outbound _ _ _ _ => .beforeOutbound
  | .sessionStart _ _ => .onSessionStart
  | .sessionEnd _ _ => .onSessionEnd
  | .responseTransform _ _ _ => .transformResponse

inductive HookOutcome where
  | proceed (modified : Option String)
  | reject (reason : String)
  deriving DecidableEq

inductive HookFailureMode where
  | failOpen
  | failClosed
  deriving DecidableEq

inductive HookError where
  | executionFailed (reason : String)
  | timeout (duration : String)
  | rejected (reason : String)
  deriving DecidableEq

def HookError.display : HookError → String
  | .executionFailed reason => "Hook execution failed: " ++ reason
  | .timeout duration => "Hook timed out after " ++ duration
  | .rejected reason => "Hook rejected: " ++ reason

inductive HookRun where
  | finished (outcome : HookOutcome)
  | failed (error : HookError)
  | elapsed
  deriving DecidableEq

structure Hook where
  name : String
  hookPoints : List HookPoint
  failureMode : HookFailureMode
  timeout : String
  execute : ℕ → HookEvent → HookRun

/-- `serde_json::from_str` and `serde_json::to_string`. -/
structure Json where
  parse : String → Option Value
  print : Value → String

def HookEvent.applyModification (json : Json) (modified : String) : HookEvent → HookEvent
  | .inbound u c _ t => .inbound u c modified t
  | .outbound u c _ t => .outbound u c modified t
  | .toolCall n p u c =>
    match json.parse modified with
    | some parsed => .toolCall n parsed u c
    | none => .toolCall n p u c
  | .responseTransform u t _ => .responseTransform u t modified
  | e => e

def extractContent (json : Json) : HookEvent → String
  | .inbound _ _ content _ => content
  | .outbound _ _ content _ => content
  | .toolCall _ parameters _ _ => json.print parameters
  | .responseTransform _ _ response => response
  | .sessionStart _ sessionId => sessionId
  | .sessionEnd _ sessionId => sessionId

def runChain (json : Json) (moment : ℕ) : List Hook → HookEvent → Except HookError HookEvent
  | [], e => .ok e
  | h::hs, e =>
    match h.execute moment e, h.failureMode with
    | .finished (.reject reason), _ => .error (.rejected reason)
    | .finished (.proceed (some value)), _ =>
      runChain json moment hs (e.applyModification json value)
    | .finished (.proceed none), _ => runChain json moment hs e
    | .failed _, .failOpen => runChain json moment hs e
    | .failed err, .failClosed =>
      .error (.executionFailed ("Hook '" ++ h.name ++ "' failed: " ++ err.display))
    | .elapsed, .failOpen => runChain json moment hs e
    | .elapsed, .failClosed => .error (.timeout h.timeout)

def run (json : Json) (hooks : List Hook) (moment : ℕ) (event : HookEvent) :
    Except HookError HookOutcome :=
  let matching := hooks.filter (fun h => h.hookPoints.contains event.hookPoint)
  if matching.isEmpty then .ok (.proceed none)
  else match runChain json moment matching event with
  | .error err => .error err
  | .ok current =>
    if extractContent json current ≠ extractContent json event then
      .ok (.proceed (some (extractContent json current)))
    else .ok (.proceed none)

end IronClaw.Hooks
