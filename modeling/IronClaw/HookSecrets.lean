import IronClaw.Coercion
import IronClaw.Dispatcher
import IronClaw.JsonText

/-!
# Sensitive parameters and the hooks before a tool call

Chat and jobs show the hooks a redacted copy of the parameters and read the
text that the hooks return. `ChatDelegate::execute_tool_calls` puts the
sensitive values back into what it has read; `Worker::execute_tool_inner` does
not, so a tool that a job calls runs with the marker in their place. The JSON
crate, the float reader and the checks around a call are given; so is the schema
of each tool.
-/

set_option autoImplicit false

namespace IronClaw.HookSecrets
open IronClaw.JsonValue IronClaw.LlmMessage IronClaw.Submission IronClaw.Hooks
open IronClaw.Dispatcher IronClaw.Coercion

def marker : Value := .string "[REDACTED]"

inductive ToolError where
  | notFound (name : String)
  | executionFailed (name reason : String)
  | invalidParameters (name reason : String)
  | autonomousUnavailable (name reason : String)
  | rateLimited (name : String) (retryAfter : Option ℕ)
  deriving DecidableEq

def autonomousToolDenylist : List String :=
  ["routine_create", "routine_update", "routine_delete", "routine_fire", "event_emit",
    "create_job", "job_prompt", "restart", "tool_install", "tool_auth", "tool_activate",
    "tool_remove", "tool_upgrade", "skill_install", "skill_remove", "secret_list",
    "secret_delete"]

def autonomousUnavailableMessage (toolName ownerId : String) : String :=
  if autonomousToolDenylist.contains toolName then
    "Tool '" ++ toolName ++ "' is not available in autonomous jobs or routines"
  else "Tool '" ++ toolName ++ "' is not currently available for owner '" ++ ownerId ++ "'"

structure Gates where
  allowedTools : Option (List String)
  limited : Option (Option ℕ)
  cancelled : Bool
  validate : Value → List (String × String)

def isBlockedOrDefault (allowedTools : Option (List String)) (toolName : String) :
    ApprovalRequirement → Bool :=
  fun requirement => match allowedTools with
  | some allowed => !allowed.contains toolName
  | none => requirement ≠ .never

structure Call where
  id : String
  name : String
  fields : Fields

structure Asked where
  message : IncomingMessage
  chatMoment : ℕ
  userId : String
  jobId : String
  jobMoment : ℕ

section

variable (agent : Agent) (schema : String → Value) (float : String → Option UInt64)

def readers : Readers := ⟨agent.json.parse, float⟩

def prepareToolParams (name : String) (params : Value) : Value :=
  prepareParamsForSchema (readers agent float) params (schema name)

def invalidDetails (errors : List (String × String)) : String :=
  "Invalid tool parameters: " ++ "; ".intercalate (errors.map (fun e => e.1 ++ ": " ++ e.2))

/-- The parameters that `execute_tool_with_safety` runs the tool with. -/
def executeToolWithSafety (gates : Gates) (name : String) (params : Value) :
    Except ToolError Value :=
  if name = "" then .error (.notFound name)
  else match agent.tools name with
  | none => .error (.notFound name)
  | some _ =>
    let normalized := prepareToolParams agent schema float name params
    match gates.validate normalized with
    | [] => .ok normalized
    | errors => .error (.invalidParameters name (invalidDetails errors))

def Call.toolCall (call : Call) : ToolCall := ⟨call.id, call.name, .object call.fields⟩

def chatExecutes (asked : Asked) (gates : Gates) (call : Call) : Option Value :=
  match beforeToolCall agent asked.message asked.chatMoment call.toolCall with
  | .error _ => none
  | .ok tc => (executeToolWithSafety agent schema float gates tc.name tc.arguments).toOption

def jobEvent (asked : Asked) (name : String) (normalized : Value) : HookEvent :=
  .toolCall name (redactParams normalized (agent.sensitive name)) asked.userId
    ("job:" ++ asked.jobId)

/-- The parameters that `execute_tool_inner` runs the tool with. -/
def executeToolInner (asked : Asked) (gates : Gates) (name : String) (params : Value) :
    Except ToolError Value :=
  match agent.tools name with
  | none => .error (.notFound name)
  | some tool =>
    let normalized := prepareToolParams agent schema float name params
    if isBlockedOrDefault gates.allowedTools name (tool.requiresApproval normalized) then
      .error (.autonomousUnavailable name (autonomousUnavailableMessage name asked.userId))
    else match gates.limited with
    | some retryAfter => .error (.rateLimited name retryAfter)
    | none =>
      match run agent.json agent.hooks asked.jobMoment (jobEvent agent asked name normalized) with
      | .error (.rejected reason) =>
        .error (.executionFailed name ("Blocked by hook: " ++ reason))
      | .error err =>
        .error (.executionFailed name ("Blocked by hook failure mode: " ++ err.display))
      | .ok outcome =>
        let effective := match outcome with
          | .proceed (some newParams) =>
            match agent.json.parse newParams with
            | some parsed => prepareToolParams agent schema float name parsed
            | none => normalized
          | _ => normalized
        if gates.cancelled then .error (.executionFailed name "Job is cancelled")
        else match gates.validate effective with
        | [] => .ok effective
        | errors => .error (.invalidParameters name (invalidDetails errors))

def jobExecutes (asked : Asked) (gates : Gates) (call : Call) : Option Value :=
  (executeToolInner agent schema float asked gates call.name (.object call.fields)).toOption

def chatEvent (asked : Asked) (call : Call) : HookEvent :=
  .toolCall call.name (agent.safeArgs call.toolCall) asked.message.userId "chat"

end

def shownTo (json : Json) (moment : ℕ) : List Hook → HookEvent → List HookEvent
  | [], _ => []
  | h::hs, e =>
    e::match h.execute moment e, h.failureMode with
    | .finished (.reject _), _ => []
    | .finished (.proceed (some value)), _ =>
      shownTo json moment hs (e.applyModification json value)
    | .finished (.proceed none), _ => shownTo json moment hs e
    | .failed _, .failOpen => shownTo json moment hs e
    | .failed _, .failClosed => []
    | .elapsed, .failOpen => shownTo json moment hs e
    | .elapsed, .failClosed => []

def shown (json : Json) (hooks : List Hook) (moment : ℕ) (event : HookEvent) : List HookEvent :=
  shownTo json moment (hooks.filter (fun h => h.hookPoints.contains event.hookPoint)) event

def Veiled (sensitive : List String) (fields : Fields) : Prop :=
  ∀ key ∈ sensitive, lookup key fields = none ∨ lookup key fields = some marker

def HidesFrom (sensitive : List String) (event : HookEvent) : Prop :=
  ∃ name fields userId context, event = .toolCall name (.object fields) userId context ∧
    Veiled sensitive fields

def Discreet (json : Json) (sensitive : List String) (h : Hook) : Prop :=
  ∀ moment name fields userId context text parsed,
    h.execute moment (.toolCall name (.object fields) userId context) =
      .finished (.proceed (some text)) → json.parse text = some parsed →
    ∃ fields', parsed = .object fields' ∧
      ∀ key ∈ sensitive, lookup key fields' = lookup key fields

structure Documented (json : Json) (float : String → Option UInt64) : Prop where
  marker_json : json.parse "[REDACTED]" = none
  marker_float : float "[REDACTED]" = none
  reread : ∀ text fields, json.parse text = some (.object fields) →
    ∃ fields', json.parse (json.print (.object fields)) = some (.object fields') ∧
      ∀ key, (lookup key fields = none → lookup key fields' = none) ∧
        ∀ s, lookup key fields = some (.string s) → lookup key fields' = some (.string s)

def left (json : Json) (hooks : List Hook) (moment : ℕ) (event : HookEvent) (params : Value) :
    Value :=
  match run json hooks moment event with
  | .ok (.proceed (some text)) => (json.parse text).getD params
  | _ => params

section

variable (agent : Agent) (schema : String → Value) (float : String → Option UInt64)

def Intended (call : Call) (leftBy executed : Value) : Prop :=
  ∃ merged : Value,
    (∀ key ∈ agent.sensitive call.name, merged.get key = lookup key call.fields) ∧
    (∀ key ∉ agent.sensitive call.name, merged.get key = leftBy.get key) ∧
    executed = prepareToolParams agent schema float call.name merged

structure KeepsSecrets (asked : Asked) (call : Call) : Prop where
  chatShown : ∀ event ∈ shown agent.json agent.hooks asked.chatMoment
    (chatEvent agent asked call), HidesFrom (agent.sensitive call.name) event
  jobShown : ∀ event ∈ shown agent.json agent.hooks asked.jobMoment
    (jobEvent agent asked call.name
      (prepareToolParams agent schema float call.name (.object call.fields))),
    HidesFrom (agent.sensitive call.name) event
  chat : ∀ gates e, chatExecutes agent schema float asked gates call = some e →
    Intended agent schema float call
      (left agent.json agent.hooks asked.chatMoment (chatEvent agent asked call)
        (.object call.fields)) e
  job : ∀ gates e, jobExecutes agent schema float asked gates call = some e →
    Intended agent schema float call
      (left agent.json agent.hooks asked.jobMoment (jobEvent agent asked call.name
        (prepareToolParams agent schema float call.name (.object call.fields)))
        (.object call.fields)) e

def JobModified (asked : Asked) (call : Call) : Prop :=
  ∃ text parsed, run agent.json agent.hooks asked.jobMoment (jobEvent agent asked call.name
      (prepareToolParams agent schema float call.name (.object call.fields))) =
    .ok (.proceed (some text)) ∧ agent.json.parse text = some parsed

end

theorem lookup_redact_one (key k : String) (fields : Fields) :
    lookup k (if (lookup key fields).isSome then
      JsonValue.insert key (.string "[REDACTED]") fields else fields) =
      if k = key then (lookup k fields).map (fun _ => marker) else lookup k fields := by
  by_cases hk : k = key
  · rw [if_pos hk, hk]
    cases hold : lookup key fields with
    | none =>
      rw [if_neg (by simp)]
      exact hold
    | some v =>
      rw [if_pos (by simp)]
      exact lookup_insert_self key _ fields
  · rw [if_neg hk]
    split
    · exact lookup_insert_ne key k _ fields (fun heq => hk heq.symm)
    · rfl

def redactFields (sensitive : List String) (fields : Fields) :
    Fields :=
  sensitive.foldl (fun obj key => if (lookup key obj).isSome then
    JsonValue.insert key (.string "[REDACTED]") obj else obj) fields

variable (sensitive : List String) (fields : Fields)

theorem redact_object :
    redactParams (.object fields) sensitive = .object (redactFields sensitive fields) := rfl

/-- The redacted copy has the keys of the object, with the marker under the
sensitive ones. -/
theorem lookup_redact (k : String) :
    lookup k (redactFields sensitive fields) =
      if k ∈ sensitive then (lookup k fields).map (fun _ => marker) else lookup k fields := by
  induction sensitive generalizing fields with
  | nil => rfl
  | cons key rest ih =>
    show lookup k (redactFields rest (if _ then _ else _)) = _
    rw [ih, lookup_redact_one]
    by_cases hrest : k ∈ rest
    · rw [if_pos hrest, if_pos (List.mem_cons_of_mem key hrest)]
      by_cases hk : k = key
      · rw [if_pos hk, Option.map_map]
        rfl
      · rw [if_neg hk]
    · rw [if_neg hrest]
      by_cases hk : k = key
      · rw [if_pos hk, if_pos (List.mem_cons.mpr (.inl hk))]
      · rw [if_neg hk, if_neg (by simp [hk, hrest])]

theorem redact_veiled :
    Veiled sensitive (redactFields sensitive fields) := by
  intro key hkey
  rw [lookup_redact, if_pos hkey]
  cases lookup key fields with
  | none => exact .inl rfl
  | some v => exact .inr rfl

theorem lookup_restore (original : Value) (sensitive : List String)
    (fields : Fields) (k : String) :
    (restoreSensitive original sensitive (.object fields)).get k =
      if k ∈ sensitive then (original.get k).or (lookup k fields) else lookup k fields := by
  induction sensitive generalizing fields with
  | nil => rfl
  | cons key rest ih =>
    have hone : lookup k (match original.get key with
        | some v => JsonValue.insert key v fields
        | none => fields) =
        if k = key then (original.get k).or (lookup k fields) else lookup k fields := by
      by_cases hk : k = key
      · rw [if_pos hk, hk]
        cases original.get key with
        | none => rfl
        | some v => exact lookup_insert_self key v fields
      · rw [if_neg hk]
        cases original.get key with
        | none => rfl
        | some v => exact lookup_insert_ne key k v fields (fun heq => hk heq.symm)
    show (restoreSensitive original rest (.object (match original.get key with
        | some v => JsonValue.insert key v fields
        | none => fields))).get k = _
    rw [ih, hone]
    by_cases hrest : k ∈ rest
    · rw [if_pos hrest, if_pos (List.mem_cons_of_mem key hrest)]
      by_cases hk : k = key
      · rw [if_pos hk]
        cases original.get k <;> rfl
      · rw [if_neg hk]
    · rw [if_neg hrest]
      by_cases hk : k = key
      · rw [if_pos hk, if_pos (List.mem_cons.mpr (.inl hk))]
      · rw [if_neg hk, if_neg (by simp [hk, hrest])]

def Carries (json : Json) (sensitive : List String) (name userId context : String)
    (fields₀ : Fields) (e : HookEvent) : Prop :=
  ∃ fields, e = .toolCall name (.object fields) userId context ∧
    (∀ key ∈ sensitive, lookup key fields = lookup key fields₀) ∧
    (fields = fields₀ ∨ ∃ text, json.parse text = some (.object fields))

section

variable {json : Json} {sensitive : List String} {name userId context : String}
  {fields₀ : Fields}

variable (moment : ℕ) (hooks : List Hook)

theorem apply_carries (h : Hook) (e : HookEvent) (text : String) (hh : Discreet json sensitive h)
    (he : Carries json sensitive name userId context fields₀ e)
    (hrun : h.execute moment e = .finished (.proceed (some text))) :
    Carries json sensitive name userId context fields₀ (e.applyModification json text) := by
  obtain ⟨fields, rfl, hagree, hfrom⟩ := he
  simp only [HookEvent.applyModification]
  split
  · rename_i parsed hparse
    obtain ⟨fields', rfl, hsame⟩ := hh moment name fields userId context text parsed hrun hparse
    refine ⟨fields', rfl, ?_, .inr ⟨text, hparse⟩⟩
    intro key hkey
    rw [hsame key hkey, hagree key hkey]
  · exact ⟨fields, rfl, hagree, hfrom⟩

theorem runChain_carries (e e' : HookEvent) (hh : ∀ h ∈ hooks, Discreet json sensitive h)
    (he : Carries json sensitive name userId context fields₀ e)
    (hrun : runChain json moment hooks e = .ok e') :
    Carries json sensitive name userId context fields₀ e' := by
  induction hooks generalizing e with
  | nil =>
    cases hrun
    exact he
  | cons h hs ih =>
    have hrest : ∀ h ∈ hs, Discreet json sensitive h :=
      fun g hg => hh g (List.mem_cons_of_mem h hg)
    simp only [runChain] at hrun
    split at hrun
    · cases hrun
    · rename_i hexec
      exact ih _ hrest (apply_carries moment h e _ (hh h List.mem_cons_self) he hexec) hrun
    · exact ih e hrest he hrun
    · exact ih e hrest he hrun
    · cases hrun
    · exact ih e hrest he hrun
    · cases hrun

theorem shownTo_carries (e : HookEvent) (hh : ∀ h ∈ hooks, Discreet json sensitive h)
    (he : Carries json sensitive name userId context fields₀ e) :
    ∀ e' ∈ shownTo json moment hooks e,
      Carries json sensitive name userId context fields₀ e' := by
  induction hooks generalizing e with
  | nil => exact fun _ hmem => nomatch hmem
  | cons h hs ih =>
    have hrest : ∀ h ∈ hs, Discreet json sensitive h :=
      fun g hg => hh g (List.mem_cons_of_mem h hg)
    intro e' hmem
    simp only [shownTo, List.mem_cons] at hmem
    rcases hmem with rfl | hmem
    · exact he
    · split at hmem
      · cases hmem
      · rename_i hexec
        exact ih _ hrest (apply_carries moment h e _ (hh h List.mem_cons_self) he hexec) e' hmem
      · exact ih e hrest he e' hmem
      · exact ih e hrest he e' hmem
      · cases hmem
      · exact ih e hrest he e' hmem
      · cases hmem

theorem matching_discreet (event : HookEvent) (hooks : List Hook)
    (hh : ∀ h ∈ hooks, Discreet json sensitive h) :
    ∀ h ∈ hooks.filter (fun h => h.hookPoints.contains event.hookPoint),
      Discreet json sensitive h := by
  intro h hmem
  exact hh h (List.mem_of_mem_filter hmem)

theorem shown_hides (hh : ∀ h ∈ hooks, Discreet json sensitive h)
    (hveil : Veiled sensitive fields₀) :
    ∀ event ∈ shown json hooks moment (.toolCall name (.object fields₀) userId context),
      HidesFrom sensitive event := by
  intro event hmem
  obtain ⟨fields, heq, hagree, -⟩ := shownTo_carries moment _ _ (matching_discreet _ hooks hh)
    ⟨fields₀, rfl, fun _ _ => rfl, .inl rfl⟩ event hmem
  refine ⟨name, fields, userId, context, heq, ?_⟩
  intro key hkey
  rw [hagree key hkey]
  exact hveil key hkey

/-- A changed text that the chain returns can be read, and its object has under
the sensitive keys what the hooks were shown. -/
theorem run_modified {float : String → Option UInt64} (hdoc : Documented json float) (moment : ℕ)
    (hooks : List Hook) (text : String) (hh : ∀ h ∈ hooks, Discreet json sensitive h)
    (hveil : Veiled sensitive fields₀)
    (hrun : run json hooks moment (.toolCall name (.object fields₀) userId context) =
      .ok (.proceed (some text))) :
    ∃ fields, json.parse text = some (.object fields) ∧
      ∀ key ∈ sensitive, lookup key fields = lookup key fields₀ := by
  simp only [run] at hrun
  split at hrun
  · cases hrun
  · split at hrun
    · cases hrun
    · rename_i current hchain
      obtain ⟨fields, rfl, hagree, hfrom⟩ := runChain_carries moment _ _ current
        (matching_discreet _ hooks hh) ⟨fields₀, rfl, fun _ _ => rfl, .inl rfl⟩ hchain
      split at hrun
      · rename_i hchanged
        cases hrun
        -- the printed text has changed, so the object is not the first one
        rcases hfrom with rfl | ⟨read, hread⟩
        · exact absurd rfl hchanged
        · obtain ⟨fields', hparse, hkeep⟩ := hdoc.reread read fields hread
          refine ⟨fields', hparse, ?_⟩
          intro key hkey
          rw [← hagree key hkey]
          rcases hveil key hkey with hnone | hmark
          · have hgone := (hagree key hkey).trans hnone
            rw [hgone]
            exact (hkeep key).1 hgone
          · have hthere := (hagree key hkey).trans hmark
            rw [hthere]
            exact (hkeep key).2 _ hthere
      · cases hrun

end

theorem marker_unread (agent : Agent) (float : String → Option UInt64)
    (hdoc : Documented agent.json float) : Unread (readers agent float) "[REDACTED]" := by
  exact ⟨by decide, hdoc.marker_json, hdoc.marker_float, by decide, by decide⟩

section

variable (agent : Agent) (schema : String → Value) (float : String → Option UInt64)

theorem executeWithSafety_params (gates : Gates) (name : String) (params e : Value)
    (h : (executeToolWithSafety agent schema float gates name params).toOption = some e) :
    e = prepareToolParams agent schema float name params := by
  unfold executeToolWithSafety at h
  split at h
  · cases h
  · split at h
    · cases h
    · simp only at h
      split at h
      · cases h
        rfl
      · cases h

variable (asked : Asked) (call : Call)

theorem chat_intended (hdoc : Documented agent.json float)
    (hh : ∀ h ∈ agent.hooks, Discreet agent.json (agent.sensitive call.name) h) (gates : Gates)
    (e : Value) (h : chatExecutes agent schema float asked gates call = some e) :
    Intended agent schema float call
      (left agent.json agent.hooks asked.chatMoment (chatEvent agent asked call)
        (.object call.fields)) e := by
  unfold chatExecutes beforeToolCall at h
  show Intended agent schema float call (left agent.json agent.hooks asked.chatMoment
    (.toolCall call.toolCall.name (agent.safeArgs call.toolCall) asked.message.userId "chat") _) e
  unfold left
  have hplain : ∀ e, (executeToolWithSafety agent schema float gates call.name
      (.object call.fields)).toOption = some e →
      Intended agent schema float call (.object call.fields) e := by
    intro e h
    exact ⟨.object call.fields, fun _ _ => rfl, fun _ _ => rfl,
      executeWithSafety_params agent schema float gates _ _ e h⟩
  cases hrun : run agent.json agent.hooks asked.chatMoment
      (.toolCall call.toolCall.name (agent.safeArgs call.toolCall) asked.message.userId
        "chat") with
  | error err =>
    rw [hrun] at h
    cases err <;> cases h
  | ok outcome =>
    rw [hrun] at h
    match outcome, h with
    | .reject _, h => exact hplain e h
    | .proceed none, h => exact hplain e h
    | .proceed (some text), h =>
      obtain ⟨fields, hparse, hagree⟩ := run_modified hdoc asked.chatMoment agent.hooks text hh
        (redact_veiled _ call.fields) hrun
      simp only [hparse] at h ⊢
      refine ⟨restoreSensitive (.object call.fields) (agent.sensitive call.name)
        (.object fields), ?_, ?_, executeWithSafety_params agent schema float gates _ _ e h⟩
      · intro key hkey
        rw [lookup_restore, if_pos hkey, hagree key hkey, lookup_redact, if_pos hkey]
        show (lookup key call.fields).or _ = _
        cases lookup key call.fields <;> rfl
      · intro key hkey
        rw [lookup_restore, if_neg hkey]
        rfl

theorem prepared_object (hdoc : Documented agent.json float) (name : String)
    (fields : Fields) :
    ∃ fields', prepareToolParams agent schema float name (.object fields) = .object fields' ∧
      ∀ key, (lookup key fields' = none ↔ lookup key fields = none) ∧
        (lookup key fields' = some marker ↔ lookup key fields = some marker) :=
  prepare_object (readers agent float) fields (schema name) "[REDACTED]"
    (marker_unread agent float hdoc)

theorem shown_keys (hdoc : Documented agent.json float) (call : Call) :
    ∃ fields, redactParams (prepareToolParams agent schema float call.name (.object call.fields))
        (agent.sensitive call.name) = .object fields ∧ Veiled (agent.sensitive call.name) fields ∧
      ∀ key ∈ agent.sensitive call.name,
        (lookup key fields = none ↔ lookup key call.fields = none) := by
  obtain ⟨prepared, hprepared, hkeys⟩ := prepared_object agent schema float hdoc call.name
    call.fields
  refine ⟨redactFields (agent.sensitive call.name) prepared, ?_, redact_veiled _ prepared, ?_⟩
  · rw [hprepared, redact_object]
  · intro key hkey
    rw [lookup_redact, if_pos hkey, Option.map_eq_none_iff]
    exact (hkeys key).1

/-- What `execute_tool_inner` leaves to the tool: the prepared text of the hooks,
where there is one that can be read, or the parameters of the call. -/
theorem inner_params (gates : Gates) (name : String) (params e : Value)
    (h : (executeToolInner agent schema float asked gates name params).toOption = some e) :
    (∃ text parsed, run agent.json agent.hooks asked.jobMoment (jobEvent agent asked name
        (prepareToolParams agent schema float name params)) = .ok (.proceed (some text)) ∧
        agent.json.parse text = some parsed ∧
        e = prepareToolParams agent schema float name parsed) ∨
      ((∀ text, run agent.json agent.hooks asked.jobMoment (jobEvent agent asked name
        (prepareToolParams agent schema float name params)) = .ok (.proceed (some text)) →
        agent.json.parse text = none) ∧
        e = prepareToolParams agent schema float name params) := by
  unfold executeToolInner at h
  split at h
  · cases h
  · simp only at h
    split at h
    · cases h
    · split at h
      · cases h
      · split at h
        · cases h
        · cases h
        · rename_i outcome hrun
          split at h
          · cases h
          · split at h
            · -- the tool runs with the effective parameters
              cases h
              rw [hrun]
              match outcome with
              | .reject _ => exact .inr ⟨fun _ heq => (by cases heq), rfl⟩
              | .proceed none => exact .inr ⟨fun _ heq => (by cases heq), rfl⟩
              | .proceed (some text) =>
                cases hparse : agent.json.parse text with
                | none =>
                  right
                  simp only [hparse, and_true]
                  intro other heq
                  cases heq
                  exact hparse
                | some parsed =>
                  left
                  simp only [hparse]
                  exact ⟨text, parsed, rfl, hparse, rfl⟩
            · cases h

def openGates (name : String) : Gates := ⟨some [name], none, false, fun _ => []⟩

theorem open_not_blocked (name : String) (requirement : ApprovalRequirement) :
    isBlockedOrDefault (some [name]) name requirement = false := by
  simp [isBlockedOrDefault]

theorem inner_runs (name : String) (params : Value) (tool : Tool) (text : String) (parsed : Value)
    (htool : agent.tools name = some tool)
    (hrun : run agent.json agent.hooks asked.jobMoment (jobEvent agent asked name
      (prepareToolParams agent schema float name params)) = .ok (.proceed (some text)))
    (hparse : agent.json.parse text = some parsed) :
    executeToolInner agent schema float asked (openGates name) name params =
      .ok (prepareToolParams agent schema float name parsed) := by
  simp only [executeToolInner, openGates, htool, open_not_blocked, hrun, hparse,
    Bool.false_eq_true, if_false]

/-- The tool of a job runs with a secret only where the secret is the marker
itself. -/
theorem marker_reaches_tool (tool : Tool) (hdoc : Documented agent.json float)
    (htool : agent.tools call.name = some tool)
    (hh : ∀ h ∈ agent.hooks, Discreet agent.json (agent.sensitive call.name) h)
    (hjob : ∀ gates e, jobExecutes agent schema float asked gates call = some e →
      Intended agent schema float call
        (left agent.json agent.hooks asked.jobMoment (jobEvent agent asked call.name
          (prepareToolParams agent schema float call.name (.object call.fields)))
          (.object call.fields)) e) (hmod : JobModified agent schema float asked call) :
    Veiled (agent.sensitive call.name) call.fields := by
  obtain ⟨text, parsed, hrun, hparse⟩ := hmod
  have hexec := inner_runs agent schema float asked call.name _ tool text parsed htool hrun hparse
  obtain ⟨merged, hkept, -, hprep⟩ := hjob _ _ (congrArg Except.toOption hexec)
  obtain ⟨given, hgiven, hveil, hkeys⟩ := shown_keys agent schema float hdoc call
  unfold jobEvent at hrun
  rw [hgiven] at hrun
  obtain ⟨fields, hread, hagree⟩ := run_modified hdoc asked.jobMoment agent.hooks text hh hveil
    hrun
  cases hparse.symm.trans hread
  intro key hkey
  cases hvalue : lookup key call.fields with
  | none => exact .inl rfl
  | some v =>
    right
    -- the hooks return the marker for this key, so the tool receives the marker
    have hmarked : lookup key fields = some marker := by
      rw [hagree key hkey]
      rcases hveil key hkey with hnone | hmark
      · rw [(hkeys key hkey).mp hnone] at hvalue
        cases hvalue
      · exact hmark
    have hget := (hkept key hkey).trans hvalue
    match merged, hget, hprep with
    | .object mfields, hget, hprep =>
      obtain ⟨after, hafter, hsame⟩ := prepared_object agent schema float hdoc call.name fields
      obtain ⟨after', hafter', hsame'⟩ := prepared_object agent schema float hdoc call.name mfields
      rw [hafter, hafter'] at hprep
      cases hprep
      have hm := (hsame' key).2.mp ((hsame key).2.mpr hmarked)
      exact hget.symm.trans hm

theorem job_intended (hdoc : Documented agent.json float)
    (hh : ∀ h ∈ agent.hooks, Discreet agent.json (agent.sensitive call.name) h)
    (hveiled : JobModified agent schema float asked call →
      Veiled (agent.sensitive call.name) call.fields) (gates : Gates) (e : Value)
    (h : jobExecutes agent schema float asked gates call = some e) :
    Intended agent schema float call
      (left agent.json agent.hooks asked.jobMoment (jobEvent agent asked call.name
        (prepareToolParams agent schema float call.name (.object call.fields)))
        (.object call.fields)) e := by
  rcases inner_params agent schema float asked gates call.name _ e h with
    ⟨text, parsed, hrun, hparse, rfl⟩ | ⟨hnone, rfl⟩
  · have hsecrets := hveiled ⟨text, parsed, hrun, hparse⟩
    have hleft : left agent.json agent.hooks asked.jobMoment (jobEvent agent asked call.name
        (prepareToolParams agent schema float call.name (.object call.fields)))
        (.object call.fields) = parsed := by
      unfold left
      rw [hrun]
      simp only [hparse, Option.getD_some]
    obtain ⟨given, hgiven, hveil, hkeys⟩ := shown_keys agent schema float hdoc call
    rw [hleft]
    unfold jobEvent at hrun
    rw [hgiven] at hrun
    obtain ⟨fields, hread, hagree⟩ := run_modified hdoc asked.jobMoment agent.hooks text hh hveil
      hrun
    cases hparse.symm.trans hread
    refine ⟨.object fields, ?_, fun _ _ => rfl, rfl⟩
    intro key hkey
    show lookup key fields = _
    rw [hagree key hkey]
    rcases hsecrets key hkey with hnone | hmark
    · rw [hnone]
      exact (hkeys key hkey).mpr hnone
    · rw [hmark]
      rcases hveil key hkey with hgone | hthere
      · rw [(hkeys key hkey).mp hgone] at hmark
        cases hmark
      · exact hthere
  · have hleft : left agent.json agent.hooks asked.jobMoment (jobEvent agent asked call.name
        (prepareToolParams agent schema float call.name (.object call.fields)))
        (.object call.fields) = .object call.fields := by
      unfold left
      split
      · rename_i text hrun
        rw [hnone text hrun, Option.getD_none]
      · rfl
    rw [hleft]
    exact ⟨.object call.fields, fun _ _ => rfl, fun _ _ => rfl, rfl⟩

/-- Secrets are kept on both paths exactly when the hooks of the job change
nothing, or every sensitive value of the call is the marker itself. -/
theorem secrets_kept_iff (tool : Tool) (hdoc : Documented agent.json float)
    (htool : agent.tools call.name = some tool)
    (hh : ∀ h ∈ agent.hooks, Discreet agent.json (agent.sensitive call.name) h) :
    KeepsSecrets agent schema float asked call ↔
      (JobModified agent schema float asked call →
        Veiled (agent.sensitive call.name) call.fields) := by
  constructor
  · intro h
    exact marker_reaches_tool agent schema float asked call tool hdoc htool hh h.job
  · intro hveiled
    obtain ⟨given, hgiven, hveil, -⟩ := shown_keys agent schema float hdoc call
    refine ⟨?_, ?_, chat_intended agent schema float asked call hdoc hh,
      job_intended agent schema float asked call hdoc hh hveiled⟩
    · exact shown_hides asked.chatMoment agent.hooks hh (redact_veiled _ call.fields)
    · unfold jobEvent
      rw [hgiven]
      exact shown_hides asked.jobMoment agent.hooks hh hveil

end

def postSchema : Value :=
  .object [("properties", .object [("token", .object [("type", .string "string")]),
    ("url", .object [("type", .string "string")])]), ("type", .string "object")]

def openPost (url : String) : Value := .object [("url", .string url)]

def tokenPost (token : Value) (url : String) : Value :=
  .object [("token", token), ("url", .string url)]

def printed (v : Value) : String := String.ofList (JsonText.printValue JsonText.plainFloats v)

def postJson : Json where
  parse text :=
    if text = printed (tokenPost marker "https://a") then some (tokenPost marker "https://a")
    else if text = printed (openPost "https://a") then some (openPost "https://a")
    else none
  print := printed

def secureHook : Hook where
  name := "secure"
  hookPoints := [.beforeToolCall]
  failureMode := .failOpen
  timeout := "5s"
  execute _ event := match event with
    | .toolCall _ params _ _ =>
      if params = tokenPost marker "http://a" then
        .finished (.proceed (some (printed (tokenPost marker "https://a"))))
      else if params = openPost "http://a" then
        .finished (.proceed (some (printed (openPost "https://a"))))
      else .finished (.proceed none)
    | _ => .finished (.proceed none)

def postAgent : Agent :=
  { bareAgent with
    tools := fun name =>
      if name = "post" then some ⟨"post", ["token"], fun _ => .never⟩ else none
    hooks := [secureHook]
    json := postJson }

def postAsked : Asked := ⟨webMessage, 0, "owner", "1", 0⟩

theorem post_documented : Documented postAgent.json (fun _ => none) where
  marker_json := by decide
  marker_float := rfl
  reread := by
    intro text fields hread
    refine ⟨fields, ?_, fun _ => ⟨fun h => h, fun _ h => h⟩⟩
    simp only [postAgent, postJson] at hread
    split at hread
    · cases hread
      decide
    · split at hread
      · cases hread
        decide
      · cases hread

theorem secure_discreet : Discreet postAgent.json ["token"] secureHook := by
  intro moment name fields userId context text parsed hexec hparse
  simp only [secureHook] at hexec
  split at hexec
  · rename_i hparams
    cases hparams
    cases hexec
    cases hparse.symm.trans (by decide : postAgent.json.parse
      (printed (tokenPost marker "https://a")) = some (tokenPost marker "https://a"))
    exact ⟨_, rfl, by decide⟩
  · split at hexec
    · rename_i hparams
      cases hparams
      cases hexec
      cases hparse.symm.trans (by decide : postAgent.json.parse
        (printed (openPost "https://a")) = some (openPost "https://a"))
      exact ⟨_, rfl, by decide⟩
    · cases hexec

theorem post_discreet : ∀ h ∈ postAgent.hooks, Discreet postAgent.json ["token"] h := by
  intro h hmem
  rw [List.mem_singleton.mp hmem]
  exact secure_discreet

def openCall : Call := ⟨"call_1", "post", [("url", .string "http://a")]⟩

theorem open_veiled : Veiled (postAgent.sensitive openCall.name) openCall.fields := by
  intro key hkey
  rw [List.mem_singleton.mp hkey]
  exact .inl rfl

def tokenCall (url : String) : Call :=
  ⟨"call_1", "post", [("token", .string "sk-1"), ("url", .string url)]⟩

/-- A call without its sensitive parameter, whose address the hooks change, and
one with it that they leave alone. -/
theorem open_call_kept :
    (KeepsSecrets postAgent (fun _ => postSchema) (fun _ => none) postAsked openCall ∧
      jobExecutes postAgent (fun _ => postSchema) (fun _ => none) postAsked (openGates "post")
        openCall = some (openPost "https://a")) ∧
    KeepsSecrets postAgent (fun _ => postSchema) (fun _ => none) postAsked (tokenCall "https://a") ∧
      jobExecutes postAgent (fun _ => postSchema) (fun _ => none) postAsked (openGates "post")
        (tokenCall "https://a") = some (tokenPost (.string "sk-1") "https://a") := by
  have hplain : ¬ JobModified postAgent (fun _ => postSchema) (fun _ => none) postAsked
      (tokenCall "https://a") := by
    rintro ⟨text, parsed, hrun, -⟩
    rw [show run postAgent.json postAgent.hooks postAsked.jobMoment _ = .ok (.proceed none) by
      decide] at hrun
    cases hrun
  refine ⟨⟨?_, by decide⟩, ?_, by decide⟩
  · exact (secrets_kept_iff postAgent (fun _ => postSchema) (fun _ => none) postAsked openCall _
      post_documented rfl post_discreet).mpr (fun _ => open_veiled)
  · exact (secrets_kept_iff postAgent (fun _ => postSchema) (fun _ => none) postAsked
      (tokenCall "https://a") _ post_documented rfl post_discreet).mpr
        (fun hmod => absurd hmod hplain)

/-- A job posts with the marker as its token once a hook has changed the
address. -/
theorem job_token_destroyed :
    ¬ ∀ (agent : Agent) (schema : String → Value) (float : String → Option UInt64)
        (asked : Asked) (call : Call) (tool : Tool), Documented agent.json float →
      agent.tools call.name = some tool →
      (∀ h ∈ agent.hooks, Discreet agent.json (agent.sensitive call.name) h) →
      KeepsSecrets agent schema float asked call := by
  intro h
  have hkept := h postAgent (fun _ => postSchema) (fun _ => none) postAsked (tokenCall "http://a") _
    post_documented rfl post_discreet
  have hmod : JobModified postAgent (fun _ => postSchema) (fun _ => none) postAsked (tokenCall "http://a") :=
    ⟨printed (tokenPost marker "https://a"), tokenPost marker "https://a", by decide, by decide⟩
  have hveiled := marker_reaches_tool postAgent (fun _ => postSchema) (fun _ => none) postAsked
    (tokenCall "http://a") _ post_documented rfl post_discreet hkept.job hmod "token" (by decide)
  rcases hveiled with hnone | hmarker
  · cases hnone
  · exact absurd hmarker (by decide)

end IronClaw.HookSecrets
