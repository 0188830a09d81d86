import IronClaw.ChatLoop

/-!
# The trust ceiling of active skills

With an installed skill active the language model is shown read-only tools
only, and calls read from its text are checked against what it was shown.
Calls it sends in their own field are executed by name, and a loop that goes
on after an approval takes its skills from the approval message. So the
ceiling holds over a whole turn exactly as far as the model's own calls keep
to it.
-/

set_option autoImplicit false

namespace IronClaw.SkillCeiling
open IronClaw.JsonValue IronClaw.LlmMessage IronClaw.SessionThread IronClaw.Submission
open IronClaw.Dispatcher IronClaw.Approval IronClaw.ResponseText IronClaw.ChatLoop
open Lib.Runs Lib.Search Lib.Text

structure ChatTurn where
  input : Input
  approvals : List Continuation

structure Progress where
  session : Session
  calls : List ToolCall

section Turn

variable (render : Value → String) (setting : Setting)

def queued (sess : Session) : List ToolCall :=
  match sess.threads setting.threadId with
  | some t =>
    if t.state = .awaitingApproval then (t.pendingApproval.map requestCalls).getD [] else []
  | none => []

def opening (input : Input) (sess : Session) : Progress :=
  let done := processUserInput render setting input sess
  ⟨done.session, done.executed++queued setting done.session⟩

def resume (next : Continuation) (s : Progress) : Progress :=
  let done := processApprovalTurn setting next s.session
  ⟨done.session, s.calls++done.executed++queued setting done.session⟩

def turnCalls (turn : ChatTurn) (sess : Session) : List ToolCall :=
  (run (resume setting) turn.approvals (opening render setting turn.input sess)).calls

def Opens (input : Input) (sess : Session) : Prop :=
  ∃ thread, sess.threads setting.threadId = some thread ∧ refuse input thread = none

end Turn

def Knows (turn : ChatTurn) (name : String) : Prop :=
  (∃ i, ((turn.input.leg.rounds i).agent.tools name).isSome) ∨
    ∃ next ∈ turn.approvals, (next.stage.agent.tools name).isSome ∨
      ∃ i, ((next.leg.rounds i).agent.tools name).isSome

def Restricted (leg : Leg) : Prop := ∃ skill ∈ leg.activeSkills, skill.trust = .installed

def structured (reply : Reply) : List ToolCall :=
  match reply.completeWithTools with
  | .ok response => response.toolCalls
  | .error _ => []

def spelled (reasoning : Reasoning) (tools : List ToolDefinition) (reply : Reply) :
    List ToolCall :=
  match reply.completeWithTools with
  | .ok response =>
    recoverToolCallsFromContent reasoning.parse (response.content.getD unsure).toList tools
  | .error _ => []

def Round.replies (round : Round) : List Reply := [round.reply, round.retry]

def SendsWithin (ok : String → Prop) (leg : Leg) : Prop :=
  ∀ i, ∀ reply ∈ Round.replies (leg.rounds i), ∀ c ∈ structured reply, ok c.name

def SpellsWithin (reasoning : Reasoning) (ok : String → Prop) (leg : Leg) : Prop :=
  ∀ i, ∀ reply ∈ Round.replies (leg.rounds i),
    ∀ c ∈ spelled reasoning (shownTools (leg.rounds i).toolDefinitions leg.activeSkills) reply,
      ok c.name

def Within (reasoning : Reasoning) (ok : String → Prop) (leg : Leg) : Prop :=
  SendsWithin ok leg ∧ (Restricted leg ∨ SpellsWithin reasoning ok leg)

theorem min_installed (a : SkillTrust) (ts : List SkillTrust) (h : .installed ∈ a::ts) :
    ts.foldl min a = .installed := by
  induction ts generalizing a with
  | nil => exact (List.mem_singleton.mp h).symm
  | cons t ts ih =>
    apply ih
    cases a with
    | installed => exact List.mem_cons_self
    | trusted =>
      have hmem : .installed ∈ t::ts := by simpa using h
      exact hmem

theorem attenuate_restricted (leg : Leg) (tools : List ToolDefinition) (h : Restricted leg) :
    shownTools tools leg.activeSkills =
      tools.filter (fun tool => readOnlyTools.contains tool.name) := by
  obtain ⟨skill, hskill, htrust⟩ := h
  have hne : leg.activeSkills ≠ [] := List.ne_nil_of_mem hskill
  have hmin : (leg.activeSkills.map LoadedSkill.trust).min? = some .installed := by
    have hmem : .installed ∈ leg.activeSkills.map LoadedSkill.trust :=
      List.mem_map.mpr ⟨skill, hskill, htrust⟩
    cases hts : leg.activeSkills.map LoadedSkill.trust with
    | nil => rw [hts] at hmem; exact absurd hmem List.not_mem_nil
    | cons a ts =>
      rw [hts] at hmem
      rw [List.min?_cons', min_installed a ts hmem]
  simp only [shownTools, attenuateTools, hmin, Option.getD_some, if_neg hne]

theorem shown_read_only (leg : Leg) (tools : List ToolDefinition) (h : Restricted leg)
    (name : String) (hname : name ∈ (shownTools tools leg.activeSkills).map ToolDefinition.name) :
    name ∈ readOnlyTools := by
  rw [attenuate_restricted leg tools h] at hname
  obtain ⟨tool, htool, rfl⟩ := List.mem_map.mp hname
  simpa using (List.mem_filter.mp htool).2

def Allowed (ok : String → Prop) (calls : List ToolCall) : Prop := ∀ c ∈ calls, ok c.name

variable (ok : String → Prop)

theorem allowed_nil : Allowed ok [] := by
  intro c hc
  exact absurd hc List.not_mem_nil

theorem allowed_append (calls more : List ToolCall) (h : Allowed ok calls)
    (hmore : Allowed ok more) : Allowed ok (calls++more) := by
  intro c hc
  rcases List.mem_append.mp hc with hl | hr
  · exact h c hl
  · exact hmore c hr

section Recovery

variable (parse : String → Option Value) (names : List String)

def Named (calls : List ToolCall) : Prop := Allowed (fun name => name ∈ names) calls

theorem tagCall_named (n : ℕ) (inner : List Char) :
    Named names (tagCall parse names n inner).toList := by
  intro c hc
  rw [Option.mem_toList] at hc
  unfold tagCall at hc
  dsimp only at hc
  split at hc
  · split at hc
    · next hin =>
      have := Option.some.inj hc
      subst this
      simpa using hin
    · split at hc
      · next hin =>
        have := Option.some.inj hc
        subst this
        simpa using hin
      · simp at hc
  · split at hc
    · next hin =>
      have := Option.some.inj hc
      subst this
      simpa using hin
    · simp at hc

theorem recoverTags_named (opening closing : List Char) (fuel : ℕ) (remaining : List Char)
    (calls : List ToolCall) (h : Named names calls) :
    Named names (recoverTags parse names opening closing fuel remaining calls) := by
  induction fuel generalizing remaining calls with
  | zero => exact h
  | succ fuel ih =>
    rw [recoverTags]
    split
    · exact h
    · split
      · exact h
      · dsimp only
        apply ih
        apply allowed_append _ calls _ h
        split
        · exact allowed_nil _
        · exact tagCall_named parse names _ _

theorem recoverBrackets_named (fuel : ℕ) (remaining : List Char) (calls : List ToolCall)
    (h : Named names calls) :
    Named names (recoverBrackets parse names fuel remaining calls) := by
  induction fuel generalizing remaining calls with
  | zero => exact h
  | succ fuel ih =>
    rw [recoverBrackets]
    split
    · exact h
    · split
      · exact h
      · dsimp only
        split
        · exact ih _ _ h
        · next hin =>
          have hname : ∀ args : Value, ∀ n name, names.contains name ≠ false →
              Named names [⟨recoveredId n, name, args⟩] := by
            intro args n name hcontains c hc
            rw [List.mem_singleton.mp hc]
            simpa using hcontains
          split
          · split
            · exact ih _ _ (allowed_append _ calls _ h (hname _ _ _ hin))
            · exact ih _ _ (allowed_append _ calls _ h (hname _ _ _ hin))
          · exact ih _ _ (allowed_append _ calls _ h (hname _ _ _ hin))

theorem recovered_named (content : List Char) (tools : List ToolDefinition) :
    Named (tools.map ToolDefinition.name) (recoverToolCallsFromContent parse content tools) := by
  unfold recoverToolCallsFromContent
  apply recoverBrackets_named
  simp only [toolTagPairs, List.foldl_cons, List.foldl_nil]
  apply recoverTags_named
  apply recoverTags_named
  apply recoverTags_named
  apply recoverTags_named
  exact allowed_nil _

end Recovery

section Answers

variable (reasoning : Reasoning)

/-- The calls of an answer stand in their own field or in its text. -/
theorem respond_calls (context : ReasoningContext) (reply : Reply) (calls : List ToolCall)
    (content : Option String)
    (h : respondWithTools reasoning context reply = .ok (.toolCalls calls content)) :
    context.forceText = false ∧
      ∀ c ∈ calls, c ∈ structured reply ∨ c ∈ spelled reasoning context.availableTools reply := by
  have hplain : respondPlain reasoning reply ≠ .ok (.toolCalls calls content) := by
    unfold respondPlain
    cases reply.complete <;> simp
  cases hforce : context.forceText with
  | true =>
    simp only [respondWithTools, hforce, if_true, ne_eq, not_true_eq_false, if_false] at h
    exact absurd h hplain
  | false =>
    refine ⟨rfl, ?_⟩
    simp only [respondWithTools, hforce, Bool.false_eq_true, if_false] at h
    split at h
    · split at h
      · simp at h
      · next response hresponse =>
        split at h
        · simp only [Except.ok.injEq, Worker.RespondResult.toolCalls.injEq] at h
          intro c hc
          left
          simpa [structured, hresponse, h.1] using hc
        · split at h
          · simp only [Except.ok.injEq, Worker.RespondResult.toolCalls.injEq] at h
            intro c hc
            right
            simpa [spelled, hresponse, h.1] using hc
          · simp at h
    · exact absurd h hplain

theorem callLlm_calls (setting : Setting) (round : Round) (context after : ReasoningContext)
    (calls : List ToolCall) (content : Option String)
    (h : callLlm setting round context = (after, .ok (.toolCalls calls content))) :
    ∃ reply ∈ Round.replies round, ∀ c ∈ calls,
      c ∈ structured reply ∨ c ∈ spelled setting.reasoning context.availableTools reply := by
  unfold callLlm at h
  split at h
  · simp at h
  · split at h
    · next result hresult =>
      simp only [Prod.mk.injEq, Except.ok.injEq] at h
      rw [h.2] at hresult
      exact ⟨round.reply, List.mem_cons_self, (respond_calls _ _ _ _ _ hresult).2⟩
    · split at h
      · next result hresult =>
        simp only [Prod.mk.injEq, Except.ok.injEq] at h
        rw [h.2] at hresult
        have hcalls := respond_calls _ _ _ _ _ hresult
        have hforce : context.forceText = false := hcalls.1
        refine ⟨round.retry, by simp [Round.replies], ?_⟩
        intro c hc
        simpa [compactContext, hforce] using hcalls.2 c hc
      · simp at h
    · simp at h

end Answers

section Batch

variable (agent : Agent) (message : IncomingMessage) (site : Site) (runs : Runs) (sess : Session)
  (context : List ChatMessage) (content : Option String) (calls : List ToolCall)

theorem entries_named (e : ToolCall × PreflightOutcome)
    (h : e ∈ batchEntries agent message sess calls) : e.1.name ∈ calls.map ToolCall.name := by
  have hkey : key e.1 ∈ (batchEntries agent message sess calls).map (fun e => key e.1) :=
    List.mem_map.mpr ⟨e, h, rfl⟩
  rw [batchEntries, entriesFrom_keys] at hkey
  obtain ⟨c, hc, hsame⟩ := List.mem_map.mp hkey
  exact List.mem_map.mpr ⟨c, List.mem_of_mem_take hc, congrArg Prod.snd hsame⟩

/-- A batch executes and asks for tools it was given by name. -/
theorem dispatch_named :
    Named (calls.map ToolCall.name)
      (executeToolCalls agent message site runs sess context content calls).executed ∧
    ∀ p, (executeToolCalls agent message site runs sess context content calls).outcome =
      some (.needApproval p) → Named (calls.map ToolCall.name) (requestCalls p) := by
  constructor
  · intro c hc
    simp only [executeToolCalls, batch_preflight, runnableFrom_calls] at hc
    obtain ⟨e, he, rfl⟩ := List.mem_map.mp hc
    exact entries_named agent message sess calls e (List.mem_filter.mp he).1
  · intro p hp
    simp only [executeToolCalls, batch_preflight] at hp
    split at hp
    · simp at hp
    · next ask _ hask =>
      simp only [Option.some.injEq, LoopOutcome.needApproval.injEq] at hp
      subst hp
      rcases walk_split agent message sess 0 calls with ⟨hnone, -⟩ | ⟨pre, c, rest, tc, tool,
        allowAlways, hcalls, -, hverdict, hsome⟩
      · rw [hnone] at hask
        simp at hask
      · rw [hsome] at hask
        have hcall : tc = ask.call := congrArg Ask.call (Option.some.inj hask)
        have hname := (preflightCall_key agent message sess (0+pre.length) c).2
        rw [hverdict] at hname
        intro d hd
        rcases List.mem_cons.mp hd with rfl | hlater
        · show ask.call.name ∈ calls.map ToolCall.name
          rw [← hcall, hcalls]
          exact List.mem_map.mpr ⟨c, by simp, hname.symm⟩
        · exact List.mem_map.mpr ⟨d, List.mem_of_mem_drop hlater, rfl⟩
    · simp at hp

end Batch

theorem named_allowed (calls more : List ToolCall) (h : Allowed ok calls)
    (hmore : Named (calls.map ToolCall.name) more) : Allowed ok more := by
  intro c hc
  obtain ⟨d, hd, hname⟩ := List.mem_map.mp (hmore c hc)
  exact hname ▸ h d hd

def AskedAllowed (ok : String → Prop) (result : Except Error LoopOutcome) : Prop :=
  ∀ p, result = .ok (.needApproval p) → Allowed ok (requestCalls p)

def Sound (setting : Setting) (ok : String → Prop) (s : Progress) : Prop :=
  Allowed ok s.calls ∧ ∃ t, s.session.threads setting.threadId = some t ∧
    ∀ p, WaitsFor t p → Allowed ok (requestCalls p)

theorem queued_allowed (setting : Setting) (ok : String → Prop) (sess : Session) (t : Thread)
    (ht : sess.threads setting.threadId = some t)
    (h : ∀ p, WaitsFor t p → Allowed ok (requestCalls p)) :
    Allowed ok (queued setting sess) := by
  simp only [queued, ht]
  split
  · next hstate =>
    cases hp : t.pendingApproval with
    | none => exact allowed_nil ok
    | some p => exact h p ⟨hstate, hp⟩
  · exact allowed_nil ok

section Ceiling

variable (render : Value → String) (setting : Setting) (ok : String → Prop)
  (hread : ∀ name ∈ readOnlyTools, ok name)

include hread

/-- What an iteration may call, from its own field or from its text. -/
theorem round_allowed (leg : Leg) (hwithin : Within setting.reasoning ok leg) (iteration : ℕ)
    (context after : ReasoningContext) (calls : List ToolCall) (content : Option String)
    (h : callLlm setting (leg.rounds iteration) (beforeLlmCall setting leg iteration context) =
      (after, .ok (.toolCalls calls content))) : Allowed ok calls := by
  obtain ⟨reply, hreply, hcalls⟩ := callLlm_calls setting _ _ _ _ _ h
  intro c hc
  rcases hcalls c hc with hfield | htext
  · exact hwithin.1 iteration reply hreply c hfield
  · rcases hwithin.2 with hrestricted | hspelled
    · -- what the text can name has been shown, and only read-only tools were
      apply hread
      apply shown_read_only leg (leg.rounds iteration).toolDefinitions hrestricted
      unfold spelled at htext
      split at htext
      · exact recovered_named _ _ _ c htext
      · simp at htext
    · exact hspelled iteration reply hreply c htext

variable (message : IncomingMessage) (leg : Leg) (hwithin : Within setting.reasoning ok leg)

include hwithin

theorem iterate_allowed (iteration : ℕ) (s : LoopState) (h : Allowed ok s.executed) :
    Allowed ok (iterate setting message leg iteration s).2.executed ∧
      ∀ p, (iterate setting message leg iteration s).1 = some (.ok (.outcome (.needApproval p))) →
        Allowed ok (requestCalls p) := by
  rcases iterate_cases setting message leg iteration s with ⟨-, hsame, hask⟩ | ⟨context, calls,
    content, hcall, hrun⟩
  · rw [hsame]
    exact ⟨h, fun p hp => absurd hp (hask p)⟩
  · have hcalls := round_allowed setting ok hread leg hwithin iteration _ _ _ _ hcall
    have hdispatch := dispatch_named (leg.rounds iteration).agent message
      ⟨setting.threadId, (leg.rounds iteration).now, (leg.rounds iteration).requestId, leg.userTz⟩
      (leg.rounds iteration).runs (arrive setting (leg.rounds iteration) s.session)
      context.messages content calls
    rw [hrun]
    constructor
    · exact allowed_append ok _ _ h (named_allowed ok _ _ hcalls hdispatch.1)
    · intro p hp
      simp only [handleCalls, Option.map_eq_some_iff, Except.ok.injEq, Ended.outcome.injEq] at hp
      obtain ⟨o, ho, rfl⟩ := hp
      exact named_allowed ok _ _ hcalls (hdispatch.2 p ho)

theorem loop_allowed (left iteration : ℕ) (s : LoopState) (h : Allowed ok s.executed) :
    Allowed ok (loop setting message leg left iteration s).2.executed ∧
      ∀ p, (loop setting message leg left iteration s).1 = .ok (.outcome (.needApproval p)) →
        Allowed ok (requestCalls p) := by
  induction left generalizing iteration s with
  | zero => exact ⟨h, by simp [loop]⟩
  | succ left ih =>
    have hstep := iterate_allowed setting ok hread message leg hwithin iteration s h
    rw [loop]
    split
    · next hit =>
      rw [hit] at hstep
      exact ⟨hstep.1, fun p hp => hstep.2 p (congrArg some hp)⟩
    · next hit =>
      rw [hit] at hstep
      exact ih _ _ hstep.1

theorem runAgenticLoop_allowed (messages : List ChatMessage) (sess : Session) :
    Allowed ok (runAgenticLoop setting message leg messages sess).2.2 ∧
      AskedAllowed ok (runAgenticLoop setting message leg messages sess).1 := by
  have hloop := loop_allowed setting ok hread message leg hwithin (setting.maxToolIterations+1) 1
    ⟨sess, ⟨messages, shownTools leg.toolDefinitions leg.activeSkills, false⟩, 0, []⟩
    (allowed_nil ok)
  refine ⟨hloop.1, ?_⟩
  intro p hp
  apply hloop.2 p
  simp only [runAgenticLoop] at hp
  split at hp
  · simp at hp
  · next o heq =>
    rw [heq, Except.ok.inj hp]
  · simp at hp
  · simp at hp

omit hwithin

theorem opening_sound (input : Input) (sess : Session) (hopen : Opens setting input sess)
    (hinput : Within setting.reasoning ok input.leg) :
    Sound setting ok (opening render setting input sess) := by
  obtain ⟨thread, hthread, haccepted⟩ := hopen
  obtain ⟨hexecuted, t, ht, hend⟩ :=
    processUserInput_accepted render setting input sess thread hthread haccepted
  have hloop := runAgenticLoop_allowed setting ok hread input.message input.leg hinput
    ((openTurn input thread).messages render)
    (sess.setThread setting.threadId (openTurn input thread))
  have hwaits : ∀ p, WaitsFor t p → Allowed ok (requestCalls p) := by
    intro p hp
    rcases hend with ⟨hstate, -⟩ | ⟨q, hasked, hq⟩
    · exact absurd hp.1 hstate
    · have hsame : p = q := Option.some.inj (hp.2.symm.trans hq.2)
      rw [hsame]
      exact hloop.2 q hasked
  refine ⟨?_, t, ht, hwaits⟩
  apply allowed_append ok
  · rw [hexecuted]
    exact hloop.1
  · exact queued_allowed setting ok _ t ht hwaits

theorem resume_sound (next : Continuation) (s : Progress) (hs : Sound setting ok s)
    (hnext : Within setting.reasoning ok next.leg) : Sound setting ok (resume setting next s) := by
  obtain ⟨hcalls, th, hth, hwaits⟩ := hs
  by_cases hw : ∃ p, WaitsFor th p
  · obtain ⟨p, hp⟩ := hw
    have hanswered := processApproval_answered next.stage setting.threadId p s.session th hth hp
    obtain ⟨t, ht, hend⟩ := processApprovalTurn_waiting setting next s.session th p hth hp
    have hrequest := hwaits p hp
    have hran : Allowed ok (processApproval next.stage setting.threadId s.session).executed :=
      fun c hc => hrequest c (hanswered.1 c hc)
    have hlater : ∀ q, WaitsFor t q → Allowed ok (requestCalls q) := by
      intro q hq
      rcases hend with hfree | ⟨r, hr, hbehind | ⟨context, -, hasked⟩⟩
      · exact absurd hq.1 hfree.1
      · have hsame : q = r := Option.some.inj (hq.2.symm.trans hr.2)
        rw [hsame]
        exact fun c hc => hrequest c (hbehind c hc)
      · have hsame : q = r := Option.some.inj (hq.2.symm.trans hr.2)
        rw [hsame]
        exact (runAgenticLoop_allowed setting ok hread next.stage.message next.leg hnext
          context _).2 r hasked
    have hexecuted : Allowed ok (processApprovalTurn setting next s.session).executed := by
      cases hout : (processApproval next.stage setting.threadId s.session).outcome with
      | returned result =>
        rw [processApprovalTurn_returned setting next s.session result hout]
        exact hran
      | resumes context =>
        rw [processApprovalTurn_resumes setting next s.session context hout]
        exact allowed_append ok _ _ hran
          (runAgenticLoop_allowed setting ok hread next.stage.message next.leg hnext context _).1
    refine ⟨?_, t, ht, hlater⟩
    exact allowed_append ok _ _ (allowed_append ok _ _ hcalls hexecuted)
      (queued_allowed setting ok _ t ht hlater)
  · obtain ⟨after, hafter, hstep⟩ := processApproval_ignored next.stage setting.threadId s.session
      th hth (fun p hp => hw ⟨p, hp⟩)
    have hturn := processApprovalTurn_returned setting next s.session (.ok (.okWithMessage ""))
      (by rw [hstep])
    rw [hstep] at hturn
    simp only [resume, hturn, List.append_nil]
    exact ⟨allowed_append ok _ _ hcalls (queued_allowed setting ok after th hafter hwaits),
      th, hafter, hwaits⟩

end Ceiling

def Harmless (turn : ChatTurn) (name : String) : Prop := Knows turn name → name ∈ readOnlyTools

/-- While an installed skill is active, a turn executes and queues read-only
tools only, in every run in which the language model sends no call of another
registered tool and, once an approval message has dropped the skill, spells
none out either. -/
theorem ceiling_kept (render : Value → String) (setting : Setting) (turn : ChatTurn)
    (sess : Session) (hopen : Opens setting turn.input sess)
    (hskill : Restricted turn.input.leg) (hsends : SendsWithin (Harmless turn) turn.input.leg)
    (hresumed : ∀ next ∈ turn.approvals, SendsWithin (Harmless turn) next.leg ∧
      (Restricted next.leg ∨ SpellsWithin setting.reasoning (Harmless turn) next.leg)) :
    ∀ c ∈ turnCalls render setting turn sess, Knows turn c.name → c.name ∈ readOnlyTools := by
  have hread : ∀ name ∈ readOnlyTools, Harmless turn name := fun name hname _ => hname
  have hopening := opening_sound render setting (Harmless turn) hread turn.input sess hopen
    ⟨hsends, Or.inl hskill⟩
  have hrun := guarded_invariant (resume setting)
    (fun next _ => Within setting.reasoning (Harmless turn) next.leg)
    (Sound setting (Harmless turn))
    (fun next s hs hnext => resume_sound setting (Harmless turn) hread next s hs hnext)
    turn.approvals (opening render setting turn.input sess)
    (along_all _ _ _ _ (fun next hnext _ => hresumed next hnext)) hopening
  exact hrun.1

def oneTool (name : String) (need : ApprovalRequirement) : Agent :=
  { bareAgent with
    tools := fun n => if n = name then some ⟨"A tool", [], fun _ => need⟩ else none }

def sends (name : String) : Reply :=
  ⟨.ok ⟨none, [⟨"call_1", name, .null⟩]⟩, .ok "Done."⟩

def callRound (name : String) (need : ApprovalRequirement) (i : ℕ) : Round :=
  { interrupted := false, toolDefinitions := [⟨"echo", "Echo a text", .null⟩]
    costLimit := if i = 1 then none else some "Daily budget exceeded"
    reply := sends name, retry := sends name, agent := oneTool name need
    now := 0, requestId := 1, runs := echoRuns }

def callLeg (skills : List LoadedSkill) (name : String) (need : ApprovalRequirement) : Leg :=
  { activeSkills := skills, userTz := "UTC", toolDefinitions := [], answer := id
    rounds := callRound name need }

def callInput (name : String) (need : ApprovalRequirement) : Input :=
  { message := webMessage, content := "hello", images := [], refusal := none, compaction := none
    leg := callLeg [⟨.installed⟩] name need }

def echoTurn : ChatTurn :=
  { input := callInput "echo" .always
    approvals := [{
      stage := ⟨oneTool "echo" .always, webMessage, 0, 2, none, true, false, fun _ => .ok "hello",
        echoRuns⟩
      leg := callLeg [] "echo" .never }] }

theorem echo_sent (skills : List LoadedSkill) (need : ApprovalRequirement) (h : ok "echo") :
    SendsWithin ok (callLeg skills "echo" need) := by
  intro i reply hreply c hc
  have hsame : reply = sends "echo" := by
    simpa [Round.replies, callLeg, callRound] using hreply
  rw [hsame] at hc
  rw [List.mem_singleton.mp hc]
  exact h

theorem echo_spelled (reasoning : Reasoning) (ok : String → Prop) (need : ApprovalRequirement)
    (h : ok "echo") : SpellsWithin reasoning ok (callLeg [] "echo" need) := by
  intro i reply hreply c hc
  have hsame : reply = sends "echo" := by
    simpa [Round.replies, callLeg, callRound] using hreply
  rw [hsame] at hc
  have hname : c.name ∈ ["echo"] := recovered_named _ _ _ c hc
  rw [List.mem_singleton.mp hname]
  exact h

theorem ceiling_kept_echo :
    (turnCalls (fun _ => "null") webSetting echoTurn idleSession).map ToolCall.name =
      ["echo", "echo", "echo"] ∧
    ∀ c ∈ turnCalls (fun _ => "null") webSetting echoTurn idleSession,
      Knows echoTurn c.name → c.name ∈ readOnlyTools := by
  have hecho : Harmless echoTurn "echo" := fun _ => by decide
  refine ⟨by decide, ?_⟩
  apply ceiling_kept (fun _ => "null") webSetting echoTurn idleSession
  · exact ⟨Thread.new, rfl, rfl⟩
  · exact ⟨⟨.installed⟩, List.mem_cons_self, rfl⟩
  · exact echo_sent _ _ _ hecho
  · intro next hnext
    rw [List.mem_singleton.mp hnext]
    exact ⟨echo_sent _ _ _ hecho, Or.inr (echo_spelled _ _ _ hecho)⟩

def shellTurn : ChatTurn := ⟨callInput "shell" .never, []⟩

/-- The model was shown `echo` only; the call of `shell` it sends is executed
all the same. -/
theorem shell_executed :
    Opens webSetting shellTurn.input idleSession ∧ Restricted shellTurn.input.leg ∧
      ∃ c ∈ turnCalls (fun _ => "null") webSetting shellTurn idleSession,
        Knows shellTurn c.name ∧ c.name ∉ readOnlyTools := by
  have hcalls : turnCalls (fun _ => "null") webSetting shellTurn idleSession =
      [⟨"call_1", "shell", .null⟩] := by decide
  refine ⟨⟨Thread.new, rfl, rfl⟩, ⟨⟨.installed⟩, List.mem_cons_self, rfl⟩, ?_⟩
  rw [hcalls]
  exact ⟨_, List.mem_cons_self, Or.inl ⟨1, by decide⟩, by decide⟩

end IronClaw.SkillCeiling
