import IronClaw.Approval

/-!
# A batch across its approvals

A batch runs until a call has to wait, and each approval runs the waiting
call and the deferred ones behind it until the next one has to wait. The
invariant says which part of the batch is done: its results stand in the
stored context, in order, and its calls have been executed or rejected once
each.
-/

set_option autoImplicit false

namespace IronClaw.ApprovalChain
open IronClaw.JsonValue IronClaw.LlmMessage IronClaw.SessionThread IronClaw.Submission
open IronClaw.Hooks IronClaw.Dispatcher IronClaw.Approval Lib.Runs Lib.Slots

theorem numbered_calls (i : ℕ) (calls : List ToolCall) :
    (numbered i calls).map Prod.snd = calls := by
  induction calls generalizing i with
  | nil => rfl
  | cons c cs ih => simp [numbered, ih]

theorem numbered_range (i k : ℕ) (tc : ToolCall) (calls : List ToolCall)
    (h : (k, tc) ∈ numbered i calls) : i ≤ k ∧ k < i+calls.length := by
  induction calls generalizing i with
  | nil => simp [numbered] at h
  | cons c cs ih =>
    rw [List.length_cons]
    rcases List.mem_cons.mp h with heq | htail
    · have hk : k = i := congrArg Prod.fst heq
      omega
    · have := ih (i+1) htail
      omega

theorem numbered_nodup (i : ℕ) (calls : List ToolCall) :
    ((numbered i calls).map Prod.fst).Nodup := by
  induction calls generalizing i with
  | nil => exact List.nodup_nil
  | cons c cs ih =>
    rw [numbered, List.map_cons, List.nodup_cons]
    constructor
    · intro hmem
      obtain ⟨⟨k, tc⟩, hk, rfl⟩ := List.mem_map.mp hmem
      have := (numbered_range _ _ _ _ hk).1
      omega
    · exact ih (i+1)

/-- Whatever order the deferred tasks finish in, each call gets its own
result, and the calls keep their order. -/
theorem deferredExecute_own (runs : Runs) (calls : List ToolCall) :
    deferredExecute runs calls = (numbered 0 calls).map (fun t =>
      (t.2, ownResult runs (decide (1 < calls.length)) t.1 t.2)) := by
  unfold deferredExecute
  split
  · next hsingle =>
    apply List.map_congr_left
    intro t _
    rw [ownResult, if_neg]
    simp
    omega
  · next hmany =>
    apply List.map_congr_left
    intro t ht
    have hrange := numbered_range 0 t.1 t.2 calls ht
    have hslot := joinAll_slot runs (numbered 0 calls) t.1 t.2 calls.length
      (numbered_nodup 0 calls) ht (by omega)
    rw [hslot, ownResult]
    have hlen : 1 < calls.length := by omega
    by_cases hp : runs.panics t.1 = true
    · simp [hp, hlen]
    · simp [hp]

variable (agent : Agent)

theorem deferredPreflight_split (sess : Session) (i : ℕ) (calls : List ToolCall) :
    ((deferredPreflight agent sess i calls).2 = none ∧
      (deferredPreflight agent sess i calls).1 = calls) ∨
    ∃ pre c rest tool allowAlways,
      calls = pre++c::rest ∧ (deferredPreflight agent sess i calls).1 = pre ∧
      (deferredPreflight agent sess i calls).2 = some ⟨i+pre.length, c, tool, allowAlways⟩ := by
  induction calls generalizing i with
  | nil => exact Or.inl ⟨rfl, rfl⟩
  | cons c cs ih =>
    simp only [deferredPreflight]
    split
    · next tool allowAlways _ => exact Or.inr ⟨[], c, cs, tool, allowAlways, rfl, rfl, rfl⟩
    · rcases ih (i+1) with ⟨hnone, hall⟩ | ⟨pre, d, rest, tool, aa, hcs, hpre, hask⟩
      · exact Or.inl ⟨hnone, by rw [hall]⟩
      · right
        refine ⟨c::pre, d, rest, tool, aa, by rw [hcs]; rfl, by rw [hpre], ?_⟩
        rw [hask, List.length_cons, Nat.add_assoc, Nat.add_comm 1]

def deferredMessage (agent : Agent) (r : ToolCall × Except Error String) : ChatMessage :=
  .toolResult r.1.id r.1.name (processToolResult agent r.1 r.2)

def Silent (agent : Agent) (runs : Runs) : Prop :=
  ∀ i tc, checkAuthRequired agent.json tc.name (runs.result i tc) = none

theorem ownResult_silent (runs : Runs) (several : Bool) (i : ℕ) (tc : ToolCall)
    (h : Silent agent runs) :
    checkAuthRequired agent.json tc.name (ownResult runs several i tc) = none := by
  unfold ownResult
  split
  · unfold checkAuthRequired taskFailed
    split <;> rfl
  · exact h i tc

theorem deferredPostflight_silent (now : ℤ) (threadId : Uuid)
    (rs : List (ToolCall × Except Error String)) (p : Postflight)
    (h : ∀ r ∈ rs, checkAuthRequired agent.json r.1.name r.2 = none) (hp : p.deferredAuth = none) :
    (deferredPostflight agent now threadId rs p).deferredAuth = none ∧
    (deferredPostflight agent now threadId rs p).context =
      p.context++rs.map (deferredMessage agent) ∧
    ∃ f, Touches threadId f p.session (deferredPostflight agent now threadId rs p).session := by
  induction rs generalizing p with
  | nil => exact ⟨hp, by simp [deferredPostflight], _, touches_refl threadId p.session⟩
  | cons r rs ih =>
    have hr := h r List.mem_cons_self
    have hcall : deferredPostCall agent now threadId r p =
        ⟨recordInTurn p.session threadId
            (recordOutcome (processToolResult agent r.1 r.2) (isError r.2)),
          p.context++[deferredMessage agent r], none⟩ := by
      simp only [deferredPostCall, hp, if_true, hr]
      rfl
    obtain ⟨hauth, hctx, f, hf⟩ := ih (deferredPostCall agent now threadId r p)
      (fun q hq => h q (List.mem_cons_of_mem r hq)) (by rw [hcall])
    rw [hcall] at hauth hctx hf
    rw [deferredPostflight, hcall]
    refine ⟨hauth, ?_, _, touches_trans threadId _ f _ _ _ (touches_record _ _ _) hf⟩
    simpa using hctx

theorem postflight_silent (now : ℤ) (threadId : Uuid) (slots : List (Option (Except Error String)))
    (i : ℕ) (es : List (ToolCall × PreflightOutcome)) (p : Postflight)
    (h : ∀ j tc, es[j]? = some (tc, .runnable) → checkAuthRequired agent.json tc.name
      (slots[i+j]?.join.getD (.error (.toolExecutionFailed tc.name "No result available"))) = none)
    (hp : p.deferredAuth = none) :
    (postflight agent now threadId slots i es p).deferredAuth = none := by
  induction es generalizing i p with
  | nil => exact hp
  | cons e es ih =>
    rw [postflight]
    apply ih
    · intro j tc hj
      have := h (j+1) tc (by simpa using hj)
      rwa [show i+(j+1) = i+1+j by omega] at this
    · obtain ⟨tc, outcome⟩ := e
      cases outcome with
      | rejected text => exact hp
      | runnable =>
        have hauth := h 0 tc rfl
        rw [Nat.add_zero] at hauth
        simp only [postflightCall, hp, if_true, hauth]

section Start

variable (agent : Agent) (message : IncomingMessage) (site : Site) (runs : Runs) (sess : Session)
  (context : List ChatMessage) (content : Option String) (calls : List ToolCall)

theorem batch_outcome (h : Silent agent runs) :
    (executeToolCalls agent message site runs sess context content calls).outcome =
      (askFrom agent message sess 0 calls).map (fun ask =>
        .needApproval (askPending ask site.requestId
          (executeToolCalls agent message site runs sess context content calls).context
          (calls.drop (ask.idx+1)) (some site.userTz))) := by
  have hauth : ∀ p : Postflight, p.deferredAuth = none →
      (postflight agent site.now site.threadId
        (execute runs (runnableFrom 0 (batchEntries agent message sess calls))
          (batchEntries agent message sess calls).length) 0
        (batchEntries agent message sess calls) p).deferredAuth = none := by
    intro p hp
    apply postflight_silent _ _ _ _ _ _ _ _ hp
    intro j tc hj
    rw [Nat.zero_add, execute_slot runs _ j tc hj]
    exact ownResult_silent agent runs _ j tc h
  simp only [executeToolCalls, batch_preflight]
  rw [hauth _ rfl]
  cases askFrom agent message sess 0 calls <;> rfl

theorem batch_ghosts :
    (executeToolCalls agent message site runs sess context content calls).hooked =
      hookedFrom agent message sess 0 calls ∧
    (executeToolCalls agent message site runs sess context content calls).rejected =
      rejectedCalls (batchEntries agent message sess calls) ∧
    (executeToolCalls agent message site runs sess context content calls).executed =
      (runnableFrom 0 (batchEntries agent message sess calls)).map Prod.snd := by
  simp only [executeToolCalls, batch_preflight, and_self]

end Start

def messageKey (m : ChatMessage) : Role × Option String × Option String :=
  (m.role, m.toolCallId, m.name)

def resultKey (c : ToolCall) : Role × Option String × Option String :=
  (.tool, some c.id, some c.name)

theorem resultKey_congr (cs ds : List ToolCall) (h : cs.map key = ds.map key) :
    cs.map resultKey = ds.map resultKey := by
  have hkey : ∀ l : List ToolCall, l.map resultKey =
      (l.map key).map (fun k => (Role.tool, some k.1, some k.2)) := by
    intro l
    rw [List.map_map]
    rfl
  rw [hkey cs, hkey ds, h]

section Protocol

variable (threadId : Uuid) (base : List ChatMessage) (calls : List ToolCall)

def Finished (ch : Chain) : Prop :=
  ∃ results, ch.progress = .continues (base++results) ∧
    results.map messageKey = calls.map resultKey ∧
    ((ch.executed++ch.rejected).map key).Perm (calls.map key)

def WaitsFor (n : ℕ) (ch : Chain) : Prop :=
  ch.progress = .suspended ∧ ∃ th p pre c rest results,
    ch.session.threads threadId = some th ∧ th.state = .awaitingApproval ∧
    th.pendingApproval = some p ∧ calls = pre++c::rest ∧ n = rest.length+1 ∧
    key (pendingCall p) = key c ∧ p.deferredToolCalls = rest ∧
    p.contextMessages = base++results ∧ results.map messageKey = pre.map resultKey ∧
    ((ch.executed++ch.rejected).map key).Perm (pre.map key)

def Grants (stage : Stage) (ch : Chain) : Prop :=
  stage.approved = true ∧ Silent stage.agent stage.runs ∧
  (∀ tc, checkAuthRequired stage.agent.json tc.name (stage.approvedRun tc) = none) ∧
  ∀ th p, ch.session.threads threadId = some th → th.pendingApproval = some p →
    mismatched stage.request p = false

theorem replay_keys (agent : Agent) (runs : Runs) (pre : List ToolCall) :
    ((deferredExecute runs pre).map (deferredMessage agent)).map messageKey =
      pre.map resultKey := by
  rw [deferredExecute_own, List.map_map, List.map_map]
  have hnum : pre.map resultKey = ((numbered 0 pre).map Prod.snd).map resultKey := by
    rw [numbered_calls]
  rw [hnum, List.map_map]
  rfl

theorem replay_silent (agent : Agent) (runs : Runs) (pre : List ToolCall)
    (h : Silent agent runs) :
    ∀ r ∈ deferredExecute runs pre, checkAuthRequired agent.json r.1.name r.2 = none := by
  intro r hr
  rw [deferredExecute_own] at hr
  obtain ⟨t, -, rfl⟩ := List.mem_map.mp hr
  exact ownResult_silent agent runs _ t.1 t.2 h

/-- One approval: the deferred calls all run, or they run up to the next one
that has to wait. -/
theorem replayDeferred_cases (stage : Stage) (pending : PendingApproval) (sess : Session)
    (context : List ChatMessage) (t : Thread) (ht : sess.threads threadId = some t)
    (hsilent : Silent stage.agent stage.runs) :
    (∃ results, (replayDeferred stage threadId pending sess context).outcome =
        .resumes (context++results) ∧
      results.map messageKey = pending.deferredToolCalls.map resultKey ∧
      (replayDeferred stage threadId pending sess context).executed =
        pending.deferredToolCalls) ∨
    ∃ pre c rest next results result th,
      pending.deferredToolCalls = pre++c::rest ∧
      (replayDeferred stage threadId pending sess context).outcome = .returned result ∧
      (replayDeferred stage threadId pending sess context).executed = pre ∧
      (replayDeferred stage threadId pending sess context).session.threads threadId = some th ∧
      th.state = .awaitingApproval ∧ th.pendingApproval = some next ∧
      pendingCall next = c ∧ next.deferredToolCalls = rest ∧
      next.contextMessages = context++results ∧ results.map messageKey = pre.map resultKey := by
  have hpost := deferredPostflight_silent stage.agent stage.now threadId
    (deferredExecute stage.runs
      (deferredPreflight stage.agent sess 0 pending.deferredToolCalls).1)
    ⟨sess, context, none⟩
    (replay_silent stage.agent stage.runs _ hsilent) rfl
  obtain ⟨hauth, hcontext, f, -, htouch⟩ := hpost
  obtain ⟨t', ht', -, -, -⟩ := htouch t ht
  rcases deferredPreflight_split stage.agent sess 0 pending.deferredToolCalls with
    ⟨hnone, hall⟩ | ⟨pre, c, rest, tool, allowAlways, hsplit, hpre, hask⟩
  · left
    rw [hall] at hauth hcontext
    refine ⟨_, ?_, replay_keys stage.agent stage.runs pending.deferredToolCalls, ?_⟩
    · simp only [replayDeferred, hauth, hnone, hcontext, hall]
    · simp only [replayDeferred, hauth, hnone, hall]
  · right
    have hdrop : pending.deferredToolCalls.drop (0+pre.length+1) = rest := by
      rw [hsplit]
      simp
    rw [hpre] at hauth hcontext ht'
    obtain ⟨next, hnext⟩ : ∃ next, next = askPending ⟨0+pre.length, c, tool, allowAlways⟩
        stage.requestId
        (deferredPostflight stage.agent stage.now threadId (deferredExecute stage.runs pre)
          ⟨sess, context, none⟩).context
        (pending.deferredToolCalls.drop (0+pre.length+1)) pending.userTimezone := ⟨_, rfl⟩
    have hreplay : replayDeferred stage threadId pending sess context =
        ⟨.returned (.ok (needApproval next)),
          (deferredPostflight stage.agent stage.now threadId (deferredExecute stage.runs pre)
            ⟨sess, context, none⟩).session.modifyThread threadId (fun t => t.awaitApproval next),
          pre⟩ := by
      simp only [replayDeferred, hpre, hauth, hask, hnext]
    rw [hreplay]
    refine ⟨pre, c, rest, next, (deferredExecute stage.runs pre).map (deferredMessage stage.agent),
      _, t'.awaitApproval next, hsplit, rfl, rfl, modifyThread_threads _ _ _ _ ht', rfl, rfl,
      ?_, ?_, ?_, replay_keys stage.agent stage.runs pre⟩
    · rw [hnext]
      rfl
    · rw [hnext]
      exact hdrop
    · rw [hnext]
      exact hcontext

/-- Granting a stored request runs its call and then the deferred ones. -/
theorem processApproval_granted (stage : Stage) (sess : Session) (th : Thread)
    (p : PendingApproval) (hth : sess.threads threadId = some th)
    (hstate : th.state = .awaitingApproval) (hpending : th.pendingApproval = some p)
    (hmatch : mismatched stage.request p = false) (happroved : stage.approved = true)
    (hauth : checkAuthRequired stage.agent.json (pendingCall p).name
      (stage.approvedRun (pendingCall p)) = none) :
    ∃ sess' t content, sess'.threads threadId = some t ∧
      let replay := replayDeferred stage threadId p sess'
        (p.contextMessages++[.toolResult p.toolCallId p.toolName content])
      (processApproval stage threadId sess).outcome = replay.outcome ∧
      (processApproval stage threadId sess).session = replay.session ∧
      (processApproval stage threadId sess).executed = pendingCall p::replay.executed := by
  obtain ⟨sess', t, content, ht, happrove⟩ := approve_session stage threadId p _ _
    (taken_thread sess threadId { th with pendingApproval := none })
  refine ⟨sess', t, content, ht, ?_⟩
  rw [processApproval_waiting stage threadId sess th p hth hstate hpending]
  simp only [hmatch, happroved, happrove, hauth, Bool.false_eq_true, if_false, if_true, and_self]

theorem perm_extend (executed rejected more done add : List ToolCall)
    (h : ((executed++rejected).map key).Perm (done.map key)) (hadd : more.map key = add.map key) :
    (((executed++more)++rejected).map key).Perm ((done++add).map key) := by
  have hmove : ((executed++more)++rejected).Perm ((executed++rejected)++more) := by
    rw [List.append_assoc, List.append_assoc]
    exact List.Perm.append_left executed List.perm_append_comm
  have hkeys := hmove.map key
  have hmore : ((executed++rejected)++more).map key =
      (executed++rejected).map key++add.map key := by
    rw [List.map_append, hadd]
  have hdone : (done++add).map key = done.map key++add.map key := List.map_append
  rw [hmore] at hkeys
  rw [hdone]
  exact hkeys.trans (h.append_right _)

/-- One granted approval brings the batch to its end or waits for fewer
calls. -/
theorem approveStep_progress (n : ℕ) (stage : Stage) (ch : Chain)
    (hw : WaitsFor threadId base calls n ch) (hg : Grants threadId stage ch) :
    Finished base calls (approveStep threadId stage ch) ∨
      ∃ m, m < n ∧ WaitsFor threadId base calls m (approveStep threadId stage ch) := by
  obtain ⟨hprogress, th, p, pre, c, rest, results, hth, hstate, hpending, hcalls, hn, hkey,
    hrest, hcontext, hresults, hperm⟩ := hw
  obtain ⟨happroved, hsilent, hauth, hmatch⟩ := hg
  obtain ⟨sess', t, content, ht, hstepOut, hstepSess, hstepExec⟩ :=
    processApproval_granted threadId stage ch.session th p hth hstate hpending
      (hmatch th p hth hpending) happroved (hauth _)
  have hcurrent : messageKey (.toolResult p.toolCallId p.toolName content) = resultKey c := by
    have hid : p.toolCallId = c.id := congrArg Prod.fst hkey
    have hname : p.toolName = c.name := congrArg Prod.snd hkey
    rw [hid, hname]
    rfl
  rcases replayDeferred_cases threadId stage p sess'
      (p.contextMessages++[.toolResult p.toolCallId p.toolName content]) t ht hsilent with
    ⟨more, hout, hmore, hexec⟩ |
    ⟨pre', c', rest', next, more, result, th', hsplit, hout, hexec, hth', hstate', hpending',
      hcall', hrest', hcontext', hmore⟩
  · left
    refine ⟨results++.toolResult p.toolCallId p.toolName content::more, ?_, ?_, ?_⟩
    · simp only [approveStep, hprogress, hstepOut, hout]
      rw [hcontext]
      simp
    · simp [hresults, hmore, hcurrent, hcalls, hrest]
    · simp only [approveStep, hprogress, hstepExec, hexec]
      rw [hcalls, hrest]
      exact perm_extend ch.executed ch.rejected (pendingCall p::rest) pre (c::rest) hperm
        (by simp [hkey])
  · right
    rw [hrest] at hsplit
    refine ⟨rest'.length+1, ?_, ?_, th', next, pre++c::pre', c', rest',
      results++.toolResult p.toolCallId p.toolName content::more, ?_, hstate', hpending', ?_, rfl,
      ?_, hrest', ?_, ?_, ?_⟩
    · rw [hn, hsplit]
      simp only [List.length_append, List.length_cons]
      omega
    · simp [approveStep, hprogress, hstepOut, hout, hstepSess, returnedProgress, waits, hth',
        hstate', hpending']
    · simpa only [approveStep, hprogress, hstepSess] using hth'
    · rw [hcalls, hsplit]
      simp
    · rw [hcall']
    · rw [hcontext', hcontext]
      simp
    · simp [hresults, hmore, hcurrent]
    · simp only [approveStep, hprogress, hstepExec, hexec]
      exact perm_extend ch.executed ch.rejected (pendingCall p::pre') pre (c::pre') hperm
        (by simp [hkey])

theorem approveStep_finished (stage : Stage) (ch : Chain) (h : Finished base calls ch) :
    approveStep threadId stage ch = ch := by
  obtain ⟨results, hprogress, -, -⟩ := h
  simp only [approveStep, hprogress]

theorem run_finished (stages : List Stage) (ch : Chain) (h : Finished base calls ch) :
    Finished base calls (run (approveStep threadId) stages ch) :=
  run_invariant (approveStep threadId) (Finished base calls)
    (fun stage c hc => by rwa [approveStep_finished threadId base calls stage c hc]) stages ch h

/-- Enough granted approvals end the batch. -/
theorem run_waits (n : ℕ) (stages : List Stage) (ch : Chain)
    (hw : WaitsFor threadId base calls n ch)
    (hg : Along (approveStep threadId) (Grants threadId) stages ch) (hn : n ≤ stages.length) :
    Finished base calls (run (approveStep threadId) stages ch) := by
  induction stages generalizing n ch with
  | nil =>
    obtain ⟨-, -, -, -, -, rest, -, -, -, -, -, hlen, -⟩ := hw
    simp only [List.length_nil] at hn
    omega
  | cons stage stages ih =>
    rcases approveStep_progress threadId base calls n stage ch hw hg.1 with hf | ⟨m, hm, hw'⟩
    · exact run_finished threadId base calls stages _ hf
    · apply ih m _ hw' hg.2
      simp only [List.length_cons] at hn
      omega

end Protocol

theorem ownOutcomes_calls (runs : Runs) (several : Bool) (i : ℕ)
    (es : List (ToolCall × PreflightOutcome)) :
    (ownOutcomes agent runs several i es).map Prod.fst = es.map Prod.fst := by
  induction es generalizing i with
  | nil => rfl
  | cons e es ih => simp [ownOutcomes, ih]

section Batch

variable (agent : Agent) (message : IncomingMessage) (site : Site) (runs : Runs) (sess : Session)
  (context : List ChatMessage) (content : Option String) (calls : List ToolCall)

theorem batch_results_keys (pre : List ToolCall)
    (h : (batchEntries agent message sess calls).map (fun e => key e.1) = pre.map key) :
    ((batchOutcomes agent message runs sess calls).map resultMessage).map messageKey =
      pre.map resultKey := by
  have hmsg : ((batchOutcomes agent message runs sess calls).map resultMessage).map messageKey =
      ((batchOutcomes agent message runs sess calls).map Prod.fst).map resultKey := by
    rw [List.map_map, List.map_map]
    rfl
  rw [hmsg, batchOutcomes, ownOutcomes_calls]
  apply resultKey_congr
  rw [List.map_map, ← h]
  rfl

theorem batch_partition (pre : List ToolCall)
    (h : (batchEntries agent message sess calls).map (fun e => key e.1) = pre.map key) :
    (((runnableFrom 0 (batchEntries agent message sess calls)).map Prod.snd++
      rejectedCalls (batchEntries agent message sess calls)).map key).Perm (pre.map key) := by
  have hperm := (executed_or_rejected 0 (batchEntries agent message sess calls)).map key
  rw [List.map_map] at hperm
  rw [← h]
  exact hperm

/-- The start of a chain: the batch is done, or it waits for the first call
that needs approval and all calls behind it. -/
theorem startChain_cases (th : Thread) (hth : sess.threads site.threadId = some th)
    (hstate : th.state ≠ .interrupted) (hsilent : Silent agent runs) :
    (askFrom agent message sess 0 calls = none ∧
      Finished (context++[.assistantWithToolCalls content calls]) calls
        (startChain agent message site runs sess context content calls)) ∨
    ∃ pre c rest tc tool allowAlways,
      calls = pre++c::rest ∧
      (batchEntries agent message sess calls).map (fun e => key e.1) = pre.map key ∧
      preflightCall agent message sess pre.length c = .ask tc tool allowAlways ∧
      askFrom agent message sess 0 calls = some ⟨pre.length, tc, tool, allowAlways⟩ ∧
      WaitsFor site.threadId (context++[.assistantWithToolCalls content calls]) calls
        (rest.length+1) (startChain agent message site runs sess context content calls) := by
  have hout := batch_outcome agent message site runs sess context content calls hsilent
  obtain ⟨-, hrejected, hexecuted⟩ :=
    batch_ghosts agent message site runs sess context content calls
  have hcontext := batch_context agent message site runs sess context content calls
  have hkeys := entriesFrom_keys agent message sess 0 calls
  rcases walk_split agent message sess 0 calls with
    ⟨hask, hlen⟩ | ⟨pre, c, rest, tc, tool, allowAlways, hcalls, hlen, hcall, hask⟩
  · left
    rw [hlen, List.take_length] at hkeys
    rw [hask, Option.map_none] at hout
    refine ⟨hask, _, ?_, batch_results_keys agent message runs sess calls calls hkeys, ?_⟩
    · simp only [startChain, hout, hcontext]
    · simp only [startChain, hout, hexecuted, hrejected]
      exact batch_partition agent message sess calls calls hkeys
  · right
    rw [Nat.zero_add] at hcall hask
    rw [hlen] at hkeys
    have htake : calls.take pre.length = pre := by
      rw [hcalls, List.take_left]
    have hdrop : calls.drop (pre.length+1) = rest := by
      rw [hcalls]
      simp
    rw [htake] at hkeys
    rw [hask, Option.map_some] at hout
    obtain ⟨-, htouch⟩ := batch_touches agent message site runs sess context content calls
    obtain ⟨th', hth', -, hstate', -⟩ := htouch th hth
    obtain ⟨p, hp⟩ : ∃ p, p = askPending ⟨pre.length, tc, tool, allowAlways⟩ site.requestId
        (executeToolCalls agent message site runs sess context content calls).context
        (calls.drop (pre.length+1)) (some site.userTz) := ⟨_, rfl⟩
    obtain ⟨hwaiting, hsuspended⟩ :=
      suspend_waits site.threadId p _ th' hth' (by rwa [hstate'])
    have hstart : startChain agent message site runs sess context content calls =
        ⟨.suspended, suspend site.threadId p (executeToolCalls agent message site runs sess
          context content calls).session, hookedFrom agent message sess 0 calls,
          rejectedCalls (batchEntries agent message sess calls),
          (runnableFrom 0 (batchEntries agent message sess calls)).map Prod.snd⟩ := by
      simp only [startChain, hout, ← hp, hsuspended, hrejected, hexecuted,
        (batch_ghosts agent message site runs sess context content calls).1]
    have hkey : key (pendingCall p) = key c := by
      have hverdict := preflightCall_key agent message sess pre.length c
      rw [hcall] at hverdict
      rw [hp, key, key, ← hverdict.1, ← hverdict.2]
      rfl
    refine ⟨pre, c, rest, tc, tool, allowAlways, hcalls, hkeys, hcall, hask, ?_⟩
    rw [hstart]
    refine ⟨rfl, th'.awaitApproval p, p, pre, c, rest,
      (batchOutcomes agent message runs sess calls).map resultMessage, hwaiting, rfl, rfl, hcalls,
      rfl, hkey, ?_, ?_, batch_results_keys agent message runs sess calls pre hkeys,
      batch_partition agent message sess calls pre hkeys⟩
    · rw [hp]
      exact hdrop
    · rw [hp]
      exact hcontext

theorem chain_finishes (th : Thread) (hth : sess.threads site.threadId = some th)
    (hstate : th.state ≠ .interrupted) (hsilent : Silent agent runs) (stages : List Stage)
    (hgrants : Along (approveStep site.threadId) (Grants site.threadId) stages
      (startChain agent message site runs sess context content calls))
    (hlen : calls.length ≤ stages.length) :
    Finished (context++[.assistantWithToolCalls content calls]) calls
      (run (approveStep site.threadId) stages
        (startChain agent message site runs sess context content calls)) := by
  rcases startChain_cases agent message site runs sess context content calls th hth hstate
      hsilent with ⟨-, hf⟩ | ⟨pre, c, rest, tc, tool, allowAlways, hcalls, -, -, -, hw⟩
  · exact run_finished _ _ _ stages _ hf
  · apply run_waits _ _ _ _ stages _ hw hgrants
    have hcount := congrArg List.length hcalls
    simp only [List.length_append, List.length_cons] at hcount
    omega

/-- Approvals end every batch: after as many granted approvals as it has
calls, the loop goes on with a context in which the assistant message is
followed by one result per call, in order. Together the executed and the
rejected calls are the calls of the batch, each once. -/
theorem approval_chain_protocol (th : Thread) (hth : sess.threads site.threadId = some th)
    (hstate : th.state ≠ .interrupted) (hsilent : Silent agent runs) (stages : List Stage)
    (hgrants : Along (approveStep site.threadId) (Grants site.threadId) stages
      (startChain agent message site runs sess context content calls))
    (hlen : calls.length ≤ stages.length) :
    let ch := run (approveStep site.threadId) stages
      (startChain agent message site runs sess context content calls)
    ∃ results,
      ch.progress = .continues (context++[.assistantWithToolCalls content calls]++results) ∧
      results.map messageKey = calls.map resultKey ∧
      ((ch.executed++ch.rejected).map key).Perm (calls.map key) :=
  chain_finishes agent message site runs sess context content calls th hth hstate hsilent stages
    hgrants hlen

end Batch

def failingRuns : Runs := { echoRuns with result := fun _ _ => .error (.other "unavailable") }

def granting (agent : Agent) (message : IncomingMessage) : Stage :=
  ⟨agent, message, 0, 0, none, true, false, fun _ => .error (.other "unavailable"), failingRuns⟩

theorem error_silent (json : Json) (name : String) (e : Error) :
    checkAuthRequired json name (.error e) = none := by
  unfold checkAuthRequired
  split <;> rfl

theorem failing_silent : Silent agent failingRuns :=
  fun _ tc => error_silent agent.json tc.name _

theorem granting_along (message : IncomingMessage) (threadId : Uuid) (n : ℕ) (ch : Chain) :
    Along (approveStep threadId) (Grants threadId) (List.replicate n (granting agent message))
      ch := by
  induction n generalizing ch with
  | zero => trivial
  | succ n ih =>
    refine ⟨⟨rfl, failing_silent agent, fun tc => error_silent _ _ _, ?_⟩, ih _⟩
    intro th p _ _
    rfl

def gatedAgent : Agent :=
  { bareAgent with
    tools := fun name => if name = "shell" then some ⟨"Run a command", [], fun _ => .always⟩
      else none }

def gatedCalls : List ToolCall := [⟨"call_0", "shell", .null⟩, ⟨"call_1", "echo", .null⟩]

theorem approval_chain_gated :
    let ch := run (approveStep 0) (List.replicate 2 (granting gatedAgent webMessage))
      (startChain gatedAgent webMessage webSite failingRuns openSession [] none gatedCalls)
    ∃ results,
      ch.progress = .continues ([]++[.assistantWithToolCalls none gatedCalls]++results) ∧
      results.map messageKey = gatedCalls.map resultKey ∧
      ((ch.executed++ch.rejected).map key).Perm (gatedCalls.map key) :=
  approval_chain_protocol gatedAgent webMessage webSite failingRuns openSession [] none gatedCalls
    openThread rfl (by decide) (failing_silent gatedAgent) _
    (granting_along gatedAgent webMessage 0 2 _) (by decide)

end IronClaw.ApprovalChain
