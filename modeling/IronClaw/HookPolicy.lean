import Mathlib.Data.List.Perm.Subperm
import IronClaw.ApprovalChain

/-!
# Hooks and deferred calls

The dispatcher runs the hooks on every call before it decides about it. The
walk over deferred calls in `process_approval` runs none. A batch is safe
whatever the tools and the user do exactly when only its last call may have
to wait, since then nothing is ever deferred.
-/

set_option autoImplicit false

namespace IronClaw.HookPolicy
open IronClaw.JsonValue IronClaw.LlmMessage IronClaw.SessionThread IronClaw.Submission
open IronClaw.Hooks IronClaw.Dispatcher IronClaw.Approval IronClaw.ApprovalChain Lib.Runs

section Policy

variable (agent : Agent) (message : IncomingMessage) (sess : Session) (calls : List ToolCall)

def OnlyLastAsks : Prop :=
  ∀ i c, calls[i]? = some c → i+1 < calls.length → ∀ tc tool allowAlways,
    preflightCall agent message sess i c ≠ .ask tc tool allowAlways

def HookSafe (ch : Chain) : Prop := ch.executed.Subperm ch.hooked

def RelaySafe (ch : Chain) : Prop :=
  isSharedRelay message = true →
    ch.progress ≠ .suspended ∧ ∀ tc ∈ ch.executed, approvalNeed agent sess tc = none

theorem entriesFrom_not_ask (i j : ℕ) (c : ToolCall) (hc : calls[j]? = some c)
    (hj : j < (entriesFrom agent message sess i calls).length) (tc : ToolCall) (tool : Tool)
    (allowAlways : Bool) : preflightCall agent message sess (i+j) c ≠ .ask tc tool allowAlways := by
  induction calls generalizing i j with
  | nil => simp at hc
  | cons d ds ih =>
    cases j with
    | zero =>
      obtain rfl : d = c := by simpa using hc
      intro hask
      simp only [Nat.add_zero] at hask
      simp [entriesFrom, hask, Verdict.entry] at hj
    | succ j =>
      cases hv : (preflightCall agent message sess i d).entry with
      | none => simp [entriesFrom, hv] at hj
      | some e =>
        have hnext := ih (i+1) j (by simpa using hc) (by simpa [entriesFrom, hv] using hj)
        rwa [show i+1+j = i+(j+1) by omega] at hnext

theorem onlyLast_defers (h : OnlyLastAsks agent message sess calls) (ask : Ask)
    (hask : askFrom agent message sess 0 calls = some ask) : calls.drop (ask.idx+1) = [] := by
  rcases walk_split agent message sess 0 calls with
    ⟨hnone, -⟩ | ⟨pre, c, rest, tc, tool, allowAlways, hcalls, -, hv, hsome⟩
  · rw [hnone] at hask
    simp at hask
  · rw [hsome, Nat.zero_add] at hask
    rw [Nat.zero_add] at hv
    have hidx : ask.idx = pre.length := by rw [← Option.some.inj hask]
    by_contra hne
    apply h pre.length c (by rw [hcalls]; simp) _ tc tool allowAlways hv
    rw [hidx, List.drop_eq_nil_iff] at hne
    omega

theorem run_approved (i : ℕ) (c tc : ToolCall)
    (h : preflightCall agent message sess i c = .run tc) : approvalNeed agent sess tc = none := by
  unfold preflightCall at h
  split at h
  · simp at h
  · split at h
    · next hneed =>
      have htc := Verdict.run.inj h
      rwa [← htc]
    · split at h <;> simp at h

theorem runnable_approved (i : ℕ) (e : ToolCall × PreflightOutcome)
    (h : e ∈ entriesFrom agent message sess i calls) (hr : e.2 = .runnable) :
    approvalNeed agent sess e.1 = none := by
  induction calls generalizing i with
  | nil => simp [entriesFrom] at h
  | cons c cs ih =>
    cases hv : preflightCall agent message sess i c with
    | ask tc tool allowAlways => simp [entriesFrom, hv, Verdict.entry] at h
    | run tc =>
      simp only [entriesFrom, hv, Verdict.entry, List.mem_cons] at h
      rcases h with rfl | htail
      · exact run_approved agent message sess i c tc hv
      · exact ih (i+1) htail
    | reject tc text =>
      simp only [entriesFrom, hv, Verdict.entry, List.mem_cons] at h
      rcases h with rfl | htail
      · simp at hr
      · exact ih (i+1) htail
    | deny tc =>
      simp only [entriesFrom, hv, Verdict.entry, List.mem_cons] at h
      rcases h with rfl | htail
      · simp at hr
      · exact ih (i+1) htail

theorem preflightCall_relay (i : ℕ) (c tc : ToolCall) (tool : Tool) (allowAlways : Bool)
    (h : isSharedRelay message = true) :
    preflightCall agent message sess i c ≠ .ask tc tool allowAlways := by
  unfold preflightCall
  split
  · simp
  · split
    · simp
    · simp [h]

/-- A call that asks before the last one leaves calls behind the first that
asks. -/
theorem early_ask_defers (h : ¬ OnlyLastAsks agent message sess calls) :
    isSharedRelay message = false ∧ ∃ pre c rest ask,
      calls = pre++c::rest ∧ 0 < rest.length ∧
      (entriesFrom agent message sess 0 calls).length = pre.length ∧
      askFrom agent message sess 0 calls = some ask := by
  simp only [OnlyLastAsks, not_forall, not_not] at h
  obtain ⟨i, c, hc, hi, tc, tool, allowAlways, hask⟩ := h
  have hnotYet : ¬ i < (entriesFrom agent message sess 0 calls).length := by
    intro hlt
    have hfree := entriesFrom_not_ask agent message sess calls 0 i c hc hlt tc tool allowAlways
    rw [Nat.zero_add] at hfree
    exact hfree hask
  constructor
  · by_contra hrelay
    exact preflightCall_relay agent message sess i c tc tool allowAlways
      (by simpa using hrelay) hask
  · rcases walk_split agent message sess 0 calls with
      ⟨-, hlen⟩ | ⟨pre, d, rest, tc', tool', allowAlways', hcalls, hlen, -, hsome⟩
    · omega
    · have hcount := congrArg List.length hcalls
      simp only [List.length_append, List.length_cons] at hcount
      exact ⟨pre, d, rest, _, hcalls, by omega, hlen, hsome⟩

theorem askFrom_relay (i : ℕ) (h : isSharedRelay message = true) :
    askFrom agent message sess i calls = none := by
  rcases walk_split agent message sess i calls with
    ⟨hask, -⟩ | ⟨pre, c, rest, tc, tool, allowAlways, -, -, hcall, -⟩
  · exact hask
  · exact absurd hcall (preflightCall_relay agent message sess _ c tc tool allowAlways h)

end Policy

section Chain

variable (threadId : Uuid)

def Guarded (ch : Chain) : Prop :=
  HookSafe ch ∧ (ch.progress = .suspended → ∀ th p,
    ch.session.threads threadId = some th → th.pendingApproval = some p →
    p.deferredToolCalls = [] ∧ (ch.executed++[pendingCall p]).Subperm ch.hooked)

variable (stage : Stage) (sess : Session)

theorem returned_left (t : Thread) (h : sess.threads threadId = some t)
    (hw : t.state ≠ .awaitingApproval ∨ t.pendingApproval = none) :
    returnedProgress sess threadId = .left := by
  unfold returnedProgress waits
  rw [h]
  rcases hw with hw | hw
  · simp [hw]
  · simp [hw]

/-- With nothing deferred, an approval executes at most the waiting call, and
the thread stops waiting unless the request id was wrong. -/
theorem processApproval_alone (th : Thread) (p : PendingApproval)
    (hth : sess.threads threadId = some th) (hstate : th.state = .awaitingApproval)
    (hp : th.pendingApproval = some p) (hd : p.deferredToolCalls = []) :
    ((processApproval stage threadId sess).executed = [] ∧
      ∃ th', (processApproval stage threadId sess).session.threads threadId = some th' ∧
        th'.pendingApproval = some p) ∨
    (((processApproval stage threadId sess).executed = [] ∨
        (processApproval stage threadId sess).executed = [pendingCall p]) ∧
      ∀ result, (processApproval stage threadId sess).outcome = .returned result →
        returnedProgress (processApproval stage threadId sess).session threadId = .left) := by
  have htaken := taken_thread sess threadId { th with pendingApproval := none }
  rw [processApproval_waiting stage threadId sess th p hth hstate hp]
  by_cases hm : mismatched stage.request p = true
  · left
    rw [if_pos hm]
    exact ⟨rfl, _, modifyThread_threads _ _ _ _ htaken, rfl⟩
  right
  rw [if_neg hm]
  by_cases ha : stage.approved = true
  · rw [if_pos ha]
    obtain ⟨sess', t, content, ht, happrove⟩ := approve_session stage threadId p _ _ htaken
    rw [happrove]
    split
    · refine ⟨Or.inr rfl, ?_⟩
      intro result _
      exact returned_left threadId _ _ (modifyThread_threads _ _ _ _ ht)
        (Or.inl (by simp [Thread.completeTurn]))
    · simp [replayDeferred, hd, deferredPreflight, deferredExecute, numbered, deferredPostflight]
  · rw [if_neg ha]
    refine ⟨Or.inl rfl, ?_⟩
    intro result _
    exact returned_left threadId _ _ (modifyThread_threads _ _ _ _ htaken)
      (Or.inl (by simp [Thread.completeTurn]))

/-- A submission that finds nothing to approve executes nothing. -/
theorem processApproval_stale (h : waits sess threadId = false) :
    (processApproval stage threadId sess).executed = [] ∧
    (∃ result, (processApproval stage threadId sess).outcome = .returned result) ∧
    returnedProgress (processApproval stage threadId sess).session threadId = .left := by
  have hleft : returnedProgress sess threadId = .left := by
    simp [returnedProgress, h]
  unfold processApproval
  cases hth : sess.threads threadId with
  | none => exact ⟨rfl, ⟨_, rfl⟩, hleft⟩
  | some th =>
    by_cases hstate : th.state = .awaitingApproval
    · have hnone : th.pendingApproval = none := by
        simpa [waits, hth, hstate] using h
      simp only [hstate, hnone, ne_eq, not_true, if_false]
      exact ⟨trivial, ⟨_, rfl⟩, returned_left threadId _ _ (taken_thread _ _ _) (Or.inr rfl)⟩
    · simp only [ne_eq, hstate, not_false_eq_true, if_true]
      exact ⟨trivial, ⟨_, rfl⟩, hleft⟩

theorem guarded_of_left (ch : Chain) (hsafe : HookSafe ch) (h : ch.progress ≠ .suspended) :
    Guarded threadId ch := by
  refine ⟨hsafe, ?_⟩
  intro hs
  exact absurd hs h

theorem approveStep_guarded (ch : Chain) (h : Guarded threadId ch) :
    Guarded threadId (approveStep threadId stage ch) := by
  cases hprogress : ch.progress with
  | continues context => simpa only [approveStep, hprogress] using h
  | left => simpa only [approveStep, hprogress] using h
  | suspended =>
    cases hw : waits ch.session threadId with
    | false =>
      obtain ⟨hexec, ⟨result, hout⟩, hleft⟩ := processApproval_stale threadId stage ch.session hw
      apply guarded_of_left
      · simpa only [HookSafe, approveStep, hprogress, hexec, List.append_nil] using h.1
      · simp [approveStep, hprogress, hout, hleft]
    | true =>
      obtain ⟨th, p, hth, hstate, hp⟩ := waits_pending ch.session threadId hw
      obtain ⟨hd, hcovers⟩ := h.2 hprogress th p hth hp
      rcases processApproval_alone threadId stage ch.session th p hth hstate hp hd with
        ⟨hexec, th', hth', hp'⟩ | ⟨hexec, hreturned⟩
      · have hsafe : HookSafe (approveStep threadId stage ch) := by
          simpa only [HookSafe, approveStep, hprogress, hexec, List.append_nil] using h.1
        refine ⟨hsafe, ?_⟩
        intro _ th'' p'' hth'' hp''
        simp only [approveStep, hprogress] at hth''
        rw [hth'] at hth''
        have hsame : p'' = p := by
          rw [← Option.some.inj hth'', hp'] at hp''
          exact (Option.some.inj hp'').symm
        rw [hsame]
        simpa only [approveStep, hprogress, hexec, List.append_nil] using And.intro hd hcovers
      · apply guarded_of_left
        · rcases hexec with hexec | hexec
          · simpa only [HookSafe, approveStep, hprogress, hexec, List.append_nil] using h.1
          · simpa only [HookSafe, approveStep, hprogress, hexec] using hcovers
        · cases hout : (processApproval stage threadId ch.session).outcome with
          | resumes context => simp [approveStep, hprogress, hout]
          | returned result => simp [approveStep, hprogress, hout, hreturned result hout]

theorem approveStep_settled (ch : Chain) (h : ch.progress ≠ .suspended) :
    approveStep threadId stage ch = ch := by
  unfold approveStep
  split
  · next hs => exact absurd hs h
  · rfl

theorem run_settled (stages : List Stage) (ch : Chain) (h : ch.progress ≠ .suspended) :
    run (approveStep threadId) stages ch = ch := by
  induction stages with
  | nil => rfl
  | cons stage stages ih =>
    rw [Lib.Runs.run, approveStep_settled threadId stage ch h]
    exact ih

theorem run_ghosts (stages : List Stage) (ch : Chain) :
    (run (approveStep threadId) stages ch).hooked = ch.hooked ∧
      (run (approveStep threadId) stages ch).rejected = ch.rejected := by
  apply run_invariant (approveStep threadId)
    (fun c => c.hooked = ch.hooked ∧ c.rejected = ch.rejected)
  · intro stage c hc
    unfold approveStep
    split
    · exact hc
    · exact hc
  · exact ⟨rfl, rfl⟩

end Chain

section Batch

variable (agent : Agent) (message : IncomingMessage) (site : Site) (runs : Runs) (sess : Session)
  (context : List ChatMessage) (content : Option String) (calls : List ToolCall)

theorem batch_hooked :
    ((executeToolCalls agent message site runs sess context content calls).executed++
      ((askFrom agent message sess 0 calls).map Ask.call).toList).Subperm
      (executeToolCalls agent message site runs sess context content calls).hooked := by
  obtain ⟨hhooked, -, hexecuted⟩ :=
    batch_ghosts agent message site runs sess context content calls
  rw [hhooked, hexecuted, runnableFrom_calls]
  exact (hookedFrom_covers agent message sess 0 calls).subperm

/-- Whatever the tools do, a batch suspends only for the call it asks about. -/
theorem batch_pending (p : PendingApproval)
    (h : (executeToolCalls agent message site runs sess context content calls).outcome =
      some (.needApproval p)) :
    ∃ ask, askFrom agent message sess 0 calls = some ask ∧ pendingCall p = ask.call ∧
      p.deferredToolCalls = calls.drop (ask.idx+1) := by
  simp only [executeToolCalls, batch_preflight] at h
  split at h
  · simp at h
  · next ask _ hask =>
    refine ⟨ask, hask, ?_⟩
    simp only [Option.some.injEq, LoopOutcome.needApproval.injEq] at h
    rw [← h]
    exact ⟨rfl, rfl⟩
  · simp at h

theorem startChain_ghosts :
    (startChain agent message site runs sess context content calls).hooked =
        hookedFrom agent message sess 0 calls ∧
      (startChain agent message site runs sess context content calls).rejected =
        rejectedCalls (batchEntries agent message sess calls) := by
  obtain ⟨hhooked, hrejected, -⟩ :=
    batch_ghosts agent message site runs sess context content calls
  simp only [startChain]
  split <;> exact ⟨hhooked, hrejected⟩

theorem startChain_guarded (h : OnlyLastAsks agent message sess calls) :
    Guarded site.threadId (startChain agent message site runs sess context content calls) := by
  have hcovers := batch_hooked agent message site runs sess context content calls
  have hsafe :
      (executeToolCalls agent message site runs sess context content calls).executed.Subperm
      (executeToolCalls agent message site runs sess context content calls).hooked :=
    (List.sublist_append_left _ _).subperm.trans hcovers
  simp only [startChain]
  split
  · exact guarded_of_left _ _ hsafe (by simp)
  · exact guarded_of_left _ _ hsafe (by simp)
  · next p hout =>
    obtain ⟨ask, hask, hcall, hdeferred⟩ :=
      batch_pending agent message site runs sess context content calls p hout
    have hlast := onlyLast_defers agent message sess calls h ask hask
    refine ⟨hsafe, ?_⟩
    intro hsuspended th q hth hq
    have hsame := suspend_pending site.threadId p q _ th hsuspended hth hq
    rw [hsame, hdeferred, hlast, hcall]
    rw [hask] at hcovers
    exact ⟨rfl, hcovers⟩

theorem startChain_relay (h : isSharedRelay message = true) :
    (startChain agent message site runs sess context content calls).progress ≠ .suspended ∧
    ∀ tc ∈ (startChain agent message site runs sess context content calls).executed,
      approvalNeed agent sess tc = none := by
  have hask := askFrom_relay agent message sess calls 0 h
  obtain ⟨-, -, hexecuted⟩ := batch_ghosts agent message site runs sess context content calls
  have happroved : ∀ tc ∈ (executeToolCalls agent message site runs sess context content
      calls).executed, approvalNeed agent sess tc = none := by
    intro tc htc
    rw [hexecuted, runnableFrom_calls] at htc
    obtain ⟨e, he, rfl⟩ := List.mem_map.mp htc
    obtain ⟨hmem, hr⟩ := List.mem_filter.mp he
    exact runnable_approved agent message sess calls 0 e hmem (by simpa using hr)
  simp only [startChain]
  split
  · exact ⟨by simp, happroved⟩
  · exact ⟨by simp, happroved⟩
  · next p hout =>
    obtain ⟨ask, hsome, -, -⟩ :=
      batch_pending agent message site runs sess context content calls p hout
    rw [hask] at hsome
    simp at hsome

/-- Behind a call that waits, granted approvals execute more calls than have
passed their hooks. -/
theorem deferred_unhooked (th : Thread) (hth : sess.threads site.threadId = some th)
    (hstate : th.state ≠ .interrupted) (h : ¬ OnlyLastAsks agent message sess calls) :
    ¬ HookSafe (run (approveStep site.threadId)
      (List.replicate calls.length (granting agent message))
      (startChain agent message site failingRuns sess context content calls)) := by
  obtain ⟨hshared, pre, c, rest, ask, hcalls, hrest, hlen, hsome⟩ :=
    early_ask_defers agent message sess calls h
  have hsilent := failing_silent agent
  have hfinished := chain_finishes agent message site failingRuns sess context content calls th hth
    hstate hsilent _ (granting_along agent message site.threadId calls.length _) (by simp)
  obtain ⟨-, -, -, hperm⟩ := hfinished
  obtain ⟨hhooked, hrejected⟩ := run_ghosts site.threadId
    (List.replicate calls.length (granting agent message))
    (startChain agent message site failingRuns sess context content calls)
  have hstart := startChain_ghosts agent message site failingRuns sess context content calls
  intro hsafe
  have hle := hsafe.length_le
  have htotal := hperm.length_eq
  have hsplit := (executed_or_rejected 0 (batchEntries agent message sess calls)).length_eq
  have hexact := congrArg List.length (hookedFrom_exact agent message sess 0 calls hshared)
  rw [hsome] at hexact
  rw [hhooked, hstart.1, hexact] at hle
  rw [List.length_map, List.length_append, hrejected, hstart.2, List.length_map] at htotal
  rw [runnableFrom_calls] at hsplit
  have hcount := congrArg List.length hcalls
  simp only [batchEntries, List.length_append, List.length_map, List.length_cons, List.length_nil,
    Option.map_some, Option.toList_some] at hsplit hle htotal hcount
  omega

theorem hook_policy_iff (th : Thread) (hth : sess.threads site.threadId = some th)
    (hstate : th.state ≠ .interrupted) :
    (∀ (runs : Runs) (stages : List Stage),
      let ch := run (approveStep site.threadId) stages
        (startChain agent message site runs sess context content calls)
      HookSafe ch ∧ RelaySafe agent message sess ch) ↔
    OnlyLastAsks agent message sess calls := by
  constructor
  · intro hall
    by_contra hcond
    exact deferred_unhooked agent message site sess context content calls th hth hstate hcond
      (hall failingRuns _).1
  · intro hcond runs stages
    have hstart := startChain_guarded agent message site runs sess context content calls hcond
    have hguarded := run_invariant (approveStep site.threadId) (Guarded site.threadId)
      (approveStep_guarded site.threadId) stages _ hstart
    refine ⟨hguarded.1, ?_⟩
    intro hrelay
    obtain ⟨hsettled, happroved⟩ :=
      startChain_relay agent message site runs sess context content calls hrelay
    rw [run_settled site.threadId stages _ hsettled]
    exact ⟨hsettled, happroved⟩

end Batch

def vetoHook : Hook :=
  { name := "veto", hookPoints := [.beforeToolCall], failureMode := .failClosed, timeout := "5s"
    execute := fun _ event => match event with
      | .toolCall name _ _ _ =>
        if name = "danger" then .finished (.reject "not allowed") else .finished (.proceed none)
      | _ => .finished (.proceed none) }

def vetoAgent : Agent := { gatedAgent with hooks := [vetoHook] }

def lastGated : List ToolCall := [⟨"call_0", "echo", .null⟩, ⟨"call_1", "shell", .null⟩]

theorem hook_policy_last_gated :
    HookSafe (run (approveStep 0) [granting gatedAgent webMessage]
      (startChain gatedAgent webMessage webSite echoRuns openSession [] none lastGated)) := by
  have hlast : OnlyLastAsks gatedAgent webMessage openSession lastGated := by
    intro i c hc hi tc tool allowAlways
    obtain rfl : i = 0 := by
      simp [lastGated] at hi
      omega
    obtain rfl : (⟨"call_0", "echo", .null⟩ : ToolCall) = c := by
      simpa [lastGated] using hc
    simp [preflightCall, beforeToolCall, gatedAgent, bareAgent, Hooks.run, approvalNeed]
  exact ((hook_policy_iff gatedAgent webMessage webSite openSession [] none lastGated openThread rfl
    (by decide)).mpr hlast echoRuns [granting gatedAgent webMessage]).1

/-- A call that the hook rejects is executed when it stands behind a call that
waits for approval. -/
theorem veto_bypassed_by_deferral :
    beforeToolCall vetoAgent webMessage 1 ⟨"call_1", "danger", .null⟩ =
      .error "Tool call rejected by hook: not allowed" ∧
    (run (approveStep 0) [granting vetoAgent webMessage]
      (startChain vetoAgent webMessage webSite echoRuns openSession [] none
        [⟨"call_0", "shell", .null⟩, ⟨"call_1", "danger", .null⟩])).executed =
      [⟨"call_0", "shell", .null⟩, ⟨"call_1", "danger", .null⟩] ∧
    ¬ HookSafe (run (approveStep 0) [granting vetoAgent webMessage]
      (startChain vetoAgent webMessage webSite echoRuns openSession [] none
        [⟨"call_0", "shell", .null⟩, ⟨"call_1", "danger", .null⟩])) := by
  refine ⟨by decide, by decide, ?_⟩
  intro hsafe
  have hle := hsafe.length_le
  revert hle
  decide

end IronClaw.HookPolicy
