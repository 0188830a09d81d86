import IronClaw.Dispatcher

/-!
# Where the results of a batch are recorded

A batch records all its calls before it runs any of them, and every result
afterwards goes to the call recorded last. A turn therefore shows each call
its own result exactly when the batch has at most one call.
-/

set_option autoImplicit false

namespace IronClaw.ToolBatch
open IronClaw.JsonValue IronClaw.LlmMessage IronClaw.SessionThread IronClaw.Submission
open IronClaw.Hooks IronClaw.Dispatcher

def blankEntry (agent : Agent) (c : ToolCall) : TurnToolCall :=
  ⟨c.name, agent.safeArgs c, none, none⟩

def recordedEntry (agent : Agent) (c : ToolCall) (o : String × Bool) : TurnToolCall :=
  ⟨c.name, agent.safeArgs c, if o.2 then none else some (.string o.1),
    if o.2 then some o.1 else none⟩

def writeOutcome (o : ToolCall × String × Bool) (c : TurnToolCall) : TurnToolCall :=
  if o.2.2 then { c with error := some o.2.1 } else { c with result := some (.string o.2.1) }

theorem recordOutcome_toolCalls (o : ToolCall × String × Bool) (turn : Turn) :
    (recordOutcome o.2.1 o.2.2 turn).toolCalls = modifyLast (writeOutcome o) turn.toolCalls := by
  obtain ⟨tc, text, isError⟩ := o
  cases isError <;> rfl

theorem recordOutcome_turnNumber (content : String) (isError : Bool) (turn : Turn) :
    (recordOutcome content isError turn).turnNumber = turn.turnNumber := by
  unfold recordOutcome
  split <;> rfl

variable (os : List (ToolCall × String × Bool))

theorem recordAll_toolCalls (turn : Turn) :
    (recordAll os turn).toolCalls =
      modifyLast (fun c => os.foldl (fun c o => writeOutcome o c) c) turn.toolCalls := by
  induction os generalizing turn with
  | nil => exact (modifyLast_id turn.toolCalls).symm
  | cons o os ih =>
    have hrest := ih (recordOutcome o.2.1 o.2.2 turn)
    rw [recordOutcome_toolCalls, modifyLast_comp] at hrest
    exact hrest

theorem recordAll_turnNumber (turn : Turn) :
    (recordAll os turn).turnNumber = turn.turnNumber := by
  induction os generalizing turn with
  | nil => rfl
  | cons o os ih => exact (ih _).trans (recordOutcome_turnNumber _ _ _)

theorem recordCalls_toolCalls (agent : Agent) (calls : List ToolCall) (turn : Turn) :
    (calls.foldl (fun t tc => t.recordToolCall tc.name (agent.safeArgs tc)) turn).toolCalls =
        turn.toolCalls++calls.map (blankEntry agent) ∧
      (calls.foldl (fun t tc => t.recordToolCall tc.name (agent.safeArgs tc)) turn).turnNumber =
        turn.turnNumber := by
  induction calls generalizing turn with
  | nil => simp
  | cons c cs ih =>
    have hrest := ih (turn.recordToolCall c.name (agent.safeArgs c))
    rw [List.foldl_cons, hrest.1, hrest.2]
    simp [Turn.recordToolCall, blankEntry]

theorem modifyLast_append {α : Type} (f : α → α) (xs : List α) (y : α) (ys : List α) :
    modifyLast f (xs++y::ys) = xs++modifyLast f (y::ys) := by
  induction xs with
  | nil => rfl
  | cons x xs ih =>
    cases xs with
    | nil => rfl
    | cons z zs =>
      simp only [List.cons_append, modifyLast] at ih ⊢
      rw [ih]

section Claim

variable (agent : Agent) (message : IncomingMessage) (site : Site) (runs : Runs) (sess : Session)
  (context : List ChatMessage) (content : Option String) (calls : List ToolCall)

def NoApproval : Prop :=
  ∀ i c, calls[i]? = some c → ∀ tc tool allowAlways,
    preflightCall agent message sess i c ≠ .ask tc tool allowAlways

def callOutcome (i : ℕ) (c : ToolCall) : Option (String × Bool) :=
  (preflightCall agent message sess i c).entry.map (ownOutcome agent runs
    (several (runnableFrom 0 (batchEntries agent message sess calls))) i)

def CarriesOwn (prior : List TurnToolCall) (turn : Turn) : Prop :=
  ∀ i c o, calls[i]? = some c → callOutcome agent message runs sess calls i c = some o →
    turn.toolCalls[prior.length+i]? = some (recordedEntry agent c o)

def PairsOwn (render : Value → String) (prior : List TurnToolCall) (turn : Turn) : Prop :=
  ∀ i c o, calls[i]? = some c → callOutcome agent message runs sess calls i c = some o →
    (turn.toolMessages render)[prior.length+i+1]? = some (.toolResult
      (callId turn.turnNumber (prior.length+i)) c.name (truncatePreview o.1 1000))

theorem recordedEntry_ne_blank (c : ToolCall) (o : String × Bool) :
    recordedEntry agent c o ≠ blankEntry agent c := by
  obtain ⟨text, isError⟩ := o
  cases isError <;> simp [recordedEntry, blankEntry]

theorem batch_turn (th : Thread) (ts : List Turn) (turn : Turn)
    (hth : sess.threads site.threadId = some th) (hturns : th.turns = ts++[turn]) :
    ∃ th' turn',
      (executeToolCalls agent message site runs sess context content calls).session.threads
        site.threadId = some th' ∧
      th'.turns = ts++[turn'] ∧ turn'.turnNumber = turn.turnNumber ∧
      turn'.toolCalls = modifyLast
        (fun c => (batchOutcomes agent message runs sess calls).foldl
          (fun c o => writeOutcome o c) c)
        (turn.toolCalls++calls.map (blankEntry agent)) := by
  obtain ⟨-, hthread⟩ := batch_touches agent message site runs sess context content calls
  obtain ⟨th', hth', hturns', -, -⟩ := hthread th hth
  rw [hturns, modifyLast_concat] at hturns'
  obtain ⟨hcalls, hnumber⟩ := recordCalls_toolCalls agent calls turn
  refine ⟨th', _, hth', hturns', ?_, ?_⟩
  · rw [recordAll_turnNumber, hnumber]
  · rw [recordAll_toolCalls, hcalls]

theorem single_outcome (c : ToolCall) (o : String × Bool)
    (h : callOutcome agent message runs sess [c] 0 c = some o) :
    ∃ tc, batchOutcomes agent message runs sess [c] = [(tc, o)] := by
  obtain ⟨e, he, ho⟩ := Option.map_eq_some_iff.mp h
  refine ⟨e.1, ?_⟩
  have hentries : batchEntries agent message sess [c] = [e] := by
    simp [batchEntries, entriesFrom, he]
  rw [batchOutcomes, ← ho, hentries]
  rfl

theorem single_entry (c : ToolCall) (o : String × Bool) (tc : ToolCall) :
    writeOutcome (tc, o) (blankEntry agent c) = recordedEntry agent c o := by
  obtain ⟨text, isError⟩ := o
  cases isError <;> rfl

variable (render : Value → String)

theorem toolMessages_entry (turn : Turn) (prior : List TurnToolCall) (c : ToolCall)
    (o : String × Bool) (h : turn.toolCalls = prior++[recordedEntry agent c o]) :
    (turn.toolMessages render)[prior.length+1]? = some (.toolResult
      (callId turn.turnNumber prior.length) c.name (truncatePreview o.1 1000)) := by
  have hresults : ∀ (n i : ℕ) (ps : List TurnToolCall) (e : TurnToolCall),
      (resultMessages render n i (ps++[e]))[ps.length]? =
        some (.toolResult (callId n (i+ps.length)) e.name (e.content render)) := by
    intro n i ps e
    induction ps generalizing i with
    | nil => rfl
    | cons p ps ih =>
      have hidx : i+(p::ps).length = i+1+ps.length := by
        simp only [List.length_cons]
        omega
      rw [hidx]
      exact ih (i+1)
  have hcontent : (recordedEntry agent c o).content render = truncatePreview o.1 1000 := by
    obtain ⟨text, isError⟩ := o
    cases isError <;> rfl
  rw [Turn.toolMessages, h, if_neg (by simp), List.getElem?_cons_succ, hresults, hcontent,
    Nat.zero_add]
  rfl

theorem single_batch (turn turn' : Turn) (hlen : calls.length ≤ 1)
    (hcalls : turn'.toolCalls = modifyLast
      (fun c => (batchOutcomes agent message runs sess calls).foldl
        (fun c o => writeOutcome o c) c)
      (turn.toolCalls++calls.map (blankEntry agent))) :
    CarriesOwn agent message runs sess calls turn.toolCalls turn' ∧
      PairsOwn agent message runs sess calls render turn.toolCalls turn' := by
  cases calls with
  | nil => exact ⟨fun i c o hc => by simp at hc, fun i c o hc => by simp at hc⟩
  | cons c cs =>
    obtain rfl : cs = [] := List.eq_nil_of_length_eq_zero (by simpa using hlen)
    have hentry : ∀ o, callOutcome agent message runs sess [c] 0 c = some o →
        turn'.toolCalls = turn.toolCalls++[recordedEntry agent c o] := by
      intro o ho
      obtain ⟨tc, htc⟩ := single_outcome agent message runs sess c o ho
      rw [hcalls, htc, List.map_cons, List.map_nil, modifyLast_concat]
      simp only [List.foldl_cons, List.foldl_nil, single_entry]
    constructor
    · intro i d o hd ho
      cases i with
      | zero =>
        obtain rfl : c = d := by simpa using hd
        rw [hentry o ho]
        simp
      | succ i => simp at hd
    · intro i d o hd ho
      cases i with
      | zero =>
        obtain rfl : c = d := by simpa using hd
        exact toolMessages_entry agent render turn' turn.toolCalls c o (hentry o ho)
      | succ i => simp at hd

theorem first_entry_blank (turn turn' : Turn) (c d : ToolCall) (cs : List ToolCall)
    (g : TurnToolCall → TurnToolCall)
    (hcalls : turn'.toolCalls = modifyLast g
      (turn.toolCalls++(c::d::cs).map (blankEntry agent))) :
    turn'.toolCalls[turn.toolCalls.length]? = some (blankEntry agent c) := by
  rw [hcalls, List.map_cons, List.map_cons, modifyLast_append]
  simp [modifyLast]

theorem entry_of_noApproval (i : ℕ) (c : ToolCall) (h : NoApproval agent message sess calls)
    (hc : calls[i]? = some c) : ∃ o, callOutcome agent message runs sess calls i c = some o := by
  unfold callOutcome
  cases hv : preflightCall agent message sess i c with
  | ask tc tool allowAlways => exact absurd hv (h i c hc tc tool allowAlways)
  | reject tc text => exact ⟨_, rfl⟩
  | deny tc => exact ⟨_, rfl⟩
  | run tc => exact ⟨_, rfl⟩

theorem batch_results_iff (th : Thread) (ts : List Turn) (turn : Turn)
    (hth : sess.threads site.threadId = some th) (hturns : th.turns = ts++[turn])
    (hno : NoApproval agent message sess calls) :
    (∃ th' turn',
      (executeToolCalls agent message site runs sess context content calls).session.threads
        site.threadId = some th' ∧
      th'.turns = ts++[turn'] ∧
      CarriesOwn agent message runs sess calls turn.toolCalls turn' ∧
      PairsOwn agent message runs sess calls render turn.toolCalls turn') ↔
    calls.length ≤ 1 := by
  obtain ⟨th', turn', hth', hturns', -, hcalls⟩ :=
    batch_turn agent message site runs sess context content calls th ts turn hth hturns
  constructor
  · rintro ⟨th'', turn'', hth'', hturns'', hown, -⟩
    have hsame : th'' = th' := by
      rw [hth'] at hth''
      exact (Option.some.inj hth'').symm
    rw [hsame, hturns'] at hturns''
    have hturn : turn'' = turn' := by
      have hlast := List.append_cancel_left hturns''
      simpa using hlast.symm
    by_contra hlen
    match calls, hcalls, hown, hno with
    | [], _, _, _ => simp at hlen
    | [c], _, _, _ => simp at hlen
    | c::d::cs, hcalls, hown, hno =>
      obtain ⟨o, ho⟩ := entry_of_noApproval agent message runs sess (c::d::cs) 0 c hno rfl
      have hblank := first_entry_blank agent turn turn' c d cs _ hcalls
      have hfull := hown 0 c o rfl ho
      rw [hturn, Nat.add_zero, hblank] at hfull
      exact recordedEntry_ne_blank agent c o (Option.some.inj hfull).symm
  · intro hlen
    have hsingle := single_batch agent message runs sess calls render turn turn' hlen hcalls
    exact ⟨th', turn', hth', hturns', hsingle⟩

end Claim

def twoCalls : List ToolCall := [⟨"call_0", "alpha", .null⟩, ⟨"call_1", "beta", .null⟩]

theorem bare_noApproval (calls : List ToolCall) :
    NoApproval bareAgent webMessage openSession calls := by
  intro i c _ tc tool allowAlways
  simp [preflightCall, beforeToolCall, bareAgent, Hooks.run, approvalNeed]

theorem batch_results_single :
    ∃ th' turn',
      (executeToolCalls bareAgent webMessage webSite echoRuns openSession [] none
        [⟨"call_0", "alpha", .null⟩]).session.threads 0 = some th' ∧
      th'.turns = []++[turn'] ∧
      CarriesOwn bareAgent webMessage echoRuns openSession [⟨"call_0", "alpha", .null⟩] [] turn' ∧
      PairsOwn bareAgent webMessage echoRuns openSession [⟨"call_0", "alpha", .null⟩]
        (fun _ => "null") [] turn' :=
  (batch_results_iff bareAgent webMessage webSite echoRuns openSession [] none _
    (fun _ => "null") openThread [] (Turn.new 0 "hello") rfl rfl (bare_noApproval _)).mpr
    (by decide)

/-- Two successful calls: the first entry of the turn has neither a result nor
an error. -/
theorem two_calls_lose_a_result :
    NoApproval bareAgent webMessage openSession twoCalls ∧
    callOutcome bareAgent webMessage echoRuns openSession twoCalls 0
      ⟨"call_0", "alpha", .null⟩ = some ("alpha", false) ∧
    ∃ th' turn',
      (executeToolCalls bareAgent webMessage webSite echoRuns openSession [] none
        twoCalls).session.threads 0 = some th' ∧
      th'.turns = [turn'] ∧
      turn'.toolCalls = [⟨"alpha", .null, none, none⟩,
        ⟨"beta", .null, some (.string "beta"), none⟩] ∧
      ¬ CarriesOwn bareAgent webMessage echoRuns openSession twoCalls [] turn' := by
  refine ⟨bare_noApproval twoCalls, by decide, _, _, rfl, rfl, by decide, ?_⟩
  intro hown
  have hfirst := hown 0 ⟨"call_0", "alpha", .null⟩ ("alpha", false) rfl (by decide)
  revert hfirst
  decide

end IronClaw.ToolBatch
