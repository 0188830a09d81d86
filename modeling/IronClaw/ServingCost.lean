import IronClaw.CostLimits
import IronClaw.Failover

/-!
# What a chat call is charged

`ChatDelegate::call_llm` asks the failover provider for its model name, its
cache discount and multiplier and its cost for each token after the call has
returned, and each of these getters reads the one shared index of the provider
that served last. Several turns share the provider: the steps of a turn are the
answers of the providers it tries, the four reads and the entry in the cost
guard, and other turns move in between. The machine keeps a log of the calls
that were completed, with the provider that served each, and of the charges.
-/

set_option autoImplicit false

namespace IronClaw.ServingCost
open Lib.Runs
open IronClaw.CircuitBreaker (LlmError)
open IronClaw.Failover IronClaw.CostLimits

structure Prices where
  activeModelName : String
  cacheReadDiscount : ℚ
  cacheWriteMultiplier : ℚ
  costPerToken : ℚ × ℚ
  deriving DecidableEq

structure TokenUsage where
  inputTokens : ℕ
  outputTokens : ℕ
  cacheReadInputTokens : ℕ
  cacheCreationInputTokens : ℕ
  deriving DecidableEq

structure Served where
  number : ℕ
  provider : ℕ
  usage : TokenUsage
  deriving DecidableEq

/-- Where a turn is in `call_llm`. After a call that exceeded the context length
the messages are compacted and the call is made once more. -/
inductive Pc where
  | idle
  | trying (rest : List ℕ) (retried : Bool)
  | served (call : Served)
  | named (call : Served) (model : String)
  | discounted (call : Served) (model : String) (readDiscount : ℚ)
  | multiplied (call : Served) (model : String) (readDiscount writeMultiplier : ℚ)
  | priced (call : Served) (model : String) (readDiscount writeMultiplier : ℚ)
      (costPerToken : ℚ × ℚ)

def Pc.call : Pc → Option Served
  | .idle => none
  | .trying _ _ => none
  | .served call => some call
  | .named call _ => some call
  | .discounted call _ _ => some call
  | .multiplied call _ _ _ => some call
  | .priced call _ _ _ _ => some call

structure Charge where
  call : Served
  cost : ℚ

structure State where
  failover : FailoverProvider
  guard : CostGuard
  pcs : ℕ → Pc
  completed : List (ℕ × TokenUsage)
  charges : List Charge

def State.new (failover : FailoverProvider) (guard : CostGuard) : State :=
  ⟨failover, guard, fun _ => .idle, [], []⟩

inductive Label where
  | begin (turn : ℕ) (now : ℕ) (nanos : UInt64)
  | answer (turn : ℕ) (outcome : Except LlmError TokenUsage) (nanos : UInt64)
  | proceed (turn : ℕ) (today : ℤ) (now : ℕ)

def Label.turn : Label → ℕ
  | .begin turn _ _ => turn
  | .answer turn _ _ => turn
  | .proceed turn _ _ => turn

def State.goto (s : State) (turn : ℕ) (pc : Pc) : State :=
  { s with pcs := Function.update s.pcs turn pc }

def afterError (s : State) (turn : ℕ) (retried : Bool) (err : LlmError) (nanos : UInt64) : State :=
  match err, retried with
  | .contextLengthExceeded _ _, false => s.goto turn (.trying (s.failover.plan nanos) true)
  | _, _ => s.goto turn .idle

def recordArguments (usage : TokenUsage) (model : String) (readDiscount writeMultiplier : ℚ)
    (costPerToken : ℚ × ℚ) : LlmCall :=
  ⟨model, usage.inputTokens, usage.outputTokens, usage.cacheReadInputTokens,
    usage.cacheCreationInputTokens, readDiscount, writeMultiplier, some costPerToken⟩

section

variable (toLowercase : String → String) (cfg : CostGuardConfig) (prices : ℕ → Prices)

/-- One step of a turn. Every getter reads `last_used` anew. -/
def step : Label → State → State
  | .begin turn now nanos, s =>
    match s.pcs turn with
    | .idle =>
      let checked := checkAllowed cfg now s.guard
      let s := { s with guard := checked.1 }
      match checked.2 with
      | .ok _ => s.goto turn (.trying (s.failover.plan nanos) false)
      | .error _ => s
    | _ => s
  | .answer turn outcome nanos, s =>
    match s.pcs turn with
    | .trying (i::rest) retried =>
      match outcome with
      | .ok usage => { s with
          failover := s.failover.succeeded i
          pcs := Function.update s.pcs turn (.served ⟨s.completed.length, i, usage⟩)
          completed := s.completed++[(i, usage)] }
      | .error err =>
        if isRetryable err then
          let s := { s with failover := s.failover.failed i nanos }
          if rest = [] then afterError s turn retried err nanos
          else s.goto turn (.trying rest retried)
        else afterError s turn retried err nanos
    | .trying [] retried => afterError s turn retried exhausted nanos
    | _ => s
  | .proceed turn today now, s =>
    let serving := prices s.failover.lastUsed
    match s.pcs turn with
    | .served call => s.goto turn (.named call serving.activeModelName)
    | .named call model => s.goto turn (.discounted call model serving.cacheReadDiscount)
    | .discounted call model readDiscount =>
      s.goto turn (.multiplied call model readDiscount serving.cacheWriteMultiplier)
    | .multiplied call model readDiscount writeMultiplier =>
      s.goto turn (.priced call model readDiscount writeMultiplier serving.costPerToken)
    | .priced call model readDiscount writeMultiplier costPerToken =>
      let recorded := recordLlmCall toLowercase cfg (recordArguments call.usage model readDiscount
        writeMultiplier costPerToken) today now s.guard
      { s with
        guard := recorded.1
        pcs := Function.update s.pcs turn .idle
        charges := s.charges++[⟨call, recorded.2⟩] }
    | _ => s

def servedCost (call : Served) : ℚ :=
  let p := prices call.provider
  (recordArguments call.usage p.activeModelName p.cacheReadDiscount p.cacheWriteMultiplier
    p.costPerToken).cost toLowercase

end

def InFlight (s : State) (number : ℕ) : Prop :=
  ∃ turn call, (s.pcs turn).call = some call ∧ call.number = number

structure ChargedOnce (s : State) : Prop where
  once : ∀ number < s.completed.length, ¬ InFlight s number →
    (s.charges.map (fun c => c.call.number)).count number = 1
  waiting : ∀ number, InFlight s number →
    (s.charges.map (fun c => c.call.number)).count number = 0
  tokens : ∀ c ∈ s.charges, s.completed[c.call.number]? = some (c.call.provider, c.call.usage)

def SameUnread (p q : Prices) : Pc → Prop
  | .idle => True
  | .trying _ _ => True
  | .served _ => p.cacheReadDiscount = q.cacheReadDiscount ∧
      p.cacheWriteMultiplier = q.cacheWriteMultiplier ∧ p.costPerToken = q.costPerToken
  | .named _ _ => p.cacheReadDiscount = q.cacheReadDiscount ∧
      p.cacheWriteMultiplier = q.cacheWriteMultiplier ∧ p.costPerToken = q.costPerToken
  | .discounted _ _ _ =>
      p.cacheWriteMultiplier = q.cacheWriteMultiplier ∧ p.costPerToken = q.costPerToken
  | .multiplied _ _ _ _ => p.costPerToken = q.costPerToken
  | .priced _ _ _ _ _ => True

def Undisturbed (prices : ℕ → Prices) : Label → State → Prop
  | .answer turn (.ok _) _, s => ∀ i rest retried, s.pcs turn = .trying (i::rest) retried →
      ∀ other call, other ≠ turn → (s.pcs other).call = some call →
        SameUnread (prices i) (prices call.provider) (s.pcs other)
  | _, _ => True

def nextRead (serving : Prices) : Pc → Option Pc
  | .served call => some (.named call serving.activeModelName)
  | .named call model => some (.discounted call model serving.cacheReadDiscount)
  | .discounted call model readDiscount =>
    some (.multiplied call model readDiscount serving.cacheWriteMultiplier)
  | .multiplied call model readDiscount writeMultiplier =>
    some (.priced call model readDiscount writeMultiplier serving.costPerToken)
  | _ => none

theorem nextRead_call (serving : Prices) (pc pc' : Pc) (h : nextRead serving pc = some pc') :
    pc'.call = pc.call := by
  cases pc <;> cases h <;> rfl

section

variable (toLowercase : String → String) (cfg : CostGuardConfig) (prices : ℕ → Prices)

inductive Change (s : State) : Label → State → Prop
  | quiet (a : Label) (s' : State) (hused : s'.failover.lastUsed = s.failover.lastUsed)
      (hpcs : ∀ turn, s'.pcs turn = s.pcs turn ∨
        (s'.pcs turn).call = none ∧ (s.pcs turn).call = none)
      (hcompleted : s'.completed = s.completed) (hcharges : s'.charges = s.charges) :
      Change s a s'
  | completes (turn i : ℕ) (rest : List ℕ) (retried : Bool) (usage : TokenUsage) (nanos : UInt64)
      (h : s.pcs turn = .trying (i::rest) retried) :
      Change s (.answer turn (.ok usage) nanos) { s with
        failover := s.failover.succeeded i
        pcs := Function.update s.pcs turn (.served ⟨s.completed.length, i, usage⟩)
        completed := s.completed++[(i, usage)] }
  | reads (a : Label) (turn : ℕ) (pc : Pc) (hturn : a.turn = turn)
      (h : nextRead (prices s.failover.lastUsed) (s.pcs turn) = some pc) :
      Change s a (s.goto turn pc)
  | charges (a : Label) (turn : ℕ) (call : Served) (model : String)
      (readDiscount writeMultiplier : ℚ) (costPerToken : ℚ × ℚ) (guard : CostGuard)
      (hturn : a.turn = turn)
      (h : s.pcs turn = .priced call model readDiscount writeMultiplier costPerToken) :
      Change s a { s with
        guard := guard
        pcs := Function.update s.pcs turn .idle
        charges := s.charges++[⟨call, (recordArguments call.usage model readDiscount
          writeMultiplier costPerToken).cost toLowercase⟩] }

variable (a : Label) (s : State) (failover : FailoverProvider) (guard : CostGuard) (turns : List ℕ)

theorem quiet_goto (f : FailoverProvider) (g : CostGuard) (turn : ℕ) (pc : Pc)
    (hused : f.lastUsed = s.failover.lastUsed) (hpc : pc.call = none)
    (hold : (s.pcs turn).call = none) :
    Change toLowercase prices s a
      { s with failover := f, guard := g, pcs := Function.update s.pcs turn pc } := by
  apply Change.quiet
  · exact hused
  · intro other
    by_cases h : other = turn
    · right
      subst h
      exact ⟨by simp [hpc], hold⟩
    · left
      simp [Function.update_of_ne h]
  · rfl
  · rfl

theorem stay : Change toLowercase prices s a s := by
  apply Change.quiet
  · rfl
  · exact fun _ => Or.inl rfl
  · rfl
  · rfl

theorem error_change (f : FailoverProvider) (turn : ℕ) (retried : Bool) (err : LlmError)
    (nanos : UInt64) (hused : f.lastUsed = s.failover.lastUsed) (hold : (s.pcs turn).call = none) :
    Change toLowercase prices s a
      (afterError { s with failover := f } turn retried err nanos) := by
  unfold afterError
  split
  · exact quiet_goto toLowercase prices a s f s.guard turn _ hused rfl hold
  · exact quiet_goto toLowercase prices a s f s.guard turn _ hused rfl hold

theorem step_change :
    Change toLowercase prices s a (step toLowercase cfg prices a s) := by
  cases a with
  | begin turn now nanos =>
    cases hpc : s.pcs turn with
    | idle =>
      simp only [step, hpc]
      split
      · exact quiet_goto toLowercase prices _ s s.failover _ turn _ rfl rfl (by rw [hpc]; rfl)
      · exact Change.quiet _ _ rfl (fun _ => Or.inl rfl) rfl rfl
    | _ =>
      simp only [step, hpc]
      exact stay toLowercase prices _ s
  | answer turn outcome nanos =>
    cases hpc : s.pcs turn with
    | trying plan retried =>
      have hold : (s.pcs turn).call = none := by rw [hpc]; rfl
      cases plan with
      | nil =>
        simp only [step, hpc]
        exact error_change toLowercase prices _ s s.failover turn retried _ nanos rfl hold
      | cons i rest =>
        cases outcome with
        | ok usage =>
          simp only [step, hpc]
          exact Change.completes turn i rest retried usage nanos hpc
        | error err =>
          simp only [step, hpc]
          split
          · split
            · exact error_change toLowercase prices _ s (s.failover.failed i nanos) turn retried
                err nanos rfl hold
            · exact quiet_goto toLowercase prices _ s (s.failover.failed i nanos) s.guard turn _
                rfl rfl hold
          · exact error_change toLowercase prices _ s s.failover turn retried err nanos rfl hold
    | _ =>
      simp only [step, hpc]
      exact stay toLowercase prices _ s
  | proceed turn today now =>
    cases hpc : s.pcs turn with
    | idle =>
      simp only [step, hpc]
      exact stay toLowercase prices _ s
    | trying plan retried =>
      simp only [step, hpc]
      exact stay toLowercase prices _ s
    | priced call model readDiscount writeMultiplier costPerToken =>
      simp only [step, hpc]
      exact Change.charges _ turn call model readDiscount writeMultiplier costPerToken _ rfl hpc
    | _ =>
      simp only [step, hpc]
      exact Change.reads _ turn _ rfl (by rw [hpc]; rfl)

def State.charged (s : State) : List ℕ := s.charges.map (fun c => c.call.number)

structure Ledger (s : State) : Prop where
  held : ∀ turn call, (s.pcs turn).call = some call →
    s.completed[call.number]? = some (call.provider, call.usage) ∧ call.number ∉ s.charged
  apart : ∀ turn turn' call call', (s.pcs turn).call = some call →
    (s.pcs turn').call = some call' → call.number = call'.number → turn = turn'
  covered : ∀ number < s.completed.length, number ∈ s.charged ∨ InFlight s number
  nodup : s.charged.Nodup
  tokens : ∀ c ∈ s.charges, s.completed[c.call.number]? = some (c.call.provider, c.call.usage)

theorem ledger_new :
    Ledger (State.new failover guard) := by
  constructor
  · intro turn call h
    cases h
  · intro turn turn' call call' h
    cases h
  · intro number h
    cases h
  · exact List.nodup_nil
  · intro c h
    cases h

/-- Only the calls that the turns hold and the log matter. -/
theorem ledger_congr (s s' : State) (hcalls : ∀ turn, (s'.pcs turn).call = (s.pcs turn).call)
    (hcompleted : s'.completed = s.completed) (hcharges : s'.charges = s.charges)
    (h : Ledger s) : Ledger s' := by
  have hcharged : s'.charged = s.charged := by rw [State.charged, hcharges]; rfl
  constructor
  · intro turn call hcall
    rw [hcalls] at hcall
    rw [hcompleted, hcharged]
    exact h.held turn call hcall
  · intro turn turn' call call' hcall hcall'
    rw [hcalls] at hcall hcall'
    exact h.apart turn turn' call call' hcall hcall'
  · intro number hnumber
    rw [hcompleted] at hnumber
    rw [hcharged]
    rcases h.covered number hnumber with hin | ⟨turn, call, hcall, hsame⟩
    · exact Or.inl hin
    · exact Or.inr ⟨turn, call, (hcalls turn).trans hcall, hsame⟩
  · rw [hcharged]
    exact h.nodup
  · rw [hcompleted, hcharges]
    exact h.tokens

theorem goto_calls (turn other : ℕ) (pc : Pc) (h : pc.call = (s.pcs turn).call) :
    ((s.goto turn pc).pcs other).call = (s.pcs other).call := by
  by_cases hother : other = turn
  · subst hother
    simp [State.goto, h]
  · simp [State.goto, Function.update_of_ne hother]

theorem completes_ledger (turn i : ℕ) (usage : TokenUsage) (f : FailoverProvider)
    (hidle : (s.pcs turn).call = none) (h : Ledger s) :
    Ledger { s with
      failover := f
      pcs := Function.update s.pcs turn (.served ⟨s.completed.length, i, usage⟩)
      completed := s.completed++[(i, usage)] } := by
  -- a call held before, or charged before, has a smaller number
  have hold : ∀ n (e : ℕ × TokenUsage), s.completed[n]? = some e →
      n < s.completed.length ∧ (s.completed++[(i, usage)])[n]? = some e := by
    intro n e he
    have hlt := (List.getElem?_eq_some_iff.mp he).1
    exact ⟨hlt, by rw [List.getElem?_append_left hlt, he]⟩
  have hcalls : ∀ other call,
      ((Function.update s.pcs turn (.served ⟨s.completed.length, i, usage⟩)) other).call =
        some call → (other = turn ∧ call = ⟨s.completed.length, i, usage⟩) ∨
        (other ≠ turn ∧ (s.pcs other).call = some call) := by
    intro other call hcall
    by_cases hother : other = turn
    · left
      rw [hother, Function.update_self] at hcall
      exact ⟨hother, (Option.some.inj hcall).symm⟩
    · right
      rw [Function.update_of_ne hother] at hcall
      exact ⟨hother, hcall⟩
  have hfresh : s.completed.length ∉ s.charged := by
    intro hin
    obtain ⟨c, hc, hnumber⟩ := List.mem_map.mp hin
    have hlt := (hold _ _ (h.tokens c hc)).1
    omega
  constructor
  · intro other call hcall
    rcases hcalls other call hcall with ⟨-, rfl⟩ | ⟨-, hcall⟩
    · exact ⟨List.getElem?_concat_length, hfresh⟩
    · exact ⟨(hold _ _ (h.held other call hcall).1).2, (h.held other call hcall).2⟩
  · intro a b call call' ha hb hsame
    rcases hcalls a call ha with ⟨ha, hcall⟩ | ⟨-, ha⟩
    · rcases hcalls b call' hb with ⟨hb, -⟩ | ⟨-, hb⟩
      · rw [ha, hb]
      · have hlt := (hold _ _ (h.held b call' hb).1).1
        rw [← hsame, hcall] at hlt
        exact absurd hlt (Nat.lt_irrefl _)
    · rcases hcalls b call' hb with ⟨-, hcall⟩ | ⟨-, hb⟩
      · have hlt := (hold _ _ (h.held a call ha).1).1
        rw [hsame, hcall] at hlt
        exact absurd hlt (Nat.lt_irrefl _)
      · exact h.apart a b call call' ha hb hsame
  · intro number hnumber
    by_cases hlast : number = s.completed.length
    · right
      exact ⟨turn, ⟨s.completed.length, i, usage⟩, by simp [Pc.call], hlast.symm⟩
    · have hlt : number < s.completed.length := by
        rw [List.length_append, List.length_singleton] at hnumber
        omega
      rcases h.covered number hlt with hin | ⟨other, call, hcall, hsame⟩
      · exact Or.inl hin
      · right
        have hother : other ≠ turn := by
          rintro rfl
          rw [hidle] at hcall
          cases hcall
        refine ⟨other, call, ?_, hsame⟩
        show (Function.update s.pcs turn _ other).call = some call
        rw [Function.update_of_ne hother]
        exact hcall
  · exact h.nodup
  · intro c hc
    exact (hold _ _ (h.tokens c hc)).2

theorem charges_ledger (turn : ℕ) (call : Served) (cost : ℚ) (g : CostGuard)
    (hcall : (s.pcs turn).call = some call) (h : Ledger s) :
    Ledger { s with
      guard := g
      pcs := Function.update s.pcs turn .idle
      charges := s.charges++[⟨call, cost⟩] } := by
  have hcalls : ∀ other c, ((Function.update s.pcs turn Pc.idle) other).call = some c →
      other ≠ turn ∧ (s.pcs other).call = some c := by
    intro other c hc
    have hother : other ≠ turn := by
      rintro rfl
      rw [Function.update_self] at hc
      cases hc
    rw [Function.update_of_ne hother] at hc
    exact ⟨hother, hc⟩
  obtain ⟨htokens, hnew⟩ := h.held turn call hcall
  have hcharged : (s.charges++[(⟨call, cost⟩ : Charge)]).map (fun c => c.call.number) =
      s.charged++[call.number] := by
    rw [List.map_append]
    rfl
  constructor
  · intro other c hc
    obtain ⟨hother, hc⟩ := hcalls other c hc
    refine ⟨(h.held other c hc).1, ?_⟩
    rw [State.charged, hcharged, List.mem_append, List.mem_singleton, not_or]
    refine ⟨(h.held other c hc).2, ?_⟩
    intro hsame
    exact hother (h.apart other turn c call hc hcall hsame)
  · intro a b c c' ha hb
    exact h.apart a b c c' (hcalls a c ha).2 (hcalls b c' hb).2
  · intro number hnumber
    rw [State.charged, hcharged, List.mem_append, List.mem_singleton]
    rcases h.covered number hnumber with hin | ⟨other, c, hc, hsame⟩
    · exact Or.inl (Or.inl hin)
    · by_cases hother : other = turn
      · rw [hother, hcall, Option.some.injEq] at hc
        rw [hc]
        exact Or.inl (Or.inr hsame.symm)
      · right
        refine ⟨other, c, ?_, hsame⟩
        show (Function.update s.pcs turn _ other).call = some c
        rw [Function.update_of_ne hother]
        exact hc
  · rw [State.charged, hcharged]
    exact List.nodup_append.mpr ⟨h.nodup, List.nodup_singleton _, fun n hn m hm hnm =>
      hnew (by rw [← List.mem_singleton.mp hm, ← hnm]; exact hn)⟩
  · intro c hc
    rcases List.mem_append.mp hc with hold | hlast
    · exact h.tokens c hold
    · rw [List.mem_singleton.mp hlast]
      exact htokens

theorem step_ledger (h : Ledger s) :
    Ledger (step toLowercase cfg prices a s) := by
  have hchange := step_change toLowercase cfg prices a s
  generalize step toLowercase cfg prices a s = s' at hchange
  cases hchange with
  | quiet _ _ hused hpcs hcompleted hcharges =>
    refine ledger_congr s s' ?_ hcompleted hcharges h
    intro turn
    rcases hpcs turn with hsame | ⟨hnew, hold⟩
    · rw [hsame]
    · rw [hnew, hold]
  | completes turn i rest retried usage nanos hpc =>
    exact completes_ledger s turn i usage _ (by rw [hpc]; rfl) h
  | reads _ turn pc hturn hread =>
    refine ledger_congr s _ (fun other => goto_calls s turn other pc ?_) rfl rfl h
    exact nextRead_call _ _ _ hread
  | charges _ turn call model readDiscount writeMultiplier costPerToken guard hturn hpc =>
    exact charges_ledger s turn call _ guard (by rw [hpc]; rfl) h

theorem ledger_once (h : Ledger s) : ChargedOnce s := by
  constructor
  · intro number hnumber hflight
    rcases h.covered number hnumber with hin | hin
    · exact List.count_eq_one_of_mem h.nodup hin
    · exact absurd hin hflight
  · rintro number ⟨turn, call, hcall, rfl⟩
    exact List.count_eq_zero_of_not_mem (h.held turn call hcall).2
  · exact h.tokens

def ReadFrom (p : Prices) : Pc → Prop
  | .idle => True
  | .trying _ _ => True
  | .served _ => True
  | .named _ _ => True
  | .discounted _ _ readDiscount => readDiscount = p.cacheReadDiscount
  | .multiplied _ _ readDiscount writeMultiplier =>
    readDiscount = p.cacheReadDiscount ∧ writeMultiplier = p.cacheWriteMultiplier
  | .priced _ _ readDiscount writeMultiplier costPerToken =>
    readDiscount = p.cacheReadDiscount ∧ writeMultiplier = p.cacheWriteMultiplier ∧
      costPerToken = p.costPerToken

structure Faithful (s : State) : Prop where
  turns : ∀ turn call, (s.pcs turn).call = some call →
    ReadFrom (prices call.provider) (s.pcs turn) ∧
      SameUnread (prices s.failover.lastUsed) (prices call.provider) (s.pcs turn)
  charges : ∀ c ∈ s.charges, c.cost = servedCost toLowercase prices c.call

theorem faithful_new :
    Faithful toLowercase prices (State.new failover guard) := by
  constructor
  · intro turn call h
    cases h
  · intro c h
    cases h

theorem sameUnread_refl (p : Prices) (pc : Pc) : SameUnread p p pc := by
  cases pc <;> simp [SameUnread]

/-- A read of the right value leaves less to be read. -/
theorem nextRead_faithful (serving own : Prices) (pc pc' : Pc)
    (h : nextRead serving pc = some pc') (hread : ReadFrom own pc)
    (hsame : SameUnread serving own pc) : ReadFrom own pc' ∧ SameUnread serving own pc' := by
  cases pc with
  | served call =>
    cases h
    exact ⟨trivial, hsame⟩
  | named call model =>
    cases h
    exact ⟨hsame.1, hsame.2⟩
  | discounted call model readDiscount =>
    cases h
    exact ⟨⟨hread, hsame.1⟩, hsame.2⟩
  | multiplied call model readDiscount writeMultiplier =>
    cases h
    exact ⟨⟨hread.1, hread.2, hsame⟩, trivial⟩
  | _ => cases h

theorem step_faithful (h : Faithful toLowercase prices s) (hc : Undisturbed prices a s) :
    Faithful toLowercase prices (step toLowercase cfg prices a s) := by
  have hchange := step_change toLowercase cfg prices a s
  generalize step toLowercase cfg prices a s = s' at hchange
  cases hchange with
  | quiet _ _ hused hpcs hcompleted hcharges =>
    constructor
    · intro turn call hcall
      rcases hpcs turn with hsame | ⟨hnew, -⟩
      · rw [hsame] at hcall ⊢
        rw [hused]
        exact h.turns turn call hcall
      · rw [hnew] at hcall
        cases hcall
    · rw [hcharges]
      exact h.charges
  | completes turn i rest retried usage nanos hpc =>
    constructor
    · intro other call hcall
      by_cases hother : other = turn
      · subst hother
        simp only [Function.update_self] at hcall ⊢
        cases hcall
        exact ⟨trivial, sameUnread_refl (prices i) _⟩
      · simp only [Function.update_of_ne hother] at hcall ⊢
        exact ⟨(h.turns other call hcall).1, hc i rest retried hpc other call hother hcall⟩
    · exact h.charges
  | reads _ turn pc hturn hread =>
    constructor
    · intro other call hcall
      by_cases hother : other = turn
      · subst hother
        simp only [State.goto, Function.update_self] at hcall ⊢
        rw [nextRead_call _ _ _ hread] at hcall
        have hown := h.turns other call hcall
        exact nextRead_faithful _ _ _ pc hread hown.1 hown.2
      · simp only [State.goto, Function.update_of_ne hother] at hcall ⊢
        exact h.turns other call hcall
    · exact h.charges
  | charges _ turn call model readDiscount writeMultiplier costPerToken guard hturn hpc =>
    constructor
    · intro other c hcall
      by_cases hother : other = turn
      · subst hother
        simp only [Function.update_self] at hcall
        cases hcall
      · simp only [Function.update_of_ne hother] at hcall ⊢
        exact h.turns other c hcall
    · intro c hc
      rcases List.mem_append.mp hc with hold | hlast
      · exact h.charges c hold
      · obtain ⟨hread, -⟩ := h.turns turn call (by rw [hpc]; rfl)
        rw [hpc] at hread
        rw [List.mem_singleton.mp hlast, hread.1, hread.2.1, hread.2.2]
        -- the model name plays no part where the rates are given
        rfl

/-- In a run in which no call completes at other prices while a turn still has
to read its own, every charge is at the prices of the provider that served the
call; that each call is charged once needs no condition. -/
theorem charged_at_served_prices (labels : List Label)
    (h : Along (step toLowercase cfg prices) (Undisturbed prices) labels
      (State.new failover guard)) :
    let s := run (step toLowercase cfg prices) labels (State.new failover guard)
    (∀ c ∈ s.charges, c.cost = servedCost toLowercase prices c.call) ∧ ChargedOnce s := by
  have hfaithful := guarded_invariant (step toLowercase cfg prices) (Undisturbed prices)
    (Faithful toLowercase prices) (step_faithful toLowercase cfg prices) labels _ h
    (faithful_new toLowercase prices failover guard)
  have hledger := run_invariant (step toLowercase cfg prices) Ledger
    (step_ledger toLowercase cfg prices) labels _ (ledger_new failover guard)
  exact ⟨hfaithful.charges, ledger_once _ hledger⟩

def Pc.provider : Pc → Option ℕ
  | .trying (i::_) _ => some i
  | pc => pc.call.map Served.provider

def Among (turns : List ℕ) (s : State) : Prop := ∀ other ∉ turns, (s.pcs other).call = none

def SameProvider (turns : List ℕ) : Label → State → Prop
  | .answer turn (.ok _) _, s => ∀ other ∈ turns, (s.pcs other).call.isNone = true ∨
      (s.pcs other).provider = (s.pcs turn).provider
  | _, _ => True

instance decidableSameProvider (turns : List ℕ) (a : Label) (s : State) :
    Decidable (SameProvider turns a s) := by
  unfold SameProvider
  split <;> infer_instance

theorem step_among (a : Label) (s : State) (h : Among turns s) (ha : a.turn ∈ turns) :
    Among turns (step toLowercase cfg prices a s) := by
  have hchange := step_change toLowercase cfg prices a s
  generalize step toLowercase cfg prices a s = s' at hchange
  intro other hother
  have hne : other ≠ a.turn := fun heq => hother (heq ▸ ha)
  cases hchange with
  | quiet _ _ hused hpcs hcompleted hcharges =>
    rcases hpcs other with hsame | ⟨hnew, -⟩
    · rw [hsame]
      exact h other hother
    · exact hnew
  | completes turn' i rest retried usage nanos hpc =>
    simp only [Function.update_of_ne (show other ≠ turn' from hne)]
    exact h other hother
  | reads _ turn' pc hturn hread =>
    simp only [State.goto, Function.update_of_ne (hturn ▸ hne)]
    exact h other hother
  | charges _ turn' call model readDiscount writeMultiplier costPerToken guard hturn hpc =>
    simp only [Function.update_of_ne (hturn ▸ hne)]
    exact h other hother

/-- A turn that has read from the same provider is not disturbed. -/
theorem among_undisturbed (a : Label) (s : State) (h : Among turns s)
    (ha : SameProvider turns a s) : Undisturbed prices a s := by
  cases a with
  | answer turn outcome nanos =>
    cases outcome with
    | error err => trivial
    | ok usage =>
      intro i rest retried htrying other call hother hcall
      by_cases hin : other ∈ turns
      · rcases ha other hin with hnone | hsame
        · rw [hcall] at hnone
          cases hnone
        · rw [htrying] at hsame
          generalize s.pcs other = pc at hcall hsame
          cases pc <;> cases hcall <;> cases hsame <;> simp [SameUnread]
      · rw [h other hin] at hcall
        cases hcall
  | begin turn now nanos => trivial
  | proceed turn today now => trivial

theorem among_along (labels : List Label) (failover : FailoverProvider) (guard : CostGuard)
    (h : Along (step toLowercase cfg prices) (fun a s => a.turn ∈ turns ∧ SameProvider turns a s)
      labels (State.new failover guard)) :
    Along (step toLowercase cfg prices) (Undisturbed prices) labels
      (State.new failover guard) := by
  apply along_of (step toLowercase cfg prices) (Among turns)
    (fun a s => a.turn ∈ turns ∧ SameProvider turns a s)
  · intro a s hs ha
    exact ⟨step_among toLowercase cfg prices turns a s hs ha.1,
      among_undisturbed prices turns a s hs ha.2⟩
  · intro other _
    rfl
  · exact h

end

def twoPrices (i : ℕ) : Prices :=
  if i = 0 then ⟨"small", 1, 1, (1/1000000, 2/1000000)⟩
  else ⟨"large", 1, 1, (2/1000000, 4/1000000)⟩

def twoProviders : FailoverProvider := ⟨2, by decide, ⟨300000000000, 3⟩, fun _ => .new, 0⟩

def noLimits : CostGuardConfig := ⟨none, none⟩

def usage : TokenUsage := ⟨1000, 100, 0, 0⟩

def outage : LlmError := .requestFailed "small" "connection reset"

/-- Two turns served by one provider, then one of them by the other one. -/
def twoTurns : List Label :=
  [.begin 0 0 1, .begin 1 0 1, .answer 0 (.ok usage) 2, .answer 1 (.ok usage) 3,
    .proceed 0 0 4, .proceed 1 0 4, .proceed 0 0 5, .proceed 1 0 5, .proceed 0 0 6,
    .proceed 1 0 6, .proceed 0 0 7, .proceed 1 0 7, .proceed 0 0 8, .begin 0 0 9,
    .proceed 1 0 9, .answer 0 (.error outage) 10, .answer 0 (.ok usage) 11, .proceed 0 0 12,
    .proceed 0 0 13, .proceed 0 0 14, .proceed 0 0 15, .proceed 0 0 16]

theorem two_turns_charged :
    Along (step id noLimits twoPrices) (Undisturbed twoPrices) twoTurns
      (State.new twoProviders (.new 0)) ∧
    (run (step id noLimits twoPrices) twoTurns
      (State.new twoProviders (.new 0))).charges.map (fun c => c.call.provider) = [0, 0, 1] ∧
    ∀ c ∈ (run (step id noLimits twoPrices) twoTurns
      (State.new twoProviders (.new 0))).charges, c.cost = servedCost id twoPrices c.call := by
  have halong := among_along id noLimits twoPrices [0, 1] twoTurns twoProviders (.new 0)
    (by decide +kernel)
  exact ⟨halong, by decide +kernel,
    (charged_at_served_prices id noLimits twoPrices twoProviders (.new 0) twoTurns halong).1⟩

def crossedTurns : List Label :=
  [.begin 0 0 1, .begin 1 0 1, .answer 0 (.ok usage) 2, .answer 1 (.error outage) 3,
    .answer 1 (.ok usage) 4, .proceed 0 0 5, .proceed 0 0 6, .proceed 0 0 7, .proceed 0 0 8,
    .proceed 0 0 9]

theorem crossed_turns_overcharged :
    ¬ ∀ labels, ∀ c ∈ (run (step id noLimits twoPrices) labels
      (State.new twoProviders (.new 0))).charges, c.cost = servedCost id twoPrices c.call := by
  intro h
  have hcost : ((run (step id noLimits twoPrices) crossedTurns
      (State.new twoProviders (.new 0))).charges.all
        (fun c => c.cost = servedCost id twoPrices c.call)) = false := by
    decide +kernel
  rw [List.all_eq_false] at hcost
  obtain ⟨c, hc, hne⟩ := hcost
  exact hne (decide_eq_true (h crossedTurns c hc))

end IronClaw.ServingCost
