import IronClaw.Lib.Runs
import IronClaw.Lib.Text
import Mathlib.Algebra.BigOperators.Group.List.Basic
import Mathlib.Algebra.Order.Ring.Rat

/-!
# The cost guard

`agent/cost_guard.rs` keeps the spend of a day, a window of recent calls and a
flag that says the daily budget is used up. Recording a call starts a new day
when the date has changed; checking only reads the flag and the total. Amounts
are exact, dates are counted in days and instants in nanoseconds. The machine
adds a calendar that only moves forward and the log of what was recorded.
-/

set_option autoImplicit false

namespace IronClaw.CostLimits
open Lib.Runs Lib.Text

structure CostGuardConfig where
  maxCostPerDayCents : Option ℕ
  maxActionsPerHour : Option ℕ
  deriving DecidableEq

inductive CostLimitExceeded where
  | dailyBudget (spentCents limitCents : ℕ)
  | hourlyRate (actions limit : ℕ)
  deriving DecidableEq

structure ModelTokens where
  inputTokens : ℕ
  outputTokens : ℕ
  cost : ℚ

structure DailyCost where
  total : ℚ
  resetDate : ℤ

structure CostGuard where
  dailyCost : DailyCost
  actionWindow : List ℕ
  budgetExceeded : Bool
  modelTokens : String → Option ModelTokens

def CostGuard.new (today : ℤ) : CostGuard := ⟨⟨0, today⟩, [], false, fun _ => none⟩

def wholeCents (usd : ℚ) : ℕ := (usd*100).floor.toNat

def toCents (usd : ℚ) : ℕ := if wholeCents usd < 2^64 then wholeCents usd else 0

section

variable (toLowercase : String → String)

def isLocalModel (modelId : String) : Bool :=
  let lower := toLowercase modelId
  ["llama", "mistral", "mixtral", "phi", "gemma", "qwen", "codellama", "deepseek", "starcoder",
    "vicuna", "yi"].any (startsWith lower) || contains lower ":latest" ||
    contains lower ":instruct"

def modelRates : List (List String × ℚ × ℚ) :=
  [(["gpt-5.3-codex", "gpt-5.3-codex-spark", "gpt-5.2-codex", "gpt-5.2-pro", "gpt-5.2",
      "gpt-5.1-codex", "gpt-5.1-codex-max", "gpt-5.1"], 2/1000000, 8/1000000),
   (["gpt-5.1-codex-mini"], 3/10000000, 12/10000000),
   (["gpt-5-codex", "gpt-5-pro", "gpt-5"], 2/1000000, 8/1000000),
   (["gpt-5-mini", "gpt-5-nano"], 3/10000000, 12/10000000),
   (["gpt-4.1"], 2/1000000, 8/1000000),
   (["gpt-4.1-mini"], 4/10000000, 16/10000000),
   (["gpt-4.1-nano"], 1/10000000, 4/10000000),
   (["gpt-4o", "gpt-4o-2024-11-20", "gpt-4o-2024-08-06"], 25/10000000, 1/100000),
   (["gpt-4o-mini", "gpt-4o-mini-2024-07-18"], 15/100000000, 6/10000000),
   (["gpt-4-turbo", "gpt-4-turbo-2024-04-09"], 1/100000, 3/100000),
   (["gpt-4", "gpt-4-0613"], 3/100000, 6/100000),
   (["gpt-3.5-turbo", "gpt-3.5-turbo-0125"], 5/10000000, 15/10000000),
   (["o3"], 2/1000000, 8/1000000),
   (["o3-mini", "o3-mini-2025-01-31", "o4-mini"], 11/10000000, 44/10000000),
   (["o1", "o1-2024-12-17"], 15/1000000, 6/100000),
   (["o1-mini", "o1-mini-2024-09-12"], 3/1000000, 12/1000000),
   (["claude-opus-4-6", "claude-opus-4-5", "claude-opus-4-5-20251101", "claude-opus-4-1",
      "claude-opus-4-1-20250805", "claude-opus-4-0", "claude-opus-4-20250514",
      "claude-3-opus-20240229", "claude-3-opus-latest"], 15/1000000, 75/1000000),
   (["claude-sonnet-4-6", "claude-sonnet-4-5", "claude-sonnet-4-5-20250929",
      "claude-sonnet-4-0", "claude-sonnet-4-20250514", "claude-3-7-sonnet-20250219",
      "claude-3-7-sonnet-latest", "claude-3-5-sonnet-20241022", "claude-3-5-sonnet-latest"],
      3/1000000, 15/1000000),
   (["claude-haiku-4-5", "claude-haiku-4-5-20251001", "claude-3-5-haiku-20241022",
      "claude-3-5-haiku-latest"], 8/10000000, 4/1000000),
   (["claude-3-haiku-20240307"], 25/100000000, 125/100000000)]

def bareName (modelId : String) : String :=
  String.ofList (modelId.toList.reverse.takeWhile (fun c => c ≠ '/')).reverse

def modelCost (modelId : String) : Option (ℚ × ℚ) :=
  if endsWith modelId ":free" || modelId = "openrouter/free" || modelId = "free" then some (0, 0)
  else match modelRates.find? (fun r => r.1.contains (bareName modelId)) with
  | some r => some r.2
  | none => if isLocalModel toLowercase (bareName modelId) then some (0, 0) else none

def defaultCost : ℚ × ℚ := (25/10000000, 1/100000)

/-- The arguments of `record_llm_call`. Token counts have 32 bits. -/
structure LlmCall where
  model : String
  inputTokens : ℕ
  outputTokens : ℕ
  cacheReadInputTokens : ℕ
  cacheCreationInputTokens : ℕ
  cacheReadDiscount : ℚ
  cacheWriteMultiplier : ℚ
  costPerToken : Option (ℚ × ℚ)

def LlmCall.cost (call : LlmCall) : ℚ :=
  let rates := call.costPerToken.getD ((modelCost toLowercase call.model).getD defaultCost)
  let cachedTotal := min (call.cacheReadInputTokens+call.cacheCreationInputTokens) (2^32-1)
  let uncachedInput := call.inputTokens-cachedTotal
  let effectiveDiscount := if call.cacheReadDiscount = 0 then 1 else call.cacheReadDiscount
  rates.1*uncachedInput+rates.1*call.cacheReadInputTokens/effectiveDiscount+
    rates.1*call.cacheCreationInputTokens*call.cacheWriteMultiplier+rates.2*call.outputTokens

def hour : ℕ := 3600*1000000000

def drain (now : ℕ) (window : List ℕ) : List ℕ :=
  if hour ≤ now then window.dropWhile (fun t => t < now-hour) else window

variable (cfg : CostGuardConfig)

def reachesLimit (usd : ℚ) : Bool :=
  match cfg.maxCostPerDayCents with
  | some limit => limit ≤ toCents usd
  | none => false

def checkAllowed (now : ℕ) (g : CostGuard) : CostGuard × Except CostLimitExceeded Unit :=
  let spent := toCents g.dailyCost.total
  let limit := cfg.maxCostPerDayCents.getD 0
  if g.budgetExceeded then (g, .error (.dailyBudget spent limit))
  else if reachesLimit cfg g.dailyCost.total then
    ({ g with budgetExceeded := true }, .error (.dailyBudget spent limit))
  else match cfg.maxActionsPerHour with
  | none => (g, .ok ())
  | some limit =>
    let window := drain now g.actionWindow
    ({ g with actionWindow := window },
      if limit ≤ window.length then .error (.hourlyRate window.length limit) else .ok ())

def CostGuard.roll (g : CostGuard) (today : ℤ) : CostGuard :=
  if today = g.dailyCost.resetDate then g
  else { g with dailyCost := ⟨0, today⟩, budgetExceeded := false }

def recordLlmCall (call : LlmCall) (today : ℤ) (now : ℕ) (g : CostGuard) : CostGuard × ℚ :=
  let cost := call.cost toLowercase
  let daily := (g.roll today).dailyCost
  let total := daily.total+cost
  let entry := (g.modelTokens call.model).getD ⟨0, 0, 0⟩
  ({ dailyCost := { daily with total := total }
     actionWindow := g.actionWindow++[now]
     budgetExceeded := (g.roll today).budgetExceeded || reachesLimit cfg total
     modelTokens := Function.update g.modelTokens call.model
       (some ⟨(entry.inputTokens+call.inputTokens)%2^64,
         (entry.outputTokens+call.outputTokens)%2^64, entry.cost+cost⟩) }, cost)

inductive Label where
  | pass (days : ℕ)
  | record (call : LlmCall) (now : ℕ)
  | check (now : ℕ)

structure Machine where
  today : ℤ
  guard : CostGuard
  log : List (ℤ × ℚ)

def Machine.new (today : ℤ) : Machine := ⟨today, .new today, []⟩

def step : Label → Machine → Machine
  | .pass days, m => { m with today := m.today+days }
  | .record call now, m => { m with
      guard := (recordLlmCall toLowercase cfg call m.today now m.guard).1
      log := m.log++[(m.today, call.cost toLowercase)] }
  | .check now, m => { m with guard := (checkAllowed cfg now m.guard).1 }

def costsOn (day : ℤ) (log : List (ℤ × ℚ)) : List ℚ :=
  (log.filter (fun e => e.1 = day)).map Prod.snd

def DeniesByDay : Label → Machine → Prop
  | .check now, m => ∀ spent limit,
    (checkAllowed cfg now m.guard).2 = .error (.dailyBudget spent limit) →
      ∃ cents, cfg.maxCostPerDayCents = some cents ∧
        cents ≤ wholeCents (costsOn m.today m.log).sum
  | _, _ => True

def Reached (cents : ℕ) (costs : List ℚ) : Prop :=
  ∃ n, cents ≤ toCents (costs.take n).sum

def SpentToday : Label → Machine → Prop
  | .check _, m => ∀ cents last, cfg.maxCostPerDayCents = some cents → 0 < cents →
    m.log.getLast? = some last → Reached cents (costsOn last.1 m.log) →
      last.1 = m.today ∧ cents ≤ wholeCents (costsOn m.today m.log).sum
  | _, _ => True

structure Accounts (g : CostGuard) (log : List (ℤ × ℚ)) : Prop where
  total : g.dailyCost.total = (costsOn g.dailyCost.resetDate log).sum
  raised : g.budgetExceeded = true → ∃ cents, cfg.maxCostPerDayCents = some cents ∧
    Reached cents (costsOn g.dailyCost.resetDate log)
  raises : ∀ cents, cfg.maxCostPerDayCents = some cents → 0 < cents →
    Reached cents (costsOn g.dailyCost.resetDate log) → g.budgetExceeded = true

structure Sound (m : Machine) : Prop where
  accounts : Accounts cfg m.guard m.log
  dates : ∀ e ∈ m.log, e.1 ≤ m.guard.dailyCost.resetDate
  today : m.guard.dailyCost.resetDate ≤ m.today
  last : ∀ e, m.log.getLast? = some e → e.1 = m.guard.dailyCost.resetDate

theorem wholeCents_zero : wholeCents 0 = 0 := by decide +kernel

theorem toCents_zero : toCents 0 = 0 := by decide +kernel

theorem not_reached_nil (cents : ℕ) (h : 0 < cents) : ¬ Reached cents [] := by
  rintro ⟨n, hn⟩
  rw [List.take_nil, List.sum_nil, toCents_zero] at hn
  omega

/-- One more cost reaches the limit when the list had reached it or the whole
sum does. -/
theorem reached_concat (cents : ℕ) (costs : List ℚ) (cost : ℚ) :
    Reached cents (costs++[cost]) ↔
      Reached cents costs ∨ cents ≤ toCents (costs.sum+cost) := by
  constructor
  · rintro ⟨n, hn⟩
    by_cases hle : n ≤ costs.length
    · rw [List.take_append_of_le_length hle] at hn
      exact Or.inl ⟨n, hn⟩
    · rw [List.take_of_length_le (by simp; omega), List.sum_append, List.sum_singleton] at hn
      exact Or.inr hn
  · rintro (⟨n, hn⟩ | h)
    · refine ⟨min n costs.length, ?_⟩
      rw [List.take_append_of_le_length (min_le_right _ _), ← List.take_eq_take_min]
      exact hn
    · refine ⟨costs.length+1, ?_⟩
      rw [List.take_of_length_le (by simp), List.sum_append, List.sum_singleton]
      exact h

theorem reached_whole (cents : ℕ) (costs : List ℚ) (h : cents ≤ toCents costs.sum) :
    Reached cents costs := ⟨costs.length, by rwa [List.take_length]⟩

theorem costsOn_concat (day : ℤ) (log : List (ℤ × ℚ)) (cost : ℚ) :
    costsOn day (log++[(day, cost)]) = costsOn day log++[cost] := by
  simp [costsOn]

theorem costsOn_later (day bound : ℤ) (log : List (ℤ × ℚ)) (h : ∀ e ∈ log, e.1 ≤ bound)
    (hday : bound < day) : costsOn day log = [] := by
  simp only [costsOn, List.map_eq_nil_iff, List.filter_eq_nil_iff, decide_eq_true_eq]
  intro e he heq
  have := h e he
  omega

theorem new_sound (today : ℤ) : Sound cfg (Machine.new today) := by
  refine ⟨⟨rfl, fun h => ?_, fun cents _ hpos h => ?_⟩, fun e he => ?_, le_refl _, fun e he => ?_⟩
  · cases h
  · exact absurd h (not_reached_nil cents hpos)
  · cases he
  · cases he

variable (now : ℕ) (m : Machine) (g : CostGuard)

theorem roll_date (today : ℤ) : (g.roll today).dailyCost.resetDate = today := by
  unfold CostGuard.roll
  split
  · next h => exact h.symm
  · rfl

/-- A roll keeps the books, about the current date. -/
theorem roll_accounts (h : Sound cfg m) :
    Accounts cfg (m.guard.roll m.today) m.log := by
  unfold CostGuard.roll
  by_cases hday : m.today = m.guard.dailyCost.resetDate
  · rw [if_pos hday]
    exact h.accounts
  · rw [if_neg hday]
    have hlater := h.today
    have hnone : costsOn m.today m.log = [] :=
      costsOn_later m.today _ m.log h.dates (by omega)
    constructor
    · show 0 = (costsOn m.today m.log).sum
      rw [hnone, List.sum_nil]
    · intro hflag
      cases hflag
    · intro cents _ hpos hreached
      have hreached : Reached cents (costsOn m.today m.log) := hreached
      rw [hnone] at hreached
      exact absurd hreached (not_reached_nil cents hpos)

theorem reachesLimit_iff (usd : ℚ) :
    reachesLimit cfg usd = true ↔
      ∃ cents, cfg.maxCostPerDayCents = some cents ∧ cents ≤ toCents usd := by
  unfold reachesLimit
  cases cfg.maxCostPerDayCents with
  | none => simp
  | some limit => simp

theorem record_accounts (call : LlmCall) (now : ℕ) (m : Machine) (h : Sound cfg m) :
    Accounts cfg (recordLlmCall toLowercase cfg call m.today now m.guard).1
      (m.log++[(m.today, call.cost toLowercase)]) := by
  have hroll := roll_accounts cfg m h
  have hdate := roll_date m.guard m.today
  have htotal := hroll.total
  rw [hdate] at htotal
  constructor
  · show (m.guard.roll m.today).dailyCost.total+call.cost toLowercase =
      (costsOn (m.guard.roll m.today).dailyCost.resetDate _).sum
    rw [hdate, costsOn_concat, List.sum_append, List.sum_singleton, htotal]
  · intro hflag
    show ∃ cents, _ ∧ Reached cents (costsOn (m.guard.roll m.today).dailyCost.resetDate _)
    rw [hdate, costsOn_concat]
    rcases Bool.or_eq_true_iff.mp hflag with hold | hnew
    · obtain ⟨cents, hcents, hreached⟩ := hroll.raised hold
      rw [hdate] at hreached
      exact ⟨cents, hcents, (reached_concat _ _ _).mpr (Or.inl hreached)⟩
    · obtain ⟨cents, hcents, hreached⟩ := (reachesLimit_iff cfg _).mp hnew
      rw [htotal] at hreached
      exact ⟨cents, hcents, (reached_concat _ _ _).mpr (Or.inr hreached)⟩
  · intro cents hcents hpos hreached
    have hreached : Reached cents
      (costsOn (m.guard.roll m.today).dailyCost.resetDate _) := hreached
    rw [hdate, costsOn_concat] at hreached
    apply Bool.or_eq_true_iff.mpr
    rcases (reached_concat _ _ _).mp hreached with hold | hnew
    · left
      apply hroll.raises cents hcents hpos
      rwa [hdate]
    · right
      apply (reachesLimit_iff cfg _).mpr
      exact ⟨cents, hcents, by rwa [htotal]⟩

theorem record_sound (call : LlmCall) (now : ℕ) (m : Machine) (h : Sound cfg m) :
    Sound cfg (step toLowercase cfg (.record call now) m) := by
  have hdate : (step toLowercase cfg (.record call now) m).guard.dailyCost.resetDate = m.today :=
    roll_date m.guard m.today
  refine ⟨record_accounts toLowercase cfg call now m h, fun e he => ?_, ?_, fun e he => ?_⟩
  · rw [hdate]
    rcases List.mem_append.mp he with hold | hnew
    · exact le_trans (h.dates e hold) h.today
    · rw [List.mem_singleton.mp hnew]
  · rw [hdate]
    exact le_refl m.today
  · rw [hdate]
    have he : (m.log++[(m.today, call.cost toLowercase)]).getLast? = some e := he
    rw [List.getLast?_concat] at he
    rw [← Option.some.inj he]

/-- A check keeps the total and the date, and raises the flag only when the
total has reached the limit. -/
theorem check_guard :
    (checkAllowed cfg now g).1.dailyCost = g.dailyCost ∧
      ((checkAllowed cfg now g).1.budgetExceeded = g.budgetExceeded ∨
        (checkAllowed cfg now g).1.budgetExceeded = true ∧
          reachesLimit cfg g.dailyCost.total = true) := by
  unfold checkAllowed
  by_cases hflag : g.budgetExceeded = true
  · simp [hflag]
  · by_cases hreach : reachesLimit cfg g.dailyCost.total = true
    · simp [hflag, hreach]
    · cases cfg.maxActionsPerHour with
      | none => simp [hflag, hreach]
      | some limit => simp [hflag, hreach]

theorem check_sound (h : Sound cfg m) :
    Sound cfg (step toLowercase cfg (.check now) m) := by
  obtain ⟨hdaily, hflag⟩ := check_guard cfg now m.guard
  have hguard : (step toLowercase cfg (.check now) m).guard = (checkAllowed cfg now m.guard).1 := rfl
  constructor
  · constructor
    · rw [hguard, hdaily]
      exact h.accounts.total
    · rw [hguard, hdaily]
      intro hraised
      rcases hflag with hsame | ⟨_, hreach⟩
      · exact h.accounts.raised (hsame ▸ hraised)
      · obtain ⟨cents, hcents, hle⟩ := (reachesLimit_iff cfg _).mp hreach
        rw [h.accounts.total] at hle
        exact ⟨cents, hcents, reached_whole cents _ hle⟩
    · rw [hguard, hdaily]
      intro cents hcents hpos hreached
      have hbefore := h.accounts.raises cents hcents hpos hreached
      rcases hflag with hsame | ⟨hset, _⟩
      · rwa [hsame]
      · exact hset
  · rw [hguard, hdaily]
    exact h.dates
  · rw [hguard, hdaily]
    exact h.today
  · rw [hguard, hdaily]
    exact h.last

theorem pass_sound (days : ℕ) (m : Machine) (h : Sound cfg m) :
    Sound cfg (step toLowercase cfg (.pass days) m) := by
  have htoday := h.today
  refine ⟨h.accounts, h.dates, ?_, h.last⟩
  show m.guard.dailyCost.resetDate ≤ m.today+days
  omega

theorem step_sound (l : Label) (m : Machine) (h : Sound cfg m) :
    Sound cfg (step toLowercase cfg l m) := by
  cases l with
  | pass days => exact pass_sound toLowercase cfg days m h
  | record call now => exact record_sound toLowercase cfg call now m h
  | check now => exact check_sound toLowercase cfg now m h

/-- The daily budget denies a call when the flag is up or the total has reached
the limit. -/
theorem denied_iff :
    (∃ spent limit, (checkAllowed cfg now g).2 = .error (.dailyBudget spent limit)) ↔
      g.budgetExceeded = true ∨ reachesLimit cfg g.dailyCost.total = true := by
  unfold checkAllowed
  by_cases hflag : g.budgetExceeded = true
  · simp [hflag]
  · by_cases hreach : reachesLimit cfg g.dailyCost.total = true
    · simp [hflag, hreach]
    · cases cfg.maxActionsPerHour with
      | none => simp [hflag, hreach]
      | some limit =>
        simp only [hflag, hreach, Bool.false_eq_true, if_false, or_self, iff_false]
        rintro ⟨spent, cents, h⟩
        split at h <;> cases h

theorem denied_reached (h : Sound cfg m) (hdenied : m.guard.budgetExceeded = true ∨
      reachesLimit cfg m.guard.dailyCost.total = true) :
    ∃ cents, cfg.maxCostPerDayCents = some cents ∧
      Reached cents (costsOn m.guard.dailyCost.resetDate m.log) := by
  rcases hdenied with hflag | hreach
  · exact h.accounts.raised hflag
  · obtain ⟨cents, hcents, hle⟩ := (reachesLimit_iff cfg _).mp hreach
    rw [h.accounts.total] at hle
    exact ⟨cents, hcents, reached_whole cents _ hle⟩

theorem denies_spentToday (h : Sound cfg m) (hd : DeniesByDay cfg (.check now) m) :
    SpentToday cfg (.check now) m := by
  intro cents last hcents hpos hlast hreached
  have hday := h.last last hlast
  rw [hday] at hreached ⊢
  have hflag := h.accounts.raises cents hcents hpos hreached
  obtain ⟨spent, limit, hdenied⟩ := (denied_iff cfg now m.guard).mpr (Or.inl hflag)
  obtain ⟨cents', hcents', hle⟩ := hd spent limit hdenied
  have hsame : cents' = cents := Option.some.inj (hcents'.symm.trans hcents)
  rw [hsame] at hle
  refine ⟨?_, hle⟩
  by_contra hne
  have hlater := h.today
  rw [costsOn_later m.today _ m.log h.dates (by omega), List.sum_nil, wholeCents_zero] at hle
  omega

theorem spentToday_denies (h : Sound cfg m) (hs : SpentToday cfg (.check now) m) :
    DeniesByDay cfg (.check now) m := by
  intro spent limit hdenied
  obtain ⟨cents, hcents, hreached⟩ := denied_reached cfg m h
    ((denied_iff cfg now m.guard).mp ⟨spent, limit, hdenied⟩)
  refine ⟨cents, hcents, ?_⟩
  by_cases hpos : 0 < cents
  · cases hlast : m.log.getLast? with
    | none =>
      rw [List.getLast?_eq_none_iff.mp hlast] at hreached
      exact absurd hreached (not_reached_nil cents hpos)
    | some last =>
      have hday := h.last last hlast
      exact (hs cents last hcents hpos hlast (by rwa [hday])).2
  · omega

/-- On every calendar that moves forward, all denials are earned by the current
date exactly when no check meets the used-up budget of an earlier one. -/
theorem denies_by_day_iff (today : ℤ) (labels : List Label) :
    Along (step toLowercase cfg) (DeniesByDay cfg) labels (Machine.new today) ↔
      Along (step toLowercase cfg) (SpentToday cfg) labels (Machine.new today) := by
  apply along_iff (step toLowercase cfg) (Sound cfg) _ _ _ labels _ (new_sound cfg today)
  intro l m h
  refine ⟨?_, fun _ => step_sound toLowercase cfg l m h⟩
  cases l with
  | pass days => exact Iff.rfl
  | record call now => exact Iff.rfl
  | check now => exact ⟨denies_spentToday cfg now m h, spentToday_denies cfg now m h⟩

end

/-- A call of two dollars against a limit of one, and a check on the next day. -/
theorem yesterday_denies :
    ¬ Along (step id ⟨some 100, none⟩) (DeniesByDay ⟨some 100, none⟩)
      [.record ⟨"gpt-4o", 1, 0, 0, 0, 1, 1, some (2, 0)⟩ 0, .pass 1, .check 1]
      (Machine.new 20000) := by
  intro h
  obtain ⟨cents, hcents, hle⟩ := h.2.2.1 200 100 (by decide +kernel)
  rw [← Option.some.inj hcents] at hle
  revert hle
  decide +kernel

end IronClaw.CostLimits
