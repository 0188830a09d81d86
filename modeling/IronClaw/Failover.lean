import Mathlib.Data.List.Nodup
import Mathlib.Data.List.Range
import IronClaw.CircuitBreaker

/-!
# Failover between providers

`llm/failover.rs` tries the providers that are not in cooldown in their order,
or the one whose cooldown is the oldest, and counts the failures of each. What
the providers answer in a call and what the clock reads after a failure are
inputs of the call. The counters and timestamps have the width of the atomics.
-/

set_option autoImplicit false

namespace IronClaw.Failover
open Lib.Runs
open IronClaw.CircuitBreaker (LlmError)

def isRetryable : LlmError → Bool
  | .requestFailed _ _ => true
  | .rateLimited _ _ => true
  | .invalidResponse _ _ => true
  | .sessionRenewalFailed _ _ => true
  | .http _ => true
  | .io _ => true
  | _ => false

structure CooldownConfig where
  cooldownDuration : ℕ
  failureThreshold : UInt32
  deriving DecidableEq

structure ProviderCooldown where
  failureCount : UInt32
  cooldownActivatedNanos : UInt64
  deriving DecidableEq

def ProviderCooldown.new : ProviderCooldown := ⟨0, 0⟩

/-- The subtraction is `saturating_sub`. -/
def ProviderCooldown.isInCooldown (c : ProviderCooldown) (nowNanos cooldownNanos : UInt64) : Bool :=
  c.cooldownActivatedNanos ≠ 0 &&
    nowNanos.toNat-c.cooldownActivatedNanos.toNat < cooldownNanos.toNat

def ProviderCooldown.recordFailure (c : ProviderCooldown) (threshold : UInt32) :
    ProviderCooldown × Bool :=
  ({ c with failureCount := c.failureCount+1 }, threshold ≤ c.failureCount+1)

def ProviderCooldown.activateCooldown (c : ProviderCooldown) (nowNanos : UInt64) :
    ProviderCooldown :=
  { c with cooldownActivatedNanos := if nowNanos = 0 then 1 else nowNanos }

def ProviderCooldown.reset (_ : ProviderCooldown) : ProviderCooldown := ⟨0, 0⟩

def ProviderCooldown.fail (c : ProviderCooldown) (threshold : UInt32) (nanos : UInt64) :
    ProviderCooldown :=
  let (counted, reached) := c.recordFailure threshold
  if reached then counted.activateCooldown nanos else counted

structure FailoverProvider where
  providers : ℕ
  nonempty : 0 < providers
  cooldownConfig : CooldownConfig
  cooldowns : ℕ → ProviderCooldown
  lastUsed : ℕ

def withCooldown (providers : ℕ) (config : CooldownConfig) : Except LlmError FailoverProvider :=
  if h : 0 < providers then .ok ⟨providers, h, config, fun _ => .new, 0⟩
  else .error (.requestFailed "failover" "FailoverProvider requires at least one provider")

def FailoverProvider.cooldownNanos (f : FailoverProvider) : UInt64 :=
  UInt64.ofNat f.cooldownConfig.cooldownDuration

def FailoverProvider.cooling (f : FailoverProvider) (now : UInt64) (i : ℕ) : Bool :=
  (f.cooldowns i).isInCooldown now f.cooldownNanos

def FailoverProvider.activated (f : FailoverProvider) (i : ℕ) : UInt64 :=
  (f.cooldowns i).cooldownActivatedNanos

def minByKey (key : ℕ → UInt64) : List ℕ → Option ℕ
  | [] => none
  | x::xs =>
    match minByKey key xs with
    | some y => some (if key x ≤ key y then x else y)
    | none => some x

def FailoverProvider.plan (f : FailoverProvider) (now : UInt64) : List ℕ :=
  let available := (List.range f.providers).filter (fun i => !f.cooling now i)
  if available.isEmpty then (minByKey f.activated (List.range f.providers)).toList
  else available

structure Answers (T : Type) where
  outcome : ℕ → Except LlmError T
  nanos : ℕ → UInt64

structure Tried (T : Type) where
  after : FailoverProvider
  result : Except LlmError (ℕ × T)
  called : List ℕ

section

variable {T : Type} (answers : Answers T)

def exhausted : LlmError :=
  .requestFailed "failover" ("Invariant violated in FailoverProvider: providers were exhausted " ++
    "but no last_error was recorded (this branch should be unreachable; possible causes: no " ++
    "provider attempts were made or `available` was unexpectedly empty).")

def FailoverProvider.succeeded (f : FailoverProvider) (i : ℕ) : FailoverProvider :=
  { f with lastUsed := i, cooldowns := Function.update f.cooldowns i (f.cooldowns i).reset }

def FailoverProvider.failed (f : FailoverProvider) (i : ℕ) (nanos : UInt64) : FailoverProvider :=
  let cooldown := (f.cooldowns i).fail f.cooldownConfig.failureThreshold nanos
  { f with cooldowns := Function.update f.cooldowns i cooldown }

def tryEach (lastError : Option LlmError) : List ℕ → FailoverProvider → Tried T
  | [], f => ⟨f, .error (lastError.getD exhausted), []⟩
  | i::rest, f =>
    match answers.outcome i with
    | .ok response => ⟨f.succeeded i, .ok (i, response), [i]⟩
    | .error err =>
      if !isRetryable err then ⟨f, .error err, [i]⟩
      else
        let tried := tryEach (some err) rest (f.failed i (answers.nanos i))
        { tried with called := i::tried.called }

def tryProviders (now : UInt64) (f : FailoverProvider) : Tried T :=
  tryEach answers none (f.plan now) f

end

def FailoverProvider.available (f : FailoverProvider) (now : UInt64) : List ℕ :=
  (List.range f.providers).filter (fun i => !f.cooling now i)

section

variable {T : Type} (answers : Answers T)

def Fails (i : ℕ) : Prop := ∃ e, answers.outcome i = .error e ∧ isRetryable e = true

structure Serves (now : UInt64) (f : FailoverProvider) (tried : Tried T) : Prop where
  calls : tried.called ≠ []
  inOrder : (∃ i < f.providers, f.cooling now i = false) → tried.called <+: f.available now
  oldest : (∀ i < f.providers, f.cooling now i = true) →
    ∃ i < f.providers, tried.called = [i] ∧ ∀ j < f.providers, f.activated i ≤ f.activated j
  succeeds : ∀ i response, i ∈ tried.called → answers.outcome i = .ok response →
    tried.result = .ok (i, response) ∧ tried.called.getLast? = some i ∧
      tried.after.cooldowns i = .new
  refuses : ∀ i e, i ∈ tried.called → answers.outcome i = .error e → isRetryable e = false →
    tried.result = .error e ∧ tried.called.getLast? = some i ∧
      tried.after.cooldowns i = f.cooldowns i
  fails : ∀ i ∈ tried.called, Fails answers i → tried.after.cooldowns i =
    (f.cooldowns i).fail f.cooldownConfig.failureThreshold (answers.nanos i)
  others : ∀ i, i ∉ tried.called → tried.after.cooldowns i = f.cooldowns i
  givesUp : (∀ i ∈ tried.called, Fails answers i) → tried.called = f.plan now ∧
    ∃ i e, tried.called.getLast? = some i ∧ answers.outcome i = .error e ∧ tried.result = .error e

structure Loops (lastError : Option LlmError) (plan : List ℕ) (f : FailoverProvider)
    (tried : Tried T) : Prop where
  inOrder : tried.called <+: plan
  calls : plan ≠ [] → tried.called ≠ []
  ends : plan = [] → tried.result = .error (lastError.getD exhausted)
  succeeds : ∀ i response, i ∈ tried.called → answers.outcome i = .ok response →
    tried.result = .ok (i, response) ∧ tried.called.getLast? = some i ∧
      tried.after.cooldowns i = .new
  refuses : ∀ i e, i ∈ tried.called → answers.outcome i = .error e → isRetryable e = false →
    tried.result = .error e ∧ tried.called.getLast? = some i ∧
      tried.after.cooldowns i = f.cooldowns i
  fails : ∀ i ∈ tried.called, Fails answers i → tried.after.cooldowns i =
    (f.cooldowns i).fail f.cooldownConfig.failureThreshold (answers.nanos i)
  others : ∀ i, i ∉ tried.called → tried.after.cooldowns i = f.cooldowns i
  givesUp : (∀ i ∈ tried.called, Fails answers i) → tried.called = plan ∧
    ∀ i, plan.getLast? = some i → ∃ e, answers.outcome i = .error e ∧ tried.result = .error e

variable (lastError : Option LlmError)

theorem loops_nil (f : FailoverProvider) :
    Loops answers lastError [] f (tryEach answers lastError [] f) := by
  constructor
  · exact List.prefix_refl _
  · intro h
    exact absurd rfl h
  · intro _
    rfl
  · intro i response hi
    cases hi
  · intro i e hi
    cases hi
  · intro i hi
    cases hi
  · intro i _
    rfl
  · intro _
    refine ⟨rfl, ?_⟩
    intro i hi
    cases hi

/-- An answer that is no retryable failure ends the loop. -/
theorem loops_success (i : ℕ) (rest : List ℕ) (f : FailoverProvider) (response : T)
    (h : answers.outcome i = .ok response) :
    Loops answers lastError (i::rest) f (tryEach answers lastError (i::rest) f) := by
  have htry : tryEach answers lastError (i::rest) f = ⟨f.succeeded i, .ok (i, response), [i]⟩ := by
    simp only [tryEach, h]
  rw [htry]
  have hnot : ¬ Fails answers i := by
    rintro ⟨e, he, _⟩
    rw [h] at he
    cases he
  constructor
  · exact ⟨rest, rfl⟩
  · intro _
    exact List.cons_ne_nil _ _
  · intro hnil
    cases hnil
  · intro j other hj hother
    have hji := List.mem_singleton.mp hj
    rw [hji, h, Except.ok.injEq] at hother
    rw [hji, hother]
    exact ⟨rfl, rfl, Function.update_self i _ _⟩
  · intro j e hj he
    rw [List.mem_singleton.mp hj, h] at he
    cases he
  · intro j hj hfails
    rw [List.mem_singleton.mp hj] at hfails
    exact absurd hfails hnot
  · intro j hj
    exact Function.update_of_ne (fun hji => hj (List.mem_singleton.mpr hji)) _ _
  · intro hall
    exact absurd (hall i (List.mem_singleton_self i)) hnot

theorem loops_refusal (i : ℕ) (rest : List ℕ) (f : FailoverProvider) (err : LlmError)
    (h : answers.outcome i = .error err) (hretry : isRetryable err = false) :
    Loops answers lastError (i::rest) f (tryEach answers lastError (i::rest) f) := by
  have htry : tryEach answers lastError (i::rest) f = ⟨f, .error err, [i]⟩ := by
    simp only [tryEach, h, hretry, Bool.not_false, if_true]
  rw [htry]
  have hnot : ¬ Fails answers i := by
    rintro ⟨e, he, hyes⟩
    rw [h, Except.error.injEq] at he
    rw [← he, hretry] at hyes
    cases hyes
  constructor
  · exact ⟨rest, rfl⟩
  · intro _
    exact List.cons_ne_nil _ _
  · intro hnil
    cases hnil
  · intro j other hj hother
    rw [List.mem_singleton.mp hj, h] at hother
    cases hother
  · intro j e hj he _
    have hji := List.mem_singleton.mp hj
    rw [hji, h, Except.error.injEq] at he
    rw [hji, he]
    exact ⟨rfl, rfl, rfl⟩
  · intro j hj hfails
    rw [List.mem_singleton.mp hj] at hfails
    exact absurd hfails hnot
  · intro j _
    rfl
  · intro hall
    exact absurd (hall i (List.mem_singleton_self i)) hnot

/-- A retryable failure is counted, and the loop goes on with the rest. -/
theorem loops_failure (i : ℕ) (rest : List ℕ) (f : FailoverProvider) (err : LlmError)
    (h : answers.outcome i = .error err) (hretry : isRetryable err = true) (hi : i ∉ rest)
    (hrest : Loops answers (some err) rest (f.failed i (answers.nanos i))
      (tryEach answers (some err) rest (f.failed i (answers.nanos i)))) :
    Loops answers lastError (i::rest) f (tryEach answers lastError (i::rest) f) := by
  have htry : tryEach answers lastError (i::rest) f =
      { tryEach answers (some err) rest (f.failed i (answers.nanos i)) with
        called := i::(tryEach answers (some err) rest (f.failed i (answers.nanos i))).called } := by
    rw [tryEach]
    simp only [h, hretry, Bool.not_true, Bool.false_eq_true, if_false]
  rw [htry]
  generalize tryEach answers (some err) rest (f.failed i (answers.nanos i)) = tried at hrest ⊢
  have hi' : i ∉ tried.called := fun hin => hi (hrest.inOrder.subset hin)
  have hsame : ∀ j, j ≠ i → (f.failed i (answers.nanos i)).cooldowns j = f.cooldowns j :=
    fun j hj => Function.update_of_ne hj _ _
  have hlast : ∀ j, tried.called.getLast? = some j → (i::tried.called).getLast? = some j := by
    intro j hj
    cases hc : tried.called with
    | nil =>
      rw [hc] at hj
      cases hj
    | cons first more => rw [List.getLast?_cons_cons, ← hc, hj]
  constructor
  · exact (List.prefix_cons_inj i).mpr hrest.inOrder
  · intro _
    exact List.cons_ne_nil _ _
  · intro hnil
    cases hnil
  · intro j response hj hok
    rcases List.mem_cons.mp hj with hji | hj
    · rw [hji, h] at hok
      cases hok
    · obtain ⟨hresult, hat, hafter⟩ := hrest.succeeds j response hj hok
      exact ⟨hresult, hlast j hat, hafter⟩
  · intro j e hj he hno
    rcases List.mem_cons.mp hj with hji | hj
    · rw [hji, h, Except.error.injEq] at he
      rw [← he, hretry] at hno
      cases hno
    · obtain ⟨hresult, hat, hafter⟩ := hrest.refuses j e hj he hno
      rw [hsame j (fun hji => hi' (hji ▸ hj))] at hafter
      exact ⟨hresult, hlast j hat, hafter⟩
  · intro j hj hfails
    rcases List.mem_cons.mp hj with hji | hj
    · rw [hji, hrest.others i hi']
      exact Function.update_self i _ _
    · have hafter := hrest.fails j hj hfails
      rwa [hsame j (fun hji => hi' (hji ▸ hj))] at hafter
  · intro j hj
    rw [List.mem_cons, not_or] at hj
    rw [hrest.others j hj.2, hsame j hj.1]
  · intro hall
    obtain ⟨hcalled, hend⟩ := hrest.givesUp (fun j hj => hall j (List.mem_cons_of_mem i hj))
    refine ⟨by rw [hcalled], ?_⟩
    intro j hj
    cases rest with
    | nil =>
      rw [List.getLast?_singleton, Option.some.injEq] at hj
      rw [← hj]
      exact ⟨err, h, hrest.ends rfl⟩
    | cons second rest =>
      rw [List.getLast?_cons_cons] at hj
      exact hend j hj

theorem tryEach_loops (plan : List ℕ) (hplan : plan.Nodup) (lastError : Option LlmError)
    (f : FailoverProvider) : Loops answers lastError plan f (tryEach answers lastError plan f) := by
  induction plan generalizing lastError f with
  | nil => exact loops_nil answers lastError f
  | cons i rest ih =>
    obtain ⟨hi, hrest⟩ := List.nodup_cons.mp hplan
    cases h : answers.outcome i with
    | ok response => exact loops_success answers lastError i rest f response h
    | error err =>
      by_cases hretry : isRetryable err = true
      · exact loops_failure answers lastError i rest f err h hretry hi
          (ih hrest (some err) (f.failed i (answers.nanos i)))
      · exact loops_refusal answers lastError i rest f err h (Bool.eq_false_iff.mpr hretry)

end

theorem minByKey_spec (key : ℕ → UInt64) (xs : List ℕ) (h : xs ≠ []) :
    ∃ y ∈ xs, minByKey key xs = some y ∧ ∀ x ∈ xs, key y ≤ key x := by
  induction xs with
  | nil => exact absurd rfl h
  | cons x xs ih =>
    by_cases hxs : xs = []
    · rw [hxs]
      refine ⟨x, List.mem_cons_self, rfl, ?_⟩
      intro z hz
      rw [List.mem_singleton.mp hz]
      exact UInt64.le_refl _
    · obtain ⟨y, hy, hmin, hle⟩ := ih hxs
      by_cases hxy : key x ≤ key y
      · refine ⟨x, List.mem_cons_self, by rw [minByKey, hmin]; simp [hxy], ?_⟩
        intro z hz
        rcases List.mem_cons.mp hz with hz | hz
        · rw [hz]
          exact UInt64.le_refl _
        · exact UInt64.le_trans hxy (hle z hz)
      · refine ⟨y, List.mem_cons_of_mem x hy, by rw [minByKey, hmin]; simp [hxy], ?_⟩
        intro z hz
        rcases List.mem_cons.mp hz with hz | hz
        · rw [hz]
          exact UInt64.le_of_lt (UInt64.not_le.mp hxy)
        · exact hle z hz

variable (f : FailoverProvider)

theorem range_nonempty : List.range f.providers ≠ [] := by
  rw [ne_eq, List.range_eq_nil]
  have := f.nonempty
  omega

/-- The plan is what is not cooling, or the one that cools longest. -/
theorem plan_cases (now : UInt64) :
    ((∃ i < f.providers, f.cooling now i = false) ∧ f.plan now = f.available now ∧
      f.available now ≠ []) ∨
    ((∀ i < f.providers, f.cooling now i = true) ∧ ∃ i < f.providers, f.plan now = [i] ∧
      ∀ j < f.providers, f.activated i ≤ f.activated j) := by
  by_cases hall : ∀ i < f.providers, f.cooling now i = true
  · right
    have hempty : (List.range f.providers).filter (fun i => !f.cooling now i) = [] := by
      rw [List.filter_eq_nil_iff]
      intro i hi
      rw [hall i (List.mem_range.mp hi)]
      decide
    obtain ⟨i, hi, hmin, hle⟩ := minByKey_spec f.activated _ (range_nonempty f)
    refine ⟨hall, i, List.mem_range.mp hi, ?_, fun j hj => hle j (List.mem_range.mpr hj)⟩
    simp only [FailoverProvider.plan, hempty, hmin]
    rfl
  · left
    simp only [not_forall, Bool.not_eq_true] at hall
    obtain ⟨i, hi, hcool⟩ := hall
    have hin : i ∈ f.available now := by
      rw [FailoverProvider.available, List.mem_filter, List.mem_range, hcool]
      exact ⟨hi, rfl⟩
    have hfull : (f.available now).isEmpty = false := by
      rw [List.isEmpty_eq_false_iff]
      exact List.ne_nil_of_mem hin
    refine ⟨⟨i, hi, hcool⟩, ?_, List.ne_nil_of_mem hin⟩
    rw [FailoverProvider.available] at hfull ⊢
    simp only [FailoverProvider.plan, hfull, Bool.false_eq_true, if_false]

theorem plan_nodup (now : UInt64) : (f.plan now).Nodup := by
  rcases plan_cases f now with ⟨_, hplan, _⟩ | ⟨_, i, _, hplan, _⟩
  · rw [hplan]
    exact List.nodup_range.filter _
  · rw [hplan]
    exact List.nodup_singleton i

theorem plan_nonempty (now : UInt64) : f.plan now ≠ [] := by
  rcases plan_cases f now with ⟨_, hplan, hne⟩ | ⟨_, i, _, hplan, _⟩
  · rwa [hplan]
  · rw [hplan]
    exact List.cons_ne_nil i []

theorem tryProviders_serves {T : Type} (answers : Answers T) (now : UInt64)
    (f : FailoverProvider) : Serves answers now f (tryProviders answers now f) := by
  have hloops : Loops answers none (f.plan now) f (tryProviders answers now f) :=
    tryEach_loops answers (f.plan now) (plan_nodup f now) none f
  have hcalls := hloops.calls (plan_nonempty f now)
  have horder := hloops.inOrder
  constructor
  · exact hcalls
  · intro hsome
    rcases plan_cases f now with ⟨_, hplan, _⟩ | ⟨hall, _⟩
    · rwa [hplan] at horder
    · obtain ⟨i, hi, hcool⟩ := hsome
      rw [hall i hi] at hcool
      cases hcool
  · intro hall
    rcases plan_cases f now with ⟨⟨i, hi, hcool⟩, _⟩ | ⟨_, i, hi, hplan, hle⟩
    · rw [hall i hi] at hcool
      cases hcool
    · refine ⟨i, hi, ?_, hle⟩
      rw [hplan, List.prefix_cons_iff] at horder
      rcases horder with hnil | ⟨t, ht, hpre⟩
      · exact absurd hnil hcalls
      · rw [List.prefix_nil.mp hpre] at ht
        exact ht
  · exact hloops.succeeds
  · exact hloops.refuses
  · exact hloops.fails
  · exact hloops.others
  · intro hall
    obtain ⟨hcalled, hend⟩ := hloops.givesUp hall
    refine ⟨hcalled, ?_⟩
    obtain ⟨i, hi⟩ := Option.ne_none_iff_exists'.mp
      (mt List.getLast?_eq_none_iff.mp (plan_nonempty f now))
    obtain ⟨e, he, hresult⟩ := hend i hi
    exact ⟨i, e, by rw [hcalled, hi], he, hresult⟩

inductive Event where
  | failed (i : ℕ) (nanos : UInt64)
  | succeeded (i : ℕ)
  deriving DecidableEq

def record : Event → FailoverProvider → FailoverProvider
  | .failed i nanos, f => f.failed i nanos
  | .succeeded i, f => f.succeeded i

def eventsOf {T : Type} (answers : Answers T) : List ℕ → List Event
  | [] => []
  | i::rest =>
    match answers.outcome i with
    | .ok _ => [.succeeded i]
    | .error err =>
      if !isRetryable err then [] else .failed i (answers.nanos i)::eventsOf answers rest

/-- A call is the events of its loop, one after another. -/
theorem tryEach_events {T : Type} (answers : Answers T) (lastError : Option LlmError)
    (plan : List ℕ) (f : FailoverProvider) :
    (tryEach answers lastError plan f).after = run record (eventsOf answers plan) f := by
  induction plan generalizing lastError f with
  | nil => rfl
  | cons i rest ih =>
    rw [tryEach, eventsOf]
    cases answers.outcome i with
    | ok response => rfl
    | error err =>
      by_cases hretry : isRetryable err = true
      · simp only [hretry, Bool.not_true, Bool.false_eq_true, if_false]
        rw [ih]
        rfl
      · simp only [hretry, Bool.not_false, if_true]
        rfl

def failuresSince (i : ℕ) : List Event → ℕ
  | [] => 0
  | .failed j _::es => if j = i then failuresSince i es+1 else failuresSince i es
  | .succeeded j::es => if j = i then 0 else failuresSince i es

structure Counted (threshold failures : ℕ) (c : ProviderCooldown) : Prop where
  counter : c.failureCount.toNat ≤ failures
  cooldown : c.cooldownActivatedNanos ≠ 0 → threshold ≤ failures

theorem fail_counted (threshold : UInt32) (nanos : UInt64) (failures : ℕ) (c : ProviderCooldown)
    (h : Counted threshold.toNat failures c) :
    Counted threshold.toNat (failures+1) (c.fail threshold nanos) := by
  have hcount : (c.failureCount+1).toNat ≤ failures+1 := by
    have hmod : (c.failureCount+1).toNat ≤ c.failureCount.toNat+1 := by
      rw [UInt32.toNat_add]
      exact Nat.mod_le _ _
    exact hmod.trans (Nat.add_le_add_right h.counter 1)
  unfold ProviderCooldown.fail ProviderCooldown.recordFailure
  by_cases hreached : threshold ≤ c.failureCount+1
  · simp only [hreached, decide_true, if_true, ProviderCooldown.activateCooldown]
    exact ⟨hcount, fun _ => (UInt32.le_iff_toNat_le.mp hreached).trans hcount⟩
  · simp only [hreached, decide_false, Bool.false_eq_true, if_false]
    exact ⟨hcount, fun hactive => (h.cooldown hactive).trans (Nat.le_succ failures)⟩

structure Tracked (log : List Event) (f : FailoverProvider) : Prop where
  counted : ∀ i, Counted f.cooldownConfig.failureThreshold.toNat (failuresSince i log)
    (f.cooldowns i)

theorem record_tracked (e : Event) (log : List Event) (f : FailoverProvider)
    (h : Tracked log f) : Tracked (e::log) (record e f) := by
  constructor
  intro i
  cases e with
  | failed j nanos =>
    by_cases hj : j = i
    · subst hj
      simp only [record, FailoverProvider.failed, failuresSince, if_true, Function.update_self]
      exact fail_counted _ nanos _ _ (h.counted j)
    · simp only [record, FailoverProvider.failed, failuresSince, if_neg hj,
        Function.update_of_ne (Ne.symm hj)]
      exact h.counted i
  | succeeded j =>
    by_cases hj : j = i
    · subst hj
      simp only [record, FailoverProvider.succeeded, failuresSince, if_true, Function.update_self]
      exact ⟨Nat.zero_le _, fun hactive => absurd rfl hactive⟩
    · simp only [record, FailoverProvider.succeeded, failuresSince, if_neg hj,
        Function.update_of_ne (Ne.symm hj)]
      exact h.counted i

theorem events_tracked (es log : List Event) (f : FailoverProvider) (h : Tracked log f) :
    Tracked (es.reverse++log) (run record es f) := by
  induction es generalizing log f with
  | nil => exact h
  | cons e es ih =>
    rw [List.reverse_cons, List.append_assoc]
    exact ih (e::log) (record e f) (record_tracked e log f h)

def FailoverProvider.fresh (f : FailoverProvider) : FailoverProvider :=
  { f with cooldowns := fun _ => .new, lastUsed := 0 }

theorem fresh_tracked : Tracked [] f.fresh := by
  constructor
  intro i
  exact ⟨Nat.le_refl _, fun hactive => absurd rfl hactive⟩

structure Call (T : Type) where
  now : UInt64
  answers : Answers T

def step {T : Type} (c : Call T) (f : FailoverProvider) : FailoverProvider :=
  (tryProviders c.answers c.now f).after

def eventsIn {T : Type} : List (Call T) → FailoverProvider → List Event
  | [], _ => []
  | c::cs, f => eventsOf c.answers (f.plan c.now)++eventsIn cs (step c f)

theorem run_events {T : Type} (cs : List (Call T)) (f : FailoverProvider) :
    run step cs f = run record (eventsIn cs f) f := by
  induction cs generalizing f with
  | nil => rfl
  | cons c cs ih =>
    rw [run, ih, eventsIn, run_append, step, tryProviders, tryEach_events]

theorem events_config (es : List Event) (f : FailoverProvider) :
    (run record es f).cooldownConfig = f.cooldownConfig := by
  induction es generalizing f with
  | nil => rfl
  | cons e es ih =>
    rw [run, ih]
    cases e <;> rfl

theorem cooling_after_failures (es : List Event) (f : FailoverProvider) (i : ℕ) (now : UInt64)
    (h : (run record es f.fresh).cooling now i = true) :
    f.cooldownConfig.failureThreshold.toNat ≤ failuresSince i es.reverse := by
  have htracked := events_tracked es [] f.fresh (fresh_tracked f)
  have hcounted := htracked.counted i
  rw [List.append_nil, events_config] at hcounted
  apply hcounted.cooldown
  have hactive := (Bool.and_eq_true_iff.mp h).1
  exact of_decide_eq_true hactive

/-- Every call of a failover provider serves its caller, from any state of the
cooldowns, and a provider cools only after enough failures without a success. -/
theorem failover_serves {T : Type} (f : FailoverProvider) :
    (∀ (now : UInt64) (answers : Answers T),
      Serves answers now f (tryProviders answers now f)) ∧
    ∀ (cs : List (Call T)) (i : ℕ) (now : UInt64),
      (run step cs f.fresh).cooling now i = true →
      f.cooldownConfig.failureThreshold.toNat ≤
        failuresSince i (eventsIn cs f.fresh).reverse := by
  constructor
  · intro now answers
    exact tryProviders_serves answers now f
  · intro cs i now h
    rw [run_events] at h
    exact cooling_after_failures (eventsIn cs f.fresh) f i now h

end IronClaw.Failover
