import Mathlib.Order.Bounds.Basic
import IronClaw.Failover
import IronClaw.WebhookSignature

/-!
# Retries with backoff

`llm/retry.rs` doubles the delay with each attempt and moves it by up to a
quarter. The base saturates in `u64`; the sum with the jitter is taken in
`i64`, where the base of attempt 54 is negative already.
-/

set_option autoImplicit false

namespace IronClaw.RetryBackoff
open IronClaw.CircuitBreaker (LlmError)
open IronClaw.Failover (isRetryable)
open IronClaw.WebhookSignature (Build InRange result_inRange)

def u64Max : ℕ := 2^64-1

def saturatingMul (a b : ℕ) : ℕ := min (a*b) u64Max
def saturatingPow (a n : ℕ) : ℕ := min (a^n) u64Max

def asI64 (n : ℕ) : ℤ := Int.bmod n (2^64)

def baseMs (attempt : UInt32) : ℕ := saturatingMul 1000 (saturatingPow 2 attempt.toNat)

def jitterRange (attempt : UInt32) : ℕ := baseMs attempt/4

/-- What `gen_range(0..=jitter_range * 2)` can give. -/
abbrev Draw (attempt : UInt32) : Type := Fin (jitterRange attempt*2+1)

def retryBackoffDelay (build : Build) (attempt : UInt32) (offset : Draw attempt) : Option ℕ := do
  let jitter ← if 0 < jitterRange attempt
    then build.result (asI64 offset-asI64 (jitterRange attempt)) else some 0
  let delayMs ← build.result (asI64 (baseMs attempt)+jitter)
  some (max delayMs 100).toNat

/-! ## The retry loop -/

structure Run (T : Type) where
  calls : List (Except LlmError T)
  sleeps : List ℕ
  result : Option (Except LlmError T)

section

variable {T : Type} (build : Build) (maxRetries : UInt32) (modelName : String)
  (op : UInt32 → Except LlmError T) (draw : (attempt : UInt32) → Draw attempt)

def delayAfter (err : LlmError) (attempt : UInt32) : Option ℕ :=
  match err with
  | .rateLimited _ (some duration) => some duration
  | _ => (retryBackoffDelay build attempt (draw attempt)).map (· * 10^6)

def exitedUnexpectedly : LlmError :=
  .requestFailed modelName "retry loop exited unexpectedly"

def retryFrom (lastError : Option LlmError) : List UInt32 → Run T
  | [] => ⟨[], [], some (.error (lastError.getD (exitedUnexpectedly modelName)))⟩
  | attempt::rest =>
    match op attempt with
    | .ok resp => ⟨[.ok resp], [], some (.ok resp)⟩
    | .error err =>
      if !isRetryable err || attempt = maxRetries then ⟨[.error err], [], some (.error err)⟩
      else match delayAfter build draw err attempt with
        | none => ⟨[.error err], [], none⟩
        | some delay =>
          let run := retryFrom (some err) rest
          ⟨.error err::run.calls, delay::run.sleeps, run.result⟩

/-- `0..=max_retries` -/
def attempts : List UInt32 := (List.range (maxRetries.toNat+1)).map UInt32.ofNat

def retryLoop : Run T := retryFrom build maxRetries modelName op draw none (attempts maxRetries)

end

/-! ## The base -/

variable (attempt : UInt32)

theorem base_nominal :
    baseMs attempt = min (1000*2^attempt.toNat) u64Max := by
  rw [baseMs, saturatingMul, saturatingPow]
  omega

theorem base_exact (h : attempt.toNat ≤ 54) :
    baseMs attempt = 1000*2^attempt.toNat := by
  have hpow : 2^attempt.toNat ≤ 2^54 := Nat.pow_le_pow_right (by omega) h
  rw [base_nominal, u64Max]
  omega

theorem base_saturated (h : 55 ≤ attempt.toNat) : baseMs attempt = u64Max := by
  have hpow : 2^55 ≤ 2^attempt.toNat := Nat.pow_le_pow_right (by omega) h
  have hmax : u64Max ≤ 1000*2^attempt.toNat := by
    unfold u64Max
    omega
  rw [base_nominal, Nat.min_eq_right hmax]

theorem range_pos : 0 < jitterRange attempt := by
  have hpow : 0 < 2^attempt.toNat := Nat.pow_pos (by omega)
  have hbase : 4 ≤ baseMs attempt := by
    rw [base_nominal]
    exact le_min (by omega) (by decide)
  unfold jitterRange
  omega

theorem range_small : jitterRange attempt < 2^62 := by
  have hbase : baseMs attempt ≤ u64Max := by
    rw [base_nominal]
    exact Nat.min_le_right _ _
  unfold u64Max at hbase
  unfold jitterRange
  omega

theorem asI64_small (n : ℕ) (h : n < 2^63) : asI64 n = n :=
  Int.bmod_eq_of_le (by omega) (by omega)

theorem asI64_large (n : ℕ) (h : 2^63 ≤ n) (hn : n < 2^64) : asI64 n = n-2^64 := by
  have hshift : asI64 n = Int.bmod ((n:ℤ)-(2^64:ℕ)) (2^64) := (Int.sub_bmod_right n (2^64)).symm
  exact hshift.trans (Int.bmod_eq_of_le (by omega) (by omega))

/-- The jitter is taken within `i64` at every attempt. -/
theorem delay_eq (build : Build) (attempt : UInt32) (offset : Draw attempt) :
    retryBackoffDelay build attempt offset =
      (build.result (asI64 (baseMs attempt)+(offset.val-jitterRange attempt))).bind
        (fun delayMs => some (max delayMs 100).toNat) := by
  have hrange : jitterRange attempt < 2^62 := range_small attempt
  have hpos : 0 < jitterRange attempt := range_pos attempt
  have hoffset := offset.isLt
  have hjitter : InRange (offset.val-jitterRange attempt) := ⟨by omega, by omega⟩
  have hdraw : asI64 offset.val = offset.val := asI64_small offset.val (by omega)
  have hmiddle : asI64 (jitterRange attempt) = jitterRange attempt :=
    asI64_small (jitterRange attempt) (by omega)
  unfold retryBackoffDelay
  rw [if_pos hpos, hdraw, hmiddle, result_inRange build _ hjitter, Option.bind_eq_bind,
    Option.bind_some]

/-! ## The range of the delay -/

def Fits (attempt : UInt32) (offset : ℕ) : Prop :=
  attempt.toNat ≤ 52 ∨ attempt.toNat = 53 ∧ offset < 274*2^53

theorem range_exact (h : attempt.toNat ≤ 54) :
    jitterRange attempt = 250*2^attempt.toNat := by
  rw [jitterRange, base_exact attempt h]
  omega

theorem sum_low (offset : ℕ) (h : attempt.toNat ≤ 53) :
    asI64 (baseMs attempt)+(offset-jitterRange attempt) =
      (750*2^attempt.toNat+offset : ℕ) := by
  have hpow : 2^attempt.toNat ≤ 2^53 := Nat.pow_le_pow_right (by omega) h
  rw [base_exact attempt (by omega), range_exact attempt (by omega), asI64_small _ (by omega)]
  omega

/-- The base of attempt 54 is negative in `i64`, and so is that of all later ones. -/
theorem sum_high (offset : ℕ) (h : 54 ≤ attempt.toNat) (hoffset : offset ≤ jitterRange attempt*2) :
    asI64 (baseMs attempt)+(offset-jitterRange attempt) ≤ offset-1 ∧
      asI64 (baseMs attempt)+(offset-jitterRange attempt) ≤ 2^62 ∧
      -2^63 ≤ asI64 (baseMs attempt)+(offset-jitterRange attempt) := by
  by_cases h54 : attempt.toNat = 54
  · have hbase := base_exact attempt (by omega)
    have hrange := range_exact attempt (by omega)
    rw [h54] at hbase hrange
    rw [hrange] at hoffset ⊢
    rw [hbase, asI64_large _ (by omega) (by omega)]
    omega
  · have hbase := base_saturated attempt (by omega)
    have hrange : jitterRange attempt = 2^62-1 := by
      rw [jitterRange, hbase]
      rfl
    have hsigned : asI64 u64Max = -1 := by decide
    rw [hrange] at hoffset ⊢
    rw [hbase, hsigned]
    omega

section

variable (build : Build) (attempt : UInt32) (offset : Draw attempt)

theorem delay_fits (h : Fits attempt offset) :
    retryBackoffDelay build attempt offset = some (750*2^attempt.toNat+offset.val) := by
  have hlow : attempt.toNat ≤ 53 := by
    rcases h with h | ⟨h, -⟩ <;> omega
  have hoffset := offset.isLt
  have hrange := range_exact attempt (by omega)
  have hin : InRange (750*2^attempt.toNat+offset.val : ℕ) := by
    refine ⟨by omega, ?_⟩
    rcases h with h | ⟨h, hdraw⟩
    · have hpow : 2^attempt.toNat ≤ 2^52 := Nat.pow_le_pow_right (by omega) h
      omega
    · rw [h]
      omega
  have hpos : 1 ≤ 2^attempt.toNat := Nat.one_le_two_pow
  have hfloor : (max ((750*2^attempt.toNat+offset.val : ℕ) : ℤ) 100).toNat =
      750*2^attempt.toNat+offset.val := by omega
  rw [delay_eq, sum_low attempt offset hlow, result_inRange build _ hin, Option.bind_some, hfloor]

/-- The last draws of attempt 53 leave `i64`. -/
theorem delay_over (h : attempt.toNat = 53) (hover : 274*2^53 ≤ offset.val) :
    retryBackoffDelay build attempt offset =
      match build with
      | .debug => none
      | .release => some 100 := by
  have hoffset := offset.isLt
  have hrange := range_exact attempt (by omega)
  rw [h] at hrange
  have hout : ¬ InRange (750*2^53+offset.val : ℕ) := fun hin => by
    have hlt := hin.2
    omega
  rw [delay_eq, sum_low attempt offset (by omega), h]
  unfold Build.result
  rw [if_neg hout]
  cases build with
  | debug => rfl
  | release =>
    have hwrap : Int.bmod (750*2^53+offset.val : ℕ) (2^64) = (750*2^53+offset.val : ℕ)-2^64 :=
      asI64_large _ (by omega) (by omega)
    have hfloor : (max (((750*2^53+offset.val : ℕ) : ℤ)-2^64) 100).toNat = 100 := by omega
    dsimp only
    rw [Option.bind_some, hwrap, hfloor]

theorem delay_high (h : 54 ≤ attempt.toNat) :
    ∃ delay, retryBackoffDelay build attempt offset = some delay ∧ delay ≤ 2^62 ∧
      (offset.val = 0 → delay = 100) := by
  have hoffset := offset.isLt
  obtain ⟨hdraw, hupper, hlower⟩ := sum_high attempt offset.val h (by omega)
  have hin : InRange (asI64 (baseMs attempt)+(offset.val-jitterRange attempt)) :=
    ⟨hlower, by omega⟩
  rw [delay_eq, result_inRange build _ hin, Option.bind_some]
  exact ⟨_, rfl, by omega, by omega⟩

def WithinQuarter (nominal delay : ℕ) : Prop := 3*nominal ≤ 4*delay ∧ 4*delay ≤ 5*nominal

theorem delay_within : (∃ delay, retryBackoffDelay build attempt offset = some delay ∧
    WithinQuarter (min (1000*2^attempt.toNat) u64Max) delay) ↔ Fits attempt offset := by
  have hoffset := offset.isLt
  rw [← base_nominal]
  constructor
  · rintro ⟨delay, hdelay, hlower, -⟩
    by_contra hfits
    rw [Fits, not_or, not_and] at hfits
    by_cases h53 : attempt.toNat = 53
    · have hover := delay_over build attempt offset h53 (not_lt.mp (hfits.2 h53))
      rw [base_exact attempt (by omega), h53] at hlower
      cases build with
      | debug => cases hover.symm.trans hdelay
      | release =>
        have hsame : 100 = delay := Option.some.inj (hover.symm.trans hdelay)
        omega
    · obtain ⟨high, hhigh, hsmall, -⟩ := delay_high build attempt offset (by omega)
      have hsame : high = delay := Option.some.inj (hhigh.symm.trans hdelay)
      have hpow : 2^54 ≤ 2^attempt.toNat := Nat.pow_le_pow_right (by omega) (by omega)
      have hbase : 2^63 ≤ baseMs attempt := by
        rw [base_nominal]
        exact le_min (by omega) (by decide)
      omega
  · intro h
    have hlow : attempt.toNat ≤ 53 := by
      rcases h with h | ⟨h, -⟩ <;> omega
    have hrange := range_exact attempt (by omega)
    refine ⟨_, delay_fits build attempt offset h, ?_⟩
    rw [base_exact attempt (by omega)]
    exact ⟨by omega, by omega⟩

def delays : Set ℕ := {delay | ∃ offset, retryBackoffDelay build attempt offset = some delay}

def lastSound : Build → ℕ
  | .debug => 53
  | .release => 52

def leastDelay : ℕ := if attempt.toNat ≤ lastSound build then 750*2^attempt.toNat else 100

theorem delay_floor (delay : ℕ) (h : retryBackoffDelay build attempt offset = some delay) :
    100 ≤ delay := by
  rw [delay_eq] at h
  obtain ⟨delayMs, -, hmax⟩ := Option.bind_eq_some_iff.mp h
  have hsame := Option.some.inj hmax
  omega

theorem delay_least : IsLeast (delays build attempt) (leastDelay build attempt) := by
  rw [leastDelay]
  split
  · next h =>
    have hfirst : Fits attempt (0 : Draw attempt).val := by
      cases build with
      | debug =>
        have h53 : attempt.toNat ≤ 53 := h
        rcases Nat.lt_or_eq_of_le h53 with h | h
        · exact Or.inl (by omega)
        · exact Or.inr ⟨h, by simp⟩
      | release => exact Or.inl h
    refine ⟨⟨0, delay_fits build attempt 0 hfirst⟩, ?_⟩
    rintro delay ⟨offset, hdelay⟩
    by_cases hfits : Fits attempt offset
    · rw [delay_fits build attempt offset hfits] at hdelay
      have hsame := Option.some.inj hdelay
      omega
    · rw [Fits, not_or, not_and] at hfits
      cases build with
      | debug =>
        have h53 : attempt.toNat = 53 := by
          have hle : attempt.toNat ≤ 53 := h
          omega
        cases (delay_over .debug attempt offset h53 (not_lt.mp (hfits.2 h53))).symm.trans hdelay
      | release => exact absurd h hfits.1
  · next h =>
    refine ⟨?_, fun delay ⟨offset, hdelay⟩ => delay_floor build attempt offset delay hdelay⟩
    by_cases h53 : attempt.toNat = 53
    · cases build with
      | debug => exact absurd h53.le h
      | release =>
        have hrange := range_exact attempt (by omega)
        rw [h53] at hrange
        exact ⟨Fin.last _, delay_over .release attempt _ h53 (by rw [Fin.val_last]; omega)⟩
    · have hhigh : 54 ≤ attempt.toNat := by
        have hlast : 52 ≤ lastSound build := by cases build <;> decide
        omega
      obtain ⟨delay, hdelay, -, hzero⟩ := delay_high build attempt 0 hhigh
      rw [hzero rfl] at hdelay
      exact ⟨0, hdelay⟩

theorem least_grows (a b : UInt32) (hab : a ≤ b) :
    leastDelay build a ≤ leastDelay build b ↔
      b.toNat ≤ lastSound build ∨ lastSound build < a.toNat := by
  have hle : a.toNat ≤ b.toNat := hab
  have hpos : 1 ≤ 2^a.toNat := Nat.one_le_two_pow
  have hpow : 2^a.toNat ≤ 2^b.toNat := Nat.pow_le_pow_right (by omega) hle
  rw [leastDelay, leastDelay]
  split <;> split <;> omega

end

/-! ## Runs of the loop -/

theorem last_call {T : Type} (x y : T) (before after : List T) (h : [x] = before++y::after) :
    after = [] := by
  cases before with
  | nil => exact (List.cons.inj h).2.symm
  | cons b before => simp at h

section

variable {T : Type} (build : Build) (maxRetries : UInt32) (modelName : String)
  (op : UInt32 → Except LlmError T) (draw : (attempt : UInt32) → Draw attempt)

/-- Each attempt calls the provider once at most, in turn. -/
theorem retry_calls (lastError : Option LlmError) (attempts : List UInt32) :
    (retryFrom build maxRetries modelName op draw lastError attempts).calls <+:
      attempts.map op := by
  induction attempts generalizing lastError with
  | nil => exact List.nil_prefix
  | cons attempt rest ih =>
    rw [retryFrom, List.map_cons]
    cases op attempt with
    | ok resp => exact List.cons_prefix_cons.mpr ⟨rfl, List.nil_prefix⟩
    | error err =>
      dsimp only
      split
      · exact List.cons_prefix_cons.mpr ⟨rfl, List.nil_prefix⟩
      · split
        · exact List.cons_prefix_cons.mpr ⟨rfl, List.nil_prefix⟩
        · exact List.cons_prefix_cons.mpr ⟨rfl, ih (some err)⟩

/-- Nothing is called after an error that is not retryable. -/
theorem retry_stops (lastError : Option LlmError) (attempts : List UInt32)
    (before after : List (Except LlmError T)) (e : LlmError) (he : isRetryable e = false)
    (h : (retryFrom build maxRetries modelName op draw lastError attempts).calls =
      before++.error e::after) : after = [] := by
  induction attempts generalizing lastError before with
  | nil => cases before <;> cases h
  | cons attempt rest ih =>
    rw [retryFrom] at h
    cases hop : op attempt with
    | ok resp =>
      rw [hop] at h
      exact last_call _ _ before after h
    | error err =>
      rw [hop] at h
      dsimp only at h
      split at h
      · exact last_call _ _ before after h
      · next hagain =>
        split at h
        · exact last_call _ _ before after h
        · cases before with
          | nil =>
            have hsame : err = e := Except.error.inj (List.cons.inj h).1
            rw [hsame, he] at hagain
            exact absurd rfl hagain
          | cons b before => exact ih (some err) before (List.cons.inj h).2

theorem attempts_length : (attempts maxRetries).length = maxRetries.toNat+1 := by
  rw [attempts, List.length_map, List.length_range]

end

/-- The delay is within a quarter of the doubled base exactly up to attempt 52,
and for the lower draws of attempt 53; the least delay shrinks exactly from the
last of these to any later attempt. The loop calls the provider at most once
more than there are retries, and not again after an error that is not
retryable. -/
theorem backoff_laws (build : Build) :
    (∀ (attempt : UInt32) (offset : Draw attempt),
      (∃ delay, retryBackoffDelay build attempt offset = some delay ∧
        WithinQuarter (min (1000*2^attempt.toNat) u64Max) delay) ↔ Fits attempt offset) ∧
    (∀ a b : UInt32, a ≤ b →
      ∃ m n, IsLeast (delays build a) m ∧ IsLeast (delays build b) n ∧
        (m ≤ n ↔ b.toNat ≤ lastSound build ∨ lastSound build < a.toNat)) ∧
    ∀ (T : Type) (maxRetries : UInt32) (modelName : String) (op : UInt32 → Except LlmError T)
      (draw : (attempt : UInt32) → Draw attempt),
      (retryLoop build maxRetries modelName op draw).calls.length ≤ maxRetries.toNat+1 ∧
      ∀ (before after : List (Except LlmError T)) (e : LlmError), isRetryable e = false →
        (retryLoop build maxRetries modelName op draw).calls = before++.error e::after →
        after = [] := by
  refine ⟨delay_within build, ?_, ?_⟩
  · intro a b hab
    exact ⟨_, _, delay_least build a, delay_least build b, least_grows build a b hab⟩
  · intro T maxRetries modelName op draw
    constructor
    · have hcalls := (retry_calls build maxRetries modelName op draw none
        (attempts maxRetries)).length_le
      rw [List.length_map, attempts_length] at hcalls
      exact hcalls
    · intro before after e he h
      exact retry_stops build maxRetries modelName op draw none _ before after e he h

def refuse : UInt32 → Except LlmError Unit := fun _ => .error (.authFailed "model")

/-- Attempts 0 and 1, and a refusal that ends the loop. -/
theorem backoff_laws_first :
    (∃ m n, IsLeast (delays .release 0) m ∧ IsLeast (delays .release 1) n ∧
      (m ≤ n ↔ (1 : UInt32).toNat ≤ lastSound .release ∨
        lastSound .release < (0 : UInt32).toNat)) ∧
    (retryLoop .release 3 "model" refuse (fun _ => 0)).calls.tail = [] :=
  ⟨(backoff_laws .release).2.1 0 1 (by decide),
    ((backoff_laws .release).2.2 Unit 3 "model" refuse (fun _ => 0)).2 [] _ (.authFailed "model")
      rfl rfl⟩

/-- Whatever the maximum: attempt 0 waits for 750 milliseconds at least, and
attempt 54 may wait for 100. Attempt 53 may leave `i64`. -/
theorem backoff_wraps :
    (¬ ∃ maximum, ∀ (attempt : UInt32) (offset : Draw attempt),
      ∃ delay, retryBackoffDelay .release attempt offset = some delay ∧
        WithinQuarter (min (1000*2^attempt.toNat) maximum) delay) ∧
    retryBackoffDelay .debug 53 (Fin.last _) = none ∧
    retryBackoffDelay .release 54 0 = some 100 := by
  have hfirst : retryBackoffDelay .release 0 0 = some 750 :=
    delay_fits .release 0 0 (Or.inl (by decide))
  have hhigh : retryBackoffDelay .release 54 0 = some 100 := by
    obtain ⟨delay, hdelay, -, hzero⟩ := delay_high .release 54 0 (by decide)
    rw [hdelay, hzero rfl]
  refine ⟨?_, ?_, hhigh⟩
  · rintro ⟨maximum, h⟩
    obtain ⟨low, hlow, -, hupper⟩ := h 0 0
    obtain ⟨high, hhigh', hlower, -⟩ := h 54 0
    have h750 : 750 = low := Option.some.inj (hfirst.symm.trans hlow)
    have h100 : 100 = high := Option.some.inj (hhigh.symm.trans hhigh')
    have h54 : (54 : UInt32).toNat = 54 := rfl
    rw [h54] at hlower
    omega
  · have hrange := range_exact 53 (by decide)
    have h53 : (53 : UInt32).toNat = 53 := rfl
    rw [h53] at hrange
    exact delay_over .debug 53 (Fin.last _) h53 (by rw [Fin.val_last]; omega)

end IronClaw.RetryBackoff
