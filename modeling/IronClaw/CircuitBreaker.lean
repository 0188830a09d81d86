import IronClaw.Lib.Runs
import IronClaw.Lib.Tables
import Mathlib.Algebra.Group.Nat.Defs

/-!
# The circuit breaker around a provider

The lock of `llm/circuit_breaker.rs` is held for one check or one record, and
the inner call runs without it. The machine keeps the breaker and the calls in
flight, any number of them, and every order of their steps is a run. Two ghost
counters say how often the breaker has opened and how often a probe was let
in; a call in flight carries the number of openings at its admission.
-/

set_option autoImplicit false

namespace IronClaw.CircuitBreaker
open Lib.Runs

inductive LlmError where
  | requestFailed (provider reason : String)
  | rateLimited (provider : String) (retryAfter : Option ℕ)
  | invalidResponse (provider reason : String)
  | contextLengthExceeded (used limit : ℕ)
  | modelNotAvailable (provider model : String)
  | authFailed (provider : String)
  | sessionExpired (provider : String)
  | sessionRenewalFailed (provider reason : String)
  | http (source : String)
  | json (source : String)
  | io (source : String)
  deriving DecidableEq

def isTransient : LlmError → Bool
  | .requestFailed _ _ => true
  | .rateLimited _ _ => true
  | .invalidResponse _ _ => true
  | .sessionExpired _ => true
  | .sessionRenewalFailed _ _ => true
  | .http _ => true
  | .io _ => true
  | _ => false

structure Config where
  failureThreshold : ℕ
  recoveryTimeout : ℕ
  halfOpenSuccessesNeeded : ℕ
  deriving DecidableEq

structure Provider where
  modelName : String
  wholeSeconds : ℕ → String

inductive CircuitState where
  | closed
  | opened
  | halfOpen
  deriving DecidableEq

structure BreakerState where
  state : CircuitState
  consecutiveFailures : ℕ
  openedAt : Option ℕ
  halfOpenSuccesses : ℕ
  deriving DecidableEq

def BreakerState.new : BreakerState := ⟨.closed, 0, none, 0⟩

section

variable (cfg : Config) (provider : Provider)

def checkAllowed (now : ℕ) (b : BreakerState) : BreakerState × Except LlmError Unit :=
  match b.state with
  | .closed => (b, .ok ())
  | .halfOpen => (b, .ok ())
  | .opened =>
    match b.openedAt with
    | some at_ =>
      if cfg.recoveryTimeout ≤ now-at_ then
        ({ b with state := .halfOpen, halfOpenSuccesses := 0 }, .ok ())
      else (b, .error (.requestFailed provider.modelName
        ("Circuit breaker open (" ++ toString b.consecutiveFailures ++
          " consecutive failures, recovery in " ++
          provider.wholeSeconds (cfg.recoveryTimeout-(now-at_)) ++ "s)")))
    | none => ({ b with state := .closed }, .ok ())

def recordSuccess (b : BreakerState) : BreakerState :=
  match b.state with
  | .closed => { b with consecutiveFailures := 0 }
  | .halfOpen =>
    let successes := (b.halfOpenSuccesses+1)%2^32
    if cfg.halfOpenSuccessesNeeded ≤ successes then ⟨.closed, 0, none, successes⟩
    else { b with halfOpenSuccesses := successes }
  | .opened => { b with state := .closed, consecutiveFailures := 0, openedAt := none }

def recordFailure (err : LlmError) (now : ℕ) (b : BreakerState) : BreakerState :=
  if !isTransient err then b
  else match b.state with
  | .closed =>
    let failures := (b.consecutiveFailures+1)%2^32
    if cfg.failureThreshold ≤ failures then
      { b with state := .opened, consecutiveFailures := failures, openedAt := some now }
    else { b with consecutiveFailures := failures }
  | .halfOpen => { b with state := .opened, openedAt := some now, halfOpenSuccesses := 0 }
  | .opened => b

inductive Label where
  | check (call now : ℕ)
  | success (call : ℕ)
  | failure (call : ℕ) (err : LlmError) (now : ℕ)
  deriving DecidableEq

structure Machine where
  breaker : BreakerState
  calls : ℕ → Option ℕ
  openings : ℕ
  probes : ℕ

def Machine.new : Machine := ⟨.new, fun _ => none, 0, 0⟩

def step : Label → Machine → Machine
  | .check call now, m =>
    match m.calls call with
    | some _ => m
    | none =>
      let (b, result) := checkAllowed cfg provider now m.breaker
      { m with
        breaker := b
        calls := if result.isOk then Function.update m.calls call (some m.openings) else m.calls
        probes := if m.breaker.state = .opened ∧ b.state = .halfOpen then m.probes+1
          else m.probes }
  | .success call, m =>
    match m.calls call with
    | none => m
    | some _ => { m with
        breaker := recordSuccess cfg m.breaker
        calls := Function.update m.calls call none }
  | .failure call err now, m =>
    match m.calls call with
    | none => m
    | some _ => { m with
        breaker := recordFailure cfg err now m.breaker
        calls := Function.update m.calls call none
        openings := if m.breaker.state ≠ .opened ∧
            (recordFailure cfg err now m.breaker).state = .opened
          then m.openings+1 else m.openings }

def LetsProbeIn (l : Label) (m : Machine) : Prop :=
  (step cfg provider l m).breaker.state = .halfOpen ∧
    ∃ call now at_, l = .check call now ∧ m.breaker.openedAt = some at_ ∧
      cfg.recoveryTimeout ≤ now-at_

def RecordsSuccess (l : Label) (m : Machine) : Prop :=
  ∃ call, l = .success call ∧ m.calls call ≠ none

def Guarded (l : Label) (m : Machine) : Prop :=
  m.breaker.state = .opened →
    ((step cfg provider l m).breaker.state ≠ .opened → LetsProbeIn cfg provider l m) ∧
      ¬ RecordsSuccess l m

def Current : Label → Machine → Prop
  | .success call, m =>
    ∀ admitted, m.calls call = some admitted → admitted = m.openings ∨ m.openings = m.probes
  | _, _ => True

structure Sound (m : Machine) : Prop where
  opened : m.breaker.state = .opened → m.openings = m.probes+1 ∧ m.breaker.openedAt ≠ none
  passed : m.breaker.state ≠ .opened → m.openings = m.probes
  admitted : ∀ call a, m.calls call = some a →
    a ≤ m.openings ∧ (m.breaker.state = .opened → a < m.openings)

theorem new_sound : Sound Machine.new := by
  constructor
  · intro h
    simp [Machine.new, BreakerState.new] at h
  · intro _
    rfl
  · intro call a h
    simp [Machine.new] at h

theorem check_passed (now : ℕ) (b : BreakerState) (h : b.state ≠ .opened) :
    checkAllowed cfg provider now b = (b, .ok ()) := by
  unfold checkAllowed
  cases hs : b.state with
  | closed => rfl
  | halfOpen => rfl
  | opened => exact absurd hs h

theorem check_opened (now at_ : ℕ) (b : BreakerState) (h : b.state = .opened)
    (hat : b.openedAt = some at_) :
    (cfg.recoveryTimeout ≤ now-at_ ∧ checkAllowed cfg provider now b =
      ({ b with state := .halfOpen, halfOpenSuccesses := 0 }, .ok ())) ∨
    (∃ e, checkAllowed cfg provider now b = (b, .error e)) := by
  unfold checkAllowed
  rw [h, hat]
  by_cases ht : cfg.recoveryTimeout ≤ now-at_
  · exact Or.inl ⟨ht, by simp [ht]⟩
  · right
    simp [ht]

variable (m : Machine) (b : BreakerState) (call now : ℕ)

theorem success_passed (h : b.state ≠ .opened) :
    (recordSuccess cfg b).state ≠ .opened := by
  unfold recordSuccess
  cases hs : b.state with
  | closed => simp
  | halfOpen =>
    simp only
    split <;> simp
  | opened => exact absurd hs h

/-- A failure opens the breaker with the instant of the opening, or leaves it
as open as it was. -/
theorem failure_cases (err : LlmError) (now : ℕ) (b : BreakerState) :
    ((recordFailure cfg err now b).state = .opened ∧ b.state ≠ .opened ∧
      (recordFailure cfg err now b).openedAt = some now) ∨
    ((recordFailure cfg err now b).state ≠ .opened ∧ b.state ≠ .opened) ∨
    (recordFailure cfg err now b = b ∧ b.state = .opened) := by
  unfold recordFailure
  cases isTransient err with
  | false =>
    by_cases hs : b.state = .opened
    · exact Or.inr (Or.inr ⟨rfl, hs⟩)
    · exact Or.inr (Or.inl ⟨hs, hs⟩)
  | true =>
    cases hs : b.state with
    | closed =>
      simp only [Bool.not_true, Bool.false_eq_true, if_false]
      split <;> simp
    | halfOpen => simp
    | opened => simp

theorem unchanged_step (l : Label) (m : Machine) (hs : Sound m) (h : step cfg provider l m = m)
    (hl : ¬ RecordsSuccess l m) :
    Sound (step cfg provider l m) ∧ Guarded cfg provider l m := by
  constructor
  · rwa [h]
  · intro hopen
    refine ⟨fun hleft => ?_, hl⟩
    rw [h] at hleft
    exact absurd hopen hleft

theorem check_records_nothing (m : Machine) :
    ¬ RecordsSuccess (.check call now) m := by
  rintro ⟨c, hc, _⟩
  cases hc

/-- A call that is let in outside the open state carries the current count. -/
theorem admit_sound (call probes : ℕ) (hs : Sound m) (hb : b.state ≠ .opened)
    (hcount : m.openings = probes) :
    Sound { m with
      breaker := b
      calls := Function.update m.calls call (some m.openings)
      probes := probes } := by
  constructor
  · intro h
    exact absurd h hb
  · intro _
    exact hcount
  · intro c a ha
    refine ⟨?_, fun h => absurd h hb⟩
    rcases Lib.Tables.update_entry m.calls call c m.openings a ha with ⟨_, h⟩ | ⟨_, h⟩
    · exact Nat.le_of_eq h
    · exact (hs.admitted c a h).1

theorem probe_step (call now at_ : ℕ) (m : Machine) (hs : Sound m) (hcall : m.calls call = none)
    (hopen : m.breaker.state = .opened) (hat : m.breaker.openedAt = some at_) :
    Sound (step cfg provider (.check call now) m) ∧
      Guarded cfg provider (.check call now) m := by
  have hnone := check_records_nothing call now m
  rcases check_opened cfg provider now at_ m.breaker hopen hat with ⟨ht, hb⟩ | ⟨e, hb⟩
  · have hstep : step cfg provider (.check call now) m =
        { m with
          breaker := { m.breaker with state := .halfOpen, halfOpenSuccesses := 0 }
          calls := Function.update m.calls call (some m.openings)
          probes := m.probes+1 } := by
      simp only [step, hcall, hb, Except.isOk, Except.toBool, if_true, hopen, and_self]
    constructor
    · rw [hstep]
      exact admit_sound m _ call (m.probes+1) hs (by simp) (hs.opened hopen).1
    · intro _
      refine ⟨fun _ => ⟨?_, call, now, at_, rfl, hat, ht⟩, hnone⟩
      rw [hstep]
  · apply unchanged_step cfg provider _ m hs _ hnone
    simp only [step, hcall, hb, Except.isOk, Except.toBool, hopen]
    simp

theorem check_step (m : Machine) (hs : Sound m) :
    Sound (step cfg provider (.check call now) m) ∧
      Guarded cfg provider (.check call now) m := by
  cases hcall : m.calls call with
  | some a =>
    apply unchanged_step cfg provider _ m hs _ (check_records_nothing call now m)
    simp only [step, hcall]
  | none =>
    by_cases hopen : m.breaker.state = .opened
    · obtain ⟨at_, hat⟩ := Option.ne_none_iff_exists'.mp (hs.opened hopen).2
      exact probe_step cfg provider call now at_ m hs hcall hopen hat
    · constructor
      · have hstep : step cfg provider (.check call now) m =
            { m with
              breaker := m.breaker
              calls := Function.update m.calls call (some m.openings)
              probes := m.probes } := by
          simp only [step, hcall, check_passed cfg provider now m.breaker hopen, Except.isOk,
            Except.toBool, if_true, hopen, false_and, if_false]
        rw [hstep]
        exact admit_sound m m.breaker call m.probes hs hopen (hs.passed hopen)
      · intro h
        exact absurd h hopen

theorem finished_admitted (call c a : ℕ) (hs : Sound m)
    (h : Function.update m.calls call none c = some a) :
    a ≤ m.openings ∧ (m.breaker.state = .opened → a < m.openings) :=
  hs.admitted c a (Lib.Tables.update_erased m.calls call c a h)

theorem finish_sound (call : ℕ) (hs : Sound m) (hbefore : m.breaker.state ≠ .opened)
    (hafter : b.state ≠ .opened) :
    Sound { m with breaker := b, calls := Function.update m.calls call none } := by
  constructor
  · intro h
    exact absurd h hafter
  · intro _
    exact hs.passed hbefore
  · intro c a ha
    exact ⟨(finished_admitted m call c a hs ha).1, fun h => absurd h hafter⟩

/-- A failure that opens the breaker puts every call in flight behind. -/
theorem opening_sound (call now : ℕ) (hs : Sound m) (hbefore : m.breaker.state ≠ .opened)
    (hafter : b.state = .opened) (hat : b.openedAt = some now) :
    Sound { m with
      breaker := b
      calls := Function.update m.calls call none
      openings := m.openings+1 } := by
  constructor
  · intro _
    exact ⟨by rw [hs.passed hbefore], by simp [hat]⟩
  · intro h
    exact absurd hafter h
  · intro c a ha
    have hle := (finished_admitted m call c a hs ha).1
    show a ≤ m.openings+1 ∧ (_ → a < m.openings+1)
    omega

theorem failure_step (err : LlmError) (m : Machine) (hs : Sound m) :
    Sound (step cfg provider (.failure call err now) m) ∧
      Guarded cfg provider (.failure call err now) m := by
  have hnone : ¬ RecordsSuccess (.failure call err now) m := by
    rintro ⟨c, hc, _⟩
    cases hc
  cases hcall : m.calls call with
  | none =>
    apply unchanged_step cfg provider _ m hs _ hnone
    simp only [step, hcall]
  | some a =>
    rcases failure_cases cfg err now m.breaker with ⟨hopen, hbefore, hat⟩ | ⟨hshut, hbefore⟩ |
      ⟨hsame, hbefore⟩
    · constructor
      · simp only [step, hcall]
        rw [if_pos ⟨hbefore, hopen⟩]
        exact opening_sound m _ call now hs hbefore hopen hat
      · intro h
        exact absurd h hbefore
    · constructor
      · simp only [step, hcall]
        rw [if_neg (fun h => hshut h.2)]
        exact finish_sound m _ call hs hbefore hshut
      · intro h
        exact absurd h hbefore
    · have hstep : step cfg provider (.failure call err now) m =
          { m with calls := Function.update m.calls call none } := by
        simp only [step, hcall, hsame]
        simp [hbefore]
      constructor
      · rw [hstep]
        exact ⟨hs.opened, hs.passed, fun c a => finished_admitted m call c a hs⟩
      · intro _
        refine ⟨fun hleft => ?_, hnone⟩
        rw [hstep] at hleft
        exact absurd hbefore hleft

/-- A success is recorded outside the open state exactly when its call is
current. -/
theorem success_step (call : ℕ) (m : Machine) (hs : Sound m) :
    (Guarded cfg provider (.success call) m ↔ Current (.success call) m) ∧
      (Current (.success call) m → Sound (step cfg provider (.success call) m)) := by
  cases hcall : m.calls call with
  | none =>
    have hkeep := unchanged_step cfg provider (.success call) m hs (by simp only [step, hcall])
      (by rintro ⟨c, hc, hin⟩; cases hc; exact hin hcall)
    refine ⟨⟨fun _ a ha => ?_, fun _ => hkeep.2⟩, fun _ => hkeep.1⟩
    rw [hcall] at ha
    cases ha
  | some a =>
    by_cases hopen : m.breaker.state = .opened
    · have hlate : ¬ Current (.success call) m := by
        intro hcurrent
        have hcount := (hs.opened hopen).1
        have hlt := (hs.admitted call a hcall).2 hopen
        rcases hcurrent a hcall with h | h <;> omega
      refine ⟨⟨fun hg => ?_, fun h => absurd h hlate⟩, fun h => absurd h hlate⟩
      exact absurd ⟨call, rfl, by simp [hcall]⟩ (hg hopen).2
    · have hpassed := hs.passed hopen
      refine ⟨⟨fun _ _ _ => Or.inr hpassed, fun _ h => absurd h hopen⟩, fun _ => ?_⟩
      simp only [step, hcall]
      exact finish_sound m _ call hs hopen (success_passed cfg m.breaker hopen)

/-- In every interleaving, an open breaker is left only through a probe after
the recovery timeout and sees no success, exactly when every success is that
of a current call. -/
theorem opened_left_by_probe_iff (labels : List Label) :
    Along (step cfg provider) (Guarded cfg provider) labels Machine.new ↔
      Along (step cfg provider) Current labels Machine.new := by
  apply along_iff (step cfg provider) Sound _ _ _ labels Machine.new new_sound
  intro l m hs
  cases l with
  | check call now =>
    obtain ⟨hkeep, hguard⟩ := check_step cfg provider call now m hs
    exact ⟨⟨fun _ => trivial, fun _ => hguard⟩, fun _ => hkeep⟩
  | success call => exact success_step cfg provider call m hs
  | failure call err now =>
    obtain ⟨hkeep, hguard⟩ := failure_step cfg provider call now err m hs
    exact ⟨⟨fun _ => trivial, fun _ => hguard⟩, fun _ => hkeep⟩

/-- A guarded run from the open to the closed state lets a probe in on its
way. -/
theorem closed_through_probe (labels : List Label) (m : Machine)
    (hg : Along (step cfg provider) (Guarded cfg provider) labels m)
    (hopen : m.breaker.state = .opened)
    (hclosed : (run (step cfg provider) labels m).breaker.state = .closed) :
    ∃ before l after, labels = before++l::after ∧
      LetsProbeIn cfg provider l (run (step cfg provider) before m) := by
  induction labels generalizing m with
  | nil =>
    rw [run, hopen] at hclosed
    cases hclosed
  | cons l labels ih =>
    by_cases hstay : (step cfg provider l m).breaker.state = .opened
    · obtain ⟨before, l', after, hsplit, hprobe⟩ := ih _ hg.2 hstay hclosed
      exact ⟨l::before, l', after, by rw [hsplit]; rfl, hprobe⟩
    · exact ⟨[], l, labels, rfl, (hg.1 hopen).1 hstay⟩

end

/-- Two calls are let in, one fails and opens the breaker, the other closes
it. -/
theorem overlapping_success_closes :
    ¬ Along (step ⟨1, 30000000000, 2⟩ ⟨"m", fun _ => "30"⟩)
      (Guarded ⟨1, 30000000000, 2⟩ ⟨"m", fun _ => "30"⟩)
      [.check 0 0, .check 1 0, .failure 0 (.requestFailed "m" "down") 1, .success 1]
      Machine.new := by
  intro h
  exact (h.2.2.2.1 rfl).2 ⟨1, rfl, by decide⟩

end IronClaw.CircuitBreaker
