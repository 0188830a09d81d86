import Mathlib.Algebra.Group.Nat.Defs
import Mathlib.Data.List.Basic

/-!
# The state of a job

The state machine of `context/state.rs` and the part of a job's context that
it reads and writes: the history of transitions, the timestamps, the repair
counter and the token budget. Tokens are counted in 64 bits.
-/

set_option autoImplicit false

namespace IronClaw.JobLifecycle

inductive JobState where
  | pending
  | inProgress
  | completed
  | submitted
  | accepted
  | failed
  | stuck
  | cancelled
  deriving DecidableEq

def JobState.display : JobState → String
  | .pending => "pending"
  | .inProgress => "in_progress"
  | .completed => "completed"
  | .submitted => "submitted"
  | .accepted => "accepted"
  | .failed => "failed"
  | .stuck => "stuck"
  | .cancelled => "cancelled"

def JobState.canTransitionTo : JobState → JobState → Bool
  | .completed, .completed => true
  | .pending, .inProgress => true
  | .pending, .cancelled => true
  | .inProgress, .completed => true
  | .inProgress, .failed => true
  | .inProgress, .stuck => true
  | .inProgress, .cancelled => true
  | .completed, .submitted => true
  | .completed, .failed => true
  | .submitted, .accepted => true
  | .submitted, .failed => true
  | .stuck, .inProgress => true
  | .stuck, .failed => true
  | .stuck, .cancelled => true
  | _, _ => false

def JobState.isTerminal : JobState → Bool
  | .accepted => true
  | .failed => true
  | .cancelled => true
  | _ => false

structure StateTransition where
  source : JobState
  target : JobState
  timestamp : ℤ
  reason : Option String
  deriving DecidableEq

structure JobContext where
  state : JobState
  totalTokensUsed : ℕ
  maxTokens : ℕ
  startedAt : Option ℤ
  completedAt : Option ℤ
  repairAttempts : ℕ
  transitions : List StateTransition
  deriving DecidableEq

def maxTransitions : ℕ := 200

def pushTransition (history : List StateTransition) (t : StateTransition) : List StateTransition :=
  (history++[t]).drop ((history++[t]).length-maxTransitions)

def JobContext.stamp (ctx : JobContext) (now : ℤ) : JobContext :=
  match ctx.state with
  | .inProgress => if ctx.startedAt.isNone then { ctx with startedAt := some now } else ctx
  | .completed => { ctx with completedAt := some now }
  | .accepted => { ctx with completedAt := some now }
  | .failed => { ctx with completedAt := some now }
  | .cancelled => { ctx with completedAt := some now }
  | _ => ctx

def JobContext.transitionTo (ctx : JobContext) (now : ℤ) (newState : JobState)
    (reason : Option String) : Except String JobContext :=
  if !ctx.state.canTransitionTo newState then
    .error ("Cannot transition from " ++ ctx.state.display ++ " to " ++ newState.display)
  else if ctx.state = newState then .ok ctx
  else .ok (JobContext.stamp
    { ctx with
      transitions := pushTransition ctx.transitions ⟨ctx.state, newState, now, reason⟩
      state := newState } now)

def JobContext.markStuck (ctx : JobContext) (now : ℤ) (reason : String) :
    Except String JobContext :=
  ctx.transitionTo now .stuck (some reason)

def JobContext.addTokens (ctx : JobContext) (tokens : ℕ) : JobContext × Option String :=
  let used := (ctx.totalTokensUsed+tokens)%2^64
  ({ ctx with totalTokensUsed := used },
    if 0 < ctx.maxTokens ∧ ctx.maxTokens < used then
      some ("Token budget exceeded: used " ++ toString used ++ " of " ++
        toString ctx.maxTokens ++ " allowed tokens")
    else none)

@[simp]
theorem stamp_state (ctx : JobContext) (now : ℤ) : (ctx.stamp now).state = ctx.state := by
  unfold JobContext.stamp
  split
  · split <;> rfl
  all_goals rfl

theorem stamp_tokens (ctx : JobContext) (now : ℤ) :
    (ctx.stamp now).maxTokens = ctx.maxTokens ∧
      (ctx.stamp now).totalTokensUsed = ctx.totalTokensUsed := by
  unfold JobContext.stamp
  split
  · split <;> exact ⟨rfl, rfl⟩
  all_goals exact ⟨rfl, rfl⟩

@[simp]
theorem addTokens_state (ctx : JobContext) (tokens : ℕ) :
    (ctx.addTokens tokens).1.state = ctx.state := rfl

theorem transitionTo_state (ctx ctx' : JobContext) (now : ℤ) (newState : JobState)
    (reason : Option String) (h : ctx.transitionTo now newState reason = .ok ctx') :
    ctx'.state = newState ∧ ctx.state.canTransitionTo newState = true := by
  unfold JobContext.transitionTo at h
  by_cases hcan : ctx.state.canTransitionTo newState = true
  · simp only [hcan, Bool.not_true, Bool.false_eq_true, if_false] at h
    by_cases hsame : ctx.state = newState
    · rw [if_pos hsame] at h
      rw [← Except.ok.inj h]
      exact ⟨hsame, hcan⟩
    · rw [if_neg hsame] at h
      rw [← Except.ok.inj h]
      exact ⟨by simp, hcan⟩
  · simp [hcan] at h

theorem transitionTo_tokens (ctx ctx' : JobContext) (now : ℤ) (newState : JobState)
    (reason : Option String) (h : ctx.transitionTo now newState reason = .ok ctx') :
    ctx'.maxTokens = ctx.maxTokens ∧ ctx'.totalTokensUsed = ctx.totalTokensUsed := by
  unfold JobContext.transitionTo at h
  by_cases hcan : ctx.state.canTransitionTo newState = true
  · simp only [hcan, Bool.not_true, Bool.false_eq_true, if_false] at h
    by_cases hsame : ctx.state = newState
    · rw [if_pos hsame] at h
      rw [← Except.ok.inj h]
      exact ⟨rfl, rfl⟩
    · rw [if_neg hsame] at h
      rw [← Except.ok.inj h]
      exact stamp_tokens _ now
  · simp [hcan] at h

theorem transitionTo_permitted (ctx : JobContext) (now : ℤ) (newState : JobState)
    (reason : Option String) (h : ctx.state.canTransitionTo newState = true) :
    ∃ ctx', ctx.transitionTo now newState reason = .ok ctx' ∧ ctx'.state = newState := by
  cases ht : ctx.transitionTo now newState reason with
  | ok ctx' => exact ⟨ctx', rfl, (transitionTo_state ctx ctx' now newState reason ht).1⟩
  | error text =>
    unfold JobContext.transitionTo at ht
    simp only [h, Bool.not_true, Bool.false_eq_true, if_false] at ht
    split at ht <;> simp at ht

theorem cancelled_final (newState : JobState) :
    JobState.canTransitionTo .cancelled newState = false := by
  cases newState <;> rfl

end IronClaw.JobLifecycle
