import Mathlib.Data.List.Chain
import IronClaw.ContextManager

/-!
# The history of a job

Every change of a job's state is recorded, and the last entries are kept. The
calls on a job's context are followed statement by statement here, so that what
a refused call leaves behind is part of its result.
-/

set_option autoImplicit false

namespace IronClaw.JobHistory
open IronClaw.JobLifecycle IronClaw.ContextManager Lib.Runs

structure Returned where
  ctx : JobContext
  error : Option String
  deriving DecidableEq

def transitionTo (ctx : JobContext) (now : ℤ) (newState : JobState) (reason : Option String) :
    Returned :=
  match ctx.transitionTo now newState reason with
  | .ok ctx' => ⟨ctx', none⟩
  | .error text => ⟨ctx, some text⟩

def attemptRecovery (now : ℤ) (ctx : JobContext) : Returned :=
  if ctx.state ≠ .stuck then ⟨ctx, some "Job is not stuck"⟩
  else transitionTo { ctx with repairAttempts := ctx.repairAttempts+1 } now .inProgress
    (some "Recovery attempt")

def call : Op → JobContext → Returned
  | .transitionTo now newState reason, ctx => transitionTo ctx now newState reason
  | .markStuck now reason, ctx => transitionTo ctx now .stuck (some reason)
  | .attemptRecovery now, ctx => attemptRecovery now ctx

def after (ops : List Op) (ctx : JobContext) : JobContext :=
  run (fun op ctx => (call op ctx).ctx) ops ctx

structure Faithful (start : JobState) (ctx : JobContext) : Prop where
  chained : ctx.transitions.IsChain (fun a b => a.target = b.source)
  permitted : ∀ t ∈ ctx.transitions, t.source.canTransitionTo t.target = true
  bounded : ctx.transitions.length ≤ maxTransitions
  current : ∀ t, ctx.transitions.getLast? = some t → t.target = ctx.state
  untouched : ctx.transitions = [] → ctx.state = start

theorem terminal_final (s t : JobState) (h : s.canTransitionTo t = true) :
    s.isTerminal = false := by
  cases s <;> first | rfl | (cases t <;> cases h)

theorem stuck_recovers : JobState.canTransitionTo .stuck .inProgress = true := rfl

variable (history : List StateTransition) (ctx : JobContext) (t : StateTransition)
  (start : JobState)

theorem stamp_transitions (now : ℤ) :
    (ctx.stamp now).transitions = ctx.transitions := by
  unfold JobContext.stamp
  split
  · split <;> rfl
  all_goals rfl

theorem push_length :
    (pushTransition history t).length ≤ maxTransitions := by
  unfold pushTransition
  rw [List.length_drop]
  omega

theorem push_last :
    (pushTransition history t).getLast? = some t := by
  have hroom : (history++[t]).length-maxTransitions ≤ history.length := by
    simp only [List.length_append, List.length_singleton, maxTransitions]
    omega
  unfold pushTransition
  rw [List.drop_append_of_le_length hroom, List.getLast?_append]
  rfl

theorem push_suffix :
    pushTransition history t <:+ history++[t] :=
  List.drop_suffix _ _

theorem transition_faithful (ctx ctx' : JobContext) (now : ℤ) (newState : JobState)
    (reason : Option String) (h : ctx.transitionTo now newState reason = .ok ctx')
    (hf : Faithful start ctx) :
    Faithful start ctx' := by
  obtain ⟨-, hcan⟩ := transitionTo_state ctx ctx' now newState reason h
  unfold JobContext.transitionTo at h
  rw [hcan] at h
  by_cases hsame : ctx.state = newState
  · -- the second completion of a job records nothing
    simp only [Bool.not_true, Bool.false_eq_true, if_false, if_pos hsame] at h
    rw [← Except.ok.inj h]
    exact hf
  · simp only [Bool.not_true, Bool.false_eq_true, if_false, if_neg hsame] at h
    have htransitions : ctx'.transitions =
        pushTransition ctx.transitions ⟨ctx.state, newState, now, reason⟩ := by
      rw [← Except.ok.inj h, stamp_transitions]
    have hstate : ctx'.state = newState := by
      rw [← Except.ok.inj h, stamp_state]
    have hlast := push_last ctx.transitions ⟨ctx.state, newState, now, reason⟩
    have hsuffix := push_suffix ctx.transitions ⟨ctx.state, newState, now, reason⟩
    rw [← htransitions] at hlast hsuffix
    refine ⟨?_, fun t ht => ?_, ?_, fun t ht => ?_, fun hempty => ?_⟩
    · refine List.IsChain.suffix (List.isChain_append.mpr ⟨hf.chained, .singleton _, ?_⟩) hsuffix
      intro t ht t' ht'
      rw [List.head?_cons, Option.mem_some_iff] at ht'
      rw [← ht']
      exact hf.current t ht
    · rcases List.mem_append.mp (hsuffix.subset ht) with hold | hnew
      · exact hf.permitted t hold
      · rw [List.mem_singleton.mp hnew]
        exact hcan
    · rw [htransitions]
      exact push_length _ _
    · rw [hlast] at ht
      rw [hstate, ← Option.some.inj ht]
    · rw [hempty] at hlast
      cases hlast

theorem transitionTo_faithful (ctx : JobContext) (now : ℤ) (newState : JobState)
    (reason : Option String) (hf : Faithful start ctx) :
    Faithful start (transitionTo ctx now newState reason).ctx := by
  unfold transitionTo
  cases h : ctx.transitionTo now newState reason with
  | ok ctx' => exact transition_faithful start ctx ctx' now newState reason h hf
  | error text => exact hf

theorem call_faithful (op : Op) (ctx : JobContext) (hf : Faithful start ctx) :
    Faithful start (call op ctx).ctx := by
  cases op with
  | transitionTo now newState reason => exact transitionTo_faithful start ctx now newState reason hf
  | markStuck now reason => exact transitionTo_faithful start ctx now .stuck (some reason) hf
  | attemptRecovery now =>
    simp only [call, attemptRecovery]
    split
    · exact hf
    · exact transitionTo_faithful start _ now .inProgress _
        ⟨hf.chained, hf.permitted, hf.bounded, hf.current, hf.untouched⟩

theorem transitionTo_refused (now : ℤ) (newState : JobState) (reason : Option String)
    (text : String) (h : (transitionTo ctx now newState reason).error = some text) :
    (transitionTo ctx now newState reason).ctx = ctx := by
  unfold transitionTo at h ⊢
  cases ht : ctx.transitionTo now newState reason with
  | ok ctx' =>
    rw [ht] at h
    cases h
  | error text => rfl

/-- A recovery that has counted its attempt is never refused. -/
theorem call_refused (op : Op) (ctx : JobContext) (text : String)
    (h : (call op ctx).error = some text) : (call op ctx).ctx = ctx := by
  cases op with
  | transitionTo now newState reason =>
    exact transitionTo_refused ctx now newState reason text h
  | markStuck now reason => exact transitionTo_refused ctx now .stuck (some reason) text h
  | attemptRecovery now =>
    simp only [call, attemptRecovery] at h ⊢
    split at h
    · next hstuck => rw [if_pos hstuck]
    · next hstuck =>
      have hcan : ctx.state.canTransitionTo .inProgress = true := by
        rw [not_not.mp hstuck]
        exact stuck_recovers
      obtain ⟨ctx', hok, -⟩ := transitionTo_permitted
        { ctx with repairAttempts := ctx.repairAttempts+1 } now .inProgress
        (some "Recovery attempt") hcan
      rw [transitionTo, hok] at h
      cases h

theorem unrecorded_faithful (h : ctx.transitions = []) :
    Faithful ctx.state ctx := by
  refine ⟨?_, ?_, ?_, ?_, fun _ => rfl⟩
  all_goals simp [h]

/-- Whatever is called, the history is a chain of permitted transitions that
ends in the current state, and a refused call changes nothing. -/
theorem history_faithful (hnew : ctx.transitions = []) (ops : List Op) :
    Faithful ctx.state (after ops ctx) ∧
      (∀ t ∈ (after ops ctx).transitions, t.source.isTerminal = false) ∧
      ∀ op text, (call op (after ops ctx)).error = some text →
        (call op (after ops ctx)).ctx = after ops ctx := by
  have hfaithful : Faithful ctx.state (after ops ctx) :=
    run_invariant _ (Faithful ctx.state) (fun op ctx' => call_faithful ctx.state op ctx') ops ctx
      (unrecorded_faithful ctx hnew)
  refine ⟨hfaithful, fun t ht => ?_, fun op text h => call_refused op _ text h⟩
  exact terminal_final t.source t.target (hfaithful.permitted t ht)

theorem history_faithful_new :
    Faithful .pending (after [.attemptRecovery 1, .transitionTo 2 .inProgress none] withUser) ∧
      (∀ t ∈ (after [.attemptRecovery 1, .transitionTo 2 .inProgress none] withUser).transitions,
        t.source.isTerminal = false) ∧
      ∀ op text, (call op (after [.attemptRecovery 1, .transitionTo 2 .inProgress none]
          withUser)).error = some text →
        (call op (after [.attemptRecovery 1, .transitionTo 2 .inProgress none] withUser)).ctx =
          after [.attemptRecovery 1, .transitionTo 2 .inProgress none] withUser :=
  history_faithful withUser rfl _

end IronClaw.JobHistory
