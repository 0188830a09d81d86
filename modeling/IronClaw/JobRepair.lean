import IronClaw.JobStop

/-!
# Self-repair of a job

`agent/self_repair.rs` looks for jobs that are stuck, or in progress for too
long, marks the latter as stuck and flips a stuck job back to `InProgress`. It
knows the contexts only: whether a worker still runs is known to the scheduler,
and a worker that ends while its job is stuck leaves the state alone. The
machine of the worker and of `Scheduler::stop` is joined here by the repair
loop, step by step, and by further calls of `schedule`.
-/

set_option autoImplicit false

namespace IronClaw.JobRepair
open IronClaw.JobLifecycle IronClaw.JobStop Lib.Runs
open IronClaw.Worker (Machine Pc After Sound scheduled scheduled_sound)

structure RepairConfig where
  stuckThreshold : ℕ
  maxRepairAttempts : ℕ
  deriving DecidableEq

def second : ℕ := 1000000000

/-- `num_seconds`, and what is negative counts as zero. -/
def elapsedSeconds (now since : ℤ) : ℕ := ((now-since).tdiv second).toNat

def attemptRecovery (now : ℤ) (ctx : JobContext) : Except String JobContext :=
  if ctx.state ≠ .stuck then .error "Job is not stuck"
  else { ctx with repairAttempts := ctx.repairAttempts+1 }.transitionTo now .inProgress
    (some "Recovery attempt")

/-- The closure of `repair_stuck_job`. -/
def recover (now : ℤ) (ctx : JobContext) : Except String JobContext :=
  if ctx.state = .inProgress then
    (ctx.transitionTo now .stuck (some "exceeded stuck_threshold")).bind (attemptRecovery now)
  else attemptRecovery now ctx

/-- The filter of `find_stuck_jobs_with_threshold`. -/
def foundStuck (cfg : RepairConfig) (now : ℤ) (ctx : JobContext) : Bool :=
  match ctx.state, ctx.startedAt with
  | .stuck, _ => true
  | .inProgress, some started => cfg.stuckThreshold/second < elapsedSeconds now started
  | _, _ => false

def stuckSince (ctx : JobContext) : Option ℤ :=
  (ctx.transitions.reverse.find? (fun t => t.target = .stuck)).map StateTransition.timestamp

def tooShort (cfg : RepairConfig) (now : ℤ) (ctx : JobContext) : Bool :=
  ((stuckSince ctx).map (elapsedSeconds now)).getD 0*second < cfg.stuckThreshold

/-- Where the repair loop is with the job. `detected` holds the number of
attempts that `detect_stuck_jobs` has read. -/
inductive RepairPc where
  | idle
  | listed
  | marking
  | checking (justTransitioned : Bool)
  | detected (repairAttempts : ℕ)
  deriving DecidableEq

structure State where
  job : Machine
  repair : RepairPc

inductive Label where
  | job (l : Worker.Label)
  | schedule (now : ℤ) (full : Bool)
  | find (now : ℤ)
  | look
  | mark (now : ℤ)
  | check (now : ℤ)
  | repair (now : ℤ)

def schedule (now : ℤ) (full : Bool) (m : Machine) : Machine :=
  if underWay m.stop || m.registered || full then m
  else match m.ctx.transitionTo now .inProgress (some "Scheduled for execution") with
  | .ok ctx => { scheduled ctx with ctx := ctx, persisted := m.persisted }
  | .error _ => m

def withCtx (s : State) (ctx : JobContext) : Machine := { s.job with ctx := ctx }

section

variable (worker : Worker.Config) (cfg : RepairConfig)

def step : Label → State → State
  | .job l, s => { s with job := Worker.step worker l s.job }
  | .schedule now full, s => { s with job := schedule now full s.job }
  | .find now, s =>
    if s.repair = .idle ∧ foundStuck cfg now s.job.ctx = true then { s with repair := .listed }
    else s
  | .look, s =>
    match s.repair, s.job.ctx.state with
    | .listed, .stuck => { s with repair := .checking false }
    | .listed, .inProgress => { s with repair := .marking }
    | .listed, _ => { s with repair := .idle }
    | _, _ => s
  | .mark now, s =>
    match s.repair with
    | .marking =>
      match s.job.ctx.markStuck now "exceeded stuck_threshold" with
      | .ok ctx => ⟨withCtx s ctx, .checking true⟩
      | .error _ => { s with repair := .idle }
    | _ => s
  | .check now, s =>
    match s.repair with
    | .checking justTransitioned =>
      if !justTransitioned && tooShort cfg now s.job.ctx then { s with repair := .idle }
      else { s with repair := .detected s.job.ctx.repairAttempts }
    | _ => s
  | .repair now, s =>
    match s.repair with
    | .detected repairAttempts =>
      if cfg.maxRepairAttempts ≤ repairAttempts then { s with repair := .idle }
      else match recover now s.job.ctx with
      | .ok ctx => ⟨withCtx s ctx, .idle⟩
      | .error _ => { s with repair := .idle }
    | _ => s

def dispatched (ctx : JobContext) : State := ⟨scheduled { ctx with repairAttempts := 0 }, .idle⟩

def Resting (s : State) : Prop := underWay s.job.stop = false ∧ s.repair = .idle

def workDone : Pc → Bool
  | .returned => true
  | .report .completed _ .finish => true
  | _ => false

def FinishesWell (l : Label) (s : State) : Prop :=
  ∀ now input, l = .job (.work now input) → workDone s.job.task.pc = true →
    (step worker cfg l s).job.task.pc = .finished →
      (step worker cfg l s).job.ctx.state = .completed ∨
        (step worker cfg l s).job.ctx.state.isTerminal = true

structure Holds (l : Label) (s : State) : Prop where
  live : Resting (step worker cfg l s) → (step worker cfg l s).job.ctx.state = .inProgress →
    (step worker cfg l s).job.task.pc ≠ .finished
  finishes : FinishesWell worker cfg l s
  attempts : (step worker cfg l s).job.ctx.repairAttempts ≤ cfg.maxRepairAttempts

def Manned (l : Label) (s : State) : Prop :=
  match l with
  | .repair _ => ∀ n, s.repair = .detected n → n < cfg.maxRepairAttempts →
      s.job.ctx.state = .stuck → s.job.task.pc ≠ .finished ∨ underWay s.job.stop = true
  | _ => True

def Attended (l : Label) (s : State) : Prop :=
  Manned cfg l s ∧ ∀ now input, l = .job (.work now input) → workDone s.job.task.pc = true →
    s.job.ctx.state ≠ .stuck

end

variable (cfg : Worker.Config) (l : Worker.Label) (m : Machine) (now : ℤ) (ctx : JobContext)
  (input : Worker.Input)

theorem stamp_attempts (now : ℤ) :
    (ctx.stamp now).repairAttempts = ctx.repairAttempts := by
  unfold JobContext.stamp
  split
  · split <;> rfl
  all_goals rfl

variable (ctx ctx' : JobContext)

theorem transitionTo_attempts (now : ℤ) (newState : JobState) (reason : Option String)
    (h : ctx.transitionTo now newState reason = .ok ctx') :
    ctx'.repairAttempts = ctx.repairAttempts := by
  unfold JobContext.transitionTo at h
  by_cases hcan : ctx.state.canTransitionTo newState = true
  · simp only [hcan, Bool.not_true, Bool.false_eq_true, if_false] at h
    by_cases hsame : ctx.state = newState
    · rw [if_pos hsame] at h
      rw [← Except.ok.inj h]
    · rw [if_neg hsame] at h
      rw [← Except.ok.inj h]
      exact stamp_attempts _ now
  · simp [hcan] at h

theorem attemptRecovery_ok (h : attemptRecovery now ctx = .ok ctx') :
    ctx.state = .stuck ∧ ctx'.state = .inProgress ∧
      ctx'.repairAttempts = ctx.repairAttempts+1 := by
  unfold attemptRecovery at h
  split at h
  · cases h
  · next hstuck =>
    exact ⟨not_not.mp hstuck, (transitionTo_state _ _ now .inProgress _ h).1,
      transitionTo_attempts _ _ now .inProgress _ h⟩

/-- A recovery succeeds on a job that is stuck or in progress, and ends in
progress with one attempt more. -/
theorem recover_ok (h : recover now ctx = .ok ctx') :
    (ctx.state = .stuck ∨ ctx.state = .inProgress) ∧ ctx'.state = .inProgress ∧
      ctx'.repairAttempts = ctx.repairAttempts+1 := by
  unfold recover at h
  split at h
  · next hprogress =>
    cases hmark : ctx.transitionTo now .stuck (some "exceeded stuck_threshold") with
    | error text =>
      rw [hmark] at h
      cases h
    | ok marked =>
      rw [hmark] at h
      obtain ⟨-, hstate, hattempts⟩ := attemptRecovery_ok now marked ctx' h
      rw [transitionTo_attempts _ _ now .stuck _ hmark] at hattempts
      exact ⟨Or.inr hprogress, hstate, hattempts⟩
  · obtain ⟨hstuck, hstate, hattempts⟩ := attemptRecovery_ok now ctx ctx' h
    exact ⟨Or.inl hstuck, hstate, hattempts⟩

theorem recover_stuck (h : ctx.state = .stuck) :
    ∃ ctx', recover now ctx = .ok ctx' := by
  have hne : ¬ ctx.state = .inProgress := by
    rw [h]
    decide
  obtain ⟨ctx', hok, -⟩ := transitionTo_permitted
    { ctx with repairAttempts := ctx.repairAttempts+1 } now .inProgress (some "Recovery attempt")
    (by simp only [h]; rfl)
  refine ⟨ctx', ?_⟩
  rw [recover, if_neg hne, attemptRecovery, if_neg (not_not.mpr h)]
  exact hok

structure Kept (m m' : Machine) : Prop where
  attempts : m'.ctx.repairAttempts = m.ctx.repairAttempts
  table : (m.stop = .idle → m.task.pc ≠ .finished → m.registered = true) →
    m'.stop = .idle → m'.task.pc ≠ .finished → m'.registered = true

theorem callLlm_attempts (t : Worker.Task) (iteration nudges : ℕ) (toolsAvailable : Bool)
    (r : Worker.LlmReturn) :
    (Worker.callLlm cfg ctx t iteration nudges toolsAvailable r).1.repairAttempts =
      ctx.repairAttempts := by
  cases r with
  | selected first rest reasoning => rfl
  | responded result tokens =>
    simp only [Worker.callLlm]
    split
    · rfl
    · split
      · next ctx' hadd =>
        have hctx := congrArg Prod.fst hadd
        rw [← hctx]
        rfl
      · next ctx' error hadd =>
        have hctx := congrArg Prod.fst hadd
        rw [← hctx]
        rfl
  | rateLimited =>
    simp only [Worker.callLlm]
    split <;> rfl
  | failed error => rfl

theorem advance_attempts (ctx : JobContext) (t : Worker.Task) :
    (Machine.advance cfg input ctx t).1.repairAttempts = ctx.repairAttempts := by
  unfold Machine.advance
  split
  case h_9 => exact callLlm_attempts cfg ctx t _ _ _ _
  all_goals first
    | rfl
    | (split <;> rfl)

theorem work_finished (m : Machine) (h : m.task.pc = .finished) :
    (m.work cfg now input).task.pc = .finished := by
  simp [Machine.work, Machine.advance, h]

theorem work_attempts (m : Machine) :
    (m.work cfg now input).ctx.repairAttempts = m.ctx.repairAttempts := by
  obtain ⟨-, hstep⟩ | ⟨index, action, rest, -, hstep⟩ |
    ⟨iteration, nudges, stopRequested, firstUserMessage, -, hstep⟩ |
    ⟨target, reason, after, -, hstep⟩ | ⟨-, hstep⟩ := Worker.work_cases cfg now input m
  · simp only [hstep, Machine.receiveStart]
    split
    · split <;> rfl
    · rfl
    · rfl
  · simp only [hstep, Machine.drainPlan]
    split <;> rfl
  · simp only [hstep, Machine.drainSignals]
    split
    · rfl
    · rfl
    · rfl
    · split
      · rfl
      · split <;> rfl
  · simp only [hstep, Machine.reportOutcome]
    split
    · next ctx hctx => exact transitionTo_attempts _ _ now target _ hctx
    · rfl
  · rw [hstep]
    exact advance_attempts cfg input m.ctx m.task

theorem outside_table (m m' : Machine) (h : Worker.Outside m m')
    (htable : m.stop = .idle → m.task.pc ≠ .finished → m.registered = true)
    (hidle : m'.stop = .idle) (hpc : m'.task.pc ≠ .finished) : m'.registered = true := by
  cases h with
  | timeout htimed =>
    refine htable hidle ?_
    intro hfinished
    rw [hfinished] at htimed
    cases htimed
  | drop habort hyields => exact absurd rfl hpc
  | reap hfinished => exact absurd hfinished hpc
  | callStop hregistered => cases hidle
  | skipStop hphase => cases hidle
  | sendStop hphase => cases hidle
  | abort hphase requested => cases hidle
  | cancel hphase ctx hstate => cases hidle
  | _ => exact htable hidle hpc

theorem cancelJob_attempts (m : Machine) :
    (m.cancelJob now).ctx.repairAttempts = m.ctx.repairAttempts := by
  unfold Machine.cancelJob
  split
  · split
    · next ctx hctx => exact transitionTo_attempts _ _ now .cancelled _ hctx
    · rfl
  · rfl

theorem step_attempts :
    (Worker.step cfg l m).ctx.repairAttempts = m.ctx.repairAttempts := by
  cases l with
  | work now input => exact work_attempts cfg now input m
  | cancelJob now => exact cancelJob_attempts now m
  | timeout =>
    simp only [Worker.step, Machine.timeout]
    split <;> rfl
  | dropTask =>
    simp only [Worker.step, Machine.dropTask]
    split <;> rfl
  | sendMessage content =>
    simp only [Worker.step, Machine.sendMessage]
    split <;> rfl
  | deliver index =>
    simp only [Worker.step, Machine.deliver]
    split
    · rfl
    · split
      · rfl
      · split <;> rfl
  | ping =>
    simp only [Worker.step, Machine.ping]
    split
    · rfl
    · split <;> rfl
  | reap =>
    simp only [Worker.step, Machine.reap]
    split <;> rfl
  | callStop =>
    simp only [Worker.step, Machine.callStop]
    split <;> rfl
  | sendStop =>
    simp only [Worker.step, Machine.sendStop]
    split
    · split
      · rfl
      · split <;> rfl
    · rfl
  | abortTask =>
    simp only [Worker.step, Machine.abortTask]
    split <;> rfl

theorem step_kept :
    Kept m (Worker.step cfg l m) := by
  refine ⟨step_attempts cfg l m, ?_⟩
  intro htable hidle hpc
  by_cases hl : ∀ now input, l ≠ .work now input
  · exact outside_table m _ (Worker.outside_step cfg l m hl) htable hidle hpc
  · push Not at hl
    obtain ⟨now, input, rfl⟩ := hl
    obtain ⟨-, -, hstop, hregistered, -⟩ := Worker.work_frame cfg now input m
    have hregistered : (Worker.step cfg (.work now input) m).registered = m.registered :=
      hregistered
    rw [hregistered]
    refine htable (hstop.symm.trans hidle) ?_
    intro hfinished
    exact hpc (work_finished cfg now input m hfinished)

/-- The ways in which a worker or a stop changes the state. -/
theorem step_state (hs : Sound m) :
    (Worker.step cfg l m).ctx.state = m.ctx.state ∨
      m.ctx.state.canTransitionTo (Worker.step cfg l m).ctx.state = true ∧
        ((Worker.step cfg l m).ctx.state = .completed ∨
          (Worker.step cfg l m).ctx.state = .failed ∨
          ((Worker.step cfg l m).ctx.state = .stuck ∧ m.ctx.state = .inProgress) ∨
          (Worker.step cfg l m).ctx.state = .cancelled) := by
  by_cases hl : ∀ now input, l ≠ .work now input
  · have ho := Worker.outside_step cfg l m hl
    generalize Worker.step cfg l m = m' at ho
    cases ho with
    | cancel hphase ctx hstate =>
      by_cases hcan : m.ctx.state.canTransitionTo .cancelled = true
      · rw [if_pos hcan] at hstate
        right
        simp only [hstate]
        exact ⟨hcan, by simp⟩
      · rw [if_neg hcan] at hstate
        exact Or.inl hstate
    | _ => exact Or.inl rfl
  · push Not at hl
    obtain ⟨now, input, rfl⟩ := hl
    obtain ⟨hsame, -⟩ | ⟨target, reason, after, hpc, hcan, hstate, -⟩ :=
      Worker.work_status cfg now input m
    · exact Or.inl hsame
    · right
      have hnew : (Worker.step cfg (.work now input) m).ctx.state = target := hstate
      rw [hnew]
      refine ⟨hcan, ?_⟩
      rcases hs.outcome target reason after hpc with rfl | rfl | rfl
      · simp
      · simp
      · right; right; left
        refine ⟨rfl, ?_⟩
        cases hold : m.ctx.state <;> rw [hold] at hcan <;> first | rfl | cases hcan

structure Settles (m : Machine) : Prop where
  known : m.ctx.state ≠ .pending ∧ m.ctx.state ≠ .submitted
  ended : m.stop = .done → m.ctx.state = .completed ∨ m.ctx.state.isTerminal = true

theorem ended_stays (old new : JobState) (hold : old = .completed ∨ old.isTerminal = true)
    (hcan : old.canTransitionTo new = true)
    (hnew : new = .completed ∨ new = .failed ∨ (new = .stuck ∧ old = .inProgress) ∨
      new = .cancelled) : new = .completed ∨ new.isTerminal = true := by
  rcases hnew with rfl | rfl | ⟨rfl, rfl⟩ | rfl
  · exact Or.inl rfl
  · exact Or.inr rfl
  · rcases hold with hold | hold <;> cases hold
  · exact Or.inr rfl

theorem cancelled_or_ended (state : JobState) (hknown : state ≠ .pending ∧ state ≠ .submitted)
    (h : state.canTransitionTo .cancelled = false) :
    state = .completed ∨ state.isTerminal = true := by
  cases state with
  | pending => exact absurd rfl hknown.1
  | submitted => exact absurd rfl hknown.2
  | inProgress => cases h
  | stuck => cases h
  | completed => exact Or.inl rfl
  | accepted => exact Or.inr rfl
  | failed => exact Or.inr rfl
  | cancelled => exact Or.inr rfl

theorem stop_done (h : Settles m) (hdone : (Worker.step cfg l m).stop = .done) :
    m.stop = .done ∨ (Worker.step cfg l m).ctx.state = .completed ∨
      (Worker.step cfg l m).ctx.state.isTerminal = true := by
  by_cases hl : ∀ now input, l ≠ .work now input
  · have ho := Worker.outside_step cfg l m hl
    generalize Worker.step cfg l m = m' at ho hdone
    cases ho with
    | cancel hphase ctx hstate =>
      right
      simp only [hstate]
      by_cases hcan : m.ctx.state.canTransitionTo .cancelled = true
      · rw [if_pos hcan]
        exact Or.inr rfl
      · rw [if_neg hcan]
        exact cancelled_or_ended m.ctx.state h.known (Bool.eq_false_iff.mpr hcan)
    | callStop hregistered => cases hdone
    | skipStop hphase => cases hdone
    | sendStop hphase => cases hdone
    | abort hphase requested => cases hdone
    | _ => exact Or.inl hdone
  · push Not at hl
    obtain ⟨now, input, rfl⟩ := hl
    left
    exact (Worker.work_frame cfg now input m).2.2.1.symm.trans hdone

theorem step_settles (hs : Sound m) (h : Settles m) : Settles (Worker.step cfg l m) := by
  rcases step_state cfg l m hs with hsame | ⟨hcan, hnew⟩
  · refine ⟨by rw [hsame]; exact h.known, ?_⟩
    intro hdone
    rcases stop_done cfg l m h hdone with hbefore | hended
    · rw [hsame]
      exact h.ended hbefore
    · exact hended
  · refine ⟨?_, ?_⟩
    · rcases hnew with hnew | hnew | ⟨hnew, -⟩ | hnew <;> rw [hnew] <;> decide
    · intro hdone
      rcases stop_done cfg l m h hdone with hbefore | hended
      · exact ended_stays _ _ (h.ended hbefore) hcan hnew
      · exact hended

structure Tended (m : Machine) : Prop where
  reached : Reached m
  table : m.stop = .idle → m.task.pc ≠ .finished → m.registered = true
  settles : Settles m

theorem dispatched_tended : Tended (dispatched ctx).job := by
  refine ⟨scheduled_reached _, fun _ _ => rfl, ⟨⟨by simp [dispatched, scheduled],
    by simp [dispatched, scheduled]⟩, ?_⟩⟩
  intro hdone
  cases hdone

theorem tended_live (h : Tended m) (hrest : underWay m.stop = false)
    (hstate : m.ctx.state = .inProgress) : m.task.pc ≠ .finished := by
  cases hstop : m.stop with
  | idle => exact ((h.reached.unstopped hstop).live hstate).2
  | done =>
    rcases h.settles.ended hstop with hended | hended <;> rw [hstate] at hended <;> cases hended
  | sending => rw [hstop] at hrest; cases hrest
  | sleeping => rw [hstop] at hrest; cases hrest
  | cancelling => rw [hstop] at hrest; cases hrest

/-- A repair changes the context between the two states that it knows. -/
theorem withCtx_tended (s : State) (ctx : JobContext) (h : Tended s.job)
    (hold : s.job.ctx.state = .stuck ∨ s.job.ctx.state = .inProgress)
    (hnew : ctx.state = .stuck ∨ ctx.state = .inProgress)
    (hlive : s.job.stop = .idle → ctx.state = .inProgress → s.job.task.pc ≠ .finished) :
    Tended (withCtx s ctx) := by
  refine ⟨⟨⟨h.reached.sound.start, h.reached.sound.stop, h.reached.sound.outcome⟩, ?_, ?_⟩,
    h.table, ⟨?_, ?_⟩⟩
  · intro hmem
    rcases h.reached.completed hmem with hdone | hdone <;> rw [hdone] at hold <;>
      rcases hold with hold | hold <;> cases hold
  · intro hidle
    have hu := h.reached.unstopped hidle
    refine ⟨hu.queue, hu.stopTaken, hu.overrun, hu.abort, ?_⟩
    intro hstate
    exact ⟨h.table hidle (hlive hidle hstate), hlive hidle hstate⟩
  · show ctx.state ≠ .pending ∧ ctx.state ≠ .submitted
    rcases hnew with hnew | hnew <;> rw [hnew] <;> decide
  · intro hdone
    rcases h.settles.ended hdone with hended | hended <;> rcases hold with hold | hold <;>
      rw [hold] at hended <;> cases hended

theorem mark_tended (s : State) (now : ℤ) (ctx : JobContext) (h : Tended s.job)
    (hmark : s.job.ctx.markStuck now "exceeded stuck_threshold" = .ok ctx) :
    Tended (withCtx s ctx) := by
  obtain ⟨hstate, hcan⟩ := transitionTo_state _ _ now .stuck _ hmark
  have hprogress : s.job.ctx.state = .inProgress := by
    cases hold : s.job.ctx.state <;> rw [hold] at hcan <;> first | rfl | cases hcan
  refine withCtx_tended s ctx h (Or.inr hprogress) (Or.inl hstate) ?_
  intro _ hnew
  rw [hstate] at hnew
  cases hnew

theorem recover_tended (s : State) (now : ℤ) (ctx : JobContext) (h : Tended s.job)
    (hrecover : recover now s.job.ctx = .ok ctx)
    (hlive : s.job.ctx.state = .stuck →
      s.job.task.pc ≠ .finished ∨ underWay s.job.stop = true) :
    Tended (withCtx s ctx) := by
  obtain ⟨hold, hstate, -⟩ := recover_ok now s.job.ctx ctx hrecover
  refine withCtx_tended s ctx h hold (Or.inr hstate) ?_
  intro hidle _
  rcases hold with hstuck | hprogress
  · rcases hlive hstuck with hpc | hunder
    · exact hpc
    · rw [hidle] at hunder
      cases hunder
  · exact ((h.reached.unstopped hidle).live hprogress).2

theorem schedule_tended (full : Bool) (h : Tended m) :
    Tended (schedule now full m) := by
  unfold schedule
  split
  · exact h
  · split
    · next ctx hctx =>
      obtain ⟨hstate, hcan⟩ := transitionTo_state _ _ now .inProgress _ hctx
      have hstuck : m.ctx.state = .stuck := by
        have hknown := h.settles.known.1
        cases hold : m.ctx.state with
        | pending => exact absurd hold hknown
        | stuck => rfl
        | _ =>
          rw [hold] at hcan
          cases hcan
      have hsound := scheduled_sound ctx
      refine ⟨⟨⟨hsound.start, hsound.stop, hsound.outcome⟩, ?_, ?_⟩, fun _ _ => rfl, ⟨?_, ?_⟩⟩
      · intro hmem
        rcases h.reached.completed hmem with hdone | hdone <;> rw [hstuck] at hdone <;> cases hdone
      · intro _
        exact ⟨by simp [scheduled], rfl, rfl, rfl, fun _ => ⟨rfl, by simp [scheduled]⟩⟩
      · show ctx.state ≠ .pending ∧ ctx.state ≠ .submitted
        rw [hstate]
        decide
      · intro hdone
        cases hdone
    · exact h

section

variable (worker : Worker.Config) (cfg : RepairConfig)

structure Counted (s : State) : Prop where
  attempts : s.job.ctx.repairAttempts ≤ cfg.maxRepairAttempts
  snapshot : ∀ n, s.repair = .detected n → n = s.job.ctx.repairAttempts

variable (l : Label) (s : State) (now : ℤ) (input : Worker.Input) (ctx : JobContext)

theorem schedule_attempts (full : Bool) (m : Machine) :
    (schedule now full m).ctx.repairAttempts = m.ctx.repairAttempts := by
  unfold schedule
  split
  · rfl
  · split
    · next ctx hctx => exact transitionTo_attempts _ _ now .inProgress _ hctx
    · rfl

theorem step_counted (h : Counted cfg s) :
    Counted cfg (step worker cfg l s) := by
  have hkeep : ∀ s' : State, s'.job.ctx.repairAttempts = s.job.ctx.repairAttempts →
      (∀ n, s'.repair = .detected n → n = s.job.ctx.repairAttempts) → Counted cfg s' :=
    fun s' hattempts hsnapshot => ⟨by rw [hattempts]; exact h.attempts,
      fun n hn => (hsnapshot n hn).trans hattempts.symm⟩
  cases l with
  | job l => exact hkeep _ (step_attempts worker l s.job) h.snapshot
  | schedule now full => exact hkeep _ (schedule_attempts now full s.job) h.snapshot
  | find now =>
    simp only [step]
    split
    · exact hkeep _ rfl (fun n hn => by cases hn)
    · exact h
  | look =>
    simp only [step]
    split
    · exact hkeep _ rfl (fun n hn => by cases hn)
    · exact hkeep _ rfl (fun n hn => by cases hn)
    · exact hkeep _ rfl (fun n hn => by cases hn)
    · exact h
  | mark now =>
    simp only [step]
    split
    · split
      · next ctx hmark =>
        exact hkeep _ (transitionTo_attempts _ _ now .stuck _ hmark) (fun n hn => by cases hn)
      · exact hkeep _ rfl (fun n hn => by cases hn)
    · exact h
  | check now =>
    simp only [step]
    split
    · split
      · exact hkeep _ rfl (fun n hn => by cases hn)
      · exact hkeep _ rfl (fun n hn => by cases hn; rfl)
    · exact h
  | repair now =>
    simp only [step]
    split
    · next n hrepair =>
      split
      · exact hkeep _ rfl (fun n hn => by cases hn)
      · split
        · next hroom ctx hrecover =>
          have hn := h.snapshot n hrepair
          have hattempts := (recover_ok now s.job.ctx ctx hrecover).2.2
          refine ⟨?_, fun n hn => by cases hn⟩
          show ctx.repairAttempts ≤ cfg.maxRepairAttempts
          omega
        · exact hkeep _ rfl (fun n hn => by cases hn)
    · exact h

structure Inv (s : State) : Prop where
  tended : Tended s.job
  counted : Counted cfg s

theorem dispatched_inv : Inv cfg (dispatched ctx) :=
  ⟨dispatched_tended ctx, Nat.zero_le _, fun n hn => by cases hn⟩

theorem step_tended (h : Tended s.job) (hc : Manned cfg l s) :
    Tended (step worker cfg l s).job := by
  cases l with
  | job l =>
    exact ⟨step_reached worker l s.job h.reached, (step_kept worker l s.job).table h.table,
      step_settles worker l s.job h.reached.sound h.settles⟩
  | schedule now full => exact schedule_tended s.job now full h
  | find now =>
    simp only [step]
    split <;> exact h
  | look =>
    simp only [step]
    split <;> exact h
  | mark now =>
    simp only [step]
    split
    · split
      · next ctx hmark => exact mark_tended s now ctx h hmark
      · exact h
    · exact h
  | check now =>
    simp only [step]
    split
    · split <;> exact h
    · exact h
  | repair now =>
    simp only [step]
    split
    · next n hrepair =>
      split
      · exact h
      · next hroom =>
        split
        · next ctx hrecover =>
          exact recover_tended s now ctx h hrecover (hc n hrepair (Nat.lt_of_not_le hroom))
        · exact h
    · exact h

theorem step_inv (h : Inv cfg s) (hc : Attended cfg l s) :
    Inv cfg (step worker cfg l s) :=
  ⟨step_tended worker cfg l s h.tended hc.1, step_counted worker cfg l s h.counted⟩

/-- The last steps of a worker that is done: it finds the job in a state that it
leaves alone, or it reports the completion. -/
theorem done_step (m : Machine) (h : workDone m.task.pc = true) :
    (m.work worker now input).ctx.state = .completed ∨
      (m.work worker now input).ctx.state = m.ctx.state ∧
        ((m.work worker now input).task.pc = .finished →
          Worker.settled m.ctx.state = true ∨
            m.ctx.state.canTransitionTo .completed = false) := by
  unfold workDone at h
  split at h
  · next hpc =>
    right
    simp only [Machine.work, Machine.advance, hpc]
    split
    · next hsettled => exact ⟨rfl, fun _ => Or.inl hsettled⟩
    · refine ⟨rfl, ?_⟩
      intro hfinished
      cases hfinished
  · next reason hpc =>
    simp only [Machine.work, Machine.reportOutcome, hpc]
    split
    · next ctx hctx =>
      left
      exact (transitionTo_state _ _ now .completed _ hctx).1
    · next text hctx =>
      right
      refine ⟨rfl, fun _ => Or.inr ?_⟩
      by_contra hcan
      obtain ⟨ctx, hok, -⟩ := transitionTo_permitted m.ctx now .completed (some reason)
        (by simpa using hcan)
      rw [hok] at hctx
      cases hctx
  · cases h

theorem stuck_step (m : Machine) (h : workDone m.task.pc = true) (hstuck : m.ctx.state = .stuck) :
    (m.work worker now input).task.pc = .finished ∧
      (m.work worker now input).ctx.state = .stuck := by
  unfold workDone at h
  split at h
  · next hpc =>
    simp only [Machine.work, Machine.advance, hpc, hstuck]
    exact ⟨rfl, hstuck⟩
  · next reason hpc =>
    simp only [Machine.work, Machine.reportOutcome, hpc]
    split
    · next ctx hctx =>
      have hcan := (transitionTo_state _ _ now .completed _ hctx).2
      rw [hstuck] at hcan
      cases hcan
    · exact ⟨rfl, hstuck⟩
  · cases h

theorem finishes_iff (s : State) (h : Settles s.job) :
    FinishesWell worker cfg (.job (.work now input)) s ↔
      (workDone s.job.task.pc = true → s.job.ctx.state ≠ .stuck) := by
  constructor
  · intro hfinishes hdone hstuck
    obtain ⟨hpc, hstate⟩ := stuck_step worker now input s.job hdone hstuck
    rcases hfinishes now input rfl hdone hpc with hend | hend
    · exact absurd (hstate.symm.trans hend) (by decide)
    · have hterminal : JobState.isTerminal .stuck = true := by
        rw [← hstate]
        exact hend
      cases hterminal
  · intro hstuck now' input' hl hdone hpc
    cases hl
    rcases done_step worker now input s.job hdone with hcompleted | ⟨hsame, hleft⟩
    · exact Or.inl hcompleted
    · have hstate : (step worker cfg (.job (.work now input)) s).job.ctx.state =
          s.job.ctx.state := hsame
      have hnot := hstuck hdone
      have hknown := h.known
      rw [hstate]
      have hleft := hleft hpc
      cases hs : s.job.ctx.state with
      | pending => exact absurd hs hknown.1
      | submitted => exact absurd hs hknown.2
      | stuck => exact absurd hs hnot
      | inProgress =>
        rw [hs] at hleft
        rcases hleft with hleft | hleft <;> cases hleft
      | completed => exact Or.inl rfl
      | accepted => exact Or.inr rfl
      | failed => exact Or.inr rfl
      | cancelled => exact Or.inr rfl

theorem repair_resting (n : ℕ) (hrepair : s.repair = .detected n)
    (hroom : n < cfg.maxRepairAttempts) (hstuck : s.job.ctx.state = .stuck)
    (hidle : underWay s.job.stop = false) :
    Resting (step worker cfg (.repair now) s) ∧
      (step worker cfg (.repair now) s).job.ctx.state = .inProgress ∧
      (step worker cfg (.repair now) s).job.task.pc = s.job.task.pc := by
  obtain ⟨ctx, hrecover⟩ := recover_stuck now s.job.ctx hstuck
  have hstep : step worker cfg (.repair now) s = ⟨withCtx s ctx, .idle⟩ := by
    simp only [step, hrepair, hrecover]
    rw [if_neg (Nat.not_le.mpr hroom)]
  rw [hstep]
  exact ⟨⟨hidle, rfl⟩, (recover_ok now s.job.ctx ctx hrecover).2.1, rfl⟩

theorem holds_manned (h : Holds worker cfg l s) : Manned cfg l s := by
  cases l with
  | repair now =>
    intro n hrepair hroom hstuck
    by_contra hnot
    rw [not_or, not_not, Bool.not_eq_true] at hnot
    obtain ⟨hresting, hstate, hpc⟩ :=
      repair_resting worker cfg s now n hrepair hroom hstuck hnot.2
    exact h.live hresting hstate (hpc.trans hnot.1)
  | _ => trivial

theorem holds_iff (h : Inv cfg s) :
    Holds worker cfg l s ↔ Attended cfg l s := by
  have hfinishes := fun now input => finishes_iff worker cfg now input s h.tended.settles
  constructor
  · intro hholds
    refine ⟨holds_manned worker cfg l s hholds, ?_⟩
    intro now input hl
    subst hl
    exact (hfinishes now input).mp hholds.finishes
  · intro hc
    have hinv := step_inv worker cfg l s h hc
    refine ⟨fun hresting => tended_live _ hinv.tended hresting.1, ?_, hinv.counted.attempts⟩
    intro now input hl
    subst hl
    exact (hfinishes now input).mpr (hc.2 now input rfl) now input rfl

theorem attempts_bounded (labels : List Label) :
    (run (step worker cfg) labels (dispatched ctx)).job.ctx.repairAttempts ≤
      cfg.maxRepairAttempts :=
  (run_invariant (step worker cfg) (Counted cfg) (step_counted worker cfg) labels (dispatched ctx)
    (dispatched_inv cfg ctx).counted).attempts

/-- A dispatched job in progress has a live worker between operations, a worker
that is done leaves the job ended and the attempts stay within their limit, in
exactly the runs that attend to the job. -/
theorem recovered_job_runs_iff (labels : List Label) :
    Along (step worker cfg) (Holds worker cfg) labels (dispatched ctx) ↔
      Along (step worker cfg) (Attended cfg) labels (dispatched ctx) := by
  apply along_iff (step worker cfg) (Inv cfg)
  · intro l s h
    exact ⟨holds_iff worker cfg l s h, step_inv worker cfg l s h⟩
  · exact dispatched_inv cfg ctx

end

def repairConfig : RepairConfig := ⟨300*second, 3⟩

def timedOut : List Label :=
  [.job Worker.tick, .job .timeout, .job (.work 10 .tick), .find (600*second),
    .look, .check (600*second), .repair (600*second)]

theorem recovered_without_worker :
    ¬ ∀ labels, Along (step Worker.plainConfig repairConfig)
      (Holds Worker.plainConfig repairConfig) labels (dispatched Worker.freshContext) := by
  intro h
  have hlast := along_at _ _ (timedOut.take 6) [] (.repair (600*second)) _ (h timedOut)
  have hfinished : (run (step Worker.plainConfig repairConfig) timedOut
      (dispatched Worker.freshContext)).job.task.pc = .finished := by decide
  exact hlast.live ⟨by decide, by decide⟩ (by decide) hfinished

end IronClaw.JobRepair
