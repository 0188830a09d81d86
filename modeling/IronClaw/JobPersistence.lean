import IronClaw.JobRepair

/-!
# The stored status of a job

A worker persists the outcomes that the context has taken, and `Scheduler::stop`
persists the cancellation, taken or not; both spawn a task for the write, and
the tasks run in any order. The repair loop and `schedule` change the state and
persist nothing. The job is saved as pending before it is scheduled. The stored
status agrees in the end when the writes keep their order and whoever changes
the state without a write is followed by somebody who writes.
-/

set_option autoImplicit false

namespace IronClaw.JobPersistence
open IronClaw.JobLifecycle IronClaw.JobStop IronClaw.JobRepair Lib.Runs
open IronClaw.Worker (Machine Pc Sound)

structure Stored where
  live : JobRepair.State
  waiting : List JobState
  db : JobState

inductive Label where
  | job (l : JobRepair.Label)
  | write (index : ℕ)

section

variable (worker : Worker.Config) (cfg : RepairConfig)

def step : Label → Stored → Stored
  | .job l, s =>
    let live := JobRepair.step worker cfg l s.live
    { s with
      live := live
      waiting := s.waiting++live.job.persisted.drop s.live.job.persisted.length }
  | .write index, s =>
    match s.waiting[index]? with
    | some status => { s with waiting := s.waiting.eraseIdx index, db := status }
    | none => s

end

def dispatched (ctx : JobContext) : Stored := ⟨JobRepair.dispatched ctx, [], .pending⟩

def Finished (s : Stored) : Prop :=
  s.live.job.task.pc = .finished ∧ s.waiting = [] ∧ Resting s.live

def lastSpawned (m : Machine) : JobState := m.persisted.getLast?.getD .pending

def endsStuck : Pc → Bool
  | .returned => true
  | .report .completed _ .finish => true
  | .report .stuck _ .finish => true
  | _ => false

def Orderly (cfg : RepairConfig) (l : Label) (s : Stored) : Prop :=
  match l with
  | .write index => ∀ status, s.waiting[index]? = some status →
      ∀ earlier < index, s.waiting[earlier]? = some status
  | .job (.job (.cancelJob _)) => s.live.job.stop = .cancelling →
      s.live.job.ctx.state.canTransitionTo .cancelled = true
  | .job (.job (.work _ _)) => endsStuck s.live.job.task.pc = true →
      s.live.job.ctx.state = .stuck →
        lastSpawned s.live.job = .stuck ∨ underWay s.live.job.stop = true
  | .job l => Manned cfg l s.live

def Owed (m : Machine) : Prop :=
  m.ctx.state = lastSpawned m ∨ underWay m.stop = true ∨
    m.task.pc ≠ .finished ∧ (m.ctx.state = .inProgress ∨ m.ctx.state = .stuck)

structure Inv (s : Stored) : Prop where
  tended : Tended s.live.job
  owed : Owed s.live.job
  order : s.waiting.getLast?.getD s.db = lastSpawned s.live.job

theorem dispatched_inv (ctx : JobContext) : Inv (dispatched ctx) := by
  refine ⟨dispatched_tended ctx, ?_, rfl⟩
  right
  right
  exact ⟨by simp [dispatched, JobRepair.dispatched, Worker.scheduled], Or.inl rfl⟩

variable (cfg : Worker.Config) (m : Machine) (now : ℤ) (input : Worker.Input)

theorem lastSpawned_append (persisted : List JobState) (status : JobState)
    (h : m.persisted = persisted++[status]) : lastSpawned m = status := by
  rw [lastSpawned, h]
  simp

/-- The worker and a stop spawn one write at a time. -/
theorem worker_spawns (l : Worker.Label) (m : Machine) :
    (∃ status, (Worker.step cfg l m).persisted = m.persisted++[status]) ∨
      (Worker.step cfg l m).persisted = m.persisted := by
  by_cases hl : ∀ now input, l ≠ .work now input
  · have ho := Worker.outside_step cfg l m hl
    generalize Worker.step cfg l m = m' at ho
    cases ho with
    | cancel hphase ctx hstate => exact Or.inl ⟨.cancelled, rfl⟩
    | _ => exact Or.inr rfl
  · push Not at hl
    obtain ⟨now, input, rfl⟩ := hl
    obtain ⟨-, hpersisted⟩ | ⟨target, reason, after, -, -, -, hpersisted⟩ :=
      Worker.work_status cfg now input m
    · exact Or.inr hpersisted
    · exact Or.inl ⟨target, hpersisted⟩

/-- An internal step ends the task from `returned` only. -/
theorem advance_ends (ctx : JobContext) (t : Worker.Task)
    (h : (Machine.advance cfg input ctx t).2.pc = .finished) :
    t.pc = .returned ∨ t.pc = .finished := by
  unfold Machine.advance at h
  split at h
  · cases h
  · exact (Worker.quiet_nextIteration cfg t 1 0).ends h
  · cases h
  · simp only at h
    split at h <;> cases h
  · cases h
  · simp only at h
    split at h <;> cases h
  · split at h
    · cases h
    · exact (Worker.quiet_nextIteration cfg t 1 0).ends h
  · split at h <;> cases h
  · exact (Worker.quiet_callLlm cfg ctx t _ _ _ _).ends h
  · split at h
    · cases h
    · exact (Worker.quiet_nextIteration cfg _ _ 0).ends h
  · next hpc => exact Or.inl hpc
  · exact Or.inr h

theorem refused_ends (target : JobState) (reason text : String)
    (htarget : target = .completed ∨ target = .failed ∨ target = .stuck)
    (hstate : m.ctx.state = .inProgress ∨ m.ctx.state = .stuck)
    (hrefused : m.ctx.transitionTo now target (some reason) = .error text) :
    m.ctx.state = .stuck ∧ (target = .completed ∨ target = .stuck) := by
  have hcan : m.ctx.state.canTransitionTo target ≠ true := by
    intro hcan
    obtain ⟨ctx, hok, -⟩ := transitionTo_permitted m.ctx now target (some reason) hcan
    rw [hok] at hrefused
    cases hrefused
  rcases hstate with hstate | hstate
  · rw [hstate] at hcan
    exact absurd (outcome_permitted target htarget) hcan
  · refine ⟨hstate, ?_⟩
    rcases htarget with rfl | rfl | rfl
    · exact Or.inl rfl
    · rw [hstate] at hcan
      exact absurd rfl hcan
    · exact Or.inr rfl

/-- A worker that ends on an unsettled job, and leaves its state alone, ends on
a stuck one. -/
theorem work_ends (m : Machine) (hs : Sound m) (hpc : m.task.pc ≠ .finished)
    (hstate : m.ctx.state = .inProgress ∨ m.ctx.state = .stuck)
    (hsame : (m.work cfg now input).ctx.state = m.ctx.state)
    (hend : (m.work cfg now input).task.pc = .finished) :
    endsStuck m.task.pc = true ∧ m.ctx.state = .stuck := by
  obtain ⟨hwaiting, hstep⟩ | ⟨index, action, rest, hplan, hstep⟩ |
    ⟨iteration, nudges, stopRequested, firstUserMessage, hsignals, hstep⟩ |
    ⟨target, reason, after, hreport, hstep⟩ | ⟨hinternal, hstep⟩ :=
    Worker.work_cases cfg now input m
  · obtain ⟨queue, -, hreceive⟩ := Worker.receiveStart_start cfg m (hs.start hwaiting)
    rw [hstep, hreceive] at hend
    exact ((Worker.quiet_begin cfg m.task).ends hend).elim
  · rw [hstep, Machine.drainPlan] at hend
    split at hend
    · exact ((Worker.quiet_enterAction cfg m.task index action rest).ends hend).elim
    · cases hend
    · cases hend
    · exact absurd hend hpc
  · simp only [hstep, Machine.drainSignals] at hend
    split at hend
    · cases hend
    · cases hend
    · exact absurd hend hpc
    · split at hend
      · cases hend
      · split at hend <;> cases hend
  · rw [hstep, Machine.reportOutcome] at hend hsame
    split at hend
    · next ctx hctx =>
      rw [hctx] at hsame
      obtain ⟨htarget, hcan⟩ := transitionTo_state m.ctx ctx now target _ hctx
      have hold : m.ctx.state = target := hsame.symm.trans htarget
      rcases hstate with hstate | hstate <;> rw [hold] at hcan hstate <;> rw [hstate] at hcan <;>
        cases hcan
    · next text hctx =>
      have hfinish := (Worker.quiet_afterReport cfg m.task after (.error text)).ends hend
      obtain ⟨hstuck, htarget⟩ := refused_ends m now target reason text
        (hs.outcome target reason after hreport) hstate hctx
      refine ⟨?_, hstuck⟩
      rw [hreport, hfinish]
      rcases htarget with rfl | rfl <;> rfl
  · rw [hstep] at hend
    have hreturned := (advance_ends cfg input m.ctx m.task hend).resolve_right hpc
    refine ⟨by rw [hreturned]; rfl, ?_⟩
    have hsettled := ((Worker.quiet_advance cfg input m.ctx m.task hinternal).ends
      hend).resolve_right hpc
    rcases hstate with hstate | hstate
    · rw [hstate] at hsettled
      cases hsettled
    · exact hstate

theorem work_owed (m : Machine) (ht : Tended m) (h : Owed m)
    (hc : endsStuck m.task.pc = true → m.ctx.state = .stuck →
      lastSpawned m = .stuck ∨ underWay m.stop = true) : Owed (m.work cfg now input) := by
  have hstop := (Worker.work_frame cfg now input m).2.2.1
  obtain ⟨hsame, hpersisted⟩ | ⟨target, reason, after, -, -, hstate, hpersisted⟩ :=
    Worker.work_status cfg now input m
  · have hlast : lastSpawned (m.work cfg now input) = lastSpawned m := by
      rw [lastSpawned, hpersisted]
      rfl
    unfold Owed
    rw [hsame, hlast, hstop]
    rcases h with hstored | hunder | ⟨hpc, hstate⟩
    · exact Or.inl hstored
    · exact Or.inr (Or.inl hunder)
    · by_cases hend : (m.work cfg now input).task.pc = .finished
      · obtain ⟨hends, hstuck⟩ := work_ends cfg now input m ht.reached.sound hpc hstate hsame hend
        rcases hc hends hstuck with hstored | hunder
        · exact Or.inl (hstuck.trans hstored.symm)
        · exact Or.inr (Or.inl hunder)
      · exact Or.inr (Or.inr ⟨hend, hstate⟩)
  · left
    rw [hstate, lastSpawned_append _ _ _ hpersisted]

/-- An abort is asked for by a stop, and a stop that is done leaves an ended
job. -/
theorem drop_owed (ht : Tended m) (h : Owed m) (habort : m.abortRequested = true) :
    Owed { m with task := m.task.goto .finished } := by
  rcases h with hstored | hunder | ⟨-, hstate⟩
  · exact Or.inl hstored
  · exact Or.inr (Or.inl hunder)
  · cases hstop : m.stop with
    | idle =>
      rw [(ht.reached.unstopped hstop).abort] at habort
      cases habort
    | done =>
      rcases ht.settles.ended hstop with hended | hended <;> rcases hstate with hstate | hstate <;>
        rw [hstate] at hended <;> cases hended
    | _ => exact Or.inr (Or.inl rfl)

theorem outside_owed (m m' : Machine) (ho : Worker.Outside m m') (ht : Tended m) (h : Owed m)
    (hc : m.stop = .cancelling → m'.stop = .done →
      m.ctx.state.canTransitionTo .cancelled = true) : Owed m' := by
  cases ho with
  | timeout htimed =>
    rcases h with hstored | hunder | ⟨-, hstate⟩
    · exact Or.inl hstored
    · exact Or.inr (Or.inl hunder)
    · exact Or.inr (Or.inr ⟨by simp [Worker.Task.goto], hstate⟩)
  | drop habort hyields => exact drop_owed m ht h habort
  | callStop hregistered => exact Or.inr (Or.inl rfl)
  | skipStop hphase => exact Or.inr (Or.inl rfl)
  | sendStop hphase => exact Or.inr (Or.inl rfl)
  | abort hphase requested => exact Or.inr (Or.inl rfl)
  | cancel hphase ctx hstate =>
    left
    rw [if_pos (hc hphase rfl)] at hstate
    rw [lastSpawned_append _ m.persisted .cancelled rfl]
    exact hstate
  | _ => exact h

/-- Only the cancellation ends a stop. -/
theorem still_cancelling (l : Worker.Label) (m : Machine) (hphase : m.stop = .cancelling)
    (hcancel : ∀ now, l ≠ .cancelJob now) (hwork : ∀ now input, l ≠ .work now input) :
    (Worker.step cfg l m).stop ≠ .done := by
  have hkept : m.stop ≠ .done := by
    rw [hphase]
    decide
  cases l with
  | work now input => exact absurd rfl (hwork now input)
  | cancelJob now => exact absurd rfl (hcancel now)
  | timeout =>
    simp only [Worker.step, Machine.timeout]
    split <;> exact hkept
  | dropTask =>
    simp only [Worker.step, Machine.dropTask]
    split <;> exact hkept
  | sendMessage content =>
    simp only [Worker.step, Machine.sendMessage]
    split <;> exact hkept
  | deliver index =>
    simp only [Worker.step, Machine.deliver]
    split
    · exact hkept
    · split
      · exact hkept
      · split <;> exact hkept
  | ping =>
    simp only [Worker.step, Machine.ping]
    split
    · exact hkept
    · split <;> exact hkept
  | reap =>
    simp only [Worker.step, Machine.reap]
    split <;> exact hkept
  | callStop =>
    simp only [Worker.step, Machine.callStop]
    split
    · simp
    · exact hkept
  | sendStop =>
    simp only [Worker.step, Machine.sendStop, hphase]
    simp [hphase]
  | abortTask =>
    simp only [Worker.step, Machine.abortTask, hphase]
    simp [hphase]

theorem worker_owed (repair : RepairConfig) (l : Worker.Label) (s : Stored) (ht : Tended s.live.job)
    (h : Owed s.live.job) (hc : Orderly repair (.job (.job l)) s) :
    Owed (Worker.step cfg l s.live.job) := by
  by_cases hl : ∀ now input, l ≠ .work now input
  · refine outside_owed s.live.job _ (Worker.outside_step cfg l s.live.job hl) ht h ?_
    intro hphase hdone
    cases l with
    | cancelJob now => exact hc hphase
    | work now input => exact absurd rfl (hl now input)
    | _ => exact absurd hdone (still_cancelling cfg _ s.live.job hphase (by simp) (by simp))
  · push Not at hl
    obtain ⟨now, input, rfl⟩ := hl
    exact work_owed cfg now input s.live.job ht h hc

theorem withCtx_owed (s : JobRepair.State) (ctx : JobContext)
    (hnew : ctx.state = .inProgress ∨ ctx.state = .stuck)
    (hthere : s.job.task.pc ≠ .finished ∨ underWay s.job.stop = true) : Owed (withCtx s ctx) := by
  rcases hthere with hpc | hunder
  · exact Or.inr (Or.inr ⟨hpc, hnew⟩)
  · exact Or.inr (Or.inl hunder)

theorem there (ht : Tended m) (hstate : m.ctx.state = .inProgress) :
    m.task.pc ≠ .finished ∨ underWay m.stop = true := by
  by_cases hunder : underWay m.stop = true
  · exact Or.inr hunder
  · exact Or.inl (tended_live m ht (Bool.eq_false_iff.mpr hunder) hstate)

theorem schedule_owed (full : Bool) (h : Owed m) :
    Owed (schedule now full m) := by
  unfold schedule
  split
  · exact h
  · split
    · next ctx hctx =>
      right
      right
      refine ⟨by simp [Worker.scheduled], Or.inl ?_⟩
      exact (transitionTo_state _ _ now .inProgress _ hctx).1
    · exact h

section

variable (worker : Worker.Config) (cfg : RepairConfig)

theorem job_owed (l : JobRepair.Label) (s : Stored) (ht : Tended s.live.job)
    (h : Owed s.live.job) (hc : Orderly cfg (.job l) s) :
    Owed (JobRepair.step worker cfg l s.live).job := by
  cases l with
  | job l => exact worker_owed worker cfg l s ht h hc
  | schedule now full => exact schedule_owed s.live.job now full h
  | find now =>
    simp only [JobRepair.step]
    split <;> exact h
  | look =>
    simp only [JobRepair.step]
    split <;> exact h
  | mark now =>
    simp only [JobRepair.step]
    split
    · split
      · next ctx hmark =>
        obtain ⟨hstate, hcan⟩ := transitionTo_state _ _ now .stuck _ hmark
        refine withCtx_owed s.live ctx (Or.inr hstate) (there s.live.job ht ?_)
        cases hold : s.live.job.ctx.state <;> rw [hold] at hcan <;> first | rfl | cases hcan
      · exact h
    · exact h
  | check now =>
    simp only [JobRepair.step]
    split
    · split <;> exact h
    · exact h
  | repair now =>
    simp only [JobRepair.step]
    split
    · next n hrepair =>
      split
      · exact h
      · next hroom =>
        split
        · next ctx hrecover =>
          obtain ⟨hold, hstate, -⟩ := recover_ok now s.live.job.ctx ctx hrecover
          refine withCtx_owed s.live ctx (Or.inl hstate) ?_
          rcases hold with hstuck | hprogress
          · exact hc n hrepair (Nat.lt_of_not_le hroom) hstuck
          · exact there s.live.job ht hprogress
        · exact h
    · exact h

/-- Nothing but the worker and a stop spawns a write. -/
theorem job_spawns (l : JobRepair.Label) (s : JobRepair.State) :
    (∃ status, (JobRepair.step worker cfg l s).job.persisted = s.job.persisted++[status]) ∨
      (JobRepair.step worker cfg l s).job.persisted = s.job.persisted := by
  cases l with
  | job l => exact worker_spawns worker l s.job
  | schedule now full =>
    right
    simp only [JobRepair.step, schedule]
    split
    · rfl
    · split <;> rfl
  | find now =>
    right
    simp only [JobRepair.step]
    split <;> rfl
  | look =>
    right
    simp only [JobRepair.step]
    split <;> rfl
  | mark now =>
    right
    simp only [JobRepair.step]
    split
    · split <;> rfl
    · rfl
  | check now =>
    right
    simp only [JobRepair.step]
    split
    · split <;> rfl
    · rfl
  | repair now =>
    right
    simp only [JobRepair.step]
    split
    · split
      · rfl
      · split <;> rfl
    · rfl

theorem job_order (l : JobRepair.Label) (s : Stored)
    (h : s.waiting.getLast?.getD s.db = lastSpawned s.live.job) :
    (step worker cfg (.job l) s).waiting.getLast?.getD s.db =
      lastSpawned (JobRepair.step worker cfg l s.live).job := by
  simp only [step]
  rcases job_spawns worker cfg l s.live with ⟨status, hpersisted⟩ | hpersisted
  · rw [lastSpawned_append _ _ _ hpersisted, hpersisted, List.drop_left]
    simp
  · have hlast : lastSpawned (JobRepair.step worker cfg l s.live).job =
        lastSpawned s.live.job := by
      rw [lastSpawned, hpersisted]
      rfl
    rw [hlast, hpersisted, List.drop_length, List.append_nil]
    exact h

end

/-- Taking out a write that nothing different precedes leaves the last status
last. -/
theorem write_order (waiting : List JobState) (db status : JobState) (index : ℕ)
    (h : waiting[index]? = some status)
    (hfirst : ∀ earlier < index, waiting[earlier]? = some status) :
    (waiting.eraseIdx index).getLast?.getD status = waiting.getLast?.getD db := by
  induction waiting generalizing index db with
  | nil => cases h
  | cons first rest ih =>
    rw [List.getLast?_cons, Option.getD_some]
    cases index with
    | zero =>
      obtain rfl := Option.some.inj h
      rfl
    | succ index =>
      obtain rfl := Option.some.inj (hfirst 0 (Nat.succ_pos index))
      have hrest := ih first index h (fun earlier hearlier => hfirst (earlier+1) (by omega))
      rw [List.eraseIdx_cons_succ, List.getLast?_cons, Option.getD_some]
      exact hrest

section

variable (worker : Worker.Config) (cfg : RepairConfig)

theorem step_inv (l : Label) (s : Stored) (h : Inv s) (hc : Orderly cfg l s) :
    Inv (step worker cfg l s) := by
  cases l with
  | job l =>
    have hmanned : Manned cfg l s.live := by
      cases l with
      | repair now => exact hc
      | _ => trivial
    exact ⟨step_tended worker cfg l s.live h.tended hmanned,
      job_owed worker cfg l s h.tended h.owed hc, job_order worker cfg l s h.order⟩
  | write index =>
    simp only [step]
    split
    · next status hstatus =>
      refine ⟨h.tended, h.owed, ?_⟩
      rw [← h.order]
      exact write_order s.waiting s.db status index hstatus (hc status hstatus)
    · exact h

/-- In an orderly run the stored status is the state of the job whenever
everything has finished. -/
theorem stored_status_agrees (ctx : JobContext) (labels : List Label)
    (h : Along (step worker cfg) (Orderly cfg) labels (dispatched ctx)) :
    Finished (run (step worker cfg) labels (dispatched ctx)) →
      (run (step worker cfg) labels (dispatched ctx)).db =
        (run (step worker cfg) labels (dispatched ctx)).live.job.ctx.state := by
  have hinv := guarded_invariant (step worker cfg) (Orderly cfg) Inv (step_inv worker cfg) labels _
    h (dispatched_inv ctx)
  generalize run (step worker cfg) labels (dispatched ctx) = s at hinv
  rintro ⟨hpc, hwaiting, hresting⟩
  have horder := hinv.order
  rw [hwaiting] at horder
  rcases hinv.owed with hstored | hunder | ⟨hlive, -⟩
  · exact horder.trans hstored.symm
  · rw [hresting.1] at hunder
    cases hunder
  · exact absurd hpc hlive

end

def tick : Label := .job (.job Worker.tick)

def stoppedJob : List Label :=
  [tick, tick, tick, .job (.job .callStop), .job (.job .sendStop), .job (.job .abortTask),
    .job (.job (.cancelJob 7)), .job (.job .dropTask), .write 0]

theorem stopped_job_agrees :
    Finished (run (step Worker.plainConfig repairConfig) stoppedJob
      (dispatched Worker.freshContext)) ∧
    (run (step Worker.plainConfig repairConfig) stoppedJob
      (dispatched Worker.freshContext)).db =
    (run (step Worker.plainConfig repairConfig) stoppedJob
      (dispatched Worker.freshContext)).live.job.ctx.state := by
  have hfinished : Finished (run (step Worker.plainConfig repairConfig) stoppedJob
      (dispatched Worker.freshContext)) := ⟨by decide, by decide, by decide, by decide⟩
  refine ⟨hfinished, stored_status_agrees Worker.plainConfig repairConfig Worker.freshContext
    stoppedJob ?_ hfinished⟩
  refine ⟨?_, ?_, ?_, trivial, trivial, trivial, fun _ => by decide, trivial, ?_, trivial⟩
  · intro hends
    exact absurd hends (by decide)
  · intro hends
    exact absurd hends (by decide)
  · intro hends
    exact absurd hends (by decide)
  · intro status _ earlier hearlier
    exact absurd hearlier (Nat.not_lt_zero earlier)

def completedJob : List Label :=
  [tick, .job (.job .callStop), .job (.job .sendStop), tick, tick, tick, tick,
    .job (.job .abortTask), .job (.job (.cancelJob 7)), .write 0, .write 0]

theorem completed_job_stored_cancelled :
    Finished (run (step Worker.plainConfig repairConfig) completedJob
      (dispatched Worker.freshContext)) ∧
    (run (step Worker.plainConfig repairConfig) completedJob
      (dispatched Worker.freshContext)).live.job.ctx.state = .completed ∧
    (run (step Worker.plainConfig repairConfig) completedJob
      (dispatched Worker.freshContext)).db = .cancelled :=
  ⟨⟨by decide, by decide, by decide, by decide⟩, by decide, by decide⟩

end IronClaw.JobPersistence
