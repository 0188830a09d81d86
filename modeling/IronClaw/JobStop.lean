import IronClaw.Lib.Runs
import IronClaw.WorkerFrame

/-!
# Stopping a job

`Scheduler::stop` sends the stop message, waits, aborts the task and then asks
for the transition to `Cancelled`. The worker meets the stop message in a
drain, where it returns as if its work were done. Between the call and the
transition the worker may take the message, and it may report an outcome; a
job that escapes both is cancelled.
-/

set_option autoImplicit false

namespace IronClaw.JobStop
open IronClaw.Worker IronClaw.JobLifecycle IronClaw.LlmMessage Lib.Runs

def underWay : StopPhase → Bool
  | .idle => false
  | .done => false
  | _ => true

def readsChannel : Pc → Bool
  | .waiting => true
  | .planSignals _ (_::_) => true
  | .signals _ _ _ _ => true
  | _ => false

def takesStop : Label → Machine → Bool
  | .work _ _, m => readsChannel m.task.pc && m.queue.head? = some .stop
  | _, _ => false

def reportsEnd : Label → Machine → Bool
  | .work _ _, m =>
    match m.task.pc with
    | .report target _ _ => target = .completed || target = .failed
    | _ => false
  | _, _ => false

def LeftAlone (l : Label) (m : Machine) : Prop :=
  underWay m.stop = true → takesStop l m = false ∧ reportsEnd l m = false

structure Unstopped (m : Machine) : Prop where
  queue : .stop ∉ m.queue
  stopTaken : m.task.stopTaken = false
  overrun : m.task.overrun = 0
  abort : m.abortRequested = false
  live : m.ctx.state = .inProgress → m.registered = true ∧ m.task.pc ≠ .finished

structure Reached (m : Machine) : Prop where
  sound : Sound m
  completed : .completed ∈ m.persisted → m.ctx.state = .completed ∨ m.ctx.state = .failed
  unstopped : m.stop = .idle → Unstopped m

theorem outcome_permitted (target : JobState)
    (h : target = .completed ∨ target = .failed ∨ target = .stuck) :
    JobState.canTransitionTo .inProgress target = true := by
  rcases h with rfl | rfl | rfl <;> rfl

theorem unstopped_quiet {E : Prop} (m m' : Machine) (h : Unstopped m)
    (hq : Quiet E m.task m'.task) (hqueue : .stop ∉ m'.queue)
    (habort : m'.abortRequested = m.abortRequested) (hregistered : m'.registered = m.registered)
    (hstate : m'.ctx.state = .inProgress → m.ctx.state = .inProgress ∧ ¬ E) : Unstopped m' := by
  refine ⟨hqueue, hq.stopTaken_eq.trans h.stopTaken, ?_, habort.trans h.abort, ?_⟩
  · rw [hq.overrun_eq h.stopTaken]
    exact h.overrun
  · intro hprogress
    obtain ⟨hbefore, hE⟩ := hstate hprogress
    rw [hregistered]
    exact ⟨(h.live hbefore).1, fun hfinished => hE (hq.ends hfinished)⟩

variable (cfg : Config) (now : ℤ) (input : Input) (m : Machine) (ctx : JobContext)

theorem reportOutcome_unstopped (now : ℤ) (target : JobState) (reason : String) (after : After)
    (h : Unstopped m) (hout : target = .completed ∨ target = .failed ∨ target = .stuck) :
    Unstopped (m.reportOutcome cfg now target reason after) := by
  unfold Machine.reportOutcome
  split
  · next ctx hctx =>
    refine unstopped_quiet m _ h (quiet_afterReport cfg m.task after _) h.queue rfl rfl ?_
    intro hstate
    have htarget := (transitionTo_state m.ctx ctx now target (some reason) hctx).1
    rw [← htarget] at hout
    simp only at hstate
    simp [hstate] at hout
  · next text hctx =>
    refine unstopped_quiet m _ h (quiet_afterReport cfg m.task after _) h.queue rfl rfl ?_
    intro hstate
    have hpermitted := outcome_permitted target hout
    simp only at hstate
    rw [← hstate] at hpermitted
    obtain ⟨ctx', hok, -⟩ := transitionTo_permitted m.ctx now target (some reason) hpermitted
    simp [hok] at hctx

theorem drainPlan_unstopped (index : ℕ) (action : PlannedAction) (rest : List PlannedAction)
    (h : Unstopped m) :
    Unstopped (m.drainPlan cfg index action rest) := by
  have hqueue := h.queue
  unfold Machine.drainPlan
  split
  · exact unstopped_quiet m _ h (quiet_enterAction cfg m.task index action rest) h.queue rfl rfl
      (fun hstate => ⟨hstate, id⟩)
  · next queue hq => simp [hq] at hqueue
  · next content queue hq =>
    rw [hq] at hqueue
    exact ⟨fun hmem => hqueue (List.mem_cons_of_mem _ hmem), h.stopTaken, h.overrun, h.abort,
      fun hstate => ⟨(h.live hstate).1, by simp [Task.goto]⟩⟩
  · next queue _ _ hq =>
    rw [hq] at hqueue
    exact ⟨fun hmem => hqueue (List.mem_cons_of_mem _ hmem), h.stopTaken, h.overrun, h.abort,
      h.live⟩

theorem drainSignals_unstopped (iteration nudges : ℕ) (stopRequested : Bool)
    (firstUserMessage : Option String) (h : Unstopped m) :
    Unstopped (m.drainSignals iteration nudges stopRequested firstUserMessage) := by
  have hqueue := h.queue
  unfold Machine.drainSignals
  split
  · next queue hq => simp [hq] at hqueue
  · next content queue hq =>
    rw [hq] at hqueue
    exact ⟨fun hmem => hqueue (List.mem_cons_of_mem _ hmem), h.stopTaken, h.overrun, h.abort,
      fun hstate => ⟨(h.live hstate).1, by simp [Task.goto]⟩⟩
  · next queue _ _ hq =>
    rw [hq] at hqueue
    exact ⟨fun hmem => hqueue (List.mem_cons_of_mem _ hmem), h.stopTaken, h.overrun, h.abort,
      h.live⟩
  · split
    · exact ⟨hqueue, h.stopTaken, h.overrun, h.abort,
        fun hstate => ⟨(h.live hstate).1, by simp [Task.goto]⟩⟩
    · split
      · refine ⟨hqueue, h.stopTaken, ?_, h.abort,
          fun hstate => ⟨(h.live hstate).1, by simp [Task.enterIteration]⟩⟩
        simp [Task.enterIteration, Task.inject, Task.check, h.stopTaken, h.overrun]
      · exact ⟨hqueue, h.stopTaken, h.overrun, h.abort,
          fun hstate => ⟨(h.live hstate).1, by simp [Task.goto]⟩⟩

theorem work_unstopped (hs : Sound m) (h : Unstopped m) : Unstopped (m.work cfg now input) := by
  obtain ⟨hpc, hstep⟩ | ⟨index, action, rest, hpc, hstep⟩ |
    ⟨iteration, nudges, stopRequested, firstUserMessage, hpc, hstep⟩ |
    ⟨target, reason, after, hpc, hstep⟩ | ⟨hinternal, hstep⟩ := work_cases cfg now input m
  · obtain ⟨queue, hqueue, hreceive⟩ := receiveStart_start cfg m (hs.start hpc)
    have hnone := h.queue
    rw [hqueue] at hnone
    rw [hstep, hreceive]
    exact unstopped_quiet m _ h (quiet_begin cfg m.task)
      (fun hmem => hnone (List.mem_cons_of_mem _ hmem)) rfl rfl (fun hstate => ⟨hstate, id⟩)
  · rw [hstep]
    exact drainPlan_unstopped cfg m index action rest h
  · rw [hstep]
    exact drainSignals_unstopped m iteration nudges stopRequested firstUserMessage h
  · rw [hstep]
    exact reportOutcome_unstopped cfg m now target reason after h
      (hs.outcome target reason after hpc)
  · rw [hstep]
    refine unstopped_quiet m _ h (quiet_advance cfg input m.ctx m.task hinternal) h.queue rfl rfl ?_
    intro hstate
    have hbefore : m.ctx.state = .inProgress := by
      rw [← advance_state cfg input m.ctx m.task]
      exact hstate
    refine ⟨hbefore, ?_⟩
    rintro (hsettled | hfinished)
    · simp [hbefore, settled, JobState.isTerminal] at hsettled
    · exact (h.live hbefore).2 hfinished

/-- A job whose stop was not called stays so under every other step. -/
theorem outside_unstopped (m m' : Machine) (ho : Outside m m')
    (h : Unstopped m) (hidle' : m'.stop = .idle) : Unstopped m' := by
  cases ho with
  | stay => exact h
  | timeout htimed =>
    exact ⟨h.queue, h.stopTaken, h.overrun, h.abort,
      fun hstate => ⟨(h.live hstate).1, by simp [Task.goto]⟩⟩
  | drop habort hyields => simp [h.abort] at habort
  | pend sends => exact ⟨h.queue, h.stopTaken, h.overrun, h.abort, h.live⟩
  | deliver sends content =>
    exact ⟨by simp [h.queue], h.stopTaken, h.overrun, h.abort, h.live⟩
  | ping => exact ⟨by simp [h.queue], h.stopTaken, h.overrun, h.abort, h.live⟩
  | reap hfinished =>
    exact ⟨h.queue, h.stopTaken, h.overrun, h.abort,
      fun hstate => ((h.live hstate).2 hfinished).elim⟩
  | callStop hregistered => simp at hidle'
  | skipStop hphase => simp at hidle'
  | sendStop hphase => simp at hidle'
  | abort hphase requested => simp at hidle'
  | cancel hphase ctx hstate => simp at hidle'

theorem work_completed (h : Reached m) (hmem : .completed ∈ (m.work cfg now input).persisted) :
    (m.work cfg now input).ctx.state = .completed ∨ (m.work cfg now input).ctx.state = .failed := by
  obtain ⟨hstate, hpersisted⟩ | ⟨target, reason, after, hpc, hcan, hstate, hpersisted⟩ :=
    work_status cfg now input m
  · rw [hstate]
    exact h.completed (by rwa [hpersisted] at hmem)
  · rw [hstate]
    rcases h.sound.outcome target reason after hpc with rfl | rfl | rfl
    · exact Or.inl rfl
    · exact Or.inr rfl
    · have hbefore : .completed ∈ m.persisted := by simpa [hpersisted] using hmem
      rcases h.completed hbefore with hdone | hdone <;>
        simp [hdone, JobState.canTransitionTo] at hcan

theorem outside_completed (m m' : Machine) (ho : Outside m m') (h : Reached m)
    (hmem : .completed ∈ m'.persisted) : m'.ctx.state = .completed ∨ m'.ctx.state = .failed := by
  cases ho with
  | cancel hphase ctx hstate =>
    have hbefore : .completed ∈ m.persisted := by simpa using hmem
    simp only [hstate]
    rcases h.completed hbefore with hdone | hdone
    · rw [hdone]
      exact Or.inl rfl
    · rw [hdone]
      exact Or.inr rfl
  | _ => exact h.completed hmem

theorem outside_idle (m m' : Machine) (ho : Outside m m') (h : m'.stop = .idle) :
    m.stop = .idle := by
  cases ho <;> first | exact h | simp at h

theorem step_reached (l : Label) (m : Machine) (h : Reached m) :
    Reached (step cfg l m) := by
  have hsound := step_sound cfg l m h.sound
  by_cases hl : ∀ now input, l ≠ .work now input
  · have ho := outside_step cfg l m hl
    refine ⟨hsound, outside_completed m _ ho h, fun hidle' => ?_⟩
    have hidle := outside_idle m _ ho hidle'
    exact outside_unstopped m _ ho (h.unstopped hidle) hidle'
  · push Not at hl
    obtain ⟨now, input, rfl⟩ := hl
    refine ⟨hsound, work_completed cfg now input m h, fun hidle' => ?_⟩
    have hidle : m.stop = .idle := (work_frame cfg now input m).2.2.1.symm.trans hidle'
    exact work_unstopped cfg now input m h.sound (h.unstopped hidle)

theorem scheduled_reached : Reached (scheduled ctx) :=
  ⟨scheduled_sound ctx, by simp [scheduled],
    fun _ => ⟨by simp [scheduled], rfl, rfl, rfl, fun _ => ⟨rfl, by simp [scheduled]⟩⟩⟩

def halting : Pc → Bool
  | .planEnded => true
  | .returned => true
  | .finished => true
  | .report _ _ .finish => true
  | .signals _ _ stopRequested _ => stopRequested
  | _ => false

theorem advance_halting (t : Task) (hi : Internal t.pc) (hpc : halting t.pc = true)
    (hs : settled ctx.state = true) :
    halting (Machine.advance cfg input ctx t).2.pc = true ∧
    (Machine.advance cfg input ctx t).2.overrun = t.overrun := by
  cases ht : t.pc with
  | planEnded =>
    simp only [Machine.advance, ht, hs, if_true]
    exact ⟨rfl, rfl⟩
  | returned =>
    simp only [Machine.advance, ht, hs, if_true]
    exact ⟨rfl, rfl⟩
  | finished =>
    simp only [Machine.advance, ht]
    exact ⟨rfl, trivial⟩
  | signals iteration nudges stopRequested firstUserMessage =>
    rw [ht] at hi
    exact hi.elim
  | report target reason after =>
    rw [ht] at hi
    exact hi.elim
  | _ => simp [ht, halting] at hpc

structure Halts (l : Label) (m m' : Machine) : Prop where
  overrun : m'.task.overrun = m.task.overrun
  halting : m'.task.stopTaken = true → halting m'.task.pc = true
  taken : m'.task.stopTaken = true → m.task.stopTaken = true ∨ takesStop l m = true

theorem halts_quiet {E : Prop} (l : Label) (m m' : Machine) (hq : Quiet E m.task m'.task)
    (h : m.task.stopTaken = false) : Halts l m m' := by
  have hstop : m'.task.stopTaken = false := hq.stopTaken_eq.trans h
  exact ⟨hq.overrun_eq h, by simp [hstop], by simp [hstop]⟩

theorem drainPlan_halts (index : ℕ) (action : PlannedAction) (rest : List PlannedAction)
    (hpc : m.task.pc = .planSignals index (action::rest)) (h : m.task.stopTaken = false) :
    Halts (.work now input) m (m.drainPlan cfg index action rest) := by
  unfold Machine.drainPlan
  split
  · exact halts_quiet _ m _ (quiet_enterAction cfg m.task index action rest) h
  · next queue hq =>
    exact ⟨rfl, fun _ => rfl, fun _ => Or.inr (by simp [takesStop, hpc, hq, readsChannel])⟩
  · exact ⟨rfl, fun _ => rfl, fun hstop => Or.inl hstop⟩
  · exact ⟨rfl, by simp [h], fun hstop => Or.inl hstop⟩

theorem drainSignals_halts (iteration nudges : ℕ) (stopRequested : Bool)
    (firstUserMessage : Option String)
    (hpc : m.task.pc = .signals iteration nudges stopRequested firstUserMessage)
    (h : m.task.stopTaken = true ↔ stopRequested = true) :
    Halts (.work now input) m
      (m.drainSignals iteration nudges stopRequested firstUserMessage) := by
  unfold Machine.drainSignals
  split
  · next queue hq =>
    exact ⟨rfl, fun _ => rfl, fun _ => Or.inr (by simp [takesStop, hpc, hq, readsChannel])⟩
  · exact ⟨rfl, fun hstop => h.mp hstop, fun hstop => Or.inl hstop⟩
  · exact ⟨rfl, fun hstop => by rw [hpc]; exact h.mp hstop, fun hstop => Or.inl hstop⟩
  · split
    · exact ⟨rfl, fun _ => rfl, fun hstop => Or.inl hstop⟩
    · next hrequested =>
      have hstop : m.task.stopTaken = false := by
        simpa using fun hstop => hrequested (h.mp hstop)
      split
      · refine ⟨?_, ?_, fun hstop => Or.inl hstop⟩
        · simp [Task.enterIteration, Task.inject, Task.check, hstop]
        · simp [Task.enterIteration, Task.inject, Task.check, hstop]
      · exact ⟨rfl, by simp [Task.goto, Task.check, hstop], fun hstop => Or.inl hstop⟩

theorem reportOutcome_halts (target : JobState) (reason : String) (after : After)
    (h : m.task.stopTaken = true → after = .finish) :
    Halts (.work now input) m (m.reportOutcome cfg now target reason after) := by
  by_cases hstop : m.task.stopTaken = true
  · rw [h hstop]
    unfold Machine.reportOutcome
    split <;> exact ⟨rfl, fun _ => rfl, fun hstop => Or.inl hstop⟩
  · have hnone : m.task.stopTaken = false := by simpa using hstop
    unfold Machine.reportOutcome
    split
    · exact halts_quiet _ m _ (quiet_afterReport cfg m.task after _) hnone
    · exact halts_quiet _ m _ (quiet_afterReport cfg m.task after _) hnone

theorem work_halts (hs : Sound m)
    (h : m.task.stopTaken = true → halting m.task.pc = true ∧ settled m.ctx.state = true) :
    Halts (.work now input) m (m.work cfg now input) := by
  have hnot : halting m.task.pc = false → m.task.stopTaken = false := by
    intro hpc
    by_contra hstop
    simp [(h (by simpa using hstop)).1] at hpc
  obtain ⟨hpc, hstep⟩ | ⟨index, action, rest, hpc, hstep⟩ |
    ⟨iteration, nudges, stopRequested, firstUserMessage, hpc, hstep⟩ |
    ⟨target, reason, after, hpc, hstep⟩ | ⟨hinternal, hstep⟩ := work_cases cfg now input m
  · obtain ⟨queue, hqueue, hreceive⟩ := receiveStart_start cfg m (hs.start hpc)
    rw [hstep, hreceive]
    exact halts_quiet _ m _ (quiet_begin cfg m.task) (hnot (by rw [hpc]; rfl))
  · rw [hstep]
    exact drainPlan_halts cfg now input m index action rest hpc (hnot (by rw [hpc]; rfl))
  · rw [hstep]
    apply drainSignals_halts now input m iteration nudges stopRequested firstUserMessage hpc
    constructor
    · intro hstop
      have hhalting := (h hstop).1
      rwa [hpc] at hhalting
    · intro hrequested
      rw [hrequested] at hpc
      exact hs.stop iteration nudges firstUserMessage hpc
  · rw [hstep]
    exact reportOutcome_halts cfg now input m target reason after fun hstop => by
      have hhalting := (h hstop).1
      rw [hpc] at hhalting
      cases after <;> simp [halting] at hhalting
      rfl
  · have hq := quiet_advance cfg input m.ctx m.task hinternal
    rw [hstep]
    by_cases hstop : m.task.stopTaken = true
    · obtain ⟨hpc, hsettled⟩ := h hstop
      have hadvance := advance_halting cfg input m.ctx m.task hinternal hpc hsettled
      exact ⟨hadvance.2, fun _ => hadvance.1, fun _ => Or.inl hstop⟩
    · exact halts_quiet _ m _ hq (by simpa using hstop)

structure Stopped (m : Machine) : Prop where
  sound : Sound m
  gone : m.registered = false
  called : m.stop ≠ .idle
  clean : .completed ∉ m.persisted
  calm : m.task.overrun = 0
  under : underWay m.stop = true →
    (m.ctx.state = .inProgress ∨ m.ctx.state = .stuck) ∧ m.task.stopTaken = false
  ended : m.stop = .done →
    m.ctx.state = .cancelled ∧ (m.task.stopTaken = true → halting m.task.pc = true)

theorem under_or_done (phase : StopPhase) (h : phase ≠ .idle) :
    underWay phase = true ∨ phase = .done := by
  cases phase with
  | idle => exact (h rfl).elim
  | done => exact Or.inr rfl
  | _ => exact Or.inl rfl

/-- While the stop is under way the worker can at most get stuck, and after it
nothing changes the state any more. -/
theorem stopped_status (h : Stopped m) (halone : LeftAlone (.work now input) m) :
    .completed ∉ (step cfg (.work now input) m).persisted ∧
    (underWay m.stop = true → (step cfg (.work now input) m).ctx.state = .inProgress ∨
      (step cfg (.work now input) m).ctx.state = .stuck) ∧
    (m.stop = .done → (step cfg (.work now input) m).ctx.state = .cancelled) := by
  obtain ⟨hstate, hpersisted⟩ | ⟨target, reason, after, hpc, hcan, hstate, hpersisted⟩ :=
    work_status cfg now input m
  · simp only [step, hstate, hpersisted]
    exact ⟨h.clean, fun hunder => (h.under hunder).1, fun hdone => (h.ended hdone).1⟩
  · rcases under_or_done m.stop h.called with hunder | hdone
    · have hend := (halone hunder).2
      simp only [reportsEnd, hpc, Bool.or_eq_false_iff, decide_eq_false_iff_not] at hend
      have hstuck : target = .stuck :=
        ((h.sound.outcome target reason after hpc).resolve_left hend.1).resolve_left hend.2
      simp only [step, hstate, hpersisted, hstuck]
      refine ⟨by simp [h.clean], fun _ => Or.inr trivial, fun hdone => ?_⟩
      simp [hdone, underWay] at hunder
    · rw [(h.ended hdone).1, cancelled_final] at hcan
      simp at hcan

theorem work_stopped (h : Stopped m) (halone : LeftAlone (.work now input) m) :
    Stopped (step cfg (.work now input) m) := by
  have hframe := work_frame cfg now input m
  have hhalts : Halts (.work now input) m (step cfg (.work now input) m) := by
    apply work_halts cfg now input m h.sound
    intro hstop
    rcases under_or_done m.stop h.called with hunder | hdone
    · simp [(h.under hunder).2] at hstop
    · refine ⟨(h.ended hdone).2 hstop, ?_⟩
      rw [(h.ended hdone).1]
      rfl
  have hphase : (step cfg (.work now input) m).stop = m.stop := hframe.2.2.1
  have hstatus := stopped_status cfg now input m h halone
  refine ⟨step_sound cfg _ m h.sound, hframe.2.2.2.1.trans h.gone, by rw [hphase]; exact h.called,
    hstatus.1, hhalts.overrun.trans h.calm, ?_, ?_⟩
  · rw [hphase]
    intro hunder
    refine ⟨hstatus.2.1 hunder, ?_⟩
    by_contra hstop
    have hstop' : (step cfg (.work now input) m).task.stopTaken = true := by simpa using hstop
    rcases hhalts.taken hstop' with htaken | htakes
    · simp [(h.under hunder).2] at htaken
    · simp [(halone hunder).1] at htakes
  · rw [hphase]
    exact fun hdone => ⟨hstatus.2.2 hdone, hhalts.halting⟩

/-- A step from outside leaves a halting task halting: it ends the task or
reports the timeout. -/
theorem outside_stopped (m m' : Machine) (ho : Outside m m') (hs : Sound m') (h : Stopped m) :
    Stopped m' := by
  obtain ⟨-, hgone, hcalled, hclean, hcalm, hunder, hover⟩ := h
  cases ho with
  | stay => exact ⟨hs, hgone, hcalled, hclean, hcalm, hunder, hover⟩
  | timeout htimed =>
    exact ⟨hs, hgone, hcalled, hclean, hcalm, hunder, fun hdone => ⟨(hover hdone).1, fun _ => rfl⟩⟩
  | drop habort hyields =>
    exact ⟨hs, hgone, hcalled, hclean, hcalm, hunder, fun hdone => ⟨(hover hdone).1, fun _ => rfl⟩⟩
  | pend sends => exact ⟨hs, hgone, hcalled, hclean, hcalm, hunder, hover⟩
  | deliver sends content => exact ⟨hs, hgone, hcalled, hclean, hcalm, hunder, hover⟩
  | ping => exact ⟨hs, hgone, hcalled, hclean, hcalm, hunder, hover⟩
  | reap hfinished => exact ⟨hs, rfl, hcalled, hclean, hcalm, hunder, hover⟩
  | callStop hregistered => simp [hgone] at hregistered
  | skipStop hphase =>
    rw [hphase] at hunder
    exact ⟨hs, hgone, by simp, hclean, hcalm, fun _ => hunder rfl, by simp⟩
  | sendStop hphase =>
    rw [hphase] at hunder
    exact ⟨hs, hgone, by simp, hclean, hcalm, fun _ => hunder rfl, by simp⟩
  | abort hphase requested =>
    rw [hphase] at hunder
    exact ⟨hs, hgone, by simp, hclean, hcalm, fun _ => hunder rfl, by simp⟩
  | cancel hphase ctx hstate =>
    rw [hphase] at hunder
    obtain ⟨hbefore, hstop⟩ := hunder rfl
    refine ⟨hs, hgone, by simp, by simp [hclean], hcalm, by simp [underWay],
      fun _ => ⟨?_, by simp [hstop]⟩⟩
    rcases hbefore with hbefore | hbefore
    · rw [hstate, hbefore]
      rfl
    · rw [hstate, hbefore]
      rfl

theorem step_stopped (l : Label) (m : Machine) (h : Stopped m) (halone : LeftAlone l m) :
    Stopped (step cfg l m) := by
  by_cases hl : ∀ now input, l ≠ .work now input
  · exact outside_stopped m _ (outside_step cfg l m hl) (step_sound cfg l m h.sound) h
  · push Not at hl
    obtain ⟨now, input, rfl⟩ := hl
    exact work_stopped cfg now input m h halone

theorem callStop_stopped (h : Reached m) (hidle : m.stop = .idle)
    (hprogress : m.ctx.state = .inProgress) : Stopped m.callStop := by
  have hu := h.unstopped hidle
  have hclean : .completed ∉ m.persisted := by
    intro hmem
    rcases h.completed hmem with hdone | hdone <;> simp [hprogress] at hdone
  unfold Machine.callStop
  rw [if_pos (hu.live hprogress).1]
  exact ⟨⟨h.sound.start, h.sound.stop, h.sound.outcome⟩, rfl, by simp, hclean, hu.overrun,
    fun _ => ⟨Or.inl hprogress, hu.stopTaken⟩, by simp⟩

/-- The call of `stop` runs through as soon as the channel takes its message. -/
theorem stop_finishes (hcalled : m.stop ≠ .idle)
    (hroom : m.task.pc = .finished ∨ m.queue.length < channelCapacity) :
    (run (step cfg) [.sendStop, .abortTask, .cancelJob now] m).stop = .done := by
  have hcancel : ∀ m : Machine, m.stop = .cancelling → (m.cancelJob now).stop = .done := by
    intro m hphase
    unfold Machine.cancelJob
    rw [if_pos hphase]
    split <;> rfl
  have hsend : m.stop = .sending → m.sendStop.stop = .sleeping := by
    intro hphase
    unfold Machine.sendStop
    rw [if_pos hphase]
    split
    · rfl
    · next hopen =>
      rw [if_pos (hroom.resolve_left (by simpa [Machine.channelClosed] using hopen))]
  simp only [run, step]
  cases hphase : m.stop with
  | idle => exact (hcalled hphase).elim
  | sending =>
    apply hcancel
    simp [Machine.abortTask, hsend hphase]
  | sleeping =>
    apply hcancel
    simp [Machine.sendStop, Machine.abortTask, hphase]
  | cancelling =>
    apply hcancel
    simp [Machine.sendStop, Machine.abortTask, hphase]
  | done => simp [Machine.sendStop, Machine.abortTask, Machine.cancelJob, hphase]

/-- The steps that finish a call of `stop` are none of the worker's. -/
theorem finishing_alone :
    Along (step cfg) LeftAlone [.sendStop, .abortTask, .cancelJob now] m :=
  ⟨fun _ => ⟨rfl, rfl⟩, fun _ => ⟨rfl, rfl⟩, fun _ => ⟨rfl, rfl⟩, trivial⟩

/-- Stop is called while the job is in progress. In every run in which the
worker, while the stop is under way, neither takes the stop message nor
reports an end, the worker enters no action or iteration after taking the
message, no completion is persisted, the job is cancelled once the stop is
done, and the stop gets done as soon as the channel has room. -/
theorem stop_cancels (before after : List Label)
    (hidle : (run (step cfg) before (scheduled ctx)).stop = .idle)
    (hprogress : (run (step cfg) before (scheduled ctx)).ctx.state = .inProgress)
    (halone : Along (step cfg) LeftAlone (.callStop::after)
      (run (step cfg) before (scheduled ctx))) :
    let m := run (step cfg) (before++.callStop::after) (scheduled ctx)
    m.task.overrun = 0 ∧ .completed ∉ m.persisted ∧
    (m.stop = .done → m.ctx.state = .cancelled) ∧
    (∀ now, m.task.pc = .finished ∨ m.queue.length < channelCapacity →
      (run (step cfg) [.sendStop, .abortTask, .cancelJob now] m).stop = .done ∧
      (run (step cfg) [.sendStop, .abortTask, .cancelJob now] m).ctx.state = .cancelled) := by
  have hreached := run_invariant (step cfg) Reached (step_reached cfg) before (scheduled ctx)
    (scheduled_reached ctx)
  have hstopped : Stopped (run (step cfg) (before++.callStop::after) (scheduled ctx)) := by
    rw [run_append]
    exact guarded_invariant (step cfg) LeftAlone Stopped
      (fun l m h => step_stopped cfg l m h) after _ halone.2
      (callStop_stopped _ hreached hidle hprogress)
  refine ⟨hstopped.calm, hstopped.clean, fun hdone => (hstopped.ended hdone).1, ?_⟩
  intro now hroom
  have hdone := stop_finishes cfg now _ hstopped.called hroom
  have hend := guarded_invariant (step cfg) LeftAlone Stopped
    (fun l m h => step_stopped cfg l m h) _ _ (finishing_alone cfg now _) hstopped
  exact ⟨hdone, (hend.ended hdone).1⟩

def stopWhileThinking : List Label := [.sendStop, .abortTask, .cancelJob 7, .dropTask]

theorem thinking_job_cancelled :
    let m := run (step plainConfig) ([tick, tick, tick]++.callStop::stopWhileThinking)
      (scheduled freshContext)
    m.stop = .done ∧ m.task.overrun = 0 ∧ .completed ∉ m.persisted ∧ m.ctx.state = .cancelled := by
  have hcancels := stop_cancels plainConfig freshContext [tick, tick, tick] stopWhileThinking
    (by decide) (by decide)
    ⟨fun _ => ⟨rfl, rfl⟩, fun _ => ⟨rfl, rfl⟩, fun _ => ⟨rfl, rfl⟩, fun _ => ⟨rfl, rfl⟩,
      fun _ => ⟨rfl, rfl⟩, trivial⟩
  exact ⟨by decide, hcancels.1, hcancels.2.1, hcancels.2.2.1 (by decide)⟩

def stopAtDrain : List Label :=
  [.sendStop, tick, tick, tick, tick, .abortTask, .cancelJob 7]

def planningConfig : Config := { plainConfig with usePlanning := true }

def twoActions : ActionPlan :=
  ⟨"Tidy up", [⟨"list", .null, "look first"⟩, ⟨"archive", .null, "then sort"⟩]⟩

def stopInPlan : List Label :=
  [.sendStop, .work 0 (.tool ⟨"3 files", none⟩), tick, tick, tick, tick]

/-- A stopped job ends as completed, and a stopped plan goes on with the loop. -/
theorem stopped_job_completes :
    (let called := run (step plainConfig) [tick] (scheduled freshContext)
     let m := run (step plainConfig) (.callStop::stopAtDrain) called
     called.stop = .idle ∧ called.ctx.state = .inProgress ∧ called.persisted = [] ∧
     m.stop = .done ∧ m.ctx.state = .completed ∧ m.persisted = [.completed, .cancelled]) ∧
    (let called := run (step planningConfig) [tick, .work 0 (.plan (.ok twoActions)), tick]
       (scheduled freshContext)
     let m := run (step planningConfig) (.callStop::stopInPlan) called
     called.stop = .idle ∧ called.ctx.state = .inProgress ∧
     m.task.stopTaken = true ∧ m.task.overrun = 1 ∧ m.task.pc = .thinking 1 0) := by
  decide

end IronClaw.JobStop
