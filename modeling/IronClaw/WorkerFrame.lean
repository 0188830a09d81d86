import IronClaw.Worker

/-!
# What a step of a worker can do

One lemma for each function of the worker says what it keeps, whatever the
language model, the tools and the clock decide. The results about runs use
these and never the functions themselves, apart from the three places that
read the channel and the one that reports an outcome.
-/

set_option autoImplicit false

namespace IronClaw.Worker
open IronClaw.LlmMessage IronClaw.JobLifecycle

def held : Pc → List String
  | .signals _ _ _ (some content) => [content]
  | _ => []

def Rested : Pc → Prop
  | .waiting => False
  | .signals _ _ stopRequested firstUserMessage => stopRequested = false ∧ firstUserMessage = none
  | .report target _ _ => target = .completed ∨ target = .failed ∨ target = .stuck
  | _ => True

def Internal : Pc → Prop
  | .waiting => False
  | .signals _ _ _ _ => False
  | .report _ _ _ => False
  | _ => True

structure Quiet (E : Prop) (t t' : Task) : Prop where
  injected_eq : injected t'.messages = injected t.messages
  stopTaken_eq : t'.stopTaken = t.stopTaken
  checks_eq : t'.checks = t.checks
  overrun_eq : t.stopTaken = false → t'.overrun = t.overrun
  rested : Rested t'.pc
  ends : t'.pc = .finished → E

@[simp]
theorem followUpTexts_append (ms ns : List WorkerMessage) :
    followUpTexts (ms++ns) = followUpTexts ms++followUpTexts ns := by
  induction ms with
  | nil => rfl
  | cons m ms ih => cases m <;> simp [followUpTexts, ih]

@[simp]
theorem injected_append (es fs : List Entry) : injected (es++fs) = injected es++injected fs := by
  induction es with
  | nil => rfl
  | cons e es ih => cases e <;> simp [injected, ih]

theorem rested_held (pc : Pc) (h : Rested pc) : held pc = [] := by
  cases pc with
  | signals iteration nudges stopRequested firstUserMessage => rw [h.2, held.eq_def]
  | _ => rfl

theorem rested_not_waiting (pc : Pc) (h : Rested pc) : pc ≠ .waiting := by
  intro hpc
  rw [hpc] at h
  exact h

theorem yields_held (pc : Pc) (h : Machine.yields pc = true) : held pc = [] := by
  cases pc with
  | signals iteration nudges stopRequested firstUserMessage =>
    cases firstUserMessage with
    | none => rfl
    | some content => simp [Machine.yields] at h
  | _ => rfl

theorem timed_yields (pc : Pc) (h : Machine.timed pc = true) : Machine.yields pc = true := by
  unfold Machine.timed at h
  split at h
  · simp at h
  · simp at h
  · simp at h
  · exact h

theorem internal_rested (pc : Pc) (h : Internal pc) : Rested pc := by
  cases pc with
  | waiting => exact h
  | signals iteration nudges stopRequested firstUserMessage => exact h.elim
  | report target reason after => exact h.elim
  | _ => trivial

variable {E : Prop}

variable (cfg : Config) (t : Task) (iteration nudges : ℕ) (now : ℤ) (input : Input) (m : Machine)

theorem quiet_goto (pc : Pc) (h : Rested pc) (hend : pc = .finished → E) :
    Quiet E t (t.goto pc) :=
  ⟨rfl, rfl, rfl, fun _ => rfl, h, hend⟩

theorem quiet_push (t t' : Task) (message : ChatMessage) (h : Quiet E (t.push message) t') :
    Quiet E t t' := by
  have hsame : injected (t.push message).messages = injected t.messages := by
    simp [Task.push, injected]
  exact ⟨h.injected_eq.trans hsame, h.stopTaken_eq, h.checks_eq, h.overrun_eq, h.rested,
    h.ends⟩

theorem quiet_fail (error : String) : Quiet E t (t.fail error) :=
  quiet_goto t _ (Or.inr (Or.inl rfl)) (by simp)

theorem quiet_nextIteration :
    Quiet E t (t.nextIteration cfg iteration nudges) := by
  unfold Task.nextIteration
  split
  · exact quiet_goto t _ ⟨rfl, rfl⟩ (by simp)
  · exact quiet_goto t _ (Or.inr (Or.inl rfl)) (by simp)

theorem quiet_enterIteration :
    Quiet E t (t.enterIteration iteration nudges) :=
  ⟨rfl, rfl, rfl, fun h => by simp [Task.enterIteration, h], trivial,
    by simp [Task.enterIteration]⟩

theorem quiet_begin : Quiet False t (t.begin cfg) := by
  simp only [Task.begin]
  apply quiet_push
  split
  · exact quiet_goto _ _ trivial (by simp)
  · exact quiet_nextIteration cfg _ 1 0

theorem quiet_enterAction (index : ℕ) (action : PlannedAction) (rest : List PlannedAction) :
    Quiet False t (t.enterAction cfg index action rest) := by
  simp only [Task.enterAction]
  apply quiet_push
  exact ⟨rfl, rfl, rfl, fun h => by simp [Task.push] at h ⊢; simp [h], trivial, by simp⟩

variable (ctx : JobContext) (l : Label) (m : Machine) (t : Task) (iteration nudges : ℕ)
  (toolsAvailable : Bool)

theorem quiet_handleText (text : String) :
    Quiet E t (t.handleText cfg iteration nudges toolsAvailable text) := by
  simp only [Task.handleText]
  split
  · exact quiet_push _ _ _ (quiet_push _ _ _ (quiet_nextIteration cfg _ _ _))
  · split
    · exact quiet_nextIteration cfg _ _ _
    · split
      · exact quiet_goto _ _ (Or.inl rfl) (by simp)
      · exact quiet_push _ _ _ (quiet_nextIteration cfg _ _ _)

theorem quiet_handleResult (result : RespondResult) :
    Quiet E t (t.handleResult cfg iteration nudges toolsAvailable result) := by
  cases result with
  | text text => exact quiet_handleText cfg t iteration nudges toolsAvailable text
  | toolCalls calls content => exact quiet_push _ _ _ (quiet_goto _ _ trivial (by simp))

theorem quiet_takeResults (t t₁ t' : Task) (results : ToolCall → ToolReturn)
    (calls : List ToolCall) (error : Option String) (h : t.takeResults results calls = (t₁, error))
    (hq : Quiet E t₁ t') : Quiet E t t' := by
  induction calls generalizing t with
  | nil =>
    have ht : t = t₁ := congrArg Prod.fst h
    rw [ht]
    exact hq
  | cons call calls ih =>
    simp only [Task.takeResults] at h
    apply quiet_push t t' (Task.resultMessage call.id call.name (results call))
    split at h
    · have ht : t.push (Task.resultMessage call.id call.name (results call)) = t₁ :=
        congrArg Prod.fst h
      rw [ht]
      exact hq
    · exact ih _ h

theorem quiet_rateLimits (t t' : Task) (n : ℕ) (h : Quiet E { t with rateLimits := n } t') :
    Quiet E t t' :=
  ⟨h.1, h.2, h.3, h.4, h.5, h.6⟩

theorem quiet_callLlm (r : LlmReturn) :
    Quiet E t (callLlm cfg ctx t iteration nudges toolsAvailable r).2 := by
  cases r with
  | selected first rest reasoning =>
    exact quiet_rateLimits t _ 0 (quiet_handleResult cfg _ iteration nudges toolsAvailable
      (.toolCalls (first::rest) reasoning))
  | responded result tokens =>
    have h : Quiet E t _ := quiet_rateLimits t _ 0
      (quiet_handleResult cfg _ iteration nudges toolsAvailable result)
    simp only [callLlm]
    split
    · exact h
    · split
      · exact h
      · exact quiet_rateLimits t _ 0 (quiet_goto _ _ (Or.inr (Or.inl rfl)) (by simp))
  | rateLimited =>
    simp only [callLlm]
    split
    · exact quiet_rateLimits t _ _ (quiet_goto _ _ (Or.inr (Or.inl rfl)) (by simp))
    · exact quiet_rateLimits t _ _
        (quiet_handleResult cfg { t with rateLimits := t.rateLimits+1 } iteration nudges
          toolsAvailable (.text ""))
  | failed error => exact quiet_fail t error

theorem quiet_afterReport (after : After) (r : Except String Unit) :
    Quiet (after = .finish) t (afterReport cfg t after r) := by
  cases after with
  | budget iteration nudges toolsAvailable result =>
    cases r with
    | ok _ => exact quiet_handleResult cfg t iteration nudges toolsAvailable result
    | error reason => exact quiet_fail t _
  | finish => exact quiet_goto t _ trivial (fun _ => rfl)
  | answered => exact quiet_goto t _ trivial (by simp)
  | rateLimited => cases r <;> exact quiet_fail t _
  | planEnd =>
    cases r with
    | ok _ => exact quiet_goto t _ trivial (by simp)
    | error reason => exact quiet_fail t _
  | capped =>
    cases r with
    | ok _ => exact quiet_goto t _ trivial (by simp)
    | error reason => exact quiet_fail t _

theorem quiet_advance (h : Internal t.pc) :
    Quiet (settled ctx.state = true ∨ t.pc = .finished) t (Machine.advance cfg input ctx t).2 := by
  have hstay : Quiet (settled ctx.state = true ∨ t.pc = .finished) t t :=
    ⟨rfl, rfl, rfl, fun _ => rfl, internal_rested t.pc h, Or.inr⟩
  unfold Machine.advance
  split
  · exact quiet_push _ _ _ (quiet_goto _ _ trivial (by simp))
  · exact quiet_nextIteration cfg t 1 0
  · exact quiet_push _ _ _ (quiet_goto _ _ trivial (by simp))
  · simp only
    split
    · exact quiet_push _ _ _ (quiet_fail _ _)
    · exact quiet_push _ _ _ (quiet_goto _ _ trivial (by simp))
  · exact quiet_fail t _
  · simp only
    split
    · exact quiet_push _ _ _ (quiet_goto _ _ (Or.inl rfl) (by simp))
    · exact quiet_push _ _ _ (quiet_goto _ _ trivial (by simp))
  · split
    · exact quiet_goto _ _ trivial (by simp)
    · exact quiet_nextIteration cfg t 1 0
  · split
    · exact quiet_goto _ _ trivial (by simp)
    · exact quiet_enterIteration t _ _
  · exact quiet_callLlm cfg ctx t _ _ _ _
  · split
    · next htake => exact quiet_takeResults t _ _ _ _ _ htake (quiet_fail _ _)
    · next htake => exact quiet_takeResults t _ _ _ _ _ htake (quiet_nextIteration cfg _ _ _)
  · split
    · next hsettled => exact quiet_goto _ _ trivial (fun _ => Or.inl hsettled)
    · exact quiet_goto _ _ (Or.inl rfl) (by simp)
  · exact hstay

theorem callLlm_state (r : LlmReturn) :
    (callLlm cfg ctx t iteration nudges toolsAvailable r).1.state = ctx.state := by
  cases r with
  | selected first rest reasoning => rfl
  | responded result tokens =>
    simp only [callLlm]
    split
    · rfl
    · split
      · next ctx' hadd => rw [← addTokens_state ctx tokens, hadd]
      · next ctx' error hadd => rw [← addTokens_state ctx tokens, hadd]
  | rateLimited =>
    simp only [callLlm]
    split <;> rfl
  | failed error => rfl

theorem advance_state :
    (Machine.advance cfg input ctx t).1.state = ctx.state := by
  unfold Machine.advance
  split
  case h_9 => exact callLlm_state cfg ctx t _ _ _ _
  all_goals first
    | rfl
    | (simp only; split <;> rfl)
    | (split <;> rfl)

/-- The five kinds of steps of the worker. -/
theorem work_cases :
    (m.task.pc = .waiting ∧ m.work cfg now input = m.receiveStart cfg) ∨
    (∃ index action rest, m.task.pc = .planSignals index (action::rest) ∧
      m.work cfg now input = m.drainPlan cfg index action rest) ∨
    (∃ iteration nudges stopRequested firstUserMessage,
      m.task.pc = .signals iteration nudges stopRequested firstUserMessage ∧
      m.work cfg now input = m.drainSignals iteration nudges stopRequested firstUserMessage) ∨
    (∃ target reason after, m.task.pc = .report target reason after ∧
      m.work cfg now input = m.reportOutcome cfg now target reason after) ∨
    (Internal m.task.pc ∧
      m.work cfg now input =
        { m with
          ctx := (Machine.advance cfg input m.ctx m.task).1
          task := (Machine.advance cfg input m.ctx m.task).2 }) := by
  unfold Machine.work
  split
  · next hpc => exact Or.inl ⟨hpc, rfl⟩
  · next index action rest hpc => exact Or.inr (Or.inl ⟨index, action, rest, hpc, rfl⟩)
  · next iteration nudges stopRequested firstUserMessage hpc =>
    exact Or.inr (Or.inr (Or.inl ⟨iteration, nudges, stopRequested, firstUserMessage, hpc, rfl⟩))
  · next target reason after hpc =>
    exact Or.inr (Or.inr (Or.inr (Or.inl ⟨target, reason, after, hpc, rfl⟩)))
  · next hwait hplan hsignals hreport =>
    refine Or.inr (Or.inr (Or.inr (Or.inr ⟨?_, rfl⟩)))
    cases hpc : m.task.pc with
    | waiting => exact (hwait hpc).elim
    | signals iteration nudges stopRequested firstUserMessage =>
      exact (hsignals iteration nudges stopRequested firstUserMessage hpc).elim
    | report target reason after => exact (hreport target reason after hpc).elim
    | _ => trivial

/-- The worker leaves everything alone that belongs to the scheduler. -/
theorem work_frame :
    (m.work cfg now input).accepted = m.accepted ∧ (m.work cfg now input).sent = m.sent ∧
    (m.work cfg now input).stop = m.stop ∧ (m.work cfg now input).registered = m.registered ∧
    (m.work cfg now input).abortRequested = m.abortRequested := by
  unfold Machine.work
  split
  · unfold Machine.receiveStart
    split
    · split <;> exact ⟨rfl, rfl, rfl, rfl, rfl⟩
    · exact ⟨rfl, rfl, rfl, rfl, rfl⟩
    · exact ⟨rfl, rfl, rfl, rfl, rfl⟩
  · unfold Machine.drainPlan
    split <;> exact ⟨rfl, rfl, rfl, rfl, rfl⟩
  · unfold Machine.drainSignals
    split
    · exact ⟨rfl, rfl, rfl, rfl, rfl⟩
    · exact ⟨rfl, rfl, rfl, rfl, rfl⟩
    · exact ⟨rfl, rfl, rfl, rfl, rfl⟩
    · split
      · exact ⟨rfl, rfl, rfl, rfl, rfl⟩
      · split <;> exact ⟨rfl, rfl, rfl, rfl, rfl⟩
  · unfold Machine.reportOutcome
    split <;> exact ⟨rfl, rfl, rfl, rfl, rfl⟩
  · exact ⟨rfl, rfl, rfl, rfl, rfl⟩

inductive Outside (m : Machine) : Machine → Prop where
  | stay : Outside m m
  | timeout (htimed : Machine.timed m.task.pc = true) :
      Outside m { m with task := m.task.goto (.report .stuck "Execution timeout" .finish) }
  | drop (habort : m.abortRequested = true) (hyields : Machine.yields m.task.pc = true) :
      Outside m { m with task := m.task.goto .finished }
  | pend (sends : List String) : Outside m { m with sends := sends }
  | deliver (sends : List String) (content : String) :
      Outside m
        { m with
          sends := sends
          queue := m.queue++[.userMessage content]
          accepted := m.accepted++[content]
          sent := m.sent+1 }
  | ping : Outside m { m with queue := m.queue++[.ping], sent := m.sent+1 }
  | reap (hfinished : m.task.pc = .finished) : Outside m { m with registered := false }
  | callStop (hregistered : m.registered = true) :
      Outside m { m with registered := false, stop := .sending }
  | skipStop (hphase : m.stop = .sending) : Outside m { m with stop := .sleeping }
  | sendStop (hphase : m.stop = .sending) :
      Outside m { m with queue := m.queue++[.stop], sent := m.sent+1, stop := .sleeping }
  | abort (hphase : m.stop = .sleeping) (requested : Bool) :
      Outside m { m with stop := .cancelling, abortRequested := requested }
  | cancel (hphase : m.stop = .cancelling) (ctx : JobContext)
      (hstate : ctx.state =
        if m.ctx.state.canTransitionTo .cancelled then .cancelled else m.ctx.state) :
      Outside m { m with ctx := ctx, persisted := m.persisted++[.cancelled], stop := .done }

theorem cancelJob_outside : Outside m (m.cancelJob now) := by
  unfold Machine.cancelJob
  split
  · next hphase =>
    split
    · next ctx hctx =>
      obtain ⟨hstate, hcan⟩ := transitionTo_state m.ctx ctx now .cancelled _ hctx
      exact .cancel hphase ctx (by rw [hstate, if_pos hcan])
    · next text htext =>
      refine .cancel hphase m.ctx ?_
      by_cases hcan : m.ctx.state.canTransitionTo .cancelled = true
      · obtain ⟨ctx, hctx, -⟩ := transitionTo_permitted m.ctx now .cancelled
          (some "Stopped by scheduler") hcan
        simp [hctx] at htext
      · rw [if_neg hcan]
  · exact .stay

theorem outside_step (h : ∀ now input, l ≠ .work now input) :
    Outside m (step cfg l m) := by
  cases l with
  | work now input => exact (h now input rfl).elim
  | timeout =>
    simp only [step, Machine.timeout]
    split
    · next htimed => exact .timeout htimed
    · exact .stay
  | dropTask =>
    simp only [step, Machine.dropTask]
    split
    · next hdrop =>
      simp only [Bool.and_eq_true] at hdrop
      exact .drop hdrop.1 hdrop.2
    · exact .stay
  | sendMessage content =>
    simp only [step, Machine.sendMessage]
    split
    · exact .pend _
    · exact .stay
  | deliver index =>
    simp only [step, Machine.deliver]
    split
    · exact .stay
    · split
      · exact .pend _
      · split
        · exact .deliver _ _
        · exact .stay
  | ping =>
    simp only [step, Machine.ping]
    split
    · exact .stay
    · split
      · exact .ping
      · exact .stay
  | reap =>
    simp only [step, Machine.reap]
    split
    · next hfinished => exact .reap hfinished
    · exact .stay
  | callStop =>
    simp only [step, Machine.callStop]
    split
    · next hregistered => exact .callStop hregistered
    · exact .stay
  | sendStop =>
    simp only [step, Machine.sendStop]
    split
    · next hphase =>
      split
      · exact .skipStop hphase
      · split
        · exact .sendStop hphase
        · exact .stay
    · exact .stay
  | abortTask =>
    simp only [step, Machine.abortTask]
    split
    · next hphase => exact .abort hphase _
    · exact .stay
  | cancelJob now => exact cancelJob_outside now m

/-- A step from outside only appends to the channel, and moves the task only
where it waits. -/
theorem outside_channel (m m' : Machine) (h : Outside m m') :
    (∃ added, m'.queue = m.queue++added ∧ m'.sent = m.sent+added.length ∧
      m'.accepted = m.accepted++followUpTexts added) ∧
    (m'.task = m.task ∨
      Machine.yields m.task.pc = true ∧ ∃ pc, Rested pc ∧ m'.task = m.task.goto pc) := by
  have hsame : ∃ added, m.queue = m.queue++added ∧ m.sent = m.sent+added.length ∧
      m.accepted = m.accepted++followUpTexts added := ⟨[], by simp [followUpTexts]⟩
  cases h with
  | timeout htimed =>
    exact ⟨hsame, Or.inr ⟨timed_yields _ htimed, .report .stuck "Execution timeout" .finish,
      Or.inr (Or.inr rfl), rfl⟩⟩
  | drop habort hyields => exact ⟨hsame, Or.inr ⟨hyields, .finished, trivial, rfl⟩⟩
  | deliver sends content => exact ⟨⟨[.userMessage content], rfl, rfl, rfl⟩, Or.inl rfl⟩
  | ping => exact ⟨⟨[.ping], rfl, rfl, by simp [followUpTexts]⟩, Or.inl rfl⟩
  | sendStop hphase => exact ⟨⟨[.stop], rfl, rfl, by simp [followUpTexts]⟩, Or.inl rfl⟩
  | _ => exact ⟨hsame, Or.inl rfl⟩

theorem work_stopTaken (h : m.task.stopTaken = true) :
    (m.work cfg now input).task.stopTaken = true := by
  obtain ⟨-, hstep⟩ | ⟨index, action, rest, -, hstep⟩ |
    ⟨iteration, nudges, stopRequested, firstUserMessage, -, hstep⟩ |
    ⟨target, reason, after, -, hstep⟩ | ⟨hinternal, hstep⟩ := work_cases cfg now input m
  · rw [hstep]
    unfold Machine.receiveStart
    split
    · split <;> exact h
    · rfl
    · exact (quiet_begin cfg m.task).stopTaken_eq.trans h
  · rw [hstep]
    unfold Machine.drainPlan
    split
    · exact h
    · rfl
    · exact h
    · exact h
  · rw [hstep]
    unfold Machine.drainSignals
    split
    · rfl
    · exact h
    · exact h
    · split
      · exact h
      · split <;> exact h
  · rw [hstep]
    unfold Machine.reportOutcome
    split
    · exact (quiet_afterReport cfg m.task after _).stopTaken_eq.trans h
    · exact (quiet_afterReport cfg m.task after _).stopTaken_eq.trans h
  · rw [hstep]
    exact (quiet_advance cfg input m.ctx m.task hinternal).stopTaken_eq.trans h

theorem step_stopTaken (h : m.task.stopTaken = true) :
    (step cfg l m).task.stopTaken = true := by
  by_cases hl : ∀ now input, l ≠ .work now input
  · obtain ⟨-, htask | ⟨-, pc, -, htask⟩⟩ := outside_channel m _ (outside_step cfg l m hl)
    · rw [htask]
      exact h
    · rw [htask]
      exact h
  · push Not at hl
    obtain ⟨now, input, rfl⟩ := hl
    exact work_stopTaken cfg now input m h

/-- The worker changes the state of the job, and persists it, by a report and
by nothing else. -/
theorem work_status :
    ((m.work cfg now input).ctx.state = m.ctx.state ∧
      (m.work cfg now input).persisted = m.persisted) ∨
    (∃ target reason after, m.task.pc = .report target reason after ∧
      m.ctx.state.canTransitionTo target = true ∧ (m.work cfg now input).ctx.state = target ∧
      (m.work cfg now input).persisted = m.persisted++[target]) := by
  obtain ⟨-, hstep⟩ | ⟨index, action, rest, -, hstep⟩ |
    ⟨iteration, nudges, stopRequested, firstUserMessage, -, hstep⟩ |
    ⟨target, reason, after, hpc, hstep⟩ | ⟨-, hstep⟩ := work_cases cfg now input m
  · left
    simp only [hstep, Machine.receiveStart]
    split
    · split <;> exact ⟨rfl, rfl⟩
    · exact ⟨rfl, rfl⟩
    · exact ⟨rfl, rfl⟩
  · left
    simp only [hstep, Machine.drainPlan]
    split <;> exact ⟨rfl, rfl⟩
  · left
    simp only [hstep, Machine.drainSignals]
    split
    · exact ⟨rfl, rfl⟩
    · exact ⟨rfl, rfl⟩
    · exact ⟨rfl, rfl⟩
    · split
      · exact ⟨rfl, rfl⟩
      · split <;> exact ⟨rfl, rfl⟩
  · simp only [hstep, Machine.reportOutcome]
    split
    · next ctx hctx =>
      obtain ⟨htarget, hcan⟩ := transitionTo_state m.ctx ctx now target (some reason) hctx
      exact Or.inr ⟨target, reason, after, hpc, hcan, htarget, rfl⟩
    · exact Or.inl ⟨rfl, rfl⟩
  · left
    simp only [hstep]
    exact ⟨advance_state cfg input m.ctx m.task, trivial⟩

structure Sound (m : Machine) : Prop where
  start : m.task.pc = .waiting → m.queue.head? = some .start
  stop : ∀ iteration nudges firstUserMessage,
    m.task.pc = .signals iteration nudges true firstUserMessage → m.task.stopTaken = true
  outcome : ∀ target reason after, m.task.pc = .report target reason after →
    target = .completed ∨ target = .failed ∨ target = .stuck

theorem sound_rested (h : Rested m.task.pc) : Sound m := by
  refine ⟨fun hpc => (rested_not_waiting m.task.pc h hpc).elim, ?_, ?_⟩
  · intro iteration nudges firstUserMessage hpc
    rw [hpc] at h
    exact absurd h.1 (by simp)
  · intro target reason after hpc
    rw [hpc] at h
    exact h

theorem receiveStart_start (h : m.queue.head? = some .start) :
    ∃ queue, m.queue = .start::queue ∧
      m.receiveStart cfg = { m with task := m.task.begin cfg, queue := queue } := by
  cases hq : m.queue with
  | nil => simp [hq] at h
  | cons first queue =>
    have hfirst : first = .start := by simpa [hq] using h
    refine ⟨queue, by rw [hfirst], ?_⟩
    simp [Machine.receiveStart, hq, hfirst]

theorem drainPlan_sound (index : ℕ) (action : PlannedAction) (rest : List PlannedAction)
    (hpc : m.task.pc = .planSignals index (action::rest)) :
    Sound (m.drainPlan cfg index action rest) := by
  apply sound_rested
  unfold Machine.drainPlan
  split
  · exact (quiet_enterAction cfg m.task index action rest).rested
  · trivial
  · trivial
  · show Rested m.task.pc
    rw [hpc]
    trivial

theorem drainSignals_sound (stopRequested : Bool) (firstUserMessage : Option String)
    (hpc : m.task.pc = .signals iteration nudges stopRequested firstUserMessage) (h : Sound m) :
    Sound (m.drainSignals iteration nudges stopRequested firstUserMessage) := by
  unfold Machine.drainSignals
  split
  · exact ⟨by simp [Task.goto], fun _ _ _ _ => rfl, by simp [Task.goto]⟩
  · refine ⟨by simp [Task.goto], fun i n f hsignals => ?_, by simp [Task.goto]⟩
    simp only [Task.goto, Pc.signals.injEq] at hsignals
    apply h.stop iteration nudges firstUserMessage
    rw [hpc, hsignals.2.2.1]
  · exact ⟨by simp [hpc], h.stop, h.outcome⟩
  · split
    · exact sound_rested _ trivial
    · split
      · exact sound_rested _ trivial
      · exact sound_rested _ trivial

theorem work_sound (h : Sound m) :
    Sound (m.work cfg now input) := by
  obtain ⟨hpc, hstep⟩ | ⟨index, action, rest, hpc, hstep⟩ |
    ⟨iteration, nudges, stopRequested, firstUserMessage, hpc, hstep⟩ |
    ⟨target, reason, after, hpc, hstep⟩ | ⟨hinternal, hstep⟩ := work_cases cfg now input m
  · obtain ⟨queue, hqueue, hreceive⟩ := receiveStart_start cfg m (h.start hpc)
    rw [hstep, hreceive]
    exact sound_rested _ (quiet_begin cfg m.task).rested
  · rw [hstep]
    exact drainPlan_sound cfg m index action rest hpc
  · rw [hstep]
    exact drainSignals_sound m iteration nudges stopRequested firstUserMessage hpc h
  · rw [hstep]
    apply sound_rested
    unfold Machine.reportOutcome
    split
    · exact (quiet_afterReport cfg m.task after _).rested
    · exact (quiet_afterReport cfg m.task after _).rested
  · rw [hstep]
    exact sound_rested _ (quiet_advance cfg input m.ctx m.task hinternal).rested

theorem outside_sound (hl : ∀ now input, l ≠ .work now input) (h : Sound m) :
    Sound (step cfg l m) := by
  obtain ⟨⟨added, hqueue, -, -⟩, htask⟩ := outside_channel m _ (outside_step cfg l m hl)
  rcases htask with htask | ⟨-, pc, hrested, htask⟩
  · constructor
    · intro hpc
      rw [htask] at hpc
      rw [hqueue, List.head?_append, h.start hpc]
      rfl
    · rw [htask]
      exact h.stop
    · rw [htask]
      exact h.outcome
  · apply sound_rested
    rw [htask]
    exact hrested

theorem step_sound (h : Sound m) :
    Sound (step cfg l m) := by
  cases l with
  | work now input => exact work_sound cfg now input m h
  | _ => exact outside_sound cfg _ m (by simp) h

theorem scheduled_sound : Sound (scheduled ctx) :=
  ⟨fun _ => rfl, by simp [scheduled], by simp [scheduled]⟩

end IronClaw.Worker
