import IronClaw.Lib.Runs
import IronClaw.WorkerFrame

/-!
# Follow-up messages to a running job

Three places take messages off the channel of a worker: the wait for the
start signal, the drain before a planned action and the drain before a loop
iteration. The last one empties the channel and returns one message at most.
A follow-up message is accounted for as long as it is in the channel, held by
a drain, or in the reasoning context.
-/

set_option autoImplicit false

namespace IronClaw.FollowUps
open IronClaw.Worker IronClaw.JobLifecycle IronClaw.LlmMessage Lib.Runs

def onTheWay (m : Machine) : List String :=
  injected m.task.messages++held m.task.pc++followUpTexts m.queue

/-- A drain of `check_signals` that holds a follow-up message meets another
one. -/
def dropsMessage : Label → Machine → Bool
  | .work _ _, m =>
    match m.task.pc, m.queue with
    | .signals _ _ _ (some _), .userMessage _::_ => true
    | _, _ => false
  | _, _ => false

def OnePerDrain (l : Label) (m : Machine) : Prop := dropsMessage l m = false

inductive Flow (m m' : Machine) : Bool → Prop where
  | carry (texts : List String) (haccepted : m'.accepted = m.accepted++texts)
      (hway : onTheWay m' = onTheWay m++texts) : Flow m m' false
  | stopped (haccepted : m'.accepted = m.accepted)
      (hway : (onTheWay m').length ≤ (onTheWay m).length) (hstop : m'.task.stopTaken = true) :
      Flow m m' false
  | lose (haccepted : m'.accepted = m.accepted)
      (hway : (onTheWay m').length < (onTheWay m).length) : Flow m m' true

theorem Flow.keep (m m' : Machine) (haccepted : m'.accepted = m.accepted)
    (hway : onTheWay m' = onTheWay m) : Flow m m' false :=
  .carry [] (by rw [haccepted, List.append_nil]) (by rw [hway, List.append_nil])

theorem flow_quiet {E : Prop} (m m' : Machine) (hq : Quiet E m.task m'.task)
    (hheld : held m.task.pc = [])
    (haccepted : m'.accepted = m.accepted) (hqueue : m'.queue = m.queue) : Flow m m' false := by
  refine Flow.keep _ _ haccepted ?_
  simp only [onTheWay, hq.injected_eq, rested_held _ hq.rested, hheld, hqueue]

variable (cfg : Config) (m : Machine) (l : Label) (iteration nudges : ℕ) (stopRequested : Bool)
  (firstUserMessage : Option String)

theorem receiveStart_flow (hpc : m.task.pc = .waiting) (h : Sound m) :
    Flow m (m.receiveStart cfg) false := by
  obtain ⟨queue, hqueue, hstep⟩ := receiveStart_start cfg m (h.start hpc)
  have hq := quiet_begin cfg m.task
  rw [hstep]
  refine Flow.keep _ _ rfl ?_
  simp only [onTheWay, hq.injected_eq, rested_held _ hq.rested, hpc, hqueue]
  rfl

theorem drainPlan_flow (index : ℕ) (action : PlannedAction) (rest : List PlannedAction)
    (hpc : m.task.pc = .planSignals index (action::rest)) :
    Flow m (m.drainPlan cfg index action rest) false := by
  unfold Machine.drainPlan
  split
  · next hqueue =>
    exact flow_quiet m _ (quiet_enterAction cfg m.task index action rest) (by rw [hpc]; rfl) rfl rfl
  · next queue hqueue =>
    refine Flow.keep _ _ rfl ?_
    simp [onTheWay, hqueue, hpc, held, Task.takeStop, Task.goto, followUpTexts]
  · next content queue hqueue =>
    refine Flow.keep _ _ rfl ?_
    simp [onTheWay, hqueue, hpc, held, Task.inject, Task.goto, injected, followUpTexts]
  · next first queue hstop huser hqueue =>
    refine Flow.keep _ _ rfl ?_
    cases first with
    | stop => exact (hstop rfl).elim
    | userMessage content => exact (huser content rfl).elim
    | start => simp [onTheWay, hqueue, followUpTexts]
    | ping => simp [onTheWay, hqueue, followUpTexts]

def followUpNext : List WorkerMessage → Bool
  | .userMessage _::_ => true
  | _ => false

theorem dropsMessage_signals (now : ℤ) (input : Input)
    (hpc : m.task.pc = .signals iteration nudges stopRequested firstUserMessage) :
    dropsMessage (.work now input) m = (followUpNext m.queue && firstUserMessage.isSome) := by
  simp only [dropsMessage, hpc]
  cases firstUserMessage with
  | none => simp
  | some content => cases m.queue with
    | nil => rfl
    | cons first queue => cases first <;> rfl

theorem drainSignals_flow
    (hpc : m.task.pc = .signals iteration nudges stopRequested firstUserMessage) (h : Sound m) :
    Flow m (m.drainSignals iteration nudges stopRequested firstUserMessage)
      (followUpNext m.queue && firstUserMessage.isSome) := by
  unfold Machine.drainSignals
  split
  · next queue hqueue =>
    rw [hqueue]
    refine Flow.keep _ _ rfl ?_
    cases firstUserMessage <;>
      simp [onTheWay, hqueue, followUpTexts, Task.goto, Task.takeStop, held, hpc]
  · next content queue hqueue =>
    rw [hqueue]
    cases firstUserMessage with
    | none =>
      refine Flow.keep _ _ rfl ?_
      simp [onTheWay, hqueue, followUpTexts, Task.goto, held, hpc]
    | some other =>
      refine Flow.lose rfl ?_
      simp [onTheWay, hqueue, followUpTexts, Task.goto, held, hpc]
  · next first queue hstop huser hqueue =>
    rw [hqueue]
    cases first with
    | stop => exact (hstop rfl).elim
    | userMessage content => exact (huser content rfl).elim
    | start =>
      refine Flow.keep _ _ rfl ?_
      simp [onTheWay, hqueue, followUpTexts]
    | ping =>
      refine Flow.keep _ _ rfl ?_
      simp [onTheWay, hqueue, followUpTexts]
  · next hqueue =>
    rw [hqueue]
    cases stopRequested with
    | true =>
      refine Flow.stopped rfl ?_ (h.stop iteration nudges firstUserMessage hpc)
      simp [onTheWay, hqueue, Task.goto, held, followUpTexts]
    | false =>
      cases firstUserMessage with
      | none =>
        refine Flow.keep _ _ rfl ?_
        simp [onTheWay, hqueue, Task.goto, Task.check, held, hpc]
      | some content =>
        refine Flow.keep _ _ rfl ?_
        simp [onTheWay, hqueue, Task.enterIteration, Task.inject, Task.check, held, hpc, injected]

theorem reportOutcome_flow (now : ℤ) (target : JobState) (reason : String) (after : After)
    (hpc : m.task.pc = .report target reason after) :
    Flow m (m.reportOutcome cfg now target reason after) false := by
  have hheld : held m.task.pc = [] := by rw [hpc]; rfl
  unfold Machine.reportOutcome
  split
  · exact flow_quiet m _ (quiet_afterReport cfg m.task after _) hheld rfl rfl
  · exact flow_quiet m _ (quiet_afterReport cfg m.task after _) hheld rfl rfl

theorem dropsMessage_other (m : Machine) (h : ∀ iteration nudges stopRequested firstUserMessage,
      m.task.pc ≠ .signals iteration nudges stopRequested firstUserMessage) :
    dropsMessage l m = false := by
  unfold dropsMessage
  split
  · split
    · next hpc _ => exact (h _ _ _ _ hpc).elim
    · rfl
  · rfl

theorem work_flow (now : ℤ) (input : Input) (m : Machine) (h : Sound m) :
    Flow m (m.work cfg now input) (dropsMessage (.work now input) m) := by
  obtain ⟨hpc, hstep⟩ | ⟨index, action, rest, hpc, hstep⟩ |
    ⟨iteration, nudges, stopRequested, firstUserMessage, hpc, hstep⟩ |
    ⟨target, reason, after, hpc, hstep⟩ | ⟨hinternal, hstep⟩ := work_cases cfg now input m
  · rw [hstep, dropsMessage_other _ m (by simp [hpc])]
    exact receiveStart_flow cfg m hpc h
  · rw [hstep, dropsMessage_other _ m (by simp [hpc])]
    exact drainPlan_flow cfg m index action rest hpc
  · rw [hstep, dropsMessage_signals m iteration nudges stopRequested firstUserMessage _ _ hpc]
    exact drainSignals_flow m iteration nudges stopRequested firstUserMessage hpc h
  · rw [hstep, dropsMessage_other _ m (by simp [hpc])]
    exact reportOutcome_flow cfg m now target reason after hpc
  · have hdrops : dropsMessage (.work now input) m = false := by
      apply dropsMessage_other
      intro iteration nudges stopRequested firstUserMessage hpc
      rw [hpc] at hinternal
      exact hinternal
    rw [hstep, hdrops]
    exact flow_quiet m _ (quiet_advance cfg input m.ctx m.task hinternal)
      (rested_held _ (internal_rested _ hinternal)) rfl rfl

theorem outside_flow (m : Machine) (h : ∀ now input, l ≠ .work now input) :
    Flow m (step cfg l m) false := by
  obtain ⟨⟨added, hqueue, -, haccepted⟩, htask⟩ := outside_channel m _ (outside_step cfg l m h)
  apply Flow.carry (followUpTexts added) haccepted
  rcases htask with htask | ⟨hyields, pc, hrested, htask⟩
  · simp [onTheWay, hqueue, htask]
  · simp [onTheWay, hqueue, htask, Task.goto, yields_held _ hyields, rested_held _ hrested]

theorem step_flow (m : Machine) (h : Sound m) :
    Flow m (step cfg l m) (dropsMessage l m) := by
  cases l with
  | work now input => exact work_flow cfg now input m h
  | _ => exact outside_flow cfg _ m (by simp)

def Drained (m : Machine) : Prop := m.queue = [] ∧ held m.task.pc = []

def StaysDrained (m m' : Machine) : Prop :=
  m'.task.checks = m.task.checks ∧ (Drained m → Drained m')

theorem quiet_drained {E : Prop} (m m' : Machine) (hq : Quiet E m.task m'.task)
    (hqueue : m'.queue = m.queue) : StaysDrained m m' :=
  ⟨hq.checks_eq, fun h => ⟨hqueue.trans h.1, rested_held _ hq.rested⟩⟩

theorem receiveStart_drained :
    StaysDrained m (m.receiveStart cfg) := by
  unfold Machine.receiveStart
  split
  · split
    · exact quiet_drained m _ (quiet_goto m.task _ trivial (fun _ => trivial)) rfl
    · exact ⟨rfl, id⟩
  · next hqueue => exact ⟨rfl, fun h => by simp [h.1] at hqueue⟩
  · next hqueue => exact ⟨(quiet_begin cfg m.task).checks_eq, fun h => by simp [h.1] at hqueue⟩

theorem drainPlan_drained (index : ℕ) (action : PlannedAction) (rest : List PlannedAction) :
    StaysDrained m (m.drainPlan cfg index action rest) := by
  unfold Machine.drainPlan
  split
  · exact quiet_drained m _ (quiet_enterAction cfg m.task index action rest) rfl
  · next hqueue => exact ⟨rfl, fun h => by simp [h.1] at hqueue⟩
  · next hqueue => exact ⟨rfl, fun h => by simp [h.1] at hqueue⟩
  · next hqueue => exact ⟨rfl, fun h => by simp [h.1] at hqueue⟩

theorem reportOutcome_drained (now : ℤ) (target : JobState) (reason : String) (after : After) :
    StaysDrained m (m.reportOutcome cfg now target reason after) := by
  unfold Machine.reportOutcome
  split
  · exact quiet_drained m _ (quiet_afterReport cfg m.task after _) rfl
  · exact quiet_drained m _ (quiet_afterReport cfg m.task after _) rfl

theorem drainSignals_checks :
    (m.drainSignals iteration nudges stopRequested firstUserMessage).task.checks = m.task.checks ∨
    m.queue = [] := by
  unfold Machine.drainSignals
  split
  · exact Or.inl rfl
  · exact Or.inl rfl
  · exact Or.inl rfl
  · next hqueue => exact Or.inr hqueue

theorem drainSignals_drained (h : m.queue = []) :
    Drained (m.drainSignals iteration nudges stopRequested firstUserMessage) ∧
    m.task.checks ≤
      (m.drainSignals iteration nudges stopRequested firstUserMessage).task.checks := by
  unfold Machine.drainSignals Drained
  simp only [h]
  split
  · exact ⟨⟨rfl, rfl⟩, Nat.le_refl _⟩
  · split
    · exact ⟨⟨rfl, rfl⟩, Nat.le_succ _⟩
    · exact ⟨⟨rfl, rfl⟩, Nat.le_succ _⟩

/-- An iteration that is counted has emptied the channel, and an empty channel
stays empty until something is sent. -/
theorem work_drained (now : ℤ) (input : Input) (m : Machine) :
    m.task.checks ≤ (m.work cfg now input).task.checks ∧
    (Drained m ∨ m.task.checks < (m.work cfg now input).task.checks →
      Drained (m.work cfg now input)) := by
  have hquiet : ∀ m', StaysDrained m m' →
      m.task.checks ≤ m'.task.checks ∧
        (Drained m ∨ m.task.checks < m'.task.checks → Drained m') := by
    rintro m' ⟨hchecks, hdrained⟩
    exact ⟨by omega, fun h => hdrained (h.resolve_right (by omega))⟩
  obtain ⟨hpc, hstep⟩ | ⟨index, action, rest, hpc, hstep⟩ |
    ⟨iteration, nudges, stopRequested, firstUserMessage, hpc, hstep⟩ |
    ⟨target, reason, after, hpc, hstep⟩ | ⟨hinternal, hstep⟩ := work_cases cfg now input m
  · rw [hstep]
    exact hquiet _ (receiveStart_drained cfg m)
  · rw [hstep]
    exact hquiet _ (drainPlan_drained cfg m index action rest)
  · rw [hstep]
    by_cases hqueue : m.queue = []
    · have hdrained := drainSignals_drained m iteration nudges stopRequested firstUserMessage hqueue
      exact ⟨hdrained.2, fun _ => hdrained.1⟩
    · apply hquiet
      have hchecks := drainSignals_checks m iteration nudges stopRequested firstUserMessage
      exact ⟨hchecks.resolve_right hqueue, fun h => (hqueue h.1).elim⟩
  · rw [hstep]
    exact hquiet _ (reportOutcome_drained cfg m now target reason after)
  · rw [hstep]
    exact hquiet _ (quiet_drained m _ (quiet_advance cfg input m.ctx m.task hinternal) rfl)

theorem step_drained (m : Machine) :
    m.sent ≤ (step cfg l m).sent ∧ m.task.checks ≤ (step cfg l m).task.checks ∧
    ((step cfg l m).sent = m.sent → Drained m ∨ m.task.checks < (step cfg l m).task.checks →
      Drained (step cfg l m)) := by
  by_cases hl : ∀ now input, l ≠ .work now input
  · obtain ⟨⟨added, hqueue, hsent, -⟩, htask⟩ := outside_channel m _ (outside_step cfg l m hl)
    have hchecks : (step cfg l m).task.checks = m.task.checks := by
      rcases htask with htask | ⟨-, pc, -, htask⟩
      · rw [htask]
      · rw [htask]
        rfl
    refine ⟨by omega, by omega, fun hsame h => ?_⟩
    have hnone : added = [] := List.length_eq_zero_iff.mp (by omega)
    have hdrained : Drained m := h.resolve_right (by omega)
    refine ⟨by rw [hqueue, hdrained.1, hnone, List.append_nil], ?_⟩
    rcases htask with htask | ⟨-, pc, hrested, htask⟩
    · rw [htask]
      exact hdrained.2
    · rw [htask]
      exact rested_held pc hrested
  · push Not at hl
    obtain ⟨now, input, rfl⟩ := hl
    have hwork := work_drained cfg now input m
    have hsent : (step cfg (.work now input) m).sent = m.sent := (work_frame cfg now input m).2.1
    exact ⟨by omega, hwork.1, fun _ => hwork.2⟩

theorem run_drained (ls : List Label) (m : Machine) :
    m.sent ≤ (run (step cfg) ls m).sent ∧ m.task.checks ≤ (run (step cfg) ls m).task.checks ∧
    ((run (step cfg) ls m).sent = m.sent →
      Drained m ∨ m.task.checks < (run (step cfg) ls m).task.checks →
      Drained (run (step cfg) ls m)) := by
  induction ls generalizing m with
  | nil =>
    refine ⟨Nat.le_refl _, Nat.le_refl _, fun _ h => ?_⟩
    exact h.resolve_right (Nat.lt_irrefl _)
  | cons l ls ih =>
    obtain ⟨hsent, hchecks, hstep⟩ := step_drained cfg l m
    obtain ⟨hsent', hchecks', hrun⟩ := ih (step cfg l m)
    simp only [run]
    refine ⟨by omega, by omega, fun hsame h => hrun (by omega) ?_⟩
    by_cases hnow : Drained m ∨ m.task.checks < (step cfg l m).task.checks
    · exact Or.inl (hstep (by omega) hnow)
    · push Not at hnow
      exact Or.inr (by have := h.resolve_left hnow.1; omega)

def Accounted (m : Machine) : Prop := m.task.stopTaken = true ∨ m.accepted = onTheWay m

theorem step_accounted (m : Machine) (h : Sound m ∧ Accounted m) (hone : OnePerDrain l m) :
    Sound (step cfg l m) ∧ Accounted (step cfg l m) := by
  refine ⟨step_sound cfg l m h.1, ?_⟩
  rcases h.2 with hstop | hway
  · exact Or.inl (step_stopTaken cfg l m hstop)
  · have hflow := step_flow cfg l m h.1
    rw [hone] at hflow
    cases hflow with
    | carry texts haccepted hcarried => exact Or.inr (by rw [haccepted, hcarried, hway])
    | stopped haccepted hcarried hstop => exact Or.inl hstop

def Lost (m : Machine) : Prop := (onTheWay m).length < m.accepted.length

def Covered (m : Machine) : Prop := (onTheWay m).length ≤ m.accepted.length

theorem step_lost (m : Machine) (h : Sound m) (hlost : Lost m) :
    Lost (step cfg l m) := by
  have hflow := step_flow cfg l m h
  unfold Lost at hlost ⊢
  generalize dropsMessage l m = drops at hflow
  cases hflow with
  | carry texts haccepted hway =>
    rw [haccepted, hway, List.length_append, List.length_append]
    omega
  | stopped haccepted hway hstop =>
    rw [haccepted]
    omega
  | lose haccepted hway =>
    rw [haccepted]
    omega

theorem step_covered (m : Machine) (h : Sound m) (hcov : Covered m) :
    Covered (step cfg l m) ∧ (dropsMessage l m = true → Lost (step cfg l m)) := by
  have hflow := step_flow cfg l m h
  unfold Lost
  unfold Covered at hcov ⊢
  generalize dropsMessage l m = drops at hflow
  cases hflow with
  | carry texts haccepted hway =>
    rw [haccepted, hway, List.length_append, List.length_append]
    exact ⟨by omega, by simp⟩
  | stopped haccepted hway hstop =>
    rw [haccepted]
    exact ⟨by omega, by simp⟩
  | lose haccepted hway =>
    rw [haccepted]
    exact ⟨by omega, fun _ => by omega⟩

/-- A message that was dropped once is missing for the rest of the run. -/
theorem run_lost (ls : List Label) (m : Machine) (h : Sound m) (hcov : Covered m)
    (hdrop : ¬ Along (step cfg) OnePerDrain ls m) : Lost (run (step cfg) ls m) := by
  induction ls generalizing m with
  | nil => exact (hdrop trivial).elim
  | cons l ls ih =>
    have hsound := step_sound cfg l m h
    obtain ⟨hcov', hlost⟩ := step_covered cfg l m h hcov
    by_cases hone : OnePerDrain l m
    · exact ih _ hsound hcov' fun hrest => hdrop ⟨hone, hrest⟩
    · have hnow : Lost (step cfg l m) := hlost (by simpa [OnePerDrain] using hone)
      have hinv := run_invariant (step cfg) (fun m => Sound m ∧ Lost m)
        (fun l m h => ⟨step_sound cfg l m h.1, step_lost cfg l m h.1 h.2⟩) ls _ ⟨hsound, hnow⟩
      exact hinv.2

theorem followUpTexts_length (ms : List WorkerMessage) : (followUpTexts ms).length ≤ ms.length := by
  induction ms with
  | nil => exact Nat.le_refl _
  | cons m ms ih => cases m <;> simp only [followUpTexts, List.length_cons] <;> omega

theorem step_accepted (m : Machine) (h : m.accepted.length ≤ m.sent) :
    (step cfg l m).accepted.length ≤ (step cfg l m).sent := by
  by_cases hl : ∀ now input, l ≠ .work now input
  · obtain ⟨⟨added, -, hsent, haccepted⟩, -⟩ := outside_channel m _ (outside_step cfg l m hl)
    have htexts := followUpTexts_length added
    rw [haccepted, hsent, List.length_append]
    omega
  · push Not at hl
    obtain ⟨now, input, rfl⟩ := hl
    have hframe := work_frame cfg now input m
    simpa only [step, hframe.1, hframe.2.1] using h

/-- If no stop message is received and, after the last message was sent, the
loop runs at least as many iterations as messages were sent, then the
accepted follow-up messages are in the reasoning context, each once and in
order, if and only if no drain of `check_signals` met more than one. -/
theorem follow_ups_kept_iff (ctx : JobContext) (sending quiet : List Label)
    (hstop : (run (step cfg) (sending++quiet) (scheduled ctx)).task.stopTaken = false)
    (hlast : (run (step cfg) (sending++quiet) (scheduled ctx)).sent =
      (run (step cfg) sending (scheduled ctx)).sent)
    (hiterations : (run (step cfg) sending (scheduled ctx)).task.checks+
        (run (step cfg) sending (scheduled ctx)).sent ≤
      (run (step cfg) (sending++quiet) (scheduled ctx)).task.checks) :
    injected (run (step cfg) (sending++quiet) (scheduled ctx)).task.messages =
        (run (step cfg) (sending++quiet) (scheduled ctx)).accepted ↔
      Along (step cfg) OnePerDrain (sending++quiet) (scheduled ctx) := by
  constructor
  · intro hkept
    by_contra hdrop
    have hlost := run_lost cfg (sending++quiet) (scheduled ctx) (scheduled_sound ctx)
      (Nat.le_refl _) hdrop
    unfold Lost onTheWay at hlost
    rw [← hkept, List.length_append, List.length_append] at hlost
    omega
  · intro hone
    have hinv := guarded_invariant (step cfg) OnePerDrain (fun m => Sound m ∧ Accounted m)
      (fun l m h hone => step_accounted cfg l m h hone) (sending++quiet) (scheduled ctx) hone
      ⟨scheduled_sound ctx, Or.inr rfl⟩
    have hway := hinv.2.resolve_left (by simp [hstop])
    have hsent := run_invariant (step cfg) (fun m => m.accepted.length ≤ m.sent)
      (step_accepted cfg) (sending++quiet) (scheduled ctx) (Nat.le_refl _)
    by_cases hnone : (run (step cfg) sending (scheduled ctx)).sent = 0
    · have hempty : (run (step cfg) (sending++quiet) (scheduled ctx)).accepted = [] :=
        List.length_eq_zero_iff.mp (by omega)
      rw [hempty] at hway ⊢
      have hparts := List.append_eq_nil_iff.mp hway.symm
      exact (List.append_eq_nil_iff.mp hparts.1).1
    · have hdrained : Drained (run (step cfg) (sending++quiet) (scheduled ctx)) := by
        rw [run_append] at hlast hiterations ⊢
        exact (run_drained cfg quiet _).2.2 hlast (Or.inr (by omega))
      rw [hway, onTheWay, hdrained.1, hdrained.2]
      simp [followUpTexts]

def oneMessage : List Label := [tick, .sendMessage "skip spam", .deliver 0]

theorem single_follow_up_kept :
    injected
        (run (step plainConfig) (oneMessage++[tick, tick]) (scheduled freshContext)).task.messages =
      (run (step plainConfig) (oneMessage++[tick, tick]) (scheduled freshContext)).accepted :=
  (follow_ups_kept_iff plainConfig freshContext oneMessage [tick, tick] (by decide) (by decide)
    (by decide)).mpr ⟨rfl, rfl, rfl, rfl, rfl, trivial⟩

def twoMessages : List Label :=
  [tick, .sendMessage "skip spam", .sendMessage "keep receipts", .deliver 0, .deliver 0]

def twoIterations : List Label :=
  [tick, tick, tick, .work 0 (.llm true (.responded (.text "working on it") 0)), tick]

/-- Two follow-up messages arrive before one drain. Both are accepted, and
after two more iterations the second one is nowhere. -/
theorem second_follow_up_lost :
    let sent := run (step plainConfig) twoMessages (scheduled freshContext)
    let finished := run (step plainConfig) twoIterations sent
    finished.accepted = ["skip spam", "keep receipts"] ∧ finished.task.stopTaken = false ∧
    finished.sent = sent.sent ∧ sent.task.checks+sent.sent ≤ finished.task.checks ∧
    finished.queue = [] ∧ injected finished.task.messages = ["skip spam"] := by
  decide

end IronClaw.FollowUps
