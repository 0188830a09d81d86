import IronClaw.ChatLoop
import IronClaw.ThreadHistory

/-!
# The state of a thread and the request it holds

A thread says twice that it waits for an approval: in its state and by the
request it holds. `await_approval` and `clear_pending_approval` write both;
interrupting, undoing, clearing and restoring write the state alone. The
commands of a user and the operations of a thread are the labels of one
machine, and its runs keep the two fields together exactly when none of those
meets a request.
-/

set_option autoImplicit false

namespace IronClaw.ApprovalState
open IronClaw.JsonValue IronClaw.LlmMessage IronClaw.SessionThread IronClaw.Submission
open IronClaw.Dispatcher IronClaw.Approval IronClaw.ChatLoop IronClaw.UndoHistory Lib.Runs
open IronClaw.ThreadHistory (processUndo processRedo)

def takePendingApproval (t : Thread) : Thread := { t with pendingApproval := none }

def resumeThread (t : Thread) : Thread :=
  if t.state = .interrupted then { t with state := .idle } else t

section Commands

variable (render : Value → String) (setting : Setting)

def processResume (checkpointId : Uuid) (sess : Session) (mgr : UndoManager) :
    Except Error SubmissionResult × Session × UndoManager :=
  match restore mgr checkpointId with
  | (some checkpoint, mgr) =>
    match sess.threads setting.threadId with
    | none => (.error (.jobNotFound setting.threadId), sess, mgr)
    | some thread =>
      (.ok (.okWithMessage ("Resumed from checkpoint: " ++ checkpoint.description)),
        sess.setThread setting.threadId (thread.restoreFromMessages checkpoint.messages), mgr)
  | (none, mgr) => (.ok (.error "Checkpoint not found."), sess, mgr)

def processInterrupt (sess : Session) : Except Error SubmissionResult × Session :=
  match sess.threads setting.threadId with
  | none => (.error (.jobNotFound setting.threadId), sess)
  | some thread =>
    if thread.state = .processing ∨ thread.state = .awaitingApproval then
      (.ok (.okWithMessage "Interrupted."), sess.setThread setting.threadId thread.interrupt)
    else (.ok (.okWithMessage "Nothing to interrupt."), sess)

def processClear (sess : Session) (mgr : UndoManager) :
    Except Error SubmissionResult × Session × UndoManager :=
  match sess.threads setting.threadId with
  | none => (.error (.jobNotFound setting.threadId), sess, mgr)
  | some thread =>
    (.ok (.okWithMessage "Thread cleared."),
      sess.setThread setting.threadId (TurnNumbers.clearThread thread), clear mgr)

def checkpointInput (input : Input) (checkpointId : Uuid) (sess : Session) (mgr : UndoManager) :
    UndoManager :=
  match sess.threads setting.threadId with
  | none => mgr
  | some thread =>
    match refuse input thread with
    | some _ => mgr
    | none =>
      let compacted := compactThread input thread
      checkpoint mgr checkpointId compacted.turnNumber (compacted.messages render)
        ("Before turn " ++ toString compacted.turnNumber)

end Commands

inductive Op where
  | startTurn (userInput : String)
  | awaitApproval (pending : PendingApproval)
  | takePendingApproval
  | clearPendingApproval
  | interrupt
  | resume
  | restoreFromMessages (messages : List ChatMessage)
  | processUserInput (input : Input) (checkpointId : Uuid)
  | processApproval (next : Continuation)
  | processInterrupt
  | processUndo (currentId : Uuid)
  | processRedo (currentId : Uuid)
  | processResume (checkpointId : Uuid)
  | processClear

structure Machine where
  session : Session
  undo : UndoManager
  cancelled : Bool

section Steps

variable (render : Value → String) (setting : Setting)

def Machine.thread (m : Machine) : Option Thread := m.session.threads setting.threadId

def onThread (m : Machine) (f : Thread → Thread) : Session × UndoManager :=
  (m.session.modifyThread setting.threadId f, m.undo)

def perform (op : Op) (m : Machine) : Session × UndoManager :=
  match op with
  | .startTurn userInput => onThread setting m (fun t => t.startTurn userInput)
  | .awaitApproval pending => onThread setting m (fun t => t.awaitApproval pending)
  | .takePendingApproval => onThread setting m ApprovalState.takePendingApproval
  | .clearPendingApproval => onThread setting m Thread.clearPendingApproval
  | .interrupt => onThread setting m Thread.interrupt
  | .resume => onThread setting m resumeThread
  | .restoreFromMessages messages => onThread setting m (fun t => t.restoreFromMessages messages)
  | .processUserInput input checkpointId =>
    ((ChatLoop.processUserInput render setting input m.session).session,
      checkpointInput render setting input checkpointId m.session m.undo)
  | .processApproval next => ((processApprovalTurn setting next m.session).session, m.undo)
  | .processInterrupt => ((ApprovalState.processInterrupt setting m.session).2, m.undo)
  | .processUndo currentId =>
    (ThreadHistory.processUndo render setting.threadId currentId m.session m.undo).2
  | .processRedo currentId =>
    (ThreadHistory.processRedo render setting.threadId currentId m.session m.undo).2
  | .processResume checkpointId =>
    (ApprovalState.processResume setting checkpointId m.session m.undo).2
  | .processClear => (ApprovalState.processClear setting m.session m.undo).2

def holdsRequest (m : Machine) : Bool :=
  (m.thread setting).any (fun t => t.pendingApproval.isSome)

def leaves (op : Op) (m : Machine) : Bool :=
  match op with
  | .interrupt => true
  | .restoreFromMessages _ => true
  | .processInterrupt =>
    (m.thread setting).any (fun t => t.state = .processing || t.state = .awaitingApproval)
  | .processUndo _ => canUndo m.undo
  | .processRedo _ => canRedo m.undo
  | .processResume checkpointId => m.undo.undoStack.any (fun c => c.id = checkpointId)
  | .processClear => true
  | _ => false

def step (op : Op) (m : Machine) : Machine :=
  let after := perform render setting op m
  let cancels := leaves setting op m && holdsRequest setting m
  ⟨after.1, after.2, cancels || (m.cancelled && !waits after.1 setting.threadId)⟩

end Steps

def Matched (t : Thread) : Prop := t.pendingApproval.isSome = true ↔ t.state = .awaitingApproval

theorem matched_free (t : Thread) (h : Free t) : Matched t := by
  simp [Matched, h.1, h.2]

theorem matched_waiting (t : Thread) (p : PendingApproval) (h : WaitsFor t p) : Matched t := by
  simp [Matched, h.1, h.2]

theorem matched_cases (t : Thread) (h : Matched t) : Free t ∨ ∃ p, WaitsFor t p := by
  cases hp : t.pendingApproval with
  | none =>
    left
    refine ⟨fun hw => ?_, hp⟩
    have := h.mpr hw
    simp [hp] at this
  | some p => exact Or.inr ⟨p, h.mp (by simp [hp]), hp⟩

section Effects

variable (render : Value → String) (setting : Setting)

theorem undo_found (mgr : UndoManager) (id : Uuid) (n : ℕ) (ms : List ChatMessage)
    (h : canUndo mgr = true) : ∃ c mgr', undo mgr id n ms = (some c, mgr') := by
  have hne : mgr.undoStack ≠ [] := by simpa [canUndo] using h
  simp [undo, hne, List.getLast?_eq_some_getLast hne]

theorem redo_found (mgr : UndoManager) (id : Uuid) (n : ℕ) (ms : List ChatMessage)
    (h : canRedo mgr = true) : ∃ c mgr', redo mgr id n ms = (some c, mgr') := by
  have hne : mgr.redoStack ≠ [] := by simpa [canRedo] using h
  simp [redo, hne, List.getLast?_eq_some_getLast hne]

theorem restore_found (mgr : UndoManager) (id : Uuid) :
    (restore mgr id).1.isSome = mgr.undoStack.any (fun c => c.id = id) := by
  rw [← List.findIdx?_isSome]
  unfold restore
  split
  · next hnone => simp [hnone]
  · next pos hpos =>
    have hlt := (List.findIdx?_eq_some_iff_getElem.mp hpos).1
    have hne : mgr.undoStack.take (pos+1) ≠ [] := by
      intro hnil
      have := congrArg List.length hnil
      simp only [List.length_take, List.length_nil] at this
      omega
    simp [hpos, List.getLast?_eq_some_getLast hne]

/-- The operations that leave the wait leave the request where it is. -/
theorem leaves_effect (op : Op) (m : Machine) (th : Thread) (hth : m.thread setting = some th)
    (h : leaves setting op m = true) :
    ∃ t, (perform render setting op m).1.threads setting.threadId = some t ∧
      t.state ≠ .awaitingApproval ∧ t.pendingApproval = th.pendingApproval := by
  have hsession : m.session.threads setting.threadId = some th := hth
  cases op with
  | interrupt =>
    exact ⟨th.interrupt, modifyThread_threads _ _ _ th hth, by simp [Thread.interrupt], rfl⟩
  | restoreFromMessages messages =>
    exact ⟨th.restoreFromMessages messages, modifyThread_threads _ _ _ th hth,
      by simp [Thread.restoreFromMessages], rfl⟩
  | processInterrupt =>
    have hbusy : th.state = .processing ∨ th.state = .awaitingApproval := by
      simpa [leaves, hth] using h
    refine ⟨th.interrupt, ?_, by simp [Thread.interrupt], rfl⟩
    simp only [perform, processInterrupt, hsession, if_pos hbusy]
    exact taken_thread _ _ _
  | processUndo id =>
    have hcan : canUndo m.undo = true := h
    obtain ⟨c, mgr, hc⟩ := undo_found m.undo id th.turnNumber (th.messages render) hcan
    refine ⟨th.restoreFromMessages c.messages, ?_, by simp [Thread.restoreFromMessages], rfl⟩
    simp only [perform, processUndo, hcan, Bool.not_true, Bool.false_eq_true, if_false, hsession, hc]
    exact taken_thread _ _ _
  | processRedo id =>
    have hcan : canRedo m.undo = true := h
    obtain ⟨c, mgr, hc⟩ := redo_found m.undo id th.turnNumber (th.messages render) hcan
    refine ⟨th.restoreFromMessages c.messages, ?_, by simp [Thread.restoreFromMessages], rfl⟩
    simp only [perform, processRedo, hcan, Bool.not_true, Bool.false_eq_true, if_false, hsession, hc]
    exact taken_thread _ _ _
  | processResume id =>
    have hfound : (restore m.undo id).1.isSome = true := by
      rw [restore_found]
      exact h
    obtain ⟨c, hc⟩ := Option.isSome_iff_exists.mp hfound
    have hrestored : restore m.undo id = (some c, (restore m.undo id).2) := by rw [← hc]
    refine ⟨th.restoreFromMessages c.messages, ?_, by simp [Thread.restoreFromMessages], rfl⟩
    rw [perform, processResume, hrestored]
    simp only [hsession]
    exact taken_thread _ _ _
  | processClear =>
    refine ⟨TurnNumbers.clearThread th, ?_, by simp [TurnNumbers.clearThread], rfl⟩
    simp only [perform, processClear, hsession]
    exact taken_thread _ _ _
  | _ => simp [leaves] at h

def startsOrTakes : Op → Bool
  | .startTurn _ => true
  | .takePendingApproval => true
  | _ => false

def disturbs (op : Op) (m : Machine) : Bool := leaves setting op m || startsOrTakes op

theorem disturbs_effect (op : Op) (m : Machine) (th : Thread) (hth : m.thread setting = some th)
    (h : disturbs setting op m = true) :
    ∃ t, (perform render setting op m).1.threads setting.threadId = some t ∧
      ((t.state ≠ .awaitingApproval ∧ t.pendingApproval = th.pendingApproval) ∨
        (t.state = th.state ∧ t.pendingApproval = none)) := by
  rcases Bool.or_eq_true_iff.mp h with hleaves | hhalf
  · obtain ⟨t, ht, heffect⟩ := leaves_effect render setting op m th hth hleaves
    exact ⟨t, ht, Or.inl heffect⟩
  · cases op with
    | startTurn userInput =>
      exact ⟨th.startTurn userInput, modifyThread_threads _ _ _ th hth,
        Or.inl ⟨by simp [Thread.startTurn], rfl⟩⟩
    | takePendingApproval =>
      exact ⟨takePendingApproval th, modifyThread_threads _ _ _ th hth, Or.inr ⟨rfl, rfl⟩⟩
    | _ => simp [startsOrTakes] at hhalf

theorem input_matched (input : Input) (sess : Session) (th : Thread)
    (hth : sess.threads setting.threadId = some th) (hm : Matched th) :
    ∃ t, (ChatLoop.processUserInput render setting input sess).session.threads
      setting.threadId = some t ∧ Matched t := by
  cases hr : refuse input th with
  | some answer =>
    rw [processUserInput_refused render setting input sess th answer hth hr]
    exact ⟨th, hth, hm⟩
  | none =>
    -- an input is accepted by a thread that does not wait
    have hfree : Free th := by
      rcases matched_cases th hm with hfree | ⟨p, hp⟩
      · exact hfree
      · simp [refuse, hp.1] at hr
    obtain ⟨-, t, ht, hend⟩ := processUserInput_accepted render setting input sess th hth hr
    refine ⟨t, ht, ?_⟩
    rcases hend with ⟨hstate, hpending⟩ | ⟨p, -, hp⟩
    · exact matched_free t ⟨hstate, hpending.trans hfree.2⟩
    · exact matched_waiting t p hp

theorem approval_matched (next : Continuation) (sess : Session) (th : Thread)
    (hth : sess.threads setting.threadId = some th) (hm : Matched th) :
    ∃ t, (processApprovalTurn setting next sess).session.threads setting.threadId = some t ∧
      Matched t := by
  rcases matched_cases th hm with hfree | ⟨p, hp⟩
  · obtain ⟨after, hafter, hstep⟩ := processApproval_ignored next.stage setting.threadId sess th
      hth (fun p hp => hfree.1 hp.1)
    rw [processApprovalTurn_returned setting next sess (.ok (.okWithMessage "")) (by rw [hstep]),
      hstep]
    exact ⟨th, hafter, hm⟩
  · obtain ⟨t, ht, hend⟩ := processApprovalTurn_waiting setting next sess th p hth hp
    refine ⟨t, ht, ?_⟩
    rcases hend with hfree | ⟨q, hq, -⟩
    · exact matched_free t hfree
    · exact matched_waiting t q hq

/-- Everything else keeps the two fields together. -/
theorem undisturbed_matched (op : Op) (m : Machine) (th : Thread)
    (hth : m.thread setting = some th) (hm : Matched th) (h : disturbs setting op m = false) :
    ∃ t, (perform render setting op m).1.threads setting.threadId = some t ∧ Matched t := by
  have hsession : m.session.threads setting.threadId = some th := hth
  have hleaves : leaves setting op m = false := by
    simp only [disturbs, Bool.or_eq_false_iff] at h
    exact h.1
  cases op with
  | startTurn userInput => simp [disturbs, startsOrTakes] at h
  | takePendingApproval => simp [disturbs, startsOrTakes] at h
  | awaitApproval p =>
    exact ⟨th.awaitApproval p, modifyThread_threads _ _ _ th hth, matched_waiting _ p ⟨rfl, rfl⟩⟩
  | clearPendingApproval =>
    exact ⟨th.clearPendingApproval, modifyThread_threads _ _ _ th hth,
      matched_free _ ⟨by simp [Thread.clearPendingApproval], rfl⟩⟩
  | resume =>
    refine ⟨resumeThread th, modifyThread_threads _ _ _ th hth, ?_⟩
    unfold resumeThread
    split
    · next hstate =>
      rcases matched_cases th hm with hfree | ⟨p, hp⟩
      · exact matched_free _ ⟨by simp, hfree.2⟩
      · simp [hp.1] at hstate
    · exact hm
  | processUserInput input id => exact input_matched render setting input m.session th hth hm
  | processApproval next => exact approval_matched setting next m.session th hth hm
  | processInterrupt =>
    have hcalm : ¬ (th.state = .processing ∨ th.state = .awaitingApproval) := by
      simpa [leaves, hth] using hleaves
    refine ⟨th, ?_, hm⟩
    simp only [perform, processInterrupt, hsession, if_neg hcalm]
  | processUndo id =>
    have hcan : canUndo m.undo = false := hleaves
    refine ⟨th, ?_, hm⟩
    simpa only [perform, processUndo, hcan, Bool.not_false, if_true] using hsession
  | processRedo id =>
    have hcan : canRedo m.undo = false := hleaves
    refine ⟨th, ?_, hm⟩
    simpa only [perform, processRedo, hcan, Bool.not_false, if_true] using hsession
  | processResume id =>
    have hfound : (restore m.undo id).1 = none := by
      rw [← Option.not_isSome_iff_eq_none, restore_found]
      simpa [leaves] using hleaves
    have hrestored : restore m.undo id = (none, (restore m.undo id).2) := by rw [← hfound]
    refine ⟨th, ?_, hm⟩
    rw [perform, processResume, hrestored]
    exact hsession
  | interrupt => simp [leaves] at hleaves
  | restoreFromMessages messages => simp [leaves] at hleaves
  | processClear => simp [leaves] at hleaves

end Effects

section Runs

variable (render : Value → String) (setting : Setting)

def executes (op : Op) (m : Machine) : Bool :=
  match op with
  | .processApproval next => !(processApprovalTurn setting next m.session).executed.isEmpty
  | _ => false

def Keeps (op : Op) (m : Machine) : Prop :=
  (∀ t, (step render setting op m).thread setting = some t → Matched t) ∧
    (executes setting op m = true → m.cancelled = false)

def Undisturbed (op : Op) (m : Machine) : Prop :=
  holdsRequest setting m = true → disturbs setting op m = false

def Live (m : Machine) : Prop := waits m.session setting.threadId = true → m.cancelled = false

theorem executes_waits (op : Op) (m : Machine) (h : executes setting op m = true) :
    waits m.session setting.threadId = true := by
  cases op with
  | processApproval next =>
    cases hth : m.session.threads setting.threadId with
    | none =>
      have hstep : processApproval next.stage setting.threadId m.session =
          ⟨.returned (.error (.jobNotFound setting.threadId)), m.session, []⟩ := by
        simp only [processApproval, hth]
      simp only [executes, processApprovalTurn, hstep] at h
      simp at h
    | some th =>
      by_cases hw : ∃ p, WaitsFor th p
      · obtain ⟨p, hstate, hpending⟩ := hw
        simp [waits, hth, hstate, hpending]
      · obtain ⟨after, -, hstep⟩ := processApproval_ignored next.stage setting.threadId m.session
          th hth (fun p hp => hw ⟨p, hp⟩)
        simp only [executes, processApprovalTurn, hstep] at h
        simp at h
  | _ => simp [executes] at h

theorem holdsRequest_iff (m : Machine) (th : Thread) (hth : m.thread setting = some th) :
    holdsRequest setting m = th.pendingApproval.isSome := by
  simp [holdsRequest, hth]

theorem holdsRequest_thread (m : Machine) (h : holdsRequest setting m = true) :
    ∃ th, m.thread setting = some th := by
  cases hth : m.thread setting with
  | none => simp [holdsRequest, hth] at h
  | some th => exact ⟨th, rfl⟩

theorem step_live (op : Op) (m : Machine) : Live setting (step render setting op m) := by
  intro hwaits
  have hafter : waits (perform render setting op m).1 setting.threadId = true := hwaits
  have hcancels : (leaves setting op m && holdsRequest setting m) = false := by
    by_contra hc
    simp only [Bool.not_eq_false, Bool.and_eq_true] at hc
    obtain ⟨th, hth⟩ := holdsRequest_thread setting m hc.2
    obtain ⟨t, ht, hstate, -⟩ := leaves_effect render setting op m th hth hc.1
    simp [waits, ht, hstate] at hafter
  simp [step, hcancels, hafter]

/-- In every run a cancelled request is never executed, also where the request
outlives its cancellation on the thread. -/
theorem cancelled_never_executed (ops : List Op) (m : Machine) (h : Live setting m) :
    Along (step render setting)
      (fun op m => executes setting op m = true → m.cancelled = false) ops m := by
  apply along_of (step render setting) (Live setting) (fun _ _ => True) _ _ ops m h
  · exact along_all _ _ _ _ (fun _ _ _ => trivial)
  · intro op m hm _
    exact ⟨step_live render setting op m, fun he => hm (executes_waits setting op m he)⟩

def Inv (m : Machine) : Prop :=
  (∃ t, m.thread setting = some t ∧ Matched t) ∧ Live setting m

theorem keeps_iff (op : Op) (m : Machine) (hm : Inv setting m) :
    Keeps render setting op m ↔ Undisturbed setting op m := by
  obtain ⟨⟨th, hth, hmatched⟩, hlive⟩ := hm
  have hlate : executes setting op m = true → m.cancelled = false :=
    fun he => hlive (executes_waits setting op m he)
  rw [Undisturbed, holdsRequest_iff setting m th hth]
  cases hd : disturbs setting op m with
  | false =>
    obtain ⟨t, ht, htmatched⟩ := undisturbed_matched render setting op m th hth hmatched hd
    refine ⟨fun _ _ => rfl, fun _ => ⟨?_, hlate⟩⟩
    intro t' ht'
    rwa [← Option.some.inj (ht.symm.trans ht')]
  | true =>
    obtain ⟨t, ht, heffect⟩ := disturbs_effect render setting op m th hth hd
    rcases matched_cases th hmatched with hfree | ⟨p, hstate, hpending⟩
    · refine ⟨fun _ hsome => by simp [hfree.2] at hsome, fun _ => ⟨?_, hlate⟩⟩
      intro t' ht'
      rw [← Option.some.inj (ht.symm.trans ht')]
      rcases heffect with ⟨hleft, hsame⟩ | ⟨hsame, hnone⟩
      · exact matched_free t ⟨hleft, hsame.trans hfree.2⟩
      · exact matched_free t ⟨hsame ▸ hfree.1, hnone⟩
    · -- the request stays without its state, or the state without its request
      have hbroken : ¬ Matched t := by
        rcases heffect with ⟨hleft, hsame⟩ | ⟨hsame, hnone⟩
        · simp [Matched, hsame, hpending, hleft]
        · simp [Matched, hnone, hsame, hstate]
      constructor
      · intro hkeeps
        exact absurd (hkeeps.1 t ht) hbroken
      · intro hcalm
        simp [hpending] at hcalm

theorem keeps_inv (op : Op) (m : Machine) (hm : Inv setting m)
    (h : Undisturbed setting op m) : Inv setting (step render setting op m) := by
  have hkeeps := (keeps_iff render setting op m hm).mpr h
  obtain ⟨⟨th, hth, hmatched⟩, -⟩ := hm
  refine ⟨?_, step_live render setting op m⟩
  cases hd : disturbs setting op m with
  | false =>
    exact undisturbed_matched render setting op m th hth hmatched hd
  | true =>
    obtain ⟨t, ht, -⟩ := disturbs_effect render setting op m th hth hd
    exact ⟨t, ht, hkeeps.1 t ht⟩

def opened (sess : Session) : Machine :=
  ⟨sess.setThread setting.threadId Thread.new, UndoHistory.new, false⟩

/-- Over a whole run the request and the state stay together, and nothing that
was cancelled is executed, exactly when no operation that writes one of the
two fields meets a request. -/
theorem approval_state_kept (sess : Session) (ops : List Op) :
    Along (step render setting) (Keeps render setting) ops (opened setting sess) ↔
      Along (step render setting) (Undisturbed setting) ops (opened setting sess) := by
  have hthread : (opened setting sess).thread setting = some Thread.new :=
    taken_thread sess setting.threadId Thread.new
  have hinv : Inv setting (opened setting sess) := by
    refine ⟨⟨Thread.new, hthread, ?_⟩, fun _ => rfl⟩
    exact matched_free _ ⟨by simp [Thread.new], rfl⟩
  apply along_iff (step render setting) (Inv setting) _ _ _ ops _ hinv
  intro op m hm
  exact ⟨keeps_iff render setting op m hm, keeps_inv render setting op m hm⟩

end Runs

def shellRequest : PendingApproval :=
  { requestId := 1, toolName := "shell", parameters := .null, displayParameters := .null
    description := "Run a command", toolCallId := "call_1", contextMessages := []
    deferredToolCalls := [], userTimezone := none, allowAlways := true }

/-- The interrupted thread still holds the request. -/
theorem request_outlives_interrupt :
    ¬ Along (step (fun _ => "null") webSetting) (Keeps (fun _ => "null") webSetting)
      [.awaitApproval shellRequest, .processInterrupt] (opened webSetting idleSession) := by
  intro h
  have hmatched := h.2.1.1
    { Thread.new with state := .interrupted, pendingApproval := some shellRequest } rfl
  simp [Matched] at hmatched

end IronClaw.ApprovalState
