import IronClaw.Lib.Runs
import IronClaw.Hooks
import IronClaw.SessionThread
import IronClaw.Submission

/-!
# The main loop and its shutdown signal

`Agent::handle_message` answers a message with a text or with nothing, and
`Agent::run` takes nothing for the request to shut down. Everything that
decides about a message from outside is part of its circumstances: the hooks,
the stored thread, the clock, the extension manager, the routines, and the
processing of each kind of submission.
-/

set_option autoImplicit false

namespace IronClaw.AgentLoop
open IronClaw.JsonValue IronClaw.LlmMessage IronClaw.SessionThread IronClaw.Submission
open IronClaw.Hooks Lib.Text Lib.Runs

def silentReplyToken : String := "NO_REPLY"

def isAsciiPunctuation (c : Char) : Bool :=
  (0x21 ≤ c.val && c.val ≤ 0x2F) || (0x3A ≤ c.val && c.val ≤ 0x40) ||
  (0x5B ≤ c.val && c.val ≤ 0x60) || (0x7B ≤ c.val && c.val ≤ 0x7E)

/-- `is_silent_reply` of `llm/reasoning.rs`. -/
def isSilentReply (text : String) : Bool :=
  let trimmed := trim text
  trimmed = silentReplyToken ||
    (startsWith trimmed silentReplyToken &&
      byteLen trimmed.toList ≤ byteLen silentReplyToken.toList+4 &&
      (trimmed.toList.drop silentReplyToken.toList.length).all
        (fun c => isWhitespace c || isAsciiPunctuation c))

inductive Configured where
  | done (activated : Bool) (message : String)
  | validationFailed (text : String)
  | failed (text : String)
  deriving DecidableEq

/-- The circumstances of one message. `hydrate` is the rejection of
`maybe_hydrate_thread`, `session` the session of the user, `resolved` what
`resolve_thread` returns. -/
structure Circumstances where
  stx : Syntax
  json : Json
  hooks : List Hook
  moment : ℕ
  hydrate : String → Option String
  session : Session
  resolved : Session × Uuid
  now : ℤ
  extensionManager : Option (String → String → Configured)
  routineEngine : Option (String → ℕ)
  process : Submission → Session → Uuid → Except Error SubmissionResult × Session

def beforeInbound (env : Circumstances) (message : IncomingMessage) (submission : Submission) :
    Except String Submission :=
  match submission with
  | .userInput content =>
    match Hooks.run env.json env.hooks env.moment
        (.inbound message.userId message.channel content message.threadId) with
    | .error (.rejected reason) => .error ("[Message rejected: " ++ reason ++ "]")
    | .error err => .error ("[Message blocked by hook policy: " ++ err.display ++ "]")
    | .ok (.proceed (some newContent)) => .ok (.userInput newContent)
    | .ok _ => .ok submission
  | _ => .ok submission

def hydrationError (env : Circumstances) (message : IncomingMessage) : Option String :=
  (message.conversationScope.bind env.hydrate).map ("Error: " ++ ·)

def isApproval : Submission → Bool
  | .execApproval _ _ _ => true
  | .approvalResponse _ _ => true
  | _ => false

def resolveTarget (env : Circumstances) (message : IncomingMessage) (submission : Submission) :
    Session × Uuid :=
  match if isApproval submission then message.conversationScope.bind env.stx.parseUuid
    else none with
  | some target => if (env.session.threads target).isSome then (env.session, target)
      else env.resolved
  | none => env.resolved

def clearAuth (sess : Session) (threadId : Uuid) : Session :=
  sess.modifyThread threadId (fun t => { t with pendingAuth := none })

/-- `process_auth_token`. -/
def processAuthToken (env : Circumstances) (pending : PendingAuth) (token : String)
    (sess : Session) (threadId : Uuid) : Except Error (Option String) × Session :=
  let cleared := clearAuth sess threadId
  let again := cleared.modifyThread threadId
    (fun t => t.enterAuthMode env.now pending.extensionName)
  match env.extensionManager with
  | none => (.ok (some "Extension manager not available."), cleared)
  | some configureToken =>
    match configureToken pending.extensionName (trim token) with
    | .done true message => (.ok (some message), cleared)
    | .done false message => (.ok (some message), again)
    | .validationFailed text => (.ok (some text), again)
    | .failed text => (.ok (some text), cleared)

def isUserInput : Submission → Bool
  | .userInput _ => true
  | _ => false

def interceptAuth (env : Circumstances) (submission : Submission) (sess : Session)
    (threadId : Uuid) : Except (Except Error (Option String) × Session) Session :=
  match (sess.threads threadId).bind Thread.pendingAuth with
  | none => .ok sess
  | some pending =>
    if pending.isExpired env.now then
      let cleared := clearAuth sess threadId
      if isUserInput submission then
        .error (.ok (some ("Authentication for **" ++ pending.extensionName ++
          "** expired. Please try again.")), cleared)
      else .ok cleared
    else match submission with
    | .userInput content => .error (processAuthToken env pending content sess threadId)
    | _ => .ok (clearAuth sess threadId)

def routineFires (env : Circumstances) (submission : Submission) : Bool :=
  match submission, env.routineEngine with
  | .userInput content, some check => 0 < check content
  | _, _ => false

/-- The conversion of a result to the answer of `handle_message`. -/
def respond : SubmissionResult → Option String
  | .response content => if isSilentReply content then none else some content
  | .ok message => message
  | .error message => some ("Error: " ++ message)
  | .interrupted => some "Interrupted."
  | .needApproval _ _ _ _ _ => some ""

def handleSubmission (env : Circumstances) (submission : Submission) (sess : Session)
    (threadId : Uuid) : Except Error (Option String) × Session :=
  if submission = .quit then (.ok none, sess)
  else match env.process submission sess threadId with
  | (.error e, sess') => (.error e, sess')
  | (.ok result, sess') => (.ok (respond result), sess')

def handleMessage (env : Circumstances) (message : IncomingMessage) :
    Except Error (Option String) × Session :=
  if message.isInternal then (.ok (some message.content), env.session)
  else match beforeInbound env message (parse env.stx message.content) with
  | .error text => (.ok (some text), env.session)
  | .ok submission =>
    match hydrationError env message with
    | some text => (.ok (some text), env.session)
    | none =>
      let target := resolveTarget env message submission
      match interceptAuth env submission target.1 target.2 with
      | .error answer => answer
      | .ok sess =>
        if routineFires env submission then (.ok (some ""), sess)
        else handleSubmission env submission sess target.2

inductive Exit where
  | ctrlC
  | streamsEnded
  | shutdown
  deriving DecidableEq

structure LoopState where
  exit : Option Exit
  sent : List String

inductive LoopEvent where
  | ctrlC
  | streamsEnded
  | message (env : Circumstances) (message : IncomingMessage)

def outbound (env : Circumstances) (message : IncomingMessage) (response : String) :
    List String :=
  match Hooks.run env.json env.hooks env.moment
      (.outbound message.userId message.channel response message.threadId) with
  | .error _ => []
  | .ok (.proceed (some newContent)) => [newContent]
  | .ok _ => [response]

def loopStep (event : LoopEvent) (s : LoopState) : LoopState :=
  if s.exit.isSome then s
  else match event with
  | .ctrlC => { s with exit := some .ctrlC }
  | .streamsEnded => { s with exit := some .streamsEnded }
  | .message env message =>
    match (handleMessage env message).1 with
    | .ok (some response) =>
      if response = "" then s else { s with sent := s.sent++outbound env message response }
    | .ok none => { s with exit := some .shutdown }
    | .error e => { s with sent := s.sent++["Error: " ++ e.display] }

def started : LoopState := ⟨none, []⟩

def muted : SubmissionResult → Bool
  | .response content => isSilentReply content
  | .ok none => true
  | _ => false

def ReachesProcessing (env : Circumstances) (message : IncomingMessage)
    (submission : Submission) (sess : Session) : Prop :=
  message.isInternal = false ∧
  beforeInbound env message (parse env.stx message.content) = .ok submission ∧
  hydrationError env message = none ∧
  interceptAuth env submission (resolveTarget env message submission).1
    (resolveTarget env message submission).2 = .ok sess ∧
  routineFires env submission = false

def Heard (env : Circumstances) (message : IncomingMessage) : Prop :=
  ∀ submission sess result sess', ReachesProcessing env message submission sess →
    submission ≠ .quit →
    env.process submission sess (resolveTarget env message submission).2 = (.ok result, sess') →
    muted result = false

theorem respond_eq_none (result : SubmissionResult) :
    respond result = none ↔ muted result = true := by
  cases result with
  | response content =>
    simp only [respond, muted]
    split <;> simp_all
  | ok message => cases message <;> simp [respond, muted]
  | error message => simp [respond, muted]
  | interrupted => simp [respond, muted]
  | needApproval id name description parameters allowAlways => simp [respond, muted]

variable (env : Circumstances) (message : IncomingMessage) (submission : Submission)
  (sess : Session)

theorem processAuthToken_answers (pending : PendingAuth) (token : String) (sess : Session)
    (threadId : Uuid) :
    (processAuthToken env pending token sess threadId).1 ≠ .ok none := by
  simp only [processAuthToken]
  split
  · simp
  · split <;> simp

theorem interceptAuth_answers (threadId : Uuid) (answer : Except Error (Option String) × Session)
    (h : interceptAuth env submission sess threadId = .error answer) : answer.1 ≠ .ok none := by
  unfold interceptAuth at h
  split at h
  · simp at h
  · split at h
    · simp only at h
      split at h
      · rw [← Except.error.inj h]
        simp
      · simp at h
    · split at h
      · rw [← Except.error.inj h]
        exact processAuthToken_answers _ _ _ _ _
      · simp at h

/-- The hooks rewrite user input and nothing else. -/
theorem beforeInbound_quit (parsed submission : Submission)
    (h : beforeInbound env message parsed = .ok submission) :
    submission = .quit ↔ parsed = .quit := by
  cases parsed with
  | userInput content =>
    simp only [beforeInbound] at h
    split at h
    · simp at h
    · simp at h
    · rw [← Except.ok.inj h]
      simp
    · rw [← Except.ok.inj h]
  | _ =>
    have hs := Except.ok.inj h
    rw [← hs]

theorem handleMessage_reaches (h : ReachesProcessing env message submission sess) :
    handleMessage env message =
      handleSubmission env submission sess (resolveTarget env message submission).2 := by
  obtain ⟨hinternal, hin, hhydrate, hauth, hfires⟩ := h
  simp only [handleMessage, hinternal, hin, hhydrate, hauth, hfires, Bool.false_eq_true, if_false]

/-- Whatever answers a message before it is processed answers with a text. -/
theorem handleMessage_early (h : (handleMessage env message).1 = .ok none) :
    ∃ submission sess, ReachesProcessing env message submission sess := by
  simp only [handleMessage] at h
  split at h
  · simp at h
  next hinternal =>
  split at h
  · simp at h
  next submission hin =>
  split at h
  · simp at h
  next hhydrate =>
  split at h
  · next answer hauth => exact absurd h (interceptAuth_answers env submission _ _ answer hauth)
  next sess hauth =>
  split at h
  · simp at h
  next hfires =>
  exact ⟨submission, sess, by simpa using hinternal, hin, hhydrate, hauth, by simpa using hfires⟩

theorem handleSubmission_none (threadId : Uuid) :
    (handleSubmission env submission sess threadId).1 = .ok none ↔
      submission = .quit ∨ ∃ result sess',
        env.process submission sess threadId = (.ok result, sess') ∧ muted result = true := by
  unfold handleSubmission
  by_cases hq : submission = .quit
  · simp [hq]
  · rw [if_neg hq]
    cases hp : env.process submission sess threadId with
    | mk outcome sess' =>
      cases outcome with
      | error e => simp [hq]
      | ok result => simp [hq, respond_eq_none result]

/-- A message is answered with nothing exactly when it is processed and is a
request to quit or has a muted result. -/
theorem handleMessage_none :
    (handleMessage env message).1 = .ok none ↔
      ∃ submission sess, ReachesProcessing env message submission sess ∧
        (submission = .quit ∨ ∃ result sess',
          env.process submission sess (resolveTarget env message submission).2 =
            (.ok result, sess') ∧ muted result = true) := by
  constructor
  · intro h
    obtain ⟨submission, sess, hreach⟩ := handleMessage_early env message h
    rw [handleMessage_reaches env message submission sess hreach, handleSubmission_none] at h
    exact ⟨submission, sess, hreach, h⟩
  · rintro ⟨submission, sess, hreach, h⟩
    rw [handleMessage_reaches env message submission sess hreach, handleSubmission_none]
    exact h

theorem reaches_quit (h : ReachesProcessing env message submission sess) :
    submission = .quit ↔ parse env.stx message.content = .quit :=
  beforeInbound_quit env message _ submission h.2.1

theorem heard_iff :
    ((handleMessage env message).1 = .ok none → parse env.stx message.content = .quit) ↔
      Heard env message := by
  rw [handleMessage_none]
  constructor
  · intro h submission sess result sess' hreach hq hprocess
    by_contra hmuted
    have hmuted' : muted result = true := by simpa using hmuted
    have hquit := h ⟨submission, sess, hreach, Or.inr ⟨result, sess', hprocess, hmuted'⟩⟩
    exact hq ((reaches_quit env message submission sess hreach).mpr hquit)
  · rintro h ⟨submission, sess, hreach, hq | ⟨result, sess', hprocess, hmuted⟩⟩
    · exact (reaches_quit env message submission sess hreach).mp hq
    · by_contra hquit
      have hne : submission ≠ .quit := fun e =>
        hquit ((reaches_quit env message submission sess hreach).mp e)
      have hheard := h submission sess result sess' hreach hne hprocess
      rw [hheard] at hmuted
      simp at hmuted

def EventHeard (event : LoopEvent) (_ : LoopState) : Prop :=
  ∀ env message, event = .message env message → Heard env message

theorem loopStep_shutdown (event : LoopEvent) (s : LoopState)
    (h : (loopStep event s).exit = some .shutdown) (hs : s.exit ≠ some .shutdown) :
    ∃ env message, event = .message env message ∧ (handleMessage env message).1 = .ok none := by
  unfold loopStep at h
  split at h
  · exact absurd h hs
  · cases event with
    | ctrlC => simp at h
    | streamsEnded => simp at h
    | message env message =>
      refine ⟨env, message, rfl, ?_⟩
      simp only at h
      split at h
      · split at h
        · exact absurd h hs
        · exact absurd h hs
      · next hnone => exact hnone
      · exact absurd h hs

/-- The loop is left through a message only by one that was answered with
nothing. -/
theorem run_shutdown (events : List LoopEvent) (s : LoopState)
    (hs : s.exit ≠ some .shutdown) (h : (run loopStep events s).exit = some .shutdown)
    (hheard : Along loopStep EventHeard events s) :
    ∃ env message, .message env message ∈ events ∧ parse env.stx message.content = .quit := by
  induction events generalizing s with
  | nil => exact absurd h hs
  | cons event events ih =>
    by_cases hnow : (loopStep event s).exit = some .shutdown
    · obtain ⟨env, message, rfl, hnone⟩ := loopStep_shutdown event s hnow hs
      have hquit := (heard_iff env message).mpr (hheard.1 env message rfl) hnone
      exact ⟨env, message, List.mem_cons_self, hquit⟩
    · obtain ⟨env, message, hmem, hquit⟩ := ih _ hnow h hheard.2
      exact ⟨env, message, List.mem_cons_of_mem _ hmem, hquit⟩

/-- For one message: nothing is answered to it only as a request to quit, if
and only if it is heard. For a run: when every message is heard, the loop is
left by shutdown only after `/quit`, `/exit` or `/shutdown`. -/
theorem shutdown_only_by_quit (events : List LoopEvent) :
    (((handleMessage env message).1 = .ok none → parse env.stx message.content = .quit) ↔
      Heard env message) ∧
    (Along loopStep EventHeard events started →
      (run loopStep events started).exit = some .shutdown →
      ∃ env' message', .message env' message' ∈ events ∧
        env'.stx.toLowercase (trim message'.content) ∈ ["/quit", "/exit", "/shutdown"]) := by
  constructor
  · exact heard_iff env message
  · intro hheard hexit
    obtain ⟨env', message', hmem, hquit⟩ :=
      run_shutdown events started (by simp [started]) hexit hheard
    exact ⟨env', message', hmem, (parse_eq_quit env'.stx message'.content).mp hquit⟩

def chatting (reply : String) : Circumstances :=
  { stx := ⟨id, fun _ => none, fun _ => none⟩, json := ⟨fun _ => none, fun _ => "null"⟩
    hooks := [], moment := 0, hydrate := fun _ => none
    session := ⟨fun _ => some Thread.new, []⟩, resolved := (⟨fun _ => some Thread.new, []⟩, 0)
    now := 0, extensionManager := none, routineEngine := none
    process := fun _ sess _ => (.ok (.response reply), sess) }

def quitMessage : IncomingMessage := ⟨"cli", "owner", " /quit ", none, none, .null, false⟩

theorem quit_message_shuts_down :
    ∃ env message, LoopEvent.message env message ∈
        [LoopEvent.message (chatting "bye") quitMessage] ∧
      env.stx.toLowercase (trim message.content) ∈ ["/quit", "/exit", "/shutdown"] := by
  have hparse : parse (chatting "bye").stx quitMessage.content = .quit := by decide
  refine (shutdown_only_by_quit (chatting "bye") quitMessage
    [.message (chatting "bye") quitMessage]).2 ⟨?_, trivial⟩ (by decide)
  intro env message hevent
  obtain ⟨rfl, rfl⟩ := LoopEvent.message.inj hevent
  intro submission sess result sess' hreach hq _
  exact absurd ((reaches_quit _ _ submission sess hreach).mpr hparse) hq

def groupMessage : IncomingMessage := ⟨"telegram", "guest", "hello all", none, none, .null, false⟩

/-- A silent reply of the model ends the whole agent. -/
theorem silent_reply_shuts_down :
    (handleMessage (chatting "NO_REPLY") groupMessage).1 = .ok none ∧
    parse (chatting "NO_REPLY").stx groupMessage.content = .userInput "hello all" ∧
    (run loopStep [.message (chatting "NO_REPLY") groupMessage] started).exit =
      some .shutdown := by
  refine ⟨by decide, by decide, by decide⟩

end IronClaw.AgentLoop
