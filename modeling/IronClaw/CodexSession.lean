import IronClaw.CircuitBreaker
import IronClaw.Hygiene
import IronClaw.Lib.Tasks

/-!
# The session of the Codex provider

`llm/openai_codex_session.rs` keeps an access token and the refresh token to
renew it with, and `llm/token_refreshing.rs` renews before a call and once more
when the call is refused. All conversations share the session, so its calls are
tasks. The lock around a renewal is held while the server is asked; reads of
the session do not wait for it.

The readings of the clock, the answers of the servers and what becomes of a
write to disk are inputs of a step. The logs of the renewals and of the
attempts at the provider are ghosts, newest first.
-/

set_option autoImplicit false

namespace IronClaw.CodexSession
open Lib.Tasks
open IronClaw.CircuitBreaker (LlmError)
open IronClaw.Hygiene (DateTime second)
open IronClaw.JsonValue (Value)

structure OpenAiCodexSession where
  accessToken : String
  refreshToken : String
  expiresAt : DateTime
  createdAt : DateTime

structure TokenResponse where
  accessToken : String
  refreshToken : String
  expiresIn : UInt64
  deriving DecidableEq

inductive HttpAnswer (T : Type) where
  | failed (e : String)
  | refused (status body : String)
  | unparsed (e : String)
  | content (t : T)

def provider : String := "openai_codex"

def renewalFailed (reason : String) : LlmError := .sessionRenewalFailed provider reason

def HttpAnswer.read {T : Type} (request what parse : String) : HttpAnswer T → Except LlmError T
  | .failed e => .error (renewalFailed (request++" failed: "++e))
  | .refused status body =>
    .error (renewalFailed (what++" failed: HTTP "++status++" -- "++body))
  | .unparsed e => .error (renewalFailed ("Failed to parse "++parse++": "++e))
  | .content t => .ok t

/-! ## Times -/

def later (t : DateTime) (secs : ℤ) : Option DateTime := t.checkedSub (-(secs*second))

def seconds (n : UInt64) : ℤ := n.toInt64.toInt

def defaultLifetime : UInt64 := 3600

def TokenResponse.lifetime (t : TokenResponse) : ℤ :=
  seconds (if 0 < t.expiresIn then t.expiresIn else defaultLifetime)

def due (margin : UInt64) (now : DateTime) : Option OpenAiCodexSession → Option Bool
  | none => some true
  | some s => (later now (seconds margin)).map (fun t => decide (s.expiresAt.nanos ≤ t.nanos))

/-! ## The device flow -/

inductive PollAnswer where
  | failed (e : String)
  | granted (code : Except String String)
  | refused (code : ℕ) (status body : String)

structure Poll where
  late : ℕ
  answer : PollAnswer

def pollFrom (deadline : ℕ) : ℕ → ℕ → List Poll → Except LlmError String
  | _, _, [] => .error (renewalFailed "Device code authorization timed out")
  | interval, now, p::rest =>
    if deadline ≤ now+interval+p.late then
      .error (renewalFailed "Device code authorization timed out")
    else match p.answer with
      | .failed e => .error (renewalFailed ("Token poll request failed: "++e))
      | .granted (.ok code) => .ok code
      | .granted (.error e) =>
        .error (renewalFailed ("Failed to parse auth code response: "++e))
      | .refused code status body =>
        if code = 403 then pollFrom deadline interval (now+interval+p.late) rest
        else if code = 404 then .error (renewalFailed
          "Device code login is not enabled. Please check your OpenAI account settings.")
        else if code = 429 then
          pollFrom deadline (min (interval+5) 60) (now+interval+p.late) rest
        else .error (renewalFailed ("Device auth poll failed: HTTP "++status++" -- "++body))

structure UserCodeResponse where
  interval : UInt64
  expiresIn : Option UInt64
  expiresAt : Option DateTime

def UserCodeResponse.expiresInSecs (u : UserCodeResponse) (now : DateTime) : ℕ :=
  match u.expiresIn, u.expiresAt with
  | some secs, _ => secs.toNat
  | none, some t => ((t.nanos-now.nanos).tdiv second).toNat
  | none, none => 900

inductive UserCodeAnswer where
  | failed (e : String)
  | refused (status body : String)
  | unread (e : String)
  | unparsed (e : String) (bytes : ℕ)
  | content (device : UserCodeResponse)

def UserCodeAnswer.read : UserCodeAnswer → Except LlmError UserCodeResponse
  | .failed e => .error (renewalFailed ("Device code request failed: "++e))
  | .refused status body =>
    .error (renewalFailed ("Device code request failed: HTTP "++status++" -- "++body))
  | .unread e => .error (renewalFailed ("Failed to read device code response: "++e))
  | .unparsed e bytes => .error (renewalFailed
      ("Failed to parse device code response: "++e++" ("++toString bytes++" bytes)"))
  | .content device => .ok device

structure DeviceFlow where
  userCode : UserCodeAnswer
  polls : List Poll
  exchange : HttpAnswer TokenResponse

def DeviceFlow.login (flow : DeviceFlow) (now : DateTime) : Except LlmError TokenResponse := do
  let device ← flow.userCode.read
  let _ ← pollFrom (device.expiresInSecs now) (max device.interval 5).toNat 0 flow.polls
  flow.exchange.read "Token exchange" "Token exchange" "token response"

/-! ## The shared state -/

structure AuthState where
  token : String
  accountId : String
  deriving DecidableEq

inductive Renewal where
  | refresh (token : String) (foundDue : DateTime)
  | login
  | renewed (s : OpenAiCodexSession)

structure Shared (Response : Type) where
  session : Option OpenAiCodexSession
  renewing : Option ℕ
  disk : Option OpenAiCodexSession
  auth : AuthState
  renewals : List Renewal
  attempts : List (ℕ × String × Except LlmError Response)

inductive Saving where
  | untouched (e : LlmError)
  | exposed (e : LlmError)
  | written

structure Input (Response : Type) where
  now : DateTime
  tokens : HttpAnswer TokenResponse
  flow : DeviceFlow
  saving : Saving
  answer : String → Except LlmError Response

structure Crates where
  decodeUrlSafe : List Char → Except String (List UInt8)
  fromSlice : List UInt8 → Except String Value
  badHeader : String → Option String

def authFailed : LlmError := .authFailed provider
def requestFailed (reason : String) : LlmError := .requestFailed provider reason

section

variable {Response : Type} (margin : UInt64) (crates : Crates)

/-! ## Renewing -/

def orPanic {α : Type} : Option α → Task (Shared Response) (Input Response) α
  | some a => pure a
  | none => .panicked

def needsRefresh : Task (Shared Response) (Input Response) (Option DateTime) := do
  let found ← perform (fun e s => ((due margin e.now s.session).map (fun d => (d, e.now)), s))
  let (isDue, now) ← orPanic found
  pure (if isDue then some now else none)

def lock (call : ℕ) : Task (Shared Response) (Input Response) Unit :=
  await (fun s => decide (s.renewing = none)) (fun _ s => ((), { s with renewing := some call }))

def unlock (call : ℕ) (s : Shared Response) : Shared Response :=
  if s.renewing = some call then { s with renewing := none } else s

def logged (r : Renewal) : Task (Shared Response) (Input Response) Unit :=
  modify (fun s => { s with renewals := r::s.renewals })

def saveSession (session : OpenAiCodexSession) :
    Task (Shared Response) (Input Response) (Except LlmError Unit) :=
  perform (fun e s => match e.saving with
    | .untouched err => (.error err, s)
    | .exposed err => (.error err, { s with disk := some session })
    | .written => (.ok (), { s with disk := some session }))

def setSession (session : OpenAiCodexSession) : Task (Shared Response) (Input Response) Unit :=
  modify (fun s => { s with session := some session, renewals := .renewed session::s.renewals })

def keepTokens (t : TokenResponse) :
    Task (Shared Response) (Input Response) (Except LlmError Unit) := do
  let expiry ← perform (fun e s => (later e.now t.lifetime, s))
  let expiresAt ← orPanic expiry
  let createdAt ← perform (fun e s => (e.now, s))
  let session : OpenAiCodexSession := ⟨t.accessToken, t.refreshToken, expiresAt, createdAt⟩
  match ← saveSession session with
  | .error e => pure (.error e)
  | .ok () => do
    setSession session
    pure (.ok ())

def refreshHeld : Task (Shared Response) (Input Response) (Except LlmError Unit) := do
  match ← needsRefresh margin with
  | none => pure (.ok ())
  | some foundDue =>
    match ← read (fun s => s.session.map OpenAiCodexSession.refreshToken) with
    | none => pure (.error authFailed)
    | some token => do
      logged (.refresh token foundDue)
      let answer ← perform (fun e s => (e.tokens, s))
      match answer.read "Token refresh request" "Token refresh" "refresh response" with
      | .error e => pure (.error e)
      | .ok t => keepTokens t

def refreshTokens (call : ℕ) : Task (Shared Response) (Input Response) (Except LlmError Unit) := do
  lock call
  cleanup (unlock call) (refreshHeld margin)

def loginHeld : Task (Shared Response) (Input Response) (Except LlmError Unit) := do
  logged .login
  let tokens ← perform (fun e s => (e.flow.login e.now, s))
  match tokens with
  | .error e => pure (.error e)
  | .ok t => keepTokens t

def deviceCodeLogin (call : ℕ) :
    Task (Shared Response) (Input Response) (Except LlmError Unit) := do
  lock call
  cleanup (unlock call) loginHeld

def handleAuthFailure (call : ℕ) :
    Task (Shared Response) (Input Response) (Except LlmError Unit) := do
  match ← refreshTokens margin call with
  | .ok () => pure (.ok ())
  | .error _ => deviceCodeLogin call

def getAccessToken (call : ℕ) :
    Task (Shared Response) (Input Response) (Except LlmError String) := do
  let renewed ← (do
    match ← needsRefresh margin with
    | none => pure (.ok ())
    | some _ =>
      match ← read (fun s => s.session.any (fun t => t.refreshToken ≠ "")) with
      | true => refreshTokens margin call
      | false => pure (.error authFailed))
  match renewed with
  | .error e => pure (.error e)
  | .ok () =>
    match ← read (fun s => s.session.map OpenAiCodexSession.accessToken) with
    | some token => pure (.ok token)
    | none => pure (.error authFailed)

/-! ## The provider -/

def extractAccountId (token : String) : Except LlmError String :=
  match token.toList.splitOn '.' with
  | _::payload::_ =>
    match crates.decodeUrlSafe payload with
    | .error e => .error (requestFailed ("Failed to decode JWT payload: "++e))
    | .ok bytes =>
      match crates.fromSlice bytes with
      | .error e => .error (requestFailed ("Failed to parse JWT payload as JSON: "++e))
      | .ok v =>
        match ((v.get "https://api.openai.com/auth").bind
            (fun auth => auth.get "chatgpt_account_id")).bind Value.asStr with
        | some id => .ok id
        | none => .error (requestFailed "JWT payload missing chatgpt_account_id claim")
  | _ => .error (requestFailed "JWT token has fewer than 2 parts")

def updateInnerToken (call : ℕ) :
    Task (Shared Response) (Input Response) (Except LlmError Unit) := do
  match ← getAccessToken margin call with
  | .error e => pure (.error e)
  | .ok token =>
    match extractAccountId crates token with
    | .error e => pure (.error e)
    | .ok accountId => do
      modify (fun s => { s with auth := ⟨token, accountId⟩ })
      pure (.ok ())

def ensureFreshToken (call : ℕ) : Task (Shared Response) (Input Response) Unit := do
  match ← needsRefresh margin with
  | none => pure ()
  | some _ =>
    match ← refreshTokens margin call with
    | .error _ => pure ()
    | .ok () => do
      let _ ← updateInnerToken margin crates call
      pure ()

def attempt (call : ℕ) : Task (Shared Response) (Input Response) (Except LlmError Response) := do
  let token ← read (fun s => s.auth.token)
  perform (fun e s =>
    let answer := match crates.badHeader token with
      | some reason => .error (requestFailed ("Invalid token for header: "++reason))
      | none => e.answer token
    (answer, { s with attempts := (call, token, answer)::s.attempts }))

def isAuthFailure : LlmError → Bool
  | .authFailed _ | .sessionExpired _ => true
  | _ => false

inductive Question where
  | complete
  | listModels

inductive Reply (Response : Type) where
  | completed (result : Except LlmError Response)
  | models

def retried (call : ℕ) : Task (Shared Response) (Input Response) (Except LlmError Response) := do
  match ← handleAuthFailure margin call with
  | .error e => pure (.error e)
  | .ok () =>
    match ← updateInnerToken margin crates call with
    | .error e => pure (.error e)
    | .ok () => attempt crates call

def complete (call : ℕ) : Task (Shared Response) (Input Response) (Except LlmError Response) := do
  ensureFreshToken margin crates call
  match ← attempt crates call with
  | .ok response => pure (.ok response)
  | .error e => if isAuthFailure e then retried margin crates call else pure (.error e)

def program (call : ℕ) : Question → Task (Shared Response) (Input Response) (Reply Response)
  | .complete => do
    let result ← complete margin crates call
    pure (.completed result)
  | .listModels => do
    ensureFreshToken margin crates call
    pure .models

end

end IronClaw.CodexSession
