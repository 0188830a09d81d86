import IronClaw.Lib.Tasks
import IronClaw.Submission

/-!
# The API of the orchestrator

Workers in containers call `orchestrator/api.rs` with the token of their job:
the middleware and the token store of `orchestrator/auth.rs`, the credentials
that were granted to the job, and the prompts queued for it. Jobs are created
and stopped, and prompts queued, while requests are answered. What has happened
is kept beside the state.
-/

set_option autoImplicit false

namespace IronClaw.WorkerApi
open IronClaw.LlmMessage IronClaw.Submission Lib.Tasks Lib.Text

structure CredentialGrant where
  secretName : String
  envVar : String
  deriving DecidableEq

structure CredentialResponse where
  envVar : String
  value : String
  deriving DecidableEq

structure PendingPrompt where
  content : String
  done : Bool
  deriving DecidableEq

inductive Happening where
  | issued (jobId : Uuid) (token : String)
  | revoked (jobId : Uuid)
  | granted (jobId : Uuid) (grants : List CredentialGrant)
  | withdrawn (jobId : Uuid)
  | admitted (call : ℕ) (jobId : Uuid) (token : String)
  | looked (call : ℕ) (jobId : Uuid) (grants : List CredentialGrant)
  | decrypted (name value : String)
  | queued (jobId : Uuid) (prompt : PendingPrompt)
  | taken (call : ℕ) (jobId : Uuid) (prompt : PendingPrompt)
  deriving DecidableEq

structure Shared where
  tokens : Uuid → Option String
  grants : Uuid → Option (List CredentialGrant)
  prompts : Uuid → List PendingPrompt
  history : List Happening

structure Input where
  bytes : List UInt8
  decrypt : String → Except String String
  started : Bool
  otherStatus : ℕ

structure Crates where
  parseUuid : String → Option Uuid
  percentDecode : String → Option String

inductive Endpoint where
  | prompt
  | credentials
  | complete
  | other
  deriving DecidableEq

structure Request where
  path : String
  authorization : Option String

inductive Question where
  | request (r : Request)
  | createJob (jobId : Uuid) (grants : List CredentialGrant)
  | stopJob (jobId : Uuid)
  | queuePrompt (jobId : Uuid) (prompt : PendingPrompt)

inductive Reply where
  | status (code : ℕ)
  | prompt (prompt : PendingPrompt)
  | credentials (list : List CredentialResponse)
  | created (token : Option String)
  | done
  deriving DecidableEq

abbrev Work (α : Type) := Task Shared Input α

/-! ## The token store -/

def generateToken (bytes : List UInt8) : String :=
  String.join (bytes.map (fun b => hexText 2 b.toNat))

def createToken (jobId : Uuid) : Work String :=
  perform (fun e s => (generateToken e.bytes, { s with
    tokens := Function.update s.tokens jobId (some (generateToken e.bytes))
    history := .issued jobId (generateToken e.bytes)::s.history }))

def validate (call : ℕ) (jobId : Uuid) (token : String) : Work Bool :=
  perform (fun _ s =>
    if s.tokens jobId = some token then
      (true, { s with history := .admitted call jobId token::s.history })
    else (false, s))

def revoke (jobId : Uuid) : Work Unit := do
  modify (fun s => { s with
    tokens := Function.update s.tokens jobId none
    history := .revoked jobId::s.history })
  modify (fun s => { s with
    grants := Function.update s.grants jobId none
    history := .withdrawn jobId::s.history })

def storeGrants (jobId : Uuid) (grants : List CredentialGrant) : Work Unit :=
  if grants = [] then pure ()
  else modify (fun s => { s with
    grants := Function.update s.grants jobId (some grants)
    history := .granted jobId grants::s.history })

def getGrants (call : ℕ) (jobId : Uuid) : Work (Option (List CredentialGrant)) :=
  perform (fun _ s => match s.grants jobId with
    | some grants => (some grants, { s with history := .looked call jobId grants::s.history })
    | none => (none, s))

/-! ## Requests -/

def pathParts (path : List Char) : List String := (path.splitOn '/').map String.ofList

section

variable (crates : Crates)

def extractJobIdFromPath (path : String) : Option Uuid :=
  match pathParts (path.toList.dropWhile (fun c => c = '/')) with
  | "worker"::id::_ => crates.parseUuid id
  | _ => none

def endpointOf : List String → Option Endpoint
  | ["prompt"] => some .prompt
  | ["credentials"] => some .credentials
  | ["complete"] => some .complete
  | ["job"] | ["status"] | ["event"] | ["llm", "complete"] | ["llm", "complete_with_tools"] =>
    some .other
  | _ => none

def route (path : String) : Option (String × Endpoint) :=
  match pathParts path.toList with
  | ""::"worker"::id::rest => if id = "" then none else (endpointOf rest).map (fun e => (id, e))
  | _ => none

def bearer (authorization : Option String) : Option String :=
  authorization.bind (fun header => stripPrefix header "Bearer ")

def getPrompt (call : ℕ) (jobId : Uuid) : Work Reply :=
  perform (fun _ s => match s.prompts jobId with
    | prompt::rest => (.prompt prompt, { s with
        prompts := Function.update s.prompts jobId rest
        history := .taken call jobId prompt::s.history })
    | [] => (.status 204, s))

def getDecrypted (name : String) : Work (Except String String) :=
  perform (fun e s => match e.decrypt name with
    | .ok value => (.ok value, { s with history := .decrypted name value::s.history })
    | .error err => (.error err, s))

def serveGrants : List CredentialGrant → List CredentialResponse → Work Reply
  | [], credentials => pure (.credentials credentials)
  | grant::grants, credentials => do
    match ← getDecrypted grant.secretName with
    | .error _ => pure (.status 500)
    | .ok value => serveGrants grants (credentials++[⟨grant.envVar, value⟩])

def getCredentials (hasSecrets : Bool) (call : ℕ) (jobId : Uuid) : Work Reply := do
  match ← getGrants call jobId with
  | none | some [] => pure (.status 204)
  | some (grant::grants) =>
    if hasSecrets then serveGrants (grant::grants) [] else pure (.status 503)

def handle (hasSecrets : Bool) (call : ℕ) (jobId : Uuid) : Endpoint → Work Reply
  | .prompt => getPrompt call jobId
  | .credentials => getCredentials hasSecrets call jobId
  | .complete => do
    revoke jobId
    pure .done
  | .other => perform (fun e s => (.status e.otherStatus, s))

def workerRequest (hasSecrets : Bool) (call : ℕ) (r : Request) : Work Reply :=
  match route r.path with
  | none => pure (.status 404)
  | some (segment, endpoint) =>
    match extractJobIdFromPath crates r.path with
    | none => pure (.status 400)
    | some jobId =>
      match bearer r.authorization with
      | none => pure (.status 401)
      | some token => do
        if ← validate call jobId token then
          match (crates.percentDecode segment).bind crates.parseUuid with
          | none => pure (.status 400)
          | some id => handle hasSecrets call id endpoint
        else pure (.status 401)

def createJob (jobId : Uuid) (grants : List CredentialGrant) : Work Reply := do
  let token ← createToken jobId
  storeGrants jobId grants
  if ← perform (fun e s => (e.started, s)) then pure (.created (some token))
  else
    revoke jobId
    pure (.created none)

def queuePrompt (jobId : Uuid) (prompt : PendingPrompt) : Work Reply := do
  modify (fun s => { s with
    prompts := Function.update s.prompts jobId (s.prompts jobId++[prompt])
    history := .queued jobId prompt::s.history })
  pure .done

def program (hasSecrets : Bool) (call : ℕ) : Question → Work Reply
  | .request r => workerRequest crates hasSecrets call r
  | .createJob jobId grants => createJob jobId grants
  | .stopJob jobId => do
    revoke jobId
    pure .done
  | .queuePrompt jobId prompt => queuePrompt jobId prompt

end

def Shared.new : Shared := ⟨fun _ => none, fun _ => none, fun _ => [], []⟩

end IronClaw.WorkerApi
