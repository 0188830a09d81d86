import IronClaw.HttpApproval
import IronClaw.LeakScan

/-!
# Running HTTP requests

`HttpTool::execute`: the parameters are checked, stored credentials are added
for the host, the request is scanned for secrets, and a plain `GET` follows
redirects, each scanned again. What the name service, the servers, the file
system and a replaying interceptor answer is given per call, with the number
of the connection. The result keeps next to the output the connections that
were opened. How the output is rendered is left out.
-/

set_option autoImplicit false

namespace IronClaw.HttpExecute
open IronClaw.JsonValue IronClaw.HttpApproval IronClaw.LeakScan Lib.Text

inductive IpAddr where
  | v4 (a b c d : UInt8)
  | v6 (a b c d e f g h : UInt16)
  deriving DecidableEq

structure SocketAddr where
  ip : IpAddr
  port : ℕ
  deriving DecidableEq

structure Request where
  method : String
  url : Url
  headers : List (String × String)
  body : Option String
  deriving DecidableEq

inductive SendError where
  | timeout
  | other (reason : String)
  deriving DecidableEq

structure Response where
  status : ℕ
  headers : List (String × String)
  location : Option String
  contentLength : Option String
  chunks : List (Except String (List UInt8))

structure Recorded where
  status : ℕ
  headers : List (String × String)
  body : String
  deriving DecidableEq

structure Network where
  parseIp : String → Option IpAddr
  showIp : IpAddr → String
  appendPair : Url → String → String → Url
  join : Url → String → Except String Url
  lookupHost : ℕ → String → Except String (List SocketAddr)
  buildClient : ℕ → Option String
  send : ℕ → Request → Except SendError Response
  replay : Request → Option Recorded
  resolveInTmp : String → Option String
  createParent : String → Option String
  write : String → List UInt8 → Option String

inductive Output where
  | replayed (recorded : Recorded)
  | saved (status : ℕ) (headers : List (String × String)) (path : String) (sizeBytes : ℕ)
  | received (status : ℕ) (headers : List (String × String)) (body : List UInt8)
  deriving DecidableEq

structure Connection where
  url : Url
  addrs : List SocketAddr
  deriving DecidableEq

structure Executed where
  result : Except ToolError Output
  connections : List Connection

def maxResponseSize : ℕ := 5*1024*1024

def maxSaveToSize : ℕ := 50*1024*1024

def defaultTimeoutSecs : ℕ := 30

def maxTimeoutSecs : ℕ := 300

def maxRedirects : ℕ := 3

def isDisallowedIpv4 (a b c d : UInt8) : Bool :=
  (a = 10 || a = 172 && 16 ≤ b && b ≤ 31 || a = 192 && b = 168) || a = 127 ||
    (a = 169 && b = 254) || (224 ≤ a && a ≤ 239) || (a = 0 && b = 0 && c = 0 && d = 0) ||
    (a = 169 && b = 254 && c = 169 && d = 254) || (a = 100 && b &&& 0xC0 = 64)

def isDisallowedIp : IpAddr → Bool
  | .v4 a b c d => isDisallowedIpv4 a b c d
  | .v6 a b c d e f g h =>
    (a = 0 && b = 0 && c = 0 && d = 0 && e = 0 && f = 0xffff &&
      isDisallowedIpv4 (g >>> 8).toUInt8 g.toUInt8 (h >>> 8).toUInt8 h.toUInt8) ||
    (a = 0 && b = 0 && c = 0 && d = 0 && e = 0 && f = 0 && g = 0 && h = 1) ||
    a &&& 0xfe00 = 0xfc00 || a &&& 0xffc0 = 0xfe80 || a &&& 0xff00 = 0xff00 ||
    (a = 0 && b = 0 && c = 0 && d = 0 && e = 0 && f = 0 && g = 0 && h = 0)

def decimal (cs : List Char) : Option ℕ :=
  if !cs.isEmpty && cs.all Char.isDigit then
    some (cs.foldl (fun n c => 10*n+(c.toNat-48)) 0)
  else none

/-- `str::parse::<u64>`. -/
def parseU64 (s : String) : Option ℕ :=
  match decimal (if ['+'].isPrefixOf s.toList then s.toList.tail else s.toList) with
  | some n => if n < 2^64 then some n else none
  | none => none

def parseTimeout : Option Value → Except ToolError (Option ℕ)
  | none => .ok none
  | some .null => .ok none
  | some (.number (.posInt n)) => .ok (some n.toNat)
  | some (.number _) => .error (.invalidParameters "timeout_secs must be a non-negative integer")
  | some (.string raw) =>
    if (trim raw).isEmpty then .ok none
    else match parseU64 (trim raw) with
      | some secs => .ok (some secs)
      | none => .error (.invalidParameters
          "timeout_secs string must contain a non-negative integer")
  | some _ => .error (.invalidParameters "timeout_secs must be an integer")

def parseTimeoutSecsParam (timeout : Option Value) : Except ToolError (Option ℕ) := do
  let parsed ← parseTimeout timeout
  if parsed.any (fun secs => maxTimeoutSecs < secs) then
    .error (.invalidParameters s!"timeout_secs must be <= {maxTimeoutSecs}")
  else .ok parsed

def parseSaveToParam : Option Value → Except ToolError (Option String)
  | none => .ok none
  | some .null => .ok none
  | some (.string path) => if (trim path).isEmpty then .ok none else .ok (some (trim path))
  | some _ => .error (.invalidParameters "save_to must be a string")

def requireStr (params : Value) (name : String) : Except ToolError String :=
  match (params.get name).bind Value.asStr with
  | some s => .ok s
  | none => .error (.invalidParameters s!"missing '{name}' parameter")

structure InjectedCredentials where
  headers : List (String × String)
  queryParams : List (String × String)
  deriving DecidableEq

def putEntry (name value : String) (entries : List (String × String)) :
    List (String × String) :=
  entries.filter (fun e => e.1 ≠ name)++[(name, value)]

def base64Alphabet : List Char :=
  "ABCDEFGHIJKLMNOPQRSTUVWXYZabcdefghijklmnopqrstuvwxyz0123456789+/".toList

def base64Digit (n : UInt8) : Char := base64Alphabet.getD n.toNat 'A'

def base64Encode : List UInt8 → List Char
  | [] => []
  | [b0] => [base64Digit (b0 >>> 2), base64Digit ((b0 &&& 0x03) <<< 4), '=', '=']
  | [b0, b1] => [base64Digit (b0 >>> 2), base64Digit (((b0 &&& 0x03) <<< 4) ||| (b1 >>> 4)),
      base64Digit ((b1 &&& 0x0f) <<< 2), '=']
  | b0::b1::b2::bytes =>
    base64Digit (b0 >>> 2)::base64Digit (((b0 &&& 0x03) <<< 4) ||| (b1 >>> 4))::
      base64Digit (((b1 &&& 0x0f) <<< 2) ||| (b2 >>> 6))::base64Digit (b2 &&& 0x3f)::
      base64Encode bytes

def injectCredential (result : InjectedCredentials) (location : CredentialLocation)
    (secret : String) : InjectedCredentials :=
  match location with
  | .authorizationBearer =>
    { result with headers := putEntry "Authorization" ("Bearer " ++ secret) result.headers }
  | .authorizationBasic username =>
    let encoded := String.ofList (base64Encode (username ++ ":" ++ secret).toUTF8.data.toList)
    { result with headers := putEntry "Authorization" ("Basic " ++ encoded) result.headers }
  | .header name start =>
    { result with headers := putEntry name (start.getD "" ++ secret) result.headers }
  | .queryParam name => { result with queryParams := putEntry name secret result.queryParams }
  | .urlPath _ => result

def findForHost (registry : List CredentialMapping) (host : String) : List CredentialMapping :=
  registry.filter (CredentialMapping.matchesHost host)

structure Checked where
  method : String
  url : Url
  addrs : List SocketAddr
  headers : List (String × String)
  timeoutSecs : ℕ
  saveTo : Option String
  body : Option String
  deriving DecidableEq

def isRedirect (status : ℕ) : Bool := 300 ≤ status && status < 400

section

variable (crates : Crates) (net : Network)

def validateUrl (url : String) : Except ToolError Url :=
  match crates.parseUrl url with
  | .error e => .error (.invalidParameters ("invalid URL: " ++ e))
  | .ok parsed =>
    if parsed.scheme ≠ "https" then .error (.notAuthorized "only https URLs are allowed")
    else match parsed.hostStr with
      | none => .error (.invalidParameters "URL missing host")
      | some host =>
        if crates.toLowercase host = "localhost" ||
            endsWith (crates.toLowercase host) ".localhost" then
          .error (.notAuthorized "localhost is not allowed")
        else if (net.parseIp host).any isDisallowedIp then
          .error (.notAuthorized "private or local IPs are not allowed")
        else .ok parsed

def validateAndResolveUrl (hop : ℕ) (url : Url) : Except ToolError (List SocketAddr) :=
  match url.hostStr with
  | none => .error (.invalidParameters "URL missing host")
  | some host =>
    match net.lookupHost hop (host ++ ":" ++ toString (url.port.getD 443)) with
    | .error e => .error (.externalService s!"DNS resolution failed for '{host}': {e}")
    | .ok addrs =>
      if addrs.isEmpty then
        .error (.externalService s!"DNS resolution for '{host}' returned no addresses")
      else match addrs.find? (fun addr => isDisallowedIp addr.ip) with
        | some addr => .error (.notAuthorized
            (s!"hostname '{host}' resolves to disallowed IP " ++ net.showIp addr.ip))
        | none => .ok addrs

def hostOf (url : Url) : Except ToolError String :=
  match url.hostStr with
  | none => .error (.invalidParameters "URL missing host")
  | some host => .ok host

def buildPinnedClient (hop : ℕ) : Except ToolError Unit :=
  match net.buildClient hop with
  | some e => .error (.externalService ("failed to build HTTP client: " ++ e))
  | none => .ok ()

def checkMethod (method : String) : Except ToolError Unit :=
  if ["GET", "POST", "PUT", "DELETE", "PATCH"].contains (crates.toUppercase method) then .ok ()
  else .error (.invalidParameters ("unsupported method: " ++ method))

def bodyText (params : Value) : Option String :=
  match params.get "body" with
  | none => none
  | some (.string s) =>
    if s.isEmpty then none
    else match crates.fromStr s with
      | .ok json => some (crates.print json)
      | .error _ => some s
  | some v => some (crates.print v)

def check (params : Value) : Except ToolError Checked := do
  let raw ← requireStr params "url"
  let url ← validateUrl crates net raw
  let addrs ← validateAndResolveUrl net 0 url
  let _ ← hostOf url
  let _ ← buildPinnedClient net 0
  let headers ← parseHeadersParam crates (params.get "headers")
  let timeoutSecs ← parseTimeoutSecsParam (params.get "timeout_secs")
  let saveTo ← parseSaveToParam (params.get "save_to")
  let _ ← checkMethod crates (methodOf params)
  return ⟨methodOf params, url, addrs, headers, timeoutSecs.getD defaultTimeoutSecs, saveTo,
    bodyText crates params⟩

def injectAll (store : String → String → Except String String) (userId : String) :
    List CredentialMapping → Url → List (String × String) → Url × List (String × String)
  | [], url, headers => (url, headers)
  | mapping::matched, url, headers =>
    match store userId mapping.secretName with
    | .error _ => injectAll store userId matched url headers
    | .ok secret =>
      let injected := injectCredential ⟨[], []⟩ mapping.location secret
      injectAll store userId matched
        (injected.queryParams.foldl (fun url pair => net.appendPair url pair.1 pair.2) url)
        (headers++injected.headers)

def inject (tool : HttpTool) (userId : String) (url : Url) (headers : List (String × String)) :
    Url × List (String × String) :=
  match tool.credentialRegistry, tool.secretsStore with
  | some registry, some store =>
    injectAll net store userId (findForHost registry (url.hostStr.getD "")) url headers
  | _, _ => (url, headers)

def sendFailure (timeoutSecs : ℕ) : SendError → ToolError
  | .timeout => .timeout timeoutSecs
  | .other reason => .externalService reason

def acceptHeader : String × String :=
  ("accept", "text/markdown, text/html;q=0.9, application/json;q=0.9, */*;q=0.8")

def pinHop (hop : ℕ) (url : Url) : Except ToolError (List SocketAddr) := do
  let addrs ← validateAndResolveUrl net hop url
  let _ ← hostOf url
  let _ ← buildPinnedClient net hop
  return addrs

def getHop (timeoutSecs hop : ℕ) (url : Url) : Except ToolError Response × List Connection :=
  match pinHop net hop url with
  | .error e => (.error e, [])
  | .ok addrs =>
    match net.send hop ⟨"GET", url, [acceptHeader], none⟩ with
    | .error e => (.error (sendFailure timeoutSecs e), [⟨url, addrs⟩])
    | .ok resp => (.ok resp, [⟨url, addrs⟩])

def redirectTarget (url : Url) (resp : Response) : Except ToolError Url :=
  match resp.location with
  | none => .error (.executionFailed
      ("redirect (HTTP " ++ toString resp.status ++ ") has no Location header"))
  | some location =>
    if startsWith location "http://" || startsWith location "https://" then
      validateUrl crates net location
    else match net.join url location with
      | .error e => .error (.executionFailed
          s!"could not resolve relative redirect '{location}': {e}")
      | .ok next => validateUrl crates net next.asStr

def isPathSafeMinimal (path : String) : Bool :=
  !path.toList.contains '\x00' &&
    !(["%2e", "%2f", "%5c"].any (contains (crates.toLowercase path)))

def validateSaveToPath (saveTo : String) : Except ToolError String :=
  if !startsWith saveTo "/tmp/" then
    .error (.invalidParameters "save_to path must be under /tmp/")
  else if !isPathSafeMinimal crates saveTo then
    .error (.notAuthorized ("Path contains forbidden characters or sequences: " ++ saveTo))
  else match net.resolveInTmp saveTo with
    | none => .error (.notAuthorized ("Path escapes sandbox: " ++ saveTo))
    | some path =>
      match net.createParent path with
      | some e => .error (.executionFailed ("failed to create directory: " ++ e))
      | none => .ok path

def checkContentLength (maxSize : ℕ) (resp : Response) : Except ToolError Unit :=
  match resp.contentLength.bind parseU64 with
  | none => .ok ()
  | some len =>
    if maxSize < len then .error (.executionFailed
      s!"Response Content-Length ({len} bytes) exceeds maximum allowed size ({maxSize} bytes)")
    else .ok ()

def readBody (maxSize : ℕ) :
    List UInt8 → List (Except String (List UInt8)) → Except ToolError (List UInt8)
  | body, [] => .ok body
  | _, .error e::_ => .error (.externalService ("failed to read response body: " ++ e))
  | body, .ok chunk::chunks =>
    if maxSize < body.length+chunk.length then .error (.executionFailed
      s!"Response body exceeds maximum allowed size ({maxSize} bytes)")
    else readBody maxSize (body++chunk) chunks

def saveBody (saveTo : String) (body : List UInt8) : Except ToolError Unit := do
  let path ← validateSaveToPath crates net saveTo
  match net.write path body with
  | some e => .error (.executionFailed ("failed to write file: " ++ e))
  | none => .ok ()

def finish (saveTo : Option String) (resp : Response) : Except ToolError Output := do
  let maxSize := if saveTo.isSome then maxSaveToSize else maxResponseSize
  let _ ← checkContentLength maxSize resp
  let body ← readBody maxSize [] resp.chunks
  match saveTo with
  | none => return .received resp.status resp.headers body
  | some path =>
    let _ ← saveBody crates net path body
    return .saved resp.status resp.headers path body.length

variable (compile : String → List Char → List Match)

def detector : LeakDetector := withPatterns (defaultPatterns compile)

def scanRequest (url : Url) (headers : List (String × String)) (body : Option String) :
    Except ToolError Unit :=
  match scanHttpRequest (detector compile) url.asStr headers (body.map String.toList) with
  | .error e => .error (.notAuthorized (String.ofList e.display))
  | .ok () => .ok ()

def nextHop (url : Url) (resp : Response) : Except ToolError Url := do
  let next ← redirectTarget crates net url resp
  let _ ← scanRequest compile next [] none
  return next

def followRedirects (timeoutSecs : ℕ) :
    ℕ → ℕ → Url → Except ToolError Response × List Connection
  | remaining, hop, url =>
    match getHop net timeoutSecs hop url with
    | (.error e, opened) => (.error e, opened)
    | (.ok resp, opened) =>
      if isRedirect resp.status then
        match remaining with
        | 0 => (.error (.executionFailed s!"too many redirects (max {maxRedirects})"), opened)
        | remaining+1 =>
          match nextHop crates net compile url resp with
          | .error e => (.error e, opened)
          | .ok next =>
            let rest := followRedirects timeoutSecs remaining (hop+1) next
            (rest.1, opened++rest.2)
      else (.ok resp, opened)

def sendOnce (timeoutSecs : ℕ) (request : Request) (addrs : List SocketAddr) :
    Except ToolError Response × List Connection :=
  match net.send 0 request with
  | .error e => (.error (sendFailure timeoutSecs e), [⟨request.url, addrs⟩])
  | .ok resp =>
    if isRedirect resp.status then
      (.error (.notAuthorized ("request returned redirect (HTTP " ++ toString resp.status ++
        "), which is blocked to prevent SSRF")), [⟨request.url, addrs⟩])
    else (.ok resp, [⟨request.url, addrs⟩])

def isSimpleGet (request : Request) : Bool :=
  eqIgnoreAsciiCase request.method "GET" && request.headers.isEmpty && request.body.isNone

def fetch (checked : Checked) (request : Request) : Except ToolError Response × List Connection :=
  if isSimpleGet request then
    followRedirects crates net compile checked.timeoutSecs maxRedirects 1 request.url
  else sendOnce net checked.timeoutSecs request checked.addrs

def requestOf (tool : HttpTool) (userId : String) (checked : Checked) : Request :=
  let injected := inject net tool userId checked.url checked.headers
  ⟨checked.method, injected.1, injected.2, checked.body⟩

def execute (tool : HttpTool) (userId : String) (params : Value) : Executed :=
  match check crates net params with
  | .error e => ⟨.error e, []⟩
  | .ok checked =>
    let request := requestOf net tool userId checked
    match scanRequest compile request.url request.headers request.body with
    | .error e => ⟨.error e, []⟩
    | .ok () =>
      match net.replay { request with method := crates.toUppercase request.method } with
      | some recorded => ⟨.ok (.replayed recorded), []⟩
      | none =>
        match fetch crates net compile checked request with
        | (.error e, opened) => ⟨.error e, opened⟩
        | (.ok resp, opened) => ⟨finish crates net checked.saveTo resp, opened⟩

end

end IronClaw.HttpExecute
