import IronClaw.Dispatcher
import IronClaw.Lib.Search

/-!
# Approval of HTTP requests

`tools/builtin/http.rs` decides from the parameters of a call whether it needs
approval: `ironclaw_safety/credential_detect.rs` looks for credentials in the
headers and in the address, and the registry knows the hosts that get stored
ones. The request itself is built from the same parameters by another reader
of the headers. Reading JSON text and addresses belongs to other crates.
-/

set_option autoImplicit false

namespace IronClaw.HttpApproval
open IronClaw.JsonValue IronClaw.Dispatcher Lib.Text Lib.Search

inductive ToolError where
  | invalidParameters (reason : String)
  | executionFailed (reason : String)
  | timeout (secs : ℕ)
  | notAuthorized (reason : String)
  | externalService (reason : String)
  deriving DecidableEq

structure Url where
  asStr : String
  scheme : String
  username : String
  password : Option String
  hostStr : Option String
  port : Option ℕ
  queryPairs : List (String × String)
  deriving DecidableEq

/-- `serde_json`, the `url` crate and the letters of Unicode. Errors are given
by their texts. -/
structure Crates where
  fromStr : String → Except String Value
  print : Value → String
  parseUrl : String → Except String Url
  toLowercase : String → String
  toUppercase : String → String

inductive CredentialLocation where
  | authorizationBearer
  | authorizationBasic (username : String)
  | header (name : String) (start : Option String)
  | queryParam (name : String)
  | urlPath (placeholder : String)
  deriving DecidableEq

structure CredentialMapping where
  secretName : String
  location : CredentialLocation
  hostPatterns : List String
  deriving DecidableEq

structure HttpTool where
  credentialRegistry : Option (List CredentialMapping)
  secretsStore : Option (String → String → Except String String)

def hostMatchesPattern (host pattern : String) : Bool :=
  pattern = host ||
    match stripPrefix pattern "*." with
    | some suffix =>
      if endsWith host suffix && byteLen suffix.toList < byteLen host.toList then
        let label := (slice host.toList 0
          (byteLen host.toList-byteLen suffix.toList)).getD []
        ['.'].isSuffixOf label || label.isEmpty
      else false
    | none => false

def CredentialMapping.matchesHost (host : String) (mapping : CredentialMapping) : Bool :=
  mapping.hostPatterns.any (hostMatchesPattern host)

def hasCredentialsForHost (registry : List CredentialMapping) (host : String) : Bool :=
  registry.any (CredentialMapping.matchesHost host)

def authHeaderExact : List String :=
  ["authorization", "proxy-authorization", "cookie", "x-api-key", "api-key", "x-auth-token",
   "x-token", "x-access-token", "x-session-token", "x-csrf-token", "x-secret", "x-api-secret"]

def authHeaderSubstrings : List String := ["auth", "token", "secret", "credential", "password"]

def authValuePrefixes : List String :=
  ["bearer ", "basic ", "token ", "digest ", "hoba ", "mutual ", "aws4-hmac-sha256 "]

def authQueryExact : List String :=
  ["api_key", "apikey", "api-key", "access_token", "token", "key", "secret", "password", "auth",
   "auth_token", "session_token", "client_secret", "client_id", "app_key", "app_secret", "sig",
   "signature"]

def authQuerySubstrings : List String := ["token", "secret", "auth", "password", "credential"]

/-- `eq_ignore_ascii_case`. -/
def eqIgnoreAsciiCase (s t : String) : Bool :=
  s.toList.map Char.toLower = t.toList.map Char.toLower

section

variable (crates : Crates)

def nameIsCredential (exactNames parts : List String) (name : String) : Bool :=
  exactNames.contains (crates.toLowercase name) ||
    parts.any (contains (crates.toLowercase name))

def headerNameIsCredential (name : String) : Bool :=
  nameIsCredential crates authHeaderExact authHeaderSubstrings name

def headerValueIsCredential (value : String) : Bool :=
  authValuePrefixes.any (startsWith (crates.toLowercase value))

def queryParamIsCredential (name : String) : Bool :=
  nameIsCredential crates authQueryExact authQuerySubstrings name

def fieldSatisfies (v : Value) (field : String) (p : String → Bool) : Bool :=
  ((v.get field).bind Value.asStr).any p

def headersContainCredentials (params : Value) : Bool :=
  match params.get "headers" with
  | some (.object map) => map.any (fun kv => headerNameIsCredential crates kv.1 ||
      kv.2.asStr.any (headerValueIsCredential crates))
  | some (.array items) => items.any (fun item =>
      fieldSatisfies item "name" (headerNameIsCredential crates) ||
      fieldSatisfies item "value" (headerValueIsCredential crates))
  | _ => false

def urlOfParams (params : Value) : Option Url :=
  match (params.get "url").bind Value.asStr with
  | none => none
  | some url =>
    match crates.parseUrl url with
    | .ok parsed => some parsed
    | .error _ => none

def urlContainsCredentialParams (params : Value) : Bool :=
  match urlOfParams crates params with
  | some parsed => parsed.queryPairs.any (fun pair => queryParamIsCredential crates pair.1)
  | none => false

def urlContainsUserinfo (params : Value) : Bool :=
  match urlOfParams crates params with
  | some parsed => !parsed.username.isEmpty || parsed.password.isSome
  | none => false

def paramsContainManualCredentials (params : Value) : Bool :=
  headersContainCredentials crates params || urlContainsCredentialParams crates params ||
    urlContainsUserinfo crates params

def extractHostFromParams (params : Value) : Option String :=
  (urlOfParams crates params).bind Url.hostStr

def registryHasCredentials (tool : HttpTool) (params : Value) : Bool :=
  tool.credentialRegistry.any (fun registry =>
    (extractHostFromParams crates params).any (hasCredentialsForHost registry))

def methodOf (params : Value) : String := ((params.get "method").bind Value.asStr).getD "GET"

def requiresApproval (tool : HttpTool) (params : Value) : ApprovalRequirement :=
  if paramsContainManualCredentials crates params || registryHasCredentials crates tool params then
    .unlessAutoApproved
  else if eqIgnoreAsciiCase (methodOf params) "GET" then .never
  else .unlessAutoApproved

def parseHeaderObject : Fields → Except ToolError (List (String × String))
  | [] => .ok []
  | (k, v)::map =>
    match v.asStr with
    | none => .error (.invalidParameters s!"header '{k}' must have a string value")
    | some value =>
      match parseHeaderObject map with
      | .error e => .error e
      | .ok out => .ok ((k, value)::out)

def parseHeaderArray (idx : ℕ) : List Value → Except ToolError (List (String × String))
  | [] => .ok []
  | .object obj::items =>
    match (lookup "name" obj).bind Value.asStr with
    | none => .error (.invalidParameters s!"headers[{idx}].name must be a string")
    | some name =>
      match (lookup "value" obj).bind Value.asStr with
      | none => .error (.invalidParameters s!"headers[{idx}].value must be a string")
      | some value =>
        match parseHeaderArray (idx+1) items with
        | .error e => .error e
        | .ok out => .ok ((name, value)::out)
  | _::_ => .error (.invalidParameters
      s!"headers[{idx}] must be an object with 'name' and 'value'")

def parseHeadersParam : Option Value → Except ToolError (List (String × String))
  | none => .ok []
  | some (.string raw) =>
    if (trim raw).isEmpty then .ok []
    else match crates.fromStr (trim raw) with
      | .error e => .error (.invalidParameters
          ("headers string must contain valid JSON object/array: " ++ e))
      | .ok (.object map) => parseHeaderObject map
      | .ok (.array items) => parseHeaderArray 0 items
      | .ok _ => .error (.invalidParameters
          "headers string must decode to a JSON object or array")
  | some (.object map) => parseHeaderObject map
  | some (.array items) => parseHeaderArray 0 items
  | some _ => .error (.invalidParameters
      "'headers' must be an object or an array of \x7bname, value\x7d")

def isCredentialHeader (header : String × String) : Bool :=
  headerNameIsCredential crates header.1 || headerValueIsCredential crates header.2

def CarriesCredentials (params : Value) : Prop :=
  (∃ headers, parseHeadersParam crates (params.get "headers") = .ok headers ∧
    headers.any (isCredentialHeader crates) = true) ∨
  urlContainsCredentialParams crates params = true ∨ urlContainsUserinfo crates params = true

def CredentialText (params : Value) : Prop :=
  ∃ raw headers, params.get "headers" = some (.string raw) ∧
    parseHeadersParam crates (some (.string raw)) = .ok headers ∧
    headers.any (isCredentialHeader crates) = true

def AskedAnyway (tool : HttpTool) (params : Value) : Prop :=
  eqIgnoreAsciiCase (methodOf params) "GET" = false ∨
  urlContainsCredentialParams crates params = true ∨ urlContainsUserinfo crates params = true ∨
  registryHasCredentials crates tool params = true

theorem object_detected (map : Fields) (headers : List (String × String))
    (h : parseHeaderObject map = .ok headers) :
    map.any (fun kv => headerNameIsCredential crates kv.1 ||
      kv.2.asStr.any (headerValueIsCredential crates)) =
        headers.any (isCredentialHeader crates) := by
  induction map generalizing headers with
  | nil =>
    rw [← Except.ok.inj h]
    rfl
  | cons kv map ih =>
    rw [parseHeaderObject] at h
    split at h
    · cases h
    · next value hvalue =>
      split at h
      · cases h
      · next out hout =>
        rw [← Except.ok.inj h, List.any_cons, List.any_cons, ih out hout, hvalue,
          Option.any_some, isCredentialHeader]

theorem array_detected (idx : ℕ) (items : List Value) (headers : List (String × String))
    (h : parseHeaderArray idx items = .ok headers) :
    items.any (fun item => fieldSatisfies item "name" (headerNameIsCredential crates) ||
      fieldSatisfies item "value" (headerValueIsCredential crates)) =
        headers.any (isCredentialHeader crates) := by
  induction items generalizing idx headers with
  | nil =>
    rw [← Except.ok.inj h]
    rfl
  | cons item items ih =>
    cases item with
    | object obj =>
      rw [parseHeaderArray] at h
      split at h
      · cases h
      · next name hname =>
        split at h
        · cases h
        · next value hvalue =>
          split at h
          · cases h
          · next out hout =>
            have hfirst : fieldSatisfies (.object obj) "name" (headerNameIsCredential crates) =
                headerNameIsCredential crates name := by
              rw [fieldSatisfies, Value.get, hname, Option.any_some]
            have hsecond : fieldSatisfies (.object obj) "value"
                (headerValueIsCredential crates) = headerValueIsCredential crates value := by
              rw [fieldSatisfies, Value.get, hvalue, Option.any_some]
            rw [← Except.ok.inj h, List.any_cons, List.any_cons, ih (idx+1) out hout, hfirst,
              hsecond, isCredentialHeader]
    | null => cases h
    | bool b => cases h
    | number n => cases h
    | string s => cases h
    | array xs => cases h

/-- The detector agrees with the reader of the headers, except on JSON text. -/
theorem headers_detected (params : Value) (headers : List (String × String))
    (h : parseHeadersParam crates (params.get "headers") = .ok headers)
    (htext : ∀ raw, params.get "headers" ≠ some (.string raw)) :
    headersContainCredentials crates params = headers.any (isCredentialHeader crates) := by
  rw [headersContainCredentials]
  cases hget : params.get "headers" with
  | none =>
    rw [hget] at h
    rw [← Except.ok.inj h]
    rfl
  | some v =>
    rw [hget] at h
    cases v with
    | string raw => exact absurd hget (htext raw)
    | object map => exact object_detected crates map headers h
    | array items => exact array_detected crates 0 items headers h
    | null => cases h
    | bool b => cases h
    | number n => cases h

theorem text_undetected (params : Value) (raw : String)
    (h : params.get "headers" = some (.string raw)) :
    headersContainCredentials crates params = false := by
  rw [headersContainCredentials, h]

theorem requiresApproval_never_iff (tool : HttpTool) (params : Value) :
    requiresApproval crates tool params = .never ↔
      headersContainCredentials crates params = false ∧ ¬ AskedAnyway crates tool params := by
  rw [requiresApproval, paramsContainManualCredentials, AskedAnyway]
  cases headersContainCredentials crates params <;>
    cases urlContainsCredentialParams crates params <;>
    cases urlContainsUserinfo crates params <;>
    cases registryHasCredentials crates tool params <;>
    cases eqIgnoreAsciiCase (methodOf params) "GET" <;> decide

/-- A request with credentials asks for approval, exactly when headers that are
given as JSON text hold none, or something else asks for it. -/
theorem approval_sees_credentials_iff (tool : HttpTool) (params : Value) :
    (CarriesCredentials crates params → requiresApproval crates tool params ≠ .never) ↔
      (CredentialText crates params → AskedAnyway crates tool params) := by
  rw [ne_eq, requiresApproval_never_iff]
  constructor
  · rintro hseen ⟨raw, headers, hget, hparsed, hany⟩
    have hcarries : CarriesCredentials crates params :=
      Or.inl ⟨headers, by rw [hget, hparsed], hany⟩
    by_contra hnot
    exact hseen hcarries ⟨text_undetected crates params raw hget, hnot⟩
  · rintro hasked (⟨headers, hparsed, hany⟩ | hurl) ⟨hheaders, hnot⟩
    · by_cases htext : ∃ raw, params.get "headers" = some (.string raw)
      · obtain ⟨raw, hget⟩ := htext
        rw [hget] at hparsed
        exact hnot (hasked ⟨raw, headers, hget, hparsed, hany⟩)
      · have hdetected := headers_detected crates params headers hparsed (not_exists.mp htext)
        rw [hheaders, hany] at hdetected
        cases hdetected
    · rcases hurl with hurl | hurl
      · exact hnot (Or.inr (Or.inl hurl))
      · exact hnot (Or.inr (Or.inr (Or.inl hurl)))

end

def sampleCrates : Crates :=
  { fromStr := fun s =>
      if s = "\x7b\"Authorization\":\"Bearer t\"\x7d" then
        .ok (.object [("Authorization", .string "Bearer t")])
      else .error "expected value at line 1 column 1"
    print := fun _ => ""
    parseUrl := fun s =>
      if s = "https://api.example.com/" then
        .ok ⟨s, "https", "", none, some "api.example.com", some 443, []⟩
      else .error "relative URL without a base"
    toLowercase := fun s => String.ofList (s.toList.map Char.toLower)
    toUppercase := fun s => String.ofList (s.toList.map Char.toUpper) }

theorem text_headers_unseen :
    ¬ (CarriesCredentials sampleCrates (.object
        [("headers", .string "\x7b\"Authorization\":\"Bearer t\"\x7d"),
         ("url", .string "https://api.example.com/")]) →
      requiresApproval sampleCrates ⟨none, none⟩ (.object
        [("headers", .string "\x7b\"Authorization\":\"Bearer t\"\x7d"),
         ("url", .string "https://api.example.com/")]) ≠ .never) := by
  intro h
  apply h
  · left
    exact ⟨[("Authorization", "Bearer t")], by decide, by decide⟩
  · decide

end IronClaw.HttpApproval
