import IronClaw.HostPatterns

/-!
# The proxy of the sandbox

`sandbox/proxy/http.rs` asks the decider once, about the host of the request,
and hands the request with the injected credential to the HTTP client. The
client goes on to wherever the servers redirect it, at most ten times; on a
change of host it drops three headers and keeps the others. What is injected is
marked, so that it can be followed along the redirects. The addresses that the
servers answer with, the parser of addresses and the texts of the client are
inputs.
-/

set_option autoImplicit false

namespace IronClaw.SandboxProxy
open IronClaw.HostPatterns IronClaw.HttpApproval Lib.Text Lib.Letters

structure Address where
  asStr : String
  scheme : String
  hostStr : Option String
  path : String
  deriving DecidableEq

structure Header where
  name : String
  value : String
  injected : Bool
  deriving DecidableEq

structure Outgoing where
  address : Address
  added : List (String × String)
  headers : List Header
  deriving DecidableEq

structure Crates where
  tables : Tables
  parse : String → Option Address
  toUppercase : String → String
  acceptsHeader : String → String → Bool
  refers : Address → Address → Bool
  refererText : Outgoing → String

structure Authority where
  userinfo : Option String
  host : String
  port : Option ℕ
  deriving DecidableEq

structure Incoming where
  method : String
  uri : String
  authority : Option Authority
  headers : List (String × Option String)
  bodyRead : Bool

structure NetworkRequest where
  method : String
  url : String
  host : String
  path : String
  deriving DecidableEq

inductive DomainValidationResult where
  | allowed
  | denied (reason : String)
  deriving DecidableEq

inductive NetworkDecision where
  | allow
  | allowWithCredentials (secretName : String) (location : CredentialLocation)
  | deny (reason : String)
  deriving DecidableEq

structure DefaultPolicyDecider where
  allowlist : List DomainPattern
  credentialMappings : List CredentialMapping

inductive Answer where
  | badRequest (text : String)
  | forbidden (reason : String)
  | established
  | unreadBody
  | sent
  deriving DecidableEq

structure Exchange where
  answer : Answer
  tunnels : List String
  requests : List Outgoing

def sameName (a b : String) : Bool := a.toList.map Char.toLower = b.toList.map Char.toLower

def droppedAcross (name : String) : Bool :=
  ["authorization", "cookie", "proxy-authorization"].any (sameName name)

section

variable (crates : Crates)

def hopByHop : List String :=
  ["connection", "keep-alive", "proxy-authenticate", "proxy-authorization", "te", "trailers",
   "transfer-encoding", "upgrade"]

def isHopByHopHeader (name : String) : Bool := hopByHop.contains (lowered crates.tables name)

def unbracketed (host : String) : String :=
  match stripPrefix host "[" with
  | some rest =>
    if endsWith rest "]" then String.ofList (rest.toList.take (rest.toList.length-1)) else host
  | none => host

def requestHost (address : Address) : Option String :=
  if address.scheme = "http" || address.scheme = "https" then
    address.hostStr.map (fun host => lowered crates.tables (unbracketed host))
  else none

def NetworkRequest.fromUrl (method url : String) : Option NetworkRequest :=
  (crates.parse url).bind (fun parsed =>
    (requestHost crates parsed).map (fun host =>
      ⟨crates.toUppercase method, url, host, parsed.path⟩))

def isAllowed (allowlist : List DomainPattern) (host : String) : DomainValidationResult :=
  if allowlist.isEmpty then .denied "empty allowlist"
  else if allowlist.any (fun p => p.matches crates.tables host) then .allowed
  else .denied ("host '" ++ host ++ "' not in allowlist: [" ++
    ", ".intercalate (allowlist.map DomainPattern.pattern) ++ "]")

def covers (mapping : CredentialMapping) (host : String) : Bool :=
  mapping.hostPatterns.any (fun pattern =>
    policyMatches crates.tables (lowered crates.tables host) pattern = some true)

def findCredential (decider : DefaultPolicyDecider) (host : String) : Option CredentialMapping :=
  decider.credentialMappings.find? (fun m => covers crates m host)

def DefaultPolicyDecider.decide (decider : DefaultPolicyDecider) (request : NetworkRequest) : NetworkDecision :=
  match isAllowed crates decider.allowlist request.host with
  | .denied reason => .deny reason
  | .allowed =>
    match findCredential crates decider request.host with
    | some mapping => .allowWithCredentials mapping.secretName mapping.location
    | none => .allow

def inject (location : CredentialLocation) (credential : String) (request : Outgoing) :
    Option Outgoing :=
  match location with
  | .authorizationBearer => withHeader "Authorization" ("Bearer " ++ credential)
  | .header name start => withHeader name (start.getD "" ++ credential)
  | .queryParam name => some { request with added := request.added++[(name, credential)] }
  | .authorizationBasic _ => some request
  | .urlPath _ => some request
where
  withHeader (name value : String) : Option Outgoing :=
    if crates.acceptsHeader name value then
      some { request with headers := request.headers++[⟨name, value, true⟩] }
    else none

def redirected (request : Outgoing) (next : Address) : Outgoing :=
  let headers := if crates.refers request.address next then
      request.headers.filter (fun h => !sameName h.name "referer")++
        [⟨"referer", crates.refererText request, !request.added.isEmpty⟩]
    else request.headers
  let headers := if next.hostStr = request.address.hostStr then headers
    else headers.filter (fun h => !droppedAcross h.name)
  ⟨next, [], headers⟩

def followed (locations : List Address) : List Address :=
  (locations.take 10).takeWhile (fun address => (requestHost crates address).isSome)

def exchanged (request : Outgoing) : List Address → List Outgoing
  | [] => [request]
  | next::rest => request::exchanged (redirected crates request next) rest

def forwardedHeaders (headers : List (String × Option String)) : List Header :=
  headers.filterMap (fun h =>
    if isHopByHopHeader crates h.1 then none else h.2.map (fun value => ⟨h.1, value, false⟩))

variable (decider : DefaultPolicyDecider) (resolve : String → Option String)
variable (locations : List Address)

def injectDecided (decision : NetworkDecision) (request : Outgoing) : Option Outgoing :=
  match decision with
  | .allowWithCredentials secretName location =>
    match resolve secretName with
    | some credential => inject crates location credential request
    | none => some request
  | _ => some request

def forwardRequest (incoming : Incoming) (decision : NetworkDecision) : Exchange :=
  match crates.parse incoming.uri with
  | none => ⟨.sent, [], []⟩
  | some address =>
    let built := injectDecided crates resolve decision
      ⟨address, [], forwardedHeaders crates incoming.headers⟩
    if !incoming.bodyRead then ⟨.unreadBody, [], []⟩
    else
      match built with
      | none => ⟨.sent, [], []⟩
      | some request => ⟨.sent, [], exchanged crates request (followed crates locations)⟩

def dialled (authority : Authority) : List String :=
  match authority.userinfo, authority.port with
  | none, some _ => [authority.host]
  | _, _ => []

def handleConnect (incoming : Incoming) : Exchange :=
  match incoming.authority with
  | none => ⟨.badRequest "Missing host", [], []⟩
  | some authority =>
    match decider.decide crates
        ⟨"CONNECT", "https://" ++ authority.host, authority.host, "/"⟩ with
    | .deny reason => ⟨.forbidden reason, [], []⟩
    | _ => ⟨.established, dialled authority, []⟩

def handleRequest (incoming : Incoming) : Exchange :=
  if incoming.method = "CONNECT" then handleConnect crates decider incoming
  else
    match NetworkRequest.fromUrl crates incoming.method incoming.uri with
    | none => ⟨.badRequest "Invalid URL", [], []⟩
    | some request =>
      match decider.decide crates request with
      | .deny reason => ⟨.forbidden reason, [], []⟩
      | decision => forwardRequest crates resolve locations incoming decision

def Outgoing.Carries (request : Outgoing) : Prop :=
  request.added ≠ [] ∨ ∃ h ∈ request.headers, h.injected = true

def Allowed (host : String) : Prop := isAllowed crates decider.allowlist host = .allowed

def mappingFor (incoming : Incoming) : Option CredentialMapping :=
  (NetworkRequest.fromUrl crates incoming.method incoming.uri).bind
    (fun request => findCredential crates decider request.host)

structure Contained (incoming : Incoming) (x : Exchange) : Prop where
  tunnels : ∀ host ∈ x.tunnels, Allowed crates decider host
  requests : ∀ r ∈ x.requests, ∀ host, requestHost crates r.address = some host →
    Allowed crates decider host
  secrets : ∀ r ∈ x.requests, r.Carries → ∀ host, requestHost crates r.address = some host →
    ∃ m, mappingFor crates decider incoming = some m ∧ covers crates m host = true

def Keeps (name : String) (here next : Address) : Prop :=
  (next.hostStr ≠ here.hostStr → droppedAcross name = false) ∧
    (crates.refers here next = true → sameName name "referer" = false)

def Stays (name : String) : Address → List Address → Prop
  | _, [] => True
  | here, next::rest => Keeps crates name here next ∧ Stays name next rest

def Reaches (location : CredentialLocation) (first : Address) (way : List Address) : Prop :=
  match location with
  | .authorizationBearer => Stays crates "Authorization" first way
  | .header name _ => Stays crates name first way
  | .queryParam _ =>
    match way with
    | [] => True
    | next::rest => crates.refers first next = true ∧ Stays crates "referer" next rest
  | .authorizationBasic _ => False
  | .urlPath _ => False

def Buildable (first : Address) (mapping : Option CredentialMapping) : Prop :=
  ∀ m credential, mapping = some m → resolve m.secretName = some credential →
    (inject crates m.location credential ⟨first, [], []⟩).isSome

def SentOff (incoming : Incoming) (first : Address) : Prop :=
  incoming.method ≠ "CONNECT" ∧ incoming.bodyRead = true ∧
    crates.parse incoming.uri = some first ∧
    (∃ host, requestHost crates first = some host ∧ Allowed crates decider host) ∧
    Buildable crates resolve first (mappingFor crates decider incoming)

variable (incoming : Incoming) (request : Outgoing) (location : CredentialLocation)
  (credential : String) (first : Address)

theorem mem_exchanged (addresses : List Address) (r : Outgoing) :
    r ∈ exchanged crates request addresses ↔
      ∃ way, way <+: addresses ∧ r = way.foldl (redirected crates) request := by
  induction addresses generalizing request with
  | nil =>
    rw [exchanged, List.mem_singleton]
    constructor
    · intro h
      exact ⟨[], List.nil_prefix, h⟩
    · intro ⟨way, hway, h⟩
      rw [List.prefix_nil.mp hway] at h
      exact h
  | cons next rest ih =>
    rw [exchanged, List.mem_cons, ih]
    constructor
    · rintro (h | ⟨way, hway, h⟩)
      · exact ⟨[], List.nil_prefix, h⟩
      · exact ⟨next::way, (List.prefix_cons_inj next).mpr hway, h⟩
    · intro ⟨way, hway, h⟩
      cases way with
      | nil => exact .inl h
      | cons a way =>
        obtain ⟨rfl, hrest⟩ := List.cons_prefix_cons.mp hway
        exact .inr ⟨way, hrest, h⟩

theorem way_address (way : List Address) :
    (way.foldl (redirected crates) request).address = (request.address::way).getLast
      (List.cons_ne_nil _ _) := by
  induction way generalizing request with
  | nil => rfl
  | cons next rest ih =>
    rw [List.foldl_cons, ih]
    rfl

def HeldIn (name : String) (request : Outgoing) : Prop :=
  request.added = [] ∧ ∀ h ∈ request.headers, h.injected = true → h.name = name

theorem mem_redirected (next : Address) (h : Header) :
    h ∈ (redirected crates request next).headers ↔
      (h ∈ request.headers ∧
          (crates.refers request.address next = true → sameName h.name "referer" = false) ∨
        crates.refers request.address next = true ∧
          h = ⟨"referer", crates.refererText request, !request.added.isEmpty⟩) ∧
      (next.hostStr ≠ request.address.hostStr → droppedAcross h.name = false) := by
  unfold redirected
  by_cases hhost : next.hostStr = request.address.hostStr
  · by_cases hrefers : crates.refers request.address next = true <;> simp [hrefers, hhost]
  · by_cases hrefers : crates.refers request.address next = true
    · simp only [hrefers, hhost, if_true, if_false, List.mem_filter, List.mem_append,
        List.mem_singleton, Bool.not_eq_true', ne_eq, not_false_eq_true, forall_const, true_and]
    · simp [hrefers, hhost]

theorem redirected_held (name : String) (request : Outgoing) (next : Address)
    (h : HeldIn name request) :
    HeldIn name (redirected crates request next) ∧
      ((redirected crates request next).Carries ↔
        request.Carries ∧ Keeps crates name request.address next) := by
  have hplain : ∀ g : Header, g = ⟨"referer", crates.refererText request,
      !request.added.isEmpty⟩ → g.injected = false := by
    intro g hg
    rw [hg, h.1]
    rfl
  constructor
  · refine ⟨rfl, fun g hg hinjected => ?_⟩
    rcases ((mem_redirected crates request next g).mp hg).1 with ⟨hmem, -⟩ | ⟨-, hg⟩
    · exact h.2 g hmem hinjected
    · rw [hplain g hg] at hinjected
      cases hinjected
  · constructor
    · rintro (hadded | ⟨g, hg, hinjected⟩)
      · exact absurd rfl hadded
      · obtain ⟨hin, hhost⟩ := (mem_redirected crates request next g).mp hg
        rcases hin with ⟨hmem, hrefers⟩ | ⟨-, hg⟩
        · rw [h.2 g hmem hinjected] at hhost hrefers
          exact ⟨.inr ⟨g, hmem, hinjected⟩, hhost, hrefers⟩
        · rw [hplain g hg] at hinjected
          cases hinjected
    · rintro ⟨hadded | ⟨g, hmem, hinjected⟩, hhost, hrefers⟩
      · exact absurd h.1 hadded
      · rw [← h.2 g hmem hinjected] at hhost hrefers
        exact .inr ⟨g, (mem_redirected crates request next g).mpr
          ⟨.inl ⟨hmem, hrefers⟩, hhost⟩, hinjected⟩

theorem way_held (name : String) (request : Outgoing) (way : List Address)
    (h : HeldIn name request) :
    (way.foldl (redirected crates) request).Carries ↔
      request.Carries ∧ Stays crates name request.address way := by
  induction way generalizing request with
  | nil => simp [Stays]
  | cons next rest ih =>
    obtain ⟨hheld, hcarries⟩ := redirected_held crates name request next h
    rw [List.foldl_cons, ih _ hheld, hcarries, Stays, and_assoc]
    rfl

/-- A query pair is left behind, and named by the next request. -/
theorem redirected_query (next : Address) (hadded : request.added ≠ [])
    (hplain : ∀ h ∈ request.headers, h.injected = false) :
    HeldIn "referer" (redirected crates request next) ∧
      ((redirected crates request next).Carries ↔ crates.refers request.address next = true) := by
  constructor
  · refine ⟨rfl, fun g hg hinjected => ?_⟩
    rcases ((mem_redirected crates request next g).mp hg).1 with ⟨hmem, -⟩ | ⟨-, hg⟩
    · rw [hplain g hmem] at hinjected
      cases hinjected
    · rw [hg]
  · constructor
    · rintro (hnone | ⟨g, hg, hinjected⟩)
      · exact absurd rfl hnone
      · rcases ((mem_redirected crates request next g).mp hg).1 with ⟨hmem, -⟩ | ⟨hrefers, -⟩
        · rw [hplain g hmem] at hinjected
          cases hinjected
        · exact hrefers
    · intro hrefers
      have hkept : droppedAcross "referer" = false := by decide
      refine .inr ⟨⟨"referer", crates.refererText request, !request.added.isEmpty⟩,
        (mem_redirected crates request next _).mpr ⟨.inr ⟨hrefers, rfl⟩, fun _ => hkept⟩, ?_⟩
      simpa using hadded

theorem forwarded_plain (headers : List (String × Option String)) :
    ∀ h ∈ forwardedHeaders crates headers, h.injected = false := by
  intro h hmem
  obtain ⟨g, -, hg⟩ := List.mem_filterMap.mp hmem
  split at hg
  · cases hg
  · obtain ⟨value, -, rfl⟩ := Option.map_eq_some_iff.mp hg
    rfl

theorem added_carries (name value : String) (request : Outgoing) (way : List Address)
    (hadded : request.added = []) (hplain : ∀ h ∈ request.headers, h.injected = false) :
    (way.foldl (redirected crates)
        { request with headers := request.headers++[⟨name, value, true⟩] }).Carries ↔
      Stays crates name request.address way := by
  have hheld : HeldIn name { request with headers := request.headers++[⟨name, value, true⟩] } := by
    refine ⟨hadded, fun g hg hinjected => ?_⟩
    rcases List.mem_append.mp hg with hmem | hlast
    · rw [hplain g hmem] at hinjected
      cases hinjected
    · rw [List.mem_singleton.mp hlast]
  rw [way_held crates name _ way hheld]
  constructor
  · intro h
    exact h.2
  · intro h
    exact ⟨.inr ⟨⟨name, value, true⟩, by simp, rfl⟩, h⟩

theorem plain_carries (way : List Address) (hadded : request.added = [])
    (hplain : ∀ h ∈ request.headers, h.injected = false) :
    ¬ (way.foldl (redirected crates) request).Carries := by
  have hheld : HeldIn "" request := by
    refine ⟨hadded, fun g hg hinjected => ?_⟩
    rw [hplain g hg] at hinjected
    cases hinjected
  rw [way_held crates "" request way hheld]
  rintro ⟨hnone | ⟨g, hg, hinjected⟩, -⟩
  · exact hnone hadded
  · rw [hplain g hg] at hinjected
    cases hinjected

/-- Where the injected credential is found along the redirects. -/
theorem injected_reaches (request sent : Outgoing) (way : List Address)
    (hadded : request.added = []) (hplain : ∀ h ∈ request.headers, h.injected = false)
    (h : inject crates location credential request = some sent) :
    (way.foldl (redirected crates) sent).Carries ↔
      Reaches crates location request.address way := by
  cases location with
  | authorizationBearer =>
    simp only [inject, inject.withHeader] at h
    split at h
    · cases h
      exact added_carries crates _ _ request way hadded hplain
    · cases h
  | header name start =>
    simp only [inject, inject.withHeader] at h
    split at h
    · cases h
      exact added_carries crates _ _ request way hadded hplain
    · cases h
  | queryParam name =>
    cases h
    cases way with
    | nil =>
      simp [Reaches, Outgoing.Carries]
    | cons next rest =>
      obtain ⟨hheld, hcarries⟩ := redirected_query crates
        { request with added := request.added++[(name, credential)] } next (by simp) hplain
      rw [List.foldl_cons, way_held crates "referer" _ rest hheld, hcarries]
      rfl
  | authorizationBasic username =>
    cases h
    exact iff_of_false (plain_carries crates request way hadded hplain) id
  | urlPath placeholder =>
    cases h
    exact iff_of_false (plain_carries crates request way hadded hplain) id

theorem inject_address (request sent : Outgoing)
    (h : inject crates location credential request = some sent) :
    sent.address = request.address := by
  cases location <;> simp only [inject, inject.withHeader] at h <;> (try split at h) <;>
    cases h <;> rfl

theorem inject_isSome (request request' : Outgoing) :
    (inject crates location credential request).isSome =
      (inject crates location credential request').isSome := by
  cases location <;> simp only [inject, inject.withHeader] <;> (try split) <;> rfl

theorem decide_cases (request : NetworkRequest) :
    (¬ Allowed crates decider request.host ∧ ∃ reason, decider.decide crates request = .deny reason) ∨
      Allowed crates decider request.host ∧
        ((∃ m, findCredential crates decider request.host = some m ∧
            decider.decide crates request = .allowWithCredentials m.secretName m.location) ∨
          findCredential crates decider request.host = none ∧
            decider.decide crates request = .allow) := by
  unfold Allowed DefaultPolicyDecider.decide
  cases hallowed : isAllowed crates decider.allowlist request.host with
  | denied reason => exact .inl ⟨nofun, reason, rfl⟩
  | allowed =>
    cases hfind : findCredential crates decider request.host with
    | some m => exact .inr ⟨rfl, .inl ⟨m, rfl, rfl⟩⟩
    | none => exact .inr ⟨rfl, .inr ⟨rfl, rfl⟩⟩

/-- A tunnel is opened to a host that was allowed, and the client stays out of
it. -/
theorem connect_contained :
    (handleConnect crates decider incoming).requests = [] ∧
      ∀ host ∈ (handleConnect crates decider incoming).tunnels, Allowed crates decider host := by
  unfold handleConnect
  cases incoming.authority with
  | none => exact ⟨rfl, fun _ hmem => nomatch hmem⟩
  | some authority =>
    have hhost : ∀ host ∈ dialled authority, host = authority.host := by
      intro host hmem
      unfold dialled at hmem
      split at hmem
      · exact List.mem_singleton.mp hmem
      · cases hmem
    rcases decide_cases crates decider
        ⟨"CONNECT", "https://" ++ authority.host, authority.host, "/"⟩ with
      ⟨-, reason, hdeny⟩ | ⟨hallowed, ⟨m, -, hcred⟩ | ⟨-, hallow⟩⟩
    · simp [hdeny]
    · simp only [hcred, true_and]
      intro host hmem
      rw [hhost host hmem]
      exact hallowed
    · simp only [hallow, true_and]
      intro host hmem
      rw [hhost host hmem]
      exact hallowed

theorem forward_tunnels (decision : NetworkDecision) :
    (forwardRequest crates resolve locations incoming decision).tunnels = [] := by
  unfold forwardRequest
  split
  · rfl
  · simp only
    split
    · rfl
    · split <;> rfl

theorem tunnels_allowed :
    ∀ host ∈ (handleRequest crates decider resolve locations incoming).tunnels,
      Allowed crates decider host := by
  unfold handleRequest
  split
  · exact (connect_contained crates decider incoming).2
  · split
    · exact fun _ hmem => nomatch hmem
    · split
      · exact fun _ hmem => nomatch hmem
      · rw [forward_tunnels]
        exact fun _ hmem => nomatch hmem

def decidedOn (incoming : Incoming) (first : Address) (host : String) : NetworkRequest :=
  ⟨crates.toUppercase incoming.method, incoming.uri, host, first.path⟩

theorem fromUrl_eq (host : String) (hparse : crates.parse incoming.uri = some first)
    (hhost : requestHost crates first = some host) :
    NetworkRequest.fromUrl crates incoming.method incoming.uri =
      some (decidedOn crates incoming first host) := by
  simp only [NetworkRequest.fromUrl, decidedOn, hparse, Option.bind_some, hhost, Option.map_some]

theorem fromUrl_none (h : ∀ first host, crates.parse incoming.uri = some first →
      requestHost crates first ≠ some host) :
    NetworkRequest.fromUrl crates incoming.method incoming.uri = none := by
  cases hparse : crates.parse incoming.uri with
  | none => simp [NetworkRequest.fromUrl, hparse]
  | some first =>
    have hnone : requestHost crates first = none :=
      Option.eq_none_iff_forall_ne_some.mpr (fun host => h first host hparse)
    simp [NetworkRequest.fromUrl, hparse, hnone]

def base (incoming : Incoming) (first : Address) : Outgoing :=
  ⟨first, [], forwardedHeaders crates incoming.headers⟩

/-- The client's request after the injection that was decided on. -/
theorem decided_injection (request : NetworkRequest)
    (hallowed : Allowed crates decider request.host) :
    injectDecided crates resolve (decider.decide crates request) (base crates incoming first) =
        none ∧ ¬ Buildable crates resolve first (findCredential crates decider request.host) ∨
      ∃ sent, injectDecided crates resolve (decider.decide crates request)
          (base crates incoming first) = some sent ∧ sent.address = first ∧
        Buildable crates resolve first (findCredential crates decider request.host) ∧
        ∀ way, (way.foldl (redirected crates) sent).Carries ↔
          ∃ m credential, findCredential crates decider request.host = some m ∧
            resolve m.secretName = some credential ∧ Reaches crates m.location first way := by
  have hplain := forwarded_plain crates incoming.headers
  have hnever := fun way => plain_carries crates (base crates incoming first) way rfl hplain
  rcases decide_cases crates decider request with
    ⟨hdenied, -⟩ | ⟨-, ⟨m, hfind, hdecide⟩ | ⟨hfind, hdecide⟩⟩
  · exact absurd hallowed hdenied
  · rw [hdecide, hfind]
    cases hsecret : resolve m.secretName with
    | none =>
      right
      refine ⟨base crates incoming first, by simp only [injectDecided, hsecret], rfl, ?_, ?_⟩
      · intro m' credential hm hcred
        cases hm
        rw [hsecret] at hcred
        cases hcred
      · intro way
        refine iff_of_false (hnever way) ?_
        intro ⟨m', credential, hm, hcred, _⟩
        cases hm
        rw [hsecret] at hcred
        cases hcred
    | some credential =>
      have hsome := inject_isSome crates m.location credential (base crates incoming first)
        ⟨first, [], []⟩
      cases hinject : inject crates m.location credential (base crates incoming first) with
      | none =>
        left
        refine ⟨by simp only [injectDecided, hsecret, hinject], fun hbuild => ?_⟩
        rw [hinject, hbuild m credential rfl hsecret] at hsome
        cases hsome
      | some sent =>
        right
        refine ⟨sent, by simp only [injectDecided, hsecret, hinject],
          inject_address crates m.location credential _ sent hinject, ?_, ?_⟩
        · intro m' credential' hm hcred
          cases hm
          rw [hsecret] at hcred
          cases hcred
          rw [← hsome, hinject]
          rfl
        · intro way
          rw [injected_reaches crates m.location credential _ sent way rfl hplain hinject]
          constructor
          · intro h
            exact ⟨m, credential, rfl, hsecret, h⟩
          · intro ⟨m', _, hm, _, h⟩
            cases hm
            exact h
  · rw [hdecide, hfind]
    right
    refine ⟨base crates incoming first, rfl, rfl, nofun, ?_⟩
    intro way
    exact iff_of_false (hnever way) (fun ⟨_, _, hm, _⟩ => nomatch hm)

theorem handle_allowed (host : String) (hconnect : incoming.method ≠ "CONNECT")
    (hurl : NetworkRequest.fromUrl crates incoming.method incoming.uri =
      some (decidedOn crates incoming first host)) (hallowed : Allowed crates decider host) :
    handleRequest crates decider resolve locations incoming =
      forwardRequest crates resolve locations incoming
        (decider.decide crates (decidedOn crates incoming first host)) := by
  rw [handleRequest, if_neg hconnect, hurl]
  simp only
  rcases decide_cases crates decider (decidedOn crates incoming first host) with
    ⟨hdenied, -⟩ | ⟨-, ⟨m, -, hdecide⟩ | ⟨-, hdecide⟩⟩
  · exact absurd hallowed hdenied
  · rw [hdecide]
  · rw [hdecide]

/-- The requests of the client: none, or those of the first address and what it
is redirected to. -/
theorem requests_cases :
    (handleRequest crates decider resolve locations incoming).requests = [] ∧
        (∀ first, ¬ SentOff crates decider resolve incoming first) ∨
      ∃ first sent, SentOff crates decider resolve incoming first ∧ sent.address = first ∧
        (handleRequest crates decider resolve locations incoming).requests =
          exchanged crates sent (followed crates locations) ∧
        ∀ way, (way.foldl (redirected crates) sent).Carries ↔
          ∃ m credential, mappingFor crates decider incoming = some m ∧
            resolve m.secretName = some credential ∧ Reaches crates m.location first way := by
  by_cases hconnect : incoming.method = "CONNECT"
  · left
    refine ⟨?_, fun first h => h.1 hconnect⟩
    rw [handleRequest, if_pos hconnect]
    exact (connect_contained crates decider incoming).1
  · by_cases hread : ∃ first host, crates.parse incoming.uri = some first ∧
        requestHost crates first = some host
    · obtain ⟨first, host, hparse, hhost⟩ := hread
      have hurl := fromUrl_eq crates incoming first host hparse hhost
      have hmapping : mappingFor crates decider incoming = findCredential crates decider host := by
        rw [mappingFor, hurl]
        rfl
      have hsent : ∀ first', SentOff crates decider resolve incoming first' →
          Allowed crates decider host ∧ incoming.bodyRead = true ∧
            Buildable crates resolve first (findCredential crates decider host) := by
        intro first' h
        obtain ⟨-, hbody, hparse', ⟨host', hhost', hallowed⟩, hbuild⟩ := h
        rw [hparse] at hparse'
        cases hparse'
        rw [hhost] at hhost'
        cases hhost'
        rw [hmapping] at hbuild
        exact ⟨hallowed, hbody, hbuild⟩
      rw [hmapping]
      by_cases hallowed : Allowed crates decider host
      · cases hbody : incoming.bodyRead with
        | false =>
          left
          refine ⟨?_, fun first' h => ?_⟩
          · rw [handle_allowed crates decider resolve locations incoming first host hconnect hurl
              hallowed, forwardRequest, hparse]
            simp only [hbody, Bool.not_false, if_true]
          · have hread := (hsent first' h).2.1
            rw [hbody] at hread
            cases hread
        | true =>
          rcases decided_injection crates decider resolve incoming first
            (decidedOn crates incoming first host) hallowed with
            ⟨hnone, hbuild⟩ | ⟨sent, hsome, haddress, hbuild, hcarries⟩
          · left
            refine ⟨?_, fun first' h => hbuild (hsent first' h).2.2⟩
            rw [handle_allowed crates decider resolve locations incoming first host hconnect hurl
              hallowed, forwardRequest, hparse]
            simp only [hbody, Bool.not_true, Bool.false_eq_true, if_false]
            rw [base] at hnone
            rw [hnone]
          · right
            refine ⟨first, sent, ⟨hconnect, hbody, hparse, ⟨host, hhost, hallowed⟩, ?_⟩, haddress,
              ?_, hcarries⟩
            · rw [hmapping]
              exact hbuild
            · rw [handle_allowed crates decider resolve locations incoming first host hconnect hurl
                hallowed, forwardRequest, hparse]
              simp only [hbody, Bool.not_true, Bool.false_eq_true, if_false]
              rw [base] at hsome
              rw [hsome]
      · left
        refine ⟨?_, fun first' h => hallowed (hsent first' h).1⟩
        rcases decide_cases crates decider (decidedOn crates incoming first host) with
          ⟨-, reason, hdeny⟩ | ⟨hallowed', -⟩
        · rw [handleRequest, if_neg hconnect, hurl]
          simp only [hdeny]
        · exact absurd hallowed' hallowed
    · left
      have hnone := fromUrl_none crates incoming
        (fun first host hparse hhost => hread ⟨first, host, hparse, hhost⟩)
      refine ⟨?_, ?_⟩
      · rw [handleRequest, if_neg hconnect, hnone]
      · intro first h
        obtain ⟨host, hhost, -⟩ := h.2.2.2.1
        exact hread ⟨first, host, h.2.2.1, hhost⟩

structure Confined (incoming : Incoming) (first : Address) : Prop where
  allowed : ∀ address ∈ followed crates locations, ∀ host,
    requestHost crates address = some host → Allowed crates decider host
  covered : ∀ m credential, mappingFor crates decider incoming = some m →
    resolve m.secretName = some credential → ∀ way, way <+: followed crates locations →
    Reaches crates m.location first way →
    ∀ host, requestHost crates ((first::way).getLast (List.cons_ne_nil _ _)) = some host →
      covers crates m host = true

/-- The proxy stays within the allowlist and the patterns of its credential
exactly when the redirects that its client follows do. -/
theorem contained_iff :
    Contained crates decider incoming (handleRequest crates decider resolve locations incoming) ↔
      ∀ first, SentOff crates decider resolve incoming first →
        Confined crates decider resolve locations incoming first := by
  rcases requests_cases crates decider resolve locations incoming with
    ⟨hnone, hunsent⟩ | ⟨first, sent, hsent, haddress, hrequests, hcarries⟩
  · constructor
    · intro _ first h
      exact absurd h (hunsent first)
    · intro _
      refine ⟨tunnels_allowed crates decider resolve locations incoming, ?_, ?_⟩
      · rw [hnone]
        exact fun _ hmem => nomatch hmem
      · rw [hnone]
        exact fun _ hmem => nomatch hmem
  · have hmem : ∀ r, r ∈ (handleRequest crates decider resolve locations incoming).requests ↔
        ∃ way, way <+: followed crates locations ∧ r = way.foldl (redirected crates) sent := by
      intro r
      rw [hrequests]
      exact mem_exchanged crates sent _ r
    have hlast : ∀ way : List Address, (way.foldl (redirected crates) sent).address =
        (first::way).getLast (List.cons_ne_nil _ _) := by
      intro way
      rw [← haddress]
      exact way_address crates sent way
    constructor
    · intro h first' hsent'
      have hfirst : first' = first := by
        have hparse := hsent'.2.2.1
        rw [hsent.2.2.1] at hparse
        exact (Option.some.inj hparse).symm
      rw [hfirst]
      constructor
      · intro address hfollowed host hhost
        obtain ⟨before, after, hsplit⟩ := List.append_of_mem hfollowed
        have hway : before++[address] <+: followed crates locations :=
          ⟨after, by rw [hsplit, List.append_assoc, List.singleton_append]⟩
        apply h.requests _ ((hmem _).mpr ⟨_, hway, rfl⟩) host
        rw [hlast]
        simpa using hhost
      · intro m credential hm hcred way hway hreaches host hhost
        have hcarried := (hcarries way).mpr ⟨m, credential, hm, hcred, hreaches⟩
        rw [← hlast] at hhost
        obtain ⟨m', hm', hcovers⟩ := h.secrets _ ((hmem _).mpr ⟨way, hway, rfl⟩) hcarried host hhost
        rw [hm] at hm'
        cases hm'
        exact hcovers
    · intro h
      have hconf := h first hsent
      refine ⟨tunnels_allowed crates decider resolve locations incoming, ?_, ?_⟩
      · intro r hr host hhost
        obtain ⟨way, hway, rfl⟩ := (hmem r).mp hr
        rw [hlast] at hhost
        rcases List.mem_cons.mp (List.getLast_mem (List.cons_ne_nil first way)) with hfirst | hin
        · obtain ⟨host', hhost', hallowed⟩ := hsent.2.2.2.1
          rw [hfirst, hhost'] at hhost
          cases hhost
          exact hallowed
        · exact hconf.allowed _ (hway.subset hin) host hhost
      · intro r hr hcarried host hhost
        obtain ⟨way, hway, rfl⟩ := (hmem r).mp hr
        obtain ⟨m, credential, hm, hcred, hreaches⟩ := (hcarries way).mp hcarried
        rw [hlast] at hhost
        exact ⟨m, hm, hconf.covered m credential hm hcred way hway hreaches host hhost⟩

end

def apiAddress : Address := ⟨"http://api.test/v1", "http", some "api.test", "/v1"⟩

def evilAddress : Address := ⟨"http://evil.test/", "http", some "evil.test", "/"⟩

def apiCrates : Crates where
  tables := asciiTables
  parse text := if text = "http://api.test/v1" then some apiAddress else none
  toUppercase text := text
  acceptsHeader _ _ := true
  refers here next := here.scheme != "https" || next.scheme != "http"
  refererText request := request.address.asStr

def apiDecider : DefaultPolicyDecider where
  allowlist := [⟨"api.test", false, "api.test"⟩]
  credentialMappings := [⟨"API_KEY", .header "X-Api-Key" none, ["api.test"]⟩]

def apiRequest : Incoming := ⟨"GET", "http://api.test/v1", none, [], true⟩

/-- The allowed server sends the client on, and the key goes with it. -/
theorem key_redirected :
    ¬ ∀ (crates : Crates) (decider : DefaultPolicyDecider) (resolve : String → Option String)
        (locations : List Address) (incoming : Incoming),
      Contained crates decider incoming
        (handleRequest crates decider resolve locations incoming) := by
  intro h
  have hall := h apiCrates apiDecider (fun _ => some "k-1") [evilAddress] apiRequest
  have hsent : (⟨evilAddress, [], [⟨"X-Api-Key", "k-1", true⟩,
      ⟨"referer", "http://api.test/v1", false⟩]⟩ : Outgoing) ∈
      (handleRequest apiCrates apiDecider (fun _ => some "k-1") [evilAddress]
        apiRequest).requests := by decide
  have hallowed := hall.requests _ hsent "evil.test" (by decide)
  exact absurd hallowed (by
    unfold Allowed
    decide)

end IronClaw.SandboxProxy
