import IronClaw.HttpInjection

/-!
# Where requests go

Every connection of `HttpTool::execute` goes to addresses that were checked
after the host of its address was resolved. The check of an address text
alone reads the host as an IP address; a host that is an IPv6 address stands in
brackets, with which it does not read as one.
-/

set_option autoImplicit false

namespace IronClaw.HttpEgress
open IronClaw.JsonValue IronClaw.HttpApproval IronClaw.LeakScan IronClaw.HttpExecute
  IronClaw.HttpInjection Lib.Text

structure Guarded (net : Network) (c : Connection) : Prop where
  https : c.url.scheme = "https"
  pinned : ∃ hop host, c.url.hostStr = some host ∧
    net.lookupHost hop (host ++ ":" ++ toString (c.url.port.getD 443)) = .ok c.addrs
  allowed : ∀ addr ∈ c.addrs, isDisallowedIp addr.ip = false

structure Contained (crates : Crates) (net : Network) (tool : HttpTool) (userId : String)
    (params : Value) (opened : List Connection) : Prop where
  guarded : ∀ c ∈ opened, Guarded net c
  hops : opened.length ≤ maxRedirects+1
  once : ∀ checked, check crates net params = .ok checked →
    isSimpleGet (requestOf net tool userId checked) = false → opened.length ≤ 1

def bracketed (s : String) : String := "[" ++ s ++ "]"

def IsLiteral (net : Network) (host : String) (ip : IpAddr) : Prop :=
  net.parseIp host = some ip ∨ ∃ s, host = bracketed s ∧ net.parseIp s = some ip

def RejectsLiteral (crates : Crates) (net : Network) (url : String) : Prop :=
  ∀ parsed host ip, crates.parseUrl url = .ok parsed → parsed.hostStr = some host →
    IsLiteral net host ip → isDisallowedIp ip = true → ∃ e, validateUrl crates net url = .error e

def BracketedDisallowed (crates : Crates) (net : Network) (url : String) : Prop :=
  ∃ parsed s ip, crates.parseUrl url = .ok parsed ∧ parsed.scheme = "https" ∧
    parsed.hostStr = some (bracketed s) ∧ net.parseIp s = some ip ∧ isDisallowedIp ip = true

structure Documented (crates : Crates) (net : Network) : Prop where
  pairs : ∀ url name value, (net.appendPair url name value).scheme = url.scheme ∧
    (net.appendPair url name value).hostStr = url.hostStr ∧
    (net.appendPair url name value).port = url.port
  brackets : ∀ s, net.parseIp (bracketed s) = none
  lower : ∀ s, (crates.toLowercase (bracketed s)).toList.getLast? = some ']'

section connections

variable (crates : Crates) (net : Network) (compile : String → List Char → List Match)

theorem validateUrl_https (raw : String) (url : Url) (h : validateUrl crates net raw = .ok url) :
    url.scheme = "https" := by
  rw [validateUrl] at h
  split at h
  · cases h
  · next parsed _ =>
    by_cases hscheme : parsed.scheme = "https"
    · rw [if_neg (not_not_intro hscheme)] at h
      split at h
      · cases h
      · split at h
        · cases h
        · split at h
          · cases h
          · rw [← Except.ok.inj h]
            exact hscheme
    · rw [if_pos hscheme] at h
      cases h

theorem resolved_guarded (hop : ℕ) (url : Url) (addrs : List SocketAddr)
    (hhttps : url.scheme = "https") (h : validateAndResolveUrl net hop url = .ok addrs) :
    Guarded net ⟨url, addrs⟩ := by
  rw [validateAndResolveUrl] at h
  split at h
  · cases h
  · next host hhost =>
    split at h
    · cases h
    · next found hfound =>
      split at h
      · cases h
      · split at h
        · cases h
        · next hnone =>
          rw [← Except.ok.inj h]
          refine ⟨hhttps, ⟨hop, host, hhost, hfound⟩, fun addr haddr => ?_⟩
          have hnot := List.find?_eq_none.mp hnone addr haddr
          exact Bool.eq_false_iff.mpr hnot

theorem pinHop_guarded (hop : ℕ) (url : Url) (addrs : List SocketAddr)
    (hhttps : url.scheme = "https") (h : pinHop net hop url = .ok addrs) :
    Guarded net ⟨url, addrs⟩ := by
  obtain ⟨found, hresolve, h⟩ := bind_ok _ _ _ h
  obtain ⟨host, _, h⟩ := bind_ok _ _ _ h
  obtain ⟨client, _, h⟩ := bind_ok _ _ _ h
  rw [← Except.ok.inj h]
  exact resolved_guarded net hop url found hhttps hresolve

/-- One hop opens one guarded connection at most. -/
theorem getHop_guarded (timeoutSecs hop : ℕ) (url : Url) (hhttps : url.scheme = "https") :
    (getHop net timeoutSecs hop url).2.length ≤ 1 ∧
      ∀ c ∈ (getHop net timeoutSecs hop url).2, Guarded net c := by
  rw [getHop]
  split
  · exact ⟨Nat.zero_le 1, fun c hc => absurd hc List.not_mem_nil⟩
  · next addrs haddrs =>
    have hguarded := pinHop_guarded net hop url addrs hhttps haddrs
    have hone : ∀ c ∈ [(⟨url, addrs⟩ : Connection)], Guarded net c := by
      intro c hc
      rw [List.mem_singleton.mp hc]
      exact hguarded
    split
    · exact ⟨Nat.le_refl 1, hone⟩
    · exact ⟨Nat.le_refl 1, hone⟩

theorem nextHop_https (url next : Url) (resp : Response)
    (h : nextHop crates net compile url resp = .ok next) : next.scheme = "https" := by
  obtain ⟨target, htarget, h⟩ := bind_ok _ _ _ h
  obtain ⟨scanned, _, h⟩ := bind_ok _ _ _ h
  rw [← Except.ok.inj h]
  rw [redirectTarget] at htarget
  split at htarget
  · cases htarget
  · split at htarget
    · exact validateUrl_https crates net _ target htarget
    · split at htarget
      · cases htarget
      · exact validateUrl_https crates net _ target htarget

/-- The loop over the hops, by the number of redirects that are left. -/
theorem followRedirects_guarded (timeoutSecs remaining hop : ℕ) (url : Url)
    (hhttps : url.scheme = "https") :
    (followRedirects crates net compile timeoutSecs remaining hop url).2.length ≤ remaining+1 ∧
      ∀ c ∈ (followRedirects crates net compile timeoutSecs remaining hop url).2,
        Guarded net c := by
  induction remaining generalizing hop url with
  | zero =>
    have hhop := getHop_guarded net timeoutSecs hop url hhttps
    rw [followRedirects]
    split
    · next e opened heq =>
      rw [heq] at hhop
      exact hhop
    · next resp opened heq =>
      rw [heq] at hhop
      split
      · exact hhop
      · exact hhop
  | succ remaining ih =>
    have hhop := getHop_guarded net timeoutSecs hop url hhttps
    rw [followRedirects]
    split
    · next e opened heq =>
      rw [heq] at hhop
      exact ⟨Nat.le_trans hhop.1 (Nat.le_add_left 1 _), hhop.2⟩
    · next resp opened heq =>
      rw [heq] at hhop
      have hstop : opened.length ≤ remaining+1+1 ∧ ∀ c ∈ opened, Guarded net c :=
        ⟨Nat.le_trans hhop.1 (Nat.le_add_left 1 _), hhop.2⟩
      split
      · dsimp only
        split
        · exact hstop
        · next target htarget =>
          have hrest := ih (hop+1) target (nextHop_https crates net compile url target resp htarget)
          refine ⟨?_, fun c hc => ?_⟩
          · have hlen : opened.length ≤ 1 := hhop.1
            have hlen' := hrest.1
            simp only [List.length_append]
            omega
          · obtain hc | hc := List.mem_append.mp hc
            · exact hhop.2 c hc
            · exact hrest.2 c hc
      · exact hstop

theorem sendOnce_opened (timeoutSecs : ℕ) (request : Request) (addrs : List SocketAddr) :
    (sendOnce net timeoutSecs request addrs).2 = [⟨request.url, addrs⟩] := by
  rw [sendOnce]
  split
  · rfl
  · split
    · rfl
    · rfl

/-- What the checks let through has resolved addresses that are allowed. -/
theorem check_guarded (params : Value) (checked : Checked)
    (h : check crates net params = .ok checked) : Guarded net ⟨checked.url, checked.addrs⟩ := by
  obtain ⟨raw, _, h⟩ := bind_ok _ _ _ h
  obtain ⟨url, hurl, h⟩ := bind_ok _ _ _ h
  obtain ⟨addrs, haddrs, h⟩ := bind_ok _ _ _ h
  obtain ⟨host, _, h⟩ := bind_ok _ _ _ h
  obtain ⟨client, _, h⟩ := bind_ok _ _ _ h
  obtain ⟨headers, _, h⟩ := bind_ok _ _ _ h
  obtain ⟨timeoutSecs, _, h⟩ := bind_ok _ _ _ h
  obtain ⟨saveTo, _, h⟩ := bind_ok _ _ _ h
  obtain ⟨supported, _, h⟩ := bind_ok _ _ _ h
  rw [← Except.ok.inj h]
  exact resolved_guarded net 0 url addrs (validateUrl_https crates net raw url hurl) haddrs

variable (hdoc : Documented crates net)

include hdoc

theorem foldl_pairs (pairs : List (String × String)) (url : Url) :
    let after := pairs.foldl (fun url pair => net.appendPair url pair.1 pair.2) url
    after.scheme = url.scheme ∧ after.hostStr = url.hostStr ∧ after.port = url.port := by
  induction pairs generalizing url with
  | nil => exact ⟨rfl, rfl, rfl⟩
  | cons pair pairs ih =>
    obtain ⟨hscheme, hhost, hport⟩ := ih (net.appendPair url pair.1 pair.2)
    obtain ⟨hscheme', hhost', hport'⟩ := hdoc.pairs url pair.1 pair.2
    exact ⟨hscheme.trans hscheme', hhost.trans hhost', hport.trans hport'⟩

/-- Stored credentials do not lead to another host. -/
theorem injectAll_url (store : String → String → Except String String) (userId : String)
    (matched : List CredentialMapping) (url : Url) (headers : List (String × String)) :
    let after := (injectAll net store userId matched url headers).1
    after.scheme = url.scheme ∧ after.hostStr = url.hostStr ∧ after.port = url.port := by
  induction matched generalizing url headers with
  | nil => exact ⟨rfl, rfl, rfl⟩
  | cons mapping matched ih =>
    rw [injectAll]
    split
    · exact ih url headers
    · next secret _ =>
      obtain ⟨hscheme, hhost, hport⟩ := ih ((injectCredential ⟨[], []⟩ mapping.location
        secret).queryParams.foldl (fun url pair => net.appendPair url pair.1 pair.2) url) _
      obtain ⟨hscheme', hhost', hport'⟩ := foldl_pairs crates net hdoc _ url
      exact ⟨hscheme.trans hscheme', hhost.trans hhost', hport.trans hport'⟩

theorem requestOf_url (tool : HttpTool) (userId : String) (checked : Checked) :
    let after := (requestOf net tool userId checked).url
    after.scheme = checked.url.scheme ∧ after.hostStr = checked.url.hostStr ∧
      after.port = checked.url.port := by
  change let after := (inject net tool userId checked.url checked.headers).1
    after.scheme = checked.url.scheme ∧ after.hostStr = checked.url.hostStr ∧
      after.port = checked.url.port
  rw [inject]
  split
  · exact injectAll_url crates net hdoc _ userId _ checked.url checked.headers
  · exact ⟨rfl, rfl, rfl⟩

theorem fetch_guarded (params : Value) (tool : HttpTool) (userId : String) (checked : Checked)
    (h : check crates net params = .ok checked) :
    let request := requestOf net tool userId checked
    let opened := (fetch crates net compile checked request).2
    (∀ c ∈ opened, Guarded net c) ∧ opened.length ≤ maxRedirects+1 ∧
      (isSimpleGet request = false → opened.length ≤ 1) := by
  obtain ⟨hscheme, hhost, hport⟩ := requestOf_url crates net hdoc tool userId checked
  have hguarded := check_guarded crates net params checked h
  intro request opened
  by_cases hsimple : isSimpleGet request = true
  · have hopened : opened = (followRedirects crates net compile checked.timeoutSecs maxRedirects 1
        request.url).2 := by
      simp only [opened, fetch, if_pos hsimple]
    have hrun := followRedirects_guarded crates net compile checked.timeoutSecs maxRedirects 1
      request.url (hscheme.trans hguarded.https)
    rw [hopened]
    exact ⟨hrun.2, hrun.1, fun hnot => absurd hsimple (Bool.eq_false_iff.mp hnot)⟩
  · have hopened : opened = [⟨request.url, checked.addrs⟩] := by
      simp only [opened, fetch, if_neg hsimple]
      exact sendOnce_opened net checked.timeoutSecs request checked.addrs
    rw [hopened]
    refine ⟨fun c hc => ?_, Nat.le_add_left 1 maxRedirects, fun _ => Nat.le_refl 1⟩
    rw [List.mem_singleton.mp hc]
    obtain ⟨hop, host, hname, hfound⟩ := hguarded.pinned
    refine ⟨hscheme.trans hguarded.https, ⟨hop, host, hhost.trans hname, ?_⟩, hguarded.allowed⟩
    rw [show request.url.port = checked.url.port from hport]
    exact hfound

/-- Whatever the name service and the servers answer. -/
theorem execute_contained (tool : HttpTool) (userId : String) (params : Value) :
    Contained crates net tool userId params
      (execute crates net compile tool userId params).connections := by
  have hnone : Contained crates net tool userId params [] :=
    ⟨fun c hc => absurd hc List.not_mem_nil, Nat.zero_le _, fun _ _ _ => Nat.zero_le _⟩
  rw [execute]
  cases hcheck : check crates net params with
  | error e => exact hnone
  | ok checked =>
    obtain ⟨hguarded, hhops, honce⟩ :=
      fetch_guarded crates net compile hdoc params tool userId checked hcheck
    have hfetched : Contained crates net tool userId params
        (fetch crates net compile checked (requestOf net tool userId checked)).2 := by
      refine ⟨hguarded, hhops, fun other hother hsimple => ?_⟩
      rw [hcheck] at hother
      rw [← Except.ok.inj hother] at hsimple
      exact honce hsimple
    dsimp only
    split
    · exact hnone
    · split
      · exact hnone
      · split
        · next e opened heq =>
          rw [heq] at hfetched
          exact hfetched
        · next resp opened heq =>
          rw [heq] at hfetched
          exact hfetched

end connections

section literals

variable (crates : Crates) (net : Network)

/-- An address that reads as it stands is refused. -/
theorem plain_literal_refused (url : String) (parsed : Url) (host : String) (ip : IpAddr)
    (hparsed : crates.parseUrl url = .ok parsed) (hhost : parsed.hostStr = some host)
    (hip : net.parseIp host = some ip) (hdisallowed : isDisallowedIp ip = true) :
    ∃ e, validateUrl crates net url = .error e := by
  rw [validateUrl, hparsed]
  dsimp only
  split
  · exact ⟨_, rfl⟩
  · rw [hhost]
    dsimp only
    split
    · exact ⟨_, rfl⟩
    · have hany : (net.parseIp host).any isDisallowedIp = true := by
        rw [hip]
        exact hdisallowed
      rw [if_pos hany]
      exact ⟨_, rfl⟩

variable (hdoc : Documented crates net)

include hdoc

theorem bracketed_not_local (s : String) :
    ¬ (crates.toLowercase (bracketed s) = "localhost" ||
      endsWith (crates.toLowercase (bracketed s)) ".localhost") = true := by
  have hlast := hdoc.lower s
  intro hlocal
  have hend : "t".toList <:+ (crates.toLowercase (bracketed s)).toList := by
    obtain hname | hname := Bool.or_eq_true_iff.mp hlocal
    · rw [of_decide_eq_true hname]
      decide
    · have hsuffix := List.isSuffixOf_iff_suffix.mp hname
      refine List.IsSuffix.trans ?_ hsuffix
      decide
  obtain ⟨r, hr⟩ := hend
  rw [← hr, List.getLast?_append] at hlast
  exact absurd (Option.some.inj hlast) (by decide)

theorem bracketed_literal_passes (url : String) (parsed : Url) (s : String)
    (hparsed : crates.parseUrl url = .ok parsed) (hscheme : parsed.scheme = "https")
    (hhost : parsed.hostStr = some (bracketed s)) :
    validateUrl crates net url = .ok parsed := by
  have hnone : ¬ (net.parseIp (bracketed s)).any isDisallowedIp = true := by
    rw [hdoc.brackets s]
    decide
  rw [validateUrl, hparsed]
  dsimp only
  rw [if_neg (not_not_intro hscheme), hhost]
  dsimp only
  rw [if_neg (bracketed_not_local crates net hdoc s), if_neg hnone]

theorem rejectsLiteral_iff (url : String) :
    RejectsLiteral crates net url ↔ ¬ BracketedDisallowed crates net url := by
  constructor
  · rintro h ⟨parsed, s, ip, hparsed, hscheme, hhost, hip, hdisallowed⟩
    obtain ⟨e, he⟩ := h parsed (bracketed s) ip hparsed hhost (Or.inr ⟨s, rfl, hip⟩) hdisallowed
    rw [bracketed_literal_passes crates net hdoc url parsed s hparsed hscheme hhost] at he
    cases he
  · intro h parsed host ip hparsed hhost hliteral hdisallowed
    obtain hip | ⟨s, hs, hip⟩ := hliteral
    · exact plain_literal_refused crates net url parsed host ip hparsed hhost hip hdisallowed
    · by_cases hscheme : parsed.scheme = "https"
      · rw [hs] at hhost
        exact absurd ⟨parsed, s, ip, hparsed, hscheme, hhost, hip, hdisallowed⟩ h
      · refine ⟨.notAuthorized "only https URLs are allowed", ?_⟩
        rw [validateUrl, hparsed]
        dsimp only
        rw [if_pos hscheme]

/-- The connections are contained in every run; the check of a text alone misses
exactly the addresses in brackets. -/
theorem egress_iff (compile : String → List Char → List Match) (tool : HttpTool)
    (userId : String) (params : Value) (url : String) :
    (Contained crates net tool userId params
        (execute crates net compile tool userId params).connections ∧
      RejectsLiteral crates net url) ↔ ¬ BracketedDisallowed crates net url := by
  rw [rejectsLiteral_iff crates net hdoc url]
  exact and_iff_right (execute_contained crates net compile hdoc tool userId params)

end literals

def loopbackCrates : Crates :=
  { sampleCrates with
    parseUrl := fun s =>
      if s = "https://[::1]/" then .ok ⟨s, "https", "", none, some "[::1]", some 443, []⟩
      else sampleCrates.parseUrl s }

def loopbackNet : Network :=
  { sampleNet with
    parseIp := fun s => if s = "::1" then some (.v6 0 0 0 0 0 0 0 1) else none }

theorem loopback_documented : Documented loopbackCrates loopbackNet where
  pairs := fun _ _ _ => ⟨rfl, rfl, rfl⟩
  brackets := by
    intro s
    have hne : bracketed s ≠ "::1" := by
      intro h
      have hlist := congrArg String.toList h
      rw [bracketed, String.toList_append, String.toList_append] at hlist
      have hhead := (List.cons.inj hlist).1
      exact absurd hhead (by decide)
    change (if bracketed s = "::1" then some (IpAddr.v6 0 0 0 0 0 0 0 1) else none) = none
    rw [if_neg hne]
  lower := by
    intro s
    change (String.ofList ((bracketed s).toList.map Char.toLower)).toList.getLast? = some ']'
    rw [String.toList_ofList, List.getLast?_map, bracketed, String.toList_append,
      List.getLast?_append]
    rfl

theorem public_call_contained :
    (Contained loopbackCrates loopbackNet ⟨none, none⟩ "user" sampleParams
        (execute loopbackCrates loopbackNet (fun _ _ => []) ⟨none, none⟩ "user"
          sampleParams).connections ∧
      RejectsLiteral loopbackCrates loopbackNet "https://api.example.com/") ↔
    ¬ BracketedDisallowed loopbackCrates loopbackNet "https://api.example.com/" :=
  egress_iff loopbackCrates loopbackNet loopback_documented (fun _ _ => []) ⟨none, none⟩ "user"
    sampleParams "https://api.example.com/"

/-- The address of the local host in brackets passes. -/
theorem loopback_literal_passes : Documented loopbackCrates loopbackNet ∧
    validateUrl loopbackCrates loopbackNet "https://[::1]/" =
      .ok ⟨"https://[::1]/", "https", "", none, some "[::1]", some 443, []⟩ ∧
    ¬ RejectsLiteral loopbackCrates loopbackNet "https://[::1]/" := by
  have hpasses : validateUrl loopbackCrates loopbackNet "https://[::1]/" =
      .ok ⟨"https://[::1]/", "https", "", none, some "[::1]", some 443, []⟩ :=
    bracketed_literal_passes loopbackCrates loopbackNet loopback_documented "https://[::1]/" _
      "::1" rfl rfl rfl
  refine ⟨loopback_documented, hpasses, fun h => ?_⟩
  obtain ⟨e, he⟩ := h _ "[::1]" (.v6 0 0 0 0 0 0 0 1) rfl rfl (Or.inr ⟨"::1", rfl, rfl⟩) (by decide)
  rw [hpasses] at he
  cases he

end IronClaw.HttpEgress
