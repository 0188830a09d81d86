import IronClaw.HostPatterns

/-!
# The endpoints a WASM tool may reach

`AllowlistValidator::validate` parses a URL, normalizes its path and asks
whether a pattern matches host, path and method. Normalizing splits the path at
slashes, decodes each segment once and resolves dots. The URL parser, the
decoding of a segment and the tables for letters are given. What dots mean is
defined a second time the way of RFC 3986, where a dot at the end leaves a slash.
-/

set_option autoImplicit false

namespace IronClaw.EndpointAllowlist
open Lib.Text Lib.Letters
open IronClaw.HostPatterns (lowered matchesText Rule)

structure EndpointPattern extends HostPatterns.EndpointPattern where
  pathPrefix : Option String
  methods : List String

inductive DenyReason where
  | invalidUrl (reason : String)
  | hostNotAllowed (host : String)
  | pathNotAllowed (host path : String)
  | methodNotAllowed (method host : String)
  | emptyAllowlist
  | insecureScheme (scheme : String)
  deriving DecidableEq

inductive AllowlistResult where
  | allowed
  | denied (reason : DenyReason)
  deriving DecidableEq

structure AllowlistValidator where
  patterns : List EndpointPattern
  requireHttps : Bool

structure Url where
  scheme : String
  username : String
  password : Option String
  hostStr : Option String
  path : String
  deriving DecidableEq

structure ParsedUrl where
  scheme : String
  host : String
  path : String
  deriving DecidableEq

def isHexDigit (c : Char) : Bool :=
  c.isDigit || ('a' ≤ c && c ≤ 'f') || ('A' ≤ c && c ≤ 'F')

def hasValidPercentEncoding : List Char → Bool
  | c::a::b::rest =>
    if c = '%' then isHexDigit a && isHexDigit b && hasValidPercentEncoding rest
    else hasValidPercentEncoding (a::b::rest)
  | cs => '%' ∉ cs

section

variable (decode : List Char → Option (List Char))

def resolveSegments (segments : List (List Char)) :
    List (List Char) → Except String (List (List Char))
  | [] => .ok segments
  | rawSegment::rest =>
    if !hasValidPercentEncoding rawSegment then
      .error ("Invalid percent-encoding in path segment: " ++ String.ofList rawSegment)
    else match decode rawSegment with
    | none => .error ("Invalid percent-encoding in path segment: " ++ String.ofList rawSegment)
    | some segment =>
      if '/' ∈ segment ∨ '\\' ∈ segment then .error "Path segment contains encoded path separator"
      else if segment = [] ∨ segment = ['.'] then resolveSegments segments rest
      else if segment = ['.', '.'] then resolveSegments segments.dropLast rest
      else resolveSegments (segments++[segment]) rest

def joined (segments : List (List Char)) : List Char := '/'::List.intercalate ['/'] segments

def normalizePath (path : List Char) : Except String (List Char) :=
  (resolveSegments decode [] (path.splitOn '/')).map fun segments =>
    if 1 < byteLen path ∧ path.getLast? = some '/' ∧ (joined segments).getLast? ≠ some '/' then
      joined segments++['/']
    else joined segments

end

section

variable (t : Tables) (upper : String → String) (parse : String → Except String Url)
  (decode : List Char → Option (List Char))

def unbracketed (host : String) : String :=
  match stripPrefix host "[" with
  | some rest => if endsWith rest "]" then String.ofList rest.toList.dropLast else host
  | none => host

def parseUrl (url : String) : Except String ParsedUrl :=
  match parse url with
  | .error e => .error ("URL parse failed: " ++ e)
  | .ok parsed =>
    let scheme := lowered t parsed.scheme
    if scheme ≠ "http" ∧ scheme ≠ "https" then .error ("Unsupported scheme: " ++ scheme)
    else if parsed.username ≠ "" ∨ parsed.password.isSome then
      .error "URL contains userinfo (@) which is not allowed"
    else match parsed.hostStr with
    | none => .error "Empty host"
    | some host =>
      (normalizePath decode parsed.path.toList).map fun path =>
        ⟨scheme, lowered t (unbracketed host), String.ofList path⟩

def EndpointPattern.matchesHost (self : EndpointPattern) (urlHost : String) : Bool :=
  self.toEndpointPattern.hostMatches urlHost = some true

def EndpointPattern.matchesPath (self : EndpointPattern) (urlPath : String) : Bool :=
  match self.pathPrefix with
  | some pre => startsWith urlPath pre
  | none => true

def EndpointPattern.matches (self : EndpointPattern) (urlHost urlPath method : String) : Bool :=
  self.matchesHost urlHost && self.matchesPath urlPath &&
    (self.methods.isEmpty || self.methods.any (fun m => upper m = upper method))

def AllowlistValidator.validate (self : AllowlistValidator) (url method : String) :
    AllowlistResult :=
  if self.patterns.isEmpty then .denied .emptyAllowlist
  else match parseUrl t parse decode url with
  | .error e => .denied (.invalidUrl e)
  | .ok parsed =>
    if self.requireHttps ∧ parsed.scheme ≠ "https" then .denied (.insecureScheme parsed.scheme)
    else if self.patterns.any (fun p => p.matches upper parsed.host parsed.path method) then
      .allowed
    else
      let hostMatches := self.patterns.filter (fun p => p.matchesHost parsed.host)
      if hostMatches.isEmpty then .denied (.hostNotAllowed parsed.host)
      else if (hostMatches.filter (fun p => p.matchesPath parsed.path)).isEmpty then
        .denied (.pathNotAllowed parsed.host parsed.path)
      else .denied (.methodNotAllowed method parsed.host)

structure Granted (validator : AllowlistValidator) (url method : String) (parsed : Url)
    (host path : String) (pattern : EndpointPattern) : Prop where
  parsed_ok : parse url = .ok parsed
  scheme : lowered t parsed.scheme = "https" ∨
    validator.requireHttps = false ∧ lowered t parsed.scheme = "http"
  anonymous : parsed.username = "" ∧ parsed.password = none
  host_ok : ∃ h, parsed.hostStr = some h ∧ host = lowered t (unbracketed h)
  path_ok : normalizePath decode parsed.path.toList = .ok path.toList
  listed : pattern ∈ validator.patterns
  host_matches : Rule pattern.host host
  path_matches : ∀ pre, pattern.pathPrefix = some pre → pre.toList <+: path.toList
  method_matches : pattern.methods = [] ∨ ∃ m ∈ pattern.methods, upper m = upper method

end

def removeDotSegments (output : List (List Char)) : List (List Char) → List (List Char)
  | [] => output
  | s::rest =>
    if s = ['.'] then
      if rest = [] then output++[[]] else removeDotSegments output rest
    else if s = ['.', '.'] then
      if rest = [] then output.dropLast++[[]] else removeDotSegments output.dropLast rest
    else removeDotSegments (output++[s]) rest

def nonempty (path : List Char) (decoded : List (List Char)) : List (List Char) :=
  decoded.filter (fun s => s ≠ [])++(if path.getLast? = some '/' then [[]] else [])

def EndsInDots (segments : List (List Char)) : Prop :=
  segments.getLast? = some ['.'] ∨ segments.getLast? = some ['.', '.']

structure Settled (s : List Char) : Prop where
  named : s ≠ [] ∧ s ≠ ['.'] ∧ s ≠ ['.', '.']
  whole : '/' ∉ s ∧ '\\' ∉ s

structure Normalized (decode : List Char → Option (List Char)) (path r : List Char) : Prop where
  segments : ∃ segs tail, r = joined (segs++tail) ∧ (tail = [] ∨ tail = [[]]) ∧
    ∀ s ∈ segs, Settled s ∧ ∃ raw ∈ path.splitOn '/', decode raw = some s
  removed : ∃ decoded, (path.splitOn '/').map decode = decoded.map some ∧
    (¬EndsInDots (nonempty path decoded) →
      r = joined (removeDotSegments [] (nonempty path decoded))) ∧
    (EndsInDots (nonempty path decoded) →
      joined (removeDotSegments [] (nonempty path decoded)) = if r = ['/'] then r else r++['/'])
  again : '%' ∉ r → normalizePath decode r = .ok r

theorem valid_plain (s : List Char) (h : '%' ∉ s) : hasValidPercentEncoding s = true := by
  fun_induction hasValidPercentEncoding s with
  | case1 a b rest ih => exact absurd List.mem_cons_self h
  | case2 c a b rest hc ih => exact ih (fun hin => h (List.mem_cons_of_mem c hin))
  | case3 cs => exact decide_eq_true h

def resolve (segments : List (List Char)) : List (List Char) → List (List Char)
  | [] => segments
  | s::rest =>
    if s = [] ∨ s = ['.'] then resolve segments rest
    else if s = ['.', '.'] then resolve segments.dropLast rest
    else resolve (segments++[s]) rest

section

variable (decode : List Char → Option (List Char))

theorem resolve_ok (segments raws result : List (List Char))
    (h : resolveSegments decode segments raws = .ok result) :
    ∃ decoded, raws.map decode = decoded.map some ∧
      (∀ s ∈ decoded, '/' ∉ s ∧ '\\' ∉ s) ∧ result = resolve segments decoded := by
  induction raws generalizing segments with
  | nil =>
    cases h
    exact ⟨[], rfl, by simp, rfl⟩
  | cons raw raws ih =>
    rw [resolveSegments] at h
    split at h
    · cases h
    · cases hdecode : decode raw with
      | none =>
        rw [hdecode] at h
        cases h
      | some s =>
        rw [hdecode] at h
        simp only at h
        split at h
        · cases h
        · next hwhole =>
          have hkeep : ∃ segments', resolveSegments decode segments' raws = .ok result ∧
              ∀ decoded, resolve segments (s::decoded) = resolve segments' decoded := by
            split at h
            · next hs => exact ⟨segments, h, fun decoded => by rw [resolve, if_pos hs]⟩
            · next hs =>
              split at h
              · next hs' =>
                exact ⟨segments.dropLast, h, fun decoded => by
                  rw [resolve, if_neg hs, if_pos hs']⟩
              · next hs' =>
                exact ⟨segments++[s], h, fun decoded => by
                  rw [resolve, if_neg hs, if_neg hs']⟩
          obtain ⟨segments', hrest, hresolve⟩ := hkeep
          obtain ⟨decoded, hdecoded, hseps, hresult⟩ := ih segments' hrest
          refine ⟨s::decoded, ?_, ?_, by rw [hresolve, hresult]⟩
          · rw [List.map_cons, List.map_cons, hdecode, hdecoded]
          · intro s' hs'
            rcases List.mem_cons.mp hs' with rfl | hs'
            · exact not_or.mp hwhole
            · exact hseps s' hs'

/-- What is left was pushed. -/
theorem resolve_mem (segments decoded : List (List Char)) (s : List Char)
    (h : s ∈ resolve segments decoded) :
    s ∈ segments ∨ s ∈ decoded ∧ s ≠ [] ∧ s ≠ ['.'] ∧ s ≠ ['.', '.'] := by
  induction decoded generalizing segments with
  | nil => exact Or.inl h
  | cons d decoded ih =>
    have hlater : ∀ segments', s ∈ resolve segments' decoded → (s ∈ segments' → s ∈ segments ∨
        s = d ∧ s ≠ [] ∧ s ≠ ['.'] ∧ s ≠ ['.', '.']) →
        s ∈ segments ∨ s ∈ d::decoded ∧ s ≠ [] ∧ s ≠ ['.'] ∧ s ≠ ['.', '.'] := by
      intro segments' hin hold
      rcases ih segments' hin with hold' | ⟨hd, hne⟩
      · rcases hold hold' with hs | ⟨rfl, hne⟩
        · exact Or.inl hs
        · exact Or.inr ⟨List.mem_cons_self, hne⟩
      · exact Or.inr ⟨List.mem_cons_of_mem d hd, hne⟩
    rw [resolve] at h
    split at h
    · exact hlater segments h Or.inl
    · next hd =>
      split at h
      · exact hlater _ h (fun hin => Or.inl (List.mem_of_mem_dropLast hin))
      · next hd' =>
        refine hlater _ h (fun hin => ?_)
        rcases List.mem_append.mp hin with hold | hnew
        · exact Or.inl hold
        · rw [List.mem_singleton.mp hnew]
          exact Or.inr ⟨rfl, fun heq => hd (Or.inl heq), fun heq => hd (Or.inr heq), hd'⟩

theorem resolve_settled (segments : List (List Char)) (settled : ∀ s ∈ segments, Settled s)
    (output : List (List Char)) : resolve output segments = output++segments := by
  induction segments generalizing output with
  | nil => rw [resolve, List.append_nil]
  | cons s segments ih =>
    obtain ⟨hempty, hdot, hdots⟩ := (settled s List.mem_cons_self).named
    rw [resolve, if_neg (by simp [hempty, hdot]), if_neg hdots,
      ih (fun s' hs' => settled s' (List.mem_cons_of_mem s hs')), List.append_assoc,
      List.singleton_append]

theorem resolve_append (output ds es : List (List Char)) :
    resolve output (ds++es) = resolve (resolve output ds) es := by
  induction ds generalizing output with
  | nil => rfl
  | cons s ds ih =>
    rw [List.cons_append, resolve, resolve]
    split
    · exact ih _
    · split <;> exact ih _

theorem resolve_filter (output ds : List (List Char)) :
    resolve output (ds.filter (fun s => s ≠ [])) = resolve output ds := by
  induction ds generalizing output with
  | nil => rfl
  | cons s ds ih =>
    by_cases hs : s = []
    · rw [List.filter_cons_of_neg (by simp [hs]), ih, resolve, if_pos (Or.inl hs)]
    · rw [List.filter_cons_of_pos (by simp [hs]), resolve, resolve]
      split
      · exact ih _
      · split <;> exact ih _

theorem resolve_nonempty (output decoded : List (List Char)) (path : List Char) :
    resolve output (nonempty path decoded) = resolve output decoded := by
  rw [nonempty, resolve_append, resolve_filter]
  split <;> rfl

/-- The two ways to remove dots differ in what a directory at the end leaves. -/
theorem removeDots_resolve (output ds : List (List Char)) (h : ∀ s ∈ ds.dropLast, s ≠ []) :
    (ds.getLast? = some [] ∨ EndsInDots ds →
        removeDotSegments output ds = resolve output ds++[[]]) ∧
      (¬(ds.getLast? = some [] ∨ EndsInDots ds) →
        removeDotSegments output ds = resolve output ds) := by
  induction ds generalizing output with
  | nil => exact ⟨fun hends => by simp [EndsInDots] at hends, fun _ => rfl⟩
  | cons s ds ih =>
    cases ds with
    | nil =>
      by_cases hempty : s = []
      · subst hempty
        simp [removeDotSegments, resolve]
      · by_cases hdot : s = ['.']
        · subst hdot
          simp [removeDotSegments, resolve, EndsInDots]
        · by_cases hdots : s = ['.', '.']
          · subst hdots
            simp [removeDotSegments, resolve, EndsInDots]
          · simp [removeDotSegments, resolve, EndsInDots, hempty, hdot, hdots]
    | cons d ds =>
      have hs : s ≠ [] := h s List.mem_cons_self
      have hlast : (s::d::ds).getLast? = (d::ds).getLast? := List.getLast?_cons_cons
      have hrest := fun output' => ih output' (fun s' hs' => h s' (List.mem_cons_of_mem s hs'))
      have hstep : ∃ output', removeDotSegments output (s::d::ds) =
          removeDotSegments output' (d::ds) ∧
          resolve output (s::d::ds) = resolve output' (d::ds) := by
        by_cases hdot : s = ['.']
        · exact ⟨output, by rw [removeDotSegments, if_pos hdot, if_neg (List.cons_ne_nil d ds)],
            by rw [resolve, if_pos (Or.inr hdot)]⟩
        · by_cases hdots : s = ['.', '.']
          · refine ⟨output.dropLast, ?_, ?_⟩
            · rw [removeDotSegments, if_neg hdot, if_pos hdots, if_neg (List.cons_ne_nil d ds)]
            · rw [resolve, if_neg (by simp [hs, hdot]), if_pos hdots]
          · refine ⟨output++[s], ?_, ?_⟩
            · rw [removeDotSegments, if_neg hdot, if_neg hdots]
            · rw [resolve, if_neg (by simp [hs, hdot]), if_neg hdots]
      obtain ⟨output', hremove, hresolve⟩ := hstep
      rw [EndsInDots, hlast, hremove, hresolve]
      exact hrest output'

theorem joined_cons (s : List Char) (segs : List (List Char)) (h : segs ≠ []) :
    joined (s::segs) = '/'::s++joined segs := by
  rw [joined, List.intercalate_cons_of_ne_nil h, joined]
  simp

variable (segs : List (List Char)) (path : List Char) (decoded : List (List Char))

theorem joined_concat (s : List Char) (h : segs ≠ []) :
    joined (segs++[s]) = joined segs++ '/'::s := by
  induction segs with
  | nil => exact absurd rfl h
  | cons d segs ih =>
    cases segs with
    | nil => simp [joined]
    | cons e segs =>
      rw [List.cons_append, joined_cons d _ (by simp), ih (List.cons_ne_nil e segs),
        joined_cons d _ (List.cons_ne_nil e segs), List.append_assoc]

/-- A slash ends what is joined only where there is nothing to join. -/
theorem joined_last (settled : ∀ s ∈ segs, Settled s) :
    (joined segs).getLast? = some '/' ↔ segs = [] := by
  refine ⟨fun hlast => ?_, fun hnil => by rw [hnil]; rfl⟩
  rcases List.eq_nil_or_concat segs with hnil | ⟨init, s, rfl⟩
  · exact hnil
  · obtain ⟨hnamed, hwhole⟩ := settled s (by simp)
    have hend : ∃ p, joined (init++[s]) = p++s := by
      by_cases hinit : init = []
      · exact ⟨['/'], by simp [hinit, joined]⟩
      · exact ⟨joined init++['/'], by simp [joined_concat _ _ hinit]⟩
    obtain ⟨p, hp⟩ := hend
    rw [List.concat_eq_append, hp, List.getLast?_append_of_ne_nil _ hnamed.1] at hlast
    exact absurd (List.mem_of_getLast? hlast) hwhole.1

theorem joined_empty :
    joined (segs++[[]]) = if segs = [] then ['/'] else joined segs++['/'] := by
  split
  · next h => rw [h]; rfl
  · next h => exact joined_concat segs [] h

def Plain : Prop := ∀ s, '%' ∉ s → decode s = some s

theorem resolve_step (plain : Plain decode) (segments raws : List (List Char)) (s : List Char)
    (h : '%' ∉ s ∧ '/' ∉ s ∧ '\\' ∉ s) : resolveSegments decode segments (s::raws) =
      if s = [] ∨ s = ['.'] then resolveSegments decode segments raws
      else if s = ['.', '.'] then resolveSegments decode segments.dropLast raws
      else resolveSegments decode (segments++[s]) raws := by
  obtain ⟨hpercent, hslash, hback⟩ := h
  rw [resolveSegments, if_neg (by simp [valid_plain s hpercent]), plain s hpercent]
  simp only [hslash, hback, or_self, if_false]

theorem resolve_plain (plain : Plain decode) (segments raws : List (List Char))
    (h : ∀ s ∈ raws, '%' ∉ s ∧ '/' ∉ s ∧ '\\' ∉ s) :
    resolveSegments decode segments raws = .ok (resolve segments raws) := by
  induction raws generalizing segments with
  | nil => rfl
  | cons s raws ih =>
    have hrest := fun segments' => ih segments' (fun s' hs' => h s' (List.mem_cons_of_mem s hs'))
    rw [resolve_step decode plain segments raws s (h s List.mem_cons_self), resolve]
    split
    · exact hrest _
    · split <;> exact hrest _

def kept (path : List Char) (segs : List (List Char)) : List (List Char) :=
  if segs ≠ [] ∧ path.getLast? = some '/' then [[]] else []

theorem normalize_ok (plain : Plain decode) (path r : List Char)
    (h : normalizePath decode path = .ok r) :
    ∃ decoded, (path.splitOn '/').map decode = decoded.map some ∧
      (∀ s ∈ resolve [] decoded, Settled s ∧ ∃ raw ∈ path.splitOn '/', decode raw = some s) ∧
      r = joined (resolve [] decoded++kept path (resolve [] decoded)) := by
  rw [normalizePath] at h
  cases hsegs : resolveSegments decode [] (path.splitOn '/') with
  | error e =>
    rw [hsegs] at h
    cases h
  | ok segs =>
    obtain ⟨decoded, hdecoded, hwhole, rfl⟩ := resolve_ok decode _ _ _ hsegs
    rw [hsegs] at h
    have hr := Except.ok.inj h
    have hmem : ∀ s ∈ resolve [] decoded,
        Settled s ∧ ∃ raw ∈ path.splitOn '/', decode raw = some s := by
      intro s hs
      obtain ⟨hin, hnamed⟩ := (resolve_mem [] decoded s hs).resolve_left List.not_mem_nil
      have hsome := hdecoded ▸ List.mem_map_of_mem hin
      exact ⟨⟨hnamed, hwhole s hin⟩, List.mem_map.mp hsome⟩
    refine ⟨decoded, hdecoded, hmem, ?_⟩
    have hlast := joined_last _ (fun s hs => (hmem s hs).1)
    have hlong : resolve [] decoded ≠ [] → path.getLast? = some '/' → 1 < byteLen path := by
      intro hne hslash
      obtain ⟨init, rfl⟩ := List.getLast?_eq_some_iff.mp hslash
      cases init with
      | nil =>
        have hsplit : (([] : List Char)++['/']).splitOn '/' = [[], []] := by decide
        rw [hsplit, List.map_cons, List.map_cons, List.map_nil,
          plain [] List.not_mem_nil] at hdecoded
        have hempty : decoded = [[], []] :=
          List.map_injective_iff.mpr (fun _ _ => Option.some.inj) hdecoded.symm
        rw [hempty] at hne
        exact absurd rfl hne
      | cons c init =>
        have hc := Char.utf8Size_pos c
        have hslash := Char.utf8Size_pos '/'
        rw [byteLen_append]
        simp only [byteLen]
        omega
    beta_reduce at hr
    rw [← hr, kept]
    by_cases hkeep : resolve [] decoded ≠ [] ∧ path.getLast? = some '/'
    · rw [if_pos hkeep, if_pos ⟨hlong hkeep.1 hkeep.2, hkeep.2, fun heq => hkeep.1 (hlast.mp heq)⟩,
        joined_empty, if_neg hkeep.1]
    · rw [if_neg hkeep, if_neg (fun hcond => hkeep ⟨fun heq => hcond.2.2 (hlast.mpr heq),
        hcond.2.1⟩), List.append_nil]

theorem dropLast_nonempty :
    ∀ s ∈ (nonempty path decoded).dropLast, s ≠ [] := by
  have hfilter : ∀ s ∈ decoded.filter (fun s => s ≠ []), s ≠ [] :=
    fun s hs => of_decide_eq_true (List.mem_filter.mp hs).2
  rw [nonempty]
  split
  · rw [List.dropLast_concat]
    exact hfilter
  · rw [List.append_nil]
    exact fun s hs => hfilter s (List.mem_of_mem_dropLast hs)

theorem last_nonempty :
    (nonempty path decoded).getLast? = some [] ↔ path.getLast? = some '/' := by
  rw [nonempty]
  split
  · next hslash => exact iff_of_true List.getLast?_concat hslash
  · next hslash =>
    rw [List.append_nil]
    refine iff_of_false (fun hlast => ?_) hslash
    exact of_decide_eq_true (List.mem_filter.mp (List.mem_of_getLast? hlast)).2 rfl

theorem ends_apart (segments : List (List Char)) (h : segments.getLast? = some []) :
    ¬EndsInDots segments := by
  unfold EndsInDots
  rw [h]
  simp

theorem normalized_removed (settled : ∀ s ∈ resolve [] decoded, Settled s) :
    (¬EndsInDots (nonempty path decoded) →
      joined (resolve [] decoded++kept path (resolve [] decoded)) =
        joined (removeDotSegments [] (nonempty path decoded))) ∧
    (EndsInDots (nonempty path decoded) →
      joined (removeDotSegments [] (nonempty path decoded)) =
        if joined (resolve [] decoded++kept path (resolve [] decoded)) = ['/'] then
          joined (resolve [] decoded++kept path (resolve [] decoded))
        else joined (resolve [] decoded++kept path (resolve [] decoded))++['/']) := by
  obtain ⟨hdir, hfile⟩ := removeDots_resolve [] _ (dropLast_nonempty path decoded)
  rw [resolve_nonempty] at hdir hfile
  have hslash := last_nonempty path decoded
  constructor
  · intro hends
    by_cases hlast : path.getLast? = some '/'
    · rw [hdir (Or.inl (hslash.mpr hlast)), joined_empty, kept]
      by_cases hnil : resolve [] decoded = []
      · rw [hnil]
        rfl
      · rw [if_pos ⟨hnil, hlast⟩, if_neg hnil, joined_empty, if_neg hnil]
    · rw [hfile (fun h => h.elim (fun he => hlast (hslash.mp he)) hends), kept,
        if_neg (fun h => hlast h.2), List.append_nil]
  · intro hends
    have hlast : path.getLast? ≠ some '/' := fun h => ends_apart _ (hslash.mpr h) hends
    have hroot : joined (resolve [] decoded) = ['/'] ↔ resolve [] decoded = [] := by
      refine ⟨fun h => (joined_last _ settled).mp (by rw [h]; rfl), fun h => by rw [h]; rfl⟩
    have hkept : kept path (resolve [] decoded) = [] := if_neg (fun h => hlast h.2)
    rw [hdir (Or.inr hends), joined_empty, hkept, List.append_nil]
    simp only [hroot]
    split
    · next hnil => rw [hnil]; rfl
    · rfl

theorem splitOn_joined (hne : segs ≠ []) (h : ∀ s ∈ segs, '/' ∉ s) :
    (joined segs).splitOn '/' = []::segs := by
  have hjoined : joined segs = ['/'].intercalate ([]::segs) := by
    rw [List.intercalate_cons_of_ne_nil hne]
    rfl
  rw [hjoined]
  refine List.splitOn_intercalate '/' (fun s hs => ?_) (List.cons_ne_nil [] segs)
  rcases List.mem_cons.mp hs with rfl | hs
  · exact List.not_mem_nil
  · exact h s hs

theorem mem_joined (s : List Char) (hs : s ∈ segs) :
    s.Sublist (joined segs) := by
  induction segs with
  | nil => cases hs
  | cons d segs ih =>
    by_cases hne : segs = []
    · subst hne
      rw [List.mem_singleton.mp hs, joined, List.intercalate_singleton]
      exact List.sublist_cons_self _ _
    · rw [joined_cons d segs hne]
      rcases List.mem_cons.mp hs with rfl | hs
      · exact (List.sublist_cons_self _ _).trans (List.sublist_append_left _ _)
      · exact (ih hs).trans (List.sublist_append_right _ _)

/-- A normalized path without percent signs is normalized to itself. -/
theorem normalized_again (plain : Plain decode) (path : List Char) (segs : List (List Char))
    (settled : ∀ s ∈ segs, Settled s) (hpercent : '%' ∉ joined (segs++kept path segs)) :
    normalizePath decode (joined (segs++kept path segs)) = .ok (joined (segs++kept path segs)) := by
  have hlast := joined_last segs settled
  by_cases hnil : segs = []
  · subst hnil
    have hroot : joined ([]++kept path []) = ['/'] := rfl
    have hsplit : (['/'] : List Char).splitOn '/' = [[], []] := by decide
    rw [hroot, normalizePath, hsplit, resolve_plain decode plain [] [[], []] (by simp)]
    rfl
  · have hne : segs++kept path segs ≠ [] := fun h => hnil (List.append_eq_nil_iff.mp h).1
    have hkept : ∀ s ∈ kept path segs, s = [] := by
      intro s hs
      rw [kept] at hs
      split at hs
      · exact List.mem_singleton.mp hs
      · cases hs
    have hmem : ∀ s ∈ segs++kept path segs, '/' ∉ s ∧ '\\' ∉ s := by
      intro s hs
      rcases List.mem_append.mp hs with hs | hs
      · exact (settled s hs).whole
      · rw [hkept s hs]
        exact ⟨List.not_mem_nil, List.not_mem_nil⟩
    have hsplit := splitOn_joined _ hne (fun s hs => (hmem s hs).1)
    have hclean : ∀ s ∈ []::(segs++kept path segs), '%' ∉ s ∧ '/' ∉ s ∧ '\\' ∉ s := by
      intro s hs
      rcases List.mem_cons.mp hs with rfl | hs
      · exact ⟨List.not_mem_nil, List.not_mem_nil, List.not_mem_nil⟩
      · exact ⟨fun hin => hpercent ((mem_joined _ s hs).subset hin), hmem s hs⟩
    have hresolve : resolve [] ([]::(segs++kept path segs)) = segs := by
      rw [resolve, if_pos (Or.inl rfl), resolve_append, resolve_settled segs settled,
        List.nil_append, kept]
      split <;> rfl
    rw [normalizePath, hsplit, resolve_plain decode plain [] _ hclean, hresolve, kept]
    split
    · rw [joined_empty, if_neg hnil]
      refine congrArg Except.ok (if_pos ⟨?_, List.getLast?_concat, fun h => hnil (hlast.mp h)⟩)
      have hslash := Char.utf8Size_pos '/'
      rw [byteLen_append, joined]
      simp only [byteLen]
      omega
    · rw [List.append_nil]
      exact congrArg Except.ok (if_neg (fun h => h.2.2 h.2.1))

/-- Dots at the root remove nothing. -/
theorem normalize_root (plain : Plain decode) (path : List Char) :
    normalizePath decode ('/':: '.':: '.':: '/'::path) = normalizePath decode ('/'::path) := by
  have hsplit' : ∀ p : List Char, ('/'::p).splitOn '/' = []::p.splitOn '/' := fun p =>
    List.splitOn_append_cons_self_of_not_mem List.not_mem_nil p
  have hsplit : ('/':: '.':: '.':: '/'::path).splitOn '/' =
      []::['.', '.']::path.splitOn '/' := by
    have hdots : '/' ∉ ['.', '.'] := by decide
    rw [hsplit']
    exact congrArg _ (List.splitOn_append_cons_self_of_not_mem hdots path)
  have hdots : resolveSegments decode [] ([]::['.', '.']::path.splitOn '/') =
      resolveSegments decode [] ([]::path.splitOn '/') := by
    rw [resolve_step decode plain [] _ [] (by simp), resolve_step decode plain [] _ [] (by simp),
      if_pos (Or.inl rfl), if_pos (Or.inl rfl), resolve_step decode plain [] _ _ (by decide),
      if_neg (by decide), if_pos rfl, List.dropLast_nil]
  rw [normalizePath, normalizePath, hsplit, hsplit', hdots]
  cases path with
  | nil =>
    have hroot : resolveSegments decode [] ([]::([] : List Char).splitOn '/') = .ok [] := by
      rw [List.splitOn_nil, resolve_plain decode plain [] _ (by simp)]
      rfl
    rw [hroot]
    rfl
  | cons c path =>
    have hc := Char.utf8Size_pos c
    have hslash := Char.utf8Size_pos '/'
    have hlong : 1 < byteLen ('/'::c::path) := by
      simp only [byteLen]
      omega
    have hlong' : 1 < byteLen ('/':: '.':: '.':: '/'::c::path) := by
      simp only [byteLen]
      omega
    simp only [hlong, hlong', List.getLast?_cons_cons]

theorem normalize_normalized (plain : Plain decode) (path r : List Char)
    (h : normalizePath decode path = .ok r) : Normalized decode path r := by
  obtain ⟨decoded, hdecoded, hmem, rfl⟩ := normalize_ok decode plain path r h
  have settled : ∀ s ∈ resolve [] decoded, Settled s := fun s hs => (hmem s hs).1
  refine ⟨⟨resolve [] decoded, kept path (resolve [] decoded), rfl, ?_, hmem⟩,
    ⟨decoded, hdecoded, normalized_removed path decoded settled⟩,
    normalized_again decode plain path _ settled⟩
  rw [kept]
  split
  · exact Or.inr rfl
  · exact Or.inl rfl

end

section

variable (t : Tables) (upper : String → String) (parse : String → Except String Url)
  (decode : List Char → Option (List Char))

theorem parseUrl_ok (url : String) (p : ParsedUrl) : parseUrl t parse decode url = .ok p ↔
    ∃ parsed h, parse url = .ok parsed ∧
      (lowered t parsed.scheme = "http" ∨ lowered t parsed.scheme = "https") ∧
      (parsed.username = "" ∧ parsed.password = none) ∧ parsed.hostStr = some h ∧
      normalizePath decode parsed.path.toList = .ok p.path.toList ∧
      p.scheme = lowered t parsed.scheme ∧ p.host = lowered t (unbracketed h) := by
  constructor
  · intro hp
    unfold parseUrl at hp
    split at hp
    · cases hp
    · next parsed hparse =>
      simp only at hp
      split at hp
      · cases hp
      · next hscheme =>
        split at hp
        · cases hp
        · next huser =>
          split at hp
          · cases hp
          · next h hhost =>
            cases hpath : normalizePath decode parsed.path.toList with
            | error e =>
              rw [hpath] at hp
              cases hp
            | ok path =>
              rw [hpath] at hp
              cases hp
              have hschemes : lowered t parsed.scheme = "http" ∨
                  lowered t parsed.scheme = "https" := by
                by_contra hnone
                exact hscheme (not_or.mp hnone)
              have hanonymous : parsed.username = "" ∧ parsed.password = none := by
                simpa using huser
              exact ⟨parsed, h, hparse, hschemes, hanonymous, hhost,
                by rw [String.toList_ofList, hpath], rfl, rfl⟩
  · rintro ⟨parsed, h, hparse, hscheme, ⟨huser, hpassword⟩, hhost, hpath, hps, hph⟩
    have hknown : ¬(lowered t parsed.scheme ≠ "http" ∧ lowered t parsed.scheme ≠ "https") :=
      fun hne => hscheme.elim hne.1 hne.2
    rw [parseUrl, hparse]
    simp only [if_neg hknown, huser, hpassword, hhost, hpath]
    simp only [ne_eq, not_true_eq_false, Option.isSome_none, Bool.false_eq_true, or_self, if_false]
    change Except.ok (ParsedUrl.mk _ _ (String.ofList p.path.toList)) = _
    rw [← hps, ← hph, String.ofList_toList]

theorem matches_iff (p : EndpointPattern) (host path method : String) :
    p.matches upper host path method = true ↔ Rule p.host host ∧
      (∀ pre, p.pathPrefix = some pre → pre.toList <+: path.toList) ∧
      (p.methods = [] ∨ ∃ m ∈ p.methods, upper m = upper method) := by
  have hhost : p.matchesHost host = true ↔ Rule p.host host := by
    rw [EndpointPattern.matchesHost, decide_eq_true_eq]
    exact HostPatterns.matchesText_true p.host host
  have hpath : p.matchesPath path = true ↔
      ∀ pre, p.pathPrefix = some pre → pre.toList <+: path.toList := by
    unfold EndpointPattern.matchesPath
    cases p.pathPrefix with
    | none => simp
    | some pre => simp [startsWith]
  have hmethod : (p.methods.isEmpty || p.methods.any (fun m => upper m = upper method)) = true ↔
      (p.methods = [] ∨ ∃ m ∈ p.methods, upper m = upper method) := by
    simp
  rw [EndpointPattern.matches, Bool.and_eq_true, Bool.and_eq_true, hhost, hpath, hmethod, and_assoc]

theorem validate_allowed (self : AllowlistValidator) (url method : String) :
    self.validate t upper parse decode url method = .allowed ↔
      ∃ parsed host path pattern,
        Granted t upper parse decode self url method parsed host path pattern := by
  constructor
  · intro hv
    unfold AllowlistValidator.validate at hv
    split at hv
    · cases hv
    · split at hv
      · cases hv
      · next p hp =>
        obtain ⟨parsed, h, hparse, hscheme, hanonymous, hhost, hpath, hps, hph⟩ :=
          (parseUrl_ok t parse decode url p).mp hp
        split at hv
        · cases hv
        · next hsecure =>
          split at hv
          · next hany =>
            obtain ⟨pattern, hin, hmatch⟩ := List.any_eq_true.mp hany
            obtain ⟨hrule, hprefix, hmethod⟩ := (matches_iff upper pattern _ _ _).mp hmatch
            refine ⟨parsed, p.host, p.path, pattern, hparse, ?_, hanonymous, ⟨h, hhost, hph⟩, hpath,
              hin, hrule, hprefix, hmethod⟩
            rw [hps] at hsecure
            rcases hscheme with hhttp | hhttps
            · right
              refine ⟨?_, hhttp⟩
              by_contra hrequire
              refine hsecure ⟨Bool.not_eq_false _ ▸ hrequire, ?_⟩
              rw [hhttp]
              decide
            · exact Or.inl hhttps
          · simp only at hv
            split at hv
            · cases hv
            · split at hv <;> cases hv
  · rintro ⟨parsed, host, path, pattern, g⟩
    obtain ⟨h, hhost, hlowered⟩ := g.host_ok
    have hscheme : lowered t parsed.scheme = "http" ∨ lowered t parsed.scheme = "https" :=
      g.scheme.elim Or.inr (fun h => Or.inl h.2)
    have hp := (parseUrl_ok t parse decode url ⟨lowered t parsed.scheme, host, path⟩).mpr
      ⟨parsed, h, g.parsed_ok, hscheme, g.anonymous, hhost, g.path_ok, rfl, hlowered⟩
    have hsome : ¬self.patterns.isEmpty = true := by
      rw [List.isEmpty_iff]
      exact List.ne_nil_of_mem g.listed
    have hsecure : ¬(self.requireHttps = true ∧ lowered t parsed.scheme ≠ "https") := by
      rintro ⟨hrequire, hne⟩
      rcases g.scheme with hhttps | ⟨hfree, -⟩
      · exact hne hhttps
      · rw [hfree] at hrequire
        cases hrequire
    have hany : self.patterns.any (fun p => p.matches upper host path method) = true :=
      List.any_eq_true.mpr ⟨pattern, g.listed, (matches_iff upper pattern _ _ _).mpr
        ⟨g.host_matches, g.path_matches, g.method_matches⟩⟩
    rw [AllowlistValidator.validate, if_neg hsome, hp]
    simp only [if_neg hsecure, hany, if_true]

/-- A request is allowed only where one pattern matches it as a whole, and a
normalized path holds its dots and slashes resolved. -/
theorem allowlist_sound (plain : Plain decode) (self : AllowlistValidator) (url method : String)
    (path : List Char) :
    (self.validate t upper parse decode url method = .allowed ↔
        ∃ parsed host path pattern,
          Granted t upper parse decode self url method parsed host path pattern) ∧
      (∀ r, normalizePath decode path = .ok r → Normalized decode path r) ∧
      normalizePath decode ('/':: '.':: '.':: '/'::path) = normalizePath decode ('/'::path) :=
  ⟨validate_allowed t upper parse decode self url method,
    fun r h => normalize_normalized decode plain path r h, normalize_root decode plain path⟩

end

def hexValue (c : Char) : ℕ :=
  if c.isDigit then c.toNat-48 else if 'a' ≤ c then c.toNat-87 else c.toNat-55

def percentDecode : List Char → Option (List Char)
  | c::a::b::rest =>
    if c = '%' then
      if 16*hexValue a+hexValue b < 128 then
        (percentDecode rest).map (fun cs => Char.ofNat (16*hexValue a+hexValue b)::cs)
      else none
    else (percentDecode (a::b::rest)).map (fun cs => c::cs)
  | cs => some cs

theorem percentDecode_plain : Plain percentDecode := by
  intro s h
  fun_induction percentDecode s with
  | case1 a b rest hlow ih => exact absurd List.mem_cons_self h
  | case2 a b rest hhigh => exact absurd List.mem_cons_self h
  | case3 c a b rest hc ih => rw [ih (fun hin => h (List.mem_cons_of_mem c hin))]; rfl
  | case4 cs => rfl

def chatUrl : Url := ⟨"HTTPS", "", none, some "Api.Example.com", "/v1//a/%2e%2E/chat/"⟩

def readChat (url : String) : Except String Url :=
  if url = "HTTPS://Api.Example.com/v1//a/%2e%2E/chat/" then .ok chatUrl else .error "empty host"

def chatValidator : AllowlistValidator :=
  ⟨[⟨⟨"*.example.com"⟩, some "/v1/chat/", ["get", "Post"]⟩], true⟩

theorem chat_allowed : chatValidator.validate HostPatterns.asciiTables String.toUpper readChat
    percentDecode "HTTPS://Api.Example.com/v1//a/%2e%2E/chat/" "POST" = .allowed := by
  decide +kernel

/-- The dots and the doubled slash of a path under a prefix. -/
theorem allowlist_sound_chat :
    (∃ parsed host path pattern, Granted HostPatterns.asciiTables String.toUpper readChat
        percentDecode chatValidator "HTTPS://Api.Example.com/v1//a/%2e%2E/chat/" "POST" parsed
        host path pattern) ∧
      Normalized percentDecode "/v1//a/%2e%2E/chat/".toList "/v1/chat/".toList := by
  have h := allowlist_sound HostPatterns.asciiTables String.toUpper readChat percentDecode
    percentDecode_plain chatValidator "HTTPS://Api.Example.com/v1//a/%2e%2E/chat/" "POST"
    "/v1//a/%2e%2E/chat/".toList
  exact ⟨h.1.mp chat_allowed, h.2.1 _ (by decide)⟩

/-- A separator that is encoded twice is decoded once, and a dot segment at the
end leaves no slash. -/
theorem twice_encoded :
    normalizePath percentDecode "/%252F".toList = .ok "/%2F".toList ∧
      percentDecode "%2F".toList = some ['/'] ∧
      normalizePath percentDecode "/a/b/..".toList = .ok "/a".toList ∧
      joined (removeDotSegments [] [['a'], ['b'], ['.', '.']]) = "/a/".toList := by
  decide


end IronClaw.EndpointAllowlist
