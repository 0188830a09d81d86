import IronClaw.HttpApproval
import IronClaw.Lib.Letters

/-!
# Host patterns

Four functions decide whether a host matches a pattern such as `*.example.com`:
`EndpointPattern::host_matches`, `host_matches_pattern` of the credential
injector, `DomainPattern::matches` and `host_matches_pattern` of the sandbox
policy. A slice that would cut a character is `none`. Two texts are spellings
of each other when they have the same lower case.
-/

set_option autoImplicit false

namespace IronClaw.HostPatterns
open Lib.Text Lib.Search Lib.Letters

def matchesText (pattern host : String) : Option Bool :=
  if pattern = host then some true
  else
    match stripPrefix pattern "*." with
    | some suffix =>
      if endsWith host suffix && byteLen suffix.toList < byteLen host.toList then
        (slice host.toList 0 (byteLen host.toList-byteLen suffix.toList)).map
          (fun label => ['.'].isSuffixOf label || label.isEmpty)
      else some false
    | none => some false

structure EndpointPattern where
  host : String

def EndpointPattern.hostMatches (self : EndpointPattern) (urlHost : String) : Option Bool :=
  matchesText self.host urlHost

/-- `credential_injector::host_matches_pattern`. -/
def injectorMatches (host pattern : String) : Option Bool := matchesText pattern host

section

variable (t : Tables)

def lowered (s : String) : String := String.ofList (toLowercase t s.toList)

/-- `policy::host_matches_pattern`. -/
def policyMatches (host pattern : String) : Option Bool := matchesText (lowered t pattern) host

structure DomainPattern where
  pattern : String
  isWildcard : Bool
  baseDomain : String
  deriving DecidableEq

def DomainPattern.new (pattern : String) : Option DomainPattern :=
  if startsWith pattern "*." then
    (sliceFrom pattern.toList 2).map (fun base =>
      ⟨pattern, true, lowered t (String.ofList base)⟩)
  else some ⟨pattern, false, lowered t pattern⟩

def DomainPattern.matches (self : DomainPattern) (host : String) : Bool :=
  if self.isWildcard then
    lowered t host = self.baseDomain || endsWith (lowered t host) ("." ++ self.baseDomain)
  else lowered t host = self.baseDomain

def domainMatches (pattern host : String) : Option Bool :=
  (DomainPattern.new t pattern).map (fun p => p.matches t host)

def Wildcard (pattern : String) (d : List Char) : Prop := pattern.toList = '*' :: '.' :: d

def Rule (pattern host : String) : Prop :=
  host = pattern ∨ ∃ d x, Wildcard pattern d ∧ host.toList = x ++ '.' :: d

def Spelling (s s' : String) : Prop := toLowercase t s'.toList = toLowercase t s.toList

def Bare (pattern host : String) : Prop :=
  ∃ d, Wildcard pattern d ∧ toLowercase t host.toList = toLowercase t d

def Labelled (d : List Char) (host : String) : Prop :=
  ∃ x, toLowercase t host.toList = x ++ '.' :: toLowercase t d ∧ ∀ label ∈ x.splitOn '.', label ≠ []

structure Verdicts where
  endpoint : Option Bool
  injector : Option Bool
  domain : Option Bool
  policy : Option Bool
  deriving DecidableEq

def verdicts (pattern host : String) : Verdicts :=
  ⟨(EndpointPattern.mk pattern).hostMatches host, injectorMatches host pattern,
    domainMatches t pattern host, policyMatches t host pattern⟩

structure OneMeaning (pattern host : String) : Prop where
  agree : (verdicts t pattern host).injector = (verdicts t pattern host).endpoint ∧
    (verdicts t pattern host).policy = (verdicts t pattern host).endpoint ∧
    ((verdicts t pattern host).domain = some true ↔
      (verdicts t pattern host).endpoint = some true ∨ Bare t pattern host)
  caseless : ∀ pattern' host', Spelling t pattern pattern' → Spelling t host host' →
    verdicts t pattern' host' = verdicts t pattern host
  labels : ∀ d, Wildcard pattern d →
    ((verdicts t pattern host).endpoint = some true → Labelled t d host) ∧
    ((verdicts t pattern host).injector = some true → Labelled t d host) ∧
    ((verdicts t pattern host).policy = some true → Labelled t d host) ∧
    ((verdicts t pattern host).domain = some true → Labelled t d host ∨ Bare t pattern host)
  sliced : (verdicts t pattern host).endpoint ≠ none ∧ (verdicts t pattern host).injector ≠ none ∧
    (verdicts t pattern host).domain ≠ none ∧ (verdicts t pattern host).policy ≠ none

def Unmatched (pattern host : String) : Prop :=
  ∀ pattern' host', Spelling t pattern pattern' → Spelling t host host' → ¬ Rule pattern' host'

structure Plain (pattern host : String) : Prop where
  alone : ∀ pattern', Spelling t pattern pattern' → pattern' = pattern
  matched : ∀ host', Spelling t host host' → Rule pattern host'
  labels : ∀ d, Wildcard pattern d → Labelled t d host

end

theorem stripPrefix_wildcard (pattern : String) :
    (∃ d, Wildcard pattern d ∧ stripPrefix pattern "*." = some (String.ofList d)) ∨
      (∀ d, ¬ Wildcard pattern d) ∧ stripPrefix pattern "*." = none := by
  by_cases hstart : startsWith pattern "*." = true
  · left
    obtain ⟨d, hd⟩ := List.isPrefixOf_iff_prefix.mp hstart
    refine ⟨d, hd.symm, ?_⟩
    rw [stripPrefix, if_pos hstart, ← hd]
    simp
  · right
    refine ⟨fun d hd => hstart ?_, by rw [stripPrefix, if_neg hstart]⟩
    exact List.isPrefixOf_iff_prefix.mpr ⟨d, hd.symm⟩

variable (pattern host : String)

theorem rule_wildcard (d : List Char) (hd : Wildcard pattern d) :
    Rule pattern host ↔ ∃ x, host.toList = x ++ '.' :: d := by
  constructor
  · rintro (rfl | ⟨d', x, hd', hx⟩)
    · exact ⟨['*'], hd⟩
    · have hsame : d' = d := by
        rw [Wildcard, hd] at hd'
        exact ((List.cons_eq_cons.mp (List.cons_eq_cons.mp hd').2).2).symm
      exact ⟨x, by rw [hx, hsame]⟩
  · rintro ⟨x, hx⟩
    exact .inr ⟨d, x, hd, hx⟩

theorem rule_plain (hd : ∀ d, ¬ Wildcard pattern d) :
    Rule pattern host ↔ host = pattern := by
  constructor
  · rintro (h | ⟨d, x, hw, -⟩)
    · exact h
    · exact absurd hw (hd d)
  · exact .inl

/-- The shared comparison cuts at the end of a character and decides the rule. -/
theorem matchesText_spec :
    ∃ b, matchesText pattern host = some b ∧ (b = true ↔ Rule pattern host) := by
  by_cases heq : pattern = host
  · exact ⟨true, by rw [matchesText, if_pos heq], fun _ => .inl heq.symm, fun _ => rfl⟩
  · rw [matchesText, if_neg heq]
    rcases stripPrefix_wildcard pattern with ⟨d, hd, hstrip⟩ | ⟨hd, hstrip⟩
    · rw [rule_wildcard pattern host d hd, hstrip]
      simp only [String.toList_ofList]
      split
      · rename_i hends
        simp only [Bool.and_eq_true, decide_eq_true_eq, endsWith, String.toList_ofList,
          List.isSuffixOf_iff_suffix] at hends
        obtain ⟨⟨x, hx⟩, hlong⟩ := hends
        have hslice := slice_append [] x d
        simp only [List.nil_append, byteLen, Nat.zero_add] at hslice
        rw [← hx, byteLen_append, Nat.add_sub_cancel, hslice]
        refine ⟨_, rfl, ?_⟩
        have hx' : x ≠ [] := by
          intro hnil
          rw [← hx, hnil] at hlong
          exact Nat.lt_irrefl _ hlong
        show (['.'].isSuffixOf x || x.isEmpty) = true ↔ _
        rw [List.isEmpty_eq_false_iff.mpr hx', Bool.or_false, List.isSuffixOf_iff_suffix]
        constructor
        · rintro ⟨y, hy⟩
          exact ⟨y, by rw [← hy, List.append_assoc, List.singleton_append]⟩
        · rintro ⟨y, hy⟩
          have hends : y++['.']++d = x++d := by
            rw [hy, List.append_assoc, List.singleton_append]
          exact ⟨y, List.append_cancel_right hends⟩
      · rename_i hends
        refine ⟨false, rfl, by simp, ?_⟩
        rintro ⟨y, hy⟩
        refine absurd ?_ hends
        have hlong : byteLen d < byteLen host.toList := by
          rw [hy, byteLen_append]
          have hdot := Char.utf8Size_pos '.'
          simp only [byteLen]
          omega
        simp only [Bool.and_eq_true, decide_eq_true_eq, endsWith, String.toList_ofList,
          List.isSuffixOf_iff_suffix]
        exact ⟨⟨y++['.'], by rw [hy, List.append_assoc, List.singleton_append]⟩, hlong⟩
    · rw [rule_plain pattern host hd, hstrip]
      exact ⟨false, rfl, by simp, fun h => absurd h.symm heq⟩

theorem matchesText_true :
    matchesText pattern host = some true ↔ Rule pattern host := by
  obtain ⟨b, hb, hrule⟩ := matchesText_spec pattern host
  rw [hb, Option.some.injEq, hrule]

theorem matchesText_ne_none : matchesText pattern host ≠ none := by
  obtain ⟨b, hb, -⟩ := matchesText_spec pattern host
  simp [hb]

theorem verdict_ext (a b : Option Bool) (ha : a ≠ none) (hb : b ≠ none)
    (h : a = some true ↔ b = some true) : a = b := by
  cases a with
  | none => exact absurd rfl ha
  | some a =>
    cases b with
    | none => exact absurd rfl hb
    | some b =>
      rw [Option.some.injEq, Option.some.injEq] at h
      rw [Bool.eq_iff_iff.mpr h]

section

variable (t : Tables)

structure Punctuation : Prop where
  dot : Mark t '.'
  star : Mark t '*'
  apart : meetsCased t ['.', '*'] = false

variable (marks : Punctuation t) (doc : Documented t)
include marks

theorem wildcard_lowered (pattern : String) (d : List Char) (hd : Wildcard pattern d) :
    toLowercase t pattern.toList = '*' :: '.' :: toLowercase t d := by
  rw [hd, toLowercase, lowerIn_mark t _ marks.star, lowerIn_mark t _ marks.dot]
  rw [lowerIn_congr t ['.', '*'] [] d [] marks.apart]
  rfl

theorem lowered_dots (cs : List Char) : (toLowercase t cs).count '.' = cs.count '.' :=
  count_lowerIn t '.' marks.dot (by decide) (by decide) [] cs []

include doc in
theorem wildcard_spelling (pattern pattern' : String) (d : List Char)
    (hd : Wildcard pattern d) (h : Spelling t pattern pattern') :
    ∃ d', Wildcard pattern' d' ∧ toLowercase t d' = toLowercase t d := by
  have hlow := h.trans (wildcard_lowered t marks pattern d hd)
  obtain ⟨rest, hrest, hdot⟩ := lowerIn_head t doc '*' marks.star (by decide) (by decide) _ _ _ _
    hlow
  obtain ⟨d', hd', -⟩ := lowerIn_head t doc '.' marks.dot (by decide) (by decide) _ _ _ _
    hdot.symm
  have hw : Wildcard pattern' d' := by rw [Wildcard, hrest, hd']
  rw [wildcard_lowered t marks pattern' d' hw] at hlow
  exact ⟨d', hw, (List.cons_eq_cons.mp (List.cons_eq_cons.mp hlow).2).2⟩

omit marks in
theorem wildcard_starts (pattern : String) :
    startsWith pattern "*." = true ↔ ∃ d, Wildcard pattern d := by
  rw [startsWith, List.isPrefixOf_iff_prefix]
  constructor
  · rintro ⟨d, hd⟩
    exact ⟨d, hd.symm⟩
  · rintro ⟨d, hd⟩
    exact ⟨d, hd.symm⟩

omit marks in
include doc in
theorem lowered_spelling (s : String) : Spelling t s (lowered t s) := by
  rw [Spelling, lowered, String.toList_ofList]
  exact toLowercase_idem t doc s.toList

omit marks in
theorem spelling_symm (s s' : String) (h : Spelling t s s') : Spelling t s' s := Eq.symm h

variable (pattern host : String)

include doc in
/-- The domain matcher compares lower case, and takes the bare domain too. -/
theorem domain_spec :
    ∃ b, domainMatches t pattern host = some b ∧
      (b = true ↔ Bare t pattern host ∨ Rule (lowered t pattern) (lowered t host)) := by
  by_cases hstart : startsWith pattern "*." = true
  · obtain ⟨d, hd⟩ := (wildcard_starts pattern).mp hstart
    have hcut : sliceFrom pattern.toList 2 = some d := by
      rw [hd]
      exact sliceFrom_append ['*', '.'] d
    refine ⟨_, by rw [domainMatches, DomainPattern.new, if_pos hstart, hcut]; rfl, ?_⟩
    have hlow : Wildcard (lowered t pattern) (toLowercase t d) := by
      rw [Wildcard, lowered, String.toList_ofList]
      exact wildcard_lowered t marks pattern d hd
    have hbare : Bare t pattern host ↔ toLowercase t host.toList = toLowercase t d := by
      constructor
      · rintro ⟨d', hd', h⟩
        rw [Wildcard, hd, List.cons_eq_cons, List.cons_eq_cons] at hd'
        rw [h, hd'.2.2]
      · intro h
        exact ⟨d, hd, h⟩
    rw [rule_wildcard _ _ _ hlow, hbare]
    simp only [DomainPattern.matches, lowered, String.toList_ofList, if_true, Bool.or_eq_true,
      decide_eq_true_eq, endsWith, List.isSuffixOf_iff_suffix, String.toList_append,
      String.ofList_inj]
    apply or_congr_right
    constructor
    · rintro ⟨x, hx⟩
      exact ⟨x, hx.symm⟩
    · rintro ⟨x, hx⟩
      exact ⟨x, hx.symm⟩
  · refine ⟨_, by rw [domainMatches, DomainPattern.new, if_neg hstart]; rfl, ?_⟩
    have hplain : ∀ d, ¬ Wildcard (lowered t pattern) d := by
      intro d hd
      obtain ⟨d', hd', -⟩ := wildcard_spelling t marks doc _ pattern d hd
        (spelling_symm t _ _ (lowered_spelling t doc pattern))
      exact hstart ((wildcard_starts pattern).mpr ⟨d', hd'⟩)
    have hbare : ¬ Bare t pattern host := by
      rintro ⟨d, hd, _⟩
      exact hstart ((wildcard_starts pattern).mpr ⟨d, hd⟩)
    rw [rule_plain _ _ hplain]
    simp [DomainPattern.matches, hbare]

include doc in
theorem domain_true :
    domainMatches t pattern host = some true ↔
      Bare t pattern host ∨ Rule (lowered t pattern) (lowered t host) := by
  obtain ⟨b, hb, hrule⟩ := domain_spec t marks doc pattern host
  rw [hb, Option.some.injEq, hrule]

include doc in
theorem domain_ne_none : domainMatches t pattern host ≠ none := by
  obtain ⟨b, hb, -⟩ := domain_spec t marks doc pattern host
  simp [hb]

include doc in
theorem bare_spelling (pattern host pattern' host' : String) (hp : Spelling t pattern pattern')
    (hh : Spelling t host host') (h : Bare t pattern host) : Bare t pattern' host' := by
  obtain ⟨d, hd, hlow⟩ := h
  obtain ⟨d', hd', hlow'⟩ := wildcard_spelling t marks doc pattern pattern' d hd hp
  exact ⟨d', hd', hh.trans (hlow.trans hlow'.symm)⟩

include doc in
/-- A host that matches two spellings of a pattern matches one text. -/
theorem matched_alone (pattern pattern' host : String) (hp : Spelling t pattern pattern')
    (h : Rule pattern host) (h' : Rule pattern' host) : pattern' = pattern := by
  by_cases hw : ∃ d, Wildcard pattern d
  · obtain ⟨d, hd⟩ := hw
    obtain ⟨d', hd', hlow⟩ := wildcard_spelling t marks doc pattern pattern' d hd hp
    obtain ⟨x, hx⟩ := (rule_wildcard pattern host d hd).mp h
    obtain ⟨x', hx'⟩ := (rule_wildcard pattern' host d' hd').mp h'
    have hdots : d'.count '.' = d.count '.' := by
      rw [← lowered_dots t marks d', hlow, lowered_dots t marks d]
    have hsame := split_unique '.' x' d' x d (hx'.symm.trans hx) hdots
    rw [← String.toList_inj, hd, hd', hsame]
  · have hplain : ∀ d, ¬ Wildcard pattern d := fun d hd => hw ⟨d, hd⟩
    have hplain' : ∀ d, ¬ Wildcard pattern' d := by
      intro d hd
      obtain ⟨d', hd', -⟩ := wildcard_spelling t marks doc pattern' pattern d hd
        (spelling_symm t _ _ hp)
      exact hplain d' hd'
    rw [← (rule_plain pattern host hplain).mp h, ← (rule_plain pattern' host hplain').mp h']

omit marks in
theorem endpoint_true :
    (verdicts t pattern host).endpoint = some true ↔ Rule pattern host :=
  matchesText_true pattern host

omit marks in
theorem policy_true :
    (verdicts t pattern host).policy = some true ↔ Rule (lowered t pattern) host :=
  matchesText_true (lowered t pattern) host

include doc in
theorem sliced_whole :
    (verdicts t pattern host).endpoint ≠ none ∧ (verdicts t pattern host).injector ≠ none ∧
      (verdicts t pattern host).domain ≠ none ∧ (verdicts t pattern host).policy ≠ none :=
  ⟨matchesText_ne_none _ _, matchesText_ne_none _ _, domain_ne_none t marks doc _ _,
    matchesText_ne_none _ _⟩

include doc in
/-- The verdicts on two spellings are the same where the rule is. -/
theorem same_verdicts (pattern host pattern' host' : String) (hp : Spelling t pattern pattern')
    (hh : Spelling t host host') (hrule : Rule pattern' host' ↔ Rule pattern host)
    (hpolicy : Rule (lowered t pattern) host' ↔ Rule (lowered t pattern) host) :
    verdicts t pattern' host' = verdicts t pattern host := by
  have hlowp : lowered t pattern' = lowered t pattern := congrArg String.ofList hp
  have hlowh : lowered t host' = lowered t host := congrArg String.ofList hh
  have hslices := sliced_whole t marks doc pattern host
  have hslices' := sliced_whole t marks doc pattern' host'
  have hendpoint : (verdicts t pattern' host').endpoint = (verdicts t pattern host).endpoint := by
    apply verdict_ext _ _ hslices'.1 hslices.1
    rw [endpoint_true, endpoint_true, hrule]
  have hdomain : (verdicts t pattern' host').domain = (verdicts t pattern host).domain := by
    apply verdict_ext _ _ hslices'.2.2.1 hslices.2.2.1
    have hbare : Bare t pattern' host' ↔ Bare t pattern host :=
      ⟨bare_spelling t marks doc _ _ _ _ (spelling_symm t _ _ hp) (spelling_symm t _ _ hh),
        bare_spelling t marks doc _ _ _ _ hp hh⟩
    show domainMatches t pattern' host' = some true ↔ domainMatches t pattern host = some true
    rw [domain_true t marks doc, domain_true t marks doc, hlowp, hlowh, hbare]
  have hpol : (verdicts t pattern' host').policy = (verdicts t pattern host).policy := by
    apply verdict_ext _ _ hslices'.2.2.2 hslices.2.2.2
    rw [policy_true, policy_true, hlowp, hpolicy]
  -- the injector is the endpoint matcher with its arguments exchanged
  show Verdicts.mk _ _ _ _ = Verdicts.mk _ _ _ _
  exact (Verdicts.mk.injEq ..).mpr ⟨hendpoint, hendpoint, hdomain, hpol⟩

include doc in
theorem meaning_of_unmatched (h : Unmatched t pattern host) :
    OneMeaning t pattern host := by
  have hlow := lowered_spelling t doc pattern
  have hendpoint : ¬ Rule pattern host := h _ _ rfl rfl
  have hpolicy : ¬ Rule (lowered t pattern) host := h _ _ hlow rfl
  have hdomain : ¬ Rule (lowered t pattern) (lowered t host) :=
    h _ _ hlow (lowered_spelling t doc host)
  have hslices := sliced_whole t marks doc pattern host
  have hbare : (verdicts t pattern host).domain = some true → Bare t pattern host := by
    intro htrue
    exact ((domain_true t marks doc pattern host).mp htrue).resolve_right hdomain
  refine ⟨⟨rfl, ?_, ?_⟩, ?_, ?_, hslices⟩
  · apply verdict_ext _ _ hslices.2.2.2 hslices.1
    rw [policy_true, endpoint_true]
    exact iff_of_false hpolicy hendpoint
  · rw [endpoint_true]
    constructor
    · intro htrue
      exact .inr (hbare htrue)
    · rintro (hrule | hb)
      · exact absurd hrule hendpoint
      · exact (domain_true t marks doc pattern host).mpr (.inl hb)
  · intro pattern' host' hp hh
    exact same_verdicts t marks doc _ _ _ _ hp hh (iff_of_false (h _ _ hp hh) hendpoint)
      (iff_of_false (h _ _ hlow hh) hpolicy)
  · intro d _
    exact ⟨fun htrue => absurd ((endpoint_true t _ _).mp htrue) hendpoint,
      fun htrue => absurd ((endpoint_true t _ _).mp htrue) hendpoint,
      fun htrue => absurd ((policy_true t _ _).mp htrue) hpolicy, fun htrue => .inr (hbare htrue)⟩

include doc in
theorem meaning_of_plain (h : Plain t pattern host) :
    OneMeaning t pattern host := by
  have hlow : lowered t pattern = pattern := h.alone _ (lowered_spelling t doc pattern)
  have hendpoint : Rule pattern host := h.matched host rfl
  have hdomain : (verdicts t pattern host).domain = some true := by
    apply (domain_true t marks doc pattern host).mpr
    rw [hlow]
    exact .inr (h.matched _ (lowered_spelling t doc host))
  have hslices := sliced_whole t marks doc pattern host
  refine ⟨⟨rfl, ?_, ?_⟩, ?_, ?_, hslices⟩
  · apply verdict_ext _ _ hslices.2.2.2 hslices.1
    rw [policy_true, endpoint_true, hlow]
  · rw [endpoint_true]
    exact iff_of_true hdomain (.inl hendpoint)
  · intro pattern' host' hp hh
    have hsame := h.alone pattern' hp
    apply same_verdicts t marks doc _ _ _ _ hp hh
    · rw [hsame]
      exact iff_of_true (h.matched host' hh) hendpoint
    · rw [hlow]
      exact iff_of_true (h.matched host' hh) hendpoint
  · intro d hd
    have hlabels := h.labels d hd
    exact ⟨fun _ => hlabels, fun _ => hlabels, fun _ => hlabels, fun _ => .inl hlabels⟩

include doc in
/-- The four matchers mean the same by a pattern and a host exactly when no
spelling of the one matches a spelling of the other, or the pattern has one
spelling only, which every spelling of the host matches, label by label. -/
theorem one_meaning_iff :
    OneMeaning t pattern host ↔ Unmatched t pattern host ∨ Plain t pattern host := by
  constructor
  · intro h
    by_cases hnone : Unmatched t pattern host
    · exact .inl hnone
    · right
      unfold Unmatched at hnone
      push Not at hnone
      obtain ⟨pattern₀, host₀, hp₀, hh₀, hrule₀⟩ := hnone
      -- one match makes every spelling match
      have hall : ∀ pattern' host', Spelling t pattern pattern' → Spelling t host host' →
          Rule pattern' host' := by
        intro pattern' host' hp hh
        rw [← endpoint_true t, h.caseless _ _ hp hh, ← h.caseless _ _ hp₀ hh₀, endpoint_true t]
        exact hrule₀
      refine ⟨?_, fun host' hh => hall _ _ rfl hh, ?_⟩
      · intro pattern' hp
        exact matched_alone t marks doc pattern pattern' host hp (hall _ _ rfl rfl)
          (hall _ _ hp rfl)
      · intro d hd
        exact (h.labels d hd).1 ((endpoint_true t _ _).mpr (hall _ _ rfl rfl))
  · rintro (h | h)
    · exact meaning_of_unmatched t marks doc pattern host h
    · exact meaning_of_plain t marks doc pattern host h

end

def asciiTables : Tables where
  lower c := if c = 'Σ' then ['σ'] else [c.toLower]
  cased c := c.isAlpha
  ignorable c := c = '.' || c = ':'

theorem ascii_documented : Documented asciiTables where
  settled := by
    intro c d hd
    simp only [asciiTables] at hd ⊢
    split at hd
    · rw [List.mem_singleton.mp hd]
      decide
    · rename_i hc
      rw [List.mem_singleton.mp hd]
      have hne : c.toLower ≠ 'Σ' := fun h => hc (toLower_apart c 'Σ' (by decide) h)
      exact ⟨hne, by rw [if_neg hne, toLower_toLower]⟩
  nonempty := by
    intro c
    simp only [asciiTables]
    split <;> simp
  sigmas := by decide

theorem ascii_mark (m : Char) (hm : m ≠ 'Σ') (hσ : m ≠ 'σ') (hm' : m.toNat < 97 ∨ 122 < m.toNat)
    (hlow : m.toLower = m) : Mark asciiTables m := by
  refine ⟨hm, ?_, ?_⟩
  · simp only [asciiTables, if_neg hm, hlow]
  · intro c hc
    simp only [asciiTables] at hc
    split at hc
    · exact absurd (List.mem_singleton.mp hc) hσ
    · exact toLower_apart c m hm' (List.mem_singleton.mp hc).symm

theorem ascii_punctuation : Punctuation asciiTables where
  dot := ascii_mark '.' (by decide) (by decide) (by decide) rfl
  star := ascii_mark '*' (by decide) (by decide) (by decide) rfl
  apart := by decide

/-- The bare domain of a wildcard: only the domain matcher takes it, in every
spelling. -/
theorem bare_domain_meaning :
    OneMeaning asciiTables "*.Example.com" "example.COM" ∧
      verdicts asciiTables "*.Example.com" "example.COM" =
        ⟨some false, some false, some true, some false⟩ := by
  refine ⟨(one_meaning_iff asciiTables ascii_punctuation ascii_documented _ _).mpr (.inl ?_),
    by decide⟩
  intro pattern host hp hh hrule
  have hw : Wildcard "*.Example.com" "Example.com".toList := by
    unfold Wildcard
    decide
  obtain ⟨d, hd, hlow⟩ := wildcard_spelling asciiTables ascii_punctuation ascii_documented _ pattern
    _ hw hp
  obtain ⟨x, hx⟩ := (rule_wildcard pattern host d hd).mp hrule
  have hdots : d.count '.' = 1 := by
    rw [← lowered_dots asciiTables ascii_punctuation d, hlow]
    decide
  have hhost : host.toList.count '.' = 1 := by
    rw [← lowered_dots asciiTables ascii_punctuation host.toList, hh]
    decide
  rw [hx, List.count_append, List.count_cons_self, hdots] at hhost
  omega

/-- A capital in the pattern: two of the matchers refuse the host. -/
theorem capitals_differ :
    ¬ ∀ (t : Tables), Punctuation t → Documented t → ∀ pattern host : String,
      OneMeaning t pattern host := by
  intro h
  have hagree := (h asciiTables ascii_punctuation ascii_documented "API.example.com"
    "api.example.com").agree.2.1
  exact absurd hagree (by decide)

end IronClaw.HostPatterns
