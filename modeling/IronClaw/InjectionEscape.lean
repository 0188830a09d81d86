import IronClaw.SafetyLayer
import IronClaw.Lib.Insertion

/-!
# What the escape branch neutralises

`Sanitizer::escape_content`: four replacements that put a backslash into a
token, the removal of NUL characters after them, and a mark before the lines
that start with a role. A NUL inside a token hides it from its replacement.
-/

set_option autoImplicit false

namespace IronClaw.InjectionEscape
open Lib.Text Lib.Search Lib.Words Lib.Overlap Lib.Insertion IronClaw.LeakScan
  IronClaw.SafetyLayer

def escapedTokens : List (List Char) :=
  [['<', '|'], ['[', 'I', 'N', 'S', 'T', ']'], ['[', '/', 'I', 'N', 'S', 'T', ']']]

def closingToken : List Char := ['|', '>']

structure Neutralised (toLowercase : List Char → List Char) (out : List Char) : Prop where
  noNul : '\x00' ∉ out
  escaped : ∀ token ∈ escapedTokens, ∀ p q, out = p++token++q → p.getLast? = some '\\'
  closed : ¬ closingToken <:+: out
  roles : ∀ line ∈ out.splitOn '\n', isRoleLine toLowercase line = false

def Assembled (token content p : List Char) : Prop :=
  ∃ piece q, content = p++piece++q ∧ removeNul piece = token ∧ ¬ token <:+: piece

structure Whole (content : List Char) : Prop where
  tokens : ∀ token ∈ escapedTokens, ∀ p, Assembled token content p →
    (removeNul p).getLast? = some '\\'
  closing : ∀ p, ¬ Assembled closingToken content p

section passes

theorem removeNul_append (p q : List Char) : removeNul (p++q) = removeNul p++removeNul q :=
  List.filter_append p q

theorem removeNul_fresh (p : List Char) (h : '\x00' ∉ p) : removeNul p = p := by
  refine List.filter_eq_self.mpr (fun c hc => ?_)
  have hne : c ≠ '\x00' := fun heq => h (heq ▸ hc)
  simpa using hne

structure Before (free : Option Char → Prop) : Prop where
  others : ∀ c, c ≠ some '\\' → free c

variable (free : Option Char → Prop)

def Loose (token s : List Char) : Prop := ∃ p q, s = p++token++q ∧ free (removeNul p).getLast?

def Broken (token s : List Char) : Prop :=
  ∃ p, Assembled token s p ∧ free (removeNul p).getLast?

def Bare (token s : List Char) : Prop := ∃ p q, s = p++token++q ∧ free p.getLast?

theorem bare_iff (token s : List Char) (hnul : '\x00' ∉ token) :
    Bare free token (removeNul s) ↔ Loose free token s ∨ Broken free token s := by
  constructor
  · rintro ⟨p, q, hs, hp⟩
    obtain ⟨px, q', hsplit, hpx, _⟩ := List.filter_eq_append_iff.mp hs
    obtain ⟨p', x, hsplit', hp', hx⟩ := List.filter_eq_append_iff.mp hpx
    change removeNul p' = p at hp'
    rw [hsplit'] at hsplit
    by_cases hin : token <:+: x
    · obtain ⟨y, z, hyz⟩ := hin
      have hy : removeNul y = [] := by
        have hlen := congrArg List.length hx
        change (removeNul x).length = _ at hlen
        rw [← hyz, removeNul_append, removeNul_append, removeNul_fresh token hnul] at hlen
        simp only [List.length_append] at hlen
        exact List.eq_nil_of_length_eq_zero (by omega)
      refine Or.inl ⟨p'++y, z++q', ?_, ?_⟩
      · rw [hsplit, ← hyz]
        simp only [List.append_assoc]
      · rwa [removeNul_append, hy, List.append_nil, hp']
    · exact Or.inr ⟨p', ⟨x, q', hsplit, hx, hin⟩, by rwa [hp']⟩
  · rintro (⟨p, q, hs, hp⟩ | ⟨p, ⟨x, q, hs, hx, _⟩, hp⟩)
    · refine ⟨removeNul p, removeNul q, ?_, hp⟩
      rw [hs, removeNul_append, removeNul_append, removeNul_fresh token hnul]
    · refine ⟨removeNul p, removeNul q, ?_, hp⟩
      rw [hs, removeNul_append, removeNul_append, hx]

def pass (parts : List Char × List Char) (s : List Char) : List Char :=
  replace (parts.1++parts.2) (parts.1++ '\\'::parts.2) s

def passes : List (List Char × List Char) :=
  [([], ['<', '|']), (['|'], ['>']), ([], ['[', 'I', 'N', 'S', 'T', ']']),
   ([], ['[', '/', 'I', 'N', 'S', 'T', ']'])]

theorem escapeTokens_passes (content : List Char) :
    escapeTokens content = passes.foldl (fun s parts => pass parts s) content := rfl

def Apart (parts : List Char × List Char) (token : List Char) : Prop :=
  ∀ p x q, removeNul x = token → ¬ token <:+: x → ∀ x₁ c x₂, x = x₁++c::x₂ →
    ¬ (parts.1 <:+ p++x₁ ∧ parts.2 <+: c::x₂++q)

structure Solid (parts : List Char × List Char) : Prop where
  nonempty : parts.2 ≠ []
  fresh : '\x00' ∉ parts.2

theorem pass_place (parts : List Char × List Char) (h : Solid parts) (seen : List Char) (c : Char)
    (cs : List Char) (hplace : parts.1 <:+ seen ∧ parts.2 <+: c::cs) :
    decide (c ≠ '\x00') = true := by
  obtain ⟨d, b, hb⟩ := List.exists_cons_of_ne_nil h.nonempty
  have hpre := hplace.2
  have hfresh := h.fresh
  rw [hb] at hpre hfresh
  rw [← (List.cons_prefix_cons.mp hpre).1]
  refine decide_eq_true (fun heq => hfresh ?_)
  rw [heq]
  exact List.mem_cons_self

/-- A pass leads no token back to a text that did not have it. -/
theorem pass_back (hfree : Before free) (parts : List Char × List Char) (hsolid : Solid parts)
    (s p x q : List Char) (hs : pass parts s = p++x++q) (hx : '\\' ∉ x) (hne : x ≠ [])
    (hp : free (removeNul p).getLast?) :
    ∃ p' q', s = p'++x++q' ∧ free (removeNul p').getLast? := by
  have hplaced := replace_placed parts.1 parts.2 '\\' hsolid.nonempty [] s
  obtain ⟨p', q', hsplit, hlast⟩ := placed_back (fun c => decide (c ≠ '\x00'))
    (pass_place parts hsolid) (by decide) [] s _ p x q hplaced hs hx hne
  refine ⟨p', q', hsplit, ?_⟩
  obtain hlast | hlast := hlast
  · have hsame : (removeNul p).getLast? = (removeNul p').getLast? := hlast
    rwa [← hsame]
  · by_cases hslash : (removeNul p').getLast? = some '\\'
    · rw [hslash]
      exact hlast ▸ hp
    · exact hfree.others _ hslash

theorem pass_loose (hfree : Before free) (parts : List Char × List Char) (hsolid : Solid parts)
    (token s : List Char) (hslash : '\\' ∉ token) (hne : token ≠ [])
    (h : Loose free token (pass parts s)) : Loose free token s := by
  obtain ⟨p, q, hs, hp⟩ := h
  exact pass_back free hfree parts hsolid s p token q hs hslash hne hp

theorem pass_broken (hfree : Before free) (parts : List Char × List Char) (hsolid : Solid parts)
    (token s : List Char) (hslash : '\\' ∉ token) (hne : token ≠ []) (hapart : Apart parts token) :
    Broken free token (pass parts s) ↔ Broken free token s := by
  constructor
  · rintro ⟨p, ⟨x, q, hs, hx, hin⟩, hp⟩
    have hxslash : '\\' ∉ x := by
      intro hmem
      refine hslash ?_
      rw [← hx]
      exact List.mem_filter.mpr ⟨hmem, by decide⟩
    have hxne : x ≠ [] := by
      intro hnil
      rw [hnil] at hx
      exact hne hx.symm
    obtain ⟨p', q', hsplit, hp'⟩ := pass_back free hfree parts hsolid s p x q hs hxslash hxne hp
    exact ⟨p', ⟨x, q', hsplit, hx, hin⟩, hp'⟩
  · rintro ⟨p, ⟨x, q, hs, hx, hin⟩, hp⟩
    have hplaced := replace_placed parts.1 parts.2 '\\' hsolid.nonempty [] s
    rw [hs] at hplaced
    obtain ⟨p', q', hsplit, hlast⟩ := placed_keeps (fun c => decide (c ≠ '\x00'))
      (pass_place parts hsolid) [] p x q _ hplaced (hapart p x q hx hin)
    refine ⟨p', ⟨x, q', ?_, hx, hin⟩, ?_⟩
    · rw [hs]
      exact hsplit
    · have hsame : (removeNul p').getLast? = (removeNul p).getLast? := hlast
      rwa [hsame]

end passes

section tokens

def tokens : List (List Char) := closingToken::escapedTokens

/-- A token that is escaped before its first character shares none with the
pieces of another. -/
theorem apart_before (v token : List Char) (hnul : '\x00' ∉ v)
    (hshare : ∀ y ∈ v.inits, y <:+ token → y = [] ∨ y = token)
    (hinside : v <:+: token → v = token) : Apart ([], v) token := by
  intro p x q hx hin x₁ c x₂ hsplit hplace
  have htoken : removeNul x₁++removeNul (c::x₂) = token := by
    rw [← removeNul_append, ← hsplit, hx]
  refine hin ?_
  obtain hpre | ⟨z, hz, _⟩ := prefix_append_cases v (c::x₂) q hplace.2
  · obtain ⟨r, hr⟩ := hpre
    have hvin : v <:+: token := by
      refine ⟨removeNul x₁, removeNul r, ?_⟩
      rw [← htoken, ← hr, removeNul_append, removeNul_fresh v hnul, List.append_assoc]
    refine ⟨x₁, r, ?_⟩
    rw [hsplit, ← hr, ← hinside hvin, List.append_assoc]
  · have hfresh : '\x00' ∉ c::x₂ := fun hmem => hnul (by
      rw [hz]
      exact List.mem_append_left z hmem)
    rw [removeNul_fresh _ hfresh] at htoken
    have hinit : c::x₂ ∈ v.inits := by
      rw [List.mem_inits, hz]
      exact List.prefix_append (c::x₂) z
    have hwhole := hshare (c::x₂) hinit ⟨removeNul x₁, htoken⟩
    rw [or_iff_right (List.cons_ne_nil c x₂)] at hwhole
    rw [hsplit, ← hwhole]
    exact (List.suffix_append x₁ (c::x₂)).isInfix

theorem apart_closing (token : List Char)
    (h : '>' ∈ token → token = ['|', '>']) : Apart (['|'], ['>']) token := by
  intro p x q hx hin x₁ c x₂ hsplit hplace
  have hc : '>' = c := (List.cons_prefix_cons.mp hplace.2).1
  have htoken : removeNul x₁++removeNul (c::x₂) = token := by
    rw [← removeNul_append, ← hsplit, hx]
  have hrest : removeNul (c::x₂) = '>'::removeNul x₂ := by
    rw [← hc]
    rfl
  have hmem : '>' ∈ token := by
    rw [← htoken, hrest]
    exact List.mem_append_right _ List.mem_cons_self
  have hclosing := h hmem
  rw [hclosing, hrest] at htoken
  refine hin ?_
  rw [hclosing]
  by_cases hnil : x₁ = []
  · rw [hnil] at htoken
    have hhead := (List.cons.inj htoken).1
    exact absurd hhead (by decide)
  · have hbar := List.singleton_suffix_iff_getLast?_eq_some.mp hplace.1
    rw [List.getLast?_append_of_ne_nil p hnil] at hbar
    obtain ⟨y, hy⟩ := List.getLast?_eq_some_iff.mp hbar
    refine ⟨y, x₂, ?_⟩
    rw [hsplit, hy, hc, List.append_assoc, List.append_assoc]
    rfl

theorem tokens_apart : ∀ parts ∈ passes, ∀ token ∈ tokens, Apart parts token := by
  intro parts hparts token htoken
  have hbar : '>' ∈ token → token = ['|', '>'] := by
    revert token
    decide
  have hshare : ∀ v ∈ escapedTokens, (∀ y ∈ v.inits, y <:+ token → y = [] ∨ y = token) ∧
      (v <:+: token → v = token) := by
    revert token
    decide
  simp only [passes, List.mem_cons, List.not_mem_nil, or_false] at hparts
  obtain rfl | rfl | rfl | rfl := hparts
  · exact apart_before _ token (by decide) (hshare _ (by decide)).1 (hshare _ (by decide)).2
  · exact apart_closing token hbar
  · exact apart_before _ token (by decide) (hshare _ (by decide)).1 (hshare _ (by decide)).2
  · exact apart_before _ token (by decide) (hshare _ (by decide)).1 (hshare _ (by decide)).2

theorem passes_solid : ∀ parts ∈ passes, Solid parts := by
  intro parts hparts
  constructor
  · revert parts
    decide
  · revert parts
    decide

theorem tokens_plain : ∀ token ∈ tokens, token ≠ [] ∧ '\\' ∉ token ∧ '\x00' ∉ token := by
  decide

variable (free : Option Char → Prop) (hfree : Before free)

include hfree

theorem passes_broken (ps : List (List Char × List Char)) (hps : ∀ parts ∈ ps, parts ∈ passes)
    (token : List Char) (htoken : token ∈ tokens) (s : List Char) :
    Broken free token (ps.foldl (fun s parts => pass parts s) s) ↔ Broken free token s := by
  have hplain := tokens_plain token htoken
  induction ps generalizing s with
  | nil => exact Iff.rfl
  | cons parts ps ih =>
    have hparts := hps parts List.mem_cons_self
    refine (ih (fun ab hab => hps ab (List.mem_cons_of_mem parts hab)) (pass parts s)).trans ?_
    exact pass_broken free hfree parts (passes_solid parts hparts) token s hplain.2.1 hplain.1
      (tokens_apart parts hparts token htoken)

theorem passes_loose (ps : List (List Char × List Char)) (hps : ∀ parts ∈ ps, parts ∈ passes)
    (token : List Char) (htoken : token ∈ tokens) (s : List Char)
    (h : Loose free token (ps.foldl (fun s parts => pass parts s) s)) : Loose free token s := by
  have hplain := tokens_plain token htoken
  induction ps generalizing s with
  | nil => exact h
  | cons parts ps ih =>
    have hback := ih (fun ab hab => hps ab (List.mem_cons_of_mem parts hab)) (pass parts s) h
    exact pass_loose free hfree parts (passes_solid parts (hps parts List.mem_cons_self)) token s
      hplain.2.1 hplain.1 hback

theorem escaped_loose (before after : List (List Char × List Char))
    (parts : List Char × List Char) (hsplit : passes = before++parts::after) (token : List Char)
    (htoken : token ∈ tokens) (content : List Char)
    (h : Loose free token (escapeTokens content)) : ∃ s, Loose free token (pass parts s) := by
  rw [escapeTokens_passes, hsplit, List.foldl_append, List.foldl_cons] at h
  refine ⟨_, passes_loose free hfree after (fun ab hab => ?_) token htoken _ h⟩
  rw [hsplit]
  exact List.mem_append_right before (List.mem_cons_of_mem parts hab)

theorem escaped_broken (token : List Char) (htoken : token ∈ tokens) (content : List Char) :
    Broken free token (escapeTokens content) ↔ Broken free token content :=
  passes_broken free hfree passes (fun _ h => h) token htoken content

end tokens

def unescaped (c : Option Char) : Prop := c ≠ some '\\'

theorem unescaped_before : Before unescaped := ⟨fun _ h => h⟩

def anywhere (_ : Option Char) : Prop := True

theorem anywhere_before : Before anywhere := ⟨fun _ _ => trivial⟩

theorem no_border (w : List Char) (h : ∀ k < w.length, w.take k = w.drop (w.length-k) → k = 0)
    (y : List Char) (hy : y ≠ []) : ¬ Border w y := by
  intro hborder
  obtain ⟨k, hk, hlen, hsame⟩ := border_take w y hborder
  have hzero := h k hk hsame
  rw [hzero] at hlen
  exact hy (List.eq_nil_of_length_eq_zero hlen)

theorem escapedTokens_borders : ∀ token ∈ escapedTokens, ([], token) ∈ passes ∧
    ∀ k < token.length, token.take k = token.drop (token.length-k) → k = 0 := by
  decide

theorem pass_escaped (token s : List Char) (htoken : token ∈ escapedTokens) :
    ¬ Loose unescaped token (pass ([], token) s) := by
  rintro ⟨p, q, hs, hp⟩
  have hplain := tokens_plain token (List.mem_cons_of_mem closingToken htoken)
  have hborder := no_border token (escapedTokens_borders token htoken).2
  have hlast := replace_escaped '\\' token hplain.1 hplain.2.1 hborder s p q hs
  obtain ⟨r, hr⟩ := List.getLast?_eq_some_iff.mp hlast
  refine hp ?_
  rw [hr, removeNul_append, List.getLast?_append]
  rfl

theorem pass_closed (s : List Char) : ¬ Loose anywhere closingToken (pass (['|'], ['>']) s) := by
  rintro ⟨p, q, hs, _⟩
  have hborder : ∀ y, y ≠ [] → ¬ Border closingToken y := no_border closingToken (by decide)
  have hshort : ∀ y, Border closingToken y → y.length ≤ 1 := by
    intro y hy
    by_cases hnil : y = []
    · rw [hnil]
      exact Nat.zero_le 1
    · exact absurd hy (hborder y hnil)
  have hmarking : Marking closingToken ['|'] ['>'] '\\' :=
    ⟨rfl, by decide, hshort, hshort, by decide, by decide⟩
  obtain ⟨x, y, z, hx, hy, hxy, hyz, _⟩ :=
    (replaced_survives_iff hmarking s).mp ⟨p, q, hs.symm⟩
  exact hborder y hy ⟨x, z, hx, hxy, hyz⟩

theorem bare_escaped (token content : List Char) (htoken : token ∈ escapedTokens) :
    Bare unescaped token (removeNul (escapeTokens content)) ↔ Broken unescaped token content := by
  have hin : token ∈ tokens := List.mem_cons_of_mem closingToken htoken
  have hnot : ¬ Loose unescaped token (escapeTokens content) := by
    intro h
    obtain ⟨before, after, hsplit⟩ := List.append_of_mem (escapedTokens_borders token htoken).1
    obtain ⟨s, hs⟩ := escaped_loose unescaped unescaped_before before after _ hsplit token hin
      content h
    exact pass_escaped token s htoken hs
  rw [bare_iff unescaped token _ (tokens_plain token hin).2.2, or_iff_right hnot]
  exact escaped_broken unescaped unescaped_before token hin content

theorem bare_closing (content : List Char) :
    Bare anywhere closingToken (removeNul (escapeTokens content)) ↔
      Broken anywhere closingToken content := by
  have hin : closingToken ∈ tokens := List.mem_cons_self
  have hnot : ¬ Loose anywhere closingToken (escapeTokens content) := by
    intro h
    obtain ⟨s, hs⟩ := escaped_loose anywhere anywhere_before [([], ['<', '|'])] _ _ rfl
      closingToken hin content h
    exact pass_closed s hs
  rw [bare_iff anywhere closingToken _ (tokens_plain closingToken hin).2.2, or_iff_right hnot]
  exact escaped_broken anywhere anywhere_before closingToken hin content


section lines

variable (free : Option Char → Prop) (hfree : Before free) (w : List Char) (hw : w ≠ [])

include hw in
theorem bare_nil : ¬ Bare free w [] := by
  rintro ⟨p, q, hs, _⟩
  have hnil := List.append_eq_nil_iff.mp hs.symm
  exact hw (List.append_eq_nil_iff.mp hnil.1).2

include hfree hw

/-- A word without the separator stands on one side of it. -/
theorem bare_beside (sep : Char) (hsep : sep ∉ w) (hslash : sep ≠ '\\') (s t : List Char) :
    Bare free w (s++sep::t) ↔ Bare free w s ∨ Bare free w t := by
  have hother : ∀ c, c ≠ '\\' → free (some c) := fun c hc =>
    hfree.others _ (fun heq => hc (Option.some.inj heq))
  constructor
  · rintro ⟨p, q, hs, hp⟩
    rw [List.append_assoc] at hs
    obtain ⟨u, hps, hu⟩ | ⟨u, hs', hu⟩ := List.append_eq_append_iff.mp hs
    · cases u with
      | nil =>
        cases w with
        | nil => exact absurd rfl hw
        | cons c w =>
          have hc := (List.cons.inj hu).1
          exact absurd (by rw [hc]; exact List.mem_cons_self) hsep
      | cons c u =>
        refine Or.inr ⟨u, q, ?_, ?_⟩
        · rw [(List.cons.inj hu).2, List.append_assoc]
          rfl
        · rw [hps, List.getLast?_append, List.getLast?_cons] at hp
          cases hlast : u.getLast? with
          | none => exact hfree.others none (Option.some_ne_none _).symm
          | some d =>
            rw [hlast] at hp
            exact hp
    · have hin : w <+: u := by
        refine prefix_before w u t sep ?_ hsep
        exact ⟨q, hu⟩
      obtain ⟨r, hr⟩ := hin
      refine Or.inl ⟨p, r, ?_, hp⟩
      rw [hs', ← hr, List.append_assoc]
  · rintro (⟨p, q, hs, hp⟩ | ⟨p, q, ht, hp⟩)
    · exact ⟨p, q++sep::t, by rw [hs, List.append_assoc], hp⟩
    · refine ⟨s++sep::p, q, ?_, ?_⟩
      · rw [ht, List.append_assoc, List.append_assoc, List.append_assoc, List.cons_append]
      · rw [List.getLast?_append, List.getLast?_cons]
        cases hlast : p.getLast? with
        | none => exact hother sep hslash
        | some d =>
          rw [hlast] at hp
          exact hp

variable (hfeed : '\n' ∉ w) (hreturn : '\r' ∉ w) (hspace : ' ' ∉ w)

include hfeed in
theorem bare_intercalate (ls : List (List Char)) :
    Bare free w (['\n'].intercalate ls) ↔ ∃ l ∈ ls, Bare free w l := by
  induction ls with
  | nil => simpa using bare_nil free w hw
  | cons l ls ih =>
    cases ls with
    | nil => simp
    | cons l' ls =>
      rw [List.intercalate_cons_cons, List.append_assoc, List.singleton_append,
        bare_beside free hfree w hw '\n' hfeed (by decide), ih]
      simp

include hfeed hreturn in
theorem bare_lines (line cs : List Char) :
    (∃ l ∈ linesFrom line cs, Bare free w l) ↔ Bare free w (line.reverse++cs) := by
  induction cs generalizing line with
  | nil =>
    rw [linesFrom, List.append_nil]
    split
    · next hnil =>
      rw [hnil]
      simpa using bare_nil free w hw
    · simp
  | cons c cs ih =>
    rw [linesFrom]
    by_cases hc : c = '\n'
    · rw [if_pos hc, hc, List.exists_mem_cons_iff, ih [],
        bare_beside free hfree w hw '\n' hfeed (by decide)]
      refine or_congr_left ?_
      split
      · next hhead =>
        obtain ⟨rest, hrest⟩ := List.head?_eq_some_iff.mp hhead
        rw [hrest, List.tail_cons, List.reverse_cons,
          bare_beside free hfree w hw '\r' hreturn (by decide),
          or_iff_left (bare_nil free w hw)]
      · exact Iff.rfl
    · rw [if_neg hc, ih (c::line), List.reverse_cons, List.append_assoc, List.singleton_append]

include hspace in
theorem bare_escapeLine (toLowercase : List Char → List Char)
    (hmark : ¬ w <:+: "[ESCAPED]".toList) (line : List Char) :
    Bare free w (escapeLine toLowercase line) ↔ Bare free w line := by
  rw [escapeLine]
  split
  · have hsplit : escapedMark++line = "[ESCAPED]".toList++ ' '::line := rfl
    have hnot : ¬ Bare free w "[ESCAPED]".toList := by
      rintro ⟨p, q, hs, _⟩
      exact hmark ⟨p, q, hs.symm⟩
    rw [hsplit, bare_beside free hfree w hw ' ' hspace (by decide), or_iff_right hnot]
  · exact Iff.rfl

include hfeed hreturn hspace in
theorem bare_escapeLines (toLowercase : List Char → List Char)
    (hmark : ¬ w <:+: "[ESCAPED]".toList) (content : List Char) :
    Bare free w (escapeLines toLowercase content) ↔ Bare free w content := by
  have hlines := bare_lines free hfree w hw hfeed hreturn [] content
  rw [escapeLines, bare_intercalate free hfree w hw hfeed]
  refine Iff.trans ?_ hlines
  have hline := bare_escapeLine free hfree w hw hspace toLowercase hmark
  constructor
  · rintro ⟨l', hl', hbare⟩
    obtain ⟨l, hl, rfl⟩ := List.mem_map.mp hl'
    exact ⟨l, hl, (hline l).mp hbare⟩
  · rintro ⟨l, hl, hbare⟩
    exact ⟨_, List.mem_map_of_mem hl, (hline l).mpr hbare⟩

end lines

theorem lines_feed (line cs : List Char) (hline : '\n' ∉ line) :
    ∀ l ∈ linesFrom line cs, '\n' ∉ l := by
  induction cs generalizing line with
  | nil =>
    intro l hl
    rw [linesFrom] at hl
    split at hl
    · cases hl
    · rw [List.mem_singleton] at hl
      rwa [hl, List.mem_reverse]
  | cons c cs ih =>
    intro l hl
    rw [linesFrom] at hl
    by_cases hc : c = '\n'
    · rw [if_pos hc, List.mem_cons] at hl
      obtain hl | hl := hl
      · rw [hl, List.mem_reverse]
        split
        · exact fun hin => hline (List.mem_of_mem_tail hin)
        · exact hline
      · exact ih [] List.not_mem_nil l hl
    · rw [if_neg hc] at hl
      refine ih (c::line) (fun hin => ?_) l hl
      obtain heq | hin := List.mem_cons.mp hin
      · exact hc heq.symm
      · exact hline hin

section escaped

variable (toLowercase : List Char → List Char) (content : List Char)

theorem tokens_line : ∀ token ∈ tokens, '\n' ∉ token ∧ '\r' ∉ token ∧ ' ' ∉ token ∧
    ¬ token <:+: "[ESCAPED]".toList := by
  decide

theorem bare_escapeContent (free : Option Char → Prop) (hfree : Before free) (token : List Char)
    (htoken : token ∈ tokens) : Bare free token (escapeContent toLowercase content) ↔
      Bare free token (removeNul (escapeTokens content)) := by
  have hline := tokens_line token htoken
  exact bare_escapeLines free hfree token (tokens_plain token htoken).1 hline.1 hline.2.1
    hline.2.2.1 toLowercase hline.2.2.2 _

theorem escapeContent_tokens (token : List Char) (htoken : token ∈ escapedTokens) :
    (∀ p q, escapeContent toLowercase content = p++token++q → p.getLast? = some '\\') ↔
      ∀ p, Assembled token content p → (removeNul p).getLast? = some '\\' := by
  have hbare := (bare_escapeContent toLowercase content unescaped unescaped_before token
    (List.mem_cons_of_mem closingToken htoken)).trans (bare_escaped token content htoken)
  constructor
  · intro h p hp
    by_contra hlast
    obtain ⟨p', q', hsplit, hfree⟩ := hbare.mpr ⟨p, hp, hlast⟩
    exact hfree (h p' q' hsplit)
  · intro h p q hsplit
    by_contra hlast
    obtain ⟨p', hp', hfree⟩ := hbare.mp ⟨p, q, hsplit, hlast⟩
    exact hfree (h p' hp')

theorem escapeContent_closing : ¬ closingToken <:+: escapeContent toLowercase content ↔
    ∀ p, ¬ Assembled closingToken content p := by
  have hbare := (bare_escapeContent toLowercase content anywhere anywhere_before closingToken
    List.mem_cons_self).trans (bare_closing content)
  constructor
  · intro h p hp
    obtain ⟨p', q', hsplit, _⟩ := hbare.mpr ⟨p, hp, trivial⟩
    exact h ⟨p', q', hsplit.symm⟩
  · rintro h ⟨p, q, hsplit⟩
    obtain ⟨p', hp', _⟩ := hbare.mp ⟨p, q, hsplit.symm, trivial⟩
    exact h p' hp'

theorem escapeContent_noNul : '\x00' ∉ escapeContent toLowercase content := by
  intro hin
  obtain ⟨p, q, hsplit⟩ := List.append_of_mem hin
  have hbare := (bare_escapeLines anywhere anywhere_before ['\x00'] (by decide) (by decide)
    (by decide) (by decide) toLowercase (by decide) (removeNul (escapeTokens content))).mp
    ⟨p, q, by rw [List.append_assoc]; exact hsplit, trivial⟩
  obtain ⟨p', q', hnul, _⟩ := hbare
  have hmem : '\x00' ∈ removeNul (escapeTokens content) := by
    rw [hnul]
    simp
  have hkept := (List.mem_filter.mp hmem).2
  simp at hkept

end escaped

section roles

variable (toLowercase : List Char → List Char) (hnil : toLowercase [] = [])
variable (hascii : ∀ c cs, c.val < 128 → (toLowercase (c::cs)).head? = some c.toLower)

include hascii in
theorem marked_role (line : List Char) : isRoleLine toLowercase (escapedMark++line) = false := by
  have hsplit : (escapedMark++line).dropWhile isWhitespace =
      '['::("ESCAPED] ".toList++line) := rfl
  have hhead := hascii '[' ("ESCAPED] ".toList++line) (by decide)
  rw [isRoleLine, hsplit]
  obtain ⟨rest, hrest⟩ := List.head?_eq_some_iff.mp hhead
  rw [hrest]
  rfl

include hascii in
theorem escapeLine_role (line : List Char) :
    isRoleLine toLowercase (escapeLine toLowercase line) = false := by
  rw [escapeLine]
  split
  · exact marked_role toLowercase hascii line
  · next h => exact Bool.eq_false_iff.mpr h

include hnil hascii in
theorem escapeLines_roles (content : List Char) :
    ∀ line ∈ (escapeLines toLowercase content).splitOn '\n',
      isRoleLine toLowercase line = false := by
  intro line hline
  by_cases hlines : lines content = []
  · rw [escapeLines, hlines] at hline
    have hempty : line = [] := List.mem_singleton.mp hline
    rw [hempty, isRoleLine, List.dropWhile_nil, hnil]
    rfl
  · have hfeed : ∀ l ∈ (lines content).map (escapeLine toLowercase), '\n' ∉ l := by
      intro l hl
      obtain ⟨l', hl', rfl⟩ := List.mem_map.mp hl
      have hclean := lines_feed [] content List.not_mem_nil l' hl'
      rw [escapeLine]
      split
      · rw [List.mem_append, not_or]
        exact ⟨by decide, hclean⟩
      · exact hclean
    have hne : (lines content).map (escapeLine toLowercase) ≠ [] := by
      simpa using hlines
    rw [escapeLines, List.splitOn_intercalate '\n' hfeed hne] at hline
    obtain ⟨l, _, rfl⟩ := List.mem_map.mp hline
    exact escapeLine_role toLowercase hascii l

include hnil hascii in
/-- The escaped text is neutralised exactly when no token is put together by the
removal of NUL characters. -/
theorem escapeContent_neutralised_iff (content : List Char) :
    Neutralised toLowercase (escapeContent toLowercase content) ↔ Whole content := by
  have htokens := escapeContent_tokens toLowercase content
  have hclosing := escapeContent_closing toLowercase content
  constructor
  · intro h
    exact ⟨fun token htoken => (htokens token htoken).mp (h.escaped token htoken),
      hclosing.mp h.closed⟩
  · intro h
    exact {
      noNul := escapeContent_noNul toLowercase content
      escaped := fun token htoken => (htokens token htoken).mpr (h.tokens token htoken)
      closed := hclosing.mpr h.closing
      roles := escapeLines_roles toLowercase hnil hascii _ }

include hnil hascii in
/-- What the sanitizer makes of content in which it finds something critical. -/
theorem sanitize_neutralised_iff (compile : String → List Char → List Match)
    (content : List Char) (hcritical : hasCritical compile content = true) :
    Neutralised toLowercase (sanitize compile toLowercase content).content ↔ Whole content := by
  rw [sanitize, if_pos hcritical]
  exact escapeContent_neutralised_iff toLowercase hnil hascii content

end roles

theorem nul_critical (compile : String → List Char → List Match) (content : List Char)
    (h : compile "\\x00" content ≠ []) : hasCritical compile content = true := by
  obtain ⟨m, rest, hm⟩ := List.exists_cons_of_ne_nil h
  refine List.any_eq_true.mpr ⟨⟨"null_byte", .critical, (m.start, m.stop),
    "Null byte injection attempt"⟩, ?_, decide_eq_true rfl⟩
  rw [sanitizerWarnings, List.mem_insertionSort, List.mem_append]
  refine Or.inr (List.mem_flatMap.mpr
    ⟨⟨"\\x00", "null_byte", .critical, "Null byte injection attempt"⟩, ?_, ?_⟩)
  · rw [regexPatterns]
    exact List.mem_of_getElem? (i := 3) rfl
  · rw [hm]
    exact List.mem_cons_self

def nulSearch (regex : String) (content : List Char) : List Match :=
  if regex = "\\x00" then
    (content.filter (fun c => c = '\x00')).map (fun c => ⟨0, 1, [c]⟩)
  else []

def beside : List Char := ['\x00', '<', '|', '>']

/-- A NUL beside the tokens leaves them to their replacements. -/
theorem beside_neutralised :
    Neutralised (List.map Char.toLower)
      (sanitize nulSearch (List.map Char.toLower) beside).content ↔ Whole beside :=
  sanitize_neutralised_iff (List.map Char.toLower) rfl (fun _ _ _ => rfl) nulSearch beside
    (nul_critical nulSearch beside (by decide))

def hidden : List Char := ['<', '\x00', '|']

/-- The token that the NUL hides is left without a backslash. -/
theorem hidden_token : hasCritical nulSearch hidden = true ∧
    ¬ Neutralised (List.map Char.toLower)
      (sanitize nulSearch (List.map Char.toLower) hidden).content := by
  have hcritical : hasCritical nulSearch hidden = true :=
    nul_critical nulSearch hidden (by decide)
  refine ⟨hcritical, fun h => ?_⟩
  have hcontent : (sanitize nulSearch (List.map Char.toLower) hidden).content = ['<', '|'] := by
    rw [sanitize, if_pos hcritical]
    decide
  have hslash := h.escaped ['<', '|'] (by decide) [] [] hcontent
  cases hslash

end IronClaw.InjectionEscape
