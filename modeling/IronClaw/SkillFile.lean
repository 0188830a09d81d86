import IronClaw.SkillRegistry
import IronClaw.Lib.Lines

/-!
# Skill files with any line endings

`skills/parser.rs` looks for the closing delimiter line by line, and adds up the
bytes of the lines with one byte for each line break. A carriage return before
the break belongs to no line, so the front matter is cut one byte too early for
each of them. The registry normalizes the line endings of a file first.
-/

set_option autoImplicit false

namespace IronClaw.SkillFile
open IronClaw.SkillRegistry Lib.Text Lib.Search Lib.Lines

def isDelimiter (piece : List Char) : Bool := trimChars (lineOf piece) = ['-', '-', '-']

def findClosingFrom (pos : ℕ) : List (List Char) → Option ℕ
  | [] => none
  | p::ps => if isDelimiter p then some pos else findClosingFrom (pos+byteLen (lineOf p)+1) ps

def findClosingDelimiter (content : List Char) : Option ℕ := findClosingFrom 0 (pieces content)

def afterOpening (content : List Char) : Option (List Char) :=
  let cs := if content.head? = some '\ufeff' then content.tail else content
  let trimmed := cs.dropWhile (fun c => c = '\n' || c = '\r')
  if (['-', '-', '-'] : List Char).isPrefixOf trimmed then afterLine (trimmed.drop 3) else none

variable (fromYaml : String → Except String SkillManifest)

def finish (yaml afterYaml : List Char) : Except SkillParseError ParsedSkill :=
  match fromYaml (String.ofList yaml) with
  | .error reason => .error (.invalidYaml reason)
  | .ok manifest =>
    if !validateSkillName manifest.name then .error (.invalidName manifest.name)
    else
      let manifest := { manifest with activation := manifest.activation.enforceLimits }
      let prompt := ((afterLine afterYaml).getD []).dropWhile (fun c => c = '\n')
      if trimChars prompt = [] then .error .emptyPrompt
      else .ok ⟨manifest, String.ofList prompt⟩

def parseSkillMd (content : String) : Option (Except SkillParseError ParsedSkill) :=
  match afterOpening content.toList with
  | none => some (.error .missingFrontmatter)
  | some text =>
    match findClosingDelimiter text with
    | none => some (.error .missingFrontmatter)
    | some yamlEnd =>
      if isBoundary text yamlEnd then
        some (finish fromYaml (sliceTo text yamlEnd) (text.drop (sliceTo text yamlEnd).length))
      else none

structure Parts where
  front : List Char
  closing : List Char
  body : List Char
  deriving DecidableEq

def partsOf : List (List Char) → Option Parts
  | [] => none
  | p::ps =>
    if isDelimiter p then some ⟨[], p, ps.flatten⟩
    else (partsOf ps).map (fun s => ⟨p++s.front, s.closing, s.body⟩)

def parts (content : List Char) : Option Parts :=
  (afterOpening content).bind (fun text => partsOf (pieces text))

inductive LineText : List Char → Prop
  | last (x : List Char) : '\n' ∉ x → '\r' ∉ x → LineText x
  | line (x ending rest : List Char) : '\n' ∉ x → '\r' ∉ x →
      (ending = ['\n'] ∨ ending = ['\r', '\n']) → LineText rest → LineText (x++(ending++rest))

def lf (cs : List Char) : List Char := cs.filter (fun c => c ≠ '\r')

def accepted : Except SkillParseError ParsedSkill → Option (SkillManifest × String)
  | .error _ => none
  | .ok skill => some (skill.manifest, normalizeLineEndings skill.promptContent)

def Independent (content : String) : Prop :=
  ∃ outcome, parseSkillMd fromYaml content = some outcome ∧
    (∃ other, parseSkillMd fromYaml (normalizeLineEndings content) = some other ∧
      accepted outcome = accepted other) ∧
    ∀ skill, outcome = .ok skill → ∀ s, parts content.toList = some s →
      skill.promptContent.toList <:+ s.body

def rejects (yaml : List Char) : Bool :=
  match fromYaml (String.ofList yaml) with
  | .error _ => true
  | .ok manifest => !validateSkillName manifest.name

def cutAt (front : List Char) : ℕ := byteLen front-front.count '\r'

def Unaffected (content : List Char) : Prop :=
  ∀ s, parts content = some s →
    ('\r' ∉ s.front ∧ (s.body.dropWhile (fun c => c = '\n')).head? ≠ some '\r') ∨
    (rejects fromYaml (lf s.front) = true ∨ trimChars s.body = []) ∧
      ('\r' ∉ s.front ∨ isBoundary s.front (cutAt s.front) = true ∧
        rejects fromYaml (sliceTo s.front (cutAt s.front)) = true)

theorem lf_append (p q : List Char) : lf (p++q) = lf p++lf q := List.filter_append ..

theorem lf_cons (c : Char) (cs : List Char) (h : c ≠ '\r') : lf (c::cs) = c::lf cs :=
  List.filter_cons_of_pos (decide_eq_true h)

variable (cs : List Char) (content : String) (text : List Char)

theorem lf_plain (h : '\r' ∉ cs) : lf cs = cs :=
  List.filter_eq_self.mpr (fun _ hc => decide_eq_true (fun heq => h (heq ▸ hc)))

theorem lf_free : '\r' ∉ lf cs := by
  intro h
  have := (List.mem_filter.mp h).2
  revert this
  decide

theorem lf_ending (ending : List Char) (h : ending = ['\n'] ∨ ending = ['\r', '\n']) :
    lf ending = ['\n'] := by
  rcases h with rfl | rfl <;> decide

theorem lineText_free (h : '\r' ∉ cs) : LineText cs := by
  induction hn : cs.length using Nat.strong_induction_on generalizing cs with
  | _ n ih =>
    by_cases hbreak : '\n' ∈ cs
    · obtain ⟨x, rest, rfl, hx⟩ := List.eq_append_cons_of_mem hbreak
      have hfree := fun hin => h (List.mem_append_left _ hin)
      have hrest := fun hin => h (List.mem_append_right x (List.mem_cons_of_mem _ hin))
      refine .line x ['\n'] rest hx hfree (Or.inl rfl) (ih rest.length ?_ rest hrest rfl)
      rw [← hn, List.length_append, List.length_cons]
      omega
    · exact .last cs hbreak h

theorem lineText_tail (c : Char) (cs : List Char) (h : LineText (c::cs)) : LineText cs := by
  generalize ht : c::cs = t at h
  cases h with
  | last x hbreak hfree =>
    subst ht
    exact .last cs (fun hin => hbreak (List.mem_cons_of_mem c hin))
      (fun hin => hfree (List.mem_cons_of_mem c hin))
  | line x ending rest hbreak hfree hending hrest =>
    cases x with
    | nil =>
      rcases hending with rfl | rfl
      · cases ht
        exact hrest
      · cases ht
        exact .line [] ['\n'] rest (by decide) (by decide) (Or.inl rfl) hrest
    | cons d x =>
      cases ht
      exact .line x ending rest (fun hin => hbreak (List.mem_cons_of_mem _ hin))
        (fun hin => hfree (List.mem_cons_of_mem _ hin)) hending hrest

theorem lineText_suffix (cs q : List Char) (h : LineText cs) (hq : q <:+ cs) : LineText q := by
  obtain ⟨p, rfl⟩ := hq
  induction p with
  | nil => exact h
  | cons c p ih => exact ih (lineText_tail c (p++q) h)

theorem lineText_carriage (h : LineText ('\r'::cs)) : ∃ rest, cs = '\n'::rest := by
  generalize ht : '\r'::cs = t at h
  cases h with
  | last x hbreak hfree =>
    subst ht
    exact absurd List.mem_cons_self hfree
  | line x ending rest hbreak hfree hending hrest =>
    cases x with
    | nil =>
      rcases hending with rfl | rfl
      · cases ht
      · cases ht
        exact ⟨rest, rfl⟩
    | cons d x =>
      cases ht
      exact absurd List.mem_cons_self hfree

/-- Normalizing only takes away carriage returns. -/
theorem normalize_lf (h : LineText content.toList) :
    (normalizeLineEndings content).toList = lf content.toList := by
  have hcrlf : ∀ cs, LineText cs → replace ['\r', '\n'] ['\n'] cs = lf cs := by
    intro cs hcs
    induction hcs with
    | last x hbreak hfree =>
      rw [lf_plain x hfree]
      exact replace_absent '\r' ['\n'] ['\n'] x hfree
    | line x ending rest hbreak hfree hending hrest ih =>
      rw [lf_append, lf_append, lf_plain x hfree, lf_ending ending hending, ← ih,
        replace_over '\r' ['\n'] ['\n'] x _ hfree]
      congr 1
      rcases hending with rfl | rfl
      · exact replace_over '\r' ['\n'] ['\n'] ['\n'] rest (by decide)
      · rfl
  rw [normalizeLineEndings, String.toList_ofList, hcrlf _ h]
  exact replace_absent '\r' [] ['\n'] _ (lf_free _)

theorem dropWhile_lf (p : Char → Bool) (hp : p '\r' = true) (cs : List Char) :
    (lf cs).dropWhile p = lf (cs.dropWhile p) := by
  induction cs with
  | nil => rfl
  | cons c cs ih =>
    by_cases hc : c = '\r'
    · rw [hc, List.dropWhile_cons_of_pos hp, ← ih]
      rfl
    · rw [lf_cons c cs hc, List.dropWhile_cons, List.dropWhile_cons]
      split
      · exact ih
      · exact (lf_cons c cs hc).symm

theorem head_lf (x : Char) (hx : x ≠ '\n') (hx' : x ≠ '\r') (cs : List Char) (h : LineText cs) :
    (lf cs).head? = some x ↔ cs.head? = some x := by
  cases cs with
  | nil => exact Iff.rfl
  | cons c cs =>
    by_cases hc : c = '\r'
    · obtain ⟨rest, rfl⟩ := lineText_carriage cs (hc ▸ h)
      subst hc
      simp [lf, hx.symm, hx'.symm]
    · rw [lf_cons c cs hc, List.head?_cons, List.head?_cons]

theorem prefix_lf (p cs : List Char) (hp : '\n' ∉ p) (hp' : '\r' ∉ p) (h : LineText cs) :
    p.isPrefixOf (lf cs) = p.isPrefixOf cs := by
  induction p generalizing cs with
  | nil => rfl
  | cons x p ih =>
    cases cs with
    | nil => rfl
    | cons c cs =>
      have hx : x ≠ '\n' := fun heq => hp (heq ▸ List.mem_cons_self)
      have hx' : x ≠ '\r' := fun heq => hp' (heq ▸ List.mem_cons_self)
      by_cases hc : c = '\r'
      · obtain ⟨rest, rfl⟩ := lineText_carriage cs (hc ▸ h)
        subst hc
        have hbreak : (x == '\n') = false := beq_eq_false_iff_ne.mpr hx
        have hcarriage : (x == '\r') = false := beq_eq_false_iff_ne.mpr hx'
        change (x == '\n' && _) = (x == '\r' && _)
        rw [hbreak, hcarriage, Bool.false_and, Bool.false_and]
      · have hrest := ih cs (fun hin => hp (List.mem_cons_of_mem x hin))
          (fun hin => hp' (List.mem_cons_of_mem x hin)) (lineText_tail c cs h)
        rw [lf_cons c cs hc, List.isPrefixOf_cons_cons, List.isPrefixOf_cons_cons, hrest]

theorem afterLine_lf : afterLine (lf cs) = (afterLine cs).map lf := by
  unfold afterLine
  rw [dropWhile_lf _ (by decide)]
  cases h : cs.dropWhile (fun c => c ≠ '\n') with
  | nil => rfl
  | cons c rest =>
    have hc : c = '\n' := by
      have := List.head?_dropWhile_not (fun c => decide (c ≠ '\n')) cs
      rw [h] at this
      simpa using this
    rw [hc]
    rfl

/-- The opening line is found whatever the line endings are. -/
theorem afterOpening_lf (content : List Char) (h : LineText content) :
    afterOpening (lf content) = (afterOpening content).map lf := by
  have hopening : ∀ cs, LineText cs →
      (if (['-', '-', '-'] : List Char).isPrefixOf (lf cs) then afterLine ((lf cs).drop 3)
        else none) =
        (if (['-', '-', '-'] : List Char).isPrefixOf cs then afterLine (cs.drop 3)
          else none).map lf := by
    intro cs hcs
    rw [prefix_lf _ cs (by decide) (by decide) hcs]
    split
    · next hpre =>
      obtain ⟨rest, rfl⟩ := List.isPrefixOf_iff_prefix.mp hpre
      rw [lf_append, lf_plain ['-', '-', '-'] (by decide)]
      exact afterLine_lf rest
    · rfl
  have hstart : (if (lf content).head? = some '\ufeff' then (lf content).tail else lf content) =
      lf (if content.head? = some '\ufeff' then content.tail else content) := by
    by_cases hbom : content.head? = some '\ufeff'
    · rw [if_pos hbom, if_pos ((head_lf '\ufeff' (by decide) (by decide) content h).mpr hbom)]
      obtain ⟨t, rfl⟩ := List.head?_eq_some_iff.mp hbom
      rw [lf_cons _ t (by decide), List.tail_cons, List.tail_cons]
    · rw [if_neg hbom,
        if_neg (fun hl => hbom ((head_lf '\ufeff' (by decide) (by decide) content h).mp hl))]
  have hlines : LineText (if content.head? = some '\ufeff' then content.tail else content) := by
    split
    · next hbom =>
      obtain ⟨t, rfl⟩ := List.head?_eq_some_iff.mp hbom
      exact lineText_tail _ t h
    · exact h
  simp only [afterOpening]
  rw [hstart, dropWhile_lf _ (by decide)]
  exact hopening _ (lineText_suffix _ _ hlines (List.dropWhile_suffix _))

theorem afterLine_suffix (cs rest : List Char) (h : afterLine cs = some rest) : rest <:+ cs := by
  unfold afterLine at h
  split at h
  · cases h
  · next c more heq =>
    cases h
    exact (List.suffix_cons c rest).trans (heq ▸ List.dropWhile_suffix _)

theorem afterOpening_suffix (content text : List Char) (h : afterOpening content = some text) :
    text <:+ content := by
  have hstart : (if content.head? = some '\ufeff' then content.tail else content) <:+ content := by
    split
    · exact List.tail_suffix content
    · exact List.suffix_refl content
  have hopening : ∀ cs, (if (['-', '-', '-'] : List Char).isPrefixOf cs then afterLine (cs.drop 3)
      else none) = some text → text <:+ cs := by
    intro cs hcs
    split at hcs
    · exact (afterLine_suffix _ text hcs).trans (List.drop_suffix 3 cs)
    · cases hcs
  exact (hopening _ h).trans ((List.dropWhile_suffix _).trans hstart)

/-- The closing line is the same one with and without carriage returns. -/
theorem partsOf_lf (h : LineText text) : partsOf (pieces (lf text)) =
    (partsOf (pieces text)).map (fun s => ⟨lf s.front, lf s.closing, lf s.body⟩) := by
  induction h with
  | last x hbreak hfree =>
    rw [lf_plain x hfree]
    cases x with
    | nil => rfl
    | cons c x =>
      rw [pieces_last _ hbreak (List.cons_ne_nil c x)]
      simp only [partsOf]
      split
      · rw [Option.map_some, lf_plain (c::x) hfree]
        rfl
      · rfl
  | line x ending rest hbreak hfree hending hrest ih =>
    have hplain : lf (x++(ending++rest)) = x++(['\n']++lf rest) := by
      rw [lf_append, lf_append, lf_plain x hfree, lf_ending ending hending]
    have hpiece : lf (x++ending) = x++['\n'] := by
      rw [lf_append, lf_plain x hfree, lf_ending ending hending]
    have hsame : isDelimiter (x++['\n']) = isDelimiter (x++ending) := by
      rw [isDelimiter, isDelimiter, lineOf_ending x _ hfree (Or.inl rfl),
        lineOf_ending x _ hfree hending]
    rw [hplain, pieces_ending x _ _ hbreak (Or.inl rfl), pieces_ending x _ _ hbreak hending,
      partsOf, partsOf, hsame, ih]
    split
    · rw [pieces_flatten, pieces_flatten, Option.map_some, hpiece]
      rfl
    · rw [Option.map_map, Option.map_map]
      congr 1
      funext s
      simp only [Function.comp_apply, lf_append, hpiece]

theorem partsOf_split (ps : List (List Char)) (s : Parts) (h : partsOf ps = some s) :
    s.front++(s.closing++s.body) = ps.flatten := by
  induction ps generalizing s with
  | nil => cases h
  | cons p ps ih =>
    rw [partsOf] at h
    split at h
    · cases h
      rfl
    · obtain ⟨s', hs', rfl⟩ := Option.map_eq_some_iff.mp h
      rw [List.flatten_cons, ← ih s' hs', List.append_assoc]

theorem cutAt_append (p q : List Char) : cutAt (p++q) = cutAt p+cutAt q := by
  have hp := count_le_byteLen '\r' p
  have hq := count_le_byteLen '\r' q
  simp only [cutAt, byteLen_append, List.count_append]
  omega

theorem cutAt_line (x ending : List Char) (hx : '\r' ∉ x)
    (h : ending = ['\n'] ∨ ending = ['\r', '\n']) : cutAt (x++ending) = byteLen x+1 := by
  have hending : cutAt ending = 1 := by
    rcases h with rfl | rfl <;> decide
  rw [cutAt_append, hending, cutAt, List.count_eq_zero_of_not_mem hx, Nat.sub_zero]

/-- The offset loses one byte for each carriage return. -/
theorem findClosing_cut (h : LineText text) (pos : ℕ) :
    findClosingFrom pos (pieces text) =
      (partsOf (pieces text)).map (fun s => pos+cutAt s.front) := by
  induction h generalizing pos with
  | last x hbreak hfree =>
    cases x with
    | nil => rfl
    | cons c x =>
      rw [pieces_last _ hbreak (List.cons_ne_nil c x)]
      simp only [findClosingFrom, partsOf]
      split <;> rfl
  | line x ending rest hbreak hfree hending hrest ih =>
    rw [pieces_ending x _ _ hbreak hending, findClosingFrom, partsOf]
    split
    · rfl
    · rw [ih, Option.map_map, lineOf_ending x _ hfree hending]
      congr 1
      funext s
      simp only [Function.comp_apply, cutAt_append, cutAt_line x ending hfree hending]
      omega

structure Found (s : Parts) : Prop where
  ends : s.front = [] ∨ ∃ u, s.front = u++['\n']
  rest : (afterLine (s.closing++s.body)).getD [] = s.body
  dash : '-' ∈ s.closing

theorem delimiter_dash (p : List Char) (h : isDelimiter p = true) : '-' ∈ lineOf p := by
  have htrim : trimChars (lineOf p) = ['-', '-', '-'] := of_decide_eq_true h
  have hin : '-' ∈ trimChars (lineOf p) := by
    rw [htrim]
    decide
  have hdrop := (List.rdropWhile_prefix isWhitespace ((lineOf p).dropWhile isWhitespace)).subset hin
  exact (List.dropWhile_suffix isWhitespace).subset hdrop

theorem afterLine_break (x rest : List Char) (hx : '\n' ∉ x) :
    afterLine (x++ '\n'::rest) = some rest := by
  have hplain : ∀ c ∈ x, decide (c ≠ '\n') = true :=
    fun c hc => decide_eq_true (fun heq => hx (heq ▸ hc))
  rw [afterLine, List.dropWhile_append_of_pos hplain]
  rfl

theorem afterLine_none (x : List Char) (hx : '\n' ∉ x) : afterLine x = none := by
  have hplain : ∀ c ∈ x, decide (c ≠ '\n') = true :=
    fun c hc => decide_eq_true (fun heq => hx (heq ▸ hc))
  rw [afterLine, List.dropWhile_eq_nil_iff.mpr hplain]

theorem parts_found (h : LineText text) (s : Parts) (hs : partsOf (pieces text) = some s) :
    Found s := by
  induction h generalizing s with
  | last x hbreak hfree =>
    cases x with
    | nil => cases hs
    | cons c x =>
      rw [pieces_last _ hbreak (List.cons_ne_nil c x), partsOf] at hs
      split at hs
      · next hdelimiter =>
        cases hs
        have hdash := delimiter_dash _ hdelimiter
        rw [lineOf_last _ hbreak] at hdash
        refine ⟨Or.inl rfl, ?_, hdash⟩
        rw [List.flatten_nil, List.append_nil, afterLine_none _ hbreak]
        rfl
      · cases hs
  | line x ending rest hbreak hfree hending hrest ih =>
    rw [pieces_ending x _ _ hbreak hending, partsOf, pieces_flatten] at hs
    split at hs
    · next hdelimiter =>
      cases hs
      have hdash := delimiter_dash _ hdelimiter
      rw [lineOf_ending x _ hfree hending] at hdash
      refine ⟨Or.inl rfl, ?_, List.mem_append_left _ hdash⟩
      rcases hending with rfl | rfl
      · simp only [List.append_assoc, List.singleton_append]
        rw [afterLine_break x rest hbreak]
        rfl
      · have hcarriage : '\n' ∉ x++['\r'] := by
          simp [hbreak]
        have hline := afterLine_break (x++['\r']) rest hcarriage
        rw [List.append_assoc] at hline
        simp only [List.append_assoc, List.cons_append, List.nil_append] at hline ⊢
        rw [hline]
        rfl
    · obtain ⟨s', hs', rfl⟩ := Option.map_eq_some_iff.mp hs
      have hfound := ih s' hs'
      refine ⟨Or.inr ?_, hfound.rest, hfound.dash⟩
      rcases hfound.ends with hnil | ⟨u, hu⟩
      · rw [hnil, List.append_nil]
        rcases hending with rfl | rfl
        · exact ⟨x, rfl⟩
        · exact ⟨x++['\r'], by simp⟩
      · exact ⟨x++ending++u, by simp only [hu, List.append_assoc]⟩

theorem cutAt_le (front : List Char) : cutAt front ≤ byteLen front := Nat.sub_le _ _

theorem blank_dropWhile :
    trimChars (cs.dropWhile (fun c => c = '\n')) = [] ↔ trimChars cs = [] := by
  rw [blank_iff, blank_iff]
  constructor
  · intro h c hc
    rw [← List.takeWhile_append_dropWhile (p := fun c => decide (c = '\n')) (l := cs)] at hc
    rcases List.mem_append.mp hc with hbreak | hrest
    · have hc := List.mem_takeWhile_imp hbreak
      rw [of_decide_eq_true hc]
      decide
    · exact h c hrest
  · exact fun h c hc => h c ((List.dropWhile_suffix _).subset hc)

theorem blank_lf : trimChars (lf cs) = [] ↔ trimChars cs = [] := by
  rw [blank_iff, blank_iff]
  constructor
  · intro h c hc
    by_cases heq : c = '\r'
    · rw [heq]
      decide
    · exact h c (List.mem_filter.mpr ⟨hc, decide_eq_true heq⟩)
  · exact fun h c hc => h c (List.mem_filter.mp hc).1

/-- The front matter alone decides whether the file is rejected, but for a blank
prompt, and what the manifest is. -/
theorem finish_cases (yaml : List Char) :
    (rejects fromYaml yaml = true ∧ ∀ after, accepted (finish fromYaml yaml after) = none) ∨
      (rejects fromYaml yaml = false ∧ ∃ manifest, ∀ after, finish fromYaml yaml after =
        if trimChars (((afterLine after).getD []).dropWhile (fun c => c = '\n')) = [] then
          .error .emptyPrompt
        else .ok ⟨manifest,
          String.ofList (((afterLine after).getD []).dropWhile (fun c => c = '\n'))⟩) := by
  unfold rejects finish
  cases fromYaml (String.ofList yaml) with
  | error reason => exact Or.inl ⟨rfl, fun _ => rfl⟩
  | ok manifest =>
    cases hname : validateSkillName manifest.name with
    | false => exact Or.inl ⟨by simp [hname], fun _ => by simp [hname, accepted]⟩
    | true => exact Or.inr ⟨by simp [hname], _, fun _ => by simp only [hname]; rfl⟩

/-- The cut falls into the front matter. -/
theorem parse_parts (h : LineText content.toList) (s : Parts) (hs : parts content.toList = some s) :
    parseSkillMd fromYaml content =
      if isBoundary s.front (cutAt s.front) then
        some (finish fromYaml (sliceTo s.front (cutAt s.front))
          (s.front.drop (sliceTo s.front (cutAt s.front)).length++(s.closing++s.body)))
      else none := by
  obtain ⟨text, htext, hparts⟩ := Option.bind_eq_some_iff.mp hs
  have hlines := lineText_suffix _ text h (afterOpening_suffix _ text htext)
  have hsplit := partsOf_split _ s hparts
  rw [pieces_flatten] at hsplit
  subst hsplit
  have hfind := findClosing_cut _ hlines 0
  rw [hparts, Option.map_some, Nat.zero_add] at hfind
  have hcut := cutAt_le s.front
  obtain ⟨more, hmore⟩ := sliceTo_split s.front (cutAt s.front)
  have hlen : (sliceTo s.front (cutAt s.front)).length ≤ s.front.length := by
    conv_rhs => rw [hmore, List.length_append]
    exact Nat.le_add_right _ _
  simp only [parseSkillMd, htext, findClosingDelimiter, hfind]
  rw [boundary_within _ _ _ hcut, sliceTo_within _ _ _ hcut, List.drop_append_of_le_length hlen]

theorem parse_missing (h : LineText content.toList) (hs : parts content.toList = none) :
    parseSkillMd fromYaml content = some (.error .missingFrontmatter) := by
  unfold parseSkillMd
  cases htext : afterOpening content.toList with
  | none => rfl
  | some text =>
    have hlines := lineText_suffix _ text h (afterOpening_suffix _ text htext)
    rw [parts, htext, Option.bind_some] at hs
    have hfind := findClosing_cut text hlines 0
    rw [hs, Option.map_none] at hfind
    simp only [findClosingDelimiter, hfind]

theorem parts_lf (content : List Char) (h : LineText content) : parts (lf content) =
    (parts content).map (fun s => ⟨lf s.front, lf s.closing, lf s.body⟩) := by
  rw [parts, parts, afterOpening_lf content h]
  cases htext : afterOpening content with
  | none => rfl
  | some text =>
    exact partsOf_lf text (lineText_suffix _ text h (afterOpening_suffix _ text htext))

theorem cutAt_plain (front : List Char) (h : '\r' ∉ front) : cutAt front = byteLen front := by
  rw [cutAt, List.count_eq_zero_of_not_mem h, Nat.sub_zero]

theorem parse_plain (h : LineText content.toList) (s : Parts) (hs : parts content.toList = some s)
    (hplain : '\r' ∉ s.front) :
    parseSkillMd fromYaml content = some (finish fromYaml s.front (s.closing++s.body)) := by
  have hboundary := boundary_append s.front []
  have hslice := sliceTo_append s.front []
  rw [List.append_nil] at hboundary hslice
  rw [parse_parts fromYaml content h s hs, cutAt_plain s.front hplain, if_pos hboundary, hslice,
    List.drop_length, List.nil_append]

/-- The outcome when the front matter and the body are the ones found. -/
theorem finish_found (yaml : List Char) (s : Parts) (hfound : Found s) :
    (rejects fromYaml yaml = true ∨ trimChars s.body = []) ∧
        accepted (finish fromYaml yaml (s.closing++s.body)) = none ∨
      ¬(rejects fromYaml yaml = true ∨ trimChars s.body = []) ∧
        ∃ manifest, ∀ s', Found s' → trimChars s'.body ≠ [] →
          finish fromYaml yaml (s'.closing++s'.body) =
            .ok ⟨manifest, String.ofList (s'.body.dropWhile (fun c => c = '\n'))⟩ := by
  rcases finish_cases fromYaml yaml with ⟨hreject, hnone⟩ | ⟨hkeep, manifest, hfinish⟩
  · exact Or.inl ⟨Or.inl hreject, hnone _⟩
  · by_cases hblank : trimChars s.body = []
    · refine Or.inl ⟨Or.inr hblank, ?_⟩
      rw [hfinish, hfound.rest, if_pos ((blank_dropWhile _).mpr hblank)]
      rfl
    · refine Or.inr ⟨by simp [hkeep, hblank], manifest, fun s' hs' hbody => ?_⟩
      rw [hfinish, hs'.rest, if_neg (fun h => hbody ((blank_dropWhile _).mp h))]

theorem count_dropWhile :
    (cs.dropWhile (fun c => c = '\n')).count '-' = cs.count '-' := by
  have hnone : (cs.takeWhile (fun c => c = '\n')).count '-' = 0 := by
    refine List.count_eq_zero_of_not_mem (fun hin => ?_)
    have hbreak := List.mem_takeWhile_imp hin
    revert hbreak
    decide
  conv_rhs => rw [← List.takeWhile_append_dropWhile (p := fun c => decide (c = '\n')) (l := cs),
    List.count_append, hnone, Nat.zero_add]

/-- A prompt that begins before the closing line shows it. -/
theorem prompt_shows (z : List Char) (s : Parts) (hdash : '-' ∈ s.closing) :
    trimChars ((z++(s.closing++s.body)).dropWhile (fun c => c = '\n')) ≠ [] ∧
      ¬(z++(s.closing++s.body)).dropWhile (fun c => c = '\n') <:+ s.body := by
  have hpos := List.count_pos_iff.mpr hdash
  have hcount := count_dropWhile (z++(s.closing++s.body))
  rw [List.count_append, List.count_append] at hcount
  constructor
  · intro hblank
    have hin : '-' ∈ (z++(s.closing++s.body)).dropWhile (fun c => c = '\n') :=
      List.count_pos_iff.mp (by omega)
    have hwhite := (blank_iff _).mp hblank '-' hin
    revert hwhite
    decide
  · intro hsuffix
    have hle := hsuffix.sublist.count_le '-'
    omega

/-- What is cut off the front matter ends with a line break. -/
theorem cut_breaks (s : Parts) (hfound : Found s) (hcarriage : '\r' ∈ s.front)
    (hboundary : isBoundary s.front (cutAt s.front) = true) :
    ∃ z, afterLine (s.front.drop (sliceTo s.front (cutAt s.front)).length++(s.closing++s.body)) =
      some (z++(s.closing++s.body)) := by
  obtain ⟨more, hmore⟩ := sliceTo_split s.front (cutAt s.front)
  have hlen := (boundary_iff _ _).mp hboundary
  have hpos := List.count_pos_iff.mpr hcarriage
  have hcount := count_le_byteLen '\r' s.front
  have hbytes := congrArg byteLen hmore
  rw [byteLen_append, hlen, cutAt] at hbytes
  have hne : more ≠ [] := by
    rintro rfl
    simp only [byteLen] at hbytes
    omega
  have hbreak : '\n' ∈ more := by
    rcases hfound.ends with hnil | ⟨u, hu⟩
    · rw [hnil] at hcarriage
      cases hcarriage
    · have hlast := congrArg List.getLast? (hmore.symm.trans hu)
      rw [List.getLast?_append_of_ne_nil _ hne, List.getLast?_concat] at hlast
      exact List.mem_of_getLast? hlast
  have hdrop : ∀ p q, s.front = p++q → s.front.drop p.length = q := by
    intro p q hpq
    rw [hpq, List.drop_left]
  obtain ⟨z₁, z₂, rfl, hz₁⟩ := List.eq_append_cons_of_mem hbreak
  refine ⟨z₂, ?_⟩
  rw [hdrop _ _ hmore, List.append_assoc, List.cons_append]
  exact afterLine_break z₁ _ hz₁

/-- Leading line feeds are dropped alike unless a carriage return hides one. -/
theorem prompt_lf (body : List Char) (h : LineText body) :
    (lf body).dropWhile (fun c => c = '\n') = lf (body.dropWhile (fun c => c = '\n')) ↔
      (body.dropWhile (fun c => c = '\n')).head? ≠ some '\r' := by
  have hskip : (lf body).dropWhile (fun c => c = '\n') =
      (lf (body.dropWhile (fun c => c = '\n'))).dropWhile (fun c => c = '\n') := by
    have hbreaks : ∀ c ∈ lf (body.takeWhile (fun c => c = '\n')), decide (c = '\n') = true := by
      intro c hc
      have hin := List.mem_takeWhile_imp (List.mem_filter.mp hc).1
      exact hin
    conv_lhs => rw [← List.takeWhile_append_dropWhile (p := fun c => decide (c = '\n')) (l := body),
      lf_append, List.dropWhile_append_of_pos hbreaks]
  rw [hskip]
  have hrest := lineText_suffix _ _ h (List.dropWhile_suffix (fun c => decide (c = '\n')))
  have hfirst := List.head?_dropWhile_not (fun c => decide (c = '\n')) body
  cases hb : body.dropWhile (fun c => c = '\n') with
  | nil => simp [lf]
  | cons c rest =>
    rw [hb] at hrest hfirst
    have hc : decide (c = '\n') = false := by simpa using hfirst
    by_cases hcarriage : c = '\r'
    · obtain ⟨more, rfl⟩ := lineText_carriage rest (hcarriage ▸ hrest)
      subst hcarriage
      have hshort := (List.dropWhile_sublist (fun c => decide (c = '\n')) (l := lf more)).length_le
      have hlf : lf ('\r':: '\n'::more) = '\n'::lf more := rfl
      rw [hlf, List.dropWhile_cons_of_pos (by decide)]
      refine iff_of_false (fun heq => ?_) (fun hne => hne rfl)
      rw [heq, List.length_cons] at hshort
      omega
    · rw [lf_cons c rest hcarriage, List.dropWhile_cons_of_neg (by simp [hc])]
      simp [hcarriage]

theorem parts_known (content : List Char) (h : LineText content) (s : Parts)
    (hs : parts content = some s) : Found s ∧ LineText s.body := by
  obtain ⟨text, htext, hparts⟩ := Option.bind_eq_some_iff.mp hs
  have hlines := lineText_suffix _ text h (afterOpening_suffix _ text htext)
  have hsplit := partsOf_split _ s hparts
  rw [pieces_flatten] at hsplit
  refine ⟨parts_found text hlines s hparts, lineText_suffix _ _ hlines ?_⟩
  rw [← hsplit]
  exact (List.suffix_append s.closing s.body).trans (List.suffix_append s.front _)

theorem normalize_prompt (h : LineText cs) :
    normalizeLineEndings (String.ofList cs) = String.ofList (lf cs) := by
  have hlf := normalize_lf (String.ofList cs) (by rwa [String.toList_ofList])
  rw [String.toList_ofList] at hlf
  rw [← hlf, String.ofList_toList]

/-- With a carriage return in the front matter, a file that is not rejected
shows its closing line. -/
theorem shifted_iff (s : Parts) (hfound : Found s) (hcarriage : '\r' ∈ s.front)
    (other : Except SkillParseError ParsedSkill) :
    (∃ outcome, (if isBoundary s.front (cutAt s.front) then
          some (finish fromYaml (sliceTo s.front (cutAt s.front))
            (s.front.drop (sliceTo s.front (cutAt s.front)).length++(s.closing++s.body)))
        else none) = some outcome ∧ accepted outcome = accepted other ∧
        ∀ skill, outcome = .ok skill → skill.promptContent.toList <:+ s.body) ↔
      accepted other = none ∧ isBoundary s.front (cutAt s.front) = true ∧
        rejects fromYaml (sliceTo s.front (cutAt s.front)) = true := by
  by_cases hboundary : isBoundary s.front (cutAt s.front) = true
  · rw [if_pos hboundary]
    obtain ⟨z, hz⟩ := cut_breaks s hfound hcarriage hboundary
    rcases finish_cases fromYaml (sliceTo s.front (cutAt s.front)) with
      ⟨hreject, hnone⟩ | ⟨hkeep, manifest, hfinish⟩
    · constructor
      · rintro ⟨outcome, houtcome, hsame, -⟩
        rw [← Option.some.inj houtcome, hnone] at hsame
        exact ⟨hsame.symm, hboundary, hreject⟩
      · rintro ⟨hother, -, -⟩
        refine ⟨_, rfl, by rw [hnone, hother], fun skill hskill => ?_⟩
        have hrejected := hnone (s.front.drop (sliceTo s.front (cutAt s.front)).length++
          (s.closing++s.body))
        rw [hskill] at hrejected
        cases hrejected
    · obtain ⟨hprompt, hshown⟩ := prompt_shows z s hfound.dash
      rw [hfinish, hz, Option.getD_some, if_neg hprompt]
      refine iff_of_false ?_ (fun hright => ?_)
      · rintro ⟨outcome, houtcome, -, hbody⟩
        have hsuffix := hbody _ (Option.some.inj houtcome).symm
        rw [String.toList_ofList] at hsuffix
        exact hshown hsuffix
      · rw [hright.2.2] at hkeep
        cases hkeep
  · rw [if_neg hboundary]
    refine iff_of_false ?_ (fun hright => hboundary hright.2.1)
    rintro ⟨outcome, houtcome, -⟩
    cases houtcome

/-- Without one, only a carriage return before the prompt matters. -/
theorem plain_iff (s s' : Parts) (hfound : Found s) (hfound' : Found s')
    (hbody : LineText s.body) (hbody' : s'.body = lf s.body) :
    (∃ outcome, some (finish fromYaml s.front (s.closing++s.body)) = some outcome ∧
        accepted outcome = accepted (finish fromYaml s.front (s'.closing++s'.body)) ∧
        ∀ skill, outcome = .ok skill → skill.promptContent.toList <:+ s.body) ↔
      (s.body.dropWhile (fun c => c = '\n')).head? ≠ some '\r' ∨
        (rejects fromYaml s.front = true ∨ trimChars s.body = []) := by
  have hblank : trimChars s'.body = [] ↔ trimChars s.body = [] := by
    rw [hbody']
    exact blank_lf s.body
  rcases finish_found fromYaml s.front s hfound with ⟨hreject, hnone⟩ | ⟨hkeep, manifest, hfinish⟩
  · refine iff_of_true ⟨_, rfl, ?_, fun skill hskill => ?_⟩ (Or.inr hreject)
    · rcases finish_found fromYaml s.front s' hfound' with ⟨-, hnone'⟩ | ⟨hkeep', -⟩
      · rw [hnone, hnone']
      · rw [hblank] at hkeep'
        exact absurd hreject hkeep'
    · rw [hskill] at hnone
      cases hnone
  · have hshown : trimChars s.body ≠ [] := fun heq => hkeep (Or.inr heq)
    have hown := hfinish s hfound hshown
    have hother := hfinish s' hfound' (fun heq => hshown (hblank.mp heq))
    have hdropped := lineText_suffix _ _ hbody (List.dropWhile_suffix (fun c => decide (c = '\n')))
    have hfree : '\r' ∉ (lf s.body).dropWhile (fun c => c = '\n') :=
      fun hin => lf_free s.body ((List.dropWhile_suffix _).subset hin)
    have hsame : accepted (.ok ⟨manifest, String.ofList (s.body.dropWhile (fun c => c = '\n'))⟩) =
        accepted (.ok ⟨manifest, String.ofList ((lf s.body).dropWhile (fun c => c = '\n'))⟩) ↔
        (s.body.dropWhile (fun c => c = '\n')).head? ≠ some '\r' := by
      rw [← prompt_lf s.body hbody]
      simp only [accepted, normalize_prompt _ hdropped, normalize_prompt _ (lineText_free _ hfree),
        lf_plain _ hfree, Option.some.injEq, Prod.mk.injEq, true_and]
      exact ⟨fun heq => (String.ofList_injective heq).symm, fun heq => by rw [heq]⟩
    rw [hown, hother, hbody']
    constructor
    · rintro ⟨outcome, houtcome, heq, -⟩
      rw [← Option.some.inj houtcome] at heq
      exact Or.inl (hsame.mp heq)
    · intro hright
      refine ⟨_, rfl, hsame.mpr (hright.resolve_right hkeep), fun skill hskill => ?_⟩
      cases hskill
      rw [String.toList_ofList]
      exact List.dropWhile_suffix _

/-- When a file is read as its normalized text is. -/
theorem line_endings_iff (h : LineText content.toList) :
    Independent fromYaml content ↔ Unaffected fromYaml content.toList := by
  have hlf := normalize_lf content h
  have hlines : LineText (normalizeLineEndings content).toList := by
    rw [hlf]
    exact lineText_free _ (lf_free _)
  have hparts := parts_lf content.toList h
  rw [← hlf] at hparts
  cases hs : parts content.toList with
  | none =>
    rw [hs] at hparts
    refine iff_of_true ?_ (fun s hs' => ?_)
    · refine ⟨_, parse_missing fromYaml content h hs,
        ⟨_, parse_missing fromYaml _ hlines hparts, rfl⟩, fun skill hskill => ?_⟩
      cases hskill
    · rw [hs] at hs'
      cases hs'
  | some s =>
    rw [hs, Option.map_some] at hparts
    obtain ⟨hfound, hbody⟩ := parts_known _ h s hs
    obtain ⟨hfound', -⟩ := parts_known _ hlines _ hparts
    have hother := parse_plain fromYaml _ hlines _ hparts (lf_free s.front)
    have hindependent : Independent fromYaml content ↔ ∃ outcome,
        parseSkillMd fromYaml content = some outcome ∧
        accepted outcome =
          accepted (finish fromYaml (lf s.front) (lf s.closing++lf s.body)) ∧
        ∀ skill, outcome = .ok skill → skill.promptContent.toList <:+ s.body := by
      simp [Independent, hother, hs]
    have hunaffected : Unaffected fromYaml content.toList ↔
        ('\r' ∉ s.front ∧ (s.body.dropWhile (fun c => c = '\n')).head? ≠ some '\r') ∨
        (rejects fromYaml (lf s.front) = true ∨ trimChars s.body = []) ∧
          ('\r' ∉ s.front ∨ isBoundary s.front (cutAt s.front) = true ∧
            rejects fromYaml (sliceTo s.front (cutAt s.front)) = true) := by
      simp only [Unaffected, hs, Option.some.injEq, forall_eq']
    rw [hindependent, hunaffected]
    by_cases hcarriage : '\r' ∈ s.front
    · have hnone : accepted (finish fromYaml (lf s.front) (lf s.closing++lf s.body)) = none ↔
          rejects fromYaml (lf s.front) = true ∨ trimChars s.body = [] := by
        rw [← blank_lf s.body]
        rcases finish_found fromYaml (lf s.front) _ hfound' with ⟨hreject, hnone⟩ | ⟨hkeep, m, hm⟩
        · exact iff_of_true hnone hreject
        · refine iff_of_false (fun hnone => ?_) hkeep
          rw [hm _ hfound' (fun heq => hkeep (Or.inr heq))] at hnone
          cases hnone
      rw [parse_parts fromYaml content h s hs, shifted_iff fromYaml s hfound hcarriage, hnone]
      simp [hcarriage]
    · rw [parse_plain fromYaml content h s hs hcarriage, lf_plain s.front hcarriage]
      rw [plain_iff fromYaml s _ hfound hfound' hbody rfl]
      simp [hcarriage]

def nameLine (yaml : String) : Except String SkillManifest :=
  if yaml.toList.filter (fun c => c ≠ '\r' && c ≠ '\n') = ['n', 'a', 'm', 'e', ':', ' ', 'a'] then
    .ok ⟨"a", "0.0.0", "", ⟨[], [], [], [], 2000⟩, none⟩
  else .error "missing field name"

theorem nameLine_crlf (yaml : String) :
    nameLine (String.ofList (replace ['\r', '\n'] ['\n'] yaml.toList)) = nameLine yaml := by
  have hkept : ∀ cs, (replace ['\r', '\n'] ['\n'] cs).filter (fun c => c ≠ '\r' && c ≠ '\n') =
      cs.filter (fun c => c ≠ '\r' && c ≠ '\n') := by
    intro cs
    induction hn : cs.length using Nat.strong_induction_on generalizing cs with
    | _ n ih =>
      cases cs with
      | nil => rfl
      | cons c cs =>
        unfold replace replaceFrom
        split
        · next hpre =>
          obtain ⟨rest, hrest⟩ := List.isPrefixOf_iff_prefix.mp hpre
          obtain ⟨rfl, rfl⟩ := List.cons.inj hrest
          have hshort : rest.length < n := by
            rw [← hn, List.length_cons, List.append_eq, List.length_append]
            omega
          exact ih rest.length hshort rest rfl
        · have hrest := ih cs.length (by rw [← hn, List.length_cons]; omega) cs rfl
          rw [replace] at hrest
          rw [List.filter_cons, List.filter_cons, hrest]
  rw [nameLine, String.toList_ofList, hkept, nameLine]

/-- One carriage return in the front matter puts the closing line into the prompt. -/
theorem closing_shown :
    (∀ yaml : String, nameLine (String.ofList (replace ['\r', '\n'] ['\n'] yaml.toList)) =
        nameLine yaml) ∧
      LineText "---\r\nname: a\r\n---\r\nHi".toList ∧
      ¬Independent nameLine "---\r\nname: a\r\n---\r\nHi" := by
  have hlines : LineText "---\r\nname: a\r\n---\r\nHi".toList := by
    rw [String.toList_ofList]
    exact .line ['-', '-', '-'] _ _ (by decide) (by decide) (Or.inr rfl)
      (.line ['n', 'a', 'm', 'e', ':', ' ', 'a'] _ _ (by decide) (by decide) (Or.inr rfl)
        (.line ['-', '-', '-'] _ _ (by decide) (by decide) (Or.inr rfl)
          (.last ['H', 'i'] (by decide) (by decide))))
  refine ⟨nameLine_crlf, hlines, ?_⟩
  have hparse : parseSkillMd nameLine "---\r\nname: a\r\n---\r\nHi" =
      some (.ok ⟨⟨"a", "0.0.0", "", ⟨[], [], [], [], 2000⟩, none⟩, "---\r\nHi"⟩) := by
    decide
  have hparts : parts "---\r\nname: a\r\n---\r\nHi".toList =
      some ⟨"name: a\r\n".toList, "---\r\n".toList, "Hi".toList⟩ := by
    decide
  rintro ⟨outcome, houtcome, -, hbody⟩
  rw [hparse] at houtcome
  have hsuffix := hbody _ (Option.some.inj houtcome).symm _ hparts
  revert hsuffix
  decide

/-- Behind the front matter the lines may end either way. -/
theorem later_crlf_read : Independent nameLine "---\nname: a\n---\r\nHi\r\nyou\n" := by
  have hlines : LineText "---\nname: a\n---\r\nHi\r\nyou\n".toList := by
    rw [String.toList_ofList]
    exact .line ['-', '-', '-'] _ _ (by decide) (by decide) (Or.inl rfl)
      (.line ['n', 'a', 'm', 'e', ':', ' ', 'a'] _ _ (by decide) (by decide) (Or.inl rfl)
        (.line ['-', '-', '-'] _ _ (by decide) (by decide) (Or.inr rfl)
          (.line ['H', 'i'] _ _ (by decide) (by decide) (Or.inr rfl)
            (lineText_free ['y', 'o', 'u', '\n'] (by decide)))))
  have hparts : parts "---\nname: a\n---\r\nHi\r\nyou\n".toList =
      some ⟨"name: a\n".toList, "---\r\n".toList, "Hi\r\nyou\n".toList⟩ := by
    decide
  refine (line_endings_iff nameLine "---\nname: a\n---\r\nHi\r\nyou\n" hlines).mpr (fun s hs => ?_)
  rw [hparts] at hs
  cases hs
  exact Or.inl (by decide)

end IronClaw.SkillFile
