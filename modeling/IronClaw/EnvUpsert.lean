import IronClaw.EnvFile
import IronClaw.Lib.Letters
import IronClaw.Lib.Lines

/-!
# Changing single variables of the environment file

Two writers edit the file of bootstrap variables line by line.
`upsert_bootstrap_vars_to` drops the lines whose trimmed key is being written
and appends the variables; `upsert_bootstrap_var_to` replaces the first line
that begins with the key and drops the others. The first returns the error of a
file that cannot be read, the second takes such a file for an empty one.
-/

set_option autoImplicit false

namespace IronClaw.EnvUpsert
open Lib.Text Lib.Letters Lib.Search Lib.Lines EnvFile

inductive EnvText (E : Type) where
  | absent
  | unreadable (error : E)
  | text (content : List Char)

structure FileSystem (E : Type) where
  createDirAll : Except E Unit
  existing : EnvText E
  write : List Char → Except (E × EnvText E) Unit
  restrictFilePermissions : Except E Unit

def isOverwritten (keys : List (List Char)) (line : List Char) : Bool :=
  match splitFirst ['='] line with
  | some (k, _) => keys.contains (trimChars k)
  | none => false

def upsertVarsContent (existing : List Char) (vars : List Variable) : List Char :=
  ((lines existing).filter (fun line => !isOverwritten (vars.map Prod.fst) line)).flatMap
    (fun line => line++['\n'])++savedContent vars

def replaceLines (before newLine : List Char) : Bool → List (List Char) → List Char
  | found, [] => if found then [] else newLine++['\n']
  | found, line::rest =>
    if before.isPrefixOf line then
      if found then replaceLines before newLine true rest
      else newLine++ '\n'::replaceLines before newLine true rest
    else line++ '\n'::replaceLines before newLine found rest

def upsertVarContent (existing key value : List Char) : List Char :=
  replaceLines (key++['=']) (quotedLine key value) false (lines existing)

section

variable {E : Type}

def written (fs : FileSystem E) (content : List Char) : EnvText E × Except E Unit :=
  match fs.write content with
  | .error (e, left) => (left, .error e)
  | .ok () => (.text content, fs.restrictFilePermissions)

def upsertVarsTo (fs : FileSystem E) (vars : List Variable) : EnvText E × Except E Unit :=
  match fs.createDirAll with
  | .error e => (fs.existing, .error e)
  | .ok () =>
    match fs.existing with
    | .text content => written fs (upsertVarsContent content vars)
    | .absent => written fs (upsertVarsContent [] vars)
    | .unreadable e => (fs.existing, .error e)

def upsertVarTo (fs : FileSystem E) (key value : List Char) : EnvText E × Except E Unit :=
  match fs.createDirAll with
  | .error e => (fs.existing, .error e)
  | .ok () =>
    match fs.existing with
    | .text content => written fs (upsertVarContent content key value)
    | .absent => written fs (upsertVarContent [] key value)
    | .unreadable _ => written fs (upsertVarContent [] key value)

def EnvText.loaded : EnvText E → Option (List Char)
  | .absent => some []
  | .unreadable _ => none
  | .text content => some content

end

structure Lined (logical : List Char → Option Statement) : Prop where
  carriage : ∀ c, logical (c++['\r']) = logical c
  empty_line : ∀ c, logical c = none → logical (c++['\n']) = none

def defines (k : List Char) : Statement → Bool
  | .define name _ => name = k
  | _ => false

def Independent (k : List Char) (s : Statement) : Prop :=
  ∀ name value, s = .define name value →
    ∀ f g : List Char → List Char, (∀ m, m ≠ k → f m = g m) → value f = value g

structure Recognized (k : List Char) (defined : Bool) (c : List Char) (s : Statement) : Prop where
  found : defines k s = true → '\n' ∉ c ∧ isOverwritten [k] c = true
  first : defines k s = true → defined = false → k++['='] <+: c
  spared : defines k s = false → ∀ x ∈ c.splitOn '\n', isOverwritten [k] x = false
  rejoined : defines k s = false → ¬['\r', '\n'] <:+: c
  independent : defines k s = false → defined = true → Independent k s

def Marked (k : List Char) : Bool → List (List Char × Statement) → Prop
  | _, [] => True
  | defined, p::ps => Recognized k defined p.1 p.2 ∧ Marked k (defined || defines k p.2) ps

section

variable (logical : List Char → Option Statement) (env : List Char → Option (List Char))

def chunksFrom : List Char → List Char → Option (List (List Char × Statement))
  | line, [] => if line = [] then some [] else (logical line).map (fun s => [(line, s)])
  | line, c::cs =>
    if c = '\n' then
      match logical line with
      | some s => (chunksFrom [] cs).map (fun ps => (line, s)::ps)
      | none => chunksFrom (line++['\n']) cs
    else chunksFrom (line++[c]) cs

def Loads (content : List Char) (meaning : List Char → Option (List Char)) : Prop :=
  ∃ vars, readFile logical env content = some vars ∧ ∀ name, vars.lookup name = meaning name

structure Upserted {E : Type} (fs : FileSystem E) (k v : List Char) : Prop where
  taken : ∀ content vars, fs.existing.loaded = some content →
    readFile logical env content = some vars →
      ∀ after, after = upsertVarTo fs k v ∨ after = upsertVarsTo fs [(k, v)] →
        after.2 = .ok () → ∃ new, after.1 = .text new ∧
          Loads logical env new (Function.update (fun name => vars.lookup name) k (some v))
  kept : ∀ e, fs.existing = .unreadable e →
    (upsertVarTo fs k v).1 = fs.existing ∧ (upsertVarsTo fs [(k, v)]).1 = fs.existing

variable (isName : Char → Bool) (lone : List Char)

def Plain (k v : List Char) : Prop :=
  variableName k = true ∧ ∀ lookup, expand isName lone lookup v = v

def Editable {E : Type} (fs : FileSystem E) (k v : List Char) : Prop :=
  match fs.existing with
  | .absent => Plain isName lone k v
  | .unreadable _ => fs.createDirAll ≠ .ok () ∨
      ∃ e, fs.write (quotedLine k v++['\n']) = .error (e, fs.existing)
  | .text content => Plain isName lone k v ∧
      ∀ cs, chunksFrom logical [] content = some cs → Marked k false cs

end

section

variable (logical : List Char → Option Statement) (env : List Char → Option (List Char))

theorem chunks_statements (line t : List Char) :
    statementsFrom logical line t = (chunksFrom logical line t).map (List.map Prod.snd) := by
  induction t generalizing line with
  | nil =>
    rw [statementsFrom, chunksFrom]
    split
    · rfl
    · rw [Option.map_map]
      rfl
  | cons c t ih =>
    rw [statementsFrom, chunksFrom]
    by_cases hc : c = '\n'
    · rw [if_pos hc, if_pos hc]
      cases logical line with
      | none => exact ih _
      | some s =>
        simp only [ih, Option.map_map]
        rfl
    · rw [if_neg hc, if_neg hc]
      exact ih _

theorem chunks_line (line x rest : List Char) (hx : '\n' ∉ x) :
    chunksFrom logical line (x++ '\n'::rest) =
      match logical (line++x) with
      | some s => (chunksFrom logical [] rest).map (fun ps => (line++x, s)::ps)
      | none => chunksFrom logical (line++x++['\n']) rest := by
  induction x generalizing line with
  | nil => rw [List.nil_append, chunksFrom, if_pos rfl, List.append_nil]
  | cons c x ih =>
    have hc : c ≠ '\n' := fun heq => hx (heq ▸ List.mem_cons_self)
    have hnext := ih (line++[c]) (fun hin => hx (List.mem_cons_of_mem c hin))
    rw [List.append_assoc] at hnext
    rw [List.cons_append, chunksFrom, if_neg hc]
    exact hnext

theorem chunks_last (line x : List Char) (hx : '\n' ∉ x) :
    chunksFrom logical line x =
      if line++x = [] then some [] else (logical (line++x)).map (fun s => [(line++x, s)]) := by
  induction x generalizing line with
  | nil => rw [chunksFrom, List.append_nil]
  | cons c x ih =>
    have hc : c ≠ '\n' := fun heq => hx (heq ▸ List.mem_cons_self)
    have hnext := ih (line++[c]) (fun hin => hx (List.mem_cons_of_mem c hin))
    rw [List.append_assoc] at hnext
    rw [chunksFrom, if_neg hc]
    exact hnext

theorem break_before (p q a b : List Char) (hq : '\n' ∉ q) (h : p++q = a++ '\n'::b) :
    ∃ b', p = a++ '\n'::b' := by
  rcases List.append_eq_append_iff.mp h with ⟨a', rfl, hqb⟩ | ⟨c, hpc, hc⟩
  · exact absurd (hqb ▸ List.mem_append_right a' List.mem_cons_self) hq
  · cases c with
    | nil =>
      rw [List.nil_append] at hc
      exact absurd (hc ▸ List.mem_cons_self) hq
    | cons d c =>
      obtain ⟨rfl, -⟩ := List.cons.inj hc
      exact ⟨c, hpc⟩

def Unfinished (line : List Char) : Prop := ∀ a b, line = a++ '\n'::b → logical a = none

theorem unfinished_line (line x : List Char) (hx : '\n' ∉ x) (h : Unfinished logical line) :
    Unfinished logical (line++x) := by
  intro a b hab
  obtain ⟨b', hb'⟩ := break_before line x a b hx hab
  exact h a b' hb'

theorem unfinished_break (line : List Char) (h : Unfinished logical line)
    (hnone : logical line = none) : Unfinished logical (line++['\n']) := by
  intro a b hab
  rcases List.append_eq_append_iff.mp hab with ⟨a', rfl, ha'⟩ | ⟨c, hline, hc⟩
  · cases a' with
    | nil => rwa [List.append_nil]
    | cons d a' =>
      obtain ⟨-, htail⟩ := List.cons.inj ha'
      exact absurd htail.symm (List.append_ne_nil_of_right_ne_nil a' (List.cons_ne_nil _ _))
  · cases c with
    | nil =>
      rw [List.append_nil] at hline
      rwa [← hline]
    | cons d c =>
      obtain ⟨rfl, -⟩ := List.cons.inj hc
      exact h a c hline

def Rewritten (p q : List Char × Statement) : Prop :=
  (q.1 = p.1 ∨ p.1 = q.1++['\r']) ∧ q.2 = p.2 ∧ Unfinished logical q.1 ∧ logical q.1 = some q.2

variable (lined : Lined logical)
include lined

theorem rewritten_ended (c : List Char) (s : Statement) (hopen : Unfinished logical c)
    (h : logical c = some s) : Rewritten logical (c, s) (lineOf (c++['\n']), s) := by
  rw [lineOf_line]
  split
  · next hlast =>
    obtain ⟨d, rfl⟩ := List.getLast?_eq_some_iff.mp hlast
    rw [List.dropLast_concat]
    refine ⟨Or.inr rfl, rfl, fun a b hab => hopen a (b++['\r']) ?_, ?_⟩
    · rw [show d = a++ '\n'::b from hab, List.append_assoc]
      rfl
    · rw [← lined.carriage]
      exact h
  · exact ⟨Or.inl rfl, rfl, hopen, h⟩

/-- The lines of a text belong to its statements. -/
theorem chunks_lines (line t : List Char) (cs : List (List Char × Statement))
    (hopen : Unfinished logical line) (hline : line = [] ∨ ∃ l, line = l++['\n'])
    (h : chunksFrom logical line t = some cs) (hcs : ∀ p ∈ cs, ¬['\r', '\n'] <:+: p.1) :
    ∃ ds, lines (line++t) = ds.flatMap (fun d => d.1.splitOn '\n') ∧
      List.Forall₂ (Rewritten logical) cs ds := by
  induction t using line_induction generalizing line cs with
  | last x hx =>
    rw [chunks_last logical line x hx] at h
    split at h
    · next hempty =>
      cases h
      exact ⟨[], by rw [hempty]; rfl, .nil⟩
    · next hne =>
      obtain ⟨s, hs, hsingle⟩ := Option.map_eq_some_iff.mp h
      subst hsingle
      have hlast : (line++x).getLast? ≠ some '\n' := by
        cases x with
        | nil =>
          rw [List.append_nil] at hs hne ⊢
          obtain ⟨l, rfl⟩ := hline.resolve_left hne
          rw [lined.empty_line l (hopen l [] rfl)] at hs
          cases hs
        | cons c x =>
          rw [List.getLast?_append_cons]
          exact fun hl => hx (List.mem_of_getLast? hl)
      refine ⟨[(line++x, s)], ?_, .cons ⟨Or.inl rfl, rfl, ?_, hs⟩ .nil⟩
      · rw [lines_open _ (hcs _ List.mem_cons_self) hne hlast]
        simp
      · exact unfinished_line logical line x hx hopen
  | step x rest hx ih =>
    have hsplit : line++(x++ '\n'::rest) = (line++x)++ '\n'::rest := by simp
    have hopen' := unfinished_line logical line x hx hopen
    rw [chunks_line logical line x rest hx] at h
    cases hs : logical (line++x) with
    | some s =>
      rw [hs] at h
      obtain ⟨cs', hrest, hcs'⟩ := Option.map_eq_some_iff.mp h
      subst hcs'
      obtain ⟨ds, hlines, hds⟩ := ih [] cs' (fun a b hab => by cases a <;> cases hab)
        (Or.inl rfl) hrest (fun p hp => hcs p (List.mem_cons_of_mem _ hp))
      refine ⟨(lineOf (line++x++['\n']), s)::ds, ?_,
        .cons (rewritten_ended logical lined _ s hopen' hs) hds⟩
      rw [hsplit, lines_append, lines_ended _ (hcs _ List.mem_cons_self), List.flatMap_cons]
      rw [List.nil_append] at hlines
      rw [hlines]
    | none =>
      rw [hs] at h
      have hnext := ih (line++x++['\n']) cs (unfinished_break logical _ hopen' hs)
        (Or.inr ⟨line++x, rfl⟩) h hcs
      rw [hsplit]
      rwa [List.append_assoc] at hnext

end

theorem namePart_black (c : Char) (h : isNamePart c = true) : isWhitespace c = false := by
  by_cases hmark : c = '_' ∨ c = '.'
  · rcases hmark with rfl | rfl <;> decide
  · obtain ⟨hunder, hdot⟩ := not_or.mp hmark
    simp only [isNamePart, hunder, hdot, decide_false, Bool.or_false, Char.isAlphanum,
      Bool.or_eq_true, isAlpha_iff, Char.isDigit_iff_toNat] at h
    rw [← Bool.not_eq_true]
    intro hblank
    have hrange := isWhitespace_range c hblank
    have hdigits : '0'.toNat = 48 ∧ '9'.toNat = 57 := ⟨rfl, rfl⟩
    omega

theorem trim_name (k : List Char) (hk : variableName k = true) : trimChars k = k := by
  have hblack : ∀ c ∈ k, isWhitespace c = false :=
    fun c hc => namePart_black c (variableName_part k hk c hc)
  cases k with
  | nil => rfl
  | cons c k =>
    rw [trimChars_headed (c::k) c (hblack c List.mem_cons_self) rfl, trimEnd]
    refine List.rdropWhile_eq_self_iff.mpr (fun hne => ?_)
    rw [hblack _ (List.getLast_mem hne)]
    exact Bool.false_ne_true

theorem overwritten_key (k line : List Char) (hk : variableName k = true)
    (h : k++['='] <+: line) : isOverwritten [k] line = true := by
  obtain ⟨rest, rfl⟩ := h
  have hequal : '=' ∉ k := fun hin => absurd (variableName_part k hk _ hin) (by decide)
  have hsplit : splitFirst ['='] (k++['=']++rest) = some (k, rest) :=
    (splitFirst_headed '=' [] _ k rest List.not_mem_nil).mpr
      ⟨rfl, fun hin => hequal (hin.subset List.mem_cons_self)⟩
  rw [isOverwritten, hsplit]
  simp [trim_name k hk]

theorem overwritten_carriage (keys : List (List Char)) (x : List Char) :
    isOverwritten keys (x++['\r']) = isOverwritten keys x := by
  cases hx : splitFirst ['='] x with
  | none =>
    have hin := (splitFirst_eq_none ['='] x (List.cons_ne_nil _ _)).mp hx
    have hlonger : ¬['='] <:+: x++['\r'] := by
      intro hin'
      rcases List.mem_append.mp (hin'.subset List.mem_cons_self) with hmem | hmem
      · obtain ⟨a, b, rfl⟩ := List.append_of_mem hmem
        exact hin ⟨a, b, by simp⟩
      · exact absurd hmem (by decide)
    have hnone := splitFirst_none ['='] (x++['\r']) (List.cons_ne_nil _ _) hlonger
    rw [isOverwritten, isOverwritten, hx, hnone]
  | some found =>
    obtain ⟨p, q⟩ := found
    obtain ⟨rfl, hp⟩ := (splitFirst_headed '=' [] x p q List.not_mem_nil).mp hx
    have hlonger : splitFirst ['='] (p++['=']++q++['\r']) = some (p, q++['\r']) :=
      (splitFirst_headed '=' [] _ p _ List.not_mem_nil).mpr ⟨by simp, hp⟩
    rw [isOverwritten, isOverwritten, hx, hlonger]

theorem splitOn_carriage (d x : List Char) (hx : x ∈ d.splitOn '\n') :
    x ∈ (d++['\r']).splitOn '\n' ∨ x++['\r'] ∈ (d++['\r']).splitOn '\n' := by
  induction d using line_induction with
  | last y hy =>
    have hcarriage : '\n' ∉ y++['\r'] := by
      simp [hy]
    rw [List.splitOn_eq_singleton hy, List.mem_singleton] at hx
    rw [List.splitOn_eq_singleton hcarriage, hx]
    exact Or.inr List.mem_cons_self
  | step y rest hy ih =>
    rw [List.append_assoc, List.cons_append]
    rw [List.splitOn_append_cons_self_of_not_mem hy] at hx ⊢
    rcases List.mem_cons.mp hx with rfl | hx
    · exact Or.inl List.mem_cons_self
    · exact (ih hx).imp (List.mem_cons_of_mem y) (List.mem_cons_of_mem y)

/-- A statement is recognized also as it is written down again. -/
theorem recognized_rewritten (logical : List Char → Option Statement) (k : List Char)
    (defined : Bool) (p q : List Char × Statement) (h : Rewritten logical p q)
    (hp : Recognized k defined p.1 p.2) : Recognized k defined q.1 q.2 := by
  obtain ⟨hq | hq, hs, -, -⟩ := h
  · rw [hq, hs]
    exact hp
  · rw [hs]
    rw [hq] at hp
    refine ⟨fun hk => ?_, fun hk hfirst => ?_, fun hk x hx => ?_, fun hk hin => ?_,
      hp.independent⟩
    · obtain ⟨hbreak, hover⟩ := hp.found hk
      rw [overwritten_carriage] at hover
      exact ⟨fun hin => hbreak (List.mem_append_left _ hin), hover⟩
    · rcases List.prefix_concat_iff.mp (hp.first hk hfirst) with heq | hpre
      · exact absurd (List.append_inj_right' heq rfl) (by decide)
      · exact hpre
    · rcases splitOn_carriage q.1 x hx with hx | hx
      · exact hp.spared hk x hx
      · rw [← overwritten_carriage]
        exact hp.spared hk _ hx
    · exact hp.rejoined hk (hin.trans (List.prefix_append q.1 _).isInfix)

inductive Alike (k : List Char) : Bool → List Statement → List Statement → Prop
  | nil (apart : Bool) : Alike k apart [] []
  | same (s : Statement) (ss ss' : List Statement) : Alike k false ss ss' →
      Alike k false (s::ss) (s::ss')
  | keep (s : Statement) (ss ss' : List Statement) : Independent k s → Alike k true ss ss' →
      Alike k true (s::ss) (s::ss')
  | drop (apart : Bool) (s : Statement) (ss ss' : List Statement) : defines k s = true →
      Alike k true ss ss' → Alike k apart (s::ss) ss'
  | add (apart : Bool) (s : Statement) (ss ss' : List Statement) : defines k s = true →
      Alike k true ss ss' → Alike k apart ss (s::ss')

def AgreeOff (k : List Char) (vars vars' : List Variable) : Prop :=
  ∀ n, n ≠ k → vars.lookup n = vars'.lookup n

theorem agree_append (k : List Char) (x x' y y' : List Variable) (hx : AgreeOff k x x')
    (hy : AgreeOff k y y') : AgreeOff k (x++y) (x'++y') := by
  intro n hn
  rw [List.lookup_append, List.lookup_append, hx n hn, hy n hn]

theorem agree_defined (k name value : List Char) (h : name = k) :
    AgreeOff k [(name, value)] [] := by
  intro n hn
  rw [List.lookup_cons, beq_false_of_ne (fun heq => hn (heq.trans h))]

section

variable (env : List Char → Option (List Char)) (k : List Char)

theorem defines_name (s : Statement) (h : defines k s = true) :
    ∃ name value, s = .define name value ∧ name = k := by
  cases s with
  | blank => cases h
  | malformed => cases h
  | define name value => exact ⟨name, value, rfl, of_decide_eq_true h⟩

theorem evaluate_alike (apart : Bool) (ss ss' : List Statement) (h : Alike k apart ss ss')
    (known known' vars : List Variable) (hknown : AgreeOff k known known')
    (hsame : apart = false → known = known') (heval : evaluate env known ss = some vars) :
    ∃ vars', evaluate env known' ss' = some vars' ∧ AgreeOff k vars vars' := by
  induction h generalizing known known' vars with
  | nil =>
    cases heval
    exact ⟨[], rfl, fun n hn => rfl⟩
  | same s ss ss' _ ih =>
    obtain rfl := hsame rfl
    cases s with
    | blank => exact ih known known vars hknown (fun _ => rfl) heval
    | malformed => cases heval
    | define name value =>
      obtain ⟨rest, hrest, rfl⟩ := Option.map_eq_some_iff.mp heval
      obtain ⟨rest', hrest', hagree⟩ := ih _ _ rest (fun n hn => rfl) (fun _ => rfl) hrest
      refine ⟨(name, value (lookupIn env known))::rest', ?_,
        agree_append k [_] [_] _ _ (fun n hn => rfl) hagree⟩
      rw [evaluate, hrest', Option.map_some]
  | keep s ss ss' hs _ ih =>
    cases s with
    | blank => exact ih known known' vars hknown (fun h => Bool.noConfusion h) heval
    | malformed => cases heval
    | define name value =>
      obtain ⟨rest, hrest, hvars⟩ := Option.map_eq_some_iff.mp heval
      have hvalue : value (lookupIn env known) = value (lookupIn env known') :=
        hs name value rfl _ _ (fun n hn => by rw [lookupIn, lookupIn, hknown n hn])
      subst hvars
      rw [hvalue] at hrest ⊢
      obtain ⟨rest', hrest', hagree⟩ := ih _ _ rest
        (agree_append k _ _ _ _ hknown (fun n hn => rfl)) (fun h => Bool.noConfusion h) hrest
      refine ⟨(name, value (lookupIn env known'))::rest', ?_,
        agree_append k [_] [_] _ _ (fun n hn => rfl) hagree⟩
      rw [evaluate, hrest', Option.map_some]
  | drop apart s ss ss' hs _ ih =>
    obtain ⟨name, value, rfl, hname⟩ := defines_name k s hs
    obtain ⟨rest, hrest, hvars⟩ := Option.map_eq_some_iff.mp heval
    subst hvars
    have hdefined := agree_defined k name (value (lookupIn env known)) hname
    have hknown' : AgreeOff k (known++[(name, value (lookupIn env known))]) (known'++[]) :=
      agree_append k _ _ _ _ hknown hdefined
    rw [List.append_nil] at hknown'
    obtain ⟨vars', hvars', hagree⟩ := ih _ known' rest hknown' (fun h => Bool.noConfusion h) hrest
    exact ⟨vars', hvars', agree_append k [_] [] _ _ hdefined hagree⟩
  | add apart s ss ss' hs _ ih =>
    obtain ⟨name, value, rfl, hname⟩ := defines_name k s hs
    have hdefined : AgreeOff k [] [(name, value (lookupIn env known'))] :=
      fun n hn => (agree_defined k name _ hname n hn).symm
    have hknown' : AgreeOff k (known++[]) (known'++[(name, value (lookupIn env known'))]) :=
      agree_append k _ _ _ _ hknown hdefined
    rw [List.append_nil] at hknown'
    obtain ⟨rest', hrest', hagree⟩ := ih known _ vars hknown' (fun h => Bool.noConfusion h) heval
    refine ⟨_::rest', ?_, agree_append k [] [_] _ _ hdefined hagree⟩
    rw [evaluate, hrest', Option.map_some]

variable (v : List Char)

def setting : Statement := .define k (fun _ => v)

theorem evaluate_set (ss : List Statement) (known vars : List Variable)
    (hfirst : ss.find? (defines k) = some (setting k v))
    (heval : evaluate env known ss = some vars) : vars.lookup k = some v := by
  induction ss generalizing known vars with
  | nil => cases hfirst
  | cons s ss ih =>
    cases hs : defines k s with
    | true =>
      rw [List.find?_cons_of_pos hs] at hfirst
      obtain rfl := Option.some.inj hfirst
      obtain ⟨rest, -, rfl⟩ := Option.map_eq_some_iff.mp heval
      exact List.lookup_cons_self
    | false =>
      rw [List.find?_cons_of_neg (by simp [hs])] at hfirst
      cases s with
      | blank => exact ih known vars hfirst heval
      | malformed => cases heval
      | define name value =>
        obtain ⟨rest, heval', rfl⟩ := Option.map_eq_some_iff.mp heval
        have hname : k ≠ name := fun heq => of_decide_eq_false hs heq.symm
        rw [List.lookup_cons, beq_false_of_ne hname]
        exact ih _ rest hfirst heval'

structure Edited (ss ss' : List Statement) : Prop where
  alike : Alike k false ss ss'
  first : ss'.find? (defines k) = some (setting k v)

theorem edited_loads (ss ss' : List Statement) (vars : List Variable) (h : Edited k v ss ss')
    (heval : evaluate env [] ss = some vars) : ∃ vars', evaluate env [] ss' = some vars' ∧
      ∀ name, vars'.lookup name = Function.update (fun n => vars.lookup n) k (some v) name := by
  obtain ⟨vars', hvars', hagree⟩ :=
    evaluate_alike env k false ss ss' h.alike [] [] vars (fun n hn => rfl) (fun _ => rfl) heval
  refine ⟨vars', hvars', fun name => ?_⟩
  by_cases hname : name = k
  · rw [hname, Function.update_self]
    exact evaluate_set env k v ss' [] vars' h.first hvars'
  · rw [Function.update_of_ne hname]
    exact (hagree name hname).symm

theorem setting_defines : defines k (setting k v) = true := decide_eq_true rfl

def replaceStatements : Bool → List (List Char × Statement) → List Statement
  | found, [] => if found then [] else [setting k v]
  | found, d::ds =>
    if defines k d.2 && (k++['=']).isPrefixOf d.1 then
      if found then replaceStatements true ds else setting k v::replaceStatements true ds
    else d.2::replaceStatements found ds

theorem dropped_alike (defined : Bool) (ds : List (List Char × Statement))
    (h : Marked k defined ds) : Alike k defined (ds.map Prod.snd)
      ((ds.map Prod.snd).filter (fun s => !defines k s)++[setting k v]) := by
  induction ds generalizing defined with
  | nil => exact .add _ _ _ _ (setting_defines k v) (.nil true)
  | cons d ds ih =>
    obtain ⟨hd, hds⟩ := h
    rw [List.map_cons]
    cases hk : defines k d.2 with
    | true =>
      rw [hk, Bool.or_true] at hds
      rw [List.filter_cons_of_neg (by simp [hk])]
      exact .drop _ _ _ _ hk (ih true hds)
    | false =>
      rw [hk, Bool.or_false] at hds
      rw [List.filter_cons_of_pos (by simp [hk])]
      cases defined with
      | true => exact .keep _ _ _ (hd.independent hk rfl) (ih true hds)
      | false => exact .same _ _ _ (ih false hds)

variable (ds : List (List Char × Statement))

theorem dropped_edited (h : Marked k false ds) :
    Edited k v (ds.map Prod.snd)
      ((ds.map Prod.snd).filter (fun s => !defines k s)++[setting k v]) := by
  refine ⟨dropped_alike k v false ds h, ?_⟩
  have hnone : ((ds.map Prod.snd).filter (fun s => !defines k s)).find? (defines k) = none := by
    rw [List.find?_eq_none]
    intro s hs
    simpa using (List.mem_filter.mp hs).2
  rw [List.find?_append, hnone, Option.none_or, List.find?_cons_of_pos (setting_defines k v)]

theorem replaced_alike (found : Bool) (ds : List (List Char × Statement))
    (h : Marked k found ds) :
    Alike k found (ds.map Prod.snd) (replaceStatements k v found ds) := by
  induction ds generalizing found with
  | nil =>
    cases found with
    | true => exact .nil true
    | false => exact .add _ _ _ _ (setting_defines k v) (.nil true)
  | cons d ds ih =>
    obtain ⟨hd, hds⟩ := h
    rw [List.map_cons, replaceStatements]
    cases hk : defines k d.2 with
    | true =>
      rw [hk, Bool.or_true] at hds
      cases hpre : (k++['=']).isPrefixOf d.1 with
      | true =>
        rw [Bool.and_true, if_pos rfl]
        cases found with
        | true => exact .drop _ _ _ _ hk (ih true hds)
        | false =>
          exact .drop _ _ _ _ hk (.add _ _ _ _ (setting_defines k v) (ih true hds))
      | false =>
        rw [Bool.and_false, if_neg Bool.false_ne_true]
        cases found with
        | true => exact .drop _ _ _ _ hk (.add _ _ _ _ hk (ih true hds))
        | false =>
          rw [List.isPrefixOf_iff_prefix.mpr (hd.first hk rfl)] at hpre
          cases hpre
    | false =>
      rw [hk, Bool.or_false] at hds
      rw [Bool.false_and, if_neg Bool.false_ne_true]
      cases found with
      | true => exact .keep _ _ _ (hd.independent hk rfl) (ih true hds)
      | false => exact .same _ _ _ (ih false hds)

theorem replaced_first (h : Marked k false ds) :
    (replaceStatements k v false ds).find? (defines k) = some (setting k v) := by
  induction ds with
  | nil => exact List.find?_cons_of_pos (setting_defines k v)
  | cons d ds ih =>
    obtain ⟨hd, hds⟩ := h
    rw [replaceStatements]
    cases hk : defines k d.2 with
    | true =>
      rw [List.isPrefixOf_iff_prefix.mpr (hd.first hk rfl), Bool.and_true, if_pos rfl,
        if_neg Bool.false_ne_true]
      exact List.find?_cons_of_pos (setting_defines k v)
    | false =>
      rw [hk, Bool.or_false] at hds
      rw [Bool.false_and, if_neg Bool.false_ne_true, List.find?_cons_of_neg (by simp [hk])]
      exact ih hds

theorem replaced_edited (h : Marked k false ds) :
    Edited k v (ds.map Prod.snd) (replaceStatements k v false ds) :=
  ⟨replaced_alike k v false ds h, replaced_first k v ds h⟩

end

theorem replaceLines_spared (before newLine : List Char) (found : Bool)
    (ls rest : List (List Char)) (h : ∀ x ∈ ls, before.isPrefixOf x = false) :
    replaceLines before newLine found (ls++rest) =
      ls.flatMap (fun x => x++['\n'])++replaceLines before newLine found rest := by
  induction ls with
  | nil => rfl
  | cons x ls ih =>
    have hx : ¬before.isPrefixOf x = true := by
      rw [h x List.mem_cons_self]
      exact Bool.false_ne_true
    rw [List.cons_append, replaceLines, if_neg hx, ih (fun y hy => h y (List.mem_cons_of_mem x hy))]
    simp

section

variable (logical : List Char → Option Statement) (isName : Char → Bool) (lone : List Char)
variable (doc : Documented isName lone logical) (k v : List Char) (plain : Plain isName lone k v)

structure Complete (d : List Char × Statement) : Prop where
  unfinished : Unfinished logical d.1
  complete : logical d.1 = some d.2

theorem rewritten_marked (defined : Bool) (cs ds : List (List Char × Statement))
    (h : List.Forall₂ (Rewritten logical) cs ds) (hcs : Marked k defined cs) :
    Marked k defined ds ∧ (∀ d ∈ ds, Complete logical d) ∧ ds.map Prod.snd = cs.map Prod.snd := by
  induction h generalizing defined with
  | nil => exact ⟨trivial, fun d hd => absurd hd List.not_mem_nil, rfl⟩
  | @cons p d cs ds hpd _ ih =>
    obtain ⟨hp, hps⟩ := hcs
    obtain ⟨hmarked, hcomplete, hsame⟩ := ih _ hps
    have hrecognized := recognized_rewritten logical k defined p d hpd hp
    obtain ⟨-, hs, hopen, hclosed⟩ := hpd
    refine ⟨⟨hrecognized, hs.symm ▸ hmarked⟩, fun d' hd' => ?_,
      by rw [List.map_cons, List.map_cons, hs, hsame]⟩
    rcases List.mem_cons.mp hd' with rfl | hd'
    · exact ⟨hopen, hclosed⟩
    · exact hcomplete d' hd'

theorem recognized_spared {defined : Bool} (d : List Char × Statement)
    (hk : variableName k = true) (h : Recognized k defined d.1 d.2)
    (hd : defines k d.2 = false) (x : List Char) (hx : x ∈ d.1.splitOn '\n') :
    isOverwritten [k] x = false ∧ (k++['=']).isPrefixOf x = false := by
  have hspared := h.spared hd x hx
  refine ⟨hspared, ?_⟩
  by_contra hpre
  rw [Bool.not_eq_false, List.isPrefixOf_iff_prefix] at hpre
  rw [overwritten_key k x hk hpre] at hspared
  cases hspared

theorem complete_reads (d : List Char × Statement) (h : Complete logical d) (rest : List Char) :
    statementsFrom logical [] ((d.1.splitOn '\n').flatMap (fun x => x++['\n'])++rest) =
      (statementsFrom logical [] rest).map (fun ss => d.2::ss) := by
  rw [splitOn_ended, List.append_assoc]
  exact scan_line logical [] d.1 rest d.2 h.unfinished h.complete

include doc plain

theorem scan_setting (rest : List Char) :
    statementsFrom logical [] (quotedLine k v++ '\n'::rest) =
      (statementsFrom logical [] rest).map (fun ss => setting k v::ss) := by
  rw [scan_quoted logical isName lone doc k v rest plain.1]
  have hvalue : (fun lookup => expand isName lone lookup v) = fun _ => v := funext plain.2
  rw [hvalue]
  rfl

theorem vars_reads (defined : Bool) (ds : List (List Char × Statement))
    (hmarked : Marked k defined ds) (h : ∀ d ∈ ds, Complete logical d) :
    statementsFrom logical []
      (((ds.flatMap (fun d => d.1.splitOn '\n')).filter
        (fun line => !isOverwritten [k] line)).flatMap (fun line => line++['\n'])++
          savedContent [(k, v)]) =
      some ((ds.map Prod.snd).filter (fun s => !defines k s)++[setting k v]) := by
  induction ds generalizing defined with
  | nil =>
    have hset := scan_setting logical isName lone doc k v plain []
    rw [statementsFrom, if_pos rfl] at hset
    exact hset
  | cons d ds ih =>
    obtain ⟨hrecognized, hbehind⟩ := hmarked
    have hrest := ih _ hbehind (fun d hd => h d (List.mem_cons_of_mem _ hd))
    have hcomplete := h d List.mem_cons_self
    rw [List.flatMap_cons, List.filter_append, List.flatMap_append, List.append_assoc,
      List.map_cons]
    cases hd : defines k d.2 with
    | true =>
      obtain ⟨hbreak, hover⟩ := hrecognized.found hd
      rw [List.splitOn_eq_singleton hbreak, List.filter_cons_of_neg (by simp [hover]),
        List.filter_cons_of_neg (by simp [hd])]
      exact hrest
    | false =>
      have hkept : (d.1.splitOn '\n').filter (fun line => !isOverwritten [k] line) =
          d.1.splitOn '\n' := by
        refine List.filter_eq_self.mpr (fun x hx => ?_)
        rw [hrecognized.spared hd x hx]
        rfl
      rw [hkept, complete_reads logical d hcomplete, hrest,
        List.filter_cons_of_pos (by simp [hd])]
      rfl

theorem var_reads (found : Bool) (ds : List (List Char × Statement))
    (hmarked : Marked k found ds) (h : ∀ d ∈ ds, Complete logical d) :
    statementsFrom logical [] (replaceLines (k++['=']) (quotedLine k v) found
      (ds.flatMap (fun d => d.1.splitOn '\n'))) = some (replaceStatements k v found ds) := by
  induction ds generalizing found with
  | nil =>
    cases found with
    | true => rfl
    | false =>
      have hset := scan_setting logical isName lone doc k v plain []
      rw [statementsFrom, if_pos rfl] at hset
      exact hset
  | cons d ds ih =>
    obtain ⟨hrecognized, hbehind⟩ := hmarked
    have hrest := fun found hbehind =>
      ih found hbehind (fun d hd => h d (List.mem_cons_of_mem _ hd))
    have hcomplete := h d List.mem_cons_self
    have hspared : (∀ x ∈ d.1.splitOn '\n', (k++['=']).isPrefixOf x = false) →
        replaceLines (k++['=']) (quotedLine k v) found
            (d.1.splitOn '\n'++ds.flatMap (fun d => d.1.splitOn '\n')) =
          (d.1.splitOn '\n').flatMap (fun x => x++['\n'])++replaceLines (k++['=']) (quotedLine k v)
            found (ds.flatMap (fun d => d.1.splitOn '\n')) :=
      fun hx => replaceLines_spared _ _ found _ _ hx
    rw [List.flatMap_cons, replaceStatements]
    cases hd : defines k d.2 with
    | true =>
      rw [hd, Bool.or_true] at hbehind
      obtain ⟨hbreak, -⟩ := hrecognized.found hd
      cases hpre : (k++['=']).isPrefixOf d.1 with
      | true =>
        rw [List.splitOn_eq_singleton hbreak, List.singleton_append, replaceLines, if_pos hpre,
          Bool.and_true, if_pos rfl]
        cases found with
        | true => exact hrest true hbehind
        | false =>
          rw [if_neg Bool.false_ne_true, if_neg Bool.false_ne_true,
            scan_setting logical isName lone doc k v plain, hrest true hbehind]
          rfl
      | false =>
        have hfound : found = true := by
          by_contra hf
          rw [Bool.not_eq_true] at hf
          rw [List.isPrefixOf_iff_prefix.mpr (hrecognized.first hd hf)] at hpre
          cases hpre
        have hline : ∀ x ∈ d.1.splitOn '\n', (k++['=']).isPrefixOf x = false := by
          rw [List.splitOn_eq_singleton hbreak]
          intro x hx
          rw [List.mem_singleton.mp hx, hpre]
        rw [hspared hline, complete_reads logical d hcomplete, Bool.and_false,
          if_neg Bool.false_ne_true, hfound, hrest true hbehind]
        rfl
    | false =>
      rw [hd, Bool.or_false] at hbehind
      rw [hspared (fun x hx => (recognized_spared k d plain.1 hrecognized hd x hx).2),
        complete_reads logical d hcomplete, hrest found hbehind, Bool.false_and,
        if_neg Bool.false_ne_true]
      rfl

end

section

variable (logical : List Char → Option Statement) (env : List Char → Option (List Char))
variable (isName : Char → Bool) (lone : List Char)
variable (doc : Documented isName lone logical) (lined : Lined logical)
include doc lined

omit doc lined in
theorem marked_breaks (k : List Char) (defined : Bool) (cs : List (List Char × Statement))
    (h : Marked k defined cs) : ∀ p ∈ cs, ¬['\r', '\n'] <:+: p.1 := by
  induction cs generalizing defined with
  | nil => exact fun p hp => absurd hp List.not_mem_nil
  | cons q cs ih =>
    obtain ⟨hq, hcs⟩ := h
    intro p hp hin
    rcases List.mem_cons.mp hp with rfl | hp
    · cases hk : defines k p.2 with
      | true => exact (hq.found hk).1 (hin.subset (by decide))
      | false => exact hq.rejoined hk hin
    · exact ih _ hcs p hp hin

/-- Both writers set the variable in a text whose lines they recognize. -/
theorem content_loads (content k v : List Char) (cs : List (List Char × Statement))
    (vars : List Variable) (plain : Plain isName lone k v)
    (hcs : chunksFrom logical [] content = some cs) (hmarks : Marked k false cs)
    (hvars : readFile logical env content = some vars) (new : List Char)
    (hnew : new = upsertVarContent content k v ∨ new = upsertVarsContent content [(k, v)]) :
    Loads logical env new (Function.update (fun name => vars.lookup name) k (some v)) := by
  obtain ⟨ds, hlines, hds⟩ := chunks_lines logical lined [] content cs
    (fun a b hab => by cases a <;> cases hab) (Or.inl rfl) hcs (marked_breaks k false cs hmarks)
  rw [List.nil_append] at hlines
  obtain ⟨hmarked, hcomplete, hsame⟩ := rewritten_marked logical k false cs ds hds hmarks
  rw [readFile, chunks_statements, hcs, Option.map_some, Option.bind_some, ← hsame] at hvars
  obtain ⟨ss', hedited, hread⟩ : ∃ ss', Edited k v (ds.map Prod.snd) ss' ∧
      statementsFrom logical [] new = some ss' := by
    rcases hnew with rfl | rfl
    · refine ⟨_, replaced_edited k v ds hmarked, ?_⟩
      rw [upsertVarContent, hlines]
      exact var_reads logical isName lone doc k v plain false ds hmarked hcomplete
    · refine ⟨_, dropped_edited k v ds hmarked, ?_⟩
      rw [upsertVarsContent, hlines]
      exact vars_reads logical isName lone doc k v plain false ds hmarked hcomplete
  obtain ⟨vars', hvars', hmeaning⟩ := edited_loads env k v _ ss' vars hedited hvars
  refine ⟨vars', ?_, hmeaning⟩
  rw [readFile, hread]
  exact hvars'

omit doc lined in
theorem written_ok {E : Type} (fs : FileSystem E) (content : List Char)
    (h : (written fs content).2 = .ok ()) : (written fs content).1 = .text content := by
  unfold written at h ⊢
  cases hwrite : fs.write content with
  | error left =>
    rw [hwrite] at h
    cases h
  | ok u => rfl

omit doc lined in
theorem upserted_text {E : Type} (fs : FileSystem E) (content k v : List Char)
    (hloaded : fs.existing.loaded = some content) (after : EnvText E × Except E Unit)
    (hafter : after = upsertVarTo fs k v ∨ after = upsertVarsTo fs [(k, v)])
    (hok : after.2 = .ok ()) : ∃ new, after.1 = .text new ∧
      (new = upsertVarContent content k v ∨ new = upsertVarsContent content [(k, v)]) := by
  cases hdir : fs.createDirAll with
  | error e =>
    have herror : after.2 = .error e := by
      rcases hafter with rfl | rfl
      · rw [upsertVarTo, hdir]
      · rw [upsertVarsTo, hdir]
    rw [herror] at hok
    cases hok
  | ok u =>
    have hwritten : after = written fs (upsertVarContent content k v) ∨
        after = written fs (upsertVarsContent content [(k, v)]) := by
      cases hexisting : fs.existing with
      | unreadable e =>
        rw [hexisting] at hloaded
        cases hloaded
      | absent =>
        rw [hexisting] at hloaded
        cases hloaded
        rwa [upsertVarTo, upsertVarsTo, hdir, hexisting] at hafter
      | text t =>
        rw [hexisting] at hloaded
        cases hloaded
        rwa [upsertVarTo, upsertVarsTo, hdir, hexisting] at hafter
    rcases hwritten with rfl | rfl
    · exact ⟨_, written_ok fs _ hok, Or.inl rfl⟩
    · exact ⟨_, written_ok fs _ hok, Or.inr rfl⟩

omit doc lined in
/-- What becomes of a file that cannot be read. -/
theorem unreadable_kept {E : Type} (fs : FileSystem E) (e : E) (k v : List Char)
    (h : fs.existing = .unreadable e) : (upsertVarsTo fs [(k, v)]).1 = fs.existing ∧
      ((upsertVarTo fs k v).1 = fs.existing ↔ fs.createDirAll ≠ .ok () ∨
        ∃ e', fs.write (quotedLine k v++['\n']) = .error (e', fs.existing)) := by
  rw [upsertVarsTo, upsertVarTo, h]
  cases hdir : fs.createDirAll with
  | error e => simp
  | ok u =>
    refine ⟨rfl, ?_⟩
    have hcontent : upsertVarContent [] k v = quotedLine k v++['\n'] := rfl
    simp only [hcontent, written, ne_eq, not_true, false_or]
    cases hwrite : fs.write (quotedLine k v++['\n']) with
    | ok u => simp
    | error left =>
      obtain ⟨e', left⟩ := left
      simp

end

def readBehind (isName : Char → Bool) (lone name rest : List Char) : Option Statement :=
  if ['=', '"'].isPrefixOf rest then
    match closing (rest.drop 2) with
    | none => none
    | some (q, tail) =>
      if tail.all (fun c => c = '\r') then
        some (.define name (fun lookup => interpretFrom isName lone lookup 0 q))
      else some .malformed
  else if rest.all (fun c => c = '\r') then some .blank else some .malformed

def lineReader (isName : Char → Bool) (lone line : List Char) : Option Statement :=
  let text := line.dropWhile (fun c => c = ' ')
  readBehind isName lone (text.takeWhile isNamePart) (text.dropWhile isNamePart)

theorem closing_more (q : List Char) (x : Char) (hx : x ≠ '"') :
    closing (q++[x]) = (closing q).map (fun found => (found.1, found.2++[x])) := by
  fun_induction closing q with
  | case1 =>
    rw [List.nil_append, closing, if_neg hx]
    split <;> rfl
  | case2 rest =>
    rw [List.cons_append, closing.eq_def]
    simp only [if_true, Option.map_some]
  | case3 => rfl
  | case4 d rest _ ih =>
    change (closing (rest++[x])).map (fun found => ('\\'::d::found.1, found.2)) = _
    rw [ih, Option.map_map, Option.map_map]
    rfl
  | case5 c rest hquote hback ih =>
    rw [List.cons_append, closing.eq_def]
    simp only [if_neg hquote, if_neg hback, ih, Option.map_map]
    rfl

theorem dropWhile_mark (p : Char → Bool) (x : Char) (hx : p x = false) (cs : List Char) :
    (cs++[x]).dropWhile p = cs.dropWhile p++[x] := by
  have hmark : [x].dropWhile p = [x] := List.dropWhile_cons_of_neg (by simp [hx])
  rw [List.dropWhile_append, hmark]
  split
  · next hempty => rw [List.isEmpty_iff.mp hempty, List.nil_append]
  · rfl

theorem takeWhile_mark (p : Char → Bool) (x : Char) (hx : p x = false) (cs : List Char) :
    (cs++[x]).takeWhile p = cs.takeWhile p := by
  induction cs with
  | nil => exact List.takeWhile_cons_of_neg (by simp [hx])
  | cons c cs ih => rw [List.cons_append, List.takeWhile_cons, List.takeWhile_cons, ih]

theorem opening_mark (rest : List Char) (x : Char) (hx : x ≠ '"') :
    ['=', '"'].isPrefixOf (rest++[x]) = ['=', '"'].isPrefixOf rest := by
  rw [Bool.eq_iff_iff, List.isPrefixOf_iff_prefix, List.isPrefixOf_iff_prefix]
  constructor
  · intro h
    rcases List.prefix_concat_iff.mp h with heq | hpre
    · have hsplit : ['=']++['"'] = rest++[x] := heq
      exact absurd (List.cons.inj (List.append_inj_right' hsplit rfl)).1.symm hx
    · exact hpre
  · exact fun h => h.trans (List.prefix_append rest [x])

section

variable (isName : Char → Bool) (lone : List Char)

theorem readBehind_quoted (name q : List Char) :
    readBehind isName lone name ('=':: '"'::q) =
      match closing q with
      | none => none
      | some (q, tail) =>
        if tail.all (fun c => c = '\r') then
          some (.define name (fun lookup => interpretFrom isName lone lookup 0 q))
        else some .malformed := by
  have hpre : ['=', '"'].isPrefixOf ('=':: '"'::q) = true :=
    List.isPrefixOf_iff_prefix.mpr (List.prefix_append ['=', '"'] q)
  rw [readBehind, if_pos hpre]
  rfl

theorem readBehind_carriage (name rest : List Char) :
    readBehind isName lone name (rest++['\r']) = readBehind isName lone name rest := by
  by_cases hpre : ['=', '"'].isPrefixOf rest = true
  · obtain ⟨q, rfl⟩ := List.isPrefixOf_iff_prefix.mp hpre
    change readBehind isName lone name ('=':: '"'::(q++['\r'])) =
      readBehind isName lone name ('=':: '"'::q)
    rw [readBehind_quoted, readBehind_quoted, closing_more q '\r' (by decide)]
    cases closing q with
    | none => rfl
    | some found => simp
  · have hlonger : ¬['=', '"'].isPrefixOf (rest++['\r']) = true := by
      rwa [opening_mark rest '\r' (by decide)]
    rw [readBehind, readBehind, if_neg hpre, if_neg hlonger]
    simp

theorem readBehind_open (name rest : List Char) (h : readBehind isName lone name rest = none) :
    readBehind isName lone name (rest++['\n']) = none := by
  by_cases hpre : ['=', '"'].isPrefixOf rest = true
  · obtain ⟨q, rfl⟩ := List.isPrefixOf_iff_prefix.mp hpre
    change readBehind isName lone name ('=':: '"'::q) = none at h
    change readBehind isName lone name ('=':: '"'::(q++['\n'])) = none
    rw [readBehind_quoted] at h ⊢
    rw [closing_more q '\n' (by decide)]
    cases hq : closing q with
    | none => rfl
    | some found =>
      rw [hq] at h
      simp only at h
      split at h <;> cases h
  · rw [readBehind, if_neg hpre] at h
    split at h <;> cases h

theorem lineReader_lined : Lined (lineReader isName lone) := by
  have hmark : ∀ c x, isNamePart x = false → x ≠ ' ' →
      lineReader isName lone (c++[x]) =
        readBehind isName lone ((c.dropWhile (fun c => c = ' ')).takeWhile isNamePart)
          ((c.dropWhile (fun c => c = ' ')).dropWhile isNamePart++[x]) := by
    intro c x hpart hx
    rw [lineReader, dropWhile_mark _ x (by simp [hx])]
    simp only [takeWhile_mark _ x hpart, dropWhile_mark _ x hpart]
  refine ⟨fun c => ?_, fun c hc => ?_⟩
  · rw [hmark c '\r' (by decide) (by decide)]
    exact readBehind_carriage isName lone _ _
  · rw [hmark c '\n' (by decide) (by decide)]
    exact readBehind_open isName lone _ _ hc

theorem lineReader_documented (names : ∀ c, isName c = true → c ≠ '\\' ∧ c ≠ '"') :
    Documented isName lone (lineReader isName lone) := by
  have hquoted : ∀ k q, variableName k = true → lineReader isName lone (k++ '=':: '"'::q) =
      readBehind isName lone k ('=':: '"'::q) := by
    intro k q hk
    have hstart : (k++ '=':: '"'::q).dropWhile (fun c => c = ' ') = k++ '=':: '"'::q := by
      cases k with
      | nil => cases hk
      | cons c k =>
        refine List.dropWhile_cons_of_neg (fun hc => ?_)
        have hpart := variableName_part _ hk c List.mem_cons_self
        rw [of_decide_eq_true hc] at hpart
        exact absurd hpart (by decide)
    rw [lineReader, hstart]
    simp only [(name_ends k _ hk).1, (name_ends k _ hk).2]
  refine ⟨fun k q hk hq => ?_, fun k q hk hq => ?_, names⟩
  · rw [hquoted k q hk, readBehind_quoted, closing_open q hq]
  · rw [hquoted k _ hk, readBehind_quoted, closing_end q hq]
    rfl

end

def nameReader : List Char → Option Statement := lineReader asciiName ['$']

def plainFile (content : List Char) : FileSystem Unit where
  createDirAll := .ok ()
  existing := .text content
  write := fun _ => .ok ()
  restrictFilePermissions := .ok ()

def binaryFile : FileSystem Unit := ⟨.ok (), .unreadable (), fun _ => .ok (), .ok ()⟩

end IronClaw.EnvUpsert
