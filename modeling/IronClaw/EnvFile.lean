import IronClaw.Lib.Search

/-!
# The file of bootstrap variables

`save_bootstrap_env_to` writes each variable as a line with a quoted value, in
which backslashes and quotes are escaped. The file is read back by dotenvy,
which is given: it collects lines until a quote is closed, undoes escapes and
puts values in for references such as `$NAME`. Which characters make a name
behind a dollar sign, and what a dollar sign before no name stands for, is left
to the reader.
-/

set_option autoImplicit false

namespace IronClaw.EnvFile
open Lib.Text Lib.Search

abbrev Variable := List Char × List Char

def escaped (value : List Char) : List Char :=
  replace ['"'] ['\\', '"'] (replace ['\\'] ['\\', '\\'] value)

def quotedLine (key value : List Char) : List Char := key++ '=':: '"'::(escaped value++['"'])

def savedContent : List Variable → List Char
  | [] => []
  | (key, value)::vars => quotedLine key value++ '\n'::savedContent vars

def isNameStart (c : Char) : Bool := c.isAlpha || c = '_'

def isNamePart (c : Char) : Bool := c.isAlphanum || c = '_' || c = '.'

def variableName : List Char → Bool
  | [] => false
  | c::cs => isNameStart c && cs.all isNamePart

inductive Statement where
  | blank
  | define (name : List Char) (value : (List Char → List Char) → List Char)
  | malformed

section

variable (isName : Char → Bool) (lone : List Char)

def referenceAt : List Char → Option (List Char × ℕ)
  | [] => none
  | c::cs =>
    if c = '\x7b' then
      let name := cs.takeWhile isName
      if name ≠ [] ∧ (cs.drop name.length).head? = some '\x7d' then some (name, name.length+2)
      else none
    else
      let name := (c::cs).takeWhile isName
      if name = [] then none else some (name, name.length)

def interpretFrom (lookup : List Char → List Char) : ℕ → List Char → List Char
  | _, [] => []
  | skip+1, _::q => interpretFrom lookup skip q
  | 0, c::q =>
    if c = '\\' then q.take 1++interpretFrom lookup 1 q
    else if c = '$' then
      match referenceAt isName q with
      | some (name, n) => lookup name++interpretFrom lookup n q
      | none => lone++interpretFrom lookup 0 q
    else c::interpretFrom lookup 0 q

def expandFrom (lookup : List Char → List Char) : ℕ → List Char → List Char
  | _, [] => []
  | skip+1, _::v => expandFrom lookup skip v
  | 0, c::v =>
    if c = '$' then
      match referenceAt isName v with
      | some (name, n) => lookup name++expandFrom lookup n v
      | none => lone++expandFrom lookup 0 v
    else c::expandFrom lookup 0 v

def expand (lookup : List Char → List Char) (value : List Char) : List Char :=
  expandFrom isName lone lookup 0 value

inductive Escaped : List Char → Prop
  | nil : Escaped []
  | plain (c : Char) (q : List Char) : c ≠ '\\' → c ≠ '"' → Escaped q → Escaped (c::q)
  | pair (c : Char) (q : List Char) : c = '\\' ∨ c = '"' → Escaped q → Escaped ('\\'::c::q)

structure Documented (logical : List Char → Option Statement) : Prop where
  open_quote : ∀ k q, variableName k = true → Escaped q → logical (k++ '=':: '"'::q) = none
  closed_quote : ∀ k q, variableName k = true → Escaped q →
    logical (k++ '=':: '"'::(q++['"'])) =
      some (.define k (fun lookup => interpretFrom isName lone lookup 0 q))
  names : ∀ c, isName c = true → c ≠ '\\' ∧ c ≠ '"'

end

section

variable (logical : List Char → Option Statement) (env : List Char → Option (List Char))

def statementsFrom : List Char → List Char → Option (List Statement)
  | line, [] => if line = [] then some [] else (logical line).map (fun s => [s])
  | line, c::cs =>
    if c = '\n' then
      match logical line with
      | some s => (statementsFrom [] cs).map (fun ss => s::ss)
      | none => statementsFrom (line++['\n']) cs
    else statementsFrom (line++[c]) cs

def lookupIn (known : List Variable) (name : List Char) : List Char :=
  (env name).getD ((known.lookup name).getD [])

def evaluate : List Variable → List Statement → Option (List Variable)
  | _, [] => some []
  | known, .blank::ss => evaluate known ss
  | known, .define name value::ss =>
    (evaluate (known++[(name, value (lookupIn env known))]) ss).map
      (fun vars => (name, value (lookupIn env known))::vars)
  | _, .malformed::_ => none

def readFile (content : List Char) : Option (List Variable) :=
  (statementsFrom logical [] content).bind (evaluate env [])

end

def escapeChar (c : Char) : List Char :=
  if c = '\\' then ['\\', '\\'] else if c = '"' then ['\\', '"'] else [c]

theorem escaped_chars (value : List Char) : escaped value = value.flatMap escapeChar := by
  rw [escaped, replace_single, replace_single, List.flatMap_assoc]
  congr 1
  funext c
  unfold escapeChar
  by_cases hc : c = '\\'
  · rw [if_pos hc, if_pos hc]
    rfl
  · rw [if_neg hc, if_neg hc, List.flatMap_cons, List.flatMap_nil, List.append_nil]

theorem escaped_cons (c : Char) (value : List Char) :
    escaped (c::value) = escapeChar c++escaped value := by
  rw [escaped_chars, escaped_chars, List.flatMap_cons]

theorem escapeChar_plain (c : Char) (h : c ≠ '\\' ∧ c ≠ '"') : escapeChar c = [c] := by
  rw [escapeChar, if_neg h.1, if_neg h.2]

theorem escaped_escaped (value : List Char) : Escaped (escaped value) := by
  induction value with
  | nil => exact .nil
  | cons c value ih =>
    rw [escaped_cons]
    by_cases hback : c = '\\'
    · rw [escapeChar, if_pos hback]
      exact .pair '\\' _ (Or.inl rfl) ih
    · by_cases hquote : c = '"'
      · rw [escapeChar, if_neg hback, if_pos hquote]
        exact .pair '"' _ (Or.inr rfl) ih
      · rw [escapeChar_plain c ⟨hback, hquote⟩]
        exact .plain c _ hback hquote ih

theorem pair_break (x y : Char) (t a b : List Char) (hx : x ≠ '\n') (hy : y ≠ '\n')
    (h : x::y::t = a++ '\n'::b) : ∃ a', a = x::y::a' ∧ t = a'++ '\n'::b := by
  cases a with
  | nil => exact absurd (List.cons.inj h).1 hx
  | cons c a =>
    obtain ⟨rfl, htail⟩ := List.cons.inj h
    cases a with
    | nil => exact absurd (List.cons.inj htail).1 hy
    | cons d a =>
      obtain ⟨rfl, hrest⟩ := List.cons.inj htail
      exact ⟨a, rfl, hrest⟩

/-- What stands before a line break in an escaped value is escaped, too. -/
theorem escaped_break (value a b : List Char) (h : escaped value = a++ '\n'::b) : Escaped a := by
  induction value generalizing a with
  | nil => cases a <;> cases h
  | cons c value ih =>
    rw [escaped_cons] at h
    by_cases hback : c = '\\'
    · rw [escapeChar, if_pos hback] at h
      obtain ⟨a', rfl, hrest⟩ := pair_break _ _ _ a b (by decide) (by decide) h
      exact .pair '\\' a' (Or.inl rfl) (ih a' hrest)
    · by_cases hquote : c = '"'
      · rw [escapeChar, if_neg hback, if_pos hquote] at h
        obtain ⟨a', rfl, hrest⟩ := pair_break _ _ _ a b (by decide) (by decide) h
        exact .pair '"' a' (Or.inr rfl) (ih a' hrest)
      · rw [escapeChar_plain c ⟨hback, hquote⟩] at h
        cases a with
        | nil => exact .nil
        | cons x a =>
          obtain ⟨rfl, hrest⟩ := List.cons.inj h
          exact .plain c a hback hquote (ih a hrest)

section

variable (isName : Char → Bool) (lone : List Char) (lookup : List Char → List Char)

theorem interpret_skip (p q : List Char) :
    interpretFrom isName lone lookup p.length (p++q) = interpretFrom isName lone lookup 0 q := by
  induction p with
  | nil => rfl
  | cons c p ih => rw [List.length_cons, List.cons_append, interpretFrom, ih]

theorem expand_skip (p v : List Char) :
    expandFrom isName lone lookup p.length (p++v) = expandFrom isName lone lookup 0 v := by
  induction p with
  | nil => rfl
  | cons c p ih => rw [List.length_cons, List.cons_append, expandFrom, ih]

variable (names : ∀ c, isName c = true → c ≠ '\\' ∧ c ≠ '"')
include names

theorem escaped_head (c : Char) (v : List Char) : ∃ d t, escaped (c::v) = d::t ∧
    (d = c ∨ isName d = false ∧ isName c = false ∧ d = '\\') := by
  have hspecial : ∀ x, x = '\\' ∨ x = '"' → isName x = false := by
    intro x hx
    by_contra hname
    obtain ⟨hback, hquote⟩ := names x (Bool.not_eq_false _ ▸ hname)
    exact hx.elim hback hquote
  rw [escaped_cons, escapeChar]
  split
  · next hc => exact ⟨_, _, rfl, Or.inl hc.symm⟩
  · split
    · next hc =>
      exact ⟨_, _, rfl, Or.inr ⟨hspecial _ (Or.inl rfl), hspecial c (Or.inr hc), rfl⟩⟩
    · exact ⟨_, _, rfl, Or.inl rfl⟩

theorem takeWhile_escaped (v : List Char) : ∃ rest, v = v.takeWhile isName++rest ∧
    escaped v = v.takeWhile isName++escaped rest ∧
    (escaped v).takeWhile isName = v.takeWhile isName := by
  induction v with
  | nil => exact ⟨[], rfl, rfl, rfl⟩
  | cons c v ih =>
    by_cases hc : isName c = true
    · obtain ⟨rest, hv, hescaped, hname⟩ := ih
      have hplain : escaped (c::v) = c::escaped v := by
        rw [escaped_cons, escapeChar_plain c (names c hc)]
        rfl
      refine ⟨rest, ?_, ?_, ?_⟩
      · rw [List.takeWhile_cons_of_pos hc, List.cons_append, ← hv]
      · rw [hplain, List.takeWhile_cons_of_pos hc, hescaped, List.cons_append]
      · rw [hplain, List.takeWhile_cons_of_pos hc, List.takeWhile_cons_of_pos hc, hname]
    · have hnone : (c::v).takeWhile isName = [] := List.takeWhile_cons_of_neg hc
      refine ⟨c::v, by rw [hnone]; rfl, by rw [hnone]; rfl, ?_⟩
      obtain ⟨d, t, hescaped, hd⟩ := escaped_head isName names c v
      have hd' : ¬isName d = true := by
        rcases hd with rfl | ⟨hd, -, -⟩
        · exact hc
        · rw [hd]
          exact Bool.false_ne_true
      rw [hescaped, hnone, List.takeWhile_cons_of_neg hd']

/-- Escaping neither makes nor breaks a reference. -/
theorem reference_escaped (v : List Char) : (referenceAt isName v = none ∧
      referenceAt isName (escaped v) = none) ∨
    ∃ name p rest, referenceAt isName v = some (name, p.length) ∧
      referenceAt isName (escaped v) = some (name, p.length) ∧ v = p++rest ∧
      escaped v = p++escaped rest := by
  cases v with
  | nil => exact Or.inl ⟨rfl, rfl⟩
  | cons c v =>
    by_cases hc : c = '\x7b'
    · have hplain : escaped (c::v) = c::escaped v := by
        rw [escaped_cons, escapeChar_plain c (by rw [hc]; decide)]
        rfl
      obtain ⟨rest, hv, hescaped, hname⟩ := takeWhile_escaped isName names v
      have hdrop : ∀ w q : List Char, w = v.takeWhile isName++q →
          w.drop (v.takeWhile isName).length = q := by
        intro w q hw
        rw [hw, List.drop_left]
      simp only [hplain, referenceAt, if_pos hc, hname, hdrop _ _ hv, hdrop _ _ hescaped]
      have hclose : (escaped rest).head? = some '\x7d' ↔ rest.head? = some '\x7d' := by
        cases rest with
        | nil => exact Iff.rfl
        | cons d rest =>
          rw [escaped_cons, escapeChar]
          split
          · next hd => simp [hd]
          · split
            · next hd => simp [hd]
            · simp
      by_cases hfound : v.takeWhile isName ≠ [] ∧ rest.head? = some '\x7d'
      · right
        obtain ⟨rest', rfl⟩ := List.head?_eq_some_iff.mp hfound.2
        have hrest : escaped ('\x7d'::rest') = '\x7d'::escaped rest' := by
          rw [escaped_cons, escapeChar_plain _ (by decide)]
          rfl
        refine ⟨v.takeWhile isName, '\x7b'::(v.takeWhile isName++['\x7d']), rest', ?_, ?_, ?_, ?_⟩
        · rw [if_pos hfound]
          simp
        · rw [if_pos ⟨hfound.1, hclose.mpr hfound.2⟩]
          simp
        · conv_lhs => rw [hv, hc]
          simp
        · rw [hescaped, hrest, hc]
          simp
      · left
        rw [if_neg hfound, if_neg (fun h => hfound ⟨h.1, hclose.mp h.2⟩)]
        exact ⟨rfl, rfl⟩
    · obtain ⟨rest, hv, hescaped, hname⟩ := takeWhile_escaped isName names (c::v)
      obtain ⟨d, t, hhead, hd⟩ := escaped_head isName names c v
      have hd' : d ≠ '\x7b' := by
        rcases hd with rfl | ⟨-, -, rfl⟩
        · exact hc
        · decide
      rw [hhead] at hname
      have hescaped' : referenceAt isName (escaped (c::v)) =
          if (c::v).takeWhile isName = [] then none
          else some ((c::v).takeWhile isName, ((c::v).takeWhile isName).length) := by
        rw [hhead]
        simp only [referenceAt, if_neg hd', hname]
      have hplain : referenceAt isName (c::v) =
          if (c::v).takeWhile isName = [] then none
          else some ((c::v).takeWhile isName, ((c::v).takeWhile isName).length) := by
        simp only [referenceAt, if_neg hc]
      by_cases hempty : (c::v).takeWhile isName = []
      · left
        rw [hplain, hescaped', if_pos hempty]
        exact ⟨rfl, rfl⟩
      · right
        rw [hplain, hescaped', if_neg hempty]
        exact ⟨_, _, rest, rfl, rfl, hv, hescaped⟩

/-- Reading undoes the escaping and replaces the references. -/
theorem interpret_escaped (v : List Char) :
    interpretFrom isName lone lookup 0 (escaped v) = expand isName lone lookup v := by
  unfold expand
  induction hn : v.length using Nat.strong_induction_on generalizing v with
  | _ n ih =>
    cases v with
    | nil => rfl
    | cons c v =>
      have hnext := ih v.length (by rw [← hn, List.length_cons]; omega) v rfl
      rw [escaped_cons, expandFrom]
      by_cases hspecial : c = '\\' ∨ c = '"'
      · have hpair : escapeChar c = ['\\', c] := by
          rcases hspecial with rfl | rfl <;> rfl
        have hdollar : c ≠ '$' := by
          rcases hspecial with rfl | rfl <;> decide
        rw [hpair, if_neg hdollar, ← hnext]
        rfl
      · have hplain := not_or.mp hspecial
        rw [escapeChar_plain c hplain, List.singleton_append, interpretFrom, if_neg hplain.1]
        by_cases hdollar : c = '$'
        · rw [if_pos hdollar, if_pos hdollar]
          rcases reference_escaped isName names v with ⟨hv, hescaped⟩ |
            ⟨name, p, rest, hv, hescaped, hsplit, hsplit'⟩
          · rw [hv, hescaped, hnext]
          · have hrest := ih rest.length (by
              rw [← hn, List.length_cons, hsplit, List.length_append]
              omega) rest rfl
            rw [hv, hescaped]
            simp only
            rw [hsplit', hsplit, interpret_skip, expand_skip, hrest]
        · rw [if_neg hdollar, if_neg hdollar, hnext]

end

section

variable (isName : Char → Bool) (lone : List Char) (lookup : List Char → List Char)

theorem expand_plain (v : List Char) (h : '$' ∉ v) : expand isName lone lookup v = v := by
  unfold expand
  induction v with
  | nil => rfl
  | cons c v ih =>
    have hc : c ≠ '$' := fun heq => h (heq ▸ List.mem_cons_self)
    rw [expandFrom, if_neg hc, ih (fun hin => h (List.mem_cons_of_mem c hin))]

end

theorem variableName_part (k : List Char) (h : variableName k = true) :
    ∀ c ∈ k, isNamePart c = true := by
  cases k with
  | nil => cases h
  | cons c k =>
    obtain ⟨hc, hk⟩ := Bool.and_eq_true_iff.mp h
    intro d hd
    rcases List.mem_cons.mp hd with rfl | hd
    · unfold isNameStart at hc
      unfold isNamePart Char.isAlphanum
      rcases Bool.or_eq_true_iff.mp hc with halpha | hunder
      · simp [halpha]
      · simp [hunder]
    · exact List.all_eq_true.mp hk d hd

theorem variableName_break (k : List Char) (h : variableName k = true) : '\n' ∉ k := by
  intro hin
  exact absurd (variableName_part k h _ hin) (by decide)

theorem break_behind (p q a b : List Char) (hp : '\n' ∉ p) (h : p++q = a++ '\n'::b) :
    ∃ a', a = p++a' ∧ q = a'++ '\n'::b := by
  rcases List.append_eq_append_iff.mp h with ⟨a', ha, hq⟩ | ⟨c, hpc, hc⟩
  · exact ⟨a', ha, hq⟩
  · cases c with
    | nil =>
      rw [List.append_nil] at hpc
      exact ⟨[], by rw [hpc, List.append_nil], hc.symm⟩
    | cons d c =>
      obtain ⟨rfl, -⟩ := List.cons.inj hc
      exact absurd (hpc ▸ List.mem_append_right a List.mem_cons_self) hp

/-- A line break in a quoted line stands in the value. -/
theorem quotedLine_break (k v a b : List Char) (hk : variableName k = true)
    (h : quotedLine k v = a++ '\n'::b) : ∃ a', a = k++ '=':: '"'::a' ∧ Escaped a' := by
  have hsplit : (k++['=', '"'])++(escaped v++['"']) = a++ '\n'::b := by
    rw [← h, quotedLine, List.append_assoc]
    rfl
  have hhead : '\n' ∉ k++['=', '"'] := by
    intro hin
    rcases List.mem_append.mp hin with hin | hin
    · exact variableName_break k hk hin
    · revert hin
      decide
  obtain ⟨a', rfl, htail⟩ := break_behind _ _ a b hhead hsplit
  refine ⟨a', by rw [List.append_assoc]; rfl, ?_⟩
  rcases List.append_eq_append_iff.mp htail with ⟨c, -, hc⟩ | ⟨c, hc, hb⟩
  · cases c with
    | nil => cases hc
    | cons d c => cases c <;> cases hc
  · cases c with
    | nil => cases hb
    | cons d c =>
      obtain ⟨rfl, -⟩ := List.cons.inj hb
      exact escaped_break v a' c hc

section

variable (logical : List Char → Option Statement) (env : List Char → Option (List Char))

theorem scan_line (line x rest : List Char) (s : Statement)
    (opened : ∀ a b, x = a++ '\n'::b → logical (line++a) = none)
    (closed : logical (line++x) = some s) :
    statementsFrom logical line (x++ '\n'::rest) =
      (statementsFrom logical [] rest).map (fun ss => s::ss) := by
  induction x generalizing line with
  | nil =>
    rw [List.append_nil] at closed
    rw [List.nil_append, statementsFrom, if_pos rfl, closed]
  | cons c x ih =>
    have hnext := ih (line++[c]) (fun a b hx => by
      have := opened (c::a) b (by rw [hx]; rfl)
      rwa [List.append_assoc]) (by rwa [List.append_assoc])
    rw [List.cons_append, statementsFrom]
    by_cases hc : c = '\n'
    · subst hc
      have hopen := opened [] x rfl
      rw [List.append_nil] at hopen
      rw [if_pos rfl, hopen]
      exact hnext
    · rw [if_neg hc]
      exact hnext

variable (isName : Char → Bool) (lone : List Char)

def replayed : List Variable → List Variable → List Variable
  | _, [] => []
  | known, (k, v)::vars =>
    (k, expand isName lone (lookupIn env known) v)::
      replayed (known++[(k, expand isName lone (lookupIn env known) v)]) vars

variable (doc : Documented isName lone logical)
include doc

theorem scan_quoted (k v rest : List Char) (hk : variableName k = true) :
    statementsFrom logical [] (quotedLine k v++ '\n'::rest) =
      (statementsFrom logical [] rest).map
        (fun ss => .define k (fun lookup => expand isName lone lookup v)::ss) := by
  have hclosed := doc.closed_quote k (escaped v) hk (escaped_escaped v)
  have hvalue : (fun lookup => interpretFrom isName lone lookup 0 (escaped v)) =
      fun lookup => expand isName lone lookup v :=
    funext (fun lookup => interpret_escaped isName lone lookup doc.names v)
  rw [hvalue] at hclosed
  refine scan_line logical [] (quotedLine k v) rest _ (fun a b hab => ?_) hclosed
  obtain ⟨a', rfl, ha'⟩ := quotedLine_break k v a b hk hab
  exact doc.open_quote k a' hk ha'

theorem read_saved (known vars : List Variable)
    (hnames : ∀ x ∈ vars, variableName x.1 = true) :
    (statementsFrom logical [] (savedContent vars)).bind (evaluate env known) =
      some (replayed env isName lone known vars) := by
  induction vars generalizing known with
  | nil => rfl
  | cons x vars ih =>
    obtain ⟨k, v⟩ := x
    have hrest := ih (known++[(k, expand isName lone (lookupIn env known) v)])
      (fun y hy => hnames y (List.mem_cons_of_mem _ hy))
    rw [savedContent, scan_quoted logical isName lone doc k v _ (hnames _ List.mem_cons_self)]
    obtain ⟨ss, hss, heval⟩ := Option.bind_eq_some_iff.mp hrest
    rw [hss, Option.map_some, Option.bind_some, evaluate, heval, Option.map_some, replayed]

omit doc in
theorem replayed_iff (known vars : List Variable) : replayed env isName lone known vars = vars ↔
    ∀ pre k v post, vars = pre++(k, v)::post →
      expand isName lone (lookupIn env (known++pre)) v = v := by
  induction vars generalizing known with
  | nil => simp [replayed]
  | cons x vars ih =>
    obtain ⟨k, v⟩ := x
    rw [replayed, List.cons.injEq, Prod.mk.injEq]
    constructor
    · rintro ⟨⟨-, hv⟩, hrest⟩ pre k' v' post hsplit
      rw [hv] at hrest
      cases pre with
      | nil =>
        cases hsplit
        rw [List.append_nil, hv]
      | cons y pre =>
        obtain ⟨rfl, htail⟩ := List.cons.inj hsplit
        have := (ih (known++[(k, v)])).mp hrest pre k' v' post htail
        rwa [List.append_assoc] at this
    · intro hall
      have hv : expand isName lone (lookupIn env known) v = v := by
        have := hall [] k v vars rfl
        rwa [List.append_nil] at this
      refine ⟨⟨rfl, hv⟩, ?_⟩
      rw [hv]
      refine (ih (known++[(k, v)])).mpr (fun pre k' v' post hsplit => ?_)
      have := hall ((k, v)::pre) k' v' post (by rw [hsplit]; rfl)
      rwa [List.append_assoc]

/-- A saved file gives back its variables exactly if no value has a reference
that is replaced by something else. -/
theorem saved_iff (vars : List Variable) (hnames : ∀ x ∈ vars, variableName x.1 = true) :
    readFile logical env (savedContent vars) = some vars ↔
      ∀ pre k v post, vars = pre++(k, v)::post → expand isName lone (lookupIn env pre) v = v := by
  have hread := read_saved logical env isName lone doc [] vars hnames
  rw [readFile, hread, Option.some.injEq]
  exact replayed_iff env isName lone [] vars

end

def closing : List Char → Option (List Char × List Char)
  | [] => none
  | c::rest =>
    if c = '"' then some ([], rest)
    else if c = '\\' then
      match rest with
      | [] => none
      | d::rest => (closing rest).map (fun found => ('\\'::d::found.1, found.2))
    else (closing rest).map (fun found => (c::found.1, found.2))

def quotedReader (isName : Char → Bool) (lone line : List Char) : Option Statement :=
  match line.dropWhile isNamePart with
  | '=':: '"'::rest =>
    match closing rest with
    | none => none
    | some (q, []) => some (.define (line.takeWhile isNamePart)
        (fun lookup => interpretFrom isName lone lookup 0 q))
    | some _ => some .malformed
  | [] => some .blank
  | _ => some .malformed

theorem closing_open (q : List Char) (h : Escaped q) : closing q = none := by
  induction h with
  | nil => rfl
  | plain c q hback hquote _ ih =>
    rw [closing.eq_def]
    simp only [if_neg hquote, if_neg hback, ih, Option.map_none]
  | pair c q hc _ ih =>
    change (closing q).map (fun found => ('\\'::c::found.1, found.2)) = none
    rw [ih, Option.map_none]

theorem closing_end (q : List Char) (h : Escaped q) : closing (q++['"']) = some (q, []) := by
  induction h with
  | nil => rfl
  | plain c q hback hquote _ ih =>
    rw [List.cons_append, closing.eq_def]
    simp only [if_neg hquote, if_neg hback, ih, Option.map_some]
  | pair c q hc _ ih =>
    change (closing (q++['"'])).map (fun found => ('\\'::c::found.1, found.2)) = _
    rw [ih, Option.map_some]

theorem name_ends (k rest : List Char) (hk : variableName k = true) :
    (k++ '='::rest).dropWhile isNamePart = '='::rest ∧
      (k++ '='::rest).takeWhile isNamePart = k := by
  have hpart := variableName_part k hk
  have hstop : ¬isNamePart '=' = true := by decide
  rw [List.dropWhile_append_of_pos hpart, List.takeWhile_append_of_pos hpart,
    List.dropWhile_cons_of_neg hstop, List.takeWhile_cons_of_neg hstop, List.append_nil]
  exact ⟨rfl, rfl⟩

theorem quotedReader_documented (isName : Char → Bool) (lone : List Char)
    (names : ∀ c, isName c = true → c ≠ '\\' ∧ c ≠ '"') :
    Documented isName lone (quotedReader isName lone) := by
  refine ⟨fun k q hk hq => ?_, fun k q hk hq => ?_, names⟩
  · rw [quotedReader, (name_ends k _ hk).1]
    simp only [closing_open q hq]
  · rw [quotedReader, (name_ends k _ hk).1, (name_ends k _ hk).2]
    simp only [closing_end q hq]

def asciiName (c : Char) : Bool := c.isAlphanum || c = '_'

theorem asciiName_plain (c : Char) (h : asciiName c = true) : c ≠ '\\' ∧ c ≠ '"' := by
  constructor
  all_goals
    rintro rfl
    revert h
    decide

/-- A reader as it is assumed loses the word behind a dollar sign. -/
theorem dollar_lost :
    Documented asciiName ['$'] (quotedReader asciiName ['$']) ∧
      readFile (quotedReader asciiName ['$']) (fun _ => none)
        (savedContent [(['P', 'W'], ['p', 'a', '$', 'w', 'o', 'r', 'd', '!'])]) =
          some [(['P', 'W'], ['p', 'a', '!'])] := by
  have doc := quotedReader_documented asciiName ['$'] asciiName_plain
  refine ⟨doc, ?_⟩
  rw [readFile, read_saved _ _ _ _ doc [] _ (by decide)]
  decide

/-- Quotes, line breaks and what looks like another definition come back. -/
theorem injection_kept :
    readFile (quotedReader asciiName ['$']) (fun _ => none)
      (savedContent [(['U'], ['a', '"', '\n', 'I', '=', '"', 'b']), (['V'], ['\\'])]) =
        some [(['U'], ['a', '"', '\n', 'I', '=', '"', 'b']), (['V'], ['\\'])] := by
  refine (saved_iff (quotedReader asciiName ['$']) (fun _ => none) asciiName ['$']
    (quotedReader_documented asciiName ['$'] asciiName_plain)
    [(['U'], ['a', '"', '\n', 'I', '=', '"', 'b']), (['V'], ['\\'])] (by decide)).mpr ?_
  intro pre k v post hsplit
  have hin : (k, v) ∈ [(['U'], ['a', '"', '\n', 'I', '=', '"', 'b']), (['V'], ['\\'])] :=
    hsplit ▸ List.mem_append_right pre List.mem_cons_self
  apply expand_plain
  simp only [List.mem_cons, List.not_mem_nil, or_false, Prod.mk.injEq] at hin
  rcases hin with ⟨-, rfl⟩ | ⟨-, rfl⟩ <;> decide

end IronClaw.EnvFile
