import IronClaw.Lib.Letters
import IronClaw.Lib.Search

/-!
# The delimiters around a tool's output

`SafetyLayer::wrap_for_llm` puts a tool's output between tags and breaks the
closing tags inside it with a zero-width space; `unwrap_tool_output` takes the
tags off and removes the zero-width spaces. The escaping loop reads offsets off
a lowercased copy and slices the original with them, a slice off a character
boundary being a panic.
-/

set_option autoImplicit false

namespace IronClaw.ToolOutput
open Lib.Text Lib.Search Lib.Letters

def attrChar (c : Char) : List Char :=
  if c = '&' then "&amp;".toList
  else if c = '"' then "&quot;".toList
  else if c = '<' then "&lt;".toList
  else if c = '>' then "&gt;".toList
  else [c]

def escapeXmlAttr (s : List Char) : List Char := s.flatMap attrChar

def zeroWidth : Char := '\u200B'

def word : List Char := ['t', 'o', 'o', 'l', '_', 'o', 'u', 't', 'p', 'u', 't']

def needle : List Char := '<':: '/'::word

def escapeLoop (s lower : List Char) : ℕ → ℕ → List Char → Option (List Char)
  | 0, _, _ => none
  | rounds+1, start, result =>
    match sliceFrom lower start with
    | none => none
    | some rest =>
      match find needle rest with
      | none => (sliceFrom s start).map (fun tail => result++tail)
      | some pos =>
        match slice s start (start+pos),
          slice s (start+pos+1) (start+pos+byteLen needle) with
        | some before, some inside => escapeLoop s lower rounds (start+pos+byteLen needle)
            (result++before++['<', zeroWidth]++inside)
        | _, _ => none

def escapeToolOutputClose (s : List Char) : Option (List Char) :=
  escapeLoop s (s.map Char.toLower) (s.length+1) 0 []

def unescapeToolOutputClose (s : List Char) : List Char :=
  replace ['<', zeroWidth, '/'] ['<', '/'] s

def opening (toolName : List Char) : List Char :=
  '<'::word++" name=\"".toList++escapeXmlAttr toolName++['"', '>', '\n']

def ending : List Char := needle++['>']

def wrapForLlm (toolName content : String) : Option String :=
  (escapeToolOutputClose content.toList).map (fun escaped =>
    String.ofList (opening toolName.toList++escaped++['\n']++ending))

def unwrapToolOutput (content : String) : Option String :=
  let trimmed := trimChars content.toList
  if ('<'::word).isPrefixOf trimmed then
    match (trimmed.drop ('<'::word).length).dropWhile (fun c => c ≠ '>') with
    | [] => none
    | _::inner => (beforeLast ending inner).map (fun body =>
        String.ofList (unescapeToolOutputClose (trimChars body)))
  else none

def opens (cs : List Char) : Bool := needle.isPrefixOf (cs.map Char.toLower)

def closeTags : List Char → List Char
  | [] => []
  | c::cs => if opens (c::cs) then c::zeroWidth::closeTags cs else c::closeTags cs

variable (cs : List Char) (c : Char) (toolName content : String)

theorem upper_sum (h : c.val ≤ 'Z'.val) :
    (c.val+('a'.val - 'A'.val)).toNat = c.val.toNat+32 := by
  have hlow : c.val.toNat ≤ 90 := h
  rw [UInt32.toNat_add, show ('a'.val - 'A'.val).toNat = 32 from rfl]
  omega

theorem toLower_utf8Size : c.toLower.utf8Size = c.utf8Size := by
  unfold Char.toLower
  split
  · next h =>
    have hlow : c.val.toNat ≤ 90 := h.2
    have hsum := upper_sum c h.2
    have hnew : (c.val+('a'.val - 'A'.val)).toNat ≤ 127 := by omega
    have hold : c.val.toNat ≤ 127 := by omega
    simp only [Char.utf8Size]
    rw [if_pos (UInt32.le_iff_toNat_le.mpr hnew), if_pos (UInt32.le_iff_toNat_le.mpr hold)]
  · rfl

theorem byteLen_lower : byteLen (cs.map Char.toLower) = byteLen cs := by
  induction cs with
  | nil => rfl
  | cons c cs ih => simp only [List.map_cons, byteLen, toLower_utf8Size, ih]

theorem opens_head (cs : List Char) (h : opens (c::cs) = true) : c = '<' := by
  have hpre := List.isPrefixOf_iff_prefix.mp h
  rw [List.map_cons, needle, List.cons_prefix_cons] at hpre
  exact toLower_apart c '<' (by decide) hpre.1.symm

theorem closeTags_append (a r : List Char)
    (h : ∀ p q, a = p++q → q ≠ [] → opens (q++r) = false) :
    closeTags (a++r) = a++closeTags r := by
  induction a with
  | nil => rfl
  | cons c a ih =>
    have hhead := h [] (c::a) rfl (by simp)
    have htail := ih (fun p q hpq hq => h (c::p) q (by rw [hpq]; rfl) hq)
    rw [List.cons_append] at hhead
    rw [List.cons_append, closeTags, hhead, htail]
    rfl

theorem closeTags_plain (a r : List Char) (h : '<' ∉ a) :
    closeTags (a++r) = a++closeTags r := by
  apply closeTags_append
  intro p q hpq hq
  cases q with
  | nil => exact absurd rfl hq
  | cons c q =>
    rw [Bool.eq_false_iff]
    intro hopens
    apply h
    rw [hpq, ← opens_head c (q++r) hopens]
    simp

/-- The rest of the tag holds no bracket. -/
theorem tag_split (m : List Char) (h : m.map Char.toLower = needle) :
    ∃ m', m = '<'::m' ∧ '<' ∉ m' ∧ byteLen m'+1 = byteLen needle := by
  have hlen := byteLen_lower m
  cases m with
  | nil => simp [needle] at h
  | cons c m' =>
    rw [needle, List.map_cons, List.cons.injEq] at h
    have hc := toLower_apart c '<' (by decide) h.1
    subst hc
    refine ⟨m', rfl, ?_, ?_⟩
    · intro hin
      have hlow := List.mem_map_of_mem (f := Char.toLower) hin
      rw [h.2] at hlow
      revert hlow
      decide
    · have htail := byteLen_lower m'
      rw [h.2] at htail
      rw [← htail]
      decide

theorem closeTags_tag (m r : List Char) (h : m.map Char.toLower = needle) :
    closeTags (m++r) = '<'::zeroWidth::(m.tail++closeTags r) := by
  obtain ⟨m', hm, hplain, _⟩ := tag_split m h
  have hopens : opens ('<'::(m'++r)) = true := by
    rw [opens, List.isPrefixOf_iff_prefix, ← List.cons_append, ← hm, List.map_append, h]
    exact List.prefix_append _ _
  rw [hm, List.cons_append, closeTags, hopens, closeTags_plain m' r hplain]
  rfl

theorem closeTags_no_tag (q : List Char) (h : find needle (q.map Char.toLower) = none) :
    closeTags q = q := by
  have hclosed : ∀ a b, q = a++b → b ≠ [] → opens (b++[]) = false := by
    intro a b hab _
    rw [List.append_nil, opens, Bool.eq_false_iff]
    intro hb
    exact find_none needle (q.map Char.toLower) h (a.map Char.toLower) (b.map Char.toLower)
      (by rw [hab, List.map_append]) (List.isPrefixOf_iff_prefix.mp hb)
  have happ := closeTags_append q [] hclosed
  rwa [closeTags, List.append_nil] at happ

/-- The search in the lowercased copy finds the first closing tag. -/
theorem first_tag (q : List Char) (pos : ℕ) (h : find needle (q.map Char.toLower) = some pos) :
    ∃ a m b, q = a++(m++b) ∧ m.map Char.toLower = needle ∧ pos = byteLen a ∧
      closeTags q = a++('<'::zeroWidth::(m.tail++closeTags b)) := by
  obtain ⟨a', b', hsplit, hpos, hfirst⟩ := find_some needle _ pos h
  obtain ⟨am, b, hq, ham, hb⟩ := List.map_eq_append_iff.mp hsplit
  obtain ⟨a, m, ham', ha, hm⟩ := List.map_eq_append_iff.mp ham
  rw [ham', List.append_assoc] at hq
  have hclosed : ∀ x y, a = x++y → y ≠ [] → opens (y++(m++b)) = false := by
    intro x y hxy hy
    rw [opens, Bool.eq_false_iff]
    intro hopens
    apply hfirst (x.map Char.toLower) ((y++(m++b)).map Char.toLower)
    · rw [hq, hxy]
      simp
    · rw [← ha, hxy]
      simp [List.length_pos_iff.mpr hy]
    · exact List.isPrefixOf_iff_prefix.mp hopens
  refine ⟨a, m, b, hq, hm, ?_, ?_⟩
  · rw [hpos, ← ha, byteLen_lower]
  · rw [hq, closeTags_append a (m++b) hclosed, closeTags_tag m b hm]

/-- The offsets of the copy are those of the text, and the loop slices it there. -/
theorem loop_eq (rounds : ℕ) (p q result : List Char) (h : q.length < rounds) :
    escapeLoop (p++q) ((p++q).map Char.toLower) rounds (byteLen p) result =
      some (result++closeTags q) := by
  induction rounds generalizing p q result with
  | zero => omega
  | succ rounds ih =>
    have hrest : sliceFrom ((p++q).map Char.toLower) (byteLen p) =
        some (q.map Char.toLower) := by
      rw [List.map_append, ← byteLen_lower p]
      exact sliceFrom_append _ _
    rw [escapeLoop]
    simp only [hrest]
    cases hfind : find needle (q.map Char.toLower) with
    | none => simp only [sliceFrom_append, Option.map_some, closeTags_no_tag q hfind]
    | some pos =>
      obtain ⟨a, m, b, hq, hm, hpos, hclose⟩ := first_tag q pos hfind
      obtain ⟨m', hm', _, hlen⟩ := tag_split m hm
      rw [hm', List.tail_cons] at hclose
      have hbefore : slice (p++q) (byteLen p) (byteLen p+pos) = some a := by
        rw [hpos, hq, ← List.append_assoc]
        exact slice_append p a (m++b)
      have hinside : slice (p++q) (byteLen p+pos+1) (byteLen p+pos+byteLen needle) = some m' := by
        have hs := slice_append (p++a++['<']) m' b
        rw [byteLen_append, byteLen_append, show byteLen ['<'] = 1 from rfl] at hs
        rw [hpos, ← hlen, hq, hm']
        rw [show byteLen p+byteLen a+(byteLen m'+1) = byteLen p+byteLen a+1+byteLen m' by omega]
        rw [← hs]
        simp
      have hmlen : byteLen m = byteLen needle := by rw [← byteLen_lower, hm]
      have hafter : byteLen p+pos+byteLen needle = byteLen (p++a++m) := by
        rw [byteLen_append, byteLen_append, hpos, hmlen]
      have hwhole : p++q = p++a++m++b := by
        rw [hq]
        simp
      have hshorter : b.length < rounds := by
        have hlength : q.length = a.length+(m.length+b.length) := by
          rw [hq, List.length_append, List.length_append]
        rw [hm', List.length_cons] at hlength
        omega
      have hnext := ih (p++a++m) b (result++a++['<', zeroWidth]++m') hshorter
      simp only [hbefore, hinside]
      rw [hafter, hwhole, hnext, hclose]
      simp

theorem escape_eq (s : List Char) : escapeToolOutputClose s = some (closeTags s) :=
  loop_eq (s.length+1) [] s [] (by omega)

def broken : List Char := ['<', zeroWidth, '/']

theorem unescape_broken :
    unescapeToolOutputClose ('<'::zeroWidth:: '/'::cs) =
      '<':: '/'::unescapeToolOutputClose cs := by
  simp [unescapeToolOutputClose, replace, replaceFrom]

theorem unescape_other (cs : List Char) (h : ¬ broken <+: c::cs) :
    unescapeToolOutputClose (c::cs) = c::unescapeToolOutputClose cs := by
  rw [unescapeToolOutputClose, replace, replaceFrom, if_neg]
  · rfl
  · exact fun hpre => h (List.isPrefixOf_iff_prefix.mp hpre)

theorem broken_prefix (h : broken <+: cs) :
    ∃ r, cs = '<'::zeroWidth:: '/'::r := by
  obtain ⟨r, hr⟩ := h
  exact ⟨r, hr.symm⟩

theorem unescape_head : (unescapeToolOutputClose cs).head? = cs.head? := by
  cases cs with
  | nil => rfl
  | cons c cs =>
    by_cases h : broken <+: c::cs
    · obtain ⟨r, hr⟩ := broken_prefix _ h
      rw [hr, unescape_broken]
      rfl
    · rw [unescape_other c cs h]
      rfl

theorem unescape_plain (cs : List Char) (h : c ≠ '<') :
    unescapeToolOutputClose (c::cs) = c::unescapeToolOutputClose cs := by
  apply unescape_other
  intro hb
  obtain ⟨r, hr⟩ := broken_prefix _ hb
  exact h (List.cons.inj hr).1

/-- A rewriting that touches brackets only and keeps the first character makes
no escape. -/
theorem broken_kept (f : List Char → List Char) (hhead : ∀ cs, (f cs).head? = cs.head?)
    (hplain : ∀ c cs, c ≠ '<' → f (c::cs) = c::f cs) (c : Char) (cs : List Char)
    (h : broken <+: c::f cs) : broken <+: c::cs := by
  obtain ⟨r, hr⟩ := broken_prefix _ h
  rw [List.cons.injEq] at hr
  have hfirst := hhead cs
  rw [hr.2] at hfirst
  cases cs with
  | nil => cases hfirst
  | cons d cs =>
    have hd : d = zeroWidth := (Option.some.inj hfirst).symm
    rw [hplain d cs (by rw [hd]; decide), List.cons.injEq] at hr
    have hnext := hhead cs
    rw [hr.2.2] at hnext
    cases cs with
    | nil => cases hnext
    | cons e cs =>
      have he : e = '/' := (Option.some.inj hnext).symm
      rw [hr.1, hd, he]
      exact ⟨cs, rfl⟩

/-- No escape is left after the removal. -/
theorem unescape_clean (n : ℕ) (cs : List Char) (h : cs.length ≤ n) :
    ¬ broken <:+: unescapeToolOutputClose cs := by
  induction n generalizing cs with
  | zero =>
    rw [List.length_eq_zero_iff.mp (Nat.le_zero.mp h)]
    decide
  | succ n ih =>
    cases cs with
    | nil => decide
    | cons c cs =>
      by_cases hb : broken <+: c::cs
      · obtain ⟨r, hr⟩ := broken_prefix _ hb
        have hrest := ih r (by rw [hr] at h; simp only [List.length_cons] at h; omega)
        rw [hr, unescape_broken, List.infix_cons_iff, List.infix_cons_iff]
        rintro (h1 | h2 | h3)
        · obtain ⟨r', hr'⟩ := broken_prefix _ h1
          simp only [List.cons.injEq, true_and] at hr'
          exact absurd hr'.1 (by decide)
        · obtain ⟨r', hr'⟩ := broken_prefix _ h2
          rw [List.cons.injEq] at hr'
          exact absurd hr'.1 (by decide)
        · exact hrest h3
      · rw [unescape_other c cs hb, List.infix_cons_iff]
        rintro (h1 | h2)
        · exact hb (broken_kept _ unescape_head unescape_plain c cs h1)
        · exact ih cs (by simp only [List.length_cons] at h; omega) h2

theorem opens_slash (cs : List Char) (h : opens (c::cs) = true) :
    ∃ r, cs = '/'::r := by
  have hpre := List.isPrefixOf_iff_prefix.mp h
  rw [List.map_cons, needle, List.cons_prefix_cons] at hpre
  cases cs with
  | nil =>
    have hle := hpre.2.length_le
    simp at hle
  | cons d cs =>
    rw [List.map_cons, List.cons_prefix_cons] at hpre
    exact ⟨cs, by rw [toLower_apart d '/' (by decide) hpre.2.1.symm]⟩

theorem closeTags_head : (closeTags cs).head? = cs.head? := by
  cases cs with
  | nil => rfl
  | cons c cs =>
    rw [closeTags]
    split <;> rfl

theorem closeTags_other (cs : List Char) (h : c ≠ '<') :
    closeTags (c::cs) = c::closeTags cs := by
  rw [closeTags, if_neg]
  exact fun hopens => h (opens_head c cs hopens)

/-- Removing the zero-width spaces undoes the escaping of a text that did not
hold the escape itself. -/
theorem unescape_closeTags (h : ¬ broken <:+: cs) :
    unescapeToolOutputClose (closeTags cs) = cs := by
  induction cs with
  | nil => rfl
  | cons c cs ih =>
    have htail := ih (fun hin => h (List.infix_cons_iff.mpr (Or.inr hin)))
    rw [closeTags]
    by_cases hopens : opens (c::cs) = true
    · obtain ⟨r, hr⟩ := opens_slash c cs hopens
      rw [if_pos hopens, opens_head c cs hopens, hr]
      rw [hr] at htail
      rw [closeTags_other '/' r (by decide)] at htail ⊢
      rw [unescape_plain '/' _ (by decide)] at htail
      rw [unescape_broken, htail]
    · rw [if_neg hopens]
      have hnot : ¬ broken <+: c::closeTags cs := fun hb =>
        h (broken_kept _ closeTags_head closeTags_other c cs hb).isInfix
      rw [unescape_other c _ hnot, htail]

theorem space_not_upper (h : 'A'.val ≤ c.val ∧ c.val ≤ 'Z'.val) :
    isWhitespace c = false := by
  have hlow : 65 ≤ c.toNat := h.1
  have hhigh : c.toNat ≤ 90 := h.2
  rw [Bool.eq_false_iff]
  intro hs
  have hrange := isWhitespace_range c hs
  omega

theorem space_toLower (h : isWhitespace c = true) : c.toLower = c := by
  unfold Char.toLower
  split
  · next hupper =>
    rw [space_not_upper c hupper] at h
    cases h
  · rfl

theorem closeTags_space (w : Char) (hw : isWhitespace w = true) :
    closeTags (cs++[w]) = closeTags cs++[w] := by
  induction cs with
  | nil =>
    rw [List.nil_append, closeTags_other w [] (by rintro rfl; revert hw; decide)]
    rfl
  | cons c cs ih =>
    have hopens : opens (c::cs++[w]) = opens (c::cs) := by
      have hlast : needle ≠ (c::cs).map Char.toLower++[w] := by
        intro h
        have hget := congrArg List.getLast? h
        rw [List.getLast?_concat] at hget
        have hw' : 't' = w := Option.some.inj hget
        rw [← hw'] at hw
        revert hw
        decide
      rw [Bool.eq_iff_iff]
      simp only [opens, List.isPrefixOf_iff_prefix, List.map_append, List.map_singleton,
        space_toLower w hw, List.prefix_concat_iff]
      exact or_iff_right hlast
    rw [List.cons_append, closeTags, ← List.cons_append, hopens, ih, closeTags]
    split <;> rfl

theorem closeTags_last : (closeTags (cs++[c])).getLast? = some c := by
  induction cs with
  | nil =>
    rw [List.nil_append, closeTags, closeTags, if_neg]
    · rfl
    · intro h
      obtain ⟨r, hr⟩ := opens_slash c [] h
      cases hr
  | cons d cs ih =>
    rw [List.cons_append, closeTags]
    split
    · rw [List.getLast?_cons, List.getLast?_cons, ih]
      rfl
    · rw [List.getLast?_cons, ih]
      rfl

theorem closeTags_dropWhile :
    (closeTags cs).dropWhile isWhitespace = closeTags (cs.dropWhile isWhitespace) := by
  induction cs with
  | nil => rfl
  | cons c cs ih =>
    by_cases hc : isWhitespace c = true
    · rw [closeTags_other c cs (by rintro rfl; revert hc; decide), List.dropWhile_cons_of_pos hc,
        List.dropWhile_cons_of_pos hc, ih]
    · rw [List.dropWhile_cons_of_neg hc]
      rw [closeTags]
      split <;> rw [List.dropWhile_cons_of_neg hc]

theorem closeTags_rdropWhile :
    (closeTags cs).rdropWhile isWhitespace = closeTags (cs.rdropWhile isWhitespace) := by
  induction cs using List.reverseRecOn with
  | nil => rfl
  | append_singleton cs c ih =>
    by_cases hc : isWhitespace c = true
    · rw [closeTags_space cs c hc, List.rdropWhile_concat_pos _ _ _ hc,
        List.rdropWhile_concat_pos _ _ _ hc, ih]
    · rw [List.rdropWhile_concat_neg _ _ _ hc, List.rdropWhile_eq_self_iff]
      intro hne
      have hlast := closeTags_last cs c
      rw [List.getLast?_eq_some_getLast hne, Option.some.injEq] at hlast
      rwa [hlast]

theorem closeTags_trim :
    trimChars (closeTags cs) = closeTags (trimChars cs) := by
  rw [trimChars, closeTags_dropWhile, closeTags_rdropWhile]
  rfl

theorem trim_lines : trimChars ('\n'::(cs++['\n'])) = trimChars cs := by
  have hnl : isWhitespace '\n' = true := by decide
  rw [trimChars, List.dropWhile_cons_of_pos hnl, List.dropWhile_append]
  by_cases hempty : (cs.dropWhile isWhitespace).isEmpty = true
  · rw [if_pos hempty, trimChars, List.isEmpty_iff.mp hempty, List.dropWhile_cons_of_pos hnl]
    rfl
  · rw [if_neg hempty, List.rdropWhile_concat_pos _ _ _ hnl]
    rfl

theorem trim_tags : trimChars ('<'::(cs++['>'])) = '<'::(cs++['>']) := by
  have hopen : ¬ isWhitespace '<' = true := by decide
  have hclose : ¬ isWhitespace '>' = true := by decide
  rw [trimChars, List.dropWhile_cons_of_neg hopen, ← List.cons_append,
    List.rdropWhile_concat_neg _ _ _ hclose]

/-- What starts with no whitespace survives the removal of leading whitespace. -/
theorem infix_dropWhile (p cs : List Char) (hc : isWhitespace c = false) (h : c::p <:+: cs) :
    c::p <:+: cs.dropWhile isWhitespace := by
  induction cs with
  | nil => exact h
  | cons d cs ih =>
    by_cases hd : isWhitespace d = true
    · rw [List.dropWhile_cons_of_pos hd]
      rcases List.infix_cons_iff.mp h with hpre | hin
      · rw [List.cons_prefix_cons] at hpre
        rw [hpre.1, hd] at hc
        cases hc
      · exact ih hin
    · rwa [List.dropWhile_cons_of_neg hd]

theorem broken_trim : broken <:+: trimChars cs ↔ broken <:+: cs := by
  constructor
  · intro h
    have hpre := (List.rdropWhile_prefix isWhitespace (cs.dropWhile isWhitespace)).isInfix
    exact (h.trans hpre).trans (List.dropWhile_suffix isWhitespace).isInfix
  · intro h
    have hfront := infix_dropWhile '<' [zeroWidth, '/'] cs (by decide) h
    have hback := infix_dropWhile '/' [zeroWidth, '<'] (cs.dropWhile isWhitespace).reverse
      (by decide) (List.reverse_infix.mpr hfront)
    apply List.reverse_infix.mp
    rw [trimChars, List.rdropWhile, List.reverse_reverse]
    exact hback

theorem attrChar_plain (c d : Char) (h : c = '<' ∨ c = '>' ∨ c = '"') : c ∉ attrChar d := by
  unfold attrChar
  by_cases h1 : d = '&'
  · rw [if_pos h1]
    rcases h with rfl | rfl | rfl <;> decide
  by_cases h2 : d = '"'
  · rw [if_neg h1, if_pos h2]
    rcases h with rfl | rfl | rfl <;> decide
  by_cases h3 : d = '<'
  · rw [if_neg h1, if_neg h2, if_pos h3]
    rcases h with rfl | rfl | rfl <;> decide
  by_cases h4 : d = '>'
  · rw [if_neg h1, if_neg h2, if_neg h3, if_pos h4]
    rcases h with rfl | rfl | rfl <;> decide
  · rw [if_neg h1, if_neg h2, if_neg h3, if_neg h4, List.mem_singleton]
    rintro rfl
    rcases h with h | h | h
    · exact h3 h
    · exact h4 h
    · exact h2 h

theorem attr_plain (name : List Char) (h : c = '<' ∨ c = '>' ∨ c = '"') :
    c ∉ escapeXmlAttr name := by
  intro hin
  obtain ⟨d, _, hd⟩ := List.mem_flatMap.mp hin
  exact attrChar_plain c d h hd

theorem wrap_eq :
    wrapForLlm toolName content = some (String.ofList
      (opening toolName.toList++closeTags content.toList++['\n']++ending)) := by
  rw [wrapForLlm, escape_eq]
  rfl

/-- Taking the tags off a wrapped text gives the trimmed text, without the
escapes that it had or that were put in. -/
theorem unwrap_wrap :
    (wrapForLlm toolName content).bind unwrapToolOutput = some (String.ofList
      (unescapeToolOutputClose (closeTags (trimChars content.toList)))) := by
  have hattr : ∀ c ∈ " name=\"".toList++escapeXmlAttr toolName.toList++['"'],
      decide (c ≠ '>') = true := by
    intro c hc
    rw [decide_eq_true_eq]
    rintro rfl
    rcases List.mem_append.mp hc with hc | hc
    · rcases List.mem_append.mp hc with hc | hc
      · revert hc
        decide
      · exact attr_plain '>' toolName.toList (by simp) hc
    · revert hc
      decide
  have htext : opening toolName.toList++closeTags content.toList++['\n']++ending =
      '<'::word++((" name=\"".toList++escapeXmlAttr toolName.toList++['"'])++
        '>'::(('\n'::(closeTags content.toList++['\n']))++ending)) := by
    simp [opening]
  have htrim : trimChars (opening toolName.toList++closeTags content.toList++['\n']++ending) =
      opening toolName.toList++closeTags content.toList++['\n']++ending := by
    have htags := trim_tags (word++" name=\"".toList++escapeXmlAttr toolName.toList++
      ['"', '>', '\n']++closeTags content.toList++['\n']++needle)
    simpa [opening, ending] using htags
  rw [wrap_eq, Option.bind_some, unwrapToolOutput, String.toList_ofList, htrim, htext]
  rw [if_pos (List.isPrefixOf_iff_prefix.mpr (List.prefix_append _ _)), List.drop_left,
    List.dropWhile_append_of_pos hattr, List.dropWhile_cons_of_neg (by decide)]
  simp only
  rw [beforeLast_end ending _ (by decide), Option.map_some, trim_lines, closeTags_trim]

/-- Unwrapping undoes wrapping exactly for the texts that do not hold the escape
sequence themselves. -/
theorem unwrap_wrap_iff :
    (wrapForLlm toolName content).bind unwrapToolOutput = some (trim content) ↔
      ¬ ['<', zeroWidth, '/'] <:+: content.toList := by
  rw [unwrap_wrap, trim, Option.some.injEq, String.ofList_inj]
  show _ ↔ ¬ broken <:+: content.toList
  rw [← broken_trim content.toList]
  constructor
  · intro h
    rw [← h]
    exact unescape_clean _ _ (le_refl _)
  · exact unescape_closeTags (trimChars content.toList)

theorem escaped_text_not_restored :
    (wrapForLlm "t" "a<\u200B/b").bind unwrapToolOutput ≠ some (trim "a<\u200B/b") := by
  decide

def blank (c : Char) : Bool := isWhitespace c || c = '\x00'

def closesHere : List Char → Bool
  | '<':: '/'::rest => word.isPrefixOf ((rest.dropWhile blank).map Char.toLower)
  | _ => false

def closings (text : List Char) : List (List Char) := text.tails.filter closesHere

def spacedHere : List Char → Bool
  | '<':: '/'::b::rest => blank b && closesHere ('<':: '/'::b::rest)
  | _ => false

def HasSpacedClose (text : List Char) : Prop := ∃ tail ∈ text.tails, spacedHere tail = true

theorem closings_cons (cs : List Char) :
    closings (c::cs) = if closesHere (c::cs) then (c::cs)::closings cs else closings cs := by
  show List.filter closesHere ((c::cs)::cs.tails) = _
  rw [List.filter_cons]
  rfl

theorem closesHere_bracket (cs : List Char) (h : c ≠ '<') :
    closesHere (c::cs) = false := by
  unfold closesHere
  split
  · next heq => exact absurd (List.cons.inj heq).1 h
  · rfl

theorem closesHere_slash (d : Char) (cs : List Char) (h : d ≠ '/') :
    closesHere ('<'::d::cs) = false := by
  unfold closesHere
  split
  · next heq => exact absurd (List.cons.inj (List.cons.inj heq).2).1 h
  · rfl

theorem not_spaced (h : closesHere cs = false) : spacedHere cs = false := by
  unfold spacedHere
  split
  · rw [h, Bool.and_false]
  · rfl

theorem closings_plain (a cs : List Char) (h : '<' ∉ a) : closings (a++cs) = closings cs := by
  induction a with
  | nil => rfl
  | cons c a ih =>
    rw [List.mem_cons, not_or] at h
    rw [List.cons_append, closings_cons, closesHere_bracket c _ (Ne.symm h.1)]
    exact ih h.2

/-- A word without brackets and line ends is found in the escaped text where it
is found in the text itself. -/
theorem word_prefix (w cs : List Char) (hopen : '<' ∉ w) (hline : '\n' ∉ w) :
    w <+: (closeTags cs++ '\n'::ending).map Char.toLower ↔ w <+: cs.map Char.toLower := by
  induction w generalizing cs with
  | nil => simp
  | cons v w ih =>
    rw [List.mem_cons, not_or] at hopen hline
    cases cs with
    | nil =>
      rw [closeTags, List.nil_append, List.map_cons, List.cons_prefix_cons, List.map_nil,
        List.prefix_nil]
      exact ⟨fun h => absurd h.1.symm hline.1, fun h => absurd h (by simp)⟩
    | cons c cs =>
      by_cases hopens : opens (c::cs) = true
      · have hc := opens_head c cs hopens
        rw [closeTags, if_pos hopens, hc]
        simp only [List.cons_append, List.map_cons, List.cons_prefix_cons,
          show Char.toLower '<' = '<' from rfl]
        exact ⟨fun h => absurd h.1.symm hopen.1, fun h => absurd h.1.symm hopen.1⟩
      · rw [closeTags, if_neg hopens]
        simp only [List.cons_append, List.map_cons, List.cons_prefix_cons]
        rw [ih cs hopen.2 hline.2]

theorem word_after_blanks :
    word <+: ((closeTags cs++ '\n'::ending).dropWhile blank).map Char.toLower ↔
      word <+: (cs.dropWhile blank).map Char.toLower := by
  induction cs with
  | nil => decide
  | cons c cs ih =>
    by_cases hc : blank c = true
    · rw [closeTags_other c cs (by rintro rfl; revert hc; decide), List.cons_append,
        List.dropWhile_cons_of_pos hc, List.dropWhile_cons_of_pos hc]
      exact ih
    · have hstop : (closeTags (c::cs)++ '\n'::ending).dropWhile blank =
          closeTags (c::cs)++ '\n'::ending := by
        rw [closeTags]
        split <;> rw [List.cons_append, List.dropWhile_cons_of_neg hc]
      rw [hstop, List.dropWhile_cons_of_neg hc]
      exact word_prefix word (c::cs) (by decide) (by decide)

/-- A closing tag that is not escaped has something blank in it. -/
theorem unescaped_spaced (h : opens ('<':: '/'::cs) = false) :
    word.isPrefixOf ((cs.dropWhile blank).map Char.toLower) = spacedHere ('<':: '/'::cs) := by
  cases cs with
  | nil => decide
  | cons b cs =>
    by_cases hb : blank b = true
    · rw [spacedHere, hb]
      rfl
    · rw [spacedHere, Bool.eq_false_iff.mpr hb, List.dropWhile_cons_of_neg hb, Bool.false_and,
        Bool.eq_false_iff]
      intro hpre
      rw [Bool.eq_false_iff] at h
      apply h
      rw [opens, List.isPrefixOf_iff_prefix]
      exact List.cons_prefix_cons.mpr ⟨rfl, List.cons_prefix_cons.mpr
        ⟨rfl, List.isPrefixOf_iff_prefix.mp hpre⟩⟩

/-- In the escaped text a closing tag is left where the text had one with
something blank in it. -/
theorem closesHere_kept (cs : List Char) (h : opens (c::cs) = false) :
    closesHere (c::(closeTags cs++ '\n'::ending)) = spacedHere (c::cs) := by
  by_cases hc : c = '<'
  · subst hc
    cases cs with
    | nil => decide
    | cons d cs =>
      by_cases hd : d = '/'
      · subst hd
        rw [← unescaped_spaced cs h, closeTags_other '/' cs (by decide), List.cons_append,
          closesHere, Bool.eq_iff_iff, List.isPrefixOf_iff_prefix, List.isPrefixOf_iff_prefix]
        exact word_after_blanks cs
      · rw [not_spaced _ (closesHere_slash d cs hd), closeTags]
        split
        · exact closesHere_slash d _ hd
        · exact closesHere_slash d _ hd
  · rw [not_spaced _ (closesHere_bracket c cs hc)]
    exact closesHere_bracket c _ hc

theorem spaced_cons (cs : List Char) :
    HasSpacedClose (c::cs) ↔ spacedHere (c::cs) = true ∨ HasSpacedClose cs := by
  show (∃ tail ∈ (c::cs)::cs.tails, spacedHere tail = true) ↔ _
  simp only [List.mem_cons, exists_eq_or_imp]
  rfl

theorem ending_closes : ending ∈ closings (closeTags cs++ '\n'::ending) := by
  apply List.mem_filter.mpr
  refine ⟨(List.mem_tails _ _).mpr ?_, by decide⟩
  exact (List.suffix_cons '\n' ending).trans (List.suffix_append _ _)

theorem spaced_not_opens (cs : List Char) (h : opens (c::cs) = true) :
    spacedHere (c::cs) = false := by
  obtain ⟨r, hr⟩ := opens_slash c cs h
  have hpre := List.isPrefixOf_iff_prefix.mp h
  rw [opens_head c cs h, hr]
  rw [hr, needle, List.map_cons, List.map_cons, List.cons_prefix_cons, List.cons_prefix_cons]
    at hpre
  cases r with
  | nil => rfl
  | cons b r =>
    rw [List.map_cons, word, List.cons_prefix_cons] at hpre
    have hb : blank b = false := by
      rw [Bool.eq_false_iff]
      intro hblank
      rcases Bool.or_eq_true_iff.mp hblank with hspace | hnul
      · have ht := hpre.2.2.1
        rw [space_toLower b hspace] at ht
        rw [← ht] at hspace
        revert hspace
        decide
      · rw [decide_eq_true_eq.mp hnul] at hpre
        exact absurd hpre.2.2.1 (by decide)
    rw [spacedHere, hb, Bool.false_and]

theorem closings_closeTags :
    closings (closeTags cs++ '\n'::ending) = [ending] ↔ ¬ HasSpacedClose cs := by
  induction cs with
  | nil =>
    constructor
    · rintro _ ⟨tail, htail, hspaced⟩
      rw [List.tails, List.mem_singleton] at htail
      rw [htail] at hspaced
      cases hspaced
    · intro _
      decide
  | cons c cs ih =>
    rw [spaced_cons]
    by_cases hopens : opens (c::cs) = true
    · have hbroken : closesHere (c::zeroWidth::(closeTags cs++ '\n'::ending)) = false := by
        rw [opens_head c cs hopens]
        rfl
      rw [closeTags, if_pos hopens, List.cons_append, List.cons_append, closings_cons, hbroken,
        closings_cons, closesHere_bracket zeroWidth _ (by decide), spaced_not_opens c cs hopens]
      simpa using ih
    · rw [closeTags, if_neg hopens, List.cons_append, closings_cons,
        closesHere_kept c cs (Bool.eq_false_iff.mpr hopens)]
      by_cases hspaced : spacedHere (c::cs) = true
      · rw [if_pos hspaced]
        constructor
        · intro heq
          have hin := ending_closes cs
          rw [(List.cons.inj heq).2] at hin
          cases hin
        · intro hnot
          exact absurd (Or.inl hspaced) hnot
      · rw [if_neg hspaced, ih]
        simp [hspaced]

/-- The wrapped text has its own closing tag only, exactly when the content has
no closing tag with whitespace or NUL after the slash. -/
theorem wrapped_closes_once_iff :
    (∃ text, wrapForLlm toolName content = some text ∧ closings text.toList = [ending]) ↔
      ¬ HasSpacedClose content.toList := by
  have hopening : closings (opening toolName.toList++closeTags content.toList++['\n']++ending) =
      closings (closeTags content.toList++ '\n'::ending) := by
    have hplain : '<' ∉ " name=\"".toList++escapeXmlAttr toolName.toList++['"', '>', '\n'] := by
      simp only [List.mem_append, not_or]
      exact ⟨⟨by decide, attr_plain '<' toolName.toList (Or.inl rfl)⟩, by decide⟩
    have hword : '<' ∉ word++(" name=\"".toList++escapeXmlAttr toolName.toList++
        ['"', '>', '\n']) := by
      rw [List.mem_append, not_or]
      exact ⟨by decide, hplain⟩
    have hfirst := closings_plain _ (closeTags content.toList++ '\n'::ending) hword
    rw [← hfirst, opening]
    simp only [List.cons_append, List.append_assoc, List.nil_append]
    rw [closings_cons, if_neg]
    rw [word, List.cons_append, closesHere]
    · simp
    · simp
  rw [← closings_closeTags, ← hopening, wrap_eq]
  simp

theorem spaced_tag_closes :
    ¬ ∃ text, wrapForLlm "t" "</ tool_output>" = some text ∧
      closings text.toList = [ending] := by
  rintro ⟨text, hwrap, hclose⟩
  have h : (wrapForLlm "t" "</ tool_output>").map (fun t => closings t.toList) =
      some [ending] := by
    rw [hwrap, Option.map_some, hclose]
  revert h
  decide

end IronClaw.ToolOutput
