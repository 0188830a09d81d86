import IronClaw.Lib.Text
import IronClaw.Lib.Words

/-!
# Searching and replacing in text

Positions are byte offsets and slices fail off a character boundary, so that a
program that indexes one text with offsets found in another can be followed
step by step. Replacement goes from left to right and does not look at what it
has written.
-/

set_option autoImplicit false

namespace Lib.Search
open Lib.Text Lib.Words

def find (needle : List Char) : List Char → Option ℕ
  | [] => if needle = [] then some 0 else none
  | c::cs =>
    if needle.isPrefixOf (c::cs) then some 0
    else (find needle cs).map (fun n => c.utf8Size+n)

def sliceFrom (cs : List Char) (a : ℕ) : Option (List Char) :=
  if isBoundary cs a then some (cs.drop (sliceTo cs a).length) else none

def slice (cs : List Char) (a b : ℕ) : Option (List Char) :=
  if a ≤ b ∧ isBoundary cs a ∧ isBoundary cs b then
    some ((sliceTo cs b).drop (sliceTo cs a).length)
  else none

def beforeLast (needle : List Char) : List Char → Option (List Char)
  | [] => if needle = [] then some [] else none
  | c::cs =>
    match beforeLast needle cs with
    | some before => some (c::before)
    | none => if needle.isPrefixOf (c::cs) then some [] else none

def splitFirst (needle : List Char) : List Char → Option (List Char × List Char)
  | [] => if needle = [] then some ([], []) else none
  | c::cs =>
    if needle.isPrefixOf (c::cs) then some ([], (c::cs).drop needle.length)
    else (splitFirst needle cs).map (fun s => (c::s.1, s.2))

def splitLast (needle : List Char) : List Char → Option (List Char × List Char)
  | [] => if needle = [] then some ([], []) else none
  | c::cs =>
    match splitLast needle cs with
    | some s => some (c::s.1, s.2)
    | none =>
      if needle.isPrefixOf (c::cs) then some ([], (c::cs).drop needle.length) else none

def replaceFrom (pat new : List Char) : ℕ → List Char → List Char
  | _, [] => []
  | skip+1, _::cs => replaceFrom pat new skip cs
  | 0, c::cs =>
    if pat.isPrefixOf (c::cs) then new++replaceFrom pat new (pat.length-1) cs
    else c::replaceFrom pat new 0 cs

def replace (pat new cs : List Char) : List Char := replaceFrom pat new 0 cs

variable (x : Char) (needle hay : List Char)

/-- A first occurrence splits the text, and nothing occurs before it. -/
theorem find_some (n : ℕ) (h : find needle hay = some n) :
    ∃ p q, hay = p++needle++q ∧ n = byteLen p ∧
      ∀ a b, hay = a++b → a.length < p.length → ¬ needle <+: b := by
  induction hay generalizing n with
  | nil =>
    by_cases hn : needle = []
    · rw [find, if_pos hn] at h
      exact ⟨[], [], by simp [hn], by rw [← Option.some.inj h]; rfl, by simp⟩
    · rw [find, if_neg hn] at h
      cases h
  | cons c cs ih =>
    by_cases hpre : needle.isPrefixOf (c::cs) = true
    · rw [find, if_pos hpre] at h
      obtain ⟨q, hq⟩ := List.isPrefixOf_iff_prefix.mp hpre
      exact ⟨[], q, by simp [hq], by rw [← Option.some.inj h]; rfl, by simp⟩
    · rw [find, if_neg hpre] at h
      obtain ⟨m, hm, hadd⟩ := Option.map_eq_some_iff.mp h
      obtain ⟨p, q, hsplit, hlen, hfirst⟩ := ih m hm
      refine ⟨c::p, q, by rw [hsplit]; rfl, by rw [← hadd, hlen]; rfl, ?_⟩
      intro a b hab hshort hb
      cases a with
      | nil =>
        rw [List.nil_append] at hab
        rw [← hab] at hb
        exact hpre (List.isPrefixOf_iff_prefix.mpr hb)
      | cons d a =>
        rw [List.cons_append, List.cons.injEq] at hab
        rw [List.length_cons, List.length_cons] at hshort
        exact hfirst a b hab.2 (by omega) hb

theorem find_none (h : find needle hay = none) (a b : List Char) (hab : hay = a++b) :
    ¬ needle <+: b := by
  induction hay generalizing a with
  | nil =>
    by_cases hn : needle = []
    · rw [find, if_pos hn] at h
      cases h
    · have hb : b = [] := (List.append_eq_nil_iff.mp hab.symm).2
      rw [hb, List.prefix_nil]
      exact hn
  | cons c cs ih =>
    by_cases hpre : needle.isPrefixOf (c::cs) = true
    · rw [find, if_pos hpre] at h
      cases h
    · rw [find, if_neg hpre, Option.map_eq_none_iff] at h
      cases a with
      | nil =>
        rw [List.nil_append] at hab
        rw [← hab]
        exact fun hb => hpre (List.isPrefixOf_iff_prefix.mpr hb)
      | cons d a =>
        rw [List.cons_append, List.cons.injEq] at hab
        exact ih h a hab.2

theorem sliceFrom_append (p q : List Char) : sliceFrom (p++q) (byteLen p) = some q := by
  rw [sliceFrom, if_pos (boundary_append p q), sliceTo_append, List.drop_left]

theorem slice_append (p q r : List Char) :
    slice (p++q++r) (byteLen p) (byteLen p+byteLen q) = some q := by
  have hq := boundary_append (p++q) r
  have hp := boundary_append p (q++r)
  have hsq := sliceTo_append (p++q) r
  have hsp := sliceTo_append p (q++r)
  rw [byteLen_append] at hq hsq
  rw [← List.append_assoc] at hp hsp
  rw [slice, if_pos ⟨Nat.le_add_right _ _, hp, hq⟩, hsq, hsp, List.drop_left]

theorem beforeLast_short (h : hay.length < needle.length) :
    beforeLast needle hay = none := by
  induction hay with
  | nil =>
    rw [beforeLast, if_neg]
    intro hn
    simp [hn] at h
  | cons c cs ih =>
    have hcs := ih (by simp only [List.length_cons] at h; omega)
    rw [beforeLast, hcs]
    have hpre : needle.isPrefixOf (c::cs) = false := by
      rw [Bool.eq_false_iff]
      intro hpre
      have hle := (List.isPrefixOf_iff_prefix.mp hpre).length_le
      omega
    simp only [hpre, Bool.false_eq_true, if_false]

theorem beforeLast_end (needle p : List Char) (hn : needle ≠ []) :
    beforeLast needle (p++needle) = some p := by
  induction p with
  | nil =>
    cases needle with
    | nil => exact absurd rfl hn
    | cons c cs =>
      have hshort := beforeLast_short (c::cs) cs (by simp)
      have hpre : (c::cs).isPrefixOf (c::cs) = true :=
        List.isPrefixOf_iff_prefix.mpr (List.prefix_refl _)
      simp only [List.nil_append, beforeLast, hshort, hpre, if_true]
  | cons c p ih => simp only [List.cons_append, beforeLast, ih]

/-- The first occurrence is found where nothing occurs before it. -/
theorem splitFirst_at (needle p q : List Char) (hn : needle ≠ [])
    (h : ∀ a b, p++needle++q = a++b → a.length < p.length → ¬ needle <+: b) :
    splitFirst needle (p++needle++q) = some (p, q) := by
  induction p with
  | nil =>
    cases needle with
    | nil => exact absurd rfl hn
    | cons c cs =>
      have hpre : (c::cs).isPrefixOf (c::(cs++q)) = true :=
        List.isPrefixOf_iff_prefix.mpr ⟨q, rfl⟩
      have hdrop : (c::(cs++q)).drop (c::cs).length = q := by simp
      simp only [List.nil_append, List.cons_append, splitFirst, hpre, if_true, hdrop]
  | cons d p ih =>
    have hpre : ¬ needle.isPrefixOf (d::(p++needle++q)) = true := by
      intro hpre
      exact h [] _ rfl (by simp) (List.isPrefixOf_iff_prefix.mp hpre)
    have hrest := ih (fun a b hab hlen => h (d::a) b (by simp [← hab]) (by simpa using hlen))
    have happend : d::p++needle++q = d::(p++needle++q) := by simp
    rw [happend, splitFirst, if_neg hpre, hrest]
    rfl

theorem splitFirst_none (needle cs : List Char) (hn : needle ≠ []) (h : ¬ needle <:+: cs) :
    splitFirst needle cs = none := by
  induction cs with
  | nil => rw [splitFirst, if_neg hn]
  | cons c cs ih =>
    have hpre : ¬ needle.isPrefixOf (c::cs) = true :=
      fun hpre => h (List.isPrefixOf_iff_prefix.mp hpre).isInfix
    rw [splitFirst, if_neg hpre, ih (fun hin => h (hin.trans (List.suffix_cons c cs).isInfix))]
    rfl

theorem splitFirst_parts (needle cs p q : List Char) (h : splitFirst needle cs = some (p, q)) :
    cs = p++needle++q := by
  induction cs generalizing p with
  | nil =>
    rw [splitFirst] at h
    split at h
    · next hn =>
      cases h
      rw [hn]
      rfl
    · cases h
  | cons c cs ih =>
    rw [splitFirst] at h
    split at h
    · next hpre =>
      obtain ⟨r, hr⟩ := List.isPrefixOf_iff_prefix.mp hpre
      cases h
      rw [← hr, List.drop_left, List.nil_append]
    · obtain ⟨⟨p', q'⟩, hrest, hpq⟩ := Option.map_eq_some_iff.mp h
      cases hpq
      rw [ih p' hrest]
      rfl

/-- Nothing occurs before the place that is found. -/
theorem splitFirst_first (needle cs p q : List Char) (h : splitFirst needle cs = some (p, q))
    (a b : List Char) (hab : cs = a++b) (hlen : a.length < p.length) : ¬ needle <+: b := by
  induction cs generalizing p a with
  | nil =>
    rw [splitFirst] at h
    split at h
    · cases h
      exact absurd hlen (Nat.not_lt_zero _)
    · cases h
  | cons c cs ih =>
    rw [splitFirst] at h
    split at h
    · cases h
      exact absurd hlen (Nat.not_lt_zero _)
    · next hpre =>
      obtain ⟨⟨p', q'⟩, hrest, hpq⟩ := Option.map_eq_some_iff.mp h
      cases hpq
      cases a with
      | nil =>
        rw [← show c::cs = b from hab, ← List.isPrefixOf_iff_prefix]
        exact hpre
      | cons d a =>
        exact ih p' hrest a (List.cons.inj hab).2 (Nat.lt_of_succ_lt_succ hlen)

theorem splitFirst_eq_none (needle cs : List Char) (hn : needle ≠ []) :
    splitFirst needle cs = none ↔ ¬ needle <:+: cs := by
  refine ⟨fun h => ?_, splitFirst_none needle cs hn⟩
  induction cs with
  | nil => exact fun hin => hn (List.infix_nil.mp hin)
  | cons c cs ih =>
    rw [splitFirst] at h
    split at h
    · cases h
    · next hpre =>
      rw [List.infix_cons_iff, not_or, ← List.isPrefixOf_iff_prefix]
      exact ⟨hpre, ih (Option.map_eq_none_iff.mp h)⟩

theorem splitFirst_over (needle p cs : List Char)
    (h : ∀ a b, p = a++b → b ≠ [] → ¬ needle <+: b++cs) :
    splitFirst needle (p++cs) = (splitFirst needle cs).map (fun s => (p++s.1, s.2)) := by
  induction p with
  | nil => simp
  | cons c p ih =>
    have hpre : ¬ needle.isPrefixOf (c::(p++cs)) = true := by
      rw [List.isPrefixOf_iff_prefix]
      exact h [] (c::p) rfl (List.cons_ne_nil c p)
    have hrest := ih (fun a b hab hb => h (c::a) b (by rw [hab]; rfl) hb)
    rw [List.cons_append, splitFirst, if_neg hpre, hrest, Option.map_map]
    rfl

/-- A needle whose first character stands only there is first found where it is
not inside the text before: two occurrences do not overlap. -/
theorem splitFirst_headed (t cs p q : List Char) (hx : x ∉ t) :
    splitFirst (x::t) cs = some (p, q) ↔ cs = p++(x::t)++q ∧ ¬ (x::t) <:+: p := by
  constructor
  · intro h
    have hcs := splitFirst_parts _ _ _ _ h
    refine ⟨hcs, ?_⟩
    rintro ⟨a, b, hp⟩
    refine splitFirst_first _ _ _ _ h a ((x::t)++(b++(x::t)++q)) ?_ ?_ (List.prefix_append _ _)
    · rw [hcs, ← hp]
      simp
    · rw [← hp, List.append_assoc, List.length_append, List.length_append, List.length_cons]
      omega
  · rintro ⟨hcs, hp⟩
    rw [hcs]
    refine splitFirst_at _ p q (by simp) (fun a b hab hlen hpre => hp ?_)
    have hb : b = p.drop a.length++((x::t)++q) := by
      have hdrop := congrArg (List.drop a.length) hab
      rw [List.drop_left, List.append_assoc, List.drop_append_of_le_length (by omega)] at hdrop
      exact hdrop.symm
    have hshort : (x::t).length ≤ (p.drop a.length).length := by
      -- else the first character of the one at `p` is inside the earlier one
      by_contra hlong
      have hin : p.drop a.length++[x] <+: x::t := by
        refine List.prefix_of_prefix_length_le ⟨t++q, by simp [hb]⟩ hpre ?_
        rw [List.length_append, List.length_singleton]
        omega
      obtain ⟨y, ys, hy⟩ := List.exists_cons_of_length_pos (l := p.drop a.length) (by
        rw [List.length_drop]
        omega)
      rw [hy, List.cons_append, List.cons_prefix_cons] at hin
      exact hx (hin.2.subset (by simp))
    rw [hb] at hpre
    exact (List.prefix_of_prefix_length_le hpre (List.prefix_append _ _) hshort).isInfix.trans
      (List.drop_suffix _ _).isInfix

/-- A needle without a character is not found across it. -/
theorem splitFirst_after (needle p q : List Char) (x : Char) (hn : needle ≠ [])
    (hx : x ∉ needle) (hp : ¬ needle <:+: p) :
    splitFirst needle (p++x::(needle++q)) = some (p++[x], q) := by
  have happend : p++x::(needle++q) = (p++[x])++needle++q := by simp
  rw [happend]
  apply splitFirst_at needle (p++[x]) q hn
  intro a b hab hlen hpre
  have hle : a.length ≤ p.length := by simpa [Nat.lt_succ_iff] using hlen
  have hb : b = p.drop a.length++x::(needle++q) := by
    have hdrop := congrArg (List.drop a.length) hab
    rw [List.drop_left, ← happend, List.drop_append_of_le_length hle] at hdrop
    exact hdrop.symm
  by_cases hshort : needle.length ≤ (p.drop a.length).length
  · rw [hb] at hpre
    have hin := List.prefix_of_prefix_length_le hpre (List.prefix_append _ _) hshort
    exact hp (hin.isInfix.trans (List.drop_suffix _ _).isInfix)
  · have hlong : (p.drop a.length++[x]).length ≤ needle.length := by
      rw [List.length_append, List.length_singleton]
      omega
    have hxpre : p.drop a.length++[x] <+: b := ⟨needle++q, by simp [hb]⟩
    have hin := List.prefix_of_prefix_length_le hxpre hpre hlong
    exact hx (hin.subset (by simp))

/-- A needle that ends in a character is found where that one comes first. -/
theorem splitFirst_ending (u p q : List Char) (x : Char) (hp : x ∉ p) (hu : x ∉ u) :
    splitFirst (u++[x]) (p++(u++[x])++q) = some (p, q) := by
  apply splitFirst_at (u++[x]) p q (by simp)
  intro a b hab hlen hpre
  obtain ⟨r, hr⟩ := hpre
  have hsame : (p++u)++x::q = (a++u)++x::r := by
    have hleft : p++(u++[x])++q = (p++u)++x::q := by simp
    rw [← hleft, hab, ← hr]
    simp
  have hlt : (a++u).length < (p++u).length := by
    rw [List.length_append, List.length_append]
    omega
  have hat : ((a++u)++x::r)[(a++u).length]? = some x := by simp
  rw [← hsame, List.getElem?_append_left hlt] at hat
  rcases List.mem_append.mp (List.mem_of_getElem? hat) with hin | hin
  · exact hp hin
  · exact hu hin

theorem splitLast_end (needle p : List Char) (hn : needle ≠ []) :
    splitLast needle (p++needle) = some (p, []) := by
  have hnone : ∀ hay : List Char, hay.length < needle.length → splitLast needle hay = none := by
    intro hay hlen
    induction hay with
    | nil => rw [splitLast, if_neg hn]
    | cons c cs ih =>
      have hpre : ¬ needle.isPrefixOf (c::cs) = true := by
        intro hpre
        have hle := (List.isPrefixOf_iff_prefix.mp hpre).length_le
        omega
      simp only [splitLast, ih (by simp only [List.length_cons] at hlen; omega), if_neg hpre]
  induction p with
  | nil =>
    cases needle with
    | nil => exact absurd rfl hn
    | cons c cs =>
      have hpre : (c::cs).isPrefixOf (c::cs) = true :=
        List.isPrefixOf_iff_prefix.mpr (List.prefix_refl _)
      simp only [List.nil_append, splitLast, hnone cs (by simp), hpre, if_true, List.drop_length]
  | cons c p ih => simp only [List.cons_append, splitLast, ih]

theorem replaceFrom_skip (pat new : List Char) (skip : ℕ) (cs : List Char) :
    replaceFrom pat new skip cs = replaceFrom pat new 0 (cs.drop skip) := by
  induction skip generalizing cs with
  | zero => rfl
  | succ skip ih =>
    cases cs with
    | nil => rfl
    | cons c cs => exact ih cs

theorem replace_over (pat new p cs : List Char) (h : x ∉ p) :
    replace (x::pat) new (p++cs) = p++replace (x::pat) new cs := by
  induction p with
  | nil => rfl
  | cons c p ih =>
    have hne : x ≠ c := fun heq => h (heq ▸ List.mem_cons_self)
    have hpre : (x::pat).isPrefixOf (c::(p++cs)) = false := by
      simp [List.isPrefixOf, hne]
    rw [List.cons_append, List.cons_append, replace, replaceFrom, hpre, if_neg Bool.false_ne_true]
    exact congrArg (c::·) (ih (fun hmem => h (List.mem_cons_of_mem c hmem)))

theorem replace_absent (pat new cs : List Char) (h : x ∉ cs) :
    replace (x::pat) new cs = cs := by
  have hover := replace_over x pat new cs [] h
  rwa [List.append_nil, show replace (x::pat) new [] = [] from rfl, List.append_nil] at hover

theorem replace_single (new cs : List Char) :
    replace [x] new cs = cs.flatMap (fun c => if c = x then new else [c]) := by
  induction cs with
  | nil => rfl
  | cons c cs ih =>
    rw [List.flatMap_cons, ← ih, replace, replaceFrom]
    by_cases hc : c = x
    · rw [if_pos (by simp [List.isPrefixOf, hc]), if_pos hc]
      rfl
    · rw [if_neg (by simp [List.isPrefixOf, Ne.symm hc]), if_neg hc]
      rfl

theorem replace_gone (new cs : List Char) (h : x ∉ new) :
    x ∉ replace [x] new cs := by
  induction cs with
  | nil => exact List.not_mem_nil
  | cons c cs ih =>
    unfold replace replaceFrom
    by_cases heq : x = c
    · rw [if_pos (by simp [List.isPrefixOf, heq])]
      intro hmem
      rcases List.mem_append.mp hmem with hnew | hrest
      · exact h hnew
      · exact ih hrest
    · rw [if_neg (by simp [List.isPrefixOf, heq])]
      intro hmem
      rcases List.mem_cons.mp hmem with hhead | hrest
      · exact heq hhead
      · exact ih hrest

/-- Replacing a text by the same one with a character put in only inserts. -/
theorem replace_inserted (e v : Char) (p q : List Char) (cs : List Char) :
    Inserted (fun c => c = e) (fun c => c = v) cs (replace (p++v::q) (p++e::v::q) cs) := by
  induction hn : cs.length using Nat.strong_induction_on generalizing cs with
  | _ n ih =>
    cases cs with
    | nil => exact .nil
    | cons c cs =>
      unfold replace replaceFrom
      by_cases hpre : (p++v::q).isPrefixOf (c::cs) = true
      · rw [if_pos hpre, replaceFrom_skip]
        obtain ⟨rest, hrest⟩ := List.isPrefixOf_iff_prefix.mp hpre
        have hlen : (p++v::q).length = (p++v::q).length-1+1 := by
          rw [List.length_append, List.length_cons]
          omega
        have hdrop : cs.drop ((p++v::q).length-1) = rest := by
          rw [← List.drop_succ_cons (a := c), ← hlen, ← hrest, List.drop_left]
        have hshort : rest.length < n := by
          have hsum := congrArg List.length hrest
          rw [List.length_append, List.length_append, List.length_cons, hn] at hsum
          omega
        rw [hdrop, ← hrest]
        apply inserted_append
        · exact inserted_append _ _ _ _ (inserted_refl p) (.put e v rfl rfl (inserted_refl q))
        · exact ih rest.length hshort rest rfl
      · rw [if_neg hpre]
        have hshort : cs.length < n := by
          rw [← hn, List.length_cons]
          omega
        exact .keep c (ih cs.length hshort cs rfl)

def behindFrom (pat : List Char) : ℕ → List Char → List (List Char)
  | _, [] => []
  | skip+1, _::cs => behindFrom pat skip cs
  | 0, c::cs =>
    if pat.isPrefixOf (c::cs) then
      (c::cs).drop pat.length::behindFrom pat (pat.length-1) cs
    else behindFrom pat 0 cs

def behind (pat cs : List Char) : List (List Char) := behindFrom pat 0 cs

theorem match_after (pat p cs u rest : List Char) (h : x ∉ p) (heq : p++cs = u++(x::pat)++rest) :
    ∃ v, u = p++v ∧ cs = v++(x::pat)++rest := by
  rw [List.append_assoc] at heq
  rcases List.append_eq_append_iff.mp heq with ⟨v, hu, hcs⟩ | ⟨v, hp, hrest⟩
  · exact ⟨v, hu, by rw [hcs, List.append_assoc]⟩
  · cases v with
    | nil =>
      rw [List.append_nil] at hp
      exact ⟨[], by rw [hp, List.append_nil], by simpa using hrest.symm⟩
    | cons c v =>
      rw [List.cons_append, List.cons_append, List.cons_eq_cons] at hrest
      exact absurd (by rw [hp, hrest.1]; simp) h

/-- A pattern whose first character comes only once is found wherever it is. -/
theorem mem_behindFrom (pat : List Char) (hx : x ∉ pat) (skip : ℕ) (cs rest : List Char)
    (hskip : x ∉ cs.take skip) :
    rest ∈ behindFrom (x::pat) skip cs ↔ ∃ u, cs = u++(x::pat)++rest := by
  induction cs generalizing skip with
  | nil => simp [behindFrom]
  | cons c cs ih =>
    cases skip with
    | succ skip =>
      rw [List.take_succ_cons, List.mem_cons, not_or] at hskip
      rw [behindFrom, ih skip hskip.2]
      constructor
      · rintro ⟨u, rfl⟩
        exact ⟨c::u, rfl⟩
      · rintro ⟨u, hu⟩
        obtain ⟨v, -, hv⟩ := match_after x pat [c] cs u rest (by simpa using hskip.1) hu
        exact ⟨v, hv⟩
    | zero =>
      rw [behindFrom]
      by_cases hpre : (x::pat).isPrefixOf (c::cs) = true
      · obtain ⟨tail, htail⟩ := List.isPrefixOf_iff_prefix.mp hpre
        obtain ⟨hc, hcs⟩ := List.cons_eq_cons.mp htail
        have htake : x ∉ cs.take ((x::pat).length-1) := by
          rw [List.length_cons, Nat.add_sub_cancel, ← hcs]
          simpa using hx
        have hdrop : (c::cs).drop (x::pat).length = tail := by
          rw [← htail, List.cons_append, ← List.cons_append, List.drop_left]
        rw [if_pos hpre, List.mem_cons, ih _ htake, hdrop]
        constructor
        · rintro (rfl | ⟨u, hu⟩)
          · exact ⟨[], htail.symm⟩
          · exact ⟨c::u, by rw [hu]; rfl⟩
        · rintro ⟨u, hu⟩
          cases u with
          | nil =>
            rw [List.nil_append, ← htail] at hu
            exact Or.inl (List.append_cancel_left hu).symm
          | cons d u =>
            rw [List.cons_append, List.cons_append, List.cons_eq_cons] at hu
            exact Or.inr ⟨u, hu.2⟩
      · rw [if_neg hpre, ih 0 (by simp)]
        constructor
        · rintro ⟨u, rfl⟩
          exact ⟨c::u, rfl⟩
        · rintro ⟨u, hu⟩
          cases u with
          | nil => exact absurd (List.isPrefixOf_iff_prefix.mpr ⟨rest, hu.symm⟩) hpre
          | cons d u =>
            rw [List.cons_append, List.cons_append, List.cons_eq_cons] at hu
            exact ⟨u, hu.2⟩

theorem mem_behind (pat cs rest : List Char) (hx : x ∉ pat) :
    rest ∈ behind (x::pat) cs ↔ ∃ u, cs = u++(x::pat)++rest :=
  mem_behindFrom x pat hx 0 cs rest (by simp)

end Lib.Search
