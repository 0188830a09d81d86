import IronClaw.Lib.Text
import IronClaw.Lib.Words

/-!
# Regular expressions over text

The fragment without anchors and without repeated groups: literals, repeated
character classes, alternatives and optional groups. An expression has a
printed form, a language, and a matcher that lists the lengths it can match in
order of preference. What the language allows next to what is read off the
expression, for every character.
-/

set_option autoImplicit false

namespace Lib.Regex
open Lib.Text Lib.Words

inductive Item where
  | range (lo hi : Char)
  | one (c : Char)
  deriving DecidableEq

inductive CharClass where
  | set (items : List Item)
  | space
  deriving DecidableEq

inductive Expr where
  | lit (text : List Char)
  | many (lo : ℕ) (hi : Option ℕ) (c : CharClass)
  | seq (r s : Expr)
  | alt (r s : Expr)
  | group (r : Expr)
  | opt (r : Expr)
  deriving DecidableEq

def Item.has (c : Char) : Item → Bool
  | .range lo hi => lo ≤ c && c ≤ hi
  | .one d => c = d

def CharClass.has (c : Char) : CharClass → Bool
  | .set items => items.any (Item.has c)
  | .space => isWhitespace c

def Item.print : Item → List Char
  | .range lo hi => [lo, '-', hi]
  | .one c => [c]

def CharClass.print : CharClass → List Char
  | .set items => '['::items.flatMap Item.print++[']']
  | .space => ['\\', 's']

def printCount (lo : ℕ) : Option ℕ → List Char
  | none => if lo = 0 then ['*'] else if lo = 1 then ['+']
      else '{'::(toString lo).toList++[',', '}']
  | some hi => if lo = 1 ∧ hi = 1 then [] else '{'::(toString lo).toList++['}']

def Expr.print : Expr → List Char
  | .lit text => text.flatMap (fun c => if c = '.' then ['\\', '.'] else [c])
  | .many lo hi c => c.print++printCount lo hi
  | .seq r s => r.print++s.print
  | .alt r s => r.print++['|']++s.print
  | .group r => ['(', '?', ':']++r.print++[')']
  | .opt r => ['(', '?', ':']++r.print++[')', '?']

def Lang : Expr → List Char → Prop
  | .lit text, s => s = text
  | .many lo hi c, s => lo ≤ s.length ∧ (∀ h, hi = some h → s.length ≤ h) ∧
      ∀ x ∈ s, c.has x = true
  | .seq r t, s => ∃ x y, s = x++y ∧ Lang r x ∧ Lang t y
  | .alt r t, s => Lang r s ∨ Lang t s
  | .group r, s => Lang r s
  | .opt r, s => s = [] ∨ Lang r s

def Occurs (r : Expr) (text : List Char) : Prop := ∃ s, s <:+: text ∧ Lang r s

def countdown (lo : ℕ) : ℕ → List ℕ
  | 0 => if lo = 0 then [0] else []
  | n+1 => if lo ≤ n+1 then (n+1)::countdown lo n else []

def ends : Expr → List Char → List ℕ
  | .lit text, s => if text.isPrefixOf s then [text.length] else []
  | .many lo hi c, s =>
    let run := (s.takeWhile c.has).length
    countdown lo (match hi with
      | some h => min run h
      | none => run)
  | .seq r t, s => (ends r s).flatMap (fun n => (ends t (s.drop n)).map (fun k => n+k))
  | .alt r t, s => ends r s++ends t s
  | .group r, s => ends r s
  | .opt r, s => ends r s++[0]

def findFrom (r : Expr) : ℕ → ℕ → List Char → List (ℕ × ℕ)
  | _, _, [] => []
  | pos, skip+1, _::cs => findFrom r (pos+1) skip cs
  | pos, 0, c::cs =>
    match ends r (c::cs) with
    | (n+1)::_ => (pos, n+1)::findFrom r (pos+1) n cs
    | _ => findFrom r (pos+1) 0 cs

def findIter (r : Expr) (text : List Char) : List (ℕ × ℕ) := findFrom r 0 0 text

def nullable : Expr → Bool
  | .lit text => text.isEmpty
  | .many lo _ _ => lo = 0
  | .seq r t => nullable r && nullable t
  | .alt r t => nullable r || nullable t
  | .group r => nullable r
  | .opt _ => true

def allows (c : Char) : Expr → Bool
  | .lit text => text.contains c
  | .many _ _ cls => cls.has c
  | .seq r t => allows c r || allows c t
  | .alt r t => allows c r || allows c t
  | .group r => allows c r
  | .opt r => allows c r

def canStart (c : Char) : Expr → Bool
  | .lit text => text.head? = some c
  | .many _ _ cls => cls.has c
  | .seq r t => canStart c r || (nullable r && canStart c t)
  | .alt r t => canStart c r || canStart c t
  | .group r => canStart c r
  | .opt r => canStart c r

def canEnd (c : Char) : Expr → Bool
  | .lit text => text.getLast? = some c
  | .many _ _ cls => cls.has c
  | .seq r t => canEnd c t || (nullable t && canEnd c r)
  | .alt r t => canEnd c r || canEnd c t
  | .group r => canEnd c r
  | .opt r => canEnd c r

variable (r : Expr) (p q : List Char)

theorem nullable_of (h : Lang r []) : nullable r = true := by
  induction r with
  | lit text => simp [nullable, show text = [] from h.symm]
  | many lo hi c =>
    have hlo : lo ≤ 0 := h.1
    exact decide_eq_true (by omega)
  | seq r t ihr iht =>
    obtain ⟨x, y, hxy, hx, hy⟩ := h
    obtain ⟨hx0, hy0⟩ := List.append_eq_nil_iff.mp hxy.symm
    rw [hx0] at hx
    rw [hy0] at hy
    simp [nullable, ihr hx, iht hy]
  | alt r t ihr iht =>
    rcases h with h | h
    · simp [nullable, ihr h]
    · simp [nullable, iht h]
  | group r ih => exact ih h
  | opt r ih => rfl

theorem allows_of (s : List Char) (c : Char) (h : Lang r s) (hc : c ∈ s) :
    allows c r = true := by
  induction r generalizing s with
  | lit text =>
    rw [show s = text from h] at hc
    simp [allows, hc]
  | many lo hi cls => exact h.2.2 c hc
  | seq r t ihr iht =>
    obtain ⟨x, y, hxy, hx, hy⟩ := h
    rw [hxy] at hc
    rcases List.mem_append.mp hc with hcx | hcy
    · simp [allows, ihr x hx hcx]
    · simp [allows, iht y hy hcy]
  | alt r t ihr iht =>
    rcases h with h | h
    · simp [allows, ihr s h hc]
    · simp [allows, iht s h hc]
  | group r ih => exact ih s h hc
  | opt r ih =>
    rcases h with h | h
    · rw [h] at hc
      cases hc
    · exact ih s h hc

theorem canStart_of (c : Char) (s : List Char) (h : Lang r (c::s)) :
    canStart c r = true := by
  induction r generalizing s with
  | lit text => simp [canStart, ← (show c::s = text from h)]
  | many lo hi cls => exact h.2.2 c List.mem_cons_self
  | seq r t ihr iht =>
    obtain ⟨x, y, hxy, hx, hy⟩ := h
    cases x with
    | nil =>
      rw [List.nil_append] at hxy
      rw [← hxy] at hy
      simp [canStart, nullable_of r hx, iht s hy]
    | cons d x =>
      rw [List.cons_append, List.cons.injEq] at hxy
      rw [← hxy.1] at hx
      simp [canStart, ihr x hx]
  | alt r t ihr iht =>
    rcases h with h | h
    · simp [canStart, ihr s h]
    · simp [canStart, iht s h]
  | group r ih => exact ih s h
  | opt r ih =>
    rcases h with h | h
    · cases h
    · exact ih s h

theorem canEnd_of (c : Char) (s : List Char) (h : Lang r (s++[c])) :
    canEnd c r = true := by
  induction r generalizing s with
  | lit text => simp [canEnd, ← (show s++[c] = text from h)]
  | many lo hi cls => exact h.2.2 c (by simp)
  | seq r t ihr iht =>
    obtain ⟨x, y, hxy, hx, hy⟩ := h
    rcases List.eq_nil_or_concat' y with hy0 | ⟨y', d, hyd⟩
    · rw [hy0, List.append_nil] at hxy
      rw [hy0] at hy
      rw [← hxy] at hx
      simp [canEnd, nullable_of t hy, ihr s hx]
    · rw [hyd, ← List.append_assoc] at hxy
      have hlast := List.append_inj_right' hxy rfl
      rw [hyd, ← hlast] at hy
      simp [canEnd, iht y' hy]
  | alt r t ihr iht =>
    rcases h with h | h
    · simp [canEnd, ihr s h]
    · simp [canEnd, iht s h]
  | group r ih => exact ih s h
  | opt r ih =>
    rcases h with h | h
    · simp at h
    · exact ih s h

theorem mem_countdown (lo n k : ℕ) : k ∈ countdown lo n ↔ lo ≤ k ∧ k ≤ n := by
  induction n with
  | zero =>
    rw [countdown]
    split
    · next h => simp [h]
    · next h =>
      simp only [List.not_mem_nil, false_iff]
      omega
  | succ n ih =>
    rw [countdown]
    split
    · next h =>
      rw [List.mem_cons, ih]
      omega
    · next h =>
      simp only [List.not_mem_nil, false_iff]
      omega

/-- The run of a class is the longest prefix inside it. -/
theorem take_run (p : Char → Bool) (s : List Char) (k : ℕ) :
    k ≤ (s.takeWhile p).length ↔ k ≤ s.length ∧ ∀ x ∈ s.take k, p x = true := by
  induction s generalizing k with
  | nil => simp
  | cons c s ih =>
    cases k with
    | zero => simp
    | succ k =>
      by_cases hc : p c = true
      · rw [List.takeWhile_cons_of_pos hc, List.length_cons, List.length_cons,
          Nat.add_le_add_iff_right, Nat.add_le_add_iff_right, ih k]
        simp [hc]
      · rw [List.takeWhile_cons_of_neg hc]
        simp [hc]

theorem mem_ends_lit (text s : List Char) (n : ℕ) :
    n ∈ ends (.lit text) s ↔ n ≤ s.length ∧ s.take n = text := by
  rw [ends]
  by_cases hpre : text.isPrefixOf s = true
  · have hbegins := List.isPrefixOf_iff_prefix.mp hpre
    have htake := List.prefix_iff_eq_take.mp hbegins
    have hlen := List.IsPrefix.length_le hbegins
    rw [if_pos hpre, List.mem_singleton]
    constructor
    · intro h
      rw [h]
      exact ⟨hlen, htake.symm⟩
    · rintro ⟨hn, htext⟩
      rw [← htext, List.length_take]
      omega
  · rw [if_neg hpre]
    constructor
    · intro h
      cases h
    · rintro ⟨_, htext⟩
      rw [List.isPrefixOf_iff_prefix, ← htext] at hpre
      exact absurd (List.take_prefix n s) hpre

theorem mem_ends_many (lo : ℕ) (hi : Option ℕ) (cls : CharClass) (s : List Char) (n : ℕ) :
    n ∈ ends (.many lo hi cls) s ↔ n ≤ s.length ∧ Lang (.many lo hi cls) (s.take n) := by
  have hrun := take_run (fun c => cls.has c) s n
  cases hi with
  | none =>
    simp only [ends, mem_countdown, Lang, List.length_take]
    constructor
    · rintro ⟨hlo, hle⟩
      obtain ⟨hn, hall⟩ := hrun.mp hle
      exact ⟨hn, by omega, by simp, hall⟩
    · rintro ⟨hn, hlo, _, hall⟩
      exact ⟨by omega, hrun.mpr ⟨hn, hall⟩⟩
  | some h =>
    simp only [ends, mem_countdown, Lang, List.length_take, Option.some.injEq, Nat.le_min]
    constructor
    · rintro ⟨hlo, hle, hh⟩
      obtain ⟨hn, hall⟩ := hrun.mp hle
      exact ⟨hn, by omega, fun h' e => by omega, hall⟩
    · rintro ⟨hn, hlo, hh, hall⟩
      have hbound := hh h rfl
      exact ⟨by omega, hrun.mpr ⟨hn, hall⟩, by omega⟩

theorem take_split (s x y : List Char) (n : ℕ) (hn : n ≤ s.length) (h : s.take n = x++y) :
    n = x.length+y.length ∧ s.take x.length = x ∧ (s.drop x.length).take y.length = y := by
  have hlen := congrArg List.length h
  rw [List.length_take, List.length_append] at hlen
  have hsum : n = x.length+y.length := by omega
  have htake := congrArg (List.take x.length) h
  have hdrop := congrArg (List.drop x.length) h
  rw [List.take_left, List.take_take, Nat.min_eq_left (by omega)] at htake
  rw [List.drop_left, List.drop_take, hsum, Nat.add_sub_cancel_left] at hdrop
  exact ⟨hsum, htake, hdrop⟩

/-- The matcher finds exactly the prefixes in the language. -/
theorem mem_ends (s : List Char) (n : ℕ) :
    n ∈ ends r s ↔ n ≤ s.length ∧ Lang r (s.take n) := by
  induction r generalizing s n with
  | lit text => exact mem_ends_lit text s n
  | many lo hi cls => exact mem_ends_many lo hi cls s n
  | seq r t ihr iht =>
    simp only [ends, List.mem_flatMap, List.mem_map, ihr, iht, Lang, List.length_drop]
    constructor
    · rintro ⟨i, ⟨hi, hx⟩, j, ⟨hj, hy⟩, hsum⟩
      rw [← hsum]
      exact ⟨by omega, s.take i, (s.drop i).take j, List.take_add, hx, hy⟩
    · rintro ⟨hn, x, y, hxy, hx, hy⟩
      obtain ⟨hsum, htake, hdrop⟩ := take_split s x y n hn hxy
      exact ⟨x.length, ⟨by omega, by rwa [htake]⟩, y.length, ⟨by omega, by rwa [hdrop]⟩,
        hsum.symm⟩
  | alt r t ihr iht =>
    simp only [ends, List.mem_append, ihr, iht, Lang]
    constructor
    · rintro (h | h)
      · exact ⟨h.1, Or.inl h.2⟩
      · exact ⟨h.1, Or.inr h.2⟩
    · rintro ⟨hn, h | h⟩
      · exact Or.inl ⟨hn, h⟩
      · exact Or.inr ⟨hn, h⟩
  | group r ih => exact ih s n
  | opt r ih =>
    simp only [ends, List.mem_append, List.mem_singleton, ih, Lang]
    constructor
    · rintro (h | h)
      · exact ⟨h.1, Or.inr h.2⟩
      · rw [h]
        exact ⟨Nat.zero_le _, Or.inl rfl⟩
    · rintro ⟨hn, h | h⟩
      · right
        rcases List.take_eq_nil_iff.mp h with h | h
        · exact h
        · rw [h] at hn
          exact Nat.le_zero.mp hn
      · exact Or.inl ⟨hn, h⟩

theorem ends_positive (s : List Char) (hr : nullable r = false) : 0 ∉ ends r s := by
  intro h
  have hnil := ((mem_ends r s 0).mp h).2
  rw [List.take_zero] at hnil
  rw [nullable_of r hnil] at hr
  cases hr

theorem findFrom_cons (hr : nullable r = false) (pos : ℕ) (c : Char) (cs : List Char) :
    findFrom r pos 0 (c::cs) ≠ [] ↔
      (∃ p, p <+: c::cs ∧ Lang r p) ∨ findFrom r (pos+1) 0 cs ≠ [] := by
  rw [findFrom]
  cases he : ends r (c::cs) with
  | nil =>
    simp only
    constructor
    · exact Or.inr
    · rintro (⟨p, hp, hlang⟩ | h)
      · have hmem := (mem_ends r (c::cs) p.length).mpr
          ⟨hp.length_le, by rwa [← List.prefix_iff_eq_take.mp hp]⟩
        rw [he] at hmem
        cases hmem
      · exact h
  | cons n rest =>
    have hn : n ∈ ends r (c::cs) := by rw [he]; exact List.mem_cons_self
    cases n with
    | zero => exact absurd hn (ends_positive r (c::cs) hr)
    | succ n =>
      simp only [ne_eq, List.cons_ne_nil, not_false_eq_true, true_iff]
      exact Or.inl ⟨(c::cs).take (n+1), List.take_prefix _ _, ((mem_ends r _ _).mp hn).2⟩

/-- The search reports something exactly when the expression occurs. -/
theorem findIter_ne_nil (text : List Char) (hr : nullable r = false) :
    findIter r text ≠ [] ↔ Occurs r text := by
  suffices h : ∀ pos, findFrom r pos 0 text ≠ [] ↔ Occurs r text from h 0
  induction text with
  | nil =>
    intro pos
    rw [findFrom]
    simp only [ne_eq, not_true_eq_false, false_iff]
    rintro ⟨s, hs, hlang⟩
    rw [List.infix_nil.mp hs] at hlang
    rw [nullable_of r hlang] at hr
    cases hr
  | cons c cs ih =>
    intro pos
    rw [findFrom_cons r hr, ih (pos+1)]
    constructor
    · rintro (⟨p, hp, hlang⟩ | ⟨s, hs, hlang⟩)
      · exact ⟨p, hp.isInfix, hlang⟩
      · exact ⟨s, List.infix_cons hs, hlang⟩
    · rintro ⟨s, hs, hlang⟩
      rcases List.infix_cons_iff.mp hs with hp | hin
      · exact Or.inl ⟨s, hp, hlang⟩
      · exact Or.inr ⟨s, hin, hlang⟩

theorem occurs_mono (h : p <:+: q) (hp : Occurs r p) :
    Occurs r q := by
  obtain ⟨s, hs, hlang⟩ := hp
  exact ⟨s, hs.trans h, hlang⟩

/-- A character that no match holds separates the text. -/
theorem occurs_beside (w : Char) (hw : allows w r = false) :
    Occurs r (p++w::q) ↔ Occurs r p ∨ Occurs r q := by
  constructor
  · rintro ⟨s, hs, hlang⟩
    have hout : w ∉ s := by
      intro hin
      rw [allows_of r s w hlang hin] at hw
      cases hw
    rcases infix_beside s p q w hs hout with h | h
    · exact Or.inl ⟨s, h, hlang⟩
    · exact Or.inr ⟨s, h, hlang⟩
  · rintro (h | h)
    · exact occurs_mono r p _ (List.prefix_append p _).isInfix h
    · exact occurs_mono r q _ ((List.suffix_cons w q).trans (List.suffix_append p _)).isInfix h

theorem occurs_cons (c : Char) (cs : List Char) (hr : nullable r = false)
    (hc : canStart c r = false) : Occurs r (c::cs) ↔ Occurs r cs := by
  constructor
  · rintro ⟨s, hs, hlang⟩
    rcases List.infix_cons_iff.mp hs with hpre | hin
    · cases s with
      | nil =>
        rw [nullable_of r hlang] at hr
        cases hr
      | cons d s =>
        rw [List.cons_prefix_cons] at hpre
        rw [hpre.1] at hlang
        rw [canStart_of r c s hlang] at hc
        cases hc
    · exact ⟨s, hin, hlang⟩
  · exact occurs_mono r cs (c::cs) (List.suffix_cons c cs).isInfix

theorem occurs_concat (c : Char) (cs : List Char) (hr : nullable r = false)
    (hc : canEnd c r = false) : Occurs r (cs++[c]) ↔ Occurs r cs := by
  constructor
  · rintro ⟨s, hs, hlang⟩
    rcases List.infix_concat_iff.mp hs with hsuf | hin
    · rcases List.eq_nil_or_concat' s with hnil | ⟨s', d, hsd⟩
      · rw [hnil] at hlang
        rw [nullable_of r hlang] at hr
        cases hr
      · rw [hsd] at hsuf hlang
        obtain ⟨t, ht⟩ := hsuf
        rw [← List.append_assoc] at ht
        have hd := List.append_inj_right' ht rfl
        rw [List.cons.injEq] at hd
        rw [hd.1] at hlang
        rw [canEnd_of r c s' hlang] at hc
        cases hc
    · exact ⟨s, hin, hlang⟩
  · exact occurs_mono r cs (cs++[c]) (List.prefix_append cs [c]).isInfix

theorem occurs_nil (hr : nullable r = false) : ¬ Occurs r [] := by
  rintro ⟨s, hs, hlang⟩
  rw [List.infix_nil.mp hs] at hlang
  rw [nullable_of r hlang] at hr
  cases hr

theorem occurs_skip (hr : nullable r = false) (hp : ∀ c ∈ p, canStart c r = false) :
    Occurs r (p++q) ↔ Occurs r q := by
  induction p with
  | nil => exact Iff.rfl
  | cons c p ih =>
    rw [List.cons_append, occurs_cons r c _ hr (hp c List.mem_cons_self)]
    exact ih (fun d hd => hp d (List.mem_cons_of_mem c hd))

/-- Characters that no match holds, put before such characters, change nothing. -/
theorem occurs_inserted (new old : Char → Prop) (hnew : ∀ e, new e → allows e r = false)
    (hold : ∀ v, old v → allows v r = false) (cs ds : List Char) (h : Inserted new old cs ds)
    (p : List Char) :
    Occurs r (p++ds) ↔ Occurs r (p++cs) := by
  induction h generalizing p with
  | nil => exact Iff.rfl
  | keep v _ ih =>
    have hstep := ih (p++[v])
    rwa [List.append_assoc, List.append_assoc] at hstep
  | @put e v cs ds he hv h ih =>
    have hstep := ih (p++[v])
    rw [List.append_assoc, List.append_assoc, List.singleton_append, List.singleton_append]
      at hstep
    have hfirst : Occurs r (v::ds) ↔ Occurs r [] ∨ Occurs r ds :=
      occurs_beside r [] ds v (hold v hv)
    rw [← hstep, occurs_beside r p (v::ds) e (hnew e he), occurs_beside r p ds v (hold v hv),
      hfirst]
    constructor
    · rintro (hp | hnil | hrest)
      · exact Or.inl hp
      · exact Or.inl (occurs_mono r [] p (List.nil_infix) hnil)
      · exact Or.inr hrest
    · rintro (hp | hrest)
      · exact Or.inl hp
      · exact Or.inr (Or.inr hrest)

/-- Where no match holds a separator, the words can be searched one by one. -/
theorem occurs_words (sep : Char → Bool) (hr : nullable r = false)
    (hsep : ∀ c, sep c = true → allows c r = false) (t : List Char) :
    Occurs r t ↔ ∃ w ∈ words sep t, Occurs r w := by
  constructor
  · rintro ⟨s, hs, hlang⟩
    have hword : IsWord sep s := by
      constructor
      · intro hnil
        rw [hnil] at hlang
        rw [nullable_of r hlang] at hr
        cases hr
      · intro c hc
        by_contra hsepc
        have hout := hsep c (by simpa using hsepc)
        rw [allows_of r s c hlang hc] at hout
        cases hout
    obtain ⟨w, hw, hin⟩ := infix_word s t hword hs
    exact ⟨w, hw, s, hin, hlang⟩
  · rintro ⟨w, hw, hoccurs⟩
    exact occurs_mono r w t (infix_of_mem_words t w hw) hoccurs

end Lib.Regex
