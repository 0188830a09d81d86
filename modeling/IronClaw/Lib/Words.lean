import Mathlib.Data.List.DropRight
import Mathlib.Data.List.Infix

/-!
# Words between separators

The words of a sequence are its maximal runs without separators. A pattern of
words, the first given by its end and the last by its beginning, is met in a
sequence exactly where its words are met in a row; how wide the gaps are does
not matter. A second notion puts new elements before chosen ones: what is met
in a row stays so when the new elements cannot be part of it and the chosen
ones only at its beginning.
-/

set_option autoImplicit false

namespace Lib.Words

section

variable {α : Type*} (sep : α → Bool)

def words (cs : List α) : List (List α) := (cs.splitOnP sep).filter (fun w => !w.isEmpty)

def IsWord (w : List α) : Prop := w ≠ [] ∧ ∀ c ∈ w, sep c = false

def IsGap (g : List α) : Prop := g ≠ [] ∧ ∀ c ∈ g, sep c = true

variable {sep}

theorem isWord_of_all (w : List α) (hne : w.isEmpty = false)
    (hall : w.all (fun c => !sep c) = true) : IsWord sep w := by
  constructor
  · rwa [List.isEmpty_eq_false_iff] at hne
  · intro c hc
    simpa using List.all_eq_true.mp hall c hc

theorem words_nil : words sep [] = [] := by
  rw [words, List.splitOnP_nil]
  rfl

theorem words_append (p q : List α) (c : α) (hc : sep c = true) :
    words sep (p++c::q) = words sep p++words sep q := by
  rw [words, List.splitOnP_append_cons p q hc, List.filter_append]
  rfl

theorem words_sep (q : List α) (c : α) (hc : sep c = true) : words sep (c::q) = words sep q := by
  have h := words_append [] q c hc
  rwa [words_nil] at h

theorem words_word (w : List α) (h : IsWord sep w) : words sep w = [w] := by
  rw [words, List.splitOnP_eq_singleton h.2, List.filter_cons_of_pos]
  · rfl
  · simpa using h.1

theorem words_separators (g q : List α) (hg : ∀ c ∈ g, sep c = true) :
    words sep (g++q) = words sep q := by
  induction g with
  | nil => rfl
  | cons c g ih =>
    rw [List.cons_append, words_sep _ c (hg c List.mem_cons_self)]
    exact ih (fun d hd => hg d (List.mem_cons_of_mem c hd))

theorem words_dropWhile (cs : List α) : words sep (cs.dropWhile sep) = words sep cs := by
  have hblank := words_separators (cs.takeWhile sep) (cs.dropWhile sep)
    (fun c hc => List.mem_takeWhile_imp hc)
  rwa [List.takeWhile_append_dropWhile, eq_comm] at hblank

theorem words_rdropWhile (cs : List α) : words sep (cs.rdropWhile sep) = words sep cs := by
  induction cs using List.reverseRecOn with
  | nil => rfl
  | append_singleton cs c ih =>
    by_cases hc : sep c = true
    · rw [List.rdropWhile_concat_pos _ _ _ hc, ih, words_append cs [] c hc, words_nil,
        List.append_nil]
    · rw [List.rdropWhile_concat_neg _ _ _ hc]

theorem words_gap (p g q : List α) (hg : IsGap sep g) :
    words sep (p++g++q) = words sep p++words sep q := by
  obtain ⟨c, g', hcg⟩ := List.exists_cons_of_ne_nil hg.1
  have hall := hg.2
  rw [hcg] at hall ⊢
  rw [List.append_assoc, List.cons_append, words_append _ _ c (hall c List.mem_cons_self),
    words_separators g' q (fun d hd => hall d (List.mem_cons_of_mem c hd))]

theorem mem_takeWhile_not (cs : List α) (c : α) (h : c ∈ cs.takeWhile (fun c => !sep c)) :
    sep c = false := by
  simpa using List.mem_takeWhile_imp h

theorem dropWhile_sep (cs : List α) : cs.dropWhile (fun c => !sep c) = [] ∨
    ∃ c rest, cs.dropWhile (fun c => !sep c) = c::rest ∧ sep c = true := by
  induction cs with
  | nil => exact Or.inl rfl
  | cons c cs ih =>
    by_cases hc : sep c = true
    · right
      exact ⟨c, cs, by rw [List.dropWhile_cons_of_neg (by simp [hc])], hc⟩
    · rw [List.dropWhile_cons_of_pos (by simp [hc])]
      exact ih

/-- The first word and what is left after it. -/
theorem words_first (cs w : List α) (ws : List (List α)) (h : words sep cs = w::ws) :
    ∃ g rest, cs = g++w++rest ∧ (∀ c ∈ g, sep c = true) ∧ IsWord sep w ∧
      words sep rest = ws ∧ (rest = [] ∨ ∃ c tail, rest = c::tail ∧ sep c = true) := by
  induction cs with
  | nil =>
    rw [words_nil] at h
    cases h
  | cons c cs ih =>
    by_cases hc : sep c = true
    · rw [words_sep cs c hc] at h
      obtain ⟨g, rest, hcs, hg, hw, hrest, htail⟩ := ih h
      refine ⟨c::g, rest, by rw [hcs]; rfl, ?_, hw, hrest, htail⟩
      intro d hd
      rcases List.mem_cons.mp hd with hd | hd
      · rw [hd]
        exact hc
      · exact hg d hd
    · have hsplit := List.takeWhile_append_dropWhile (p := fun c => !sep c) (l := c::cs)
      have hrun : IsWord sep ((c::cs).takeWhile (fun c => !sep c)) := by
        constructor
        · rw [List.takeWhile_cons_of_pos (by simp [hc])]
          exact List.cons_ne_nil _ _
        · exact fun d hd => mem_takeWhile_not (c::cs) d hd
      have hnone : ∀ d ∈ ([] : List α), sep d = true := by
        intro d hd
        cases hd
      rcases @dropWhile_sep α sep (c::cs) with hrest | ⟨d, tail, hrest, hd⟩
      · rw [hrest, List.append_nil] at hsplit
        rw [← hsplit, words_word _ hrun] at h
        obtain ⟨hw, hws⟩ := List.cons.inj h
        exact ⟨[], [], by rw [← hw, List.nil_append, List.append_nil, hsplit], hnone, hw ▸ hrun,
          by rw [words_nil, hws], Or.inl rfl⟩
      · rw [hrest] at hsplit
        rw [← hsplit, words_append _ _ d hd, words_word _ hrun] at h
        obtain ⟨hw, hws⟩ := List.cons.inj h
        exact ⟨[], d::tail, by rw [← hw, List.nil_append, hsplit], hnone, hw ▸ hrun,
          by rw [words_sep _ d hd]; exact hws, Or.inr ⟨d, tail, rfl, hd⟩⟩

theorem word_extended (w v : List α) (hw : IsWord sep w) :
    IsWord sep (w++v.takeWhile (fun c => !sep c)) := by
  constructor
  · exact List.append_ne_nil_of_left_ne_nil hw.1 _
  · intro c hc
    rcases List.mem_append.mp hc with hc | hc
    · exact hw.2 c hc
    · exact mem_takeWhile_not v c hc

theorem words_begin (w v : List α) (hw : IsWord sep w) :
    ∃ e ws, words sep (w++v) = (w++e)::ws := by
  have hrun := word_extended w v hw
  have hsplit := List.takeWhile_append_dropWhile (p := fun c => !sep c) (l := v)
  rcases @dropWhile_sep α sep v with hrest | ⟨d, tail, hrest, hd⟩
  · rw [hrest, List.append_nil] at hsplit
    rw [hsplit] at hrun
    exact ⟨v, [], words_word _ hrun⟩
  · rw [hrest] at hsplit
    refine ⟨v.takeWhile (fun c => !sep c), words sep tail, ?_⟩
    rw [← hsplit, ← List.append_assoc, words_append _ _ d hd, hsplit, words_word _ hrun]
    rfl

/-- A word at the end begins after the last separator. -/
theorem words_end (u w : List α) (hw : IsWord sep w) :
    ∃ e ws, words sep (u++w) = ws++[e++w] := by
  induction u using List.reverseRecOn generalizing w with
  | nil => exact ⟨[], [], words_word w hw⟩
  | append_singleton u c ih =>
    rw [List.append_assoc]
    by_cases hc : sep c = true
    · refine ⟨[], words sep u, ?_⟩
      rw [List.singleton_append, words_append _ _ c hc, words_word w hw]
      rfl
    · have hlonger : IsWord sep ([c]++w) := by
        refine ⟨by simp, ?_⟩
        intro d hd
        rcases List.mem_append.mp hd with hd | hd
        · rw [List.mem_singleton.mp hd]
          simpa using hc
        · exact hw.2 d hd
      obtain ⟨e, ws, h⟩ := ih ([c]++w) hlonger
      exact ⟨e++[c], ws, by rw [h, List.append_assoc]⟩

variable (sep)

def Spread : List (List α) → List α → Prop
  | [], s => s = []
  | [w], s => s = w
  | w::v::ws, s => ∃ g rest, IsGap sep g ∧ s = w++g++rest ∧ Spread (v::ws) rest

def Met (a : List α) (inner : List (List α)) (b : List α) (ws : List (List α)) : Prop :=
  ∃ a' b', (a'::inner++[b']) <:+: ws ∧ a <:+ a' ∧ b <+: b'

variable {sep}

variable (inner : List (List α))

theorem spread_words (b s v : List α) (hinner : ∀ w ∈ inner, IsWord sep w) (hb : IsWord sep b)
    (h : Spread sep (inner++[b]) s) :
    ∃ e ws, words sep (s++v) = inner++(b++e)::ws := by
  induction inner generalizing s with
  | nil =>
    have hs : s = b := h
    rw [hs]
    exact words_begin b v hb
  | cons w inner ih =>
    have hrest := fun u hu => hinner u (List.mem_cons_of_mem w hu)
    have hgap : ∃ g rest, IsGap sep g ∧ s = w++g++rest ∧ Spread sep (inner++[b]) rest := by
      cases inner with
      | nil => exact h
      | cons u inner => exact h
    obtain ⟨g, rest, hg, hs, hspread⟩ := hgap
    obtain ⟨e, ws, hwords⟩ := ih rest hrest hspread
    refine ⟨e, ws, ?_⟩
    rw [hs, List.append_assoc, words_gap w g _ hg, words_word w (hinner w List.mem_cons_self),
      hwords]
    rfl

theorem spread_head (b s : List α) (hinner : ∀ w ∈ inner, IsWord sep w) (hb : IsWord sep b)
    (h : Spread sep (inner++[b]) s) :
    ∃ c tail, s = c::tail ∧ sep c = false := by
  have hfirst : ∃ w rest, s = w++rest ∧ IsWord sep w := by
    cases inner with
    | nil => exact ⟨b, [], by rw [List.append_nil]; exact h, hb⟩
    | cons w inner =>
      have hw := hinner w List.mem_cons_self
      cases inner with
      | nil =>
        obtain ⟨g, rest, _, hs, _⟩ := h
        exact ⟨w, g++rest, by rw [hs, List.append_assoc], hw⟩
      | cons v inner =>
        obtain ⟨g, rest, _, hs, _⟩ := h
        exact ⟨w, g++rest, by rw [hs, List.append_assoc], hw⟩
  obtain ⟨w, rest, hs, hw⟩ := hfirst
  obtain ⟨c, tail, hc⟩ := List.exists_cons_of_ne_nil hw.1
  rw [hc] at hs hw
  exact ⟨c, tail++rest, hs, hw.2 c List.mem_cons_self⟩

theorem gap_before (b g s rest : List α) (c : α) (tail : List α)
    (hinner : ∀ w ∈ inner, IsWord sep w) (hb : IsWord sep b) (hs : Spread sep (inner++[b]) s)
    (hg : ∀ c ∈ g, sep c = true) (h : c::tail = g++s++rest) (hc : sep c = true) : IsGap sep g := by
  refine ⟨?_, hg⟩
  intro hnil
  obtain ⟨d, more, hd, hink⟩ := spread_head inner b s hinner hb hs
  rw [hnil, hd] at h
  rw [(List.cons.inj h).1, hink] at hc
  cases hc

theorem spread_cons (w b g s : List α) (hg : IsGap sep g) (hs : Spread sep (inner++[b]) s) :
    Spread sep (w::inner++[b]) (w++g++s) := by
  cases inner with
  | nil => exact ⟨g, s, hg, rfl, hs⟩
  | cons u inner => exact ⟨g, s, hg, rfl, hs⟩

theorem spread_uncons (w b s : List α) (h : Spread sep (w::inner++[b]) s) :
    ∃ g rest, IsGap sep g ∧ s = w++g++rest ∧ Spread sep (inner++[b]) rest := by
  cases inner with
  | nil => exact h
  | cons u inner => exact h

/-- Words in a row are spread over the text, after separators. -/
theorem words_spread (b b' t : List α) (ws : List (List α)) (hinner : ∀ w ∈ inner, IsWord sep w)
    (hb : IsWord sep b) (hbegin : b <+: b') (h : words sep t = inner++b'::ws) :
    ∃ g s rest, t = g++s++rest ∧ Spread sep (inner++[b]) s ∧ ∀ c ∈ g, sep c = true := by
  induction inner generalizing t with
  | nil =>
    obtain ⟨g, rest, ht, hg, _, _, _⟩ := words_first t b' ws h
    obtain ⟨e, he⟩ := hbegin
    refine ⟨g, b, e++rest, ?_, rfl, hg⟩
    rw [ht, ← he]
    simp only [List.append_assoc]
  | cons w inner ih =>
    obtain ⟨g, rest, ht, hg, hw, hrest, htail⟩ := words_first t w _ h
    have hlater := fun u hu => hinner u (List.mem_cons_of_mem w hu)
    obtain ⟨g', s, rest', hsplit, hs, hg'⟩ := ih rest hlater hrest
    have hgap : IsGap sep g' := by
      rcases htail with hnone | ⟨c, tail, hct, hc⟩
      · rw [hnone, words_nil] at hrest
        exact absurd hrest.symm (by simp)
      · rw [hct] at hsplit
        exact gap_before inner b g' s rest' c tail hlater hb hs hg' hsplit hc
    refine ⟨g, w++g'++s, rest', ?_, spread_cons inner w b g' s hgap hs, hg⟩
    rw [ht, hsplit]
    simp only [List.append_assoc]

theorem words_drop (t : List α) (ps ws : List (List α)) (h : words sep t = ps++ws) :
    ∃ before after, t = before++after ∧ words sep after = ws := by
  induction ps generalizing t with
  | nil => exact ⟨[], t, rfl, h⟩
  | cons w ps ih =>
    obtain ⟨g, rest, ht, _, _, hrest, _⟩ := words_first t w _ h
    obtain ⟨before, after, hsplit, hafter⟩ := ih rest hrest
    refine ⟨g++w++before, after, ?_, hafter⟩
    rw [ht, hsplit]
    simp only [List.append_assoc]

theorem infix_of_mem_words (t w : List α) (h : w ∈ words sep t) : w <:+: t := by
  obtain ⟨ps, ws, hsplit⟩ := List.append_of_mem h
  obtain ⟨before, after, ht, hafter⟩ := words_drop t ps _ hsplit
  obtain ⟨g, rest, hfirst, _, _, _, _⟩ := words_first after w ws hafter
  refine ⟨before++g, rest, ?_⟩
  rw [ht, hfirst]
  simp only [List.append_assoc]

/-- A part without separators lies inside one word. -/
theorem infix_word (s t : List α) (hs : IsWord sep s) (h : s <:+: t) :
    ∃ w ∈ words sep t, s <:+: w := by
  obtain ⟨u, v, ht⟩ := h
  obtain ⟨e, ws, hend⟩ := words_end u _ (word_extended s v hs)
  have hin : s <:+: e++(s++v.takeWhile (fun c => !sep c)) :=
    List.infix_append_of_infix_right List.infix_append_left
  have hsplit := List.takeWhile_append_dropWhile (p := fun c => !sep c) (l := v)
  have hwhole : t = u++(s++v.takeWhile (fun c => !sep c))++v.dropWhile (fun c => !sep c) := by
    rw [← ht]
    simp only [List.append_assoc, hsplit]
  refine ⟨_, ?_, hin⟩
  rw [hwhole]
  rcases @dropWhile_sep α sep v with hrest | ⟨d, tail, hrest, hd⟩
  · rw [hrest, List.append_nil, hend]
    exact List.mem_append_right _ List.mem_cons_self
  · rw [hrest, words_append _ _ d hd, hend]
    exact List.mem_append_left _ (List.mem_append_right _ List.mem_cons_self)

theorem words_intercalate (c : α) (hc : sep c = true) (ls : List (List α)) :
    words sep ([c].intercalate ls) = ls.flatMap (words sep) := by
  induction ls with
  | nil => exact words_nil
  | cons l ls ih =>
    cases ls with
    | nil => simp
    | cons l' ls =>
      rw [List.intercalate_cons_cons, List.append_assoc, List.singleton_append,
        words_append l _ c hc, ih]
      rfl

/-- A pattern of words is spread over a part of the text exactly when it is met
among the words of the text. -/
theorem met_iff (a b t : List α) (inner : List (List α)) (ha : IsWord sep a)
    (hinner : ∀ w ∈ inner, IsWord sep w) (hb : IsWord sep b) :
    (∃ s, s <:+: t ∧ Spread sep (a::inner++[b]) s) ↔ Met a inner b (words sep t) := by
  constructor
  · rintro ⟨s, ⟨u, v, ht⟩, hspread⟩
    obtain ⟨g, rest, hg, hs, hrest⟩ := spread_uncons inner a b s hspread
    obtain ⟨e, ws, hend⟩ := words_end u a ha
    obtain ⟨e', ws', hbegin⟩ := spread_words inner b rest v hinner hb hrest
    have hwords : words sep t = (ws++[e++a])++(inner++(b++e')::ws') := by
      rw [← hend, ← hbegin, ← words_gap (u++a) g (rest++v) hg, ← ht, hs]
      simp only [List.append_assoc]
    refine ⟨e++a, b++e', ⟨ws, ws', ?_⟩, List.suffix_append e a, List.prefix_append b e'⟩
    rw [hwords]
    simp only [List.append_assoc, List.cons_append, List.nil_append]
  · rintro ⟨a', b', ⟨ps, qs, hwords⟩, ⟨e, hend⟩, hbegin⟩
    have hsplit : words sep t = ps++(a'::(inner++b'::qs)) := by
      rw [← hwords]
      simp only [List.append_assoc, List.cons_append, List.nil_append]
    obtain ⟨before, after, ht, hafter⟩ := words_drop t ps _ hsplit
    obtain ⟨g, rest, hfirst, _, _, hrest, htail⟩ := words_first after a' _ hafter
    obtain ⟨g', s, rest', hlast, hs, hg'⟩ := words_spread inner b b' rest qs hinner hb hbegin hrest
    have hgap : IsGap sep g' := by
      rcases htail with hnone | ⟨c, tail, hct, hc⟩
      · rw [hnone, words_nil] at hrest
        exact absurd hrest.symm (by simp)
      · rw [hct] at hlast
        exact gap_before inner b g' s rest' c tail hinner hb hs hg' hlast hc
    refine ⟨a++g'++s, ⟨before++g++e, rest', ?_⟩, spread_cons inner a b g' s hgap hs⟩
    rw [ht, hfirst, hlast, ← hend]
    simp only [List.append_assoc]

end

section

variable {β : Type*} (new old : β → Prop)

inductive Inserted : List β → List β → Prop
  | nil : Inserted [] []
  | keep (v : β) {vs ws : List β} (h : Inserted vs ws) : Inserted (v::vs) (v::ws)
  | put (e v : β) {vs ws : List β} (he : new e) (hv : old v) (h : Inserted vs ws) :
      Inserted (v::vs) (e::v::ws)

variable {new old}

theorem inserted_refl (vs : List β) : Inserted new old vs vs := by
  induction vs with
  | nil => exact .nil
  | cons v vs ih => exact .keep v ih

theorem inserted_append (us us' vs vs' : List β) (h : Inserted new old us us')
    (h' : Inserted new old vs vs') : Inserted new old (us++vs) (us'++vs') := by
  induction h with
  | nil => exact h'
  | keep v _ ih => exact .keep v ih
  | put e v he hv _ ih => exact .put e v he hv ih

theorem inserted_filter (p : β → Bool) (hnew : ∀ e, new e → p e = true)
    (hold : ∀ v, old v → p v = true) (vs ws : List β) (h : Inserted new old vs ws) :
    Inserted new old (vs.filter p) (ws.filter p) := by
  induction h with
  | nil => exact .nil
  | keep v _ ih =>
    by_cases hv : p v = true
    · rw [List.filter_cons_of_pos hv, List.filter_cons_of_pos hv]
      exact .keep v ih
    · rw [List.filter_cons_of_neg hv, List.filter_cons_of_neg hv]
      exact ih
  | put e v he hv _ ih =>
    rw [List.filter_cons_of_pos (hold v hv), List.filter_cons_of_pos (hnew e he),
      List.filter_cons_of_pos (hold v hv)]
    exact .put e v he hv ih

theorem inserted_flatMap {γ : Type*} (f g : γ → List β) (xs : List γ)
    (h : ∀ x ∈ xs, Inserted new old (f x) (g x)) :
    Inserted new old (xs.flatMap f) (xs.flatMap g) := by
  induction xs with
  | nil => exact .nil
  | cons x xs ih =>
    rw [List.flatMap_cons, List.flatMap_cons]
    exact inserted_append _ _ _ _ (h x List.mem_cons_self)
      (ih (fun y hy => h y (List.mem_cons_of_mem x hy)))

theorem mem_inserted (vs ws : List β) (h : Inserted new old vs ws) (x : β) :
    (x ∈ vs → x ∈ ws) ∧ (x ∈ ws → x ∈ vs ∨ new x) := by
  induction h with
  | nil => exact ⟨fun hx => hx, Or.inl⟩
  | keep v _ ih =>
    simp only [List.mem_cons]
    constructor
    · rintro (hx | hx)
      · exact Or.inl hx
      · exact Or.inr (ih.1 hx)
    · rintro (hx | hx)
      · exact Or.inl (Or.inl hx)
      · rcases ih.2 hx with hold | hnew
        · exact Or.inl (Or.inr hold)
        · exact Or.inr hnew
  | put e v he hv _ ih =>
    simp only [List.mem_cons]
    constructor
    · rintro (hx | hx)
      · exact Or.inr (Or.inl hx)
      · exact Or.inr (Or.inr (ih.1 hx))
    · rintro (hx | hx | hx)
      · exact Or.inr (hx ▸ he)
      · exact Or.inl (Or.inl hx)
      · rcases ih.2 hx with hold | hnew
        · exact Or.inl (Or.inr hold)
        · exact Or.inr hnew

theorem prefix_before (s p q : List β) (w : β) (h : s <+: p++w::q) (hw : w ∉ s) : s <+: p := by
  by_cases hlen : s.length ≤ p.length
  · exact List.prefix_of_prefix_length_le h (List.prefix_append p _) hlen
  · have hpw : p++[w] <+: p++w::q := ⟨q, by simp⟩
    have hin := List.prefix_of_prefix_length_le hpw h (by simp; omega)
    exact absurd (hin.subset (by simp)) hw

/-- A part that avoids one of the elements lies on one side of it. -/
theorem infix_beside (s p q : List β) (w : β) (h : s <:+: p++w::q) (hw : w ∉ s) :
    s <:+: p ∨ s <:+: q := by
  induction p with
  | nil =>
    rcases List.infix_cons_iff.mp h with hpre | hin
    · exact Or.inl (prefix_before s [] q w hpre hw).isInfix
    · exact Or.inr hin
  | cons d p ih =>
    rcases List.infix_cons_iff.mp h with hpre | hin
    · exact Or.inl (prefix_before s (d::p) q w hpre hw).isInfix
    · rcases ih hin with h1 | h2
      · exact Or.inl (List.infix_cons h1)
      · exact Or.inr h2

/-- A part that has one of the elements at its beginning at most lies before it
or from it on. -/
theorem infix_from (a : β) (s p q : List β) (v : β) (h : a::s <:+: p++v::q) (hv : v ∉ s) :
    a::s <:+: p ∨ a::s <:+: v::q := by
  induction p with
  | nil => exact Or.inr h
  | cons d p ih =>
    rcases List.infix_cons_iff.mp h with hpre | hin
    · have hpre : a::s <+: d::(p++v::q) := hpre
      rw [List.cons_prefix_cons] at hpre
      have hbefore := prefix_before s p q v hpre.2 hv
      exact Or.inl (List.IsPrefix.isInfix (List.cons_prefix_cons.mpr ⟨hpre.1, hbefore⟩))
    · rcases ih hin with h1 | h2
      · exact Or.inl (List.infix_cons h1)
      · exact Or.inr h2

/-- What is met in a row is met with and without the new elements. -/
theorem row_inserted (a : β) (s : List β) (hnew : ∀ e, new e → e ∉ a::s)
    (hold : ∀ v, old v → v ∉ s) (vs ws : List β) (h : Inserted new old vs ws) (p : List β) :
    a::s <:+: p++ws ↔ a::s <:+: p++vs := by
  induction h generalizing p with
  | nil => exact Iff.rfl
  | keep v _ ih =>
    have hstep := ih (p++[v])
    rwa [List.append_assoc, List.append_assoc] at hstep
  | put e v he hv h ih =>
    have hstep := ih (p++[v])
    rw [List.append_assoc, List.append_assoc, List.singleton_append, List.singleton_append]
      at hstep
    rw [← hstep]
    constructor
    · intro hin
      rcases infix_beside _ p _ e hin (hnew e he) with h1 | h2
      · exact List.infix_append_of_infix_left h1
      · exact List.infix_append_of_infix_right h2
    · intro hin
      rcases infix_from a s p _ v hin (hold v hv) with h1 | h2
      · exact List.infix_append_of_infix_left h1
      · exact List.infix_append_of_infix_right (List.infix_cons h2)

end

/-- A pattern of words is met with and without new words that cannot be part of
it, before words that can only be its first. -/
theorem met_inserted {α : Type*} (new old : List α → Prop) (a b : List α)
    (inner : List (List α)) (hnew : ∀ e, new e → ¬ a <:+ e ∧ e ∉ inner ∧ ¬ b <+: e)
    (hold : ∀ v, old v → v ∉ inner ∧ ¬ b <+: v) (vs ws : List (List α))
    (h : Inserted new old vs ws) : Met a inner b ws ↔ Met a inner b vs := by
  have hrow : ∀ a' b', a <:+ a' → b <+: b' →
      (a'::inner++[b'] <:+: ws ↔ a'::inner++[b'] <:+: vs) := by
    intro a' b' ha hb
    apply row_inserted a' (inner++[b']) _ _ vs ws h []
    · intro e he hin
      rcases List.mem_cons.mp hin with hfirst | hlater
      · exact (hnew e he).1 (hfirst ▸ ha)
      · rcases List.mem_append.mp hlater with hinner | hlast
        · exact (hnew e he).2.1 hinner
        · exact (hnew e he).2.2 (List.mem_singleton.mp hlast ▸ hb)
    · intro v hv hin
      rcases List.mem_append.mp hin with hinner | hlast
      · exact (hold v hv).1 hinner
      · exact (hold v hv).2 (List.mem_singleton.mp hlast ▸ hb)
  constructor
  · rintro ⟨a', b', hin, ha, hb⟩
    exact ⟨a', b', (hrow a' b' ha hb).mp hin, ha, hb⟩
  · rintro ⟨a', b', hin, ha, hb⟩
    exact ⟨a', b', (hrow a' b' ha hb).mpr hin, ha, hb⟩

end Lib.Words
