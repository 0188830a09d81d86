import IronClaw.Workspace

/-!
# The profile section of a user document

`merge_profile_section` of `workspace/mod.rs`: the first delimited block of the
document is replaced, and a document without one gets a block at its end,
unless it looks generated. A block begins at a begin mark and ends at the next
end mark.
-/

set_option autoImplicit false

namespace IronClaw.ProfileSection
open IronClaw.Workspace IronClaw.Workspace.Workspace Lib.Text Lib.Search Lib.Words

def cutBlock (text : List Char) : Option (List Char × List Char × List Char) :=
  (splitFirst profileSectionBegin text).bind (fun s =>
    (splitFirst profileSectionEnd s.2).map (fun t => (s.1, t.1, t.2)))

def blocksWithin : ℕ → List Char → List (List Char)
  | 0, _ => []
  | fuel+1, text => match cutBlock text with
    | some (_, block, rest) => block::blocksWithin fuel rest
    | none => []

def blocks (text : List Char) : List (List Char) := blocksWithin text.length text

def seedTemplate : List Char :=
  ("# User Context\n\n- **Name:**\n- **Timezone:**\n- **Preferences:**\n\n" ++
    "The agent will fill this in as it learns about you.\n" ++
    "You can also edit this directly to provide context upfront.").toList

def hasOldHeader (existing : List Char) : Bool :=
  "<!-- Auto-generated from context/profile.json".toList.isPrefixOf existing

def Keeps (existing result : List Char) : Prop :=
  match cutBlock existing with
  | some (before, _, rest) => ∃ middle, result = before++middle++rest
  | none => ∃ more, result = trimEnd existing++more

structure Synced (existing first second : List Char) : Prop where
  replaced : mergeProfileSection (mergeProfileSection existing first) second =
    mergeProfileSection existing second
  single : blocks (mergeProfileSection existing second) = ['\n'::second++['\n']]
  kept : trimEnd existing = seedTemplate ∨ hasOldHeader existing = true ∨
    Keeps existing (mergeProfileSection existing second)

section marks

theorem begin_headed : ∃ t, profileSectionBegin = '<'::t ∧ '<' ∉ t :=
  ⟨profileSectionBegin.tail, by decide, by decide⟩

theorem end_headed : ∃ t, profileSectionEnd = '<'::t ∧ '<' ∉ t :=
  ⟨profileSectionEnd.tail, by decide, by decide⟩

theorem begin_nonempty : profileSectionBegin ≠ [] := by decide

theorem end_nonempty : profileSectionEnd ≠ [] := by decide

theorem begin_line : '\n' ∉ profileSectionBegin := by decide

theorem end_line : '\n' ∉ profileSectionEnd := by decide

theorem begin_first (text p q : List Char) : splitFirst profileSectionBegin text = some (p, q) ↔
    text = p++profileSectionBegin++q ∧ ¬ profileSectionBegin <:+: p := by
  obtain ⟨t, ht, hx⟩ := begin_headed
  rw [ht]
  exact splitFirst_headed '<' t text p q hx

theorem end_first (text p q : List Char) : splitFirst profileSectionEnd text = some (p, q) ↔
    text = p++profileSectionEnd++q ∧ ¬ profileSectionEnd <:+: p := by
  obtain ⟨t, ht, hx⟩ := end_headed
  rw [ht]
  exact splitFirst_headed '<' t text p q hx

/-- The end mark is not found at the begin mark. -/
theorem end_after_begin (text : List Char) :
    splitFirst profileSectionEnd (profileSectionBegin++text) =
      (splitFirst profileSectionEnd text).map (fun s => (profileSectionBegin++s.1, s.2)) := by
  refine splitFirst_over _ _ _ (fun a b hab hb hpre => ?_)
  obtain ⟨t, ht, -⟩ := end_headed
  obtain ⟨u, hu, hx⟩ := begin_headed
  cases a with
  | nil =>
    have hmarks := congrArg (List.take 6) (List.prefix_iff_eq_append.mp hpre)
    rw [List.nil_append] at hab
    rw [← hab, List.take_append_of_le_length (by decide),
      List.take_append_of_le_length (by decide)] at hmarks
    revert hmarks
    decide
  | cons c a =>
    obtain ⟨d, b', hdb⟩ := List.exists_cons_of_ne_nil hb
    rw [hdb, ht, List.cons_append, List.cons_prefix_cons] at hpre
    rw [hu, hdb, List.cons_append, List.cons.injEq] at hab
    exact hx (by rw [hab.2, hpre.1]; simp)

theorem cutBlock_some (text p b q : List Char) : cutBlock text = some (p, b, q) ↔
    text = p++profileSectionBegin++(b++profileSectionEnd++q) ∧
      ¬ profileSectionBegin <:+: p ∧ ¬ profileSectionEnd <:+: b := by
  constructor
  · intro h
    obtain ⟨⟨p', after⟩, hbegin, h⟩ := Option.bind_eq_some_iff.mp h
    obtain ⟨⟨b', q'⟩, hend, h⟩ := Option.map_eq_some_iff.mp h
    cases h
    obtain ⟨htext, hp⟩ := (begin_first _ _ _).mp hbegin
    obtain ⟨hafter, hb⟩ := (end_first _ _ _).mp hend
    exact ⟨by rw [htext, ← hafter], hp, hb⟩
  · rintro ⟨htext, hp, hb⟩
    have hbegin := (begin_first text p _).mpr ⟨htext, hp⟩
    have hend := (end_first (b++profileSectionEnd++q) b q).mpr ⟨rfl, hb⟩
    rw [cutBlock, hbegin, Option.bind_some, hend]
    rfl

theorem merge_eq (existing new : List Char) :
    mergeProfileSection existing new = match cutBlock existing with
      | some (before, _, rest) => before++wrapProfileSection new++rest
      | none => appendProfileSection existing (wrapProfileSection new) := by
  rw [mergeProfileSection, cutBlock]
  cases splitFirst profileSectionBegin existing with
  | none => rfl
  | some s =>
    simp only [Option.bind_some, end_after_begin]
    cases splitFirst profileSectionEnd s.2 <;> rfl

theorem append_eq (existing delimited : List Char) : appendProfileSection existing delimited =
    if hasOldHeader existing = true then delimited
    else if isSeedTemplate existing = true then delimited
    else if trimEnd existing = [] then delimited
    else trimEnd existing++ '\n':: '\n'::delimited := by
  have hempty : (existing.rdropWhile isWhitespace).isEmpty = true ↔ trimEnd existing = [] :=
    List.isEmpty_iff
  simp only [appendProfileSection, hempty, List.append_assoc, List.cons_append, List.nil_append]
  rfl

theorem cutBlock_none (text : List Char) (h : cutBlock text = none) (p after : List Char)
    (htext : text = p++profileSectionBegin++after) : ¬ profileSectionEnd <:+: after := by
  intro hend
  obtain hbegin | ⟨⟨p', q'⟩, hbegin⟩ := Option.eq_none_or_eq_some
    (splitFirst profileSectionBegin text)
  · rw [splitFirst_eq_none _ _ begin_nonempty] at hbegin
    exact hbegin ⟨p, after, htext.symm⟩
  · rw [cutBlock, hbegin, Option.bind_some, Option.map_eq_none_iff,
      splitFirst_eq_none _ _ end_nonempty] at h
    obtain ⟨hparts, hfirst⟩ := (begin_first _ _ _).mp hbegin
    have hlen : p'.length ≤ p.length := by
      by_contra hlong
      exact splitFirst_first _ _ _ _ hbegin p (profileSectionBegin++after)
        (by rw [htext, List.append_assoc]) (by omega) (List.prefix_append _ _)
    have hsuffix : after <:+ q' := by
      have hafter : after <:+ text := ⟨p++profileSectionBegin, htext.symm⟩
      refine List.suffix_of_suffix_length_le hafter ⟨p'++profileSectionBegin, hparts.symm⟩ ?_
      have hsame := congrArg List.length (htext.symm.trans hparts)
      simp only [List.length_append] at hsame
      omega
    exact h (hend.trans hsuffix.isInfix)

theorem cutBlock_unmarked (text : List Char) (h : ¬ profileSectionBegin <:+: text) :
    cutBlock text = none := by
  rw [cutBlock, splitFirst_none _ _ begin_nonempty h]
  rfl

theorem cutBlock_nil : cutBlock [] = none :=
  cutBlock_unmarked [] (fun h => begin_nonempty (List.infix_nil.mp h))

theorem blocks_some (text p b q : List Char) (h : cutBlock text = some (p, b, q)) :
    ∃ more, blocks text = b::more ∧ (more = [] ↔ cutBlock q = none) := by
  have htext := ((cutBlock_some text p b q).mp h).1
  have hbegin := List.length_pos_of_ne_nil begin_nonempty
  obtain ⟨fuel, hfuel⟩ : ∃ fuel, text.length = fuel+1 := by
    have hlen := congrArg List.length htext
    simp only [List.length_append] at hlen
    exact ⟨text.length-1, by omega⟩
  refine ⟨blocksWithin fuel q, ?_, ?_⟩
  · rw [blocks, hfuel, blocksWithin, h]
  · constructor
    · intro hnil
      cases hq : cutBlock q with
      | none => rfl
      | some s =>
        obtain ⟨p', b', q'⟩ := s
        have hlong : q ≠ [] := by
          intro hempty
          rw [hempty, cutBlock_nil] at hq
          cases hq
        have hpos : 0 < fuel := by
          have hlen := congrArg List.length htext
          have hq := List.length_pos_of_ne_nil hlong
          simp only [List.length_append] at hlen
          omega
        obtain ⟨fuel, rfl⟩ := Nat.exists_eq_add_of_lt hpos
        rw [Nat.zero_add, blocksWithin, hq] at hnil
        cases hnil
    · intro hq
      cases fuel with
      | zero => rfl
      | succ fuel => rw [blocksWithin, hq]

end marks

def Clean (existing first second : List Char) : Prop :=
  ¬ profileSectionEnd <:+: first ∧ ¬ profileSectionEnd <:+: second ∧
    match cutBlock existing with
    | some (_, _, rest) => cutBlock rest = none
    | none => hasOldHeader existing = true ∨ trimEnd existing = seedTemplate ∨
        isSeedTemplate existing = false ∧ ¬ profileSectionBegin <:+: existing

section wrapped

theorem end_beside (p q : List Char) : profileSectionEnd <:+: p++ '\n'::q ↔
    profileSectionEnd <:+: p ∨ profileSectionEnd <:+: q := by
  refine ⟨fun h => infix_beside _ p q '\n' h end_line, ?_⟩
  rintro (h | h)
  · exact h.trans (List.prefix_append _ _).isInfix
  · exact h.trans ((List.suffix_cons '\n' q).trans (List.suffix_append _ _)).isInfix

theorem end_lined (c : List Char) :
    profileSectionEnd <:+: '\n'::c++['\n'] ↔ profileSectionEnd <:+: c := by
  have hnil : ¬ profileSectionEnd <:+: [] := fun h => end_nonempty (List.infix_nil.mp h)
  have hfirst := end_beside [] (c++['\n'])
  have hlast := end_beside c []
  rw [List.cons_append]
  rw [List.nil_append] at hfirst
  tauto

theorem wrapped_eq (p c q : List Char) : p++wrapProfileSection c++q =
    p++profileSectionBegin++(('\n'::c++['\n'])++profileSectionEnd++q) := by
  simp [wrapProfileSection]

variable (p q : List Char) (hp : ¬ profileSectionBegin <:+: p)
include hp

theorem cut_wrapped (c : List Char) (hc : ¬ profileSectionEnd <:+: c) :
    cutBlock (p++wrapProfileSection c++q) = some (p, '\n'::c++['\n'], q) := by
  rw [cutBlock_some]
  exact ⟨wrapped_eq p c q, hp, fun h => hc ((end_lined c).mp h)⟩

/-- A content with an end mark breaks its block, and the rest of it stays behind. -/
theorem cut_broken (c : List Char) (hc : profileSectionEnd <:+: c) :
    ∃ b q', cutBlock (p++wrapProfileSection c++q) = some (p, b, q') ∧
      ¬ profileSectionEnd <:+: b ∧ q.length < q'.length := by
  have hsome : splitFirst profileSectionEnd (('\n'::c++['\n'])++profileSectionEnd++q) ≠ none := by
    rw [ne_eq, splitFirst_eq_none _ _ end_nonempty, not_not]
    exact ⟨'\n'::c++['\n'], q, rfl⟩
  obtain ⟨⟨b, q'⟩, hcut⟩ := Option.ne_none_iff_exists'.mp hsome
  obtain ⟨hparts, hb⟩ := (end_first _ _ _).mp hcut
  refine ⟨b, q', ?_, hb, ?_⟩
  · rw [cutBlock_some, wrapped_eq, hparts]
    exact ⟨rfl, hp, hb⟩
  · by_contra hlong
    have hlen := congrArg List.length hparts
    simp only [List.length_append] at hlen
    have hinside : '\n'::c++['\n'] <+: b := by
      have hcontent : '\n'::c++['\n'] <+: b++profileSectionEnd++q' := by
        rw [← hparts, List.append_assoc]
        exact List.prefix_append _ _
      have hblock : b <+: b++profileSectionEnd++q' := by
        rw [List.append_assoc]
        exact List.prefix_append _ _
      refine List.prefix_of_prefix_length_le hcontent hblock ?_
      rw [List.length_append]
      omega
    exact hb (((end_lined c).mpr hc).trans hinside.isInfix)

theorem replaced_iff (first second : List Char) :
    mergeProfileSection (p++wrapProfileSection first++q) second =
      p++wrapProfileSection second++q ↔ ¬ profileSectionEnd <:+: first := by
  by_cases hc : profileSectionEnd <:+: first
  · obtain ⟨b, q', hcut, -, hlong⟩ := cut_broken p q hp first hc
    rw [merge_eq, hcut]
    refine iff_of_false (fun h => ?_) (not_not_intro hc)
    have hlen := congrArg List.length h
    simp only [List.length_append] at hlen
    omega
  · rw [merge_eq, cut_wrapped p q hp first hc]
    exact iff_of_true rfl hc

theorem single_iff (c : List Char) :
    blocks (p++wrapProfileSection c++q) = ['\n'::c++['\n']] ↔
      ¬ profileSectionEnd <:+: c ∧ cutBlock q = none := by
  by_cases hc : profileSectionEnd <:+: c
  · obtain ⟨b, q', hcut, hb, -⟩ := cut_broken p q hp c hc
    obtain ⟨more, hblocks, -⟩ := blocks_some _ p b q' hcut
    refine iff_of_false (fun h => ?_) (fun h => h.1 hc)
    rw [hblocks, List.cons.injEq] at h
    rw [h.1] at hb
    exact hb ((end_lined c).mpr hc)
  · obtain ⟨more, hblocks, hmore⟩ := blocks_some _ p _ q (cut_wrapped p q hp c hc)
    rw [hblocks, List.cons.injEq, hmore]
    tauto

end wrapped

section unblocked

variable (existing : List Char)

def templateFields : List Char :=
  "# User Context\n\n- **Name:**\n- **Timezone:**\n- **Preferences:**\n\n".toList

theorem texts_append (a b c : String) : (a++b++c).toList = a.toList++(b.toList++c.toList) := by
  rw [String.toList_append, String.toList_append, List.append_assoc]

theorem template_begins : ∃ rest, seedTemplate = templateFields++rest :=
  ⟨_, texts_append "# User Context\n\n- **Name:**\n- **Timezone:**\n- **Preferences:**\n\n"
    "The agent will fill this in as it learns about you.\n"
    "You can also edit this directly to provide context upfront."⟩

theorem seed_of_template (h : trimEnd existing = seedTemplate) :
    isSeedTemplate existing = true := by
  obtain ⟨rest, hrest⟩ := template_begins
  have hhead : existing.head? = some '#' := by
    obtain ⟨more, hmore⟩ := trimEnd_begins existing
    have hfields : templateFields.head? = some '#' := by decide
    rw [← hmore, h, hrest, List.append_assoc, List.head?_append, hfields]
    rfl
  have htrim := trimChars_headed existing '#' (by decide) hhead
  have hfirst : "# User Context".toList <+: templateFields := by decide
  have hname : "- **Name:**".toList <:+: templateFields := by decide
  rw [isSeedTemplate, htrim, h, hrest]
  exact Bool.and_eq_true_iff.mpr
    ⟨List.isPrefixOf_iff_prefix.mpr (hfirst.trans (List.prefix_append _ rest)),
      decide_eq_true (hname.trans (List.prefix_append _ rest).isInfix)⟩

theorem seed_head (h : isSeedTemplate existing = true) :
    ∃ rest, trimChars existing = '#'::rest := by
  have hhead : "# User Context".toList <+: trimChars existing :=
    List.isPrefixOf_iff_prefix.mp (Bool.and_eq_true_iff.mp h).1
  obtain ⟨rest, hrest⟩ := hhead
  obtain ⟨t, ht⟩ : ∃ t, "# User Context".toList = '#'::t := ⟨_, rfl⟩
  exact ⟨t++rest, by rw [← hrest, ht, List.cons_append]⟩

/-- A document taken for the template does not begin as a block does. -/
theorem seed_loses (hseed : isSeedTemplate existing = true) (c : List Char) :
    ¬ ∃ more, wrapProfileSection c = trimEnd existing++more := by
  rintro ⟨more, hmore⟩
  obtain ⟨rest, hrest⟩ := seed_head existing hseed
  cases htrim : trimEnd existing with
  | nil =>
    have hblank : ∀ x ∈ existing, isWhitespace x = true := List.rdropWhile_eq_nil_iff.mp htrim
    rw [trimChars, List.dropWhile_eq_nil_iff.mpr hblank] at hrest
    cases hrest
  | cons x tail =>
    obtain ⟨t, ht, -⟩ := begin_headed
    rw [htrim, wrapProfileSection, ht] at hmore
    simp only [List.cons_append, List.cons.injEq] at hmore
    have hhead : existing.head? = some '<' := by
      obtain ⟨dropped, hdropped⟩ := trimEnd_begins existing
      rw [← hdropped, htrim, ← hmore.1]
      rfl
    rw [trimChars_headed existing '<' (by decide) hhead, htrim, ← hmore.1] at hrest
    simp at hrest

theorem end_tail (p c : List Char) (hp : ¬ profileSectionEnd <:+: p)
    (hc : ¬ profileSectionEnd <:+: c) : ¬ profileSectionEnd <:+:
      p++ '\n'::('\n'::(profileSectionBegin++ '\n'::(c++['\n']))) := by
  have hnil : ¬ profileSectionEnd <:+: [] := fun h => end_nonempty (List.infix_nil.mp h)
  have hmark : ¬ profileSectionEnd <:+: profileSectionBegin := by decide
  intro h
  obtain h | h := (end_beside p _).mp h
  · exact hp h
  obtain h | h := (end_beside [] _).mp h
  · exact hnil h
  obtain h | h := (end_beside profileSectionBegin _).mp h
  · exact hmark h
  obtain h | h := (end_beside c []).mp h
  · exact hc h
  · exact hnil h

theorem blank_unmarked (h : trimEnd existing = []) : ¬ profileSectionBegin <:+: existing := by
  intro hbegin
  have hblank : ∀ x ∈ existing, isWhitespace x = true := List.rdropWhile_eq_nil_iff.mp h
  have hmark := hblank '<' (hbegin.subset (by decide))
  revert hmark
  decide

/-- A begin mark without an end mark takes what follows it into the new block. -/
theorem stray_single (h : cutBlock existing = none) (hbegin : profileSectionBegin <:+: existing)
    (c : List Char) : blocks (trimEnd existing++ '\n':: '\n'::wrapProfileSection c) ≠
      ['\n'::c++['\n']] := by
  intro hsingle
  rw [← not_not (a := profileSectionBegin <:+: existing),
    ← splitFirst_eq_none _ _ begin_nonempty, ← ne_eq] at hbegin
  obtain ⟨⟨p, after⟩, hfirst⟩ := Option.ne_none_iff_exists'.mp hbegin
  obtain ⟨htext, hp⟩ := (begin_first _ _ _).mp hfirst
  have hafter := cutBlock_none existing h p after htext
  have htrim : trimEnd existing = p++profileSectionBegin++trimEnd after := by
    obtain ⟨t, ht, hblack⟩ : ∃ t, profileSectionBegin = t++['>'] ∧ isWhitespace '>' = false :=
      ⟨profileSectionBegin.dropLast, by decide, by decide⟩
    have hcut := trimEnd_append (p++t) after '>' hblack
    rw [htext, ht]
    simpa using hcut
  -- The part up to the end mark of the new block, in which there is none.
  let inner := trimEnd after++ '\n'::('\n'::(profileSectionBegin++ '\n'::(c++['\n'])))
  have hresult : trimEnd existing++ '\n':: '\n'::wrapProfileSection c =
      p++profileSectionBegin++(inner++profileSectionEnd) := by
    rw [htrim]
    simp [inner, wrapProfileSection]
  have hsome : splitFirst profileSectionEnd (inner++profileSectionEnd) ≠ none := by
    rw [ne_eq, splitFirst_eq_none _ _ end_nonempty, not_not]
    exact (List.suffix_append _ _).isInfix
  obtain ⟨⟨b, q⟩, hcut⟩ := Option.ne_none_iff_exists'.mp hsome
  obtain ⟨hparts, hb⟩ := (end_first _ _ _).mp hcut
  have hblock : cutBlock (trimEnd existing++ '\n':: '\n'::wrapProfileSection c) = some (p, b, q) := by
    rw [cutBlock_some, hresult, hparts]
    exact ⟨rfl, hp, hb⟩
  obtain ⟨more, hblocks, -⟩ := blocks_some _ p b q hblock
  rw [hblocks, List.cons.injEq] at hsingle
  have hc : ¬ profileSectionEnd <:+: c := by
    rw [hsingle.1] at hb
    exact fun h => hb ((end_lined c).mpr h)
  have hinner : ¬ profileSectionEnd <:+: inner := by
    have hkept : ¬ profileSectionEnd <:+: trimEnd after :=
      fun h => hafter (h.trans (trimEnd_begins after).isInfix)
    exact end_tail (trimEnd after) c hkept hc
  have hmark : b++profileSectionEnd <+: inner++profileSectionEnd := by
    rw [hparts]
    exact List.prefix_append _ _
  have hinside : b++profileSectionEnd <+: inner := by
    refine List.prefix_of_prefix_length_le hmark (List.prefix_append inner profileSectionEnd) ?_
    have hlen : profileSectionEnd.length < profileSectionBegin.length := by decide
    rw [hsingle.1]
    simp only [inner, List.length_append, List.length_cons, List.length_nil]
    omega
  exact hinner ((List.suffix_append b _).isInfix.trans hinside.isInfix)

end unblocked

section laws

variable (existing first second : List Char)

theorem laws_iff (p q : List Char) (hp : ¬ profileSectionBegin <:+: p)
    (hmerge : ∀ c, mergeProfileSection existing c = p++wrapProfileSection c++q) :
    (mergeProfileSection (mergeProfileSection existing first) second =
        mergeProfileSection existing second ∧
      blocks (mergeProfileSection existing second) = ['\n'::second++['\n']]) ↔
    ¬ profileSectionEnd <:+: first ∧ ¬ profileSectionEnd <:+: second ∧ cutBlock q = none := by
  rw [hmerge first, hmerge second, replaced_iff p q hp, single_iff p q hp]

theorem synced_split : Synced existing first second ↔
    (mergeProfileSection (mergeProfileSection existing first) second =
        mergeProfileSection existing second ∧
      blocks (mergeProfileSection existing second) = ['\n'::second++['\n']]) ∧
    (trimEnd existing = seedTemplate ∨ hasOldHeader existing = true ∨
      Keeps existing (mergeProfileSection existing second)) :=
  ⟨fun h => ⟨⟨h.replaced, h.single⟩, h.kept⟩, fun h => ⟨h.1.1, h.1.2, h.2⟩⟩

theorem synced_block (p b q : List Char) (h : cutBlock existing = some (p, b, q)) :
    Synced existing first second ↔ ¬ profileSectionEnd <:+: first ∧
      ¬ profileSectionEnd <:+: second ∧ cutBlock q = none := by
  have hmerge (c : List Char) : mergeProfileSection existing c = p++wrapProfileSection c++q := by
    rw [merge_eq, h]
  have hkeeps : Keeps existing (mergeProfileSection existing second) := by
    rw [Keeps, h]
    exact ⟨wrapProfileSection second, hmerge second⟩
  have hlaws := laws_iff existing first second p q ((cutBlock_some _ _ _ _).mp h).2.1 hmerge
  rw [synced_split, hlaws]
  exact and_iff_left (Or.inr (Or.inr hkeeps))

theorem synced_alone (hmerge : ∀ c, mergeProfileSection existing c = wrapProfileSection c) :
    Synced existing first second ↔ ¬ profileSectionEnd <:+: first ∧
      ¬ profileSectionEnd <:+: second ∧ (trimEnd existing = seedTemplate ∨
        hasOldHeader existing = true ∨ Keeps existing (wrapProfileSection second)) := by
  have hnil : ¬ profileSectionBegin <:+: [] := fun h => begin_nonempty (List.infix_nil.mp h)
  have hlaws := laws_iff existing first second [] [] hnil (fun c => by
    rw [hmerge, List.nil_append, List.append_nil])
  rw [synced_split, hlaws, hmerge second, and_iff_left cutBlock_nil, and_assoc]

/-- A document that the block is put after. -/
theorem synced_after (hcut : cutBlock existing = none) (hmerge : ∀ c,
    mergeProfileSection existing c = trimEnd existing++ '\n':: '\n'::wrapProfileSection c) :
    Synced existing first second ↔ ¬ profileSectionEnd <:+: first ∧
      ¬ profileSectionEnd <:+: second ∧ ¬ profileSectionBegin <:+: existing := by
  have hkeeps : Keeps existing (mergeProfileSection existing second) := by
    rw [Keeps, hcut]
    exact ⟨_, hmerge second⟩
  rw [synced_split, and_iff_left (Or.inr (Or.inr hkeeps))]
  by_cases hbegin : profileSectionBegin <:+: existing
  · refine iff_of_false (fun h => ?_) (fun h => h.2.2 hbegin)
    rw [hmerge second] at h
    exact stray_single existing hcut hbegin second h.2
  · have hfree : ¬ profileSectionBegin <:+: trimEnd existing++['\n', '\n'] := by
      intro h
      have hnil : ¬ profileSectionBegin <:+: [] := fun h => begin_nonempty (List.infix_nil.mp h)
      obtain h | h := infix_beside _ _ _ '\n' h begin_line
      · exact hbegin (h.trans (trimEnd_begins existing).isInfix)
      · obtain h | h := infix_beside _ [] [] '\n' h begin_line <;> exact hnil h
    have hlaws := laws_iff existing first second _ [] hfree (fun c => by
      rw [hmerge, List.append_nil, List.append_assoc]
      rfl)
    rw [hlaws, and_iff_left cutBlock_nil, and_iff_left hbegin]

end laws

/-- Profile sync keeps its laws exactly on clean documents and contents. -/
theorem mergeProfileSection_synced (existing first second : List Char) :
    Synced existing first second ↔ Clean existing first second := by
  unfold Clean
  cases hcut : cutBlock existing with
  | some s =>
    obtain ⟨p, b, q⟩ := s
    exact synced_block existing first second p b q hcut
  | none =>
    have hmerge (c : List Char) : mergeProfileSection existing c =
        appendProfileSection existing (wrapProfileSection c) := by rw [merge_eq, hcut]
    by_cases hheader : hasOldHeader existing = true
    · have halone (c : List Char) :
          mergeProfileSection existing c = wrapProfileSection c := by
        rw [hmerge, append_eq, if_pos hheader]
      rw [synced_alone existing first second halone]
      exact and_congr_right' (and_congr_right' (iff_of_true (Or.inr (Or.inl hheader))
        (Or.inl hheader)))
    by_cases hseed : isSeedTemplate existing = true
    · have halone (c : List Char) :
          mergeProfileSection existing c = wrapProfileSection c := by
        rw [hmerge, append_eq, if_neg hheader, if_pos hseed]
      rw [synced_alone existing first second halone, Keeps, hcut]
      refine and_congr_right' (and_congr_right' ⟨?_, ?_⟩)
      · rintro (h | h | h)
        · exact Or.inr (Or.inl h)
        · exact Or.inl h
        · exact absurd h (seed_loses existing hseed second)
      · rintro (h | h | h)
        · exact absurd h hheader
        · exact Or.inl h
        · exact absurd hseed (by rw [h.1]; decide)
    have hplain : isSeedTemplate existing = false := by simpa using hseed
    have hedited : trimEnd existing ≠ seedTemplate :=
      fun h => hseed (seed_of_template existing h)
    have hfree : (hasOldHeader existing = true ∨ trimEnd existing = seedTemplate ∨
        isSeedTemplate existing = false ∧ ¬ profileSectionBegin <:+: existing) ↔
        ¬ profileSectionBegin <:+: existing := by
      rw [or_iff_right hheader, or_iff_right hedited, and_iff_right hplain]
    rw [hfree]
    by_cases hempty : trimEnd existing = []
    · have halone (c : List Char) :
          mergeProfileSection existing c = wrapProfileSection c := by
        rw [hmerge, append_eq, if_neg hheader, if_neg hseed, if_pos hempty]
      rw [synced_alone existing first second halone, Keeps, hcut, hempty]
      refine and_congr_right' (and_congr_right' (iff_of_true ?_ ?_))
      · exact Or.inr (Or.inr ⟨wrapProfileSection second, rfl⟩)
      · exact blank_unmarked existing hempty
    · refine synced_after existing first second hcut (fun c => ?_)
      rw [hmerge, append_eq, if_neg hheader, if_neg hseed, if_neg hempty]

/-- A template that the user filled in is deleted. -/
theorem filled_template_lost : ¬ Synced "# User Context\n\n- **Name:** Ada".toList [] [] := by
  intro h
  have hcut : cutBlock "# User Context\n\n- **Name:** Ada".toList = none := by
    refine cutBlock_unmarked _ (fun h => ?_)
    have hmark : '<' ∈ "# User Context\n\n- **Name:** Ada".toList :=
      h.subset (by decide)
    revert hmark
    decide
  have hseed : isSeedTemplate "# User Context\n\n- **Name:** Ada".toList = true := by
    decide
  have hplain : ¬ hasOldHeader "# User Context\n\n- **Name:** Ada".toList = true := by
    decide
  obtain htemplate | hheader | hkept := h.kept
  · obtain ⟨rest, hrest⟩ := template_begins
    have hshort := (trimEnd_begins "# User Context\n\n- **Name:** Ada".toList).length_le
    rw [htemplate, hrest, List.length_append] at hshort
    have hlong : "# User Context\n\n- **Name:** Ada".toList.length < templateFields.length := by
      decide
    omega
  · exact hplain hheader
  · rw [Keeps, hcut, merge_eq, hcut, append_eq, if_neg hplain, if_pos hseed] at hkept
    exact seed_loses _ hseed [] hkept

end IronClaw.ProfileSection
