import IronClaw.HostPatterns

/-!
# Commands are words

The parser of submissions compares the lowered text with its commands. All but
one of the comparisons are with a whole text, or with a lead that ends in a
space, so that they decide about the first word of the message; the command for
the model is looked for without the space.
-/

set_option autoImplicit false

namespace IronClaw.SubmissionWords
open IronClaw.Submission IronClaw.LlmMessage Lib.Text Lib.Letters Lib.Words

def commandWords : List String :=
  ["/undo", "/redo", "/interrupt", "/stop", "/compact", "/clear", "/heartbeat", "/summarize",
    "/summary", "/suggest", "/thread", "/new", "/help", "/?", "/version", "/tools", "/skills",
    "/ping", "/debug", "/restart", "/model", "/quit", "/exit", "/shutdown", "/status", "/progress",
    "/list", "/cancel", "/resume"]

def firstWord (s : String) : Option String := (splitWhitespace s).head?

structure Lowering (stx : Syntax) (t : Tables) : Prop where
  lowers : ∀ s, stx.toLowercase s = String.ofList (toLowercase t s.toList)
  doc : Documented t
  gaps : ∀ c, isWhitespace c = true → Gap t c

def Meant (stx : Syntax) (content : String) : Submission → Prop
  | .userInput input => input = content
  | .execApproval id approved always => (trim content).toList.head? = some '\x7b' ∧
      stx.fromJson (trim content) = some (.execApproval id approved always)
  | .approvalResponse approved always =>
      (stx.toLowercase (trim content), .approvalResponse approved always) ∈ approvalCommands
  | _ => ∃ w, firstWord content = some w ∧ stx.toLowercase w ∈ commandWords

def ModelWord (stx : Syntax) (content : String) : Prop :=
  ∀ w, firstWord content = some w → startsWith (stx.toLowercase w) "/model" = true →
    stx.toLowercase w = "/model"

section Lowered

variable (stx : Syntax) (t : Tables) (low : Lowering stx t)

include low

theorem lowered_word (w : List Char) (hw : IsWord isWhitespace w) :
    IsWord isWhitespace (toLowercase t w) := by
  constructor
  · obtain ⟨c, cs, rfl⟩ := List.exists_cons_of_ne_nil hw.1
    intro hnil
    obtain ⟨hfirst, -⟩ := List.append_eq_nil_iff.mp hnil
    split at hfirst
    · cases hfirst
    · exact low.doc.nonempty c hfirst
  · intro c hc
    by_contra hspace
    have hgap := low.gaps c (by simpa using hspace)
    have hσ : c ≠ 'σ' := by
      rintro rfl
      exact hspace (by decide)
    have hς : c ≠ 'ς' := by
      rintro rfl
      exact hspace (by decide)
    have hcount := count_lowerIn t c hgap.mark hσ hς [] w []
    have hzero : w.count c = 0 := List.count_eq_zero.mpr (fun hmem => hspace (hw.2 c hmem))
    rw [hzero, List.count_eq_zero] at hcount
    exact hcount hc

/-- Lowering goes word by word. -/
theorem words_lowered (cs : List Char) :
    words isWhitespace (toLowercase t cs) = (words isWhitespace cs).map (toLowercase t) := by
  induction hn : cs.length using Nat.strong_induction_on generalizing cs with
  | _ n ih =>
    have hsplit := List.takeWhile_append_dropWhile (p := fun c => !isWhitespace c) (l := cs)
    have hfront : ∀ c ∈ cs.takeWhile (fun c => !isWhitespace c), isWhitespace c = false :=
      fun c hc => mem_takeWhile_not cs c hc
    have hword : words isWhitespace (toLowercase t (cs.takeWhile (fun c => !isWhitespace c))) =
        (words isWhitespace (cs.takeWhile (fun c => !isWhitespace c))).map (toLowercase t) := by
      by_cases hnil : cs.takeWhile (fun c => !isWhitespace c) = []
      · rw [hnil]
        show words isWhitespace [] = _
        rw [words_nil]
        rfl
      · have hw : IsWord isWhitespace (cs.takeWhile (fun c => !isWhitespace c)) := ⟨hnil, hfront⟩
        rw [words_word _ hw, words_word _ (lowered_word stx t low _ hw)]
        rfl
    rcases @dropWhile_sep Char isWhitespace cs with hrest | ⟨c, rest, hrest, hc⟩
    · rw [hrest, List.append_nil] at hsplit
      rwa [hsplit] at hword
    · rw [hrest] at hsplit
      have hshort : rest.length < n := by
        rw [← hn, ← hsplit]
        simp
        omega
      rw [← hsplit, toLowercase_gap t c (low.gaps c hc), words_append _ _ c hc,
        words_append _ _ c hc, hword, ih rest.length hshort rest rfl, List.map_append]

theorem splitWhitespace_lowered (s : String) :
    splitWhitespace (stx.toLowercase s) = (splitWhitespace s).map stx.toLowercase := by
  show (words isWhitespace (stx.toLowercase s).toList).map String.ofList =
    ((words isWhitespace s.toList).map String.ofList).map stx.toLowercase
  rw [low.lowers, String.toList_ofList, words_lowered stx t low, List.map_map, List.map_map]
  apply List.map_congr_left
  intro w _
  simp [low.lowers]

omit low in
theorem splitWhitespace_trim (s : String) : splitWhitespace (trim s) = splitWhitespace s := by
  show (words isWhitespace (trim s).toList).map String.ofList = _
  rw [trim, String.toList_ofList, trimChars, words_rdropWhile, words_dropWhile]
  rfl

theorem firstWord_lowered (content : String) :
    firstWord (stx.toLowercase (trim content)) = (firstWord content).map stx.toLowercase := by
  rw [firstWord, splitWhitespace_lowered stx t low, splitWhitespace_trim, List.head?_map]
  rfl

theorem command_word (content w : String)
    (hw : firstWord (stx.toLowercase (trim content)) = some w) (hmem : w ∈ commandWords) :
    ∃ v, firstWord content = some v ∧ stx.toLowercase v ∈ commandWords := by
  rw [firstWord_lowered stx t low] at hw
  obtain ⟨v, hv, rfl⟩ := Option.map_eq_some_iff.mp hw
  exact ⟨v, hv, hmem⟩

end Lowered

theorem trimmed_head (cs tail : List Char) (c : Char) (h : trimChars cs = c::tail) :
    isWhitespace c = false := by
  have hpre : trimChars cs <+: cs.dropWhile isWhitespace := List.rdropWhile_prefix _ _
  rw [h] at hpre
  obtain ⟨rest, hrest⟩ := hpre
  have hhead := List.head?_dropWhile_not isWhitespace cs
  rw [← hrest] at hhead
  simpa using hhead

variable (stx : Syntax) (content : String) (t : Tables)

/-- The lowered text begins with the first word, lowered. -/
theorem begins_lowered (low : Lowering stx t) (content w lead : String)
    (hw : firstWord content = some w) (hlead : startsWith (stx.toLowercase w) lead = true) :
    startsWith (stx.toLowercase (trim content)) lead = true := by
  rw [firstWord, ← splitWhitespace_trim] at hw
  obtain ⟨ws, hws⟩ := List.head?_eq_some_iff.mp hw
  obtain ⟨v, vs, hwords, hv, -⟩ := List.map_eq_cons_iff.mp hws
  obtain ⟨g, rest, htext, hg, hword, -, htail⟩ := words_first _ v vs hwords
  rw [trim, String.toList_ofList] at htext
  have hnone : g = [] := by
    cases g with
    | nil => rfl
    | cons c g =>
      have hblank := hg c List.mem_cons_self
      rw [trimmed_head content.toList (g++v++rest) c htext] at hblank
      cases hblank
  rw [hnone, List.nil_append] at htext
  have hbegin : toLowercase t v <+: toLowercase t (v++rest) := by
    rcases htail with hnil | ⟨c, tail, hcons, hc⟩
    · rw [hnil, List.append_nil]
    · rw [hcons, toLowercase_gap t c (low.gaps c hc)]
      exact List.prefix_append _ _
  rw [startsWith, low.lowers, String.toList_ofList, ← hv, String.toList_ofList] at hlead
  rw [startsWith, low.lowers, String.toList_ofList, trim, String.toList_ofList, htext]
  exact List.isPrefixOf_iff_prefix.mpr ((List.isPrefixOf_iff_prefix.mp hlead).trans hbegin)

theorem prefix_of_startsWith (s lead : String) (h : startsWith s lead = true) :
    ∃ rest, s.toList = lead.toList++rest := by
  obtain ⟨rest, hrest⟩ := List.isPrefixOf_iff_prefix.mp h
  exact ⟨rest, hrest.symm⟩

theorem firstWord_lead (s lead name : String) (h : startsWith s lead = true)
    (hlead : lead.toList = name.toList++[' ']) (hname : IsWord isWhitespace name.toList) :
    firstWord s = some name := by
  obtain ⟨rest, hrest⟩ := prefix_of_startsWith s lead h
  show ((words isWhitespace s.toList).map String.ofList).head? = _
  rw [hrest, hlead, List.append_assoc, List.singleton_append, words_append _ _ ' ' (by decide),
    words_word _ hname]
  simp

theorem firstWord_begin (s name : String) (h : startsWith s name = true)
    (hname : IsWord isWhitespace name.toList) :
    ∃ w, firstWord s = some w ∧ startsWith w name = true := by
  obtain ⟨rest, hrest⟩ := prefix_of_startsWith s name h
  obtain ⟨e, ws, hwords⟩ := words_begin name.toList rest hname
  refine ⟨String.ofList (name.toList++e), ?_, ?_⟩
  · show ((words isWhitespace s.toList).map String.ofList).head? = _
    rw [hrest, hwords]
    rfl
  · rw [startsWith, String.toList_ofList]
    exact List.isPrefixOf_iff_prefix.mpr (List.prefix_append _ _)

theorem startsWith_of_strip (s lead rest : String) (h : stripPrefix s lead = some rest) :
    startsWith s lead = true := by
  unfold stripPrefix at h
  split at h
  · assumption
  · cases h

def rules (stx : Syntax) (content : String) : List (Option Submission) :=
  let trimmed := trim content
  let lower := stx.toLowercase trimmed
  [controlCommands.lookup lower, systemCommands.lookup lower,
    wordsCommand "skills" "/skills " trimmed lower, laterSystemCommands.lookup lower,
    wordsCommand "model" "/model" trimmed lower,
    if lower ∈ quitCommands then some .quit else none, statusCommand lower,
    if lower = "/list" then some (.jobStatus none) else none, cancelCommand lower,
    switchCommand stx lower, resumeCommand stx lower, structuredApproval stx trimmed,
    approvalCommands.lookup lower]

theorem parse_rules :
    parse stx content = firstSome (rules stx content) (.userInput content) := rfl

theorem firstSome_mem (rs : List (Option Submission)) (fallback : Submission) :
    some (firstSome rs fallback) ∈ rs ∨ firstSome rs fallback = fallback := by
  induction rs with
  | nil => exact Or.inr rfl
  | cons r rs ih =>
    cases r with
    | none => exact ih.imp (List.mem_cons_of_mem none) id
    | some s => exact Or.inl List.mem_cons_self

def isCommand : Submission → Bool
  | .userInput _ => false
  | .execApproval _ _ _ => false
  | .approvalResponse _ _ => false
  | _ => true

theorem meant_command (s : Submission) (h : isCommand s = true) :
    Meant stx content s ↔ ∃ w, firstWord content = some w ∧ stx.toLowercase w ∈ commandWords := by
  cases s <;> first | exact Iff.rfl | cases h

def Tabled (table : List (String × Submission)) : Prop :=
  ∀ e ∈ table, isCommand e.2 = true ∧ ∃ w ∈ commandWords, firstWord e.1 = some w

theorem tabled_control : Tabled controlCommands := by
  unfold Tabled
  decide

theorem tabled_system : Tabled systemCommands := by
  unfold Tabled
  decide

theorem tabled_later : Tabled laterSystemCommands := by
  unfold Tabled
  decide

theorem quit_words : ∀ c ∈ quitCommands, ∃ w ∈ commandWords, firstWord c = some w := by
  decide

theorem lead_words : ∀ e ∈ [("/skills ", "/skills"), ("/status ", "/status"),
    ("/progress ", "/progress"), ("/cancel ", "/cancel"), ("/thread ", "/thread"),
    ("/resume ", "/resume")], e.1.toList = e.2.toList++[' '] ∧ e.2.toList.isEmpty = false ∧
      e.2.toList.all (fun c => !isWhitespace c) = true ∧ e.2 ∈ commandWords := by
  decide

section Rules

variable (stx : Syntax) (t : Tables) (low : Lowering stx t) (content : String)

include low

theorem lead_meant (lead name : String) (s : Submission) (hs : isCommand s = true)
    (h : startsWith (stx.toLowercase (trim content)) lead = true)
    (hlead : (lead, name) ∈ [("/skills ", "/skills"), ("/status ", "/status"),
      ("/progress ", "/progress"), ("/cancel ", "/cancel"), ("/thread ", "/thread"),
      ("/resume ", "/resume")]) : Meant stx content s := by
  obtain ⟨hspelled, hne, hall, hmem⟩ := lead_words (lead, name) hlead
  have hname : IsWord isWhitespace name.toList := isWord_of_all _ hne hall
  rw [meant_command stx content s hs]
  exact command_word stx t low content name (firstWord_lead _ lead name h hspelled hname) hmem

theorem table_meant (table : List (String × Submission)) (htable : Tabled table) (s : Submission)
    (h : table.lookup (stx.toLowercase (trim content)) = some s) : Meant stx content s := by
  obtain ⟨hs, w, hmem, hw⟩ := htable _ (mem_of_lookup table _ s h)
  rw [meant_command stx content s hs]
  exact command_word stx t low content w hw hmem

theorem word_meant (w : String) (s : Submission) (hs : isCommand s = true)
    (hw : firstWord (stx.toLowercase (trim content)) = some w) (hmem : w ∈ commandWords) :
    Meant stx content s :=
  (meant_command stx content s hs).mpr (command_word stx t low content w hw hmem)

variable (s : Submission)

theorem status_meant (h : statusCommand (stx.toLowercase (trim content)) = some s) :
    Meant stx content s := by
  unfold statusCommand at h
  split at h
  · rename_i heq
    cases h
    rcases heq with heq | heq
    · exact word_meant stx t low content "/status" _ rfl (by rw [heq]; decide) (by decide)
    · exact word_meant stx t low content "/progress" _ rfl (by rw [heq]; decide) (by decide)
  · split at h
    · rename_i rest hrest
      split at h
      · cases h
      · cases h
        have hleads : (stripPrefix (stx.toLowercase (trim content)) "/status ").or
            (stripPrefix (stx.toLowercase (trim content)) "/progress ") = some rest := by
          simpa [Option.orElse_eq_or] using hrest
        rcases Option.or_eq_some_iff.mp hleads with hstrip | ⟨-, hstrip⟩
        · exact lead_meant stx t low content "/status " "/status" _ rfl
            (startsWith_of_strip _ _ _ hstrip) (by simp)
        · exact lead_meant stx t low content "/progress " "/progress" _ rfl
            (startsWith_of_strip _ _ _ hstrip) (by simp)
    · cases h

theorem cancel_meant (h : cancelCommand (stx.toLowercase (trim content)) = some s) :
    Meant stx content s := by
  unfold cancelCommand at h
  split at h
  · rename_i rest hrest
    split at h
    · cases h
    · cases h
      exact lead_meant stx t low content "/cancel " "/cancel" _ rfl
        (startsWith_of_strip _ _ _ hrest) (by simp)
  · cases h

theorem switch_meant (h : switchCommand stx (stx.toLowercase (trim content)) = some s) :
    Meant stx content s := by
  unfold switchCommand at h
  split at h
  · rename_i rest hrest
    split at h
    · cases h
    · obtain ⟨id, -, rfl⟩ := Option.map_eq_some_iff.mp h
      exact lead_meant stx t low content "/thread " "/thread" _ rfl
        (startsWith_of_strip _ _ _ hrest) (by simp)
  · cases h

theorem resume_meant (h : resumeCommand stx (stx.toLowercase (trim content)) = some s) :
    Meant stx content s := by
  unfold resumeCommand at h
  split at h
  · rename_i rest hrest
    obtain ⟨id, -, rfl⟩ := Option.map_eq_some_iff.mp h
    exact lead_meant stx t low content "/resume " "/resume" _ rfl
      (startsWith_of_strip _ _ _ hrest) (by simp)
  · cases h

theorem model_meant (hmodel : ModelWord stx content) (s : Submission)
    (h : wordsCommand "model" "/model" (trim content) (stx.toLowercase (trim content)) = some s) :
    Meant stx content s := by
  unfold wordsCommand at h
  split at h
  · rename_i hstarts
    cases h
    have hname : IsWord isWhitespace "/model".toList :=
      isWord_of_all _ (by decide) (by decide)
    obtain ⟨w, hw, hbegin⟩ := firstWord_begin _ "/model" hstarts hname
    have hfirst := hw
    rw [firstWord_lowered stx t low] at hw
    obtain ⟨v, hv, rfl⟩ := Option.map_eq_some_iff.mp hw
    refine word_meant stx t low content _ _ rfl hfirst ?_
    rw [hmodel v hv hbegin]
    decide
  · cases h

theorem skills_meant
    (h : wordsCommand "skills" "/skills " (trim content) (stx.toLowercase (trim content)) =
      some s) : Meant stx content s := by
  unfold wordsCommand at h
  split at h
  · rename_i hstarts
    cases h
    exact lead_meant stx t low content "/skills " "/skills" _ rfl hstarts (by simp)
  · cases h

end Rules

theorem structured_meant (s : Submission) (h : structuredApproval stx (trim content) = some s) :
    Meant stx content s := by
  unfold structuredApproval at h
  split at h
  · rename_i hhead
    split at h
    · rename_i id approved always hjson
      cases h
      exact ⟨hhead, hjson⟩
    · cases h
  · cases h

theorem answers_approvals : ∀ e ∈ approvalCommands,
    ∃ approved always, e.2 = .approvalResponse approved always := by
  decide

theorem answer_meant (s : Submission)
    (h : approvalCommands.lookup (stx.toLowercase (trim content)) = some s) :
    Meant stx content s := by
  have hmem := mem_of_lookup _ _ _ h
  obtain ⟨approved, always, rfl⟩ := answers_approvals _ hmem
  exact hmem

theorem quit_meant (low : Lowering stx t) (content : String)
    (h : stx.toLowercase (trim content) ∈ quitCommands) : Meant stx content .quit := by
  obtain ⟨w, hmem, hw⟩ := quit_words _ h
  exact word_meant stx t low content w .quit rfl hw hmem

theorem list_meant (low : Lowering stx t) (content : String)
    (h : stx.toLowercase (trim content) = "/list") : Meant stx content (.jobStatus none) :=
  word_meant stx t low content "/list" _ rfl (by rw [h]; decide) (by decide)

theorem lookup_begun (table : List (String × Submission)) (lower lead : String)
    (htable : ∀ e ∈ table, startsWith e.1 lead = false) (h : startsWith lower lead = true) :
    table.lookup lower = none := by
  cases hfound : table.lookup lower with
  | none => rfl
  | some s =>
    have hnot := htable _ (mem_of_lookup table lower s hfound)
    rw [h] at hnot
    cases hnot

/-- What begins like the command for the model is a command for the model. -/
theorem parse_model (h : startsWith (stx.toLowercase (trim content)) "/model" = true) :
    parse stx content = .systemCommand "model" ((splitWhitespace (trim content)).drop 1) := by
  have hskills : startsWith (stx.toLowercase (trim content)) "/skills " = false := by
    by_contra hboth
    obtain ⟨rest, hrest⟩ := prefix_of_startsWith _ _ h
    obtain ⟨rest', hrest'⟩ := prefix_of_startsWith _ _ (by simpa using hboth)
    rw [hrest] at hrest'
    have hsecond := congrArg (fun cs => cs[1]?) hrest'
    cases hsecond
  have hcontrol := lookup_begun controlCommands _ "/model" (by decide) h
  have hsystem := lookup_begun systemCommands _ "/model" (by decide) h
  have hlater := lookup_begun laterSystemCommands _ "/model" (by decide) h
  simp only [parse_rules, rules, hcontrol, hsystem, hlater, wordsCommand, hskills, h, firstSome,
    if_true, Bool.false_eq_true, if_false]

theorem model_alone : ∀ w ∈ commandWords, startsWith w "/model" = true → w = "/model" := by
  decide

/-- A result means what the message says exactly when no word longer than the
command for the model is taken for it. -/
theorem commands_are_words (low : Lowering stx t) (content : String) :
    Meant stx content (parse stx content) ↔ ModelWord stx content := by
  constructor
  · intro hmeant w hw hbegin
    rw [parse_model stx content (begins_lowered stx t low content w "/model" hw hbegin)] at hmeant
    obtain ⟨v, hv, hmem⟩ := hmeant
    rw [hw] at hv
    cases hv
    exact model_alone _ hmem hbegin
  · intro hmodel
    rw [parse_rules]
    rcases firstSome_mem (rules stx content) (.userInput content) with hrule | hdefault
    · simp only [rules, List.mem_cons, List.not_mem_nil, or_false] at hrule
      rcases hrule with h | h | h | h | h | h | h | h | h | h | h | h | h
      · exact table_meant stx t low content _ tabled_control _ h.symm
      · exact table_meant stx t low content _ tabled_system _ h.symm
      · exact skills_meant stx t low content _ h.symm
      · exact table_meant stx t low content _ tabled_later _ h.symm
      · exact model_meant stx t low content hmodel _ h.symm
      · obtain ⟨hquit, hsome⟩ := Option.ite_none_right_eq_some.mp h.symm
        rw [rules, ← Option.some.inj hsome]
        exact quit_meant stx t low content hquit
      · exact status_meant stx t low content _ h.symm
      · obtain ⟨hlist, hsome⟩ := Option.ite_none_right_eq_some.mp h.symm
        rw [rules, ← Option.some.inj hsome]
        exact list_meant stx t low content hlist
      · exact cancel_meant stx t low content _ h.symm
      · exact switch_meant stx t low content _ h.symm
      · exact resume_meant stx t low content _ h.symm
      · exact structured_meant stx content _ h.symm
      · exact answer_meant stx content _ h.symm
    · rw [hdefault]
      exact rfl

def asciiSyntax : Syntax where
  toLowercase s := String.ofList (toLowercase HostPatterns.asciiTables s.toList)
  parseUuid _ := none
  fromJson _ := none

theorem letterless (c : Char) (h : c.toNat < 65 ∨ 122 < c.toNat) :
    c.isAlpha = false ∧ c.toLower = c := by
  constructor
  · rw [← Bool.not_eq_true, isAlpha_iff]
    omega
  · unfold Char.toLower
    split
    · rename_i hc
      have hle : 65 ≤ c.toNat ∧ c.toNat ≤ 90 := hc
      omega
    · rfl

theorem ascii_gap (c : Char) (h : isWhitespace c = true) : Gap HostPatterns.asciiTables c := by
  have hrange := isWhitespace_range c h
  obtain ⟨halpha, hlower⟩ := letterless c (by omega)
  constructor
  · apply HostPatterns.ascii_mark c _ _ _ hlower
    · rintro rfl
      revert h
      decide
    · rintro rfl
      revert h
      decide
    · omega
  · simp only [HostPatterns.asciiTables, Bool.or_eq_false_iff, decide_eq_false_iff_not]
    constructor
    · rintro rfl
      revert h
      decide
    · rintro rfl
      revert h
      decide
  · exact halpha

theorem ascii_lowering : Lowering asciiSyntax HostPatterns.asciiTables :=
  ⟨fun _ => rfl, HostPatterns.ascii_documented, ascii_gap⟩

/-- The command for the model, in another case and with words after it, is a
command. -/
theorem model_command :
    Meant asciiSyntax " /MODEL gpt " (parse asciiSyntax " /MODEL gpt ") ∧
      parse asciiSyntax " /MODEL gpt " = .systemCommand "model" ["gpt"] := by
  refine ⟨?_, by decide⟩
  refine (commands_are_words asciiSyntax _ ascii_lowering " /MODEL gpt ").mpr ?_
  intro w hw _
  rw [show firstWord " /MODEL gpt " = some "/MODEL" by decide] at hw
  rw [← Option.some.inj hw]
  decide

/-- A message about modelling is taken for the command for the model. -/
theorem modelling_command :
    parse asciiSyntax "/modelling is fun" = .systemCommand "model" ["is", "fun"] ∧
      ¬ Meant asciiSyntax "/modelling is fun" (parse asciiSyntax "/modelling is fun") := by
  have hparse : parse asciiSyntax "/modelling is fun" = .systemCommand "model" ["is", "fun"] := by
    decide
  refine ⟨hparse, ?_⟩
  rw [hparse]
  rintro ⟨w, hw, hmem⟩
  rw [show firstWord "/modelling is fun" = some "/modelling" by decide] at hw
  rw [← Option.some.inj hw] at hmem
  revert hmem
  decide

end IronClaw.SubmissionWords
