import IronClaw.LeakFilter
import IronClaw.SafetyLayer

/-!
# Secrets in tool results

What the language model is shown of a tool result is the output after a number
of rewritings. Each of them is followed for the expressions of the patterns
that block: characters that no secret holds separate a text, so putting one
next to another changes nothing; line endings and marks before lines leave the
words as they are, and the private key headers are patterns of words. What is
left are the places where a text is shown that was not scanned, or that the
scan let pass.
-/

set_option autoImplicit false

namespace IronClaw.SecretLeak
open IronClaw.LlmMessage IronClaw.LeakScan IronClaw.LeakFilter IronClaw.ToolOutput
open IronClaw.SafetyLayer Lib.Text Lib.Ties Lib.Search Lib.Words Lib.Regex

def Secret (text : List Char) : Prop := ∃ row ∈ blockSyntax, Occurs row.2 text

def walls : List Char :=
  ['<', '>', '"', '[', ']', '\\', '|', '&', ';', ':', '/', zeroWidth]

def blankCodes : List ℕ :=
  [9, 10, 11, 12, 13, 32, 133, 160, 5760, 8192, 8193, 8194, 8195, 8196, 8197, 8198, 8199, 8200,
   8201, 8202, 8232, 8233, 8239, 8287, 12288]

def blanks : List Char := blankCodes.map Char.ofNat

def digits : List Char := ['0', '1', '2', '3', '4', '5', '6', '7', '8', '9']

theorem mem_blanks (c : Char) (h : isWhitespace c = true) : c ∈ blanks := by
  have hcode : c.toNat ∈ blankCodes := by
    simp only [isWhitespace, Bool.or_eq_true, Bool.and_eq_true, decide_eq_true_eq, beq_iff_eq,
      UInt32.le_iff_toNat_le, ← UInt32.toNat_inj, UInt32.reduceToNat] at h
    have hval : c.toNat = c.val.toNat := rfl
    simp only [blankCodes, List.mem_cons, List.not_mem_nil, or_false]
    omega
  exact List.mem_map.mpr ⟨c.toNat, hcode, Char.ofNat_toNat c⟩

theorem mem_digits (n : ℕ) (c : Char) (h : c ∈ (toString n).toList) : c ∈ digits := by
  have hdigits : c ∈ Nat.toDigits 10 n := by
    rw [← Nat.toList_repr]
    exact h
  have hdigit := Nat.isDigit_of_mem_toDigits (by decide) (by decide) hdigits
  have hlow : 48 ≤ c.toNat := (Bool.and_eq_true_iff.mp hdigit).1 |> of_decide_eq_true
  have hhigh : c.toNat ≤ 57 := (Bool.and_eq_true_iff.mp hdigit).2 |> of_decide_eq_true
  have hcode : c.toNat ∈ [48, 49, 50, 51, 52, 53, 54, 55, 56, 57] := by
    simp only [List.mem_cons, List.not_mem_nil, or_false]
    omega
  exact List.mem_map.mpr ⟨c.toNat, hcode, Char.ofNat_toNat c⟩

structure Shape (r : Expr) : Prop where
  filled : nullable r = false
  walled : ∀ c ∈ walls, allows c r = false
  startBlank : ∀ c ∈ blanks, canStart c r = false
  startDigit : ∀ c ∈ digits, canStart c r = false
  endBlank : ∀ c ∈ blanks, canEnd c r = false

def pemHeader : Expr :=
  .seq (text "-----BEGIN") (.seq spaces (.seq (.opt (.seq (text "RSA") spaces))
    (.seq (text "PRIVATE") (.seq spaces (text "KEY-----")))))

def sshHeader : Expr :=
  .seq (text "-----BEGIN") (.seq spaces
    (.seq (.group (.alt (text "OPENSSH") (.alt (text "EC") (text "DSA"))))
      (.seq spaces (.seq (text "PRIVATE") (.seq spaces (text "KEY-----"))))))

def plainOrHeader (r : Expr) : Bool :=
  blanks.all (fun c => !allows c r) ||
    (r = pemHeader || r = sshHeader) && " showing ".toList.all (fun c => !canStart c r)

def wellShaped (r : Expr) : Bool :=
  !nullable r && walls.all (fun c => !allows c r) && blanks.all (fun c => !canStart c r) &&
    digits.all (fun c => !canStart c r) && blanks.all (fun c => !canEnd c r) && plainOrHeader r

theorem rows_wellShaped : blockSyntax.all (fun row => wellShaped row.2) = true := by
  simp only [blockSyntax, List.all_cons, List.all_nil, Bool.and_true, Bool.and_eq_true]
  -- one check for each row
  and_intros <;> decide +kernel

variable (row : String × Expr)

theorem row_shape (hrow : row ∈ blockSyntax) : Shape row.2 := by
  have h := List.all_eq_true.mp rows_wellShaped row hrow
  simp only [wellShaped, Bool.and_eq_true, List.all_eq_true, Bool.not_eq_true'] at h
  obtain ⟨⟨⟨⟨⟨hfilled, hwalled⟩, hblank⟩, hdigit⟩, hend⟩, _⟩ := h
  exact ⟨hfilled, hwalled, hblank, hdigit, hend⟩

theorem row_kind (hrow : row ∈ blockSyntax) :
    (∀ c ∈ blanks, allows c row.2 = false) ∨
    (row.2 = pemHeader ∨ row.2 = sshHeader) ∧
      ∀ c ∈ " showing ".toList, canStart c row.2 = false := by
  have h := List.all_eq_true.mp rows_wellShaped row hrow
  have hkind := (Bool.and_eq_true_iff.mp h).2
  simpa only [plainOrHeader, Bool.or_eq_true, Bool.and_eq_true, List.all_eq_true,
    Bool.not_eq_true', decide_eq_true_eq] using hkind

def markWord : List Char := ['[', 'E', 'S', 'C', 'A', 'P', 'E', 'D', ']']

def fixedTexts : List (List Char) :=
  [['a', 'm', 'p'], ['q', 'u', 'o', 't'], ['l', 't'], ['g', 't'], '<'::word++" name=".toList,
   '/'::word++['>'], "Error".toList, " showing".toList, "... truncated".toList,
   " bytes. Use the json tool with source_tool_call_id to query the full output.]".toList,
   markWord, "[Output blocked due to potential secret leakage]".toList,
   "[Output blocked by safety policy]".toList]

theorem fixedTexts_searched :
    fixedTexts.all (fun text => blockSyntax.all (fun row => (findIter row.2 text).isEmpty)) =
      true := by
  simp only [fixedTexts, List.all_cons, List.all_nil, Bool.and_true, Bool.and_eq_true]
  and_intros <;> decide +kernel

theorem quiet (text : List Char) (h : text ∈ fixedTexts) (row : String × Expr)
    (hrow : row ∈ blockSyntax) : ¬ Occurs row.2 text := by
  intro hoccurs
  have hempty := List.all_eq_true.mp (List.all_eq_true.mp fixedTexts_searched text h) row hrow
  have hfound := (findIter_ne_nil row.2 text (row_shape row hrow).filled).mpr hoccurs
  rw [List.isEmpty_iff] at hempty
  exact hfound hempty

/-- A closing tag gets its zero-width space before the slash. -/
theorem closeTags_inserted (cs : List Char) :
    Inserted (fun c => c = zeroWidth) (fun c => c = '/') cs (closeTags cs) := by
  induction hn : cs.length using Nat.strong_induction_on generalizing cs with
  | _ n ih =>
    cases cs with
    | nil => exact .nil
    | cons c cs =>
      rw [closeTags]
      by_cases hopens : opens (c::cs) = true
      · obtain ⟨rest, hrest⟩ := opens_slash c cs hopens
        rw [if_pos hopens, hrest, closeTags_other '/' rest (by decide)]
        have hshort : rest.length < n := by
          rw [← hn, hrest, List.length_cons, List.length_cons]
          omega
        exact .keep c (.put zeroWidth '/' rfl rfl (ih rest.length hshort rest rfl))
      · rw [if_neg hopens]
        have hshort : cs.length < n := by
          rw [← hn, List.length_cons]
          omega
        exact .keep c (ih cs.length hshort cs rfl)

section

variable (row : String × Expr) (hrow : row ∈ blockSyntax)
include hrow

theorem occurs_wall (p q : List Char) (c : Char) (hc : c ∈ walls) :
    Occurs row.2 (p++c::q) ↔ Occurs row.2 p ∨ Occurs row.2 q :=
  occurs_beside row.2 p q c ((row_shape row hrow).walled c hc)

theorem occurs_wall_first (q : List Char) (c : Char) (hc : c ∈ walls) :
    Occurs row.2 (c::q) ↔ Occurs row.2 q := by
  have hnil := occurs_nil row.2 (row_shape row hrow).filled
  have hsplit : Occurs row.2 (c::q) ↔ Occurs row.2 [] ∨ Occurs row.2 q :=
    occurs_wall row hrow [] q c hc
  rw [hsplit]
  exact or_iff_right hnil

theorem occurs_blank_first (q : List Char) (c : Char) (hc : c ∈ blanks) :
    Occurs row.2 (c::q) ↔ Occurs row.2 q :=
  occurs_cons row.2 c q (row_shape row hrow).filled ((row_shape row hrow).startBlank c hc)

theorem occurs_blank_last (p : List Char) (c : Char) (hc : c ∈ blanks) :
    Occurs row.2 (p++[c]) ↔ Occurs row.2 p :=
  occurs_concat row.2 c p (row_shape row hrow).filled ((row_shape row hrow).endBlank c hc)

theorem occurs_entity (p body q : List Char) (hbody : ¬ Occurs row.2 body) :
    Occurs row.2 (p++ '&'::(body++ ';'::q)) ↔ Occurs row.2 p ∨ Occurs row.2 q := by
  rw [occurs_wall row hrow p _ '&' (by decide), occurs_wall row hrow body q ';' (by decide),
    or_iff_right hbody]

/-- The entities of an attribute stand for characters that no secret holds. -/
theorem attr_occurs (name p : List Char) :
    Occurs row.2 (p++escapeXmlAttr name) ↔ Occurs row.2 (p++name) := by
  induction name generalizing p with
  | nil => exact Iff.rfl
  | cons c name ih =>
    have hentity : ∀ body : List Char, c ∈ walls → ¬ Occurs row.2 body →
        attrChar c = '&'::(body++[';']) →
        (Occurs row.2 (p++escapeXmlAttr (c::name)) ↔ Occurs row.2 (p++c::name)) := by
      intro body hc hbody hattr
      have hrest := ih []
      rw [List.nil_append, List.nil_append] at hrest
      rw [escapeXmlAttr, List.flatMap_cons, hattr, ← escapeXmlAttr, List.cons_append,
        List.append_assoc, List.singleton_append, occurs_entity row hrow p body _ hbody, hrest,
        occurs_wall row hrow p name c hc]
    by_cases hamp : c = '&'
    · have hbody := quiet ['a', 'm', 'p']
        (by simp only [fixedTexts, List.mem_cons, true_or]) row hrow
      exact hentity _ (by rw [hamp]; decide) hbody (by rw [hamp]; rfl)
    · by_cases hquot : c = '"'
      · have hbody := quiet ['q', 'u', 'o', 't']
          (by simp only [fixedTexts, List.mem_cons, true_or, or_true]) row hrow
        exact hentity _ (by rw [hquot]; decide) hbody (by rw [hquot]; rfl)
      · by_cases hlt : c = '<'
        · have hbody := quiet ['l', 't']
            (by simp only [fixedTexts, List.mem_cons, true_or, or_true]) row hrow
          exact hentity _ (by rw [hlt]; decide) hbody (by rw [hlt]; rfl)
        · by_cases hgt : c = '>'
          · have hbody := quiet ['g', 't']
              (by simp only [fixedTexts, List.mem_cons, true_or, or_true]) row hrow
            exact hentity _ (by rw [hgt]; decide) hbody (by rw [hgt]; rfl)
          · have hplain : attrChar c = [c] := by
              rw [attrChar, if_neg hamp, if_neg hquot, if_neg hlt, if_neg hgt]
            have hstep := ih (p++[c])
            rw [escapeXmlAttr, List.flatMap_cons, hplain, ← escapeXmlAttr]
            rwa [List.append_assoc, List.append_assoc] at hstep

theorem occurs_padded (e v : Char) (he : e ∈ walls) (hv : v ∈ walls) (cs ds : List Char)
    (h : Inserted (fun c => c = e) (fun c => c = v) cs ds) :
    Occurs row.2 ds ↔ Occurs row.2 cs := by
  have hnew : ∀ c, c = e → allows c row.2 = false := by
    intro c hc
    rw [hc]
    exact (row_shape row hrow).walled e he
  have hold : ∀ c, c = v → allows c row.2 = false := by
    intro c hc
    rw [hc]
    exact (row_shape row hrow).walled v hv
  exact occurs_inserted row.2 _ _ hnew hold cs ds h []

theorem wrap_occurs (name content : List Char) :
    Occurs row.2 (opening name++closeTags content++['\n']++ending) ↔
      Occurs row.2 name ∨ Occurs row.2 content := by
  have hbefore := quiet ('<'::word++" name=".toList)
    (by simp only [fixedTexts, List.mem_cons, true_or, or_true]) row hrow
  have hafter := quiet ('/'::word++['>'])
    (by simp only [fixedTexts, List.mem_cons, true_or, or_true]) row hrow
  have hattr := attr_occurs row hrow name []
  rw [List.nil_append, List.nil_append] at hattr
  have htags := occurs_padded row hrow zeroWidth '/' (by decide) (by decide) content _
    (closeTags_inserted content)
  have hshape : opening name++closeTags content++['\n']++ending =
      ('<'::word++" name=".toList)++ '"'::(escapeXmlAttr name++ '"'::('>'::('\n'::
        ((closeTags content++['\n'])++ '<'::('/'::word++['>']))))) := by
    simp only [opening, ending, needle, List.append_assoc, List.cons_append, List.nil_append]
    rfl
  rw [hshape, occurs_wall row hrow _ _ '"' (by decide), or_iff_right hbefore,
    occurs_wall row hrow _ _ '"' (by decide), hattr, occurs_wall_first row hrow _ '>' (by decide),
    occurs_blank_first row hrow _ '\n' (by decide), occurs_wall row hrow _ _ '<' (by decide),
    or_iff_left hafter, occurs_blank_last row hrow _ '\n' (by decide), htags]

theorem error_occurs (e : List Char) :
    Occurs row.2 ("Error: ".toList++e) ↔ Occurs row.2 e := by
  have hbefore := quiet "Error".toList
    (by simp only [fixedTexts, List.mem_cons, true_or, or_true]) row hrow
  have hshape : "Error: ".toList++e = "Error".toList++ ':'::(' '::e) := rfl
  rw [hshape, occurs_wall row hrow _ _ ':' (by decide), or_iff_right hbefore,
    occurs_blank_first row hrow _ ' ' (by decide)]

theorem digits_occurs (n : ℕ) (q : List Char) :
    Occurs row.2 ((toString n).toList++q) ↔ Occurs row.2 q :=
  occurs_skip row.2 _ q (row_shape row hrow).filled
    (fun c hc => (row_shape row hrow).startDigit c (mem_digits n c hc))

theorem showing_quiet (n : ℕ) : ¬ Occurs row.2 (" showing ".toList++(toString n).toList) := by
  have hnil := occurs_nil row.2 (row_shape row hrow).filled
  have hnumber : ¬ Occurs row.2 (toString n).toList := by
    have hdigits := digits_occurs row hrow n []
    rw [List.append_nil] at hdigits
    rwa [hdigits]
  rcases row_kind row hrow with hplain | hkey
  · have hshape : " showing ".toList++(toString n).toList =
        " showing".toList++ ' '::(toString n).toList := rfl
    rw [hshape, occurs_beside row.2 _ _ ' ' (hplain ' ' (by decide)), not_or]
    exact ⟨quiet _ (by simp only [fixedTexts, List.mem_cons, true_or, or_true]) row hrow, hnumber⟩
  · rwa [occurs_skip row.2 _ _ (row_shape row hrow).filled hkey.2]

theorem framed_occurs (kept first showing last : List Char) (cut length : ℕ)
    (hfirst : ¬ Occurs row.2 first) (hshowing : ¬ Occurs row.2 (showing++(toString cut).toList))
    (hlast : ¬ Occurs row.2 last) :
    Occurs row.2 (kept++((['\n']++(['\n']++(['[']++(first++([':']++showing)))))++
      (toString cut).toList++['/']++(toString length).toList++last)) ↔ Occurs row.2 kept := by
  have hshape : kept++((['\n']++(['\n']++(['[']++(first++([':']++showing)))))++
      (toString cut).toList++['/']++(toString length).toList++last) =
      ((kept++['\n'])++['\n'])++ '['::(first++ ':'::
        ((showing++(toString cut).toList)++ '/'::((toString length).toList++last))) := by
    simp only [List.append_assoc, List.cons_append, List.nil_append]
  rw [hshape, occurs_wall row hrow _ _ '[' (by decide),
    occurs_blank_last row hrow _ '\n' (by decide), occurs_blank_last row hrow _ '\n' (by decide),
    occurs_wall row hrow _ _ ':' (by decide), or_iff_right hfirst,
    occurs_wall row hrow _ _ '/' (by decide), or_iff_right hshowing,
    digits_occurs row hrow, or_iff_left hlast]

/-- The notice of a cut output adds nothing to the part that is kept. -/
theorem notice_occurs (kept : List Char) (cut length : ℕ) :
    Occurs row.2 (kept++truncationNotice cut length) ↔ Occurs row.2 kept := by
  have hopening : "\n\n[... truncated: showing ".toList =
      ['\n']++(['\n']++(['[']++("... truncated".toList++([':']++" showing ".toList)))) := by
    simp
  unfold truncationNotice
  rw [hopening]
  have hfirst := quiet "... truncated".toList
    (by simp only [fixedTexts, List.mem_cons, true_or, or_true]) row hrow
  have hlast := quiet
    " bytes. Use the json tool with source_tool_call_id to query the full output.]".toList
    (by simp only [fixedTexts, List.mem_cons, true_or, or_true]) row hrow
  exact framed_occurs row hrow kept _ _ _ cut length hfirst (showing_quiet row hrow cut) hlast

end

theorem lines_words (line cs : List Char) :
    (linesFrom line cs).flatMap (words isWhitespace) = words isWhitespace (line.reverse++cs) := by
  induction cs generalizing line with
  | nil =>
    rw [linesFrom, List.append_nil]
    by_cases hline : line = []
    · rw [if_pos hline, hline]
      exact words_nil.symm
    · rw [if_neg hline]
      simp
  | cons c cs ih =>
    rw [linesFrom]
    by_cases hc : c = '\n'
    · have hstrip : words isWhitespace
          (if line.head? = some '\r' then line.tail else line).reverse =
            words isWhitespace line.reverse := by
        by_cases hcr : line.head? = some '\r'
        · obtain ⟨rest, hrest⟩ := List.head?_eq_some_iff.mp hcr
          rw [if_pos hcr, hrest, List.tail_cons, List.reverse_cons,
            words_append rest.reverse [] '\r' (by decide), words_nil, List.append_nil]
        · rw [if_neg hcr]
      rw [if_pos hc, List.flatMap_cons, hstrip, ih [], hc,
        words_append line.reverse cs '\n' (by decide)]
      rfl
    · rw [if_neg hc, ih (c::line), List.reverse_cons, List.append_assoc]
      rfl

def innerLetters : List Char := ['R', 'P', 'K', 'O', 'E', 'D']

def roleLetters : List Char := ['s', 'u', 'a']

def NotInner (w : List Char) : Prop := ∃ c tail, w = c::tail ∧ c ∉ innerLetters

theorem roleMarkers_head :
    roleMarkers.all (fun marker => marker.head?.any (fun c => roleLetters.contains c)) = true := by
  simp [roleMarkers, roleLetters]

theorem escapedMark_eq : escapedMark = markWord++[' '] := by
  unfold escapedMark
  simp [markWord]

section

variable (toLowercase : List Char → List Char)

/-- A role marker begins with none of the letters of an inner word. -/
theorem marker_letter (hascii : ∀ c cs, c.val < 128 → (toLowercase (c::cs)).head? = some c.toLower)
    (marker tail : List Char) (c : Char) (hmarker : marker ∈ roleMarkers)
    (hbegins : marker <+: toLowercase (c::tail)) : c ∉ innerLetters := by
  intro hin
  have hletters : innerLetters.all (fun d => d.val < 128 && !(roleLetters.contains d.toLower)) =
      true := by decide
  have hletter := List.all_eq_true.mp hletters c hin
  rw [Bool.and_eq_true_iff, decide_eq_true_eq, Bool.not_eq_true'] at hletter
  have hfirst := List.all_eq_true.mp roleMarkers_head marker hmarker
  have hlower := hascii c tail hletter.1
  obtain ⟨rest, hrest⟩ := hbegins
  cases hd : marker.head? with
  | none =>
    rw [hd] at hfirst
    cases hfirst
  | some d =>
    rw [← hrest, List.head?_append, hd, Option.some_or, Option.some.injEq] at hlower
    rw [hd, Option.any_some, hlower, hletter.2] at hfirst
    cases hfirst

/-- The first word of a line with a role marker is no inner word of a header. -/
theorem role_word (hnil : toLowercase [] = [])
    (hascii : ∀ c cs, c.val < 128 → (toLowercase (c::cs)).head? = some c.toLower)
    (line : List Char) (h : isRoleLine toLowercase line = true) :
    ∃ w ws, words isWhitespace line = w::ws ∧ NotInner w := by
  obtain ⟨marker, hmarker, hpre⟩ := List.any_eq_true.mp h
  have hbegins := List.isPrefixOf_iff_prefix.mp hpre
  rw [← words_dropWhile]
  cases htrim : line.dropWhile isWhitespace with
  | nil =>
    rw [htrim, hnil, List.prefix_nil] at hbegins
    rw [hbegins] at hmarker
    exact absurd hmarker (by decide)
  | cons c tail =>
    have hhead := List.head?_dropWhile_not isWhitespace line
    rw [htrim] at hhead hbegins
    have hword : IsWord isWhitespace [c] := by
      constructor
      · exact List.cons_ne_nil _ _
      · intro d hd
        rw [List.mem_singleton.mp hd]
        exact hhead
    obtain ⟨e, ws, hwords⟩ := words_begin [c] tail hword
    have hletter := marker_letter toLowercase hascii marker tail c hmarker hbegins
    exact ⟨c::e, ws, hwords, c, e, rfl, hletter⟩

/-- The escaped lines have the words of the text, with marks before some of
them that are no inner words of a header. -/
theorem escapeLines_inserted (hnil : toLowercase [] = [])
    (hascii : ∀ c cs, c.val < 128 → (toLowercase (c::cs)).head? = some c.toLower)
    (content : List Char) :
    Inserted (fun w => w = markWord) NotInner (words isWhitespace content)
      (words isWhitespace (escapeLines toLowercase content)) := by
  have hlines := lines_words [] content
  rw [List.reverse_nil, List.nil_append] at hlines
  rw [escapeLines, words_intercalate '\n' (by decide), List.flatMap_map, ← hlines]
  apply inserted_flatMap
  intro line _
  rw [escapeLine]
  by_cases hrole : isRoleLine toLowercase line = true
  · obtain ⟨w, ws, hwords, hinner⟩ := role_word toLowercase hnil hascii line hrole
    have hmark : IsWord isWhitespace markWord := isWord_of_all _ (by decide) (by decide)
    rw [if_pos hrole, escapedMark_eq, List.append_assoc, List.singleton_append,
      words_append markWord line ' ' (by decide), words_word _ hmark, hwords]
    exact .put markWord w rfl hinner (inserted_refl ws)
  · rw [if_neg hrole]
    exact inserted_refl _

end

def keyBegin : List Char := ['-', '-', '-', '-', '-', 'B', 'E', 'G', 'I', 'N']

def keyEnd : List Char := ['K', 'E', 'Y', '-', '-', '-', '-', '-']

def privateWord : List Char := ['P', 'R', 'I', 'V', 'A', 'T', 'E']

theorem lang_spaces (g : List Char) : Lang spaces g ↔ IsGap isWhitespace g := by
  constructor
  · rintro ⟨hlen, _, hall⟩
    refine ⟨?_, hall⟩
    intro hnil
    rw [hnil] at hlen
    cases hlen
  · rintro ⟨hne, hall⟩
    refine ⟨List.length_pos_of_ne_nil hne, ?_, hall⟩
    intro n hn
    cases hn

theorem lang_word (w : List Char) (r : Expr) (s : List Char) :
    Lang (.seq (.lit w) (.seq spaces r)) s ↔
      ∃ g rest, IsGap isWhitespace g ∧ s = w++g++rest ∧ Lang r rest := by
  constructor
  · rintro ⟨x, y, hs, hx, g, rest, hy, hg, hrest⟩
    have hx : x = w := hx
    refine ⟨g, rest, (lang_spaces g).mp hg, ?_, hrest⟩
    rw [hs, hx, hy, List.append_assoc]
  · rintro ⟨g, rest, hg, hs, hrest⟩
    refine ⟨w, g++rest, ?_, rfl, g, rest, rfl, (lang_spaces g).mpr hg, hrest⟩
    rw [hs, List.append_assoc]

theorem lang_optional (w : List Char) (r : Expr) (s : List Char) :
    Lang (.seq (.opt (.seq (.lit w) spaces)) r) s ↔
      Lang (.seq (.lit w) (.seq spaces r)) s ∨ Lang r s := by
  constructor
  · rintro ⟨x, y, hs, hnil | ⟨w', g, hx, hw, hg⟩, hy⟩
    · rw [hs, hnil]
      exact Or.inr hy
    · refine Or.inl ⟨w', g++y, ?_, hw, g, y, rfl, hg, hy⟩
      rw [hs, hx, List.append_assoc]
  · rintro (⟨w', z, hs, hw, g, y, hz, hg, hy⟩ | h)
    · refine ⟨w'++g, y, ?_, Or.inr ⟨w', g, rfl, hw, hg⟩, hy⟩
      rw [hs, hz, List.append_assoc]
    · exact ⟨[], s, rfl, Or.inl rfl, h⟩

theorem lang_choice (a b c r : Expr) (s : List Char) :
    Lang (.seq (.group (.alt a (.alt b c))) r) s ↔
      Lang (.seq a r) s ∨ Lang (.seq b r) s ∨ Lang (.seq c r) s := by
  constructor
  · rintro ⟨x, y, hs, hx | hx | hx, hy⟩
    · exact Or.inl ⟨x, y, hs, hx, hy⟩
    · exact Or.inr (Or.inl ⟨x, y, hs, hx, hy⟩)
    · exact Or.inr (Or.inr ⟨x, y, hs, hx, hy⟩)
  · rintro (⟨x, y, hs, hx, hy⟩ | ⟨x, y, hs, hx, hy⟩ | ⟨x, y, hs, hx, hy⟩)
    · exact ⟨x, y, hs, Or.inl hx, hy⟩
    · exact ⟨x, y, hs, Or.inr (Or.inl hx), hy⟩
    · exact ⟨x, y, hs, Or.inr (Or.inr hx), hy⟩

def HeaderOf (r : Expr) (inners : List (List (List Char))) : Prop :=
  ∀ s, Lang r s ↔ ∃ inner ∈ inners, Spread isWhitespace (keyBegin::inner++[keyEnd]) s

theorem lang_private (s : List Char) :
    Lang (.seq (text "PRIVATE") (.seq spaces (text "KEY-----"))) s ↔
      Spread isWhitespace [privateWord, keyEnd] s :=
  lang_word privateWord (.lit keyEnd) s

theorem lang_inner (w s : List Char) :
    Lang (.seq (.lit w) (.seq spaces
      (.seq (text "PRIVATE") (.seq spaces (text "KEY-----"))))) s ↔
        Spread isWhitespace [w, privateWord, keyEnd] s := by
  rw [lang_word]
  simp only [lang_private]
  rfl

theorem header_of (rest : Expr) (inners : List (List (List Char)))
    (h : ∀ s, Lang rest s ↔ ∃ inner ∈ inners, Spread isWhitespace (inner++[keyEnd]) s) :
    HeaderOf (.seq (.lit keyBegin) (.seq spaces rest)) inners := by
  intro s
  rw [lang_word]
  constructor
  · rintro ⟨g, tail, hg, hs, htail⟩
    obtain ⟨inner, hin, hspread⟩ := (h tail).mp htail
    rw [hs]
    exact ⟨inner, hin, spread_cons inner keyBegin keyEnd g tail hg hspread⟩
  · rintro ⟨inner, hin, hspread⟩
    obtain ⟨g, tail, hg, hs, htail⟩ := spread_uncons inner keyBegin keyEnd s hspread
    exact ⟨g, tail, hg, hs, (h tail).mpr ⟨inner, hin, htail⟩⟩

theorem pem_header : HeaderOf pemHeader [[['R', 'S', 'A'], privateWord], [privateWord]] := by
  apply header_of
  intro s
  rw [show text "RSA" = .lit ['R', 'S', 'A'] from rfl, lang_optional, lang_inner, lang_private]
  simp

theorem ssh_header : HeaderOf sshHeader [[['O', 'P', 'E', 'N', 'S', 'S', 'H'], privateWord],
    [['E', 'C'], privateWord], [['D', 'S', 'A'], privateWord]] := by
  apply header_of
  intro s
  rw [show text "OPENSSH" = .lit ['O', 'P', 'E', 'N', 'S', 'S', 'H'] from rfl,
    show text "EC" = .lit ['E', 'C'] from rfl, show text "DSA" = .lit ['D', 'S', 'A'] from rfl,
    lang_choice, lang_inner, lang_inner, lang_inner]
  simp

/-- A header occurs in a text exactly when its words are met there in a row. -/
theorem header_occurs_iff (r : Expr) (inners : List (List (List Char))) (h : HeaderOf r inners)
    (hwords : ∀ inner ∈ inners, ∀ w ∈ inner, IsWord isWhitespace w) (t : List Char) :
    Occurs r t ↔ ∃ inner ∈ inners, Met keyBegin inner keyEnd (words isWhitespace t) := by
  have hbegin : IsWord isWhitespace keyBegin := isWord_of_all _ (by decide) (by decide)
  have hend : IsWord isWhitespace keyEnd := isWord_of_all _ (by decide) (by decide)
  constructor
  · rintro ⟨s, hs, hlang⟩
    obtain ⟨inner, hin, hspread⟩ := (h s).mp hlang
    exact ⟨inner, hin, (met_iff keyBegin keyEnd t inner hbegin (hwords inner hin) hend).mp
      ⟨s, hs, hspread⟩⟩
  · rintro ⟨inner, hin, hmet⟩
    obtain ⟨s, hs, hspread⟩ :=
      (met_iff keyBegin keyEnd t inner hbegin (hwords inner hin) hend).mpr hmet
    exact ⟨s, hs, (h s).mpr ⟨inner, hin, hspread⟩⟩

def InnerWords (inners : List (List (List Char))) : Prop :=
  ∀ inner ∈ inners, ∀ w ∈ inner, w.all (fun c => !isWhitespace c) = true ∧
    w.head?.any innerLetters.contains = true

theorem inner_head (w : List Char) (h : w.head?.any innerLetters.contains = true) :
    ∃ c tail, w = c::tail ∧ c ∈ innerLetters := by
  cases w with
  | nil => cases h
  | cons c tail => exact ⟨c, tail, rfl, List.contains_iff_mem.mp h⟩

theorem header_lines (r : Expr) (inners : List (List (List Char))) (h : HeaderOf r inners)
    (hinner : InnerWords inners) (cs ds : List Char)
    (hinserted : Inserted (fun w => w = markWord) NotInner (words isWhitespace cs)
      (words isWhitespace ds)) : Occurs r ds ↔ Occurs r cs := by
  have hwords : ∀ inner ∈ inners, ∀ w ∈ inner, IsWord isWhitespace w := by
    intro inner hin w hw
    obtain ⟨c, tail, hct, _⟩ := inner_head w (hinner inner hin w hw).2
    exact isWord_of_all w (by rw [hct]; rfl) (hinner inner hin w hw).1
  have hmet : ∀ inner ∈ inners, (Met keyBegin inner keyEnd (words isWhitespace ds) ↔
      Met keyBegin inner keyEnd (words isWhitespace cs)) := by
    intro inner hin
    apply met_inserted _ _ keyBegin keyEnd inner _ _ _ _ hinserted
    · intro e he
      rw [he]
      refine ⟨by decide, ?_, by decide⟩
      intro hmark
      exact absurd (hinner inner hin markWord hmark).2 (by decide)
    · rintro v ⟨c, tail, hv, hc⟩
      constructor
      · intro hin'
        obtain ⟨d, tail', hd, hletter⟩ := inner_head v (hinner inner hin v hin').2
        rw [hv] at hd
        rw [← (List.cons.inj hd).1] at hletter
        exact hc hletter
      · rintro ⟨rest, hrest⟩
        rw [hv] at hrest
        rw [← (List.cons.inj hrest).1] at hc
        exact hc (by decide)
  rw [header_occurs_iff r inners h hwords, header_occurs_iff r inners h hwords]
  constructor
  · rintro ⟨inner, hin, hm⟩
    exact ⟨inner, hin, (hmet inner hin).mp hm⟩
  · rintro ⟨inner, hin, hm⟩
    exact ⟨inner, hin, (hmet inner hin).mpr hm⟩

theorem plain_lines (hrow : row ∈ blockSyntax) (hplain : ∀ c ∈ blanks, allows c row.2 = false)
    (cs ds : List Char)
    (hinserted : Inserted (fun w => w = markWord) NotInner (words isWhitespace cs)
      (words isWhitespace ds)) : Occurs row.2 ds ↔ Occurs row.2 cs := by
  have hsep : ∀ c, isWhitespace c = true → allows c row.2 = false :=
    fun c hc => hplain c (mem_blanks c hc)
  rw [occurs_words row.2 isWhitespace (row_shape row hrow).filled hsep,
    occurs_words row.2 isWhitespace (row_shape row hrow).filled hsep]
  constructor
  · rintro ⟨w, hw, hoccurs⟩
    rcases (mem_inserted _ _ hinserted w).2 hw with hold | hmark
    · exact ⟨w, hold, hoccurs⟩
    · rw [hmark] at hoccurs
      exact absurd hoccurs (quiet markWord
        (by simp only [fixedTexts, List.mem_cons, true_or, or_true]) row hrow)
  · rintro ⟨w, hw, hoccurs⟩
    exact ⟨w, (mem_inserted _ _ hinserted w).1 hw, hoccurs⟩

section

variable (toLowercase : List Char → List Char)

theorem escapeLines_occurs (hnil : toLowercase [] = [])
    (hascii : ∀ c cs, c.val < 128 → (toLowercase (c::cs)).head? = some c.toLower)
    (row : String × Expr) (hrow : row ∈ blockSyntax) (content : List Char) :
    Occurs row.2 (escapeLines toLowercase content) ↔ Occurs row.2 content := by
  have hinserted := escapeLines_inserted toLowercase hnil hascii content
  rcases row_kind row hrow with hplain | ⟨hpem | hssh, _⟩
  · exact plain_lines row hrow hplain _ _ hinserted
  · rw [hpem]
    exact header_lines pemHeader _ pem_header (by unfold InnerWords; decide) _ _ hinserted
  · rw [hssh]
    exact header_lines sshHeader _ ssh_header (by unfold InnerWords; decide) _ _ hinserted

end

/-- Escaping the tokens does not matter, with or without the NUL characters. -/
theorem escapeTokens_occurs (hrow : row ∈ blockSyntax) (content : List Char) :
    Occurs row.2 (removeNul (escapeTokens content)) ↔ Occurs row.2 (removeNul content) := by
  have hstep : ∀ (v : Char) (p q cs : List Char), v ∈ walls → v ≠ '\x00' →
      (Occurs row.2 (removeNul (replace (p++v::q) (p++ '\\'::v::q) cs)) ↔
        Occurs row.2 (removeNul cs)) := by
    intro v p q cs hv hnul
    apply occurs_padded row hrow '\\' v (by decide) hv
    apply inserted_filter _ _ _ _ _ (replace_inserted '\\' v p q cs)
    · intro c hc
      rw [hc]
      decide
    · intro c hc
      rw [hc]
      simpa using hnul
  have hopen := hstep '<' [] ['|'] content (by decide) (by decide)
  have hclose := hstep '>' ['|'] [] (replace ['<', '|'] ['\\', '<', '|'] content) (by decide)
    (by decide)
  have hinst := hstep '[' [] ['I', 'N', 'S', 'T', ']'] (replace ['|', '>'] ['|', '\\', '>']
    (replace ['<', '|'] ['\\', '<', '|'] content)) (by decide) (by decide)
  unfold escapeTokens
  exact (hstep '[' [] ['/', 'I', 'N', 'S', 'T', ']'] _ (by decide) (by decide)).trans
    (hinst.trans (hclose.trans hopen))

section

variable (compile : String → List Char → List Match) (toLowercase : List Char → List Char)
variable (config : SafetyConfig)

def escapes (content : List Char) : Bool :=
  (config.injectionCheckEnabled ||
    (checkPolicy compile content).any (fun rule => rule.action = .sanitize)) &&
  hasCritical compile content

def exposed (output : List Char) : Option (List Char) :=
  if config.maxOutputLength < byteLen output then some (sliceTo output config.maxOutputLength)
  else match scanAndClean (leakDetector compile) output with
    | .error _ => none
    | .ok content =>
      if (checkPolicy compile content).any (fun rule => rule.action = .block) then none
      else some (if escapes compile config content then removeNul content else content)

def bearerSource : String := "Bearer\\s+[a-zA-Z0-9_-]{20,}"

def authSource : String := "(?i)authorization:\\s*[a-zA-Z]+\\s+[a-zA-Z0-9_-]{20,}"

structure Compiled : Prop where
  finds : ∀ row ∈ blockSyntax, ∀ content,
    compile (String.ofList row.2.print) content ≠ [] ↔ Occurs row.2 content
  nul : ∀ content, compile "\\x00" content ≠ [] ↔ '\x00' ∈ content

def Caught (output : List Char) : Prop :=
  ∃ row ∈ blockSyntax, Occurs row.2 output ∧
    Selects (defaultPatterns compile) output (String.ofList row.2.print)

def places (source : String) (output : List Char) : List (ℕ × ℕ) :=
  (compile source output).map (fun m => (m.start, m.stop))

structure Redacts (output left : List Char) : Prop where
  bearer : Selects (defaultPatterns compile) output bearerSource →
    left = applyRedactions output ((places compile bearerSource output++
      places compile authSource output).insertionSort (fun a b => a.1 ≤ b.1))
  auth : ¬ Selects (defaultPatterns compile) output bearerSource →
    left = applyRedactions output ((places compile authSource output).insertionSort
      (fun a b => a.1 ≤ b.1))

def Ruled (action : PolicyAction) (content : List Char) : Prop :=
  ∃ rule ∈ defaultPolicy, rule.action = action ∧ compile rule.pattern content ≠ []

def Harmless (output : List Char) : Prop :=
  Caught compile output ∨ ∀ left, Redacts compile output left →
    Ruled compile .block left ∨
    ((config.injectionCheckEnabled = true ∨ Ruled compile .sanitize left) →
      ¬ Secret (removeNul left)) ∧
    (¬ (config.injectionCheckEnabled = true ∨ Ruled compile .sanitize left) → ¬ Secret left)

def Withheld (toolName : String) : Except String String → Prop
  | .error e => ¬ Secret e.toList
  | .ok output => ¬ Secret toolName.toList ∧
    (config.maxOutputLength < byteLen output.toList →
      ¬ Secret (sliceTo output.toList config.maxOutputLength)) ∧
    (byteLen output.toList ≤ config.maxOutputLength → Harmless compile config output.toList)

def shown (toolName : String) : Except String String → List (List Char)
  | .error e => [e.toList]
  | .ok output => toolName.toList::(exposed compile config output.toList).toList

section

variable {compile} {config}

theorem block_rows (name source : String) :
    (∃ severity, (name, source, severity, LeakAction.block) ∈ defaultTable) ↔
      ∃ row ∈ blockSyntax, row.1 = name ∧ String.ofList row.2.print = source := by
  have hprinted : (name, source) ∈ blockSyntax.map (fun row => (row.1, String.ofList row.2.print)) ↔
      (name, source) ∈ (defaultTable.filter (fun row => row.2.2.2 = .block)).map
        (fun row => (row.1, row.2.1)) := by
    rw [blockSyntax_printed]
  simp only [List.mem_map, List.mem_filter, Prod.mk.injEq, decide_eq_true_eq] at hprinted
  constructor
  · rintro ⟨severity, hin⟩
    obtain ⟨row, hrow, hname, hsource⟩ := hprinted.mpr ⟨_, ⟨hin, rfl⟩, rfl, rfl⟩
    exact ⟨row, hrow, hname, hsource⟩
  · rintro ⟨row, hrow, hname, hsource⟩
    obtain ⟨⟨name', source', severity, action⟩, ⟨hin, haction⟩, rfl, rfl⟩ :=
      hprinted.mp ⟨row, hrow, hname, hsource⟩
    dsimp only at haction
    exact ⟨severity, haction ▸ hin⟩

theorem blocks_iff (hcompiled : Compiled compile) (output : List Char) :
    (scan (leakDetector compile) output).shouldBlock = true ↔ Caught compile output := by
  rw [leakDetector, shouldBlock_iff]
  constructor
  · rintro ⟨p, hp, hblock, hmatch, hselects⟩
    obtain ⟨⟨name, source, severity, action⟩, hin, rfl⟩ := List.mem_map.mp hp
    dsimp only at hblock hmatch hselects
    obtain ⟨row, hrow, -, rfl⟩ := (block_rows name source).mp ⟨severity, hblock ▸ hin⟩
    exact ⟨row, hrow, (hcompiled.finds row hrow output).mp hmatch, hselects⟩
  · rintro ⟨row, hrow, hoccurs, hselects⟩
    obtain ⟨severity, hin⟩ := (block_rows row.1 _).mpr ⟨row, hrow, rfl, rfl⟩
    exact ⟨_, List.mem_map_of_mem hin, rfl, (hcompiled.finds row hrow output).mpr hoccurs, hselects⟩

theorem redacting_rows : ∀ i < defaultTable.length,
    (defaultTable[i]?.map (fun row => row.2.2.2)) = some LeakAction.redact → i = 13 ∨ i = 14 := by
  decide +kernel

theorem redactions_other (output : List Char) (i : ℕ) (h : i ≠ 13 ∧ i ≠ 14) :
    redactions (defaultPatterns compile) output i = [] := by
  rw [redactions, patternMatches, defaultPatterns, List.getElem?_map]
  cases hrow : defaultTable[i]? with
  | none => rfl
  | some row =>
    have haction : row.2.2.2 ≠ .redact := by
      intro heq
      rcases redacting_rows i (List.getElem?_eq_some_iff.mp hrow).1 (by rw [hrow, ← heq]; rfl) with
        h13 | h14
      · exact h.1 h13
      · exact h.2 h14
    simp only [Option.map_some, redactRanges, List.map_eq_nil_iff, List.filter_eq_nil_iff]
    intro pm hpm
    obtain ⟨m, -, rfl⟩ := List.mem_map.mp hpm
    simpa using haction

theorem redactions_places (output : List Char) :
    redactions (defaultPatterns compile) output 13 = places compile bearerSource output ∧
      redactions (defaultPatterns compile) output 14 = places compile authSource output := by
  have hrows : (defaultPatterns compile)[13]? = some ⟨"bearer_token",
      ⟨bearerSource, compile bearerSource⟩, .high, .redact⟩ ∧
      (defaultPatterns compile)[14]? = some ⟨"auth_header",
        ⟨authSource, compile authSource⟩, .high, .redact⟩ := ⟨rfl, rfl⟩
  constructor
  · simp [redactions, patternMatches, hrows.1, redactRanges, places, List.filter_map,
      Function.comp_def]
  · simp [redactions, patternMatches, hrows.2, redactRanges, places, List.filter_map,
      Function.comp_def]

open Classical in
theorem candidates_redactions (output : List Char) :
    (candidateIndices (leakDetector compile) output).flatMap
        (redactions (defaultPatterns compile) output) =
      (if Selects (defaultPatterns compile) output bearerSource then
        places compile bearerSource output else [])++places compile authSource output := by
  have hauth : extractLiteralPrefix authSource = none := by decide +kernel
  have hrow13 : (defaultPatterns compile)[13]? = some ⟨"bearer_token",
    ⟨bearerSource, compile bearerSource⟩, .high, .redact⟩ := rfl
  have hrow14 : (defaultPatterns compile)[14]? = some ⟨"auth_header",
    ⟨authSource, compile authSource⟩, .high, .redact⟩ := rfl
  let run := candidateIndices (leakDetector compile) output
  let part := fun i => if i ∈ run then redactions (defaultPatterns compile) output i else []
  have hother : ∀ i, i ≠ 13 ∧ i ≠ 14 → part i = [] := by
    intro i hi
    simp only [part, redactions_other output i hi, ite_self]
  have hlate : ∀ found, rank (defaultPatterns compile) found 13 ≤
      rank (defaultPatterns compile) found 14 := by
    intro found
    have hlast : rank (defaultPatterns compile) found 14 = found.length := by
      rw [rank, hrow14, Option.bind_some, hauth]
    rw [hlast, rank]
    split
    · exact List.findIdx_le_length
    · exact le_rfl
  have hleft : (leftOut (defaultPatterns compile) output).flatMap part = [] := by
    rw [List.flatMap_eq_nil_iff]
    intro i hi
    have hout := (List.mem_filter.mp hi).2
    rw [Bool.not_eq_true', Bool.eq_false_iff] at hout
    exact if_neg fun hin => hout (List.contains_iff_mem.mpr hin)
  have hmoved := flatMap_moved
    (fun i j => Before (defaultPatterns compile) (reported (defaultPatterns compile) output) i j ∨
      part j = []) (· < ·) part _ _ (range_perm (defaultPatterns compile) output)
    (List.pairwise_append.mpr ⟨(candidates_sorted (defaultPatterns compile) output).imp .inl,
      List.pairwise_of_forall_mem_list fun i _ j hj =>
        .inr (List.flatMap_eq_nil_iff.mp hleft j hj),
      fun i _ j hj => .inr (List.flatMap_eq_nil_iff.mp hleft j hj)⟩)
    List.pairwise_lt_range (by
      intro i j hbefore hlt a ha b hb
      have hin : ∀ k, part k ≠ [] → k = 13 ∨ k = 14 := by
        intro k hk
        by_contra hnot
        rw [not_or] at hnot
        exact hk (hother k hnot)
      have hi := hin i (List.ne_nil_of_mem ha)
      have hj := hin j (List.ne_nil_of_mem hb)
      have hij : i = 14 ∧ j = 13 := by omega
      rcases hbefore with hrank | hnone
      · rw [hij.1, hij.2, Before] at hrank
        have := hlate (reported (defaultPatterns compile) output)
        omega
      · rw [hnone] at hb
        cases hb)
  have hrun : run.flatMap (redactions (defaultPatterns compile) output) = run.flatMap part := by
    refine List.flatMap_congr fun i hi => ?_
    simp only [part, if_pos hi]
  have h13 : part 13 = if Selects (defaultPatterns compile) output bearerSource then
      places compile bearerSource output else [] := by
    have hselects := candidate_selects (defaultPatterns compile) output 13 _ hrow13
    simp only [part, run, leakDetector, hselects, (redactions_places output).1]
  have h14 : part 14 = places compile authSource output := by
    have hselects := (candidate_selects (defaultPatterns compile) output 14 _ hrow14).mpr
      (fun text htext => by rw [hauth] at htext; cases htext)
    exact (if_pos hselects).trans (redactions_places output).2
  rw [List.flatMap_append, hleft, List.append_nil] at hmoved
  have hrange : List.range (defaultPatterns compile).length =
    [0, 1, 2, 3, 4, 5, 6, 7, 8, 9, 10, 11, 12, 13, 14, 15] := rfl
  refine hrun.trans (hmoved.trans ?_)
  rw [hrange]
  simp only [List.flatMap_cons, List.flatMap_nil, List.append_nil, h13, h14, hother 0 (by decide),
    hother 1 (by decide), hother 2 (by decide), hother 3 (by decide), hother 4 (by decide),
    hother 5 (by decide), hother 6 (by decide), hother 7 (by decide), hother 8 (by decide),
    hother 9 (by decide), hother 10 (by decide), hother 11 (by decide), hother 12 (by decide),
    hother 15 (by decide), List.nil_append]

/-- What the scan lets pass of an output is what redaction leaves of it. -/
theorem redacts_iff (output left : List Char) : Redacts compile output left ↔
    left = (scan (leakDetector compile) output).redactedContent.getD output := by
  have hcleaned : (scan (leakDetector compile) output).redactedContent.getD output =
      applyRedactions output (((candidateIndices (leakDetector compile) output).flatMap
        (redactions (defaultPatterns compile) output)).insertionSort (fun a b => a.1 ≤ b.1)) := by
    rw [← redactRanges_flatMap]
    change (if _ = [] then none else some (applyRedactions output _)).getD output = _
    split
    · next hnone => exact (if_pos hnone : applyRedactions output _ = output).symm
    · rfl
  rw [hcleaned, candidates_redactions]
  by_cases hbearer : Selects (defaultPatterns compile) output bearerSource
  · rw [if_pos hbearer]
    exact ⟨fun h => h.bearer hbearer, fun h => ⟨fun _ => h, fun hnot => absurd hbearer hnot⟩⟩
  · rw [if_neg hbearer, List.nil_append]
    exact ⟨fun h => h.auth hbearer, fun h => ⟨fun hin => absurd hin hbearer, fun _ => h⟩⟩

theorem ruled_iff (action : PolicyAction) (content : List Char) :
    (checkPolicy compile content).any (fun rule => rule.action = action) = true ↔
      Ruled compile action content := by
  rw [checkPolicy, List.any_eq_true]
  simp only [List.mem_filter, decide_eq_true_eq, Ruled]
  constructor
  · rintro ⟨rule, ⟨hin, hmatch⟩, haction⟩
    exact ⟨rule, hin, haction, hmatch⟩
  · rintro ⟨rule, hin, haction, hmatch⟩
    exact ⟨rule, ⟨hin, hmatch⟩, haction⟩

/-- A text with a NUL character is critical. -/
theorem nul_critical (hcompiled : Compiled compile) (content : List Char)
    (h : hasCritical compile content ≠ true) : removeNul content = content := by
  rw [removeNul, List.filter_eq_self]
  intro c hc
  rw [decide_eq_true_eq]
  rintro rfl
  have hmatch := (hcompiled.nul content).mpr hc
  obtain ⟨m, hm⟩ := List.exists_mem_of_ne_nil _ hmatch
  apply h
  rw [hasCritical, List.any_eq_true]
  refine ⟨⟨"null_byte", .critical, (m.start, m.stop), "Null byte injection attempt"⟩, ?_, rfl⟩
  rw [sanitizerWarnings, List.mem_insertionSort, List.mem_append, regexWarnings]
  refine .inr (List.mem_flatMap.mpr ⟨⟨"\\x00", "null_byte", .critical,
    "Null byte injection attempt"⟩, by simp [regexPatterns], List.mem_map.mpr ⟨m, hm, rfl⟩⟩)

/-- What is exposed of an output holds no secret where the output is harmless. -/
theorem exposed_iff (hcompiled : Compiled compile) (output : List Char) :
    (∀ text, exposed compile config output = some text → ¬ Secret text) ↔
      (config.maxOutputLength < byteLen output → ¬ Secret (sliceTo output config.maxOutputLength)) ∧
      (byteLen output ≤ config.maxOutputLength → Harmless compile config output) := by
  unfold exposed
  by_cases hlong : config.maxOutputLength < byteLen output
  · simp only [hlong, if_true, Option.some.injEq, forall_eq', true_implies, not_le.mpr hlong,
      false_implies, and_true]
  · simp only [hlong, if_false, false_implies, true_and, not_lt.mp hlong, true_implies]
    have hfails := (scanAndClean_fails_iff (leakDetector compile) output).trans
      (blocks_iff hcompiled output)
    unfold Harmless
    simp only [redacts_iff, forall_eq]
    cases hscan : scanAndClean (leakDetector compile) output with
    | error e =>
      have hcaught := hfails.mp ⟨e, hscan⟩
      simp [hcaught]
    | ok content =>
      have hpassed : ¬ Caught compile output := by
        intro hcaught
        obtain ⟨e, he⟩ := hfails.mpr hcaught
        rw [hscan] at he
        cases he
      have hcontent : content =
          (scan (leakDetector compile) output).redactedContent.getD output := by
        rw [scanAndClean] at hscan
        split at hscan
        · split at hscan <;> cases hscan
        · exact (Except.ok.inj hscan).symm
      rw [← hcontent]
      simp only [hpassed, false_or]
      by_cases hblock : Ruled compile .block content
      · simp [(ruled_iff .block content).mpr hblock, hblock]
      · have hquiet : ¬ (checkPolicy compile content).any (fun rule => rule.action = .block) = true :=
          fun hany => hblock ((ruled_iff .block content).mp hany)
        simp only [if_neg hquiet, hblock, false_or]
        have hruns : (config.injectionCheckEnabled ||
            (checkPolicy compile content).any (fun rule => rule.action = .sanitize)) = true ↔
            config.injectionCheckEnabled = true ∨ Ruled compile .sanitize content := by
          rw [Bool.or_eq_true, ruled_iff]
        by_cases hrun : config.injectionCheckEnabled = true ∨ Ruled compile .sanitize content
        · have hsame : (if escapes compile config content = true then removeNul content
              else content) = removeNul content := by
            rw [escapes, hruns.mpr hrun, Bool.true_and]
            split
            · rfl
            · next hcritical => exact (nul_critical hcompiled content hcritical).symm
          simp [hsame, hrun]
        · have hsame : (if escapes compile config content = true then removeNul content
              else content) = content := by
            rw [escapes, Bool.eq_false_iff.mpr (fun h => hrun (hruns.mp h))]
            rfl
          simp [hsame, hrun]

end

variable (hnil : toLowercase [] = [])
variable (hascii : ∀ c cs, c.val < 128 → (toLowercase (c::cs)).head? = some c.toLower)
include hnil hascii

theorem sanitize_occurs (row : String × Expr) (hrow : row ∈ blockSyntax) (content : List Char) :
    Occurs row.2 (sanitize compile toLowercase content).content ↔
      Occurs row.2 (if hasCritical compile content then removeNul content else content) := by
  unfold sanitize
  by_cases hcritical : hasCritical compile content = true
  · rw [if_pos hcritical, if_pos hcritical]
    exact (escapeLines_occurs toLowercase hnil hascii row hrow _).trans
      (escapeTokens_occurs row hrow content)
  · rw [if_neg hcritical, if_neg hcritical]

/-- What the layer makes of an output holds a secret exactly when the part that
is shown does. -/
theorem sanitized_occurs (row : String × Expr) (hrow : row ∈ blockSyntax) (toolName : String)
    (output : List Char) :
    Occurs row.2 (sanitizeToolOutput compile toLowercase config toolName output).content ↔
      ∃ text, exposed compile config output = some text ∧ Occurs row.2 text := by
  unfold sanitizeToolOutput exposed
  by_cases hlong : config.maxOutputLength < byteLen output
  · simp only [if_pos hlong, Option.some.injEq, exists_eq_left']
    rw [notice_occurs row hrow, slice_floor]
  · simp only [if_neg hlong]
    cases hscan : scanAndClean (leakDetector compile) output with
    | error e =>
      simp only [reduceCtorEq, false_and, exists_false, iff_false]
      exact quiet _ (by simp only [fixedTexts, List.mem_cons, true_or, or_true]) row hrow
    | ok content =>
      simp only
      by_cases hblock : (checkPolicy compile content).any (fun rule => rule.action = .block) = true
      · simp only [if_pos hblock, reduceCtorEq, false_and, exists_false, iff_false]
        exact quiet _ (by simp only [fixedTexts, List.mem_cons, true_or, or_true]) row hrow
      · simp only [if_neg hblock, Option.some.injEq, exists_eq_left']
        by_cases hrun : (config.injectionCheckEnabled ||
            (checkPolicy compile content).any (fun rule => rule.action = .sanitize)) = true
        · simp only [escapes, hrun, Bool.true_and]
          exact sanitize_occurs compile toLowercase hnil hascii row hrow content
        · simp only [escapes, Bool.eq_false_iff.mpr hrun, Bool.false_and, Bool.false_eq_true,
            if_false]

/-- What the model is shown of a result. -/
theorem processed_occurs (toolName toolCallId : String) (result : Except String String) :
    ∃ content message, processToolResult compile toLowercase config toolName toolCallId result =
      some (content, message) ∧ message.content = content ∧
      ∀ row ∈ blockSyntax, (Occurs row.2 content.toList ↔
        ∃ text ∈ shown compile config toolName result, Occurs row.2 text) := by
  cases result with
  | error e =>
    refine ⟨"Error: " ++ e, _, rfl, rfl, ?_⟩
    intro row hrow
    rw [String.toList_append, error_occurs row hrow]
    simp [shown]
  | ok output =>
    unfold processToolResult
    simp only [wrap_eq, Option.map_some]
    refine ⟨_, _, rfl, rfl, ?_⟩
    intro row hrow
    rw [String.toList_ofList, wrap_occurs row hrow, String.toList_ofList,
      sanitized_occurs compile toLowercase config hnil hascii row hrow]
    simp [shown]

theorem shown_quiet_iff (toolName toolCallId : String) (result : Except String String) :
    (∃ content message, processToolResult compile toLowercase config toolName toolCallId result =
      some (content, message) ∧ message.content = content ∧ ¬ Secret content.toList) ↔
    ∀ text ∈ shown compile config toolName result, ¬ Secret text := by
  obtain ⟨content, message, hprocess, hmessage, hoccurs⟩ := processed_occurs compile toLowercase
    config hnil hascii toolName toolCallId result
  constructor
  · rintro ⟨content', message', hsame, _, hsafe⟩ text htext ⟨row, hrow, hin⟩
    rw [hprocess, Option.some.injEq, Prod.mk.injEq] at hsame
    rw [← hsame.1] at hsafe
    exact hsafe ⟨row, hrow, (hoccurs row hrow).mpr ⟨text, htext, hin⟩⟩
  · intro hsafe
    refine ⟨content, message, hprocess, hmessage, ?_⟩
    rintro ⟨row, hrow, hin⟩
    obtain ⟨text, htext, hoccurs'⟩ := (hoccurs row hrow).mp hin
    exact hsafe text htext ⟨row, hrow, hoccurs'⟩

/-- No secret reaches the model through a tool result exactly where an error
text holds none, the kept part of a long output holds none, and a short output
is caught, or holds none when it has been redacted. -/
theorem no_secret_shown_iff (hcompiled : Compiled compile) (toolName toolCallId : String)
    (result : Except String String) :
    (∃ content message, processToolResult compile toLowercase config toolName toolCallId result =
      some (content, message) ∧ message.content = content ∧ ¬ Secret content.toList) ↔
    Withheld compile config toolName result := by
  rw [shown_quiet_iff compile toLowercase config hnil hascii]
  cases result with
  | error e => simp [shown, Withheld]
  | ok output =>
    rw [Withheld, ← exposed_iff hcompiled]
    simp [shown, Option.mem_toList]

end

theorem lower_ascii (c : Char) (cs : List Char) (_ : c.val < 128) :
    ((c::cs).map Char.toLower).head? = some c.toLower := rfl

def compileAll (source : String) (content : List Char) : List Match :=
  if source = "\\x00" then
    if '\x00' ∈ content then [⟨0, 0, []⟩] else []
  else compileBlocks source content

theorem compileAll_compiled : Compiled compileAll := by
  refine ⟨fun row hrow content => ?_, fun content => ?_⟩
  · have hother : ∀ row ∈ blockSyntax, row.2.print ≠ ['\\', 'x', '0', '0'] := by decide +kernel
    have hne : ¬ String.ofList row.2.print = "\\x00" := by
      intro heq
      exact hother row hrow (String.ofList_inj.mp heq)
    rw [compileAll, if_neg hne, compileBlocks_block row hrow, search, ne_eq, List.map_eq_nil_iff]
    exact findIter_ne_nil row.2 content (row_shape row hrow).filled
  · rw [compileAll, if_pos rfl]
    split
    · next hin => simp [hin]
    · next hout => simp [hout]

/-- A key in a short output is caught. -/
theorem key_withheld :
    (∃ content message, processToolResult compileAll (List.map Char.toLower) ⟨100, true⟩
      "http" "call" (.ok "the key is sk-abcdefghijklmnopqrst") = some (content, message) ∧
      message.content = content ∧ ¬ Secret content.toList) ↔
    Withheld compileAll ⟨100, true⟩ "http" (.ok "the key is sk-abcdefghijklmnopqrst") :=
  no_secret_shown_iff compileAll (List.map Char.toLower) ⟨100, true⟩ rfl lower_ascii
    compileAll_compiled "http" "call" (.ok "the key is sk-abcdefghijklmnopqrst")

/-- A key in the part of a long output that is kept reaches the model. -/
theorem cut_output_exposes_key :
    ¬ ∃ content message, processToolResult compileAll (List.map Char.toLower) ⟨23, true⟩
      "http" "call" (.ok "sk-abcdefghijklmnopqrst and more") = some (content, message) ∧
      message.content = content ∧ ¬ Secret content.toList := by
  rintro ⟨content, message, hprocess, _, hsafe⟩
  obtain ⟨content', message', hsame, _, hoccurs⟩ := processed_occurs compileAll
    (List.map Char.toLower) ⟨23, true⟩ rfl lower_ascii "http" "call"
    (.ok "sk-abcdefghijklmnopqrst and more")
  rw [hprocess, Option.some.injEq, Prod.mk.injEq] at hsame
  have hfound : blockSyntax.any (fun row => (findIter row.2
      (sliceTo "sk-abcdefghijklmnopqrst and more".toList 23)) ≠ []) = true := by
    decide +kernel
  obtain ⟨row, hrow, hne⟩ := List.any_eq_true.mp hfound
  have hkey := (findIter_ne_nil row.2 _ (row_shape row hrow).filled).mp (of_decide_eq_true hne)
  have hlong : 23 < byteLen "sk-abcdefghijklmnopqrst and more".toList := by decide +kernel
  apply hsafe
  rw [hsame.1]
  refine ⟨row, hrow, (hoccurs row hrow).mpr ⟨_, ?_, hkey⟩⟩
  simp only [shown, exposed, if_pos hlong, Option.toList_some, List.mem_cons, true_or, or_true]

end IronClaw.SecretLeak
