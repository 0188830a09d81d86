import IronClaw.Lib.Regex
import IronClaw.Lib.Search
import Mathlib.Data.List.Sort

/-!
# The leak detector

`ironclaw_safety/leak_detector.rs`: patterns for secrets, a search for their
literal prefixes that selects the patterns to run, and the cleaning of a text
by what the patterns find. A compiled expression is its text and its search;
the search for prefixes reports matches as they end, from left to right and
without overlap.
-/

set_option autoImplicit false

namespace IronClaw.LeakScan
open Lib.Text Lib.Search Lib.Regex

inductive LeakAction where
  | block
  | redact
  | warn
  deriving DecidableEq

inductive LeakSeverity where
  | low
  | medium
  | high
  | critical
  deriving DecidableEq

structure Match where
  start : ℕ
  stop : ℕ
  text : List Char
  deriving DecidableEq

structure Regex where
  asStr : String
  findIter : List Char → List Match

structure LeakPattern where
  name : String
  regex : Regex
  severity : LeakSeverity
  action : LeakAction

structure LeakMatch where
  patternName : String
  severity : LeakSeverity
  action : LeakAction
  location : ℕ × ℕ
  maskedPreview : List Char
  deriving DecidableEq

structure LeakScanResult where
  found : List LeakMatch
  shouldBlock : Bool
  redactedContent : Option (List Char)
  deriving DecidableEq

structure LeakDetector where
  patterns : List LeakPattern
  prefixMatcher : Option (List (List Char))
  knownPrefixes : List (List Char × ℕ)

def isSpecial (c : Char) : Bool :=
  ['[', '(', '.', '*', '+', '?', '{', '|', '^', '$', '\\'].contains c

def extractLiteralPrefix (pattern : String) : Option (List Char) :=
  let text := pattern.toList.takeWhile (fun c => !isSpecial c)
  if 3 ≤ byteLen text then some text else none

def knownPrefixesFrom : ℕ → List LeakPattern → List (List Char × ℕ)
  | _, [] => []
  | idx, p::ps =>
    match extractLiteralPrefix p.regex.asStr with
    | some text => if 3 ≤ byteLen text then (text, idx)::knownPrefixesFrom (idx+1) ps
        else knownPrefixesFrom (idx+1) ps
    | none => knownPrefixesFrom (idx+1) ps

def withPatterns (patterns : List LeakPattern) : LeakDetector :=
  let prefixes := knownPrefixesFrom 0 patterns
  { patterns := patterns
    prefixMatcher := if prefixes = [] then none else some (prefixes.map Prod.fst)
    knownPrefixes := prefixes }

def endingWord (seen : List Char) : ℕ → List (List Char) → Option (ℕ × List Char)
  | _, [] => none
  | idx, w::ws =>
    if w.reverse.isPrefixOf seen then
      match endingWord seen (idx+1) ws with
      | some (k, longer) => if w.length < longer.length then some (k, longer) else some (idx, w)
      | none => some (idx, w)
    else endingWord seen (idx+1) ws

structure WordMatch where
  pattern : ℕ
  start : ℕ
  stop : ℕ
  deriving DecidableEq

def wordsMet (words : List (List Char)) : ℕ → List Char → List Char → List WordMatch
  | _, _, [] => []
  | pos, seen, c::cs =>
    match endingWord (c::seen) 0 words with
    | some (k, w) => ⟨k, pos+c.utf8Size-byteLen w, pos+c.utf8Size⟩::
        wordsMet words (pos+c.utf8Size) [] cs
    | none => wordsMet words (pos+c.utf8Size) (c::seen) cs

def findWords (words : List (List Char)) (content : List Char) : List WordMatch :=
  wordsMet words 0 [] content

def overlaps (a b : List Char) : Bool := b.isPrefixOf a || a.isPrefixOf b

def addOverlapping (known : List (List Char × ℕ)) (found : List Char) (indices : List ℕ) :
    List ℕ :=
  known.foldl (fun indices other =>
    if overlaps other.1 found && !indices.contains other.2 then indices++[other.2]
    else indices) indices

def addUnprefixed (known : List (List Char × ℕ)) (count : ℕ) (indices : List ℕ) : List ℕ :=
  (List.range count).foldl (fun indices idx =>
    if !known.any (fun k => k.2 = idx) && !indices.contains idx then indices++[idx]
    else indices) indices

def candidateIndices (d : LeakDetector) (content : List Char) : List ℕ :=
  match d.prefixMatcher with
  | none => List.range d.patterns.length
  | some words =>
    let indices := (findWords words content).foldl (fun indices m =>
      match d.knownPrefixes[m.pattern]? with
      | some found => addOverlapping d.knownPrefixes found.1 indices
      | none => indices) []
    addUnprefixed d.knownPrefixes d.patterns.length indices

def maskSecret (secret : List Char) : List Char :=
  let len := byteLen secret
  if len ≤ 8 then List.replicate len '*'
  else secret.take 4++List.replicate (min (len-8) 8) '*'++secret.drop (len-4)

def redacted : List Char := "[REDACTED]".toList

def redactFrom (content : List Char) (lastEnd : ℕ) : List (ℕ × ℕ) → List Char
  | [] => if lastEnd < byteLen content then (sliceFrom content lastEnd).getD [] else []
  | range::ranges =>
    (if lastEnd < range.1 then (slice content lastEnd range.1).getD [] else [])++redacted++
      redactFrom content range.2 ranges

def applyRedactions (content : List Char) (ranges : List (ℕ × ℕ)) : List Char :=
  if ranges = [] then content else redactFrom content 0 ranges

def patternMatches (patterns : List LeakPattern) (content : List Char) (idx : ℕ) :
    List (LeakPattern × Match) :=
  match patterns[idx]? with
  | some p => (p.regex.findIter content).map (fun m => (p, m))
  | none => []

def leakMatch (pm : LeakPattern × Match) : LeakMatch :=
  ⟨pm.1.name, pm.1.severity, pm.1.action, (pm.2.start, pm.2.stop), maskSecret pm.2.text⟩

def redactRanges (found : List (LeakPattern × Match)) : List (ℕ × ℕ) :=
  (found.filter (fun pm => pm.1.action = .redact)).map (fun pm => (pm.2.start, pm.2.stop))

def scanWith (patterns : List LeakPattern) (indices : List ℕ) (content : List Char) :
    LeakScanResult :=
  let found := indices.flatMap (patternMatches patterns content)
  let ranges := (redactRanges found).insertionSort (fun a b => a.1 ≤ b.1)
  { found := (found.map leakMatch).insertionSort (fun a b => a.location.1 ≤ b.location.1)
    shouldBlock := found.any (fun pm => pm.1.action = .block)
    redactedContent := if ranges = [] then none else some (applyRedactions content ranges) }

def scan (d : LeakDetector) (content : List Char) : LeakScanResult :=
  scanWith d.patterns (candidateIndices d content) content

structure LeakDetectionError where
  pattern : String
  preview : List Char
  deriving DecidableEq

def LeakDetectionError.display (e : LeakDetectionError) : List Char :=
  "Secret leak blocked: pattern '".toList++e.pattern.toList++"' matched '".toList++e.preview++
    ['\'']

def scanAndClean (d : LeakDetector) (content : List Char) :
    Except LeakDetectionError (List Char) :=
  let result := scan d content
  if result.shouldBlock then
    match result.found.find? (fun m => m.action = .block) with
    | some m => .error ⟨m.patternName, m.maskedPreview⟩
    | none => .error ⟨"", []⟩
  else .ok (result.redactedContent.getD content)

def scanHeaders (d : LeakDetector) : List (String × String) → Except LeakDetectionError Unit
  | [] => .ok ()
  | (name, value)::headers =>
    match scanAndClean d value.toList with
    | .error e => .error ⟨"header:" ++ name, e.display⟩
    | .ok _ => scanHeaders d headers

def scanHttpRequest (d : LeakDetector) (url : String) (headers : List (String × String))
    (body : Option (List Char)) : Except LeakDetectionError Unit :=
  match scanAndClean d url.toList with
  | .error e => .error e
  | .ok _ =>
    match scanHeaders d headers with
    | .error e => .error e
    | .ok () =>
      match body with
      | none => .ok ()
      | some text =>
        match scanAndClean d text with
        | .error e => .error e
        | .ok _ => .ok ()

theorem scanAndClean_fails_iff (d : LeakDetector) (content : List Char) :
    (∃ e, scanAndClean d content = .error e) ↔ (scan d content).shouldBlock = true := by
  rw [scanAndClean]
  constructor
  · rintro ⟨e, he⟩
    by_contra hnot
    simp only [if_neg hnot] at he
    cases he
  · intro h
    simp only [if_pos h]
    split
    · exact ⟨_, rfl⟩
    · exact ⟨_, rfl⟩

theorem scanHeaders_fails_iff (d : LeakDetector) (headers : List (String × String)) :
    (∃ e, scanHeaders d headers = .error e) ↔
      ∃ header ∈ headers, (scan d header.2.toList).shouldBlock = true := by
  induction headers with
  | nil =>
    constructor
    · rintro ⟨e, he⟩
      cases he
    · rintro ⟨header, hin, _⟩
      cases hin
  | cons header headers ih =>
    rw [List.exists_mem_cons_iff, ← ih, ← scanAndClean_fails_iff, scanHeaders]
    cases scanAndClean d header.2.toList with
    | error e => exact ⟨fun _ => Or.inl ⟨e, rfl⟩, fun _ => ⟨_, rfl⟩⟩
    | ok cleaned => simp

theorem scanHttpRequest_fails_iff (d : LeakDetector) (url : String)
    (headers : List (String × String)) (body : Option (List Char)) :
    (∃ e, scanHttpRequest d url headers body = .error e) ↔
      (scan d url.toList).shouldBlock = true ∨
      (∃ header ∈ headers, (scan d header.2.toList).shouldBlock = true) ∨
      ∃ text, body = some text ∧ (scan d text).shouldBlock = true := by
  rw [← scanHeaders_fails_iff, ← scanAndClean_fails_iff]
  unfold scanHttpRequest
  cases scanAndClean d url.toList with
  | error e => exact ⟨fun _ => Or.inl ⟨e, rfl⟩, fun _ => ⟨e, rfl⟩⟩
  | ok cleaned =>
    cases scanHeaders d headers with
    | error e => exact ⟨fun _ => Or.inr (Or.inl ⟨e, rfl⟩), fun _ => ⟨e, rfl⟩⟩
    | ok _ =>
      cases body with
      | none => simp
      | some text =>
        have htext := scanAndClean_fails_iff d text
        cases hscan : scanAndClean d text with
        | error e =>
          rw [hscan] at htext
          simp [hscan, htext.mp ⟨e, rfl⟩]
        | ok cleaned =>
          rw [hscan] at htext
          have hpassed : ¬ (scan d text).shouldBlock = true := by
            intro h
            obtain ⟨e, he⟩ := htext.mpr h
            cases he
          simp [hscan, hpassed]

def defaultTable : List (String × String × LeakSeverity × LeakAction) :=
  [("openai_api_key", "sk-(?:proj-)?[a-zA-Z0-9]{20,}(?:T3BlbkFJ[a-zA-Z0-9_-]*)?",
      .critical, .block),
   ("anthropic_api_key", "sk-ant-api[a-zA-Z0-9_-]{90,}", .critical, .block),
   ("aws_access_key", "AKIA[0-9A-Z]{16}", .critical, .block),
   ("github_token", "gh[pousr]_[A-Za-z0-9_]{36,}", .critical, .block),
   ("github_fine_grained_pat", "github_pat_[a-zA-Z0-9]{22}_[a-zA-Z0-9]{59}", .critical, .block),
   ("stripe_api_key", "sk_(?:live|test)_[a-zA-Z0-9]{24,}", .critical, .block),
   ("nearai_session", "sess_[a-zA-Z0-9]{32,}", .critical, .block),
   ("pem_private_key", "-----BEGIN\\s+(?:RSA\\s+)?PRIVATE\\s+KEY-----", .critical, .block),
   ("ssh_private_key", "-----BEGIN\\s+(?:OPENSSH|EC|DSA)\\s+PRIVATE\\s+KEY-----",
      .critical, .block),
   ("google_api_key", "AIza[0-9A-Za-z_-]{35}", .high, .block),
   ("slack_token", "xox[baprs]-[0-9a-zA-Z-]{10,}", .high, .block),
   ("twilio_api_key", "SK[a-fA-F0-9]{32}", .high, .block),
   ("sendgrid_api_key", "SG\\.[a-zA-Z0-9_-]{22}\\.[a-zA-Z0-9_-]{43}", .high, .block),
   ("bearer_token", "Bearer\\s+[a-zA-Z0-9_-]{20,}", .high, .redact),
   ("auth_header", "(?i)authorization:\\s*[a-zA-Z]+\\s+[a-zA-Z0-9_-]{20,}", .high, .redact),
   ("high_entropy_hex", "\\b[a-fA-F0-9]{64}\\b", .medium, .warn)]

def defaultPatterns (compile : String → List Char → List Match) : List LeakPattern :=
  defaultTable.map (fun row => ⟨row.1, ⟨row.2.1, compile row.2.1⟩, row.2.2.1, row.2.2.2⟩)

def text (s : String) : Expr := .lit s.toList

def alnum : CharClass := .set [.range 'a' 'z', .range 'A' 'Z', .range '0' '9']

def alnumDash : CharClass :=
  .set [.range 'a' 'z', .range 'A' 'Z', .range '0' '9', .one '_', .one '-']

def spaces : Expr := .many 1 none .space

def blockSyntax : List (String × Expr) :=
  [("openai_api_key", .seq (text "sk-") (.seq (.opt (text "proj-")) (.seq (.many 20 none alnum)
      (.opt (.seq (text "T3BlbkFJ") (.many 0 none alnumDash)))))),
   ("anthropic_api_key", .seq (text "sk-ant-api") (.many 90 none alnumDash)),
   ("aws_access_key", .seq (text "AKIA")
      (.many 16 (some 16) (.set [.range '0' '9', .range 'A' 'Z']))),
   ("github_token", .seq (text "gh") (.seq
      (.many 1 (some 1) (.set [.one 'p', .one 'o', .one 'u', .one 's', .one 'r']))
      (.seq (text "_") (.many 36 none
        (.set [.range 'A' 'Z', .range 'a' 'z', .range '0' '9', .one '_']))))),
   ("github_fine_grained_pat", .seq (text "github_pat_") (.seq (.many 22 (some 22) alnum)
      (.seq (text "_") (.many 59 (some 59) alnum)))),
   ("stripe_api_key", .seq (text "sk_") (.seq (.group (.alt (text "live") (text "test")))
      (.seq (text "_") (.many 24 none alnum)))),
   ("nearai_session", .seq (text "sess_") (.many 32 none alnum)),
   ("pem_private_key", .seq (text "-----BEGIN") (.seq spaces
      (.seq (.opt (.seq (text "RSA") spaces)) (.seq (text "PRIVATE")
        (.seq spaces (text "KEY-----")))))),
   ("ssh_private_key", .seq (text "-----BEGIN") (.seq spaces
      (.seq (.group (.alt (text "OPENSSH") (.alt (text "EC") (text "DSA"))))
        (.seq spaces (.seq (text "PRIVATE") (.seq spaces (text "KEY-----"))))))),
   ("google_api_key", .seq (text "AIza") (.many 35 (some 35)
      (.set [.range '0' '9', .range 'A' 'Z', .range 'a' 'z', .one '_', .one '-']))),
   ("slack_token", .seq (text "xox") (.seq
      (.many 1 (some 1) (.set [.one 'b', .one 'a', .one 'p', .one 'r', .one 's']))
      (.seq (text "-") (.many 10 none
        (.set [.range '0' '9', .range 'a' 'z', .range 'A' 'Z', .one '-']))))),
   ("twilio_api_key", .seq (text "SK") (.many 32 (some 32)
      (.set [.range 'a' 'f', .range 'A' 'F', .range '0' '9']))),
   ("sendgrid_api_key", .seq (text "SG.") (.seq (.many 22 (some 22) alnumDash)
      (.seq (text ".") (.many 43 (some 43) alnumDash))))]

theorem blockSyntax_printed :
    blockSyntax.map (fun row => (row.1, String.ofList row.2.print)) =
      (defaultTable.filter (fun row => row.2.2.2 = .block)).map (fun row => (row.1, row.2.1)) := by
  rfl

def byteMatch (content : List Char) (m : ℕ × ℕ) : Match :=
  ⟨byteLen (content.take m.1), byteLen (content.take (m.1+m.2)), (content.drop m.1).take m.2⟩

def compileBlocks (source : String) (content : List Char) : List Match :=
  match blockSyntax.find? (fun row => String.ofList row.2.print = source) with
  | some row => (findIter row.2 content).map (byteMatch content)
  | none => []

/-! ## The default patterns, compiled -/

def search (row : String × Expr) (content : List Char) : List Match :=
  (findIter row.2 content).map (byteMatch content)

theorem find_unique {α β : Type*} [DecidableEq β] (f : α → β) (rows : List α) (row : α)
    (hnodup : (rows.map f).Nodup) (hin : row ∈ rows) :
    rows.find? (fun r => f r = f row) = some row := by
  induction rows with
  | nil => exact absurd hin List.not_mem_nil
  | cons r rows ih =>
    rw [List.map_cons, List.nodup_cons] at hnodup
    obtain rfl | hin := List.mem_cons.mp hin
    · exact List.find?_cons_of_pos (decide_eq_true rfl)
    · have hne : f r ≠ f row := fun heq => hnodup.1 (heq ▸ List.mem_map_of_mem hin)
      rw [List.find?_cons_of_neg (by rw [decide_eq_true_eq]; exact hne)]
      exact ih hnodup.2 hin

theorem blockSyntax_apart :
    (blockSyntax.map (fun row => String.ofList row.2.print)).Nodup := by
  have hchars : (blockSyntax.map (fun row => row.2.print)).Nodup := by decide +kernel
  have hmap : blockSyntax.map (fun row => String.ofList row.2.print) =
      (blockSyntax.map (fun row => row.2.print)).map String.ofList := by
    rw [List.map_map]
    rfl
  rw [hmap]
  exact hchars.map (fun _ _ h => String.ofList_inj.mp h)

theorem compileBlocks_block (row : String × Expr) (h : row ∈ blockSyntax) :
    compileBlocks (String.ofList row.2.print) = search row := by
  funext content
  unfold compileBlocks
  rw [find_unique (fun row => String.ofList row.2.print) blockSyntax row blockSyntax_apart h]
  rfl

theorem compileBlocks_other (source : String)
    (h : source ∉ (defaultTable.filter (fun row => row.2.2.2 = .block)).map (fun row => row.2.1)) :
    compileBlocks source = fun _ => [] := by
  have hsources := congrArg (List.map Prod.snd) blockSyntax_printed
  rw [List.map_map, List.map_map] at hsources
  have hnone : blockSyntax.find? (fun row => String.ofList row.2.print = source) = none := by
    rw [List.find?_eq_none]
    intro row hrow heq
    apply h
    have hmem := List.mem_map_of_mem (f := fun row => String.ofList row.2.print) hrow
    rw [of_decide_eq_true heq] at hmem
    exact hsources ▸ hmem
  funext content
  unfold compileBlocks
  rw [hnone]

def searches : List (List Char → List Match) :=
  blockSyntax.map search++[fun _ => [], fun _ => [], fun _ => []]

theorem table_searches : defaultTable.map (fun row => compileBlocks row.2.1) = searches := by
  have hsplit : defaultTable = defaultTable.filter (fun row => row.2.2.2 = .block)++
      defaultTable.drop 13 := rfl
  have hsources := congrArg (List.map (fun row => compileBlocks row.2)) blockSyntax_printed
  rw [List.map_map, List.map_map] at hsources
  rw [hsplit, List.map_append, searches]
  refine congrArg₂ (·++·) ?_ ?_
  · refine Eq.trans hsources.symm (List.map_congr_left ?_)
    exact fun row hrow => compileBlocks_block row hrow
  · have hother : ∀ row ∈ defaultTable.drop 13, row.2.1 ∉
        (defaultTable.filter (fun row => row.2.2.2 = .block)).map (fun row => row.2.1) := by
      decide +kernel
    rw [List.map_congr_left (fun row hrow => compileBlocks_other row.2.1 (hother row hrow))]
    rfl

def compiledPatterns : List LeakPattern :=
  List.zipWith (fun row search => ⟨row.1, ⟨row.2.1, search⟩, row.2.2.1, row.2.2.2⟩) defaultTable
    searches

theorem defaultPatterns_compiled : defaultPatterns compileBlocks = compiledPatterns := by
  rw [compiledPatterns, ← table_searches, List.zipWith_map_right, List.zipWith_self]
  rfl

def placedFrom : ℕ → List (Option (List Char)) → List (List Char × ℕ)
  | _, [] => []
  | idx, some text::texts =>
    if 3 ≤ byteLen text then (text, idx)::placedFrom (idx+1) texts else placedFrom (idx+1) texts
  | idx, none::texts => placedFrom (idx+1) texts

theorem knownPrefixesFrom_placed (idx : ℕ) (patterns : List LeakPattern) :
    knownPrefixesFrom idx patterns =
      placedFrom idx (patterns.map (fun p => extractLiteralPrefix p.regex.asStr)) := by
  induction patterns generalizing idx with
  | nil => rfl
  | cons p patterns ih =>
    unfold knownPrefixesFrom
    rw [ih, List.map_cons]
    cases extractLiteralPrefix p.regex.asStr <;> rfl

def defaultPrefixes : List (List Char × ℕ) :=
  [(['s', 'k', '-'], 0), (['s', 'k', '-', 'a', 'n', 't', '-', 'a', 'p', 'i'], 1),
   (['A', 'K', 'I', 'A'], 2), (['g', 'i', 't', 'h', 'u', 'b', '_', 'p', 'a', 't', '_'], 4),
   (['s', 'k', '_'], 5), (['s', 'e', 's', 's', '_'], 6),
   (['-', '-', '-', '-', '-', 'B', 'E', 'G', 'I', 'N'], 7),
   (['-', '-', '-', '-', '-', 'B', 'E', 'G', 'I', 'N'], 8), (['A', 'I', 'z', 'a'], 9),
   (['x', 'o', 'x'], 10), (['B', 'e', 'a', 'r', 'e', 'r'], 13)]

theorem table_prefixes : defaultTable.map (fun row => extractLiteralPrefix row.2.1) =
    [some ['s', 'k', '-'], some ['s', 'k', '-', 'a', 'n', 't', '-', 'a', 'p', 'i'],
     some ['A', 'K', 'I', 'A'], none,
     some ['g', 'i', 't', 'h', 'u', 'b', '_', 'p', 'a', 't', '_'], some ['s', 'k', '_'],
     some ['s', 'e', 's', 's', '_'], some ['-', '-', '-', '-', '-', 'B', 'E', 'G', 'I', 'N'],
     some ['-', '-', '-', '-', '-', 'B', 'E', 'G', 'I', 'N'], some ['A', 'I', 'z', 'a'],
     some ['x', 'o', 'x'], none, none, some ['B', 'e', 'a', 'r', 'e', 'r'], none, none] := by
  simp only [defaultTable, List.map_cons, List.map_nil, List.cons.injEq, and_true]
  -- one check for each pattern
  and_intros <;> decide +kernel

theorem defaultPatterns_prefixes (compile : String → List Char → List Match) :
    knownPrefixesFrom 0 (defaultPatterns compile) = defaultPrefixes := by
  have hprefixes : (defaultPatterns compile).map (fun p => extractLiteralPrefix p.regex.asStr) =
      defaultTable.map (fun row => extractLiteralPrefix row.2.1) := List.map_map
  rw [knownPrefixesFrom_placed, hprefixes, table_prefixes]
  rfl

theorem detector_compiled : withPatterns (defaultPatterns compileBlocks) =
    ⟨compiledPatterns, some (defaultPrefixes.map Prod.fst), defaultPrefixes⟩ := by
  have hne : ¬ defaultPrefixes = [] := List.cons_ne_nil _ _
  unfold withPatterns
  dsimp only
  rw [defaultPatterns_prefixes, if_neg hne, defaultPatterns_compiled]

end IronClaw.LeakScan
