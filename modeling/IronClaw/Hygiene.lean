import Mathlib.Algebra.Order.Ring.Int
import IronClaw.Workspace

/-!
# Memory hygiene

`workspace/hygiene.rs`: a pass deletes the old documents directly under `daily/`
and `conversations/`. The documents of the user are the rows of the database in
the order of their paths, and calls of the database succeed. What a pass reads
from the clock is given, and so is whether its state file can be written.
-/

set_option autoImplicit false

namespace IronClaw.Hygiene
open IronClaw.Workspace Lib.Text Lib.Letters

def second : ℤ := 10^9

structure DateTime where
  nanos : ℤ
  within : -8334601228800*second ≤ nanos ∧ nanos < 8210266876800*second

def days (n : UInt32) : ℤ := n.toNat*86400*second

def hours (n : UInt32) : ℤ := n.toNat*3600*second

def DateTime.checkedSub (t : DateTime) (span : ℤ) : Option DateTime :=
  if h : -8334601228800*second ≤ t.nanos-span ∧ t.nanos-span < 8210266876800*second then
    some ⟨t.nanos-span, h⟩
  else none

/-! ## Listing a directory -/

structure Row where
  path : String
  content : String
  updatedAt : Option DateTime

structure WorkspaceEntry where
  path : String
  isDirectory : Bool
  updatedAt : Option DateTime
  contentPreview : Option String

def normalizeDirectory (path : String) : String :=
  String.ofList ((normalizePath path).toList.rdropWhile (fun c => c = '/'))

def childOf (dir path : String) : Option (String × Bool) :=
  if startsWith path dir then
    let relative := path.toList.drop dir.toList.length
    let name := relative.takeWhile (fun c => c ≠ '/')
    if name.isEmpty then none else some (String.ofList name, relative.contains '/')
  else none

def WorkspaceEntry.joined (e : WorkspaceEntry) (isDir : Bool) (updatedAt : Option DateTime) :
    WorkspaceEntry :=
  { e with
    isDirectory := e.isDirectory || isDir
    contentPreview := if isDir then none else e.contentPreview
    updatedAt := match e.updatedAt, updatedAt with
      | some existing, some new => if existing.nanos < new.nanos then some new else some existing
      | existing, _ => existing }

def addRow (dir : String) (entries : List (String × WorkspaceEntry)) (row : Row) :
    List (String × WorkspaceEntry) :=
  match childOf dir row.path with
  | none => entries
  | some (name, isDir) =>
    if entries.any (fun e => e.1 = name) then
      entries.map (fun e => if e.1 = name then (e.1, e.2.joined isDir row.updatedAt) else e)
    else entries++[(name, {
      path := dir ++ name
      isDirectory := isDir
      updatedAt := row.updatedAt
      contentPreview := if isDir then none else some (String.ofList (row.content.toList.take 200)) })]

def withSlash (directory : String) : String :=
  if directory ≠ "" && !endsWith directory "/" then directory ++ "/" else directory

def listDirectory (directory : String) (rows : List Row) : List WorkspaceEntry :=
  ((rows.foldl (addRow (withSlash directory)) []).map Prod.snd).mergeSort
    (fun a b => a.path ≤ b.path)

def list (directory : String) (rows : List Row) : List WorkspaceEntry :=
  listDirectory (normalizeDirectory directory) rows

def delete (path : String) (rows : List Row) : Option (List Row) :=
  let path := normalizePath path
  if rows.any (fun row => row.path = path) then some (rows.filter (fun row => row.path ≠ path))
  else none

/-! ## A pass -/

def identityPaths : List String :=
  [Paths.memory, Paths.identity, Paths.soul, Paths.agents, Paths.user, Paths.heartbeat,
   Paths.readme, Paths.tools, Paths.bootstrap]

structure HygieneConfig where
  enabled : Bool
  dailyRetentionDays : UInt32
  conversationRetentionDays : UInt32
  cadenceHours : UInt32
  deriving DecidableEq

structure HygieneReport where
  dailyLogsDeleted : UInt32
  conversationDocsDeleted : UInt32
  skipped : Bool
  deriving DecidableEq

def skippedReport : HygieneReport := ⟨0, 0, true⟩

structure World where
  running : Bool
  lastRun : Option DateTime
  rows : List Row

structure Surroundings where
  checked : DateTime
  saved : DateTime
  daily : DateTime
  conversations : DateTime
  writable : Bool

section pass

variable (tables : Tables)

def isIdentityPath (path : String) : Bool :=
  let fileName := path.toList.rtakeWhile (fun c => c ≠ '/')
  identityPaths.any (fun p => toLowercase tables p.toList = toLowercase tables fileName)

def cleanEntry (directory : String) (cutoff : DateTime) (state : UInt32 × List Row)
    (entry : WorkspaceEntry) : UInt32 × List Row :=
  if entry.isDirectory then state
  else if isIdentityPath tables entry.path then state
  else match entry.updatedAt with
    | none => state
    | some updatedAt =>
      if updatedAt.nanos < cutoff.nanos then
        let path := if startsWith entry.path directory then entry.path else directory ++ entry.path
        match delete path state.2 with
        | none => state
        | some rows => (state.1+1, rows)
      else state

def cleanup (directory : String) (retentionDays : UInt32) (now : DateTime) (rows : List Row) :
    Option (UInt32 × List Row) :=
  (now.checkedSub (days retentionDays)).map (fun cutoff =>
    (list directory rows).foldl (cleanEntry tables directory cutoff) (0, rows))

def cleanupDailyLogs : UInt32 → DateTime → List Row → Option (UInt32 × List Row) :=
  cleanup tables "daily/"

def cleanupConversationDocs : UInt32 → DateTime → List Row → Option (UInt32 × List Row) :=
  cleanup tables "conversations/"

def cadenceElapsed (config : HygieneConfig) (now : DateTime) (lastRun : Option DateTime) : Bool :=
  match lastRun with
  | some lastRun => hours config.cadenceHours ≤ now.nanos-lastRun.nanos
  | none => true

def saveState (given : Surroundings) (w : World) : World :=
  if given.writable then { w with lastRun := some given.saved } else w

def guardedPass (config : HygieneConfig) (given : Surroundings) (w : World) :
    Option HygieneReport × World :=
  if !cadenceElapsed config given.checked w.lastRun then (some skippedReport, w)
  else
    let w := saveState given w
    match cleanupDailyLogs tables config.dailyRetentionDays given.daily w.rows with
    | none => (none, w)
    | some (dailyLogs, rows) =>
      let w := { w with rows := rows }
      match cleanupConversationDocs tables config.conversationRetentionDays given.conversations
          w.rows with
      | none => (none, w)
      | some (conversationDocs, rows) =>
        (some ⟨dailyLogs, conversationDocs, false⟩, { w with rows := rows })

def runIfDue (config : HygieneConfig) (given : Surroundings) (w : World) :
    Option HygieneReport × World :=
  if !config.enabled then (some skippedReport, w)
  else if w.running then (some skippedReport, w)
  else
    let (report, w) := guardedPass tables config given { w with running := true }
    (report, { w with running := false })

end pass

section listing

def IsName (name : String) : Prop := name.toList ≠ [] ∧ '/' ∉ name.toList

theorem childOf_some (dir path name : String) (isDir : Bool)
    (h : childOf dir path = some (name, isDir)) :
    IsName name ∧ (isDir = false → path = dir ++ name) := by
  unfold childOf at h
  split at h
  · next hstart =>
    obtain ⟨rest, hrest⟩ := List.isPrefixOf_iff_prefix.mp hstart
    rw [← hrest, List.drop_left] at h
    dsimp only at h
    split at h
    · cases h
    · next hname =>
      rw [Option.some.injEq, Prod.mk.injEq] at h
      rw [← h.1, ← h.2]
      refine ⟨⟨?_, ?_⟩, fun hdir => ?_⟩
      · rwa [String.toList_ofList, ne_eq, ← List.isEmpty_iff]
      · rw [String.toList_ofList]
        intro hmem
        exact absurd (List.mem_takeWhile_imp hmem) (by simp)
      · have hall : rest.takeWhile (fun c => c ≠ '/') = rest := by
          rw [List.takeWhile_eq_self_iff]
          intro c hc
          simp only [ne_eq, decide_not, Bool.not_eq_eq_eq_not, Bool.not_true, decide_eq_false_iff_not]
          rintro rfl
          exact absurd hdir (by simpa using hc)
        rw [hall, ← String.toList_inj, ← hrest, String.toList_append, String.toList_ofList]
  · cases h

def Listed (dir : String) (rows : List Row) (e : String × WorkspaceEntry) : Prop :=
  IsName e.1 ∧ e.2.path = dir ++ e.1 ∧
    (e.2.isDirectory = false → ∃ row ∈ rows, row.path = e.2.path)

theorem Listed.more {dir : String} {rows : List Row} {e : String × WorkspaceEntry}
    (h : Listed dir rows e) (row : Row) : Listed dir (rows++[row]) e := by
  refine ⟨h.1, h.2.1, fun hdir => ?_⟩
  obtain ⟨found, hmem, hpath⟩ := h.2.2 hdir
  exact ⟨found, List.mem_append_left _ hmem, hpath⟩

theorem addRow_listed (dir : String) (rows : List Row) (row : Row)
    (entries : List (String × WorkspaceEntry)) (h : ∀ e ∈ entries, Listed dir rows e) :
    ∀ e ∈ addRow dir entries row, Listed dir (rows++[row]) e := by
  intro e he
  rw [addRow] at he
  cases hchild : childOf dir row.path with
  | none =>
    rw [hchild] at he
    exact (h e he).more row
  | some child =>
    obtain ⟨name, isDir⟩ := child
    obtain ⟨hname, hplain⟩ := childOf_some dir row.path name isDir hchild
    rw [hchild] at he
    simp only at he
    split at he
    · obtain ⟨old, hold, heq⟩ := List.mem_map.mp he
      have hlisted := (h old hold).more row
      rw [← heq]
      split
      · refine ⟨hlisted.1, hlisted.2.1, fun hdir => hlisted.2.2 ?_⟩
        exact (Bool.or_eq_false_iff.mp hdir).1
      · exact hlisted
    · obtain he | he := List.mem_append.mp he
      · exact (h e he).more row
      · rw [List.mem_singleton.mp he]
        refine ⟨hname, rfl, fun hdir => ⟨row, List.mem_append_right _ List.mem_cons_self, ?_⟩⟩
        exact hplain hdir

theorem addRows_listed (dir : String) (rows read : List Row)
    (entries : List (String × WorkspaceEntry)) (h : ∀ e ∈ entries, Listed dir read e) :
    ∀ e ∈ rows.foldl (addRow dir) entries, Listed dir (read++rows) e := by
  induction rows generalizing read entries with
  | nil => simpa using h
  | cons row rows ih =>
    have hnext := ih (read++[row]) (addRow dir entries row) (addRow_listed dir read row entries h)
    rwa [List.append_assoc, List.singleton_append] at hnext

theorem listDirectory_listed (directory : String) (rows : List Row) (e : WorkspaceEntry)
    (h : e ∈ listDirectory directory rows) :
    ∃ name, Listed (withSlash directory) rows (name, e) := by
  rw [listDirectory, List.mem_mergeSort, List.mem_map] at h
  obtain ⟨⟨name, entry⟩, hmem, heq⟩ := h
  have hlisted := addRows_listed (withSlash directory) rows [] []
    (fun e he => absurd he List.not_mem_nil) _ hmem
  rw [List.nil_append] at hlisted
  exact ⟨name, heq ▸ hlisted⟩

/-- Rows outside the directory do not show in its listing. -/
theorem addRows_filter (dir : String) (keep : Row → Bool) (rows : List Row)
    (h : ∀ row ∈ rows, keep row = false → childOf dir row.path = none)
    (entries : List (String × WorkspaceEntry)) :
    (rows.filter keep).foldl (addRow dir) entries = rows.foldl (addRow dir) entries := by
  induction rows generalizing entries with
  | nil => rfl
  | cons row rows ih =>
    have hrest := ih (fun r hr => h r (List.mem_cons_of_mem _ hr))
    cases hkeep : keep row with
    | true => rw [List.filter_cons_of_pos hkeep, List.foldl_cons, List.foldl_cons, hrest]
    | false =>
      have hout : addRow dir entries row = entries := by
        rw [addRow, h row List.mem_cons_self hkeep]
      rw [List.filter_cons_of_neg (by simp [hkeep]), hrest, List.foldl_cons, hout]

theorem listDirectory_filter (directory : String) (keep : Row → Bool) (rows : List Row)
    (h : ∀ row ∈ rows, keep row = false → childOf (withSlash directory) row.path = none) :
    listDirectory directory (rows.filter keep) = listDirectory directory rows := by
  rw [listDirectory, addRows_filter _ keep rows h, listDirectory]

end listing

section normal

theorem collapse_plain (n : List Char) (h : '/' ∉ n) (b : Bool) : collapseSlashes b n = n := by
  induction n generalizing b with
  | nil => rfl
  | cons c n ih =>
    rw [List.mem_cons, not_or] at h
    rw [collapseSlashes, if_neg (Ne.symm h.1), ih h.2]

theorem collapse_joined (d n : List Char) (hd : '/' ∉ d) (hn : '/' ∉ n) :
    collapseSlashes false (d++ '/'::n) = d++ '/'::n := by
  induction d with
  | nil => rw [List.nil_append, collapseSlashes, if_pos rfl, collapse_plain n hn]; rfl
  | cons c d ih =>
    rw [List.mem_cons, not_or] at hd
    rw [List.cons_append, collapseSlashes, if_neg (Ne.symm hd.1), ih hd.2]

theorem trimSlashes_plain (cs : List Char) (hfirst : cs.head? ≠ some '/')
    (hlast : cs.getLast? ≠ some '/') : trimSlashes cs = cs := by
  have hdrop : cs.dropWhile (fun c => c = '/') = cs := by
    cases cs with
    | nil => rfl
    | cons c cs =>
      rw [List.dropWhile_cons_of_neg]
      simpa using hfirst
  rw [trimSlashes, hdrop, List.rdropWhile_eq_self_iff]
  intro hne
  rw [List.getLast?_eq_some_getLast hne] at hlast
  simpa using hlast

variable (d : List Char) (hd : d ≠ []) (hslash : '/' ∉ d) (hblank : ∀ c ∈ d, isWhitespace c = false)
include hd hslash hblank

/-- The trimmed name in the directory, or the directory where nothing is left of it. -/
theorem normalize_joined (path : String) (n : List Char) (hn : '/' ∉ n)
    (hpath : path.toList = d++ '/'::n) : (normalizePath path).toList =
      if trimEnd n = [] then d else d++ '/'::trimEnd n := by
  obtain ⟨c, t, hct⟩ := List.exists_cons_of_ne_nil hd
  have hc : c ∈ d := by rw [hct]; exact List.mem_cons_self
  have hcs : c ≠ '/' := fun h => hslash (h ▸ hc)
  have htrim : trimChars (d++ '/'::n) = d++ '/'::trimEnd n := by
    rw [trimChars_headed _ c (hblank c hc) (by rw [hct]; rfl), trimEnd_append _ _ _ (by decide)]
  have hm : '/' ∉ trimEnd n := fun h => hn ((trimEnd_begins n).subset h)
  rw [normalizePath, String.toList_ofList, hpath, htrim]
  by_cases hempty : trimEnd n = []
  · have hlast : ∀ hne, ¬ (d.getLast hne = '/') := fun hne h => hslash (h ▸ List.getLast_mem hne)
    have hslashes : trimSlashes (d++['/']) = d := by
      rw [trimSlashes, hct, List.cons_append, List.dropWhile_cons_of_neg (by simpa using hcs),
        ← List.cons_append, ← hct, List.rdropWhile_concat_pos _ _ _ (by simp),
        List.rdropWhile_eq_self_iff]
      exact fun hne => by simpa using hlast hne
    rw [hempty, if_pos rfl, hslashes, collapse_plain d hslash]
  · rw [if_neg hempty, trimSlashes_plain, collapse_joined d _ hslash hm]
    · rw [hct, List.cons_append, List.head?_cons, ne_eq, Option.some.injEq]
      exact hcs
    · rw [List.getLast?_append_of_ne_nil _ (List.cons_ne_nil _ _), List.getLast?_cons_of_ne_nil hempty]
      exact fun h => hm (List.mem_of_getLast? h)

omit hd in
theorem normalize_plain (path : String) (hpath : path.toList = d) : normalizePath path = path := by
  have htrim : trimChars d = d := by
    rw [trimChars, List.dropWhile_eq_self_iff.mpr, List.rdropWhile_eq_self_iff]
    · exact fun hne => by simp [hblank _ (List.getLast_mem hne)]
    · exact fun hlen => by simp [hblank _ (List.getElem_mem hlen)]
  rw [normalizePath, hpath, htrim, trimSlashes_plain, collapse_plain d hslash, ← hpath,
    String.ofList_toList]
  · exact fun h => hslash (List.mem_of_head? h)
  · exact fun h => hslash (List.mem_of_getLast? h)

/-- What a name in the directory is normalised to stays as it is. -/
theorem normalize_settled (path : String) (n : List Char) (hn : '/' ∉ n)
    (hpath : path.toList = d++ '/'::n) :
    normalizePath (normalizePath path) = normalizePath path := by
  have hnormal := normalize_joined d hd hslash hblank path n hn hpath
  by_cases hempty : trimEnd n = []
  · rw [if_pos hempty] at hnormal
    exact normalize_plain d hslash hblank _ hnormal
  · rw [if_neg hempty] at hnormal
    have hm : '/' ∉ trimEnd n := fun h => hn ((trimEnd_begins n).subset h)
    have hagain := normalize_joined d hd hslash hblank _ _ hm hnormal
    have hidem : trimEnd (trimEnd n) = trimEnd n := List.rdropWhile_idempotent _ _
    rw [hidem, if_neg hempty, ← hnormal] at hagain
    exact String.toList_inj.mp hagain

end normal

section laws

variable (tables : Tables)

def stale (limit : ℤ) (e : WorkspaceEntry) : Bool :=
  !e.isDirectory && !isIdentityPath tables e.path && e.updatedAt.any (fun t => t.nanos < limit)

def staleIn (directory : String) (retentionDays : UInt32) (now : DateTime) (rows : List Row) :
    List WorkspaceEntry :=
  (list directory rows).filter (stale tables (now.nanos-days retentionDays))

def staleEntries (config : HygieneConfig) (given : Surroundings) (rows : List Row) :
    List WorkspaceEntry :=
  staleIn tables "daily/" config.dailyRetentionDays given.daily rows++
    staleIn tables "conversations/" config.conversationRetentionDays given.conversations rows

def due (config : HygieneConfig) (given : Surroundings) (w : World) : Bool :=
  config.enabled && !w.running && cadenceElapsed config given.checked w.lastRun

structure Hygienic (config : HygieneConfig) (given : Surroundings) (w : World) : Prop where
  returns : (runIfDue tables config given w).1.isSome = true
  exact : (runIfDue tables config given w).2.rows = w.rows.filter (fun row =>
    !(due config given w && (staleEntries tables config given w.rows).any (fun e => e.path = row.path)))
  cleared : (runIfDue tables config given w).2.running = w.running

def target (directory : String) (e : WorkspaceEntry) : String :=
  normalizePath (if startsWith e.path directory then e.path else directory ++ e.path)

theorem filter_delete (path : String) (rows : List Row) :
    (delete path rows).getD rows = rows.filter (fun row => row.path ≠ normalizePath path) := by
  rw [delete]
  split
  · rfl
  · next hnone =>
    refine (List.filter_eq_self.mpr (fun row hrow => ?_)).symm
    simp only [List.any_eq_true, decide_eq_true_eq, not_exists, not_and] at hnone
    simpa using hnone row hrow

theorem cleanEntry_rows (directory : String) (cutoff : DateTime) (state : UInt32 × List Row)
    (e : WorkspaceEntry) : (cleanEntry tables directory cutoff state e).2 =
      if stale tables cutoff.nanos e then
        state.2.filter (fun row => row.path ≠ target directory e) else state.2 := by
  rw [target, ← filter_delete]
  unfold cleanEntry stale
  cases e.isDirectory with
  | true => rfl
  | false =>
    cases isIdentityPath tables e.path with
    | true => rfl
    | false =>
      cases e.updatedAt with
      | none => rfl
      | some t =>
        by_cases hold : t.nanos < cutoff.nanos
        · simp only [hold, Option.any_some, decide_true, Bool.not_false, Bool.true_and, if_true,
            Bool.false_eq_true, if_false]
          cases delete _ state.2 <;> rfl
        · simp [hold]

/-- The cleaning goes over the listing and deletes the stale entries. -/
theorem cleanEntries_rows (directory : String) (cutoff : DateTime) (entries : List WorkspaceEntry)
    (state : UInt32 × List Row) : (entries.foldl (cleanEntry tables directory cutoff) state).2 =
      state.2.filter (fun row => !(entries.filter (stale tables cutoff.nanos)).any
        (fun e => target directory e = row.path)) := by
  induction entries generalizing state with
  | nil => simp
  | cons e entries ih =>
    rw [List.foldl_cons, ih, cleanEntry_rows]
    cases hstale : stale tables cutoff.nanos e with
    | false => simp [hstale]
    | true =>
      rw [if_pos rfl, List.filter_filter, List.filter_cons_of_pos hstale]
      refine List.filter_congr (fun row _ => ?_)
      rw [List.any_cons, Bool.not_or, Bool.and_comm]
      simp [eq_comm]

theorem checkedSub_some (t c : DateTime) (span : ℤ) (h : t.checkedSub span = some c) :
    c.nanos = t.nanos-span := by
  unfold DateTime.checkedSub at h
  split at h
  · rw [← Option.some.inj h]
  · cases h

theorem cleanup_rows (directory : String) (retentionDays : UInt32) (now : DateTime)
    (rows : List Row) (result : UInt32 × List Row)
    (h : cleanup tables directory retentionDays now rows = some result) :
    result.2 = rows.filter (fun row => !(staleIn tables directory retentionDays now rows).any
      (fun e => target directory e = row.path)) := by
  obtain ⟨cutoff, hcutoff, heq⟩ := Option.map_eq_some_iff.mp h
  rw [← heq, cleanEntries_rows, checkedSub_some now cutoff _ hcutoff, staleIn]

theorem cleanup_isSome (directory : String) (retentionDays : UInt32) (now : DateTime)
    (rows : List Row) : (cleanup tables directory retentionDays now rows).isSome =
      (now.checkedSub (days retentionDays)).isSome := Option.isSome_map

end laws

section folders

structure Folder (directory : String) (d : List Char) : Prop where
  nonempty : d ≠ []
  plain : '/' ∉ d
  blackened : ∀ c ∈ d, isWhitespace c = false
  written : directory.toList = d++['/']

theorem unblank (d : List Char) (h : d.any isWhitespace = false) :
    ∀ c ∈ d, isWhitespace c = false :=
  fun c hc => Bool.eq_false_iff.mpr (List.any_eq_false.mp h c hc)

theorem daily_folder : Folder "daily/" "daily".toList where
  nonempty := by decide
  plain := by decide
  blackened := unblank _ (by decide)
  written := by decide

theorem conversations_folder : Folder "conversations/" "conversations".toList where
  nonempty := by decide
  plain := by decide
  blackened := unblank _ (by decide)
  written := by decide

/-- A folder is listed under the name it is written with. -/
theorem Folder.listed {directory : String} {d : List Char} (hf : Folder directory d) :
    withSlash (normalizeDirectory directory) = directory := by
  have hnormal := normalize_joined d hf.nonempty hf.plain hf.blackened directory []
    List.not_mem_nil hf.written
  have hnone : trimEnd [] = [] := rfl
  have hname : normalizeDirectory directory = String.ofList d := by
    rw [normalizeDirectory, hnormal, if_pos hnone, List.rdropWhile_eq_self_iff.mpr]
    intro hne
    rw [decide_eq_true_eq]
    exact fun h => hf.plain (h ▸ List.getLast_mem hne)
  have hopen : endsWith (String.ofList d) "/" = false := by
    have hname : (String.ofList d).toList = d := String.toList_ofList
    rw [Bool.eq_false_iff, ne_eq, endsWith, List.isSuffixOf_iff_suffix, hname]
    exact fun h => hf.plain (h.subset List.mem_cons_self)
  have hfull : String.ofList d ≠ "" := by
    rw [ne_eq, ← String.toList_eq_nil_iff, String.toList_ofList]
    exact hf.nonempty
  rw [hname, withSlash, hopen, if_pos (by simpa using hfull), ← String.toList_inj, hf.written,
    String.toList_append, String.toList_ofList]
  rfl

variable {tables : Tables} {directory : String} {d : List Char} (hf : Folder directory d)
variable {retentionDays : UInt32} {now : DateTime} {rows : List Row} {e : WorkspaceEntry}
variable (he : e ∈ staleIn tables directory retentionDays now rows)
include hf he

theorem stale_listed : (∃ n : List Char, '/' ∉ n ∧ e.path.toList = d++ '/'::n) ∧
    ∃ row ∈ rows, row.path = e.path := by
  obtain ⟨hmem, hstale⟩ := List.mem_filter.mp he
  obtain ⟨name, hname, hpath, hrow⟩ := listDirectory_listed _ rows e hmem
  rw [hf.listed] at hpath
  refine ⟨⟨name.toList, hname.2, ?_⟩, hrow ?_⟩
  · rw [show e.path = directory ++ name from hpath, String.toList_append, hf.written,
      List.append_assoc, List.singleton_append]
  · simp only [stale, Bool.and_eq_true, Bool.not_eq_true'] at hstale
    exact hstale.1.1

theorem target_eq : target directory e = normalizePath e.path := by
  obtain ⟨⟨n, -, hpath⟩, -⟩ := stale_listed hf he
  have hstart : startsWith e.path directory = true := by
    rw [startsWith, List.isPrefixOf_iff_prefix, hf.written, hpath]
    exact ⟨n, by simp⟩
  rw [target, if_pos hstart]

theorem stale_settled : normalizePath (normalizePath e.path) = normalizePath e.path := by
  obtain ⟨⟨n, hn, hpath⟩, -⟩ := stale_listed hf he
  exact normalize_settled d hf.nonempty hf.plain hf.blackened _ n hn hpath

theorem stale_begins : d <+: (normalizePath e.path).toList := by
  obtain ⟨⟨n, hn, hpath⟩, -⟩ := stale_listed hf he
  rw [normalize_joined d hf.nonempty hf.plain hf.blackened _ n hn hpath]
  split
  · exact List.prefix_rfl
  · exact List.prefix_append _ _

omit he in
theorem targets_any (path : String) :
    (staleIn tables directory retentionDays now rows).any (fun e => target directory e = path) =
      (staleIn tables directory retentionDays now rows).any
        (fun e => normalizePath e.path = path) := by
  rw [Bool.eq_iff_iff, List.any_eq_true, List.any_eq_true]
  refine exists_congr (fun e => and_congr_right (fun he => ?_))
  rw [target_eq hf he]

end folders

section pass

variable (tables : Tables) (config : HygieneConfig) (given : Surroundings) (w : World)

/-- The conversations are listed after the daily logs are deleted, and show the same. -/
theorem conversations_kept (rows : List Row) :
    list "conversations/" (rows.filter (fun row =>
      !(staleIn tables "daily/" config.dailyRetentionDays given.daily rows).any
        (fun e => target "daily/" e = row.path))) = list "conversations/" rows := by
  refine listDirectory_filter _ _ rows (fun row _ hgone => ?_)
  simp only [Bool.not_eq_false', List.any_eq_true, decide_eq_true_eq] at hgone
  obtain ⟨e, he, hpath⟩ := hgone
  have hbegins := stale_begins daily_folder he
  rw [← target_eq daily_folder he, hpath] at hbegins
  have hout : startsWith row.path "conversations/" = false := by
    rw [Bool.eq_false_iff, ne_eq, startsWith, List.isPrefixOf_iff_prefix]
    intro hconv
    obtain ⟨rest, hrest⟩ := hbegins
    obtain ⟨rest', hrest'⟩ := hconv
    have hheads := congrArg List.head? (hrest.trans hrest'.symm)
    have hdaily : "daily".toList.head? = some 'd' := by decide
    have hconv : "conversations/".toList.head? = some 'c' := by decide
    rw [List.head?_append, List.head?_append, hdaily, hconv] at hheads
    exact absurd (Option.some.inj hheads) (by decide)
  rw [conversations_folder.listed, childOf, hout]
  rfl

theorem runIfDue_idle (h : due config given w = false) :
    runIfDue tables config given w = (some skippedReport, w) := by
  unfold due at h
  unfold runIfDue
  cases henabled : config.enabled with
  | false => rfl
  | true =>
    cases hrunning : w.running with
    | true => rfl
    | false =>
      rw [henabled, hrunning, Bool.not_false, Bool.true_and, Bool.true_and] at h
      rw [Bool.not_true, if_neg Bool.false_ne_true, if_neg Bool.false_ne_true]
      simp only [guardedPass, h, Bool.not_false, if_true]
      rw [← hrunning]

theorem saveState_rows : (saveState given w).rows = w.rows := by
  unfold saveState
  split <;> rfl

/-- A pass that is due cleans both directories, or panics where a cutoff has no date. -/
theorem guardedPass_due (h : cadenceElapsed config given.checked w.lastRun = true) :
    ((guardedPass tables config given w).1 = none ∧
      ((given.daily.checkedSub (days config.dailyRetentionDays)).isSome &&
        (given.conversations.checkedSub (days config.conversationRetentionDays)).isSome) = false) ∨
    ∃ a b, cleanupDailyLogs tables config.dailyRetentionDays given.daily w.rows = some a ∧
      cleanupConversationDocs tables config.conversationRetentionDays given.conversations a.2 =
        some b ∧
      (guardedPass tables config given w).1 = some ⟨a.1, b.1, false⟩ ∧
      (guardedPass tables config given w).2.rows = b.2 := by
  have hdaily := cleanup_isSome tables "daily/" config.dailyRetentionDays given.daily w.rows
  rw [guardedPass, h, Bool.not_true, if_neg Bool.false_ne_true, ← hdaily]
  simp only [saveState_rows]
  cases ha : cleanupDailyLogs tables config.dailyRetentionDays given.daily w.rows with
  | none =>
    rw [cleanupDailyLogs] at ha
    rw [ha]
    exact Or.inl ⟨rfl, rfl⟩
  | some a =>
    obtain ⟨dailyLogs, rows⟩ := a
    have hconv := cleanup_isSome tables "conversations/" config.conversationRetentionDays
      given.conversations rows
    rw [← hconv]
    cases hb : cleanupConversationDocs tables config.conversationRetentionDays
        given.conversations rows with
    | none =>
      refine Or.inl ⟨by simp only [hb], ?_⟩
      rw [cleanupConversationDocs] at hb
      rw [hb, Option.isSome_none, Bool.and_false]
    | some b => exact Or.inr ⟨_, b, rfl, hb, by simp only [hb], by simp only [hb]⟩

theorem runIfDue_due (h : due config given w = true) :
    ((runIfDue tables config given w).1 = none ∧
      ((given.daily.checkedSub (days config.dailyRetentionDays)).isSome &&
        (given.conversations.checkedSub (days config.conversationRetentionDays)).isSome) = false) ∨
    ∃ a b, cleanupDailyLogs tables config.dailyRetentionDays given.daily w.rows = some a ∧
      cleanupConversationDocs tables config.conversationRetentionDays given.conversations a.2 =
        some b ∧
      (runIfDue tables config given w).1 = some ⟨a.1, b.1, false⟩ ∧
      (runIfDue tables config given w).2.rows = b.2 := by
  simp only [due, Bool.and_eq_true, Bool.not_eq_true'] at h
  obtain ⟨⟨henabled, hrunning⟩, hcadence⟩ := h
  have hpass := guardedPass_due tables config given { w with running := true } hcadence
  rw [runIfDue, henabled, hrunning, Bool.not_true, if_neg Bool.false_ne_true,
    if_neg Bool.false_ne_true]
  exact hpass

theorem runIfDue_dates (a b : UInt32 × List Row)
    (ha : cleanupDailyLogs tables config.dailyRetentionDays given.daily w.rows = some a)
    (hb : cleanupConversationDocs tables config.conversationRetentionDays given.conversations a.2 =
      some b) : (given.daily.checkedSub (days config.dailyRetentionDays)).isSome = true ∧
      (given.conversations.checkedSub (days config.conversationRetentionDays)).isSome = true := by
  rw [← cleanup_isSome tables "daily/" _ _ w.rows, ← cleanup_isSome tables "conversations/" _ _ a.2]
  exact ⟨Option.isSome_of_eq_some ha, Option.isSome_of_eq_some hb⟩

/-- The rows that two cleanups leave. -/
theorem cleaned_rows (a b : UInt32 × List Row)
    (ha : cleanupDailyLogs tables config.dailyRetentionDays given.daily w.rows = some a)
    (hb : cleanupConversationDocs tables config.conversationRetentionDays given.conversations a.2 =
      some b) : b.2 = w.rows.filter (fun row => !(staleEntries tables config given w.rows).any
        (fun e => normalizePath e.path = row.path)) := by
  have hfirst := cleanup_rows tables _ _ _ _ a ha
  have hsecond := cleanup_rows tables _ _ _ _ b hb
  have hlist : staleIn tables "conversations/" config.conversationRetentionDays given.conversations
      a.2 = staleIn tables "conversations/" config.conversationRetentionDays given.conversations
      w.rows := by
    rw [staleIn, hfirst, conversations_kept, staleIn]
  rw [hsecond, hlist, hfirst, List.filter_filter]
  refine List.filter_congr (fun row _ => ?_)
  rw [staleEntries, List.any_append, Bool.not_or, Bool.and_comm,
    targets_any daily_folder, targets_any conversations_folder]

theorem staleEntries_settled (rows : List Row) (e : WorkspaceEntry)
    (he : e ∈ staleEntries tables config given rows) :
    normalizePath (normalizePath e.path) = normalizePath e.path ∧
      ∃ row ∈ rows, row.path = e.path := by
  obtain he | he := List.mem_append.mp he
  · exact ⟨stale_settled daily_folder he, (stale_listed daily_folder he).2⟩
  · exact ⟨stale_settled conversations_folder he, (stale_listed conversations_folder he).2⟩

theorem runIfDue_running : (runIfDue tables config given w).2.running = w.running := by
  cases hdue : due config given w with
  | false => rw [runIfDue_idle tables config given w hdue]
  | true =>
    simp only [due, Bool.and_eq_true, Bool.not_eq_true'] at hdue
    rw [hdue.1.2, runIfDue, hdue.1.1, hdue.1.2]
    rfl

end pass

/-- A pass keeps its promise exactly when it is not due, or when its cutoffs are dates
and the paths that it deletes are normalised. -/
theorem runIfDue_hygienic (tables : Tables) (config : HygieneConfig) (given : Surroundings)
    (w : World) : Hygienic tables config given w ↔ (due config given w = true →
      (given.daily.checkedSub (days config.dailyRetentionDays)).isSome = true ∧
      (given.conversations.checkedSub (days config.conversationRetentionDays)).isSome = true ∧
      ∀ e ∈ staleEntries tables config given w.rows, normalizePath e.path = e.path) := by
  have hrunning := runIfDue_running tables config given w
  cases hdue : due config given w with
  | false =>
    have hidle := runIfDue_idle tables config given w hdue
    refine iff_of_true ⟨by rw [hidle]; rfl, ?_, hrunning⟩ (fun h => absurd h Bool.false_ne_true)
    rw [hidle, hdue]
    simp
  | true =>
    rw [forall_prop_of_true rfl]
    obtain ⟨hpanic, hdates⟩ | ⟨a, b, ha, hb, hreport, hrows⟩ :=
      runIfDue_due tables config given w hdue
    · refine iff_of_false (fun h => ?_) (fun h => ?_)
      · have hreturns := h.returns
        rw [hpanic] at hreturns
        cases hreturns
      · rw [h.1, h.2.1] at hdates
        cases hdates
    · have hreturns : (runIfDue tables config given w).1.isSome = true := by rw [hreport]; rfl
      rw [cleaned_rows tables config given w a b ha hb] at hrows
      have hdates := runIfDue_dates tables config given w a b ha hb
      constructor
      · intro h
        refine ⟨hdates.1, hdates.2, ?_⟩
        have hexact := h.exact
        rw [hrows, hdue] at hexact
        intro e he
        obtain ⟨row, hrow, hpath⟩ := (staleEntries_settled tables config given w.rows e he).2
        -- The row is to go, so that some entry is deleted under its path.
        have hgone : row ∉ w.rows.filter (fun row => !(staleEntries tables config given w.rows).any
            (fun e => normalizePath e.path = row.path)) := by
          rw [hexact, List.mem_filter, not_and]
          intro _ hkept
          rw [Bool.true_and, Bool.not_eq_true', List.any_eq_false] at hkept
          exact hkept e he (by rw [hpath, decide_eq_true_eq])
        rw [List.mem_filter, not_and, Bool.not_eq_true, Bool.not_eq_false', List.any_eq_true] at hgone
        obtain ⟨other, hother, hnormal⟩ := hgone hrow
        rw [decide_eq_true_eq] at hnormal
        have hsettled := (staleEntries_settled tables config given w.rows other hother).1
        rwa [hnormal, hpath] at hsettled
      · rintro ⟨-, -, hnormal⟩
        refine ⟨hreturns, ?_, hrunning⟩
        rw [hrows, hdue]
        refine List.filter_congr (fun row _ => ?_)
        have hsame : (staleEntries tables config given w.rows).any
            (fun e => normalizePath e.path = row.path) =
            (staleEntries tables config given w.rows).any (fun e => e.path = row.path) := by
          rw [Bool.eq_iff_iff, List.any_eq_true, List.any_eq_true]
          refine exists_congr (fun e => and_congr_right (fun he => ?_))
          rw [hnormal e he]
        rw [Bool.true_and, hsame]

def asciiTables : Tables := ⟨fun c => [c.toLower], fun c => c.isAlpha, fun _ => false⟩

def autumn : DateTime := ⟨1700000000*second, by decide⟩

/-- The largest retention has no cutoff in the calendar. -/
theorem endless_retention_panics : ¬ Hygienic asciiTables ⟨true, 4294967295, 7, 12⟩
    ⟨autumn, autumn, autumn, autumn, true⟩ ⟨false, none, []⟩ := by
  intro h
  have hreturns := h.returns
  obtain ⟨hpanic, -⟩ | ⟨a, b, ha, hb, -, -⟩ := runIfDue_due asciiTables ⟨true, 4294967295, 7, 12⟩
    ⟨autumn, autumn, autumn, autumn, true⟩ ⟨false, none, []⟩ rfl
  · rw [hpanic] at hreturns
    cases hreturns
  · have hdates := (runIfDue_dates asciiTables _ _ ⟨false, none, []⟩ a b ha hb).1
    revert hdates
    decide

end IronClaw.Hygiene
