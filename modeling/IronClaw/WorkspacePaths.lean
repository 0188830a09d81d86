import IronClaw.PromptFiles
import IronClaw.Lib.Strip

/-!
# Paths of the workspace

A path is trimmed, then its slashes are stripped, then runs of slashes inside
are squeezed. Blanks that the slashes kept from the trimming come to the ends,
and the next normalisation takes them off. Documents are stored under the
normalised path and every access normalises the path it is given once more, so
that such a document is out of reach under its own name.
-/

set_option autoImplicit false

namespace IronClaw.WorkspacePaths
open IronClaw.Workspace IronClaw.Workspace.Workspace IronClaw.PromptFiles
open Lib.Text Lib.Strip Lib.Runs

def listAll (ws : Workspace) (s : State) : Set String :=
  {path | (s.docs (ws.key path)).isSome = true}

def isSlash (c : Char) : Bool := c = '/'

structure Canonical (path : String) : Prop where
  slashes : Bare isSlash path.toList
  segments : ∀ before behind, path.toList ≠ before++ '/':: '/'::behind
  blanks : Bare isWhitespace path.toList

structure Flush (path : String) : Prop where
  start : ∀ slashes c rest, trimChars path.toList = slashes++c::rest → slashes ≠ [] →
    (∀ d ∈ slashes, isSlash d = true) → isWhitespace c = false
  stop : ∀ rest c slashes, trimChars path.toList = rest++c::slashes → slashes ≠ [] →
    (∀ d ∈ slashes, isSlash d = true) → isWhitespace c = false

def ReadBack (given : Given) (ws : Workspace) (path : String) : Prop :=
  ∀ content s doc, (ws.write given path content s).1 = .ok doc →
    normalizePath path ∈ listAll ws (ws.write given path content s).2 ∧
      ws.read (ws.write given path content s).2 (normalizePath path) = .ok doc

theorem trimChars_strip (cs : List Char) : trimChars cs = strip isWhitespace cs := rfl

theorem collapse_squeeze (before : Bool) (cs : List Char) :
    collapseSlashes before cs = squeeze isSlash before cs := by
  induction cs generalizing before with
  | nil => rfl
  | cons c cs ih => simp only [collapseSlashes, squeeze, isSlash, ih, decide_eq_true_eq]

section normal

variable (path : String)

def core : List Char := strip isSlash (strip isWhitespace path.toList)

theorem normal_chars : (normalizePath path).toList = squeeze isSlash false (core path) := by
  rw [normalizePath, String.toList_ofList, collapse_squeeze]
  rfl

theorem core_bare : Bare isSlash (core path) := bare_strip isSlash _

theorem normal_first : (normalizePath path).toList.head? = (core path).head? := by
  rw [normal_chars, squeeze_first]

theorem normal_last : (normalizePath path).toList.getLast? = (core path).getLast? := by
  rw [normal_chars]
  cases hlast : (core path).getLast? with
  | none => rw [List.getLast?_eq_none_iff.mp hlast]; rfl
  | some c =>
    obtain ⟨front, hfront⟩ := List.getLast?_eq_some_iff.mp hlast
    rw [hfront]
    exact squeeze_last isSlash false front c ((core_bare path).last c hlast)

theorem normal_bare (p : Char → Bool) :
    Bare p (normalizePath path).toList ↔ Bare p (core path) := by
  constructor
  · rintro ⟨hfirst, hlast⟩
    rw [normal_first] at hfirst
    rw [normal_last] at hlast
    exact ⟨hfirst, hlast⟩
  · rintro ⟨hfirst, hlast⟩
    constructor
    · rwa [normal_first]
    · rwa [normal_last]

theorem normal_single : ¬ Doubled isSlash (normalizePath path).toList := by
  rw [normal_chars]
  exact (squeeze_single isSlash (core path)).1

theorem normal_segments (before behind : List Char) :
    (normalizePath path).toList ≠ before++ '/':: '/'::behind :=
  fun h => normal_single path ⟨before, behind, '/', '/', h, rfl, rfl⟩

theorem canonical_iff : Canonical (normalizePath path) ↔ Bare isWhitespace (core path) := by
  constructor
  · intro h
    exact (normal_bare path isWhitespace).mp h.blanks
  · intro h
    exact ⟨(normal_bare path isSlash).mpr (core_bare path), normal_segments path,
      (normal_bare path isWhitespace).mpr h⟩

theorem normal_length : (normalizePath path).toList.length ≤ (trimChars path.toList).length := by
  rw [normal_chars]
  exact Nat.le_trans (squeeze_length isSlash false _) (strip_length isSlash _)

theorem canonical_fixed (h : Canonical path) : normalizePath path = path := by
  have hruns : ¬ Doubled isSlash path.toList := by
    rintro ⟨a, b, c, d, hsplit, hc, hd⟩
    rw [of_decide_eq_true hc, of_decide_eq_true hd] at hsplit
    exact h.segments a b hsplit
  have hnormal := normal_chars path
  rw [core, strip_bare isWhitespace _ h.blanks, strip_bare isSlash _ h.slashes,
    (squeeze_fixed isSlash _ hruns).1] at hnormal
  exact String.toList_inj.mp hnormal

/-- A second normalisation changes nothing exactly if it has nothing to trim. -/
theorem settled_iff : normalizePath (normalizePath path) = normalizePath path ↔
    Bare isWhitespace (core path) := by
  rw [← normal_bare, ← strip_eq_iff]
  constructor
  · intro h
    -- What is trimmed is lost, so that the path would get shorter.
    have hshorter := normal_length (normalizePath path)
    rw [h, trimChars_strip] at hshorter
    obtain ⟨a, b, hsplit, -, -⟩ := strip_split isWhitespace (normalizePath path).toList
    have hlen := congrArg List.length hsplit
    rw [List.length_append, List.length_append] at hlen
    have ha : a = [] := List.length_eq_zero_iff.mp (by omega)
    have hb : b = [] := List.length_eq_zero_iff.mp (by omega)
    rw [ha, hb, List.nil_append, List.append_nil] at hsplit
    exact hsplit.symm
  · intro h
    rw [strip_eq_iff, normal_bare] at h
    exact canonical_fixed _ ((canonical_iff path).mpr h)

/-- The ends of the core are those of the trimmed path, or stand behind slashes. -/
theorem core_flush : Bare isWhitespace (core path) ↔ Flush path := by
  have htrimmed := bare_strip isWhitespace path.toList
  constructor
  · intro h
    constructor
    · intro slashes c rest htrim hne hslashes
      by_cases hc : isSlash c = true
      · rw [of_decide_eq_true hc]
        decide
      · apply h.first
        rw [core, ← trimChars_strip, htrim]
        exact strip_first isSlash slashes rest c hslashes (Bool.eq_false_iff.mpr hc)
    · intro rest c slashes htrim hne hslashes
      by_cases hc : isSlash c = true
      · rw [of_decide_eq_true hc]
        decide
      · apply h.last
        rw [core, ← trimChars_strip, htrim]
        exact strip_last isSlash rest slashes c hslashes (Bool.eq_false_iff.mpr hc)
  · intro h
    obtain ⟨a, b, hsplit, ha, hb⟩ := strip_split isSlash (strip isWhitespace path.toList)
    change strip isWhitespace path.toList = a++core path++b at hsplit
    constructor
    · intro c hc
      obtain ⟨rest, hrest⟩ := List.head?_eq_some_iff.mp hc
      rw [hrest] at hsplit
      by_cases hnil : a = []
      · apply htrimmed.first
        rw [hsplit, hnil]
        rfl
      · refine h.start a c (rest++b) ?_ hnil ha
        rw [trimChars_strip, hsplit, List.append_assoc, List.cons_append]
    · intro c hc
      obtain ⟨rest, hrest⟩ := List.getLast?_eq_some_iff.mp hc
      rw [hrest] at hsplit
      by_cases hnil : b = []
      · apply htrimmed.last
        rw [hsplit, hnil, List.append_nil, ← List.append_assoc, List.getLast?_concat]
      · refine h.stop (a++rest) c b ?_ hnil hb
        rw [trimChars_strip, hsplit]
        simp

theorem flush_bare (h : Bare isSlash (trimChars path.toList)) : Flush path := by
  rw [← core_flush, core, ← trimChars_strip, strip_bare isSlash _ h]
  exact bare_strip isWhitespace path.toList

end normal

section store

variable (given : Given) (ws : Workspace)

variable (path content : String) (s : State)

theorem write_stored (doc : Document) (h : (ws.write given path content s).1 = .ok doc) :
    (ws.write given path content s).2.docs =
      Function.update s.docs (ws.key (normalizePath path)) (some doc) := by
  cases hscan : scan given (normalizePath path) content with
  | error e =>
    rw [ws.write_error given path content s e hscan] at h
    cases h
  | ok u =>
    have hdocs := store_docs s (ws.key (normalizePath path)) content
    have hstored := h
    simp only [Workspace.write, hscan, Except.ok.injEq, stored, hdocs, Function.update_self,
      Option.getD_some] at hstored
    rw [(ws.write_ok given path content s hscan).2, hdocs, hstored]

theorem read_key (path : String) (doc : Document) : ws.read s path = .ok doc ↔
    s.docs (ws.key (normalizePath path)) = some doc := by
  unfold Workspace.read getDocumentByPath
  cases s.docs (ws.key (normalizePath path)) with
  | none => simp
  | some found => rw [Except.ok.injEq, Option.some.injEq]

/-- Read through the listed path exactly if the next normalisation keeps it. -/
theorem readBack_iff (path : String) : ReadBack given ws path ↔
    normalizePath (normalizePath path) = normalizePath path := by
  constructor
  · intro h
    by_contra hmoved
    have hscan : scan given (normalizePath path) "" = .ok () := by simp [scan]
    have hok := (ws.write_ok given path "" noState hscan).1
    cases hwrite : (ws.write given path "" noState).1 with
    | error e =>
      rw [hwrite] at hok
      cases hok
    | ok doc =>
      have hread := (h "" noState doc hwrite).2
      have hkey : ws.key (normalizePath (normalizePath path)) ≠ ws.key (normalizePath path) := by
        intro hkey
        injection hkey with _ _ hsame
        exact hmoved hsame
      rw [read_key, write_stored given ws path "" noState doc hwrite,
        Function.update_of_ne hkey] at hread
      cases hread
  · intro h content s doc hwrite
    have hdocs := write_stored given ws path content s doc hwrite
    constructor
    · show ((ws.write given path content s).2.docs (ws.key (normalizePath path))).isSome = true
      rw [hdocs, Function.update_self]
      rfl
    · rw [read_key, h, hdocs, Function.update_self]

def Settled (docs : Key → Option Document) : Prop :=
  ∀ key, (docs key).isSome = true → normalizePath key.path = key.path

theorem put_settled (docs : Key → Option Document) (key : Key) (doc : Document)
    (h : Settled docs) (hkey : normalizePath key.path = key.path) :
    Settled (Function.update docs key (some doc)) := by
  intro other hother
  by_cases hsame : other = key
  · rw [hsame]
    exact hkey
  · rw [Function.update_of_ne hsame] at hother
    exact h other hother

theorem flush_settled (path : String) (h : Flush path) :
    normalizePath (normalizePath path) = normalizePath path :=
  (settled_iff path).mpr ((core_flush path).mpr h)

theorem create_settled (key : Key) (h : Settled s.docs) (hkey : normalizePath key.path = key.path) :
    Settled (getOrCreateDocumentByPath s key).2.docs := by
  rw [create_docs]
  exact put_settled s.docs key _ h hkey

theorem store_settled (key : Key) (content : String) (h : Settled s.docs)
    (hkey : normalizePath key.path = key.path) :
    Settled (storeContent (getOrCreateDocumentByPath s key).2 key content).docs := by
  rw [store_docs]
  exact put_settled s.docs key _ h hkey

theorem write_settled (h : Settled s.docs) (hpath : Flush path) :
    Settled (ws.write given path content s).2.docs := by
  cases hscan : scan given (normalizePath path) content with
  | error e => rw [ws.write_error given path content s e hscan]; exact h
  | ok u =>
    rw [(ws.write_ok given path content s hscan).2]
    exact store_settled s _ content h (flush_settled path hpath)

theorem writes_settled (files : List (String × String)) (s : State) (h : Settled s.docs)
    (hfiles : ∀ f ∈ files, Flush f.1) : Settled (ws.writes given files s).docs := by
  induction files generalizing s with
  | nil => rw [writes_nil]; exact h
  | cons file files ih =>
    rw [writes_cons]
    exact ih _ (write_settled given ws file.1 file.2 s h (hfiles file List.mem_cons_self))
      (fun f hf => hfiles f (List.mem_cons_of_mem _ hf))

theorem append_settled (h : Settled s.docs) (hpath : Flush path) :
    Settled (ws.append given path content s).2.docs := by
  have hkey := flush_settled path hpath
  cases hscan : scan given (normalizePath path)
      (joined "\n" (contentAt s (ws.key (normalizePath path))) content) with
  | error e =>
    rw [ws.append_error given path content s e hscan]
    exact create_settled s _ h hkey
  | ok u =>
    rw [ws.append_ok given path content s hscan]
    exact store_settled s _ _ h hkey

theorem layer_settled (layerName path content : String) (force : Bool) (s : State)
    (h : Settled s.docs) (hpath : Flush path) :
    Settled (ws.writeToLayer layerName path content force s).2.docs ∧
      Settled (ws.appendToLayer layerName path content force s).2.docs := by
  have hkey := flush_settled path hpath
  cases htarget : ws.resolveLayerTarget layerName content force with
  | error e =>
    obtain ⟨hwrite, happend⟩ := ws.layer_error layerName path content force s e htarget
    rw [hwrite, happend]
    exact ⟨h, h⟩
  | ok target =>
    obtain ⟨scope, actualLayer, redirected⟩ := target
    rw [ws.writeToLayer_ok layerName path content force s scope actualLayer redirected htarget,
      ws.appendToLayer_ok layerName path content force s scope actualLayer redirected htarget]
    exact ⟨store_settled s _ _ h hkey, store_settled s _ _ h hkey⟩

theorem delete_settled (path : String) (s : State) (h : Settled s.docs) :
    Settled (ws.delete path s).2.docs := by
  unfold Workspace.delete
  split
  · exact h
  · intro key hkey
    by_cases hsame : key = ws.key (normalizePath path)
    · simp [State.set, hsame] at hkey
    · simp only [State.set, Function.update_of_ne hsame] at hkey
      exact h key hkey

/-! ## Runs -/

def Placed : Op → Prop
  | .write path _ => Flush path
  | .append path _ => Flush path
  | .writeToLayer _ path _ _ => Flush path
  | .appendToLayer _ path _ _ => Flush path
  | .importFrom entries => ∀ e ∈ entries, Flush e.1
  | _ => True

theorem constant_flush (path : String)
    (h : path ∈ Paths.bootstrap::Paths.readme::systemPromptFiles++seedPaths) : Flush path := by
  have hends : ∀ p ∈ Paths.bootstrap::Paths.readme::systemPromptFiles++seedPaths,
      strip isSlash (trimChars p.toList) = trimChars p.toList := by decide
  exact flush_bare path ((strip_eq_iff isSlash _).mp (hends path h))

theorem memory_normal : normalizePath Paths.memory = Paths.memory := by
  unfold normalizePath
  decide

theorem daily_canonical (date : ℤ) (h : '/' ∉ (given.formatDate date).toList) :
    Canonical (dailyPath given date) := by
  have hpath : (dailyPath given date).toList =
      "daily/".toList++(given.formatDate date).toList++".md".toList := by
    rw [dailyPath, String.toList_append, String.toList_append]
  have hfirst : (dailyPath given date).toList.head? = some 'd' := by
    rw [hpath, List.append_assoc, List.head?_append]
    rfl
  have hlast : (dailyPath given date).toList.getLast? = some 'd' := by
    rw [hpath, List.getLast?_append]
    rfl
  have hbare (p : Char → Bool) (hp : p 'd' = false) : Bare p (dailyPath given date).toList := by
    constructor
    · intro c hc
      rw [hfirst, Option.some.injEq] at hc
      rwa [← hc]
    · intro c hc
      rw [hlast, Option.some.injEq] at hc
      rwa [← hc]
  refine ⟨hbare isSlash (by decide), fun before behind hsplit => ?_, hbare isWhitespace (by decide)⟩
  have hcount := congrArg (List.count '/') (hpath.symm.trans hsplit)
  simp only [List.count_append, List.count_eq_zero_of_not_mem h, List.count_cons_self] at hcount
  have hdaily : "daily/".toList.count '/' = 1 := by decide
  have hmd : ".md".toList.count '/' = 0 := by decide
  omega

theorem import_settled (entries : List (String × Option String)) (s : State)
    (h : Settled s.docs) (hentries : ∀ e ∈ entries, Flush e.1) :
    Settled (ws.importFromDirectory given entries s).2.docs := by
  unfold Workspace.importFromDirectory
  obtain ⟨files, hsub, hfiles⟩ := ws.writeAll_writes given _ s
  rw [hfiles]
  refine writes_settled given ws files s h (fun f hf => ?_)
  obtain ⟨⟨fileName, content⟩, he, hname⟩ := List.mem_filterMap.mp (hsub hf)
  have hsame : f.1 = fileName := by
    dsimp only at hname
    split at hname
    · cases hname
    · obtain ⟨text, -, htext⟩ := Option.bind_eq_some_iff.mp hname
      split at htext
      · cases htext
      · rw [← Option.some.inj htext]
  rw [hsame]
  exact hentries (fileName, content) he

theorem perform_settled (hdates : ∀ date, '/' ∉ (given.formatDate date).toList) (op : Op)
    (s : State) (h : Settled s.docs) (hop : Placed op) :
    Settled (ws.perform given op s).docs := by
  have hdaily (date : ℤ) : normalizePath (dailyPath given date) = dailyPath given date :=
    canonical_fixed _ (daily_canonical given date (hdates date))
  cases op with
  | write path content => exact write_settled given ws path content s h hop
  | append path content => exact append_settled given ws path content s h hop
  | appendMemory entry =>
    show Settled (ws.appendMemory entry s).2.docs
    rw [ws.appendMemory_eq]
    exact store_settled s _ _ h memory_normal
  | writeToLayer layerName path content force =>
    exact (layer_settled ws layerName path content force s h hop).1
  | appendToLayer layerName path content force =>
    exact (layer_settled ws layerName path content force s h hop).2
  | appendDailyLog date timestamp entry =>
    show Settled (ws.appendDailyLog given date timestamp entry s).2.docs
    rw [ws.appendDailyLog_eq]
    refine append_settled given ws _ _ s h ((core_flush _).mp ((settled_iff _).mp ?_))
    rw [hdaily, hdaily]
  | delete path => exact delete_settled ws path s h
  | memory => exact create_settled s _ h memory_normal
  | dailyLog date => exact create_settled s _ h (hdaily date)
  | seed =>
    obtain ⟨files, hpaths, hfiles⟩ := ws.seed_writes given s
    show Settled (ws.seedIfEmpty given s).2.docs
    rw [hfiles]
    refine writes_settled given ws files s h (fun f hf => constant_flush f.1 ?_)
    have hpath := hpaths f hf
    simp only [List.cons_append, List.mem_cons, List.mem_append] at hpath ⊢
    tauto
  | importFrom entries => exact import_settled given ws entries s h hop
  | sync =>
    obtain ⟨files, hpaths, hfiles⟩ := ws.sync_writes given s
    show Settled (ws.syncProfileDocuments given s).2.docs
    rw [hfiles]
    refine writes_settled given ws files s h (fun f hf => constant_flush f.1 ?_)
    have hpath := hpaths f hf
    simp only [List.cons_append, List.mem_cons, List.mem_append]
    tauto
  | prompt isGroupChat today now =>
    exact create_settled _ _ (create_settled s _ h (hdaily today)) (hdaily (today-1))
  | markBootstrapCompleted => exact h

theorem listed_read (h : Settled s.docs) (path : String) (hpath : path ∈ listAll ws s) :
    ∃ doc, s.docs (ws.key path) = some doc ∧ ws.read s path = .ok doc := by
  obtain ⟨doc, hdoc⟩ := Option.isSome_iff_exists.mp hpath
  refine ⟨doc, hdoc, ?_⟩
  rw [read_key, show normalizePath path = path from h (ws.key path) hpath]
  exact hdoc

end store

/-- A path is made canonical, and kept by the next normalisation, and read back
under what is listed, exactly if it is flush. When every path that a run writes
to is flush, every listed path reads its document. -/
theorem path_laws (given : Given) (ws : Workspace)
    (hdates : ∀ date, '/' ∉ (given.formatDate date).toList) :
    (∀ path, (Canonical (normalizePath path) ↔ Flush path) ∧
      (normalizePath (normalizePath path) = normalizePath path ↔ Flush path) ∧
      (ReadBack given ws path ↔ Flush path)) ∧
    ∀ ops s, Settled s.docs → (∀ op ∈ ops, Placed op) →
      ∀ path ∈ listAll ws (run (ws.perform given) ops s),
        ∃ doc, (run (ws.perform given) ops s).docs (ws.key path) = some doc ∧
          ws.read (run (ws.perform given) ops s) path = .ok doc := by
  constructor
  · intro path
    have hsettled := (settled_iff path).trans (core_flush path)
    exact ⟨(canonical_iff path).trans (core_flush path), hsettled,
      (readBack_iff given ws path).trans hsettled⟩
  · intro ops s hs hops
    have hplaced := along_all (ws.perform given) (fun op _ => Placed op) ops s
      (fun op hop _ => hops op hop)
    have hkept := guarded_invariant (ws.perform given) _ (fun s => Settled s.docs)
      (fun op s h hc => perform_settled given ws hdates op s h hc) ops s hplaced hs
    exact listed_read ws _ hkept

theorem noState_settled : Settled noState.docs := by
  intro key hkey
  cases hkey

theorem notes_flush : Flush "//notes/today.md " := by
  rw [← core_flush, ← strip_eq_iff]
  decide

theorem notes_listed : "notes/today.md" ∈ listAll aliceWorkspace
    (run (aliceWorkspace.perform plainGiven) [.write "//notes/today.md " "Tea at five."]
      noState) := by
  have hname : normalizePath "//notes/today.md " = "notes/today.md" := by
    unfold normalizePath
    decide
  have hscan : scan plainGiven "notes/today.md" "Tea at five." = .ok () := by
    rw [scan, if_neg]
    decide
  have hwritten := (aliceWorkspace.write_ok plainGiven "//notes/today.md " "Tea at five." noState
    (by rw [hname]; exact hscan)).2
  show ((aliceWorkspace.write plainGiven "//notes/today.md " "Tea at five." noState).2.docs
    (aliceWorkspace.key "notes/today.md")).isSome = true
  rw [hwritten, store_docs, hname, Function.update_self]
  rfl

theorem path_laws_notes :
    ReadBack plainGiven aliceWorkspace "//notes/today.md " ∧
    ∃ doc, aliceWorkspace.read (run (aliceWorkspace.perform plainGiven)
      [.write "//notes/today.md " "Tea at five."] noState) "notes/today.md" = .ok doc := by
  have hlaws := path_laws plainGiven aliceWorkspace (fun _ => by
    show '/' ∉ "2026-01-01".toList
    decide)
  refine ⟨(hlaws.1 "//notes/today.md ").2.2.mpr notes_flush, ?_⟩
  have hplaced : ∀ op ∈ ([.write "//notes/today.md " "Tea at five."] : List Op), Placed op :=
    List.forall_mem_singleton.mpr notes_flush
  obtain ⟨doc, -, hread⟩ :=
    hlaws.2 _ noState noState_settled hplaced "notes/today.md" notes_listed
  exact ⟨doc, hread⟩

/-- A blank behind the first slash comes to the front of the stored path, which
is listed and not found again. -/
theorem notes_lost :
    normalizePath "/ notes.md" = " notes.md" ∧ normalizePath " notes.md" = "notes.md" ∧
      ¬ Canonical (normalizePath "/ notes.md") ∧
      ¬ ReadBack plainGiven aliceWorkspace "/ notes.md" := by
  have hstored : normalizePath "/ notes.md" = " notes.md" := by
    unfold normalizePath
    decide
  have hagain : normalizePath " notes.md" = "notes.md" := by
    unfold normalizePath
    decide
  refine ⟨hstored, hagain, ?_, ?_⟩
  · rw [hstored]
    intro h
    exact absurd (h.blanks.first ' ' rfl) (by decide)
  · rw [readBack_iff, hstored, hagain]
    decide

end IronClaw.WorkspacePaths
