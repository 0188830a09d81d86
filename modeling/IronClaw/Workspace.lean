import IronClaw.Lib.Runs
import IronClaw.SafetyLayer
import IronClaw.Profile

/-!
# The workspace

`workspace/mod.rs`: documents of the memory, the operations that read and
write them and the system prompt built from them. A document belongs to a user
and an agent and is known by its path, which the database keeps unique, so the
three together stand for its id. Calls of the database succeed; they are taken
apart where several operations run at once. Long constant texts, what a regular
expression finds, dates and the JSON reader of a profile are given.
-/

set_option autoImplicit false

namespace IronClaw.Workspace
open IronClaw.LeakScan IronClaw.SafetyLayer IronClaw.Profile Lib.Text Lib.Search Lib.Runs

namespace Paths

def memory : String := "MEMORY.md"
def identity : String := "IDENTITY.md"
def soul : String := "SOUL.md"
def agents : String := "AGENTS.md"
def user : String := "USER.md"
def heartbeat : String := "HEARTBEAT.md"
def readme : String := "README.md"
def tools : String := "TOOLS.md"
def bootstrap : String := "BOOTSTRAP.md"
def profile : String := "context/profile.json"
def assistantDirectives : String := "context/assistant-directives.md"

end Paths

def systemPromptFiles : List String :=
  [Paths.soul, Paths.agents, Paths.user, Paths.identity, Paths.memory, Paths.tools,
   Paths.heartbeat, Paths.bootstrap, Paths.assistantDirectives, Paths.profile]

def eqIgnoreAsciiCase (s t : String) : Bool :=
  s.toList.map Char.toLower = t.toList.map Char.toLower

def isSystemPromptFile (path : String) : Bool :=
  systemPromptFiles.any (fun p => eqIgnoreAsciiCase path p)

def collapseSlashes : Bool → List Char → List Char
  | _, [] => []
  | lastWasSlash, c::cs =>
    if c = '/' then
      if lastWasSlash then collapseSlashes true cs else c::collapseSlashes true cs
    else c::collapseSlashes false cs

def trimSlashes (cs : List Char) : List Char :=
  (cs.dropWhile (fun c => c = '/')).rdropWhile (fun c => c = '/')

def normalizePath (path : String) : String :=
  String.ofList (collapseSlashes false (trimSlashes (trimChars path.toList)))

/-! ## Chunks of a document -/

def chunkSize : ℕ := 800

def minChunkSize : ℕ := 50

def stepSize : ℕ := 680

def chunkLoop (words : List String) (start : ℕ) (chunks : List String) : List String :=
  if start < words.length then
    let stop := min (start+chunkSize) words.length
    let chunkWords := (words.take stop).drop start
    match if chunkWords.length < minChunkSize then chunks.getLast? else none with
    | some last => chunks.dropLast++[last ++ " " ++ join " " chunkWords]
    | none =>
      let grown := chunks++[join " " chunkWords]
      if words.length ≤ start+stepSize+minChunkSize && stop = words.length then grown
      else chunkLoop words (start+stepSize) grown
  else chunks
termination_by words.length-start
decreasing_by
  have : 0 < stepSize := by decide
  omega

def chunkDocument (content : String) : List String :=
  let words := splitWhitespace content
  if words.isEmpty then []
  else if words.length ≤ chunkSize then [content]
  else chunkLoop words 0 []

/-! ## Documents -/

structure Key where
  userId : String
  agentId : Option ℕ
  path : String
  deriving DecidableEq

structure Document where
  content : String
  chunks : List String
  deriving DecidableEq

structure State where
  docs : Key → Option Document
  bootstrapPending : Bool
  bootstrapCompleted : Bool

inductive WorkspaceError where
  | documentNotFound (docType userId : String)
  | injectionRejected (path reason : String)
  | layerNotFound (name : String)
  | layerReadOnly (name : String)
  | privacyRedirectFailed
  deriving DecidableEq

def State.set (s : State) (key : Key) (doc : Option Document) : State :=
  { s with docs := Function.update s.docs key doc }

def getDocumentByPath (s : State) (key : Key) : Except WorkspaceError Document :=
  match s.docs key with
  | some doc => .ok doc
  | none => .error (.documentNotFound key.path key.userId)

def getOrCreateDocumentByPath (s : State) (key : Key) : Document × State :=
  match s.docs key with
  | some doc => (doc, s)
  | none => (⟨"", []⟩, s.set key (some ⟨"", []⟩))

def updateDocument (s : State) (key : Key) (content : String) : State :=
  match s.docs key with
  | some doc => s.set key (some { doc with content := content })
  | none => s

def reindexDocument (s : State) (key : Key) : State :=
  match s.docs key with
  | some doc => s.set key (some { doc with chunks := chunkDocument doc.content })
  | none => s

/-! ## Layers -/

inductive LayerSensitivity where
  | privateOnly
  | shared
  deriving DecidableEq

structure MemoryLayer where
  name : String
  scope : String
  writable : Bool
  sensitivity : LayerSensitivity
  deriving DecidableEq

def MemoryLayer.defaultForUser (userId : String) : List MemoryLayer :=
  [⟨"private", userId, true, .privateOnly⟩]

structure Workspace where
  userId : String
  agentId : Option ℕ
  memoryLayers : List MemoryLayer
  privacyClassifier : Option (String → Bool)

def Workspace.new (userId : String) : Workspace :=
  ⟨userId, none, MemoryLayer.defaultForUser userId, none⟩

def Workspace.resolveLayerTarget (ws : Workspace) (layerName content : String) (force : Bool) :
    Except WorkspaceError (String × String × Bool) :=
  match ws.memoryLayers.find? (fun l => l.name = layerName) with
  | none => .error (.layerNotFound layerName)
  | some layer =>
    if !layer.writable then .error (.layerReadOnly layerName)
    else if !force && layer.sensitivity = .shared &&
        (match ws.privacyClassifier with
          | some isSensitive => isSensitive content
          | none => false) then
      match ws.memoryLayers.find? (fun l => l.sensitivity = .privateOnly) with
      | none => .error .privacyRedirectFailed
      | some target =>
        if !target.writable then .error .privacyRedirectFailed
        else .ok (target.scope, target.name, true)
    else .ok (layer.scope, layerName, false)

def Workspace.key (ws : Workspace) (path : String) : Key := ⟨ws.userId, ws.agentId, path⟩

def Workspace.read (ws : Workspace) (s : State) (path : String) : Except WorkspaceError Document :=
  getDocumentByPath s (ws.key (normalizePath path))

def joined (sep old entry : String) : String := if old = "" then entry else old ++ sep ++ entry

structure WriteResult where
  document : Document
  redirected : Bool
  actualLayer : String

/-- `update_document` and `reindex_document`. -/
def storeContent (s : State) (key : Key) (content : String) : State :=
  reindexDocument (updateDocument s key content) key

/-- `get_document_by_id` after a write. -/
def stored (s : State) (key : Key) : Document := (s.docs key).getD ⟨"", []⟩

def contentAt (s : State) (key : Key) : String := ((s.docs key).map (·.content)).getD ""

theorem create_content (s : State) (key : Key) :
    (getOrCreateDocumentByPath s key).1.content = contentAt s key := by
  unfold getOrCreateDocumentByPath contentAt
  cases s.docs key <;> rfl

theorem create_docs (s : State) (key : Key) :
    (getOrCreateDocumentByPath s key).2.docs =
      Function.update s.docs key (some (getOrCreateDocumentByPath s key).1) := by
  unfold getOrCreateDocumentByPath
  cases h : s.docs key with
  | none => rfl
  | some doc => exact (Function.update_eq_self_iff.mpr h.symm).symm

theorem store_docs (s : State) (key : Key) (content : String) :
    (storeContent (getOrCreateDocumentByPath s key).2 key content).docs =
      Function.update s.docs key (some ⟨content, chunkDocument content⟩) := by
  have hcreated : (getOrCreateDocumentByPath s key).2.docs key =
      some (getOrCreateDocumentByPath s key).1 := by
    rw [create_docs, Function.update_self]
  simp only [storeContent, updateDocument, reindexDocument, hcreated, State.set,
    Function.update_self, create_docs, Function.update_idem]

structure Given where
  compile : String → List Char → List Match
  parseProfile : String → Option PsychographicProfile
  formatDate : ℤ → String
  parseRfc3339 : String → Option ℤ
  seeds : String → String
  analysisFramework : String
  profileJsonSchema : String

variable (given : Given)

def grave (content : String) : List InjectionWarning :=
  (sanitizerWarnings given.compile content.toList).filter (fun w =>
    Severity.high.value ≤ w.severity.value)

def rejectIfInjected (path content : String) : Except WorkspaceError Unit :=
  if (grave given content).isEmpty then .ok ()
  else .error (.injectionRejected path (join "; " ((grave given content).map (·.description))))

@[irreducible]
def scan (path content : String) : Except WorkspaceError Unit :=
  if isSystemPromptFile path && content ≠ "" then rejectIfInjected given path content else .ok ()

namespace Workspace

variable (ws : Workspace)

def write (path content : String) (s : State) : Except WorkspaceError Document × State :=
  let path := normalizePath path
  match scan given path content with
  | .error e => (.error e, s)
  | .ok _ =>
    let s' := storeContent (getOrCreateDocumentByPath s (ws.key path)).2 (ws.key path) content
    (.ok (stored s' (ws.key path)), s')

variable (path content : String) (s : State)

theorem write_ok (h : scan given (normalizePath path) content = .ok ()) :
    (ws.write given path content s).1.isOk = true ∧
      (ws.write given path content s).2 =
        storeContent (getOrCreateDocumentByPath s (ws.key (normalizePath path))).2
          (ws.key (normalizePath path)) content := by
  simp only [write, h, Except.isOk, Except.toBool, and_self]

theorem write_error (e : WorkspaceError) (h : scan given (normalizePath path) content = .error e) :
    ws.write given path content s = (.error e, s) := by
  simp only [write, h]

def writes (files : List (String × String)) (s : State) : State :=
  files.foldl (fun s file => (ws.write given file.1 file.2 s).2) s

theorem writes_nil : ws.writes given [] s = s := rfl

theorem writes_cons (file : String × String) (files : List (String × String)) (s : State) :
    ws.writes given (file::files) s =
      ws.writes given files (ws.write given file.1 file.2 s).2 := by
  simp only [writes, List.foldl_cons]

def append (path content : String) (s : State) : Except WorkspaceError Unit × State :=
  let path := normalizePath path
  let (doc, created) := getOrCreateDocumentByPath s (ws.key path)
  let newContent := joined "\n" doc.content content
  match scan given path newContent with
  | .error e => (.error e, created)
  | .ok _ => (.ok (), storeContent created (ws.key path) newContent)

theorem append_ok (h : scan given (normalizePath path)
      (joined "\n" (contentAt s (ws.key (normalizePath path))) content) = .ok ()) :
    (ws.append given path content s).2 =
      storeContent (getOrCreateDocumentByPath s (ws.key (normalizePath path))).2
        (ws.key (normalizePath path))
        (joined "\n" (contentAt s (ws.key (normalizePath path))) content) := by
  rw [← create_content] at h ⊢
  simp only [append, h]

theorem append_error (e : WorkspaceError) (h : scan given (normalizePath path)
      (joined "\n" (contentAt s (ws.key (normalizePath path))) content) = .error e) :
    (ws.append given path content s).2 =
      (getOrCreateDocumentByPath s (ws.key (normalizePath path))).2 := by
  rw [← create_content] at h
  simp only [append, h]

def writeToLayer (layerName path content : String) (force : Bool) (s : State) :
    Except WorkspaceError WriteResult × State :=
  match ws.resolveLayerTarget layerName content force with
  | .error e => (.error e, s)
  | .ok (scope, actualLayer, redirected) =>
    let key : Key := ⟨scope, ws.agentId, normalizePath path⟩
    let s' := storeContent (getOrCreateDocumentByPath s key).2 key content
    (.ok ⟨stored s' key, redirected, actualLayer⟩, s')

def appendToLayer (layerName path content : String) (force : Bool) (s : State) :
    Except WorkspaceError WriteResult × State :=
  match ws.resolveLayerTarget layerName content force with
  | .error e => (.error e, s)
  | .ok (scope, actualLayer, redirected) =>
    let key : Key := ⟨scope, ws.agentId, normalizePath path⟩
    let (doc, created) := getOrCreateDocumentByPath s key
    let s' := storeContent created key (joined "\n\n" doc.content content)
    (.ok ⟨stored s' key, redirected, actualLayer⟩, s')

theorem writeToLayer_ok (layerName path content : String) (force : Bool) (s : State)
    (scope actualLayer : String) (redirected : Bool)
    (h : ws.resolveLayerTarget layerName content force = .ok (scope, actualLayer, redirected)) :
    (ws.writeToLayer layerName path content force s).2 =
      storeContent (getOrCreateDocumentByPath s ⟨scope, ws.agentId, normalizePath path⟩).2
        ⟨scope, ws.agentId, normalizePath path⟩ content := by
  simp only [writeToLayer, h]

theorem appendToLayer_ok (layerName path content : String) (force : Bool) (s : State)
    (scope actualLayer : String) (redirected : Bool)
    (h : ws.resolveLayerTarget layerName content force = .ok (scope, actualLayer, redirected)) :
    (ws.appendToLayer layerName path content force s).2 =
      storeContent (getOrCreateDocumentByPath s ⟨scope, ws.agentId, normalizePath path⟩).2
        ⟨scope, ws.agentId, normalizePath path⟩
        (joined "\n\n" (contentAt s ⟨scope, ws.agentId, normalizePath path⟩) content) := by
  simp only [appendToLayer, h, create_content]

theorem layer_error (layerName path content : String) (force : Bool) (s : State)
    (e : WorkspaceError) (h : ws.resolveLayerTarget layerName content force = .error e) :
    (ws.writeToLayer layerName path content force s).2 = s ∧
      (ws.appendToLayer layerName path content force s).2 = s := by
  simp only [writeToLayer, appendToLayer, h, and_self]

def delete (path : String) (s : State) : Except WorkspaceError Unit × State :=
  match ws.read s path with
  | .error e => (.error e, s)
  | .ok _ => (.ok (), s.set (ws.key (normalizePath path)) none)

def readOrCreate (path : String) (s : State) : Document × State :=
  getOrCreateDocumentByPath s (ws.key path)

def memory (s : State) : Document × State := ws.readOrCreate Paths.memory s

def appendMemory (entry : String) (s : State) : Except WorkspaceError Unit × State :=
  let (doc, created) := ws.memory s
  (.ok (), storeContent created (ws.key Paths.memory) (joined "\n\n" doc.content entry))

theorem appendMemory_eq (entry : String) (s : State) :
    (ws.appendMemory entry s).2 =
      storeContent (getOrCreateDocumentByPath s (ws.key Paths.memory)).2 (ws.key Paths.memory)
        (joined "\n\n" (contentAt s (ws.key Paths.memory)) entry) := by
  rw [← create_content]
  rfl

def dailyPath (date : ℤ) : String := "daily/" ++ given.formatDate date ++ ".md"

def dailyLog (date : ℤ) (s : State) : Document × State :=
  ws.readOrCreate (dailyPath given date) s

def appendDailyLog (date : ℤ) (timestamp entry : String) (s : State) :
    Except WorkspaceError String × State :=
  match ws.append given (dailyPath given date) ("[" ++ timestamp ++ "] " ++ entry) s with
  | (.error e, s') => (.error e, s')
  | (.ok _, s') => (.ok (dailyPath given date), s')

theorem appendDailyLog_eq (date : ℤ) (timestamp entry : String) (s : State) :
    (ws.appendDailyLog given date timestamp entry s).2 =
      (ws.append given (dailyPath given date) ("[" ++ timestamp ++ "] " ++ entry) s).2 := by
  unfold appendDailyLog
  rcases ws.append given (dailyPath given date) ("[" ++ timestamp ++ "] " ++ entry) s with ⟨r, s'⟩
  cases r <;> rfl

/-! ## Profile documents -/

def profileSectionBegin : List Char := "<!-- BEGIN:profile-sync -->".toList

def profileSectionEnd : List Char := "<!-- END:profile-sync -->".toList

def wrapProfileSection (content : List Char) : List Char :=
  profileSectionBegin++['\n']++content++['\n']++profileSectionEnd

def isSeedTemplate (content : List Char) : Bool :=
  let trimmed := trimChars content
  "# User Context".toList.isPrefixOf trimmed && decide ("- **Name:**".toList <:+: trimmed)

def appendProfileSection (existing delimited : List Char) : List Char :=
  if "<!-- Auto-generated from context/profile.json".toList.isPrefixOf existing then delimited
  else if isSeedTemplate existing then delimited
  else
    let trimmed := existing.rdropWhile isWhitespace
    if trimmed.isEmpty then delimited else trimmed++['\n', '\n']++delimited

def mergeProfileSection (existing newContent : List Char) : List Char :=
  let delimited := wrapProfileSection newContent
  match splitFirst profileSectionBegin existing with
  | none => appendProfileSection existing delimited
  | some (before, after) =>
    match splitFirst profileSectionEnd (profileSectionBegin++after) with
    | none => appendProfileSection existing delimited
    | some (_, rest) => before++delimited++rest

def mergedUser (s : State) (profile : PsychographicProfile) : String :=
  match ws.read s Paths.user with
  | .ok doc => String.ofList (mergeProfileSection doc.content.toList profile.toUserMd.toList)
  | .error _ => String.ofList (wrapProfileSection profile.toUserMd.toList)

def populated (content : String) : Option PsychographicProfile :=
  if content = "" then none
  else (given.parseProfile content).filter (·.isPopulated)

def syncHeartbeat (profile : PsychographicProfile) (s : State) :
    Except WorkspaceError Bool × State :=
  match ws.read s Paths.heartbeat with
  | .ok _ => (.ok true, s)
  | .error _ =>
    match ws.write given Paths.heartbeat profile.toHeartbeatMd s with
    | (.error e, s') => (.error e, s')
    | (.ok _, s') => (.ok true, s')

def syncProfile (profile : PsychographicProfile) (s : State) :
    Except WorkspaceError Bool × State :=
  match ws.write given Paths.user (ws.mergedUser s profile) s with
  | (.error e, s₁) => (.error e, s₁)
  | (.ok _, s₁) =>
    match ws.write given Paths.assistantDirectives profile.toAssistantDirectives s₁ with
    | (.error e, s₂) => (.error e, s₂)
    | (.ok _, s₂) => ws.syncHeartbeat given profile s₂

def syncProfileDocuments (s : State) : Except WorkspaceError Bool × State :=
  match ws.read s Paths.profile with
  | .error _ => (.ok false, s)
  | .ok doc =>
    match populated given doc.content with
    | none => (.ok false, s)
    | some profile => ws.syncProfile given profile s

def Prompting (files : List (String × String)) : Prop := ∀ f ∈ files, f.1 ∈ systemPromptFiles

theorem prompting_nil : Prompting [] := fun _ hf => absurd hf List.not_mem_nil

theorem prompting_cons (files : List (String × String)) (hpath : path ∈ systemPromptFiles)
    (h : Prompting files) : Prompting ((path, content)::files) :=
  List.forall_mem_cons.mpr ⟨hpath, h⟩

theorem syncHeartbeat_writes (profile : PsychographicProfile) (s : State) :
    ∃ files, Prompting files ∧ (ws.syncHeartbeat given profile s).2 = ws.writes given files s := by
  unfold syncHeartbeat
  cases ws.read s Paths.heartbeat with
  | ok doc => exact ⟨[], prompting_nil, rfl⟩
  | error e =>
    refine ⟨[(Paths.heartbeat, profile.toHeartbeatMd)],
      prompting_cons _ _ _ (by decide) prompting_nil, ?_⟩
    rw [writes_cons, writes_nil]
    rcases ws.write given Paths.heartbeat profile.toHeartbeatMd s with ⟨r, s'⟩
    cases r <;> rfl

theorem syncProfile_writes (profile : PsychographicProfile) (s : State) :
    ∃ files, Prompting files ∧ (ws.syncProfile given profile s).2 = ws.writes given files s := by
  unfold syncProfile
  cases huser : ws.write given Paths.user (ws.mergedUser s profile) s with
  | mk r s₁ =>
    have hs₁ : s₁ = (ws.write given Paths.user (ws.mergedUser s profile) s).2 := by rw [huser]
    cases r with
    | error e =>
      exact ⟨[(Paths.user, ws.mergedUser s profile)],
        prompting_cons _ _ _ (by decide) prompting_nil, hs₁⟩
    | ok d =>
      dsimp only
      cases hdir : ws.write given Paths.assistantDirectives profile.toAssistantDirectives s₁ with
      | mk r₂ s₂ =>
        have hs₂ : s₂ =
            (ws.write given Paths.assistantDirectives profile.toAssistantDirectives s₁).2 := by
          rw [hdir]
        cases r₂ with
        | error e =>
          refine ⟨[(Paths.user, ws.mergedUser s profile),
            (Paths.assistantDirectives, profile.toAssistantDirectives)],
            prompting_cons _ _ _ (by decide) (prompting_cons _ _ _ (by decide) prompting_nil), ?_⟩
          rw [writes_cons, writes_cons, writes_nil, ← hs₁, ← hs₂]
        | ok d₂ =>
          obtain ⟨files, hprompting, hfiles⟩ := ws.syncHeartbeat_writes given profile s₂
          refine ⟨(Paths.user, ws.mergedUser s profile)::
            (Paths.assistantDirectives, profile.toAssistantDirectives)::files,
            prompting_cons _ _ _ (by decide) (prompting_cons _ _ _ (by decide) hprompting), ?_⟩
          rw [writes_cons, writes_cons, ← hs₁, ← hs₂]
          exact hfiles

theorem sync_writes :
    ∃ files, Prompting files ∧ (ws.syncProfileDocuments given s).2 = ws.writes given files s := by
  unfold syncProfileDocuments
  split
  · exact ⟨[], prompting_nil, rfl⟩
  · split
    · exact ⟨[], prompting_nil, rfl⟩
    · exact ws.syncProfile_writes given _ s

/-! ## Seeding and import -/

def writeIfAbsent (path content : String) (s : State) : Bool × State :=
  match ws.read s path with
  | .ok _ => (false, s)
  | .error _ =>
    match ws.write given path content s with
    | (.error _, s') => (false, s')
    | (.ok _, s') => (true, s')

theorem writeIfAbsent_eq :
    (ws.writeIfAbsent given path content s).2 = s ∨
      (ws.writeIfAbsent given path content s).2 = (ws.write given path content s).2 := by
  unfold writeIfAbsent
  rcases ws.write given path content s with ⟨r, s'⟩
  cases ws.read s path with
  | ok doc => exact Or.inl rfl
  | error e => cases r <;> exact Or.inr rfl

def writeAll : List (String × String) → State → ℕ × State
  | [], s => (0, s)
  | (path, content)::files, s =>
    let (written, s') := ws.writeIfAbsent given path content s
    let (count, s'') := writeAll files s'
    (count+written.toNat, s'')

theorem writeAll_writes (files : List (String × String)) (s : State) :
    ∃ files', files' ⊆ files ∧ (ws.writeAll given files s).2 = ws.writes given files' s := by
  induction files generalizing s with
  | nil => exact ⟨[], List.Subset.refl _, rfl⟩
  | cons file files ih =>
    obtain ⟨files', hsub, hfiles⟩ := ih (ws.writeIfAbsent given file.1 file.2 s).2
    have hall : (ws.writeAll given (file::files) s).2 =
        (ws.writeAll given files (ws.writeIfAbsent given file.1 file.2 s).2).2 := rfl
    rw [hall, hfiles]
    obtain h | h := ws.writeIfAbsent_eq given file.1 file.2 s
    · exact ⟨files', List.subset_cons_of_subset file hsub, by rw [h]⟩
    · exact ⟨file::files', List.cons_subset_cons file hsub, by rw [h, writes_cons]⟩

def seedPaths : List String :=
  [Paths.readme, Paths.memory, Paths.identity, Paths.soul, Paths.agents, Paths.user,
   Paths.heartbeat, Paths.tools]

def missing (s : State) (path : String) : Bool := (ws.read s path).toOption.isNone

def isFreshWorkspace (s : State) : Bool :=
  ws.missing s Paths.bootstrap && ws.missing s Paths.agents && ws.missing s Paths.soul &&
    ws.missing s Paths.user

def hasProfile (s : State) : Bool :=
  match ws.read s Paths.profile with
  | .ok doc => !(trimChars doc.content.toList).isEmpty && (given.parseProfile doc.content).isSome
  | .error _ => false

def seedIfEmpty (s : State) : ℕ × State :=
  let fresh := ws.isFreshWorkspace s
  let (count, seeded) := ws.writeAll given (seedPaths.map (fun p => (p, given.seeds p))) s
  if fresh && !ws.hasProfile given seeded then
    match ws.write given Paths.bootstrap (given.seeds Paths.bootstrap) seeded with
    | (.error _, s') => (count, s')
    | (.ok _, s') => (count+1, { s' with bootstrapPending := true })
  else (count, seeded)

/-- Seeding writes, and may note that the first-run ritual is due. -/
theorem seed_writes :
    ∃ files, (∀ f ∈ files, f.1 ∈ Paths.bootstrap::seedPaths) ∧
      (ws.seedIfEmpty given s).2.docs = (ws.writes given files s).docs := by
  obtain ⟨files, hsub, hfiles⟩ :=
    ws.writeAll_writes given (seedPaths.map (fun p => (p, given.seeds p))) s
  have hseeds : ∀ f ∈ files, f.1 ∈ Paths.bootstrap::seedPaths := by
    intro f hf
    obtain ⟨p, hp, rfl⟩ := List.mem_map.mp (hsub hf)
    exact List.mem_cons_of_mem _ hp
  unfold seedIfEmpty
  dsimp only
  split
  · refine ⟨files++[(Paths.bootstrap, given.seeds Paths.bootstrap)], ?_, ?_⟩
    · exact List.forall_mem_append.mpr
        ⟨hseeds, List.forall_mem_singleton.mpr List.mem_cons_self⟩
    have hboth : ws.writes given (files++[(Paths.bootstrap, given.seeds Paths.bootstrap)]) s =
        (ws.write given Paths.bootstrap (given.seeds Paths.bootstrap)
          (ws.writes given files s)).2 := by
      simp only [writes, List.foldl_append, List.foldl_cons, List.foldl_nil]
    rw [hboth, ← hfiles]
    cases ws.write given Paths.bootstrap (given.seeds Paths.bootstrap)
      (ws.writeAll given (seedPaths.map (fun p => (p, given.seeds p))) s).2 with
    | mk r s' => cases r <;> rfl
  · exact ⟨files, hseeds, by rw [hfiles]⟩

def isMarkdown (fileName : String) : Bool :=
  endsWith fileName ".md" && decide (".md".length < fileName.length)

def importFromDirectory (entries : List (String × Option String)) (s : State) : ℕ × State :=
  ws.writeAll given (entries.filterMap (fun (fileName, content) =>
    if !isMarkdown fileName then none
    else content.bind (fun text =>
      if (trimChars text.toList).isEmpty then none else some (fileName, text)))) s

/-! ## The system prompt -/

def part (s : State) (path header : String) : List String :=
  match ws.read s path with
  | .ok doc => lineIf (doc.content ≠ "") (header ++ "\n\n" ++ doc.content)
  | .error _ => []

def bootstrapPart (s : State) : List String :=
  if s.bootstrapCompleted then [] else ws.part s Paths.bootstrap "## First-Run Bootstrap"

def identityFiles : List (String × String) :=
  [(Paths.agents, "## Agent Instructions"), (Paths.soul, "## Core Values"),
   (Paths.user, "## User Context"), (Paths.identity, "## Identity")]

def identityParts (s : State) : List String :=
  identityFiles.flatMap (fun file => ws.part s file.1 file.2)++
    ws.part s Paths.tools "## Tool Notes"

def dailyPart (today date : ℤ) (s : State) : List String × State :=
  let (doc, s') := ws.dailyLog given date s
  let header := if date = today then "## Today's Notes" else "## Yesterday's Notes"
  (lineIf (doc.content ≠ "") (header ++ "\n\n" ++ doc.content), s')

/-- `is_profile_recent` for the last seven days; times are in nanoseconds. -/
def isProfileRecent (updatedAt : String) (now : ℤ) : Bool :=
  match given.parseRfc3339 updatedAt with
  | none => false
  | some time =>
    0 ≤ (now-time).tdiv 1000000000 && (now-time).tdiv (86400*1000000000) ≤ 7

def readProfile (s : State) : Option PsychographicProfile :=
  match ws.read s Paths.profile with
  | .ok doc => if doc.content = "" then none else given.parseProfile doc.content
  | .error _ => none

def profileParts (now : ℤ) (profile : PsychographicProfile) : List String :=
  if profile.isPopulated then
    profile.summary::
      lineIf (PsychographicProfile.sureEnough < profile.confidence &&
        isProfileRecent given profile.updatedAt now) profile.personalization
  else []

def frameworkPart : String :=
  "PROFILE ANALYSIS FRAMEWORK:\n" ++ given.analysisFramework ++
    "\n\nPROFILE JSON SCHEMA:\nWrite to \x60context/profile.json\x60 using " ++
    "\x60memory_write\x60 with this exact structure:\n" ++ given.profileJsonSchema ++
    "\n\nIf the conversation doesn't reveal enough about a dimension, use defaults/unknown.\n" ++
    "For personality trait scores: 40-60 is average range. Default to 50 if unclear.\n" ++
    "Only score above 70 or below 30 with strong evidence."

def directivesPart (s : State) : List String :=
  match ws.read s Paths.assistantDirectives with
  | .ok doc => lineIf (doc.content ≠ "") doc.content
  | .error _ => []

def personalParts (now : ℤ) (bootstrapInjected : Bool) (s : State) : List String :=
  (match ws.readProfile given s with
    | some profile => profileParts given now profile
    | none => lineIf bootstrapInjected (frameworkPart given))++
  ws.directivesPart s

def systemPromptForContext (isGroupChat : Bool) (today now : ℤ) (s : State) : String × State :=
  let bootstrap := ws.bootstrapPart s
  let memoryPart := if isGroupChat then [] else ws.part s Paths.memory "## Long-Term Memory"
  let (todays, s₁) := ws.dailyPart given today today s
  let (yesterdays, s₂) := ws.dailyPart given today (today-1) s₁
  let personal :=
    if isGroupChat then [] else ws.personalParts given now (!bootstrap.isEmpty) s₂
  (join "\n\n---\n\n"
    (bootstrap++ws.identityParts s++memoryPart++todays++yesterdays++personal), s₂)

/-! ## Sequences of operations -/

inductive Op where
  | write (path content : String)
  | append (path content : String)
  | appendMemory (entry : String)
  | writeToLayer (layerName path content : String) (force : Bool)
  | appendToLayer (layerName path content : String) (force : Bool)
  | appendDailyLog (date : ℤ) (timestamp entry : String)
  | delete (path : String)
  | memory
  | dailyLog (date : ℤ)
  | seed
  | importFrom (entries : List (String × Option String))
  | sync
  | prompt (isGroupChat : Bool) (today now : ℤ)
  | markBootstrapCompleted

def perform : Op → State → State
  | .write path content, s => (ws.write given path content s).2
  | .append path content, s => (ws.append given path content s).2
  | .appendMemory entry, s => (ws.appendMemory entry s).2
  | .writeToLayer layer path content force, s => (ws.writeToLayer layer path content force s).2
  | .appendToLayer layer path content force, s => (ws.appendToLayer layer path content force s).2
  | .appendDailyLog date timestamp entry, s => (ws.appendDailyLog given date timestamp entry s).2
  | .delete path, s => (ws.delete path s).2
  | .memory, s => (ws.memory s).2
  | .dailyLog date, s => (ws.dailyLog given date s).2
  | .seed, s => (ws.seedIfEmpty given s).2
  | .importFrom entries, s => (ws.importFromDirectory given entries s).2
  | .sync, s => (ws.syncProfileDocuments given s).2
  | .prompt isGroupChat today now, s => (ws.systemPromptForContext given isGroupChat today now s).2
  | .markBootstrapCompleted, s => { s with bootstrapCompleted := true }

def noState : State := ⟨fun _ => none, false, false⟩

end Workspace

end IronClaw.Workspace
