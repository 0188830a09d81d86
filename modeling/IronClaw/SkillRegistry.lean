import IronClaw.ChatLoop

/-!
# The skill registry

`skills/registry.rs` keeps skills in three directories and derives the trust of
a skill from the directory in which a reload finds it. An install writes the
file first and makes most of its checks on the file that it reads back. The
skill tools write into the directory for installed skills; `install_skill`
writes into the directory of the user, whose skills are trusted. The YAML reader
and the lookups that a skill may require of its surroundings are given. A file
remembers whether its text came from an install. Discovery passes over links; an
install writes through them, and what that leaves is given.
-/

set_option autoImplicit false

namespace IronClaw.SkillRegistry
open IronClaw.ChatLoop (SkillTrust)
open Lib.Runs Lib.Text Lib.Search

structure ActivationCriteria where
  keywords : List String
  excludeKeywords : List String
  patterns : List String
  tags : List String
  maxContextTokens : ℕ
  deriving DecidableEq

structure GatingRequirements where
  bins : List String
  env : List String
  config : List String
  deriving DecidableEq

/-- `requires` is what `metadata.openclaw` holds, if it is there. -/
structure SkillManifest where
  name : String
  version : String
  description : String
  activation : ActivationCriteria
  requires : Option GatingRequirements
  deriving DecidableEq

def longEnough (text : String) : Bool := 3 ≤ byteLen text.toList

def ActivationCriteria.enforceLimits (a : ActivationCriteria) : ActivationCriteria :=
  { a with
    keywords := (a.keywords.filter longEnough).take 20
    excludeKeywords := (a.excludeKeywords.filter longEnough).take 20
    patterns := a.patterns.take 5
    tags := (a.tags.filter longEnough).take 10 }

inductive SkillParseError where
  | missingFrontmatter
  | invalidYaml (reason : String)
  | emptyPrompt
  | invalidName (name : String)
  deriving DecidableEq

def SkillParseError.display : SkillParseError → String
  | .missingFrontmatter =>
    "Missing YAML frontmatter delimiters (expected \x60---\x60 at start of file)"
  | .invalidYaml reason => "Invalid YAML frontmatter: " ++ reason
  | .emptyPrompt => "Prompt body is empty (no content after frontmatter)"
  | .invalidName name =>
    "Invalid skill name '" ++ name ++ "': must match [a-zA-Z0-9][a-zA-Z0-9._-]\x7b0,63\x7d"

structure ParsedSkill where
  manifest : SkillManifest
  promptContent : String
  deriving DecidableEq

def nameChar (c : Char) : Bool := c.isAlphanum || c = '.' || c = '_' || c = '-'

def validateSkillName (name : String) : Bool :=
  match name.toList with
  | [] => false
  | c::cs => c.isAlphanum && cs.all nameChar && cs.length ≤ 63

def normalizeLineEndings (content : String) : String :=
  String.ofList (replace ['\r'] ['\n'] (replace ['\r', '\n'] ['\n'] content.toList))

def afterLine (cs : List Char) : Option (List Char) :=
  match cs.dropWhile (fun c => c ≠ '\n') with
  | [] => none
  | _::rest => some rest

def splitDelimiter : List Char → List Char → List Char → Option (List Char × List Char)
  | before, line, [] =>
    if trimChars line.reverse = ['-', '-', '-'] then some (before.reverse, line.reverse) else none
  | before, line, c::cs =>
    if c = '\n' then
      if trimChars line.reverse = ['-', '-', '-'] then
        some (before.reverse, line.reverse++ '\n'::cs)
      else splitDelimiter ('\n'::(line++before)) [] cs
    else splitDelimiter before (c::line) cs

/-- `parse_skill_md`, on a text without carriage returns. -/
def parseSkillMd (fromYaml : String → Except String SkillManifest) (content : String) :
    Except SkillParseError ParsedSkill :=
  let cs := content.toList
  let cs := if cs.head? = some '\ufeff' then cs.tail else cs
  let trimmed := cs.dropWhile (fun c => c = '\n' || c = '\r')
  if (['-', '-', '-'] : List Char).isPrefixOf trimmed = false then .error .missingFrontmatter
  else match afterLine (trimmed.drop 3) with
  | none => .error .missingFrontmatter
  | some afterFirstLine =>
    match splitDelimiter [] [] afterFirstLine with
    | none => .error .missingFrontmatter
    | some (yaml, afterYaml) =>
      match fromYaml (String.ofList yaml) with
      | .error reason => .error (.invalidYaml reason)
      | .ok manifest =>
        if !validateSkillName manifest.name then .error (.invalidName manifest.name)
        else
          let manifest := { manifest with activation := manifest.activation.enforceLimits }
          let prompt := ((afterLine afterYaml).getD []).dropWhile (fun c => c = '\n')
          if trimChars prompt = [] then .error .emptyPrompt
          else .ok ⟨manifest, String.ofList prompt⟩

inductive Root where
  | workspace
  | user
  | installed
  deriving DecidableEq

structure SkillPath where
  root : Root
  entry : Option String
  deriving DecidableEq

inductive SkillSource where
  | workspace (path : SkillPath)
  | user (path : SkillPath)
  | bundled (path : SkillPath)
  deriving DecidableEq

structure LoadedSkill where
  manifest : SkillManifest
  promptContent : String
  trust : SkillTrust
  source : SkillSource
  installed : Bool
  deriving DecidableEq

inductive Bytes where
  | text (content : String)
  | binary (size : ℕ) (reason : String)
  deriving DecidableEq

def Bytes.size : Bytes → ℕ
  | .text content => byteLen content.toList
  | .binary size _ => size

structure File where
  bytes : Bytes
  installed : Bool
  deriving DecidableEq

inductive Target where
  | nothing
  | file
  | dir
  deriving DecidableEq

inductive Leaf where
  | file (f : File)
  | link (target : Target)
  | dir
  deriving DecidableEq

inductive Node where
  | file (f : File)
  | dir (skillMd : Option Leaf) (others : Bool)
  | link (target : Target)
  deriving DecidableEq

def Disk := Root → List (String × Node)

inductive SkillRegistryError where
  | notFound (name : String)
  | readError (path reason : String)
  | parseError (name reason : String)
  | fileTooLarge (name : String) (size max : ℕ)
  | symlinkDetected (path : String)
  | gatingFailed (name reason : String)
  | tokenBudgetExceeded (name : String) (approxTokens declared : ℕ)
  | alreadyExists (name : String)
  | cannotRemove (name reason : String)
  | writeError (path reason : String)
  deriving DecidableEq

def SkillRegistryError.display : SkillRegistryError → String
  | .notFound name => "Skill not found: " ++ name
  | .readError path reason => "Failed to read skill file " ++ path ++ ": " ++ reason
  | .parseError name reason => "Failed to parse SKILL.md for '" ++ name ++ "': " ++ reason
  | .fileTooLarge name size max =>
    "Skill file too large for '" ++ name ++ "': " ++ toString size ++ " bytes (max " ++
      toString max ++ " bytes)"
  | .symlinkDetected path => "Symlink detected in skills directory: " ++ path
  | .gatingFailed name reason => "Skill '" ++ name ++ "' failed gating: " ++ reason
  | .tokenBudgetExceeded name approxTokens declared =>
    "Skill '" ++ name ++ "' prompt exceeds token budget: ~" ++ toString approxTokens ++
      " tokens but declares max_context_tokens=" ++ toString declared
  | .alreadyExists name => "Skill '" ++ name ++ "' already exists"
  | .cannotRemove name reason => "Cannot remove skill '" ++ name ++ "': " ++ reason
  | .writeError path reason => "Failed to write skill file " ++ path ++ ": " ++ reason

structure Config where
  userDir : String
  installedDir : String
  workspaceDir : Option String
  fromYaml : String → Except String SkillManifest

structure Surroundings where
  binaryExists : String → Bool
  envSet : String → Bool
  configExists : String → Bool
  readable : Root → Bool
  hidden : Root → String → Bool
  rank : Root → String → ℕ
  statError : SkillPath → Option String
  readError : SkillPath → Option String
  through : Root → String → Bytes → Disk → Disk × Leaf

structure GatingResult where
  passed : Bool
  failures : List String
  deriving DecidableEq

def checkRequirements (around : Surroundings) (r : GatingRequirements) : GatingResult :=
  let failures :=
    (r.bins.filter (fun b => !around.binaryExists b)).map ("required binary not found: " ++ ·)++
      (r.env.filter (fun v => !around.envSet v)).map ("required env var not set: " ++ ·)++
      (r.config.filter (fun p => !around.configExists p)).map ("required config not found: " ++ ·)
  ⟨failures.isEmpty, failures⟩

def maxPromptFileSize : ℕ := 64*1024

def maxDiscoveredSkills : ℕ := 100

section

variable (cfg : Config)

def joinPath (dir name : String) : String :=
  if endsWith dir "/" || dir = "" then dir ++ name else dir ++ "/" ++ name

def rootDir : Root → String
  | .workspace => cfg.workspaceDir.getD ""
  | .user => cfg.userDir
  | .installed => cfg.installedDir

def display (path : SkillPath) : String :=
  match path.entry with
  | none => rootDir cfg path.root
  | some name => joinPath (rootDir cfg path.root) name

def skillMdPath (path : SkillPath) : String := joinPath (display cfg path) "SKILL.md"

def errorName (place : String) : SkillParseError → String
  | .invalidName name => name
  | _ => place

def approxTokens (promptContent : String) : ℕ := byteLen promptContent.toList/4

def overBudget (skill : ParsedSkill) : Bool :=
  0 < skill.manifest.activation.maxContextTokens &&
    skill.manifest.activation.maxContextTokens*2%2^64 < approxTokens skill.promptContent

def gating (around : Surroundings) (skill : ParsedSkill) : GatingResult :=
  match skill.manifest.requires with
  | none => ⟨true, []⟩
  | some requirements => checkRequirements around requirements

def validateSkill (around : Surroundings) (path : SkillPath) (file : File)
    (trust : SkillTrust) (source : SkillSource) : Except SkillRegistryError LoadedSkill :=
  if maxPromptFileSize < file.bytes.size then
    .error (.fileTooLarge (skillMdPath cfg path) file.bytes.size maxPromptFileSize)
  else match file.bytes with
  | .binary _ reason => .error (.readError (skillMdPath cfg path) ("Invalid UTF-8: " ++ reason))
  | .text content =>
    match parseSkillMd cfg.fromYaml (normalizeLineEndings content) with
    | .error e => .error (.parseError (errorName (skillMdPath cfg path) e) e.display)
    | .ok skill =>
      if !(gating around skill).passed then
        .error (.gatingFailed skill.manifest.name ("; ".intercalate (gating around skill).failures))
      else if overBudget skill then
        .error (.tokenBudgetExceeded skill.manifest.name (approxTokens skill.promptContent)
          skill.manifest.activation.maxContextTokens)
      else .ok ⟨skill.manifest, skill.promptContent, trust, source, file.installed⟩

def loadAndValidateSkill (around : Surroundings) (path : SkillPath) (leaf : Leaf)
    (trust : SkillTrust) (source : SkillSource) : Except SkillRegistryError LoadedSkill :=
  match around.statError path with
  | some reason => .error (.readError (skillMdPath cfg path) reason)
  | none =>
    match leaf with
    | .link _ => .error (.symlinkDetected (skillMdPath cfg path))
    | .dir => .error (.readError (skillMdPath cfg path) "Is a directory (os error 21)")
    | .file file =>
      match around.readError path with
      | some reason => .error (.readError (skillMdPath cfg path) reason)
      | none => validateSkill cfg around path file trust source

/-- `try_exists` follows a link, and one that leads nowhere is not there. -/
def Leaf.exists : Leaf → Bool
  | .link target => target ≠ .nothing
  | _ => true

def skillFile (around : Surroundings) (root : Root) : String × Node → Option (SkillPath × Leaf)
  | (name, .dir (some leaf) _) =>
    if !around.hidden root name && leaf.exists then some (⟨root, some name⟩, leaf) else none
  | (_, .dir none _) => none
  | (name, .file f) =>
    if !around.hidden root name && name = "SKILL.md" then some (⟨root, none⟩, .file f) else none
  | (_, .link _) => none

def listed (around : Surroundings) (root : Root) (entries : List (String × Node)) :
    List (String × Node) :=
  entries.insertionSort (fun a b => around.rank root a.1 ≤ around.rank root b.1)

def trustOf : Root → SkillTrust
  | .installed => .installed
  | _ => .trusted

def makeSource (path : SkillPath) : SkillSource :=
  match path.root with
  | .workspace => .workspace path
  | _ => .user path

def loadSkillMd (around : Surroundings) (root : Root) (found : SkillPath × Leaf) :
    Option LoadedSkill :=
  (loadAndValidateSkill cfg around found.1 found.2 (trustOf root) (makeSource found.1)).toOption

def discoverFromDir (around : Surroundings) (disk : Disk) (root : Root) : List LoadedSkill :=
  if around.readable root then
    (((listed around root (disk root)).filterMap (skillFile around root)).take
      maxDiscoveredSkills).filterMap (loadSkillMd cfg around root)
  else []

def addNew (skills found : List LoadedSkill) : List LoadedSkill :=
  found.foldl (fun acc skill =>
    if acc.any (fun s => s.manifest.name = skill.manifest.name) then acc else acc++[skill]) skills

def discoverAll (around : Surroundings) (disk : Disk) : List LoadedSkill :=
  let skills := if cfg.workspaceDir.isSome then
    addNew [] (discoverFromDir cfg around disk .workspace) else []
  let skills := addNew skills (discoverFromDir cfg around disk .user)
  addNew skills (discoverFromDir cfg around disk .installed)

inductive Io where
  | done
  | createFails (reason : String)
  | writeFails (reason : String) (left : Option Bytes)
  deriving DecidableEq

def Io.untouched : Io → Bool
  | .done => false
  | .createFails _ => true
  | .writeFails _ left => left.isNone

def entry (disk : Disk) (root : Root) (name : String) : Option Node := (disk root).lookup name

def setEntries (disk : Disk) (root : Root) (entries : List (String × Node)) : Disk :=
  fun r => if r = root then entries else disk r

def without (name : String) (entries : List (String × Node)) : List (String × Node) :=
  entries.filter (fun e => e.1 ≠ name)

def createDir (disk : Disk) (root : Root) (name : String) : Disk :=
  match entry disk root name with
  | none => setEntries disk root ((name, .dir none false)::disk root)
  | some _ => disk

def writeSkill (disk : Disk) (root : Root) (name : String) (bytes : Bytes) : Disk :=
  let others := match entry disk root name with
    | some (.dir _ others) => others
    | _ => false
  setEntries disk root
    ((name, .dir (some (.file ⟨bytes, true⟩)) others)::without name (disk root))

def blocked (disk : Disk) (root : Root) (name : String) : Bool :=
  match entry disk root name with
  | some (.file _) => true
  | some (.link target) => target ≠ .dir
  | _ => false

def occupied (disk : Disk) (root : Root) (name : String) : Bool :=
  match entry disk root name with
  | some (.dir (some .dir) _) => true
  | _ => false

def linked (disk : Disk) (root : Root) (name : String) : Bool :=
  match entry disk root name with
  | some (.link _) => true
  | some (.dir (some (.link _)) _) => true
  | _ => false

def putSkill (around : Surroundings) (disk : Disk) (root : Root) (name : String) (bytes : Bytes) :
    Disk × Leaf :=
  match entry disk root name with
  | some (.link _) => around.through root name bytes disk
  | some (.dir (some (.link _)) _) => ((around.through root name bytes disk).1, .link .file)
  | _ => (writeSkill disk root name bytes, .file ⟨bytes, true⟩)

/-- `prepare_install_to_disk`, which reads back what it has written. -/
def prepareInstallToDisk (around : Surroundings) (io : Io) (root : Root) (name content : String)
    (disk : Disk) : Disk × Except SkillRegistryError LoadedSkill :=
  let path : SkillPath := ⟨root, some name⟩
  match io with
  | .createFails reason => (disk, .error (.writeError (display cfg path) reason))
  | .writeFails reason left =>
    if blocked disk root name then
      (disk, .error (.writeError (display cfg path) "File exists (os error 17)"))
    else if occupied disk root name then
      (disk, .error (.writeError (skillMdPath cfg path) "Is a directory (os error 21)"))
    else match left with
    | none =>
      (createDir disk root name, .error (.writeError (skillMdPath cfg path) reason))
    | some bytes =>
      ((putSkill around disk root name bytes).1,
        .error (.writeError (skillMdPath cfg path) reason))
  | .done =>
    if blocked disk root name then
      (disk, .error (.writeError (display cfg path) "File exists (os error 17)"))
    else if occupied disk root name then
      (disk, .error (.writeError (skillMdPath cfg path) "Is a directory (os error 21)"))
    else
      let put := putSkill around disk root name (.text content)
      (put.1, loadAndValidateSkill cfg around path put.2 .installed (.user path))

structure State where
  disk : Disk
  skills : List LoadedSkill

def State.has (s : State) (name : String) : Bool :=
  s.skills.any (fun skill => skill.manifest.name = name)

def commitInstall (name : String) (skill : LoadedSkill) (s : State) :
    State × Except SkillRegistryError Unit :=
  if s.has name then (s, .error (.alreadyExists name))
  else ({ s with skills := s.skills++[skill] }, .ok ())

def prepareAndCommit (around : Surroundings) (io : Io) (root : Root) (name content : String)
    (s : State) : State × Except SkillRegistryError String :=
  match prepareInstallToDisk cfg around io root name content s.disk with
  | (disk, .error e) => ({ s with disk := disk }, .error e)
  | (disk, .ok skill) =>
    match commitInstall skill.manifest.name skill { s with disk := disk } with
    | (s, .error e) => (s, .error e)
    | (s, .ok _) => (s, .ok skill.manifest.name)

/-- `install_skill` installs into the directory of the user. -/
def installSkill (around : Surroundings) (io : Io) (content : String) (s : State) :
    State × Except SkillRegistryError String :=
  match parseSkillMd cfg.fromYaml (normalizeLineEndings content) with
  | .error e => (s, .error (.parseError (errorName "(install)" e) e.display))
  | .ok skill =>
    if s.has skill.manifest.name then (s, .error (.alreadyExists skill.manifest.name))
    else prepareAndCommit cfg around io .user skill.manifest.name (normalizeLineEndings content) s

/-- The install of the skill tool and of the web handler, into
`install_target_dir`; its errors are texts. -/
def skillInstall (around : Surroundings) (io : Io) (content : String) (s : State) :
    State × Except String String :=
  match parseSkillMd cfg.fromYaml (normalizeLineEndings content) with
  | .error e => (s, .error e.display)
  | .ok skill =>
    if s.has skill.manifest.name then
      (s, .error (SkillRegistryError.alreadyExists skill.manifest.name).display)
    else
      let result := prepareAndCommit cfg around io .installed skill.manifest.name
        (normalizeLineEndings content) s
      (result.1, result.2.mapError SkillRegistryError.display)

def validateRemove (name : String) (s : State) : Except SkillRegistryError SkillPath :=
  match s.skills.find? (fun skill => skill.manifest.name = name) with
  | none => .error (.notFound name)
  | some skill =>
    match skill.source with
    | .user path => .ok path
    | .workspace _ =>
      .error (.cannotRemove name "workspace skills cannot be removed via this interface")
    | .bundled _ => .error (.cannotRemove name "bundled skills cannot be removed")

def Node.cleared : Node → Node
  | .dir _ others => .dir none others
  | node => node

def clearBehind (behind : Option SkillPath) (disk : Disk) : Disk :=
  match behind with
  | none => disk
  | some ⟨root, none⟩ => setEntries disk root (without "SKILL.md" (disk root))
  | some ⟨root, some name⟩ => setEntries disk root
      ((disk root).map (fun e => if e.1 = name then (e.1, e.2.cleared) else e))

def removeFile (path : SkillPath) (fails : Option String) (left : Disk) :
    Except SkillRegistryError Disk :=
  match fails with
  | some reason => .error (.writeError (skillMdPath cfg path) reason)
  | none => .ok left

def deleteSkillFiles (path : SkillPath) (fails : Option String) (behind : Option SkillPath)
    (disk : Disk) : Except SkillRegistryError Disk :=
  let name := path.entry.getD "SKILL.md"
  let gone := setEntries disk path.root (without name (disk path.root))
  let isDir := some (fails.getD "Is a directory (os error 21)")
  match path.entry, entry disk path.root name with
  | none, some (.file _) => removeFile cfg path fails gone
  | none, some (.dir _ _) => removeFile cfg path isDir disk
  | none, some (.link .nothing) => .ok disk
  | none, some (.link _) => removeFile cfg path fails gone
  | some _, some (.dir (some (.link .nothing)) _) => .ok disk
  | some _, some (.dir (some .dir) _) => removeFile cfg path isDir disk
  | some _, some (.dir (some _) others) => removeFile cfg path fails (if others then
      setEntries disk path.root ((name, .dir none true)::without name (disk path.root)) else gone)
  | some _, some (.link .dir) => removeFile cfg path fails (clearBehind behind disk)
  | _, _ => .ok disk

def commitRemove (name : String) (s : State) : State × Except SkillRegistryError Unit :=
  if s.has name then
    ({ s with skills := s.skills.eraseP (fun skill => skill.manifest.name = name) }, .ok ())
  else (s, .error (.notFound name))

def removeSkill (name : String) (fails : Option String) (behind : Option SkillPath) (s : State) :
    State × Except SkillRegistryError Unit :=
  match validateRemove name s with
  | .error e => (s, .error e)
  | .ok path =>
    match deleteSkillFiles cfg path fails behind s.disk with
    | .error e => (s, .error e)
    | .ok disk => commitRemove name { s with disk := disk }

def reload (around : Surroundings) (s : State) : State :=
  { s with skills := discoverAll cfg around s.disk }

inductive Op where
  | installSkill (around : Surroundings) (io : Io) (content : String)
  | skillInstall (around : Surroundings) (io : Io) (content : String)
  | removeSkill (name : String) (fails : Option String) (behind : Option SkillPath)
  | reload (around : Surroundings)

def step : Op → State → State
  | .installSkill around io content, s => (installSkill cfg around io content s).1
  | .skillInstall around io content, s => (skillInstall cfg around io content s).1
  | .removeSkill name fails behind, s => (removeSkill cfg name fails behind s).1
  | .reload around, s => reload cfg around s

def installFails : Op → State → Bool
  | .installSkill around io content, s => !(installSkill cfg around io content s).2.isOk
  | .skillInstall around io content, s => !(skillInstall cfg around io content s).2.isOk
  | _, _ => false

def Attenuated (skills : List LoadedSkill) : Prop :=
  ∀ skill ∈ skills, skill.installed = true → skill.trust = .installed

def Untrusted (op : Op) (s : State) : Prop :=
  (∀ around, op = .reload around → Attenuated (step cfg op s).skills) ∧
    (installFails cfg op s = true → ∀ around,
      discoverAll cfg around (step cfg op s).disk = discoverAll cfg around s.disk)

def Unwritten (root : Root) (io : Io) (content : String) (s : State) : Prop :=
  ∀ skill, parseSkillMd cfg.fromYaml (normalizeLineEndings content) = .ok skill →
    s.has skill.manifest.name = true ∨ blocked s.disk root skill.manifest.name = true ∨
      occupied s.disk root skill.manifest.name = true ∨ io.untouched = true

def LeadsOut (around : Surroundings) (root : Root) (content : String) (s : State) : Prop :=
  ∀ skill, parseSkillMd cfg.fromYaml (normalizeLineEndings content) = .ok skill →
    linked s.disk root skill.manifest.name = true ∧
      ∀ bytes, (around.through root skill.manifest.name bytes s.disk).1 = s.disk

structure Accepted (around : Surroundings) (s : State) (skill : ParsedSkill) : Prop where
  unlinked : linked s.disk .installed skill.manifest.name = false
  found : around.statError ⟨.installed, some skill.manifest.name⟩ = none
  read : around.readError ⟨.installed, some skill.manifest.name⟩ = none
  gated : (gating around skill).passed = true
  budgeted : overBudget skill = false

def Acceptable (around : Surroundings) (content : String) (s : State) : Prop :=
  byteLen (normalizeLineEndings content).toList ≤ maxPromptFileSize ∧
    ∀ skill, parseSkillMd cfg.fromYaml (normalizeLineEndings content) = .ok skill →
      Accepted around s skill

/-- `install_skill` writes nothing, and the other install writes nothing that a
later check refuses. -/
def Kept : Op → State → Prop
  | .installSkill around io content, s =>
    Unwritten cfg .user io content s ∨ LeadsOut cfg around .user content s
  | .skillInstall around io content, s =>
    (Unwritten cfg .installed io content s ∨ LeadsOut cfg around .installed content s) ∨
      io = .done ∧ Acceptable cfg around content s
  | _, _ => True

end

theorem normalize_normalize (content : String) :
    normalizeLineEndings (normalizeLineEndings content) = normalizeLineEndings content := by
  have hno : '\r' ∉ (normalizeLineEndings content).toList := by
    unfold normalizeLineEndings
    rw [String.toList_ofList]
    exact replace_gone _ _ _ (by decide)
  have hcrlf := replace_absent '\r' ['\n'] ['\n'] (normalizeLineEndings content).toList hno
  have hcr := replace_absent '\r' [] ['\n'] (normalizeLineEndings content).toList hno
  show String.ofList (replace ['\r'] ['\n'] (replace ['\r', '\n'] ['\n'] _)) = _
  rw [hcrlf, hcr, String.ofList_toList]

def Leaf.installed : Leaf → Bool
  | .file f => f.installed
  | _ => false

def Node.installed : Node → Bool
  | .file f => f.installed
  | .dir (some leaf) _ => leaf.installed
  | _ => false

def Confined (disk : Disk) : Prop :=
  ∀ root, root ≠ .installed → ∀ e ∈ disk root, e.2.installed = false

section

variable (cfg : Config)

variable (around : Surroundings) (disk : Disk) (root : Root) (name : String) (io : Io)
  (content : String)

variable (s : State) (path : SkillPath) (fails : Option String) (behind : Option SkillPath)
  (entries : List (String × Node)) (bytes : Bytes)

theorem validate_fields (file : File) (trust : SkillTrust) (source : SkillSource)
    (skill : LoadedSkill) (h : validateSkill cfg around path file trust source = .ok skill) :
    skill.trust = trust ∧ skill.installed = file.installed := by
  unfold validateSkill at h
  split at h
  · cases h
  · split at h
    · cases h
    · split at h
      · cases h
      · split at h
        · cases h
        · split at h
          · cases h
          · cases h
            exact ⟨rfl, rfl⟩

/-- A skill that loads has the trust it was asked for and the mark of its file. -/
theorem load_fields (leaf : Leaf) (trust : SkillTrust) (source : SkillSource) (skill : LoadedSkill)
    (h : loadAndValidateSkill cfg around path leaf trust source = .ok skill) :
    skill.trust = trust ∧ skill.installed = leaf.installed := by
  unfold loadAndValidateSkill at h
  split at h
  · cases h
  · cases leaf with
    | link target => cases h
    | dir => cases h
    | file file =>
      dsimp only at h
      split at h
      · cases h
      · exact validate_fields cfg around path file trust source skill h

theorem skillFile_mark (e : String × Node) (found : SkillPath × Leaf)
    (h : skillFile around root e = some found) :
    found.2.installed = e.2.installed := by
  match e, h with
  | (_, .dir (some leaf) _), h =>
    simp only [skillFile] at h
    split at h
    · cases h
      rfl
    · cases h
  | (name, .file f), h =>
    simp only [skillFile] at h
    split at h
    · cases h
      rfl
    · cases h

theorem mem_discoverFromDir (skill : LoadedSkill)
    (h : skill ∈ discoverFromDir cfg around disk root) :
    skill.trust = trustOf root ∧ ∃ e ∈ disk root, e.2.installed = skill.installed := by
  unfold discoverFromDir at h
  split at h
  · obtain ⟨found, hfound, hload⟩ := List.mem_filterMap.mp h
    obtain ⟨e, he, hfile⟩ := List.mem_filterMap.mp (List.mem_of_mem_take hfound)
    have hmem : e ∈ disk root := (List.mem_insertionSort _).mp he
    have hok : loadAndValidateSkill cfg around found.1 found.2 (trustOf root)
        (makeSource found.1) = .ok skill := by
      unfold loadSkillMd at hload
      cases hl : loadAndValidateSkill cfg around found.1 found.2 (trustOf root)
          (makeSource found.1) with
      | error e => rw [hl] at hload; cases hload
      | ok s => rw [hl] at hload; cases hload; rfl
    obtain ⟨htrust, hmark⟩ := load_fields cfg _ _ _ _ _ _ hok
    exact ⟨htrust, e, hmem, by rw [hmark, skillFile_mark around root e found hfile]⟩
  · cases h

theorem discoverFromDir_attenuated (h : Confined disk) :
    Attenuated (discoverFromDir cfg around disk root) := by
  intro skill hskill hmark
  obtain ⟨htrust, e, he, hsame⟩ := mem_discoverFromDir cfg around disk root skill hskill
  by_cases hroot : root = .installed
  · rw [htrust, hroot]
    rfl
  · have hclean := h root hroot e he
    rw [hsame, hmark] at hclean
    cases hclean

theorem addNew_attenuated (skills found : List LoadedSkill) (hs : Attenuated skills)
    (hf : Attenuated found) : Attenuated (addNew skills found) := by
  induction found generalizing skills with
  | nil => exact hs
  | cons skill found ih =>
    have hrest : Attenuated found := fun s hmem => hf s (List.mem_cons_of_mem skill hmem)
    show Attenuated (addNew (if _ then _ else _) found)
    split
    · exact ih skills hs hrest
    · apply ih _ _ hrest
      intro s hmem
      rcases List.mem_append.mp hmem with hold | hnew
      · exact hs s hold
      · rw [List.mem_singleton.mp hnew]
        exact hf skill List.mem_cons_self

theorem discoverAll_attenuated (h : Confined disk) :
    Attenuated (discoverAll cfg around disk) := by
  have hnone : Attenuated [] := fun _ hmem => nomatch hmem
  have hdir : ∀ root, Attenuated (discoverFromDir cfg around disk root) :=
    fun root => discoverFromDir_attenuated cfg around disk root h
  apply addNew_attenuated _ _ _ (hdir .installed)
  apply addNew_attenuated _ _ _ (hdir .user)
  show Attenuated (if _ then _ else _)
  split
  · exact addNew_attenuated _ _ hnone (hdir .workspace)
  · exact hnone

theorem confined_setEntries (h : Confined disk)
    (hnew : root ≠ .installed → ∀ e ∈ entries, e.2.installed = false) :
    Confined (setEntries disk root entries) := by
  intro r hr e he
  unfold setEntries at he
  split at he
  · rename_i heq
    exact hnew (heq ▸ hr) e he
  · exact h r hr e he

theorem without_unmarked (h : ∀ e ∈ entries, e.2.installed = false) : ∀ e ∈ without name entries,
      e.2.installed = false := by
  intro e he
  exact h e (List.mem_of_mem_filter he)

theorem createDir_entries (r : Root) :
    createDir disk root name r = disk r ∨
      createDir disk root name r = (name, .dir none false)::disk r := by
  unfold createDir
  cases entry disk root name with
  | some node => exact .inl rfl
  | none =>
    by_cases hr : r = root
    · right
      rw [hr]
      exact if_pos rfl
    · left
      exact if_neg hr

theorem createDir_confined (h : Confined disk) :
    Confined (createDir disk root name) := by
  intro r hr e he
  rcases createDir_entries disk root name r with hsame | hadded
  · exact h r hr e (hsame ▸ he)
  · rcases List.mem_cons.mp (hadded ▸ he) with rfl | hold
    · rfl
    · exact h r hr e hold

theorem writeSkill_confined (h : Confined disk) :
    Confined (writeSkill disk .installed name bytes) := by
  apply confined_setEntries disk .installed _ h
  intro hroot
  exact absurd rfl hroot

theorem clearBehind_confined (disk : Disk) (h : Confined disk) :
    Confined (clearBehind behind disk) := by
  unfold clearBehind
  split
  · exact h
  · next root =>
    exact confined_setEntries disk root _ h (fun hroot => without_unmarked _ _ (h root hroot))
  · next root name =>
    refine confined_setEntries disk root _ h (fun hroot e he => ?_)
    obtain ⟨e', he', rfl⟩ := List.mem_map.mp he
    have hold := h root hroot e' he'
    split
    · cases hnode : e'.2 with
      | file f =>
        rw [hnode] at hold
        exact hold
      | dir leaf others => rfl
      | link target => rfl
    · exact hold

theorem removeFile_confined (left disk' : Disk) (h : Confined left)
    (hdel : removeFile cfg path fails left = .ok disk') : Confined disk' := by
  unfold removeFile at hdel
  split at hdel
  · cases hdel
  · cases hdel
    exact h

theorem deleteSkillFiles_confined (disk disk' : Disk) (h : Confined disk)
    (hdel : deleteSkillFiles cfg path fails behind disk = .ok disk') : Confined disk' := by
  have hgone : ∀ name, Confined (setEntries disk path.root (without name (disk path.root))) :=
    fun name => confined_setEntries disk path.root _ h
      (fun hroot => without_unmarked name _ (h path.root hroot))
  have hemptied : ∀ name, Confined (setEntries disk path.root
      ((name, .dir none true)::without name (disk path.root))) := by
    intro name
    refine confined_setEntries disk path.root _ h (fun hroot e he => ?_)
    rcases List.mem_cons.mp he with rfl | hold
    · rfl
    · exact without_unmarked name _ (h path.root hroot) e hold
  unfold deleteSkillFiles at hdel
  dsimp only at hdel
  split at hdel
  · exact removeFile_confined cfg path fails _ disk' (hgone _) hdel
  · exact removeFile_confined cfg path _ disk disk' h hdel
  · cases hdel
    exact h
  · exact removeFile_confined cfg path fails _ disk' (hgone _) hdel
  · cases hdel
    exact h
  · exact removeFile_confined cfg path _ disk disk' h hdel
  · refine removeFile_confined cfg path fails _ disk' ?_ hdel
    split
    · exact hemptied _
    · exact hgone _
  · exact removeFile_confined cfg path fails _ disk' (clearBehind_confined behind disk h) hdel
  · cases hdel
    exact h

theorem removeSkill_confined (s : State) (h : Confined s.disk) :
    Confined (removeSkill cfg name fails behind s).1.disk := by
  unfold removeSkill
  split
  · exact h
  · split
    · exact h
    · rename_i disk hdel
      have hnew := deleteSkillFiles_confined cfg _ fails behind s.disk disk h hdel
      unfold commitRemove
      split <;> exact hnew

theorem filterMap_orderedInsert {α β : Type*} (r : α → α → Prop) [DecidableRel r] (f : α → Option β)
    (a : α) (as : List α) (h : f a = none) :
    (as.orderedInsert r a).filterMap f = as.filterMap f := by
  induction as with
  | nil => simp [h]
  | cons b as ih =>
    rw [List.orderedInsert_cons]
    split
    · rw [List.filterMap_cons, h]
    · rw [List.filterMap_cons, List.filterMap_cons, ih]

/-- A directory without a skill file changes nothing that is discovered. -/
theorem createDir_discovered :
    discoverAll cfg around (createDir disk root name) = discoverAll cfg around disk := by
  have hdir : ∀ r, discoverFromDir cfg around (createDir disk root name) r =
      discoverFromDir cfg around disk r := by
    intro r
    have hfiles : (listed around r (createDir disk root name r)).filterMap
        (skillFile around r) = (listed around r (disk r)).filterMap (skillFile around r) := by
      rcases createDir_entries disk root name r with hsame | hadded
      · rw [hsame]
      · rw [hadded]
        exact filterMap_orderedInsert _ _ _ _ rfl
    unfold discoverFromDir
    rw [hfiles]
  unfold discoverAll
  rw [hdir, hdir, hdir]

def installInto (around : Surroundings) (io : Io) (root : Root) (content : String) (s : State) :
    State × Bool :=
  match parseSkillMd cfg.fromYaml (normalizeLineEndings content) with
  | .error _ => (s, false)
  | .ok skill =>
    if s.has skill.manifest.name then (s, false)
    else
      let result := prepareAndCommit cfg around io root skill.manifest.name
        (normalizeLineEndings content) s
      (result.1, result.2.isOk)

theorem installSkill_into :
    ((installSkill cfg around io content s).1, (installSkill cfg around io content s).2.isOk) =
      installInto cfg around io .user content s := by
  unfold installSkill installInto
  split
  · rfl
  · split <;> rfl

theorem skillInstall_into :
    ((skillInstall cfg around io content s).1, (skillInstall cfg around io content s).2.isOk) =
      installInto cfg around io .installed content s := by
  unfold skillInstall installInto
  split
  · rfl
  · split
    · rfl
    · simp only [Prod.mk.injEq, true_and]
      generalize (prepareAndCommit cfg around io .installed _ _ s).2 = result
      cases result <;> rfl

theorem prepareAndCommit_disk (root : Root) (name content : String) (s : State) :
    (prepareAndCommit cfg around io root name content s).1.disk =
      (prepareInstallToDisk cfg around io root name content s.disk).1 := by
  unfold prepareAndCommit
  split
  · rename_i disk e heq
    rw [heq]
  · rename_i disk skill heq
    rw [heq]
    by_cases hhas : State.has { s with disk := disk } skill.manifest.name = true
    · simp only [commitInstall, if_pos hhas]
    · simp only [commitInstall, if_neg hhas]

theorem createDir_there (h : (entry disk root name).isSome = true) :
    createDir disk root name = disk := by
  unfold createDir
  cases he : entry disk root name with
  | none =>
    rw [he] at h
    cases h
  | some node => rfl

theorem linked_there (h : linked disk root name = true) : (entry disk root name).isSome = true := by
  unfold linked at h
  cases he : entry disk root name with
  | none =>
    rw [he] at h
    cases h
  | some node => rfl

theorem linked_put (h : linked disk root name = true) :
    (putSkill around disk root name bytes).1 = (around.through root name bytes disk).1 := by
  unfold linked at h
  unfold putSkill
  split at h <;> simp_all

theorem unlinked_put (h : linked disk root name = false) :
    putSkill around disk root name bytes =
      (writeSkill disk root name bytes, .file ⟨bytes, true⟩) := by
  unfold linked at h
  unfold putSkill
  split at h <;> simp_all

/-- An install whose way is blocked or leads out, or that touches nothing, puts
down an empty directory at most. -/
theorem unwritten_disk (root : Root) (content : String) (s : State)
    (h : Unwritten cfg root io content s ∨ LeadsOut cfg around root content s) :
    (installInto cfg around io root content s).1.disk = s.disk ∨
      ∃ name, (installInto cfg around io root content s).1.disk = createDir s.disk root name := by
  unfold installInto
  split
  · exact .inl rfl
  · rename_i skill hparse
    split
    · exact .inl rfl
    · rename_i hnew
      rw [prepareAndCommit_disk]
      rcases h with h | h
      · rcases h skill hparse with hhas | hblocked | hoccupied | hio
        · exact absurd hhas hnew
        · unfold prepareInstallToDisk
          simp only [hblocked, if_true]
          split <;> exact .inl rfl
        · unfold prepareInstallToDisk
          simp only [hoccupied, if_true]
          split
          · exact .inl rfl
          · split <;> exact .inl rfl
          · split <;> exact .inl rfl
        · unfold prepareInstallToDisk
          match io, hio with
          | .createFails _, _ => exact .inl rfl
          | .writeFails _ none, _ =>
            simp only
            split
            · exact .inl rfl
            · split
              · exact .inl rfl
              · exact .inr ⟨_, rfl⟩
      · obtain ⟨hlinked, hout⟩ := h skill hparse
        have hcreate := createDir_there s.disk root _ (linked_there _ _ _ hlinked)
        left
        unfold prepareInstallToDisk
        dsimp only
        split
        · rfl
        · split
          · rfl
          · split
            · rfl
            · split
              · exact hcreate
              · exact (linked_put around s.disk root _ _ hlinked).trans (hout _)
        · split
          · rfl
          · split
            · rfl
            · exact (linked_put around s.disk root _ _ hlinked).trans (hout _)

/-- Reading back an acceptable content loads it. -/
theorem accepted_loads (skill : ParsedSkill)
    (hparse : parseSkillMd cfg.fromYaml (normalizeLineEndings content) =
      .ok skill) (h : Acceptable cfg around content s) :
    loadAndValidateSkill cfg around ⟨.installed, some skill.manifest.name⟩
        (.file ⟨.text (normalizeLineEndings content), true⟩) .installed
        (.user ⟨.installed, some skill.manifest.name⟩) =
      .ok ⟨skill.manifest, skill.promptContent, .installed,
        .user ⟨.installed, some skill.manifest.name⟩, true⟩ := by
  obtain ⟨-, hfound, hread, hgate, hbudget⟩ := h.2 skill hparse
  have hsize : ¬ maxPromptFileSize < (Bytes.text (normalizeLineEndings content)).size :=
    Nat.not_lt.mpr h.1
  unfold loadAndValidateSkill
  simp only [hfound, hread]
  unfold validateSkill
  rw [if_neg hsize]
  simp only [normalize_normalize, hparse, hgate, hbudget, Bool.not_true, Bool.false_eq_true,
    if_false]

/-- An acceptable install writes into its directory unless it fails, and then it
writes nothing. -/
theorem acceptable_disk (h : Acceptable cfg around content s) :
    (installInto cfg around .done .installed content s).1.disk = s.disk ∨
      (installInto cfg around .done .installed content s).2 = true ∧
        ∃ name bytes, (installInto cfg around .done .installed content s).1.disk =
          writeSkill s.disk .installed name bytes := by
  unfold installInto
  split
  · exact .inl rfl
  · rename_i skill hparse
    by_cases hhas : s.has skill.manifest.name = true
    · rw [if_pos hhas]
      exact .inl rfl
    · rw [if_neg hhas]
      by_cases hblocked : blocked s.disk .installed skill.manifest.name = true
      · left
        rw [prepareAndCommit_disk]
        simp only [prepareInstallToDisk, if_pos hblocked]
      · by_cases hoccupied : occupied s.disk .installed skill.manifest.name = true
        · left
          rw [prepareAndCommit_disk]
          simp only [prepareInstallToDisk, if_neg hblocked, if_pos hoccupied]
        · -- the file is read back and the name is still free, so the install succeeds
          have hput := unlinked_put around s.disk .installed skill.manifest.name
            (.text (normalizeLineEndings content)) (h.2 skill hparse).unlinked
          have hload := accepted_loads cfg around content s skill hparse h
          have hfree : ∀ disk, State.has { s with disk := disk } skill.manifest.name = false :=
            fun _ => Bool.eq_false_iff.mpr hhas
          refine .inr ⟨?_, skill.manifest.name, .text (normalizeLineEndings content), ?_⟩
          · simp only [prepareAndCommit, prepareInstallToDisk, if_neg hblocked, if_neg hoccupied,
              hput, hload, commitInstall, hfree, Bool.false_eq_true, if_false]
            rfl
          · rw [prepareAndCommit_disk]
            simp only [prepareInstallToDisk, if_neg hblocked, if_neg hoccupied, hput]

theorem unwritten_confined (root : Root) (content : String) (s : State) (hs : Confined s.disk)
    (h : Unwritten cfg root io content s ∨ LeadsOut cfg around root content s) :
    Confined (installInto cfg around io root content s).1.disk := by
  rcases unwritten_disk cfg around io root content s h with hsame | ⟨name, hdir⟩
  · rw [hsame]
    exact hs
  · rw [hdir]
    exact createDir_confined s.disk root name hs

theorem unwritten_discovered (around later : Surroundings) (io : Io) (root : Root)
    (content : String) (s : State)
    (h : Unwritten cfg root io content s ∨ LeadsOut cfg around root content s) :
    discoverAll cfg later (installInto cfg around io root content s).1.disk =
      discoverAll cfg later s.disk := by
  rcases unwritten_disk cfg around io root content s h with hsame | ⟨name, hdir⟩
  · rw [hsame]
  · rw [hdir]
    exact createDir_discovered cfg later s.disk root name

theorem step_installSkill :
    step cfg (.installSkill around io content) s =
      (installInto cfg around io .user content s).1 := by
  rw [← installSkill_into]
  unfold step
  rfl

theorem step_skillInstall :
    step cfg (.skillInstall around io content) s =
      (installInto cfg around io .installed content s).1 := by
  rw [← skillInstall_into]
  unfold step
  rfl

theorem step_confined (op : Op) (s : State) (hs : Confined s.disk) (h : Kept cfg op s) :
    Confined (step cfg op s).disk := by
  cases op with
  | installSkill around io content =>
    rw [step_installSkill]
    exact unwritten_confined cfg around io .user content s hs h
  | skillInstall around io content =>
    rw [step_skillInstall]
    rcases h with hnone | ⟨rfl, hfine⟩
    · exact unwritten_confined cfg around io .installed content s hs hnone
    · rcases acceptable_disk cfg around content s hfine with hsame | ⟨-, name, bytes, hwrite⟩
      · rw [hsame]
        exact hs
      · rw [hwrite]
        exact writeSkill_confined s.disk name bytes hs
  | removeSkill name fails behind => exact removeSkill_confined cfg name fails behind s hs
  | reload around => exact hs

theorem step_untrusted (op : Op) (s : State) (hs : Confined s.disk) (h : Kept cfg op s) :
    Untrusted cfg op s := by
  cases op with
  | installSkill around io content =>
    constructor
    · intro _ heq
      cases heq
    · intro _ later
      rw [step_installSkill]
      exact unwritten_discovered cfg around later io .user content s h
  | skillInstall around io content =>
    constructor
    · intro _ heq
      cases heq
    · intro hfail later
      rw [step_skillInstall]
      rcases h with hnone | ⟨rfl, hfine⟩
      · exact unwritten_discovered cfg around later io .installed content s hnone
      · rcases acceptable_disk cfg around content s hfine with hsame | ⟨hok, -⟩
        · rw [hsame]
        · rw [installFails, Bool.not_eq_true'] at hfail
          rw [← skillInstall_into] at hok
          exact absurd (hok.symm.trans hfail) (by decide)
  | removeSkill name fails behind =>
    exact ⟨fun _ heq => (by cases heq), fun hfail => (by cases hfail)⟩
  | reload around =>
    exact ⟨fun _ _ => discoverAll_attenuated cfg around s.disk hs, fun hfail => by cases hfail⟩

end

def probeYaml (yaml : String) : Except String SkillManifest :=
  if yaml = "name: probe\n" then .ok ⟨"probe", "0.0.0", "", ⟨[], [], [], [], 0⟩, none⟩
  else .error "missing field \x60name\x60"

def probeConfig : Config := ⟨"/home/u/skills", "/home/u/installed_skills", none, probeYaml⟩

def plain : Surroundings where
  binaryExists _ := true
  envSet _ := true
  configExists _ := true
  readable _ := true
  hidden _ _ := false
  rank _ _ := 0
  statError _ := none
  readError _ := none
  through _ _ _ disk := (disk, .dir)

def emptyRegistry : State := ⟨fun _ => [], []⟩

def probeContent : String := "---\nname: probe\n---\nBe brief.\n"

def probeFound (trust : SkillTrust) (root : Root) : LoadedSkill :=
  ⟨⟨"probe", "0.0.0", "", ⟨[], [], [], [], 0⟩, none⟩, "Be brief.\n", trust,
    .user ⟨root, some "probe"⟩, true⟩

theorem empty_confined : Confined emptyRegistry.disk := fun _ _ _ h => nomatch h

theorem probe_parses : parseSkillMd probeYaml (normalizeLineEndings probeContent) =
    .ok ⟨⟨"probe", "0.0.0", "", ⟨[], [], [], [], 0⟩, none⟩, "Be brief.\n"⟩ := by
  decide

theorem probe_acceptable : Acceptable probeConfig plain probeContent emptyRegistry := by
  constructor
  · decide
  · intro skill hskill
    cases hskill.symm.trans probe_parses
    exact ⟨rfl, rfl, rfl, rfl, rfl⟩

end IronClaw.SkillRegistry
