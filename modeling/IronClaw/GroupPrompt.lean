import IronClaw.Workspace

/-!
# The prompt of a group chat

The prompt builder leaves the long-term memory, the profile and the directives
out of a group chat. Two runs that differ only in these documents are followed
side by side: an observer of group prompts sees everything but the hidden
documents. The heartbeat checklist is hidden too, since no prompt reads it. A
sync copies the profile into `USER.md`, which every prompt reads, and seeding
asks whether there is a profile.
-/

set_option autoImplicit false

namespace IronClaw.GroupPrompt
open IronClaw.Profile IronClaw.Workspace IronClaw.Workspace.Workspace Lib.Runs

def personalPaths : List String := [Paths.memory, Paths.profile, Paths.assistantDirectives]

def isPersonal (path : String) : Bool := personalPaths.contains path

def isHidden (path : String) : Bool := isPersonal path || path = Paths.heartbeat

def shownPaths : List String :=
  [Paths.bootstrap, Paths.agents, Paths.soul, Paths.user, Paths.identity, Paths.tools]

def plainPaths : List String :=
  Paths.heartbeat::Paths.readme::(personalPaths++shownPaths)

theorem plain_normal : ∀ p ∈ plainPaths, normalizePath p = p := by
  have hchars : ∀ p ∈ plainPaths,
      collapseSlashes false (trimSlashes (Lib.Text.trimChars p.toList)) = p.toList := by decide
  intro p hp
  unfold normalizePath
  rw [hchars p hp, String.ofList_toList]

variable (content : String) (s t : State) (p : String) (key : Key)

theorem shown_normal (h : p ∈ shownPaths) : normalizePath p = p := by
  apply plain_normal
  simp only [plainPaths, List.mem_cons, List.mem_append]
  exact Or.inr (Or.inr (Or.inr h))

theorem seeds_plain : ∀ p ∈ seedPaths, p ∈ plainPaths := by decide

theorem shown_visible (h : p ∈ shownPaths) : isHidden (normalizePath p) = false := by
  have hvisible : ∀ p ∈ shownPaths, isHidden p = false := by decide
  rw [shown_normal p h]
  exact hvisible p h

theorem hidden_normal (h : p ∈ Paths.heartbeat::personalPaths) :
    isHidden p = true ∧ normalizePath p = p := by
  have hhidden : ∀ p ∈ Paths.heartbeat::personalPaths, isHidden p = true := by decide
  have hplain : ∀ p ∈ Paths.heartbeat::personalPaths, p ∈ plainPaths := by decide
  exact ⟨hhidden p h, plain_normal p (hplain p h)⟩

theorem hidden_path (h : p ∈ Paths.heartbeat::personalPaths) :
    isHidden (normalizePath p) = true := by
  rw [(hidden_normal p h).2]
  exact (hidden_normal p h).1

def Alike (s t : State) : Prop :=
  s.bootstrapCompleted = t.bootstrapCompleted ∧
    ∀ key, isHidden key.path = false → s.docs key = t.docs key

theorem alike_refl (s : State) : Alike s s := ⟨rfl, fun _ _ => rfl⟩

theorem alike_symm (h : Alike s t) : Alike t s :=
  ⟨h.1.symm, fun key hkey => (h.2 key hkey).symm⟩

theorem alike_trans (r s t : State) (h : Alike r s) (g : Alike s t) : Alike r t :=
  ⟨h.1.trans g.1, fun key hkey => (h.2 key hkey).trans (g.2 key hkey)⟩

theorem alike_framed (s s' t t' : State) (h : Alike s t) (hs : Alike s s') (ht : Alike t t') :
    Alike s' t' :=
  alike_trans s' t t' (alike_trans s' s t (alike_symm s s' hs) h) ht

theorem create_bootstrap (s : State) (key : Key) :
    (getOrCreateDocumentByPath s key).2.bootstrapCompleted = s.bootstrapCompleted := by
  unfold getOrCreateDocumentByPath
  cases s.docs key <;> rfl

theorem store_bootstrap (s : State) (key : Key) (content : String) :
    (storeContent (getOrCreateDocumentByPath s key).2 key content).bootstrapCompleted =
      s.bootstrapCompleted := by
  rw [← create_bootstrap s key]
  unfold storeContent updateDocument reindexDocument
  split <;> split <;> rfl

theorem create_same (h : s.docs key = t.docs key) :
    (getOrCreateDocumentByPath s key).1 = (getOrCreateDocumentByPath t key).1 := by
  unfold getOrCreateDocumentByPath
  rw [h]
  cases t.docs key <;> rfl

theorem create_alike (h : Alike s t) :
    Alike (getOrCreateDocumentByPath s key).2 (getOrCreateDocumentByPath t key).2 := by
  constructor
  · rw [create_bootstrap, create_bootstrap]
    exact h.1
  · intro other hother
    rw [create_docs, create_docs]
    by_cases hkey : other = key
    · have hdocs := h.2 key (hkey ▸ hother)
      rw [hkey, Function.update_self, Function.update_self, create_same s t key hdocs]
    · rw [Function.update_of_ne hkey, Function.update_of_ne hkey]
      exact h.2 other hother

theorem store_alike (content content' : String) (h : Alike s t)
    (hsame : isHidden key.path = false → content = content') :
    Alike (storeContent (getOrCreateDocumentByPath s key).2 key content)
      (storeContent (getOrCreateDocumentByPath t key).2 key content') := by
  constructor
  · rw [store_bootstrap, store_bootstrap]
    exact h.1
  · intro other hother
    rw [store_docs, store_docs]
    by_cases hkey : other = key
    · rw [hkey, Function.update_self, Function.update_self, hsame (hkey ▸ hother)]
    · rw [Function.update_of_ne hkey, Function.update_of_ne hkey]
      exact h.2 other hother

theorem create_frame (s : State) (key : Key) (hkey : isHidden key.path = true) :
    Alike s (getOrCreateDocumentByPath s key).2 := by
  constructor
  · exact (create_bootstrap s key).symm
  · intro other hother
    have hne : other ≠ key := fun heq => by simp [heq, hkey] at hother
    rw [create_docs, Function.update_of_ne hne]

theorem store_frame (s : State) (key : Key) (content : String) (hkey : isHidden key.path = true) :
    Alike s (storeContent (getOrCreateDocumentByPath s key).2 key content) := by
  constructor
  · exact (store_bootstrap s key content).symm
  · intro other hother
    have hne : other ≠ key := fun heq => by simp [heq, hkey] at hother
    rw [store_docs, Function.update_of_ne hne]

theorem contentAt_same (h : Alike s t) (hkey : isHidden key.path = false) :
    contentAt s key = contentAt t key := by
  unfold contentAt
  rw [h.2 key hkey]

section

variable (given : Given) (ws : Workspace)

variable (path content : String) (s t : State)

theorem read_same (path : String) (h : Alike s t) (hpath : isHidden (normalizePath path) = false) :
    ws.read s path = ws.read t path := by
  unfold Workspace.read getDocumentByPath
  rw [h.2 (ws.key (normalizePath path)) hpath]

theorem write_frame (s : State) (hpath : isHidden (normalizePath path) = true) :
    Alike s (ws.write given path content s).2 := by
  cases hscan : scan given (normalizePath path) content with
  | error e => rw [ws.write_error given path content s e hscan]; exact alike_refl s
  | ok u =>
    rw [(ws.write_ok given path content s hscan).2]
    exact store_frame s (ws.key (normalizePath path)) content hpath

theorem write_alike (h : Alike s t) :
    Alike (ws.write given path content s).2 (ws.write given path content t).2 := by
  cases hscan : scan given (normalizePath path) content with
  | error e =>
    rw [ws.write_error given path content s e hscan, ws.write_error given path content t e hscan]
    exact h
  | ok u =>
    rw [(ws.write_ok given path content s hscan).2, (ws.write_ok given path content t hscan).2]
    exact store_alike s t _ content content h (fun _ => rfl)

theorem append_frame (s : State) (hpath : isHidden (normalizePath path) = true) :
    Alike s (ws.append given path content s).2 := by
  cases hscan : scan given (normalizePath path)
      (joined "\n" (contentAt s (ws.key (normalizePath path))) content) with
  | error e =>
    rw [ws.append_error given path content s e hscan]
    exact create_frame s (ws.key (normalizePath path)) hpath
  | ok u =>
    rw [ws.append_ok given path content s hscan]
    exact store_frame s (ws.key (normalizePath path)) _ hpath

theorem append_alike (h : Alike s t) (hpath : isHidden (normalizePath path) = false) :
    Alike (ws.append given path content s).2 (ws.append given path content t).2 := by
  have hsame := contentAt_same s t (ws.key (normalizePath path)) h hpath
  cases hscan : scan given (normalizePath path)
      (joined "\n" (contentAt s (ws.key (normalizePath path))) content) with
  | error e =>
    rw [ws.append_error given path content s e hscan,
      ws.append_error given path content t e (hsame ▸ hscan)]
    exact create_alike s t _ h
  | ok u =>
    rw [ws.append_ok given path content s hscan, ws.append_ok given path content t (hsame ▸ hscan),
      hsame]
    exact store_alike s t _ _ _ h (fun _ => rfl)

theorem layer_frame (layerName path content : String) (force : Bool) (s : State)
    (hpath : isHidden (normalizePath path) = true) :
    Alike s (ws.writeToLayer layerName path content force s).2 ∧
      Alike s (ws.appendToLayer layerName path content force s).2 := by
  cases htarget : ws.resolveLayerTarget layerName content force with
  | error e =>
    obtain ⟨hwrite, happend⟩ := ws.layer_error layerName path content force s e htarget
    rw [hwrite, happend]
    exact ⟨alike_refl s, alike_refl s⟩
  | ok target =>
    obtain ⟨scope, actual, redirected⟩ := target
    rw [ws.writeToLayer_ok layerName path content force s scope actual redirected htarget,
      ws.appendToLayer_ok layerName path content force s scope actual redirected htarget]
    exact ⟨store_frame s _ _ hpath, store_frame s _ _ hpath⟩

theorem layer_alike (layerName path content : String) (force : Bool) (s t : State) (h : Alike s t)
    (hpath : isHidden (normalizePath path) = false) :
    Alike (ws.writeToLayer layerName path content force s).2
        (ws.writeToLayer layerName path content force t).2 ∧
      Alike (ws.appendToLayer layerName path content force s).2
        (ws.appendToLayer layerName path content force t).2 := by
  cases htarget : ws.resolveLayerTarget layerName content force with
  | error e =>
    obtain ⟨hwrite, happend⟩ := ws.layer_error layerName path content force s e htarget
    obtain ⟨hwrite', happend'⟩ := ws.layer_error layerName path content force t e htarget
    rw [hwrite, happend, hwrite', happend']
    exact ⟨h, h⟩
  | ok target =>
    obtain ⟨scope, actual, redirected⟩ := target
    have hsame := contentAt_same s t ⟨scope, ws.agentId, normalizePath path⟩ h hpath
    rw [ws.writeToLayer_ok layerName path content force s scope actual redirected htarget,
      ws.writeToLayer_ok layerName path content force t scope actual redirected htarget,
      ws.appendToLayer_ok layerName path content force s scope actual redirected htarget,
      ws.appendToLayer_ok layerName path content force t scope actual redirected htarget, hsame]
    exact ⟨store_alike s t _ _ _ h (fun _ => rfl), store_alike s t _ _ _ h (fun _ => rfl)⟩

theorem delete_frame (path : String) (s : State) (hpath : isHidden (normalizePath path) = true) :
    Alike s (ws.delete path s).2 := by
  unfold Workspace.delete
  split
  · exact alike_refl s
  · refine ⟨rfl, ?_⟩
    intro other hother
    have hne : other ≠ ws.key (normalizePath path) := fun heq => by
      rw [heq] at hother
      exact absurd (hother.symm.trans hpath) Bool.false_ne_true
    exact (Function.update_of_ne hne none s.docs).symm

theorem delete_alike (path : String) (s t : State) (h : Alike s t)
    (hpath : isHidden (normalizePath path) = false) :
    Alike (ws.delete path s).2 (ws.delete path t).2 := by
  unfold Workspace.delete
  rw [read_same ws s t path h hpath]
  split
  · exact h
  · refine ⟨h.1, ?_⟩
    intro other hother
    by_cases hkey : other = ws.key (normalizePath path)
    · simp only [State.set, hkey, Function.update_self]
    · simp only [State.set, Function.update_of_ne hkey]
      exact h.2 other hother

theorem writeIfAbsent_frame (s : State) (hpath : isHidden (normalizePath path) = true) :
    Alike s (ws.writeIfAbsent given path content s).2 := by
  obtain heq | heq := ws.writeIfAbsent_eq given path content s
  · rw [heq]; exact alike_refl s
  · rw [heq]; exact write_frame given ws path content s hpath

theorem writeIfAbsent_alike (h : Alike s t) :
    Alike (ws.writeIfAbsent given path content s).2 (ws.writeIfAbsent given path content t).2 := by
  cases hpath : isHidden (normalizePath path) with
  | true =>
    exact alike_framed s _ t _ h (writeIfAbsent_frame given ws path content s hpath)
      (writeIfAbsent_frame given ws path content t hpath)
  | false =>
    have hwrite := write_alike given ws path content s t h
    unfold Workspace.writeIfAbsent
    rw [read_same ws s t path h hpath]
    split
    · exact h
    · split <;> split <;> simp_all

theorem writeAll_alike (files : List (String × String)) (s t : State) (h : Alike s t) :
    Alike (ws.writeAll given files s).2 (ws.writeAll given files t).2 := by
  induction files generalizing s t with
  | nil => exact h
  | cons file files ih =>
    exact ih _ _ (writeIfAbsent_alike given ws file.1 file.2 s t h)

/-! ## Sync and seeding -/

def syncedProfile (s : State) : Option PsychographicProfile :=
  match ws.read s Paths.profile with
  | .ok doc => populated given doc.content
  | .error _ => none

def userSection (s : State) : Option String := (syncedProfile given ws s).map (·.toUserMd)

theorem sync_eq (s : State) :
    (ws.syncProfileDocuments given s).2 =
      match syncedProfile given ws s with
      | some profile => (ws.syncProfile given profile s).2
      | none => s := by
  unfold Workspace.syncProfileDocuments syncedProfile
  cases ws.read s Paths.profile with
  | error e => rfl
  | ok doc =>
    dsimp only
    cases populated given doc.content <;> rfl

theorem sync_some (s : State) (profile : PsychographicProfile)
    (h : syncedProfile given ws s = some profile) :
    (ws.syncProfileDocuments given s).2 = (ws.syncProfile given profile s).2 := by
  rw [sync_eq, h]

theorem sync_none (s : State) (h : syncedProfile given ws s = none) :
    (ws.syncProfileDocuments given s).2 = s := by
  rw [sync_eq, h]

theorem syncHeartbeat_frame (profile : PsychographicProfile) (s : State) :
    Alike s (ws.syncHeartbeat given profile s).2 := by
  have hframe := write_frame given ws Paths.heartbeat profile.toHeartbeatMd s
    (hidden_path _ (by decide))
  unfold Workspace.syncHeartbeat
  split
  · exact alike_refl s
  · split <;> simp_all

/-- After `USER.md` a sync writes nothing that a group chat shows. -/
theorem syncProfile_frame (profile : PsychographicProfile) (s : State) :
    Alike (ws.write given Paths.user (ws.mergedUser s profile) s).2
      (ws.syncProfile given profile s).2 := by
  unfold Workspace.syncProfile
  rcases ws.write given Paths.user (ws.mergedUser s profile) s with ⟨r, s₁⟩
  cases r with
  | error e => exact alike_refl s₁
  | ok d =>
    have hframe := write_frame given ws Paths.assistantDirectives profile.toAssistantDirectives s₁
      (hidden_path _ (by decide))
    dsimp only
    rcases hdir : ws.write given Paths.assistantDirectives profile.toAssistantDirectives s₁
      with ⟨r₂, s₂⟩
    rw [hdir] at hframe
    cases r₂ with
    | error e => exact hframe
    | ok d₂ => exact alike_trans s₁ s₂ _ hframe (syncHeartbeat_frame given ws profile s₂)

theorem sync_frame (s : State) (profile : PsychographicProfile)
    (h : syncedProfile given ws s = some profile) :
    Alike (ws.write given Paths.user (ws.mergedUser s profile) s).2
      (ws.syncProfileDocuments given s).2 := by
  rw [sync_some given ws s profile h]
  exact syncProfile_frame given ws profile s

theorem syncProfile_alike (profile profile' : PsychographicProfile) (s t : State) (h : Alike s t)
    (hsame : profile.toUserMd = profile'.toUserMd) :
    Alike (ws.syncProfile given profile s).2 (ws.syncProfile given profile' t).2 := by
  have hread := read_same ws s t Paths.user h (shown_visible _ (by decide))
  have hmerged : ws.mergedUser s profile = ws.mergedUser t profile' := by
    unfold Workspace.mergedUser
    rw [hread, hsame]
  have hwrite := write_alike given ws Paths.user (ws.mergedUser s profile) s t h
  rw [hmerged] at hwrite
  have hs := syncProfile_frame given ws profile s
  rw [hmerged] at hs
  exact alike_framed _ _ _ _ hwrite hs (syncProfile_frame given ws profile' t)

theorem sync_alike (h : Alike s t) (hsection : userSection given ws s = userSection given ws t) :
    Alike (ws.syncProfileDocuments given s).2 (ws.syncProfileDocuments given t).2 := by
  rw [sync_eq, sync_eq]
  unfold userSection at hsection
  cases hs : syncedProfile given ws s with
  | none =>
    cases ht : syncedProfile given ws t with
    | none => exact h
    | some profile => simp [hs, ht] at hsection
  | some profile =>
    cases ht : syncedProfile given ws t with
    | none => simp [hs, ht] at hsection
    | some profile' =>
      simp only [hs, ht, Option.map_some, Option.some.injEq] at hsection
      exact syncProfile_alike given ws profile profile' s t h hsection

theorem write_other (path content other : String) (s : State)
    (hne : normalizePath other ≠ normalizePath path) :
    ws.read (ws.write given path content s).2 other = ws.read s other := by
  cases hscan : scan given (normalizePath path) content with
  | error e => rw [ws.write_error given path content s e hscan]
  | ok u =>
    have hkey : ws.key (normalizePath other) ≠ ws.key (normalizePath path) := by
      intro heq
      injection heq with _ _ hpath
      exact hne hpath
    rw [(ws.write_ok given path content s hscan).2]
    unfold Workspace.read getDocumentByPath
    rw [store_docs, Function.update_of_ne hkey]

theorem writeAll_other (files : List (String × String)) (other : String) (s : State)
    (hne : ∀ file ∈ files, normalizePath other ≠ normalizePath file.1) :
    ws.read (ws.writeAll given files s).2 other = ws.read s other := by
  induction files generalizing s with
  | nil => rfl
  | cons file files ih =>
    have hrest := ih (ws.writeIfAbsent given file.1 file.2 s).2
      (fun f hf => hne f (List.mem_cons_of_mem file hf))
    have hfirst := write_other given ws file.1 file.2 other s (hne file List.mem_cons_self)
    show ws.read (ws.writeAll given files (ws.writeIfAbsent given file.1 file.2 s).2).2 other = _
    rw [hrest]
    obtain heq | heq := ws.writeIfAbsent_eq given file.1 file.2 s
    · rw [heq]
    · rw [heq, hfirst]

theorem seeded_profile (s : State) :
    ws.hasProfile given (ws.writeAll given (seedPaths.map (fun p => (p, given.seeds p))) s).2 =
      ws.hasProfile given s := by
  have hpaths : ∀ p ∈ seedPaths, Paths.profile ≠ p := by decide
  unfold Workspace.hasProfile
  rw [writeAll_other]
  intro file hfile
  obtain ⟨p, hp, hfile⟩ := List.mem_map.mp hfile
  rw [← hfile, plain_normal Paths.profile (by decide), plain_normal p (seeds_plain p hp)]
  exact hpaths p hp

theorem fresh_same (h : Alike s t) :
    ws.isFreshWorkspace s = ws.isFreshWorkspace t := by
  unfold Workspace.isFreshWorkspace Workspace.missing
  rw [read_same ws s t Paths.bootstrap h (shown_visible _ (by decide)),
    read_same ws s t Paths.agents h (shown_visible _ (by decide)),
    read_same ws s t Paths.soul h (shown_visible _ (by decide)),
    read_same ws s t Paths.user h (shown_visible _ (by decide))]

theorem seed_alike (h : Alike s t)
    (hprofile : ws.isFreshWorkspace s = true → ws.hasProfile given s = ws.hasProfile given t) :
    Alike (ws.seedIfEmpty given s).2 (ws.seedIfEmpty given t).2 := by
  have hall := writeAll_alike given ws (seedPaths.map (fun p => (p, given.seeds p))) s t h
  have hwrite := write_alike given ws Paths.bootstrap (given.seeds Paths.bootstrap) _ _ hall
  unfold Workspace.seedIfEmpty
  dsimp only
  rw [seeded_profile, seeded_profile, ← fresh_same ws s t h]
  cases hfresh : ws.isFreshWorkspace s with
  | false => exact hall
  | true =>
    rw [hprofile hfresh]
    cases ws.hasProfile given t with
    | true => exact hall
    | false =>
      rcases hs : ws.write given Paths.bootstrap (given.seeds Paths.bootstrap)
        (ws.writeAll given (seedPaths.map (fun p => (p, given.seeds p))) s).2 with ⟨r, s'⟩
      rcases ht : ws.write given Paths.bootstrap (given.seeds Paths.bootstrap)
        (ws.writeAll given (seedPaths.map (fun p => (p, given.seeds p))) t).2 with ⟨r', t'⟩
      rw [hs, ht] at hwrite
      cases r <;> cases r' <;> exact hwrite

/-! ## The prompt -/

theorem daily_visible (date : ℤ) : isHidden (dailyPath given date) = false := by
  have hhead : (dailyPath given date).toList.head? = some 'd' := by
    simp [dailyPath, String.toList_append]
  have hother : ∀ p ∈ Paths.heartbeat::personalPaths, p.toList.head? ≠ some 'd' := by decide
  cases hhidden : isHidden (dailyPath given date) with
  | false => rfl
  | true =>
    have hmem : dailyPath given date ∈ Paths.heartbeat::personalPaths := by
      simp only [isHidden, isPersonal, Bool.or_eq_true, List.contains_iff_mem,
        decide_eq_true_eq] at hhidden
      obtain h | h := hhidden
      · exact List.mem_cons_of_mem _ h
      · exact h ▸ List.mem_cons_self
    exact absurd hhead (hother _ hmem)

theorem dailyPart_alike (today date : ℤ) (s t : State) (h : Alike s t) :
    (ws.dailyPart given today date s).1 = (ws.dailyPart given today date t).1 ∧
      Alike (ws.dailyPart given today date s).2 (ws.dailyPart given today date t).2 := by
  have hdocs := h.2 (ws.key (dailyPath given date)) (daily_visible given date)
  have hdoc := create_same s t (ws.key (dailyPath given date)) hdocs
  constructor
  · unfold Workspace.dailyPart Workspace.dailyLog Workspace.readOrCreate
    dsimp only
    rw [hdoc]
  · exact create_alike s t (ws.key (dailyPath given date)) h

theorem part_same (path header : String) (h : Alike s t)
    (hpath : isHidden (normalizePath path) = false) :
    ws.part s path header = ws.part t path header := by
  unfold Workspace.part
  rw [read_same ws s t path h hpath]

theorem identityParts_same (h : Alike s t) :
    ws.identityParts s = ws.identityParts t := by
  have hvisible : ∀ file ∈ identityFiles, file.1 ∈ shownPaths := by decide
  unfold Workspace.identityParts
  rw [part_same ws s t Paths.tools _ h (shown_visible _ (by decide))]
  congr 1
  apply List.flatMap_congr
  intro file hfile
  exact part_same ws s t file.1 file.2 h (shown_visible _ (hvisible file hfile))

theorem bootstrapPart_same (h : Alike s t) :
    ws.bootstrapPart s = ws.bootstrapPart t := by
  unfold Workspace.bootstrapPart
  rw [h.1, part_same ws s t Paths.bootstrap _ h (shown_visible _ (by decide))]

def groupParts (today : ℤ) (s : State) : List String :=
  ws.bootstrapPart s++ws.identityParts s++(ws.dailyPart given today today s).1++
    (ws.dailyPart given today (today-1) (ws.dailyPart given today today s).2).1

theorem groupPrompt_eq (today now : ℤ) (s : State) :
    (ws.systemPromptForContext given true today now s).1 =
      join "\n\n---\n\n" (groupParts given ws today s) := by
  simp only [Workspace.systemPromptForContext, groupParts, ↓reduceIte, List.append_nil]

theorem groupPrompt_same (today now : ℤ) (s t : State) (h : Alike s t) :
    (ws.systemPromptForContext given true today now s).1 =
      (ws.systemPromptForContext given true today now t).1 := by
  obtain ⟨htoday, hnext⟩ := dailyPart_alike given ws today today s t h
  obtain ⟨hyesterday, _⟩ := dailyPart_alike given ws today (today-1) _ _ hnext
  rw [groupPrompt_eq, groupPrompt_eq]
  unfold groupParts
  rw [bootstrapPart_same ws s t h, identityParts_same ws s t h, htoday, hyesterday]

theorem prompt_alike (isGroupChat : Bool) (today now : ℤ) (s t : State) (h : Alike s t) :
    Alike (ws.systemPromptForContext given isGroupChat today now s).2
      (ws.systemPromptForContext given isGroupChat today now t).2 :=
  (dailyPart_alike given ws today (today-1) _ _
    (dailyPart_alike given ws today today s t h).2).2

/-! ## Two runs side by side -/

def Same : Op → Op → Prop
  | .write path content, .write path' content' =>
    path = path' ∧ (isPersonal (normalizePath path) = false → content = content')
  | .append path content, .append path' content' =>
    path = path' ∧ (isPersonal (normalizePath path) = false → content = content')
  | .appendMemory _, .appendMemory _ => True
  | .writeToLayer layer path content force, .writeToLayer layer' path' content' force' =>
    layer = layer' ∧ path = path' ∧ force = force' ∧
      (isPersonal (normalizePath path) = false → content = content')
  | .appendToLayer layer path content force, .appendToLayer layer' path' content' force' =>
    layer = layer' ∧ path = path' ∧ force = force' ∧
      (isPersonal (normalizePath path) = false → content = content')
  | op, op' => op = op'

def Unleaked (ops : Op × Op) (states : State × State) : Prop :=
  match ops.1 with
  | .sync => userSection given ws states.1 = userSection given ws states.2
  | .seed => ws.isFreshWorkspace states.1 = true →
      ws.hasProfile given states.1 = ws.hasProfile given states.2
  | _ => True

def both (ops : Op × Op) (states : State × State) : State × State :=
  (ws.perform given ops.1 states.1, ws.perform given ops.2 states.2)

theorem run_both (ops : List (Op × Op)) (s t : State) :
    run (both given ws) ops (s, t) =
      (run (ws.perform given) (ops.map Prod.fst) s, run (ws.perform given) (ops.map Prod.snd) t) := by
  induction ops generalizing s t with
  | nil => rfl
  | cons op ops ih => exact ih _ _

theorem same_or_hidden (path content content' : String)
    (h : isPersonal (normalizePath path) = false → content = content') :
    content = content' ∨ isHidden (normalizePath path) = true := by
  cases hpath : isPersonal (normalizePath path) with
  | false => exact Or.inl (h hpath)
  | true => exact Or.inr (by simp [isHidden, hpath])

theorem append_any (h : Alike s t) :
    Alike (ws.append given path content s).2 (ws.append given path content t).2 := by
  cases hpath : isHidden (normalizePath path) with
  | true =>
    exact alike_framed s _ t _ h (append_frame given ws path content s hpath)
      (append_frame given ws path content t hpath)
  | false => exact append_alike given ws path content s t h hpath

theorem layer_any (layerName path content : String) (force : Bool) (s t : State) (h : Alike s t) :
    Alike (ws.writeToLayer layerName path content force s).2
        (ws.writeToLayer layerName path content force t).2 ∧
      Alike (ws.appendToLayer layerName path content force s).2
        (ws.appendToLayer layerName path content force t).2 := by
  cases hpath : isHidden (normalizePath path) with
  | true =>
    have hs := layer_frame ws layerName path content force s hpath
    have ht := layer_frame ws layerName path content force t hpath
    exact ⟨alike_framed s _ t _ h hs.1 ht.1, alike_framed s _ t _ h hs.2 ht.2⟩
  | false => exact layer_alike ws layerName path content force s t h hpath

theorem delete_any (path : String) (s t : State) (h : Alike s t) :
    Alike (ws.delete path s).2 (ws.delete path t).2 := by
  cases hpath : isHidden (normalizePath path) with
  | true =>
    exact alike_framed s _ t _ h (delete_frame ws path s hpath) (delete_frame ws path t hpath)
  | false => exact delete_alike ws path s t h hpath

/-- The same operation on alike states. -/
theorem perform_alike (op : Op) (s t : State) (h : Alike s t)
    (hleak : Unleaked given ws (op, op) (s, t)) :
    Alike (ws.perform given op s) (ws.perform given op t) := by
  cases op with
  | write path content => exact write_alike given ws path content s t h
  | append path content => exact append_any given ws path content s t h
  | appendMemory entry =>
    show Alike (ws.appendMemory entry s).2 (ws.appendMemory entry t).2
    rw [ws.appendMemory_eq, ws.appendMemory_eq]
    have hhidden : isHidden (ws.key Paths.memory).path = true :=
      (hidden_normal Paths.memory (by decide)).1
    exact store_alike s t _ _ _ h (fun hvisible => by rw [hhidden] at hvisible; cases hvisible)
  | writeToLayer layer path content force => exact (layer_any ws layer path content force s t h).1
  | appendToLayer layer path content force => exact (layer_any ws layer path content force s t h).2
  | appendDailyLog date timestamp entry =>
    show Alike (ws.appendDailyLog given date timestamp entry s).2
      (ws.appendDailyLog given date timestamp entry t).2
    rw [ws.appendDailyLog_eq, ws.appendDailyLog_eq]
    exact append_any given ws _ _ s t h
  | delete path => exact delete_any ws path s t h
  | memory => exact create_alike s t _ h
  | dailyLog date => exact create_alike s t _ h
  | seed => exact seed_alike given ws s t h hleak
  | importFrom entries => exact writeAll_alike given ws _ s t h
  | sync => exact sync_alike given ws s t h hleak
  | prompt isGroupChat today now => exact prompt_alike given ws isGroupChat today now s t h
  | markBootstrapCompleted => exact ⟨rfl, h.2⟩

def Covert (op : Op) : Prop := ∀ s, Alike s (ws.perform given op s)

theorem same_cases (op op' : Op) (h : Same op op') :
    op = op' ∨ (Covert given ws op ∧ Covert given ws op') := by
  cases op with
  | write path content =>
    cases op' with
    | write path' content' =>
      obtain ⟨rfl, hcontent⟩ := h
      obtain rfl | hpath := same_or_hidden path content content' hcontent
      · exact Or.inl rfl
      · exact Or.inr ⟨fun s => write_frame given ws path content s hpath,
          fun s => write_frame given ws path content' s hpath⟩
    | _ => exact Or.inl h
  | append path content =>
    cases op' with
    | append path' content' =>
      obtain ⟨rfl, hcontent⟩ := h
      obtain rfl | hpath := same_or_hidden path content content' hcontent
      · exact Or.inl rfl
      · exact Or.inr ⟨fun s => append_frame given ws path content s hpath,
          fun s => append_frame given ws path content' s hpath⟩
    | _ => exact Or.inl h
  | appendMemory entry =>
    cases op' with
    | appendMemory entry' =>
      have hcovert : ∀ e, Covert given ws (.appendMemory e) := by
        intro e s
        show Alike s (ws.appendMemory e s).2
        rw [ws.appendMemory_eq]
        exact store_frame s _ _ ((hidden_normal Paths.memory (by decide)).1)
      exact Or.inr ⟨hcovert entry, hcovert entry'⟩
    | _ => exact Or.inl h
  | writeToLayer layer path content force =>
    cases op' with
    | writeToLayer layer' path' content' force' =>
      obtain ⟨rfl, rfl, rfl, hcontent⟩ := h
      obtain rfl | hpath := same_or_hidden path content content' hcontent
      · exact Or.inl rfl
      · exact Or.inr ⟨fun s => (layer_frame ws layer path content force s hpath).1,
          fun s => (layer_frame ws layer path content' force s hpath).1⟩
    | _ => exact Or.inl h
  | appendToLayer layer path content force =>
    cases op' with
    | appendToLayer layer' path' content' force' =>
      obtain ⟨rfl, rfl, rfl, hcontent⟩ := h
      obtain rfl | hpath := same_or_hidden path content content' hcontent
      · exact Or.inl rfl
      · exact Or.inr ⟨fun s => (layer_frame ws layer path content force s hpath).2,
          fun s => (layer_frame ws layer path content' force s hpath).2⟩
    | _ => exact Or.inl h
  | _ => cases op' <;> exact Or.inl h

theorem both_alike (ops : Op × Op) (states : State × State) (h : Alike states.1 states.2)
    (hc : Same ops.1 ops.2 ∧ Unleaked given ws ops states) :
    Alike (both given ws ops states).1 (both given ws ops states).2 := by
  obtain ⟨op, op'⟩ := ops
  obtain ⟨s, t⟩ := states
  obtain ⟨hsame, hleak⟩ := hc
  obtain rfl | ⟨hs, ht⟩ := same_cases given ws op op' hsame
  · exact perform_alike given ws op s t h hleak
  · exact alike_framed s _ t _ h (hs s) (ht t)

/-- Two runs that differ only in what they write into the personal documents
show a group chat the same prompt, as long as the profile is nowhere read with a
different outcome. -/
theorem group_prompt_unaffected (ops : List (Op × Op)) (s : State)
    (hsame : ∀ p ∈ ops, Same p.1 p.2) (hleak : Along (both given ws) (Unleaked given ws) ops (s, s))
    (today now : ℤ) :
    (ws.systemPromptForContext given true today now
        (run (ws.perform given) (ops.map Prod.fst) s)).1 =
      (ws.systemPromptForContext given true today now
        (run (ws.perform given) (ops.map Prod.snd) s)).1 := by
  have hguard := along_and (both given ws) _ _ ops (s, s)
    (along_all (both given ws) (fun p _ => Same p.1 p.2) ops (s, s) (fun p hp _ => hsame p hp)) hleak
  have halike := guarded_invariant (both given ws) _ (fun states => Alike states.1 states.2)
    (fun p states h hc => both_alike given ws p states h hc) ops (s, s) hguard (alike_refl s)
  rw [run_both] at halike
  exact groupPrompt_same given ws today now _ _ halike

end

/-! ## The leak -/

def profileChars (name : List Char) : List Char :=
  "\x7b\"version\":2,\"preferred_name\":\"".toList++name++
  "\",\"personality\":\x7b\"empathy\":50,\"problem_solving\":50,".toList++
  "\"emotional_intelligence\":50,\"adaptability\":50,\"communication\":50\x7d,".toList++
  "\"communication\":\x7b\"detail_level\":\"balanced\",\"formality\":\"balanced\",".toList++
  "\"tone\":\"neutral\",\"learning_style\":\"unknown\",\"social_energy\":\"unknown\",".toList++
  "\"decision_making\":\"unknown\",\"pace\":\"unknown\"\x7d,\"cohort\":\"other\",".toList++
  "\"behavior\":\x7b\"frictions\":[],\"desired_outcomes\":[],\"time_wasters\":[],".toList++
  "\"pain_points\":[],\"strengths\":[]\x7d,\"friendship\":\x7b\"style\":\"unknown\",".toList++
  "\"values\":[],\"support_style\":\"unknown\"\x7d,".toList++
  "\"assistance\":\x7b\"proactivity\":\"medium\",\"formality\":\"unknown\",".toList++
  "\"focus_areas\":[],\"routines\":[],\"goals\":[],".toList++
  "\"interaction_style\":\"unknown\"\x7d,\"context\":\x7b\"interests\":[],".toList++
  "\"challenges\":[]\x7d,\"created_at\":\"\",\"updated_at\":\"\"\x7d".toList

@[irreducible]
def profileJson (name : String) : String := String.ofList (profileChars name.toList)

def namedProfile (name : String) : PsychographicProfile :=
  ⟨name, ⟨"balanced", "balanced", "neutral", "unknown", "unknown", "unknown", "unknown"⟩,
   ⟨.other, 0⟩, ⟨[], []⟩, "unknown", ⟨"medium", [], [], "unknown", "moderate"⟩,
   ⟨none, [], none⟩, [], ⟨"reactive", "direct"⟩, 0, ""⟩

def profileReader (text : String) : Option PsychographicProfile :=
  if text = profileJson "Ada" then some (namedProfile "Ada") else none

def sampleGiven : Given :=
  ⟨fun _ _ => [], profileReader, fun _ => "2026-01-02", fun _ => none, fun _ => "", "", ""⟩

def homeWorkspace : Workspace := Workspace.new "home"

def profileWrite (content : String) : Op :=
  .writeToLayer "private" "context/profile.json" content false

def groupPromptOf (s : State) : String :=
  (homeWorkspace.systemPromptForContext sampleGiven true 0 0 s).1

theorem join_ne_empty (sep : String) (parts : List String) (p : String) (hp : p ∈ parts)
    (hne : p ≠ "") : join sep parts ≠ "" := by
  induction parts with
  | nil => exact absurd hp List.not_mem_nil
  | cons q parts ih =>
    cases parts with
    | nil =>
      rw [List.mem_singleton] at hp
      rw [join, String.intercalate_singleton, ← hp]
      exact hne
    | cons r rest =>
      intro heq
      rw [join, String.intercalate_cons_cons] at heq
      simp only [String.append_eq_empty_iff] at heq
      obtain rfl | hp := List.mem_cons.mp hp
      · exact hne heq.1.1
      · exact ih hp heq.2

def onlyUser (content : String) : State :=
  storeContent (getOrCreateDocumentByPath noState (homeWorkspace.key Paths.user)).2
    (homeWorkspace.key Paths.user) content

theorem onlyUser_part (h : content ≠ "") :
    "## User Context\n\n" ++ content ∈ groupParts sampleGiven homeWorkspace 0 (onlyUser content) := by
  have hpath := shown_normal Paths.user (by decide)
  have hread : homeWorkspace.read (onlyUser content) Paths.user =
      .ok ⟨content, chunkDocument content⟩ := by
    unfold Workspace.read getDocumentByPath onlyUser
    rw [hpath, store_docs, Function.update_self]
  have hpart : "## User Context\n\n" ++ content ∈
      homeWorkspace.part (onlyUser content) Paths.user "## User Context" := by
    unfold Workspace.part
    rw [hread]
    simp only [lineIf, h, ne_eq, not_false_eq_true, decide_true, ↓reduceIte, List.mem_singleton]
    rfl
  simp only [groupParts, List.mem_append, Workspace.identityParts]
  refine Or.inl (Or.inl (Or.inr (Or.inl ?_)))
  exact List.mem_flatMap.mpr ⟨(Paths.user, "## User Context"), by decide, hpart⟩

def sectionOf (name : String) : String :=
  String.ofList (wrapProfileSection (namedProfile name).toUserMd.toList)

theorem sectionOf_ne (name : String) : sectionOf name ≠ "" := by
  intro heq
  rw [← String.toList_eq_nil_iff, sectionOf, String.toList_ofList, wrapProfileSection] at heq
  have hline := (List.append_eq_nil_iff.mp (List.append_eq_nil_iff.mp heq).1).2
  exact absurd hline (List.cons_ne_nil _ _)

def leakRuns : List (Op × Op) :=
  [(profileWrite (profileJson "Ada"), profileWrite ""), (.sync, .sync)]

def written (content : String) : State :=
  homeWorkspace.perform sampleGiven (profileWrite content) noState

theorem written_eq :
    homeWorkspace.perform sampleGiven (profileWrite content) noState = written content := rfl

theorem groupPromptOf_same (h : Alike s t) : groupPromptOf s = groupPromptOf t :=
  groupPrompt_same sampleGiven homeWorkspace 0 0 s t h

-- stated for any workspace, so that checking it does not run the operations of this one
theorem run_then_sync (given : Given) (ws : Workspace) (op : Op) (s : State) :
    run (ws.perform given) [op, .sync] s =
      (ws.syncProfileDocuments given (ws.perform given op s)).2 := rfl

theorem written_alike : Alike noState (written content) :=
  (layer_frame homeWorkspace "private" "context/profile.json" content false noState
    (hidden_path Paths.profile (by decide))).1

theorem written_profile :
    syncedProfile sampleGiven homeWorkspace (written content) = populated sampleGiven content := by
  have hdocs := homeWorkspace.writeToLayer_ok "private" "context/profile.json" content false noState
    "home" "private" false rfl
  have hread : homeWorkspace.read (written content) Paths.profile =
      .ok ⟨content, chunkDocument content⟩ := by
    show getDocumentByPath (homeWorkspace.writeToLayer "private" "context/profile.json" content
      false noState).2 _ = _
    have hkey : homeWorkspace.key (normalizePath Paths.profile) =
      ⟨"home", homeWorkspace.agentId, normalizePath "context/profile.json"⟩ := rfl
    rw [hdocs, hkey]
    unfold getDocumentByPath
    rw [store_docs, Function.update_self]
  unfold syncedProfile
  rw [hread]

theorem ada_populated : populated sampleGiven (profileJson "Ada") = some (namedProfile "Ada") := by
  have hne : profileJson "Ada" ≠ "" := by
    intro heq
    have hchars : profileChars "Ada".toList = [] := by
      rw [← String.toList_eq_nil_iff, profileJson, String.toList_ofList] at heq
      exact heq
    unfold profileChars at hchars
    exact absurd (List.append_eq_nil_iff.mp hchars).2 (by simp)
  have hread : sampleGiven.parseProfile (profileJson "Ada") = some (namedProfile "Ada") := by
    show profileReader (profileJson "Ada") = some (namedProfile "Ada")
    unfold profileReader
    rw [if_pos rfl]
  unfold populated
  rw [if_neg hne, hread]
  exact Option.filter_some_pos (by decide)

theorem section_accepted : scan sampleGiven Paths.user (sectionOf "Ada") = .ok () := by
  have hgrave : (grave sampleGiven (sectionOf "Ada")).isEmpty = true := by
    unfold grave sectionOf PsychographicProfile.toUserMd join
    rw [String.toList_ofList, String.toList_intercalate]
    decide +kernel
  unfold scan rejectIfInjected
  rw [hgrave]
  split <;> rfl

/-- After a sync the group chat is told what the profile says. -/
theorem synced_prompt :
    groupPromptOf (run (homeWorkspace.perform sampleGiven) (leakRuns.map Prod.fst) noState) =
      groupPromptOf (onlyUser (sectionOf "Ada")) := by
  have halike := written_alike (profileJson "Ada")
  have hread := read_same homeWorkspace noState _ Paths.user halike
    (shown_visible _ (by decide))
  have hmerged : homeWorkspace.mergedUser (written (profileJson "Ada")) (namedProfile "Ada") =
      sectionOf "Ada" := by
    have hnone : homeWorkspace.read noState Paths.user =
      .error (.documentNotFound (normalizePath Paths.user) "home") := rfl
    unfold Workspace.mergedUser sectionOf
    rw [← hread, hnone]
  have hframe := sync_frame sampleGiven homeWorkspace (written (profileJson "Ada"))
    (namedProfile "Ada") ((written_profile (profileJson "Ada")).trans ada_populated)
  rw [hmerged] at hframe
  have huser := write_alike sampleGiven homeWorkspace Paths.user (sectionOf "Ada") _ _ halike
  have hpath := shown_normal Paths.user (by decide)
  rw [(homeWorkspace.write_ok sampleGiven Paths.user (sectionOf "Ada") noState
    (by rw [hpath]; exact section_accepted)).2, hpath] at huser
  have hops : leakRuns.map Prod.fst = [profileWrite (profileJson "Ada"), .sync] := rfl
  rw [hops, run_then_sync, written_eq]
  exact (groupPromptOf_same _ _ (alike_trans _ _ _ huser hframe)).symm

theorem unsynced_prompt :
    groupPromptOf (run (homeWorkspace.perform sampleGiven) (leakRuns.map Prod.snd) noState) =
      groupPromptOf noState := by
  have hsync := sync_none sampleGiven homeWorkspace (written "") (written_profile "")
  have hops : leakRuns.map Prod.snd = [profileWrite "", .sync] := rfl
  rw [hops, run_then_sync, written_eq, hsync]
  exact (groupPromptOf_same _ _ (written_alike "")).symm

theorem leakRuns_same : ∀ p ∈ leakRuns, Same p.1 p.2 := by
  intro p hp
  simp only [leakRuns, List.mem_cons, List.not_mem_nil, or_false] at hp
  obtain rfl | rfl := hp
  · have hpersonal : isPersonal (normalizePath Paths.profile) = true := by
      rw [(hidden_normal Paths.profile (by decide)).2]
      decide
    exact ⟨rfl, rfl, rfl, fun h => absurd (hpersonal.symm.trans h) (by decide)⟩
  · rfl

theorem onlyUser_prompt (h : content ≠ "") :
    groupPromptOf (onlyUser content) ≠ "" := by
  unfold groupPromptOf
  rw [groupPrompt_eq]
  apply join_ne_empty _ _ _ (onlyUser_part content h)
  intro heq
  rw [String.append_eq_empty_iff] at heq
  exact h heq.2

theorem noState_part (path header : String) : homeWorkspace.part noState path header = [] := rfl

theorem noState_prompt : groupPromptOf noState = "" := by
  have hidentity : homeWorkspace.identityParts noState = [] := by
    unfold Workspace.identityParts
    simp only [noState_part]
    rfl
  have hbootstrap : homeWorkspace.bootstrapPart noState = [] := rfl
  unfold groupPromptOf
  rw [groupPrompt_eq]
  unfold groupParts
  rw [hidentity, hbootstrap]
  rfl

/-- The two runs differ only in the profile, and the group chats see it. -/
theorem group_prompt_leaks_profile :
    (∀ p ∈ leakRuns, Same p.1 p.2) ∧
      groupPromptOf (run (homeWorkspace.perform sampleGiven) (leakRuns.map Prod.fst) noState) ≠
        groupPromptOf (run (homeWorkspace.perform sampleGiven) (leakRuns.map Prod.snd) noState) := by
  refine ⟨leakRuns_same, ?_⟩
  rw [synced_prompt, unsynced_prompt, noState_prompt]
  exact onlyUser_prompt _ (sectionOf_ne "Ada")

/-- Entries of the long-term memory stay out of the group chat's prompt. -/
theorem memory_unseen :
    groupPromptOf (run (homeWorkspace.perform sampleGiven)
        [.appendMemory "Alice likes tea.", .prompt true 0 0] noState) =
      groupPromptOf (run (homeWorkspace.perform sampleGiven)
        [.appendMemory "Alice likes coffee.", .prompt true 0 0] noState) :=
  group_prompt_unaffected sampleGiven homeWorkspace
    [(.appendMemory "Alice likes tea.", .appendMemory "Alice likes coffee."),
     (.prompt true 0 0, .prompt true 0 0)] noState
    (by intro p hp; simp only [List.mem_cons, List.not_mem_nil, or_false] at hp
        obtain rfl | rfl := hp
        · trivial
        · rfl)
    ⟨trivial, trivial, trivial⟩ 0 0

end IronClaw.GroupPrompt
