import IronClaw.JsonValue
import IronClaw.Lib.Entries
import IronClaw.Lib.Runs
import IronClaw.Lib.Text

/-!
# The host of a channel

What a channel in its sandbox can ask for during one callback: `log` of
`tools/wasm/host.rs`, and of `channels/wasm/host.rs` the messages that it emits,
the data that it stores for their attachments and its writes to the workspace.
The call for a message in `channels/wasm/wrapper.rs` takes the stored data of
its attachments first. A call that panics leaves no state.
-/

set_option autoImplicit false

namespace IronClaw.ChannelHost
open IronClaw.JsonValue Lib.Entries Lib.Runs Lib.Text

def maxLogEntries : ℕ := 1000

def maxLogMessageBytes : ℕ := 4096

def maxEmitsPerExecution : ℕ := 100

def maxMessageContentSize : ℕ := 64*1024

def maxAttachmentTotalSize : ℕ := 20*1024*1024

def maxAttachmentsPerMessage : ℕ := 10

def maxPerAttachment : ℕ := 20*1024*1024

def maxTotal : ℕ := 50*1024*1024

def allowedMimePrefixes : List String :=
  ["image/", "audio/", "video/", "application/pdf", "application/vnd.", "application/msword",
    "application/rtf", "text/", "application/json", "application/zip", "application/gzip",
    "application/x-tar", "application/octet-stream"]

/-! ## Logs -/

inductive LogLevel where
  | trace
  | debug
  | info
  | warn
  | error
  deriving DecidableEq

structure LogEntry where
  level : LogLevel
  message : String
  timestampMillis : ℕ
  deriving DecidableEq

structure HostState where
  logs : List LogEntry
  loggingEnabled : Bool
  logsDropped : ℕ
  deriving DecidableEq

def sliceBytes (s : String) (n : ℕ) : Option String :=
  if isBoundary s.toList n then some (String.ofList (sliceTo s.toList n)) else none

def HostState.log (h : HostState) (level : LogLevel) (message : String) (now : ℕ) :
    Option HostState :=
  if !h.loggingEnabled then some { h with logsDropped := h.logsDropped+1 }
  else if maxLogEntries ≤ h.logs.length then
    some { h with loggingEnabled := false, logsDropped := h.logsDropped+1 }
  else if maxLogMessageBytes < byteLen message.toList then
    (sliceBytes message maxLogMessageBytes).map (fun truncated =>
      { h with logs := h.logs++[⟨level, truncated ++ "... (truncated)", now⟩] })
  else some { h with logs := h.logs++[⟨level, message, now⟩] }

/-! ## Messages -/

structure Attachment where
  id : String
  mimeType : String
  filename : Option String
  sizeBytes : Option UInt64
  sourceUrl : Option String
  storageKey : Option String
  extractedText : Option String
  data : List UInt8
  durationSecs : Option UInt32

structure EmittedMessage where
  userId : String
  userName : Option String
  content : String
  threadId : Option String
  metadataJson : String
  attachments : List Attachment
  emittedAtMillis : ℕ

structure PendingWorkspaceWrite where
  path : String
  content : String

inductive WasmChannelError where
  | callbackFailed (name reason : String)
  | workspaceEscape (name path : String)
  deriving DecidableEq

abbrev Stored := AList (fun _ : String => List UInt8)

structure ChannelHostState where
  base : HostState
  channelName : String
  workspacePrefix : String
  emittedMessages : List EmittedMessage
  pendingWrites : List PendingWorkspaceWrite
  emitCount : ℕ
  emitEnabled : Bool
  emitsDropped : ℕ
  attachmentData : Stored
  attachmentDataTotal : ℕ

def ChannelHostState.new (channelName workspacePrefix : String) : ChannelHostState :=
  ⟨⟨[], true, 0⟩, channelName, workspacePrefix, [], [], 0, true, 0, ∅, 0⟩

def saturatingAdd (a b : ℕ) : ℕ := min (a+b) (2^64-1)

def mimeAllowed (att : Attachment) : Bool :=
  allowedMimePrefixes.any (fun lead => startsWith att.mimeType lead)

def sizeOf (stored : Stored) (att : Attachment) : ℕ :=
  let storedSize := ((stored.lookup att.id).map List.length).getD att.data.length
  (att.sizeBytes.map (fun reported => max reported.toNat storedSize)).getD storedSize

def retain (stored : Stored) : ℕ → List Attachment → List Attachment
  | _, [] => []
  | total, att::rest =>
    if !mimeAllowed att then retain stored total rest
    else
      let size := sizeOf stored att
      if 0 < size then
        let total := saturatingAdd total size
        if maxAttachmentTotalSize < total then retain stored total rest
        else att::retain stored total rest
      else att::retain stored total rest

def validateAttachments (stored : Stored) (msg : EmittedMessage) : EmittedMessage :=
  if msg.attachments.isEmpty then msg
  else { msg with
    attachments := retain stored 0 (msg.attachments.take maxAttachmentsPerMessage) }

def truncateUtf8 (s : String) (maxBytes : ℕ) : String :=
  if byteLen s.toList ≤ maxBytes then s
  else String.ofList (sliceTo s.toList (floorBoundary s.toList maxBytes))

def ChannelHostState.emitMessage (s : ChannelHostState) (msg : EmittedMessage) :
    ChannelHostState :=
  if !s.emitEnabled then { s with emitsDropped := s.emitsDropped+1 }
  else if maxEmitsPerExecution ≤ s.emittedMessages.length then
    { s with emitEnabled := false, emitsDropped := s.emitsDropped+1 }
  else
    let msg := validateAttachments s.attachmentData msg
    let msg :=
      if maxMessageContentSize < byteLen msg.content.toList then
        { msg with
          content := truncateUtf8 msg.content maxMessageContentSize ++ "... (truncated)" }
      else msg
    { s with emittedMessages := s.emittedMessages++[msg], emitCount := s.emitCount+1 }

/-! ## Stored data -/

def tooLarge (what : String) (size limit : ℕ) : String :=
  what ++ " too large: " ++ toString size ++ " bytes (max " ++ toString limit ++ ")"

def ChannelHostState.storeAttachmentData (s : ChannelHostState) (attachmentId : String)
    (data : List UInt8) : Except WasmChannelError Unit × ChannelHostState :=
  if maxPerAttachment < data.length then
    (.error (.callbackFailed s.channelName
      (tooLarge "Attachment data" data.length maxPerAttachment)), s)
  else
    let oldSize := ((s.attachmentData.lookup attachmentId).map List.length).getD 0
    let newTotal := saturatingAdd (s.attachmentDataTotal-oldSize) data.length
    if maxTotal < newTotal then
      (.error (.callbackFailed s.channelName
        (tooLarge "Total attachment data" newTotal maxTotal)), s)
    else
      (.ok (), { s with
        attachmentDataTotal := newTotal
        attachmentData := s.attachmentData.insert attachmentId data })

def ChannelHostState.removeAttachmentData (s : ChannelHostState) (id : String) :
    Option (List UInt8) × ChannelHostState :=
  match s.attachmentData.lookup id with
  | some data =>
    (some data, { s with
      attachmentData := s.attachmentData.erase id
      attachmentDataTotal := s.attachmentDataTotal-data.length })
  | none => (none, s)

def validateWorkspacePath (workspacePrefix path : String) : Except String String :=
  if startsWith path "/" then .error "Absolute paths not allowed"
  else if contains path ".." then .error "Parent directory references not allowed"
  else if '\x00' ∈ path.toList then .error "Null bytes not allowed"
  else .ok (if workspacePrefix = "" then path else workspacePrefix ++ path)

def ChannelHostState.workspaceWrite (s : ChannelHostState) (path content : String) :
    Except WasmChannelError Unit × ChannelHostState :=
  match validateWorkspacePath s.workspacePrefix path with
  | .error reason => (.error (.workspaceEscape s.channelName reason), s)
  | .ok fullPath => (.ok (), { s with pendingWrites := s.pendingWrites++[⟨fullPath, content⟩] })

/-! ## Calls of the guest -/

structure InboundAttachment where
  id : String
  mimeType : String
  filename : Option String
  sizeBytes : Option UInt64
  sourceUrl : Option String
  storageKey : Option String
  extractedText : Option String
  extrasJson : String

structure GuestMessage where
  userId : String
  userName : Option String
  content : String
  threadId : Option String
  metadataJson : String
  attachments : List InboundAttachment

inductive Call where
  | log (level : LogLevel) (message : String) (now : ℕ)
  | emitMessage (msg : GuestMessage) (now : ℕ)
  | storeAttachmentData (attachmentId : String) (data : List UInt8)
  | workspaceWrite (path content : String)

section

variable (fromJson : String → Option Value)

def durationOf (extrasJson : String) : Option UInt32 :=
  let extras := if extrasJson = "" then none else fromJson extrasJson
  match extras.bind (fun v => v.get "duration_secs") with
  | some (.number (.posInt n)) => some n.toUInt32
  | _ => none

def merge (s : ChannelHostState) : List InboundAttachment → List Attachment × ChannelHostState
  | [] => ([], s)
  | a::rest =>
    let taken := s.removeAttachmentData a.id
    let merged := merge taken.2 rest
    (⟨a.id, a.mimeType, a.filename, a.sizeBytes, a.sourceUrl, a.storageKey, a.extractedText,
      taken.1.getD [], durationOf fromJson a.extrasJson⟩::merged.1, merged.2)

def emit (s : ChannelHostState) (msg : GuestMessage) (now : ℕ) : ChannelHostState :=
  let merged := merge fromJson s msg.attachments
  merged.2.emitMessage ⟨msg.userId, msg.userName, msg.content, msg.threadId, msg.metadataJson,
    merged.1, now⟩

def step : Call → Option ChannelHostState → Option ChannelHostState
  | _, none => none
  | .log level message now, some s =>
    (s.base.log level message now).map (fun base => { s with base := base })
  | .emitMessage msg now, some s => some (emit fromJson s msg now)
  | .storeAttachmentData id data, some s => some (s.storeAttachmentData id data).2
  | .workspaceWrite path content, some s => some (s.workspaceWrite path content).2

/-! ## What is kept -/

def isLog : Call → Bool
  | .log _ _ _ => true
  | _ => false

def isEmit : Call → Bool
  | .emitMessage _ _ => true
  | _ => false

def carried (msg : EmittedMessage) : ℕ := (msg.attachments.map (fun a => a.data.length)).sum

def delivered (s : ChannelHostState) (msg : EmittedMessage) : ℕ :=
  (msg.attachments.map
    (fun a => ((s.attachmentData.lookup a.id).getD a.data).length)).sum

structure Kept (logged emitted : ℕ) (s : ChannelHostState) : Prop where
  logs : s.base.logs.length ≤ maxLogEntries
  logsCounted : s.base.logs.length+s.base.logsDropped = logged
  emits : s.emittedMessages.length ≤ maxEmitsPerExecution
  emitsCounted : s.emittedMessages.length+s.emitsDropped = emitted
  total : s.attachmentDataTotal = weight List.length s.attachmentData
  bounded : s.attachmentDataTotal ≤ maxTotal
  messages : ∀ msg ∈ s.emittedMessages, carried msg ≤ maxAttachmentTotalSize

def LogFits : Call → Option ChannelHostState → Prop
  | .log _ message _, some s => s.base.loggingEnabled = true →
      s.base.logs.length < maxLogEntries → maxLogMessageBytes < byteLen message.toList →
      isBoundary message.toList maxLogMessageBytes = true
  | _, _ => True

def StoredBefore : Call → Option ChannelHostState → Prop
  | .storeAttachmentData id _, some s =>
      ∀ msg ∈ s.emittedMessages, ∀ a ∈ msg.attachments, a.id ≠ id
  | _, _ => True

def Released (s : ChannelHostState) : Prop :=
  ∀ msg ∈ s.emittedMessages, ∀ a ∈ msg.attachments, s.attachmentData.lookup a.id = none

/-! ## One call -/

theorem log_fits (h : HostState) (level : LogLevel) (message : String) (now : ℕ) :
    h.log level message now ≠ none ↔ (h.loggingEnabled = true →
      h.logs.length < maxLogEntries → maxLogMessageBytes < byteLen message.toList →
      isBoundary message.toList maxLogMessageBytes = true) := by
  unfold HostState.log sliceBytes
  cases h.loggingEnabled with
  | false => simp
  | true =>
    by_cases hfull : maxLogEntries ≤ h.logs.length
    · simp [hfull, Nat.not_lt.mpr hfull]
    · by_cases hlong : maxLogMessageBytes < byteLen message.toList
      · simp [hfull, hlong, Nat.lt_of_not_le hfull]
      · simp [hfull, hlong]

theorem log_counts (h h' : HostState) (level : LogLevel) (message : String) (now : ℕ)
    (hlog : h.log level message now = some h') (hmax : h.logs.length ≤ maxLogEntries) :
    h'.logs.length ≤ maxLogEntries ∧
      h'.logs.length+h'.logsDropped = h.logs.length+h.logsDropped+1 := by
  unfold HostState.log at hlog
  split at hlog
  · cases hlog
    exact ⟨hmax, by simp only; omega⟩
  · split at hlog
    · cases hlog
      exact ⟨hmax, by simp only; omega⟩
    · split at hlog
      · obtain ⟨truncated, -, rfl⟩ := Option.map_eq_some_iff.mp hlog
        simp only [List.length_append, List.length_singleton]
        omega
      · cases hlog
        simp only [List.length_append, List.length_singleton]
        omega

variable (s : ChannelHostState) (stored : Stored) (msg : EmittedMessage) (id : String)
  (data : List UInt8)

theorem data_le_size (a : Attachment) (h : stored.lookup a.id = none) :
    a.data.length ≤ sizeOf stored a := by
  unfold sizeOf
  rw [h]
  cases a.sizeBytes with
  | none => exact Nat.le_refl _
  | some reported => exact Nat.le_max_right _ _

theorem saturating_exact (a b limit : ℕ) (hlimit : limit < 2^64-1)
    (h : saturatingAdd a b ≤ limit) : saturatingAdd a b = a+b := by
  unfold saturatingAdd at *
  omega

theorem retain_sublist (atts : List Attachment) (total : ℕ) :
    (retain stored total atts).Sublist atts := by
  induction atts generalizing total with
  | nil => exact List.Sublist.refl _
  | cons a atts ih =>
    simp only [retain]
    split
    · exact (ih total).cons a
    · split
      · split
        · exact (ih _).cons a
        · exact (ih _).cons_cons a
      · exact (ih total).cons_cons a

/-- What is kept behind a total fits into the rest of the limit. -/
theorem retain_carried (atts : List Attachment) (total : ℕ)
    (h : ∀ a ∈ atts, stored.lookup a.id = none) :
    ((retain stored total atts).map (fun a => a.data.length)).sum ≤
      maxAttachmentTotalSize-total := by
  induction atts generalizing total with
  | nil => exact Nat.zero_le _
  | cons a atts ih =>
    have hdata := data_le_size stored a (h a List.mem_cons_self)
    have hrest := fun t => ih t (fun b hb => h b (List.mem_cons_of_mem a hb))
    simp only [retain]
    split
    · exact hrest total
    · split
      · split
        · rename_i hover
          have hnone := hrest (saturatingAdd total (sizeOf stored a))
          omega
        · rename_i hover
          have hsum := saturating_exact total (sizeOf stored a) maxAttachmentTotalSize
            (by decide) (by omega)
          have hnext := hrest (saturatingAdd total (sizeOf stored a))
          rw [List.map_cons, List.sum_cons]
          omega
      · have hnext := hrest total
        rw [List.map_cons, List.sum_cons]
        omega

theorem validated (h : ∀ a ∈ msg.attachments, stored.lookup a.id = none) :
    carried (validateAttachments stored msg) ≤ maxAttachmentTotalSize ∧
      ∀ a ∈ (validateAttachments stored msg).attachments, stored.lookup a.id = none := by
  unfold validateAttachments
  split
  · rename_i hempty
    rw [carried, List.isEmpty_iff.mp hempty]
    exact ⟨Nat.zero_le _, fun a ha => absurd ha List.not_mem_nil⟩
  · have htaken : ∀ a ∈ msg.attachments.take maxAttachmentsPerMessage,
        stored.lookup a.id = none := fun a ha => h a (List.mem_of_mem_take ha)
    refine ⟨retain_carried stored _ 0 htaken, ?_⟩
    intro a ha
    exact htaken a ((retain_sublist stored _ 0).subset ha)

theorem remove_eq :
    (s.removeAttachmentData id).2 = { s with
      attachmentData := s.attachmentData.erase id
      attachmentDataTotal :=
        s.attachmentDataTotal-((s.attachmentData.lookup id).map List.length).getD 0 } := by
  unfold ChannelHostState.removeAttachmentData
  cases h : s.attachmentData.lookup id with
  | some data => rfl
  | none =>
    have hkey : id ∉ s.attachmentData.entries.keys := AList.lookup_eq_none.mp h
    have hsame : s.attachmentData.erase id = s.attachmentData :=
      AList.ext (List.kerase_of_notMem_keys hkey)
    rw [hsame]
    rfl

/-- Taking the data of attachments changes the stored data alone, and leaves
none under their ids. -/
theorem merge_spec (atts : List InboundAttachment) (s : ChannelHostState)
    (h : s.attachmentDataTotal = weight List.length s.attachmentData) :
    ∃ table : Stored, (merge fromJson s atts).2 =
        { s with attachmentData := table, attachmentDataTotal := weight List.length table } ∧
      weight List.length table ≤ s.attachmentDataTotal ∧
      (∀ id, s.attachmentData.lookup id = none → table.lookup id = none) ∧
      ∀ a ∈ (merge fromJson s atts).1, table.lookup a.id = none := by
  induction atts generalizing s with
  | nil =>
    exact ⟨s.attachmentData, by rw [← h]; rfl, by omega, fun id hid => hid,
      fun a ha => absurd ha List.not_mem_nil⟩
  | cons a atts ih =>
    have hremoved := remove_eq s a.id
    have hweight := weight_erase List.length a.id s.attachmentData
    rw [h, ← hweight] at hremoved
    obtain ⟨table, hmerge, hle, hkept, hgone⟩ :=
      ih (s.removeAttachmentData a.id).2 (by rw [hremoved])
    have hwhole : (merge fromJson s (a::atts)).2 =
        { s with attachmentData := table, attachmentDataTotal := weight List.length table } := by
      show (merge fromJson (s.removeAttachmentData a.id).2 atts).2 = _
      rw [hmerge, hremoved]
    rw [hremoved] at hle hkept
    refine ⟨table, hwhole, by simp only at hle; omega, ?_, ?_⟩
    · intro id hid
      apply hkept
      by_cases heq : id = a.id
      · rw [heq]
        exact AList.lookup_erase a.id s.attachmentData
      · rw [AList.lookup_erase_ne heq]
        exact hid
    · intro b hb
      rcases List.mem_cons.mp hb with rfl | hb
      · exact hkept _ (AList.lookup_erase a.id s.attachmentData)
      · exact hgone b hb

/-- A message that is emitted is kept within its limit, or counted. -/
theorem emit_counts (hmax : s.emittedMessages.length ≤ maxEmitsPerExecution)
    (h : ∀ a ∈ msg.attachments, s.attachmentData.lookup a.id = none) :
    ∃ later, (s.emitMessage msg).emittedMessages = s.emittedMessages++later ∧
      (s.emitMessage msg).emittedMessages.length ≤ maxEmitsPerExecution ∧
      (s.emitMessage msg).emittedMessages.length+(s.emitMessage msg).emitsDropped =
        s.emittedMessages.length+s.emitsDropped+1 ∧
      ∀ m ∈ later, carried m ≤ maxAttachmentTotalSize ∧
        ∀ a ∈ m.attachments, s.attachmentData.lookup a.id = none := by
  have hvalid := validated s.attachmentData msg h
  unfold ChannelHostState.emitMessage
  split
  · exact ⟨[], (List.append_nil _).symm, hmax, by simp only; omega,
      fun m hm => absurd hm List.not_mem_nil⟩
  · split
    · exact ⟨[], (List.append_nil _).symm, hmax, by simp only; omega,
        fun m hm => absurd hm List.not_mem_nil⟩
    · refine ⟨_, rfl, by simp only [List.length_append, List.length_singleton]; omega,
        by simp only [List.length_append, List.length_singleton]; omega, ?_⟩
      intro m hm
      rw [List.mem_singleton] at hm
      split at hm
      · rw [hm]
        exact hvalid
      · rw [hm]
        exact hvalid

theorem emit_frame :
    (s.emitMessage msg).base = s.base ∧
      (s.emitMessage msg).attachmentData = s.attachmentData ∧
      (s.emitMessage msg).attachmentDataTotal = s.attachmentDataTotal := by
  unfold ChannelHostState.emitMessage
  split
  · exact ⟨rfl, rfl, rfl⟩
  · split
    · exact ⟨rfl, rfl, rfl⟩
    · exact ⟨rfl, rfl, rfl⟩

theorem kept_emit (logged emitted : ℕ) (s : ChannelHostState) (msg : GuestMessage) (now : ℕ)
    (h : Kept logged emitted s) : Kept logged (emitted+1) (emit fromJson s msg now) ∧
      (Released s → Released (emit fromJson s msg now)) := by
  obtain ⟨table, hmerge, hle, hkept, hgone⟩ := merge_spec fromJson msg.attachments s h.total
  have hframe := emit_frame (merge fromJson s msg.attachments).2
    ⟨msg.userId, msg.userName, msg.content, msg.threadId, msg.metadataJson,
      (merge fromJson s msg.attachments).1, now⟩
  have hcounts := emit_counts (merge fromJson s msg.attachments).2
    ⟨msg.userId, msg.userName, msg.content, msg.threadId, msg.metadataJson,
      (merge fromJson s msg.attachments).1, now⟩
  have hmax := h.emits
  have hcounted := h.emitsCounted
  have hbounded := h.bounded
  have htotal := h.total
  rw [hmerge] at hframe hcounts
  obtain ⟨later, hmessages, hfits, hcount, hlater⟩ := hcounts hmax hgone
  obtain ⟨hbase, hdata, hsize⟩ := hframe
  have hemit : emit fromJson s msg now =
      ({ s with attachmentData := table, attachmentDataTotal := weight List.length table } :
        ChannelHostState).emitMessage ⟨msg.userId, msg.userName, msg.content, msg.threadId,
          msg.metadataJson, (merge fromJson s msg.attachments).1, now⟩ := by
    rw [← hmerge]
    rfl
  rw [hemit]
  constructor
  · constructor
    · rw [hbase]
      exact h.logs
    · rw [hbase]
      exact h.logsCounted
    · exact hfits
    · rw [hcount]
      simp only
      omega
    · rw [hsize, hdata]
    · rw [hsize]
      simp only
      omega
    · intro m hm
      rw [hmessages] at hm
      rcases List.mem_append.mp hm with hold | hnew
      · exact h.messages m hold
      · exact (hlater m hnew).1
  · intro hreleased m hm a ha
    rw [hmessages] at hm
    rw [hdata]
    rcases List.mem_append.mp hm with hold | hnew
    · exact hkept a.id (hreleased m hold a ha)
    · exact (hlater m hnew).2 a ha

omit fromJson

/-- A store is refused, or it replaces what was under the id. -/
theorem store_cases :
    (∃ e, s.storeAttachmentData id data = (.error e, s)) ∨
      ∃ total, s.storeAttachmentData id data = (.ok (), { s with
          attachmentDataTotal := total
          attachmentData := s.attachmentData.insert id data }) ∧
        total = s.attachmentDataTotal-((s.attachmentData.lookup id).map List.length).getD 0+
          data.length ∧ total ≤ maxTotal := by
  unfold ChannelHostState.storeAttachmentData
  dsimp only
  split
  · exact Or.inl ⟨_, rfl⟩
  · split
    · exact Or.inl ⟨_, rfl⟩
    · rename_i hfits
      have hexact := saturating_exact
        (s.attachmentDataTotal-((s.attachmentData.lookup id).map List.length).getD 0)
        data.length maxTotal (by decide) (by omega)
      exact Or.inr ⟨_, rfl, hexact, by omega⟩

theorem store_refused (e : WasmChannelError) (h : (s.storeAttachmentData id data).1 = .error e) :
    (s.storeAttachmentData id data).2 = s := by
  rcases store_cases s id data with ⟨_, hstore⟩ | ⟨_, hstore, _⟩
  · rw [hstore]
  · rw [hstore] at h
    cases h

theorem kept_store (logged emitted : ℕ) (s : ChannelHostState) (id : String) (data : List UInt8)
    (h : Kept logged emitted s) : Kept logged emitted (s.storeAttachmentData id data).2 := by
  rcases store_cases s id data with ⟨_, hstore⟩ | ⟨total, hstore, htotal, hbounded⟩
  · rw [hstore]
    exact h
  · have hweight := weight_insert List.length id data s.attachmentData
    rw [weight_erase, ← h.total] at hweight
    rw [hstore]
    exact ⟨h.logs, h.logsCounted, h.emits, h.emitsCounted, htotal.trans hweight.symm, hbounded,
      h.messages⟩

theorem released_store (h : Released s)
    (hfresh : ∀ msg ∈ s.emittedMessages, ∀ a ∈ msg.attachments, a.id ≠ id) :
    Released (s.storeAttachmentData id data).2 := by
  rcases store_cases s id data with ⟨_, hstore⟩ | ⟨total, hstore, _⟩
  · rw [hstore]
    exact h
  · intro msg hmsg a ha
    rw [hstore] at hmsg ⊢
    show (s.attachmentData.insert id data).lookup a.id = none
    rw [AList.lookup_insert_ne (hfresh msg hmsg a ha)]
    exact h msg hmsg a ha

theorem write_frame (path content : String) :
    ∃ writes, (s.workspaceWrite path content).2 = { s with pendingWrites := writes } := by
  unfold ChannelHostState.workspaceWrite
  split
  · exact ⟨s.pendingWrites, rfl⟩
  · exact ⟨_, rfl⟩

end

/-! ## Runs -/

section

variable (fromJson : String → Option Value)

/-- One call, where it does not panic, counts and keeps the limits. -/
theorem kept_step (logged emitted : ℕ) (c : Call) (s s' : ChannelHostState)
    (h : Kept logged emitted s) (hstep : step fromJson c (some s) = some s') :
    Kept (logged+(if isLog c then 1 else 0)) (emitted+(if isEmit c then 1 else 0)) s' ∧
      (StoredBefore c (some s) → Released s → Released s') := by
  cases c with
  | log level message now =>
    obtain ⟨base, hlog, rfl⟩ := Option.map_eq_some_iff.mp hstep
    obtain ⟨hmax, hcount⟩ := log_counts s.base base level message now hlog h.logs
    rw [h.logsCounted] at hcount
    exact ⟨⟨hmax, hcount, h.emits, h.emitsCounted, h.total, h.bounded, h.messages⟩,
      fun _ hreleased => hreleased⟩
  | emitMessage msg now =>
    cases hstep
    obtain ⟨hkept, hreleased⟩ := kept_emit fromJson logged emitted s msg now h
    exact ⟨hkept, fun _ => hreleased⟩
  | storeAttachmentData id data =>
    cases hstep
    exact ⟨kept_store logged emitted s id data h,
      fun hfresh hreleased => released_store s id data hreleased hfresh⟩
  | workspaceWrite path content =>
    obtain ⟨writes, hwrite⟩ := write_frame s path content
    have hs : s' = { s with pendingWrites := writes } := by
      cases hstep
      exact hwrite
    rw [hs]
    exact ⟨⟨h.logs, h.logsCounted, h.emits, h.emitsCounted, h.total, h.bounded, h.messages⟩,
      fun _ hreleased => hreleased⟩

theorem step_panics (c : Call) (s : ChannelHostState) :
    step fromJson c (some s) ≠ none ↔ LogFits c (some s) := by
  cases c with
  | log level message now =>
    refine Iff.trans ?_ (log_fits s.base level message now)
    show Option.map _ _ ≠ none ↔ _
    rw [ne_eq, Option.map_eq_none_iff]
  | emitMessage msg now => simp [step, LogFits]
  | storeAttachmentData id data => simp [step, LogFits]
  | workspaceWrite path content => simp [step, LogFits]

theorem run_none (calls : List Call) : run (step fromJson) calls none = none := by
  induction calls with
  | nil => rfl
  | cons c calls ih => exact ih

/-- A run panics exactly at a log message that cannot be cut. -/
theorem run_panics (calls : List Call) (s : ChannelHostState) :
    run (step fromJson) calls (some s) ≠ none ↔
      Along (step fromJson) LogFits calls (some s) := by
  induction calls generalizing s with
  | nil => simp [run, Along]
  | cons c calls ih =>
    have hstep := step_panics fromJson c s
    show run (step fromJson) calls (step fromJson c (some s)) ≠ none ↔
      LogFits c (some s) ∧ Along (step fromJson) LogFits calls (step fromJson c (some s))
    rw [← hstep]
    cases hs : step fromJson c (some s) with
    | none => simp [run_none]
    | some s' => simp [ih s']

theorem kept_run (calls : List Call) (logged emitted : ℕ) (s s' : ChannelHostState)
    (h : Kept logged emitted s) (hrun : run (step fromJson) calls (some s) = some s') :
    Kept (logged+calls.countP isLog) (emitted+calls.countP isEmit) s' ∧
      (Along (step fromJson) StoredBefore calls (some s) → Released s → Released s') := by
  induction calls generalizing logged emitted s with
  | nil =>
    cases hrun
    exact ⟨h, fun _ hreleased => hreleased⟩
  | cons c calls ih =>
    have hrest : run (step fromJson) calls (step fromJson c (some s)) = some s' := hrun
    cases hs : step fromJson c (some s) with
    | none =>
      rw [hs, run_none] at hrest
      cases hrest
    | some t =>
      rw [hs] at hrest
      obtain ⟨hkept, hreleased⟩ := kept_step fromJson logged emitted c s t h hs
      obtain ⟨hlater, hend⟩ := ih _ _ t hkept hrest
      rw [List.countP_cons, List.countP_cons]
      refine ⟨by convert hlater using 1 <;> omega, ?_⟩
      rintro ⟨hfresh, halong⟩ hstart
      rw [hs] at halong
      exact hend halong (hreleased hfresh hstart)

theorem kept_new (channelName workspacePrefix : String) :
    Kept 0 0 (ChannelHostState.new channelName workspacePrefix) :=
  ⟨Nat.zero_le _, rfl, Nat.zero_le _, rfl, rfl, Nat.zero_le _,
    fun _ hmsg => absurd hmsg List.not_mem_nil⟩

theorem delivered_released (s : ChannelHostState) (msg : EmittedMessage)
    (h : ∀ a ∈ msg.attachments, s.attachmentData.lookup a.id = none) :
    delivered s msg = carried msg := by
  unfold delivered carried
  congr 1
  apply List.map_congr_left
  intro a ha
  rw [h a ha]
  rfl

/-- A guest keeps to all limits in every run, and no call panics, exactly when
its log messages fit or can be cut; what is delivered in place of the data of
the attachments fits as well where everything was stored before. -/
theorem guest_contained (channelName workspacePrefix : String) (calls : List Call) :
    (Along (step fromJson) LogFits calls (some (.new channelName workspacePrefix)) ↔
      ∃ s, run (step fromJson) calls (some (.new channelName workspacePrefix)) = some s ∧
        Kept (calls.countP isLog) (calls.countP isEmit) s) ∧
      (Along (step fromJson) StoredBefore calls (some (.new channelName workspacePrefix)) →
        ∀ s, run (step fromJson) calls (some (.new channelName workspacePrefix)) = some s →
          ∀ msg ∈ s.emittedMessages, delivered s msg ≤ maxAttachmentTotalSize) ∧
      ∀ (s : ChannelHostState) id data e, (s.storeAttachmentData id data).1 = .error e →
        (s.storeAttachmentData id data).2 = s := by
  have hnew := kept_new channelName workspacePrefix
  have hruns := fun s hrun =>
    kept_run fromJson calls 0 0 (.new channelName workspacePrefix) s hnew hrun
  simp only [Nat.zero_add] at hruns
  refine ⟨?_, ?_, store_refused⟩
  · rw [← run_panics]
    constructor
    · intro hsome
      obtain ⟨s, hrun⟩ := Option.ne_none_iff_exists'.mp hsome
      exact ⟨s, hrun, (hruns s hrun).1⟩
    · rintro ⟨s, hrun, -⟩
      rw [hrun]
      exact Option.some_ne_none s
  · intro hfresh s hrun msg hmsg
    have hnone : Released (ChannelHostState.new channelName workspacePrefix) :=
      fun _ hin => absurd hin List.not_mem_nil
    obtain ⟨hkept, hreleased⟩ := hruns s hrun
    rw [delivered_released s msg (hreleased hfresh hnone msg hmsg)]
    exact hkept.messages msg hmsg

def straddling (n : ℕ) : String := String.ofList (List.replicate n 'a'++['\u00e9'])

theorem straddling_torn (n : ℕ) : byteLen (straddling n).toList = n+2 ∧
    isBoundary (straddling n).toList (n+1) = false := by
  have hnarrow : ∀ c ∈ List.replicate n 'a', c.utf8Size = 1 := by
    intro c hc
    rw [List.eq_of_mem_replicate hc]
    rfl
  have hlen := (byteLen_ascii _ hnarrow).trans List.length_replicate
  have hpast := boundary_past (List.replicate n 'a') ['\u00e9'] 1
  rw [hlen] at hpast
  rw [straddling, String.toList_ofList, byteLen_append, hlen]
  exact ⟨rfl, hpast.trans (by decide)⟩

/-- One log message ends the callback in a panic. -/
theorem log_panics :
    run (step fun _ => none) [.log .info (straddling 4095) 0]
      (some (.new "telegram" "channels/")) = none := by
  by_contra hrun
  obtain ⟨hlen, htorn⟩ := straddling_torn 4095
  have halong := (run_panics (fun _ => none) _ (.new "telegram" "channels/")).mp hrun
  have hlong : maxLogMessageBytes < byteLen (straddling 4095).toList := by
    rw [hlen]
    exact Nat.lt_succ_self 4096
  have hfits := halong.1 rfl (Nat.zero_lt_succ 999) hlong
  exact absurd (hfits.symm.trans htorn) (by decide)

end

end IronClaw.ChannelHost
