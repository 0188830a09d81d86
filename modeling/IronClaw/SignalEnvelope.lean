import IronClaw.AllowList
import IronClaw.Submission

/-!
# Who reaches the agent over Signal

An envelope of the Signal daemon becomes a message to the agent, or is dropped,
by the policies of `channels/signal.rs`. Unknown senders of direct messages ask
for pairing in the pairing store. UUIDs and the reader of JSON are parameters.
-/

set_option autoImplicit false

namespace IronClaw.SignalEnvelope
open IronClaw.JsonValue IronClaw.LlmMessage IronClaw.Submission IronClaw.PairingStore
open IronClaw.AllowList Lib.Text

structure GroupInfo where
  groupId : Option String
  deriving DecidableEq

structure DataMessage where
  message : Option String
  timestamp : Option UInt64
  groupInfo : Option GroupInfo
  attachments : Option (List Value)
  deriving DecidableEq

structure Envelope where
  source : Option String
  sourceNumber : Option String
  sourceName : Option String
  sourceUuid : Option String
  dataMessage : Option DataMessage
  storyMessage : Option Value
  timestamp : Option UInt64
  deriving DecidableEq

structure SseEnvelope where
  envelope : Option Envelope

structure SignalConfig where
  account : String
  allowFrom : List String
  allowFromGroups : List String
  dmPolicy : String
  groupPolicy : String
  groupAllowFrom : List String
  ignoreAttachments : Bool
  ignoreStories : Bool

structure Incoming extends IncomingMessage where
  id : Uuid
  ownerId : String
  senderId : String
  userName : Option String
  deriving DecidableEq

inductive RecipientTarget where
  | direct (id : String)
  | group (groupId : String)
  deriving DecidableEq

structure Rpc where
  method : String
  params : Value
  deriving DecidableEq

structure Crates where
  platform : Platform
  parseUuid : String → Option Uuid
  newV5 : String → Uuid
  fromStr : List Char → Option SseEnvelope

structure Reading where
  clock : Clock
  draws : Draws
  millis : UInt64
  messageId : Uuid
  listening : Bool

def IncomingMessage.new (channel userId content : String) (id : Uuid) : Incoming :=
  ⟨⟨channel, userId, content, none, none, .null, false⟩, id, userId, userId, none⟩

def Incoming.withThread (m : Incoming) (threadId : String) : Incoming :=
  { m with conversationScopeId := some threadId, threadId := some threadId }

def Incoming.withMetadata (m : Incoming) (metadata : Value) : Incoming :=
  { m with metadata := metadata }

def Incoming.withUserName (m : Incoming) (name : String) : Incoming :=
  { m with userName := some name }

def Envelope.sender (e : Envelope) : Option String := e.sourceNumber.or e.source

def DataMessage.groupId (data : DataMessage) : Option String :=
  data.groupInfo.bind GroupInfo.groupId

def DataMessage.hasAttachments (data : DataMessage) : Bool :=
  data.attachments.any (fun list => !list.isEmpty)

def DataMessage.hasMessageText (data : DataMessage) : Bool :=
  data.message.any (fun text => decide (text ≠ ""))

def DataMessage.text (data : DataMessage) : Option String :=
  (data.message.filter (fun text => decide (text ≠ ""))).or
    (if data.hasAttachments then some "[Attachment]" else none)

def normalizeAllowEntry (entry : String) : String := (stripPrefix entry "uuid:").getD entry

def names (list : List String) (sender : String) : Bool :=
  list.any (fun entry => entry = "*" || normalizeAllowEntry entry = normalizeAllowEntry sender)

section

variable (cfg : SignalConfig)

def isSenderAllowed (sender : String) : Bool :=
  if cfg.allowFrom.isEmpty then false else names cfg.allowFrom sender

def effectiveGroupAllowFrom : List String :=
  if cfg.groupAllowFrom.isEmpty then cfg.allowFrom else cfg.groupAllowFrom

def isGroupAllowed (groupId : String) : Bool :=
  if cfg.allowFromGroups.isEmpty then false
  else cfg.allowFromGroups.any (fun entry => entry = "*" || entry = groupId)

def isGroupSenderAllowed (sender : String) : Bool :=
  if (effectiveGroupAllowFrom cfg).isEmpty then false
  else names (effectiveGroupAllowFrom cfg) sender

def passesGroupPolicy (groupId sender : String) : Bool :=
  if cfg.groupPolicy = "disabled" then false
  else if cfg.groupPolicy = "open" then isGroupAllowed cfg groupId
  else if cfg.groupPolicy = "allowlist" then
    isGroupAllowed cfg groupId && isGroupSenderAllowed cfg sender
  else true

end

def isE164 (recipient : String) : Bool :=
  match stripPrefix recipient "+" with
  | none => false
  | some number =>
    7 ≤ byteLen number.toList && byteLen number.toList ≤ 15 && number.toList.all Char.isDigit

section

variable (crates : Crates)

def parseRecipientTarget (recipient : String) : RecipientTarget :=
  match stripPrefix recipient "group:" with
  | some groupId => .group groupId
  | none =>
    if isE164 recipient || (crates.parseUuid recipient).isSome then .direct recipient
    else .group recipient

def replyTarget (data : DataMessage) (sender : String) : String :=
  match data.groupId with
  | some groupId => "group:" ++ groupId
  | none => sender

def threadIdFromIdentifier (identifier : String) : String := uuidText (crates.newV5 identifier)

end

section

variable (cfg : SignalConfig)

def buildRpcParams (target : RecipientTarget) (message : Option String)
    (attachments : Option (List String)) : Value :=
  let start := match target with
    | .direct id => [("account", .string cfg.account), ("recipient", .array [.string id])]
    | .group groupId => [("account", .string cfg.account), ("groupId", .string groupId)]
  let texted := match message with
    | some text => insert "message" (.string text) start
    | none => start
  match attachments with
  | some (path::paths) => .object (insert "attachments" (.array ((path::paths).map .string)) texted)
  | _ => .object texted

end

section

variable (crates : Crates) (cfg : SignalConfig)

def sendPairingReply (recipient message : String) : Rpc :=
  ⟨"send", buildRpcParams cfg (parseRecipientTarget crates recipient) (some message) none⟩

def handlePairingRequest (sender : String) (sourceName : Option String) (r : Reading) (s : Store) :
    Option Rpc × Store :=
  let metadata := Value.object
    [("name", (sourceName.map .string).getD .null), ("sender", .string sender)]
  match upsertRequest crates.platform "signal" sender (some metadata) r.clock r.draws s with
  | (.ok result, s') =>
    if result.created then
      (some (sendPairingReply crates cfg sender
        ("To pair with this bot, run: `ironclaw pairing approve signal " ++ result.code ++ "`")), s')
    else (none, s')
  | (.error _, s') => (none, s')

def isSenderAllowedWithPairing (sender : String) (s : Store) : Bool :=
  if isSenderAllowed cfg sender then true
  else match readAllowFrom crates.platform "signal" s with
    | .ok allowed => allowed.any (fun entry => entry = "*" || entry = sender)
    | .error _ => false

def passesDmPolicy (sender : String) (s : Store) : Bool :=
  if cfg.dmPolicy = "open" then true
  else if cfg.dmPolicy = "pairing" then isSenderAllowedWithPairing crates cfg sender s
  else if cfg.dmPolicy = "allowlist" then isSenderAllowed cfg sender
  else true

def threadOf (e : Envelope) (data : DataMessage) (sender : String) : String :=
  if data.groupInfo.isSome then threadIdFromIdentifier crates (replyTarget data sender)
  else match e.sourceUuid with
    | some uuid => uuid
    | none => threadIdFromIdentifier crates sender

def signalMetadata (e : Envelope) (data : DataMessage) (sender : String) (millis : UInt64) :
    Value :=
  .object [("signal_sender", .string sender),
    ("signal_sender_uuid", (e.sourceUuid.map .string).getD .null),
    ("signal_target", .string (replyTarget data sender)),
    ("signal_timestamp", .number (.posInt ((data.timestamp.or e.timestamp).getD millis)))]

def received (e : Envelope) (data : DataMessage) (text sender : String) (r : Reading) : Incoming :=
  let msg := (IncomingMessage.new "signal" sender text r.messageId).withMetadata
    (signalMetadata e data sender r.millis)
  let named := match e.sourceName with
    | some name => if name = "" then msg else msg.withUserName name
    | none => msg
  named.withThread (threadOf crates e data sender)

def processEnvelope (e : Envelope) (r : Reading) (s : Store) :
    Option (Incoming × String) × Option Rpc × Store :=
  if cfg.ignoreStories && e.storyMessage.isSome then (none, none, s)
  else match e.dataMessage with
  | none => (none, none, s)
  | some data =>
    if cfg.ignoreAttachments && data.hasAttachments && !data.hasMessageText then (none, none, s)
    else match data.text, e.sender with
    | some text, some sender =>
      let message := (received crates e data text sender r, replyTarget data sender)
      match data.groupId with
      | some groupId =>
        if passesGroupPolicy cfg groupId sender then (some message, none, s) else (none, none, s)
      | none =>
        if passesDmPolicy crates cfg sender s then (some message, none, s)
        else if cfg.dmPolicy = "pairing" then
          (none, handlePairingRequest crates cfg sender e.sourceName r s)
        else (none, none, s)
    | _, _ => (none, none, s)

end

def Named (list : List String) (sender : String) : Prop :=
  "*" ∈ list ∨ ∃ entry ∈ list, normalizeAllowEntry entry = normalizeAllowEntry sender

structure Admits (cfg : SignalConfig) (paired : String → Prop) (groupId : Option String)
    (sender : String) : Prop where
  group : ∀ g, groupId = some g → cfg.groupPolicy ≠ "disabled" ∧
    (cfg.groupPolicy = "open" ∨ cfg.groupPolicy = "allowlist" →
      "*" ∈ cfg.allowFromGroups ∨ g ∈ cfg.allowFromGroups) ∧
    (cfg.groupPolicy = "allowlist" → Named (effectiveGroupAllowFrom cfg) sender)
  direct : groupId = none →
    (cfg.dmPolicy = "allowlist" → Named cfg.allowFrom sender) ∧
    (cfg.dmPolicy = "pairing" → Named cfg.allowFrom sender ∨ paired "*" ∨ paired sender)

structure Accepted (cfg : SignalConfig) (paired : String → Prop) (e : Envelope)
    (data : DataMessage) (text sender : String) : Prop where
  story : cfg.ignoreStories = true → e.storyMessage = none
  holds : e.dataMessage = some data
  content : data.text = some text
  writer : e.sender = some sender
  admits : Admits cfg paired data.groupId sender

theorem names_named (list : List String) (sender : String) (h : names list sender = true) :
    Named list sender := by
  obtain ⟨entry, hentry, hsame⟩ := List.any_eq_true.mp h
  rcases (Bool.or_eq_true _ _).mp hsame with hstar | hbare
  · exact .inl (of_decide_eq_true hstar ▸ hentry)
  · exact .inr ⟨entry, hentry, of_decide_eq_true hbare⟩

variable (crates : Crates) (cfg : SignalConfig) (sender : String)

theorem isSenderAllowed_named (h : isSenderAllowed cfg sender = true) :
    Named cfg.allowFrom sender := by
  rw [isSenderAllowed] at h
  split at h
  · cases h
  · exact names_named _ _ h

theorem isGroupSenderAllowed_named (h : isGroupSenderAllowed cfg sender = true) :
    Named (effectiveGroupAllowFrom cfg) sender := by
  rw [isGroupSenderAllowed] at h
  split at h
  · cases h
  · exact names_named _ _ h

theorem isGroupAllowed_listed (groupId : String) (h : isGroupAllowed cfg groupId = true) :
    "*" ∈ cfg.allowFromGroups ∨ groupId ∈ cfg.allowFromGroups := by
  rw [isGroupAllowed] at h
  split at h
  · cases h
  · obtain ⟨entry, hentry, hsame⟩ := List.any_eq_true.mp h
    rcases (Bool.or_eq_true _ _).mp hsame with hstar | heq
    · exact .inl (of_decide_eq_true hstar ▸ hentry)
    · exact .inr (of_decide_eq_true heq ▸ hentry)

def onList (crates : Crates) (s : Store) (sender : String) : Prop :=
  ∃ key, safeChannelKey crates.platform "signal" = .ok key ∧ sender ∈ allowList s key

theorem withPairing_named (s : Store) (h : isSenderAllowedWithPairing crates cfg sender s = true) :
    Named cfg.allowFrom sender ∨ onList crates s "*" ∨ onList crates s sender := by
  rw [isSenderAllowedWithPairing] at h
  split at h
  · next hconfig => exact .inl (isSenderAllowed_named cfg sender hconfig)
  · right
    unfold readAllowFrom at h
    cases hkey : safeChannelKey crates.platform "signal" with
    | error e =>
      rw [hkey] at h
      cases h
    | ok key =>
      rw [hkey] at h
      obtain ⟨entry, hentry, hsame⟩ := List.any_eq_true.mp h
      rcases (Bool.or_eq_true _ _).mp hsame with hstar | heq
      · exact .inl ⟨key, hkey, of_decide_eq_true hstar ▸ hentry⟩
      · exact .inr ⟨key, hkey, of_decide_eq_true heq ▸ hentry⟩

theorem group_admits (s : Store) (groupId sender : String)
    (h : passesGroupPolicy cfg groupId sender = true) :
    Admits cfg (onList crates s) (some groupId) sender := by
  refine ⟨fun g hg => ?_, fun hnone => (nomatch hnone)⟩
  obtain rfl := Option.some.inj hg
  unfold passesGroupPolicy at h
  split at h
  · cases h
  · next hdisabled =>
    refine ⟨hdisabled, fun hlisted => ?_, fun hallow => ?_⟩
    · split at h
      · exact isGroupAllowed_listed cfg groupId h
      · next hopen =>
        rw [if_pos (hlisted.resolve_left hopen)] at h
        exact isGroupAllowed_listed cfg groupId ((Bool.and_eq_true _ _).mp h).1
    · rw [if_neg (by rw [hallow]; decide), if_pos hallow] at h
      exact isGroupSenderAllowed_named cfg sender ((Bool.and_eq_true _ _).mp h).2

theorem direct_admits (s : Store) (sender : String)
    (h : passesDmPolicy crates cfg sender s = true) :
    Admits cfg (onList crates s) none sender := by
  refine ⟨fun g hg => (nomatch hg), fun _ => ⟨fun hallow => ?_, fun hpairing => ?_⟩⟩
  · rw [passesDmPolicy, hallow] at h
    exact isSenderAllowed_named cfg sender h
  · rw [passesDmPolicy, hpairing] at h
    exact withPairing_named crates cfg sender s h

/-- What an envelope does: it is accepted and changes nothing else, or it
gives no message and at most asks for pairing. -/
theorem processEnvelope_cases (e : Envelope) (r : Reading) (s : Store) :
    (∃ data text sender, Accepted cfg (onList crates s) e data text sender ∧
      processEnvelope crates cfg e r s =
        (some (received crates e data text sender r, replyTarget data sender), none, s)) ∨
    (∃ reply, processEnvelope crates cfg e r s = (none, reply, s)) ∨
    ∃ sender reply, processEnvelope crates cfg e r s =
      (none, reply, (handlePairingRequest crates cfg sender e.sourceName r s).2) := by
  unfold processEnvelope
  split
  · exact .inr (.inl ⟨none, rfl⟩)
  · next hstory =>
    have hfree : cfg.ignoreStories = true → e.storyMessage = none := by
      intro hignore
      rw [hignore, Bool.true_and] at hstory
      exact Option.not_isSome_iff_eq_none.mp hstory
    split
    · exact .inr (.inl ⟨none, rfl⟩)
    · next data hdata =>
      split
      · exact .inr (.inl ⟨none, rfl⟩)
      · split
        · next text sender htext hsender =>
          dsimp only
          split
          · next groupId hgroup =>
            split
            · next hpass =>
              exact .inl ⟨data, text, sender, ⟨hfree, hdata, htext, hsender,
                hgroup ▸ group_admits crates cfg s groupId sender hpass⟩, rfl⟩
            · exact .inr (.inl ⟨none, rfl⟩)
          · next hgroup =>
            split
            · next hpass =>
              exact .inl ⟨data, text, sender, ⟨hfree, hdata, htext, hsender,
                hgroup ▸ direct_admits crates cfg s sender hpass⟩, rfl⟩
            · split
              · exact .inr (.inr ⟨sender, _, rfl⟩)
              · exact .inr (.inl ⟨none, rfl⟩)
        · exact .inr (.inl ⟨none, rfl⟩)

theorem handlePairingRequest_store (sourceName : Option String) (r : Reading) (s : Store) :
    ∃ metadata, (handlePairingRequest crates cfg sender sourceName r s).2 =
      (upsertRequest crates.platform "signal" sender metadata r.clock r.draws s).2 := by
  refine ⟨some (.object [("name", (sourceName.map .string).getD .null),
    ("sender", .string sender)]), ?_⟩
  unfold handlePairingRequest
  dsimp only
  split
  · next result s' heq =>
    rw [heq]
    split <;> rfl
  · next err s' heq => rw [heq]

theorem received_target (e : Envelope) (data : DataMessage) (text sender : String) (r : Reading) :
    ((received crates e data text sender r).metadata.get "signal_target").bind Value.asStr =
      some (replyTarget data sender) := by
  have hmetadata : (received crates e data text sender r).metadata =
      signalMetadata e data sender r.millis := by
    unfold received
    dsimp only
    split
    · split <;> rfl
    · rfl
  rw [hmetadata]
  simp [signalMetadata, Value.get, lookup, Value.asStr]

theorem received_id (e : Envelope) (data : DataMessage) (text sender : String) (r : Reading) :
    (received crates e data text sender r).id = r.messageId := by
  unfold received
  dsimp only
  split
  · split <;> rfl
  · rfl

end IronClaw.SignalEnvelope
