import IronClaw.SignalEnvelope

/-!
# Listening and answering over Signal

The event stream of `channels/signal.rs`, read line by line: data lines collect
into an event, an empty line ends it, and the message of its envelope goes to
the agent. Senders are paired meanwhile, and the agent responds. The reply
target of a message is kept in a bounded cache and in the message itself.
-/

set_option autoImplicit false

namespace IronClaw.SignalListener
open IronClaw.JsonValue IronClaw.LlmMessage IronClaw.Submission IronClaw.PairingStore
open IronClaw.AllowList IronClaw.SignalEnvelope Lib.Text Lib.Runs

def maxSseEventSize : ℕ := 256*1024

def maxReplyTargets : ℕ := 10000

abbrev LruCache := List (Uuid × String)

def LruCache.put (cache : LruCache) (id : Uuid) (target : String) : LruCache :=
  ((id, target)::cache.filter (fun entry => entry.1 ≠ id)).take maxReplyTargets

def LruCache.peek (cache : LruCache) (id : Uuid) : Option String :=
  (cache.find? (fun entry => entry.1 = id)).map Prod.snd

def LruCache.pop (cache : LruCache) (id : Uuid) : LruCache :=
  cache.filter (fun entry => entry.1 ≠ id)

structure Sent where
  number : ℕ
  envelope : Envelope
  message : Incoming
  target : String
  deriving DecidableEq

structure Listener where
  currentData : List Char
  debug : Bool
  targets : LruCache
  ledger : Ledger
  seen : ℕ
  sent : List Sent
  rpcs : List Rpc
  returned : Bool

def fresh : Listener := ⟨[], false, [], PairingStore.fresh, 0, [], [], false⟩

inductive Event where
  | line (text : List Char)
  | ended
  | pairing (op : Op)
  | respond (n : ℕ) (content : String) (attachments : List String)

section

variable (crates : Crates) (cfg : SignalConfig) (readings : ℕ → Reading) (validPath : String → Bool)

def isDebugCommand (content : String) : Bool :=
  decide (crates.platform.toLowercase (trim content) = "/debug")

def debugResponse (newState : Bool) : String :=
  if newState then "Debug mode enabled. Tool execution will be shown in chat."
  else "Debug mode disabled. Tool execution will be hidden from chat."

def Listener.read (s : Listener) (reply : Option Rpc) (store : Store) : Listener :=
  { s with
    ledger := { s.ledger with store := store }
    seen := s.seen+1
    rpcs := s.rpcs++reply.toList }

def Listener.remember (s : Listener) (message : Incoming) (target : String) : Listener :=
  { s with targets := s.targets.put message.id target }

def Listener.send (s : Listener) (x : Sent) : Listener := { s with sent := s.sent++[x] }

def Listener.clear (s : Listener) : Listener := { s with currentData := [] }

def Listener.toggleDebug (s : Listener) (target : String) : Listener :=
  { s with
    debug := !s.debug
    rpcs := s.rpcs++[⟨"send", buildRpcParams cfg (parseRecipientTarget crates target)
      (some (debugResponse (!s.debug))) none⟩] }

def dispatch (s : Listener) : Listener :=
  if s.currentData = [] then s
  else match (crates.fromStr s.currentData).bind SseEnvelope.envelope with
  | none => s.clear
  | some e =>
    match processEnvelope crates cfg e (readings s.seen) s.ledger.store with
    | (none, reply, store) => (s.read reply store).clear
    | (some (message, target), reply, store) =>
      let s' := s.read reply store
      if isDebugCommand crates message.content then s'.toggleDebug crates cfg target
      else if (readings s.seen).listening then
        ((s'.remember message target).send ⟨s.seen, e, message, target⟩).clear
      else { s'.remember message target with returned := true }

def trailing (s : Listener) : Listener :=
  if s.currentData = [] then s
  else match (crates.fromStr s.currentData).bind SseEnvelope.envelope with
  | none => s.clear
  | some e =>
    match processEnvelope crates cfg e (readings s.seen) s.ledger.store with
    | (none, reply, store) => (s.read reply store).clear
    | (some (message, target), reply, store) =>
      let s' := (s.read reply store).remember message target
      if (readings s.seen).listening then (s'.send ⟨s.seen, e, message, target⟩).clear
      else s'.clear

def collect (s : Listener) (data : List Char) : Listener :=
  if maxSseEventSize < byteLen s.currentData+byteLen data then s.clear
  else { s with currentData :=
    s.currentData++(if s.currentData = [] then [] else ['\n'])++data.dropWhile isWhitespace }

def onLine (text : List Char) (s : Listener) : Listener :=
  if [':'].isPrefixOf text then s
  else if text = [] then dispatch crates cfg readings s
  else if "data:".toList.isPrefixOf text then collect s (text.drop "data:".toList.length)
  else s

def respondTarget (s : Listener) (m : Incoming) : String :=
  ((s.targets.peek m.id).or ((m.metadata.get "signal_target").bind Value.asStr)).getD m.userId

def sendWithAttachments (target : RecipientTarget) (content : String) (attachments : List String) :
    Option Rpc :=
  if attachments.all validPath then
    if attachments = [] then some ⟨"send", buildRpcParams cfg target (some content) none⟩
    else if content = "" then some ⟨"send", buildRpcParams cfg target none (some attachments)⟩
    else some ⟨"send", buildRpcParams cfg target (some content) (some attachments)⟩
  else none

def respond (m : Incoming) (content : String) (attachments : List String) (s : Listener) :
    Listener :=
  { s with
    rpcs := s.rpcs++(sendWithAttachments cfg validPath
      (parseRecipientTarget crates (respondTarget s m)) content attachments).toList
    targets := s.targets.pop m.id }

def step : Event → Listener → Listener
  | .line text, s => if s.returned then s else onLine crates cfg readings text s
  | .ended, s => if s.returned then s else trailing crates cfg readings s
  | .pairing op, s => { s with ledger := PairingStore.step crates.platform op s.ledger }
  | .respond n content attachments, s =>
    match s.sent[n]? with
    | some x => respond crates cfg validPath x.message content attachments s
    | none => s

end

def Paired (crates : Crates) (l : Ledger) (sender : String) : Prop :=
  ∃ key, safeChannelKey crates.platform "signal" = .ok key ∧ sender ∈ approvedOn l key

structure Heard (crates : Crates) (cfg : SignalConfig) (readings : ℕ → Reading)
    (paired : String → Prop) (x : Sent) (data : DataMessage) (text sender : String) : Prop where
  accepted : Accepted cfg paired x.envelope data text sender
  message : x.message = received crates x.envelope data text sender (readings x.number)
  target : x.target = replyTarget data sender

inductive Moves (crates : Crates) (cfg : SignalConfig) (readings : ℕ → Reading)
    (s s' : Listener) : Prop where
  | stays (sent : s'.sent = s.sent) (targets : s'.targets ⊆ s.targets)
      (ledger : s'.ledger = s.ledger) (seen : s'.seen = s.seen)
  | reads (op : Op) (sent : s'.sent = s.sent) (targets : s'.targets = s.targets)
      (ledger : s'.ledger = s.ledger ∨ s'.ledger = PairingStore.step crates.platform op s.ledger)
      (seen : s'.seen = s.seen+1)
  | hears (x : Sent) (data : DataMessage) (text sender : String) (number : x.number = s.seen)
      (heard : Heard crates cfg readings (onList crates s.ledger.store) x data text sender)
      (sent : s'.sent = s.sent ∨ s'.sent = s.sent++[x])
      (targets : s'.targets = s.targets ∨ s'.targets = s.targets.put x.message.id x.target)
      (ledger : s'.ledger = s.ledger) (seen : s'.seen = s.seen+1)
  | pairs (op : Op) (sent : s'.sent = s.sent) (targets : s'.targets = s.targets)
      (ledger : s'.ledger = PairingStore.step crates.platform op s.ledger)
      (seen : s'.seen = s.seen)

section

variable (crates : Crates) (cfg : SignalConfig) (readings : ℕ → Reading) (validPath : String → Bool)

theorem moves_same (s s' : Listener) (hsent : s'.sent = s.sent) (htargets : s'.targets = s.targets)
    (hledger : s'.ledger = s.ledger) (hseen : s'.seen = s.seen) :
    Moves crates cfg readings s s' :=
  .stays hsent (by rw [htargets]; exact List.Subset.refl _) hledger hseen

theorem ledger_asks (sender : String) (sourceName : Option String) (r : Reading) (l : Ledger) :
    ∃ op, { l with store := (handlePairingRequest crates cfg sender sourceName r l.store).2 } =
      PairingStore.step crates.platform op l := by
  obtain ⟨metadata, hstore⟩ := handlePairingRequest_store crates cfg sender sourceName r l.store
  refine ⟨.upsertRequest "signal" sender metadata r.clock r.draws, ?_⟩
  simp only [hstore, PairingStore.step, approval, apply, Option.toList_none, List.append_nil]

/-- An envelope that gives no message. -/
theorem moves_read (e : Envelope) (s s' : Listener) (reply : Option Rpc) (store : Store)
    (h : processEnvelope crates cfg e (readings s.seen) s.ledger.store = (none, reply, store))
    (hs : s' = (s.read reply store).clear) : Moves crates cfg readings s s' := by
  subst hs
  rcases processEnvelope_cases crates cfg e (readings s.seen) s.ledger.store with
    ⟨data, text, sender, -, heq⟩ | ⟨reply', heq⟩ | ⟨sender, reply', heq⟩
  · rw [h] at heq
    cases heq
  · rw [h] at heq
    obtain ⟨-, rfl⟩ := Prod.mk.inj (Prod.mk.inj heq).2
    exact .reads (.readAllowFrom "") rfl rfl (.inl rfl) rfl
  · rw [h] at heq
    obtain ⟨-, rfl⟩ := Prod.mk.inj (Prod.mk.inj heq).2
    obtain ⟨op, hop⟩ := ledger_asks crates cfg sender e.sourceName (readings s.seen) s.ledger
    exact .reads op rfl rfl (.inr hop) rfl

/-- An envelope that gives a message. -/
theorem heard_read (e : Envelope) (s : Listener) (message : Incoming) (target : String)
    (reply : Option Rpc) (store : Store)
    (h : processEnvelope crates cfg e (readings s.seen) s.ledger.store =
      (some (message, target), reply, store)) :
    store = s.ledger.store ∧ ∃ data text sender, Heard crates cfg readings
      (onList crates s.ledger.store) ⟨s.seen, e, message, target⟩ data text sender := by
  rcases processEnvelope_cases crates cfg e (readings s.seen) s.ledger.store with
    ⟨data, text, sender, haccepted, heq⟩ | ⟨reply', heq⟩ | ⟨sender, reply', heq⟩
  · rw [h] at heq
    obtain ⟨hmessage, hrest⟩ := Prod.mk.inj heq
    obtain ⟨rfl, rfl⟩ := Prod.mk.inj (Option.some.inj hmessage)
    exact ⟨(Prod.mk.inj hrest).2, data, text, sender, haccepted, rfl, rfl⟩
  · rw [h] at heq
    cases heq
  · rw [h] at heq
    cases heq

theorem dispatch_moves (s : Listener) :
    Moves crates cfg readings s (dispatch crates cfg readings s) := by
  unfold dispatch
  split
  · exact moves_same crates cfg readings s s rfl rfl rfl rfl
  · split
    · exact moves_same crates cfg readings s _ rfl rfl rfl rfl
    · next e _ =>
      split
      · next reply store h => exact moves_read crates cfg readings e s _ reply store h rfl
      · next message target reply store h =>
        obtain ⟨rfl, data, text, sender, hheard⟩ :=
          heard_read crates cfg readings e s message target reply store h
        dsimp only
        split
        · exact .hears _ data text sender rfl hheard (.inl rfl) (.inl rfl) rfl rfl
        · split
          · exact .hears _ data text sender rfl hheard (.inr rfl) (.inr rfl) rfl rfl
          · exact .hears _ data text sender rfl hheard (.inl rfl) (.inr rfl) rfl rfl

theorem trailing_moves (s : Listener) :
    Moves crates cfg readings s (trailing crates cfg readings s) := by
  unfold trailing
  split
  · exact moves_same crates cfg readings s s rfl rfl rfl rfl
  · split
    · exact moves_same crates cfg readings s _ rfl rfl rfl rfl
    · next e _ =>
      split
      · next reply store h => exact moves_read crates cfg readings e s _ reply store h rfl
      · next message target reply store h =>
        obtain ⟨rfl, data, text, sender, hheard⟩ :=
          heard_read crates cfg readings e s message target reply store h
        dsimp only
        split
        · exact .hears _ data text sender rfl hheard (.inr rfl) (.inr rfl) rfl rfl
        · exact .hears _ data text sender rfl hheard (.inl rfl) (.inr rfl) rfl rfl

theorem onLine_moves (text : List Char) (s : Listener) :
    Moves crates cfg readings s (onLine crates cfg readings text s) := by
  unfold onLine
  split
  · exact moves_same crates cfg readings s s rfl rfl rfl rfl
  · split
    · exact dispatch_moves crates cfg readings s
    · split
      · unfold collect
        split <;> exact moves_same crates cfg readings s _ rfl rfl rfl rfl
      · exact moves_same crates cfg readings s s rfl rfl rfl rfl

theorem step_moves (event : Event) (s : Listener) :
    Moves crates cfg readings s (step crates cfg readings validPath event s) := by
  cases event with
  | line text =>
    rw [step]
    split
    · exact moves_same crates cfg readings s s rfl rfl rfl rfl
    · exact onLine_moves crates cfg readings text s
  | ended =>
    rw [step]
    split
    · exact moves_same crates cfg readings s s rfl rfl rfl rfl
    · exact trailing_moves crates cfg readings s
  | pairing op => exact .pairs op rfl rfl rfl rfl
  | respond n content attachments =>
    rw [step]
    split
    · exact .stays rfl List.filter_sublist.subset rfl rfl
    · exact moves_same crates cfg readings s s rfl rfl rfl rfl

structure Sound (s : Listener) : Prop where
  trimmed : Trimmed s.ledger.store
  approved : ∀ key, ∀ sender ∈ allowList s.ledger.store key, sender ∈ approvedOn s.ledger key
  heard : ∀ x ∈ s.sent, ∃ data text sender,
    Heard crates cfg readings (Paired crates s.ledger) x data text sender
  numbered : ∀ x ∈ s.sent, x.number < s.seen
  kept : ∀ entry ∈ s.targets, ∃ n < s.seen, entry.1 = (readings n).messageId ∧
    ∀ x ∈ s.sent, x.number = n → x.target = entry.2

variable {crates cfg readings}

theorem Heard.mono {paired paired' : String → Prop} {x : Sent} {data : DataMessage}
    {text sender : String} (h : Heard crates cfg readings paired x data text sender)
    (hmono : ∀ id, paired id → paired' id) :
    Heard crates cfg readings paired' x data text sender := by
  refine ⟨⟨h.accepted.story, h.accepted.holds, h.accepted.content, h.accepted.writer,
    h.accepted.admits.group, fun hnone => ?_⟩, h.message, h.target⟩
  obtain ⟨hallow, hpairing⟩ := h.accepted.admits.direct hnone
  refine ⟨hallow, fun hpolicy => ?_⟩
  rcases hpairing hpolicy with hnamed | hstar | hsender
  · exact .inl hnamed
  · exact .inr (.inl (hmono _ hstar))
  · exact .inr (.inr (hmono _ hsender))

theorem Heard.id {paired : String → Prop} {x : Sent} {data : DataMessage} {text sender : String}
    (h : Heard crates cfg readings paired x data text sender) :
    x.message.id = (readings x.number).messageId := by
  rw [h.message, received_id]

theorem paired_step (op : Op) (l : Ledger) (sender : String) (h : Paired crates l sender) :
    Paired crates (PairingStore.step crates.platform op l) sender := by
  obtain ⟨key, hkey, hmem⟩ := h
  refine ⟨key, hkey, ?_⟩
  cases happroval : approval crates.platform op l.store with
  | none => rwa [approvedOn_none _ op l key happroval]
  | some a =>
    rw [approvedOn_some _ op l a.1 key a.2 happroval]
    exact List.mem_append_left _ hmem

/-- Every operation of the store keeps the allowed senders approved. -/
theorem approved_step (op : Op) (l : Ledger) (htrimmed : Trimmed l.store)
    (happroved : ∀ key, ∀ sender ∈ allowList l.store key, sender ∈ approvedOn l key) :
    Trimmed (PairingStore.step crates.platform op l).store ∧
    ∀ key, ∀ sender ∈ allowList (PairingStore.step crates.platform op l).store key,
      sender ∈ approvedOn (PairingStore.step crates.platform op l) key := by
  obtain ⟨hnext, ⟨hnone, hlists⟩ | ⟨key, id, hsome, -, -, hlists⟩⟩ :=
    step_effect crates.platform op l htrimmed
  · refine ⟨hnext, fun key sender hsender => ?_⟩
    rw [hlists key] at hsender
    rw [approvedOn_none _ op l key hnone]
    exact happroved key sender hsender
  · refine ⟨hnext, fun key' sender hsender => ?_⟩
    rw [hlists key'] at hsender
    rw [approvedOn_some _ op l key key' id hsome]
    by_cases hkey : key = key'
    · rw [if_pos hkey] at hsender ⊢
      exact List.mem_append_right _ hsender
    · rw [if_neg hkey] at hsender ⊢
      exact List.mem_append_left _ (happroved key' sender hsender)

/-- Pairing goes on, and everything else is as it was. -/
theorem sound_pairs (op : Op) (s s' : Listener) (h : Sound crates cfg readings s)
    (hsent : s'.sent = s.sent) (htargets : s'.targets = s.targets)
    (hledger : s'.ledger = PairingStore.step crates.platform op s.ledger)
    (hseen : s.seen ≤ s'.seen) : Sound crates cfg readings s' := by
  obtain ⟨htrimmed, happroved⟩ := @approved_step crates op s.ledger h.trimmed h.approved
  refine ⟨hledger ▸ htrimmed, hledger ▸ happroved, fun x hx => ?_, fun x hx => ?_,
    fun entry hentry => ?_⟩
  · rw [hsent] at hx
    obtain ⟨data, text, sender, hheard⟩ := h.heard x hx
    exact ⟨data, text, sender, hheard.mono (hledger ▸ paired_step op s.ledger)⟩
  · rw [hsent] at hx
    exact lt_of_lt_of_le (h.numbered x hx) hseen
  · rw [htargets] at hentry
    obtain ⟨n, hn, hid, hsame⟩ := h.kept entry hentry
    exact ⟨n, lt_of_lt_of_le hn hseen, hid, hsent ▸ hsame⟩

theorem sound_stays (s s' : Listener) (h : Sound crates cfg readings s) (hsent : s'.sent = s.sent)
    (htargets : s'.targets ⊆ s.targets) (hledger : s'.ledger = s.ledger)
    (hseen : s.seen ≤ s'.seen) : Sound crates cfg readings s' := by
  refine ⟨hledger ▸ h.trimmed, hledger ▸ h.approved, hsent ▸ hledger ▸ h.heard, fun x hx => ?_,
    fun entry hentry => ?_⟩
  · rw [hsent] at hx
    exact lt_of_lt_of_le (h.numbered x hx) hseen
  · obtain ⟨n, hn, hid, hsame⟩ := h.kept entry (htargets hentry)
    exact ⟨n, lt_of_lt_of_le hn hseen, hid, hsent ▸ hsame⟩

theorem put_mem (cache : LruCache) (id : Uuid) (target : String) (entry : Uuid × String)
    (h : entry ∈ cache.put id target) : entry = (id, target) ∨ entry ∈ cache := by
  rcases List.mem_cons.mp (List.mem_of_mem_take h) with heq | hmem
  · exact .inl heq
  · exact .inr (List.mem_filter.mp hmem).1

/-- A message is heard. -/
theorem sound_hears (s s' : Listener) (x : Sent) (data : DataMessage) (text sender : String)
    (h : Sound crates cfg readings s) (hnumber : x.number = s.seen)
    (hheard : Heard crates cfg readings (onList crates s.ledger.store) x data text sender)
    (hsent : s'.sent = s.sent ∨ s'.sent = s.sent++[x])
    (htargets : s'.targets = s.targets ∨ s'.targets = s.targets.put x.message.id x.target)
    (hledger : s'.ledger = s.ledger) (hseen : s'.seen = s.seen+1) :
    Sound crates cfg readings s' := by
  have hmem : ∀ y ∈ s'.sent, y ∈ s.sent ∨ y = x := by
    intro y hy
    rcases hsent with hsame | hmore
    · exact .inl (hsame ▸ hy)
    · rw [hmore] at hy
      rcases List.mem_append.mp hy with hold | hnew
      · exact .inl hold
      · exact .inr (List.mem_singleton.mp hnew)
  refine ⟨hledger ▸ h.trimmed, hledger ▸ h.approved, fun y hy => ?_, fun y hy => ?_,
    fun entry hentry => ?_⟩
  · rw [hledger]
    rcases hmem y hy with hold | rfl
    · exact h.heard y hold
    · refine ⟨data, text, sender, hheard.mono fun id hid => ?_⟩
      obtain ⟨key, hkey, hlist⟩ := hid
      exact ⟨key, hkey, h.approved key id hlist⟩
  · rw [hseen]
    rcases hmem y hy with hold | rfl
    · exact Nat.lt_succ_of_lt (h.numbered y hold)
    · exact hnumber ▸ Nat.lt_succ_self _
  · rw [hseen]
    have hold : entry ∈ s.targets → ∃ n < s.seen+1, entry.1 = (readings n).messageId ∧
        ∀ y ∈ s'.sent, y.number = n → y.target = entry.2 := by
      intro hmem'
      obtain ⟨n, hn, hid, hsame⟩ := h.kept entry hmem'
      refine ⟨n, Nat.lt_succ_of_lt hn, hid, fun y hy hyn => ?_⟩
      rcases hmem y hy with hin | rfl
      · exact hsame y hin hyn
      · omega
    rcases htargets with hsame | hput
    · exact hold (hsame ▸ hentry)
    · rw [hput] at hentry
      rcases put_mem _ _ _ entry hentry with rfl | hin
      · refine ⟨s.seen, Nat.lt_succ_self _, hnumber ▸ hheard.id, fun y hy hyn => ?_⟩
        rcases hmem y hy with hin | rfl
        · exact absurd (h.numbered y hin) (by omega)
        · rfl
      · exact hold hin

theorem sound_moves (s s' : Listener) (h : Sound crates cfg readings s)
    (hmoves : Moves crates cfg readings s s') : Sound crates cfg readings s' := by
  cases hmoves with
  | stays hsent htargets hledger hseen =>
    exact sound_stays s s' h hsent htargets hledger hseen.ge
  | reads op hsent htargets hledger hseen =>
    have hlater : s.seen ≤ s'.seen := hseen ▸ Nat.le_succ _
    rcases hledger with hsame | hop
    · exact sound_stays s s' h hsent (htargets ▸ List.Subset.refl _) hsame hlater
    · exact sound_pairs op s s' h hsent htargets hop hlater
  | hears x data text sender hnumber hheard hsent htargets hledger hseen =>
    exact sound_hears s s' x data text sender h hnumber hheard hsent htargets hledger hseen
  | pairs op hsent htargets hledger hseen =>
    exact sound_pairs op s s' h hsent htargets hledger hseen.ge

theorem sound_run (events : List Event) :
    Sound crates cfg readings (run (step crates cfg readings validPath) events fresh) := by
  refine run_invariant _ (Sound crates cfg readings)
    (fun event s hs => sound_moves s _ hs (step_moves crates cfg readings validPath event s))
    events fresh ?_
  refine ⟨fun key r hr => ?_, fun key sender hsender => ?_, by simp [fresh], by simp [fresh],
    by simp [fresh]⟩
  · simp [fresh, PairingStore.fresh, emptyStore, File.entries] at hr
  · simp [fresh, PairingStore.fresh, emptyStore, allowList, File.entries] at hsender

variable (crates cfg readings)

/-- Whatever comes over the stream and whatever is paired meanwhile, each
message to the agent is made from an envelope that the policies let pass, and
under pairing its sender is named or was approved. -/
theorem messages_admitted (events : List Event) :
    ∀ x ∈ (run (step crates cfg readings validPath) events fresh).sent,
      ∃ data text sender, Heard crates cfg readings
        (Paired crates (run (step crates cfg readings validPath) events fresh).ledger)
        x data text sender :=
  (sound_run validPath events).heard

def Phone (sender : String) : Prop :=
  ∃ digits : List Char, sender.toList = '+'::digits ∧ 7 ≤ digits.length ∧ digits.length ≤ 15 ∧
    ∀ c ∈ digits, '0' ≤ c ∧ c ≤ '9'

inductive Addressee (data : DataMessage) (sender : String) : RecipientTarget → Prop where
  | group (groupId : String) (within : data.groupId = some groupId) :
      Addressee data sender (.group groupId)
  | prefixed (rest : String) (alone : data.groupId = none) (eq : sender = "group:" ++ rest) :
      Addressee data sender (.group rest)
  | direct (alone : data.groupId = none) (bare : ∀ rest, sender ≠ "group:" ++ rest)
      (reached : Phone sender ∨ (crates.parseUuid sender).isSome) :
      Addressee data sender (.direct sender)
  | named (alone : data.groupId = none) (bare : ∀ rest, sender ≠ "group:" ++ rest)
      (phone : ¬ Phone sender) (uuid : crates.parseUuid sender = none) :
      Addressee data sender (.group sender)

theorem stripPrefix_some (s t rest : String) :
    stripPrefix s t = some rest ↔ s = t ++ rest := by
  rw [stripPrefix, startsWith]
  constructor
  · intro h
    split at h
    · next hprefix =>
      obtain ⟨tail, htail⟩ := List.isPrefixOf_iff_prefix.mp hprefix
      obtain rfl := Option.some.inj h
      rw [← String.toList_inj, String.toList_append, String.toList_ofList, ← htail,
        List.drop_left]
    · cases h
  · rintro rfl
    rw [if_pos (by simp), String.toList_append, List.drop_left, String.ofList_toList]

theorem byteLen_digits (digits : List Char) (h : ∀ c ∈ digits, '0' ≤ c ∧ c ≤ '9') :
    byteLen digits = digits.length := by
  induction digits with
  | nil => rfl
  | cons c digits ih =>
    have hone : c.utf8Size = 1 := by
      have hc := (h c List.mem_cons_self).2
      have hnine : c.val ≤ 57 := hc
      have hval : c.val.toNat ≤ 57 := hnine
      exact Char.utf8Size_eq_one_iff.mpr (UInt32.le_iff_toNat_le.mpr (le_trans hval (by decide)))
    rw [byteLen, ih fun d hd => h d (List.mem_cons_of_mem c hd), hone, List.length_cons]
    omega

theorem isE164_phone (sender : String) : isE164 sender = true ↔ Phone sender := by
  have hdigits : ∀ digits : List Char,
      digits.all Char.isDigit = true ↔ ∀ c ∈ digits, '0' ≤ c ∧ c ≤ '9' := by
    intro digits
    rw [List.all_eq_true]
    refine forall₂_congr fun c _ => ?_
    rw [Char.isDigit, Bool.and_eq_true, decide_eq_true_iff, decide_eq_true_iff]
    rfl
  rw [isE164]
  cases hstrip : stripPrefix sender "+" with
  | none =>
    refine ⟨fun h => (nomatch h), fun ⟨digits, heq, _⟩ => ?_⟩
    have hsome : stripPrefix sender "+" = some (String.ofList digits) := by
      simp [stripPrefix_some, ← String.toList_inj, heq]
    rw [hstrip] at hsome
    cases hsome
  | some number =>
    have hplus : sender.toList = '+'::number.toList := by
      rw [(stripPrefix_some _ _ _).mp hstrip, String.toList_append]
      rfl
    simp only [Bool.and_eq_true, decide_eq_true_eq, hdigits]
    constructor
    · rintro ⟨⟨hlow, hhigh⟩, hall⟩
      rw [byteLen_digits _ hall] at hlow hhigh
      exact ⟨number.toList, hplus, hlow, hhigh, hall⟩
    · rintro ⟨digits, heq, hlow, hhigh, hall⟩
      obtain rfl : number.toList = digits := (List.cons.inj (hplus.symm.trans heq)).2
      rw [byteLen_digits _ hall]
      exact ⟨⟨hlow, hhigh⟩, hall⟩

theorem parse_replyTarget (data : DataMessage) (sender : String) :
    Addressee crates data sender (parseRecipientTarget crates (replyTarget data sender)) := by
  unfold replyTarget parseRecipientTarget
  cases hgroup : data.groupId with
  | some groupId =>
    dsimp only
    rw [(stripPrefix_some _ _ groupId).mpr rfl]
    exact .group groupId hgroup
  | none =>
    dsimp only
    cases hstrip : stripPrefix sender "group:" with
    | some rest => exact .prefixed rest hgroup ((stripPrefix_some _ _ _).mp hstrip)
    | none =>
      have hbare : ∀ rest, sender ≠ "group:" ++ rest := by
        intro rest heq
        rw [(stripPrefix_some _ _ rest).mpr heq] at hstrip
        cases hstrip
      dsimp only
      split
      · next hreached =>
        rw [Bool.or_eq_true, isE164_phone] at hreached
        exact .direct hgroup hbare hreached
      · next hother =>
        rw [Bool.or_eq_true, isE164_phone, not_or] at hother
        exact .named hgroup hbare hother.1 (Option.not_isSome_iff_eq_none.mp hother.2)

variable {crates cfg readings}

/-- A remembered target is the one that the message carries. -/
theorem respondTarget_sent (s : Listener) (h : Sound crates cfg readings s)
    (hids : ∀ i < s.seen, ∀ j < s.seen,
      (readings i).messageId = (readings j).messageId → i = j)
    (x : Sent) (hx : x ∈ s.sent) : respondTarget s x.message = x.target := by
  obtain ⟨data, text, sender, hheard⟩ := h.heard x hx
  have hcarried : (x.message.metadata.get "signal_target").bind Value.asStr = some x.target := by
    rw [hheard.message, received_target, hheard.target]
  unfold respondTarget
  rw [hcarried]
  cases hpeek : s.targets.peek x.message.id with
  | none => rfl
  | some target =>
    obtain ⟨entry, hfind, rfl⟩ := Option.map_eq_some_iff.mp hpeek
    have hkey := List.find?_some hfind
    simp only [decide_eq_true_eq] at hkey
    obtain ⟨n, hn, hid, hsame⟩ := h.kept entry (List.mem_of_find?_eq_some hfind)
    have hnumber : x.number = n := by
      refine hids _ (h.numbered x hx) n hn ?_
      rw [← hheard.id, ← hkey, hid]
    exact (hsame x hx hnumber).symm

variable (crates cfg readings)

/-- A response goes to the group or the sender that its message came from,
whatever the cache has forgotten, as long as no message id was drawn twice. -/
theorem responses_return (events : List Event) (n : ℕ) (x : Sent) (content : String)
    (attachments : List String)
    (hids : ∀ i < (run (step crates cfg readings validPath) events fresh).seen,
      ∀ j < (run (step crates cfg readings validPath) events fresh).seen,
        (readings i).messageId = (readings j).messageId → i = j)
    (hx : (run (step crates cfg readings validPath) events fresh).sent[n]? = some x) :
    ∃ data sender target, x.envelope.dataMessage = some data ∧
      x.envelope.sender = some sender ∧ Addressee crates data sender target ∧
      (run (step crates cfg readings validPath) (events++[.respond n content attachments])
          fresh).rpcs =
        (run (step crates cfg readings validPath) events fresh).rpcs++
          (sendWithAttachments cfg validPath target content attachments).toList := by
  have hsound : Sound crates cfg readings (run (step crates cfg readings validPath) events fresh) :=
    sound_run validPath events
  have hmem := List.mem_of_getElem? hx
  obtain ⟨data, text, sender, hheard⟩ := hsound.heard x hmem
  refine ⟨data, sender, _, hheard.accepted.holds, hheard.accepted.writer,
    parse_replyTarget crates data sender, ?_⟩
  have htarget := respondTarget_sent _ hsound hids x hmem
  rw [run_append, run, run, step, hx]
  simp only [respond]
  rw [htarget, hheard.target]

end

def directEnvelope (text : String) : Envelope :=
  ⟨none, some "+15550001111", none, none, some ⟨some text, none, none, none⟩, none, some 7⟩

def directText (text : String) : List Char :=
  ("\x7b\"envelope\":\x7b\"sourceNumber\":\"+15550001111\",\"timestamp\":7,\"dataMessage\":" ++
    "\x7b\"message\":\"" ++ text ++ "\"\x7d\x7d\x7d").toList

def phoneCrates : Crates where
  platform := plainPlatform
  parseUuid := fun _ => none
  newV5 := fun _ => 0x1c4a0b51671255489dbb8c7677dfb8e0#128
  fromStr := fun text =>
    (["hello", "again", "/debug"].find? (fun word => directText word = text)).map
      (fun word => ⟨some (directEnvelope word)⟩)

def pairingConfig : SignalConfig :=
  ⟨"+15550002222", [], [], "pairing", "disabled", [], false, true⟩

def countedReadings (n : ℕ) : Reading :=
  ⟨clockAt 100, repeated (Fin.last 31), 0, BitVec.ofNat 128 n, true⟩

def told (text : String) : List Event := [.line ("data: ".toList++directText text), .line []]

def pairedRun : List Event :=
  told "hello"++[.pairing (.approve "signal" "99999999" (clockAt 101))]++told "again"

def forgotten : List Event := pairedRun++[.respond 0 "hi" []]

def againSent : Sent :=
  ⟨1, directEnvelope "again", received phoneCrates (directEnvelope "again")
    ⟨some "again", none, none, none⟩ "again" "+15550001111" (countedReadings 1), "+15550001111"⟩

/-- A sender asks for pairing, is approved and is heard. -/
theorem messages_admitted_paired :
    (run (step phoneCrates pairingConfig countedReadings (fun _ => true)) (told "hello")
        fresh).sent = [] ∧
    ∃ data text sender, Heard phoneCrates pairingConfig countedReadings
      (Paired phoneCrates (run (step phoneCrates pairingConfig countedReadings (fun _ => true))
        pairedRun fresh).ledger) againSent data text sender :=
  ⟨by decide +kernel, messages_admitted phoneCrates pairingConfig countedReadings (fun _ => true)
    pairedRun againSent (by decide +kernel)⟩

/-- A second response, when the first one has emptied the cache. -/
theorem responses_return_forgotten :
    (run (step phoneCrates pairingConfig countedReadings (fun _ => true)) forgotten
      fresh).targets = [] ∧
    ∃ data sender target, againSent.envelope.dataMessage = some data ∧
      againSent.envelope.sender = some sender ∧ Addressee phoneCrates data sender target ∧
      (run (step phoneCrates pairingConfig countedReadings (fun _ => true))
          (forgotten++[.respond 0 "more" []]) fresh).rpcs =
        (run (step phoneCrates pairingConfig countedReadings (fun _ => true)) forgotten
          fresh).rpcs++(sendWithAttachments pairingConfig (fun _ => true) target "more" []).toList := by
  refine ⟨by decide +kernel, ?_⟩
  refine responses_return phoneCrates pairingConfig countedReadings (fun _ => true) forgotten 0
    againSent "more" [] ?_ ?_
  · decide +kernel
  · have hsent : (run (step phoneCrates pairingConfig countedReadings (fun _ => true)) forgotten
        fresh).sent = [againSent] := by decide +kernel
    rw [hsent]
    rfl

end IronClaw.SignalListener
