import IronClaw.Lib.Runs
import IronClaw.JsonText
import IronClaw.LlmMessage

/-!
# The response cache and its keys

`llm/response_cache.rs` puts the model, the messages as JSON, the token limit,
the temperature and the stop sequences behind one another, with a bar between
them, and hashes the bytes. The number fields have no mark of absence and the
stop sequences only a terminator, so which requests share a key is a question
of what their bytes may contain.

A completion looks its key up and answers, or asks the provider and files the
answer. The lock is held for the lookup and for the filing only, so these are
the steps, in any order.
-/

set_option autoImplicit false

namespace IronClaw.ResponseCache
open IronClaw.JsonValue IronClaw.LlmMessage IronClaw.JsonText Lib.PrefixCode Lib.Runs

structure CompletionRequest where
  messages : List ChatMessage
  maxTokens : Option UInt32
  temperature : Option UInt32
  stopSequences : Option (List String)
  deriving DecidableEq

def roleText : Role → String
  | .system => "system"
  | .user => "user"
  | .assistant => "assistant"
  | .tool => "tool"

def optionField (key : String) : Option String → Fields
  | some s => [(key, .string s)]
  | none => []

def partValue : ContentPart → Value
  | .text text => .object [("type", .string "text"), ("text", .string text)]
  | .imageUrl image => .object [("type", .string "image_url"),
      ("image_url", .object (("url", .string image.url)::optionField "detail" image.detail))]

def callValue (call : ToolCall) : Value :=
  .object [("id", .string call.id), ("name", .string call.name), ("arguments", call.arguments)]

def partsField (parts : List ContentPart) : Fields :=
  if parts.isEmpty then [] else [("content_parts", .array (parts.map partValue))]

def callsField : Option (List ToolCall) → Fields
  | some calls => [("tool_calls", .array (calls.map callValue))]
  | none => []

def messageValue (m : ChatMessage) : Value :=
  .object (("role", .string (roleText m.role))::("content", .string m.content)::
    (partsField m.contentParts++optionField "tool_call_id" m.toolCallId++
      optionField "name" m.name++callsField m.toolCalls))

def messagesValue (messages : List ChatMessage) : Value := .array (messages.map messageValue)

def utf8 (cs : List Char) : List UInt8 := cs.flatMap String.utf8EncodeChar

def bar : UInt8 := 0x7c

/-- `u32::to_le_bytes` and `f32::to_le_bytes`. -/
def leBytes (n : UInt32) : List UInt8 :=
  [n.toUInt8, (n >>> 8).toUInt8, (n >>> 16).toUInt8, (n >>> 24).toUInt8]

def optionBytes : Option UInt32 → List UInt8
  | some n => leBytes n
  | none => []

def stopBytes (stops : List String) : List UInt8 :=
  stops.flatMap (fun s => utf8 s.toList++[0])

/-- The bytes that `cache_key` feeds to the hash. -/
def keyBytes (floats : FloatPrinter) (model : String) (request : CompletionRequest) :
    List UInt8 :=
  utf8 model.toList++bar::(utf8 (printValue floats (messagesValue request.messages))++
    bar::(optionBytes request.maxTokens++bar::(optionBytes request.temperature++
      bar::stopBytes (request.stopSequences.getD []))))

structure Config where
  ttl : ℕ
  maxEntries : ℕ

section Cache

variable {ρ : Type}

structure CacheEntry (ρ : Type) where
  response : ρ
  createdAt : ℕ
  lastAccessed : ℕ
  hitCount : ℕ

abbrev Entries (ρ : Type) := List (String × CacheEntry ρ)

structure Order (ρ : Type) where
  arrange : Entries ρ → Entries ρ
  arrange_perm : ∀ entries, (arrange entries).Perm entries

def lookupEntry (key : String) (entries : Entries ρ) : Option (CacheEntry ρ) :=
  (entries.find? (fun e => e.1 = key)).map Prod.snd

def removeEntry (key : String) (entries : Entries ρ) : Entries ρ :=
  entries.filter (fun e => e.1 ≠ key)

def insertEntry (key : String) (entry : CacheEntry ρ) (entries : Entries ρ) : Entries ρ :=
  (key, entry)::removeEntry key entries

def oldest : Entries ρ → Option (String × CacheEntry ρ)
  | [] => none
  | e::es => match oldest es with
    | none => some e
    | some o => if o.2.lastAccessed < e.2.lastAccessed then some o else some e

def evict (maxEntries : ℕ) (order : Order ρ) : ℕ → Entries ρ → Entries ρ
  | 0, entries => entries
  | fuel+1, entries =>
    if maxEntries ≤ entries.length then
      match oldest (order.arrange entries) with
      | some o => evict maxEntries order fuel (removeEntry o.1 entries)
      | none => entries
    else entries

def lookupCache (cfg : Config) (key : String) (now : ℕ) (entries : Entries ρ) :
    Option ρ × Entries ρ :=
  match lookupEntry key entries with
  | none => (none, entries)
  | some entry =>
    if now-entry.createdAt < cfg.ttl then
      (some entry.response,
        insertEntry key { entry with lastAccessed := now, hitCount := entry.hitCount+1 } entries)
    else (none, removeEntry key entries)

def fileResponse (cfg : Config) (key : String) (now : ℕ) (order : Order ρ) (response : ρ)
    (entries : Entries ρ) : Entries ρ :=
  let retained := entries.filter (fun e => now-e.2.createdAt < cfg.ttl)
  let evicted := evict cfg.maxEntries order retained.length retained
  insertEntry key ⟨response, now, now, 0⟩ evicted

abbrev Question := String × CompletionRequest

inductive Step (ρ : Type) where
  | look (question : Question) (now : ℕ)
  | file (question : Question) (now : ℕ) (order : Order ρ) (response : ρ)
  | clear

def Step.questions : Step ρ → List Question
  | .look question _ => [question]
  | .file question _ _ _ => [question]
  | .clear => []

structure State (ρ : Type) where
  entries : Entries ρ
  answered : List (Question × ρ)
  served : List (Question × ρ)

def State.new : State ρ := ⟨[], [], []⟩

section Machine

variable (cfg : Config) (keyOf : Question → String)

def step (a : Step ρ) (s : State ρ) : State ρ :=
  match a with
  | .look question now =>
    match lookupCache cfg (keyOf question) now s.entries with
    | (some response, entries) =>
      { s with entries := entries, served := (question, response)::s.served }
    | (none, entries) => { s with entries := entries }
  | .file question now order response =>
    { s with
      entries := fileResponse cfg (keyOf question) now order response s.entries
      answered := (question, response)::s.answered }
  | .clear => { s with entries := [] }

def Provenance (asked : Question → Prop) (s : State ρ) : Prop :=
  (∀ e ∈ s.entries, ∃ q, asked q ∧ keyOf q = e.1 ∧ (q, e.2.response) ∈ s.answered) ∧
    ∀ p ∈ s.served, ∃ q, asked p.1 ∧ asked q ∧ keyOf q = keyOf p.1 ∧ (q, p.2) ∈ s.answered

variable (key : String) (asked : Question → Prop)

theorem lookupEntry_mem (entries : Entries ρ) (entry : CacheEntry ρ)
    (h : lookupEntry key entries = some entry) : (key, entry) ∈ entries := by
  unfold lookupEntry at h
  obtain ⟨e, he, hentry⟩ := Option.map_eq_some_iff.mp h
  have hkey : e.1 = key := by simpa using List.find?_some he
  rw [← hkey, ← hentry]
  exact List.mem_of_find?_eq_some he

theorem mem_insertEntry (entry : CacheEntry ρ) (entries : Entries ρ) (e : String × CacheEntry ρ)
    (h : e ∈ insertEntry key entry entries) :
    e = (key, entry) ∨ e ∈ entries := by
  rcases List.mem_cons.mp h with h | h
  · exact Or.inl h
  · exact Or.inr (List.mem_of_mem_filter h)

theorem mem_evict (maxEntries : ℕ) (order : Order ρ) (fuel : ℕ) (entries : Entries ρ)
    (e : String × CacheEntry ρ) (h : e ∈ evict maxEntries order fuel entries) : e ∈ entries := by
  induction fuel generalizing entries with
  | zero => exact h
  | succ fuel ih =>
    rw [evict] at h
    split at h
    · cases ho : oldest (order.arrange entries) with
      | none =>
        rw [ho] at h
        exact h
      | some o =>
        rw [ho] at h
        exact List.mem_of_mem_filter (ih _ h)
    · exact h

theorem lookupCache_mem (now : ℕ) (entries : Entries ρ) (e : String × CacheEntry ρ)
    (h : e ∈ (lookupCache cfg key now entries).2) :
    ∃ entry, (e.1, entry) ∈ entries ∧ entry.response = e.2.response := by
  unfold lookupCache at h
  cases hfound : lookupEntry key entries with
  | none =>
    rw [hfound] at h
    exact ⟨e.2, h, rfl⟩
  | some entry =>
    rw [hfound] at h
    dsimp only at h
    split at h
    · rcases mem_insertEntry _ _ _ _ h with h | h
      · rw [h]
        exact ⟨entry, lookupEntry_mem key entries entry hfound, rfl⟩
      · exact ⟨e.2, h, rfl⟩
    · exact ⟨e.2, List.mem_of_mem_filter h, rfl⟩

theorem lookupCache_hit (now : ℕ) (entries : Entries ρ) (response : ρ)
    (h : (lookupCache cfg key now entries).1 = some response) :
    ∃ entry, (key, entry) ∈ entries ∧ entry.response = response := by
  unfold lookupCache at h
  cases hfound : lookupEntry key entries with
  | none =>
    rw [hfound] at h
    simp at h
  | some entry =>
    rw [hfound] at h
    dsimp only at h
    split at h
    · exact ⟨entry, lookupEntry_mem key entries entry hfound, Option.some.inj h⟩
    · simp at h

theorem fileResponse_mem (now : ℕ) (order : Order ρ) (response : ρ) (entries : Entries ρ)
    (e : String × CacheEntry ρ) (h : e ∈ fileResponse cfg key now order response entries) :
    e = (key, ⟨response, now, now, 0⟩) ∨ e ∈ entries := by
  rcases mem_insertEntry _ _ _ _ h with h | h
  · exact Or.inl h
  · exact Or.inr (List.mem_of_mem_filter (mem_evict _ _ _ _ _ h))

theorem look_provenance (question : Question) (now : ℕ) (s : State ρ) (hasked : asked question)
    (hs : Provenance keyOf asked s) :
    Provenance keyOf asked (step cfg keyOf (.look question now) s) := by
  have hkept : ∀ e ∈ (lookupCache cfg (keyOf question) now s.entries).2,
      ∃ q, asked q ∧ keyOf q = e.1 ∧ (q, e.2.response) ∈ s.answered := by
    intro e he
    obtain ⟨entry, hin, hresponse⟩ := lookupCache_mem cfg _ _ _ e he
    rw [← hresponse]
    exact hs.1 (e.1, entry) hin
  rw [step]
  split
  · next response entries hlook =>
    have hhit := lookupCache_hit cfg (keyOf question) now s.entries response (by rw [hlook])
    rw [hlook] at hkept
    refine ⟨hkept, ?_⟩
    intro p hp
    rcases List.mem_cons.mp hp with rfl | hp
    · obtain ⟨entry, hin, hresponse⟩ := hhit
      obtain ⟨q, hq, hkey, hanswered⟩ := hs.1 _ hin
      rw [hresponse] at hanswered
      exact ⟨q, hasked, hq, hkey, hanswered⟩
    · exact hs.2 p hp
  · next entries hlook =>
    rw [hlook] at hkept
    exact ⟨hkept, hs.2⟩

theorem step_provenance (a : Step ρ) (s : State ρ) (hs : Provenance keyOf asked s)
    (hasked : ∀ q ∈ a.questions, asked q) :
    Provenance keyOf asked (step cfg keyOf a s) := by
  cases a with
  | look question now =>
    exact look_provenance cfg keyOf asked question now s
      (hasked question List.mem_cons_self) hs
  | file question now order response =>
    constructor
    · intro e he
      rcases fileResponse_mem cfg _ _ _ _ _ e he with rfl | he
      · exact ⟨question, hasked question List.mem_cons_self, rfl, List.mem_cons_self⟩
      · obtain ⟨q, hq, hkey, hanswered⟩ := hs.1 e he
        exact ⟨q, hq, hkey, List.mem_cons_of_mem _ hanswered⟩
    · intro p hp
      obtain ⟨q, hp', hq, hkey, hanswered⟩ := hs.2 p hp
      exact ⟨q, hp', hq, hkey, List.mem_cons_of_mem _ hanswered⟩
  | clear =>
    refine ⟨?_, hs.2⟩
    intro e he
    simp [step] at he

/-- Where keys tell the questions of a run apart, the cache answers a question
only with an answer to it. -/
theorem run_served (hkey : ∀ p q, asked p → asked q → keyOf p = keyOf q → p = q)
    (steps : List (Step ρ)) (hasked : ∀ a ∈ steps, ∀ q ∈ a.questions, asked q) :
    ∀ p ∈ (run (step cfg keyOf) steps State.new).served,
      p ∈ (run (step cfg keyOf) steps State.new).answered := by
  have hprovenance : Provenance keyOf asked (run (step cfg keyOf) steps State.new) := by
    apply guarded_invariant (step cfg keyOf) (fun a _ => ∀ q ∈ a.questions, asked q)
      (Provenance keyOf asked)
    · intro a s hs ha
      exact step_provenance cfg keyOf asked a s hs ha
    · exact along_all _ _ _ _ (fun a ha _ => hasked a ha)
    · exact ⟨fun e he => by simp [State.new] at he, fun p hp => by simp [State.new] at hp⟩
  intro p hp
  obtain ⟨q, hp', hq, hsame, hanswered⟩ := hprovenance.2 p hp
  rw [hkey q p.1 hq hp' hsame] at hanswered
  exact hanswered

end Machine

end Cache

theorem char_delimited : Delimited String.utf8EncodeChar := by
  intro a b s t h
  have hab : a = b := by
    have hbytes := congrArg List.toByteArray h
    rw [List.toByteArray_append, List.toByteArray_append] at hbytes
    have hdecode := congrArg (fun bytes => ByteArray.utf8DecodeChar? bytes 0) hbytes
    simpa only [ByteArray.utf8DecodeChar?_utf8EncodeChar_append, Option.some.injEq] using hdecode
  rw [hab] at h
  exact ⟨hab, List.append_cancel_left h⟩

theorem bar_char : String.utf8EncodeChar '|' = [bar] := by decide

theorem nul_char : String.utf8EncodeChar '\x00' = [0] := by decide

theorem leBytes_injective (n m : UInt32) (h : leBytes n = leBytes m) : n = m := by
  simp only [leBytes, List.cons.injEq, and_true] at h
  obtain ⟨h0, h1, h2, h3⟩ := h
  have h0' := congrArg UInt8.toNat h0
  have h1' := congrArg UInt8.toNat h1
  have h2' := congrArg UInt8.toNat h2
  have h3' := congrArg UInt8.toNat h3
  simp only [UInt32.toNat_toUInt8, UInt32.toNat_shiftRight, UInt32.reduceToNat,
    Nat.shiftRight_eq_div_pow, Nat.reduceMod, Nat.reducePow] at h0' h1' h2' h3'
  have hn := n.toNat_lt
  have hm := m.toNat_lt
  apply UInt32.toNat_inj.mp
  omega

def Marked (x y : Option UInt32) : Prop :=
  x.isSome = y.isSome ∨ ((∀ n, x = some n → n.toUInt8 ≠ bar) ∧ (∀ n, y = some n → n.toUInt8 ≠ bar))

theorem option_split (x y : Option UInt32) (s t : List UInt8) (hmark : Marked x y)
    (h : optionBytes x++bar::s = optionBytes y++bar::t) : x = y ∧ s = t := by
  have hhead : ∀ n : UInt32, ∀ s t : List UInt8, bar::s = leBytes n++t → n.toUInt8 = bar := by
    intro n s t heq
    exact (List.cons.inj heq).1.symm
  cases x with
  | none =>
    cases y with
    | none => exact ⟨rfl, (List.cons.inj h).2⟩
    | some m =>
      rcases hmark with hsome | ⟨_, hm⟩
      · simp at hsome
      · exact absurd (hhead m _ _ h) (hm m rfl)
  | some n =>
    cases y with
    | none =>
      rcases hmark with hsome | ⟨hn, _⟩
      · simp at hsome
      · exact absurd (hhead n _ _ h.symm) (hn n rfl)
    | some m =>
      obtain ⟨hbytes, hrest⟩ := List.append_inj h rfl
      exact ⟨by rw [leBytes_injective n m hbytes], (List.cons.inj hrest).2⟩

theorem stops_injective (ss ts : List String) (hs : ∀ s ∈ ss, '\x00' ∉ s.toList)
    (ht : ∀ t ∈ ts, '\x00' ∉ t.toList) (h : stopBytes ss = stopBytes ts) : ss = ts := by
  have hmarked : ∀ ss : List String, stopBytes ss =
      (ss.map String.toList).flatMap
        (fun p => p.flatMap String.utf8EncodeChar++String.utf8EncodeChar '\x00') := by
    intro ss
    rw [List.flatMap_map, nul_char]
    rfl
  rw [hmarked ss, hmarked ts] at h
  have hlists := marked_texts String.utf8EncodeChar char_delimited '\x00' _ _
    (by simpa using hs) (by simpa using ht) (by rw [nul_char]; simp) h
  exact List.map_injective_iff.mpr (fun a b => String.toList_inj.mp) hlists

section Messages

theorem part_injective (a b : ContentPart) (h : partValue a = partValue b) : a = b := by
  cases a with
  | text s =>
    cases b with
    | text t => simpa [partValue] using h
    | imageUrl image => simp [partValue] at h
  | imageUrl image =>
    cases b with
    | text t => simp [partValue] at h
    | imageUrl image' =>
      obtain ⟨url, detail⟩ := image
      obtain ⟨url', detail'⟩ := image'
      cases detail <;> cases detail' <;> simp_all [partValue, optionField]

theorem call_injective (a b : ToolCall) (h : callValue a = callValue b) : a = b := by
  obtain ⟨id, name, arguments⟩ := a
  obtain ⟨id', name', arguments'⟩ := b
  simpa [callValue] using h

theorem role_injective (a b : Role) (h : roleText a = roleText b) : a = b := by
  cases a <;> cases b <;> first | rfl | (revert h; decide)

/-- The fields of a message, as a reader of its value finds them. -/
theorem message_lookups (m : ChatMessage) :
    (messageValue m).get "role" = some (.string (roleText m.role)) ∧
      (messageValue m).get "content" = some (.string m.content) ∧
      (messageValue m).get "content_parts" =
        (if m.contentParts.isEmpty then none else some (.array (m.contentParts.map partValue))) ∧
      (messageValue m).get "tool_call_id" = m.toolCallId.map Value.string ∧
      (messageValue m).get "name" = m.name.map Value.string ∧
      (messageValue m).get "tool_calls" =
        m.toolCalls.map (fun calls => .array (calls.map callValue)) := by
  have hfield : ∀ (key key' : String) (v : Option String), lookup key (optionField key' v) =
      if key' = key then v.map Value.string else none := by
    intro key key' v
    cases v <;> simp [optionField, lookup]
  have hparts : ∀ key : String, lookup key (partsField m.contentParts) =
      if "content_parts" = key then
        (if m.contentParts.isEmpty then none else some (.array (m.contentParts.map partValue)))
      else none := by
    intro key
    unfold partsField
    split <;> simp [lookup]
  have hcalls : ∀ key : String, lookup key (callsField m.toolCalls) =
      if "tool_calls" = key then m.toolCalls.map (fun calls => .array (calls.map callValue))
      else none := by
    intro key
    cases m.toolCalls <;> simp [callsField, lookup]
  simp [messageValue, Value.get, lookup, lookup_append, hfield, hparts, hcalls]

theorem message_injective (a b : ChatMessage) (h : messageValue a = messageValue b) : a = b := by
  obtain ⟨hrole, hcontent, hparts, hid, hname, hcalls⟩ := message_lookups a
  obtain ⟨hrole', hcontent', hparts', hid', hname', hcalls'⟩ := message_lookups b
  rw [h] at hrole hcontent hparts hid hname hcalls
  rw [hrole] at hrole'
  rw [hcontent] at hcontent'
  rw [hparts] at hparts'
  rw [hid] at hid'
  rw [hname] at hname'
  rw [hcalls] at hcalls'
  have hstring : Function.Injective Value.string := fun _ _ h => Value.string.inj h
  have hpartsEq : a.contentParts = b.contentParts := by
    cases ha : a.contentParts <;> cases hb : b.contentParts <;>
      simp only [ha, hb, List.isEmpty_nil, List.isEmpty_cons, if_true, Bool.false_eq_true,
        if_false, reduceCtorEq, Option.some.injEq, Value.array.injEq] at hparts'
    · rfl
    · exact List.map_injective_iff.mpr part_injective hparts'
  have hcallsEq : a.toolCalls = b.toolCalls :=
    Option.map_injective (fun _ _ heq =>
      List.map_injective_iff.mpr call_injective (Value.array.inj heq)) hcalls'
  have hroleEq := role_injective _ _ (Value.string.inj (Option.some.inj hrole'))
  have hcontentEq := Value.string.inj (Option.some.inj hcontent')
  have hidEq := Option.map_injective hstring hid'
  have hnameEq := Option.map_injective hstring hname'
  cases a
  cases b
  simp_all

end Messages

def ValidMessages (messages : List ChatMessage) : Prop :=
  ∀ m ∈ messages, ∀ calls, m.toolCalls = some calls → ∀ c ∈ calls, ValidValue c.arguments

theorem validItems_of (xs : List Value) (h : ∀ x ∈ xs, ValidValue x) : ValidItems xs := by
  induction xs with
  | nil => trivial
  | cons x xs ih =>
    exact ⟨h x List.mem_cons_self, ih (fun y hy => h y (List.mem_cons_of_mem x hy))⟩

theorem validFields_of (fields : Fields) (h : ∀ f ∈ fields, ValidValue f.2) :
    ValidFields fields := by
  induction fields with
  | nil => trivial
  | cons f fields ih =>
    exact ⟨h f List.mem_cons_self, ih (fun g hg => h g (List.mem_cons_of_mem f hg))⟩

theorem optionField_valid (key : String) (v : Option String) :
    ∀ f ∈ optionField key v, ValidValue f.2 := by
  cases v <;> simp [optionField, ValidValue]

theorem part_valid (part : ContentPart) : ValidValue (partValue part) := by
  cases part with
  | text text => exact ⟨trivial, trivial, trivial⟩
  | imageUrl image =>
    have hdetail := validFields_of _ (optionField_valid "detail" image.detail)
    exact ⟨trivial, ⟨trivial, hdetail⟩, trivial⟩

theorem message_valid (m : ChatMessage)
    (h : ∀ calls, m.toolCalls = some calls → ∀ c ∈ calls, ValidValue c.arguments) :
    ValidValue (messageValue m) := by
  have hparts : ∀ f ∈ partsField m.contentParts, ValidValue f.2 := by
    intro f hf
    unfold partsField at hf
    split at hf
    · simp at hf
    · rw [List.mem_singleton.mp hf]
      apply validItems_of
      intro v hv
      obtain ⟨part, _, hpart⟩ := List.mem_map.mp hv
      rw [← hpart]
      exact part_valid part
  have hcalls : ∀ f ∈ callsField m.toolCalls, ValidValue f.2 := by
    intro f hf
    unfold callsField at hf
    cases hm : m.toolCalls with
    | none =>
      rw [hm] at hf
      simp at hf
    | some calls =>
      rw [hm] at hf
      rw [List.mem_singleton.mp hf]
      apply validItems_of
      intro v hv
      obtain ⟨c, hc, hcall⟩ := List.mem_map.mp hv
      rw [← hcall]
      exact ⟨trivial, trivial, h calls hm c hc, trivial⟩
  refine ⟨trivial, trivial, validFields_of _ ?_⟩
  intro f hf
  rcases List.mem_append.mp hf with hf | hf
  · rcases List.mem_append.mp hf with hf | hf
    · rcases List.mem_append.mp hf with hf | hf
      · exact hparts f hf
      · exact optionField_valid _ _ f hf
    · exact optionField_valid _ _ f hf
  · exact hcalls f hf

/-- JSON in front of a bar ends where it ends: a bar inside would come behind a
complete value. -/
theorem json_until (floats : FloatPrinter) (v w : Value) (s t : List UInt8) (hv : ValidValue v)
    (hw : ValidValue w)
    (h : utf8 (printValue floats v)++bar::s = utf8 (printValue floats w)++bar::t) :
    v = w ∧ s = t := by
  have hends : ∀ v w : Value, ∀ r : List Char, ∀ s t : List UInt8, ValidValue v → ValidValue w →
      printValue floats w = printValue floats v++r → bar::s = utf8 r++bar::t → r = [] := by
    intro v w r s t hv hw htext hrest
    cases r with
    | nil => rfl
    | cons c r =>
      have hbar : String.utf8EncodeChar '|'++s =
          String.utf8EncodeChar c++(utf8 r++bar::t) := by
        rw [bar_char]
        simpa [utf8] using hrest
      have hc := (char_delimited '|' c _ _ hbar).1
      rw [← hc] at htext
      have hend := (value_delimited floats w v [] ('|'::r) hw hv (by simp [Stops])
        (by simp [Stops, isNumeric]) (by rw [List.append_nil, htext])).2
      exact absurd hend (by simp)
  rcases text_overlap String.utf8EncodeChar char_delimited _ _ _ _ h with
    ⟨r, htext, hrest⟩ | ⟨r, htext, hrest⟩
  · rw [hends v w r s t hv hw htext hrest, List.append_nil] at htext
    have hvw := (value_delimited floats v w [] [] hv hw (by simp [Stops]) (by simp [Stops])
      (by rw [List.append_nil, List.append_nil, htext])).1
    rw [hvw] at h
    exact ⟨hvw, (List.cons.inj (List.append_cancel_left h)).2⟩
  · rw [hends w v r t s hw hv htext hrest, List.append_nil] at htext
    have hvw := (value_delimited floats v w [] [] hv hw (by simp [Stops]) (by simp [Stops])
      (by rw [List.append_nil, List.append_nil, htext])).1
    rw [hvw] at h
    exact ⟨hvw, (List.cons.inj (List.append_cancel_left h)).2⟩

def PlainStops (stops : Option (List String)) : Prop :=
  stops ≠ some [] ∧ ∀ ss, stops = some ss → ∀ s ∈ ss, '\x00' ∉ s.toList

structure TellsApart (p q : Question) : Prop where
  model : p.1 = q.1 ∨ ('|' ∉ p.1.toList ∧ '|' ∉ q.1.toList)
  maxTokens : Marked p.2.maxTokens q.2.maxTokens
  temperature : Marked p.2.temperature q.2.temperature
  stops : p.2.stopSequences = q.2.stopSequences ∨
    (PlainStops p.2.stopSequences ∧ PlainStops q.2.stopSequences)

theorem plain_stops_injective (x y : Option (List String)) (hx : PlainStops x)
    (hy : PlainStops y) (h : stopBytes (x.getD []) = stopBytes (y.getD [])) : x = y := by
  have hlists : x.getD [] = y.getD [] := by
    apply stops_injective _ _ _ _ h
    · cases x with
      | none => simp
      | some ss => exact hx.2 ss rfl
    · cases y with
      | none => simp
      | some ss => exact hy.2 ss rfl
  cases x with
  | none =>
    cases y with
    | none => rfl
    | some ss => exact absurd (congrArg some hlists.symm) hy.1
  | some ss =>
    cases y with
    | none => exact absurd (congrArg some hlists) hx.1
    | some ts => exact congrArg some hlists

theorem model_split (p q : String) (s t : List UInt8)
    (hmodel : p = q ∨ ('|' ∉ p.toList ∧ '|' ∉ q.toList))
    (h : utf8 p.toList++bar::s = utf8 q.toList++bar::t) : p = q ∧ s = t := by
  rcases hmodel with hpq | ⟨hp, hq⟩
  · rw [hpq] at h
    exact ⟨hpq, (List.cons.inj (List.append_cancel_left h)).2⟩
  · have htext := text_until String.utf8EncodeChar char_delimited '|' p.toList q.toList s t hp hq
      (by rw [bar_char]; exact h)
    exact ⟨String.toList_inj.mp htext.1, htext.2⟩

theorem keyBytes_injective (floats : FloatPrinter) (p q : Question)
    (hp : ValidMessages p.2.messages) (hq : ValidMessages q.2.messages) (hpq : TellsApart p q)
    (h : keyBytes floats p.1 p.2 = keyBytes floats q.1 q.2) : p = q := by
  have hvalid : ∀ ms : List ChatMessage, ValidMessages ms → ValidValue (messagesValue ms) := by
    intro ms hms
    apply validItems_of
    intro v hv
    obtain ⟨m, hm, hvalue⟩ := List.mem_map.mp hv
    rw [← hvalue]
    exact message_valid m (hms m hm)
  obtain ⟨hmodel, h⟩ := model_split p.1 q.1 _ _ hpq.model h
  obtain ⟨hmessages, h⟩ := json_until floats _ _ _ _ (hvalid _ hp) (hvalid _ hq) h
  obtain ⟨hmax, h⟩ := option_split _ _ _ _ hpq.maxTokens h
  obtain ⟨htemperature, h⟩ := option_split _ _ _ _ hpq.temperature h
  have hlist := List.map_injective_iff.mpr message_injective (Value.array.inj hmessages)
  have hstops : p.2.stopSequences = q.2.stopSequences := by
    rcases hpq.stops with hsame | ⟨hplain, hplain'⟩
    · exact hsame
    · exact plain_stops_injective _ _ hplain hplain' h
  obtain ⟨model, messages, maxTokens, temperature, stops⟩ := p
  obtain ⟨model', messages', maxTokens', temperature', stops'⟩ := q
  simp_all

def asked {ρ : Type} (steps : List (Step ρ)) : List Question := steps.flatMap Step.questions

/-- Questions that tell apart have keys of their own, and what the cache
serves is what the provider answered to that very question. -/
theorem cached_answers {ρ : Type} (floats : FloatPrinter) (cfg : Config)
    (hash : List UInt8 → String) (steps : List (Step ρ))
    (hvalid : ∀ q ∈ asked steps, ValidMessages q.2.messages)
    (hhash : ∀ p ∈ asked steps, ∀ q ∈ asked steps,
      hash (keyBytes floats p.1 p.2) = hash (keyBytes floats q.1 q.2) →
        keyBytes floats p.1 p.2 = keyBytes floats q.1 q.2)
    (hapart : ∀ p ∈ asked steps, ∀ q ∈ asked steps, TellsApart p q) :
    (∀ p ∈ asked steps, ∀ q ∈ asked steps,
      keyBytes floats p.1 p.2 = keyBytes floats q.1 q.2 → p = q) ∧
    ∀ s ∈ (run (step cfg (fun q => hash (keyBytes floats q.1 q.2))) steps State.new).served,
      s ∈ (run (step cfg (fun q => hash (keyBytes floats q.1 q.2))) steps State.new).answered := by
  have hkeys : ∀ p ∈ asked steps, ∀ q ∈ asked steps,
      keyBytes floats p.1 p.2 = keyBytes floats q.1 q.2 → p = q := by
    intro p hp q hq
    exact keyBytes_injective floats p q (hvalid p hp) (hvalid q hq) (hapart p hp q hq)
  refine ⟨hkeys, ?_⟩
  apply run_served cfg _ (· ∈ asked steps)
  · intro p q hp hq heq
    exact hkeys p hp q hq (hhash p hp q hq heq)
  · intro a ha q hq
    exact List.mem_flatMap.mpr ⟨a, ha, hq⟩

section Shared

variable (floats : FloatPrinter) (model : String) (request : CompletionRequest)

theorem empty_stops_share (h : request.stopSequences = none) :
    keyBytes floats model { request with stopSequences := some [] } =
      keyBytes floats model request := by
  simp [keyBytes, h]

theorem nul_stop_shares (before after : List String) (p q : List Char) :
    keyBytes floats model
        { request with
          stopSequences := some (before++String.ofList (p++ '\x00' ::q)::after) } =
      keyBytes floats model
        { request with
          stopSequences := some (before++String.ofList p::String.ofList q::after) } := by
  have hstops : stopBytes (before++String.ofList (p++ '\x00' ::q)::after) =
      stopBytes (before++String.ofList p::String.ofList q::after) := by
    simp [stopBytes, utf8, String.toList_ofList, nul_char]
  simp only [keyBytes, Option.getD_some, hstops]

/-- A token limit that begins like a bar shares its key with a temperature. -/
theorem barred_limit_shares (n : UInt32) (h : n.toUInt8 = bar) :
    keyBytes floats model { request with maxTokens := some n, temperature := none } =
      keyBytes floats model
        { request with maxTokens := none, temperature := some ((n >>> 8)+0x7c000000) } := by
  have hn := n.toNat_lt
  have hbytes : leBytes n++[bar] = bar::leBytes ((n >>> 8)+0x7c000000) := by
    have hlow := congrArg UInt8.toNat h
    simp only [leBytes, List.cons_append, List.nil_append, List.cons.injEq, and_true,
      ← UInt8.toNat_inj, bar, UInt32.toNat_toUInt8, UInt32.toNat_shiftRight, UInt32.toNat_add,
      UInt32.reduceToNat, UInt8.reduceToNat, Nat.shiftRight_eq_div_pow, Nat.reduceMod,
      Nat.reducePow] at hlow ⊢
    omega
  have hfields : ∀ s, optionBytes (some n)++bar::(optionBytes none++bar::s) =
      optionBytes none++bar::(optionBytes (some ((n >>> 8)+0x7c000000))++bar::s) := by
    intro s
    have hshift := congrArg (·++bar::s) hbytes
    simpa [optionBytes] using hshift
  simp only [keyBytes, hfields]

end Shared

def helloQuestion (stops : Option (List String)) : Question :=
  ("gpt", ⟨[.user "hello"], none, none, stops⟩)

def byeQuestion : Question := ("gpt", ⟨[.user "bye"], none, none, none⟩)

def helloHash (bytes : List UInt8) : String :=
  if bytes = keyBytes plainFloats "gpt" (helloQuestion none).2 then
    "94c0b0ed52200d1199d5927b395d1a2640df7423eb46098c4ad5ec5428d98d80"
  else "81da7cb3b5af754b71bac3feb1e5deaf0577aa76a5dbd6af3f4c2dbd75d4b094"

def helloSteps : List (Step String) :=
  [.file (helloQuestion none) 0 ⟨id, fun _ => .refl _⟩ "hi", .look (helloQuestion none) 1,
    .file byeQuestion 2 ⟨id, fun _ => .refl _⟩ "see you", .look byeQuestion 3]

/-- The second answer finds the cache full. -/
theorem cached_answers_hello :
    asked helloSteps = [helloQuestion none, helloQuestion none, byeQuestion, byeQuestion] ∧
    ∀ s ∈ (run (step ⟨3600*10^9, 1⟩ (fun q => helloHash (keyBytes plainFloats q.1 q.2)))
        helloSteps State.new).served,
      s ∈ (run (step ⟨3600*10^9, 1⟩ (fun q => helloHash (keyBytes plainFloats q.1 q.2)))
        helloSteps State.new).answered := by
  have htwo : ∀ q ∈ asked helloSteps, q = helloQuestion none ∨ q = byeQuestion := by
    intro q hq
    simpa [helloSteps, asked, Step.questions] using hq
  have happart : helloHash (keyBytes plainFloats (helloQuestion none).1 (helloQuestion none).2) ≠
      helloHash (keyBytes plainFloats byeQuestion.1 byeQuestion.2) := by
    decide +kernel
  refine ⟨rfl, (cached_answers plainFloats ⟨3600*10^9, 1⟩ helloHash _ ?_ ?_ ?_).2⟩
  · intro q hq m hm calls hcalls
    rcases htwo q hq with rfl | rfl
    · rw [List.mem_singleton.mp hm] at hcalls
      simp [ChatMessage.user] at hcalls
    · rw [List.mem_singleton.mp hm] at hcalls
      simp [ChatMessage.user] at hcalls
  · intro p hp q hq hsame
    rcases htwo p hp with rfl | rfl <;> rcases htwo q hq with rfl | rfl
    · rfl
    · exact absurd hsame happart
    · exact absurd hsame.symm happart
    · rfl
  · intro p hp q hq
    rcases htwo p hp with rfl | rfl <;> rcases htwo q hq with rfl | rfl <;>
      exact ⟨Or.inl rfl, Or.inl rfl, Or.inl rfl, Or.inl rfl⟩

/-- One stop sequence with a NUL in it is answered from the cache with what
was said to its two halves, whatever the hash. -/
theorem nul_stop_answered :
    (∀ stops, ValidMessages (helloQuestion stops).2.messages) ∧
    keyBytes plainFloats "gpt" (helloQuestion (some ["a\x00b"])).2 =
      keyBytes plainFloats "gpt" (helloQuestion (some ["a", "b"])).2 ∧
    helloQuestion (some ["a\x00b"]) ≠ helloQuestion (some ["a", "b"]) ∧
    ∀ hash : List UInt8 → String,
      (run (step ⟨3600*10^9, 1000⟩ (fun q => hash (keyBytes plainFloats q.1 q.2)))
        [.file (helloQuestion (some ["a", "b"])) 0 ⟨id, fun _ => .refl _⟩ "hi",
          .look (helloQuestion (some ["a\x00b"])) 1] State.new).served =
        [(helloQuestion (some ["a\x00b"]), "hi")] ∧
      (run (step ⟨3600*10^9, 1000⟩ (fun q => hash (keyBytes plainFloats q.1 q.2)))
        [.file (helloQuestion (some ["a", "b"])) 0 ⟨id, fun _ => .refl _⟩ "hi",
          .look (helloQuestion (some ["a\x00b"])) 1] State.new).answered =
        [(helloQuestion (some ["a", "b"]), "hi")] := by
  have hvalid : ∀ stops, ValidMessages (helloQuestion stops).2.messages := by
    intro stops m hm calls hcalls
    rw [List.mem_singleton.mp hm] at hcalls
    simp [ChatMessage.user] at hcalls
  have hkey : keyBytes plainFloats "gpt" (helloQuestion (some ["a\x00b"])).2 =
      keyBytes plainFloats "gpt" (helloQuestion (some ["a", "b"])).2 :=
    nul_stop_shares plainFloats "gpt" (helloQuestion none).2 [] [] ['a'] ['b']
  refine ⟨hvalid, hkey, by decide, ?_⟩
  intro hash
  have hkeys : hash (keyBytes plainFloats (helloQuestion (some ["a\x00b"])).1
      (helloQuestion (some ["a\x00b"])).2) =
        hash (keyBytes plainFloats (helloQuestion (some ["a", "b"])).1
          (helloQuestion (some ["a", "b"])).2) := congrArg hash hkey
  simp only [run, step, hkeys]
  simp [fileResponse, State.new, evict, lookupCache, lookupEntry, insertEntry, removeEntry]

end IronClaw.ResponseCache
