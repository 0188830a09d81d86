import IronClaw.JsonMap
import IronClaw.JsonText
import IronClaw.Lib.Groups
import IronClaw.ToolMessages

/-!
# Messages for Bedrock

`llm/bedrock.rs` takes the system messages out of a conversation, turns tool
results into blocks of user messages and merges neighbours of one role. Tool
arguments go through the documents of the SDK, whose objects are hash maps:
the order in which one is walked is a parameter, as is the reading of JSON.
-/

set_option autoImplicit false

namespace IronClaw.Bedrock
open IronClaw.JsonValue IronClaw.JsonMap IronClaw.JsonText IronClaw.LlmMessage
open Lib.Groups

inductive Document where
  | null
  | bool (b : Bool)
  | number (n : Number)
  | string (s : String)
  | array (xs : List Document)
  | object (entries : List (String × Document))

structure HashOrder where
  arrange : List (String × Document) → List (String × Document)
  arrange_perm : ∀ entries, (arrange entries).Perm entries

section

variable (order : HashOrder)

mutual

def jsonToDocument : Value → Document
  | .null => .null
  | .bool b => .bool b
  | .number n => .number n
  | .string s => .string s
  | .array arr => .array (itemsToDocuments arr)
  | .object obj => .object (order.arrange (fieldsToDocuments obj))

def itemsToDocuments : List Value → List Document
  | [] => []
  | x::xs => jsonToDocument x::itemsToDocuments xs

def fieldsToDocuments : Fields → List (String × Document)
  | [] => []
  | (k, v)::fields => (k, jsonToDocument v)::fieldsToDocuments fields

end

end

/-- `serde_json::Map` collected from the entries of a hash map. -/
def collect (entries : Fields) : Fields :=
  entries.foldl (fun map e => JsonValue.insert e.1 e.2 map) []

def numberToJson : Number → Value
  | .posInt u => .number (.posInt u)
  | .negInt i => if i < 0 then .number (.negInt i) else .number (.posInt i.toUInt64)
  | .float bits => if (bits >>> 52) &&& 0x7FF = 0x7FF then .null else .number (.float bits)

mutual

def documentToJson : Document → Value
  | .null => .null
  | .bool b => .bool b
  | .number n => numberToJson n
  | .string s => .string s
  | .array arr => .array (itemsToJson arr)
  | .object obj => .object (collect (entriesToJson obj))

def itemsToJson : List Document → List Value
  | [] => []
  | x::xs => documentToJson x::itemsToJson xs

def entriesToJson : List (String × Document) → Fields
  | [] => []
  | (k, d)::entries => (k, documentToJson d)::entriesToJson entries

end

/-! ## Messages -/

inductive ConversationRole where
  | user
  | assistant
  deriving DecidableEq

inductive ToolResultStatus where
  | success
  | error
  deriving DecidableEq

inductive ContentBlock where
  | text (text : String)
  | toolUse (toolUseId name : String) (input : Document)
  | toolResult (toolUseId content : String) (status : ToolResultStatus)

abbrev Message := ConversationRole × List ContentBlock

def pushMessage (messages : List Message) (role : ConversationRole)
    (content : List ContentBlock) : List Message := push messages role content

structure Conversion where
  systemBlocks : List String
  bedrockMessages : List Message
  pendingToolResults : List ContentBlock

def Conversion.flushToolResults (c : Conversion) : Conversion :=
  if c.pendingToolResults.isEmpty then c
  else { c with
    bedrockMessages := pushMessage c.bedrockMessages .user c.pendingToolResults
    pendingToolResults := [] }

section

variable (order : HashOrder) (fromStr : String → Option Value)

def toolResultStatus (content : String) : ToolResultStatus :=
  match fromStr content with
  | some json =>
    match json.get "is_error" with
    | some (.bool true) => .error
    | _ => .success
  | none => .success

def toolUseBlock (tc : ToolCall) : ContentBlock :=
  .toolUse tc.id tc.name (jsonToDocument order tc.arguments)

def assistantContent (msg : ChatMessage) : List ContentBlock :=
  (if msg.content.isEmpty then [] else [.text msg.content])++
    (msg.toolCalls.getD []).map (toolUseBlock order)

def toolResultBlock (msg : ChatMessage) : ContentBlock :=
  .toolResult (msg.toolCallId.getD "unknown") msg.content (toolResultStatus fromStr msg.content)

def convertMessage (c : Conversion) (msg : ChatMessage) : Conversion :=
  match msg.role with
  | .system =>
    if msg.content.isEmpty then c
    else { c with systemBlocks := c.systemBlocks++[msg.content] }
  | .user =>
    let c := c.flushToolResults
    { c with bedrockMessages := pushMessage c.bedrockMessages .user [.text msg.content] }
  | .assistant =>
    let c := c.flushToolResults
    let content := assistantContent order msg
    if content.isEmpty then c
    else { c with bedrockMessages := pushMessage c.bedrockMessages .assistant content }
  | .tool =>
    { c with pendingToolResults := c.pendingToolResults++[toolResultBlock fromStr msg] }

def convertMessages (messages : List ChatMessage) : List String × List Message :=
  let c := (messages.foldl (convertMessage order fromStr) ⟨[], [], []⟩).flushToolResults
  (c.systemBlocks, c.bedrockMessages)

end

def textPart : ContentBlock → Option String
  | .text t => some t
  | _ => none

def toolCallPart : ContentBlock → Option ToolCall
  | .toolUse id name input => some ⟨id, name, documentToJson input⟩
  | _ => none

def extractContentBlocks (content : List ContentBlock) : String × List ToolCall :=
  (String.join (content.filterMap textPart), content.filterMap toolCallPart)

/-! ## Arguments -/

mutual

def WellFormed : Value → Prop
  | .number n => ValidNumber n
  | .array xs => WellFormedItems xs
  | .object fields => Ordered fields ∧ WellFormedFields fields
  | .null | .bool _ | .string _ => True

def WellFormedItems : List Value → Prop
  | [] => True
  | x::xs => WellFormed x ∧ WellFormedItems xs

def WellFormedFields : Fields → Prop
  | [] => True
  | (_, x)::fields => WellFormed x ∧ WellFormedFields fields

end

theorem number_round_trip (n : Number) (h : ValidNumber n) : numberToJson n = .number n := by
  cases n with
  | posInt u => rfl
  | negInt i =>
    have hneg : i < 0 := Int64.lt_iff_toInt_lt.mpr h
    rw [numberToJson, if_pos hneg]
  | float bits =>
    rw [numberToJson, if_neg h]

theorem lookup_foldl (key : String) (entries map : Fields)
    (h : (entries.map Prod.fst).Nodup) :
    lookup key (entries.foldl (fun map e => JsonValue.insert e.1 e.2 map) map) =
      (lookup key entries).or (lookup key map) := by
  induction entries generalizing map with
  | nil => rfl
  | cons e entries ih =>
    obtain ⟨hnew, hrest⟩ := List.nodup_cons.mp h
    rw [List.foldl_cons, ih _ hrest, lookup_insert]
    by_cases hk : key = e.1
    · have hnone : lookup e.1 entries = none := by
        rw [Option.eq_none_iff_forall_not_mem]
        intro v hv
        exact hnew (List.mem_map.mpr ⟨(e.1, v), lookup_mem e.1 v entries hv, rfl⟩)
      rw [if_pos hk, hk, hnone]
      simp [lookup]
    · rw [if_neg hk, lookup, if_neg (Ne.symm hk)]

theorem mem_lookup_nodup (key : String) (v : Value) (entries : Fields)
    (hnodup : (entries.map Prod.fst).Nodup) (h : (key, v) ∈ entries) :
    lookup key entries = some v := by
  induction entries with
  | nil => cases h
  | cons e entries ih =>
    obtain ⟨hnew, hrest⟩ := List.nodup_cons.mp hnodup
    rcases List.mem_cons.mp h with rfl | h
    · simp [lookup]
    · have hne : e.1 ≠ key := fun heq => hnew (List.mem_map.mpr ⟨(key, v), h, heq.symm⟩)
      rw [lookup, if_neg hne, ih hrest h]

theorem collect_ordered (entries : Fields) : Ordered (collect entries) := by
  unfold collect
  have hfold : ∀ map, Ordered map →
      Ordered (entries.foldl (fun map e => JsonValue.insert e.1 e.2 map) map) := by
    induction entries with
    | nil => exact fun map h => h
    | cons e entries ih => exact fun map h => ih _ (insert_ordered e.1 e.2 map h)
  exact hfold [] ordered_nil

/-- Collecting the fields of an object in any order gives them back. -/
theorem collect_perm (entries fields : Fields) (hordered : Ordered fields)
    (hperm : entries.Perm fields) : collect entries = fields := by
  have hfields : (fields.map Prod.fst).Nodup := hordered.imp (fun h => ne_of_lt h)
  have hentries : (entries.map Prod.fst).Nodup :=
    (hperm.map Prod.fst).nodup_iff.mpr hfields
  apply ordered_ext _ _ (collect_ordered entries) hordered
  intro key
  rw [collect, lookup_foldl key entries [] hentries]
  have hnil : lookup key [] = none := rfl
  rw [hnil, Option.or_none]
  cases hfound : lookup key fields with
  | some v =>
    exact mem_lookup_nodup key v entries hentries
      (hperm.mem_iff.mpr (lookup_mem key v fields hfound))
  | none =>
    rw [Option.eq_none_iff_forall_not_mem]
    intro v hv
    have hin := hperm.mem_iff.mp (lookup_mem key v entries hv)
    rw [mem_lookup_nodup key v fields hfields hin] at hfound
    cases hfound

theorem entriesToJson_map (entries : List (String × Document)) :
    entriesToJson entries = entries.map (fun e => (e.1, documentToJson e.2)) := by
  induction entries with
  | nil => rfl
  | cons e entries ih => simp [entriesToJson, ih]

section

variable (order : HashOrder)

mutual

/-- Arguments come back from the documents of the SDK as they were. -/
theorem document_round_trip (v : Value) (h : WellFormed v) :
    documentToJson (jsonToDocument order v) = v := by
  cases v with
  | null => rfl
  | bool b => rfl
  | number n => exact number_round_trip n h
  | string s => rfl
  | array xs =>
    rw [jsonToDocument, documentToJson, items_round_trip xs h]
  | object fields =>
    have hentries : (entriesToJson (order.arrange (fieldsToDocuments order fields))).Perm
        fields := by
      rw [entriesToJson_map]
      apply ((order.arrange_perm _).map _).trans
      rw [← entriesToJson_map, fields_round_trip fields h.2]
    rw [jsonToDocument, documentToJson, collect_perm _ fields h.1 hentries]

theorem items_round_trip (xs : List Value) (h : WellFormedItems xs) :
    itemsToJson (itemsToDocuments order xs) = xs := by
  cases xs with
  | nil => rfl
  | cons x xs =>
    rw [itemsToDocuments, itemsToJson, document_round_trip x h.1, items_round_trip xs h.2]

theorem fields_round_trip (fields : Fields) (h : WellFormedFields fields) :
    entriesToJson (fieldsToDocuments order fields) = fields := by
  cases fields with
  | nil => rfl
  | cons f fields =>
    obtain ⟨k, v⟩ := f
    rw [fieldsToDocuments, entriesToJson, document_round_trip v h.1, fields_round_trip fields h.2]

end

end

end IronClaw.Bedrock
