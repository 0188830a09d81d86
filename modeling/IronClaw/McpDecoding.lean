import IronClaw.HttpApproval
import IronClaw.McpTransport

/-!
# Decoding of MCP results

`tools/mcp/protocol.rs` reads the results of `tools/list` and `tools/call` by
derived deserialization, `tools/mcp/client.rs` makes tools of the first and
tool outputs of the second. A member under a name that the structs do not know
is ignored, and an absent one takes its default. The texts of the errors of
`serde_json` are a parameter.
-/

set_option autoImplicit false

namespace IronClaw.McpDecoding
open IronClaw.JsonValue IronClaw.Dispatcher IronClaw.HttpApproval IronClaw.McpTransport

def fieldsOf (required : ℕ) (names : List String) : Value → Option (String → Option Value)
  | .object fields => some (fun name => lookup name fields)
  | .array xs =>
    if required ≤ xs.length ∧ xs.length ≤ names.length then
      some (fun name => lookup name (names.zip xs))
    else none
  | _ => none

section

variable {α : Type}

def orDefault (read : Value → Option α) (default : α) : Option Value → Option α
  | none => some default
  | some v => read v

def optional (read : Value → Option α) (v : Option Value) : Option (Option α) :=
  match present v with
  | none => some none
  | some v => (read v).map some

def parseEach (read : Value → Option α) : List Value → Option (List α)
  | [] => some []
  | v::vs => (read v).bind fun x => (parseEach read vs).map fun xs => x::xs

def parseVec (read : Value → Option α) : Value → Option (List α)
  | .array vs => parseEach read vs
  | _ => none

end

def parseBool : Value → Option Bool
  | .bool b => some b
  | _ => none

inductive ExecutionTimeHint where
  | fast
  | medium
  | slow
  deriving DecidableEq

def executionTimeNamed (name : String) : Option ExecutionTimeHint :=
  if name = "fast" then some .fast
  else if name = "medium" then some .medium
  else if name = "slow" then some .slow
  else none

def parseExecutionTimeHint : Value → Option ExecutionTimeHint
  | .string name => executionTimeNamed name
  | .object [(name, .null)] => executionTimeNamed name
  | _ => none

structure McpToolAnnotations where
  destructiveHint : Bool
  sideEffectsHint : Bool
  readOnlyHint : Bool
  executionTimeHint : Option ExecutionTimeHint
  deriving DecidableEq

structure McpTool where
  name : String
  description : String
  inputSchema : Value
  annotations : Option McpToolAnnotations
  deriving DecidableEq

structure ListToolsResult where
  tools : List McpTool
  deriving DecidableEq

inductive ContentBlock where
  | text (text : String)
  | image (data mimeType : String)
  | resource (uri : String) (mimeType text : Option String)
  deriving DecidableEq

structure CallToolResult where
  content : List ContentBlock
  isError : Bool
  deriving DecidableEq

def parseAnnotations (v : Value) : Option McpToolAnnotations := do
  let get ← fieldsOf 0
    ["destructive_hint", "side_effects_hint", "read_only_hint", "execution_time_hint"] v
  let destructive ← orDefault parseBool false (get "destructive_hint")
  let sideEffects ← orDefault parseBool false (get "side_effects_hint")
  let readOnly ← orDefault parseBool false (get "read_only_hint")
  let time ← optional parseExecutionTimeHint (get "execution_time_hint")
  some ⟨destructive, sideEffects, readOnly, time⟩

def defaultInputSchema : Value :=
  .object [("properties", .object []), ("type", .string "object")]

def schemaOf : Option Value → Option Value → Option Value
  | some _, some _ => none
  | some schema, none => some schema
  | none, some schema => some schema
  | none, none => some defaultInputSchema

def parseTool (v : Value) : Option McpTool := do
  let get ← fieldsOf 1 ["name", "description", "inputSchema", "annotations"] v
  let name ← (get "name").bind Value.asStr
  let description ← orDefault Value.asStr "" (get "description")
  let schema ← schemaOf (get "inputSchema") (get "input_schema")
  let annotations ← optional parseAnnotations (get "annotations")
  some ⟨name, description, schema, annotations⟩

def parseListToolsResult (v : Value) : Option ListToolsResult := do
  let get ← fieldsOf 1 ["tools"] v
  let tools ← (get "tools").bind (parseVec parseTool)
  some ⟨tools⟩

def parseVariant (tag : String) (v : Value) : Option ContentBlock :=
  if tag = "text" then do
    let get ← fieldsOf 1 ["text"] v
    let text ← (get "text").bind Value.asStr
    some (.text text)
  else if tag = "image" then do
    let get ← fieldsOf 2 ["data", "mime_type"] v
    let data ← (get "data").bind Value.asStr
    let mimeType ← (get "mime_type").bind Value.asStr
    some (.image data mimeType)
  else if tag = "resource" then do
    let get ← fieldsOf 3 ["uri", "mime_type", "text"] v
    let uri ← (get "uri").bind Value.asStr
    let mimeType ← optional Value.asStr (get "mime_type")
    let text ← optional Value.asStr (get "text")
    some (.resource uri mimeType text)
  else none

def parseContentBlock : Value → Option ContentBlock
  | .object fields =>
    ((lookup "type" fields).bind Value.asStr).bind fun tag => parseVariant tag (.object fields)
  | .array (tag::xs) => tag.asStr.bind fun tag => parseVariant tag (.array xs)
  | _ => none

def parseCallToolResult (v : Value) : Option CallToolResult := do
  let get ← fieldsOf 1 ["content", "is_error"] v
  let content ← (get "content").bind (parseVec parseContentBlock)
  let isError ← orDefault parseBool false (get "is_error")
  some ⟨content, isError⟩

def ContentBlock.asText : ContentBlock → Option String
  | .text s => some s
  | _ => none

def McpTool.requiresApproval (tool : McpTool) : Bool :=
  (tool.annotations.map McpToolAnnotations.destructiveHint).getD false

structure McpClient where
  serverName : String
  initialized : Except ToolError Unit
  sendRequest : String → Option Value → Except ToolError McpResponse
  describe : Value → String

namespace McpClient

def listTools (client : McpClient) (toolsCache : Option (List McpTool)) :
    Except ToolError (List McpTool) :=
  match toolsCache with
  | some tools => .ok tools
  | none => do
    client.initialized
    let response ← client.sendRequest "tools/list" none
    match response.error, response.result with
    | some e, _ =>
      .error (.externalService ("MCP error: "++e.message++" (code "++toString e.code++")"))
    | none, none => .error (.externalService "No result in MCP response")
    | none, some v =>
      match parseListToolsResult v with
      | some result => .ok result.tools
      | none => .error (.externalService ("Invalid tools list: "++client.describe v))

def callTool (client : McpClient) (name : String) (arguments : Value) :
    Except ToolError CallToolResult := do
  client.initialized
  let response ← client.sendRequest "tools/call"
    (some (.object [("arguments", arguments), ("name", .string name)]))
  match response.error, response.result with
  | some e, _ =>
    .error (.executionFailed ("MCP tool error: "++e.message++" (code "++toString e.code++")"))
  | none, none => .error (.externalService "No result in MCP response")
  | none, some v =>
    match parseCallToolResult v with
    | some result => .ok result
    | none => .error (.externalService ("Invalid tool result: "++client.describe v))

end McpClient

def stripTopLevelNulls : Value → Value
  | .object fields => .object (fields.filter fun f => f.2 ≠ .null)
  | v => v

structure McpToolWrapper where
  tool : McpTool
  prefixedName : String
  client : McpClient

def createTools (client : McpClient) (toolsCache : Option (List McpTool)) :
    Except ToolError (List McpToolWrapper) :=
  (client.listTools toolsCache).map fun tools =>
    tools.map fun t => ⟨t, client.serverName++"_"++t.name, client⟩

namespace McpToolWrapper

def execute (w : McpToolWrapper) (params : Value) : Except ToolError String := do
  let result ← w.client.callTool w.tool.name (stripTopLevelNulls params)
  let content := "\n".intercalate (result.content.filterMap ContentBlock.asText)
  if result.isError then .error (.executionFailed content) else .ok content

def requiresApproval (w : McpToolWrapper) (_params : Value) : ApprovalRequirement :=
  if w.tool.requiresApproval then .unlessAutoApproved else .never

end McpToolWrapper

def Optionally (ok : Value → Prop) (v : Option Value) : Prop := ∀ x, v = some x → ok x

def IsString (v : Value) : Prop := ∃ s, v = .string s

def IsBool (v : Value) : Prop := ∃ b, v = .bool b

structure HintsConform (hints : Fields) : Prop where
  destructive : Optionally IsBool (lookup "destructiveHint" hints)
  readOnly : Optionally IsBool (lookup "readOnlyHint" hints)
  undefined : ∀ name ∈
    ["destructive_hint", "side_effects_hint", "read_only_hint", "execution_time_hint"],
    lookup name hints = none

structure ToolConforms (fields : Fields) : Prop where
  name : ∃ s, lookup "name" fields = some (.string s)
  description : Optionally IsString (lookup "description" fields)
  schema : ∃ schema, lookup "inputSchema" fields = some (.object schema)
  annotations : Optionally (fun v => ∃ hints, v = .object hints ∧ HintsConform hints)
    (lookup "annotations" fields)
  undefined : lookup "input_schema" fields = none

structure ContentsConform (contents : Fields) : Prop where
  uri : ∃ s, lookup "uri" contents = some (.string s)
  mimeType : Optionally IsString (lookup "mimeType" contents)
  text : Optionally IsString (lookup "text" contents)
  blob : lookup "text" contents = none → ∃ s, lookup "blob" contents = some (.string s)

inductive BlockConforms (fields : Fields) : Prop
  | text (s : String) : lookup "type" fields = some (.string "text") →
      lookup "text" fields = some (.string s) → BlockConforms fields
  | image (data mimeType : String) : lookup "type" fields = some (.string "image") →
      lookup "data" fields = some (.string data) →
      lookup "mimeType" fields = some (.string mimeType) →
      lookup "mime_type" fields = none → BlockConforms fields
  | resource (contents : Fields) : lookup "type" fields = some (.string "resource") →
      lookup "resource" fields = some (.object contents) → ContentsConform contents →
      lookup "uri" fields = none → BlockConforms fields

def Objects (ok : Fields → Prop) (vs : List Value) : Prop :=
  ∀ v ∈ vs, ∃ fields, v = .object fields ∧ ok fields

structure ListConforms (v : Value) (tools : List Value) : Prop where
  listed : v.get "tools" = some (.array tools)
  each : Objects ToolConforms tools

structure CallConforms (v : Value) (content : List Value) : Prop where
  listed : v.get "content" = some (.array content)
  each : Objects BlockConforms content
  isError : Optionally IsBool (v.get "isError")
  undefined : v.get "is_error" = none

def hintOf (tool : Value) (name : String) : Option Value :=
  (tool.get "annotations").bind fun annotations => annotations.get name

def HintKept (read : McpToolAnnotations → Bool) (hint : Option Value) (tool : McpTool) : Prop :=
  Optionally (fun v => ∃ a, tool.annotations = some a ∧ v = .bool (read a)) hint

structure ToolKept (v : Value) (tool : McpTool) : Prop where
  name : v.get "name" = some (.string tool.name)
  description : Optionally (fun d => d = .string tool.description) (v.get "description")
  schema : v.get "inputSchema" = some tool.inputSchema
  destructive : HintKept McpToolAnnotations.destructiveHint (hintOf v "destructiveHint") tool
  readOnly : HintKept McpToolAnnotations.readOnlyHint (hintOf v "readOnlyHint") tool

def BlockKept (v : Value) : ContentBlock → Prop
  | .text s => v.get "type" = some (.string "text") ∧ v.get "text" = some (.string s)
  | .image data mimeType => v.get "type" = some (.string "image") ∧
      v.get "data" = some (.string data) ∧ v.get "mimeType" = some (.string mimeType)
  | .resource uri mimeType text => v.get "type" = some (.string "resource") ∧
      ∃ contents, v.get "resource" = some contents ∧
        contents.get "uri" = some (.string uri) ∧
        contents.get "mimeType" = mimeType.map Value.string ∧
        contents.get "text" = text.map Value.string

def ToolFaithful (v : Value) (tool : McpTool) : Prop :=
  ToolKept v tool ∧ (hintOf v "destructiveHint" = some (.bool true) →
    ∀ (prefixedName : String) (client : McpClient) (params : Value),
      McpToolWrapper.requiresApproval ⟨tool, prefixedName, client⟩ params ≠ .never)

def ListFaithful (v : Value) (tools : List Value) : Prop :=
  ∃ result, parseListToolsResult v = some result ∧ List.Forall₂ ToolFaithful tools result.tools

def CallFaithful (v : Value) (content : List Value) : Prop :=
  ∃ result, parseCallToolResult v = some result ∧
    List.Forall₂ BlockKept content result.content ∧
    Optionally (fun flag => flag = .bool result.isError) (v.get "isError") ∧
    (v.get "isError" = some (.bool true) → ∀ (w : McpToolWrapper) (params : Value) (id : Option ℕ),
      (∀ request, w.client.sendRequest "tools/call" request = .ok ⟨"2.0", id, some v, none⟩) →
      ∀ output, w.execute params ≠ .ok output)

def Unhinted (tool : Value) : Prop :=
  hintOf tool "destructiveHint" ≠ some (.bool true) ∧ hintOf tool "readOnlyHint" ≠ some (.bool true)

def IsText (block : Value) : Prop := block.get "type" = some (.string "text")

section lists

/-- A list is read item by item. -/
theorem parseEach_kept_iff {α : Type} (read : Value → Option α) (Kept : Value → α → Prop)
    (vs : List Value) :
    (∃ xs, parseEach read vs = some xs ∧ List.Forall₂ Kept vs xs) ↔
      ∀ v ∈ vs, ∃ x, read v = some x ∧ Kept v x := by
  induction vs with
  | nil => simp [parseEach]
  | cons v vs ih =>
    rw [List.forall_mem_cons, ← ih]
    constructor
    · rintro ⟨xs, hxs, hk⟩
      simp only [parseEach, Option.bind_eq_some_iff, Option.map_eq_some_iff] at hxs
      obtain ⟨x, hx, ys, hys, rfl⟩ := hxs
      rw [List.forall₂_cons] at hk
      exact ⟨⟨x, hx, hk.1⟩, ys, hys, hk.2⟩
    · rintro ⟨⟨x, hx, hk⟩, ys, hys, hks⟩
      exact ⟨x::ys, by simp [parseEach, hx, hys], .cons hk hks⟩

theorem object_of_get {v w : Value} {key : String} (h : v.get key = some w) :
    ∃ fields, v = .object fields := by
  cases v with
  | object fields => exact ⟨fields, rfl⟩
  | null => simp [Value.get] at h
  | bool b => simp [Value.get] at h
  | number n => simp [Value.get] at h
  | string s => simp [Value.get] at h
  | array xs => simp [Value.get] at h

end lists

section tools

def unhinted : McpToolAnnotations := ⟨false, false, false, none⟩

theorem parseAnnotations_conforming (hints : Fields) (h : HintsConform hints) :
    parseAnnotations (.object hints) = some unhinted := by
  have hd := h.undefined "destructive_hint" (by simp)
  have hs := h.undefined "side_effects_hint" (by simp)
  have hr := h.undefined "read_only_hint" (by simp)
  have ht := h.undefined "execution_time_hint" (by simp)
  simp [parseAnnotations, fieldsOf, hd, hs, hr, ht, orDefault, optional, present, unhinted]

theorem optional_annotations (fields : Fields) (h : ToolConforms fields) :
    optional parseAnnotations (lookup "annotations" fields) =
      some ((lookup "annotations" fields).map fun _ => unhinted) := by
  cases hv : lookup "annotations" fields with
  | none => rfl
  | some v =>
    obtain ⟨hints, rfl, hh⟩ := h.annotations v hv
    simp [optional, present, parseAnnotations_conforming hints hh]

/-- A conforming tool is read, and nothing of its annotations is. -/
theorem parseTool_conforming (fields : Fields) (h : ToolConforms fields) :
    ∃ tool, parseTool (.object fields) = some tool ∧
      lookup "name" fields = some (.string tool.name) ∧
      Optionally (fun d => d = .string tool.description) (lookup "description" fields) ∧
      lookup "inputSchema" fields = some tool.inputSchema ∧
      tool.annotations = (lookup "annotations" fields).map fun _ => unhinted := by
  obtain ⟨name, hn⟩ := h.name
  obtain ⟨schema, hs⟩ := h.schema
  have ha := optional_annotations fields h
  generalize (lookup "annotations" fields).map (fun _ => unhinted) = annotations at ha
  cases hd : lookup "description" fields with
  | none =>
    refine ⟨⟨name, "", .object schema, annotations⟩, ?_, hn, by simp [Optionally], hs, rfl⟩
    simp [parseTool, fieldsOf, hn, hd, hs, h.undefined, ha, orDefault, schemaOf, Value.asStr]
  | some d =>
    obtain ⟨text, rfl⟩ := h.description d hd
    refine ⟨⟨name, text, .object schema, annotations⟩, ?_, hn, by simp [Optionally], hs, rfl⟩
    simp [parseTool, fieldsOf, hn, hd, hs, h.undefined, ha, orDefault, schemaOf, Value.asStr]

theorem hintOf_bool {fields : Fields} {name : String} (h : ToolConforms fields)
    (hname : name = "destructiveHint" ∨ name = "readOnlyHint") :
    Optionally IsBool (hintOf (.object fields) name) := by
  intro x hx
  simp only [hintOf, Value.get, Option.bind_eq_some_iff] at hx
  obtain ⟨annotations, ha, hx⟩ := hx
  obtain ⟨hints, rfl, hh⟩ := h.annotations annotations ha
  rcases hname with rfl | rfl
  · exact hh.destructive x hx
  · exact hh.readOnly x hx

/-- What was read says false, so the hint must. -/
theorem hintKept_iff {fields : Fields} {name : String} {tool : McpTool}
    {read : McpToolAnnotations → Bool} (hb : Optionally IsBool (hintOf (.object fields) name))
    (ha : tool.annotations = (lookup "annotations" fields).map fun _ => unhinted)
    (hread : read unhinted = false) :
    HintKept read (hintOf (.object fields) name) tool ↔
      hintOf (.object fields) name ≠ some (.bool true) := by
  constructor
  · intro hk ht
    obtain ⟨a, hsome, e⟩ := hk _ ht
    rw [ha, Option.map_eq_some_iff] at hsome
    obtain ⟨_, _, rfl⟩ := hsome
    simp [hread] at e
  · intro hne x hx
    have hsome : ∃ v, lookup "annotations" fields = some v := by
      simp only [hintOf, Value.get, Option.bind_eq_some_iff] at hx
      obtain ⟨v, hv, _⟩ := hx
      exact ⟨v, hv⟩
    obtain ⟨v, hv⟩ := hsome
    obtain ⟨b, rfl⟩ := hb x hx
    refine ⟨unhinted, by simp [ha, hv], ?_⟩
    cases b with
    | false => rw [hread]
    | true => exact absurd hx hne

theorem tool_kept_iff {fields : Fields} (h : ToolConforms fields) :
    (∃ tool, parseTool (.object fields) = some tool ∧ ToolFaithful (.object fields) tool) ↔
      Unhinted (.object fields) := by
  obtain ⟨tool, ht, hn, hd, hs, ha⟩ := parseTool_conforming fields h
  have kd : HintKept McpToolAnnotations.destructiveHint _ tool ↔ _ :=
    hintKept_iff (hintOf_bool h (.inl rfl)) ha rfl
  have kr : HintKept McpToolAnnotations.readOnlyHint _ tool ↔ _ :=
    hintKept_iff (hintOf_bool h (.inr rfl)) ha rfl
  constructor
  · rintro ⟨tool', ht', hf⟩
    obtain rfl : tool' = tool := by simpa [ht] using ht'.symm
    have hk := hf.1
    exact ⟨kd.mp hk.destructive, kr.mp hk.readOnly⟩
  · intro hu
    exact ⟨tool, ht, ⟨hn, hd, hs, kd.mpr hu.1, kr.mpr hu.2⟩, fun hdes => absurd hdes hu.1⟩

theorem parseListToolsResult_eq {v : Value} {tools : List Value}
    (h : v.get "tools" = some (.array tools)) :
    parseListToolsResult v = (parseEach parseTool tools).map ListToolsResult.mk := by
  obtain ⟨fields, rfl⟩ := object_of_get h
  simp only [Value.get] at h
  simp only [parseListToolsResult, fieldsOf, h, Option.bind_eq_bind, Option.bind_some, parseVec]
  cases parseEach parseTool tools <;> rfl

theorem listFaithful_iff {v : Value} {tools : List Value} (h : ListConforms v tools) :
    ListFaithful v tools ↔ ∀ t ∈ tools, Unhinted t := by
  rw [ListFaithful, parseListToolsResult_eq h.listed]
  have hone := parseEach_kept_iff parseTool ToolFaithful tools
  have hall : (∀ t ∈ tools, ∃ tool, parseTool t = some tool ∧ ToolFaithful t tool) ↔
      ∀ t ∈ tools, Unhinted t := by
    refine forall₂_congr fun t ht => ?_
    obtain ⟨fields, rfl, hf⟩ := h.each t ht
    exact tool_kept_iff hf
  rw [← hall, ← hone]
  constructor
  · rintro ⟨result, hr, hk⟩
    obtain ⟨xs, hxs, rfl⟩ := Option.map_eq_some_iff.mp hr
    exact ⟨xs, hxs, hk⟩
  · rintro ⟨xs, hxs, hk⟩
    exact ⟨⟨xs⟩, by rw [hxs, Option.map_some], hk⟩

end tools

section content

variable {fields : Fields}

theorem parseBlock_tagged {tag : String} (h : lookup "type" fields = some (.string tag)) :
    parseContentBlock (.object fields) = parseVariant tag (.object fields) := by
  simp [parseContentBlock, h, Value.asStr]

/-- Only texts are read; the others lack a field under its name in the struct. -/
theorem block_kept_iff (h : BlockConforms fields) :
    (∃ block, parseContentBlock (.object fields) = some block ∧
      BlockKept (.object fields) block) ↔ IsText (.object fields) := by
  cases h with
  | text s ht hs =>
    have hread : parseContentBlock (.object fields) = some (.text s) := by
      rw [parseBlock_tagged ht]
      simp [parseVariant, fieldsOf, hs, Value.asStr]
    exact ⟨fun _ => ht, fun _ => ⟨.text s, hread, ht, hs⟩⟩
  | image data mimeType ht hd hm hno =>
    have hread : parseContentBlock (.object fields) = none := by
      rw [parseBlock_tagged ht]
      simp [parseVariant, fieldsOf, hd, hno, Value.asStr]
    simp [hread, IsText, Value.get, ht]
  | resource contents ht hr hc hno =>
    have hread : parseContentBlock (.object fields) = none := by
      rw [parseBlock_tagged ht]
      simp [parseVariant, fieldsOf, hno]
    simp [hread, IsText, Value.get, ht]

theorem parseCallToolResult_eq {v : Value} {content : List Value} (h : CallConforms v content) :
    parseCallToolResult v =
      (parseEach parseContentBlock content).map fun blocks => ⟨blocks, false⟩ := by
  obtain ⟨fields, rfl⟩ := object_of_get h.listed
  have hl := h.listed
  have hu := h.undefined
  simp only [Value.get] at hl hu
  simp only [parseCallToolResult, fieldsOf, hl, hu, Option.bind_eq_bind, Option.bind_some,
    parseVec, orDefault]
  cases parseEach parseContentBlock content <;> rfl

theorem callFaithful_iff {v : Value} {content : List Value} (h : CallConforms v content) :
    CallFaithful v content ↔
      (∀ c ∈ content, IsText c) ∧ v.get "isError" ≠ some (.bool true) := by
  rw [CallFaithful, parseCallToolResult_eq h]
  have hone := parseEach_kept_iff parseContentBlock BlockKept content
  have hall : (∀ c ∈ content, ∃ block, parseContentBlock c = some block ∧ BlockKept c block) ↔
      ∀ c ∈ content, IsText c := by
    refine forall₂_congr fun c hc => ?_
    obtain ⟨fields, rfl, hf⟩ := h.each c hc
    exact block_kept_iff hf
  rw [← hall, ← hone]
  constructor
  · rintro ⟨result, hr, hk, hflag, _⟩
    obtain ⟨blocks, hb, rfl⟩ := Option.map_eq_some_iff.mp hr
    refine ⟨⟨blocks, hb, hk⟩, fun ht => ?_⟩
    have e := hflag _ ht
    simp at e
  · rintro ⟨⟨blocks, hb, hk⟩, hne⟩
    refine ⟨⟨blocks, false⟩, by rw [hb, Option.map_some], hk, fun x hx => ?_,
      fun ht => absurd ht hne⟩
    obtain ⟨b, rfl⟩ := h.isError x hx
    cases b with
    | false => rfl
    | true => exact absurd hx hne

end content

/-- Decoding is faithful when nothing is said that the structs name otherwise. -/
theorem decoding_faithful_iff (listed called : Value) (tools content : List Value)
    (hl : ListConforms listed tools) (hc : CallConforms called content) :
    (ListFaithful listed tools ↔ ∀ t ∈ tools, Unhinted t) ∧
    (CallFaithful called content ↔
      (∀ c ∈ content, IsText c) ∧ called.get "isError" ≠ some (.bool true)) :=
  ⟨listFaithful_iff hl, callFaithful_iff hc⟩

def dropTable (annotations : Fields) : Value :=
  .object [("annotations", .object annotations), ("inputSchema", .object []),
    ("name", .string "drop_table")]

def toolsList (tools : List Value) : Value := .object [("tools", .array tools)]

def textResult (flag : Bool) : Value :=
  .object [("content", .array [.object [("text", .string "no such table"),
    ("type", .string "text")]]), ("isError", .bool flag)]

theorem dropTable_conforms (b : Bool) :
    ListConforms (toolsList [dropTable [("destructiveHint", .bool b)]])
      [dropTable [("destructiveHint", .bool b)]] := by
  refine ⟨rfl, fun v hv => ?_⟩
  obtain rfl := List.mem_singleton.mp hv
  refine ⟨_, rfl, ⟨_, rfl⟩, by simp [Optionally, lookup], ⟨_, rfl⟩, ?_, rfl⟩
  rintro x ⟨⟩
  refine ⟨_, rfl, ?_, by simp [Optionally, lookup], by simp [lookup]⟩
  rintro x ⟨⟩
  exact ⟨b, rfl⟩

theorem textResult_conforms (b : Bool) :
    CallConforms (textResult b) [.object [("text", .string "no such table"),
      ("type", .string "text")]] := by
  refine ⟨rfl, fun v hv => ?_, ?_, rfl⟩
  · obtain rfl := List.mem_singleton.mp hv
    exact ⟨_, rfl, .text "no such table" rfl rfl⟩
  · rintro x ⟨⟩
    exact ⟨b, rfl⟩

theorem decoding_faithful_harmless :
    (ListFaithful (toolsList [dropTable [("destructiveHint", .bool false)]])
        [dropTable [("destructiveHint", .bool false)]] ↔
      ∀ t ∈ [dropTable [("destructiveHint", .bool false)]], Unhinted t) ∧
    (CallFaithful (textResult false) [.object [("text", .string "no such table"),
        ("type", .string "text")]] ↔
      (∀ c ∈ [Value.object [("text", .string "no such table"), ("type", .string "text")]],
        IsText c) ∧ (textResult false).get "isError" ≠ some (.bool true)) :=
  decoding_faithful_iff _ _ _ _ (dropTable_conforms false) (textResult_conforms false)

/-- A destructive tool needs no approval, and a failed call succeeds. -/
theorem destructive_unseen :
    (∃ tools, ListConforms (toolsList [dropTable [("destructiveHint", .bool true)]]) tools ∧
      ¬ ListFaithful (toolsList [dropTable [("destructiveHint", .bool true)]]) tools) ∧
    ∃ content, CallConforms (textResult true) content ∧
      ¬ CallFaithful (textResult true) content := by
  refine ⟨⟨_, dropTable_conforms true, fun hf => ?_⟩, _, textResult_conforms true, fun hf => ?_⟩
  · have hu := (listFaithful_iff (dropTable_conforms true)).mp hf _ (List.mem_singleton.mpr rfl)
    exact hu.1 rfl
  · exact ((callFaithful_iff (textResult_conforms true)).mp hf).2 rfl

end IronClaw.McpDecoding
