import Mathlib.Algebra.Group.Nat.Defs
import IronClaw.Lib.Search
import IronClaw.ToolMessages

/-!
# Messages for rig

`convert_messages` of `llm/rig_adapter.rs` turns a conversation into the
history type of the rig crate. A blank tool call identifier is replaced by one
that is made of the length of the history so far, on the side of the call and
on the side of its result separately; results in a row share one message. What
`ImageMediaType::from_mime_type` knows is given.
-/

set_option autoImplicit false

namespace IronClaw.RigAdapter
open IronClaw.JsonValue IronClaw.LlmMessage IronClaw.ToolMessages Lib.Text Lib.Search

/-- `rig::OneOrMany`, a list with a first element. -/
structure OneOrMany (α : Type) where
  first : α
  rest : List α
  deriving DecidableEq

def OneOrMany.one {α : Type} (x : α) : OneOrMany α := ⟨x, []⟩

def OneOrMany.many {α : Type} : List α → Option (OneOrMany α)
  | [] => none
  | x::xs => some ⟨x, xs⟩

def OneOrMany.push {α : Type} (xs : OneOrMany α) (x : α) : OneOrMany α := ⟨xs.first, xs.rest++[x]⟩

def OneOrMany.toList {α : Type} (xs : OneOrMany α) : List α := xs.first::xs.rest

inductive DocumentSourceKind where
  | base64 (data : String)
  | url (url : String)
  deriving DecidableEq

section

variable {MediaType : Type}

structure Image (MediaType : Type) where
  data : DocumentSourceKind
  mediaType : Option MediaType
  deriving DecidableEq

inductive UserContent (MediaType : Type) where
  | text (text : String)
  | image (image : Image MediaType)
  | toolResult (id : String) (callId : Option String) (content : String)
  deriving DecidableEq

inductive AssistantContent where
  | text (text : String)
  | toolCall (id : String) (callId : Option String) (name : String) (arguments : Value)
  deriving DecidableEq

inductive RigMessage (MediaType : Type) where
  | user (content : OneOrMany (UserContent MediaType))
  | assistant (content : OneOrMany AssistantContent)
  deriving DecidableEq

structure Converted (MediaType : Type) where
  preamble : Option String
  history : List (RigMessage MediaType)
  deriving DecidableEq

def splitOnce (s sep : String) : Option (String × String) :=
  (find sep.toList s.toList).map (fun n =>
    (String.ofList (sliceTo s.toList n),
     String.ofList ((sliceFrom s.toList (n+byteLen sep.toList)).getD [])))

def normalizedToolCallId (raw : Option String) (seed : ℕ) : String :=
  match (raw.map trim).filter (fun id => !id.isEmpty) with
  | some id => id
  | none => "generated_tool_call_" ++ toString seed

variable (fromMimeType : String → Option MediaType)

def convertImage (image : ImageUrl) : Image MediaType :=
  match stripPrefix image.url "data:" with
  | some rest =>
    let (mime, b64) := (splitOnce rest ";base64,").getD ("image/jpeg", rest)
    ⟨.base64 b64, fromMimeType mime⟩
  | none => ⟨.url image.url, none⟩

def convertParts : List ContentPart → List (UserContent MediaType)
  | [] => []
  | .imageUrl image::parts => .image (convertImage fromMimeType image)::convertParts parts
  | .text _::parts => convertParts parts

def convertUser (m : ChatMessage) : RigMessage MediaType :=
  if m.contentParts.isEmpty then .user (.one (.text m.content))
  else match OneOrMany.many (.text m.content::convertParts fromMimeType m.contentParts) with
    | some many => .user many
    | none => .user (.one (.text m.content))

def convertCalls (len : ℕ) : ℕ → List ToolCall → List AssistantContent
  | _, [] => []
  | idx, tc::tcs =>
    let id := normalizedToolCallId (some tc.id) (len+idx)
    .toolCall id (some id) tc.name tc.arguments::convertCalls len (idx+1) tcs

def convertAssistant (len : ℕ) (m : ChatMessage) : RigMessage MediaType :=
  match m.toolCalls with
  | some calls =>
    match OneOrMany.many
        ((if m.content.isEmpty then [] else [.text m.content])++convertCalls len 0 calls) with
    | some many => .assistant many
    | none => .assistant (.one (.text m.content))
  | none => .assistant (.one (.text m.content))

def UserContent.isToolResult : UserContent MediaType → Bool
  | .toolResult _ _ _ => true
  | _ => false

def pushResult (history : List (RigMessage MediaType)) (result : UserContent MediaType) :
    List (RigMessage MediaType) :=
  match history.getLast? with
  | some (.user content) =>
    if content.toList.all UserContent.isToolResult then
      history.dropLast++[.user (content.push result)]
    else history++[.user (.one result)]
  | _ => history++[.user (.one result)]

def convertStep (s : Converted MediaType) (m : ChatMessage) : Converted MediaType :=
  match m.role with
  | .system =>
    { s with preamble := some (match s.preamble with
        | some p => p ++ "\n" ++ m.content
        | none => m.content) }
  | .user => { s with history := s.history++[convertUser fromMimeType m] }
  | .assistant => { s with history := s.history++[convertAssistant s.history.length m] }
  | .tool =>
    let id := normalizedToolCallId m.toolCallId s.history.length
    { s with history := pushResult s.history (.toolResult id (some id) m.content) }

def convertMessages (messages : List ChatMessage) : Converted MediaType :=
  messages.foldl (convertStep fromMimeType) ⟨none, []⟩

def UserContent.resultId : UserContent MediaType → Option String
  | .toolResult id _ _ => some id
  | _ => none

def AssistantContent.callId : AssistantContent → Option String
  | .toolCall id _ _ _ => some id
  | _ => none

def RigMessage.callIds : RigMessage MediaType → List String
  | .assistant content => content.toList.filterMap AssistantContent.callId
  | .user _ => []

def RigMessage.resultIds : RigMessage MediaType → List String
  | .user content => content.toList.filterMap UserContent.resultId
  | .assistant _ => []

def callIds (history : List (RigMessage MediaType)) : List String :=
  history.flatMap RigMessage.callIds

def resultIds (history : List (RigMessage MediaType)) : List String :=
  history.flatMap RigMessage.resultIds

end

def place : ℕ × Bool → ChatMessage → ℕ × Bool
  | (n, results), m =>
    match m.role with
    | .system => (n, results)
    | .tool => (if results then n else n+1, true)
    | .user => (n+1, false)
    | .assistant => (n+1, false)

def seeded : ℕ → List ToolCall → List (ℕ × ToolCall)
  | _, [] => []
  | n, tc::tcs => (n, tc)::seeded (n+1) tcs

def ownCalls (m : ChatMessage) : List ToolCall :=
  if m.role = .assistant then m.toolCalls.getD [] else []

def calls : ℕ × Bool → List ChatMessage → List (ℕ × ToolCall)
  | _, [] => []
  | p, m::ms => seeded p.1 (ownCalls m)++calls (place p m) ms

def results : ℕ × Bool → List ChatMessage → List (ℕ × ChatMessage)
  | _, [] => []
  | p, m::ms => (if m.role = .tool then [(p.1, m)] else [])++results (place p m) ms

def numbered : ℕ → List ToolCall → List (ℕ × String)
  | _, [] => []
  | n, tc::tcs => (n, trim tc.id)::numbered (n+1) tcs

def answers : ℕ → List (ℕ × String) → List ChatMessage → List (Option ℕ)
  | _, _, [] => []
  | n, seen, m::ms =>
    (if m.role = .tool then
      [(seen.find? (fun e => m.toolCallId.map trim = some e.2)).map Prod.fst]
    else [])++
    answers (n+(ownCalls m).length) ((numbered n (ownCalls m)).reverse++seen) ms

def Blank (tc : ToolCall) : Prop := trim tc.id = ""

structure KeepsLinks {MediaType : Type} (sent : List ChatMessage)
    (history : List (RigMessage MediaType)) : Prop where
  filled : ∀ id ∈ callIds history++resultIds history, id ≠ ""
  linked : ∀ (k : ℕ) (id : String), (resultIds history)[k]? = some id →
    ∃ j : ℕ, (answers 0 [] sent)[k]? = some (some j) ∧ (callIds history)[j]? = some id
  distinct : ∀ (i j : ℕ) (c : ℕ × ToolCall) (id : String), i ≠ j →
    (calls (0, false) sent)[i]? = some c → Blank c.2 →
    (callIds history)[i]? = some id → (callIds history)[j]? ≠ some id

structure SeedsAgree (sent : List ChatMessage) : Prop where
  linked : ∀ (k j : ℕ) (r : ℕ × ChatMessage) (c : ℕ × ToolCall),
    (results (0, false) sent)[k]? = some r → (answers 0 [] sent)[k]? = some (some j) →
    (calls (0, false) sent)[j]? = some c → Blank c.2 → r.1 = c.1
  distinct : ∀ (i j : ℕ) (c d : ℕ × ToolCall), i ≠ j → (calls (0, false) sent)[i]? = some c →
    (calls (0, false) sent)[j]? = some d → Blank c.2 →
    (Blank d.2 → c.1 ≠ d.1) ∧ trim d.2.id ≠ "generated_tool_call_" ++ toString c.1

structure Linked (messages : List ChatMessage) : Prop where
  declared : ∀ before m after, messages = before++m::after → m.role = .tool →
    ∃ id, m.toolCallId = some id ∧ ∃ d ∈ knownIds before, trim d = trim id
  distinct : ∀ m ∈ messages, (ownCalls m).Pairwise (fun a b =>
    a.id ≠ b.id ∧ ¬ (Blank a ∧ Blank b))

theorem normalized_named (raw : String) (seed : ℕ) (h : trim raw ≠ "") :
    normalizedToolCallId (some raw) seed = trim raw := by
  have hfull : (trim raw).isEmpty = false := by simpa using h
  simp [normalizedToolCallId, Option.filter, hfull]

theorem normalized_blank (raw : String) (seed : ℕ) (h : trim raw = "") :
    normalizedToolCallId (some raw) seed = "generated_tool_call_" ++ toString seed := by
  simp [normalizedToolCallId, h, Option.filter]

theorem generated_ne (seed : ℕ) : "generated_tool_call_" ++ toString seed ≠ "" := by
  intro h
  have hlen := congrArg String.length h
  rw [String.length_append] at hlen
  simp at hlen

theorem generated_inj (m n : ℕ)
    (h : "generated_tool_call_" ++ toString m = "generated_tool_call_" ++ toString n) : m = n := by
  have hdigits := (String.append_right_inj "generated_tool_call_").mp h
  simpa using congrArg (fun s => Nat.ofDigitChars 10 s.toList 0) hdigits

theorem normalized_ne (raw : Option String) (seed : ℕ) : normalizedToolCallId raw seed ≠ "" := by
  cases raw with
  | none => exact generated_ne seed
  | some raw =>
    by_cases h : trim raw = ""
    · rw [normalized_blank raw seed h]
      exact generated_ne seed
    · rwa [normalized_named raw seed h]

def givenId (c : ℕ × ToolCall) : String := normalizedToolCallId (some c.2.id) c.1

section

variable {MediaType : Type} (fromMimeType : String → Option MediaType)

def endsInResults (history : List (RigMessage MediaType)) : Bool :=
  match history.getLast? with
  | some (.user content) => content.toList.all UserContent.isToolResult
  | _ => false

variable (history : List (RigMessage MediaType))

theorem ends_append (m : RigMessage MediaType) :
    endsInResults (history++[m]) = match m with
      | .user content => content.toList.all UserContent.isToolResult
      | .assistant _ => false := by
  rw [endsInResults, List.getLast?_concat]
  cases m <;> rfl

/-- The two ways of filing a result: into the last message or as a new one. -/
theorem pushResult_cases (result : UserContent MediaType) :
    (∃ (front : List (RigMessage MediaType)) (content : OneOrMany (UserContent MediaType)),
      history = front++[.user content] ∧ endsInResults history = true ∧
      content.toList.all UserContent.isToolResult = true ∧
      pushResult history result = front++[.user (content.push result)]) ∨
    endsInResults history = false ∧ pushResult history result = history++[.user (.one result)] := by
  rcases List.eq_nil_or_concat' history with hnil | ⟨front, m, hsplit⟩
  · right
    rw [hnil]
    exact ⟨rfl, rfl⟩
  · rw [hsplit, ends_append, pushResult, List.getLast?_concat, List.dropLast_concat]
    cases m with
    | assistant content => exact Or.inr ⟨rfl, rfl⟩
    | user content =>
      by_cases hall : content.toList.all UserContent.isToolResult = true
      · left
        exact ⟨front, content, rfl, hall, hall, if_pos hall⟩
      · right
        exact ⟨Bool.eq_false_iff.mpr hall, if_neg hall⟩

theorem pushResult_place (id : String) (callId : Option String) (content : String) :
    (pushResult history (.toolResult id callId content)).length =
      (if endsInResults history then history.length else history.length+1) ∧
    endsInResults (pushResult history (.toolResult id callId content)) = true := by
  rcases pushResult_cases history (.toolResult id callId content) with
    ⟨front, old, hsplit, hends, hall, hpush⟩ | ⟨hends, hpush⟩
  · rw [hpush, hends, ends_append, hsplit]
    constructor
    · simp
    · simpa [OneOrMany.push, OneOrMany.toList, UserContent.isToolResult] using hall
  · rw [hpush, hends, ends_append]
    exact ⟨by simp, rfl⟩

theorem pushResult_ids (id : String) (callId : Option String) (content : String) :
    callIds (pushResult history (.toolResult id callId content)) = callIds history ∧
    resultIds (pushResult history (.toolResult id callId content)) = resultIds history++[id] := by
  rcases pushResult_cases history (.toolResult id callId content) with
    ⟨front, old, hsplit, _, _, hpush⟩ | ⟨_, hpush⟩
  · rw [hpush, hsplit]
    simp [callIds, resultIds, RigMessage.callIds, RigMessage.resultIds, OneOrMany.push,
      OneOrMany.toList, UserContent.resultId, List.filterMap_cons]
    cases old.first <;> simp [UserContent.resultId]
  · rw [hpush]
    simp [callIds, resultIds, RigMessage.callIds, RigMessage.resultIds, OneOrMany.one,
      OneOrMany.toList, UserContent.resultId]

theorem convertParts_results (parts : List ContentPart) :
    (convertParts fromMimeType parts).filterMap UserContent.resultId = [] := by
  induction parts with
  | nil => rfl
  | cons part parts ih =>
    cases part with
    | text text => exact ih
    | imageUrl image => simpa [convertParts, UserContent.resultId] using ih

theorem convertUser_ids (m : ChatMessage) :
    (convertUser fromMimeType m).callIds = [] ∧ (convertUser fromMimeType m).resultIds = [] := by
  unfold convertUser
  by_cases hparts : m.contentParts.isEmpty = true
  · rw [if_pos hparts]
    exact ⟨rfl, rfl⟩
  · rw [if_neg hparts]
    exact ⟨rfl, convertParts_results fromMimeType m.contentParts⟩

theorem convertUser_ends (m : ChatMessage) :
    endsInResults (history++[convertUser fromMimeType m]) = false := by
  rw [ends_append]
  unfold convertUser
  by_cases hparts : m.contentParts.isEmpty = true
  · rw [if_pos hparts]
    rfl
  · rw [if_neg hparts]
    rfl

theorem convertCalls_ids (len idx : ℕ) (tcs : List ToolCall) :
    (convertCalls len idx tcs).filterMap AssistantContent.callId =
      (seeded (len+idx) tcs).map givenId := by
  induction tcs generalizing idx with
  | nil => rfl
  | cons tc tcs ih =>
    simp only [convertCalls, seeded, List.filterMap_cons, AssistantContent.callId, List.map_cons,
      ih, givenId, Nat.add_assoc]

theorem convertAssistant_ids (len : ℕ) (m : ChatMessage) :
    (convertAssistant len m : RigMessage MediaType).callIds =
      (seeded len (m.toolCalls.getD [])).map givenId ∧
    (convertAssistant len m : RigMessage MediaType).resultIds = [] := by
  unfold convertAssistant
  cases htcs : m.toolCalls with
  | none => exact ⟨rfl, rfl⟩
  | some tcs =>
    have hids := convertCalls_ids len 0 tcs
    rw [Nat.add_zero] at hids
    by_cases htext : m.content.isEmpty = true
    · simp only [htext, if_true, List.nil_append, Option.getD_some]
      cases hcalls : convertCalls len 0 tcs with
      | nil =>
        rw [hcalls] at hids
        exact ⟨hids, rfl⟩
      | cons first rest =>
        rw [hcalls] at hids
        exact ⟨hids, rfl⟩
    · simp only [htext, Option.getD_some]
      exact ⟨hids, rfl⟩

theorem convertAssistant_assistant (len : ℕ) (m : ChatMessage) :
    ∃ content, (convertAssistant len m : RigMessage MediaType) = .assistant content := by
  unfold convertAssistant
  cases m.toolCalls with
  | none => exact ⟨_, rfl⟩
  | some tcs =>
    simp only
    cases OneOrMany.many ((if m.content.isEmpty then [] else [AssistantContent.text m.content])++
        convertCalls len 0 tcs) with
    | none => exact ⟨_, rfl⟩
    | some many => exact ⟨_, rfl⟩

theorem convertAssistant_ends (len : ℕ) (m : ChatMessage) :
    endsInResults (history++[(convertAssistant len m : RigMessage MediaType)]) = false := by
  obtain ⟨content, hcontent⟩ := @convertAssistant_assistant MediaType len m
  rw [ends_append, hcontent]

/-- One message extends the identifiers by its own, made of its place. -/
theorem convertStep_ids (s : Converted MediaType) (p : ℕ × Bool) (m : ChatMessage)
    (hlen : s.history.length = p.1) (hends : endsInResults s.history = p.2) :
    (convertStep fromMimeType s m).history.length = (place p m).1 ∧
    endsInResults (convertStep fromMimeType s m).history = (place p m).2 ∧
    callIds (convertStep fromMimeType s m).history =
      callIds s.history++(seeded p.1 (ownCalls m)).map givenId ∧
    resultIds (convertStep fromMimeType s m).history = resultIds s.history++
      (if m.role = .tool then [normalizedToolCallId m.toolCallId p.1] else []) := by
  obtain ⟨n, results⟩ := p
  subst hlen hends
  cases hrole : m.role with
  | system =>
    simp only [convertStep, place, ownCalls, hrole]
    simp [seeded]
  | user =>
    obtain ⟨hcalls, hresults⟩ := convertUser_ids fromMimeType m
    simp only [convertStep, place, ownCalls, hrole]
    refine ⟨by simp, convertUser_ends fromMimeType s.history m, ?_, ?_⟩
    · simp [callIds, hcalls, seeded]
    · simp [resultIds, hresults]
  | assistant =>
    obtain ⟨hcalls, hresults⟩ := @convertAssistant_ids MediaType s.history.length m
    simp only [convertStep, place, ownCalls, hrole]
    refine ⟨by simp, convertAssistant_ends s.history s.history.length m, ?_, ?_⟩
    · simp [callIds, hcalls]
    · simp [resultIds, hresults]
  | tool =>
    have hplace := pushResult_place s.history (normalizedToolCallId m.toolCallId s.history.length)
      (some (normalizedToolCallId m.toolCallId s.history.length)) m.content
    have hids := pushResult_ids s.history (normalizedToolCallId m.toolCallId s.history.length)
      (some (normalizedToolCallId m.toolCallId s.history.length)) m.content
    simp only [convertStep, place, ownCalls, hrole]
    refine ⟨hplace.1, hplace.2, ?_, ?_⟩
    · simp [hids.1, seeded]
    · simp [hids.2]

theorem convert_ids (ms : List ChatMessage) (s : Converted MediaType) (p : ℕ × Bool)
    (hlen : s.history.length = p.1) (hends : endsInResults s.history = p.2) :
    callIds (ms.foldl (convertStep fromMimeType) s).history =
      callIds s.history++(calls p ms).map givenId ∧
    resultIds (ms.foldl (convertStep fromMimeType) s).history = resultIds s.history++
      (results p ms).map (fun r => normalizedToolCallId r.2.toolCallId r.1) := by
  induction ms generalizing s p with
  | nil => simp [calls, results]
  | cons m ms ih =>
    obtain ⟨hlen', hends', hcalls, hresults⟩ := convertStep_ids fromMimeType s p m hlen hends
    obtain ⟨hrestCalls, hrestResults⟩ := ih _ (place p m) hlen' hends'
    rw [List.foldl_cons, hrestCalls, hrestResults, hcalls, hresults, calls, results]
    constructor
    · simp
    · by_cases hrole : m.role = .tool
      · simp [hrole]
      · simp [hrole]

end

theorem seeded_get (n i : ℕ) (tcs : List ToolCall) :
    (seeded n tcs)[i]? = (tcs[i]?).map (fun tc => (n+i, tc)) := by
  induction tcs generalizing n i with
  | nil => rfl
  | cons tc tcs ih =>
    cases i with
    | zero => rfl
    | succ i =>
      simp only [seeded, List.getElem?_cons_succ, ih]
      rw [Nat.add_assoc, Nat.add_comm 1 i]

variable (all : List (ℕ × ToolCall)) (n : ℕ) (seen : List (ℕ × String)) (tcs : List ToolCall)
  (m : ChatMessage)

theorem seeded_length : (seeded n tcs).length = tcs.length := by
  induction tcs generalizing n with
  | nil => rfl
  | cons tc tcs ih => simp [seeded, ih]

theorem mem_numbered (e : ℕ × String) (h : e ∈ numbered n tcs) :
    ∃ (i : ℕ) (tc : ToolCall), tcs[i]? = some tc ∧ e = (n+i, trim tc.id) := by
  induction tcs generalizing n with
  | nil => cases h
  | cons tc tcs ih =>
    rcases List.mem_cons.mp h with h | h
    · exact ⟨0, tc, rfl, h⟩
    · obtain ⟨i, tc', hget, he⟩ := ih (n+1) h
      refine ⟨i+1, tc', hget, ?_⟩
      rw [he, Nat.add_assoc, Nat.add_comm 1 i]

theorem numbered_of_mem (tc : ToolCall) (h : tc ∈ tcs) :
    ∃ e ∈ numbered n tcs, e.2 = trim tc.id := by
  induction tcs generalizing n with
  | nil => cases h
  | cons head tcs ih =>
    rcases List.mem_cons.mp h with h | h
    · exact ⟨(n, trim head.id), List.mem_cons_self, by rw [h]⟩
    · obtain ⟨e, he, htrim⟩ := ih (n+1) h
      exact ⟨e, List.mem_cons_of_mem _ he, htrim⟩

theorem declaredIds_own : declaredIds m = (ownCalls m).map ToolCall.id := by
  unfold declaredIds ownCalls
  by_cases hrole : m.role = .assistant
  · rw [if_pos hrole, if_pos hrole]
  · rw [if_neg hrole, if_neg hrole]
    rfl

def Tracks (all : List (ℕ × ToolCall)) (seen : List (ℕ × String)) : Prop :=
  ∀ e ∈ seen, ∃ c, all[e.1]? = some c ∧ trim c.2.id = e.2

theorem tracks_step (s : ℕ) (tcs : List ToolCall) (rest : List (ℕ × ToolCall))
    (hseen : Tracks all seen) (hall : all.drop n = seeded s tcs++rest) :
    Tracks all ((numbered n tcs).reverse++seen) := by
  intro e he
  rcases List.mem_append.mp he with hnew | hold
  · obtain ⟨i, tc, hget, hei⟩ := mem_numbered n tcs e (List.mem_reverse.mp hnew)
    have hlt : i < tcs.length := (List.getElem?_eq_some_iff.mp hget).1
    have hat : all[n+i]? = some (s+i, tc) := by
      rw [← List.getElem?_drop, hall, List.getElem?_append_left (by rwa [seeded_length]),
        seeded_get, hget, Option.map_some]
    rw [hei]
    exact ⟨(s+i, tc), hat, rfl⟩
  · exact hseen e hold

def Declared (seen : List (ℕ × String)) (ms : List ChatMessage) : Prop :=
  ∀ before m after, ms = before++m::after → m.role = .tool →
    ∃ id, m.toolCallId = some id ∧
      ((∃ e ∈ seen, e.2 = trim id) ∨ ∃ d ∈ knownIds before, trim d = trim id)

/-- The calls of a message are seen by what follows it. -/
theorem declared_step (ms : List ChatMessage) (h : Declared seen (m::ms)) :
    Declared ((numbered n (ownCalls m)).reverse++seen) ms := by
  intro before m' after hsplit hrole
  obtain ⟨id, hid, hearlier⟩ := h (m::before) m' after (by rw [hsplit]; rfl) hrole
  refine ⟨id, hid, ?_⟩
  rcases hearlier with ⟨e, he, htrim⟩ | ⟨d, hd, htrim⟩
  · exact Or.inl ⟨e, List.mem_append_right _ he, htrim⟩
  · rw [knownIds, List.flatMap_cons, declaredIds_own] at hd
    rcases List.mem_append.mp hd with hown | hd
    · obtain ⟨tc, htc, hid'⟩ := List.mem_map.mp hown
      obtain ⟨e, he, hetrim⟩ := numbered_of_mem n (ownCalls m) tc htc
      refine Or.inl ⟨e, List.mem_append_left _ (List.mem_reverse.mpr he), ?_⟩
      rw [hetrim, hid', htrim]
    · exact Or.inr ⟨d, hd, htrim⟩

/-- The result at the head finds its call among those seen. -/
theorem declared_found (ms : List ChatMessage) (hseen : Tracks all seen) (h : Declared seen (m::ms))
    (hrole : m.role = .tool) :
    ∃ found c, seen.find? (fun e => m.toolCallId.map trim = some e.2) = some found ∧
      all[found.1]? = some c ∧ m.toolCallId.map trim = some (trim c.2.id) := by
  obtain ⟨id, hid, hearlier⟩ := h [] m ms rfl hrole
  have hmem : ∃ e ∈ seen, e.2 = trim id := by
    rcases hearlier with h | ⟨d, hd, _⟩
    · exact h
    · cases hd
  obtain ⟨e, he, htrim⟩ := hmem
  cases hfind : seen.find? (fun e => m.toolCallId.map trim = some e.2) with
  | none =>
    have hmiss := List.find?_eq_none.mp hfind e he
    rw [hid, Option.map_some, htrim] at hmiss
    exact absurd (decide_eq_true rfl) hmiss
  | some found =>
    obtain ⟨c, hc, hctrim⟩ := hseen found (List.mem_of_find?_eq_some hfind)
    have hsame := List.find?_some hfind
    refine ⟨found, c, rfl, hc, ?_⟩
    rw [hctrim]
    exact of_decide_eq_true hsame

/-- Every result whose call is declared before it answers such a call. -/
theorem answers_declared (p : ℕ × Bool) (ms : List ChatMessage) (hseen : Tracks all seen)
    (hall : all.drop n = calls p ms) (hdeclared : Declared seen ms) (k : ℕ) (r : ℕ × ChatMessage)
    (hr : (results p ms)[k]? = some r) :
    ∃ (j : ℕ) (c : ℕ × ToolCall), (answers n seen ms)[k]? = some (some j) ∧ all[j]? = some c ∧
      r.2.toolCallId.map trim = some (trim c.2.id) := by
  induction ms generalizing n seen p k with
  | nil => cases hr
  | cons m ms ih =>
    rw [calls] at hall
    have htracks := tracks_step all n seen p.1 (ownCalls m) _ hseen hall
    have hrest : all.drop (n+(ownCalls m).length) = calls (place p m) ms := by
      rw [← List.drop_drop, hall]
      exact List.drop_left' (seeded_length _ _)
    have hlater := declared_step n seen m ms hdeclared
    rw [answers, results] at *
    by_cases hrole : m.role = .tool
    · rw [if_pos hrole] at *
      cases k with
      | zero =>
        obtain ⟨found, c, hfind, hc, htrim⟩ := declared_found all seen m ms hseen hdeclared hrole
        have hr0 : (p.1, m) = r := Option.some.inj hr
        refine ⟨found.1, c, ?_, hc, by rw [← hr0]; exact htrim⟩
        rw [hfind]
        rfl
      | succ k => exact ih _ _ (place p m) htracks hrest hlater k hr
    · rw [if_neg hrole] at *
      exact ih _ _ (place p m) htracks hrest hlater k hr

theorem sent_declared (messages : List ChatMessage) (h : Linked messages)
    (before after : List ChatMessage) (m : ChatMessage)
    (hsplit : sanitizeToolMessages messages = before++m::after) (hrole : m.role = .tool) :
    ∃ id, m.toolCallId = some id ∧ ∃ d ∈ knownIds before, trim d = trim id := by
  obtain ⟨old, rest, hmessages, hold, hrest⟩ := List.map_eq_append_iff.mp hsplit
  obtain ⟨m', after', hcons, hm, _⟩ := List.map_eq_cons_iff.mp hrest
  rw [← hm] at hrole
  have hkept := sanitized_kept _ m' hrole
  obtain ⟨hrole', _⟩ := (sanitized_role _ m').mp hrole
  obtain ⟨id, hid, d, hd, htrim⟩ := h.declared old m' after' (by rw [hmessages, hcons]) hrole'
  refine ⟨id, by rw [← hm, hkept, hid], d, ?_, htrim⟩
  rwa [← hold, known_sanitized]

section

variable {MediaType : Type} (fromMimeType : String → Option MediaType)

variable (ms : List ChatMessage)

theorem callIds_get (j : ℕ) :
    (callIds (convertMessages fromMimeType ms).history)[j]? =
      ((calls (0, false) ms)[j]?).map givenId := by
  rw [convertMessages, (convert_ids fromMimeType ms ⟨none, []⟩ (0, false) rfl rfl).1]
  exact List.getElem?_map

theorem resultIds_get (k : ℕ) :
    (resultIds (convertMessages fromMimeType ms).history)[k]? =
      ((results (0, false) ms)[k]?).map (fun r => normalizedToolCallId r.2.toolCallId r.1) := by
  rw [convertMessages, (convert_ids fromMimeType ms ⟨none, []⟩ (0, false) rfl rfl).2]
  exact List.getElem?_map

theorem ids_filled :
    ∀ id ∈ callIds (convertMessages fromMimeType ms).history++
      resultIds (convertMessages fromMimeType ms).history, id ≠ "" := by
  intro id hin
  rcases List.mem_append.mp hin with hin | hin
  · obtain ⟨j, hj⟩ := List.mem_iff_getElem?.mp hin
    rw [callIds_get] at hj
    obtain ⟨c, _, hid⟩ := Option.map_eq_some_iff.mp hj
    rw [← hid]
    exact normalized_ne (some c.2.id) c.1
  · obtain ⟨k, hk⟩ := List.mem_iff_getElem?.mp hin
    rw [resultIds_get] at hk
    obtain ⟨r, _, hid⟩ := Option.map_eq_some_iff.mp hk
    rw [← hid]
    exact normalized_ne r.2.toolCallId r.1

/-- A result has the identifier of its call, except that both are made of
their own seeds when it is blank. -/
theorem linked_iff (r : ℕ × ChatMessage) (c : ℕ × ToolCall)
    (h : r.2.toolCallId.map trim = some (trim c.2.id)) :
    normalizedToolCallId r.2.toolCallId r.1 = givenId c ↔ (Blank c.2 → r.1 = c.1) := by
  obtain ⟨raw, hraw, htrim⟩ := Option.map_eq_some_iff.mp h
  rw [hraw, givenId]
  by_cases hblank : trim c.2.id = ""
  · rw [normalized_blank raw r.1 (by rw [htrim, hblank]), normalized_blank c.2.id c.1 hblank]
    constructor
    · intro heq _
      exact generated_inj r.1 c.1 heq
    · intro hseed
      rw [hseed hblank]
  · rw [normalized_named raw r.1 (by rwa [htrim]), normalized_named c.2.id c.1 hblank, htrim]
    exact ⟨fun _ hb => absurd hb hblank, fun _ => rfl⟩

/-- The identifier of a blank call is another's when the seeds agree, or when
the other is named so. -/
theorem shared_iff (c d : ℕ × ToolCall) (h : Blank c.2) :
    givenId d ≠ givenId c ↔
      (Blank d.2 → c.1 ≠ d.1) ∧ trim d.2.id ≠ "generated_tool_call_" ++ toString c.1 := by
  rw [givenId, givenId, normalized_blank c.2.id c.1 h]
  by_cases hblank : trim d.2.id = ""
  · rw [normalized_blank d.2.id d.1 hblank, hblank]
    constructor
    · intro hne
      refine ⟨fun _ hseed => hne (by rw [hseed]), (generated_ne c.1).symm⟩
    · intro hseeds heq
      exact hseeds.1 hblank (generated_inj d.1 c.1 heq).symm
  · rw [normalized_named d.2.id d.1 hblank]
    exact ⟨fun hne => ⟨fun hb => absurd hb hblank, hne⟩, fun hne => hne.2⟩

/-- The conversion keeps the links of a conversation exactly when the seeds of
its blank calls agree with those of their results and with nothing else. -/
theorem keepsLinks_iff (messages : List ChatMessage) (h : Linked messages) :
    KeepsLinks (sanitizeToolMessages messages)
        (convertMessages fromMimeType (sanitizeToolMessages messages)).history ↔
      SeedsAgree (sanitizeToolMessages messages) := by
  have hanswers := answers_declared (calls (0, false) (sanitizeToolMessages messages)) 0 []
    (0, false) (sanitizeToolMessages messages) (by intro e he; cases he) rfl (by
      intro before m after hsplit hrole
      obtain ⟨id, hid, hd⟩ := sent_declared messages h before after m hsplit hrole
      exact ⟨id, hid, Or.inr hd⟩)
  constructor
  · intro hkeeps
    constructor
    · intro k j r c hr hj hc hblank
      obtain ⟨j', c', hj', hc', htrim⟩ := hanswers k r hr
      have hsame : j = j' := by
        rw [hj] at hj'
        exact Option.some.inj (Option.some.inj hj')
      rw [← hsame, hc, Option.some.injEq] at hc'
      obtain ⟨j'', hj'', hid⟩ := hkeeps.linked k _ (by rw [resultIds_get, hr, Option.map_some])
      rw [hj, Option.some.injEq, Option.some.injEq] at hj''
      rw [← hj'', callIds_get, hc, Option.map_some, Option.some.injEq] at hid
      rw [← hc'] at htrim
      exact (linked_iff r c htrim).mp hid.symm hblank
    · intro i j c d hne hi hj hblank
      have hdistinct := hkeeps.distinct i j c (givenId c) hne hi hblank
        (by rw [callIds_get, hi, Option.map_some])
      rw [callIds_get, hj, Option.map_some, ne_eq, Option.some.injEq] at hdistinct
      exact (shared_iff c d hblank).mp hdistinct
  · intro hseeds
    constructor
    · exact ids_filled fromMimeType _
    · intro k id hid
      rw [resultIds_get] at hid
      obtain ⟨r, hr, hrid⟩ := Option.map_eq_some_iff.mp hid
      obtain ⟨j, c, hj, hc, htrim⟩ := hanswers k r hr
      refine ⟨j, hj, ?_⟩
      rw [callIds_get, hc, Option.map_some, ← hrid, Option.some.injEq]
      exact ((linked_iff r c htrim).mpr (hseeds.linked k j r c hr hj hc)).symm
    · intro i j c id hne hi hblank hid hjd
      rw [callIds_get, hi, Option.map_some, Option.some.injEq] at hid
      rw [callIds_get] at hjd
      obtain ⟨d, hd, hdid⟩ := Option.map_eq_some_iff.mp hjd
      rw [← hid] at hdid
      exact (shared_iff c d hblank).mpr (hseeds.distinct i j c d hne hi hd hblank) hdid

end

def exchange (id : String) : List ChatMessage :=
  [.assistantWithToolCalls none [⟨id, "echo", .null⟩], .toolResult id "echo" "ok"]

/-- Calls of one message whose results follow it at once. -/
theorem linked_calls (content : Option String) (tcs : List ToolCall) (rest : List ChatMessage)
    (hdistinct : tcs.Pairwise (fun a b => a.id ≠ b.id ∧ ¬ (Blank a ∧ Blank b)))
    (hrest : ∀ m ∈ rest, ∃ tc ∈ tcs, ∃ output, m = .toolResult tc.id tc.name output) :
    Linked (.assistantWithToolCalls content tcs::rest) := by
  have hcalls : (ChatMessage.assistantWithToolCalls content tcs).toolCalls.getD [] = tcs := by
    cases tcs <;> rfl
  constructor
  · intro before m after hsplit hrole
    cases before with
    | nil =>
      rw [← (List.cons.inj hsplit).1] at hrole
      cases hrole
    | cons first before =>
      obtain ⟨rfl, hrest'⟩ := List.cons.inj hsplit
      obtain ⟨tc, htc, output, rfl⟩ := hrest m (by rw [hrest']; simp)
      refine ⟨tc.id, rfl, tc.id, List.mem_append_left _ (List.mem_map_of_mem ?_), rfl⟩
      rw [hcalls]
      exact htc
  · intro m hm
    rcases List.mem_cons.mp hm with rfl | hm
    · rw [show ownCalls (.assistantWithToolCalls content tcs) = tcs from hcalls]
      exact hdistinct
    · obtain ⟨tc, -, output, rfl⟩ := hrest m hm
      exact List.Pairwise.nil

theorem exchange_linked (id : String) : Linked (exchange id) :=
  linked_calls _ _ _ (List.pairwise_singleton _ _)
    (fun _ hm => ⟨_, List.mem_cons_self, "ok", List.mem_singleton.mp hm⟩)

def mixed : List ChatMessage :=
  [.assistantWithToolCalls none [⟨"call_1", "echo", .null⟩, ⟨"", "date", .null⟩],
    .toolResult "" "date" "Friday", .toolResult "call_1" "echo" "ok"]

theorem mixed_linked : Linked mixed := by
  refine linked_calls _ _ _ ?_ (fun m hm => ?_)
  · simp only [List.pairwise_pair, Blank]
    decide
  · rcases List.mem_cons.mp hm with rfl | hm
    · exact ⟨⟨"", "date", .null⟩, by simp, "Friday", rfl⟩
    · exact ⟨⟨"call_1", "echo", .null⟩, by simp, "ok", List.mem_singleton.mp hm⟩

/-- The result of a blank call stands at the place that the call was numbered by. -/
theorem mixed_calls_linked :
    KeepsLinks (sanitizeToolMessages mixed)
      (convertMessages (fun _ => (none : Option Unit)) (sanitizeToolMessages mixed)).history := by
  apply (keepsLinks_iff (fun _ => (none : Option Unit)) mixed mixed_linked).mpr
  have hcalls : calls (0, false) (sanitizeToolMessages mixed) =
      [(0, ⟨"call_1", "echo", .null⟩), (1, ⟨"", "date", .null⟩)] := by decide
  have hresults : results (0, false) (sanitizeToolMessages mixed) =
      [(1, .toolResult "" "date" "Friday"), (2, .toolResult "call_1" "echo" "ok")] := by decide
  have hanswers : answers 0 [] (sanitizeToolMessages mixed) = [some 1, some 0] := by decide
  have hblanks : ∀ (j : ℕ) (c : ℕ × ToolCall),
      (calls (0, false) (sanitizeToolMessages mixed))[j]? = some c → Blank c.2 →
        j = 1 ∧ c = (1, ⟨"", "date", .null⟩) := by
    intro j c hc hblank
    rw [hcalls] at hc
    match j with
    | 0 =>
      rw [← Option.some.inj hc] at hblank
      refine absurd hblank ?_
      unfold Blank
      decide
    | 1 => exact ⟨rfl, (Option.some.inj hc).symm⟩
  constructor
  · intro k j r c hr hj hc hblank
    obtain ⟨rfl, rfl⟩ := hblanks j c hc hblank
    rw [hresults] at hr
    rw [hanswers] at hj
    match k with
    | 0 => rw [← Option.some.inj hr]
    | 1 => cases hj
  · intro i j c d hij hc hd hblank
    obtain ⟨rfl, rfl⟩ := hblanks i c hc hblank
    refine ⟨fun hblank' => absurd (hblanks j d hd hblank').1.symm hij, ?_⟩
    rw [hcalls] at hd
    match j with
    | 0 =>
      rw [← Option.some.inj hd]
      decide
    | 1 => exact absurd rfl hij

/-- The call is named after place 0 and its result after place 1. -/
theorem blank_exchange_unlinked :
    ¬ (Linked (exchange "") → KeepsLinks (sanitizeToolMessages (exchange ""))
      (convertMessages (fun _ => (none : Option Unit))
        (sanitizeToolMessages (exchange ""))).history) := by
  intro h
  obtain ⟨j, _, hid⟩ := (h (exchange_linked "")).linked 0 "generated_tool_call_1" (by decide)
  have hcalls : callIds (convertMessages (fun _ => (none : Option Unit))
      (sanitizeToolMessages (exchange ""))).history = ["generated_tool_call_0"] := by decide
  rw [hcalls] at hid
  have hin := List.mem_of_getElem? hid
  revert hin
  decide

end IronClaw.RigAdapter
