import IronClaw.Bedrock

/-!
# What Bedrock is sent

The messages of a request alternate between the roles, none is empty, and they
carry the blocks of the conversation in its order: there is only one such
list. The request has each result in the message right after its call exactly
where the assistant messages just before the result declare that call. What a
model said comes back from its blocks as it was.
-/

set_option autoImplicit false

namespace IronClaw.BedrockRequests
open IronClaw.JsonValue IronClaw.LlmMessage IronClaw.ToolMessages IronClaw.Bedrock
open Lib.Groups

section

variable (order : HashOrder) (fromStr : String → Option Value)

def blocksOf (msg : ChatMessage) : List (ConversationRole × ContentBlock) :=
  match msg.role with
  | .system => []
  | .user => [(.user, .text msg.content)]
  | .assistant => (assistantContent order msg).map (fun b => (.assistant, b))
  | .tool => [(.user, toolResultBlock fromStr msg)]

def systemTexts (messages : List ChatMessage) : List String :=
  (messages.filter (fun m => m.role = .system && !m.content.isEmpty)).map ChatMessage.content

structure Carried (messages : List ChatMessage) (c : Conversion) : Prop where
  system : c.systemBlocks = systemTexts messages
  grouped : Grouped c.bedrockMessages
  blocks : tagged c.bedrockMessages++c.pendingToolResults.map (fun b => (.user, b)) =
    messages.flatMap (blocksOf order fromStr)

variable {order fromStr}

theorem flush_blocks (c : Conversion) :
    tagged c.flushToolResults.bedrockMessages =
      tagged c.bedrockMessages++c.pendingToolResults.map (fun b => (.user, b)) ∧
      c.flushToolResults.pendingToolResults = [] ∧
      c.flushToolResults.systemBlocks = c.systemBlocks := by
  unfold Conversion.flushToolResults
  split
  · next h =>
    rw [List.isEmpty_iff] at h
    simp [h]
  · exact ⟨tagged_push _ _ _, rfl, rfl⟩

theorem flush_grouped (c : Conversion) (h : Grouped c.bedrockMessages) :
    Grouped c.flushToolResults.bedrockMessages := by
  unfold Conversion.flushToolResults
  split
  · exact h
  · exact push_grouped _ _ _ h

theorem pushMessage_grouped (messages : List Message) (role : ConversationRole)
    (content : List ContentBlock) (h : Grouped messages) :
    Grouped (pushMessage messages role content) := push_grouped messages role content h

theorem convert_carried (messages : List ChatMessage) (msg : ChatMessage) (c : Conversion)
    (h : Carried order fromStr messages c) :
    Carried order fromStr (messages++[msg]) (convertMessage order fromStr c msg) := by
  obtain ⟨hflush, hpending, hsystem⟩ := flush_blocks c
  have hgrouped := flush_grouped c h.grouped
  have hblocks := h.blocks
  have hsys : systemTexts (messages++[msg]) = systemTexts messages++systemTexts [msg] := by
    simp [systemTexts]
  unfold convertMessage
  cases hrole : msg.role with
  | system =>
    dsimp only
    split
    · next hempty =>
      refine ⟨?_, h.grouped, ?_⟩
      · rw [hsys, h.system]
        simp [systemTexts, hempty]
      · rw [hblocks]
        simp [blocksOf, hrole]
    · next hfull =>
      refine ⟨?_, h.grouped, ?_⟩
      · rw [hsys, h.system]
        simp [systemTexts, hrole, hfull]
      · rw [hblocks]
        simp [blocksOf, hrole]
  | user =>
    dsimp only
    refine ⟨?_, ?_, ?_⟩
    · rw [hsys]
      simp [systemTexts, hrole, hsystem, h.system]
    · exact pushMessage_grouped c.flushToolResults.bedrockMessages .user [.text msg.content]
        hgrouped
    · rw [hpending, pushMessage, tagged_push, hflush, hblocks]
      simp [blocksOf, hrole]
  | assistant =>
    dsimp only
    split
    · next hempty =>
      rw [List.isEmpty_iff] at hempty
      refine ⟨?_, hgrouped, ?_⟩
      · rw [hsys]
        simp [systemTexts, hrole, hsystem, h.system]
      · rw [hpending, hflush, hblocks]
        simp [blocksOf, hrole, hempty]
    · refine ⟨?_, pushMessage_grouped _ _ _ hgrouped, ?_⟩
      · rw [hsys]
        simp [systemTexts, hrole, hsystem, h.system]
      · rw [hpending, pushMessage, tagged_push, hflush, hblocks]
        simp [blocksOf, hrole]
  | tool =>
    dsimp only
    refine ⟨?_, h.grouped, ?_⟩
    · rw [hsys]
      simp [systemTexts, hrole, h.system]
    · rw [List.map_append, ← List.append_assoc, hblocks]
      simp [blocksOf, hrole]

theorem converted_carried (messages : List ChatMessage) :
    Carried order fromStr messages
      (messages.foldl (convertMessage order fromStr) ⟨[], [], []⟩) := by
  induction messages using List.reverseRecOn with
  | nil => exact ⟨rfl, grouped_nil, rfl⟩
  | append_singleton messages msg ih =>
    rw [List.foldl_append]
    exact convert_carried messages msg _ ih

variable (order fromStr)

/-- The request is the one grouping of the conversation's blocks by role. -/
theorem convert_grouped (messages : List ChatMessage) :
    (convertMessages order fromStr messages).1 = systemTexts messages ∧
    Grouped (convertMessages order fromStr messages).2 ∧
    tagged (convertMessages order fromStr messages).2 = messages.flatMap (blocksOf order fromStr) ∧
    ∀ sent, Grouped sent → tagged sent = messages.flatMap (blocksOf order fromStr) →
      sent = (convertMessages order fromStr messages).2 := by
  have h := @converted_carried order fromStr messages
  obtain ⟨hflush, _, hsystem⟩ := flush_blocks
    (messages.foldl (convertMessage order fromStr) ⟨[], [], []⟩)
  have hgrouped := flush_grouped _ h.grouped
  have hblocks := hflush.trans h.blocks
  refine ⟨hsystem.trans h.system, hgrouped, hblocks, ?_⟩
  intro sent hsent hsame
  exact grouped_unique sent _ hsent hgrouped (hsame.trans hblocks.symm)

def backwards : HashOrder := ⟨List.reverse, List.reverse_perm⟩

def lsCall : ToolCall :=
  ⟨"call_1", "ls", .object [("all", .bool true), ("path", .string ".")]⟩

def lsMessage : ChatMessage := .assistantWithToolCalls (some "looking") [lsCall]

/-- A result and the user's next text go into one message. -/
theorem convert_grouped_ls :
    [(ConversationRole.user, [ContentBlock.text "look"]),
      (.assistant, [.text "looking", toolUseBlock backwards lsCall]),
      (.user, [.toolResult "call_1" "src" .success, .text "thanks"])] =
      (convertMessages backwards (fun _ => none) [.user "look", lsMessage,
        .toolResult "call_1" "ls" "src", .user "thanks"]).2 :=
  (convert_grouped backwards (fun _ => none) [.user "look", lsMessage,
    .toolResult "call_1" "ls" "src", .user "thanks"]).2.2.2 _
      ⟨by simp, by simp⟩ rfl

end

/-! ## Calls and results -/

def resultIds (content : List ContentBlock) : List String :=
  content.filterMap (fun
    | .toolResult id _ _ => some id
    | _ => none)

def useIds (content : List ContentBlock) : List String :=
  content.filterMap (fun
    | .toolUse id _ _ => some id
    | _ => none)

def Paired (sent : List Message) : Prop :=
  ∀ before m after, sent = before++m::after → ∀ id ∈ resultIds m.2,
    m.1 = .user ∧ ∃ p, before.getLast? = some p ∧ p.1 = .assistant ∧ id ∈ useIds p.2

def goesOn (calls : List String × Bool) (m : ChatMessage) : List String × Bool :=
  match m.role with
  | .system => calls
  | .user | .tool => (calls.1, true)
  | .assistant =>
    if m.content = "" ∧ declaredIds m = [] then calls
    else (if calls.2 then declaredIds m else calls.1++declaredIds m, false)

def lastCalls (messages : List ChatMessage) : List String × Bool :=
  messages.foldl goesOn ([], true)

def endCalls (sent : List Message) : List String × Bool :=
  match sent.reverse with
  | [] => ([], true)
  | (.assistant, content)::_ => (useIds content, false)
  | (.user, _)::p::_ => (useIds p.2, true)
  | [(.user, _)] => ([], true)

theorem paired_nil : Paired [] := by
  intro before m after h
  simp at h

variable (before : List Message) (sent : List Message) (order : HashOrder)

theorem paired_snoc (last : Message) :
    Paired (sent++[last]) ↔ Paired sent ∧ ∀ id ∈ resultIds last.2,
      last.1 = .user ∧ ∃ p, sent.getLast? = some p ∧ p.1 = .assistant ∧ id ∈ useIds p.2 := by
  constructor
  · intro h
    refine ⟨?_, h sent last [] rfl⟩
    intro before m after hsplit
    exact h before m (after++[last]) (by rw [hsplit]; simp)
  · rintro ⟨hsent, hlast⟩ before m after hsplit
    rcases List.eq_nil_or_concat after with rfl | ⟨rest, x, rfl⟩
    · obtain ⟨rfl, hm⟩ := List.append_inj' hsplit rfl
      rw [← (List.cons.inj hm).1]
      exact hlast
    · rw [List.concat_eq_append, ← List.cons_append, ← List.append_assoc] at hsplit
      obtain ⟨hrest, _⟩ := List.append_inj' hsplit rfl
      exact hsent before m rest hrest

theorem resultIds_append (xs ys : List ContentBlock) :
    resultIds (xs++ys) = resultIds xs++resultIds ys := List.filterMap_append

theorem useIds_append (xs ys : List ContentBlock) : useIds (xs++ys) = useIds xs++useIds ys :=
  List.filterMap_append

theorem endCalls_assistant (content : List ContentBlock) :
    endCalls (before++[(.assistant, content)]) = (useIds content, false) := by
  simp [endCalls]

theorem endCalls_user (content : List ContentBlock) :
    endCalls (before++[(.user, content)]) =
      ((before.getLast?.map (fun p => useIds p.2)).getD [], true) := by
  rcases List.eq_nil_or_concat before with rfl | ⟨rest, p, rfl⟩
  · rfl
  · simp [endCalls]

theorem reached_last (id : String) (hrole : ∀ p, before.getLast? = some p → p.1 ≠ .user) :
    (∃ p, before.getLast? = some p ∧ p.1 = .assistant ∧ id ∈ useIds p.2) ↔
      id ∈ (before.getLast?.map (fun p => useIds p.2)).getD [] := by
  cases hlast : before.getLast? with
  | none => simp
  | some p =>
    have hassistant : p.1 = .assistant := by
      cases hp : p.1 with
      | user => exact absurd hp (hrole p hlast)
      | assistant => rfl
    simp [hassistant]

/-- Results are paired where the last assistant message has their calls. -/
theorem push_user (items : List ContentBlock) (hgrouped : Grouped sent) (hitems : items ≠ []) :
    (Paired (pushMessage sent .user items) ↔
      Paired sent ∧ ∀ id ∈ resultIds items, id ∈ (endCalls sent).1) ∧
    endCalls (pushMessage sent .user items) = ((endCalls sent).1, true) := by
  rcases push_cases sent .user items hitems with ⟨before, old, rfl, heq⟩ | ⟨hlast, heq⟩
  · have hrole : ∀ p, before.getLast? = some p → p.1 ≠ .user := by
      intro p hp
      have hchain := hgrouped.alternates
      rw [List.isChain_append] at hchain
      exact hchain.2.2 p hp (.user, old) (by simp)
    rw [pushMessage, heq, endCalls_user, endCalls_user]
    refine ⟨?_, rfl⟩
    simp only [paired_snoc, resultIds_append, List.mem_append, true_and,
      reached_last before _ hrole]
    constructor
    · rintro ⟨hbefore, hall⟩
      exact ⟨⟨hbefore, fun id hid => hall id (.inl hid)⟩, fun id hid => hall id (.inr hid)⟩
    · rintro ⟨⟨hbefore, hold⟩, hnew⟩
      exact ⟨hbefore, fun id hid => hid.elim (hold id) (hnew id)⟩
  · have hend : (sent.getLast?.map (fun p => useIds p.2)).getD [] = (endCalls sent).1 := by
      rcases List.eq_nil_or_concat sent with rfl | ⟨before, ⟨role, content⟩, rfl⟩
      · rfl
      · cases role with
        | user => exact absurd rfl (hlast (.user, content) (by simp))
        | assistant =>
          rw [List.concat_eq_append, endCalls_assistant]
          simp
    rw [pushMessage, heq, endCalls_user, hend]
    refine ⟨?_, rfl⟩
    simp only [paired_snoc, true_and, reached_last sent _ hlast, hend]

/-- An assistant message goes on with the one before it, or begins anew. -/
theorem push_assistant (items : List ContentBlock) (hitems : items ≠ [])
    (hnone : resultIds items = []) :
    (Paired (pushMessage sent .assistant items) ↔ Paired sent) ∧
    endCalls (pushMessage sent .assistant items) =
      (if (endCalls sent).2 then useIds items else (endCalls sent).1++useIds items, false) := by
  rcases push_cases sent .assistant items hitems with ⟨before, old, rfl, heq⟩ | ⟨hlast, heq⟩
  · rw [pushMessage, heq, endCalls_assistant, endCalls_assistant, useIds_append]
    refine ⟨?_, rfl⟩
    simp only [paired_snoc, resultIds_append, hnone, List.append_nil]
  · have hclosed : (endCalls sent).2 = true := by
      rcases List.eq_nil_or_concat sent with rfl | ⟨before, ⟨role, content⟩, rfl⟩
      · rfl
      · cases role with
        | user => rw [List.concat_eq_append, endCalls_user]
        | assistant => exact absurd rfl (hlast (.assistant, content) (by simp))
    rw [pushMessage, heq, endCalls_assistant, hclosed]
    refine ⟨?_, rfl⟩
    simp only [paired_snoc, hnone, List.not_mem_nil, false_implies, implies_true, and_true]

section

variable (order : HashOrder) (fromStr : String → Option Value)

variable (messages : List ChatMessage) (msg : ChatMessage)

theorem assistant_ids (hrole : msg.role = .assistant) :
    resultIds (assistantContent order msg) = [] ∧
      useIds (assistantContent order msg) = declaredIds msg := by
  have htext : resultIds (if msg.content.isEmpty then [] else [.text msg.content]) = [] ∧
      useIds (if msg.content.isEmpty then [] else [.text msg.content]) = [] := by
    split
    · exact ⟨rfl, rfl⟩
    · exact ⟨rfl, rfl⟩
  rw [assistantContent, resultIds_append, useIds_append, htext.1, htext.2, declaredIds,
    if_pos hrole]
  constructor
  · simp [resultIds, toolUseBlock]
  · simp [useIds, toolUseBlock, List.filterMap_map, Function.comp_def]

theorem assistant_empty (hrole : msg.role = .assistant) :
    assistantContent order msg = [] ↔ msg.content = "" ∧ declaredIds msg = [] := by
  rw [assistantContent, declaredIds, if_pos hrole, List.append_eq_nil_iff]
  simp

def addMessage (sent : List Message) (msg : ChatMessage) : List Message :=
  match msg.role with
  | .system => sent
  | .user => pushMessage sent .user [.text msg.content]
  | .assistant => pushMessage sent .assistant (assistantContent order msg)
  | .tool => pushMessage sent .user [toolResultBlock fromStr msg]

theorem added_grouped :
    Grouped (messages.foldl (addMessage order fromStr) []) ∧
      tagged (messages.foldl (addMessage order fromStr) []) =
        messages.flatMap (blocksOf order fromStr) := by
  induction messages using List.reverseRecOn with
  | nil => exact ⟨grouped_nil, rfl⟩
  | append_singleton messages msg ih =>
    obtain ⟨hgrouped, htagged⟩ := ih
    rw [List.foldl_append, List.flatMap_append, ← htagged, List.flatMap_singleton, List.foldl_cons,
      List.foldl_nil, addMessage, blocksOf]
    cases msg.role with
    | system => exact ⟨hgrouped, (List.append_nil _).symm⟩
    | user | assistant | tool => exact ⟨push_grouped _ _ _ hgrouped, tagged_push _ _ _⟩

theorem converted_added :
    (convertMessages order fromStr messages).2 =
      messages.foldl (addMessage order fromStr) [] := by
  obtain ⟨hgrouped, htagged⟩ := added_grouped order fromStr messages
  exact ((convert_grouped order fromStr messages).2.2.2 _ hgrouped htagged).symm

def Prompt (messages : List ChatMessage) : Prop :=
  ∀ before m after, messages = before++m::after → m.role = .tool →
    m.toolCallId.getD "unknown" ∈ (lastCalls before).1

theorem prompt_snoc :
    Prompt (messages++[msg]) ↔ Prompt messages ∧
      (msg.role = .tool → msg.toolCallId.getD "unknown" ∈ (lastCalls messages).1) := by
  constructor
  · intro h
    exact ⟨fun before m after hsplit => h before m (after++[msg]) (by rw [hsplit]; simp),
      h messages msg [] rfl⟩
  · rintro ⟨hmessages, hmsg⟩ before m after hsplit hrole
    rcases List.eq_nil_or_concat after with rfl | ⟨rest, x, rfl⟩
    · obtain ⟨rfl, hm⟩ := List.append_inj' hsplit rfl
      obtain rfl := (List.cons.inj hm).1
      exact hmsg hrole
    · rw [List.concat_eq_append, ← List.cons_append, ← List.append_assoc] at hsplit
      obtain ⟨hrest, _⟩ := List.append_inj' hsplit rfl
      exact hmessages before m rest hrest hrole

theorem added_paired :
    (Paired (messages.foldl (addMessage order fromStr) []) ↔ Prompt messages) ∧
      endCalls (messages.foldl (addMessage order fromStr) []) = lastCalls messages := by
  induction messages using List.reverseRecOn with
  | nil => exact ⟨⟨fun _ before m after h => by simp at h, fun _ => paired_nil⟩, rfl⟩
  | append_singleton messages msg ih =>
    obtain ⟨hpaired, hcalls⟩ := ih
    have hgrouped := (added_grouped order fromStr messages).1
    rw [List.foldl_append, prompt_snoc, ← hpaired, ← hcalls, lastCalls, List.foldl_append,
      ← lastCalls, ← hcalls, List.foldl_cons, List.foldl_nil, List.foldl_cons, List.foldl_nil,
      addMessage, goesOn]
    cases hrole : msg.role with
    | system => exact ⟨⟨fun h => ⟨h, fun h => nomatch h⟩, fun h => h.1⟩, rfl⟩
    | user =>
      obtain ⟨hpush, hend⟩ := push_user _ [.text msg.content] hgrouped (by simp)
      refine ⟨hpush.trans ⟨fun h => ⟨h.1, fun h => nomatch h⟩, fun h => ⟨h.1, ?_⟩⟩, hend⟩
      exact fun _ hid => nomatch hid
    | assistant =>
      obtain ⟨hnone, huses⟩ := assistant_ids order msg hrole
      dsimp only
      by_cases hempty : assistantContent order msg = []
      · rw [if_pos ((assistant_empty order msg hrole).mp hempty), hempty, pushMessage, push_nil]
        exact ⟨⟨fun h => ⟨h, fun h => nomatch h⟩, fun h => h.1⟩, rfl⟩
      · rw [if_neg (fun h => hempty ((assistant_empty order msg hrole).mpr h))]
        obtain ⟨hpush, hend⟩ := push_assistant (messages.foldl (addMessage order fromStr) []) _
          hempty hnone
        rw [hend, huses]
        exact ⟨hpush.trans ⟨fun h => ⟨h, fun h => nomatch h⟩, fun h => h.1⟩, rfl⟩
    | tool =>
      obtain ⟨hpush, hend⟩ := push_user _ [toolResultBlock fromStr msg] hgrouped (by simp)
      refine ⟨hpush.trans ⟨fun h => ⟨h.1, fun _ => h.2 _ (by simp [resultIds, toolResultBlock])⟩,
        fun h => ⟨h.1, ?_⟩⟩, hend⟩
      intro id hid
      have hsame : id = msg.toolCallId.getD "unknown" := by
        simpa [resultIds, toolResultBlock] using hid
      rw [hsame]
      exact h.2 rfl

end

theorem sanitized_calls (known : List String) (messages : List ChatMessage) :
    lastCalls (messages.map (sanitizeMessage known)) = lastCalls messages := by
  have hsame : ∀ calls m, goesOn calls (sanitizeMessage known m) = goesOn calls m := by
    intro calls m
    unfold sanitizeMessage
    split
    · rfl
    · next htool =>
      rw [not_not] at htool
      split
      · simp [goesOn, rewriteOrphan, htool]
      · rfl
  simp only [lastCalls, List.foldl_map, hsame]

def Answers (messages : List ChatMessage) : Prop :=
  ∀ before m after id, messages = before++m::after → m.role = .tool → m.toolCallId = some id →
    id ∈ knownIds messages → id ∈ (lastCalls before).1

theorem sanitized_prompt (messages : List ChatMessage) :
    Prompt (sanitizeToolMessages messages) ↔ Answers messages := by
  constructor
  · intro h before m after id hsplit hrole hid hknown
    have hrole' : (sanitizeMessage (knownIds messages) m).role = .tool :=
      (sanitized_role _ m).mpr ⟨hrole, id, hid, hknown⟩
    have hin := h (before.map (sanitizeMessage (knownIds messages)))
      (sanitizeMessage (knownIds messages) m) (after.map (sanitizeMessage (knownIds messages)))
      (by rw [sanitizeToolMessages, hsplit, List.map_append, List.map_cons, ← hsplit]) hrole'
    rwa [sanitized_kept _ m hrole', hid, sanitized_calls] at hin
  · intro h before' m' after' hsplit hrole
    obtain ⟨before, rest, hmessages, hbefore, hrest⟩ := List.map_eq_append_iff.mp hsplit
    obtain ⟨m, after, hcons, hm, _⟩ := List.map_eq_cons_iff.mp hrest
    rw [← hm] at hrole
    obtain ⟨hold, id, hid, hin⟩ := (sanitized_role (knownIds messages) m).mp hrole
    rw [← hm, sanitized_kept (knownIds messages) m hrole, hid, ← hbefore, sanitized_calls]
    exact h before m after id (by rw [hmessages, hcons]) hold hid hin

/-- A request has every result in the message right after its call, if and only
if each kept result answers a call of the assistant messages just before. -/
theorem request_paired (fromStr : String → Option Value) (messages : List ChatMessage) :
    Paired (convertMessages order fromStr (sanitizeToolMessages messages)).2 ↔
      Answers messages := by
  rw [converted_added, (added_paired order fromStr _).1, sanitized_prompt]

theorem calls_back (calls : List ToolCall) (hargs : ∀ tc ∈ calls, WellFormed tc.arguments) :
    (calls.map (toolUseBlock order)).filterMap toolCallPart = calls ∧
      (calls.map (toolUseBlock order)).filterMap textPart = [] := by
  induction calls with
  | nil => exact ⟨rfl, rfl⟩
  | cons tc calls ih =>
    obtain ⟨hcalls, htexts⟩ := ih (fun x hx => hargs x (List.mem_cons_of_mem _ hx))
    have hargument := document_round_trip order tc.arguments (hargs tc List.mem_cons_self)
    have hback : toolCallPart (toolUseBlock order tc) = some tc := by
      rw [toolUseBlock, toolCallPart, hargument]
    rw [List.map_cons, List.filterMap_cons_some hback, hcalls]
    exact ⟨rfl, by rw [List.filterMap_cons_none rfl, htexts]⟩

/-- What the model said is in the blocks of its message, whatever order the
hash maps have. -/
theorem extract_assistant (msg : ChatMessage)
    (hargs : ∀ tc ∈ msg.toolCalls.getD [], WellFormed tc.arguments) :
    extractContentBlocks (assistantContent order msg) =
      (msg.content, msg.toolCalls.getD []) := by
  obtain ⟨hcalls, htexts⟩ := calls_back order (msg.toolCalls.getD []) hargs
  rw [extractContentBlocks, assistantContent, List.filterMap_append, List.filterMap_append, hcalls,
    htexts]
  split
  · next hempty =>
    have hnone : msg.content = "" := by simpa using hempty
    rw [hnone]
    rfl
  · simp [textPart, toolCallPart]

theorem extract_assistant_ls :
    extractContentBlocks (assistantContent backwards lsMessage) = ("looking", [lsCall]) := by
  refine extract_assistant backwards lsMessage fun tc hin => ?_
  rw [List.mem_singleton.mp hin]
  have hkeys : ["all", "path"].Pairwise (· < ·) := by decide +kernel
  exact ⟨hkeys, trivial, trivial, trivial⟩

end IronClaw.BedrockRequests
