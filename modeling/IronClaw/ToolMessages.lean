import Mathlib.Data.List.Forall2
import IronClaw.LlmMessage

/-!
# Tool messages before a request

`sanitize_tool_messages` of `llm/provider.rs` collects the identifiers of all
tool calls in a conversation and rewrites the tool results whose identifier is
not among them as user messages. Providers want more: a result has to come
after the message that declares its call.
-/

set_option autoImplicit false

namespace IronClaw.ToolMessages
open IronClaw.LlmMessage

def declaredIds (m : ChatMessage) : List String :=
  if m.role = .assistant then (m.toolCalls.getD []).map ToolCall.id else []

def knownIds (messages : List ChatMessage) : List String := messages.flatMap declaredIds

def isOrphaned (known : List String) (m : ChatMessage) : Bool :=
  match m.toolCallId with
  | some id => !known.contains id
  | none => true

def rewriteOrphan (m : ChatMessage) : ChatMessage :=
  { m with
    role := .user
    content := "[Tool `" ++ m.name.getD "unknown" ++ "` returned: " ++ m.content ++ "]"
    toolCallId := none
    name := none }

def sanitizeMessage (known : List String) (m : ChatMessage) : ChatMessage :=
  if m.role ≠ .tool then m
  else if isOrphaned known m then rewriteOrphan m
  else m

def sanitizeToolMessages (messages : List ChatMessage) : List ChatMessage :=
  messages.map (sanitizeMessage (knownIds messages))

def Carries (a b : ChatMessage) : Prop :=
  (a.role ≠ .tool → b = a) ∧ (b ≠ a → a.content.toList <:+: b.content.toList)

def Answered (messages : List ChatMessage) : Prop :=
  ∀ before m after, messages = before++m::after → m.role = .tool →
    ∃ id, m.toolCallId = some id ∧ id ∈ knownIds before

structure Sanitized (messages sent : List ChatMessage) : Prop where
  answered : Answered sent
  carries : List.Forall₂ Carries messages sent
  stable : sanitizeToolMessages sent = sent

def InOrder (messages : List ChatMessage) : Prop :=
  ∀ before m after id, messages = before++m::after → m.role = .tool →
    m.toolCallId = some id → id ∈ knownIds messages → id ∈ knownIds before

variable (known : List String) (m : ChatMessage) (messages : List ChatMessage)

theorem sanitized_role :
    (sanitizeMessage known m).role = .tool ↔
      m.role = .tool ∧ ∃ id, m.toolCallId = some id ∧ id ∈ known := by
  unfold sanitizeMessage isOrphaned
  by_cases hrole : m.role = .tool
  · rw [if_neg (not_not.mpr hrole)]
    cases hid : m.toolCallId with
    | none => simp [rewriteOrphan]
    | some id =>
      by_cases hin : id ∈ known
      · simp [hin, hrole]
      · simp [hin, rewriteOrphan]
  · rw [if_pos hrole]
    simp [hrole]

theorem sanitized_kept (h : (sanitizeMessage known m).role = .tool) :
    sanitizeMessage known m = m := by
  have hkept := (sanitized_role known m).mp h
  obtain ⟨hrole, id, hid, hin⟩ := hkept
  rw [sanitizeMessage, if_neg (not_not.mpr hrole), isOrphaned, hid]
  simp [hin]

theorem sanitized_declares :
    declaredIds (sanitizeMessage known m) = declaredIds m := by
  unfold sanitizeMessage
  by_cases hrole : m.role = .tool
  · rw [if_neg (not_not.mpr hrole)]
    split
    · simp [declaredIds, rewriteOrphan, hrole]
    · rfl
  · rw [if_pos hrole]

theorem known_sanitized :
    knownIds (messages.map (sanitizeMessage known)) = knownIds messages := by
  induction messages with
  | nil => rfl
  | cons m messages ih =>
    simp only [knownIds, List.map_cons, List.flatMap_cons, sanitized_declares] at ih ⊢
    rw [ih]

theorem sanitizeMessage_twice :
    sanitizeMessage known (sanitizeMessage known m) = sanitizeMessage known m := by
  by_cases hrole : (sanitizeMessage known m).role = .tool
  · rw [sanitized_kept known m hrole]
    exact sanitized_kept known m hrole
  · rw [sanitizeMessage, if_pos hrole]

theorem sanitize_twice :
    sanitizeToolMessages (sanitizeToolMessages messages) = sanitizeToolMessages messages := by
  unfold sanitizeToolMessages
  rw [known_sanitized, List.map_map]
  apply List.map_congr_left
  intro m _
  exact sanitizeMessage_twice (knownIds messages) m

theorem rewriteOrphan_content :
    m.content.toList <:+: (rewriteOrphan m).content.toList := by
  simp only [rewriteOrphan, String.toList_append, List.append_assoc]
  refine ⟨"[Tool `".toList++((m.name.getD "unknown").toList++"` returned: ".toList),
    "]".toList, ?_⟩
  simp only [List.append_assoc]

theorem sanitize_carries :
    Carries m (sanitizeMessage known m) := by
  unfold sanitizeMessage
  by_cases hrole : m.role = .tool
  · constructor
    · intro h
      exact absurd hrole h
    · intro hne
      rw [if_neg (not_not.mpr hrole)] at hne ⊢
      by_cases horphan : isOrphaned known m = true
      · rw [if_pos horphan]
        exact rewriteOrphan_content m
      · rw [if_neg horphan] at hne
        exact absurd rfl hne
  · rw [if_pos hrole]
    exact ⟨fun _ => rfl, fun h => absurd rfl h⟩

/-- A result that is kept is one whose call is declared, at the same place. -/
theorem answered_iff :
    Answered (messages.map (sanitizeMessage known)) ↔
      ∀ before m after id, messages = before++m::after → m.role = .tool →
        m.toolCallId = some id → id ∈ known → id ∈ knownIds before := by
  constructor
  · intro h before m after id hsplit hrole hid hin
    have hkept := (sanitized_role known m).mpr ⟨hrole, id, hid, hin⟩
    obtain ⟨id', hid', hin'⟩ := h (before.map (sanitizeMessage known)) (sanitizeMessage known m)
      (after.map (sanitizeMessage known)) (by rw [hsplit, List.map_append, List.map_cons]) hkept
    rw [sanitized_kept known m hkept, hid] at hid'
    rwa [known_sanitized, ← Option.some.inj hid'] at hin'
  · intro h before' m' after' hsplit hrole
    obtain ⟨before, rest, hmessages, hbefore, hrest⟩ := List.map_eq_append_iff.mp hsplit
    obtain ⟨m, after, hcons, hm, _⟩ := List.map_eq_cons_iff.mp hrest
    rw [← hm] at hrole
    obtain ⟨hold, id, hid, hin⟩ := (sanitized_role known m).mp hrole
    refine ⟨id, ?_, ?_⟩
    · rw [← hm, sanitized_kept known m hrole, hid]
    · rw [← hbefore, known_sanitized]
      exact h before m after id (by rw [hmessages, hcons]) hold hid hin

/-- The rewriting does what it is for exactly on the conversations in which no
result comes before all declarations of its call. -/
theorem sanitized_iff :
    Sanitized messages (sanitizeToolMessages messages) ↔ InOrder messages := by
  constructor
  · intro h
    exact (answered_iff (knownIds messages) messages).mp h.answered
  · intro h
    constructor
    · exact (answered_iff (knownIds messages) messages).mpr h
    · unfold sanitizeToolMessages
      rw [List.forall₂_map_right_iff, List.forall₂_same]
      intro m _
      exact sanitize_carries (knownIds messages) m
    · exact sanitize_twice messages

/-- A result in front of the message that declares its call stays a result. -/
theorem early_result_kept :
    ¬ Sanitized
      [.toolResult "call_1" "echo" "ok", .assistantWithToolCalls none [⟨"call_1", "echo", .null⟩]]
      (sanitizeToolMessages [.toolResult "call_1" "echo" "ok",
        .assistantWithToolCalls none [⟨"call_1", "echo", .null⟩]]) := by
  intro h
  obtain ⟨id, _, hin⟩ := h.answered [] (.toolResult "call_1" "echo" "ok")
    [.assistantWithToolCalls none [⟨"call_1", "echo", .null⟩]] rfl rfl
  cases hin

end IronClaw.ToolMessages
