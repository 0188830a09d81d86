import IronClaw.ChatLoop
import IronClaw.ToolMessages

/-!
# Cuts of a running conversation

Two places shorten the messages of a request while a tool loop goes on. The
routine engine keeps the system message and as many of the last messages as
fit, whatever they are. The chat keeps what follows the last message of the
user, and a nudge is sent as a message of the user.
-/

set_option autoImplicit false

namespace IronClaw.ContextCuts
open IronClaw.LlmMessage IronClaw.ToolMessages IronClaw.ChatLoop

structure Exchange where
  content : Option String
  executed : List (ToolCall × String)
  nonempty : executed ≠ []

def Exchange.messages (e : Exchange) : List ChatMessage :=
  .assistantWithToolCalls e.content (e.executed.map Prod.fst)::
    e.executed.map (fun x => .toolResult x.1.id x.1.name x.2)

def maxToolLoopMessages : ℕ := 32

def snapshotMessagesForToolIteration (messages : List ChatMessage) : List ChatMessage :=
  if messages.length ≤ maxToolLoopMessages then messages
  else match messages with
    | [] => []
    | first::_ =>
      if first.role = .system then
        first::messages.drop (max (messages.length-(maxToolLoopMessages-1)) 1)
      else messages.drop (messages.length-maxToolLoopMessages)

def routineMessages (systemPrompt fullPrompt : String) (exchanges : List Exchange) :
    List ChatMessage :=
  system systemPrompt::.user fullPrompt::exchanges.flatMap Exchange.messages

structure KeepsProtocol (first prompt : ChatMessage) (rest snapshot : List ChatMessage) : Prop where
  bounded : snapshot.length ≤ maxToolLoopMessages
  cut : ∃ tail, tail <:+ rest ∧ snapshot = first::prompt::tail
  answered : Answered snapshot

inductive TurnItem where
  | exchange (e : Exchange)
  | note (content : String)
  | nudged (text : String)

def nudge : ChatMessage := .user Worker.toolIntentNudge

def TurnItem.messages : TurnItem → List ChatMessage
  | .exchange e => e.messages
  | .note content => [system content]
  | .nudged text => [.assistant text, nudge]

def turnMessages (items : List TurnItem) : List ChatMessage := items.flatMap TurnItem.messages

def isToolMessage (m : ChatMessage) : Bool :=
  m.role = .tool || (m.role = .assistant && m.toolCalls.isSome)

structure ValidRetry (history : List ChatMessage) (input : ChatMessage) (turn : List ChatMessage)
    (sent : List ChatMessage) : Prop where
  systems : ∃ before after notes, (history++input::turn).filter isSystem = before++after ∧
    sent.filter isSystem = before++notes++after ∧ (notes = [] ∨ notes = [system compactionNote])
  current : (input::turn.filter isToolMessage).Sublist sent
  answered : Answered sent

theorem exchange_answered (e : Exchange) : Answered e.messages := by
  intro before m after h hrole
  cases before with
  | nil =>
    simp only [Exchange.messages, List.nil_append, List.cons.injEq] at h
    rw [← h.1] at hrole
    cases hrole
  | cons a before =>
    simp only [Exchange.messages, List.cons_append, List.cons.injEq] at h
    have hm : m ∈ e.executed.map (fun x => ChatMessage.toolResult x.1.id x.1.name x.2) := by
      rw [h.2]
      simp
    obtain ⟨x, hx, rfl⟩ := List.mem_map.mp hm
    refine ⟨x.1.id, rfl, ?_⟩
    have hcalls : (e.executed.map Prod.fst).isEmpty = false := by
      simpa using e.nonempty
    rw [← h.1, knownIds, List.flatMap_cons, List.mem_append]
    left
    simp only [declaredIds, ChatMessage.assistantWithToolCalls, hcalls, if_true, Option.getD_some,
      Bool.false_eq_true, if_false, List.mem_map]
    exact ⟨x.1, ⟨x, hx, rfl⟩, rfl⟩

theorem untooled_answered (messages : List ChatMessage) (h : ∀ m ∈ messages, m.role ≠ .tool) :
    Answered messages := by
  intro before m after hsplit hrole
  exact absurd hrole (h m (by rw [hsplit]; simp))

theorem answered_append (p q : List ChatMessage) (hp : Answered p) (hq : Answered q) :
    Answered (p++q) := by
  intro before m after h hrole
  rcases List.append_eq_append_iff.mp h with ⟨a, hbefore, hrest⟩ | ⟨c, hbefore, hrest⟩
  · obtain ⟨id, hid, hknown⟩ := hq a m after hrest hrole
    refine ⟨id, hid, ?_⟩
    rw [hbefore, knownIds, List.flatMap_append]
    exact List.mem_append_right _ hknown
  · cases c with
    | nil =>
      rw [List.append_nil] at hbefore
      rw [List.nil_append] at hrest
      obtain ⟨id, hid, hknown⟩ := hq [] m after hrest.symm hrole
      cases hknown
    | cons c cs =>
      rw [List.cons_append, List.cons.injEq] at hrest
      rw [← hrest.1] at hbefore
      exact hp before m cs hbefore hrole

theorem answered_flatMap {α : Type} (f : α → List ChatMessage) (xs : List α)
    (h : ∀ x ∈ xs, Answered (f x)) : Answered (xs.flatMap f) := by
  induction xs with
  | nil => exact untooled_answered [] (by simp)
  | cons x xs ih =>
    rw [List.flatMap_cons]
    exact answered_append _ _ (h x List.mem_cons_self)
      (ih (fun y hy => h y (List.mem_cons_of_mem x hy)))

theorem answered_cons (m : ChatMessage) (messages : List ChatMessage) (hm : m.role ≠ .tool)
    (h : Answered messages) : Answered (m::messages) :=
  answered_append [m] messages (untooled_answered [m] (by simpa using hm)) h

theorem exchange_roles (e : Exchange) : ∀ m ∈ e.messages, m.role ≠ .user := by
  intro m hm
  rcases List.mem_cons.mp hm with rfl | hm
  · simp [ChatMessage.assistantWithToolCalls]
  · obtain ⟨x, -, rfl⟩ := List.mem_map.mp hm
    simp [ChatMessage.toolResult]

section snapshot
variable (systemPrompt fullPrompt : String) (exchanges : List Exchange)

theorem routine_answered : Answered (routineMessages systemPrompt fullPrompt exchanges) := by
  refine answered_cons _ _ (by simp [system]) (answered_cons _ _ (by simp [ChatMessage.user]) ?_)
  exact answered_flatMap Exchange.messages exchanges (fun e _ => exchange_answered e)

theorem exchanges_roles : ∀ m ∈ exchanges.flatMap Exchange.messages, m.role ≠ .user := by
  intro m hm
  obtain ⟨e, -, hin⟩ := List.mem_flatMap.mp hm
  exact exchange_roles e m hin

/-- Too long a conversation loses the prompt. -/
theorem snapshot_long
    (h : maxToolLoopMessages < (routineMessages systemPrompt fullPrompt exchanges).length) :
    ∃ tail, snapshotMessagesForToolIteration (routineMessages systemPrompt fullPrompt exchanges) =
        system systemPrompt::tail ∧ tail <:+ exchanges.flatMap Exchange.messages := by
  have hcut : 2 ≤ max ((routineMessages systemPrompt fullPrompt exchanges).length-
      (maxToolLoopMessages-1)) 1 := by
    simp only [maxToolLoopMessages] at h ⊢
    omega
  obtain ⟨n, hn⟩ := Nat.exists_eq_add_of_le hcut
  refine ⟨(exchanges.flatMap Exchange.messages).drop n, ?_, List.drop_suffix _ _⟩
  unfold snapshotMessagesForToolIteration
  rw [if_neg (Nat.not_le.mpr h), hn]
  simp only [routineMessages, system, if_true, Nat.add_comm 2 n, List.drop_succ_cons]

theorem prompt_lost
    (h : maxToolLoopMessages < (routineMessages systemPrompt fullPrompt exchanges).length) :
    ¬ KeepsProtocol (system systemPrompt) (.user fullPrompt)
      (exchanges.flatMap Exchange.messages)
      (snapshotMessagesForToolIteration (routineMessages systemPrompt fullPrompt exchanges)) := by
  intro hkeeps
  obtain ⟨tail, hcut, hsuffix⟩ := snapshot_long systemPrompt fullPrompt exchanges h
  obtain ⟨rest, -, hrest⟩ := hkeeps.cut
  rw [hcut, List.cons.injEq] at hrest
  have hprompt : ChatMessage.user fullPrompt ∈ tail := by
    rw [hrest.2]
    exact List.mem_cons_self
  exact exchanges_roles exchanges _ (hsuffix.subset hprompt) rfl

/-- A request keeps to the protocol as long as nothing is cut. -/
theorem snapshot_protocol_iff :
    KeepsProtocol (system systemPrompt) (.user fullPrompt) (exchanges.flatMap Exchange.messages)
      (snapshotMessagesForToolIteration (routineMessages systemPrompt fullPrompt exchanges)) ↔
    (routineMessages systemPrompt fullPrompt exchanges).length ≤ maxToolLoopMessages := by
  constructor
  · intro hkeeps
    by_contra hlong
    exact prompt_lost systemPrompt fullPrompt exchanges (Nat.not_le.mp hlong) hkeeps
  · intro hshort
    unfold snapshotMessagesForToolIteration
    rw [if_pos hshort]
    exact ⟨hshort, ⟨_, List.suffix_rfl, rfl⟩, routine_answered systemPrompt fullPrompt exchanges⟩

end snapshot

def thirtyCalls : Exchange :=
  ⟨none, List.replicate 30 (⟨"call_1", "http", .object []⟩, "ok"), by decide⟩

theorem routine_forgets : ¬ KeepsProtocol (system "You are a routine.") (.user "Check the feeds.")
    ([thirtyCalls].flatMap Exchange.messages)
    (snapshotMessagesForToolIteration
      (routineMessages "You are a routine." "Check the feeds." [thirtyCalls])) :=
  prompt_lost _ _ _ (by decide)

section retry

theorem lastUser_split (before kept : List ChatMessage) (m : ChatMessage) (hm : m.role = .user)
    (hkept : ∀ k ∈ kept, k.role ≠ .user) :
    lastUser (before++m::kept) = some (before, m::kept) := by
  have hrest : ∀ k ∈ kept.reverse, decide (k.role ≠ .user) = true := by
    intro k hk
    exact decide_eq_true (hkept k (List.mem_reverse.mp hk))
  unfold lastUser
  rw [List.reverse_append, List.reverse_cons, List.append_assoc,
    List.dropWhile_append_of_pos hrest, List.takeWhile_append_of_pos hrest]
  simp [hm]

theorem compact_split (before kept : List ChatMessage) (m : ChatMessage) (hm : m.role = .user)
    (hkept : ∀ k ∈ kept, k.role ≠ .user) :
    ∃ notes, compactMessagesForRetry (before++m::kept) =
        before.filter isSystem++notes++m::kept ∧
      (notes = [] ∨ notes = [system compactionNote]) := by
  unfold compactMessagesForRetry
  rw [lastUser_split before kept m hm hkept]
  refine ⟨if before = [] then [] else [system compactionNote], rfl, ?_⟩
  split
  · exact Or.inl rfl
  · exact Or.inr rfl

theorem item_answered (item : TurnItem) : Answered item.messages := by
  cases item with
  | exchange e => exact exchange_answered e
  | note content => exact untooled_answered _ (by simp [TurnItem.messages, system])
  | nudged text =>
    exact untooled_answered _
      (by simp [TurnItem.messages, ChatMessage.assistant, nudge, ChatMessage.user])

variable (items : List TurnItem)

theorem turn_answered : Answered (turnMessages items) :=
  answered_flatMap TurnItem.messages items (fun item _ => item_answered item)

theorem unnudged_roles (h : ∀ text, .nudged text ∉ items) :
    ∀ m ∈ turnMessages items, m.role ≠ .user := by
  intro m hm
  obtain ⟨item, hitem, hin⟩ := List.mem_flatMap.mp hm
  cases item with
  | exchange e => exact exchange_roles e m hin
  | note content =>
    rw [List.mem_singleton.mp hin]
    simp [system]
  | nudged text => exact absurd hitem (h text)

theorem last_nudge :
    (∀ text, .nudged text ∉ items) ∨
      ∃ before text after, items = before++.nudged text::after ∧ ∀ t, .nudged t ∉ after := by
  induction items with
  | nil => exact Or.inl (by simp)
  | cons item items ih =>
    rcases ih with hnone | ⟨before, text, after, hsplit, hafter⟩
    · cases item with
      | nudged text => exact Or.inr ⟨[], text, items, rfl, hnone⟩
      | exchange e => exact Or.inl (fun text => by simpa using hnone text)
      | note content => exact Or.inl (fun text => by simpa using hnone text)
    · exact Or.inr ⟨item::before, text, after, by rw [hsplit, List.cons_append], hafter⟩

theorem exchange_tools (e : Exchange) : e.messages.filter isToolMessage ≠ [] := by
  have hcalls : (e.executed.map Prod.fst).isEmpty = false := by
    simpa using e.nonempty
  rw [Exchange.messages, List.filter_cons_of_pos (by
    simp [isToolMessage, ChatMessage.assistantWithToolCalls, hcalls])]
  exact List.cons_ne_nil _ _

theorem tools_none :
    (turnMessages items).filter isToolMessage = [] ↔ ∀ e, .exchange e ∉ items := by
  unfold turnMessages
  rw [List.filter_flatMap, List.flatMap_eq_nil_iff]
  constructor
  · intro h e he
    exact exchange_tools e (h (.exchange e) he)
  · intro h item hitem
    cases item with
    | exchange e => exact absurd hitem (h e)
    | note content => rfl
    | nudged text => rfl

theorem tools_nudged (before : List TurnItem) (text : String) (after : List TurnItem) :
    (turnMessages (before++.nudged text::after)).filter isToolMessage =
      (turnMessages before).filter isToolMessage++(turnMessages after).filter isToolMessage := by
  have hpair : (TurnItem.nudged text).messages.filter isToolMessage = [] := rfl
  unfold turnMessages
  rw [List.flatMap_append, List.flatMap_cons, List.filter_append, List.filter_append, hpair,
    List.nil_append]

theorem system_untooled (messages : List ChatMessage) :
    (messages.filter isSystem).filter isToolMessage = [] := by
  rw [List.filter_eq_nil_iff]
  intro m hm
  have hrole : m.role = .system := by
    simpa [isSystem] using (List.mem_filter.mp hm).2
  simp [isToolMessage, hrole]

variable (history : List ChatMessage) (content : String) (parts : List ContentPart)
  (items : List TurnItem)

def NudgedFirst : Prop :=
  ∀ before text after, items = before++.nudged text::after → (∀ t, .nudged t ∉ after) →
    ChatMessage.userWithParts content parts = nudge ∧ ∀ e, .exchange e ∉ before

/-- Whatever the cut, the messages of the system stay and results have calls. -/
theorem compact_sound (before kept : List ChatMessage) (m : ChatMessage) (hm : m.role = .user)
    (hkept : ∀ k ∈ kept, k.role ≠ .user) (hanswered : Answered kept)
    (hsplit : history++.userWithParts content parts::turnMessages items = before++m::kept) :
    (∃ first last notes, (history++.userWithParts content parts::turnMessages items).filter
        isSystem = first++last ∧
      (compactMessagesForRetry (history++.userWithParts content parts::turnMessages items)).filter
        isSystem = first++notes++last ∧ (notes = [] ∨ notes = [system compactionNote])) ∧
    Answered (compactMessagesForRetry
      (history++.userWithParts content parts::turnMessages items)) := by
  obtain ⟨notes, hcompact, hnotes⟩ := compact_split before kept m hm hkept
  have hnoteSystem : notes.filter isSystem = notes := by
    rcases hnotes with rfl | rfl <;> rfl
  rw [hsplit, hcompact]
  constructor
  · refine ⟨before.filter isSystem, (m::kept).filter isSystem, notes, List.filter_append _ _, ?_,
      hnotes⟩
    rw [List.filter_append, List.filter_append, List.filter_filter, hnoteSystem]
    simp
  · have hsystems : ∀ k ∈ before.filter isSystem++notes, k.role ≠ .tool := by
      intro k hk
      have hrole : isSystem k = true := by
        rcases List.mem_append.mp hk with hold | hnote
        · exact (List.mem_filter.mp hold).2
        · rw [← hnoteSystem] at hnote
          exact (List.mem_filter.mp hnote).2
      have : k.role = .system := by simpa [isSystem] using hrole
      simp [this]
    exact answered_append _ _ (untooled_answered _ hsystems)
      (answered_cons m kept (by simp [hm]) hanswered)

variable (before : List TurnItem) (text : String) (after : List TurnItem)

theorem nudge_split (h : items = before++.nudged text::after) :
    history++.userWithParts content parts::turnMessages items =
      (history++.userWithParts content parts::turnMessages before++[.assistant text])++
        nudge::turnMessages after := by
  rw [h]
  simp [turnMessages, TurnItem.messages]

/-- A nudge hides the input of the turn and the calls before it. -/
theorem nudge_hides (h : items = before++.nudged text::after) (hafter : ∀ t, .nudged t ∉ after)
    (hvalid : ValidRetry history (.userWithParts content parts) (turnMessages items)
      (compactMessagesForRetry (history++.userWithParts content parts::turnMessages items))) :
    ChatMessage.userWithParts content parts = nudge ∧ ∀ e, .exchange e ∉ before := by
  have hroles := unnudged_roles after hafter
  obtain ⟨notes, hcompact, hnotes⟩ := compact_split
    (history++.userWithParts content parts::turnMessages before++[.assistant text])
    (turnMessages after) nudge rfl hroles
  have hcurrent := hvalid.current
  rw [nudge_split history content parts items before text after h, hcompact] at hcurrent
  constructor
  · have hin := hcurrent.subset List.mem_cons_self
    rcases List.mem_append.mp hin with hsystem | hkept
    · rcases List.mem_append.mp hsystem with hold | hnote
      · have hrole := (List.mem_filter.mp hold).2
        simp [isSystem, ChatMessage.userWithParts] at hrole
      · rcases hnotes with rfl | rfl
        · cases hnote
        · have hrole := congrArg ChatMessage.role (List.mem_singleton.mp hnote)
          cases hrole
    · rcases List.mem_cons.mp hkept with hsame | hlater
      · exact hsame
      · exact absurd rfl (hroles _ hlater)
  · -- the calls that are sent are those after the nudge
    have htools := (hcurrent.filter isToolMessage).length_le
    have hnoteTools : notes.filter isToolMessage = [] := by
      rcases hnotes with rfl | rfl <;> rfl
    have hinput : isToolMessage (.userWithParts content parts) = false := rfl
    have hnudge : isToolMessage nudge = false := rfl
    rw [List.filter_append, List.filter_append, system_untooled, hnoteTools,
      List.filter_cons_of_neg (by simp [hinput]), List.filter_cons_of_neg (by simp [hnudge]),
      List.filter_filter, h] at htools
    simp only [Bool.and_self, tools_nudged, List.length_append, List.nil_append] at htools
    rw [← tools_none, ← List.length_eq_zero_iff]
    omega

theorem unnudged_valid (h : ∀ text, .nudged text ∉ items) :
    ValidRetry history (.userWithParts content parts) (turnMessages items)
      (compactMessagesForRetry (history++.userWithParts content parts::turnMessages items)) := by
  have hroles := unnudged_roles items h
  obtain ⟨hsystems, hanswered⟩ := compact_sound history content parts items history
    (turnMessages items) (.userWithParts content parts) rfl hroles (turn_answered items) rfl
  obtain ⟨notes, hcompact, -⟩ := compact_split history (turnMessages items)
    (.userWithParts content parts) rfl hroles
  refine ⟨hsystems, ?_, hanswered⟩
  rw [hcompact]
  exact (List.filter_sublist.cons_cons _).trans (List.sublist_append_right _ _)

theorem nudged_valid (h : items = before++.nudged text::after) (hafter : ∀ t, .nudged t ∉ after)
    (hinput : ChatMessage.userWithParts content parts = nudge)
    (hcalls : ∀ e, .exchange e ∉ before) :
    ValidRetry history (.userWithParts content parts) (turnMessages items)
      (compactMessagesForRetry (history++.userWithParts content parts::turnMessages items)) := by
  have hroles := unnudged_roles after hafter
  have hsplit := nudge_split history content parts items before text after h
  obtain ⟨hsystems, hanswered⟩ := compact_sound history content parts items _
    (turnMessages after) nudge rfl hroles (turn_answered after) hsplit
  obtain ⟨notes, hcompact, -⟩ := compact_split
    (history++.userWithParts content parts::turnMessages before++[.assistant text])
    (turnMessages after) nudge rfl hroles
  refine ⟨hsystems, ?_, hanswered⟩
  rw [hsplit, hcompact, h, tools_nudged, (tools_none before).mpr hcalls, hinput, List.nil_append]
  exact (List.filter_sublist.cons_cons _).trans (List.sublist_append_right _ _)

/-- The second request is a valid one exactly if no nudge hides the input. -/
theorem retry_valid_iff :
    ValidRetry history (.userWithParts content parts) (turnMessages items)
      (compactMessagesForRetry (history++.userWithParts content parts::turnMessages items)) ↔
    NudgedFirst content parts items := by
  constructor
  · intro hvalid before text after hsplit hafter
    exact nudge_hides history content parts items before text after hsplit hafter hvalid
  · intro hfirst
    rcases last_nudge items with hnone | ⟨before, text, after, hsplit, hafter⟩
    · exact unnudged_valid history content parts items hnone
    · obtain ⟨hinput, hcalls⟩ := hfirst before text after hsplit hafter
      exact nudged_valid history content parts items before text after hsplit hafter hinput hcalls

end retry

def oneCall : Exchange := ⟨none, [(⟨"call_1", "http", .object []⟩, "ok")], by decide⟩

def announced : List TurnItem := [.exchange oneCall, .nudged "Let me search for the rest."]

theorem input_hidden : ¬ ValidRetry [] (.userWithParts "Compare the feeds." [])
    (turnMessages announced) (compactMessagesForRetry
      ([]++.userWithParts "Compare the feeds." []::turnMessages announced)) := by
  intro hvalid
  have hfirst := (nudge_hides [] "Compare the feeds." [] announced [.exchange oneCall]
    "Let me search for the rest." [] rfl (by simp) hvalid).1
  revert hfirst
  decide

end IronClaw.ContextCuts
