import IronClaw.ChatLoop
import IronClaw.TurnNumbers

/-!
# Compaction of a thread

`agent/compaction.rs` shortens a thread by its oldest turns. They are summed up
by the language model, written to the daily log, or dropped. What was asked of
the model and what went to the workspace is kept in the order it happened.
-/

set_option autoImplicit false

namespace IronClaw.Compaction
open IronClaw.JsonValue IronClaw.LlmMessage IronClaw.SessionThread IronClaw.ChatLoop

inductive CompactionStrategy where
  | summarize (keepRecent : ℕ)
  | truncate (keepRecent : ℕ)
  | moveToWorkspace
  deriving DecidableEq

structure World where
  complete : List ChatMessage → Except String String
  append : Option (String → String → Option String)
  date : String
  time : String
  estimateMessageTokens : ChatMessage → ℕ
  render : Value → String

inductive Event where
  | asked (request : List ChatMessage)
  | appended (path entry : String) (failure : Option String)

structure CompactionPartial where
  turnsRemoved : ℕ
  summaryWritten : Bool
  summary : Option String
  deriving DecidableEq

def CompactionPartial.empty : CompactionPartial := ⟨0, false, none⟩

structure CompactionResult where
  turnsRemoved : ℕ
  tokensBefore : ℕ
  tokensAfter : ℕ
  summaryWritten : Bool
  summary : Option String
  deriving DecidableEq

structure Compacted (α : Type) where
  thread : Thread
  events : List Event
  outcome : Except String α

def turnMessages (turn : Turn) : List ChatMessage :=
  .user turn.userInput::turn.responseMessages

def roleText (m : ChatMessage) : String :=
  match m.role with
  | .user => "User: " ++ m.content
  | .assistant => "Assistant: " ++ m.content
  | .system => "System: " ++ m.content
  | .tool => "Tool " ++ m.name.getD "unknown" ++ ": " ++ m.content

def summaryPrompt : String :=
  "Summarize the following conversation concisely. Focus on:\n" ++
    "- Key decisions made\n" ++
    "- Important information exchanged\n" ++
    "- Actions taken\n" ++
    "- Outcomes achieved\n" ++
    "\n" ++
    "Be brief but capture all important details. Use bullet points."

/-- The request of `generate_summary`. -/
def summaryRequest (messages : List ChatMessage) : List ChatMessage :=
  [system summaryPrompt,
    .user ("Please summarize this conversation:\n\n" ++
      "\n\n".intercalate (messages.map roleText))]

def turnText (turn : Turn) : String :=
  "**Turn " ++ toString (turn.turnNumber+1) ++ "**\n" ++
    "User: " ++ turn.userInput ++ "\n" ++
    (match turn.response with
      | some response => "Agent: " ++ response ++ "\n"
      | none => "") ++
    (if turn.toolCalls.isEmpty then ""
      else "Tools: " ++ ", ".intercalate (turn.toolCalls.map TurnToolCall.name) ++ "\n")

def formatTurnsForStorage (turns : List Turn) : String := "\n".intercalate (turns.map turnText)

section compact
variable (world : World)

def World.logPath : String := "daily/" ++ world.date ++ ".md"

def World.logEntry (heading content : String) : String :=
  "\n## " ++ heading ++ " (" ++ world.time ++ " UTC)\n\n" ++ content ++ "\n"

def compactWithSummary (thread : Thread) (keepRecent : ℕ) : Compacted CompactionPartial :=
  if thread.turns.length ≤ keepRecent then ⟨thread, [], .ok .empty⟩
  else
    let turnsToRemove := thread.turns.length-keepRecent
    let oldTurns := thread.turns.take turnsToRemove
    let request := summaryRequest (oldTurns.flatMap turnMessages)
    match world.complete request with
    | .error e => ⟨thread, [.asked request], .error e⟩
    | .ok summary =>
      match world.append with
      | some append =>
        let entry := world.logEntry "Context Summary" summary
        match append world.logPath entry with
        | none =>
          ⟨thread.truncateTurns keepRecent, [.asked request, .appended world.logPath entry none],
            .ok ⟨turnsToRemove, true, some summary⟩⟩
        | some e =>
          ⟨thread, [.asked request, .appended world.logPath entry (some e)],
            .ok ⟨0, false, some summary⟩⟩
      | none =>
        ⟨thread.truncateTurns keepRecent, [.asked request],
          .ok ⟨turnsToRemove, false, some summary⟩⟩

def compactTruncate (thread : Thread) (keepRecent : ℕ) : Compacted CompactionPartial :=
  let turnsBefore := thread.turns.length
  let thread := thread.truncateTurns keepRecent
  ⟨thread, [], .ok ⟨turnsBefore-thread.turns.length, false, none⟩⟩

def compactToWorkspace (thread : Thread) : Compacted CompactionPartial :=
  match world.append with
  | none => compactTruncate thread 5
  | some append =>
    let keepRecent := 10
    if thread.turns.length ≤ keepRecent then ⟨thread, [], .ok .empty⟩
    else
      let turnsToRemove := thread.turns.length-keepRecent
      let entry := world.logEntry "Archived Context"
        (formatTurnsForStorage (thread.turns.take turnsToRemove))
      match append world.logPath entry with
      | none =>
        ⟨thread.truncateTurns keepRecent, [.appended world.logPath entry none],
          .ok ⟨turnsToRemove, true, none⟩⟩
      | some e => ⟨thread, [.appended world.logPath entry (some e)], .ok ⟨0, false, none⟩⟩

def run (thread : Thread) : CompactionStrategy → Compacted CompactionPartial
  | .summarize keepRecent => compactWithSummary world thread keepRecent
  | .truncate keepRecent => compactTruncate thread keepRecent
  | .moveToWorkspace => compactToWorkspace world thread

def totalTokens (thread : Thread) : ℕ :=
  ((thread.messages world.render).map world.estimateMessageTokens).sum

def compact (thread : Thread) (strategy : CompactionStrategy) : Compacted CompactionResult :=
  let done := run world thread strategy
  ⟨done.thread, done.events, done.outcome.map (fun result =>
    ⟨result.turnsRemoved, totalTokens world thread, totalTokens world done.thread,
      result.summaryWritten, result.summary⟩)⟩

def keptBy : CompactionStrategy → ℕ
  | .summarize keepRecent => keepRecent
  | .truncate keepRecent => keepRecent
  | .moveToWorkspace => if world.append.isSome then 10 else 5

end compact

def Event.texts : Event → List String
  | .asked request => request.map ChatMessage.content
  | .appended _ entry none => [entry]
  | .appended _ _ (some _) => []

def Event.failed : Event → Prop
  | .appended _ _ (some _) => True
  | _ => False

def Within (s t : String) : Prop := s.toList <:+: t.toList

def Covers (text : String) (turn : Turn) : Prop :=
  Within turn.userInput text ∧ ∀ response, turn.response = some response → Within response text

def unnumbered (turn : Turn) : Turn := { turn with turnNumber := 0 }

structure AllOrNothing {α : Type} (removed : α → ℕ) (world : World)
    (strategy : CompactionStrategy) (thread : Thread) (done : Compacted α) : Prop where
  failed : ((∃ event ∈ done.events, event.failed) ∨ ∃ e, done.outcome = .error e) →
    done.thread = thread ∧ ∀ result, done.outcome = .ok result → removed result = 0
  shortened : ∀ result, done.outcome = .ok result → (∀ event ∈ done.events, ¬ event.failed) →
    done.thread.turns.map unnumbered = (thread.turns.drop
      (thread.turns.length-min thread.turns.length (keptBy world strategy))).map unnumbered ∧
    removed result+done.thread.turns.length = thread.turns.length
  covered : ∀ result, done.outcome = .ok result → world.append.isSome = true →
    (∀ keepRecent, strategy ≠ .truncate keepRecent) →
    ∀ turn ∈ thread.turns.take (removed result),
      ∃ event ∈ done.events, ∃ text ∈ event.texts, Covers text turn

theorem within_end (a x : String) : Within x (a ++ x) := by
  refine ⟨a.toList, [], ?_⟩
  rw [String.toList_append, List.append_nil]

theorem within_left (x a b : String) (h : Within x a) : Within x (a ++ b) := by
  unfold Within at h ⊢
  rw [String.toList_append]
  exact h.trans (List.prefix_append _ _).isInfix

theorem within_right (x a b : String) (h : Within x b) : Within x (a ++ b) := by
  unfold Within at h ⊢
  rw [String.toList_append]
  exact h.trans (List.suffix_append _ _).isInfix

theorem infix_intercalate {α : Type} (sep : List α) (xs : List (List α)) (x : List α)
    (h : x ∈ xs) : x <:+: sep.intercalate xs := by
  induction xs with
  | nil => cases h
  | cons y ys ih =>
    cases ys with
    | nil =>
      rw [List.mem_singleton.mp h, List.intercalate_singleton]
    | cons z zs =>
      rw [List.intercalate_cons_cons]
      rcases List.mem_cons.mp h with rfl | hrest
      · rw [List.append_assoc]
        exact (List.prefix_append _ _).isInfix
      · exact (ih hrest).trans (List.suffix_append _ _).isInfix

theorem within_join (sep : String) (xs : List String) (x : String) (h : x ∈ xs) :
    Within x (sep.intercalate xs) := by
  unfold Within
  rw [String.toList_intercalate]
  exact infix_intercalate _ _ _ (List.mem_map_of_mem h)

/-- What the model is asked to sum up has every message in it. -/
theorem request_covers (turns : List Turn) (turn : Turn) (h : turn ∈ turns) :
    ∃ text ∈ (Event.asked (summaryRequest (turns.flatMap turnMessages))).texts,
      Covers text turn := by
  have hsaid : ∀ m ∈ turnMessages turn, Within (roleText m)
      ("Please summarize this conversation:\n\n" ++
        "\n\n".intercalate ((turns.flatMap turnMessages).map roleText)) := by
    intro m hm
    exact within_right _ _ _
      (within_join _ _ _ (List.mem_map_of_mem (List.mem_flatMap.mpr ⟨turn, h, hm⟩)))
  have huser : roleText (.user turn.userInput) = "User: " ++ turn.userInput := rfl
  refine ⟨_, List.mem_map_of_mem (List.mem_cons_of_mem _ (List.mem_singleton.mpr rfl)), ?_, ?_⟩
  · have hinput := hsaid (.user turn.userInput) List.mem_cons_self
    rw [huser] at hinput
    exact (within_end "User: " turn.userInput).trans hinput
  · intro response hresponse
    have hin : ChatMessage.assistant response ∈ turnMessages turn := by
      refine List.mem_cons_of_mem _ ?_
      rw [Turn.responseMessages, hresponse]
      exact List.mem_singleton.mpr rfl
    have hassistant : roleText (.assistant response) = "Assistant: " ++ response := rfl
    have houtput := hsaid _ hin
    rw [hassistant] at houtput
    exact (within_end "Assistant: " response).trans houtput

theorem turnText_covers (turn : Turn) : Covers (turnText turn) turn := by
  unfold turnText
  constructor
  · exact within_left _ _ _ (within_left _ _ _ (within_left _ _ _ (within_end _ _)))
  · intro response hresponse
    rw [hresponse]
    exact within_left _ _ _ (within_right _ _ _ (within_left _ _ _ (within_end _ _)))

theorem entry_covers (world : World) (path heading : String) (turns : List Turn) (turn : Turn)
    (h : turn ∈ turns) : ∃ text ∈ (Event.appended path
      (world.logEntry heading (formatTurnsForStorage turns)) none).texts, Covers text turn := by
  have hturn : Within (turnText turn) (formatTurnsForStorage turns) :=
    within_join _ _ _ (List.mem_map_of_mem h)
  have hentry : Within (turnText turn)
      (world.logEntry heading (formatTurnsForStorage turns)) := by
    unfold World.logEntry
    exact within_left _ _ _ (within_right _ _ _ hturn)
  obtain ⟨hinput, hresponses⟩ := turnText_covers turn
  exact ⟨_, List.mem_singleton.mpr rfl, hinput.trans hentry,
    fun response hresponse => (hresponses response hresponse).trans hentry⟩

theorem renumber_unnumbered (n : ℕ) (turns : List Turn) :
    (renumber n turns).map unnumbered = turns.map unnumbered := by
  induction turns generalizing n with
  | nil => rfl
  | cons turn turns ih => rw [renumber, List.map_cons, List.map_cons, ih]; rfl

theorem truncate_turns (thread : Thread) (keep : ℕ) :
    (thread.truncateTurns keep).turns.map unnumbered = (thread.turns.drop
      (thread.turns.length-min thread.turns.length keep)).map unnumbered := by
  unfold Thread.truncateTurns
  split
  · next h => rw [renumber_unnumbered, Nat.min_eq_right (Nat.le_of_lt h)]
  · next h => rw [Nat.min_eq_left (Nat.not_lt.mp h), Nat.sub_self, List.drop_zero]

theorem truncate_length (thread : Thread) (keep : ℕ) :
    thread.turns.length-keep+(thread.truncateTurns keep).turns.length = thread.turns.length := by
  unfold Thread.truncateTurns
  split
  · simp only [TurnNumbers.renumber_length, List.length_drop]
    omega
  · omega

section outcomes
variable {α : Type} (removed : α → ℕ) (world : World) (strategy : CompactionStrategy)
  (thread : Thread) (events : List Event)

theorem left_alone (result : α) (hnone : removed result = 0)
    (h : thread.turns.length ≤ keptBy world strategy ∨ ∃ event ∈ events, event.failed) :
    AllOrNothing removed world strategy thread ⟨thread, events, .ok result⟩ := by
  refine ⟨fun _ => ⟨rfl, fun result' hresult => ?_⟩, fun result' hresult hfine => ?_,
    fun result' hresult _ _ turn hturn => ?_⟩
  · rw [← Except.ok.inj hresult, hnone]
  · obtain hshort | ⟨event, hevent, hfailed⟩ := h
    · rw [← Except.ok.inj hresult, hnone, Nat.min_eq_left hshort, Nat.sub_self, Nat.zero_add]
      exact ⟨rfl, rfl⟩
    · exact absurd hfailed (hfine event hevent)
  · rw [← Except.ok.inj hresult, hnone] at hturn
    cases hturn

theorem refused (e : String) :
    AllOrNothing removed world strategy thread ⟨thread, events, .error e⟩ :=
  ⟨fun _ => ⟨rfl, nofun⟩, nofun, nofun⟩

theorem removed_oldest (result : α)
    (hcount : removed result = thread.turns.length-keptBy world strategy)
    (hfine : ∀ event ∈ events, ¬ event.failed)
    (hcovered : world.append.isSome = true → (∀ keepRecent, strategy ≠ .truncate keepRecent) →
      ∀ turn ∈ thread.turns.take (removed result),
        ∃ event ∈ events, ∃ text ∈ event.texts, Covers text turn) :
    AllOrNothing removed world strategy thread
      ⟨thread.truncateTurns (keptBy world strategy), events, .ok result⟩ := by
  refine ⟨?_, fun result' hresult _ => ?_, fun result' hresult hws htruncate => ?_⟩
  · rintro (⟨event, hevent, hfailed⟩ | ⟨e, he⟩)
    · exact absurd hfailed (hfine event hevent)
    · cases he
  · rw [← Except.ok.inj hresult, hcount]
    exact ⟨truncate_turns thread _, truncate_length thread _⟩
  · rw [← Except.ok.inj hresult]
    exact hcovered hws htruncate

end outcomes

/-- What is made of the result afterwards does not matter. -/
theorem AllOrNothing.mapped {α β : Type} {removed : α → ℕ} {removed' : β → ℕ} {f : α → β}
    {world : World} {strategy : CompactionStrategy} {thread : Thread} {done : Compacted α}
    (h : AllOrNothing removed world strategy thread done) (hf : ∀ a, removed' (f a) = removed a) :
    AllOrNothing removed' world strategy thread
      ⟨done.thread, done.events, done.outcome.map f⟩ := by
  cases hdone : done.outcome with
  | error e =>
    exact ⟨fun _ => ⟨(h.failed (Or.inr ⟨e, hdone⟩)).1, nofun⟩, nofun, nofun⟩
  | ok result =>
    refine ⟨?_, fun result' h' hfine => ?_, fun result' h' hws htruncate => ?_⟩
    · rintro (hfailed | ⟨e, he⟩)
      · obtain ⟨hthread, hnone⟩ := h.failed (Or.inl hfailed)
        refine ⟨hthread, fun result' h' => ?_⟩
        rw [← Except.ok.inj h', hf]
        exact hnone result hdone
      · cases he
    · rw [← Except.ok.inj h', hf]
      exact h.shortened result hdone hfine
    · rw [← Except.ok.inj h', hf]
      exact h.covered result hdone hws htruncate

section strategies
variable (world : World) (thread : Thread)

theorem truncated_sound (strategy : CompactionStrategy) (keepRecent : ℕ)
    (hkept : keptBy world strategy = keepRecent)
    (hplain : world.append.isSome = true → ∃ k, strategy = .truncate k) :
    AllOrNothing CompactionPartial.turnsRemoved world strategy thread
      (compactTruncate thread keepRecent) := by
  have hcount := truncate_length thread keepRecent
  unfold compactTruncate
  rw [← hkept] at hcount ⊢
  refine removed_oldest _ _ _ _ _ _ ?_ (by simp) ?_
  · simp only
    omega
  · intro hws htruncate
    obtain ⟨k, hk⟩ := hplain hws
    exact absurd hk (htruncate k)

theorem summary_sound (keepRecent : ℕ) :
    AllOrNothing CompactionPartial.turnsRemoved world (.summarize keepRecent) thread
      (compactWithSummary world thread keepRecent) := by
  unfold compactWithSummary
  split
  · next hshort => exact left_alone _ _ _ _ _ _ rfl (Or.inl hshort)
  · simp only
    split
    · exact refused _ _ _ _ _ _
    · split
      · split
        · refine removed_oldest _ world (.summarize keepRecent) _ _ _ rfl (by simp [Event.failed]) ?_
          intro _ _ turn hturn
          exact ⟨_, List.mem_cons_self, request_covers _ turn hturn⟩
        · exact left_alone _ _ _ _ _ _ rfl
            (Or.inr ⟨_, List.mem_cons_of_mem _ (List.mem_singleton.mpr rfl), trivial⟩)
      · refine removed_oldest _ world (.summarize keepRecent) _ _ _ rfl (by simp [Event.failed]) ?_
        intro _ _ turn hturn
        exact ⟨_, List.mem_cons_self, request_covers _ turn hturn⟩

theorem workspace_sound :
    AllOrNothing CompactionPartial.turnsRemoved world .moveToWorkspace thread
      (compactToWorkspace world thread) := by
  unfold compactToWorkspace
  split
  · next hnone =>
    exact truncated_sound world thread _ 5 (by simp [keptBy, hnone]) (by simp [hnone])
  · next append hsome =>
    have hkept : keptBy world .moveToWorkspace = 10 := by simp [keptBy, hsome]
    simp only
    split
    · next hshort => exact left_alone _ _ _ _ _ _ rfl (Or.inl (hkept ▸ hshort))
    · split
      · rw [← hkept]
        refine removed_oldest _ _ _ _ _ _ rfl (by simp [Event.failed]) ?_
        intro _ _ turn hturn
        exact ⟨_, List.mem_singleton.mpr rfl, entry_covers world _ _ _ turn hturn⟩
      · exact left_alone _ _ _ _ _ _ rfl (Or.inr ⟨_, List.mem_singleton.mpr rfl, trivial⟩)

theorem run_sound (strategy : CompactionStrategy) :
    AllOrNothing CompactionPartial.turnsRemoved world strategy thread
      (run world thread strategy) := by
  cases strategy with
  | summarize keepRecent => exact summary_sound world thread keepRecent
  | truncate keepRecent =>
    exact truncated_sound world thread (.truncate keepRecent) keepRecent rfl
      (fun _ => ⟨keepRecent, rfl⟩)
  | moveToWorkspace => exact workspace_sound world thread

/-- A compaction is all or nothing, whatever the model and the workspace do. -/
theorem compact_all_or_nothing (strategy : CompactionStrategy) :
    AllOrNothing CompactionResult.turnsRemoved world strategy thread
      (compact world thread strategy) := by
  exact (run_sound world thread strategy).mapped (fun _ => rfl)

end strategies

end IronClaw.Compaction
