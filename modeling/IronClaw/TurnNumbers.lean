import Mathlib.Algebra.Order.Ring.Nat
import Mathlib.Data.List.Nodup
import IronClaw.Lib.Runs
import IronClaw.SessionThread
import IronClaw.ToolMessages

/-!
# Turn numbers and tool call identifiers

A turn gets its number from the length of the thread, truncation numbers the
turns again and the restoring parser counts them. All three agree with the
position of the turn, and `messages` builds its call identifiers from it.
-/

set_option autoImplicit false

namespace IronClaw.TurnNumbers
open IronClaw.JsonValue IronClaw.LlmMessage IronClaw.SessionThread IronClaw.ToolMessages

/-- What `process_clear` does to its thread. -/
def clearThread (t : Thread) : Thread := { t with turns := [], state := .idle }

inductive Op where
  | startTurn (userInput : String)
  | setImageParts (imageParts : List ContentPart)
  | recordToolCall (name : String) (params : Value)
  | recordToolResult (result : Value)
  | recordToolError (error : String)
  | completeTurn (response : String)
  | failTurn (error : String)
  | interrupt
  | truncateTurns (keep : ℕ)
  | restoreFromMessages (messages : List ChatMessage)
  | clear

def step (op : Op) (t : Thread) : Thread :=
  match op with
  | .startTurn userInput => t.startTurn userInput
  | .setImageParts imageParts =>
    t.modifyLastTurn (fun turn => { turn with imageContentParts := imageParts })
  | .recordToolCall name params => t.modifyLastTurn (fun turn => turn.recordToolCall name params)
  | .recordToolResult result => t.modifyLastTurn (fun turn => turn.recordToolResult result)
  | .recordToolError error => t.modifyLastTurn (fun turn => turn.recordToolError error)
  | .completeTurn response => t.completeTurn response
  | .failTurn error => t.failTurn error
  | .interrupt => t.interrupt
  | .truncateTurns keep => t.truncateTurns keep
  | .restoreFromMessages messages => t.restoreFromMessages messages
  | .clear => clearThread t

def Positioned (turns : List Turn) : Prop :=
  ∀ (i : ℕ) (turn : Turn), turns[i]? = some turn → turn.turnNumber = i

def Batched (messages : List ChatMessage) : Prop :=
  ∀ before m after, messages = before++m::after → m.role = .tool →
    ∃ head declaring row calls call,
      before = head++declaring::row ∧ (∀ r ∈ row, r.role = .tool) ∧
      declaring.role = .assistant ∧ declaring.toolCalls = some calls ∧
      calls[row.length]? = some call ∧ m.toolCallId = some call.id ∧ m.name = some call.name

theorem positioned_iff (turns : List Turn) :
    Positioned turns ↔ turns.map Turn.turnNumber = List.range turns.length := by
  constructor
  · intro h
    apply List.ext_getElem
    · simp
    · intro i hi _
      have hlt : i < turns.length := by simpa using hi
      simpa using h i turns[i] (List.getElem?_eq_getElem hlt)
  · intro h i turn hturn
    have hget := congrArg (fun numbers : List ℕ => numbers[i]?) h
    have hlt : i < turns.length := (List.getElem?_eq_some_iff.mp hturn).1
    simp only [List.getElem?_map, hturn, List.getElem?_range hlt, Option.map_some] at hget
    exact Option.some.inj hget

theorem positioned_nil : Positioned [] := by
  intro i turn h
  simp at h

theorem modifyLast_map {α β : Type} (f : α → α) (g : α → β) (h : ∀ x, g (f x) = g x)
    (xs : List α) : (modifyLast f xs).map g = xs.map g := by
  induction xs using modifyLast.induct with
  | case1 => rfl
  | case2 x => simp [modifyLast, h]
  | case3 x y xs ih =>
    simp only [modifyLast, List.map_cons] at ih ⊢
    rw [ih]

theorem positioned_of_numbers (turns turns' : List Turn)
    (h : turns'.map Turn.turnNumber = turns.map Turn.turnNumber) (hp : Positioned turns) :
    Positioned turns' := by
  have hlen : turns'.length = turns.length := by simpa using congrArg List.length h
  rw [positioned_iff] at hp ⊢
  rw [h, hlen, hp]

theorem modifyLastTurn_positioned (t : Thread) (f : Turn → Turn)
    (h : ∀ turn, (f turn).turnNumber = turn.turnNumber) (hp : Positioned t.turns) :
    Positioned (t.modifyLastTurn f).turns :=
  positioned_of_numbers _ _ (modifyLast_map f Turn.turnNumber h t.turns) hp

theorem startTurn_positioned (t : Thread) (userInput : String) (hp : Positioned t.turns) :
    Positioned (t.startTurn userInput).turns := by
  rw [positioned_iff] at hp ⊢
  simp [Thread.startTurn, hp, List.range_succ, Turn.new]

theorem renumber_numbers (n : ℕ) (turns : List Turn) :
    (renumber n turns).map Turn.turnNumber = List.range' n turns.length := by
  induction turns generalizing n with
  | nil => rfl
  | cons turn turns ih => simp [renumber, ih, List.range'_succ]

theorem renumber_length (n : ℕ) (turns : List Turn) :
    (renumber n turns).length = turns.length := by
  simpa using congrArg List.length (renumber_numbers n turns)

theorem truncateTurns_positioned (t : Thread) (keep : ℕ) (hp : Positioned t.turns) :
    Positioned (t.truncateTurns keep).turns := by
  unfold Thread.truncateTurns
  split
  · rw [positioned_iff]
    simp only [renumber_numbers, renumber_length, List.range_eq_range']
  · exact hp

theorem takeResults_number (base pos : ℕ) (turn : Turn) (ms : List ChatMessage) :
    (takeResults base pos turn ms).1.turnNumber = turn.turnNumber := by
  induction ms generalizing pos turn with
  | nil => rfl
  | cons m ms ih =>
    rw [takeResults]
    split
    · rw [ih]
    · rfl

theorem recordCalls_number (turn : Turn) (calls : List ToolCall) :
    (recordCalls turn calls).turnNumber = turn.turnNumber := by
  induction calls generalizing turn with
  | nil => rfl
  | cons call calls ih => exact ih (turn.recordToolCall call.name call.arguments)

theorem takeCalls_number (turn : Turn) (ms : List ChatMessage) :
    (takeCalls turn ms).1.turnNumber = turn.turnNumber := by
  induction turn, ms using takeCalls.induct with
  | case1 turn => rw [takeCalls]
  | case2 turn m rest calls hrole hcalls taken ih =>
    rw [takeCalls, hrole, hcalls]
    show (takeCalls taken.1 taken.2).1.turnNumber = turn.turnNumber
    rw [ih, takeResults_number, recordCalls_number]
  | case3 turn m rest h =>
    rw [takeCalls]
    split
    · next calls hrole hcalls => exact absurd hcalls (h calls hrole)
    · rfl

theorem takeResponse_number (turn : Turn) (ms : List ChatMessage) :
    (takeResponse turn ms).1.turnNumber = turn.turnNumber := by
  cases ms with
  | nil => rfl
  | cons m ms =>
    rw [takeResponse]
    split
    · rfl
    · rfl

/-- The parser counts exactly the turns it pushes. -/
theorem restoreTurns_numbers (n : ℕ) (ms : List ChatMessage) :
    (restoreTurns n ms).map Turn.turnNumber = List.range' n (restoreTurns n ms).length := by
  induction n, ms using restoreTurns.induct with
  | case1 n => simp [restoreTurns]
  | case2 n m rest hrole called answered ih =>
    rw [restoreTurns, if_pos hrole]
    show answered.1.turnNumber::(restoreTurns (n+1) answered.2).map Turn.turnNumber = _
    have hnumber : answered.1.turnNumber = n := by
      rw [takeResponse_number, takeCalls_number]
      rfl
    rw [ih, hnumber, List.length_cons, List.range'_succ]
  | case3 n m rest hrole ih =>
    rw [restoreTurns, if_neg hrole]
    exact ih

theorem restore_positioned (t : Thread) (ms : List ChatMessage) :
    Positioned (t.restoreFromMessages ms).turns := by
  rw [positioned_iff, List.range_eq_range']
  exact restoreTurns_numbers 0 ms

theorem step_positioned (op : Op) (t : Thread) (hp : Positioned t.turns) :
    Positioned (step op t).turns := by
  cases op with
  | startTurn userInput => exact startTurn_positioned t userInput hp
  | setImageParts imageParts => exact modifyLastTurn_positioned t _ (fun _ => rfl) hp
  | recordToolCall name params => exact modifyLastTurn_positioned t _ (fun _ => rfl) hp
  | recordToolResult result => exact modifyLastTurn_positioned t _ (fun _ => rfl) hp
  | recordToolError error => exact modifyLastTurn_positioned t _ (fun _ => rfl) hp
  | completeTurn response => exact modifyLastTurn_positioned t _ (fun _ => rfl) hp
  | failTurn error => exact modifyLastTurn_positioned t _ (fun _ => rfl) hp
  | interrupt => exact modifyLastTurn_positioned t _ (fun _ => rfl) hp
  | truncateTurns keep => exact truncateTurns_positioned t keep hp
  | restoreFromMessages messages => exact restore_positioned t messages
  | clear => exact positioned_nil

theorem callId_pair (n m i j : ℕ) (h : callId n i = callId m j) : n = m ∧ i = j := by
  have hlist := congrArg String.toList h
  simp only [callId, String.toList_append, List.append_assoc] at hlist
  have htail := List.append_cancel_left hlist
  have hunderscore : "_".toList = ['_'] := rfl
  have hdigits : ∀ k : ℕ, '_' ∉ (toString k).toList := by
    intro k hin
    have hdigit : '_' ∈ Nat.toDigits 10 k := by
      rw [← Nat.toList_repr]
      exact hin
    have hbad := Nat.isDigit_of_mem_toDigits (by decide) (by decide) hdigit
    simp at hbad
  rw [hunderscore, List.singleton_append, List.singleton_append,
    List.append_cons_inj_of_notMem (hdigits n) (hdigits i)] at htail
  have hnumber (k l : ℕ) (h : (toString k).toList = (toString l).toList) : k = l := by
    simpa using congrArg (fun cs => Nat.ofDigitChars 10 cs 0) h
  exact ⟨hnumber _ _ htail.1, hnumber _ _ htail.2.2⟩

theorem synthetic_ids (n i : ℕ) (cs : List TurnToolCall) :
    (syntheticCalls n i cs).map ToolCall.id = (List.range' i cs.length).map (callId n) := by
  induction cs generalizing i with
  | nil => rfl
  | cons c cs ih => simp [syntheticCalls, ih, List.range'_succ]

section Messages

variable (render : Value → String)

theorem results_undeclared (n i : ℕ) (cs : List TurnToolCall) :
    knownIds (resultMessages render n i cs) = [] := by
  induction cs generalizing i with
  | nil => rfl
  | cons c cs ih =>
    simpa [knownIds, resultMessages, declaredIds, ChatMessage.toolResult] using ih (i+1)

theorem turn_ids (turn : Turn) :
    knownIds (turn.messages render) =
      (List.range turn.toolCalls.length).map (callId turn.turnNumber) := by
  have huser : declaredIds turn.userMessage = [] := by
    unfold Turn.userMessage
    split <;> rfl
  have hresponse : knownIds turn.responseMessages = [] := by
    unfold Turn.responseMessages
    cases turn.response <;> rfl
  have htools : knownIds (turn.toolMessages render) =
      (List.range turn.toolCalls.length).map (callId turn.turnNumber) := by
    unfold Turn.toolMessages
    cases hcs : turn.toolCalls with
    | nil => rfl
    | cons c cs =>
      have hresults := results_undeclared render turn.turnNumber 0 (c::cs)
      have hids := synthetic_ids turn.turnNumber 0 (c::cs)
      simp only [knownIds] at hresults ⊢
      simp only [List.isEmpty_cons, Bool.false_eq_true, if_false, List.flatMap_cons, hresults,
        List.append_nil, List.range_eq_range', ← hids]
      rfl
  simp only [knownIds] at hresponse htools ⊢
  simp only [Turn.messages, List.flatMap_cons, List.flatMap_append, huser, htools, hresponse,
    List.nil_append, List.append_nil]

theorem thread_ids (turns : List Turn) :
    knownIds (turns.flatMap (Turn.messages render)) =
      turns.flatMap (fun turn =>
        (List.range turn.toolCalls.length).map (callId turn.turnNumber)) := by
  simp only [knownIds, List.flatMap_assoc]
  apply List.flatMap_congr
  intro turn _
  exact turn_ids render turn

/-- Distinct turn numbers keep the identifiers of different turns apart, the
call index those of one turn. -/
theorem ids_nodup (turns : List Turn) (hp : Positioned turns) :
    (knownIds (turns.flatMap (Turn.messages render))).Nodup := by
  rw [thread_ids, List.nodup_flatMap]
  constructor
  · intro turn _
    apply List.nodup_range.map
    intro i j h
    exact (callId_pair _ _ _ _ h).2
  · have hnumbers : (turns.map Turn.turnNumber).Nodup := by
      rw [(positioned_iff turns).mp hp]
      exact List.nodup_range
    apply (List.pairwise_map.mp hnumbers).imp
    intro turn turn' hne id hid hid'
    obtain ⟨i, _, hi⟩ := List.mem_map.mp hid
    obtain ⟨j, _, hj⟩ := List.mem_map.mp hid'
    exact hne (callId_pair _ _ _ _ (hi.trans hj.symm)).1

theorem batched_single (m : ChatMessage) (h : m.role ≠ .tool) : Batched [m] := by
  intro before m' after hsplit hrole
  have hm : m' = m := by
    have hin : m' ∈ [m] := by
      rw [hsplit]
      simp
    exact List.mem_singleton.mp hin
  rw [hm] at hrole
  exact absurd hrole h

theorem batched_append (xs ys : List ChatMessage) (hxs : Batched xs) (hys : Batched ys) :
    Batched (xs++ys) := by
  intro before m after hsplit hrole
  rcases List.append_eq_append_iff.mp hsplit with
    ⟨middle, hbefore, hy⟩ | ⟨middle, hx, hafter⟩
  · obtain ⟨head, declaring, row, calls, call, heq, hrest⟩ := hys middle m after hy hrole
    refine ⟨xs++head, declaring, row, calls, call, ?_, hrest⟩
    rw [hbefore, heq, List.append_assoc]
  · cases middle with
    | nil =>
      obtain ⟨head, declaring, row, calls, call, heq, hrest⟩ := hys [] m after
        (by simpa using hafter.symm) hrole
      exact absurd heq (by simp)
    | cons m' middle =>
      rw [List.cons_append, List.cons.injEq] at hafter
      rw [← hafter.1] at hx
      exact hxs before m middle hx hrole

theorem batched_flatMap {α : Type} (f : α → List ChatMessage) (xs : List α)
    (h : ∀ x ∈ xs, Batched (f x)) : Batched (xs.flatMap f) := by
  induction xs with
  | nil =>
    intro before m after hsplit _
    simp at hsplit
  | cons x xs ih =>
    rw [List.flatMap_cons]
    exact batched_append _ _ (h x List.mem_cons_self)
      (ih (fun y hy => h y (List.mem_cons_of_mem x hy)))

theorem results_role (n i : ℕ) (cs : List TurnToolCall) :
    ∀ r ∈ resultMessages render n i cs, r.role = .tool := by
  induction cs generalizing i with
  | nil => simp [resultMessages]
  | cons c cs ih => simpa [resultMessages, toolResult_role] using ih (i+1)

theorem result_answers (n i : ℕ) (cs : List TurnToolCall) (before after : List ChatMessage)
    (m : ChatMessage) (h : resultMessages render n i cs = before++m::after) :
    ∃ call, (syntheticCalls n i cs)[before.length]? = some call ∧
      m.toolCallId = some call.id ∧ m.name = some call.name := by
  induction cs generalizing i before with
  | nil => simp [resultMessages] at h
  | cons c cs ih =>
    cases before with
    | nil =>
      have hm := (List.cons.inj h).1
      exact ⟨⟨callId n i, c.name, c.parameters⟩, rfl, by rw [← hm]; rfl, by rw [← hm]; rfl⟩
    | cons b before => simpa [syntheticCalls] using ih (i+1) before (List.cons.inj h).2

theorem batched_turn (turn : Turn) : Batched (turn.messages render) := by
  have huser : turn.userMessage.role ≠ .tool := by
    unfold Turn.userMessage
    split <;> simp [ChatMessage.user, ChatMessage.userWithParts]
  have hresponse : Batched turn.responseMessages := by
    unfold Turn.responseMessages
    cases turn.response with
    | none => exact batched_flatMap (fun m : ChatMessage => [m]) [] (by simp)
    | some response => exact batched_single _ (by simp [ChatMessage.assistant])
  have htools : Batched (turn.toolMessages render) := by
    unfold Turn.toolMessages
    cases hcs : turn.toolCalls with
    | nil => exact batched_flatMap (fun m : ChatMessage => [m]) [] (by simp)
    | cons c cs =>
      intro before m after hsplit hrole
      simp only [List.isEmpty_cons, Bool.false_eq_true, if_false] at hsplit
      cases before with
      | nil =>
        have hm := (List.cons.inj hsplit).1
        rw [← hm] at hrole
        simp [ChatMessage.assistantWithToolCalls] at hrole
      | cons declaring row =>
        have hparts := List.cons.inj hsplit
        obtain ⟨call, hcall, hid, hname⟩ := result_answers render _ _ _ _ _ _ hparts.2
        refine ⟨[], declaring, row, _, call, rfl, ?_, ?_, ?_, hcall, hid, hname⟩
        · intro r hr
          apply results_role render turn.turnNumber 0 (c::cs) r
          rw [hparts.2]
          simp [hr]
        · rw [← hparts.1]
          rfl
        · rw [← hparts.1]
          rfl
  rw [Turn.messages]
  exact batched_append [turn.userMessage] _ (batched_single _ huser)
    (batched_append _ _ htools hresponse)

theorem turns_stay_numbered (ops : List Op) :
    Positioned (Lib.Runs.run step ops Thread.new).turns ∧
      (knownIds ((Lib.Runs.run step ops Thread.new).messages render)).Nodup ∧
      Batched ((Lib.Runs.run step ops Thread.new).messages render) := by
  have hp : Positioned (Lib.Runs.run step ops Thread.new).turns := by
    apply Lib.Runs.run_invariant step (fun t => Positioned t.turns) step_positioned
    exact positioned_nil
  refine ⟨hp, ids_nodup render _ hp, ?_⟩
  exact batched_flatMap _ _ (fun turn _ => batched_turn render turn)

end Messages

end IronClaw.TurnNumbers
