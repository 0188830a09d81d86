import Mathlib.Tactic.IntervalCases
import IronClaw.Submission
import IronClaw.TurnNumbers
import IronClaw.UndoHistory

/-!
# Restoring a thread from its own messages

Undo and redo store a thread as the messages it shows and rebuild it from
them. The rebuilt thread shows the same messages exactly when every turn with
tool calls carries its own position as its number and every stored outcome is
a fixed point of the preview cut. The cut is not idempotent: its ellipsis may
push a text that was cut short of the limit over the limit again.
-/

set_option autoImplicit false

namespace IronClaw.ThreadHistory
open IronClaw.JsonValue IronClaw.LlmMessage IronClaw.SessionThread IronClaw.Submission
open IronClaw.TurnNumbers IronClaw.UndoHistory Lib.Text

section Operations

variable (render : Value → String)

/-- `process_undo`. `checkpointId` is the fresh id of the redo entry. -/
def processUndo (threadId checkpointId : Uuid) (sess : Session) (mgr : UndoManager) :
    Except Error SubmissionResult × Session × UndoManager :=
  if !canUndo mgr then (.ok (.okWithMessage "Nothing to undo."), sess, mgr)
  else match sess.threads threadId with
  | none => (.error (.jobNotFound threadId), sess, mgr)
  | some thread =>
    match undo mgr checkpointId thread.turnNumber (thread.messages render) with
    | (some c, mgr') =>
      (.ok (.okWithMessage ("Undone to turn " ++ toString c.turnNumber ++ ". " ++
        toString (undoCount mgr') ++ " undo(s) remaining.")),
        sess.setThread threadId (thread.restoreFromMessages c.messages), mgr')
    | (none, mgr') => (.ok (.error "Undo failed."), sess, mgr')

def processRedo (threadId checkpointId : Uuid) (sess : Session) (mgr : UndoManager) :
    Except Error SubmissionResult × Session × UndoManager :=
  if !canRedo mgr then (.ok (.okWithMessage "Nothing to redo."), sess, mgr)
  else match sess.threads threadId with
  | none => (.error (.jobNotFound threadId), sess, mgr)
  | some thread =>
    match redo mgr checkpointId thread.turnNumber (thread.messages render) with
    | (some c, mgr') =>
      (.ok (.okWithMessage ("Redone to turn " ++ toString c.turnNumber ++ ".")),
        sess.setThread threadId (thread.restoreFromMessages c.messages), mgr')
    | (none, mgr') => (.ok (.error "Redo failed."), sess, mgr')

end Operations

def openTag : String := "<tool_output"

def closeTag : String := "\n</tool_output>"

def closing (s : String) : List Char :=
  "...".toList++(if startsWith s openTag then closeTag.toList else [])

theorem cut_unclosed (p : List Char) :
    endsWith (String.ofList p ++ "...") "</tool_output>" = false := by
  have htag : "</tool_output>".toList.reverse = '>'::"tuptuo_loot/<".toList := by decide
  have hdots : "...".toList.reverse = '.'::"..".toList := by decide
  simp only [endsWith, List.isSuffixOf, String.toList_append, String.toList_ofList,
    List.reverse_append, htag, hdots, List.cons_append, List.isPrefixOf]
  simp

variable (s : String)

theorem truncate_short (n : ℕ) (h : byteLen s.toList ≤ n) :
    truncatePreview s n = s := by
  rw [truncatePreview, if_pos h]

theorem truncate_long (n : ℕ) (h : n < byteLen s.toList) :
    (truncatePreview s n).toList = sliceTo s.toList n++closing s := by
  rw [truncatePreview, if_neg (Nat.not_le.mpr h)]
  simp only [cut_unclosed, slice_floor, Bool.not_false, Bool.and_true]
  rw [closing, openTag]
  split
  · simp [closeTag]
  · simp

def Keeps (s : String) : Prop :=
  byteLen s.toList ≤ 1000 ∨ isBoundary s.toList 1000 = true ∨
    (floorBoundary s.toList 1000 = 997 ∧ startsWith s openTag = false)

theorem closing_byteLen :
    byteLen (closing s) = 3+(if startsWith s openTag then 15 else 0) := by
  unfold closing
  split <;> decide

theorem closing_truncate (h : 1000 < byteLen s.toList) :
    closing (truncatePreview s 1000) = closing s := by
  obtain ⟨rest, hs⟩ := sliceTo_split s.toList 1000
  have hbytes := byteLen_sliceTo_ge s.toList 1000 h.le
  have hchars := byteLen_le (sliceTo s.toList 1000)
  have htag : openTag.toList.length = 12 := by decide
  have hstart := startsWith_congr s (truncatePreview s 1000) openTag _ _ _ hs
    (truncate_long s 1000 h) (by omega)
  rw [closing, closing, hstart]

/-- The byte limit is a boundary of every cut text that still exceeds it: the
cut loses at most three bytes and the ellipsis has three of one byte each. -/
theorem truncate_boundary (h : 1000 < byteLen s.toList) :
    byteLen (sliceTo (truncatePreview s 1000).toList 1000) = 1000 := by
  have hge := byteLen_sliceTo_ge s.toList 1000 h.le
  have hle := byteLen_sliceTo_le s.toList 1000
  rw [truncate_long s 1000 h]
  generalize sliceTo s.toList 1000 = p at hge hle
  have hcut : ∃ dots rest, closing s = dots++rest ∧ byteLen dots = 1000-byteLen p := by
    refine ⟨"...".toList.take (1000-byteLen p), "...".toList.drop (1000-byteLen p)++
      (if startsWith s openTag then closeTag.toList else []), ?_, ?_⟩
    · rw [← List.append_assoc, List.take_append_drop, closing]
    · obtain ⟨k, hk⟩ : ∃ k, 1000-byteLen p = k := ⟨_, rfl⟩
      have hsmall : k ≤ 3 := by omega
      rw [hk]
      interval_cases k <;> decide
  obtain ⟨dots, rest, hclosing, hdots⟩ := hcut
  have hbytes : byteLen (p++dots) = 1000 := by
    rw [byteLen_append]
    omega
  rw [hclosing, ← List.append_assoc]
  have hslice := sliceTo_append (p++dots) rest
  rw [hbytes] at hslice
  rw [hslice, hbytes]

theorem truncate_stable_of_boundary (h : 1000 < byteLen s.toList)
    (hb : byteLen (sliceTo s.toList 1000) = 1000) :
    truncatePreview (truncatePreview s 1000) 1000 = truncatePreview s 1000 := by
  have hlong : 1000 < byteLen (truncatePreview s 1000).toList := by
    rw [truncate_long s 1000 h, byteLen_append, closing_byteLen, hb]
    omega
  have hslice := sliceTo_append (sliceTo s.toList 1000) (closing s)
  rw [hb] at hslice
  apply String.toList_inj.mp
  rw [truncate_long _ _ hlong, closing_truncate s h, truncate_long s 1000 h, hslice]

theorem truncate_stable_length (h : 1000 < byteLen s.toList)
    (hr : 1000 < byteLen (truncatePreview s 1000).toList)
    (hs : truncatePreview (truncatePreview s 1000) 1000 = truncatePreview s 1000) :
    byteLen (sliceTo s.toList 1000) = 1000 := by
  have htwice := congrArg (fun r : String => byteLen r.toList) hs
  simp only [truncate_long _ _ hr, byteLen_append, truncate_boundary s h,
    closing_truncate s h] at htwice
  rw [truncate_long s 1000 h, byteLen_append] at htwice
  omega

/-- Exactly the texts that fit, that can be cut at the limit itself, or whose
cut text fits together with the ellipsis, survive a second cut. -/
theorem truncate_stable_iff :
    truncatePreview (truncatePreview s 1000) 1000 = truncatePreview s 1000 ↔ Keeps s := by
  unfold Keeps
  rw [boundary_iff, floor_eq]
  by_cases hshort : byteLen s.toList ≤ 1000
  · simp [truncate_short s 1000 hshort, hshort]
  have h : 1000 < byteLen s.toList := Nat.lt_of_not_le hshort
  have hge := byteLen_sliceTo_ge s.toList 1000 h.le
  have hlen : byteLen (truncatePreview s 1000).toList =
      byteLen (sliceTo s.toList 1000)+(3+(if startsWith s openTag then 15 else 0)) := by
    rw [truncate_long s 1000 h, byteLen_append, closing_byteLen]
  constructor
  · intro hs
    right
    by_cases hfit : byteLen (truncatePreview s 1000).toList ≤ 1000
    · right
      cases htag : startsWith s openTag with
      | true =>
        rw [hlen, htag, if_pos rfl] at hfit
        omega
      | false =>
        rw [hlen, htag, if_neg (by simp)] at hfit
        exact ⟨by omega, rfl⟩
    · left
      exact truncate_stable_length s h (Nat.lt_of_not_le hfit) hs
  · intro hs
    rcases hs with hfits | hb | ⟨hfloor, htag⟩
    · exact absurd hfits hshort
    · exact truncate_stable_of_boundary s h hb
    · apply truncate_short
      rw [hlen, hfloor, htag, if_neg (by simp)]

section Restore

variable (render : Value → String)

def blankCall (c : TurnToolCall) : TurnToolCall := ⟨c.name, c.parameters, none, none⟩

def restoredCall (c : TurnToolCall) : TurnToolCall :=
  ⟨c.name, c.parameters, some (.string (c.content render)), none⟩

def restoredTurn (n : ℕ) (t : Turn) : Turn :=
  ⟨n, t.userInput, t.response, t.toolCalls.map (restoredCall render),
    if t.response.isSome then .completed else .processing, none, []⟩

def restoredTurns : ℕ → List Turn → List Turn
  | _, [] => []
  | n, t::ts => restoredTurn render n t::restoredTurns (n+1) ts

theorem setResult_append (done rest : List TurnToolCall) (c : TurnToolCall) (content : String) :
    setResult (done++c::rest) done.length content =
      done++{ c with result := some (.string content) }::rest := by
  induction done with
  | nil => rfl
  | cons d done ih =>
    simp only [setResult, List.cons_append, List.length_cons, List.modify_succ_cons] at ih ⊢
    rw [ih]

def Settled : List ChatMessage → Prop
  | [] => True
  | m::_ => m.role ≠ .tool ∧ (m.role = .assistant → m.toolCalls = none)

theorem takeResults_settled (base pos : ℕ) (turn : Turn) (ms : List ChatMessage)
    (h : Settled ms) : takeResults base pos turn ms = (turn, ms) := by
  cases ms with
  | nil => rfl
  | cons m ms => rw [takeResults, if_neg h.1]

def answeredCall (c : TurnToolCall) (m : ChatMessage) : TurnToolCall :=
  ⟨c.name, c.parameters, some (.string m.content), none⟩

theorem takeResults_answered (base pos : ℕ) (turn : Turn) (done cs : List TurnToolCall)
    (results rest : List ChatMessage) (hturn : turn.toolCalls = done++cs.map blankCall)
    (hpos : done.length = base+pos) (hlen : results.length = cs.length)
    (htool : ∀ m ∈ results, m.role = .tool) (hrest : Settled rest) :
    takeResults base pos turn (results++rest) =
      ({ turn with toolCalls := done++List.zipWith answeredCall cs results }, rest) := by
  induction cs generalizing pos turn done results with
  | nil =>
    rw [List.length_eq_zero_iff.mp hlen, List.nil_append,
      takeResults_settled base pos turn rest hrest]
    simp only [List.map_nil, List.zipWith_nil_left] at hturn ⊢
    rw [← hturn]
  | cons c cs ih =>
    cases results with
    | nil => simp at hlen
    | cons m results =>
      have hset : setResult turn.toolCalls (base+pos) m.content =
          (done++[answeredCall c m])++cs.map blankCall := by
        rw [hturn, List.map_cons, ← hpos, setResult_append]
        simp [blankCall, answeredCall]
      have hnext := ih (pos+1)
        { turn with toolCalls := setResult turn.toolCalls (base+pos) m.content }
        (done++[answeredCall c m]) results hset (by simp [hpos]; omega) (by simpa using hlen)
        (fun r hr => htool r (List.mem_cons_of_mem m hr))
      rw [List.cons_append, takeResults, if_pos (htool m List.mem_cons_self)]
      exact hnext.trans (by simp)

def recordedCall (c : ToolCall) : TurnToolCall := ⟨c.name, c.arguments, none, none⟩

theorem recordCalls_append (turn : Turn) (calls : List ToolCall) :
    recordCalls turn calls =
      { turn with toolCalls := turn.toolCalls++calls.map recordedCall } := by
  induction calls generalizing turn with
  | nil => simp [recordCalls]
  | cons c calls ih =>
    simp only [recordCalls, List.foldl_cons] at ih ⊢
    rw [ih]
    simp [Turn.recordToolCall, recordedCall]

theorem takeCalls_settled (turn : Turn) (ms : List ChatMessage) (h : Settled ms) :
    takeCalls turn ms = (turn, ms) := by
  cases ms with
  | nil => rw [takeCalls]
  | cons m ms =>
    rw [takeCalls]
    split
    · next calls hrole hcalls => simp [h.2 hrole] at hcalls
    · rfl

structure Exchange where
  opening : ChatMessage
  calls : List ToolCall
  results : List ChatMessage
  response : Option String
  opening_user : opening.role = .user
  results_tool : ∀ m ∈ results, m.role = .tool
  results_length : results.length = calls.length

def Exchange.toolMessages (e : Exchange) : List ChatMessage :=
  if e.calls.isEmpty then [] else .assistantWithToolCalls none e.calls::e.results

def Exchange.responseMessages (e : Exchange) : List ChatMessage :=
  match e.response with
  | some response => [.assistant response]
  | none => []

def Exchange.messages (e : Exchange) : List ChatMessage :=
  e.opening::(e.toolMessages++e.responseMessages)

def Exchange.answered (e : Exchange) : List TurnToolCall :=
  List.zipWith answeredCall (e.calls.map recordedCall) e.results

def Exchange.turn (n : ℕ) (e : Exchange) : Turn :=
  ⟨n, e.opening.content, e.response, e.answered,
    if e.response.isSome then .completed else .processing, none, []⟩

def exchangedTurns : ℕ → List Exchange → List Turn
  | _, [] => []
  | n, e::es => e.turn n::exchangedTurns (n+1) es

variable (n : ℕ) (ts : List Turn) (t : Turn)

theorem takeCalls_exchange (e : Exchange) (rest : List ChatMessage) (hrest : Settled rest) :
    takeCalls (Turn.new n e.opening.content) (e.toolMessages++rest) =
      ({ Turn.new n e.opening.content with toolCalls := e.answered }, rest) := by
  unfold Exchange.toolMessages Exchange.answered
  cases hcalls : e.calls with
  | nil => exact takeCalls_settled _ rest hrest
  | cons c cs =>
    have hrec := recordCalls_append (Turn.new n e.opening.content) (c::cs)
    have hres := takeResults_answered 0 0
      { Turn.new n e.opening.content with toolCalls := (c::cs).map recordedCall } []
      ((c::cs).map recordedCall) e.results rest (by simp [blankCall, recordedCall]) rfl
      (by rw [e.results_length, hcalls, List.length_map]) e.results_tool hrest
    simp only [List.isEmpty_cons, Bool.false_eq_true, if_false, List.cons_append]
    rw [takeCalls]
    simp only [ChatMessage.assistantWithToolCalls, List.isEmpty_cons, Bool.false_eq_true,
      if_false]
    rw [hrec]
    simp only [Turn.new, List.nil_append, List.length_nil] at hres ⊢
    rw [hres]
    exact takeCalls_settled _ rest hrest

def UserNext : List ChatMessage → Prop
  | [] => True
  | m::_ => m.role = .user

theorem settled_response (e : Exchange) (rest : List ChatMessage) (h : UserNext rest) :
    Settled (e.responseMessages++rest) := by
  unfold Exchange.responseMessages
  cases e.response with
  | none =>
    cases rest with
    | nil => trivial
    | cons m rest =>
      have hm : m.role = .user := h
      simp [Settled, hm]
  | some response => simp [Settled, ChatMessage.assistant]

theorem takeResponse_exchange (turn : Turn) (e : Exchange) (rest : List ChatMessage)
    (h : UserNext rest) (hr : turn.response = none) (hs : turn.state = .processing)
    (hi : turn.imageContentParts = []) :
    takeResponse turn (e.responseMessages++rest) =
      ({ turn with
        response := e.response, state := if e.response.isSome then .completed else .processing },
        rest) := by
  unfold Exchange.responseMessages
  cases e.response with
  | none =>
    have hturn : turn = { turn with response := none, state := .processing } := by
      rw [← hr, ← hs]
    cases rest with
    | nil => simpa [takeResponse] using hturn
    | cons m rest =>
      have hm : m.role = .user := h
      simpa [takeResponse, hm] using hturn
  | some response =>
    simp [takeResponse, ChatMessage.assistant, Turn.complete, hi]

theorem userNext_exchanges (es : List Exchange) : UserNext (es.flatMap Exchange.messages) := by
  cases es with
  | nil => trivial
  | cons e es => exact e.opening_user

/-- The parser reads any list of exchanges back, turn by turn. -/
theorem restoreTurns_exchanges (es : List Exchange) :
    restoreTurns n (es.flatMap Exchange.messages) = exchangedTurns n es := by
  induction es generalizing n with
  | nil => simp [restoreTurns, exchangedTurns]
  | cons e es ih =>
    have hnext := userNext_exchanges es
    have hcalls := takeCalls_exchange n e (e.responseMessages++es.flatMap Exchange.messages)
      (settled_response e _ hnext)
    have hresp := takeResponse_exchange
      { Turn.new n e.opening.content with toolCalls := e.answered } e
      (es.flatMap Exchange.messages) hnext rfl rfl rfl
    rw [List.flatMap_cons, Exchange.messages, List.cons_append, List.append_assoc, restoreTurns,
      if_pos e.opening_user]
    simp only [hcalls, hresp, ih, exchangedTurns]
    rfl

theorem userMessage_role : t.userMessage.role = .user := by
  unfold Turn.userMessage
  split <;> rfl

theorem userMessage_content : t.userMessage.content = t.userInput := by
  unfold Turn.userMessage
  split <;> rfl

theorem synthetic_length (n i : ℕ) (cs : List TurnToolCall) :
    (syntheticCalls n i cs).length = cs.length := by
  induction cs generalizing i with
  | nil => rfl
  | cons c cs ih => simp [syntheticCalls, ih]

theorem results_length (n i : ℕ) (cs : List TurnToolCall) :
    (resultMessages render n i cs).length = cs.length := by
  induction cs generalizing i with
  | nil => rfl
  | cons c cs ih => simp [resultMessages, ih]

def turnExchange (t : Turn) : Exchange :=
  ⟨t.userMessage, syntheticCalls t.turnNumber 0 t.toolCalls,
    resultMessages render t.turnNumber 0 t.toolCalls, t.response, userMessage_role t,
    results_role render t.turnNumber 0 t.toolCalls,
    by rw [results_length, synthetic_length]⟩

theorem turn_exchange : (turnExchange render t).messages = t.messages render := by
  have htools : (turnExchange render t).toolMessages = t.toolMessages render := by
    have hempty : (syntheticCalls t.turnNumber 0 t.toolCalls).isEmpty = t.toolCalls.isEmpty := by
      cases t.toolCalls <;> rfl
    rw [Exchange.toolMessages, Turn.toolMessages, ← hempty]
    rfl
  rw [Exchange.messages, htools]
  rfl

theorem answered_restored (n i : ℕ) (cs : List TurnToolCall) :
    List.zipWith answeredCall ((syntheticCalls n i cs).map recordedCall)
      (resultMessages render n i cs) = cs.map (restoredCall render) := by
  induction cs generalizing i with
  | nil => rfl
  | cons c cs ih =>
    simp only [syntheticCalls, resultMessages, List.map_cons, List.zipWith_cons_cons, ih]
    rfl

theorem exchange_restored :
    (turnExchange render t).turn n = restoredTurn render n t := by
  have hanswered : (turnExchange render t).answered = t.toolCalls.map (restoredCall render) :=
    answered_restored render t.turnNumber 0 t.toolCalls
  have huser : (turnExchange render t).opening.content = t.userInput := userMessage_content t
  rw [Exchange.turn, hanswered, huser]
  rfl

/-- The parser reads the spelling of any list of turns back, turn by turn. -/
theorem restoreTurns_messages :
    restoreTurns n (ts.flatMap (Turn.messages render)) = restoredTurns render n ts := by
  have hspelled : ts.flatMap (Turn.messages render) =
      (ts.map (turnExchange render)).flatMap Exchange.messages := by
    rw [List.flatMap_map]
    exact List.flatMap_congr (fun t _ => (turn_exchange render t).symm)
  rw [hspelled, restoreTurns_exchanges]
  induction ts generalizing n with
  | nil => rfl
  | cons t ts ih =>
    rw [List.map_cons, exchangedTurns, restoredTurns, exchange_restored]
    rw [ih (n+1) (by
      rw [List.flatMap_map]
      exact List.flatMap_congr (fun t _ => (turn_exchange render t).symm))]

theorem content_restored (c : TurnToolCall) :
    (restoredCall render c).content render = truncatePreview (c.content render) 1000 := rfl

def Stable (c : TurnToolCall) : Prop := ∀ s, c.rawContent render = some s → Keeps s

theorem content_stable_iff (c : TurnToolCall) :
    (restoredCall render c).content render = c.content render ↔ Stable render c := by
  rw [content_restored, Stable, TurnToolCall.content]
  cases hraw : c.rawContent render with
  | none =>
    have hok : truncatePreview "OK" 1000 = "OK" := truncate_short "OK" 1000 (by decide)
    simp [hok]
  | some raw => simpa using truncate_stable_iff raw

def rewrittenTurn (f : TurnToolCall → TurnToolCall) (n : ℕ) (t : Turn) : Turn :=
  ⟨n, t.userInput, t.response, t.toolCalls.map f,
    if t.response.isSome then .completed else .processing, none, []⟩

def rewrittenTurns (f : TurnToolCall → TurnToolCall) : ℕ → List Turn → List Turn
  | _, [] => []
  | n, t::ts => rewrittenTurn f n t::rewrittenTurns f (n+1) ts

structure Rewrites {β : Type} (view : ChatMessage → β) (f : TurnToolCall → TurnToolCall) :
    Prop where
  calls : ∀ n m cs, cs ≠ [] →
    (view (.assistantWithToolCalls none (syntheticCalls n 0 (cs.map f))) =
      view (.assistantWithToolCalls none (syntheticCalls m 0 cs)) ↔ n = m)
  result : ∀ id c, view (.toolResult id (f c).name ((f c).content render)) =
    view (.toolResult id c.name (c.content render)) ↔ (f c).content render = c.content render

section Rewritten

theorem rewritten_length (f : TurnToolCall → TurnToolCall) (n : ℕ) (t : Turn) :
    ((rewrittenTurn f n t).messages render).length = (t.messages render).length := by
  have hcalls : (rewrittenTurn f n t).toolCalls = t.toolCalls.map f := rfl
  have hresp : (rewrittenTurn f n t).responseMessages = t.responseMessages := rfl
  simp only [Turn.messages, Turn.toolMessages, hcalls, hresp, List.isEmpty_map,
    List.length_cons, List.length_append]
  split <;> simp [results_length]

variable {β : Type} (view : ChatMessage → β) (f : TurnToolCall → TurnToolCall)
  (hview : Rewrites render view f)

include hview

theorem rewritten_results (n i : ℕ) (cs : List TurnToolCall) :
    (resultMessages render n i (cs.map f)).map view = (resultMessages render n i cs).map view ↔
      ∀ c ∈ cs, (f c).content render = c.content render := by
  induction cs generalizing i with
  | nil => simp [resultMessages]
  | cons c cs ih =>
    simp only [List.map_cons, resultMessages, List.cons.injEq, List.forall_mem_cons, ih,
      hview.result]

theorem rewritten_tools (n : ℕ) (t : Turn) :
    ((rewrittenTurn f n t).toolMessages render).map view = (t.toolMessages render).map view ↔
      (t.toolCalls ≠ [] → t.turnNumber = n) ∧
        ∀ c ∈ t.toolCalls, (f c).content render = c.content render := by
  cases hcs : t.toolCalls with
  | nil => simp [Turn.toolMessages, rewrittenTurn, hcs]
  | cons c cs =>
    have hcalls := hview.calls n t.turnNumber (c::cs) (List.cons_ne_nil c cs)
    simp only [Turn.toolMessages, rewrittenTurn, hcs, List.isEmpty_cons, Bool.false_eq_true, if_false,
      List.map_cons, List.cons.injEq] at hcalls ⊢
    rw [hcalls]
    constructor
    · rintro ⟨hn, hresults⟩
      subst hn
      exact ⟨fun _ => rfl, (rewritten_results render view f hview t.turnNumber 0 (c::cs)).mp hresults⟩
    · rintro ⟨hn, hcontents⟩
      have hn' := hn (List.cons_ne_nil c cs)
      subst hn'
      exact ⟨rfl, (rewritten_results render view f hview t.turnNumber 0 (c::cs)).mpr hcontents⟩

theorem rewritten_turn (n : ℕ) (t : Turn) (h : t.imageContentParts = []) :
    ((rewrittenTurn f n t).messages render).map view = (t.messages render).map view ↔
      (t.toolCalls ≠ [] → t.turnNumber = n) ∧
        ∀ c ∈ t.toolCalls, (f c).content render = c.content render := by
  rw [← rewritten_tools render view f hview]
  have huser : (rewrittenTurn f n t).userMessage = t.userMessage := by
    simp [Turn.userMessage, rewrittenTurn, h]
  have hresp : (rewrittenTurn f n t).responseMessages = t.responseMessages := rfl
  rw [Turn.messages, Turn.messages, huser, hresp]
  simp

def Numbered : ℕ → List Turn → Prop
  | _, [] => True
  | n, t::ts => (t.toolCalls ≠ [] → t.turnNumber = n) ∧ Numbered (n+1) ts

theorem rewritten_turns (n : ℕ) (ts : List Turn) (h : ∀ t ∈ ts, t.imageContentParts = []) :
    ((rewrittenTurns f n ts).flatMap (Turn.messages render)).map view =
        (ts.flatMap (Turn.messages render)).map view ↔
      Numbered n ts ∧ ∀ t ∈ ts, ∀ c ∈ t.toolCalls, (f c).content render = c.content render := by
  induction ts generalizing n with
  | nil => simp [rewrittenTurns, Numbered]
  | cons t ts ih =>
    have ht := h t List.mem_cons_self
    have hts := ih (n+1) (fun u hu => h u (List.mem_cons_of_mem t hu))
    have hturn := rewritten_turn render view f hview n t ht
    rw [rewrittenTurns, List.flatMap_cons, List.flatMap_cons, Numbered, List.forall_mem_cons,
      List.map_append, List.map_append]
    constructor
    · intro heq
      obtain ⟨hhead, htail⟩ := List.append_inj heq (by simp [rewritten_length])
      obtain ⟨hn, hc⟩ := hturn.mp hhead
      obtain ⟨hns, hcs⟩ := hts.mp htail
      exact ⟨⟨hn, hns⟩, hc, hcs⟩
    · rintro ⟨⟨hn, hns⟩, hc, hcs⟩
      rw [hturn.mpr ⟨hn, hc⟩, hts.mpr ⟨hns, hcs⟩]

end Rewritten

theorem synthetic_restored (n i : ℕ) (cs : List TurnToolCall) :
    syntheticCalls n i (cs.map (restoredCall render)) = syntheticCalls n i cs := by
  induction cs generalizing i with
  | nil => rfl
  | cons c cs ih =>
    simp only [List.map_cons, syntheticCalls, ih]
    rfl

theorem calls_number (n m : ℕ) (cs : List TurnToolCall) (h : cs ≠ [])
    (heq : (syntheticCalls n 0 cs).map ToolCall.id = (syntheticCalls m 0 cs).map ToolCall.id) :
    n = m := by
  cases cs with
  | nil => exact absurd rfl h
  | cons c cs => exact (callId_pair _ _ _ _ (List.cons.inj heq).1).1

theorem synthetic_nonempty (n i : ℕ) (cs : List TurnToolCall) (h : cs ≠ []) :
    (syntheticCalls n i cs).isEmpty = false := by
  cases cs with
  | nil => exact absurd rfl h
  | cons c cs => rfl

theorem restored_rewrites : Rewrites render id (restoredCall render) := by
  constructor
  · intro n m cs hne
    rw [synthetic_restored]
    constructor
    · intro heq
      have hcalls := congrArg ChatMessage.toolCalls heq
      simp only [id, ChatMessage.assistantWithToolCalls, synthetic_nonempty _ _ cs hne,
        Bool.false_eq_true, if_false, Option.some.injEq] at hcalls
      exact calls_number n m cs hne (congrArg (List.map ToolCall.id) hcalls)
    · intro hn
      rw [hn]
  · intro id c
    simp [ChatMessage.toolResult, restoredCall]

theorem restored_rewritten :
    restoredTurns render n ts = rewrittenTurns (restoredCall render) n ts := by
  induction ts generalizing n with
  | nil => rfl
  | cons t ts ih =>
    rw [restoredTurns, rewrittenTurns, ih]
    rfl

theorem turns_messages_iff (h : ∀ t ∈ ts, t.imageContentParts = []) :
    (restoredTurns render n ts).flatMap (Turn.messages render) =
        ts.flatMap (Turn.messages render) ↔
      Numbered n ts ∧ ∀ t ∈ ts, ∀ c ∈ t.toolCalls, Stable render c := by
  have hiff := rewritten_turns render id (restoredCall render) (restored_rewrites render) n ts h
  simp only [List.map_id, content_stable_iff] at hiff
  rw [restored_rewritten]
  exact hiff

def ImageFree (t : Thread) : Prop := ∀ turn ∈ t.turns, turn.imageContentParts = []

def RestoresItself (t : Thread) : Prop :=
  ∀ base : Thread, (base.restoreFromMessages (t.messages render)).messages render =
    t.messages render

def UndoRedoKeeps (t : Thread) : Prop :=
  ∀ (sess : Session) (mgr : UndoManager) (threadId i j : Uuid),
    canUndo mgr = true → sess.threads threadId = some t →
    let undone := processUndo render threadId i sess mgr
    let redone := processRedo render threadId j undone.2.1 undone.2.2
    (redone.2.1.threads threadId).map (Thread.messages render) = some (t.messages render)

theorem restored_messages (base t : Thread) :
    (base.restoreFromMessages (t.messages render)).messages render =
      (restoredTurns render 0 t.turns).flatMap (Turn.messages render) := by
  rw [Thread.messages, Thread.restoreFromMessages]
  simp only [Thread.messages, restoreTurns_messages]

theorem setThread_same (sess : Session) (id : Uuid) (t : Thread) :
    (sess.setThread id t).threads id = some t := by
  simp [Session.setThread]

theorem undo_redo_thread (t : Thread) (sess : Session) (mgr : UndoManager) (threadId i j : Uuid)
    (hu : canUndo mgr = true) (ht : sess.threads threadId = some t) :
    ∃ base : Thread,
      (processRedo render threadId j (processUndo render threadId i sess mgr).2.1
        (processUndo render threadId i sess mgr).2.2).2.1.threads threadId =
      some (base.restoreFromMessages (t.messages render)) := by
  rcases List.eq_nil_or_concat' mgr.undoStack with he | ⟨stack, c, he⟩
  · simp [canUndo, he] at hu
  have hundo := undo_push mgr stack c i t.turnNumber (t.messages render) he
  refine ⟨t.restoreFromMessages c.messages, ?_⟩
  simp only [processUndo, hu, ht, hundo, Bool.not_true, Bool.false_eq_true, if_false]
  simp [processRedo, canRedo, redo, setThread_same]

theorem history_roundtrip_iff (t : Thread) (h : ImageFree t) :
    (RestoresItself render t ∧ UndoRedoKeeps render t) ↔
      Numbered 0 t.turns ∧ ∀ turn ∈ t.turns, ∀ c ∈ turn.toolCalls,
        ∀ s, c.rawContent render = some s → Keeps s := by
  have hiff := turns_messages_iff render 0 t.turns h
  constructor
  · rintro ⟨hself, -⟩
    have hbase := hself t
    rw [restored_messages] at hbase
    exact hiff.mp hbase
  · intro hcond
    have hself : RestoresItself render t := by
      intro base
      rw [restored_messages]
      exact hiff.mpr hcond
    refine ⟨hself, ?_⟩
    intro sess mgr threadId i j hu ht
    obtain ⟨base, hbase⟩ := undo_redo_thread render t sess mgr threadId i j hu ht
    simp only [hbase, Option.map_some, hself base]

end Restore

def answeredThread : Thread :=
  ⟨.idle, [⟨0, "hello", some "done", [⟨"echo", .null, some .null, none⟩], .completed, none, []⟩],
    none, none⟩

theorem history_roundtrip_answered :
    ImageFree answeredThread ∧ RestoresItself (fun _ => "null") answeredThread ∧
      UndoRedoKeeps (fun _ => "null") answeredThread := by
  have hfree : ImageFree answeredThread := by
    simp [ImageFree, answeredThread]
  refine ⟨hfree, (history_roundtrip_iff (fun _ => "null") answeredThread hfree).mpr ?_⟩
  have hkeeps : Keeps "null" := Or.inl (by decide)
  simpa [answeredThread, Numbered, TurnToolCall.rawContent] using hkeeps

def oddText : String := String.ofList ('a'::List.replicate 600 'é')

def oddThread : Thread :=
  ⟨.idle, [⟨0, "hello", none, [⟨"echo", .null, some (.string oddText), none⟩], .processing, none,
    []⟩], none, none⟩

theorem odd_text_shrinks : ¬ Keeps oddText := by
  unfold Keeps oddText
  rw [String.toList_ofList]
  decide +kernel

theorem odd_thread_not_restored :
    ImageFree oddThread ∧ ¬ RestoresItself (fun _ => "null") oddThread := by
  have hfree : ImageFree oddThread := by
    simp [ImageFree, oddThread]
  refine ⟨hfree, ?_⟩
  intro hself
  have hbase := hself oddThread
  rw [restored_messages] at hbase
  have hstable := ((turns_messages_iff (fun _ => "null") 0 oddThread.turns hfree).mp hbase).2
  have hcall := hstable _ List.mem_cons_self _ List.mem_cons_self oddText rfl
  exact odd_text_shrinks hcall

end IronClaw.ThreadHistory
