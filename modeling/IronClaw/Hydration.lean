import Mathlib.Algebra.BigOperators.Group.List.Defs
import Mathlib.Algebra.Group.Action.Defs
import IronClaw.Hooks
import IronClaw.ThreadHistory

/-!
# Rebuilding a thread from the database

A completed turn is stored as rows: the user message, the summaries of its
tool calls as one JSON array and the response. Hydration spells messages from
these rows and restores a thread from them. The summaries cut an error at 200
bytes, and reading them back puts a prefix in front of it that the thread in
memory never shows.
-/

set_option autoImplicit false

namespace IronClaw.Hydration
open IronClaw.JsonValue IronClaw.LlmMessage IronClaw.SessionThread IronClaw.Hooks
open IronClaw.ThreadHistory Lib.Text

structure ConversationMessage where
  role : String
  content : String
  deriving DecidableEq

section Rows

variable (json : Json)

def resultText : Value → String
  | .string s => s
  | other => json.print other

/-- One summary of `persist_tool_calls`. -/
def callSummary (turnNumber i : ℕ) (tc : TurnToolCall) : Value :=
  let obj : Fields :=
    JsonValue.insert "name" (.string tc.name) [("call_id", .string (callId turnNumber i))]
  let obj := match tc.result with
    | some result =>
      let text := resultText json result
      JsonValue.insert "result" (.string (truncatePreview text 1000))
        (JsonValue.insert "result_preview" (.string (truncatePreview text 500)) obj)
    | none => obj
  let obj := match tc.error with
    | some error => JsonValue.insert "error" (.string (truncatePreview error 200)) obj
    | none => obj
  .object obj

def summariesFrom (turnNumber : ℕ) : ℕ → List TurnToolCall → List Value
  | _, [] => []
  | i, tc::tcs => callSummary json turnNumber i tc::summariesFrom turnNumber (i+1) tcs

def summaries (turn : Turn) : Value :=
  .array (summariesFrom json turn.turnNumber 0 turn.toolCalls)

def persistToolCalls (turn : Turn) : List ConversationMessage :=
  if turn.toolCalls.isEmpty then [] else [⟨"tool_calls", json.print (summaries json turn)⟩]

def persistResponse (turn : Turn) : List ConversationMessage :=
  match turn.response with
  | some response => [⟨"assistant", response⟩]
  | none => []

def persistTurn (turn : Turn) : List ConversationMessage :=
  ⟨"user", turn.userInput⟩::(persistToolCalls json turn++persistResponse turn)

def persist (t : Thread) : List ConversationMessage := t.turns.flatMap (persistTurn json)

def field (c : Value) (key : String) : Option String := (c.get key).bind Value.asStr

def rebuiltCall (c : Value) : ToolCall :=
  ⟨(field c "call_id").getD "call_0", (field c "name").getD "unknown",
    (c.get "parameters").getD (.object [])⟩

def rebuiltContent (c : Value) : String :=
  match field c "error", field c "result", field c "result_preview" with
  | some err, _, _ => "Error: " ++ err
  | none, some res, _ => res
  | none, none, some preview => preview
  | none, none, none => "OK"

def rebuiltResult (c : Value) : ChatMessage :=
  .toolResult ((field c "call_id").getD "call_0") ((field c "name").getD "unknown")
    (rebuiltContent c)

/-- `serde_json::from_str::<Vec<Value>>` -/
def parseCalls (content : String) : Option (List Value) :=
  match json.parse content with
  | some (.array calls) => some calls
  | _ => none

def hasCallId (calls : List Value) : Bool := (calls.head?.bind (field · "call_id")).isSome

def rebuildRow (msg : ConversationMessage) : List ChatMessage :=
  if msg.role = "user" then [.user msg.content]
  else if msg.role = "assistant" then [.assistant msg.content]
  else if msg.role = "tool_calls" then
    match parseCalls json msg.content with
    | some calls =>
      if calls.isEmpty then []
      else if hasCallId calls then
        .assistantWithToolCalls none (calls.map rebuiltCall)::calls.map rebuiltResult
      else []
    | none => []
  else []

def rebuildChatMessagesFromDb (dbMessages : List ConversationMessage) : List ChatMessage :=
  dbMessages.flatMap (rebuildRow json)

/-- The thread that `maybe_hydrate_thread` puts into the session. -/
def hydrate (dbMessages : List ConversationMessage) : Thread :=
  let chatMessages := rebuildChatMessagesFromDb json dbMessages
  if chatMessages.isEmpty then Thread.new else Thread.new.restoreFromMessages chatMessages

end Rows

def Complete (turn : Turn) : Prop := ∃ started response, turn = Turn.complete started response

def ReadsBack (json : Json) (v : Value) : Prop := json.parse (json.print v) = some v

def eraseArguments (m : ChatMessage) : ChatMessage :=
  { m with toolCalls := m.toolCalls.map (List.map (fun c => { c with arguments := .null })) }

def echoedError : String :=
  String.ofList ((List.replicate 30 "Error: ".toList).flatten.take 207++"...".toList)

def errorPrefix : List Char := "Error: ".toList

def dots : List Char := "...".toList

/-- A text that goes on like itself after `e` is `e` over and over. -/
theorem prefix_cycle (e p x : List Char) (k : ℕ) (h : p <+: e++(p++x))
    (hk : p.length ≤ k*e.length) : p <+: (List.replicate k e).flatten := by
  induction k generalizing p with
  | zero =>
    have hp : p = [] := by simpa using hk
    rw [hp]
    exact List.nil_prefix
  | succ k ih =>
    rw [List.replicate_succ, List.flatten_cons]
    by_cases hshort : p.length ≤ e.length
    · exact (List.prefix_of_prefix_length_le h (List.prefix_append e _) hshort).trans
        (List.prefix_append e _)
    · have he : e <+: p := List.prefix_of_prefix_length_le (List.prefix_append e _) h (by omega)
      obtain ⟨q, hq⟩ := he
      have hnext : q <+: e++(q++x) := by
        rw [← hq, List.append_assoc] at h
        exact (List.prefix_append_right_inj e).mp h
      have hlen : q.length ≤ k*e.length := by
        have hcount := congrArg List.length hq
        rw [List.length_append] at hcount
        rw [Nat.succ_mul] at hk
        omega
      rw [← hq]
      exact (List.prefix_append_right_inj e).mpr (ih q hnext hlen)

theorem prefix_ascii (k : ℕ) :
    ∀ c ∈ (List.replicate k errorPrefix).flatten, c.utf8Size = 1 := by
  intro c hc
  obtain ⟨e, he, hin⟩ := List.mem_flatten.mp hc
  rw [List.eq_of_mem_replicate he] at hin
  have hall : errorPrefix.all (fun c => c.utf8Size == 1) = true := by decide
  simpa using List.all_eq_true.mp hall c hin

def echoedPart : List Char := (List.replicate 30 errorPrefix).flatten.take 200

theorem prefix_length : errorPrefix.length = 7 := rfl

theorem cycle_length (k : ℕ) : (List.replicate k errorPrefix).flatten.length = k*7 := by
  rw [List.length_flatten, List.map_replicate, List.sum_replicate, prefix_length, smul_eq_mul]

theorem echoed_cut :
    (List.replicate 30 errorPrefix).flatten.take 207 = errorPrefix++echoedPart := by
  have hback : echoedPart = (List.replicate 29 errorPrefix).flatten.take 200 := by
    rw [echoedPart, List.replicate_succ', List.flatten_append, List.take_append_of_le_length]
    rw [cycle_length]
    omega
  have hfront : (errorPrefix++(List.replicate 29 errorPrefix).flatten).take
      (errorPrefix.length+200) = errorPrefix++(List.replicate 29 errorPrefix).flatten.take 200 :=
    List.take_length_add_append 200
  rw [hback, ← hfront, prefix_length, List.replicate_succ, List.flatten_cons]

theorem echoed_list : echoedError.toList = errorPrefix++(echoedPart++dots) := by
  rw [echoedError, String.toList_ofList, ← List.append_assoc, ← echoed_cut]
  rfl

theorem echoed_length : echoedPart.length = 200 := by
  rw [echoedPart, List.length_take, cycle_length]
  omega

theorem echoed_ascii : ∀ c ∈ echoedPart, c.utf8Size = 1 := by
  intro c hc
  exact prefix_ascii 30 c (List.mem_of_mem_take hc)

theorem echoed_bytes : byteLen echoedError.toList = 210 := by
  have hprefix : byteLen errorPrefix = 7 := rfl
  have hdots : byteLen dots = 3 := rfl
  rw [echoed_list, byteLen_append, byteLen_append, byteLen_ascii _ echoed_ascii, hprefix, hdots,
    echoed_length]

theorem echoed_slice : sliceTo echoedError.toList 200 = echoedPart := by
  have htake : echoedPart = (errorPrefix++echoedPart).take 200 := by
    rw [← echoed_cut, List.take_take]
    rfl
  have hwhole : errorPrefix++echoedPart = echoedPart++(errorPrefix++echoedPart).drop 200 := by
    have hsplit := (List.take_append_drop 200 (errorPrefix++echoedPart)).symm
    rwa [← htake] at hsplit
  have hsplit : echoedError.toList =
      echoedPart++((errorPrefix++echoedPart).drop 200++dots) := by
    rw [echoed_list, ← List.append_assoc, ← List.append_assoc]
    exact congrArg (·++dots) hwhole
  have hbytes := byteLen_ascii echoedPart echoed_ascii
  have hslice := sliceTo_append echoedPart ((errorPrefix++echoedPart).drop 200++dots)
  rw [hbytes, echoed_length] at hslice
  rw [hsplit, hslice]

/-- The only text between the prefix and the dots that is the cut of the whole. -/
theorem echoed_part (p : List Char) (h : p = sliceTo (errorPrefix++(p++dots)) 200)
    (hlow : 197 ≤ byteLen p) : p = echoedPart := by
  have hprefix : p <+: errorPrefix++(p++dots) := by
    obtain ⟨rest, hrest⟩ := sliceTo_split (errorPrefix++(p++dots)) 200
    rw [← h] at hrest
    exact ⟨rest, hrest.symm⟩
  have hascii : ∀ c ∈ p, c.utf8Size = 1 := by
    have hcycle := prefix_cycle errorPrefix p dots p.length hprefix
      (Nat.le_mul_of_pos_right _ (by rw [prefix_length]; omega))
    intro c hc
    exact prefix_ascii _ c (hcycle.subset hc)
  have hbytes : byteLen p = p.length := byteLen_ascii p hascii
  have hall : ∀ c ∈ errorPrefix++(p++dots), c.utf8Size = 1 := by
    have hdots : dots.all (fun c => c.utf8Size == 1) = true := by decide
    intro c hc
    rcases List.mem_append.mp hc with hc | hc
    · exact prefix_ascii 1 c (by simpa using hc)
    · rcases List.mem_append.mp hc with hc | hc
      · exact hascii c hc
      · simpa using List.all_eq_true.mp hdots c hc
  have hlength : (errorPrefix++(p++dots)).length = p.length+10 := by
    rw [List.length_append, List.length_append]
    rw [prefix_length]
    show 7+(p.length+3) = p.length+10
    omega
  have htake : byteLen ((errorPrefix++(p++dots)).take 200) = 200 := by
    rw [byteLen_ascii _ (fun c hc => hall c (List.mem_of_mem_take hc)), List.length_take, hlength]
    omega
  have hcut : p = (errorPrefix++(p++dots)).take 200 := by
    have hslice := sliceTo_append ((errorPrefix++(p++dots)).take 200)
      ((errorPrefix++(p++dots)).drop 200)
    rw [htake, List.take_append_drop] at hslice
    exact h.trans hslice
  have hlen : p.length = 200 := by
    have hcount := congrArg List.length hcut
    rw [List.length_take, hlength] at hcount
    omega
  have hcycle := prefix_cycle errorPrefix p dots 30 hprefix (by rw [hlen, prefix_length]; omega)
  rw [List.prefix_iff_eq_take.mp hcycle, hlen, echoedPart]

theorem echoed_closing (e : String) (p : List Char) (h : e.toList = errorPrefix++p) :
    closing e = dots := by
  have htag : startsWith e openTag = false := by
    rw [startsWith, h]
    rfl
  rw [closing, htag]
  rfl

theorem error_text : "Error: ".toList = errorPrefix := rfl

theorem error_bytes : byteLen errorPrefix = 7 := by decide

theorem error_short (e : String) (hshort : byteLen e.toList ≤ 200) :
    truncatePreview ("Error: " ++ truncatePreview e 200) 1000 ≠ truncatePreview e 1000 := by
  have hseven := error_bytes
  have hwhole : byteLen ("Error: " ++ e).toList ≤ 1000 := by
    rw [String.toList_append, byteLen_append, error_text]
    omega
  rw [truncate_short e 200 hshort, truncate_short _ 1000 hwhole,
    truncate_short e 1000 (by omega)]
  intro heq
  have hbytes := congrArg (fun s : String => byteLen s.toList) heq
  simp only [String.toList_append, byteLen_append, error_text] at hbytes
  omega

/-- An error comes back as it was shown only if it is that one text. -/
theorem error_iff (e : String) :
    truncatePreview ("Error: " ++ truncatePreview e 200) 1000 = truncatePreview e 1000 ↔
      e = echoedError := by
  have hseven := error_bytes
  by_cases hshort : byteLen e.toList ≤ 200
  · constructor
    · intro heq
      exact absurd heq (error_short e hshort)
    · intro heq
      rw [heq] at hshort
      have hbytes := echoed_bytes
      omega
  have hlong : 200 < byteLen e.toList := Nat.lt_of_not_le hshort
  have hcut := truncate_long e 200 hlong
  have hlow := byteLen_sliceTo_ge e.toList 200 hlong.le
  have hhigh := byteLen_sliceTo_le e.toList 200
  have hclosing : byteLen (closing e) ≤ 18 := by
    rw [closing_byteLen]
    split <;> omega
  have hsmall : byteLen ("Error: " ++ truncatePreview e 200).toList ≤ 225 := by
    rw [String.toList_append, byteLen_append, error_text, hcut, byteLen_append]
    omega
  rw [truncate_short _ 1000 (by omega)]
  constructor
  · intro heq
    have hfits : byteLen e.toList ≤ 1000 := by
      by_contra hvery
      have hmore : 1000 < byteLen e.toList := by omega
      have hlow' := byteLen_sliceTo_ge e.toList 1000 hmore.le
      rw [heq, truncate_long e 1000 hmore, byteLen_append] at hsmall
      omega
    rw [truncate_short e 1000 hfits] at heq
    have hlist : e.toList = errorPrefix++(sliceTo e.toList 200++closing e) := by
      rw [← hcut, ← error_text, ← String.toList_append, heq]
    rw [echoed_closing e _ hlist] at hlist
    have hpart := echoed_part (sliceTo e.toList 200) (congrArg (sliceTo · 200) hlist) (by omega)
    apply String.toList_inj.mp
    rw [hlist, hpart, echoed_list]
  · intro heq
    have hclose := echoed_closing e _ (by rw [heq, echoed_list])
    have hfits : byteLen e.toList ≤ 1000 := by
      rw [heq, echoed_bytes]
      omega
    apply String.toList_inj.mp
    rw [truncate_short e 1000 hfits, String.toList_append, hcut, hclose, error_text, heq,
      echoed_slice, echoed_list]

section Calls

variable (json : Json)

def storedContent (c : TurnToolCall) : String :=
  match c.error, c.result with
  | some error, _ => "Error: " ++ truncatePreview error 200
  | none, some result => truncatePreview (resultText json result) 1000
  | none, none => "OK"

def storedCall (c : TurnToolCall) : TurnToolCall :=
  ⟨c.name, .object [], some (.string (storedContent json c)), none⟩

def Survives (c : TurnToolCall) : Prop :=
  (∀ error, c.error = some error → error = echoedError) ∧
    (c.error = none → ∀ result, c.result = some result → Keeps (resultText json result))

variable (n i : ℕ) (c : TurnToolCall) (cs : List TurnToolCall)

theorem summary_fields :
    field (callSummary json n i c) "call_id" = some (callId n i) ∧
      field (callSummary json n i c) "name" = some c.name ∧
      field (callSummary json n i c) "error" = c.error.map (truncatePreview · 200) ∧
      field (callSummary json n i c) "result" =
        c.result.map (fun result => truncatePreview (resultText json result) 1000) ∧
      (c.result = none → field (callSummary json n i c) "result_preview" = none) ∧
      (callSummary json n i c).get "parameters" = none := by
  unfold callSummary
  cases c.result <;> cases c.error <;>
    simp [field, Value.get, Value.asStr, lookup_insert_self, lookup_insert_ne, lookup]

theorem rebuilt_call :
    rebuiltCall (callSummary json n i c) = ⟨callId n i, c.name, .object []⟩ := by
  obtain ⟨hid, hname, _, _, _, hparams⟩ := summary_fields json n i c
  rw [rebuiltCall, hid, hname, hparams]
  rfl

theorem rebuilt_content :
    rebuiltContent (callSummary json n i c) = storedContent json c := by
  obtain ⟨_, _, herror, hresult, hpreview, _⟩ := summary_fields json n i c
  rw [rebuiltContent, storedContent, herror, hresult]
  cases hc : c.error with
  | some error => rfl
  | none =>
    cases hr : c.result with
    | some result => rfl
    | none =>
      rw [hpreview hr]
      rfl

theorem rebuilt_result :
    rebuiltResult (callSummary json n i c) =
      .toolResult (callId n i) c.name (storedContent json c) := by
  obtain ⟨hid, hname, _⟩ := summary_fields json n i c
  rw [rebuiltResult, hid, hname, rebuilt_content]
  rfl

theorem summaries_calls :
    (summariesFrom json n i cs).map rebuiltCall =
      syntheticCalls n i (cs.map (storedCall json)) := by
  induction cs generalizing i with
  | nil => rfl
  | cons c cs ih =>
    rw [summariesFrom, List.map_cons, rebuilt_call, ih]
    rfl

theorem summaries_length :
    (summariesFrom json n i cs).length = cs.length := by
  simpa [synthetic_length] using congrArg List.length (summaries_calls json n i cs)

theorem summaries_answered :
    List.zipWith answeredCall
        ((syntheticCalls n i (cs.map (storedCall json))).map recordedCall)
        ((summariesFrom json n i cs).map rebuiltResult) = cs.map (storedCall json) := by
  induction cs generalizing i with
  | nil => rfl
  | cons c cs ih =>
    simp only [List.map_cons, syntheticCalls, summariesFrom, List.zipWith_cons_cons, ih,
      rebuilt_result]
    rfl

def rowExchange (t : Turn) : Exchange :=
  { opening := .user t.userInput
    calls := syntheticCalls t.turnNumber 0 (t.toolCalls.map (storedCall json))
    results := (summariesFrom json t.turnNumber 0 t.toolCalls).map rebuiltResult
    response := t.response
    opening_user := rfl
    results_tool := by
      intro m hm
      obtain ⟨c, _, hc⟩ := List.mem_map.mp hm
      rw [← hc]
      rfl
    results_length := by
      rw [List.length_map, summaries_length, synthetic_length, List.length_map] }

theorem rebuild_tools (t : Turn) (hread : ReadsBack json (summaries json t)) :
    rebuildChatMessagesFromDb json (persistToolCalls json t) =
      (rowExchange json t).toolMessages := by
  have htools : (rowExchange json t).toolMessages =
      if (syntheticCalls t.turnNumber 0 (t.toolCalls.map (storedCall json))).isEmpty then []
      else .assistantWithToolCalls none
          (syntheticCalls t.turnNumber 0 (t.toolCalls.map (storedCall json)))::
        (summariesFrom json t.turnNumber 0 t.toolCalls).map rebuiltResult := rfl
  rw [htools, persistToolCalls]
  cases hcs : t.toolCalls with
  | nil => rfl
  | cons c cs =>
    have hparse : parseCalls json (json.print (summaries json t)) =
        some (summariesFrom json t.turnNumber 0 (c::cs)) := by
      rw [parseCalls, hread, summaries, hcs]
    have hid : hasCallId (summariesFrom json t.turnNumber 0 (c::cs)) = true := by
      simp [hasCallId, summariesFrom, summary_fields]
    simp only [List.isEmpty_cons, Bool.false_eq_true, if_false, rebuildChatMessagesFromDb,
      List.flatMap_cons, List.flatMap_nil, List.append_nil, rebuildRow, hparse, hid, if_true,
      summaries_calls]
    simp [summariesFrom, syntheticCalls]

theorem rebuild_turn (t : Turn) (hread : ReadsBack json (summaries json t)) :
    rebuildChatMessagesFromDb json (persistTurn json t) = (rowExchange json t).messages := by
  have htools := rebuild_tools json t hread
  have hresponse : rebuildChatMessagesFromDb json (persistResponse t) =
      (rowExchange json t).responseMessages := by
    unfold persistResponse Exchange.responseMessages rowExchange
    cases t.response with
    | none => rfl
    | some response => simp [rebuildChatMessagesFromDb, rebuildRow]
  rw [Exchange.messages, ← htools, ← hresponse]
  simp [persistTurn, rebuildChatMessagesFromDb, rebuildRow, rowExchange]

theorem rebuild_rows (ts : List Turn) (hread : ∀ t ∈ ts, ReadsBack json (summaries json t)) :
    rebuildChatMessagesFromDb json (ts.flatMap (persistTurn json)) =
      (ts.map (rowExchange json)).flatMap Exchange.messages := by
  rw [rebuildChatMessagesFromDb, List.flatMap_assoc, List.flatMap_map]
  apply List.flatMap_congr
  intro t ht
  exact rebuild_turn json t (hread t ht)

theorem rows_rewritten (n : ℕ) (ts : List Turn) :
    exchangedTurns n (ts.map (rowExchange json)) = rewrittenTurns (storedCall json) n ts := by
  induction ts generalizing n with
  | nil => rfl
  | cons t ts ih =>
    have hturn : (rowExchange json t).turn n = rewrittenTurn (storedCall json) n t := by
      have hanswered : (rowExchange json t).answered = t.toolCalls.map (storedCall json) :=
        summaries_answered json t.turnNumber 0 t.toolCalls
      rw [Exchange.turn, hanswered]
      rfl
    rw [List.map_cons, exchangedTurns, rewrittenTurns, ih, hturn]

theorem hydrated_turns (t : Thread)
    (hread : ∀ turn ∈ t.turns, ReadsBack json (summaries json turn)) :
    (hydrate json (persist json t)).turns = rewrittenTurns (storedCall json) 0 t.turns := by
  have hrows := rebuild_rows json t.turns hread
  have hrestored := restoreTurns_exchanges 0 (t.turns.map (rowExchange json))
  rw [rows_rewritten] at hrestored
  unfold hydrate persist
  rw [hrows]
  dsimp only
  split
  · next hempty =>
    rw [List.isEmpty_iff.mp hempty] at hrestored
    rw [← hrestored]
    simp [Thread.new, restoreTurns]
  · exact hrestored

theorem stored_rewrites : Rewrites json.print eraseArguments (storedCall json) := by
  have herase : ∀ n i cs,
      (syntheticCalls n i (cs.map (storedCall json))).map
          (fun c => { c with arguments := Value.null }) =
        (syntheticCalls n i cs).map (fun c => { c with arguments := Value.null }) := by
    intro n i cs
    induction cs generalizing i with
    | nil => rfl
    | cons c cs ih =>
      simp only [List.map_cons, syntheticCalls, ih]
      rfl
  constructor
  · intro n m cs hne
    have hne' : cs.map (storedCall json) ≠ [] := by simpa using hne
    simp only [eraseArguments, ChatMessage.assistantWithToolCalls,
      synthetic_nonempty _ _ _ hne, synthetic_nonempty _ _ _ hne', Bool.false_eq_true, if_false,
      Option.map_some, herase]
    constructor
    · intro heq
      have hcalls := Option.some.inj (congrArg ChatMessage.toolCalls heq)
      have hids := congrArg (List.map ToolCall.id) hcalls
      rw [List.map_map, List.map_map] at hids
      exact calls_number n m cs hne hids
    · intro hn
      rw [hn]
  · intro id c
    simp [eraseArguments, ChatMessage.toolResult, storedCall]

theorem raw_content (h : c.error = none) :
    c.rawContent json.print = c.result.map (resultText json) := by
  rw [TurnToolCall.rawContent, h]
  cases c.result with
  | none => rfl
  | some result => cases result <;> rfl

theorem stored_content_iff :
    (storedCall json c).content json.print = c.content json.print ↔ Survives json c := by
  have hstored : (storedCall json c).content json.print =
      truncatePreview (storedContent json c) 1000 := rfl
  rw [hstored, storedContent, TurnToolCall.content, Survives]
  cases herror : c.error with
  | some error =>
    have hraw : c.rawContent json.print = some error := by
      rw [TurnToolCall.rawContent, herror]
    rw [hraw]
    simpa using error_iff error
  | none =>
    rw [raw_content json c herror]
    cases hresult : c.result with
    | none =>
      have hok : truncatePreview "OK" 1000 = "OK" := truncate_short "OK" 1000 (by decide)
      simp [hok]
    | some result => simpa using truncate_stable_iff (resultText json result)

/-- Rows and memory show the same conversation exactly when the turns carry
their positions, no call has an error to show and every result survives a
second cut. -/
theorem hydration_agrees_iff (t : Thread) (hcomplete : ∀ turn ∈ t.turns, Complete turn)
    (hread : ∀ turn ∈ t.turns, ReadsBack json (summaries json turn)) :
    ((hydrate json (persist json t)).messages json.print).map eraseArguments =
        (t.messages json.print).map eraseArguments ↔
      Numbered 0 t.turns ∧ ∀ turn ∈ t.turns, ∀ c ∈ turn.toolCalls, Survives json c := by
  have hfree : ∀ turn ∈ t.turns, turn.imageContentParts = [] := by
    intro turn hturn
    obtain ⟨started, response, heq⟩ := hcomplete turn hturn
    rw [heq]
    rfl
  have hiff := rewritten_turns json.print eraseArguments (storedCall json)
    (stored_rewrites json) 0 t.turns hfree
  simp only [stored_content_iff] at hiff
  rw [Thread.messages, Thread.messages, hydrated_turns json t hread]
  exact hiff

end Calls

def rowJson (text : String) (v : Value) : Json :=
  ⟨fun s => if s = text then some v else none, fun _ => text⟩

def echoThread (result : Option Value) (error : Option String) : Thread :=
  ⟨.idle, [(Turn.mk 0 "hello" none [⟨"echo", .null, result, error⟩] .processing none []).complete
    "done"], none, none⟩

def timeoutJson : Json :=
  rowJson "[\x7b\"call_id\":\"turn0_0\",\"error\":\"timeout\",\"name\":\"echo\"\x7d]"
    (.array [.object [("call_id", .string "turn0_0"), ("error", .string "timeout"),
      ("name", .string "echo")]])

def answeredJson : Json :=
  rowJson ("[\x7b\"call_id\":\"turn0_0\",\"name\":\"echo\",\"result\":\"hi\"," ++
      "\"result_preview\":\"hi\"\x7d]")
    (.array [.object [("call_id", .string "turn0_0"), ("name", .string "echo"),
      ("result", .string "hi"), ("result_preview", .string "hi")]])

theorem echoThread_complete (result : Option Value) (error : Option String) :
    ∀ turn ∈ (echoThread result error).turns, Complete turn := by
  intro turn hturn
  rw [List.mem_singleton.mp hturn]
  exact ⟨_, _, rfl⟩

theorem hydration_agrees_answered :
    ((hydrate answeredJson (persist answeredJson (echoThread (some (.string "hi")) none))).messages
        answeredJson.print).map eraseArguments =
      ((echoThread (some (.string "hi")) none).messages answeredJson.print).map
        eraseArguments := by
  apply (hydration_agrees_iff answeredJson (echoThread (some (.string "hi")) none)
    (echoThread_complete _ _) _).mpr
  · have hkeeps : Keeps "hi" := Or.inl (by decide)
    refine ⟨⟨fun _ => rfl, trivial⟩, ?_⟩
    simpa [echoThread, Turn.complete, Survives, resultText] using hkeeps
  · intro turn hturn
    rw [List.mem_singleton.mp hturn]
    rfl

/-- A recorded error comes back with a prefix in front of it. -/
theorem timeout_prefixed :
    (∀ turn ∈ (echoThread none (some "timeout")).turns,
      Complete turn ∧ ReadsBack timeoutJson (summaries timeoutJson turn)) ∧
    ((hydrate timeoutJson (persist timeoutJson (echoThread none (some "timeout")))).messages
        timeoutJson.print).map eraseArguments ≠
      ((echoThread none (some "timeout")).messages timeoutJson.print).map eraseArguments := by
  have hread : ∀ turn ∈ (echoThread none (some "timeout")).turns,
      ReadsBack timeoutJson (summaries timeoutJson turn) := by
    intro turn hturn
    rw [List.mem_singleton.mp hturn]
    rfl
  constructor
  · intro turn hturn
    exact ⟨echoThread_complete _ _ turn hturn, hread turn hturn⟩
  · intro heq
    rw [Thread.messages, hydrated_turns timeoutJson _ hread] at heq
    have hcontents := congrArg (List.map ChatMessage.content) heq
    revert hcontents
    decide

end IronClaw.Hydration
