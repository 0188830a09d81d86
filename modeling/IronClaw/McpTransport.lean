import Mathlib.Algebra.Group.Int.Defs
import Mathlib.Algebra.Group.Nat.Defs
import IronClaw.JsonValue

/-!
# Requests over a shared stream transport

The clients of `tools/mcp/client.rs` that come from one another by `clone`
share the table of pending requests of `tools/mcp/transport.rs`, and each has
its own counter for request ids. A send registers its sender under the id,
writes the line and waits; the reader task takes the lines of the server; a
timeout, a failed write and the shutdown take entries out again. Requests are
numbered in the order in which they take their ids.
-/

set_option autoImplicit false

namespace IronClaw.McpTransport
open IronClaw.JsonValue

structure McpError where
  code : ℤ
  message : String
  data : Option Value
  deriving DecidableEq

structure McpResponse where
  jsonrpc : String
  id : Option ℕ
  result : Option Value
  error : Option McpError
  deriving DecidableEq

def digits (cs : List Char) : Option ℕ :=
  if cs ≠ [] ∧ cs.all Char.isDigit then
    some (cs.foldl (fun n c => 10*n+(c.toNat-48)) 0)
  else none

/-- `str::parse::<u64>`: an optional plus sign and digits, within range. -/
def parseU64 (s : String) : Option ℕ :=
  let cs := match s.toList with
    | '+' :: cs => cs
    | cs => cs
  (digits cs).filter (fun n => n < 2^64)

/-- The text of a number in range is read as that number. -/
theorem parseU64_toDigits (n : ℕ) (h : n < 2^64) :
    parseU64 (String.ofList (Nat.toDigits 10 n)) = some n := by
  have hdigit : ∀ c ∈ Nat.toDigits 10 n, c.isDigit = true :=
    fun c hc => Nat.isDigit_of_mem_toDigits (by omega) (by omega) hc
  have hvalue : digits (Nat.toDigits 10 n) = some n := by
    rw [digits, if_pos ⟨Nat.toDigits_ne_nil, List.all_eq_true.mpr hdigit⟩]
    exact congrArg some Nat.ofDigitChars_ten_toDigits
  unfold parseU64
  rw [String.toList_ofList]
  split
  · rename_i cs hcs
    have hplus := hdigit '+' (by rw [hcs]; exact List.mem_cons_self)
    cases hplus
  · show (digits (Nat.toDigits 10 n)).filter _ = _
    rw [hvalue, Option.filter_some_pos (by simpa using h)]

/-- What is read as a number is a run of digits, perhaps behind a plus sign. -/
theorem parseU64_spelled (cs : List Char) (n : ℕ) (h : parseU64 (String.ofList cs) = some n) :
    ∃ ds, (cs = ds ∨ cs = '+'::ds) ∧ ds ≠ [] ∧ ∀ c ∈ ds, c.isDigit = true := by
  unfold parseU64 at h
  rw [String.toList_ofList] at h
  have hspelled (ds : List Char) (hds : (digits ds).filter (fun n => n < 2^64) = some n) :
      ds ≠ [] ∧ ∀ c ∈ ds, c.isDigit = true := by
    obtain ⟨hvalue, -⟩ := Option.filter_eq_some_iff.mp hds
    rw [digits] at hvalue
    split at hvalue
    · next hall => exact ⟨hall.1, List.all_eq_true.mp hall.2⟩
    · cases hvalue
  split at h
  · next ds => exact ⟨ds, Or.inr rfl, hspelled ds h⟩
  · exact ⟨cs, Or.inl rfl, hspelled cs h⟩

def deserializeFlexibleId : Value → Option ℕ
  | .number (.posInt n) => some n.toNat
  | .string s => parseU64 s
  | _ => none

def parseI32 : Value → Option ℤ
  | .number (.posInt n) => if n.toNat < 2^31 then some n.toNat else none
  | .number (.negInt n) => if -2^31 ≤ n.toInt then some n.toInt else none
  | _ => none

def present : Option Value → Option Value
  | some .null => none
  | v => v

def assembleError (code message : Option Value) (data : Option Value) : Option McpError :=
  match code.bind parseI32, message with
  | some code, some (.string message) => some ⟨code, message, present data⟩
  | _, _ => none

def parseError : Value → Option McpError
  | .object fields =>
    assembleError (fields.lookup "code") (fields.lookup "message") (fields.lookup "data")
  | .array [code, message, data] => assembleError (some code) (some message) (some data)
  | _ => none

def assembleResponse (jsonrpc id result error : Option Value) : Option McpResponse :=
  match jsonrpc, id, present error with
  | some (.string jsonrpc), some id, none =>
    some ⟨jsonrpc, deserializeFlexibleId id, present result, none⟩
  | some (.string jsonrpc), some id, some error =>
    (parseError error).map fun e => ⟨jsonrpc, deserializeFlexibleId id, present result, some e⟩
  | _, _, _ => none

def parseResponse : Value → Option McpResponse
  | .object fields =>
    assembleResponse (fields.lookup "jsonrpc") (fields.lookup "id") (fields.lookup "result")
      (fields.lookup "error")
  | .array [jsonrpc, id, result, error] =>
    assembleResponse (some jsonrpc) (some id) (some result) (some error)
  | _ => none

def isAnswer : Value → Bool
  | .object fields =>
    ((fields.lookup "result").isSome || (fields.lookup "error").isSome) &&
      (fields.lookup "method").isNone
  | _ => false

structure Line where
  value : Value
  answers : Option ℕ
  deriving DecidableEq

inductive Slot where
  | waiting
  | resolved (response : McpResponse) (line : Line)
  | dropped
  deriving DecidableEq

inductive Phase where
  | created
  | registered
  | sent
  | cleaning (error : String)
  | failed (error : String)
  | notified
  | completed (response : McpResponse) (line : Line)
  deriving DecidableEq

structure Request where
  id : Option ℕ
  phase : Phase
  slot : Slot
  deriving DecidableEq

structure Transport where
  serverName : String
  clients : List ℕ
  issued : ℕ
  requests : ℕ → Option Request
  pending : ℕ → Option ℕ
  reading : Bool
  eof : Bool
  aborted : Bool
  shut : Bool

namespace Transport

def setRequest (m : Transport) (t : ℕ) (r : Request) : Transport :=
  { m with requests := Function.update m.requests t (some r) }

def setPhase (m : Transport) (t : ℕ) (r : Request) (phase : Phase) : Transport :=
  m.setRequest t { r with phase := phase }

def dropSender (m : Transport) : Option ℕ → Transport
  | none => m
  | some t =>
    match m.requests t with
    | some ⟨id, phase, .waiting⟩ => m.setRequest t ⟨id, phase, .dropped⟩
    | _ => m

def insertPending (m : Transport) (id t : ℕ) : Transport :=
  let m := m.dropSender (m.pending id)
  { m with pending := Function.update m.pending id (some t) }

def removePending (m : Transport) (id : ℕ) : Transport :=
  let m := m.dropSender (m.pending id)
  { m with pending := Function.update m.pending id none }

def clone (c : ℕ) (m : Transport) : Transport :=
  match m.clients[c]? with
  | some nextId => { m with clients := m.clients++[nextId] }
  | none => m

/-- `next_request_id`, for a request that is about to be sent. -/
def request (c : ℕ) (m : Transport) : Transport :=
  match m.clients[c]? with
  | some nextId =>
    { m with
      clients := m.clients.set c ((nextId+1)%2^64)
      issued := m.issued+1
      requests := Function.update m.requests m.issued (some ⟨some nextId, .created, .waiting⟩) }
  | none => m

def notify (m : Transport) : Transport :=
  { m with
    issued := m.issued+1
    requests := Function.update m.requests m.issued (some ⟨none, .created, .waiting⟩) }

def register (t : ℕ) (m : Transport) : Transport :=
  match m.requests t with
  | some r =>
    match r.phase, r.id with
    | .created, some id => (m.setPhase t r .registered).insertPending id t
    | _, _ => m
  | none => m

def write (t : ℕ) (failure : Option String) (m : Transport) : Transport :=
  match m.requests t with
  | some r =>
    match r.phase, r.id, failure with
    | .registered, _, none => m.setPhase t r .sent
    | .registered, _, some error => m.setPhase t r (.cleaning error)
    | .created, none, none => m.setPhase t r .notified
    | .created, none, some error => m.setPhase t r (.failed error)
    | _, _, _ => m
  | none => m

def idText (id : Option ℕ) : String :=
  match id with
  | some id => "Some(" ++ toString id ++ ")"
  | none => "None"

def closedText (m : Transport) (r : Request) : String :=
  "[" ++ m.serverName ++ "] MCP server closed connection before responding to request " ++
    idText r.id

def timeoutText (m : Transport) (r : Request) : String :=
  "[" ++ m.serverName ++ "] Timeout waiting for response to request " ++ idText r.id ++ " after 30s"

def receive (t : ℕ) (m : Transport) : Transport :=
  match m.requests t with
  | some r =>
    match r.phase, r.slot with
    | .sent, .resolved response line => m.setPhase t r (.completed response line)
    | .sent, .dropped => m.setPhase t r (.cleaning (m.closedText r))
    | _, _ => m
  | none => m

def timeout (t : ℕ) (m : Transport) : Transport :=
  match m.requests t with
  | some r =>
    match r.phase, r.slot with
    | .sent, .waiting => m.setPhase t r (.cleaning (m.timeoutText r))
    | _, _ => m
  | none => m

def cleanup (t : ℕ) (m : Transport) : Transport :=
  match m.requests t with
  | some r =>
    match r.phase, r.id with
    | .cleaning error, some id => (m.setPhase t r (.failed error)).removePending id
    | _, _ => m
  | none => m

def resolve (m : Transport) (t : ℕ) (response : McpResponse) (line : Line) : Transport :=
  match m.requests t with
  | some ⟨id, phase, .waiting⟩ => m.setRequest t ⟨id, phase, .resolved response line⟩
  | _ => m

def readLine (line : Line) (m : Transport) : Transport :=
  if m.reading then
    match parseResponse line.value with
    | some response =>
      match response.id with
      | some id =>
        match m.pending id with
        | some t =>
          let m := m.resolve t response line
          { m with pending := Function.update m.pending id none }
        | none => m
      | none => m
    | none => m
  else m

def readerEnds (m : Transport) : Transport :=
  if m.reading then { m with reading := false, eof := !m.aborted } else m

def beginShutdown (m : Transport) : Transport := { m with aborted := true }

/-- `pending.clear()` drops every sender in the table. -/
def clearPending (m : Transport) : Transport :=
  if m.aborted then
    { m with
      requests := fun t => (m.requests t).map fun r =>
        if r.id.bind m.pending = some t ∧ r.slot = .waiting then { r with slot := .dropped } else r
      pending := fun _ => none
      shut := true }
  else m

end Transport

inductive Label where
  | clone (c : ℕ)
  | request (c : ℕ)
  | notify
  | register (t : ℕ)
  | write (t : ℕ) (failure : Option String)
  | receive (t : ℕ)
  | timeout (t : ℕ)
  | cleanup (t : ℕ)
  | readLine (line : Line)
  | readerEnds
  | beginShutdown
  | clearPending

def step : Label → Transport → Transport
  | .clone c, m => m.clone c
  | .request c, m => m.request c
  | .notify, m => m.notify
  | .register t, m => m.register t
  | .write t failure, m => m.write t failure
  | .receive t, m => m.receive t
  | .timeout t, m => m.timeout t
  | .cleanup t, m => m.cleanup t
  | .readLine line, m => m.readLine line
  | .readerEnds, m => m.readerEnds
  | .beginShutdown, m => m.beginShutdown
  | .clearPending, m => m.clearPending

def connected (serverName : String) : Transport :=
  ⟨serverName, [1], 0, fun _ => none, fun _ => none, true, false, false, false⟩

end IronClaw.McpTransport
