import IronClaw.JsonValue
import IronClaw.Lib.Runs
import IronClaw.Lib.Text

/-!
# The pairing store

The files of `pairing/store.rs`: for each channel key the pending requests,
the list of allowed senders and the failed approvals. A file is missing, holds
no readable JSON (a truncated file is empty and so not readable), or holds
what was last written. Reading the clock, drawing random codes and changing
the case of a text are inputs.
-/

set_option autoImplicit false

namespace IronClaw.PairingStore
open IronClaw.JsonValue Lib.Text Lib.Runs

structure Platform where
  toLowercase : String → String
  toUppercase : String → String
  parseTimestamp : String → Option ℕ
  nowIso : ℕ → String

def pairingCodeLength : ℕ := 8

def pairingAlphabet : List Char := "ABCDEFGHJKLMNPQRSTUVWXYZ23456789".toList

def pairingPendingTtlSecs : ℕ := 15*60

def pairingPendingMax : ℕ := 3

def pairingApproveRateLimit : ℕ := 10

def pairingApproveRateWindowSecs : ℕ := 5*60

inductive PairingStoreError where
  | invalidChannel (text : String)
  | approveRateLimited
  deriving DecidableEq

def PairingStoreError.display : PairingStoreError → String
  | .invalidChannel text => "Invalid channel: " ++ text
  | .approveRateLimited => "Rate limit: too many failed approve attempts; try again later"

structure UpsertResult where
  code : String
  created : Bool
  deriving DecidableEq

structure PairingRequest where
  id : String
  code : String
  createdAt : String
  lastSeenAt : String
  metadata : Option Value
  deriving DecidableEq

inductive File (α : Type) where
  | missing
  | garbled
  | written (content : α)
  deriving DecidableEq

/-- The content of a file of entries, with `unwrap_or` for anything else. -/
def File.entries {α : Type} : File (List α) → List α
  | .written content => content
  | _ => []

structure Store where
  pairing : String → File (List PairingRequest)
  allowFrom : String → File (List String)
  attempts : String → File (List ℕ)

def emptyStore : Store := ⟨fun _ => .missing, fun _ => .missing, fun _ => .missing⟩

def unsafeChar (c : Char) : Bool :=
  c ∈ ['\\', '/', ':', '*', '?', '"', '<', '>', '|']

def replaceDots : List Char → List Char
  | '.' :: '.' :: rest => '_' :: replaceDots rest
  | c::rest => c::replaceDots rest
  | [] => []

section
variable (plat : Platform)

def safeChannelKey (channel : String) : Except PairingStoreError String :=
  let raw := plat.toLowercase (trim channel)
  if raw = "" then .error (.invalidChannel "empty")
  else
    let safe := String.ofList
      (replaceDots (raw.toList.map (fun c => if unsafeChar c then '_' else c)))
    if safe = "" ∨ safe = "_" then .error (.invalidChannel channel) else .ok safe

def isExpired (req : PairingRequest) (nowSecs : ℕ) : Bool :=
  pairingPendingTtlSecs < nowSecs-(plat.parseTimestamp req.createdAt).getD 0

def retained (requests : List PairingRequest) (nowSecs : ℕ) : List PairingRequest :=
  requests.filter (fun r => !isExpired plat r nowSecs)

end

structure Draws where
  letter : ℕ → ℕ → Fin 32
  suffix : Fin 10000

def randomCode (letter : ℕ → Fin 32) : String :=
  String.ofList ((List.range pairingCodeLength).map (fun i => pairingAlphabet.getD (letter i) 'A'))

def fourDigits (n : ℕ) : String :=
  String.ofList (List.replicate (4-(toString n).length) '0') ++ toString n

def generateUniqueCode (draws : Draws) (existing : List String) : String :=
  match (List.range 500).find? (fun n => randomCode (draws.letter n) ∉ existing) with
  | some n => randomCode (draws.letter n)
  | none => randomCode (draws.letter 500) ++ fourDigits draws.suffix

def asStored (req : PairingRequest) : PairingRequest :=
  { req with metadata := if req.metadata = some .null then none else req.metadata }

def Store.writePairingFile (s : Store) (key : String) (requests : List PairingRequest) : Store :=
  { s with pairing := Function.update s.pairing key (.written (requests.map asStored)) }

def Store.openPairing (s : Store) (key : String) : Store :=
  match s.pairing key with
  | .missing => { s with pairing := Function.update s.pairing key .garbled }
  | _ => s

structure Clock where
  first : ℕ
  second : ℕ
  third : ℕ

section
variable (plat : Platform)

def listPending (channel : String) (now : ℕ) (s : Store) :
    Except PairingStoreError (List PairingRequest) × Store :=
  match safeChannelKey plat channel with
  | .error e => (.error e, s)
  | .ok key =>
    if s.pairing key = .missing then (.ok [], s)
    else
      let file := (s.pairing key).entries
      let requests := retained plat file now
      let s' := if requests.length ≠ file.length then s.writePairingFile key requests else s
      (.ok (requests.mergeSort (fun a b => decide (a.createdAt ≤ b.createdAt))), s')

def upsertRequest (channel id : String) (metadata : Option Value) (clock : Clock) (draws : Draws)
    (s : Store) : Except PairingStoreError UpsertResult × Store :=
  match safeChannelKey plat channel with
  | .error e => (.error e, s)
  | .ok key =>
    let opened := s.openPairing key
    let now := plat.nowIso clock.first
    if trim id = "" then (.error (.invalidChannel "empty id"), opened)
    else
      let requests := retained plat (s.pairing key).entries clock.second
      let existing := requests.map (fun r => plat.toUppercase r.code)
      match requests.find? (fun r => r.id = trim id) with
      | some req =>
        let code := if req.code = "" then generateUniqueCode draws existing else req.code
        let updated := requests.modify (requests.findIdx (fun r => r.id = trim id))
          (fun r => { r with
            lastSeenAt := now
            code := code
            metadata := if metadata.isSome then metadata else r.metadata })
        (.ok ⟨code, false⟩, opened.writePairingFile key updated)
      | none =>
        if pairingPendingMax ≤ requests.length then (.ok ⟨"", false⟩, opened)
        else
          let code := generateUniqueCode draws existing
          (.ok ⟨code, true⟩,
            opened.writePairingFile key (requests++[⟨trim id, code, now, now, metadata⟩]))

def isApproveRateLimited (key : String) (now : ℕ) (s : Store) : Bool :=
  pairingApproveRateLimit ≤ ((s.attempts key).entries.filter
    (fun t => now-pairingApproveRateWindowSecs ≤ t)).length

def recordFailedApprove (key : String) (now : ℕ) (s : Store) : Store :=
  { s with attempts := Function.update s.attempts key (.written
      (((s.attempts key).entries++[now]).filter (fun t => now-pairingApproveRateWindowSecs ≤ t))) }

def Store.truncateAllowFrom (s : Store) (key : String) : Store :=
  { s with allowFrom := Function.update s.allowFrom key .garbled }

def sameCase (a b : String) : Bool := plat.toLowercase a = plat.toLowercase b

def addAllowFrom (key : String) (entry : String) (s : Store) : Store :=
  if trim entry = "" then s
  else
    let opened := s.truncateAllowFrom key
    let allowFrom := (opened.allowFrom key).entries
    if allowFrom.any (fun e => sameCase plat e (trim entry)) then opened
    else
      { opened with
        allowFrom := Function.update opened.allowFrom key (.written (allowFrom++[trim entry])) }

def approve (channel code : String) (clock : Clock) (s : Store) :
    Except PairingStoreError (Option PairingRequest) × Store :=
  let code := plat.toUppercase (trim code)
  if code = "" then (.ok none, s)
  else match safeChannelKey plat channel with
  | .error e => (.error e, s)
  | .ok key =>
    if isApproveRateLimited key clock.first s then (.error .approveRateLimited, s)
    else if s.pairing key = .missing then (.error (.invalidChannel "no pairing file"), s)
    else
      let requests := retained plat (s.pairing key).entries clock.second
      match requests.find? (fun r => plat.toUppercase r.code = code) with
      | none => (.ok none, recordFailedApprove key clock.third s)
      | some entry =>
        let rest := requests.eraseIdx
          (requests.findIdx (fun r => plat.toUppercase r.code = code))
        (.ok (some entry), addAllowFrom plat key entry.id (s.writePairingFile key rest))

def readAllowFrom (channel : String) (s : Store) : Except PairingStoreError (List String) :=
  match safeChannelKey plat channel with
  | .error e => .error e
  | .ok key => .ok (s.allowFrom key).entries

def isSenderAllowed (channel id : String) (username : Option String) (s : Store) :
    Except PairingStoreError Bool :=
  match readAllowFrom plat channel s with
  | .error e => .error e
  | .ok allow =>
    if allow.any (fun e => trim e = trim id) then .ok true
    else match username with
    | none => .ok false
    | some name =>
      let u := plat.toLowercase (trim name)
      let plain := (stripPrefix u "@").getD u
      .ok (allow.any (fun e => plat.toLowercase (trim e) = u ||
        plat.toLowercase (trim e) = "@" ++ plain))

end

inductive Op where
  | upsertRequest (channel id : String) (metadata : Option Value) (clock : Clock) (draws : Draws)
  | listPending (channel : String) (now : ℕ)
  | approve (channel code : String) (clock : Clock)
  | readAllowFrom (channel : String)

structure Ledger where
  store : Store
  approved : List (String × String)

section
variable (plat : Platform)

def approval : Op → Store → Option (String × String)
  | .approve channel code clock, s =>
    match safeChannelKey plat channel, (approve plat channel code clock s).1 with
    | .ok key, .ok (some entry) => some (key, entry.id)
    | _, _ => none
  | _, _ => none

def apply : Op → Store → Store
  | .upsertRequest channel id metadata clock draws, s =>
    (upsertRequest plat channel id metadata clock draws s).2
  | .listPending channel now, s => (listPending plat channel now s).2
  | .approve channel code clock, s => (approve plat channel code clock s).2
  | .readAllowFrom _, s => s

def step (op : Op) (l : Ledger) : Ledger :=
  ⟨apply plat op l.store, l.approved++(approval plat op l.store).toList⟩

end

def fresh : Ledger := ⟨emptyStore, []⟩

end IronClaw.PairingStore
