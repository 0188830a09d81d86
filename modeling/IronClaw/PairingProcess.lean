import IronClaw.PairingStore

/-!
# Processes at the pairing store of a channel

Each call of `upsert_request`, `list_pending` and `approve` is a process that
reads and writes the files of one channel key one step at a time, other
processes between its steps. The lock of the pairing file is held where the
code holds it: `list_pending` reads without it, and opening the file again for
its rewrite truncates the file before the lock is taken. Every system call may
fail; the clock only goes forward.
-/

set_option autoImplicit false

namespace IronClaw.PairingProcess
open IronClaw.JsonValue IronClaw.PairingStore Lib.Text Lib.Runs

inductive Io where
  | done
  | refused
  | emptied
  | unsynced
  deriving DecidableEq

inductive Failure where
  | store (error : PairingStoreError)
  | io
  deriving DecidableEq

inductive Call where
  | upsertRequest (id : String) (metadata : Option Value)
  | listPending
  | approve (code : String)

inductive Result where
  | upserted (answer : Except Failure UpsertResult)
  | listed (answer : Except Failure (List PairingRequest))
  | approved (answer : Except Failure (Option PairingRequest)) (removed : Option PairingRequest)
  deriving DecidableEq

inductive Next where
  | finished (result : Result)
  | recordFailedApprove
  | addAllowFrom (entry : PairingRequest)
  deriving DecidableEq

def Next.failed : Next → Result
  | .finished (.upserted _) => .upserted (.error .io)
  | .finished (.listed _) => .listed (.error .io)
  | .finished (.approved _ removed) => .approved (.error .io) removed
  | .recordFailedApprove => .approved (.error .io) none
  | .addAllowFrom entry => .approved (.error .io) (some entry)

inductive Phase where
  | idle
  | going (next : Next)
  | unlocking (next : Next)
  | upsertOpen (id : String) (metadata : Option Value)
  | upsertLock (id : String) (metadata : Option Value)
  | upsertRead (id : String) (metadata : Option Value)
  | upsertWrite (requests : List PairingRequest) (result : UpsertResult)
  | listRead
  | listTruncate (requests : List PairingRequest)
  | listLock (requests : List PairingRequest)
  | listWrite (requests : List PairingRequest)
  | approveLimit (code : String)
  | approveOpen (code : String)
  | approveLock (code : String)
  | approveRead (code : String)
  | approveWrite (code : String) (entry : PairingRequest) (rest : List PairingRequest)
  | allowLock (entry : PairingRequest)
  | allowRead (entry : PairingRequest)
  | allowWrite (entry : PairingRequest) (allowFrom : List String)
  | allowUnlock (entry : PairingRequest)
  deriving DecidableEq

structure World where
  store : Store
  now : ℕ
  holder : Option ℕ
  allowHolder : Option ℕ
  phase : ℕ → Phase

def World.goto (w : World) (p : ℕ) (phase : Phase) : World :=
  { w with phase := Function.update w.phase p phase }

def World.answer (w : World) (p : ℕ) (result : Result) : World :=
  w.goto p (.going (.finished result))

def ended {α : Type} (io : Io) (new old : File α) : File α :=
  match io with
  | .done => new
  | .unsynced => new
  | .refused => old
  | .emptied => .garbled

/-- `write_pairing_file_locked`. -/
def writeLocked (key : String) (io : Io) (requests : List PairingRequest) (s : Store) : Store :=
  let file := ended io (.written (requests.map asStored)) (s.pairing key)
  { s with pairing := Function.update s.pairing key file }

def writeAllowFrom (key : String) (io : Io) (allowFrom : List String) (s : Store) : Store :=
  let file := ended io (.written allowFrom) (s.allowFrom key)
  { s with allowFrom := Function.update s.allowFrom key file }

def truncatePairing (key : String) (s : Store) : Store :=
  { s with pairing := Function.update s.pairing key .garbled }

def sorted (requests : List PairingRequest) : List PairingRequest :=
  requests.mergeSort (fun a b => decide (a.createdAt ≤ b.createdAt))

section
variable (plat : Platform)

/-- What `upsert_request` goes on with after reading the file. -/
def upsertSeen (now : ℕ) (draws : Draws) (id : String) (metadata : Option Value)
    (file : List PairingRequest) : Phase :=
  let iso := plat.nowIso now
  if trim id = "" then
    .unlocking (.finished (.upserted (.error (.store (.invalidChannel "empty id")))))
  else
    let requests := retained plat file now
    let existing := requests.map (fun r => plat.toUppercase r.code)
    match requests.find? (fun r => r.id = trim id) with
    | some req =>
      let code := if req.code = "" then generateUniqueCode draws existing else req.code
      .upsertWrite (requests.modify (requests.findIdx (fun r => r.id = trim id))
        (fun r => { r with
          lastSeenAt := iso
          code := code
          metadata := if metadata.isSome then metadata else r.metadata })) ⟨code, false⟩
    | none =>
      if pairingPendingMax ≤ requests.length then
        .unlocking (.finished (.upserted (.ok ⟨"", false⟩)))
      else
        let code := generateUniqueCode draws existing
        .upsertWrite (requests++[⟨trim id, code, iso, iso, metadata⟩]) ⟨code, true⟩

def listSeen (now : ℕ) (file : List PairingRequest) : Phase :=
  let requests := retained plat file now
  if requests.length ≠ file.length then .listTruncate requests
  else .going (.finished (.listed (.ok (sorted requests))))

def approveSeen (now : ℕ) (code : String) (file : List PairingRequest) : Phase :=
  let requests := retained plat file now
  match requests.find? (fun r => plat.toUppercase r.code = code) with
  | none => .unlocking .recordFailedApprove
  | some entry =>
    .approveWrite code entry
      (requests.eraseIdx (requests.findIdx (fun r => plat.toUppercase r.code = code)))

def allowSeen (entry : PairingRequest) (allowFrom : List String) : Phase :=
  if allowFrom.any (fun e => sameCase plat e (trim entry.id)) then .allowUnlock entry
  else .allowWrite entry (allowFrom++[trim entry.id])

def begun : Call → Phase
  | .upsertRequest id metadata => .upsertOpen id metadata
  | .listPending => .listRead
  | .approve code =>
    let code := plat.toUppercase (trim code)
    if code = "" then .going (.finished (.approved (.ok none) none)) else .approveLimit code

def call (p : ℕ) (c : Call) (w : World) : World :=
  match w.phase p with
  | .idle => w.goto p (begun plat c)
  | .going (.finished _) => w.goto p (begun plat c)
  | _ => w

variable (key : String)

def lock (p : ℕ) (io : Io) (w : World) (locked : Phase) (failed : Result) : World :=
  if w.holder.isSome then w
  else if io = .done then { w with holder := some p }.goto p locked
  else w.answer p failed

def readOr {α : Type} (io : Io) (file : File (List α)) : List α :=
  if io = .done then file.entries else []

def go (p : ℕ) (io : Io) (draws : Draws) (w : World) : World :=
  match w.phase p with
  | .idle => w
  | .going (.finished _) => w
  | .upsertOpen id metadata =>
    if io = .done then { w with store := w.store.openPairing key }.goto p (.upsertLock id metadata)
    else w.answer p (.upserted (.error .io))
  | .upsertLock id metadata => lock p io w (.upsertRead id metadata) (.upserted (.error .io))
  | .upsertRead id metadata =>
    w.goto p (upsertSeen plat w.now draws id metadata (readOr io (w.store.pairing key)))
  | .upsertWrite requests result =>
    let store := writeLocked key io requests w.store
    if io = .done then
      { w with store := store }.goto p (.unlocking (.finished (.upserted (.ok result))))
    else { w with store := store, holder := none }.answer p (.upserted (.error .io))
  | .listRead =>
    if io ≠ .done then w.answer p (.listed (.error .io))
    else if w.store.pairing key = .missing then w.answer p (.listed (.ok []))
    else w.goto p (listSeen plat w.now (w.store.pairing key).entries)
  | .listTruncate requests =>
    if io = .done then { w with store := truncatePairing key w.store }.goto p (.listLock requests)
    else w.answer p (.listed (.error .io))
  | .listLock requests => lock p io w (.listWrite requests) (.listed (.error .io))
  | .listWrite requests =>
    let store := writeLocked key io requests w.store
    if io = .done then
      { w with store := store }.goto p (.unlocking (.finished (.listed (.ok (sorted requests)))))
    else { w with store := store, holder := none }.answer p (.listed (.error .io))
  | .approveLimit code =>
    if io ≠ .done then w.answer p (.approved (.error .io) none)
    else if isApproveRateLimited key w.now w.store then
      w.answer p (.approved (.error (.store .approveRateLimited)) none)
    else w.goto p (.approveOpen code)
  | .approveOpen code =>
    if io ≠ .done then w.answer p (.approved (.error .io) none)
    else if w.store.pairing key = .missing then
      w.answer p (.approved (.error (.store (.invalidChannel "no pairing file"))) none)
    else w.goto p (.approveLock code)
  | .approveLock code => lock p io w (.approveRead code) (.approved (.error .io) none)
  | .approveRead code =>
    w.goto p (approveSeen plat w.now code (readOr io (w.store.pairing key)))
  | .approveWrite _ entry rest =>
    let store := writeLocked key io rest w.store
    if io = .done then { w with store := store }.goto p (.unlocking (.addAllowFrom entry))
    else { w with store := store, holder := none }.answer p
      (.approved (.error .io) (if io = Io.refused then none else some entry))
  | .unlocking next =>
    if io = .done then { w with holder := none }.goto p (.going next)
    else { w with holder := none }.answer p next.failed
  -- the attempts have a lock of their own, around their read and their write
  | .going .recordFailedApprove =>
    if io = .done then
      { w with store := recordFailedApprove key w.now w.store }.answer p (.approved (.ok none) none)
    else w.answer p (.approved (.error .io) none)
  | .going (.addAllowFrom entry) =>
    if trim entry.id = "" then w.answer p (.approved (.ok (some entry)) none)
    else if io = .done then
      { w with store := w.store.truncateAllowFrom key }.goto p (.allowLock entry)
    else w.answer p (.approved (.error .io) (some entry))
  | .allowLock entry =>
    if w.allowHolder.isSome then w
    else if io = .done then { w with allowHolder := some p }.goto p (.allowRead entry)
    else w.answer p (.approved (.error .io) (some entry))
  | .allowRead entry => w.goto p (allowSeen plat entry (readOr io (w.store.allowFrom key)))
  | .allowWrite entry allowFrom =>
    let store := writeAllowFrom key io allowFrom w.store
    if io = .done then { w with store := store }.goto p (.allowUnlock entry)
    else
      { w with store := store, allowHolder := none }.answer p (.approved (.error .io) (some entry))
  | .allowUnlock entry =>
    if io = .done then { w with allowHolder := none }.answer p (.approved (.ok (some entry)) none)
    else { w with allowHolder := none }.answer p (.approved (.error .io) (some entry))

inductive Label where
  | tick (secs : ℕ)
  | call (p : ℕ) (c : Call)
  | go (p : ℕ) (io : Io) (draws : Draws)

def step : Label → World → World
  | .tick secs, w => { w with now := w.now+secs }
  | .call p c, w => call plat p c w
  | .go p io draws, w => go plat key p io draws w

end

def start (now : ℕ) : World := ⟨emptyStore, now, none, none, fun _ => .idle⟩

def pending (key : String) (w : World) : List PairingRequest := (w.store.pairing key).entries

@[simp] theorem goto_phase (w : World) (p : ℕ) (phase : Phase) :
    (w.goto p phase).phase p = phase := by
  simp [World.goto]

@[simp] theorem answer_phase (w : World) (p : ℕ) (result : Result) :
    (w.answer p result).phase p = .going (.finished result) := by
  simp [World.answer]

theorem pending_open (key : String) (w : World) :
    pending key { w with store := w.store.openPairing key } = pending key w := by
  unfold pending Store.openPairing
  split
  · next h => simp [h, File.entries]
  · rfl

theorem run_finished (plat : Platform) (key : String) (w : World) (p : ℕ) (io : Io)
    (draws : Draws) (n : ℕ) (result : Result) (h : w.phase p = .going (.finished result)) :
    run (step plat key) (List.replicate n (.go p io draws)) w = w := by
  induction n with
  | zero => rfl
  | succ n ih =>
    have hstay : go plat key p io draws w = w := by simp only [go, h]
    rw [List.replicate_succ, run, step, hstay]
    exact ih

/-- `add_allow_from` -/
theorem allow_alone (plat : Platform) (key : String) (draws : Draws) (w : World) (p : ℕ)
    (entry : PairingRequest) (hphase : w.phase p = .going (.addAllowFrom entry))
    (hfree : w.allowHolder = none) :
    (run (step plat key) (List.replicate 5 (.go p .done draws)) w).store =
      addAllowFrom plat key entry.id w.store := by
  unfold addAllowFrom
  by_cases hid : trim entry.id = ""
  · rw [if_pos hid, List.replicate_succ, run, step]
    have hgo : go plat key p .done draws w = w.answer p (.approved (.ok (some entry)) none) := by
      simp [go, hphase, hid]
    rw [hgo, run_finished plat key _ p .done draws 4 _ (answer_phase w p _)]
    rfl
  · rw [if_neg hid]
    simp [List.replicate, run, step, go, hphase, hid, hfree, World.goto, World.answer, readOr,
      allowSeen, Store.truncateAllowFrom, File.entries, writeAllowFrom, ended]

/-- After the rate limit: open, lock and read, write and unlock, and `add_allow_from`. -/
theorem approve_ending (plat : Platform) (key code : String) (draws : Draws) (w : World) (p : ℕ)
    (hphase : w.phase p = approveSeen plat w.now code (w.store.pairing key).entries)
    (hallow : w.allowHolder = none) :
    (run (step plat key) (List.replicate 7 (.go p .done draws)) w).store =
      match (retained plat (w.store.pairing key).entries w.now).find?
          (fun r => plat.toUppercase r.code = code) with
      | none => recordFailedApprove key w.now w.store
      | some entry => addAllowFrom plat key entry.id (w.store.writePairingFile key
          ((retained plat (w.store.pairing key).entries w.now).eraseIdx
            ((retained plat (w.store.pairing key).entries w.now).findIdx
              (fun r => plat.toUppercase r.code = code)))) := by
  have hsplit : List.replicate 7 (Label.go p .done draws) =
      List.replicate 2 (.go p .done draws)++List.replicate 5 (.go p .done draws) := rfl
  rw [hsplit, run_append]
  unfold approveSeen at hphase
  simp only at hphase
  split at hphase
  · have hrecord : run (step plat key) (List.replicate 2 (.go p .done draws)) w =
        { w with
          store := recordFailedApprove key w.now w.store
          holder := none }.answer p (.approved (.ok none) none) := by
      simp [List.replicate, run, step, go, hphase, World.goto, World.answer]
    rw [hrecord, run_finished plat key _ p .done draws 5 _ (answer_phase _ p _)]
    rfl
  · next entry hentry =>
    have hwrite : ∃ u, run (step plat key) (List.replicate 2 (.go p .done draws)) w = u ∧
        u.phase p = .going (.addAllowFrom entry) ∧ u.allowHolder = none ∧
        u.store = w.store.writePairingFile key
          ((retained plat (w.store.pairing key).entries w.now).eraseIdx
            ((retained plat (w.store.pairing key).entries w.now).findIdx
              (fun r => plat.toUppercase r.code = code))) := by
      refine ⟨_, rfl, ?_⟩
      simp [List.replicate, run, step, go, hphase, World.goto, hallow, writeLocked, ended,
        Store.writePairingFile]
    obtain ⟨u, hu, huphase, huallow, hustore⟩ := hwrite
    rw [hu, allow_alone plat key draws u p entry huphase huallow, hustore]

theorem approve_alone (plat : Platform) (channel key code : String) (draws : Draws) (w : World)
    (p : ℕ) (hkey : safeChannelKey plat channel = .ok key) (hidle : w.phase p = .idle)
    (hfree : w.holder = none) (hallow : w.allowHolder = none) :
    (run (step plat key) (.call p (.approve code)::List.replicate 11 (.go p .done draws)) w).store =
      (approve plat channel code ⟨w.now, w.now, w.now⟩ w.store).2 := by
  simp only [run, step, call, hidle, begun, approve, hkey]
  generalize plat.toUppercase (trim code) = upper
  split
  · rw [run_finished plat key _ p .done draws 11 _ (goto_phase w p _)]
    rfl
  · have hlimit : go plat key p .done draws (w.goto p (.approveLimit upper)) =
        if isApproveRateLimited key w.now w.store then
          w.answer p (.approved (.error (.store .approveRateLimited)) none)
        else w.goto p (.approveOpen upper) := by
      simp [go, World.goto, World.answer]
    rw [List.replicate_succ, run, step, hlimit]
    split
    · rw [run_finished plat key _ p .done draws 10 _ (answer_phase w p _)]
      rfl
    · by_cases hmissing : w.store.pairing key = .missing
      · have hopen : go plat key p .done draws (w.goto p (.approveOpen upper)) =
            w.answer p (.approved (.error (.store (.invalidChannel "no pairing file"))) none) := by
          simp [go, World.goto, World.answer, hmissing]
        rw [List.replicate_succ, run, step, hopen, if_pos hmissing,
          run_finished plat key _ p .done draws 9 _ (answer_phase w p _)]
        rfl
      · have hsplit : List.replicate 10 (Label.go p .done draws) =
            List.replicate 3 (.go p .done draws)++List.replicate 7 (.go p .done draws) := rfl
        have hread : run (step plat key) (List.replicate 3 (.go p .done draws))
              (w.goto p (.approveOpen upper)) =
            { w with holder := some p }.goto p
              (approveSeen plat w.now upper (w.store.pairing key).entries) := by
          simp [List.replicate, run, step, go, lock, readOr, World.goto, hmissing, hfree]
        have hending := approve_ending plat key upper draws
          ({ w with holder := some p }.goto p
            (approveSeen plat w.now upper (w.store.pairing key).entries)) p
          (goto_phase _ p _) hallow
        rw [if_neg hmissing, hsplit, run_append, hread, hending]
        simp only [World.goto]
        split <;> simp [*]

def asciiPlatform : Platform := ⟨id, id, fun _ => some 100, fun _ => "1970-01-01T00:01:40+00:00"⟩

def oneWaits : World :=
  { start 100 with
    store := (upsertRequest asciiPlatform "signal" "alice" none ⟨100, 100, 100⟩
      ⟨fun _ _ => Fin.last 31, Fin.last 9999⟩ emptyStore).2 }

theorem approve_alone_waiting :
    (run (step asciiPlatform "signal") (.call 7 (.approve " 99999999 ")::
        List.replicate 11 (.go 7 .done ⟨fun _ _ => Fin.last 31, Fin.last 9999⟩)) oneWaits).store =
      (approve asciiPlatform "signal" " 99999999 " ⟨100, 100, 100⟩ oneWaits.store).2 :=
  approve_alone asciiPlatform "signal" "signal" " 99999999 "
    ⟨fun _ _ => Fin.last 31, Fin.last 9999⟩ oneWaits 7 (by decide +kernel) rfl rfl rfl

end IronClaw.PairingProcess
