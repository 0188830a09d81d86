import IronClaw.Lib.Entries
import IronClaw.Lib.Runs

/-!
# The session manager

`agent/session_manager.rs` keeps the session of each user, the threads of the
conversation keys and the undo managers of the threads behind one lock each,
and every session behind a lock of its own. A step is what one call does under
one lock; a lookup in the thread map keeps its guard while it asks the session,
so it is one step too. Calls are numbered. A fresh UUID comes with the label of
the step that takes it, and a step that would have to wait for the lock of a
session leaves the state. Times are nanoseconds since the epoch. `activity` lists
the resolved messages and the events of turns with their times, and `prunes` the
calls that prune.
-/

set_option autoImplicit false

namespace IronClaw.SessionManager
open Lib.Entries Lib.Runs

structure Key where
  user : String
  channel : String
  external : Option String
  deriving DecidableEq

structure Uuids where
  parse : String → Option ℕ
  print : ℕ → String

/-- `std::time::Duration`, whole seconds and the nanoseconds behind them. -/
structure Duration where
  secs : UInt64
  nanos : ℕ
  deriving DecidableEq

def Duration.asNanos (d : Duration) : ℕ := d.secs.toNat*1000000000+d.nanos

structure Session where
  user : String
  threads : List ℕ
  lastActiveAt : ℕ
  locked : Bool
  deriving DecidableEq

inductive Pc where
  | idle
  | opening (user : String) (key : Option Key)
  | adding (user : String) (key : Option Key)
  | opened (user : String) (ref : ℕ)
  | looking (key : Key) (ref : ℕ)
  | scanning (key : Key) (ref uuid : ℕ)
  | probing (key : Key) (ref uuid : ℕ)
  | claiming (key : Key) (ref uuid : ℕ)
  | adopted (key : Key) (ref uuid : ℕ)
  | creating (key : Key) (ref : ℕ)
  | mapping (key : Key) (ref thread : ℕ)
  | undoing (key : Key) (ref thread : ℕ)
  | resolved (key : Key) (ref thread : ℕ)
  | registering (key : Key) (thread ref : ℕ)
  | keeping (key : Key) (thread ref : ℕ)
  | tracking (key : Key) (thread ref : ℕ)
  | registered (key : Key) (thread : ℕ)
  | fetching (thread : ℕ)
  | making (thread : ℕ)
  | fetched (thread manager : ℕ)
  | pruning (maxIdle : Duration) (cutoff : ℤ)
  | collecting (maxIdle : Duration) (cutoff : ℤ) (users : List String)
  | removing (maxIdle : Duration) (cutoff : ℤ) (users : List String) (threads : List ℕ)
  | unmapping (users : List String) (refs threads : List ℕ)
  | forgetting (users : List String) (refs threads : List ℕ)
  | pruned (refs : List ℕ)
  | panicked
  deriving DecidableEq

structure Manager where
  now : ℕ
  heap : List Session
  sessions : AList (fun _ : String => ℕ)
  threadMap : AList (fun _ : Key => ℕ)
  undoManagers : AList (fun _ : ℕ => ℕ)
  managers : ℕ
  pcs : ℕ → Pc
  activity : List (ℕ × ℕ)
  prunes : List ℕ

inductive Label where
  | pass (time : ℕ)
  | getOrCreateSession (i : ℕ) (user : String)
  | resolveThread (i : ℕ) (key : Key)
  | registerThread (i : ℕ) (user channel : String) (thread ref : ℕ)
  | getUndoManager (i thread : ℕ)
  | pruneStaleSessions (i : ℕ) (maxIdle : Duration)
  | go (i fresh : ℕ)
  | createThread (ref fresh : ℕ)
  | hydrate (ref thread : ℕ)
  | switchThread (ref thread : ℕ)
  | turn (ref thread : ℕ)
  | lock (ref : ℕ)
  | unlock (ref : ℕ)
  deriving DecidableEq

def Manager.new : Manager := ⟨0, [], ∅, ∅, ∅, 0, fun _ => .idle, [], []⟩

def Manager.at (s : Manager) (i : ℕ) (pc : Pc) : Manager :=
  { s with pcs := Function.update s.pcs i pc }

def Manager.contains (s : Manager) (ref thread : ℕ) : Bool :=
  match s.heap[ref]? with
  | some sess => sess.threads.contains thread
  | none => false

def Manager.locked (s : Manager) (ref : ℕ) : Bool :=
  match s.heap[ref]? with
  | some sess => sess.locked
  | none => false

def Manager.known (s : Manager) (uuid : ℕ) : Bool :=
  s.heap.any (fun sess => sess.threads.contains uuid) || holds uuid s.threadMap ||
    (s.undoManagers.lookup uuid).isSome

def Manager.addSession (s : Manager) (user : String) : Manager :=
  { s with
    heap := s.heap++[⟨user, [], s.now, false⟩]
    sessions := s.sessions.insert user s.heap.length }

def Manager.addThread (s : Manager) (ref thread : ℕ) : Manager :=
  { s with heap := s.heap.modify ref (fun sess =>
      { sess with threads := thread::sess.threads, lastActiveAt := s.now }) }

def Manager.touch (s : Manager) (ref : ℕ) : Manager :=
  { s with heap := s.heap.modify ref (fun sess => { sess with lastActiveAt := s.now }) }

def Manager.setLock (s : Manager) (ref : ℕ) (locked : Bool) : Manager :=
  { s with heap := s.heap.modify ref (fun sess => { sess with locked := locked }) }

def Manager.map (s : Manager) (key : Key) (thread : ℕ) : Manager :=
  { s with threadMap := s.threadMap.insert key thread }

def Manager.insertUndo (s : Manager) (thread : ℕ) : Manager :=
  { s with
    undoManagers := s.undoManagers.insert thread s.managers
    managers := s.managers+1 }

def Manager.ensureUndo (s : Manager) (thread : ℕ) : Manager :=
  match s.undoManagers.lookup thread with
  | some _ => s
  | none => s.insertUndo thread

def Manager.ensureSession (s : Manager) (user : String) (ref : ℕ) : Manager :=
  match s.sessions.lookup user with
  | some _ => s
  | none => { s with sessions := s.sessions.insert user ref }

def Manager.note (s : Manager) (ref : ℕ) : Manager :=
  { s with activity := s.activity++[(ref, s.now)] }

def Manager.resolve (s : Manager) (i : ℕ) (key : Key) (ref thread : ℕ) : Manager :=
  (s.note ref).at i (.resolved key ref thread)

/-- `as i64`, which takes the upper half of the range for negative numbers. -/
def asI64 (n : UInt64) : ℤ :=
  if n.toNat < 0x8000000000000000 then n.toNat else (n.toNat : ℤ)-0x10000000000000000

/-- `TimeDelta::seconds`, which panics beyond `i64::MAX` milliseconds. -/
def timeDeltaSeconds (secs : ℤ) : Option ℤ :=
  if -9223372036854775 ≤ secs ∧ secs ≤ 9223372036854775 then some (secs*1000000000) else none

/-- `DateTime::MIN_UTC`. -/
def minUtc : ℤ := -8334601228800000000000

/-- `DateTime::MAX_UTC`. -/
def maxUtc : ℤ := 8210266876799999999999

def pruneCutoff (now : ℕ) (maxIdle : Duration) : Option ℤ :=
  (timeDeltaSeconds (asI64 maxIdle.secs)).bind (fun delta =>
    if minUtc ≤ now-delta ∧ now-delta ≤ maxUtc then some (now-delta) else none)

def Manager.isStale (s : Manager) (cutoff : ℤ) (ref : ℕ) : Bool :=
  match s.heap[ref]? with
  | some sess => !sess.locked && sess.lastActiveAt < cutoff
  | none => false

def Manager.staleUsers (s : Manager) (cutoff : ℤ) : List String :=
  (s.sessions.entries.filter (fun e => s.isStale cutoff e.2)).map Sigma.fst

def Manager.threadsOf (s : Manager) (user : String) : List ℕ :=
  match s.sessions.lookup user with
  | some ref =>
    match s.heap[ref]? with
    | some sess => if sess.locked then [] else sess.threads
    | none => []
  | none => []

def Manager.staleThreads (s : Manager) (users : List String) : List ℕ := users.flatMap s.threadsOf

def Manager.removeSessions (s : Manager) (users : List String) : Manager :=
  { s with sessions := retain (fun user => !users.contains user) s.sessions }

def Manager.unmap (s : Manager) (users : List String) : Manager :=
  { s with threadMap := retain (fun key => !users.contains key.user) s.threadMap }

def Manager.forget (s : Manager) (threads : List ℕ) : Manager :=
  { s with undoManagers := retain (fun thread => !threads.contains thread) s.undoManagers }

/-- What a call of `get_or_create_session` goes on with. -/
def afterSession (user : String) (key : Option Key) (ref : ℕ) : Pc :=
  match key with
  | some key => .looking key ref
  | none => .opened user ref

def Pc.afterStale (maxIdle : Duration) (cutoff : ℤ) : List String → Pc
  | [] => .pruned []
  | users => .collecting maxIdle cutoff users

def Pc.beginPruning (maxIdle : Duration) : Option ℤ → Pc
  | some cutoff => .pruning maxIdle cutoff
  | none => .panicked

section

variable (uuids : Uuids)

/-- Where `resolve_thread` goes on when the key leads to no thread. -/
def afterLookup (key : Key) (ref : ℕ) : Pc :=
  match key.external.bind uuids.parse with
  | some uuid => .scanning key ref uuid
  | none => .creating key ref

def advance (i fresh : ℕ) (s : Manager) : Manager :=
  match s.pcs i with
  | .opening user key =>
    match s.sessions.lookup user with
    | some ref => s.at i (afterSession user key ref)
    | none => s.at i (.adding user key)
  | .adding user key =>
    match s.sessions.lookup user with
    | some ref => s.at i (afterSession user key ref)
    | none => (s.addSession user).at i (afterSession user key s.heap.length)
  | .looking key ref =>
    match s.threadMap.lookup key with
    | some thread =>
      if s.locked ref then s
      else if s.contains ref thread then s.resolve i key ref thread
      else s.at i (afterLookup uuids key ref)
    | none => s.at i (afterLookup uuids key ref)
  | .scanning key ref uuid =>
    s.at i (if holds uuid s.threadMap then .creating key ref else .probing key ref uuid)
  | .probing key ref uuid =>
    if s.locked ref then s
    else s.at i (if s.contains ref uuid then .claiming key ref uuid else .creating key ref)
  | .claiming key ref uuid =>
    if holds uuid s.threadMap then s.at i (.creating key ref)
    else (s.map key uuid).at i (.adopted key ref uuid)
  | .adopted key ref uuid => (s.ensureUndo uuid).resolve i key ref uuid
  | .creating key ref =>
    if s.locked ref || s.known fresh then s
    else (s.addThread ref fresh).at i (.mapping key ref fresh)
  | .mapping key ref thread => (s.map key thread).at i (.undoing key ref thread)
  | .undoing key ref thread => (s.insertUndo thread).resolve i key ref thread
  | .registering key thread ref => (s.map key thread).at i (.keeping key thread ref)
  | .keeping key thread ref => (s.ensureUndo thread).at i (.tracking key thread ref)
  | .tracking key thread ref => (s.ensureSession key.user ref).at i (.registered key thread)
  | .fetching thread =>
    match s.undoManagers.lookup thread with
    | some manager => s.at i (.fetched thread manager)
    | none => s.at i (.making thread)
  | .making thread =>
    match s.undoManagers.lookup thread with
    | some manager => s.at i (.fetched thread manager)
    | none => (s.insertUndo thread).at i (.fetched thread s.managers)
  | .pruning maxIdle cutoff => s.at i (Pc.afterStale maxIdle cutoff (s.staleUsers cutoff))
  | .collecting maxIdle cutoff users =>
    s.at i (.removing maxIdle cutoff users (s.staleThreads users))
  | .removing _ _ users threads =>
    (s.removeSessions users).at i
      (.unmapping users (users.filterMap (fun user => s.sessions.lookup user)) threads)
  | .unmapping users refs threads => (s.unmap users).at i (.forgetting users refs threads)
  | .forgetting _ refs threads => (s.forget threads).at i (.pruned refs)
  | _ => s

def begin (i : ℕ) (pc : Pc) (s : Manager) : Manager :=
  match s.pcs i with
  | .idle => s.at i pc
  | _ => s

def step : Label → Manager → Manager
  | .pass time, s => { s with now := s.now+time }
  | .getOrCreateSession i user, s => begin i (.opening user none) s
  | .resolveThread i key, s => begin i (.opening key.user (some key)) s
  | .registerThread i user channel thread ref, s =>
    begin i (.registering ⟨user, channel, some (uuids.print thread)⟩ thread ref) s
  | .getUndoManager i thread, s => begin i (.fetching thread) s
  | .pruneStaleSessions i maxIdle, s =>
    begin i (Pc.beginPruning maxIdle (pruneCutoff s.now maxIdle)) { s with prunes := i::s.prunes }
  | .go i fresh, s => advance uuids i fresh s
  | .createThread ref fresh, s =>
    if s.locked ref || s.known fresh then s else s.addThread ref fresh
  | .hydrate ref thread, s => if s.locked ref then s else s.addThread ref thread
  | .switchThread ref thread, s =>
    if !s.locked ref && s.contains ref thread then s.touch ref else s
  | .turn ref thread, s => if !s.locked ref && s.contains ref thread then s.note ref else s
  | .lock ref, s => if s.locked ref then s else s.setLock ref true
  | .unlock ref, s => s.setLock ref false

end

def Has (s : Manager) (ref thread : ℕ) : Prop :=
  ∃ sess, s.heap[ref]? = some sess ∧ thread ∈ sess.threads

def Owns (s : Manager) (user : String) (ref : ℕ) : Prop :=
  ∃ sess, s.heap[ref]? = some sess ∧ sess.user = user

def owned (s : Manager) (user : String) (ref : ℕ) : Bool :=
  match s.heap[ref]? with
  | some sess => sess.user = user
  | none => false

def ownThread (s : Manager) (ref thread : ℕ) : Bool :=
  match s.heap[ref]? with
  | some sess => s.heap.all (fun other => !other.threads.contains thread || other.user = sess.user)
  | none => true

variable (s : Manager)

theorem at_pcs (i j : ℕ) (pc : Pc) :
    (s.at i pc).pcs j = if j = i then pc else s.pcs j :=
  Function.update_apply s.pcs i pc j

theorem mem_modify (heap : List Session) (ref : ℕ) (f : Session → Session) (x : Session)
    (h : x ∈ heap.modify ref f) :
    (∃ sess, heap[ref]? = some sess ∧ x = f sess) ∨ x ∈ heap := by
  obtain ⟨j, hj⟩ := List.mem_iff_getElem?.mp h
  rw [List.getElem?_modify] at hj
  by_cases hrj : ref = j
  · subst hrj
    simp only [if_true, Option.map_eq_some_iff, Option.map_eq_map] at hj
    obtain ⟨sess, hsess, rfl⟩ := hj
    exact .inl ⟨sess, hsess, rfl⟩
  · simp only [hrj, if_false, Option.map_eq_map, Option.map_id'] at hj
    exact .inr (List.mem_of_getElem? hj)

theorem fresh_own (fresh : ℕ) (hfresh : s.known fresh = false) :
    ∀ other ∈ s.heap, fresh ∉ other.threads := by
  intro other hother hmem
  have hany : s.heap.any (fun sess => sess.threads.contains fresh) = true :=
    List.any_eq_true.mpr ⟨other, hother, List.contains_iff_mem.mpr hmem⟩
  rw [Manager.known, hany] at hfresh
  cases hfresh

theorem has_of_contains (ref thread : ℕ) (h : s.contains ref thread = true) :
    Has s ref thread := by
  unfold Manager.contains at h
  split at h
  · rename_i sess hsess
    exact ⟨sess, hsess, List.contains_iff_mem.mp h⟩
  · cases h

structure Ownership (s : Manager) : Prop where
  owners : ∀ user ref, s.sessions.lookup user = some ref → Owns s user ref
  apart : ∀ sess ∈ s.heap, ∀ other ∈ s.heap, ∀ thread ∈ sess.threads, thread ∈ other.threads →
    sess.user = other.user

theorem Ownership.of_eq {s t : Manager} (h : Ownership s) (hheap : t.heap = s.heap)
    (hsessions : t.sessions = s.sessions) : Ownership t := by
  constructor
  · unfold Owns
    rw [hheap, hsessions]
    exact h.owners
  · rw [hheap]
    exact h.apart

theorem owns_unique (user user' : String) (ref : ℕ) (h : Owns s user ref) (h' : Owns s user' ref) :
    user = user' := by
  obtain ⟨sess, hsess, huser⟩ := h
  obtain ⟨sess', hsess', huser'⟩ := h'
  rw [hsess] at hsess'
  rw [← huser, ← huser', Option.some.inj hsess']

theorem owns_of_owned (user : String) (ref : ℕ) (h : owned s user ref = true) :
    Owns s user ref := by
  unfold owned at h
  split at h
  · rename_i sess hsess
    exact ⟨sess, hsess, of_decide_eq_true h⟩
  · cases h

theorem ownThread_mem (ref thread : ℕ) (h : ownThread s ref thread = true) (sess : Session)
    (hsess : s.heap[ref]? = some sess) :
    ∀ other ∈ s.heap, thread ∈ other.threads → other.user = sess.user := by
  intro other hother hmem
  simp only [ownThread, hsess, List.all_eq_true] at h
  have hown := h other hother
  simpa [hmem] using hown

section

variable (s : Manager) (ref : ℕ) (f : Session → Session)

theorem modify_place (r : ℕ) (sess : Session) (h : s.heap[r]? = some sess) :
    (s.heap.modify ref f)[r]? = some (if ref = r then f sess else sess) := by
  rw [List.getElem?_modify, h]
  by_cases hr : ref = r <;> simp [hr]

theorem modify_owns (huser : ∀ sess, (f sess).user = sess.user) (user : String) (r : ℕ)
    (h : Owns s user r) : Owns { s with heap := s.heap.modify ref f } user r := by
  obtain ⟨sess, hr, hu⟩ := h
  refine ⟨_, modify_place s ref f r sess hr, ?_⟩
  split
  · rw [huser, hu]
  · exact hu

theorem modify_has (hthreads : ∀ sess, ∀ thread ∈ sess.threads, thread ∈ (f sess).threads)
    (r thread : ℕ) (h : Has s r thread) : Has { s with heap := s.heap.modify ref f } r thread := by
  obtain ⟨sess, hr, ht⟩ := h
  refine ⟨_, modify_place s ref f r sess hr, ?_⟩
  split
  · exact hthreads sess thread ht
  · exact ht

/-- A change of a session that leaves its user and its threads. -/
theorem modify_ownership (h : Ownership s) (huser : ∀ sess, (f sess).user = sess.user)
    (hthreads : ∀ sess, (f sess).threads = sess.threads) :
    Ownership { s with heap := s.heap.modify ref f } := by
  have hold : ∀ x ∈ s.heap.modify ref f, ∃ y ∈ s.heap, x.user = y.user ∧ x.threads = y.threads := by
    intro x hx
    rcases mem_modify s.heap ref f x hx with ⟨sess, hsess, rfl⟩ | hx
    · exact ⟨sess, List.mem_of_getElem? hsess, huser sess, hthreads sess⟩
    · exact ⟨x, hx, rfl, rfl⟩
  refine ⟨fun user r hr => modify_owns s ref f huser user r (h.owners user r hr), ?_⟩
  intro x hx y hy thread htx hty
  obtain ⟨x', hx', hux, hthx⟩ := hold x hx
  obtain ⟨y', hy', huy, hthy⟩ := hold y hy
  rw [hux, huy]
  exact h.apart x' hx' y' hy' thread (hthx ▸ htx) (hthy ▸ hty)

theorem addThread_owns (thread : ℕ) (user : String) (r : ℕ) (h : Owns s user r) :
    Owns (s.addThread ref thread) user r := by
  apply modify_owns s ref _ _ user r h
  exact fun _ => rfl

theorem addThread_has (thread r t : ℕ) (h : Has s r t) : Has (s.addThread ref thread) r t := by
  apply modify_has s ref _ _ r t h
  exact fun _ _ ht => List.mem_cons_of_mem _ ht

theorem addThread_new (thread : ℕ) (user : String) (h : Owns s user ref) :
    Has (s.addThread ref thread) ref thread := by
  obtain ⟨sess, hsess, _⟩ := h
  refine ⟨_, modify_place s ref _ ref sess hsess, ?_⟩
  rw [if_pos rfl]
  exact List.mem_cons_self

theorem addThread_ownership (thread : ℕ) (h : Ownership s)
    (hown : ∀ sess, s.heap[ref]? = some sess → ∀ other ∈ s.heap, thread ∈ other.threads →
      other.user = sess.user) : Ownership (s.addThread ref thread) := by
  have hold : ∀ x ∈ (s.addThread ref thread).heap, ∃ y ∈ s.heap, x.user = y.user ∧
      ∀ t ∈ x.threads, t ∈ y.threads ∨ (t = thread ∧ s.heap[ref]? = some y) := by
    intro x hx
    rcases mem_modify s.heap ref _ x hx with ⟨sess, hsess, rfl⟩ | hx
    · refine ⟨sess, List.mem_of_getElem? hsess, rfl, fun t ht => ?_⟩
      rcases List.mem_cons.mp ht with heq | ht
      · exact .inr ⟨heq, hsess⟩
      · exact .inl ht
    · exact ⟨x, hx, rfl, fun t ht => .inl ht⟩
  refine ⟨fun user r hr => addThread_owns s ref thread user r (h.owners user r hr), ?_⟩
  intro x hx y hy t htx hty
  obtain ⟨x', hx', hux, hthx⟩ := hold x hx
  obtain ⟨y', hy', huy, hthy⟩ := hold y hy
  rw [hux, huy]
  rcases hthx t htx with hx1 | ⟨rfl, hx1⟩
  · rcases hthy t hty with hy1 | ⟨rfl, hy1⟩
    · exact h.apart x' hx' y' hy' t hx1 hy1
    · exact hown y' hy1 x' hx' hx1
  · rcases hthy t hty with hy1 | ⟨_, hy1⟩
    · exact (hown x' hx1 y' hy' hy1).symm
    · rw [hx1] at hy1
      rw [Option.some.inj hy1]

end

section

variable (s : Manager) (user : String)

theorem addSession_place (r : ℕ) (sess : Session) (h : s.heap[r]? = some sess) :
    (s.addSession user).heap[r]? = some sess := by
  show (s.heap++[_])[r]? = _
  rw [List.getElem?_append_left (List.getElem?_eq_some_iff.mp h).1]
  exact h

theorem addSession_owns (u : String) (r : ℕ) (h : Owns s u r) : Owns (s.addSession user) u r := by
  obtain ⟨sess, hr, hu⟩ := h
  exact ⟨sess, addSession_place s user r sess hr, hu⟩

theorem addSession_has (r thread : ℕ) (h : Has s r thread) : Has (s.addSession user) r thread := by
  obtain ⟨sess, hr, ht⟩ := h
  exact ⟨sess, addSession_place s user r sess hr, ht⟩

theorem addSession_new : Owns (s.addSession user) user s.heap.length :=
  ⟨⟨user, [], s.now, false⟩, List.getElem?_concat_length, rfl⟩

theorem addSession_ownership (h : Ownership s) : Ownership (s.addSession user) := by
  constructor
  · intro u r hr
    by_cases hu : u = user
    · subst hu
      have hr' : some s.heap.length = some r := by
        rw [← hr]
        exact (AList.lookup_insert s.sessions).symm
      rw [← Option.some.inj hr']
      exact addSession_new s u
    · have hold : s.sessions.lookup u = some r := by
        rw [← hr]
        exact (AList.lookup_insert_ne hu).symm
      exact addSession_owns s user u r (h.owners u r hold)
  · intro x hx y hy thread htx hty
    rcases List.mem_append.mp hx with hx | hx
    · rcases List.mem_append.mp hy with hy | hy
      · exact h.apart x hx y hy thread htx hty
      · rw [List.mem_singleton.mp hy] at hty
        cases hty
    · rw [List.mem_singleton.mp hx] at htx
      cases htx

theorem ensureSession_ownership (ref : ℕ) (h : Ownership s) (howns : Owns s user ref) :
    Ownership (s.ensureSession user ref) := by
  unfold Manager.ensureSession
  split
  · exact h
  · refine ⟨?_, h.apart⟩
    intro u r hr
    by_cases hu : u = user
    · subst hu
      have hr' : some ref = some r := by
        rw [← hr]
        exact (AList.lookup_insert s.sessions).symm
      rw [← Option.some.inj hr']
      exact howns
    · have hold : s.sessions.lookup u = some r := by
        rw [← hr]
        exact (AList.lookup_insert_ne hu).symm
      exact h.owners u r hold

end

theorem ensureUndo_pcs (thread : ℕ) : (s.ensureUndo thread).pcs = s.pcs := by
  unfold Manager.ensureUndo
  split <;> rfl

theorem ensureSession_pcs (user : String) (ref : ℕ) :
    (s.ensureSession user ref).pcs = s.pcs := by
  unfold Manager.ensureSession
  split <;> rfl

end IronClaw.SessionManager
