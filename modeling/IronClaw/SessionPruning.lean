import IronClaw.SessionManager

/-!
# Pruning of stale sessions

A session is taken for stale by its `last_active_at`, which thread creation,
hydration and thread switching refresh; a message that finds its thread in the
map and the events of turns do not. The removal goes lock by lock: the scan,
the collection of threads, and the three tables. It spares live conversations
in runs in which the scan finds every recent activity in `last_active_at` and
no call or turn of a user comes between the scan that found the user and the
end of that pruning.
-/

set_option autoImplicit false

namespace IronClaw.SessionPruning
open IronClaw.SessionManager Lib.Entries Lib.Runs

def Pc.stale : Pc → List String
  | .collecting _ _ users => users
  | .removing _ _ users _ => users
  | .unmapping users _ _ => users
  | .forgetting users _ _ => users
  | _ => []

section

variable (uuids : Uuids)

structure Spares (l : Label) (s : Manager) : Prop where
  removed : ∀ user ref, s.sessions.lookup user = some ref →
    (step uuids l s).sessions.lookup user ≠ some ref →
    ∃ i fresh maxIdle cutoff users threads, l = .go i fresh ∧
      s.pcs i = .removing maxIdle cutoff users threads ∧
      ∀ time, (ref, time) ∈ s.activity → time+maxIdle.asNanos < s.now
  cleaned : ∀ i fresh users refs threads, l = .go i fresh →
    s.pcs i = .forgetting users refs threads →
    (∀ key, key.user ∈ users → (step uuids l s).threadMap.lookup key = none) ∧
      ∀ ref ∈ refs, ∀ thread, Has s ref thread →
        (step uuids l s).undoManagers.lookup thread = none
  others : ∀ i fresh, l = .go i fresh → Pc.stale (s.pcs i) ≠ [] →
    ∀ user ∉ Pc.stale (s.pcs i),
      (step uuids l s).sessions.lookup user = s.sessions.lookup user ∧
      (∀ key, key.user = user →
        (step uuids l s).threadMap.lookup key = s.threadMap.lookup key) ∧
      ∀ ref thread, Owns s user ref → Has s ref thread →
        (step uuids l s).undoManagers.lookup thread = s.undoManagers.lookup thread

def quiet (s : Manager) (users : List String) : Bool :=
  s.prunes.all (fun j => (Pc.stale (s.pcs j)).all (fun user => !users.contains user))

def Pc.writer : Pc → List String
  | .adding user _ => [user]
  | .looking key _ => [key.user]
  | .claiming key _ _ => [key.user]
  | .adopted key _ _ => [key.user]
  | .creating key _ => [key.user]
  | .mapping key _ _ => [key.user]
  | .undoing key _ _ => [key.user]
  | .registering key _ _ => [key.user]
  | .tracking key _ _ => [key.user]
  | _ => []

def owner (s : Manager) (ref : ℕ) : List String :=
  match s.heap[ref]? with
  | some sess => [sess.user]
  | none => []

def recorded (s : Manager) (cutoff : ℤ) : Bool :=
  s.sessions.entries.all (fun e => !s.isStale cutoff e.2 ||
    s.activity.all (fun a => a.1 ≠ e.2 || a.2 < cutoff))

def unlocked (s : Manager) (users : List String) : Bool :=
  users.all (fun user =>
    match s.sessions.lookup user with
    | some ref => !s.locked ref
    | none => true)

def calm (s : Manager) : Pc → Bool
  | .pruning _ cutoff => recorded s cutoff
  | .collecting _ _ users => unlocked s users
  | .tracking key _ ref => owned s key.user ref && quiet s [key.user]
  | pc => quiet s (Pc.writer pc)

def wholeSeconds (now : ℕ) (maxIdle : Duration) : Bool :=
  maxIdle.nanos = 0 && (maxIdle.secs.toNat < 0x8000000000000000 ||
    maxUtc < now+(0x10000000000000000-(maxIdle.secs.toNat : ℤ))*1000000000)

def orderly : Label → Manager → Bool
  | .go i _, s => calm s (s.pcs i)
  | .createThread ref _, s => quiet s (owner s ref)
  | .hydrate ref thread, s => ownThread s ref thread && quiet s (owner s ref)
  | .turn ref _, s => quiet s (owner s ref)
  | .pruneStaleSessions _ maxIdle, s => wholeSeconds s.now maxIdle
  | _, _ => true

def Unused (s : Manager) (cutoff : ℤ) (users : List String) : Prop :=
  ∀ user ∈ users, ∀ ref, s.sessions.lookup user = some ref →
    ∀ time, (ref, time) ∈ s.activity → time < cutoff

def Collected (s : Manager) (users : List String) (threads : List ℕ) : Prop :=
  ∀ user ∈ users, ∀ ref, s.sessions.lookup user = some ref →
    ∀ thread, Has s ref thread → thread ∈ threads

def Covered (s : Manager) (users : List String) (refs threads : List ℕ) : Prop :=
  ∀ ref ∈ refs, (∃ user ∈ users, Owns s user ref) ∧ ∀ thread, Has s ref thread → thread ∈ threads

def From (s : Manager) (users : List String) (threads : List ℕ) : Prop :=
  ∀ thread ∈ threads, ∃ user ∈ users, ∃ ref, Owns s user ref ∧ Has s ref thread

def Unmapped (s : Manager) (users : List String) : Prop :=
  ∀ key, key.user ∈ users → s.threadMap.lookup key = none

def Pc.prunes : Pc → Bool
  | .pruning _ _ => true
  | .collecting _ _ _ => true
  | .removing _ _ _ _ => true
  | .unmapping _ _ _ => true
  | .forgetting _ _ _ => true
  | _ => false

def Facts (s : Manager) : Pc → Prop
  | .opening user key => ∀ k, key = some k → k.user = user
  | .adding user key => ∀ k, key = some k → k.user = user
  | .looking key ref => Owns s key.user ref
  | .scanning key ref _ => Owns s key.user ref
  | .probing key ref _ => Owns s key.user ref
  | .claiming key ref _ => Owns s key.user ref
  | .adopted key ref _ => Owns s key.user ref
  | .creating key ref => Owns s key.user ref
  | .mapping key ref _ => Owns s key.user ref
  | .undoing key ref _ => Owns s key.user ref
  | .pruning maxIdle cutoff => cutoff ≤ (s.now : ℤ)-maxIdle.asNanos
  | .collecting maxIdle cutoff users => cutoff ≤ (s.now : ℤ)-maxIdle.asNanos ∧ Unused s cutoff users
  | .removing maxIdle cutoff users threads =>
    cutoff ≤ (s.now : ℤ)-maxIdle.asNanos ∧ Unused s cutoff users ∧ Collected s users threads ∧
      From s users threads
  | .unmapping users refs threads => Covered s users refs threads ∧ From s users threads
  | .forgetting users refs threads =>
    Covered s users refs threads ∧ From s users threads ∧ Unmapped s users
  | _ => True

structure Inv (s : Manager) : Prop where
  ownership : Ownership s
  calls : ∀ i, Facts s (s.pcs i)
  listed : ∀ i, Pc.prunes (s.pcs i) = true → i ∈ s.prunes

structure Away (users : List String) (s t : Manager) : Prop where
  now : s.now ≤ t.now
  owns : ∀ user ref, Owns s user ref → Owns t user ref
  has : ∀ ref thread, Has s ref thread → Has t ref thread
  sessions : ∀ user ∈ users, ∀ ref, t.sessions.lookup user = some ref →
    s.sessions.lookup user = some ref
  threads : ∀ user ∈ users, ∀ ref thread, Owns s user ref → Has t ref thread → Has s ref thread
  activity : ∀ user ∈ users, ∀ ref time, Owns s user ref → (ref, time) ∈ t.activity →
    (ref, time) ∈ s.activity
  entries : ∀ key, key.user ∈ users → s.threadMap.lookup key = none →
    t.threadMap.lookup key = none

section

variable {s t : Manager} {users : List String} (haway : Away users s t)

include haway

theorem unused_away (cutoff : ℤ) (hown : Ownership s) (h : Unused s cutoff users) :
    Unused t cutoff users := by
  intro user huser ref href time htime
  have hold := haway.sessions user huser ref href
  exact h user huser ref hold time
    (haway.activity user huser ref time (hown.owners user ref hold) htime)

theorem collected_away (threads : List ℕ) (hown : Ownership s) (h : Collected s users threads) :
    Collected t users threads := by
  intro user huser ref href thread hthread
  have hold := haway.sessions user huser ref href
  exact h user huser ref hold thread
    (haway.threads user huser ref thread (hown.owners user ref hold) hthread)

theorem covered_away (refs threads : List ℕ) (h : Covered s users refs threads) :
    Covered t users refs threads := by
  intro ref href
  obtain ⟨⟨user, huser, howns⟩, hall⟩ := h ref href
  exact ⟨⟨user, huser, haway.owns user ref howns⟩,
    fun thread hthread => hall thread (haway.threads user huser ref thread howns hthread)⟩

theorem from_away (threads : List ℕ) (h : From s users threads) : From t users threads := by
  intro thread hthread
  obtain ⟨user, huser, ref, howns, hhas⟩ := h thread hthread
  exact ⟨user, huser, ref, haway.owns user ref howns, haway.has ref thread hhas⟩

theorem unmapped_away (h : Unmapped s users) : Unmapped t users :=
  fun key hkey => haway.entries key hkey (h key hkey)

end

theorem facts_away (s t : Manager) (pc : Pc) (haway : Away (Pc.stale pc) s t) (hown : Ownership s)
    (h : Facts s pc) : Facts t pc := by
  have hnow := haway.now
  cases pc with
  | looking key ref => exact haway.owns _ _ h
  | scanning key ref uuid => exact haway.owns _ _ h
  | probing key ref uuid => exact haway.owns _ _ h
  | claiming key ref uuid => exact haway.owns _ _ h
  | adopted key ref uuid => exact haway.owns _ _ h
  | creating key ref => exact haway.owns _ _ h
  | mapping key ref thread => exact haway.owns _ _ h
  | undoing key ref thread => exact haway.owns _ _ h
  | pruning maxIdle cutoff =>
    have hcut : cutoff ≤ (s.now : ℤ)-maxIdle.asNanos := h
    show cutoff ≤ (t.now : ℤ)-maxIdle.asNanos
    omega
  | collecting maxIdle cutoff users =>
    obtain ⟨hcut, hunused⟩ := h
    exact ⟨by omega, unused_away haway cutoff hown hunused⟩
  | removing maxIdle cutoff users threads =>
    obtain ⟨hcut, hunused, hcollected, hfrom⟩ := h
    exact ⟨by omega, unused_away haway cutoff hown hunused,
      collected_away haway threads hown hcollected, from_away haway threads hfrom⟩
  | unmapping users refs threads =>
    exact ⟨covered_away haway refs threads h.1, from_away haway threads h.2⟩
  | forgetting users refs threads =>
    exact ⟨covered_away haway refs threads h.1, from_away haway threads h.2.1,
      unmapped_away haway h.2.2⟩
  | _ => exact h

section

variable (users : List String) (s : Manager)

/-- Time passes and undo managers come and go. -/
theorem same_away (t : Manager) (hnow : s.now ≤ t.now) (hheap : t.heap = s.heap)
    (hsessions : t.sessions = s.sessions) (hactivity : t.activity = s.activity)
    (hmap : t.threadMap = s.threadMap) : Away users s t := by
  have howns : ∀ user ref, Owns s user ref → Owns t user ref := by
    unfold Owns
    rw [hheap]
    exact fun _ _ h => h
  have hhas : ∀ ref thread, Has t ref thread ↔ Has s ref thread := by
    unfold Has
    rw [hheap]
    exact fun _ _ => Iff.rfl
  refine ⟨hnow, howns, fun ref thread h => (hhas ref thread).mpr h, ?_,
    fun _ _ ref thread _ h => (hhas ref thread).mp h, ?_, ?_⟩
  · rw [hsessions]
    exact fun _ _ _ h => h
  · rw [hactivity]
    exact fun _ _ _ _ _ h => h
  · rw [hmap]
    exact fun _ _ h => h

theorem note_away (ref : ℕ) (hnot : ∀ user ∈ users, ¬ Owns s user ref) :
    Away users s (s.note ref) := by
  refine ⟨Nat.le_refl _, fun _ _ h => h, fun _ _ h => h, fun _ _ _ h => h, fun _ _ _ _ _ h => h, ?_,
    fun _ _ h => h⟩
  intro user huser r time howns htime
  rcases List.mem_append.mp htime with hold | hnew
  · exact hold
  · have heq := List.mem_singleton.mp hnew
    rw [(Prod.mk.inj heq).1] at howns
    exact absurd howns (hnot user huser)

theorem map_away (key : Key) (thread : ℕ) (hnot : key.user ∉ users) :
    Away users s (s.map key thread) := by
  refine ⟨Nat.le_refl _, fun _ _ h => h, fun _ _ h => h, fun _ _ _ h => h, fun _ _ _ _ _ h => h,
    fun _ _ _ _ _ h => h, ?_⟩
  intro k hk hnone
  have hne : k ≠ key := fun heq => hnot (heq ▸ hk)
  show (s.threadMap.insert key thread).lookup k = none
  rw [AList.lookup_insert_ne hne]
  exact hnone

theorem modify_away (ref : ℕ) (f : Session → Session)
    (huser : ∀ sess, (f sess).user = sess.user)
    (hthreads : ∀ sess, (f sess).threads = sess.threads) :
    Away users s { s with heap := s.heap.modify ref f } := by
  refine ⟨Nat.le_refl _, modify_owns s ref f huser, ?_, fun _ _ _ h => h, ?_,
    fun _ _ _ _ _ h => h, fun _ _ h => h⟩
  · apply modify_has s ref f
    intro sess thread ht
    rw [hthreads]
    exact ht
  · intro user _ r thread ⟨sess, hsess, _⟩ ⟨x, hx, ht⟩
    have hplace := modify_place s ref f r sess hsess
    rw [hplace] at hx
    refine ⟨sess, hsess, ?_⟩
    rw [← Option.some.inj hx] at ht
    split at ht
    · rw [hthreads] at ht
      exact ht
    · exact ht

theorem addThread_away (ref thread : ℕ) (hnot : ∀ user ∈ users, ¬ Owns s user ref) :
    Away users s (s.addThread ref thread) := by
  refine ⟨Nat.le_refl _, addThread_owns s ref thread, addThread_has s ref thread,
    fun _ _ _ h => h, ?_, fun _ _ _ _ _ h => h, fun _ _ h => h⟩
  intro user huser r t howns ⟨x, hx, ht⟩
  have hne : ref ≠ r := by
    intro heq
    rw [← heq] at howns
    exact hnot user huser howns
  obtain ⟨sess, hsess, _⟩ := howns
  have hplace := modify_place s ref (fun sess =>
    { sess with threads := thread::sess.threads, lastActiveAt := s.now }) r sess hsess
  rw [if_neg hne] at hplace
  have hx : (s.heap.modify ref _)[r]? = some x := hx
  rw [hplace] at hx
  rw [← Option.some.inj hx] at ht
  exact ⟨sess, hsess, ht⟩

theorem addSession_away (user : String) (hnot : user ∉ users) :
    Away users s (s.addSession user) := by
  refine ⟨Nat.le_refl _, addSession_owns s user, addSession_has s user, ?_, ?_,
    fun _ _ _ _ _ h => h, fun _ _ h => h⟩
  · intro u hu ref href
    have hne : u ≠ user := fun heq => hnot (heq ▸ hu)
    rw [← href]
    exact (AList.lookup_insert_ne hne).symm
  · intro u _ ref thread ⟨sess, hsess, _⟩ ⟨x, hx, ht⟩
    rw [addSession_place s user ref sess hsess] at hx
    rw [← Option.some.inj hx] at ht
    exact ⟨sess, hsess, ht⟩

theorem ensureSession_away (user : String) (ref : ℕ) (hnot : user ∉ users) :
    Away users s (s.ensureSession user ref) := by
  unfold Manager.ensureSession
  split
  · exact same_away users s s (Nat.le_refl _) rfl rfl rfl rfl
  · refine ⟨Nat.le_refl _, fun _ _ h => h, fun _ _ h => h, ?_, fun _ _ _ _ _ h => h,
      fun _ _ _ _ _ h => h, fun _ _ h => h⟩
    intro u hu r hr
    have hne : u ≠ user := fun heq => hnot (heq ▸ hu)
    rw [← hr]
    exact (AList.lookup_insert_ne hne).symm

theorem insertUndo_away (thread : ℕ) : Away users s (s.insertUndo thread) :=
  same_away users s _ (Nat.le_refl _) rfl rfl rfl rfl

theorem ensureUndo_away (thread : ℕ) : Away users s (s.ensureUndo thread) := by
  unfold Manager.ensureUndo
  split
  · exact same_away users s s (Nat.le_refl _) rfl rfl rfl rfl
  · exact insertUndo_away users s thread

theorem removeSessions_away (gone : List String) : Away users s (s.removeSessions gone) := by
  refine ⟨Nat.le_refl _, fun _ _ h => h, fun _ _ h => h, ?_, fun _ _ _ _ _ h => h,
    fun _ _ _ _ _ h => h, fun _ _ h => h⟩
  intro user _ ref href
  have href : (retain (fun user => !gone.contains user) s.sessions).lookup user = some ref := href
  rw [lookup_retain] at href
  split at href
  · exact href
  · cases href

theorem unmap_away (gone : List String) : Away users s (s.unmap gone) := by
  refine ⟨Nat.le_refl _, fun _ _ h => h, fun _ _ h => h, fun _ _ _ h => h, fun _ _ _ _ _ h => h,
    fun _ _ _ _ _ h => h, ?_⟩
  intro key _ hnone
  show (retain _ s.threadMap).lookup key = none
  rw [lookup_retain, hnone]
  split <;> rfl

end

variable (s : Manager) (users : List String) (i fresh : ℕ) (user : String) (thread : ℕ)

theorem quiet_clear (h : Inv s) (hquiet : quiet s users = true) (j : ℕ) (user : String)
    (huser : user ∈ users) : user ∉ Pc.stale (s.pcs j) := by
  intro hstale
  have hprunes : Pc.prunes (s.pcs j) = true := by
    cases hpc : s.pcs j <;> rw [hpc] at hstale <;> first | rfl | cases hstale
  have hall := List.all_eq_true.mp hquiet j (h.listed j hprunes)
  have hnot := List.all_eq_true.mp hall user hstale
  simp [huser] at hnot

theorem not_owns (ref : ℕ) (hnot : user ∉ users) (howns : Owns s user ref) :
    ∀ u ∈ users, ¬ Owns s u ref := by
  intro u hu hother
  rw [owns_unique s u user ref hother howns] at hu
  exact hnot hu

theorem data_inv (s t : Manager) (h : Inv s) (hown : Ownership t) (hpcs : t.pcs = s.pcs)
    (hprunes : t.prunes = s.prunes) (haway : ∀ j, Away (Pc.stale (s.pcs j)) s t) : Inv t := by
  refine ⟨hown, ?_, ?_⟩
  · intro j
    rw [hpcs]
    exact facts_away s t _ (haway j) h.ownership (h.calls j)
  · rw [hpcs, hprunes]
    exact h.listed

theorem at_inv (i : ℕ) (pc : Pc) (h : Inv s) (hfacts : Facts s pc)
    (hlisted : Pc.prunes pc = true → i ∈ s.prunes) : Inv (s.at i pc) := by
  refine ⟨h.ownership.of_eq rfl rfl, ?_, ?_⟩
  · intro j
    rw [at_pcs]
    split
    · exact hfacts
    · exact h.calls j
  · intro j hj
    rw [at_pcs] at hj
    split at hj
    · rename_i hji
      rw [hji]
      exact hlisted hj
    · exact h.listed j hj

theorem note_inv (ref : ℕ) (h : Inv s) (howns : Owns s user ref)
    (hclear : ∀ j, user ∉ Pc.stale (s.pcs j)) : Inv (s.note ref) :=
  data_inv s _ h (h.ownership.of_eq rfl rfl) rfl rfl
    (fun j => note_away _ s ref (not_owns s _ user ref (hclear j) howns))

theorem map_inv (key : Key) (thread : ℕ) (h : Inv s) (hclear : ∀ j, key.user ∉ Pc.stale (s.pcs j)) :
    Inv (s.map key thread) :=
  data_inv s _ h (h.ownership.of_eq rfl rfl) rfl rfl (fun j => map_away _ s key thread (hclear j))

theorem insertUndo_inv (h : Inv s) : Inv (s.insertUndo thread) :=
  data_inv s _ h (h.ownership.of_eq rfl rfl) rfl rfl (fun _ => insertUndo_away _ s thread)

theorem ensureUndo_inv (h : Inv s) : Inv (s.ensureUndo thread) := by
  unfold Manager.ensureUndo
  split
  · exact h
  · exact insertUndo_inv s thread h

theorem resolve_inv (i : ℕ) (key : Key) (ref thread : ℕ) (h : Inv s) (howns : Owns s key.user ref)
    (hclear : ∀ j, key.user ∉ Pc.stale (s.pcs j)) :
    Inv (s.resolve i key ref thread) :=
  at_inv _ i (.resolved key ref thread) (note_inv s key.user ref h howns hclear) trivial nofun

theorem afterSession_facts (key : Option Key) (ref : ℕ) (hkey : ∀ k, key = some k → k.user = user)
    (h : Owns s user ref) :
    Facts s (afterSession user key ref) ∧ Pc.prunes (afterSession user key ref) = false := by
  cases key with
  | none => exact ⟨trivial, rfl⟩
  | some k =>
    refine ⟨?_, rfl⟩
    show Owns s k.user ref
    rw [hkey k rfl]
    exact h

theorem afterLookup_facts (key : Key) (ref : ℕ) (h : Owns s key.user ref) :
    Facts s (afterLookup uuids key ref) ∧ Pc.prunes (afterLookup uuids key ref) = false := by
  unfold afterLookup
  split <;> exact ⟨h, rfl⟩

/-- The scan takes no session with an activity since the cutoff. -/
theorem stale_unused (cutoff : ℤ) (h : recorded s cutoff = true) :
    Unused s cutoff (s.staleUsers cutoff) := by
  intro user huser ref href time htime
  obtain ⟨⟨u, r⟩, he, rfl⟩ := List.mem_map.mp huser
  obtain ⟨hmem, hstale⟩ := List.mem_filter.mp he
  have hr : s.sessions.lookup u = some r := AList.mem_lookup_iff.mpr hmem
  rw [hr] at href
  have hrr := Option.some.inj href
  subst hrr
  have hentry := List.all_eq_true.mp h _ hmem
  simp only [hstale, Bool.not_true, Bool.false_or] at hentry
  have hactivity := List.all_eq_true.mp hentry _ htime
  simpa using hactivity

theorem mem_threadsOf (ref thread : ℕ) (href : s.sessions.lookup user = some ref)
    (hfree : s.locked ref = false) (hhas : Has s ref thread) : thread ∈ s.threadsOf user := by
  obtain ⟨sess, hsess, hthread⟩ := hhas
  have hlocked : sess.locked = false := by
    simpa [Manager.locked, hsess] using hfree
  simp only [Manager.threadsOf, href, hsess, hlocked, Bool.false_eq_true, if_false]
  exact hthread

theorem threadsOf_has (h : thread ∈ s.threadsOf user) :
    ∃ ref, s.sessions.lookup user = some ref ∧ Has s ref thread := by
  unfold Manager.threadsOf at h
  split at h
  · rename_i ref href
    split at h
    · rename_i sess hsess
      split at h
      · cases h
      · exact ⟨ref, href, sess, hsess, h⟩
    · cases h
  · cases h

theorem collect_facts (hown : Ownership s) (hunlocked : unlocked s users = true) :
    Collected s users (s.staleThreads users) ∧ From s users (s.staleThreads users) := by
  constructor
  · intro user huser ref href thread hhas
    have hfree := List.all_eq_true.mp hunlocked user huser
    simp only [href, Bool.not_eq_true'] at hfree
    exact List.mem_flatMap.mpr ⟨user, huser, mem_threadsOf s user ref thread href hfree hhas⟩
  · intro thread hthread
    obtain ⟨user, huser, hmem⟩ := List.mem_flatMap.mp hthread
    obtain ⟨ref, href, hhas⟩ := threadsOf_has s user thread hmem
    exact ⟨user, huser, ref, hown.owners user ref href, hhas⟩

theorem removed_covered (threads : List ℕ) (hown : Ownership s) (h : Collected s users threads) :
    Covered s users (users.filterMap (fun user => s.sessions.lookup user)) threads := by
  intro ref href
  obtain ⟨user, huser, hlookup⟩ := List.mem_filterMap.mp href
  exact ⟨⟨user, huser, hown.owners user ref hlookup⟩, h user huser ref hlookup⟩

theorem unmap_lookup (key : Key) :
    (s.unmap users).threadMap.lookup key =
      if users.contains key.user then none else s.threadMap.lookup key := by
  show (retain _ s.threadMap).lookup key = _
  rw [lookup_retain]
  cases users.contains key.user <;> rfl

theorem prune_inv (s : Manager) (h : Inv s) (hcalm : calm s (s.pcs i) = true)
    (hprunes : Pc.prunes (s.pcs i) = true) : Inv (advance uuids i fresh s) := by
  have hcall := h.calls i
  have hlisted := h.listed i hprunes
  unfold advance
  cases hpc : s.pcs i with
  | pruning maxIdle cutoff =>
    rw [hpc] at hcall hcalm
    simp only
    have hunused := stale_unused s cutoff hcalm
    cases husers : s.staleUsers cutoff with
    | nil => exact at_inv s i (.pruned []) h trivial nofun
    | cons user users =>
      rw [husers] at hunused
      exact at_inv s i (.collecting maxIdle cutoff (user::users)) h ⟨hcall, hunused⟩
        (fun _ => hlisted)
  | collecting maxIdle cutoff users =>
    rw [hpc] at hcall hcalm
    obtain ⟨hcollected, hfrom⟩ := collect_facts s users h.ownership hcalm
    exact at_inv s i _ h ⟨hcall.1, hcall.2, hcollected, hfrom⟩ (fun _ => hlisted)
  | removing maxIdle cutoff users threads =>
    rw [hpc] at hcall
    obtain ⟨_, _, hcollected, hfrom⟩ := hcall
    have hinv : Inv (s.removeSessions users) := by
      refine data_inv s _ h ⟨fun user ref href => ?_, h.ownership.apart⟩ rfl rfl
        (fun j => removeSessions_away _ s users)
      exact h.ownership.owners user ref
        ((removeSessions_away [user] s users).sessions user List.mem_cons_self ref href)
    exact at_inv _ i _ hinv ⟨removed_covered s users threads h.ownership hcollected, hfrom⟩
      (fun _ => hlisted)
  | unmapping users refs threads =>
    rw [hpc] at hcall
    have hinv : Inv (s.unmap users) :=
      data_inv s _ h (h.ownership.of_eq rfl rfl) rfl rfl (fun j => unmap_away _ s users)
    refine at_inv _ i _ hinv ⟨hcall.1, hcall.2, ?_⟩ (fun _ => hlisted)
    intro key hkey
    rw [unmap_lookup, if_pos (List.contains_iff_mem.mpr hkey)]
  | forgetting users refs threads =>
    have hinv : Inv (s.forget threads) :=
      data_inv s _ h (h.ownership.of_eq rfl rfl) rfl rfl
        (fun j => same_away _ s _ (Nat.le_refl _) rfl rfl rfl rfl)
    exact at_inv _ i (.pruned refs) hinv trivial nofun
  | _ =>
    rw [hpc] at hprunes
    cases hprunes

theorem adding_inv (s : Manager) (user : String) (key : Option Key) (h : Inv s)
    (hpc : s.pcs i = .adding user key) (hclear : ∀ j, user ∉ Pc.stale (s.pcs j)) :
    Inv (advance uuids i fresh s) := by
  have hcall := h.calls i
  unfold advance
  rw [hpc] at hcall ⊢
  simp only
  split
  · rename_i ref href
    obtain ⟨hfacts, hno⟩ :=
      afterSession_facts s user key ref hcall (h.ownership.owners user ref href)
    exact at_inv s i _ h hfacts (by rw [hno]; nofun)
  · have hinv : Inv (s.addSession user) :=
      data_inv s _ h (addSession_ownership s user h.ownership) rfl rfl
        (fun j => addSession_away _ s user (hclear j))
    obtain ⟨hfacts, hno⟩ :=
      afterSession_facts (s.addSession user) user key _ hcall (addSession_new s user)
    exact at_inv _ i _ hinv hfacts (by rw [hno]; nofun)

theorem creating_inv (s : Manager) (key : Key) (ref : ℕ) (h : Inv s)
    (hpc : s.pcs i = .creating key ref) (hclear : ∀ j, key.user ∉ Pc.stale (s.pcs j)) :
    Inv (advance uuids i fresh s) := by
  have hcall := h.calls i
  unfold advance
  rw [hpc] at hcall ⊢
  simp only
  split
  · exact h
  · rename_i hfree
    simp only [Bool.or_eq_true, not_or, Bool.not_eq_true] at hfree
    have hinv : Inv (s.addThread ref fresh) :=
      data_inv s _ h
        (addThread_ownership s ref fresh h.ownership (fun _ _ other hother hmem =>
          absurd hmem (fresh_own s fresh hfree.2 other hother)))
        rfl rfl
        (fun j => addThread_away _ s ref fresh (not_owns s _ key.user ref (hclear j) hcall))
    exact at_inv _ i (.mapping key ref fresh) hinv
      (addThread_owns s ref fresh key.user ref hcall) nofun

/-- The session that a caller brings is put back only where no pass has it. -/
theorem tracking_inv (s : Manager) (key : Key) (thread ref : ℕ) (h : Inv s)
    (hpc : s.pcs i = .tracking key thread ref) (hcalm : calm s (s.pcs i) = true) :
    Inv (advance uuids i fresh s) := by
  unfold advance
  rw [hpc] at hcalm ⊢
  obtain ⟨howned, hquiet⟩ := Bool.and_eq_true_iff.mp hcalm
  have hclear := fun j => quiet_clear s _ h hquiet j key.user List.mem_cons_self
  have howns := owns_of_owned s key.user ref howned
  have hinv : Inv (s.ensureSession key.user ref) := by
    apply data_inv s _ h (ensureSession_ownership s key.user ref h.ownership howns)
      (ensureSession_pcs s key.user ref)
    · unfold Manager.ensureSession
      split <;> rfl
    · exact fun j => ensureSession_away _ s key.user ref (hclear j)
  exact at_inv _ i (.registered key thread) hinv trivial nofun

theorem call_inv (s : Manager) (h : Inv s) (hcalm : calm s (s.pcs i) = true)
    (hprunes : Pc.prunes (s.pcs i) = false) : Inv (advance uuids i fresh s) := by
  have hcall := h.calls i
  have hclear := quiet_clear s (Pc.writer (s.pcs i)) h
  unfold advance
  cases hpc : s.pcs i with
  | idle | opened _ _ | resolved _ _ _ | registered _ _ | fetched _ _ | panicked | pruned _ =>
    exact h
  | opening user key =>
    rw [hpc] at hcall
    simp only
    split
    · rename_i ref href
      obtain ⟨hfacts, hno⟩ :=
        afterSession_facts s user key ref hcall (h.ownership.owners user ref href)
      exact at_inv s i _ h hfacts (by rw [hno]; nofun)
    · exact at_inv s i (.adding user key) h hcall nofun
  | adding user key =>
    rw [hpc] at hcalm hclear
    simpa only [advance, hpc] using adding_inv uuids i fresh s user key h hpc
      (fun j => hclear hcalm j user List.mem_cons_self)
  | looking key ref =>
    rw [hpc] at hcall hcalm hclear
    have hclear := fun j => hclear hcalm j key.user List.mem_cons_self
    obtain ⟨hfacts, hno⟩ := afterLookup_facts uuids s key ref hcall
    simp only
    split
    · split
      · exact h
      · split
        · exact resolve_inv s i key ref _ h hcall hclear
        · exact at_inv s i _ h hfacts (by rw [hno]; nofun)
    · exact at_inv s i _ h hfacts (by rw [hno]; nofun)
  | scanning key ref uuid =>
    rw [hpc] at hcall
    simp only
    split
    · exact at_inv s i (.creating key ref) h hcall nofun
    · exact at_inv s i (.probing key ref uuid) h hcall nofun
  | probing key ref uuid =>
    rw [hpc] at hcall
    simp only
    split
    · exact h
    · split
      · exact at_inv s i (.claiming key ref uuid) h hcall nofun
      · exact at_inv s i (.creating key ref) h hcall nofun
  | claiming key ref uuid =>
    rw [hpc] at hcall hcalm hclear
    have hclear := fun j => hclear hcalm j key.user List.mem_cons_self
    simp only
    split
    · exact at_inv s i (.creating key ref) h hcall nofun
    · exact at_inv _ i (.adopted key ref uuid) (map_inv s key uuid h hclear) hcall nofun
  | adopted key ref uuid =>
    rw [hpc] at hcall hcalm hclear
    have hclear := fun j => hclear hcalm j key.user List.mem_cons_self
    have hinv := ensureUndo_inv s uuid h
    apply resolve_inv _ i key ref uuid hinv
    · exact (ensureUndo_away [] s uuid).owns _ _ hcall
    · rw [ensureUndo_pcs]
      exact hclear
  | creating key ref =>
    rw [hpc] at hcalm hclear
    simpa only [advance, hpc] using creating_inv uuids i fresh s key ref h hpc
      (fun j => hclear hcalm j key.user List.mem_cons_self)
  | mapping key ref thread =>
    rw [hpc] at hcall hcalm hclear
    have hclear := fun j => hclear hcalm j key.user List.mem_cons_self
    exact at_inv _ i (.undoing key ref thread) (map_inv s key thread h hclear) hcall nofun
  | undoing key ref thread =>
    rw [hpc] at hcall hcalm hclear
    have hclear := fun j => hclear hcalm j key.user List.mem_cons_self
    exact resolve_inv _ i key ref thread (insertUndo_inv s thread h) hcall hclear
  | registering key thread ref =>
    rw [hpc] at hcalm hclear
    have hclear := fun j => hclear hcalm j key.user List.mem_cons_self
    exact at_inv _ i (.keeping key thread ref) (map_inv s key thread h hclear) trivial nofun
  | keeping key thread ref =>
    exact at_inv _ i (.tracking key thread ref) (ensureUndo_inv s thread h) trivial nofun
  | tracking key thread ref =>
    simpa only [advance, hpc] using tracking_inv uuids i fresh s key thread ref h hpc hcalm
  | fetching thread =>
    simp only
    split
    · exact at_inv s i (.fetched thread _) h trivial nofun
    · exact at_inv s i (.making thread) h trivial nofun
  | making thread =>
    simp only
    split
    · exact at_inv s i (.fetched thread _) h trivial nofun
    · exact at_inv _ i (.fetched thread _) (insertUndo_inv s thread h) trivial nofun
  | _ =>
    rw [hpc] at hprunes
    cases hprunes

theorem begin_inv (i : ℕ) (pc : Pc) (s : Manager) (h : Inv s) (hfacts : Facts s pc)
    (hlisted : Pc.prunes pc = true → i ∈ s.prunes) : Inv (begin i pc s) := by
  unfold begin
  split
  · exact at_inv s i pc h hfacts hlisted
  · exact h

theorem owner_clear (ref : ℕ) (h : Inv s) (hquiet : quiet s (owner s ref) = true) (j : ℕ) :
    ∀ user ∈ Pc.stale (s.pcs j), ¬ Owns s user ref := by
  intro user huser ⟨sess, hsess, howner⟩
  have hmem : user ∈ owner s ref := by
    rw [owner, hsess, ← howner]
    exact List.mem_cons_self
  exact quiet_clear s _ h hquiet j user hmem huser

omit uuids in
theorem cutoff_kept (now : ℕ) (maxIdle : Duration) (cutoff : ℤ)
    (hwhole : wholeSeconds now maxIdle = true) (h : pruneCutoff now maxIdle = some cutoff) :
    cutoff ≤ (now : ℤ)-maxIdle.asNanos := by
  obtain ⟨delta, hdelta, hfits⟩ := Option.bind_eq_some_iff.mp h
  simp only [wholeSeconds, Bool.and_eq_true, Bool.or_eq_true, decide_eq_true_eq] at hwhole
  obtain ⟨hnanos, hsecs⟩ := hwhole
  rw [Duration.asNanos, hnanos]
  rw [maxUtc] at hsecs hfits
  split at hfits
  · next hrange =>
    obtain rfl := Option.some.inj hfits
    unfold timeDeltaSeconds at hdelta
    split at hdelta
    · next hbounds =>
      obtain rfl := Option.some.inj hdelta
      unfold asI64 at hbounds hrange ⊢
      split at hrange <;> split <;> omega
    · cases hdelta
  · cases hfits

theorem step_inv (l : Label) (s : Manager) (h : Inv s) (hcond : orderly l s = true) :
    Inv (step uuids l s) := by
  cases l with
  | pass time =>
    exact data_inv s _ h (h.ownership.of_eq rfl rfl) rfl rfl
      (fun j => same_away _ s _ (Nat.le_add_right _ _) rfl rfl rfl rfl)
  | getOrCreateSession i user => exact begin_inv i (.opening user none) s h nofun nofun
  | resolveThread i key =>
    apply begin_inv i (.opening key.user (some key)) s h _ nofun
    intro k hk
    rw [Option.some.inj hk]
  | registerThread i user channel thread ref =>
    exact begin_inv i (.registering _ thread ref) s h trivial nofun
  | getUndoManager i thread => exact begin_inv i (.fetching thread) s h trivial nofun
  | pruneStaleSessions i maxIdle =>
    have hinv : Inv { s with prunes := i::s.prunes } :=
      ⟨h.ownership.of_eq rfl rfl, h.calls, fun j hj => List.mem_cons_of_mem i (h.listed j hj)⟩
    refine begin_inv i (Pc.beginPruning maxIdle (pruneCutoff s.now maxIdle)) _ hinv ?_
      (fun _ => List.mem_cons_self)
    cases hcutoff : pruneCutoff s.now maxIdle with
    | none => trivial
    | some cutoff => exact cutoff_kept s.now maxIdle cutoff hcond hcutoff
  | go i fresh =>
    cases hprunes : Pc.prunes (s.pcs i) with
    | true => exact prune_inv uuids i fresh s h hcond hprunes
    | false => exact call_inv uuids i fresh s h hcond hprunes
  | createThread ref fresh =>
    simp only [step]
    split
    · exact h
    · rename_i hfree
      simp only [Bool.or_eq_true, not_or, Bool.not_eq_true] at hfree
      exact data_inv s _ h
        (addThread_ownership s ref fresh h.ownership (fun _ _ other hother hmem =>
          absurd hmem (fresh_own s fresh hfree.2 other hother)))
        rfl rfl (fun j => addThread_away _ s ref fresh (owner_clear s ref h hcond j))
  | hydrate ref thread =>
    obtain ⟨hown, hquiet⟩ := Bool.and_eq_true_iff.mp hcond
    simp only [step]
    split
    · exact h
    · exact data_inv s _ h
        (addThread_ownership s ref thread h.ownership (ownThread_mem s ref thread hown)) rfl rfl
        (fun j => addThread_away _ s ref thread (owner_clear s ref h hquiet j))
  | switchThread ref thread =>
    simp only [step]
    split
    · exact data_inv s _ h (modify_ownership s ref _ h.ownership (fun _ => rfl) (fun _ => rfl)) rfl
        rfl (fun j => modify_away _ s ref _ (fun _ => rfl) (fun _ => rfl))
    · exact h
  | turn ref thread =>
    simp only [step]
    split
    · exact data_inv s _ h (h.ownership.of_eq rfl rfl) rfl rfl
        (fun j => note_away _ s ref (owner_clear s ref h hcond j))
    · exact h
  | lock ref =>
    simp only [step]
    split
    · exact h
    · exact data_inv s _ h (modify_ownership s ref _ h.ownership (fun _ => rfl) (fun _ => rfl)) rfl
        rfl (fun j => modify_away _ s ref _ (fun _ => rfl) (fun _ => rfl))
  | unlock ref =>
    exact data_inv s _ h (modify_ownership s ref _ h.ownership (fun _ => rfl) (fun _ => rfl)) rfl
      rfl (fun j => modify_away _ s ref _ (fun _ => rfl) (fun _ => rfl))

theorem new_inv : Inv Manager.new := ⟨⟨nofun, nofun⟩, fun _ => trivial, nofun⟩

theorem insert_kept (user u : String) (ref r : ℕ) (h : s.sessions.lookup user = some ref)
    (hnone : s.sessions.lookup u = none) :
    (s.sessions.insert u r).lookup user = some ref := by
  have hne : user ≠ u := by
    intro heq
    rw [heq, hnone] at h
    cases h
  rw [AList.lookup_insert_ne hne]
  exact h

theorem ensureSession_kept (user u : String) (ref r : ℕ) (h : s.sessions.lookup user = some ref) :
    (s.ensureSession u r).sessions.lookup user = some ref := by
  unfold Manager.ensureSession
  split
  · exact h
  · rename_i hnone
    exact insert_kept s user u ref r h hnone

theorem ensureUndo_sessions :
    (s.ensureUndo thread).sessions = s.sessions := by
  unfold Manager.ensureUndo
  split <;> rfl

/-- Only the removing step of a pruning takes a session out of its table. -/
theorem advance_kept (s : Manager) (user : String) (ref : ℕ) (h : s.sessions.lookup user = some ref)
    (hnot : ∀ maxIdle cutoff users threads, s.pcs i ≠ .removing maxIdle cutoff users threads) :
    (advance uuids i fresh s).sessions.lookup user = some ref := by
  unfold advance
  cases hpc : s.pcs i with
  | opening u key =>
    simp only
    split <;> exact h
  | adding u key =>
    simp only
    split
    · exact h
    · rename_i hnone
      exact insert_kept s user u ref _ h hnone
  | looking key r =>
    simp only
    split
    · split
      · exact h
      · split <;> exact h
    · exact h
  | probing key r uuid =>
    simp only
    split <;> exact h
  | claiming key r uuid =>
    simp only
    split <;> exact h
  | adopted key r uuid =>
    show (s.ensureUndo uuid).sessions.lookup user = some ref
    rw [ensureUndo_sessions]
    exact h
  | creating key r =>
    simp only
    split <;> exact h
  | keeping key thread r =>
    show (s.ensureUndo thread).sessions.lookup user = some ref
    rw [ensureUndo_sessions]
    exact h
  | tracking key thread r => exact ensureSession_kept s user key.user ref r h
  | fetching thread =>
    simp only
    split <;> exact h
  | making thread =>
    simp only
    split <;> exact h
  | removing maxIdle cutoff users threads => exact absurd hpc (hnot maxIdle cutoff users threads)
  | _ => exact h

theorem step_kept (l : Label) (s : Manager) (user : String) (ref : ℕ)
    (h : s.sessions.lookup user = some ref) (hgo : ∀ i fresh, l ≠ .go i fresh) :
    (step uuids l s).sessions.lookup user = some ref := by
  have hbegin : ∀ (i : ℕ) (pc : Pc) (t : Manager), t.sessions = s.sessions →
      (begin i pc t).sessions.lookup user = some ref := by
    intro i pc t ht
    unfold begin
    split
    · show t.sessions.lookup user = some ref
      rw [ht]
      exact h
    · rw [ht]
      exact h
  cases l with
  | go i fresh => exact absurd rfl (hgo i fresh)
  | pass time => exact h
  | getOrCreateSession i user => exact hbegin i _ s rfl
  | resolveThread i key => exact hbegin i _ s rfl
  | registerThread i user channel thread ref => exact hbegin i _ s rfl
  | getUndoManager i thread => exact hbegin i _ s rfl
  | pruneStaleSessions i maxIdle => exact hbegin i _ _ rfl
  | unlock ref => exact h
  | _ =>
    simp only [step]
    split <;> exact h

theorem removed_idle (s : Manager) (h : Inv s) (user : String) (ref : ℕ)
    (href : s.sessions.lookup user = some ref)
    (hgone : (advance uuids i fresh s).sessions.lookup user ≠ some ref) :
    ∃ maxIdle cutoff users threads, s.pcs i = .removing maxIdle cutoff users threads ∧
      ∀ time, (ref, time) ∈ s.activity → time+maxIdle.asNanos < s.now := by
  by_cases hremoving : ∃ maxIdle cutoff users threads,
      s.pcs i = .removing maxIdle cutoff users threads
  · obtain ⟨maxIdle, cutoff, users, threads, hpc⟩ := hremoving
    refine ⟨maxIdle, cutoff, users, threads, hpc, fun time htime => ?_⟩
    have hcall := h.calls i
    rw [hpc] at hcall
    obtain ⟨hcut, hunused, _⟩ := hcall
    have hmem : user ∈ users := by
      by_contra hmem
      apply hgone
      simp only [advance, hpc]
      show (retain _ s.sessions).lookup user = some ref
      rw [lookup_retain, if_pos (by simpa using hmem)]
      exact href
    have hold := hunused user hmem ref href time htime
    omega
  · exact absurd (advance_kept uuids i fresh s user ref href
      (fun maxIdle cutoff users threads hpc =>
        hremoving ⟨maxIdle, cutoff, users, threads, hpc⟩)) hgone

theorem forget_lookup (threads : List ℕ) (thread : ℕ) :
    (s.forget threads).undoManagers.lookup thread =
      if threads.contains thread then none else s.undoManagers.lookup thread := by
  show (retain _ s.undoManagers).lookup thread = _
  rw [lookup_retain]
  cases threads.contains thread <;> rfl

theorem forgotten (s : Manager) (h : Inv s) (users : List String) (refs threads : List ℕ)
    (hpc : s.pcs i = .forgetting users refs threads) :
    (∀ key, key.user ∈ users → (advance uuids i fresh s).threadMap.lookup key = none) ∧
      ∀ ref ∈ refs, ∀ thread, Has s ref thread →
        (advance uuids i fresh s).undoManagers.lookup thread = none := by
  have hcall := h.calls i
  rw [hpc] at hcall
  obtain ⟨hcovered, _, hunmapped⟩ := hcall
  simp only [advance, hpc]
  refine ⟨hunmapped, fun ref href thread hhas => ?_⟩
  have hmem := (hcovered ref href).2 thread hhas
  show (s.forget threads).undoManagers.lookup thread = none
  rw [forget_lookup, if_pos (List.contains_iff_mem.mpr hmem)]

/-- The threads that a pruning forgets are threads of the users it has found. -/
theorem from_not (h : Ownership s) (users : List String) (threads : List ℕ)
    (hfrom : From s users threads) (user : String) (hnot : user ∉ users) (ref thread : ℕ)
    (howns : Owns s user ref) (hhas : Has s ref thread) : thread ∉ threads := by
  intro hmem
  obtain ⟨u, hu, r, ⟨sess, hsess, hsu⟩, ⟨sess', hsess', hthread⟩⟩ := hfrom thread hmem
  obtain ⟨other, hother, hou⟩ := howns
  obtain ⟨other', hother', hothread⟩ := hhas
  rw [hsess] at hsess'
  rw [hother] at hother'
  rw [← Option.some.inj hsess'] at hthread
  rw [← Option.some.inj hother'] at hothread
  have hsame := h.apart sess (List.mem_of_getElem? hsess) other (List.mem_of_getElem? hother)
    thread hthread hothread
  rw [hsu, hou] at hsame
  exact hnot (hsame ▸ hu)

theorem others_kept (s : Manager) (h : Inv s) (hstale : Pc.stale (s.pcs i) ≠ []) (user : String)
    (hnot : user ∉ Pc.stale (s.pcs i)) :
    (advance uuids i fresh s).sessions.lookup user = s.sessions.lookup user ∧
      (∀ key, key.user = user →
        (advance uuids i fresh s).threadMap.lookup key = s.threadMap.lookup key) ∧
      ∀ ref thread, Owns s user ref → Has s ref thread →
        (advance uuids i fresh s).undoManagers.lookup thread =
          s.undoManagers.lookup thread := by
  have hcall := h.calls i
  unfold advance
  cases hpc : s.pcs i with
  | collecting maxIdle cutoff users => exact ⟨rfl, fun _ _ => rfl, fun _ _ _ _ => rfl⟩
  | removing maxIdle cutoff users threads =>
    rw [hpc] at hnot
    have hnot : user ∉ users := hnot
    refine ⟨?_, fun _ _ => rfl, fun _ _ _ _ => rfl⟩
    show (retain _ s.sessions).lookup user = _
    rw [lookup_retain, if_pos (by simpa using hnot)]
  | unmapping users refs threads =>
    rw [hpc] at hnot
    refine ⟨rfl, fun key hkey => ?_, fun _ _ _ _ => rfl⟩
    show (s.unmap users).threadMap.lookup key = _
    rw [unmap_lookup, hkey, if_neg]
    exact fun hmem => hnot (List.contains_iff_mem.mp hmem)
  | forgetting users refs threads =>
    rw [hpc] at hnot hcall
    refine ⟨rfl, fun _ _ => rfl, fun ref thread howns hhas => ?_⟩
    have hmem := from_not s h.ownership users threads hcall.2.1 user hnot ref thread howns hhas
    show (s.forget threads).undoManagers.lookup thread = _
    rw [forget_lookup, if_neg]
    exact fun hcontains => hmem (List.contains_iff_mem.mp hcontains)
  | _ =>
    rw [hpc] at hstale
    exact absurd rfl hstale

theorem step_spares (l : Label) (s : Manager) (h : Inv s) : Spares uuids l s := by
  refine ⟨?_, ?_, ?_⟩
  · intro user ref href hgone
    by_cases hgo : ∃ i fresh, l = .go i fresh
    · obtain ⟨i, fresh, rfl⟩ := hgo
      obtain ⟨maxIdle, cutoff, users, threads, hpc, hidle⟩ :=
        removed_idle uuids i fresh s h user ref href hgone
      exact ⟨i, fresh, maxIdle, cutoff, users, threads, rfl, hpc, hidle⟩
    · have hkept := step_kept uuids l s user ref href (fun i fresh heq => hgo ⟨i, fresh, heq⟩)
      exact absurd hkept hgone
  · rintro i fresh users refs threads rfl hpc
    exact forgotten uuids i fresh s h users refs threads hpc
  · rintro i fresh rfl hstale user hnot
    exact others_kept uuids i fresh s h hstale user hnot

/-- In every orderly run each removed session has been idle for longer than
asked, the end of a pruning leaves none of its entries and undo managers, and a
pruning touches nothing of other users. -/
theorem prunings_spare (labels : List Label)
    (h : Along (step uuids) (fun l s => orderly l s = true) labels Manager.new) :
    Along (step uuids) (Spares uuids) labels Manager.new :=
  along_of (step uuids) Inv _ _
    (fun l s hs hc => ⟨step_inv uuids l s hs hc, step_spares uuids l s hs⟩) labels _ new_inv h

end

def noUuids : Uuids where
  parse _ := none
  print _ := ""

def chat : Key := ⟨"alice", "telegram", some "chat"⟩

def idleSession : List Label :=
  [.resolveThread 0 chat, .go 0 0, .go 0 0, .go 0 0, .go 0 5, .go 0 0, .go 0 0, .pass 101000000000,
   .pruneStaleSessions 1 ⟨10, 0⟩, .go 1 0, .go 1 0, .go 1 0, .go 1 0, .go 1 0]

theorem idle_session_pruned :
    Along (step noUuids) (Spares noUuids) idleSession Manager.new ∧
      (run (step noUuids) idleSession Manager.new).pcs 1 = .pruned [0] :=
  ⟨prunings_spare noUuids idleSession (by decide), by decide⟩

def liveSession : List Label :=
  [.resolveThread 0 chat, .go 0 0, .go 0 0, .go 0 0, .go 0 5, .go 0 0, .go 0 0, .pass 100000000000,
   .resolveThread 2 chat, .go 2 0, .go 2 0, .pass 1000000000, .pruneStaleSessions 1 ⟨10, 0⟩, .go 1 0, .go 1 0]

theorem live_session_pruned :
    ¬ ∀ (uuids : Uuids) (labels : List Label),
      Along (step uuids) (Spares uuids) labels Manager.new := by
  intro h
  have hspares := along_at (step noUuids) (Spares noUuids) liveSession [] (.go 1 0) Manager.new
    (h noUuids (liveSession++[.go 1 0]))
  obtain ⟨i, fresh, maxIdle, cutoff, users, threads, hl, hpc, hidle⟩ :=
    hspares.removed "alice" 0 (by decide) (by decide)
  obtain ⟨rfl, rfl⟩ := Label.go.inj hl
  have hremoving : (run (step noUuids) liveSession Manager.new).pcs 1 =
      .removing ⟨10, 0⟩ 91000000000 ["alice"] [5] := by decide
  rw [hremoving] at hpc
  obtain ⟨rfl, _⟩ := Pc.removing.inj hpc
  have hrecent := hidle 100000000000 (by decide)
  exact absurd hrecent (by decide)

end IronClaw.SessionPruning
