import IronClaw.SessionManager

/-!
# Threads of conversation keys

Without pruning, sessions, entries and undo managers only come to be. What a
resolved key leads to stays as long as no call writes over what another call
has written since it looked: an entry of the key, an entry of a thread that the
call has just created, or its undo manager. A thread is reached from a second
channel when it has been registered there.
-/

set_option autoImplicit false

namespace IronClaw.ThreadResolution
open IronClaw.SessionManager Lib.Entries Lib.Runs

def Pc.registers (key : Key) (thread : ℕ) : Pc → Prop
  | .registering k t _ => k = key ∧ t = thread
  | .keeping k t _ => k = key ∧ t = thread
  | .tracking k t _ => k = key ∧ t = thread
  | .registered k t => k = key ∧ t = thread
  | _ => False

def Registered (s : Manager) (key : Key) (thread : ℕ) : Prop :=
  ∃ i, Pc.registers key thread (s.pcs i)

def Never (_ : Manager) (_ : Key) (_ : ℕ) : Prop := False

section

variable (uuids : Uuids)

structure Resolution (exempt : Manager → Key → ℕ → Prop) (labels : List Label) : Prop where
  same : ∀ i j key ref thread ref' thread',
    (run (step uuids) labels Manager.new).pcs i = .resolved key ref thread →
    (run (step uuids) labels Manager.new).pcs j = .resolved key ref' thread' → thread = thread'
  users : ∀ i j key ref thread key' ref' thread',
    (run (step uuids) labels Manager.new).pcs i = .resolved key ref thread →
    (run (step uuids) labels Manager.new).pcs j = .resolved key' ref' thread' →
    key.user ≠ key'.user → ref ≠ ref' ∧ thread ≠ thread'
  channels : ∀ i j key ref key' ref' thread,
    (run (step uuids) labels Manager.new).pcs i = .resolved key ref thread →
    (run (step uuids) labels Manager.new).pcs j = .resolved key' ref' thread →
    key.channel ≠ key'.channel →
    exempt (run (step uuids) labels Manager.new) key thread ∨
      exempt (run (step uuids) labels Manager.new) key' thread
  undo : ∀ before after, labels = before++after → ∀ thread manager,
    (run (step uuids) before Manager.new).undoManagers.lookup thread = some manager →
    (run (step uuids) labels Manager.new).undoManagers.lookup thread = some manager
  seen : ∀ i thread manager,
    (run (step uuids) labels Manager.new).pcs i = .fetched thread manager →
    (run (step uuids) labels Manager.new).undoManagers.lookup thread = some manager

def clear (s : Manager) : Pc → Bool
  | .mapping key _ thread => (s.threadMap.lookup key).isNone && !holds thread s.threadMap
  | .undoing _ _ thread => (s.undoManagers.lookup thread).isNone
  | .claiming key _ uuid => holds uuid s.threadMap || (s.threadMap.lookup key).isNone
  | .registering key thread _ =>
    s.threadMap.lookup key = none || s.threadMap.lookup key = some thread
  | .tracking key _ ref => owned s key.user ref
  | _ => true

def undisturbed : Label → Manager → Bool
  | .pruneStaleSessions _ _, _ => false
  | .hydrate ref thread, s => ownThread s ref thread
  | .go i _, s => clear s (s.pcs i)
  | _, _ => true

def Holds (s : Manager) : Pc → Prop
  | .opened user ref => s.sessions.lookup user = some ref
  | .looking key ref => s.sessions.lookup key.user = some ref
  | .scanning key ref _ => s.sessions.lookup key.user = some ref
  | .probing key ref _ => s.sessions.lookup key.user = some ref
  | .claiming key ref uuid => s.sessions.lookup key.user = some ref ∧ Has s ref uuid
  | .adopted key ref uuid =>
    s.sessions.lookup key.user = some ref ∧ Has s ref uuid ∧ s.threadMap.lookup key = some uuid
  | .creating key ref => s.sessions.lookup key.user = some ref
  | .mapping key ref thread => s.sessions.lookup key.user = some ref ∧ Has s ref thread
  | .undoing key ref thread =>
    s.sessions.lookup key.user = some ref ∧ Has s ref thread ∧ s.threadMap.lookup key = some thread
  | .resolved key ref thread =>
    s.sessions.lookup key.user = some ref ∧ Has s ref thread ∧ s.threadMap.lookup key = some thread
  | .fetched thread manager => s.undoManagers.lookup thread = some manager
  | .opening user key => ∀ k, key = some k → k.user = user
  | .adding user key => ∀ k, key = some k → k.user = user
  | .pruning _ _ => False
  | .collecting _ _ _ => False
  | .removing _ _ _ _ => False
  | .unmapping _ _ _ => False
  | .forgetting _ _ _ => False
  | _ => True

structure Inv (s : Manager) : Prop where
  ownership : Ownership s
  origin : ∀ key key' thread, s.threadMap.lookup key = some thread →
    s.threadMap.lookup key' = some thread → key ≠ key' →
    Registered s key thread ∨ Registered s key' thread
  calls : ∀ i, Holds s (s.pcs i)

structure Grows (s t : Manager) : Prop where
  sessions : ∀ user ref, s.sessions.lookup user = some ref → t.sessions.lookup user = some ref
  owns : ∀ user ref, Owns s user ref → Owns t user ref
  has : ∀ ref thread, Has s ref thread → Has t ref thread
  entries : ∀ key thread, s.threadMap.lookup key = some thread →
    t.threadMap.lookup key = some thread
  undo : ∀ thread manager, s.undoManagers.lookup thread = some manager →
    t.undoManagers.lookup thread = some manager

structure Safe (s t : Manager) : Prop where
  grows : Grows s t
  inv : Inv t

variable (s : Manager) (thread : ℕ)

theorem Grows.refl : Grows s s :=
  ⟨fun _ _ h => h, fun _ _ h => h, fun _ _ h => h, fun _ _ h => h, fun _ _ h => h⟩

theorem holds_grows (s t : Manager) (pc : Pc) (hg : Grows s t) (h : Holds s pc) : Holds t pc := by
  cases pc with
  | opened user ref => exact hg.sessions _ _ h
  | looking key ref => exact hg.sessions _ _ h
  | scanning key ref uuid => exact hg.sessions _ _ h
  | probing key ref uuid => exact hg.sessions _ _ h
  | claiming key ref uuid => exact ⟨hg.sessions _ _ h.1, hg.has _ _ h.2⟩
  | adopted key ref uuid =>
    exact ⟨hg.sessions _ _ h.1, hg.has _ _ h.2.1, hg.entries _ _ h.2.2⟩
  | creating key ref => exact hg.sessions _ _ h
  | mapping key ref thread => exact ⟨hg.sessions _ _ h.1, hg.has _ _ h.2⟩
  | undoing key ref thread =>
    exact ⟨hg.sessions _ _ h.1, hg.has _ _ h.2.1, hg.entries _ _ h.2.2⟩
  | resolved key ref thread =>
    exact ⟨hg.sessions _ _ h.1, hg.has _ _ h.2.1, hg.entries _ _ h.2.2⟩
  | fetched thread manager => exact hg.undo _ _ h
  | _ => exact h

/-- A call goes on; a registration stays one. -/
theorem at_safe (s t : Manager) (i : ℕ) (pc : Pc) (h : Safe s t) (hpc : Holds t pc)
    (hregs : ∀ key thread, Pc.registers key thread (t.pcs i) → Pc.registers key thread pc) :
    Safe s (t.at i pc) := by
  have hkeep : ∀ key thread, Registered t key thread → Registered (t.at i pc) key thread := by
    intro key thread ⟨j, hj⟩
    refine ⟨j, ?_⟩
    rw [at_pcs]
    split
    · rename_i hji
      exact hregs key thread (hji ▸ hj)
    · exact hj
  refine ⟨⟨h.grows.sessions, h.grows.owns, h.grows.has, h.grows.entries, h.grows.undo⟩,
    ⟨h.inv.ownership.of_eq rfl rfl, ?_, ?_⟩⟩
  · intro key key' thread hkey hkey' hne
    exact (h.inv.origin key key' thread hkey hkey' hne).imp (hkeep key thread) (hkeep key' thread)
  · intro j
    rw [at_pcs]
    split
    · exact hpc
    · exact h.inv.calls j

theorem data_safe (s t : Manager) (h : Inv s) (hg : Grows s t) (hpcs : t.pcs = s.pcs)
    (hownership : Ownership t)
    (horigin : ∀ key key' thread, t.threadMap.lookup key = some thread →
      t.threadMap.lookup key' = some thread → key ≠ key' →
      Registered s key thread ∨ Registered s key' thread) : Safe s t := by
  refine ⟨hg, hownership, ?_, ?_⟩
  · unfold Registered
    rw [hpcs]
    exact horigin
  · intro i
    rw [hpcs]
    exact holds_grows s t _ hg (h.calls i)

theorem same_safe (h : Inv s) : Safe s s := ⟨Grows.refl s, h⟩

theorem modify_safe (ref : ℕ) (f : Session → Session) (h : Inv s)
    (huser : ∀ sess, (f sess).user = sess.user)
    (hthreads : ∀ sess, (f sess).threads = sess.threads) :
    Safe s { s with heap := s.heap.modify ref f } := by
  refine data_safe s _ h ?_ rfl (modify_ownership s ref f h.ownership huser hthreads) h.origin
  refine ⟨fun _ _ h => h, modify_owns s ref f huser, ?_, fun _ _ h => h, fun _ _ h => h⟩
  apply modify_has s ref f
  intro sess thread ht
  rw [hthreads]
  exact ht

theorem addThread_safe (ref thread : ℕ) (h : Inv s)
    (hown : ∀ sess, s.heap[ref]? = some sess → ∀ other ∈ s.heap, thread ∈ other.threads →
      other.user = sess.user) : Safe s (s.addThread ref thread) :=
  data_safe s _ h
    ⟨fun _ _ h => h, addThread_owns s ref thread, addThread_has s ref thread, fun _ _ h => h,
      fun _ _ h => h⟩
    rfl (addThread_ownership s ref thread h.ownership hown) h.origin

theorem addSession_safe (user : String) (h : Inv s) (hnone : s.sessions.lookup user = none) :
    Safe s (s.addSession user) := by
  refine data_safe s _ h ?_ rfl (addSession_ownership s user h.ownership) h.origin
  refine ⟨?_, addSession_owns s user, addSession_has s user, fun _ _ h => h, fun _ _ h => h⟩
  intro u r hr
  have hne : u ≠ user := by
    intro heq
    rw [heq, hnone] at hr
    cases hr
  show (s.sessions.insert user _).lookup u = _
  rw [AList.lookup_insert_ne hne]
  exact hr

theorem map_safe (key : Key) (thread : ℕ) (h : Inv s)
    (hkey : s.threadMap.lookup key = none ∨ s.threadMap.lookup key = some thread)
    (hfresh : (∀ key', s.threadMap.lookup key' ≠ some thread) ∨ Registered s key thread) :
    Safe s (s.map key thread) := by
  have hlookup : ∀ k, (s.map key thread).threadMap.lookup k =
      if k = key then some thread else s.threadMap.lookup k := by
    intro k
    show (s.threadMap.insert key thread).lookup k = _
    split
    · rename_i hk
      rw [hk, AList.lookup_insert]
    · rename_i hk
      rw [AList.lookup_insert_ne hk]
  have hg : Grows s (s.map key thread) := by
    refine ⟨fun _ _ h => h, fun _ _ h => h, fun _ _ h => h, ?_, fun _ _ h => h⟩
    intro k t hk
    rw [hlookup]
    split
    · rename_i heq
      rw [heq] at hk
      rcases hkey with hnone | hsame
      · rw [hnone] at hk
        cases hk
      · rw [← hsame, hk]
    · exact hk
  refine data_safe s _ h hg rfl (h.ownership.of_eq rfl rfl) ?_
  intro k k' t hk hk' hne
  rw [hlookup] at hk hk'
  split at hk
  · rename_i heq
    have ht := Option.some.inj hk
    subst heq ht
    rw [if_neg (fun heq' => hne heq'.symm)] at hk'
    rcases hfresh with hfresh | hreg
    · exact absurd hk' (hfresh k')
    · exact .inl hreg
  · split at hk'
    · rename_i heq
      have ht := Option.some.inj hk'
      subst heq ht
      rcases hfresh with hfresh | hreg
      · exact absurd hk (hfresh k)
      · exact .inr hreg
    · exact h.origin k k' t hk hk' hne

theorem insertUndo_safe (h : Inv s) (hnone : s.undoManagers.lookup thread = none) :
    Safe s (s.insertUndo thread) := by
  refine data_safe s _ h ⟨fun _ _ h => h, fun _ _ h => h, fun _ _ h => h, fun _ _ h => h, ?_⟩ rfl
    (h.ownership.of_eq rfl rfl) h.origin
  intro t manager ht
  have hne : t ≠ thread := by
    intro heq
    rw [heq, hnone] at ht
    cases ht
  show (s.undoManagers.insert thread _).lookup t = _
  rw [AList.lookup_insert_ne hne]
  exact ht

theorem ensureUndo_safe (h : Inv s) : Safe s (s.ensureUndo thread) := by
  unfold Manager.ensureUndo
  split
  · exact same_safe s h
  · rename_i hnone
    exact insertUndo_safe s thread h hnone

theorem ensureSession_safe (user : String) (ref : ℕ) (h : Inv s)
    (howned : owned s user ref = true) : Safe s (s.ensureSession user ref) := by
  have howns := owns_of_owned s user ref howned
  have hownership := ensureSession_ownership s user ref h.ownership howns
  revert hownership
  unfold Manager.ensureSession
  split
  · exact fun _ => same_safe s h
  · rename_i hnone
    intro hownership
    refine data_safe s _ h ⟨?_, fun _ _ h => h, fun _ _ h => h, fun _ _ h => h, fun _ _ h => h⟩ rfl
      hownership h.origin
    intro u r hr
    have hne : u ≠ user := by
      intro heq
      rw [heq, hnone] at hr
      cases hr
    show (s.sessions.insert user ref).lookup u = _
    rw [AList.lookup_insert_ne hne]
    exact hr

theorem go_safe (s t : Manager) (i : ℕ) (pc : Pc) (h : Safe s t) (hpcs : t.pcs = s.pcs)
    (hnot : ∀ key thread, ¬ Pc.registers key thread (s.pcs i)) (hpc : Holds t pc) :
    Safe s (t.at i pc) := by
  apply at_safe s t i pc h hpc
  intro key thread hreg
  rw [hpcs] at hreg
  exact absurd hreg (hnot key thread)

theorem resolve_safe (s t : Manager) (i : ℕ) (key : Key) (ref thread : ℕ) (h : Safe s t)
    (hpcs : t.pcs = s.pcs) (hnot : ∀ key thread, ¬ Pc.registers key thread (s.pcs i))
    (hpc : Holds t (.resolved key ref thread)) : Safe s (t.resolve i key ref thread) := by
  have hnote : Safe s (t.note ref) :=
    ⟨⟨h.grows.sessions, h.grows.owns, h.grows.has, h.grows.entries, h.grows.undo⟩,
      ⟨h.inv.ownership.of_eq rfl rfl, h.inv.origin, h.inv.calls⟩⟩
  exact go_safe s (t.note ref) i _ hnote hpcs hnot hpc

theorem afterSession_holds (user : String) (key : Option Key) (ref : ℕ)
    (hkey : ∀ k, key = some k → k.user = user) (h : s.sessions.lookup user = some ref) :
    Holds s (afterSession user key ref) := by
  cases key with
  | none => exact h
  | some k =>
    show s.sessions.lookup k.user = some ref
    rw [hkey k rfl]
    exact h

theorem afterLookup_holds (key : Key) (ref : ℕ) (h : s.sessions.lookup key.user = some ref) :
    Holds s (afterLookup uuids key ref) := by
  unfold afterLookup
  split <;> exact h

theorem not_held (h : ¬ holds thread s.threadMap = true) (key : Key) :
    s.threadMap.lookup key ≠ some thread :=
  fun hkey => h ((holds_iff thread s.threadMap).mpr ⟨key, hkey⟩)

theorem map_lookup (key : Key) (thread : ℕ) :
    (s.map key thread).threadMap.lookup key = some thread :=
  AList.lookup_insert s.threadMap

theorem insertUndo_lookup :
    (s.insertUndo thread).undoManagers.lookup thread = some s.managers :=
  AList.lookup_insert s.undoManagers

theorem looking_safe (fresh i : ℕ) (key : Key) (ref : ℕ) (h : Inv s)
    (hpc : s.pcs i = .looking key ref) : Safe s (advance uuids i fresh s) := by
  have hcall := h.calls i
  have hsame := same_safe s h
  unfold advance
  rw [hpc] at hcall ⊢
  have hon := go_safe s s i (afterLookup uuids key ref) hsame rfl (by rw [hpc]; nofun)
    (afterLookup_holds uuids s key ref hcall)
  simp only
  split
  · rename_i thread hthread
    split
    · exact hsame
    · split
      · rename_i hcontains
        exact resolve_safe s s i key ref thread hsame rfl (by rw [hpc]; nofun)
          ⟨hcall, has_of_contains s ref thread hcontains, hthread⟩
      · exact hon
  · exact hon

/-- An adopted thread becomes the thread of its key, which no other call takes
in between. -/
theorem claiming_safe (fresh i : ℕ) (key : Key) (ref uuid : ℕ) (h : Inv s)
    (hpc : s.pcs i = .claiming key ref uuid) (hclear : clear s (s.pcs i) = true) :
    Safe s (advance uuids i fresh s) := by
  have hcall := h.calls i
  unfold advance
  rw [hpc] at hcall hclear ⊢
  simp only
  split
  · exact go_safe s s i _ (same_safe s h) rfl (by rw [hpc]; nofun) hcall.1
  · rename_i hheld
    have hnone : s.threadMap.lookup key = none := by
      simpa [clear, hheld] using hclear
    exact go_safe s _ i _ (map_safe s key uuid h (.inl hnone) (.inl (not_held s uuid hheld))) rfl
      (by rw [hpc]; nofun) ⟨hcall.1, hcall.2, map_lookup s key uuid⟩

theorem creating_safe (fresh i : ℕ) (key : Key) (ref : ℕ) (h : Inv s)
    (hpc : s.pcs i = .creating key ref) : Safe s (advance uuids i fresh s) := by
  have hcall := h.calls i
  unfold advance
  rw [hpc] at hcall ⊢
  simp only
  split
  · exact same_safe s h
  · rename_i hfree
    have hfresh : s.known fresh = false := by
      simp only [Bool.or_eq_true, not_or, Bool.not_eq_true] at hfree
      exact hfree.2
    have hadd := addThread_safe s ref fresh h
      (fun _ _ other hother hmem => absurd hmem (fresh_own s fresh hfresh other hother))
    have howns := h.ownership.owners key.user ref hcall
    exact go_safe s _ i _ hadd rfl (by rw [hpc]; nofun)
      ⟨hcall, addThread_new s ref fresh key.user howns⟩

/-- The three steps that register a thread under a key of the caller's choice. -/
theorem registering_safe (fresh i : ℕ) (key : Key) (thread ref : ℕ) (h : Inv s)
    (hpc : s.pcs i = .registering key thread ref ∨ s.pcs i = .keeping key thread ref ∨
      s.pcs i = .tracking key thread ref) (hclear : clear s (s.pcs i) = true) :
    Safe s (advance uuids i fresh s) := by
  unfold advance
  rcases hpc with hpc | hpc | hpc
  · rw [hpc] at hclear ⊢
    simp only [clear, Bool.or_eq_true, decide_eq_true_eq] at hclear
    have hreg : Registered s key thread := ⟨i, by rw [hpc]; exact ⟨rfl, rfl⟩⟩
    refine at_safe s _ i _ (map_safe s key thread h hclear (.inr hreg)) trivial ?_
    intro k t hk
    have hk : Pc.registers k t (s.pcs i) := hk
    rw [hpc] at hk
    exact hk
  · rw [hpc]
    refine at_safe s _ i _ (ensureUndo_safe s thread h) trivial ?_
    intro k t hk
    rw [ensureUndo_pcs, hpc] at hk
    exact hk
  · rw [hpc] at hclear ⊢
    refine at_safe s _ i _ (ensureSession_safe s key.user ref h hclear) trivial ?_
    intro k t hk
    rw [ensureSession_pcs, hpc] at hk
    exact hk

theorem advance_safe (i fresh : ℕ) (s : Manager) (h : Inv s)
    (hclear : clear s (s.pcs i) = true) : Safe s (advance uuids i fresh s) := by
  have hcall := h.calls i
  have hsame := same_safe s h
  unfold advance
  cases hpc : s.pcs i with
  | idle | opened _ _ | resolved _ _ _ | registered _ _ | fetched _ _ | pruned _ | panicked =>
    exact hsame
  | opening user key =>
    rw [hpc] at hcall
    simp only
    split
    · rename_i ref hsess
      exact go_safe s s i _ hsame rfl (by rw [hpc]; nofun)
        (afterSession_holds s user key ref hcall hsess)
    · exact go_safe s s i _ hsame rfl (by rw [hpc]; nofun) hcall
  | adding user key =>
    rw [hpc] at hcall
    simp only
    split
    · rename_i ref hsess
      exact go_safe s s i _ hsame rfl (by rw [hpc]; nofun)
        (afterSession_holds s user key ref hcall hsess)
    · rename_i hnone
      exact go_safe s _ i _ (addSession_safe s user h hnone) rfl (by rw [hpc]; nofun)
        (afterSession_holds _ user key _ hcall (AList.lookup_insert s.sessions))
  | looking key ref =>
    simpa only [advance, hpc] using looking_safe uuids s fresh i key ref h hpc
  | scanning key ref uuid =>
    rw [hpc] at hcall
    apply go_safe s s i _ hsame rfl (by rw [hpc]; nofun)
    split <;> exact hcall
  | probing key ref uuid =>
    rw [hpc] at hcall
    simp only
    split
    · exact hsame
    · apply go_safe s s i _ hsame rfl (by rw [hpc]; nofun)
      split
      · rename_i hcontains
        exact ⟨hcall, has_of_contains s ref uuid hcontains⟩
      · exact hcall
  | claiming key ref uuid =>
    simpa only [advance, hpc] using claiming_safe uuids s fresh i key ref uuid h hpc hclear
  | adopted key ref uuid =>
    rw [hpc] at hcall
    have hundo := ensureUndo_safe s uuid h
    exact resolve_safe s _ i key ref uuid hundo (ensureUndo_pcs s uuid) (by rw [hpc]; nofun)
      (holds_grows s _ (.resolved key ref uuid) hundo.grows hcall)
  | creating key ref =>
    simpa only [advance, hpc] using creating_safe uuids s fresh i key ref h hpc
  | mapping key ref thread =>
    rw [hpc] at hcall hclear
    simp only [clear, Bool.and_eq_true, Option.isNone_iff_eq_none, Bool.not_eq_true'] at hclear
    have hheld : ¬ holds thread s.threadMap = true := by
      rw [hclear.2]
      nofun
    exact go_safe s _ i _ (map_safe s key thread h (.inl hclear.1) (.inl (not_held s thread hheld)))
      rfl (by rw [hpc]; nofun) ⟨hcall.1, hcall.2, map_lookup s key thread⟩
  | undoing key ref thread =>
    rw [hpc] at hcall hclear
    simp only [clear, Option.isNone_iff_eq_none] at hclear
    exact resolve_safe s _ i key ref thread (insertUndo_safe s thread h hclear) rfl
      (by rw [hpc]; nofun) hcall
  | registering key thread ref =>
    simpa only [advance, hpc] using
      registering_safe uuids s fresh i key thread ref h (.inl hpc) hclear
  | keeping key thread ref =>
    simpa only [advance, hpc] using
      registering_safe uuids s fresh i key thread ref h (.inr (.inl hpc)) hclear
  | tracking key thread ref =>
    simpa only [advance, hpc] using
      registering_safe uuids s fresh i key thread ref h (.inr (.inr hpc)) hclear
  | fetching thread =>
    simp only
    split
    · rename_i manager hmanager
      exact go_safe s s i _ hsame rfl (by rw [hpc]; nofun) hmanager
    · exact go_safe s s i _ hsame rfl (by rw [hpc]; nofun) trivial
  | making thread =>
    simp only
    split
    · rename_i manager hmanager
      exact go_safe s s i _ hsame rfl (by rw [hpc]; nofun) hmanager
    · rename_i hnone
      exact go_safe s _ i _ (insertUndo_safe s thread h hnone) rfl (by rw [hpc]; nofun)
        (insertUndo_lookup s thread)
  | pruning _ _ | collecting _ _ _ | removing _ _ _ _ | unmapping _ _ _ | forgetting _ _ _ =>
    rw [hpc] at hcall
    exact hcall.elim

theorem begin_safe (i : ℕ) (pc : Pc) (s : Manager) (h : Inv s) (hpc : Holds s pc) :
    Safe s (begin i pc s) := by
  unfold begin
  split
  · rename_i hidle
    exact go_safe s s i pc (same_safe s h) rfl (by rw [hidle]; nofun) hpc
  · exact same_safe s h

theorem step_safe (l : Label) (s : Manager) (h : Inv s) (hcond : undisturbed l s = true) :
    Safe s (step uuids l s) := by
  have hsame := same_safe s h
  cases l with
  | pass time =>
    exact ⟨⟨fun _ _ h => h, fun _ _ h => h, fun _ _ h => h, fun _ _ h => h, fun _ _ h => h⟩,
      ⟨h.ownership.of_eq rfl rfl, h.origin, h.calls⟩⟩
  | getOrCreateSession i user => exact begin_safe i _ s h nofun
  | resolveThread i key =>
    apply begin_safe i _ s h
    intro k hk
    rw [Option.some.inj hk]
  | registerThread i user channel thread ref => exact begin_safe i _ s h trivial
  | getUndoManager i thread => exact begin_safe i _ s h trivial
  | pruneStaleSessions i maxIdle => cases hcond
  | go i fresh => exact advance_safe uuids i fresh s h hcond
  | createThread ref fresh =>
    simp only [step]
    split
    · exact hsame
    · rename_i hfree
      simp only [Bool.or_eq_true, not_or, Bool.not_eq_true] at hfree
      exact addThread_safe s ref fresh h
        (fun _ _ other hother hmem => absurd hmem (fresh_own s fresh hfree.2 other hother))
  | hydrate ref thread =>
    simp only [step]
    split
    · exact hsame
    · exact addThread_safe s ref thread h (ownThread_mem s ref thread hcond)
  | switchThread ref thread =>
    simp only [step]
    split
    · exact modify_safe s ref _ h (fun _ => rfl) (fun _ => rfl)
    · exact hsame
  | turn ref thread =>
    simp only [step]
    split
    · exact ⟨⟨fun _ _ h => h, fun _ _ h => h, fun _ _ h => h, fun _ _ h => h, fun _ _ h => h⟩,
        ⟨h.ownership.of_eq rfl rfl, h.origin, h.calls⟩⟩
    · exact hsame
  | lock ref =>
    simp only [step]
    split
    · exact hsame
    · exact modify_safe s ref _ h (fun _ => rfl) (fun _ => rfl)
  | unlock ref => exact modify_safe s ref _ h (fun _ => rfl) (fun _ => rfl)

theorem new_inv : Inv Manager.new :=
  ⟨⟨nofun, nofun⟩, nofun, fun _ => trivial⟩

theorem resolved_holds (i : ℕ) (key : Key) (ref thread : ℕ) (h : Inv s)
    (hpc : s.pcs i = .resolved key ref thread) :
    s.sessions.lookup key.user = some ref ∧ Has s ref thread ∧
      s.threadMap.lookup key = some thread := by
  have hcall := h.calls i
  rw [hpc] at hcall
  exact hcall

/-- Sessions and threads of different users are different. -/
theorem users_apart (h : Inv s) (user user' : String) (ref ref' thread thread' : ℕ)
    (href : s.sessions.lookup user = some ref) (href' : s.sessions.lookup user' = some ref')
    (hhas : Has s ref thread) (hhas' : Has s ref' thread') (hne : user ≠ user') :
    ref ≠ ref' ∧ thread ≠ thread' := by
  obtain ⟨sess, hsess, hthread⟩ := hhas
  obtain ⟨sess', hsess', hthread'⟩ := hhas'
  have huser : sess.user = user := by
    obtain ⟨o, ho, hu⟩ := h.ownership.owners user ref href
    rw [hsess] at ho
    rw [Option.some.inj ho]
    exact hu
  have huser' : sess'.user = user' := by
    obtain ⟨o, ho, hu⟩ := h.ownership.owners user' ref' href'
    rw [hsess'] at ho
    rw [Option.some.inj ho]
    exact hu
  constructor
  · intro heq
    rw [heq, hsess'] at hsess
    rw [← huser, ← huser', Option.some.inj hsess] at hne
    exact hne rfl
  · intro heq
    subst heq
    have hsame := h.ownership.apart sess (List.mem_of_getElem? hsess) sess'
      (List.mem_of_getElem? hsess') thread hthread hthread'
    rw [huser, huser'] at hsame
    exact hne hsame

/-- In every run whose steps write over nothing a key leads to one thread,
users share nothing, a thread is reached from a second channel only after a
registration there, and undo managers stay. -/
theorem keys_resolve (labels : List Label)
    (h : Along (step uuids) (fun l s => undisturbed l s = true) labels Manager.new) :
    Resolution uuids Registered labels := by
  have hstep := fun l s hs hc => step_safe uuids l s hs hc
  have hinv := guarded_invariant (step uuids) _ Inv (fun l s hs hc => (hstep l s hs hc).inv)
    labels _ h new_inv
  refine ⟨?_, ?_, ?_, ?_, ?_⟩
  · intro i j key ref thread ref' thread' hi hj
    obtain ⟨_, _, hkey⟩ := resolved_holds _ i key ref thread hinv hi
    obtain ⟨_, _, hkey'⟩ := resolved_holds _ j key ref' thread' hinv hj
    rw [hkey] at hkey'
    exact Option.some.inj hkey'
  · intro i j key ref thread key' ref' thread' hi hj hne
    obtain ⟨hsess, hhas, _⟩ := resolved_holds _ i key ref thread hinv hi
    obtain ⟨hsess', hhas', _⟩ := resolved_holds _ j key' ref' thread' hinv hj
    exact users_apart _ hinv _ _ ref ref' thread thread' hsess hsess' hhas hhas' hne
  · intro i j key ref key' ref' thread hi hj hne
    obtain ⟨_, _, hkey⟩ := resolved_holds _ i key ref thread hinv hi
    obtain ⟨_, _, hkey'⟩ := resolved_holds _ j key' ref' thread hinv hj
    exact hinv.origin key key' thread hkey hkey' (fun heq => hne (heq ▸ rfl))
  · intro before after hlabels thread manager hmanager
    rw [hlabels] at h ⊢
    obtain ⟨hbefore, hafter⟩ := along_split (step uuids) _ before after _ h
    have hthen := guarded_invariant (step uuids) _ Inv (fun l s hs hc => (hstep l s hs hc).inv)
      before _ hbefore new_inv
    rw [run_append]
    have hboth := guarded_invariant (step uuids) _
      (fun s => Inv s ∧ s.undoManagers.lookup thread = some manager)
      (fun l s hs hc => ⟨(hstep l s hs.1 hc).inv, (hstep l s hs.1 hc).grows.undo _ _ hs.2⟩)
      after _ hafter ⟨hthen, hmanager⟩
    exact hboth.2
  · intro i thread manager hi
    have hcall := hinv.calls i
    rw [hi] at hcall
    exact hcall

end

def oneUuid : Uuids where
  parse text := if text = "00000000-0000-0000-0000-000000000007" then some 7 else none
  print uuid := if uuid = 7 then "00000000-0000-0000-0000-000000000007" else ""

def onHttp : Key := ⟨"alice", "http", some (oneUuid.print 7)⟩

def onGateway : Key := ⟨"alice", "gateway", some (oneUuid.print 7)⟩

def twoChannels : List Label :=
  [.getOrCreateSession 0 "alice", .go 0 0, .go 0 0, .hydrate 0 7,
   .registerThread 1 "alice" "http" 7 0, .go 1 0, .go 1 0, .go 1 0,
   .registerThread 2 "alice" "gateway" 7 0, .go 2 0, .go 2 0, .go 2 0,
   .resolveThread 3 onHttp, .go 3 0, .go 3 0, .resolveThread 4 onGateway, .go 4 0, .go 4 0]

theorem two_channels_resolve :
    Resolution oneUuid Registered twoChannels ∧
      (run (step oneUuid) twoChannels Manager.new).pcs 3 = .resolved onHttp 0 7 :=
  ⟨keys_resolve oneUuid twoChannels (by decide), by decide⟩

def first : Key := ⟨"alice", "telegram", some "chat"⟩

def twoFirsts : List Label :=
  [.resolveThread 0 first, .resolveThread 1 first, .go 0 0, .go 0 0, .go 1 0, .go 0 0, .go 1 0,
   .go 0 5, .go 1 6, .go 0 0, .go 1 0, .go 0 0, .go 1 0]

theorem one_thread_two_channels :
    ¬ (∀ labels, (∀ i maxIdle, Label.pruneStaleSessions i maxIdle ∉ labels) →
        Resolution oneUuid Never labels) ∧
      ¬ Resolution oneUuid Registered twoFirsts := by
  constructor
  · intro h
    have htwo := h twoChannels (by intro i maxIdle hmem; simp [twoChannels] at hmem)
    rcases htwo.channels 3 4 onHttp 0 onGateway 0 7 (by decide) (by decide)
      (by decide) with hnever | hnever
    · exact hnever
    · exact hnever
  · intro h
    have hsame := h.same 0 1 first 0 5 0 6 (by decide) (by decide)
    cases hsame

end IronClaw.ThreadResolution
