import Mathlib.Order.Nat
import IronClaw.Lib.Runs
import IronClaw.LlmMessage

/-!
# The undo manager as a bounded zipper

Checkpoints of a conversation live on two stacks, the undo stack with its
oldest entry first and the redo stack with its top last. Fresh checkpoint
ids are supplied by the caller. One loop trims the undo stack, for new
checkpoints and for redo alike; the bound on both stacks together is what
keeps redo from losing an entry there.
-/

set_option autoImplicit false

namespace IronClaw.UndoHistory
open IronClaw.LlmMessage Lib.Runs

def defaultMaxCheckpoints : ℕ := 20

structure Checkpoint where
  id : Uuid
  turnNumber : ℕ
  messages : List ChatMessage
  description : String
  deriving DecidableEq

abbrev Snapshot := ℕ × List ChatMessage

def Checkpoint.snapshot (c : Checkpoint) : Snapshot := (c.turnNumber, c.messages)

structure UndoManager where
  undoStack : List Checkpoint
  redoStack : List Checkpoint
  maxCheckpoints : ℕ
  deriving DecidableEq

def new : UndoManager := ⟨[], [], defaultMaxCheckpoints⟩

def withMaxCheckpoints (u : UndoManager) (max : ℕ) : UndoManager := { u with maxCheckpoints := max }

def popFrontWhileOver (max : ℕ) : List Checkpoint → List Checkpoint
  | [] => []
  | c::cs => if max < (c::cs).length then popFrontWhileOver max cs else c::cs

def pushUndo (u : UndoManager) (c : Checkpoint) : UndoManager :=
  { u with undoStack := popFrontWhileOver u.maxCheckpoints (u.undoStack++[c]) }

def checkpoint (u : UndoManager) (id : Uuid) (turnNumber : ℕ) (messages : List ChatMessage)
    (description : String) : UndoManager :=
  pushUndo { u with redoStack := [] } ⟨id, turnNumber, messages, description⟩

def undo (u : UndoManager) (id : Uuid) (currentTurn : ℕ) (currentMessages : List ChatMessage) :
    Option Checkpoint × UndoManager :=
  if u.undoStack.isEmpty then (none, u)
  else
    let current : Checkpoint := ⟨id, currentTurn, currentMessages, "Turn " ++ toString currentTurn⟩
    (u.undoStack.getLast?,
      { u with undoStack := u.undoStack.dropLast, redoStack := u.redoStack++[current] })

def redo (u : UndoManager) (id : Uuid) (currentTurn : ℕ) (currentMessages : List ChatMessage) :
    Option Checkpoint × UndoManager :=
  if u.redoStack.isEmpty then (none, u)
  else
    let current : Checkpoint := ⟨id, currentTurn, currentMessages, "Turn " ++ toString currentTurn⟩
    let pushed := pushUndo u current
    (u.redoStack.getLast?, { pushed with redoStack := u.redoStack.dropLast })

def canUndo (u : UndoManager) : Bool := !u.undoStack.isEmpty

def canRedo (u : UndoManager) : Bool := !u.redoStack.isEmpty

def undoCount (u : UndoManager) : ℕ := u.undoStack.length

def redoCount (u : UndoManager) : ℕ := u.redoStack.length

def clear (u : UndoManager) : UndoManager := { u with undoStack := [], redoStack := [] }

def restore (u : UndoManager) (checkpointId : Uuid) : Option Checkpoint × UndoManager :=
  match u.undoStack.findIdx? (fun c => c.id = checkpointId) with
  | none => (none, u)
  | some pos =>
    let kept := u.undoStack.take (pos+1)
    (kept.getLast?, { u with undoStack := kept.dropLast, redoStack := [] })

inductive Op where
  | checkpoint (id : Uuid) (turnNumber : ℕ) (messages : List ChatMessage) (description : String)
  | undo (id : Uuid) (currentTurn : ℕ) (currentMessages : List ChatMessage)
  | redo (id : Uuid) (currentTurn : ℕ) (currentMessages : List ChatMessage)
  | restore (checkpointId : Uuid)
  | clear
  deriving DecidableEq

def apply : Op → UndoManager → UndoManager
  | .checkpoint id n ms d, u => checkpoint u id n ms d
  | .undo id n ms, u => (undo u id n ms).2
  | .redo id n ms, u => (redo u id n ms).2
  | .restore id, u => (restore u id).2
  | .clear, u => clear u

def total (u : UndoManager) : ℕ := undoCount u+redoCount u

def Bounded (u : UndoManager) : Prop := total u ≤ u.maxCheckpoints

theorem pop_front_length (max : ℕ) (cs : List Checkpoint) :
    (popFrontWhileOver max cs).length ≤ max := by
  induction cs with
  | nil => exact Nat.zero_le _
  | cons c cs ih =>
    simp only [popFrontWhileOver]
    split
    · exact ih
    · omega

theorem pop_front_within (max : ℕ) (cs : List Checkpoint) (h : cs.length ≤ max) :
    popFrontWhileOver max cs = cs := by
  cases cs with
  | nil => rfl
  | cons c cs => rw [popFrontWhileOver, if_neg (Nat.not_lt.mpr h)]

variable (u : UndoManager) (id : Uuid)

theorem undo_empty (n : ℕ) (ms : List ChatMessage) (h : u.undoStack = []) :
    undo u id n ms = (none, u) := by
  simp [undo, h]

theorem undo_push (stack : List Checkpoint) (c : Checkpoint) (id : Uuid) (n : ℕ)
    (ms : List ChatMessage) (h : u.undoStack = stack++[c]) :
    undo u id n ms = (some c, { u with
      undoStack := stack, redoStack := u.redoStack++[⟨id, n, ms, "Turn " ++ toString n⟩] }) := by
  simp [undo, h]

theorem redo_empty (n : ℕ) (ms : List ChatMessage) (h : u.redoStack = []) :
    redo u id n ms = (none, u) := by
  simp [redo, h]

theorem redo_push (stack : List Checkpoint) (c : Checkpoint) (id : Uuid) (n : ℕ)
    (ms : List ChatMessage) (hb : Bounded u) (h : u.redoStack = stack++[c]) :
    redo u id n ms = (some c, { u with
      undoStack := u.undoStack++[⟨id, n, ms, "Turn " ++ toString n⟩], redoStack := stack }) := by
  have hroom : (u.undoStack++[(⟨id, n, ms, "Turn " ++ toString n⟩ : Checkpoint)]).length ≤
      u.maxCheckpoints := by
    simp only [Bounded, total, undoCount, redoCount, h, List.length_append,
      List.length_singleton] at *
    omega
  have hpush := pop_front_within _ _ hroom
  simpa [redo, pushUndo, h] using hpush

theorem undo_total (n : ℕ) (ms : List ChatMessage) :
    total (undo u id n ms).2 = total u := by
  rcases List.eq_nil_or_concat' u.undoStack with h | ⟨stack, c, h⟩
  · rw [undo_empty u id n ms h]
  · rw [undo_push u stack c id n ms h]
    simp [total, undoCount, redoCount, h]
    omega

theorem redo_total (n : ℕ) (ms : List ChatMessage) (hb : Bounded u) :
    total (redo u id n ms).2 = total u := by
  rcases List.eq_nil_or_concat' u.redoStack with h | ⟨stack, c, h⟩
  · rw [redo_empty u id n ms h]
  · rw [redo_push u stack c id n ms hb h]
    simp [total, undoCount, redoCount, h]
    omega

theorem restore_total : total (restore u id).2 ≤ total u := by
  unfold restore
  split
  · exact le_refl _
  · simp [total, undoCount, redoCount]
    omega

theorem apply_max (op : Op) (u : UndoManager) :
    (apply op u).maxCheckpoints = u.maxCheckpoints := by
  cases op with
  | checkpoint id n ms d => rfl
  | undo id n ms => simp only [apply, undo]; split <;> rfl
  | redo id n ms => simp only [apply, redo]; split <;> rfl
  | restore id => simp only [apply, restore]; split <;> rfl
  | clear => rfl

theorem apply_bounded (op : Op) (u : UndoManager) (hb : Bounded u) : Bounded (apply op u) := by
  unfold Bounded
  rw [apply_max]
  cases op with
  | checkpoint id n ms d => exact pop_front_length u.maxCheckpoints _
  | undo id n ms => exact (undo_total u id n ms).le.trans hb
  | redo id n ms => exact (redo_total u id n ms hb).le.trans hb
  | restore id => exact (restore_total u id).trans hb
  | clear => exact Nat.zero_le _

theorem run_bounded (ops : List Op) (m : ℕ) :
    Bounded (run apply ops (withMaxCheckpoints new m)) :=
  run_invariant apply Bounded apply_bounded ops _ (Nat.zero_le m)

theorem run_max (ops : List Op) (u : UndoManager) :
    (run apply ops u).maxCheckpoints = u.maxCheckpoints :=
  run_invariant apply (fun v => v.maxCheckpoints = u.maxCheckpoints)
    (fun op v h => (apply_max op v).trans h) ops u rfl

def undoAll : List Uuid → Snapshot → UndoManager → Option (Snapshot × UndoManager)
  | [], s, u => some (s, u)
  | id::ids, s, u =>
    match undo u id s.1 s.2 with
    | (none, _) => none
    | (some c, v) => undoAll ids c.snapshot v

def redoAll : List Uuid → Snapshot → UndoManager → Option (Snapshot × UndoManager)
  | [], s, u => some (s, u)
  | id::ids, s, u =>
    match redo u id s.1 s.2 with
    | (none, _) => none
    | (some c, v) => redoAll ids c.snapshot v

def SameSnapshots (u v : UndoManager) : Prop :=
  u.undoStack.map Checkpoint.snapshot = v.undoStack.map Checkpoint.snapshot ∧
  u.redoStack.map Checkpoint.snapshot = v.redoStack.map Checkpoint.snapshot

theorem redoAll_snoc (ids : List Uuid) (id : Uuid) (s : Snapshot) (u : UndoManager) :
    redoAll (ids++[id]) s u = (redoAll ids s u).bind (fun r => redoAll [id] r.1 r.2) := by
  induction ids generalizing s u with
  | nil => rfl
  | cons i ids ih =>
    simp only [List.cons_append, redoAll]
    split
    · rfl
    · exact ih _ _

/-- A redo answers an undo: whatever manager holds the snapshots that an undo
left, redoing from the undone state brings the old state and stacks back. -/
theorem redo_after_undo (u v : UndoManager) (stack : List Checkpoint) (c : Checkpoint)
    (i j : Uuid) (s : Snapshot) (hv : Bounded v) (hu : u.undoStack = stack++[c])
    (hs : SameSnapshots v (undo u i s.1 s.2).2) :
    ∃ w, redoAll [j] c.snapshot v = some (s, w) ∧ Bounded w ∧ SameSnapshots w u ∧
      w.maxCheckpoints = v.maxCheckpoints := by
  rw [undo_push u stack c i s.1 s.2 hu] at hs
  obtain ⟨hundo, hredo⟩ := hs
  simp only [List.map_append, List.map_cons, List.map_nil] at hundo hredo
  rcases List.eq_nil_or_concat' v.redoStack with he | ⟨rest, d, he⟩
  · simp [he] at hredo
  · rw [he, List.map_append] at hredo
    obtain ⟨hrest, hd⟩ := List.append_inj' hredo rfl
    have hd' : d.snapshot = s := (List.cons.inj hd).1
    have hstep := redo_push v rest d j c.snapshot.1 c.snapshot.2 hv he
    have hbound := apply_bounded (.redo j c.snapshot.1 c.snapshot.2) v hv
    rw [apply, hstep] at hbound
    refine ⟨_, by rw [redoAll, hstep]; simp only [redoAll, hd'], hbound, ⟨?_, hrest⟩, rfl⟩
    simp [hu, hundo, Checkpoint.snapshot]

/-- As many redos as undos, with any fresh ids, give the state and both
stacks back. The bound is what lets every redo push without trimming. -/
theorem undo_redo_roundtrip (ids jds : List Uuid) (s : Snapshot) (u : UndoManager)
    (hb : Bounded u) (hk : ids.length ≤ undoCount u) (hl : jds.length = ids.length) :
    ∃ t v w, undoAll ids s u = some (t, v) ∧ redoAll jds t v = some (s, w) ∧
      Bounded w ∧ SameSnapshots w u ∧ w.maxCheckpoints = u.maxCheckpoints := by
  induction ids generalizing s u jds with
  | nil =>
    obtain rfl : jds = [] := List.eq_nil_of_length_eq_zero hl
    exact ⟨s, u, u, rfl, rfl, hb, ⟨rfl, rfl⟩, rfl⟩
  | cons i ids ih =>
    rcases List.eq_nil_or_concat' u.undoStack with he | ⟨stack, c, he⟩
    · simp [undoCount, he] at hk
    rcases List.eq_nil_or_concat' jds with hj | ⟨js, j, hj⟩
    · simp [hj] at hl
    have hstep := undo_push u stack c i s.1 s.2 he
    have hbound := apply_bounded (.undo i s.1 s.2) u hb
    have hmax := apply_max (.undo i s.1 s.2) u
    rw [apply] at hbound hmax
    have hcount : ids.length ≤ undoCount (undo u i s.1 s.2).2 := by
      simp only [undoCount, he, hstep, List.length_append, List.length_cons, List.length_nil] at *
      omega
    obtain ⟨t, v, w, hundo, hredo, hw, hsame, hwmax⟩ :=
      ih js c.snapshot _ hbound hcount (by simpa [hj] using hl)
    obtain ⟨x, hlast, hx, hxs, hxmax⟩ := redo_after_undo u w stack c i j s hw he hsame
    refine ⟨t, v, x, ?_, ?_, hx, hxs, ?_⟩
    · rw [undoAll, hstep]
      simpa only [hstep] using hundo
    · rw [hj, redoAll_snoc, hredo]
      exact hlast
    · rw [hxmax, hwmax, hmax]

/-- Every operation sequence, under every limit. The total of both stacks is
bounded by the limit, only `checkpoint`, `restore` and `clear` change it, a
redo keeps every undo entry, and any number of undos the stack allows is
taken back exactly by as many redos. -/
theorem undo_zipper (m : ℕ) (ops : List Op) (u : UndoManager)
    (hu : u = run apply ops (withMaxCheckpoints new m)) :
    undoCount u+redoCount u ≤ m ∧
    (∀ op, total (apply op u) ≠ total u →
      (∃ id n ms d, op = .checkpoint id n ms d) ∨ (∃ id, op = .restore id) ∨ op = .clear) ∧
    (∀ id n ms, u.undoStack <+: (redo u id n ms).2.undoStack) ∧
    (∀ ids jds : List Uuid, ∀ s : Snapshot,
      ids.length ≤ undoCount u → jds.length = ids.length →
      ∃ t v w, undoAll ids s u = some (t, v) ∧ redoAll jds t v = some (s, w) ∧
        SameSnapshots w u) := by
  have hb : Bounded u := by rw [hu]; exact run_bounded ops m
  have hm : u.maxCheckpoints = m := by rw [hu, run_max]; rfl
  refine ⟨hm ▸ hb, ?_, ?_, ?_⟩
  · intro op hop
    cases op with
    | checkpoint id n ms d => exact Or.inl ⟨id, n, ms, d, rfl⟩
    | undo id n ms => exact absurd (undo_total u id n ms) hop
    | redo id n ms => exact absurd (redo_total u id n ms hb) hop
    | restore id => exact Or.inr (Or.inl ⟨id, rfl⟩)
    | clear => exact Or.inr (Or.inr rfl)
  · intro id n ms
    rcases List.eq_nil_or_concat' u.redoStack with he | ⟨rest, c, he⟩
    · simp [redo_empty u id n ms he]
    · rw [redo_push u rest c id n ms hb he]
      exact List.prefix_append _ _
  · intro ids jds s hk hl
    obtain ⟨t, v, w, hundo, hredo, -, hsame, -⟩ := undo_redo_roundtrip ids jds s u hb hk hl
    exact ⟨t, v, w, hundo, hredo, hsame⟩

theorem undo_zipper_two_checkpoints :
    ∃ t v w,
      undoAll [3, 4] (2, []) (run apply [.checkpoint 1 0 [] "Before turn 1",
        .checkpoint 2 1 [.user "hello"] "Before turn 2"] (withMaxCheckpoints new 2)) =
        some (t, v) ∧
      redoAll [5, 6] t v = some ((2, []), w) ∧
      SameSnapshots w (run apply [.checkpoint 1 0 [] "Before turn 1",
        .checkpoint 2 1 [.user "hello"] "Before turn 2"] (withMaxCheckpoints new 2)) :=
  (undo_zipper 2 _ _ rfl).2.2.2 [3, 4] [5, 6] (2, []) (by decide) rfl

end IronClaw.UndoHistory
