import IronClaw.Lib.Runs

/-!
# Tasks over a shared state

A task acts on the shared state in atomic steps, each with an input of the
environment, and ends with a result or a panic. A step may wait until the state
is ready for it. A pool interleaves any number of tasks in any order.

The proof rule is rely and guarantee. A task meets its specification when each
of its steps keeps the invariant and stays within what the task guarantees,
whatever the others do within what the task relies on. The tasks of a pool
then meet their specifications together.
-/

set_option autoImplicit false

namespace Lib.Tasks
open Lib.Runs

variable {ι κ σ ε ρ α β : Type}

inductive Task (σ ε ρ : Type) where
  | done (result : ρ)
  | panicked
  | act (ready : σ → Bool) (update : ε → σ → σ) (next : ε → σ → Task σ ε ρ)

def Task.bind : Task σ ε α → (α → Task σ ε β) → Task σ ε β
  | .done a, k => k a
  | .panicked, _ => .panicked
  | .act ready update next, k => .act ready update (fun e s => (next e s).bind k)

instance instMonadTask (σ ε : Type) : Monad (Task σ ε) where
  pure := .done
  bind := Task.bind

def await (ready : σ → Bool) (f : ε → σ → α × σ) : Task σ ε α :=
  .act ready (fun e s => (f e s).2) (fun e s => .done (f e s).1)

def perform (f : ε → σ → α × σ) : Task σ ε α := await (fun _ => true) f

def read (f : σ → α) : Task σ ε α := perform (fun _ s => (f s, s))

def modify (f : σ → σ) : Task σ ε Unit := perform (fun _ s => ((), f s))

def cleanup (release : σ → σ) : Task σ ε α → Task σ ε α
  | .done a => .act (fun _ => true) (fun _ s => release s) (fun _ _ => .done a)
  | .panicked => .act (fun _ => true) (fun _ s => release s) (fun _ _ => .panicked)
  | .act ready update next => .act ready update (fun e s => cleanup release (next e s))

structure Protocol (ι σ ε : Type) where
  inv : σ → Prop
  allowed : ι → ε → σ → Prop
  mayPanic : Prop
  guar : ι → σ → σ → Prop
  rely : ι → σ → σ → Prop
  idle : ι → σ → Prop
  rely_refl : ∀ i s, rely i s s
  rely_trans : ∀ i s t u, rely i s t → rely i t u → rely i s u
  guar_rely : ∀ i j s t, i ≠ j → guar j s t → rely i s t
  idle_rely : ∀ i s t, idle i s → rely i s t → idle i t

section Rules

variable (P : Protocol ι σ ε) (i : ι)

def Meets (post : ρ → σ → Prop) : (σ → Prop) → Task σ ε ρ → Prop
  | pre, .done result => ∀ s, P.inv s → pre s → post result s
  | pre, .panicked => ∀ s, P.inv s → pre s → P.mayPanic
  | pre, .act ready update next => ∀ e s, P.inv s → P.allowed i e s → ready s = true → pre s →
      P.inv (update e s) ∧ P.guar i s (update e s) ∧
        Meets post (P.rely i (update e s)) (next e s)

variable {P i}

theorem meets_pre {post : ρ → σ → Prop} {pre pre' : σ → Prop} (task : Task σ ε ρ)
    (himp : ∀ s, P.inv s → pre s → pre' s) (h : Meets P i post pre' task) :
    Meets P i post pre task := by
  cases task with
  | done result =>
    intro s hs hpre
    exact h s hs (himp s hs hpre)
  | panicked =>
    intro s hs hpre
    exact h s hs (himp s hs hpre)
  | act ready update next =>
    intro e s hs he hready hpre
    exact h e s hs he hready (himp s hs hpre)

theorem meets_post {post post' : ρ → σ → Prop} {pre : σ → Prop} (task : Task σ ε ρ)
    (himp : ∀ r s, P.inv s → post r s → post' r s) (h : Meets P i post pre task) :
    Meets P i post' pre task := by
  induction task generalizing pre with
  | done result =>
    intro s hs hpre
    exact himp result s hs (h s hs hpre)
  | panicked => exact h
  | act ready update next ih =>
    intro e s hs he hready hpre
    obtain ⟨hinv, hguar, hnext⟩ := h e s hs he hready hpre
    exact ⟨hinv, hguar, ih e s hnext⟩

theorem meets_exists {γ : Type} {post : ρ → σ → Prop} {pre : γ → σ → Prop} (task : Task σ ε ρ)
    (h : ∀ x, Meets P i post (pre x) task) : Meets P i post (fun s => ∃ x, pre x s) task := by
  cases task with
  | done result =>
    rintro s hs ⟨x, hpre⟩
    exact h x s hs hpre
  | panicked =>
    rintro s hs ⟨x, hpre⟩
    exact h x s hs hpre
  | act ready update next =>
    rintro e s hs he hready ⟨x, hpre⟩
    exact h x e s hs he hready hpre

theorem meets_fact {fact : Prop} {post : ρ → σ → Prop} {pre : σ → Prop} (task : Task σ ε ρ)
    (h : fact → Meets P i post pre task) : Meets P i post (fun s => fact ∧ pre s) task := by
  cases task with
  | done result =>
    rintro s hs ⟨hfact, hpre⟩
    exact h hfact s hs hpre
  | panicked =>
    rintro s hs ⟨hfact, hpre⟩
    exact h hfact s hs hpre
  | act ready update next =>
    rintro e s hs he hready ⟨hfact, hpre⟩
    exact h hfact e s hs he hready hpre

theorem meets_panicked {post : ρ → σ → Prop} {pre : σ → Prop} (h : P.mayPanic) :
    Meets P i post pre (.panicked : Task σ ε ρ) := fun _ _ _ => h

theorem meets_done {post : ρ → σ → Prop} {pre : σ → Prop} (result : ρ)
    (h : ∀ s, P.inv s → pre s → post result s) :
    Meets P i post pre (pure result : Task σ ε ρ) := h

theorem meets_bind {mid : α → σ → Prop} {post : β → σ → Prop} {pre : σ → Prop}
    {task : Task σ ε α} {k : α → Task σ ε β} (h : Meets P i mid pre task)
    (hk : ∀ a, Meets P i post (mid a) (k a)) : Meets P i post pre (task >>= k) := by
  induction task generalizing pre with
  | done a => exact meets_pre (k a) h (hk a)
  | panicked => exact h
  | act ready update next ih =>
    intro e s hs he hready hpre
    obtain ⟨hinv, hguar, hnext⟩ := h e s hs he hready hpre
    exact ⟨hinv, hguar, ih e s hnext⟩

theorem meets_through {post : β → σ → Prop} {pre : σ → Prop} {task : Task σ ε α}
    {k : α → Task σ ε β} (mid : α → σ → Prop) (h : Meets P i mid pre task)
    (hk : ∀ a, Meets P i post (mid a) (k a)) : Meets P i post pre (task >>= k) :=
  meets_bind h hk

theorem meets_await {post : α → σ → Prop} {pre : σ → Prop} (ready : σ → Bool)
    (f : ε → σ → α × σ)
    (h : ∀ e s, P.inv s → P.allowed i e s → ready s = true → pre s →
      P.inv (f e s).2 ∧ P.guar i s (f e s).2 ∧
        ∀ t, P.inv t → P.rely i (f e s).2 t → post (f e s).1 t) :
    Meets P i post pre (await ready f) := h

theorem meets_perform {post : α → σ → Prop} {pre : σ → Prop} (f : ε → σ → α × σ)
    (h : ∀ e s, P.inv s → P.allowed i e s → pre s →
      P.inv (f e s).2 ∧ P.guar i s (f e s).2 ∧
        ∀ t, P.inv t → P.rely i (f e s).2 t → post (f e s).1 t) :
    Meets P i post pre (perform f) :=
  meets_await (fun _ => true) f (fun e s hs he _ => h e s hs he)

theorem meets_modify {post : Unit → σ → Prop} {pre : σ → Prop} (f : σ → σ)
    (h : ∀ s, P.inv s → pre s →
      P.inv (f s) ∧ P.guar i s (f s) ∧ ∀ t, P.inv t → P.rely i (f s) t → post () t) :
    Meets P i post pre (modify f : Task σ ε Unit) := by
  apply meets_perform
  intro _ s hs _ hpre
  exact h s hs hpre

/-- The rule of the last step: it has to be safe wherever the task ends. -/
theorem meets_cleanup {post post' : ρ → σ → Prop} {pre : σ → Prop} (release : σ → σ)
    (task : Task σ ε ρ) (h : Meets P i post pre task)
    (hrelease : ∀ s, P.inv s → P.inv (release s) ∧ P.guar i s (release s))
    (hpost : ∀ r s t, P.inv s → post r s → P.inv t → P.rely i (release s) t → post' r t) :
    Meets P i post' pre (cleanup release task) := by
  induction task generalizing pre with
  | done r =>
    intro e s hs _ _ hpre
    exact ⟨(hrelease s hs).1, (hrelease s hs).2, fun t ht hrely =>
      hpost r s t hs (h s hs hpre) ht hrely⟩
  | panicked =>
    intro e s hs _ _ hpre
    exact ⟨(hrelease s hs).1, (hrelease s hs).2, fun _ _ _ => h s hs hpre⟩
  | act ready update next ih =>
    intro e s hs he hready hpre
    obtain ⟨hinv, hguar, hnext⟩ := h e s hs he hready hpre
    exact ⟨hinv, hguar, ih e s hnext⟩

end Rules

/-! ## Pools -/

structure Pool (ι κ σ ε ρ : Type) where
  shared : σ
  tasks : ι → Option (κ × Task σ ε ρ)

inductive Event (ι κ ε : Type) where
  | start (id : ι) (question : κ)
  | advance (id : ι) (input : ε)

section Pools

variable [DecidableEq ι] (program : ι → κ → Task σ ε ρ)

def Pool.new (shared : σ) : Pool ι κ σ ε ρ := ⟨shared, fun _ => none⟩

def step : Event ι κ ε → Pool ι κ σ ε ρ → Pool ι κ σ ε ρ
  | .start id question, p =>
    match p.tasks id with
    | some _ => p
    | none => { p with
        tasks := Function.update p.tasks id (some (question, program id question)) }
  | .advance id input, p =>
    match p.tasks id with
    | some (question, .act ready update next) =>
      if ready p.shared then
        ⟨update input p.shared,
          Function.update p.tasks id (some (question, next input p.shared))⟩
      else p
    | _ => p

def Permitted (P : Protocol ι σ ε) : Event ι κ ε → Pool ι κ σ ε ρ → Prop
  | .start _ _, _ => True
  | .advance id input, p => P.allowed id input p.shared

variable (P : Protocol ι σ ε) (post : ι → κ → ρ → σ → Prop)

structure Working (p : Pool ι κ σ ε ρ) : Prop where
  inv : P.inv p.shared
  idle : ∀ i, p.tasks i = none → P.idle i p.shared
  meets : ∀ i question task, p.tasks i = some (question, task) →
    Meets P i (post i question) (P.rely i p.shared) task

variable {P post}

/-- A pool goes on working when one task moves on within its specification and
the others can rely on what it did. -/
theorem replace_working (p : Pool ι κ σ ε ρ) (id : ι) (question : κ) (task : Task σ ε ρ)
    (shared : σ) (hp : Working P post p) (hinv : P.inv shared)
    (hothers : ∀ i, i ≠ id → P.rely i p.shared shared)
    (htask : Meets P id (post id question) (P.rely id shared) task) :
    Working P post ⟨shared, Function.update p.tasks id (some (question, task))⟩ := by
  refine ⟨hinv, ?_, ?_⟩
  · intro i hi
    by_cases h : i = id
    · rw [h] at hi
      dsimp only at hi
      rw [Function.update_self] at hi
      cases hi
    · dsimp only at hi
      rw [Function.update_of_ne h] at hi
      exact P.idle_rely i _ _ (hp.idle i hi) (hothers i h)
  · intro i asked other hi
    by_cases h : i = id
    · rw [h] at hi ⊢
      dsimp only at hi
      rw [Function.update_self] at hi
      obtain ⟨rfl, rfl⟩ := Prod.mk.inj (Option.some.inj hi)
      exact htask
    · dsimp only at hi
      rw [Function.update_of_ne h] at hi
      apply meets_pre other _ (hp.meets i asked other hi)
      intro s _ hrely
      exact P.rely_trans i _ _ s (hothers i h) hrely

theorem start_working (hstart : ∀ i question, Meets P i (post i question) (P.idle i)
      (program i question)) (id : ι) (question : κ) (p : Pool ι κ σ ε ρ)
    (hp : Working P post p) : Working P post (step program (.start id question) p) := by
  rw [step]
  split
  · exact hp
  · next hnone =>
    apply replace_working p id question _ p.shared hp hp.inv
    · intro i _
      exact P.rely_refl i _
    · apply meets_pre _ _ (hstart id question)
      intro s _ hrely
      exact P.idle_rely id _ s (hp.idle id hnone) hrely

theorem advance_working (id : ι) (input : ε) (p : Pool ι κ σ ε ρ) (hp : Working P post p)
    (hinput : P.allowed id input p.shared) :
    Working P post (step program (.advance id input) p) := by
  rw [step]
  split
  · next question ready update next hrun =>
    split
    · next hready =>
      obtain ⟨hinv, hguar, hnext⟩ :=
        hp.meets id question _ hrun input p.shared hp.inv hinput hready (P.rely_refl id _)
      apply replace_working p id question _ _ hp hinv _ hnext
      intro i h
      exact P.guar_rely i id _ _ h hguar
    · exact hp
  · exact hp

theorem step_working (hstart : ∀ i question, Meets P i (post i question) (P.idle i)
      (program i question)) (event : Event ι κ ε) (p : Pool ι κ σ ε ρ) (hp : Working P post p)
    (hevent : Permitted P event p) : Working P post (step program event p) := by
  cases event with
  | start id question => exact start_working program hstart id question p hp
  | advance id input => exact advance_working program id input p hp hevent

theorem run_working (hstart : ∀ i question, Meets P i (post i question) (P.idle i)
      (program i question)) (events : List (Event ι κ ε)) (shared : σ) (hinv : P.inv shared)
    (hidle : ∀ i, P.idle i shared)
    (hevents : Along (step program) (Permitted P) events (Pool.new shared)) :
    Working P post (run (step program) events (Pool.new shared)) := by
  apply guarded_invariant (step program) (Permitted P) (Working P post) _ events _ hevents
  · refine ⟨hinv, fun i _ => hidle i, ?_⟩
    intro i question task h
    cases h
  · intro event p hp hevent
    exact step_working program hstart event p hp hevent

def Pool.returned (p : Pool ι κ σ ε ρ) (i : ι) (question : κ) (result : ρ) : Prop :=
  p.tasks i = some (question, .done result)

end Pools

end Lib.Tasks
