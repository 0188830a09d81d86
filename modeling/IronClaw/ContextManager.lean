import IronClaw.JobRepair
import IronClaw.Lib.Entries

/-!
# The table of job contexts and the table of memories

`context/manager.rs` keeps the contexts and the memories of the jobs behind one
lock each. An insertion takes the first lock to check the limit and to store
the context, and the second one to store the memory; a removal takes them in
the same order. A step is what one call does under one lock. Calls are numbered,
and each is about one job.
-/

set_option autoImplicit false

namespace IronClaw.ContextManager
open IronClaw.JobLifecycle IronClaw.JobRepair Lib.Entries Lib.Runs

def isParallelBlocking : JobState → Bool
  | .pending => true
  | .inProgress => true
  | .stuck => true
  | _ => false

def withUser : JobContext := ⟨.pending, 0, 0, none, none, 0, []⟩

/-- What a closure of `update_context` does with the context, operation by
operation; an operation that is refused leaves it. -/
inductive Op where
  | transitionTo (now : ℤ) (newState : JobState) (reason : Option String)
  | markStuck (now : ℤ) (reason : String)
  | attemptRecovery (now : ℤ)
  deriving DecidableEq

def Op.result : Op → JobContext → Except String JobContext
  | .transitionTo now newState reason, ctx => ctx.transitionTo now newState reason
  | .markStuck now reason, ctx => ctx.markStuck now reason
  | .attemptRecovery now, ctx => JobRepair.attemptRecovery now ctx

def Op.apply (op : Op) (ctx : JobContext) : JobContext :=
  match op.result ctx with
  | .ok ctx' => ctx'
  | .error _ => ctx

def applyAll (ops : List Op) (ctx : JobContext) : JobContext :=
  ops.foldl (fun ctx op => op.apply ctx) ctx

inductive Call where
  | createJob (jobId : ℕ)
  | createJobForUser (jobId : ℕ) (userId : String)
  | registerSandboxJob (jobId : ℕ) (now : ℤ)
  | updateContext (jobId : ℕ) (ops : List Op)
  | removeJob (jobId : ℕ)
  deriving DecidableEq

def Call.jobId : Call → ℕ
  | .createJob jobId => jobId
  | .createJobForUser jobId _ => jobId
  | .registerSandboxJob jobId _ => jobId
  | .updateContext jobId _ => jobId
  | .removeJob jobId => jobId

def Call.context : Call → Option JobContext
  | .createJob _ => some withUser
  | .createJobForUser _ _ => some withUser
  | .registerSandboxJob _ now => some { withUser with state := .inProgress, startedAt := some now }
  | _ => none

inductive Reply where
  | inserted
  | maxJobsExceeded (max : ℕ)
  | updated
  | removed (context : JobContext)
  | notFound (jobId : ℕ)
  deriving DecidableEq

inductive Pc where
  | start
  | inserting
  | removing (context : JobContext)
  | returned (reply : Reply)
  deriving DecidableEq

def Pc.inProgress : Pc → Bool
  | .inserting => true
  | .removing _ => true
  | _ => false

structure Manager where
  contexts : AList (fun _ : ℕ => JobContext)
  memories : AList (fun _ : ℕ => Unit)
  pcs : ℕ → Pc
  taken : ℕ → Bool

def Manager.new : Manager := ⟨∅, ∅, fun _ => .start, fun _ => false⟩

def Manager.withContext (m : Manager) (jobId : ℕ) (context : JobContext) : Manager :=
  { m with contexts := m.contexts.insert jobId context }

def Manager.withMemory (m : Manager) (jobId : ℕ) : Manager :=
  { m with memories := m.memories.insert jobId () }

def Manager.takeContext (m : Manager) (i jobId : ℕ) : Manager :=
  { m with contexts := m.contexts.erase jobId, taken := Function.update m.taken i true }

def Manager.takeMemory (m : Manager) (jobId : ℕ) : Manager :=
  { m with memories := m.memories.erase jobId }

def Manager.at (m : Manager) (i : ℕ) (pc : Pc) : Manager :=
  { m with pcs := Function.update m.pcs i pc }

variable (m : Manager) (jobId : ℕ) (context : JobContext)

@[simp, grind =]
theorem at_pcs (i j : ℕ) (pc : Pc) :
    (m.at i pc).pcs j = if j = i then pc else m.pcs j :=
  Function.update_apply m.pcs i pc j

@[simp, grind =]
theorem at_contexts (i : ℕ) (pc : Pc) : (m.at i pc).contexts = m.contexts := rfl

@[simp, grind =]
theorem at_memories (i : ℕ) (pc : Pc) : (m.at i pc).memories = m.memories := rfl

@[simp, grind =]
theorem at_taken (i : ℕ) (pc : Pc) : (m.at i pc).taken = m.taken := rfl

@[simp, grind =]
theorem withContext_contexts :
    (m.withContext jobId context).contexts = m.contexts.insert jobId context := rfl

@[simp, grind =]
theorem withContext_memories :
    (m.withContext jobId context).memories = m.memories := rfl

@[simp, grind =]
theorem withContext_pcs :
    (m.withContext jobId context).pcs = m.pcs := rfl

@[simp, grind =]
theorem withContext_taken :
    (m.withContext jobId context).taken = m.taken := rfl

@[simp, grind =]
theorem withMemory_contexts :
    (m.withMemory jobId).contexts = m.contexts := rfl

@[simp, grind =]
theorem withMemory_memories :
    (m.withMemory jobId).memories = m.memories.insert jobId () := rfl

@[simp, grind =]
theorem withMemory_pcs : (m.withMemory jobId).pcs = m.pcs := rfl

@[simp, grind =]
theorem withMemory_taken : (m.withMemory jobId).taken = m.taken := rfl

@[simp, grind =]
theorem takeContext_contexts (i jobId : ℕ) :
    (m.takeContext i jobId).contexts = m.contexts.erase jobId := rfl

@[simp, grind =]
theorem takeContext_memories (i jobId : ℕ) :
    (m.takeContext i jobId).memories = m.memories := rfl

@[simp, grind =]
theorem takeContext_pcs (i jobId : ℕ) : (m.takeContext i jobId).pcs = m.pcs := rfl

@[simp, grind =]
theorem takeContext_taken (i jobId : ℕ) :
    (m.takeContext i jobId).taken = Function.update m.taken i true := rfl

@[simp, grind =]
theorem takeMemory_contexts :
    (m.takeMemory jobId).contexts = m.contexts := rfl

@[simp, grind =]
theorem takeMemory_memories :
    (m.takeMemory jobId).memories = m.memories.erase jobId := rfl

@[simp, grind =]
theorem takeMemory_pcs : (m.takeMemory jobId).pcs = m.pcs := rfl

@[simp, grind =]
theorem takeMemory_taken : (m.takeMemory jobId).taken = m.taken := rfl

section

variable (maxJobs : ℕ) (calls : ℕ → Call)

def parallelCount (m : Manager) : ℕ := count (fun c => isParallelBlocking c.state) m.contexts

/-- `insert_context` under its first lock. -/
def insertContext (i jobId : ℕ) (context : JobContext) (m : Manager) : Manager :=
  if maxJobs ≤ parallelCount m then m.at i (.returned (.maxJobsExceeded maxJobs))
  else (m.withContext jobId context).at i .inserting

def updateContext (i jobId : ℕ) (ops : List Op) (m : Manager) : Manager :=
  match m.contexts.lookup jobId with
  | none => m.at i (.returned (.notFound jobId))
  | some context =>
    (m.withContext jobId (applyAll ops context)).at i (.returned .updated)

/-- `remove_job` under its first lock. -/
def removeContext (i jobId : ℕ) (m : Manager) : Manager :=
  match m.contexts.lookup jobId with
  | none => m.at i (.returned (.notFound jobId))
  | some context =>
    (m.takeContext i jobId).at i (.removing context)

/-- `remove_job` under its second lock. -/
def removeMemory (i jobId : ℕ) (context : JobContext) (m : Manager) : Manager :=
  match m.memories.lookup jobId with
  | none => m.at i (.returned (.notFound jobId))
  | some _ =>
    (m.takeMemory jobId).at i (.returned (.removed context))

def step (i : ℕ) (m : Manager) : Manager :=
  let call := calls i
  match m.pcs i with
  | .start =>
    match call with
    | .updateContext jobId ops => updateContext i jobId ops m
    | .removeJob jobId => removeContext i jobId m
    | call => insertContext maxJobs i call.jobId (call.context.getD withUser) m
  | .inserting =>
    (m.withMemory call.jobId).at i (.returned .inserted)
  | .removing context => removeMemory i call.jobId context m
  | .returned _ => m

structure Safe (m : Manager) : Prop where
  limit : parallelCount m ≤ maxJobs
  paired : (∀ i, (m.pcs i).inProgress = false) →
    ∀ jobId, jobId ∈ m.contexts ↔ jobId ∈ m.memories
  failed : ∀ i jobId, m.pcs i = .returned (.notFound jobId) → m.taken i = false

def Apart (i : ℕ) (m : Manager) : Prop :=
  m.pcs i = .start →
    ((calls i).context.isSome → ∀ j context, m.pcs j = .removing context →
      (calls j).jobId ≠ (calls i).jobId) ∧
    ((calls i) = .removeJob (calls i).jobId → ∀ j, m.pcs j = .inserting →
      (calls j).jobId ≠ (calls i).jobId)

theorem transition_blocking (s s' : JobState) (h : s.canTransitionTo s' = true)
    (hb : isParallelBlocking s' = true) : isParallelBlocking s = true := by
  cases s <;> first | rfl | (cases s' <;> first | cases h; done | cases hb)

theorem transitionTo_blocking (ctx ctx' : JobContext) (now : ℤ) (newState : JobState)
    (reason : Option String) (h : ctx.transitionTo now newState reason = .ok ctx')
    (hb : isParallelBlocking ctx'.state = true) : isParallelBlocking ctx.state = true := by
  obtain ⟨hstate, hcan⟩ := transitionTo_state ctx ctx' now newState reason h
  rw [hstate] at hb
  exact transition_blocking ctx.state newState hcan hb

theorem apply_blocking (op : Op) (ctx : JobContext)
    (hb : isParallelBlocking (op.apply ctx).state = true) :
    isParallelBlocking ctx.state = true := by
  unfold Op.apply at hb
  cases hresult : op.result ctx with
  | error text =>
    rw [hresult] at hb
    exact hb
  | ok ctx' =>
    rw [hresult] at hb
    cases op with
    | transitionTo now newState reason =>
      exact transitionTo_blocking ctx ctx' now newState reason hresult hb
    | markStuck now reason => exact transitionTo_blocking ctx ctx' now _ _ hresult hb
    | attemptRecovery now =>
      rw [(attemptRecovery_ok now ctx ctx' hresult).1]
      rfl

theorem applyAll_blocking (ops : List Op) (ctx : JobContext)
    (hb : isParallelBlocking (applyAll ops ctx).state = true) :
    isParallelBlocking ctx.state = true := by
  induction ops generalizing ctx with
  | nil => exact hb
  | cons op ops ih => exact apply_blocking op ctx (ih (op.apply ctx) hb)

inductive Effect (i : ℕ) (m : Manager) : Manager → Prop
  | idle : Effect i m m
  | refused (reply : Reply) (hpc : m.pcs i = .start) :
      Effect i m (m.at i (.returned reply))
  | inserted (context : JobContext) (hpc : m.pcs i = .start)
      (hcall : (calls i).context = some context) (hroom : parallelCount m < maxJobs) :
      Effect i m ((m.withContext (calls i).jobId context).at i .inserting)
  | updated (ops : List Op) (context : JobContext) (hpc : m.pcs i = .start)
      (hfound : m.contexts.lookup (calls i).jobId = some context) :
      Effect i m ((m.withContext (calls i).jobId (applyAll ops context)).at i (.returned .updated))
  | taken (context : JobContext) (hpc : m.pcs i = .start)
      (hcall : calls i = .removeJob (calls i).jobId)
      (hfound : m.contexts.lookup (calls i).jobId = some context) :
      Effect i m ((m.takeContext i (calls i).jobId).at i (.removing context))
  | remembered (hpc : m.pcs i = .inserting) :
      Effect i m ((m.withMemory (calls i).jobId).at i (.returned .inserted))
  | forgotten (context : JobContext) (hpc : m.pcs i = .removing context)
      (hfound : (calls i).jobId ∈ m.memories) :
      Effect i m ((m.takeMemory (calls i).jobId).at i (.returned (.removed context)))
  | lost (context : JobContext) (hpc : m.pcs i = .removing context)
      (hnone : (calls i).jobId ∉ m.memories) :
      Effect i m (m.at i (.returned (.notFound (calls i).jobId)))

theorem insert_effect (i : ℕ) (context : JobContext) (m : Manager) (hpc : m.pcs i = .start)
    (hcall : (calls i).context = some context) :
    Effect maxJobs calls i m (insertContext maxJobs i (calls i).jobId context m) := by
  unfold insertContext
  split
  · exact .refused _ hpc
  · rename_i hroom
    exact .inserted context hpc hcall (Nat.lt_of_not_le hroom)

theorem step_effect (i : ℕ) (m : Manager) : Effect maxJobs calls i m (step maxJobs calls i m) := by
  unfold step
  cases hpc : m.pcs i with
  | start =>
    cases hcall : calls i with
    | createJob jobId =>
      have h := insert_effect maxJobs calls i withUser m hpc (by rw [hcall]; rfl)
      rw [hcall] at h
      exact h
    | createJobForUser jobId userId =>
      have h := insert_effect maxJobs calls i withUser m hpc (by rw [hcall]; rfl)
      rw [hcall] at h
      exact h
    | registerSandboxJob jobId now =>
      have h := insert_effect maxJobs calls i
        { withUser with state := .inProgress, startedAt := some now } m hpc (by rw [hcall]; rfl)
      rw [hcall] at h
      exact h
    | updateContext jobId ops =>
      have hid : jobId = (calls i).jobId := by rw [hcall]; rfl
      simp only [updateContext]
      split
      · exact .refused _ hpc
      · rename_i context hfound
        rw [hid] at hfound ⊢
        exact .updated ops context hpc hfound
    | removeJob jobId =>
      have hid : jobId = (calls i).jobId := by rw [hcall]; rfl
      simp only [removeContext]
      split
      · exact .refused _ hpc
      · rename_i context hfound
        rw [hid] at hfound hcall ⊢
        exact .taken context hpc hcall hfound
  | inserting => exact .remembered hpc
  | removing context =>
    simp only [removeMemory]
    cases hfound : m.memories.lookup (calls i).jobId with
    | none => exact .lost context hpc (AList.lookup_eq_none.mp hfound)
    | some memory =>
      exact .forgotten context hpc (AList.lookup_isSome.mp (by rw [hfound]; rfl))
  | returned reply => exact .idle

theorem step_limit (i : ℕ) (m : Manager) (h : parallelCount m ≤ maxJobs) :
    parallelCount (step maxJobs calls i m) ≤ maxJobs := by
  have heffect := step_effect maxJobs calls i m
  generalize step maxJobs calls i m = m' at heffect ⊢
  cases heffect with
  | idle => exact h
  | refused reply hpc => exact h
  | inserted context hpc hcall hroom =>
    have hle := count_insert_le (fun c => isParallelBlocking c.state) (calls i).jobId context
      m.contexts
    exact le_trans hle hroom
  | updated ops context hpc hfound =>
    have hle := count_replace_le (fun c => isParallelBlocking c.state) (calls i).jobId context
      (applyAll ops context) m.contexts hfound (applyAll_blocking ops context)
    exact le_trans hle h
  | taken context hpc hcall hfound =>
    have hle := count_erase_le (fun c => isParallelBlocking c.state) (calls i).jobId m.contexts
    exact le_trans hle h
  | remembered hpc => exact h
  | forgotten context hpc hfound => exact h
  | lost context hpc hnone => exact h

structure Inv (m : Manager) : Prop where
  fresh : ∀ i, m.pcs i = .start → m.taken i = false
  failed : ∀ i jobId, m.pcs i = .returned (.notFound jobId) → m.taken i = false
  apart : ∀ i j context, m.pcs i = .inserting → m.pcs j = .removing context →
    (calls i).jobId ≠ (calls j).jobId
  inserted : ∀ i, m.pcs i = .inserting → (calls i).jobId ∈ m.contexts
  removed : ∀ i context, m.pcs i = .removing context →
    (calls i).jobId ∉ m.contexts ∧ (calls i).jobId ∈ m.memories
  single : ∀ i j context context', m.pcs i = .removing context → m.pcs j = .removing context' →
    (calls i).jobId = (calls j).jobId → i = j
  unremembered : ∀ jobId, jobId ∈ m.contexts → jobId ∉ m.memories →
    ∃ i, m.pcs i = .inserting ∧ (calls i).jobId = jobId
  unlisted : ∀ jobId, jobId ∈ m.memories → jobId ∉ m.contexts →
    ∃ i context, m.pcs i = .removing context ∧ (calls i).jobId = jobId

theorem step_inv (i : ℕ) (m : Manager) (h : Inv calls m) (hapart : Apart calls i m) :
    Inv calls (step maxJobs calls i m) := by
  have heffect := step_effect maxJobs calls i m
  generalize step maxJobs calls i m = m' at heffect ⊢
  obtain ⟨hfresh, hfailed, hapart', hinserted, hremoved, hsingle, hcontexts, hmemories⟩ := h
  cases heffect with
  | idle => exact ⟨hfresh, hfailed, hapart', hinserted, hremoved, hsingle, hcontexts, hmemories⟩
  | refused reply hpc =>
    constructor <;> simp only [at_pcs, at_contexts, at_memories, at_taken] <;> grind
  | inserted context hpc hcall hroom =>
    have hfree := (hapart hpc).1 (by rw [hcall]; rfl)
    constructor <;> simp only [at_pcs, at_contexts, at_memories, at_taken, withContext_contexts,
      withContext_memories, withContext_pcs, withContext_taken, AList.mem_insert] <;> grind
  | updated ops context hpc hfound =>
    have hthere : (calls i).jobId ∈ m.contexts := AList.lookup_isSome.mp (by rw [hfound]; rfl)
    constructor <;> simp only [at_pcs, at_contexts, at_memories, at_taken, withContext_contexts,
      withContext_memories, withContext_pcs, withContext_taken, AList.mem_insert] <;> grind
  | taken context hpc hcall hfound =>
    have hthere : (calls i).jobId ∈ m.contexts := AList.lookup_isSome.mp (by rw [hfound]; rfl)
    have hfree := (hapart hpc).2 hcall
    constructor <;> simp only [at_pcs, at_contexts, at_memories, at_taken, takeContext_contexts,
      takeContext_memories, takeContext_pcs, takeContext_taken, AList.mem_erase,
      Function.update_apply]
    case unlisted =>
      intro jobId hmemory hgone
      by_cases hid : jobId = (calls i).jobId
      · exact ⟨i, context, by rw [if_pos rfl], hid.symm⟩
      · obtain ⟨j, context', hj, hjob⟩ := hmemories jobId hmemory (fun hin => hgone ⟨hid, hin⟩)
        refine ⟨j, context', ?_, hjob⟩
        rw [if_neg (fun hji => hid (by rw [← hjob, hji])), hj]
    all_goals grind
  | remembered hpc =>
    constructor <;> simp only [at_pcs, at_contexts, at_memories, at_taken, withMemory_contexts,
      withMemory_memories, withMemory_pcs, withMemory_taken, AList.mem_insert] <;> grind
  | forgotten context hpc hfound =>
    constructor <;> simp only [at_pcs, at_contexts, at_memories, at_taken, takeMemory_contexts,
      takeMemory_memories, takeMemory_pcs, takeMemory_taken, AList.mem_erase] <;> grind
  | lost context hpc hnone => exact absurd (hremoved i context hpc).2 hnone

theorem new_pcs (i : ℕ) : Manager.new.pcs i = .start := rfl

theorem new_inv : Inv calls Manager.new where
  fresh := fun _ _ => rfl
  failed := fun _ _ _ => rfl
  apart i _ _ hi _ := by
    rw [new_pcs] at hi
    cases hi
  inserted i hi := by
    rw [new_pcs] at hi
    cases hi
  removed i _ hi := by
    rw [new_pcs] at hi
    cases hi
  single i _ _ _ hi _ _ := by
    rw [new_pcs] at hi
    cases hi
  unremembered := fun _ h => absurd h (AList.notMem_empty _)
  unlisted := fun _ h => absurd h (AList.notMem_empty _)

theorem run_limit (labels : List ℕ) :
    parallelCount (run (step maxJobs calls) labels Manager.new) ≤ maxJobs :=
  run_invariant (step maxJobs calls) (fun m => parallelCount m ≤ maxJobs)
    (fun i m h => step_limit maxJobs calls i m h) labels Manager.new (Nat.zero_le maxJobs)

/-- The limit holds in every run. In runs in which no insertion and removal of
one job overlap, the tables are paired between calls and a removal that fails
has removed nothing. -/
theorem tables_safe (labels : List ℕ)
    (h : Along (step maxJobs calls) (Apart calls) labels Manager.new) :
    Safe maxJobs (run (step maxJobs calls) labels Manager.new) := by
  have hinv := guarded_invariant (step maxJobs calls) (Apart calls) (Inv calls)
    (fun i m hm hc => step_inv maxJobs calls i m hm hc) labels Manager.new h (new_inv calls)
  refine ⟨run_limit maxJobs calls labels, ?_, hinv.failed⟩
  intro hquiet jobId
  constructor
  · intro hcontext
    by_contra hmemory
    obtain ⟨i, hi, -⟩ := hinv.unremembered jobId hcontext hmemory
    have hbusy := hquiet i
    rw [hi] at hbusy
    cases hbusy
  · intro hmemory
    by_contra hcontext
    obtain ⟨i, context, hi, -⟩ := hinv.unlisted jobId hmemory hcontext
    have hbusy := hquiet i
    rw [hi] at hbusy
    cases hbusy

end

def registered : ℕ → Call
  | 0 => .registerSandboxJob 7 0
  | _ => .removeJob 7

theorem removed_afterwards :
    Along (step 1 registered) (Apart registered) [0, 0, 1, 1] Manager.new ∧
      Safe 1 (run (step 1 registered) [0, 0, 1, 1] Manager.new) := by
  have happart : Along (step 1 registered) (Apart registered) [0, 0, 1, 1] Manager.new := by
    refine ⟨?_, ?_, ?_, ?_, trivial⟩
    · exact fun _ => ⟨fun _ _ _ hj => (nomatch hj), fun hcall => (nomatch hcall)⟩
    · exact fun hpc => nomatch hpc
    · refine fun _ => ⟨fun hcall => (nomatch hcall), fun _ j hj => ?_⟩
      -- the registration has returned, and nobody else has begun
      by_cases hj0 : j = 0
      · rw [hj0] at hj
        cases hj
      · have hstart : (Function.update (Function.update (fun _ => Pc.start) 0 .inserting) 0
            (.returned .inserted)) j = .inserting := hj
        rw [Function.update_of_ne hj0, Function.update_of_ne hj0] at hstart
        cases hstart
    · exact fun hpc => nomatch hpc
  exact ⟨happart, tables_safe 1 registered [0, 0, 1, 1] happart⟩

/-- The removal comes between the halves of the registration: it takes the
context and reports that there is no such job. -/
theorem removed_between :
    ¬ ∀ (maxJobs : ℕ) (calls : ℕ → Call) (labels : List ℕ),
      Safe maxJobs (run (step maxJobs calls) labels Manager.new) := by
  intro h
  have hfailed := (h 1 registered [0, 1, 1, 0]).failed 1 7 (by decide)
  exact absurd hfailed (by decide)

end IronClaw.ContextManager
