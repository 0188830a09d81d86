import IronClaw.JobLifecycle
import IronClaw.JsonValue
import IronClaw.Lib.Runs
import Mathlib.Algebra.BigOperators.Group.List.Basic
import Mathlib.Algebra.Ring.Nat
import Mathlib.Data.List.Lemmas

/-!
# Dispatching a job

`Scheduler::dispatch_job_inner` creates a context in the context manager,
applies metadata and the token budget, saves the job and schedules it. The
manager limits the jobs that occupy a slot and the scheduler limits the jobs
that it runs; the two limits are checked at different steps. The identifier of
the new job, the clock and the outcome of saving are inputs of a dispatch.
-/

set_option autoImplicit false

namespace IronClaw.JobDispatch
open JobLifecycle JsonValue Lib.Runs

def isParallelBlocking : JobState → Bool
  | .pending => true
  | .inProgress => true
  | .stuck => true
  | _ => false

inductive JobError where
  | notFound (id : ℕ)
  | failed (id : ℕ) (reason : String)
  | maxJobsExceeded (max : ℕ)
  | contextError (id : ℕ) (reason : String)
  deriving DecidableEq

structure Job where
  userId : String
  title : String
  description : String
  metadata : Value
  ctx : JobContext
  deriving DecidableEq

def Job.withUser (userId title description : String) : Job :=
  ⟨userId, title, description, .null, ⟨.pending, 0, 0, none, none, 0, []⟩⟩

structure ContextManager where
  contexts : List (ℕ × Job)
  maxJobs : ℕ
  deriving DecidableEq

namespace ContextManager

def find (m : ContextManager) (id : ℕ) : Option Job := m.contexts.lookup id

def parallelCount (m : ContextManager) : ℕ :=
  m.contexts.countP (fun e => isParallelBlocking e.2.ctx.state)

def insertContext (m : ContextManager) (id : ℕ) (job : Job) : Except JobError ContextManager :=
  if m.maxJobs ≤ m.parallelCount then .error (.maxJobsExceeded m.maxJobs)
  else .ok { m with contexts := (id, job)::m.contexts.filter (fun e => e.1 ≠ id) }

def createJobForUser (m : ContextManager) (id : ℕ) (userId title description : String) :
    Except JobError ContextManager :=
  m.insertContext id (.withUser userId title description)

def getContext (m : ContextManager) (id : ℕ) : Except JobError Job :=
  match m.find id with
  | some job => .ok job
  | none => .error (.notFound id)

def updateContext {R : Type} (m : ContextManager) (id : ℕ) (f : Job → Job × R) :
    Except JobError (ContextManager × R) :=
  match m.find id with
  | none => .error (.notFound id)
  | some job =>
    let (job', result) := f job
    .ok ({ m with contexts := m.contexts.map (fun e => if e.1 = id then (id, job') else e) },
      result)

def updateContextAndGet (m : ContextManager) (id : ℕ) (f : Job → Job) :
    Except JobError (ContextManager × Job) :=
  m.updateContext id (fun job => (f job, f job))

end ContextManager

structure SchedulerConfig where
  maxParallelJobs : ℕ
  maxTokensPerJob : ℕ
  deriving DecidableEq

structure Scheduler where
  manager : ContextManager
  jobs : List ℕ
  deriving DecidableEq

structure Request where
  userId : String
  title : String
  description : String
  metadata : Option Value
  store : Option (ℕ → Job → Except String Unit)

def asU64 : Value → Option ℕ
  | .number (.posInt n) => some n.toNat
  | _ => none

def userMaxTokens (metadata : Option Value) : Option ℕ :=
  (metadata.bind (fun m => m.get "max_tokens")).bind asU64

def Request.save (req : Request) (id : ℕ) (job : Job) : Except String Unit :=
  match req.store with
  | some save => save id job
  | none => .ok ()

section

variable (cfg : SchedulerConfig)

def maxTokensFor (metadata : Option Value) : ℕ :=
  match userMaxTokens metadata with
  | some user => if cfg.maxTokensPerJob = 0 then user else min user cfg.maxTokensPerJob
  | none => cfg.maxTokensPerJob

def Job.withMaxTokens (job : Job) (maxTokens : ℕ) : Job :=
  if 0 < maxTokens then { job with ctx := { job.ctx with maxTokens := maxTokens } } else job

def applyMetadata (m : ContextManager) (id : ℕ) (metadata : Option Value) :
    Except JobError (ContextManager × Job) :=
  let maxTokens := maxTokensFor cfg metadata
  match metadata with
  | some value => m.updateContextAndGet id
      (fun job => { job with metadata := value }.withMaxTokens maxTokens)
  | none =>
    if 0 < maxTokens then m.updateContextAndGet id (fun job => job.withMaxTokens maxTokens)
    else match m.getContext id with
    | .ok job => .ok (m, job)
    | .error e => .error e

def Job.start (now : ℤ) (job : Job) : Job × Option String :=
  match job.ctx.transitionTo now .inProgress (some "Scheduled for execution") with
  | .ok ctx => ({ job with ctx := ctx }, none)
  | .error text => (job, some text)

def scheduleWithContext (id : ℕ) (now : ℤ) (s : Scheduler) : Scheduler × Except JobError Unit :=
  if id ∈ s.jobs then (s, .ok ())
  else if cfg.maxParallelJobs ≤ s.jobs.length then
    (s, .error (.maxJobsExceeded cfg.maxParallelJobs))
  else match s.manager.updateContext id (Job.start now) with
  | .error e => (s, .error e)
  | .ok (m, some text) => ({ s with manager := m }, .error (.contextError id text))
  | .ok (m, none) => (⟨m, s.jobs++[id]⟩, .ok ())

def dispatchJobInner (id : ℕ) (now : ℤ) (req : Request) (s : Scheduler) :
    Scheduler × Except JobError ℕ :=
  match s.manager.createJobForUser id req.userId req.title req.description with
  | .error e => (s, .error e)
  | .ok created =>
    match applyMetadata cfg created id req.metadata with
    | .error e => ({ s with manager := created }, .error e)
    | .ok (m, job) =>
      match req.save id job with
      | .error text =>
        ({ s with manager := m }, .error (.failed id ("failed to persist job: " ++ text)))
      | .ok () =>
        match scheduleWithContext cfg id now { s with manager := m } with
        | (s, .error e) => (s, .error e)
        | (s, .ok ()) => (s, .ok id)

def prepared (req : Request) : Job :=
  let job := Job.withUser req.userId req.title req.description
  { job with metadata := req.metadata.getD .null }.withMaxTokens (maxTokensFor cfg req.metadata)

def others (s : Scheduler) (id : ℕ) : List (ℕ × Job) :=
  s.manager.contexts.filter (fun e => e.1 ≠ id)

def Scheduler.withContexts (s : Scheduler) (contexts : List (ℕ × Job)) : Scheduler :=
  { s with manager := { s.manager with contexts := contexts } }

theorem others_mem (s : Scheduler) (id : ℕ) (e : ℕ × Job) (h : e ∈ others s id) : e.1 ≠ id := by
  simpa using (List.mem_filter.mp h).2

theorem updateContext_head {R : Type} (s : Scheduler) (id : ℕ) (job : Job) (f : Job → Job × R) :
    (s.withContexts ((id, job)::others s id)).manager.updateContext id f =
      .ok ((s.withContexts ((id, (f job).1)::others s id)).manager, (f job).2) := by
  have hothers : (others s id).map (fun e => if e.1 = id then (id, (f job).1) else e) =
      others s id := by
    rw [List.map_congr_left (fun e he => if_neg (others_mem s id e he)), List.map_id']
  simp [ContextManager.updateContext, ContextManager.find, Scheduler.withContexts, hothers]

theorem withMaxTokens_zero (job : Job) : job.withMaxTokens 0 = job := by
  simp [Job.withMaxTokens]

/-- Whatever the metadata, the new context becomes the prepared job. -/
theorem applyMetadata_head (s : Scheduler) (id : ℕ) (req : Request) :
    applyMetadata cfg (s.withContexts ((id, Job.withUser req.userId req.title req.description)::
        others s id)).manager id req.metadata =
      .ok ((s.withContexts ((id, prepared cfg req)::others s id)).manager, prepared cfg req) := by
  unfold applyMetadata prepared
  cases req.metadata with
  | some value => exact updateContext_head s id _ _
  | none =>
    by_cases hmax : 0 < maxTokensFor cfg none
    · simp only [if_pos hmax]
      exact updateContext_head s id _ _
    · have hzero : maxTokensFor cfg none = 0 := by omega
      simp only [hzero, Nat.lt_irrefl, if_false, withMaxTokens_zero]
      simp [ContextManager.getContext, ContextManager.find, Scheduler.withContexts,
        Job.withUser]

theorem prepared_pending (req : Request) : (prepared cfg req).ctx.state = .pending := by
  unfold prepared Job.withMaxTokens
  split <;> rfl

theorem prepared_start (req : Request) (now : ℤ) :
    ∃ ctx, (prepared cfg req).ctx.transitionTo now .inProgress (some "Scheduled for execution") =
        .ok ctx ∧ ctx.state = .inProgress ∧
      (prepared cfg req).start now = ({ prepared cfg req with ctx := ctx }, none) := by
  obtain ⟨ctx, hctx, hstate⟩ := transitionTo_permitted (prepared cfg req).ctx now .inProgress
    (some "Scheduled for execution") (by rw [prepared_pending]; rfl)
  refine ⟨ctx, hctx, hstate, ?_⟩
  simp only [Job.start, hctx]

/-- The steps of a dispatch in one equation. -/
theorem dispatch_eq (id : ℕ) (now : ℤ) (req : Request) (s : Scheduler) :
    dispatchJobInner cfg id now req s =
      if s.manager.maxJobs ≤ s.manager.parallelCount then
        (s, .error (.maxJobsExceeded s.manager.maxJobs))
      else
        let waiting := s.withContexts ((id, prepared cfg req)::others s id)
        match req.save id (prepared cfg req) with
        | .error text => (waiting, .error (.failed id ("failed to persist job: " ++ text)))
        | .ok () =>
          if id ∈ s.jobs then (waiting, .ok id)
          else if cfg.maxParallelJobs ≤ s.jobs.length then
            (waiting, .error (.maxJobsExceeded cfg.maxParallelJobs))
          else
            (⟨(s.withContexts ((id, ((prepared cfg req).start now).1)::others s id)).manager,
              s.jobs++[id]⟩, .ok id) := by
  unfold dispatchJobInner ContextManager.createJobForUser ContextManager.insertContext
  by_cases hfull : s.manager.maxJobs ≤ s.manager.parallelCount
  · simp only [if_pos hfull]
  · simp only [if_neg hfull]
    have hmeta := applyMetadata_head cfg s id req
    simp only [Scheduler.withContexts, others] at hmeta ⊢
    simp only [hmeta]
    cases req.save id (prepared cfg req) with
    | error text => rfl
    | ok done =>
      simp only [scheduleWithContext]
      by_cases hknown : id ∈ s.jobs
      · simp only [if_pos hknown]
      · by_cases hbusy : cfg.maxParallelJobs ≤ s.jobs.length
        · simp only [if_neg hknown, if_pos hbusy]
        · obtain ⟨ctx, _, _, hstart⟩ := prepared_start cfg req now
          have hhead := updateContext_head s id (prepared cfg req) (Job.start now)
          simp only [Scheduler.withContexts, others, hstart] at hhead
          simp only [if_neg hknown, if_neg hbusy, hhead, hstart]

/-- The job that a dispatch has registered under its identifier. -/
theorem dispatch_job (id id' : ℕ) (now : ℤ) (req : Request) (s s' : Scheduler)
    (h : dispatchJobInner cfg id now req s = (s', .ok id')) :
    id' = id ∧ ∃ job, s'.manager.find id = some job ∧
      job.ctx.maxTokens = (prepared cfg req).ctx.maxTokens ∧ job.ctx.totalTokensUsed = 0 := by
  have hzero : (prepared cfg req).ctx.totalTokensUsed = 0 := by
    unfold prepared Job.withMaxTokens
    split <;> rfl
  rw [dispatch_eq] at h
  by_cases hfull : s.manager.maxJobs ≤ s.manager.parallelCount
  · rw [if_pos hfull] at h
    cases h
  · rw [if_neg hfull] at h
    cases hsave : req.save id (prepared cfg req) with
    | error text =>
      simp only [hsave] at h
      cases h
    | ok done =>
      simp only [hsave] at h
      by_cases hknown : id ∈ s.jobs
      · rw [if_pos hknown] at h
        cases h
        exact ⟨rfl, prepared cfg req, by simp [ContextManager.find, Scheduler.withContexts],
          rfl, hzero⟩
      · by_cases hbusy : cfg.maxParallelJobs ≤ s.jobs.length
        · rw [if_neg hknown, if_pos hbusy] at h
          cases h
        · rw [if_neg hknown, if_neg hbusy] at h
          obtain ⟨ctx, hctx, _, hstart⟩ := prepared_start cfg req now
          obtain ⟨hmax, hused⟩ := transitionTo_tokens _ _ _ _ _ hctx
          cases h
          refine ⟨rfl, ((prepared cfg req).start now).1,
            by simp [ContextManager.find, Scheduler.withContexts], ?_, ?_⟩
          · rw [hstart]
            exact hmax
          · rw [hstart]
            exact hused.trans hzero

def spend (amounts : List ℕ) (ctx : JobContext) : JobContext :=
  amounts.foldl (fun c tokens => (c.addTokens tokens).1) ctx

def Capped (metadata : Option Value) (ctx : JobContext) : Prop :=
  ∀ amounts tokens cap, amounts.sum+tokens < 2^64 →
    (cap = cfg.maxTokensPerJob ∨ userMaxTokens metadata = some cap) →
    cap < amounts.sum+tokens → ((spend amounts ctx).addTokens tokens).2 ≠ none

theorem spend_used (amounts : List ℕ) (ctx : JobContext)
    (h : ctx.totalTokensUsed+amounts.sum < 2^64) :
    (spend amounts ctx).totalTokensUsed = ctx.totalTokensUsed+amounts.sum ∧
      (spend amounts ctx).maxTokens = ctx.maxTokens := by
  induction amounts generalizing ctx with
  | nil => exact ⟨rfl, rfl⟩
  | cons tokens amounts ih =>
    rw [List.sum_cons] at h
    have hused : (ctx.addTokens tokens).1.totalTokensUsed = ctx.totalTokensUsed+tokens :=
      Nat.mod_eq_of_lt (by omega)
    obtain ⟨htotal, hmax⟩ := ih (ctx.addTokens tokens).1 (by rw [hused]; omega)
    rw [hused] at htotal
    refine ⟨?_, hmax⟩
    rw [List.sum_cons, ← Nat.add_assoc]
    exact htotal

theorem addTokens_refuses_iff (ctx : JobContext) (tokens : ℕ)
    (h : ctx.totalTokensUsed+tokens < 2^64) :
    (ctx.addTokens tokens).2 ≠ none ↔
      0 < ctx.maxTokens ∧ ctx.maxTokens < ctx.totalTokensUsed+tokens := by
  unfold JobContext.addTokens
  rw [Nat.mod_eq_of_lt h]
  simp

theorem prepared_maxTokens (req : Request) :
    (prepared cfg req).ctx.maxTokens = maxTokensFor cfg req.metadata := by
  unfold prepared Job.withMaxTokens
  split
  · rfl
  · show 0 = maxTokensFor cfg req.metadata
    omega

/-- A context keeps the caps when its own budget is set and lies below them. -/
theorem capped_iff (metadata : Option Value) (ctx : JobContext) (hcfg : 0 < cfg.maxTokensPerJob)
    (hused : ctx.totalTokensUsed = 0) (hmax : ctx.maxTokens = maxTokensFor cfg metadata) :
    Capped cfg metadata ctx ↔ userMaxTokens metadata ≠ some 0 := by
  constructor
  · intro hcapped huser
    have hzero : ctx.maxTokens = 0 := by
      rw [hmax, maxTokensFor, huser]
      simp
    have hrefused := hcapped [] 1 0 (by decide) (Or.inr huser) (by decide)
    rw [addTokens_refuses_iff _ _ (by simp [spend, hused])] at hrefused
    have : 0 < ctx.maxTokens := hrefused.1
    omega
  · intro huser amounts tokens cap hsum hcap hlt
    obtain ⟨htotal, hkeep⟩ := spend_used amounts ctx (by omega)
    rw [hused, Nat.zero_add] at htotal
    rw [addTokens_refuses_iff _ _ (by omega), htotal, hkeep, hmax]
    unfold maxTokensFor
    cases hu : userMaxTokens metadata with
    | none =>
      rw [hu] at hcap
      simp only [reduceCtorEq, or_false] at hcap
      simp only
      omega
    | some user =>
      rw [hu] at hcap huser
      simp only [Option.some.injEq] at hcap
      have hpos : user ≠ 0 := fun h => huser (by rw [h])
      simp only [Nat.ne_of_gt hcfg, if_false]
      omega

/-- Under a configured limit, a dispatched job keeps to the limit and to the
caller's own cap exactly when the caller did not ask for zero tokens. -/
theorem dispatched_capped_iff (id id' : ℕ) (now : ℤ) (req : Request) (s s' : Scheduler)
    (hcfg : 0 < cfg.maxTokensPerJob)
    (hok : dispatchJobInner cfg id now req s = (s', .ok id')) :
    (∃ job, s'.manager.find id' = some job ∧ Capped cfg req.metadata job.ctx) ↔
      userMaxTokens req.metadata ≠ some 0 := by
  obtain ⟨hid, job, hfind, hmax, hused⟩ := dispatch_job cfg id id' now req s s' hok
  rw [prepared_maxTokens] at hmax
  rw [hid, ← capped_iff cfg req.metadata job.ctx hcfg hused hmax]
  constructor
  · rintro ⟨job', hfind', hcapped⟩
    rw [hfind] at hfind'
    rwa [Option.some.inj hfind']
  · intro hcapped
    exact ⟨job, hfind, hcapped⟩

end

def zeroTokens : Request :=
  ⟨"default", "t", "d", some (.object [("max_tokens", .number (.posInt 0))]), none⟩

def someTokens : Request :=
  ⟨"default", "t", "d", some (.object [("max_tokens", .number (.posInt 500))]), none⟩

theorem dispatched_capped_at_500 :
    0 < 1000 ∧ (∃ job, (dispatchJobInner ⟨4, 1000⟩ 7 0 someTokens ⟨⟨[], 4⟩, []⟩).1.manager.find 7 =
      some job ∧ Capped ⟨4, 1000⟩ someTokens.metadata job.ctx) :=
  ⟨by decide, (dispatched_capped_iff ⟨4, 1000⟩ 7 7 0 someTokens ⟨⟨[], 4⟩, []⟩ _ (by decide)
    (by rfl)).mpr (by decide)⟩

/-- With a limit of 1000 configured, a job that asked for zero tokens spends
2000 without an error. -/
theorem zero_lifts_cap :
    ¬ ∃ job, (dispatchJobInner ⟨4, 1000⟩ 7 0 zeroTokens ⟨⟨[], 4⟩, []⟩).1.manager.find 7 =
      some job ∧ Capped ⟨4, 1000⟩ zeroTokens.metadata job.ctx := by
  rintro ⟨job, hfind, hcapped⟩
  apply hcapped [1000] 1000 1000 (by decide) (Or.inl rfl) (by decide)
  rw [← Option.some.inj hfind]
  rfl

section

variable (cfg : SchedulerConfig)

inductive Label where
  | dispatch (id : ℕ) (now : ℤ) (req : Request)
  | complete (id : ℕ) (now : ℤ)

def complete (id : ℕ) (now : ℤ) (s : Scheduler) : Scheduler :=
  let finish := fun job : Job =>
    match job.ctx.transitionTo now .completed (some "Job completed successfully") with
    | .ok ctx => ({ job with ctx := ctx }, ())
    | .error _ => (job, ())
  match s.manager.updateContext id finish with
  | .ok (m, ()) => ⟨m, s.jobs.filter (fun i => i ≠ id)⟩
  | .error _ => { s with jobs := s.jobs.filter (fun i => i ≠ id) }

def step : Label → Scheduler → Scheduler
  | .dispatch id now req, s => (dispatchJobInner cfg id now req s).1
  | .complete id now, s => complete id now s

def Unused : Label → Scheduler → Prop
  | .dispatch id _ _, s => (∀ e ∈ s.manager.contexts, e.1 ≠ id) ∧ id ∉ s.jobs
  | .complete _ _, _ => True

def Refused : Label → Scheduler → Prop
  | .dispatch id now req, s => ∃ e, (dispatchJobInner cfg id now req s).2 = .error e
  | .complete _ _, _ => False

def KeepsSlots (l : Label) (s : Scheduler) : Prop :=
  Refused cfg l s → (step cfg l s).manager.parallelCount = s.manager.parallelCount

def HasRoom (s : Scheduler) : Prop :=
  s.manager.parallelCount < s.manager.maxJobs ∧ s.jobs.length < cfg.maxParallelJobs

def Unobstructed : Label → Scheduler → Prop
  | .dispatch id _ req, s =>
    s.manager.maxJobs ≤ s.manager.parallelCount ∨
      req.save id (prepared cfg req) = .ok () ∧ s.jobs.length < cfg.maxParallelJobs
  | .complete _ _, _ => True

variable (labels : List Label) (id : ℕ) (s : Scheduler)

theorem dispatch_full (now : ℤ) (req : Request) (s : Scheduler)
    (h : s.manager.maxJobs ≤ s.manager.parallelCount) :
    dispatchJobInner cfg id now req s = (s, .error (.maxJobsExceeded s.manager.maxJobs)) := by
  rw [dispatch_eq, if_pos h]

theorem dispatch_succeeds (now : ℤ) (req : Request) (s : Scheduler) (hroom : HasRoom cfg s)
    (hsave : req.save id (prepared cfg req) = .ok ()) :
    ∃ s', dispatchJobInner cfg id now req s = (s', .ok id) := by
  have hnot : ¬ cfg.maxParallelJobs ≤ s.jobs.length := Nat.not_le.mpr hroom.2
  rw [dispatch_eq, if_neg (Nat.not_le.mpr hroom.1)]
  simp only [hsave]
  by_cases hknown : id ∈ s.jobs
  · rw [if_pos hknown]
    exact ⟨_, rfl⟩
  · rw [if_neg hknown, if_neg hnot]
    exact ⟨_, rfl⟩

/-- An obstructed dispatch fails and leaves its job waiting. -/
theorem dispatch_leaks (now : ℤ) (req : Request) (s : Scheduler)
    (hnew : Unused (.dispatch id now req) s) (h : ¬ Unobstructed cfg (.dispatch id now req) s) :
    ∃ e, dispatchJobInner cfg id now req s =
      (s.withContexts ((id, prepared cfg req)::others s id), .error e) := by
  obtain ⟨hroom, hrest⟩ := not_or.mp h
  rw [dispatch_eq, if_neg hroom]
  cases hsave : req.save id (prepared cfg req) with
  | error text => exact ⟨_, rfl⟩
  | ok done =>
    have hbusy : cfg.maxParallelJobs ≤ s.jobs.length := by
      by_contra hlt
      exact hrest ⟨hsave, by omega⟩
    simp only
    rw [if_neg hnew.2, if_pos hbusy]
    exact ⟨_, rfl⟩

theorem waiting_count (req : Request) (s : Scheduler) (hnew : ∀ e ∈ s.manager.contexts, e.1 ≠ id) :
    (s.withContexts ((id, prepared cfg req)::others s id)).manager.parallelCount =
      s.manager.parallelCount+1 := by
  have hothers : others s id = s.manager.contexts := by
    apply List.filter_eq_self.mpr
    intro e he
    simpa using hnew e he
  simp only [Scheduler.withContexts, ContextManager.parallelCount, hothers, List.countP_cons,
    prepared_pending, isParallelBlocking, if_true]

theorem unobstructed_refused (l : Label) (s : Scheduler) (h : Unobstructed cfg l s)
    (hrefused : Refused cfg l s) : step cfg l s = s := by
  cases l with
  | complete id now => exact hrefused.elim
  | dispatch id now req =>
    by_cases hfull : s.manager.maxJobs ≤ s.manager.parallelCount
    · simp only [step, dispatch_full cfg id now req s hfull]
    · rcases h with h | ⟨hsave, hroom⟩
      · exact absurd h hfull
      · obtain ⟨s', hok⟩ := dispatch_succeeds cfg id now req s ⟨by omega, hroom⟩ hsave
        obtain ⟨e, he⟩ := hrefused
        rw [hok] at he
        cases he

theorem keepsSlots_iff (l : Label) (s : Scheduler) (hnew : Unused l s) :
    KeepsSlots cfg l s ↔ Unobstructed cfg l s := by
  constructor
  · intro hkeeps
    cases l with
    | complete id now => trivial
    | dispatch id now req =>
      by_contra hobstructed
      obtain ⟨e, he⟩ := dispatch_leaks cfg id now req s hnew hobstructed
      have hsame := hkeeps ⟨e, by rw [he]⟩
      simp only [step, he, waiting_count cfg id req s hnew.1] at hsame
      omega
  · intro h hrefused
    rw [unobstructed_refused cfg l s h hrefused]

theorem refused_run (h : Along (step cfg) (Unobstructed cfg) labels s)
    (hrefused : Along (step cfg) (Refused cfg) labels s) : run (step cfg) labels s = s := by
  induction labels generalizing s with
  | nil => rfl
  | cons l labels ih =>
    have hstep := unobstructed_refused cfg l s h.1 hrefused.1
    have hrest := ih (step cfg l s) h.2 hrefused.2
    rw [run, hrest, hstep]

theorem along_keepsSlots_iff (hnew : Along (step cfg) Unused labels s) :
    Along (step cfg) (KeepsSlots cfg) labels s ↔
      Along (step cfg) (Unobstructed cfg) labels s := by
  induction labels generalizing s with
  | nil => exact Iff.rfl
  | cons l labels ih =>
    exact and_congr (keepsSlots_iff cfg l s hnew.1) (ih (step cfg l s) hnew.2)

/-- Refused dispatches keep the slots exactly when none of them is obstructed
behind the manager's limit, and then they change nothing: completions that make
room for a dispatch make room for it after them too. -/
theorem refused_keep_slots_iff (hnew : Along (step cfg) Unused labels s) :
    (Along (step cfg) (KeepsSlots cfg) labels s ↔
      Along (step cfg) (Unobstructed cfg) labels s) ∧
    (Along (step cfg) (Unobstructed cfg) labels s → Along (step cfg) (Refused cfg) labels s →
      ∀ (completions : List (ℕ × ℤ)) (id : ℕ) (now : ℤ) (req : Request),
        HasRoom cfg (run (step cfg) (completions.map (fun c => .complete c.1 c.2)) s) →
        req.save id (prepared cfg req) = .ok () →
        ∃ s', dispatchJobInner cfg id now req
          (run (step cfg) (labels++completions.map (fun c => .complete c.1 c.2)) s) =
            (s', .ok id)) := by
  refine ⟨along_keepsSlots_iff cfg labels s hnew, ?_⟩
  intro h hrefused completions id now req hroom hsave
  rw [run_append, refused_run cfg labels s h hrefused]
  exact dispatch_succeeds cfg id now req _ hroom hsave

def Running (s : Scheduler) : Prop :=
  ∀ e ∈ s.manager.contexts, isParallelBlocking e.2.ctx.state = true → e.2.ctx.state = .inProgress

/-- After a completion the job takes no slot, and nothing else has changed. -/
theorem complete_contexts (id : ℕ) (now : ℤ) (s : Scheduler) (h : Running s) :
    (complete id now s).manager.maxJobs = s.manager.maxJobs ∧
    (complete id now s).jobs = s.jobs.filter (fun i => i ≠ id) ∧
    ∀ e ∈ (complete id now s).manager.contexts,
      e.1 ≠ id ∧ e ∈ s.manager.contexts ∨ isParallelBlocking e.2.ctx.state = false := by
  unfold complete ContextManager.updateContext ContextManager.find
  cases hfind : s.manager.contexts.lookup id with
  | none =>
    refine ⟨rfl, rfl, fun e he => Or.inl ⟨fun hid => ?_, he⟩⟩
    have hother := List.lookup_eq_none_iff.mp hfind e he
    simp [hid] at hother
  | some job =>
    refine ⟨rfl, rfl, fun e he => ?_⟩
    obtain ⟨old, hold, rfl⟩ := List.mem_map.mp he
    by_cases hid : old.1 = id
    · right
      simp only [if_pos hid]
      cases hblock : isParallelBlocking job.ctx.state with
      | true =>
        obtain ⟨before, after, hsplit, -⟩ := List.lookup_eq_some_iff.mp hfind
        have hrun := h (id, job) (by simp [hsplit]) hblock
        obtain ⟨ctx, hctx, hstate⟩ := transitionTo_permitted job.ctx now .completed
          (some "Job completed successfully") (by rw [hrun]; rfl)
        simp only [hctx, hstate, isParallelBlocking]
      | false =>
        cases hctx : job.ctx.transitionTo now .completed (some "Job completed successfully") with
        | ok ctx =>
          simp only [(transitionTo_state _ _ _ _ _ hctx).1, isParallelBlocking]
        | error text => exact hblock
    · left
      simp only [if_neg hid]
      exact ⟨hid, hold⟩

theorem completions_clear (ids : List ℕ) (s : Scheduler) (h : Running s) :
    let s' := run (step cfg) (ids.map (fun i => .complete i 0)) s
    s'.manager.maxJobs = s.manager.maxJobs ∧ (∀ i ∈ s'.jobs, i ∈ s.jobs ∧ i ∉ ids) ∧
      ∀ e ∈ s'.manager.contexts,
        e.1 ∉ ids ∧ e ∈ s.manager.contexts ∨ isParallelBlocking e.2.ctx.state = false := by
  induction ids generalizing s with
  | nil => exact ⟨rfl, fun i hi => ⟨hi, by simp⟩, fun e he => Or.inl ⟨by simp, he⟩⟩
  | cons id ids ih =>
    obtain ⟨hmax, hjobs, hcontexts⟩ := complete_contexts id 0 s h
    have hrunning : Running (complete id 0 s) := by
      intro e he hblock
      rcases hcontexts e he with ⟨_, hold⟩ | hfree
      · exact h e hold hblock
      · rw [hfree] at hblock
        cases hblock
    obtain ⟨hmax', hjobs', hcontexts'⟩ := ih (complete id 0 s) hrunning
    refine ⟨hmax'.trans hmax, fun i hi => ?_, fun e he => ?_⟩
    · obtain ⟨hin, hout⟩ := hjobs' i hi
      rw [hjobs, List.mem_filter, decide_eq_true_eq] at hin
      exact ⟨hin.1, by simp [hin.2, hout]⟩
    · rcases hcontexts' e he with ⟨hout, hin⟩ | hfree
      · rcases hcontexts e hin with ⟨hid, hold⟩ | hfree
        · exact Or.inl ⟨by simp [hid, hout], hold⟩
        · exact Or.inr hfree
      · exact Or.inr hfree

/-- Where every slot is taken by a job in progress, enough completions make
room. -/
theorem completions_make_room (s : Scheduler) (h : Running s) (hjobs : 0 < s.manager.maxJobs)
    (hparallel : 0 < cfg.maxParallelJobs) :
    ∃ completions : List (ℕ × ℤ),
      HasRoom cfg (run (step cfg) (completions.map (fun c => .complete c.1 c.2)) s) := by
  have hclear := completions_clear cfg (s.manager.contexts.map Prod.fst++s.jobs) s h
  refine ⟨(s.manager.contexts.map Prod.fst++s.jobs).map (fun i => (i, 0)), ?_⟩
  rw [List.map_map, show (fun c : ℕ × ℤ => Label.complete c.1 c.2) ∘ (fun i : ℕ => (i, (0 : ℤ))) =
    fun i => .complete i 0 from rfl]
  generalize run (step cfg) ((s.manager.contexts.map Prod.fst++s.jobs).map
    (fun i => .complete i 0)) s = s' at hclear
  obtain ⟨hmax, hscheduled, hcontexts⟩ := hclear
  constructor
  · have hnone : s'.manager.parallelCount = 0 := by
      apply List.countP_eq_zero.mpr
      intro e he
      rcases hcontexts e he with ⟨hout, hin⟩ | hfree
      · exact absurd (List.mem_append_left _ (List.mem_map_of_mem hin)) hout
      · simp [hfree]
    omega
  · have hempty : s'.jobs = [] := by
      apply List.eq_nil_iff_forall_not_mem.mpr
      intro i hi
      obtain ⟨hin, hout⟩ := hscheduled i hi
      exact hout (List.mem_append_right _ hin)
    simp [hempty, hparallel]

end

def busy (maxJobs : ℕ) : Scheduler :=
  (dispatchJobInner ⟨1, 1000⟩ 1 0 someTokens ⟨⟨[], maxJobs⟩, []⟩).1

/-- A dispatch that the manager refuses, a completion, and a dispatch that
succeeds. -/
theorem refused_then_completed :
    Along (step ⟨1, 1000⟩) Unused [.dispatch 7 0 someTokens] (busy 1) ∧
    ∃ s', dispatchJobInner ⟨1, 1000⟩ 8 0 someTokens
      (run (step ⟨1, 1000⟩) [.dispatch 7 0 someTokens, .complete 1 0] (busy 1)) = (s', .ok 8) := by
  have hnew : Along (step ⟨1, 1000⟩) Unused [.dispatch 7 0 someTokens] (busy 1) :=
    ⟨⟨by decide, by decide⟩, trivial⟩
  exact ⟨hnew, (refused_keep_slots_iff ⟨1, 1000⟩ [.dispatch 7 0 someTokens] (busy 1) hnew).2
    ⟨Or.inl (by decide), trivial⟩ ⟨⟨_, rfl⟩, trivial⟩ [(1, 0)] 8 0 someTokens
    ⟨by decide, by decide⟩ rfl⟩

/-- The manager has room for five jobs and the scheduler for one: the refused
dispatch keeps a slot. -/
theorem refused_dispatch_leaks :
    Along (step ⟨1, 1000⟩) Unused [.dispatch 7 0 someTokens] (busy 5) ∧
      ¬ Along (step ⟨1, 1000⟩) (KeepsSlots ⟨1, 1000⟩) [.dispatch 7 0 someTokens] (busy 5) := by
  refine ⟨⟨⟨by decide, by decide⟩, trivial⟩, fun h => ?_⟩
  have hsame := h.1 ⟨_, rfl⟩
  revert hsame
  decide

end IronClaw.JobDispatch
