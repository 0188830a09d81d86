import IronClaw.Lib.Runs

/-!
# The container of a sandbox job

`orchestrator/job_manager.rs` for one job: `create_job` publishes the handle
and the token, has Docker create and start the container, and records it;
`complete_job`, `stop_job` and `cleanup_job` may run at any time in between. A
step is one access to a table or one call of Docker, which succeeds or fails as
the label says. Identifiers of containers are numbers, and a handle without one
has `none`.
-/

set_option autoImplicit false

namespace IronClaw.ContainerJobs
open Lib.Runs

inductive ContainerState where
  | creating
  | running
  | stopped
  | failed
  deriving DecidableEq

structure CompletionResult where
  success : Bool
  message : Option String
  deriving DecidableEq

structure ContainerHandle where
  containerId : Option ℕ
  state : ContainerState
  completionResult : Option CompletionResult
  closed : Bool
  deriving DecidableEq

/-- Where `create_job` is. -/
inductive Creator where
  | start
  | tokened
  | granted
  | published
  | ready
  | created (containerId : ℕ)
  | started (containerId : ℕ)
  | failing
  | revoked
  | ungranted
  | returned (ok : Bool)
  deriving DecidableEq

inductive Call where
  | completeJob (result : CompletionResult)
  | stopJob
  | cleanupJob
  deriving DecidableEq

inductive Reply where
  | ok
  | containerNotFound
  | invalidContainerState (state : String)
  | docker
  deriving DecidableEq

inductive Pc where
  | start
  | marked
  | connecting (containerId : ℕ)
  | stopping (containerId : ℕ)
  | removing (containerId : ℕ)
  | marking
  | revoking
  | ungranting
  | returned (reply : Reply)
  deriving DecidableEq

structure System where
  handle : Option ContainerHandle
  token : Bool
  grants : Bool
  connected : Bool
  created : List ℕ
  removed : List ℕ
  creator : Creator
  pcs : ℕ → Pc

def System.new : System := ⟨none, false, false, false, [], [], .start, fun _ => .start⟩

inductive Label where
  | create (ok : Bool) (containerId : ℕ)
  | call (i : ℕ) (ok : Bool)
  deriving DecidableEq

def freshHandle : ContainerHandle := ⟨none, .creating, none, false⟩

def ContainerHandle.close (h : ContainerHandle) : ContainerHandle :=
  { h with state := .stopped, closed := true }

def ContainerHandle.complete (result : CompletionResult) (h : ContainerHandle) :
    ContainerHandle :=
  { h.close with completionResult := some result }

def ContainerHandle.record (containerId : ℕ) (h : ContainerHandle) : ContainerHandle :=
  { h with containerId := some containerId, state := .running }

/-- The next step of `create_job`. The directory of the project is checked
before the container is created, with the same way out. -/
def createStep (grantsGiven ok : Bool) (containerId : ℕ) (s : System) : System :=
  match s.creator with
  | .start => { s with token := true, creator := .tokened }
  | .tokened => { s with grants := s.grants || grantsGiven, creator := .granted }
  | .granted => { s with handle := some freshHandle, creator := .published }
  | .published =>
    if s.connected || ok then { s with connected := true, creator := .ready } else { s with creator := .failing }
  | .ready =>
    if ok then { s with created := s.created++[containerId], creator := .created containerId }
    else { s with creator := .failing }
  | .created id => { s with creator := if ok then .started id else .failing }
  | .started id =>
    { s with handle := s.handle.map (ContainerHandle.record id), creator := .returned true }
  | .failing => { s with token := false, creator := .revoked }
  | .revoked => { s with grants := false, creator := .ungranted }
  | .ungranted => { s with handle := none, creator := .returned false }
  | .returned _ => s

def System.at (s : System) (i : ℕ) (pc : Pc) : System :=
  { s with pcs := Function.update s.pcs i pc }

def callStep (call : Call) (i : ℕ) (ok : Bool) (s : System) : System :=
  match s.pcs i with
  | .start =>
    match call with
    | .completeJob result =>
      { s with handle := s.handle.map (ContainerHandle.complete result) }.at i .marked
    | .stopJob =>
      match s.handle with
      | none => s.at i (.returned .containerNotFound)
      | some h =>
        match h.containerId with
        | none => s.at i (.returned (.invalidContainerState "creating (no container ID yet)"))
        | some id => s.at i (.connecting id)
    | .cleanupJob => { s with handle := none }.at i (.returned .ok)
  | .marked =>
    match s.handle.bind ContainerHandle.containerId with
    | none => s.at i .revoking
    | some id => s.at i (.connecting id)
  | .connecting id =>
    if s.connected || ok then { s with connected := true }.at i (.stopping id)
    else s.at i (if call = Call.stopJob then .returned .docker else .revoking)
  | .stopping id => s.at i (.removing id)
  | .removing id =>
    { s with removed := if ok then id::s.removed else s.removed }.at i
      (if call = Call.stopJob then .marking else .revoking)
  | .marking => { s with handle := s.handle.map ContainerHandle.close }.at i .revoking
  | .revoking => { s with token := false }.at i .ungranting
  | .ungranting => { s with grants := false }.at i (.returned .ok)
  | .returned _ => s

section

variable (grantsGiven : Bool) (calls : ℕ → Call)

def step : Label → System → System
  | .create ok containerId, s => createStep grantsGiven ok containerId s
  | .call i ok, s => callStep (calls i) i ok s

def Creator.returned? : Creator → Bool
  | .returned _ => true
  | _ => false

def Quiet (s : System) : Prop :=
  (s.creator = .start ∨ s.creator.returned? = true) ∧
    ∀ i, s.pcs i = .start ∨ ∃ reply, s.pcs i = .returned reply

def Runs (s : System) (id : ℕ) : Prop :=
  ∃ h, s.handle = some h ∧ h.containerId = some id ∧ h.state = .running ∧ s.token = true

structure Settled (s : System) : Prop where
  closed : ∀ h, s.handle = some h → h.closed = true → h.state ≠ .running ∧ h.state ≠ .creating
  accounted : ∀ id ∈ s.created, id ∈ s.removed ∨ Runs s id
  tokens : s.token = true → ∃ h, s.handle = some h ∧ h.state = .running

/-- A started container is never refused, a completion is reported after
`create_job` has returned, a handle is cleaned up after that and after the
token was revoked, and a container that is there can be removed. -/
def Orderly : Label → System → Prop
  | .create ok _, s => ∀ id, s.creator = .created id → ok = true
  | .call i ok, s =>
    (s.pcs i = .start → ∀ result, calls i = .completeJob result → s.creator.returned? = true) ∧
    (s.pcs i = .start → calls i = .cleanupJob →
      s.handle = none ∨ s.creator.returned? = true ∧ s.token = false) ∧
    (∀ id, s.pcs i = .removing id → ok = true ∨ id ∈ s.removed)

/-- What holds once `create_job` has returned. -/
def Final (s : System) : Prop :=
  s.handle = none ∧ s.token = false ∧ s.created = [] ∨
    ∃ id, s.created = [id] ∧ s.connected = true ∧
      (∀ h, s.handle = some h →
        h.containerId = some id ∧ (h.state = .running ∨ h.state = .stopped)) ∧
      (s.token = false → id ∈ s.removed) ∧ (s.handle = none → s.token = false)

/-- What holds while `create_job` is at each of its places. -/
def Stage (s : System) : Prop :=
  match s.creator with
  | .start => s.handle = none ∧ s.token = false ∧ s.created = []
  | .tokened => s.handle = none ∧ s.token = true ∧ s.created = []
  | .granted => s.handle = none ∧ s.token = true ∧ s.created = []
  | .published => s.handle = some freshHandle ∧ s.token = true ∧ s.created = []
  | .ready => s.handle = some freshHandle ∧ s.token = true ∧ s.created = [] ∧ s.connected = true
  | .created id =>
    s.handle = some freshHandle ∧ s.token = true ∧ s.created = [id] ∧ s.connected = true
  | .started id =>
    s.handle = some freshHandle ∧ s.token = true ∧ s.created = [id] ∧ s.connected = true
  | .failing => s.handle = some freshHandle ∧ s.created = []
  | .revoked => s.handle = some freshHandle ∧ s.token = false ∧ s.created = []
  | .ungranted => s.handle = some freshHandle ∧ s.token = false ∧ s.created = []
  | .returned _ => Final s

def Revoker (pc : Pc) (call : Call) : Prop :=
  pc = .marked ∨ pc = .revoking ∨
    call ≠ .stopJob ∧ ∃ id, pc = .connecting id ∨ pc = .stopping id ∨ pc = .removing id

structure Inv (s : System) : Prop where
  stage : Stage s
  marks : ∀ i, s.pcs i = .marked → calls i ≠ .stopJob
  busy : ∀ i, s.pcs i = .start ∨ (∃ reply, s.pcs i = .returned reply) ∨
    s.creator.returned? = true
  ids : ∀ i id, s.pcs i = .connecting id ∨ s.pcs i = .stopping id ∨ s.pcs i = .removing id →
    id ∈ s.created
  removed : ∀ i, s.pcs i = .marking ∨ s.pcs i = .revoking → ∀ id ∈ s.created, id ∈ s.removed
  closed : ∀ h, s.handle = some h → h.closed = true → h.state = .stopped
  stopped : ∀ h, s.handle = some h → h.state = .stopped → s.token = true →
    ∃ i, Revoker (s.pcs i) (calls i)

variable (s : System) (i : ℕ)

/-- While no other call is in progress only the stage matters. -/
theorem inv_of_idle (hstage : Stage s)
    (hidle : ∀ i, s.pcs i = .start ∨ ∃ reply, s.pcs i = .returned reply)
    (hopen : ∀ h, s.handle = some h → h.closed = false ∧ h.state ≠ .stopped) :
    Inv calls s where
  stage := hstage
  marks := by
    intro i hi
    rcases hidle i with hpc | ⟨reply, hpc⟩ <;> rw [hpc] at hi <;> cases hi
  busy := fun i => (hidle i).imp_right .inl
  ids := by
    intro i id hi
    rcases hidle i with hpc | ⟨reply, hpc⟩ <;> rw [hpc] at hi <;> simp at hi
  removed := by
    intro i hi
    rcases hidle i with hpc | ⟨reply, hpc⟩ <;> rw [hpc] at hi <;> simp at hi
  closed := by
    intro h hh hc
    rw [(hopen h hh).1] at hc
    cases hc
  stopped := fun h hh hs => absurd hs (hopen h hh).2

theorem returned_iff (c : Creator) : c.returned? = true ↔ ∃ done, c = .returned done := by
  cases c <;> simp [Creator.returned?]

theorem stage_final (h : s.creator.returned? = true) : Stage s ↔ Final s := by
  obtain ⟨done, hpc⟩ := (returned_iff s.creator).mp h
  simp only [Stage, hpc]

theorem create_inv (ok : Bool) (containerId : ℕ) (s : System) (h : Inv calls s)
    (horder : Orderly calls (.create ok containerId) s) :
    Inv calls (createStep grantsGiven ok containerId s) := by
  by_cases hdone : s.creator.returned? = true
  · obtain ⟨done, hpc⟩ := (returned_iff s.creator).mp hdone
    have hsame : createStep grantsGiven ok containerId s = s := by
      simp only [createStep, hpc]
    rw [hsame]
    exact h
  · have hidle : ∀ i, s.pcs i = .start ∨ ∃ reply, s.pcs i = .returned reply := by
      intro i
      rcases h.busy i with hpc | hpc | hpc
      · exact .inl hpc
      · exact .inr hpc
      · exact absurd hpc hdone
    have hstage := h.stage
    unfold Stage at hstage
    unfold createStep
    cases hpc : s.creator with
    | start =>
      simp only [hpc] at hstage
      exact inv_of_idle calls _ (by simp [Stage, hstage]) hidle (by simp [hstage])
    | tokened =>
      simp only [hpc] at hstage
      exact inv_of_idle calls _ (by simp [Stage, hstage]) hidle (by simp [hstage])
    | granted =>
      simp only [hpc] at hstage
      exact inv_of_idle calls _ (by simp [Stage, hstage]) hidle (by simp [freshHandle])
    | published =>
      simp only [hpc] at hstage
      simp only
      split
      · exact inv_of_idle calls _ (by simp [Stage, hstage]) hidle (by simp [hstage, freshHandle])
      · exact inv_of_idle calls _ (by simp [Stage, hstage]) hidle (by simp [hstage, freshHandle])
    | ready =>
      simp only [hpc] at hstage
      simp only
      split
      · exact inv_of_idle calls _ (by simp [Stage, hstage]) hidle (by simp [hstage, freshHandle])
      · exact inv_of_idle calls _ (by simp [Stage, hstage]) hidle (by simp [hstage, freshHandle])
    | created id =>
      simp only [hpc] at hstage
      simp only [horder id hpc, if_true]
      exact inv_of_idle calls _ (by simp [Stage, hstage]) hidle (by simp [hstage, freshHandle])
    | started id =>
      simp only [hpc] at hstage
      exact inv_of_idle calls _ (by simp [Stage, Final, hstage, ContainerHandle.record]) hidle
        (by simp [hstage, freshHandle, ContainerHandle.record])
    | failing =>
      simp only [hpc] at hstage
      exact inv_of_idle calls _ (by simp [Stage, hstage]) hidle (by simp [hstage, freshHandle])
    | revoked =>
      simp only [hpc] at hstage
      exact inv_of_idle calls _ (by simp [Stage, hstage]) hidle (by simp [hstage, freshHandle])
    | ungranted =>
      simp only [hpc] at hstage
      exact inv_of_idle calls _ (by simp [Stage, Final, hstage]) hidle (by simp)
    | returned done =>
      rw [hpc] at hdone
      exact absurd rfl hdone

theorem at_pcs (i j : ℕ) (pc : Pc) :
    (s.at i pc).pcs j = if j = i then pc else s.pcs j :=
  Function.update_apply s.pcs i pc j

/-- A call that returns, or is refused at once, changes nothing else. -/
theorem returned_inv (reply : Reply) (h : Inv calls s)
    (hpc : s.pcs i = .start ∨ s.pcs i = .ungranting) : Inv calls (s.at i (.returned reply)) := by
  obtain ⟨hstage, hmarks, hbusy, hids, hremoved, hclosed, hstopped⟩ := h
  constructor
  case stage => exact hstage
  case closed => exact hclosed
  case stopped =>
    intro h hh hs ht
    obtain ⟨j, hj⟩ := hstopped h hh hs ht
    refine ⟨j, ?_⟩
    rw [at_pcs, if_neg]
    · exact hj
    · intro hji
      rw [hji] at hj
      unfold Revoker at hj
      rcases hpc with hpc | hpc <;> rw [hpc] at hj <;> simp at hj
  all_goals
    simp only [at_pcs]
    grind [System.at]

/-- A call that goes on after `create_job` has returned. -/
theorem moved_inv (s t : System) (i : ℕ) (pc : Pc) (h : Inv calls s)
    (hreturned : s.creator.returned? = true) (hcreator : t.creator = s.creator)
    (hpcs : t.pcs = s.pcs) (hcreated : t.created = s.created)
    (hsub : ∀ id ∈ s.removed, id ∈ t.removed) (hfinal : Final t)
    (hmark : pc = .marked → calls i ≠ .stopJob)
    (hid : ∀ id, pc = .connecting id ∨ pc = .stopping id ∨ pc = .removing id → id ∈ s.created)
    (hgone : pc = .marking ∨ pc = .revoking → ∀ id ∈ s.created, id ∈ t.removed)
    (hclosed : ∀ h, t.handle = some h → h.closed = true → h.state = .stopped)
    (hstopped : ∀ h, t.handle = some h → h.state = .stopped → t.token = true →
      Revoker pc (calls i) ∨ ∃ j, j ≠ i ∧ Revoker (s.pcs j) (calls j)) :
    Inv calls (t.at i pc) where
  stage := (stage_final (t.at i pc) (hcreator ▸ hreturned)).mpr hfinal
  marks := by
    intro j hj
    have hm := h.marks j
    rw [at_pcs, hpcs] at hj
    grind
  busy := fun j => .inr (.inr (hcreator ▸ hreturned))
  ids := by
    intro j id hj
    have hi := h.ids j id
    rw [at_pcs, hpcs] at hj
    show id ∈ t.created
    grind
  removed := by
    intro j hj id hin
    have hr := h.removed j
    have hin : id ∈ t.created := hin
    rw [at_pcs, hpcs] at hj
    show id ∈ t.removed
    grind
  closed := hclosed
  stopped := by
    intro h' hh hs ht
    rcases hstopped h' hh hs ht with hi | ⟨j, hji, hj⟩
    · exact ⟨i, by rw [at_pcs, if_pos rfl]; exact hi⟩
    · exact ⟨j, by rw [at_pcs, if_neg hji, hpcs]; exact hj⟩

theorem revoker_other (pc : Pc) (hkeep : Revoker (s.pcs i) (calls i) → Revoker pc (calls i))
    (h : ∃ j, Revoker (s.pcs j) (calls j)) :
    Revoker pc (calls i) ∨ ∃ j, j ≠ i ∧ Revoker (s.pcs j) (calls j) := by
  obtain ⟨j, hj⟩ := h
  by_cases hji : j = i
  · rw [hji] at hj
    exact .inl (hkeep hj)
  · exact .inr ⟨j, hji, hj⟩

/-- A handle that is closed by a call that is going to revoke the token. -/
theorem closing_inv (pc : Pc) (f : ContainerHandle → ContainerHandle) (h : Inv calls s)
    (hreturned : s.creator.returned? = true)
    (hf : ∀ h, (f h).containerId = h.containerId ∧ (f h).state = .stopped)
    (hmark : pc = .marked → calls i ≠ .stopJob)
    (hgone : pc = .revoking → ∀ id ∈ s.created, id ∈ s.removed)
    (hpc : pc = .marked ∨ pc = .revoking) :
    Inv calls ({ s with handle := s.handle.map f }.at i pc) := by
  have hfinal := (stage_final s hreturned).mp h.stage
  refine moved_inv calls s _ i pc h hreturned rfl rfl rfl (fun _ h => h) ?_ hmark ?_ ?_ ?_ ?_
  · rcases hfinal with ⟨hnone, htoken, hcreated⟩ | ⟨id, hcreated, hconn, hhandle, htoken, hnone⟩
    · exact .inl ⟨by simp [hnone], htoken, hcreated⟩
    · refine .inr ⟨id, hcreated, hconn, ?_, htoken, ?_⟩
      · intro h' hh'
        obtain ⟨h₀, hh₀, rfl⟩ := Option.map_eq_some_iff.mp hh'
        exact ⟨(hf h₀).1.trans (hhandle h₀ hh₀).1, .inr (hf h₀).2⟩
      · intro hgone
        exact hnone (Option.map_eq_none_iff.mp hgone)
  · intro id hid
    rcases hpc with hpc | hpc <;> simp [hpc] at hid
  · intro hin
    rcases hpc with hpc | hpc
    · simp [hpc] at hin
    · exact hgone hpc
  · intro h' hh' _
    obtain ⟨h₀, -, rfl⟩ := Option.map_eq_some_iff.mp hh'
    exact (hf h₀).2
  · intro _ _ _ _
    rcases hpc with hpc | hpc
    · exact .inl (.inl hpc)
    · exact .inl (.inr (.inl hpc))

theorem passing_inv (pc : Pc) (h : Inv calls s) (hreturned : s.creator.returned? = true)
    (hmark : pc = .marked → calls i ≠ .stopJob)
    (hid : ∀ id, pc = .connecting id ∨ pc = .stopping id ∨ pc = .removing id → id ∈ s.created)
    (hgone : pc = .marking ∨ pc = .revoking → ∀ id ∈ s.created, id ∈ s.removed)
    (hkeep : Revoker (s.pcs i) (calls i) → Revoker pc (calls i)) : Inv calls (s.at i pc) :=
  moved_inv calls s s i pc h hreturned rfl rfl rfl (fun _ h => h)
    ((stage_final s hreturned).mp h.stage) hmark hid hgone h.closed
    (fun h' hh hs ht => revoker_other calls s i pc hkeep (h.stopped h' hh hs ht))

/-- A call that goes on with a container of the job. -/
theorem onto_inv (pc : Pc) (id : ℕ) (h : Inv calls s) (hreturned : s.creator.returned? = true)
    (hid : id ∈ s.created) (hpc : pc = .connecting id ∨ pc = .stopping id ∨ pc = .removing id)
    (hkeep : Revoker (s.pcs i) (calls i) → calls i ≠ .stopJob) : Inv calls (s.at i pc) := by
  apply passing_inv calls s i pc h hreturned
  · intro hmark
    rw [hmark] at hpc
    simp at hpc
  · intro id' hid'
    rcases hpc with rfl | rfl | rfl <;> simp at hid' <;> rw [← hid'] <;> exact hid
  · intro hgone
    rcases hpc with rfl | rfl | rfl <;> simp at hgone
  · intro hrev
    exact .inr (.inr ⟨hkeep hrev, id, hpc⟩)

/-- A handle with a container was recorded by `create_job` on its return. -/
theorem recorded_returned (hstage : Stage s) (h : ContainerHandle) (id : ℕ) (hh : s.handle = some h)
    (hid : h.containerId = some id) :
    s.creator.returned? = true ∧ id ∈ s.created := by
  have hfresh : s.handle ≠ some freshHandle := by
    intro hf
    rw [hh] at hf
    cases hf
    cases hid
  have hreturned : s.creator.returned? = true := by
    unfold Stage at hstage
    cases hpc : s.creator <;> simp only [hpc, hh] at hstage <;>
      first | rfl | (simp at hstage; done) | exact absurd (hh.trans hstage.1) hfresh
  rcases (stage_final s hreturned).mp hstage with ⟨hnone, -, -⟩ | ⟨id', hcreated, -, hhandle, -, -⟩
  · rw [hh] at hnone
    cases hnone
  · have hsame := (hhandle h hh).1
    rw [hid] at hsame
    cases hsame
    exact ⟨hreturned, by rw [hcreated]; exact List.mem_singleton.mpr rfl⟩

theorem busy_returned (h : Inv calls s) (hstart : s.pcs i ≠ .start)
    (hreturn : ∀ reply, s.pcs i ≠ .returned reply) : s.creator.returned? = true := by
  rcases h.busy i with hpc | ⟨reply, hpc⟩ | hpc
  · exact absurd hpc hstart
  · exact absurd hpc (hreturn reply)
  · exact hpc

theorem created_connected (hfinal : Final s) (id : ℕ) (hid : id ∈ s.created) :
    s.connected = true ∧ s.created = [id] := by
  rcases hfinal with ⟨-, -, hcreated⟩ | ⟨id', hcreated, hconn, -⟩
  · rw [hcreated] at hid
    cases hid
  · rw [hcreated] at hid ⊢
    rw [List.mem_singleton.mp hid]
    exact ⟨hconn, rfl⟩

theorem cleanup_inv (h : Inv calls s) (hpc : s.pcs i = .start)
    (horder : s.handle = none ∨ s.creator.returned? = true ∧ s.token = false) :
    Inv calls ({ s with handle := none }.at i (.returned .ok)) := by
  by_cases hnone : s.handle = none
  · have hsame : { s with handle := none } = s := by rw [← hnone]
    rw [hsame]
    exact returned_inv calls s i .ok h (.inl hpc)
  · obtain ⟨hreturned, htoken⟩ := horder.resolve_left hnone
    refine moved_inv calls s _ i _ h hreturned rfl rfl rfl (fun _ h => h) ?_ nofun (by simp)
      (by simp) nofun nofun
    rcases (stage_final s hreturned).mp h.stage with
      ⟨-, -, hcreated⟩ | ⟨id, hcreated, hconn, -, hremoved, -⟩
    · exact .inl ⟨rfl, htoken, hcreated⟩
    · exact .inr ⟨id, hcreated, hconn, nofun, hremoved, fun _ => htoken⟩

/-- The container of the job is removed, or somebody else has removed it. -/
theorem removing_inv (i id : ℕ) (ok : Bool) (h : Inv calls s) (hpc : s.pcs i = .removing id)
    (hreturned : s.creator.returned? = true) (horder : ok = true ∨ id ∈ s.removed) :
    Inv calls ({ s with removed := if ok then id::s.removed else s.removed }.at i
      (if calls i = Call.stopJob then .marking else .revoking)) := by
  have hfinal := (stage_final s hreturned).mp h.stage
  have hcreated := (created_connected s hfinal id (h.ids i id (.inr (.inr hpc)))).2
  have hsub : ∀ x ∈ s.removed, x ∈ if ok then id::s.removed else s.removed := by
    intro x hx
    split
    · exact List.mem_cons_of_mem id hx
    · exact hx
  have hgone : id ∈ if ok then id::s.removed else s.removed := by
    rcases horder with hok | hin
    · rw [if_pos hok]
      exact List.mem_cons_self
    · exact hsub id hin
  refine moved_inv calls s _ i _ h hreturned rfl rfl rfl hsub ?_ ?_ ?_ ?_ h.closed ?_
  · rcases hfinal with hnone | ⟨id', hcreated', hconn, hhandle, htoken, hnone⟩
    · exact .inl hnone
    · exact .inr ⟨id', hcreated', hconn, hhandle, fun hf => hsub id' (htoken hf), hnone⟩
  · split <;> nofun
  · intro id' hid'
    split at hid' <;> simp at hid'
  · intro _ x hx
    rw [hcreated] at hx
    rw [List.mem_singleton.mp hx]
    exact hgone
  · intro h' hh hs ht
    apply revoker_other calls s i _ _ (h.stopped h' hh hs ht)
    intro hrev
    simp only [hpc, Revoker, reduceCtorEq, false_or] at hrev
    rw [if_neg hrev.1]
    exact .inr (.inl rfl)

theorem revoking_inv (h : Inv calls s) (hpc : s.pcs i = .revoking)
    (hreturned : s.creator.returned? = true) :
    Inv calls ({ s with token := false }.at i .ungranting) := by
  have hgone := h.removed i (.inr hpc)
  refine moved_inv calls s _ i _ h hreturned rfl rfl rfl (fun _ h => h) ?_ nofun (by simp)
    (by simp) h.closed nofun
  rcases (stage_final s hreturned).mp h.stage with
    ⟨hnone, -, hcreated⟩ | ⟨id, hcreated, hconn, hhandle, -, -⟩
  · exact .inl ⟨hnone, rfl, hcreated⟩
  · exact .inr ⟨id, hcreated, hconn, hhandle,
      fun _ => hgone id (by rw [hcreated]; exact List.mem_singleton.mpr rfl), fun _ => rfl⟩

theorem call_inv (ok : Bool) (s : System) (h : Inv calls s)
    (horder : Orderly calls (.call i ok) s) : Inv calls (callStep (calls i) i ok s) := by
  unfold callStep
  cases hpc : s.pcs i with
  | start =>
    cases hcall : calls i with
    | completeJob result =>
      exact closing_inv calls s i .marked _ h (horder.1 hpc result hcall)
        (fun _ => ⟨rfl, rfl⟩) (fun _ hstop => by rw [hcall] at hstop; cases hstop) nofun (.inl rfl)
    | stopJob =>
      simp only
      split
      · exact returned_inv calls s i _ h (.inl hpc)
      · rename_i handle hhandle
        split
        · exact returned_inv calls s i _ h (.inl hpc)
        · rename_i id hid
          obtain ⟨hreturned, hcreated⟩ := recorded_returned s h.stage handle id hhandle hid
          apply onto_inv calls s i _ id h hreturned hcreated (.inl rfl)
          intro hrev
          simp [hpc, Revoker] at hrev
    | cleanupJob => exact cleanup_inv calls s i h hpc (horder.2.1 hpc hcall)
  | marked =>
    have hreturned := busy_returned calls s i h (by simp [hpc]) (by simp [hpc])
    simp only
    split
    · rename_i hnone
      apply passing_inv calls s i .revoking h hreturned nofun (by simp)
      · -- without a handle the token is gone, and with it the container
        intro _ id hid
        rcases (stage_final s hreturned).mp h.stage with
          ⟨-, -, hcreated⟩ | ⟨id', hcreated, -, hhandle, htoken, hgone⟩
        · rw [hcreated] at hid
          cases hid
        · rw [hcreated] at hid
          rw [List.mem_singleton.mp hid]
          cases hh : s.handle with
          | none => exact htoken (hgone hh)
          | some handle =>
            rw [hh, Option.bind_some, (hhandle handle hh).1] at hnone
            cases hnone
      · exact fun _ => .inr (.inl rfl)
    · rename_i id hid
      obtain ⟨handle, hh, hid⟩ := Option.bind_eq_some_iff.mp hid
      exact onto_inv calls s i _ id h hreturned (recorded_returned s h.stage handle id hh hid).2
        (.inl rfl) (fun _ => h.marks i hpc)
  | connecting id =>
    have hreturned := busy_returned calls s i h (by simp [hpc]) (by simp [hpc])
    have hid := h.ids i id (.inl hpc)
    have hconn := (created_connected s ((stage_final s hreturned).mp h.stage) id hid).1
    have hsame : { s with connected := true } = s := by rw [← hconn]
    simp only [hconn, Bool.true_or, if_true]
    rw [hsame]
    apply onto_inv calls s i _ id h hreturned hid (.inr (.inl rfl))
    intro hrev
    simp only [hpc, Revoker, reduceCtorEq, false_or] at hrev
    exact hrev.1
  | stopping id =>
    have hreturned := busy_returned calls s i h (by simp [hpc]) (by simp [hpc])
    apply onto_inv calls s i _ id h hreturned (h.ids i id (.inr (.inl hpc))) (.inr (.inr rfl))
    intro hrev
    simp only [hpc, Revoker, reduceCtorEq, false_or] at hrev
    exact hrev.1
  | removing id =>
    exact removing_inv calls s i id ok h hpc (busy_returned calls s i h (by simp [hpc])
      (by simp [hpc])) (horder.2.2 id hpc)
  | marking =>
    exact closing_inv calls s i .revoking _ h (busy_returned calls s i h (by simp [hpc])
      (by simp [hpc])) (fun _ => ⟨rfl, rfl⟩) nofun (fun _ => h.removed i (.inl hpc)) (.inr rfl)
  | revoking =>
    exact revoking_inv calls s i h hpc (busy_returned calls s i h (by simp [hpc]) (by simp [hpc]))
  | ungranting =>
    have hstep := returned_inv calls s i .ok h (.inr hpc)
    exact ⟨hstep.stage, hstep.marks, hstep.busy, hstep.ids, hstep.removed, hstep.closed,
      hstep.stopped⟩
  | returned reply => exact h

theorem step_inv (l : Label) (s : System) (h : Inv calls s) (horder : Orderly calls l s) :
    Inv calls (step grantsGiven calls l s) := by
  cases l with
  | create ok containerId => exact create_inv grantsGiven calls ok containerId s h horder
  | call i ok => exact call_inv calls i ok s h horder

theorem new_inv : Inv calls System.new :=
  inv_of_idle calls System.new ⟨rfl, rfl, rfl⟩ (fun _ => .inl rfl) nofun

/-- With nobody left to revoke the token, a valid token has a running handle. -/
theorem token_running (h : Inv calls s) (hreturned : s.creator.returned? = true)
    (hnobody : ¬ ∃ i, Revoker (s.pcs i) (calls i)) (htoken : s.token = true) :
    ∃ handle id, s.handle = some handle ∧ s.created = [id] ∧ handle.containerId = some id ∧
      handle.state = .running := by
  rcases (stage_final s hreturned).mp h.stage with
    ⟨-, hfalse, -⟩ | ⟨id, hcreated, -, hhandle, -, hgone⟩
  · rw [htoken] at hfalse
    cases hfalse
  · cases hh : s.handle with
    | none =>
      rw [hgone hh] at htoken
      cases htoken
    | some handle =>
      obtain ⟨hid, hrunning | hstopped⟩ := hhandle handle hh
      · exact ⟨handle, id, rfl, hcreated, hid, hrunning⟩
      · exact absurd (h.stopped handle hh hstopped htoken) hnobody

theorem quiet_settled (h : Inv calls s) (hquiet : Quiet s) : Settled s := by
  have hnobody : ¬ ∃ i, Revoker (s.pcs i) (calls i) := by
    intro ⟨i, hi⟩
    unfold Revoker at hi
    rcases hquiet.2 i with hpc | ⟨reply, hpc⟩ <;> rw [hpc] at hi <;> simp at hi
  rcases hquiet.1 with hstart | hreturned
  · have hstage := h.stage
    simp only [Stage, hstart] at hstage
    obtain ⟨hnone, htoken, hcreated⟩ := hstage
    constructor
    · simp [hnone]
    · simp [hcreated]
    · simp [htoken]
  · constructor
    · intro handle hh hclosed
      rw [h.closed handle hh hclosed]
      exact ⟨nofun, nofun⟩
    · intro id hid
      cases htoken : s.token with
      | false =>
        left
        rcases (stage_final s hreturned).mp h.stage with
          ⟨-, -, hcreated⟩ | ⟨id', hcreated, -, -, hremoved, -⟩
        · rw [hcreated] at hid
          cases hid
        · rw [hcreated] at hid
          rw [List.mem_singleton.mp hid]
          exact hremoved htoken
      | true =>
        right
        obtain ⟨handle, id', hh, hcreated, hid', hrunning⟩ :=
          token_running calls s h hreturned hnobody htoken
        rw [hcreated] at hid
        rw [List.mem_singleton.mp hid]
        exact ⟨handle, hh, hid', hrunning, htoken⟩
    · intro htoken
      obtain ⟨handle, -, hh, -, -, hrunning⟩ :=
        token_running calls s h hreturned hnobody htoken
      exact ⟨handle, hh, hrunning⟩

/-- In every orderly run the job is settled whenever no call is in progress. -/
theorem orderly_settled (labels : List Label)
    (h : Along (step grantsGiven calls) (Orderly calls) labels System.new)
    (hquiet : Quiet (run (step grantsGiven calls) labels System.new)) :
    Settled (run (step grantsGiven calls) labels System.new) :=
  quiet_settled calls _ (guarded_invariant (step grantsGiven calls) (Orderly calls) (Inv calls)
    (fun l s hs ho => step_inv grantsGiven calls l s hs ho) labels System.new h (new_inv calls))
    hquiet

end

/-- Only call 0 has moved, and it has returned. -/
theorem quiet_of (s : System) (pcs : List Pc) (reply : Reply) (done : Bool)
    (hs : s.pcs = (pcs++[Pc.returned reply]).foldl (fun f pc => Function.update f 0 pc)
      (fun _ => .start)) (hcreator : s.creator = .returned done) : Quiet s := by
  refine ⟨.inr (by rw [hcreator]; rfl), fun i => ?_⟩
  rw [hs, List.foldl_append]
  by_cases hi : i = 0
  · exact .inr ⟨reply, by simp [hi]⟩
  · left
    have hrest : ∀ (ps : List Pc) (f : ℕ → Pc), f i = .start →
        ps.foldl (fun f pc => Function.update f 0 pc) f i = .start := by
      intro ps
      induction ps with
      | nil => exact fun f hf => hf
      | cons pc ps ih => exact fun f hf => ih _ ((Function.update_of_ne hi pc f).trans hf)
    simpa [Function.update_of_ne hi] using hrest pcs _ rfl

def stoppedAfter : List Label :=
  List.replicate 7 (.create true 5)++List.replicate 7 (.call 0 true)

theorem stopped_settled :
    Settled (run (step false (fun _ => .stopJob)) stoppedAfter System.new) ∧
      (run (step false (fun _ => .stopJob)) stoppedAfter System.new).removed = [5] := by
  refine ⟨orderly_settled false (fun _ => .stopJob) stoppedAfter ?_ ?_, rfl⟩
  · apply along_all
    intro l hl s
    rcases List.mem_append.mp hl with hmem | hmem
    · rw [List.eq_of_mem_replicate hmem]
      exact fun _ _ => rfl
    · rw [List.eq_of_mem_replicate hmem]
      exact ⟨nofun, nofun, fun _ _ => .inl rfl⟩
  · exact quiet_of _ [.connecting 5, .stopping 5, .removing 5, .marking, .revoking, .ungranting] .ok
      true rfl rfl

def reportedBefore : List Label :=
  List.replicate 6 (.create true 5)++List.replicate 4 (.call 0 true)++[.create true 5]

/-- The completed handle is running again, without a token. -/
theorem completed_running :
    ¬ ∀ (grantsGiven : Bool) (calls : ℕ → Call) (labels : List Label),
      Quiet (run (step grantsGiven calls) labels System.new) →
      Settled (run (step grantsGiven calls) labels System.new) := by
  intro h
  have hsettled := h false (fun _ => .completeJob ⟨true, none⟩) reportedBefore
    (quiet_of _ [.marked, .revoking, .ungranting] .ok true rfl rfl)
  exact (hsettled.closed ⟨some 5, .running, some ⟨true, none⟩, true⟩ rfl rfl).1 rfl

end IronClaw.ContainerJobs
