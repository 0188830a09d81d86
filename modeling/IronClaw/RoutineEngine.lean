import Mathlib.Data.List.Nodup
import IronClaw.Lib.Runs

/-!
# The routine engine

`agent/routine_engine.rs` fires routines from five entry points. Each checks
some of the limits and then spawns a task, which records the run, counts itself
in, executes the routine, counts itself out, completes the record and writes
the runtime fields of the routine from the copy it was fired with. A step is
one access to the database, one access to the counter or one spawn. Which
routines a message or an event matches, the outcomes of the database and of the
runs, and the passing of time are part of the labels. Times are nanoseconds.
-/

set_option autoImplicit false

namespace IronClaw.RoutineEngine
open Lib.Runs

inductive TriggerKind where
  | event
  | systemEvent
  | cron
  | other
  deriving DecidableEq

inductive RunStatus where
  | running
  | ok
  | attention
  | failed
  deriving DecidableEq

structure Row where
  lastRunAt : Option ℕ
  nextFireAt : Option ℕ
  runCount : UInt64
  consecutiveFailures : UInt32
  deriving DecidableEq

structure Config where
  ids : List ℕ
  nodup : ids.Nodup
  kind : ℕ → TriggerKind
  enabled : ℕ → Bool
  maxConcurrent : ℕ → ℕ
  cooldown : ℕ → ℕ
  maxConcurrentRoutines : ℕ
  nextCronFire : ℕ → ℕ → Option ℕ
  overflowChecks : Bool

structure Candidate where
  routine : ℕ
  row : Row
  deriving DecidableEq

inductive Mode where
  | scan (kind : TriggerKind) (counts : ℕ → ℕ)
  | cron
  | manual
  | webhook

inductive Entry where
  | idle
  | looking (mode : Mode) (rest : List Candidate)
  | counting (mode : Mode) (c : Candidate) (rest : List Candidate)
  | loading (mode : Mode) (c : Candidate) (rest : List Candidate)
  | firing (mode : Mode) (c : Candidate) (rest : List Candidate)
  | done

inductive Stage where
  | spawned
  | recorded
  | executing
  | left (status : RunStatus)
  | completed (status : RunStatus)
  | finished
  | dropped
  | panicked
  deriving DecidableEq

inductive Fired where
  | event
  | systemEvent
  | cron
  | manual
  | webhook
  deriving DecidableEq

structure Run where
  candidate : Candidate
  fired : Fired
  startedAt : ℕ
  stage : Stage
  running : Bool
  deriving DecidableEq

structure Engine where
  now : ℕ
  rows : ℕ → Row
  cache : List Candidate
  entries : ℕ → Entry
  runs : List Run
  runningCount : ℕ
  log : List (ℕ × RunStatus)

structure Outcome where
  ok : Bool
  panics : Bool
  status : RunStatus
  deriving DecidableEq

inductive Label where
  | pass (time : ℕ)
  | refreshEventCache (ok : Bool)
  | checkEventTriggers (i : ℕ) (matched : ℕ → Bool) (ok : Bool)
  | emitSystemEvent (i : ℕ) (matched : ℕ → Bool) (ok : Bool)
  | checkCronTriggers (i : ℕ) (ok : Bool)
  | fireManual (i routine : ℕ) (authorized : Bool)
  | fireWebhook (i routine : ℕ)
  | entry (i : ℕ) (ok : Bool)
  | run (j : ℕ) (outcome : Outcome)

def Stage.ended : Stage → Bool
  | .finished => true
  | .dropped => true
  | .panicked => true
  | _ => false

/-- The stages that hold a place in `running_count`; a panic keeps it. -/
def Stage.counted : Stage → Bool
  | .executing => true
  | .panicked => true
  | _ => false

def Mode.fired : Mode → Fired
  | .scan .systemEvent _ => .systemEvent
  | .scan _ _ => .event
  | .cron => .cron
  | .manual => .manual
  | .webhook => .webhook

def Engine.new (rows : ℕ → Row) (now : ℕ) : Engine :=
  ⟨now, rows, [], fun _ => .idle, [], 0, []⟩

def Engine.at (s : Engine) (i : ℕ) (e : Entry) : Engine :=
  { s with entries := Function.update s.entries i e }

def Engine.spawn (s : Engine) (run : Run) : Engine := { s with runs := s.runs++[run] }

/-- `count_running_routine_runs`. -/
def runningRuns (s : Engine) (routine : ℕ) : ℕ :=
  s.runs.countP (fun r => r.candidate.routine = routine && r.running)

section

variable (cfg : Config)

/-- The longest span that `chrono::Duration::from_std` takes, `i64::MAX` milliseconds. -/
def maxSpan : ℕ := 9223372036854775807000000

def cooldownSpan (cooldown : ℕ) : ℕ := if cooldown ≤ maxSpan then cooldown else 300000000000

def checkCooldown (now : ℕ) (c : Candidate) : Bool :=
  match c.row.lastRunAt with
  | some last => last+cooldownSpan (cfg.cooldown c.routine) ≤ now
  | none => true

def copies (s : Engine) (p : ℕ → Bool) : List Candidate :=
  (cfg.ids.filter p).map (fun id => ⟨id, s.rows id⟩)

def listEventRoutines (s : Engine) : List Candidate :=
  copies cfg s (fun id => cfg.enabled id &&
    (cfg.kind id = .event || cfg.kind id = .systemEvent))

def isDue (s : Engine) (id : ℕ) : Bool :=
  match (s.rows id).nextFireAt with
  | some t => t ≤ s.now
  | none => false

def listDueCronRoutines (s : Engine) : List Candidate :=
  copies cfg s (fun id => cfg.enabled id && cfg.kind id = .cron && isDue s id)

def startScan (i : ℕ) (kind : TriggerKind) (matched : ℕ → Bool) (ok : Bool) (s : Engine) :
    Engine :=
  match s.entries i with
  | .idle =>
    if ok then
      s.at i (.looking (.scan kind (runningRuns s)) (s.cache.filter (fun c =>
        cfg.kind c.routine = kind && matched c.routine)))
    else s.at i .done
  | _ => s

def startCron (i : ℕ) (ok : Bool) (s : Engine) : Engine :=
  match s.entries i with
  | .idle => s.at i (if ok then .looking .cron (listDueCronRoutines cfg s) else .done)
  | _ => s

/-- `fire_manual` and `fire_webhook` up to the query for running runs. -/
def startFire (i : ℕ) (mode : Mode) (routine : ℕ) (admitted : Bool) (s : Engine) : Engine :=
  match s.entries i with
  | .idle => s.at i (if routine ∈ cfg.ids ∧ cfg.enabled routine ∧ admitted then
      .counting mode ⟨routine, s.rows routine⟩ [] else .done)
  | _ => s

def fire (i : ℕ) (mode : Mode) (c : Candidate) (rest : List Candidate) (ok : Bool) (s : Engine) :
    Engine :=
  match mode with
  | .scan _ _ | .cron =>
    (s.spawn ⟨c, mode.fired, s.now, .spawned, false⟩).at i (.looking mode rest)
  | .manual | .webhook =>
    if ok then (s.spawn ⟨c, mode.fired, s.now, .recorded, true⟩).at i (.looking mode rest)
    else s.at i (.looking mode rest)

def look (mode : Mode) (c : Candidate) (rest : List Candidate) (s : Engine) : Entry :=
  match mode with
  | .scan _ counts =>
    if checkCooldown cfg s.now c && counts c.routine < cfg.maxConcurrent c.routine &&
        s.runningCount < cfg.maxConcurrentRoutines then .firing mode c rest
    else .looking mode rest
  | .cron =>
    if cfg.maxConcurrentRoutines ≤ s.runningCount then .done
    else if checkCooldown cfg s.now c then .counting mode c rest
    else .looking mode rest
  | .manual | .webhook => .done

def entryStep (i : ℕ) (ok : Bool) (s : Engine) : Engine :=
  match s.entries i with
  | .idle => s
  | .looking _ [] => s.at i .done
  | .looking mode (c::rest) => s.at i (look cfg mode c rest s)
  | .counting mode c rest =>
    if ok && runningRuns s c.routine < cfg.maxConcurrent c.routine then
      s.at i (match mode with
        | .webhook => .loading mode c rest
        | _ => .firing mode c rest)
    else s.at i (.looking mode rest)
  | .loading mode c rest =>
    s.at i (if s.runningCount < cfg.maxConcurrentRoutines then .firing mode c rest
      else .looking mode rest)
  | .firing mode c rest => fire i mode c rest ok s
  | .done => s

def updatedRow (s : Engine) (c : Candidate) (status : RunStatus) : Row where
  lastRunAt := some s.now
  nextFireAt := if cfg.kind c.routine = .cron then cfg.nextCronFire c.routine s.now else none
  runCount := c.row.runCount+1
  consecutiveFailures := if status = .failed then c.row.consecutiveFailures+1 else 0

def overflows (c : Candidate) (status : RunStatus) : Bool :=
  c.row.runCount.toNat = 0xffffffffffffffff ||
    (status = .failed && c.row.consecutiveFailures.toNat = 0xffffffff)

def updateRoutineRuntime (c : Candidate) (status : RunStatus) (ok : Bool) (s : Engine) : Engine :=
  if ok && !(cfg.overflowChecks && overflows c status) then
    { s with rows := Function.update s.rows c.routine (updatedRow cfg s c status) }
  else s

def Engine.setRun (s : Engine) (j : ℕ) (r : Run) : Engine := { s with runs := s.runs.set j r }

def runStep (j : ℕ) (outcome : Outcome) (s : Engine) : Engine :=
  match s.runs[j]? with
  | none => s
  | some r =>
    match r.stage with
    | .spawned =>
      if outcome.ok then s.setRun j { r with stage := .recorded, running := true }
      else s.setRun j { r with stage := .dropped }
    | .recorded =>
      { s with runningCount := s.runningCount+1 }.setRun j { r with stage := .executing }
    | .executing =>
      if outcome.panics then s.setRun j { r with stage := .panicked }
      else { s with runningCount := s.runningCount-1 }.setRun j
        { r with stage := .left outcome.status }
    | .left status =>
      { s with log := s.log++[(r.candidate.routine, status)] }.setRun j
        { r with stage := .completed status, running := r.running && !outcome.ok }
    | .completed status =>
      (updateRoutineRuntime cfg r.candidate status outcome.ok s).setRun j
        { r with stage := .finished }
    | .finished => s
    | .dropped => s
    | .panicked => s

def step : Label → Engine → Engine
  | .pass time, s => { s with now := s.now+time }
  | .refreshEventCache ok, s => if ok then { s with cache := listEventRoutines cfg s } else s
  | .checkEventTriggers i matched ok, s => startScan cfg i .event matched ok s
  | .emitSystemEvent i matched ok, s => startScan cfg i .systemEvent matched ok s
  | .checkCronTriggers i ok, s => startCron cfg i ok s
  | .fireManual i routine authorized, s => startFire cfg i .manual routine authorized s
  | .fireWebhook i routine, s =>
    startFire cfg i .webhook routine (checkCooldown cfg s.now ⟨routine, s.rows routine⟩) s
  | .entry i ok, s => entryStep cfg i ok s
  | .run j outcome, s => runStep cfg j outcome s

inductive Advance (s : Engine) (j : ℕ) (outcome : Outcome) : Engine → Prop
  | idle : Advance s j outcome s
  | recorded (r : Run) (hrun : s.runs[j]? = some r) (hstage : r.stage = .spawned) :
      Advance s j outcome (s.setRun j { r with stage := .recorded, running := true })
  | dropped (r : Run) (hrun : s.runs[j]? = some r) (hstage : r.stage = .spawned) :
      Advance s j outcome (s.setRun j { r with stage := .dropped })
  | begun (r : Run) (hrun : s.runs[j]? = some r) (hstage : r.stage = .recorded) :
      Advance s j outcome ({ s with runningCount := s.runningCount+1 }.setRun j
        { r with stage := .executing })
  | panicked (r : Run) (hrun : s.runs[j]? = some r) (hstage : r.stage = .executing)
      (hpanics : outcome.panics = true) :
      Advance s j outcome (s.setRun j { r with stage := .panicked })
  | left (r : Run) (hrun : s.runs[j]? = some r) (hstage : r.stage = .executing) :
      Advance s j outcome ({ s with runningCount := s.runningCount-1 }.setRun j
        { r with stage := .left outcome.status })
  | completed (r : Run) (status : RunStatus) (hrun : s.runs[j]? = some r)
      (hstage : r.stage = .left status) :
      Advance s j outcome ({ s with log := s.log++[(r.candidate.routine, status)] }.setRun j
        { r with stage := .completed status, running := r.running && !outcome.ok })
  | finished (r : Run) (status : RunStatus) (hrun : s.runs[j]? = some r)
      (hstage : r.stage = .completed status) :
      Advance s j outcome ((updateRoutineRuntime cfg r.candidate status outcome.ok s).setRun j
        { r with stage := .finished })

theorem runStep_advance (j : ℕ) (outcome : Outcome) (s : Engine) :
    Advance cfg s j outcome (runStep cfg j outcome s) := by
  unfold runStep
  cases hrun : s.runs[j]? with
  | none => exact .idle
  | some r =>
    simp only
    cases hstage : r.stage with
    | spawned =>
      simp only
      split
      · exact .recorded r hrun hstage
      · exact .dropped r hrun hstage
    | recorded => exact .begun r hrun hstage
    | executing =>
      simp only
      split
      · rename_i hpanics
        exact .panicked r hrun hstage hpanics
      · exact .left r hrun hstage
    | left status => exact .completed r status hrun hstage
    | completed status => exact .finished r status hrun hstage
    | finished => exact .idle
    | dropped => exact .idle
    | panicked => exact .idle

end

theorem at_entry (s : Engine) (i j : ℕ) (e : Entry) :
    (s.at i e).entries j = if j = i then e else s.entries j :=
  Function.update_apply s.entries i e j

/-- A run that goes on leaves the count of the others. -/
theorem count_set (p : Run → Bool) (runs : List Run) (j : ℕ) (r r' : Run)
    (h : runs[j]? = some r) :
    (runs.set j r').countP p+(if p r then 1 else 0) =
      runs.countP p+(if p r' then 1 else 0) := by
  obtain ⟨hj, hr⟩ := List.getElem?_eq_some_iff.mp h
  have hpos : p r = true → 0 < runs.countP p := by
    intro hp
    exact List.countP_pos_iff.mpr ⟨r, List.mem_of_getElem? h, hp⟩
  rw [List.countP_set hj, hr]
  by_cases hp : p r = true
  · have hone := hpos hp
    simp only [hp, if_true]
    omega
  · simp only [hp, if_false, Bool.false_eq_true]
    omega

theorem count_set_le (p : Run → Bool) (runs : List Run) (j : ℕ) (r r' : Run)
    (h : runs[j]? = some r) (hp : p r' = true → p r = true) :
    (runs.set j r').countP p ≤ runs.countP p := by
  have hset := count_set p runs j r r' h
  by_cases hr' : p r' = true
  · rw [if_pos hr', if_pos (hp hr')] at hset
    omega
  · rw [if_neg hr'] at hset
    omega

theorem mem_set (runs : List Run) (j : ℕ) (r' x : Run) (h : x ∈ runs.set j r') :
    x = r' ∨ x ∈ runs := by
  rcases List.mem_or_eq_of_mem_set h with hold | hnew
  · exact .inr hold
  · exact .inl hnew

theorem mem_set_cases (runs : List Run) (j : ℕ) (r' x : Run) (h : x ∈ runs.set j r') :
    x = r' ∨ ∃ k, k ≠ j ∧ runs[k]? = some x := by
  obtain ⟨k, hk⟩ := List.mem_iff_getElem?.mp h
  rw [List.getElem?_set] at hk
  split at hk
  · split at hk
    · exact .inl (Option.some.inj hk).symm
    · cases hk
  · rename_i hne
    exact .inr ⟨k, fun heq => hne heq.symm, hk⟩

theorem mem_set_other (runs : List Run) (j : ℕ) (r r' x : Run) (hr : runs[j]? = some r)
    (hx : x ∈ runs) (hne : x ≠ r) : x ∈ runs.set j r' := by
  obtain ⟨k, hk⟩ := List.mem_iff_getElem?.mp hx
  have hjk : j ≠ k := by
    intro heq
    rw [← heq, hr] at hk
    exact hne (Option.some.inj hk).symm
  exact List.mem_iff_getElem?.mpr ⟨k, by rw [List.getElem?_set_ne hjk, hk]⟩

end IronClaw.RoutineEngine
