import IronClaw.RoutineEngine

/-!
# Cooldown and bookkeeping of routines

A run is fired with a copy of its routine and writes the runtime fields back
from that copy. The books are right in runs in which a routine is fired only
from a current copy and while no run of it is under way; the cache of event
routines does not see to the one, nor the limits to the other. Messages, events
and cron ticks fire a cron routine only from a tick, so the manual and the
webhook entry points are admitted for the other routines.
-/

set_option autoImplicit false

namespace IronClaw.RoutineBookkeeping
open IronClaw.RoutineEngine Lib.Runs

def Fired.automatic : Fired → Bool
  | .manual => false
  | _ => true

def occurrence (r : Run) : Option ℕ := r.candidate.row.nextFireAt

def statuses (log : List (ℕ × RunStatus)) (id : ℕ) : List RunStatus :=
  (log.filter (fun e => e.1 = id)).map Prod.snd

def isFailed (status : RunStatus) : Bool := status = .failed

def failingSuffix (start : ℕ) (sts : List RunStatus) : ℕ :=
  (sts.reverse.takeWhile isFailed).length+(if sts.all isFailed then start else 0)

def finishedRuns (runs : List Run) (id : ℕ) : ℕ :=
  runs.countP (fun r => r.candidate.routine = id && r.stage = .finished)

def begunRuns (runs : List Run) (id : ℕ) : ℕ :=
  runs.countP (fun r => r.candidate.routine = id && r.stage ≠ .dropped)

section

variable (cfg : Config)

structure Spaced (p q : Run) : Prop where
  apart : Fired.automatic p.fired = true → Fired.automatic q.fired = true →
    p.startedAt+cfg.cooldown q.candidate.routine ≤ q.startedAt
  once : p.fired = .cron → q.fired = .cron → occurrence p ≠ occurrence q

def AllSpaced (runs : List Run) : Prop :=
  runs.Pairwise (fun p q =>
    p.stage ≠ .dropped → p.candidate.routine = q.candidate.routine → Spaced cfg p q)

def Served (s : Engine) (id o : ℕ) : Prop :=
  ∃ r ∈ s.runs, r.candidate.routine = id ∧ r.fired = .cron ∧ r.stage = .finished ∧
    occurrence r = some o

def Ticks (s : Engine) : Prop :=
  ∀ i, s.entries i = .idle → s.runningCount < cfg.maxConcurrentRoutines →
    ∀ c ∈ listDueCronRoutines cfg s, checkCooldown cfg s.now c = true →
      runningRuns s c.routine < cfg.maxConcurrent c.routine →
      ∃ n, ∃ r ∈ (run (step cfg)
          (.checkCronTriggers i true::List.replicate n (.entry i true)) s).runs,
        r.candidate = c ∧ r.fired = .cron

structure Books (rows : ℕ → Row) (now : ℕ) (labels : List Label) : Prop where
  spaced : AllSpaced cfg (run (step cfg) labels (Engine.new rows now)).runs
  served : ∀ before after, labels = before++after → ∀ id o, cfg.kind id = .cron →
    ((run (step cfg) before (Engine.new rows now)).rows id).nextFireAt = some o →
    ((run (step cfg) labels (Engine.new rows now)).rows id).nextFireAt = some o ∨
      Served (run (step cfg) labels (Engine.new rows now)) id o
  ticks : Ticks cfg (run (step cfg) labels (Engine.new rows now))
  counted : (∀ r ∈ (run (step cfg) labels (Engine.new rows now)).runs, r.stage.ended = true) →
    ∀ id, ((run (step cfg) labels (Engine.new rows now)).rows id).runCount.toNat =
      (rows id).runCount.toNat+begunRuns (run (step cfg) labels (Engine.new rows now)).runs id
  failures : (∀ r ∈ (run (step cfg) labels (Engine.new rows now)).runs, r.stage.ended = true) →
    ∀ id, ((run (step cfg) labels (Engine.new rows now)).rows id).consecutiveFailures.toNat =
      failingSuffix (rows id).consecutiveFailures.toNat
        (statuses (run (step cfg) labels (Engine.new rows now)).log id)

def Orderly : Label → Engine → Prop
  | .fireManual _ routine _, _ => cfg.kind routine ≠ .cron
  | .fireWebhook _ routine, _ => cfg.kind routine ≠ .cron
  | .entry i _, s =>
    match s.entries i with
    | .firing _ c _ =>
      (∀ r ∈ s.runs, r.candidate.routine = c.routine → r.stage.ended = true) ∧
        c.row = s.rows c.routine ∧
        (cfg.cooldown c.routine ≤ maxSpan ∨ c.row.lastRunAt = none)
    | _ => True
  | .run j outcome, s =>
    ∀ r, s.runs[j]? = some r → (r.stage = .executing → outcome.panics = false) ∧
      (∀ status, r.stage = .completed status →
        outcome.ok = true ∧ overflows r.candidate status = false)
  | _, _ => True

def Mode.Fits (now : ℕ) (c : Candidate) : Mode → Prop
  | .cron => cfg.kind c.routine = .cron ∧ ∃ t, c.row.nextFireAt = some t ∧ t ≤ now
  | _ => cfg.kind c.routine ≠ .cron

def Mode.Cooled (now : ℕ) (c : Candidate) (mode : Mode) : Prop :=
  Fired.automatic mode.fired = true → checkCooldown cfg now c = true

def Listed (now : ℕ) : Entry → Prop
  | .idle => True
  | .looking mode rest => ∀ c ∈ rest, Mode.Fits cfg now c mode
  | .counting mode c rest =>
    Mode.Fits cfg now c mode ∧ Mode.Cooled cfg now c mode ∧ ∀ c ∈ rest, Mode.Fits cfg now c mode
  | .loading mode c rest =>
    Mode.Fits cfg now c mode ∧ Mode.Cooled cfg now c mode ∧ ∀ c ∈ rest, Mode.Fits cfg now c mode
  | .firing mode c rest =>
    Mode.Fits cfg now c mode ∧ Mode.Cooled cfg now c mode ∧ ∀ c ∈ rest, Mode.Fits cfg now c mode
  | .done => True

structure Facts (now : ℕ) (r : Run) : Prop where
  begun : r.startedAt ≤ now
  cron : r.fired = .cron ↔ cfg.kind r.candidate.routine = .cron
  due : r.fired = .cron → ∃ o, occurrence r = some o ∧ o ≤ now

structure Settled (row : Row) (r : Run) : Prop where
  last : ∃ t, row.lastRunAt = some t ∧ r.startedAt ≤ t
  next : r.fired = .cron → ∀ o t, occurrence r = some o → row.nextFireAt = some t → o < t

structure Book (rows₀ : ℕ → Row) (now : ℕ) (rows : ℕ → Row) (runs : List Run)
    (log : List (ℕ × RunStatus)) : Prop where
  facts : ∀ r ∈ runs, Facts cfg now r
  calm : ∀ r ∈ runs, r.stage ≠ .panicked
  current : ∀ r ∈ runs, r.stage.ended = false → r.candidate.row = rows r.candidate.routine
  single : runs.Pairwise (fun p q =>
    p.candidate.routine = q.candidate.routine → p.stage.ended = true)
  settled : ∀ r ∈ runs, r.stage = .finished → Settled (rows r.candidate.routine) r
  spaced : AllSpaced cfg runs
  counted : ∀ id, (rows id).runCount.toNat = (rows₀ id).runCount.toNat+finishedRuns runs id
  failures : ∀ id, (∀ r ∈ runs, r.candidate.routine = id → ∀ status, r.stage ≠ .completed status) →
    (rows id).consecutiveFailures.toNat =
      failingSuffix (rows₀ id).consecutiveFailures.toNat (statuses log id)
  pending : ∀ r ∈ runs, ∀ status, r.stage = .completed status →
    ∃ before, statuses log r.candidate.routine = before++[status] ∧
      (rows r.candidate.routine).consecutiveFailures.toNat =
        failingSuffix (rows₀ r.candidate.routine).consecutiveFailures.toNat before

structure Inv (rows₀ : ℕ → Row) (s : Engine) : Prop where
  listed : ∀ i, Listed cfg s.now (s.entries i)
  book : Book cfg rows₀ s.now s.rows s.runs s.log

theorem failingSuffix_append (start : ℕ) (sts : List RunStatus) (status : RunStatus) :
    failingSuffix start (sts++[status]) =
      if status = .failed then failingSuffix start sts+1 else 0 := by
  unfold failingSuffix
  rw [List.reverse_append, List.all_append]
  by_cases hfailed : status = .failed
  · subst hfailed
    simp only [List.reverse_singleton, List.singleton_append, List.takeWhile_cons, isFailed,
      List.all_cons, List.all_nil, decide_true, if_true, List.length_cons, Bool.and_true]
    omega
  · simp [isFailed, hfailed]

theorem statuses_append (log : List (ℕ × RunStatus)) (id routine : ℕ) (status : RunStatus) :
    statuses (log++[(routine, status)]) id =
      statuses log id++(if routine = id then [status] else []) := by
  unfold statuses
  rw [List.filter_append, List.map_append]
  congr 1
  by_cases h : routine = id <;> simp [h]

theorem checkCooldown_mono (now later : ℕ) (c : Candidate) (hle : now ≤ later)
    (h : checkCooldown cfg now c = true) : checkCooldown cfg later c = true := by
  unfold checkCooldown at h ⊢
  cases hlast : c.row.lastRunAt with
  | none => rfl
  | some t =>
    simp only [hlast, decide_eq_true_eq] at h ⊢
    omega

theorem fits_mono (now later : ℕ) (c : Candidate) (mode : Mode) (hle : now ≤ later)
    (h : Mode.Fits cfg now c mode) : Mode.Fits cfg later c mode := by
  cases mode with
  | cron =>
    obtain ⟨hkind, t, ht, hdue⟩ := h
    exact ⟨hkind, t, ht, Nat.le_trans hdue hle⟩
  | scan kind counts => exact h
  | manual => exact h
  | webhook => exact h

theorem listed_mono (now later : ℕ) (e : Entry) (hle : now ≤ later) (h : Listed cfg now e) :
    Listed cfg later e := by
  have hmore : ∀ (mode : Mode) (c : Candidate) (rest : List Candidate),
      (Mode.Fits cfg now c mode ∧ Mode.Cooled cfg now c mode ∧
        ∀ c ∈ rest, Mode.Fits cfg now c mode) →
      Mode.Fits cfg later c mode ∧ Mode.Cooled cfg later c mode ∧
        ∀ c ∈ rest, Mode.Fits cfg later c mode := by
    intro mode c rest ⟨hfits, hcooled, hrest⟩
    exact ⟨fits_mono cfg now later c mode hle hfits,
      fun ha => checkCooldown_mono cfg now later c hle (hcooled ha),
      fun c' hc' => fits_mono cfg now later c' mode hle (hrest c' hc')⟩
  cases e with
  | idle => trivial
  | done => trivial
  | looking mode rest => exact fun c hc => fits_mono cfg now later c mode hle (h c hc)
  | counting mode c rest => exact hmore mode c rest h
  | loading mode c rest => exact hmore mode c rest h
  | firing mode c rest => exact hmore mode c rest h

theorem facts_mono (now later : ℕ) (r : Run) (hle : now ≤ later) (h : Facts cfg now r) :
    Facts cfg later r := by
  refine ⟨Nat.le_trans h.begun hle, h.cron, fun hcron => ?_⟩
  obtain ⟨o, ho, hdue⟩ := h.due hcron
  exact ⟨o, ho, Nat.le_trans hdue hle⟩

section

variable (rows₀ : ℕ → Row)

theorem pass_inv (time : ℕ) (s : Engine) (h : Inv cfg rows₀ s) :
    Inv cfg rows₀ { s with now := s.now+time } := by
  have hle : s.now ≤ s.now+time := Nat.le_add_right _ _
  refine ⟨fun i => listed_mono cfg _ _ _ hle (h.listed i), ?_⟩
  exact { h.book with facts := fun r hr => facts_mono cfg _ _ r hle (h.book.facts r hr) }

variable (now : ℕ) (s : Engine) (runs : List Run) (i : ℕ) (j : ℕ) (c : Candidate)

theorem at_inv (e : Entry) (h : Inv cfg rows₀ s) (he : Listed cfg s.now e) :
    Inv cfg rows₀ (s.at i e) := by
  refine ⟨fun j => ?_, h.book⟩
  rw [at_entry]
  split
  · exact he
  · exact h.listed j

/-- Beside a run under way every run of its routine has ended. -/
theorem others_ended (j k : ℕ) (r x : Run) (hsingle : runs.Pairwise (fun p q =>
      p.candidate.routine = q.candidate.routine → p.stage.ended = true)) (hr : runs[j]? = some r)
    (hlive : r.stage.ended = false) (hx : runs[k]? = some x) (hne : k ≠ j)
    (hsame : x.candidate.routine = r.candidate.routine) : x.stage.ended = true := by
  obtain ⟨hj, hrj⟩ := List.getElem?_eq_some_iff.mp hr
  obtain ⟨hk, hxk⟩ := List.getElem?_eq_some_iff.mp hx
  rw [List.pairwise_iff_getElem] at hsingle
  rcases Nat.lt_or_gt_of_ne hne with hlt | hgt
  · have hpair := hsingle k j hk hj hlt
    rw [hxk, hrj] at hpair
    exact hpair hsame
  · have hpair := hsingle j k hj hk hgt
    rw [hxk, hrj] at hpair
    rw [hpair hsame.symm] at hlive
    cases hlive

/-- A relation between the runs that a new stage of one of them keeps. -/
theorem pairwise_set (R : Run → Run → Prop) (runs : List Run) (j : ℕ) (r r' : Run)
    (h : runs.Pairwise R) (hr : runs[j]? = some r) (hleft : ∀ x, R r x → R r' x)
    (hright : ∀ x, R x r → R x r') : (runs.set j r').Pairwise R := by
  obtain ⟨hj, hrj⟩ := List.getElem?_eq_some_iff.mp hr
  rw [List.pairwise_iff_getElem] at h ⊢
  intro k l hk hl hlt
  rw [List.length_set] at hk hl
  have hpair := h k l hk hl hlt
  rw [List.getElem_set, List.getElem_set]
  split
  · rename_i hjk
    subst hjk
    rw [if_neg (by omega)]
    rw [hrj] at hpair
    exact hleft _ hpair
  · split
    · rename_i hjl
      subst hjl
      rw [hrj] at hpair
      exact hright _ hpair
    · exact hpair

def Run.at (r : Run) (stage : Stage) (running : Bool) : Run :=
  { r with stage := stage, running := running }

theorem set_all (P : Run → Prop) (runs : List Run) (j : ℕ) (r' : Run) (h : ∀ x ∈ runs, P x)
    (hr' : P r') : ∀ x ∈ runs.set j r', P x := by
  intro x hx
  rcases mem_set runs j r' x hx with rfl | hold
  · exact hr'
  · exact h x hold

theorem set_facts (r : Run) (stage : Stage) (running : Bool) (h : ∀ x ∈ runs, Facts cfg now x)
    (hr : runs[j]? = some r) :
    ∀ x ∈ runs.set j (Run.at r stage running), Facts cfg now x := by
  have hfacts := h r (List.mem_of_getElem? hr)
  exact set_all _ runs j _ h ⟨hfacts.begun, hfacts.cron, hfacts.due⟩

theorem set_single (r : Run) (stage : Stage) (running : Bool)
    (h : runs.Pairwise (fun p q => p.candidate.routine = q.candidate.routine →
      p.stage.ended = true)) (hr : runs[j]? = some r) (hlive : r.stage.ended = false) :
    (runs.set j (Run.at r stage running)).Pairwise (fun p q =>
      p.candidate.routine = q.candidate.routine → p.stage.ended = true) := by
  apply pairwise_set _ runs j r _ h hr
  · intro x hrx hsame
    rw [hrx hsame] at hlive
    cases hlive
  · exact fun x hxr => hxr

theorem set_spaced (r : Run) (stage : Stage) (running : Bool) (h : AllSpaced cfg runs)
    (hr : runs[j]? = some r) (hlive : r.stage.ended = false) :
    AllSpaced cfg (runs.set j (Run.at r stage running)) := by
  apply pairwise_set _ runs j r _ h hr
  · intro x hrx _ hsame
    have hnot : r.stage ≠ .dropped := by
      intro hdropped
      rw [hdropped] at hlive
      cases hlive
    obtain ⟨hapart, honce⟩ := hrx hnot hsame
    exact ⟨hapart, honce⟩
  · intro x hxr hnot hsame
    obtain ⟨hapart, honce⟩ := hxr hnot hsame
    exact ⟨hapart, honce⟩

theorem set_finished (j id : ℕ) (r : Run) (stage : Stage) (running : Bool) (hr : runs[j]? = some r)
    (hlive : r.stage.ended = false) :
    finishedRuns (runs.set j (Run.at r stage running)) id =
      finishedRuns runs id+
        (if r.candidate.routine = id ∧ stage = .finished then 1 else 0) := by
  have hcount := count_set (fun x => x.candidate.routine = id && x.stage = .finished) runs j r
    (Run.at r stage running) hr
  have hnot : r.stage ≠ .finished := by
    intro hfinished
    rw [hfinished] at hlive
    cases hlive
  simp only [hnot, decide_false, Bool.and_false, Bool.false_eq_true, if_false] at hcount
  unfold finishedRuns
  by_cases hand : r.candidate.routine = id ∧ stage = .finished
  · rw [if_pos hand]
    rw [if_pos (by simp [Run.at, hand])] at hcount
    exact hcount
  · rw [if_neg hand]
    rw [if_neg] at hcount
    · exact hcount
    · intro hboth
      obtain ⟨hid, hstage⟩ := Bool.and_eq_true_iff.mp hboth
      exact hand ⟨of_decide_eq_true hid, of_decide_eq_true hstage⟩

/-- A run that goes on before its completion is recorded. -/
theorem move_book (rows : ℕ → Row) (runs : List Run) (log : List (ℕ × RunStatus)) (j : ℕ) (r : Run)
    (stage : Stage) (running : Bool) (h : Book cfg rows₀ now rows runs log) (hr : runs[j]? = some r)
    (hlive : r.stage.ended = false) (hbefore : ∀ status, r.stage ≠ .completed status)
    (hcalm : stage ≠ .panicked) (hopen : stage ≠ .finished)
    (hafter : ∀ status, stage ≠ .completed status) :
    Book cfg rows₀ now rows (runs.set j (Run.at r stage running)) log where
  facts := set_facts cfg now runs j r stage running h.facts hr
  calm := set_all _ runs j _ h.calm hcalm
  current := set_all _ runs j _ h.current (fun _ => h.current r (List.mem_of_getElem? hr) hlive)
  single := set_single runs j r stage running h.single hr hlive
  settled := set_all _ runs j _ h.settled (fun hfinished => absurd hfinished hopen)
  spaced := set_spaced cfg runs j r stage running h.spaced hr hlive
  counted := by
    intro id
    rw [set_finished runs j id r stage running hr hlive, if_neg (fun hand => hopen hand.2)]
    exact h.counted id
  failures := by
    intro id hnone
    apply h.failures id
    intro x hx hid
    by_cases hxr : x = r
    · rw [hxr]
      exact hbefore
    · exact hnone x (mem_set_other runs j r _ x hr hx hxr) hid
  pending := set_all _ runs j _ h.pending (fun status hc => absurd hc (hafter status))

/-- The completion of a run is recorded. -/
theorem complete_book (rows : ℕ → Row) (runs : List Run) (log : List (ℕ × RunStatus)) (j : ℕ)
    (r : Run) (status : RunStatus) (running : Bool) (h : Book cfg rows₀ now rows runs log)
    (hr : runs[j]? = some r) (hstage : r.stage = .left status) :
    Book cfg rows₀ now rows (runs.set j (Run.at r (.completed status) running))
      (log++[(r.candidate.routine, status)]) := by
  have hlive : r.stage.ended = false := by rw [hstage]; rfl
  have hmem := List.mem_of_getElem? hr
  have hnone : ∀ x ∈ runs, x.candidate.routine = r.candidate.routine →
      ∀ status, x.stage ≠ .completed status := by
    intro x hx hsame st hcompleted
    obtain ⟨k, hk⟩ := List.mem_iff_getElem?.mp hx
    by_cases hkj : k = j
    · rw [hkj, hr] at hk
      rw [← Option.some.inj hk, hstage] at hcompleted
      cases hcompleted
    · have hended := others_ended runs j k r x h.single hr hlive hk hkj hsame
      rw [hcompleted] at hended
      cases hended
  refine ⟨set_facts cfg now runs j r _ running h.facts hr, set_all _ runs j _ h.calm nofun,
    set_all _ runs j _ h.current (fun _ => h.current r hmem hlive),
    set_single runs j r _ running h.single hr hlive, set_all _ runs j _ h.settled nofun,
    set_spaced cfg runs j r _ running h.spaced hr hlive, ?_, ?_, ?_⟩
  · intro id
    rw [set_finished runs j id r _ running hr hlive, if_neg (by simp)]
    exact h.counted id
  · intro id hnew
    by_cases hid : r.candidate.routine = id
    · have hj := (List.getElem?_eq_some_iff.mp hr).1
      exact absurd rfl (hnew _ (List.mem_set hj _) hid status)
    · rw [statuses_append, if_neg hid, List.append_nil]
      apply h.failures id
      intro x hx hsame
      have hxr : x ≠ r := fun heq => hid (heq ▸ hsame)
      exact hnew x (mem_set_other runs j r _ x hr hx hxr) hsame
  · intro x hx st hcompleted
    rcases mem_set runs j _ x hx with rfl | hold
    · have hst : status = st := Stage.completed.inj hcompleted
      subst hst
      refine ⟨statuses log r.candidate.routine, ?_, h.failures _ hnone⟩
      show statuses _ r.candidate.routine = _
      rw [statuses_append, if_pos rfl]
    · have hother : ¬ r.candidate.routine = x.candidate.routine :=
        fun hsame => hnone x hold hsame.symm st hcompleted
      rw [statuses_append, if_neg hother, List.append_nil]
      exact h.pending x hold st hcompleted

theorem updated_settled (status : RunStatus) (x : Run)
    (hnext : ∀ id now t, cfg.nextCronFire id now = some t → now < t) (hfacts : Facts cfg s.now x)
    (hsame : x.candidate.routine = c.routine) :
    Settled (updatedRow cfg s c status) x := by
  refine ⟨⟨s.now, rfl, hfacts.begun⟩, fun hcron o t ho ht => ?_⟩
  obtain ⟨o', ho', hdue⟩ := hfacts.due hcron
  rw [ho] at ho'
  have hkind : cfg.kind c.routine = .cron := by
    rw [← hsame]
    exact hfacts.cron.mp hcron
  simp only [updatedRow, if_pos hkind] at ht
  have hlater := hnext _ _ t ht
  have heq := Option.some.inj ho'
  omega

theorem updated_counted (status : RunStatus) (h : overflows c status = false) :
    (updatedRow cfg s c status).runCount.toNat = c.row.runCount.toNat+1 := by
  simp only [overflows, Bool.or_eq_false_iff, decide_eq_false_iff_not] at h
  have hsize := c.row.runCount.toNat_lt
  show (c.row.runCount+1).toNat = _
  rw [UInt64.toNat_add, UInt64.toNat_one]
  omega

theorem updated_failures (status : RunStatus) (h : overflows c status = false) :
    (updatedRow cfg s c status).consecutiveFailures.toNat =
      if status = .failed then c.row.consecutiveFailures.toNat+1 else 0 := by
  have hsize := c.row.consecutiveFailures.toNat_lt
  show (if status = .failed then c.row.consecutiveFailures+1 else 0).toNat = _
  split
  · next hfailed =>
    simp only [overflows, hfailed, decide_true, Bool.true_and, Bool.or_eq_false_iff,
      decide_eq_false_iff_not] at h
    rw [UInt32.toNat_add, UInt32.toNat_one]
    omega
  · rfl

/-- The runtime fields are written back from a copy that is still current. -/
theorem finish_book (r : Run) (status : RunStatus) (running : Bool)
    (hnext : ∀ id now t, cfg.nextCronFire id now = some t → now < t)
    (h : Book cfg rows₀ s.now s.rows s.runs s.log) (hr : s.runs[j]? = some r)
    (hstage : r.stage = .completed status) (hroom : overflows r.candidate status = false) :
    Book cfg rows₀ s.now
      (Function.update s.rows r.candidate.routine (updatedRow cfg s r.candidate status))
      (s.runs.set j (Run.at r .finished running)) s.log := by
  have hlive : r.stage.ended = false := by rw [hstage]; rfl
  have hmem := List.mem_of_getElem? hr
  have hcurrent := h.current r hmem hlive
  have hothers : ∀ x, (∃ k, k ≠ j ∧ s.runs[k]? = some x) → x.stage.ended = false →
      x.candidate.routine ≠ r.candidate.routine := by
    intro x ⟨k, hkj, hk⟩ hopen hsame
    rw [others_ended s.runs j k r x h.single hr hlive hk hkj hsame] at hopen
    cases hopen
  have hfacts := set_facts cfg s.now s.runs j r .finished running h.facts hr
  refine ⟨hfacts, set_all _ s.runs j _ h.calm nofun, ?_,
    set_single s.runs j r _ running h.single hr hlive, ?_,
    set_spaced cfg s.runs j r _ running h.spaced hr hlive, ?_, ?_, ?_⟩
  · intro x hx hopen
    rcases mem_set_cases s.runs j _ x hx with rfl | hother
    · cases hopen
    · rw [Function.update_of_ne (hothers x hother hopen)]
      obtain ⟨k, _, hk⟩ := hother
      exact h.current x (List.mem_of_getElem? hk) hopen
  · intro x hx hfinished
    by_cases hsame : x.candidate.routine = r.candidate.routine
    · rw [hsame, Function.update_self]
      exact updated_settled cfg s r.candidate status x hnext (hfacts x hx) hsame
    · rw [Function.update_of_ne hsame]
      rcases mem_set s.runs j _ x hx with rfl | hold
      · exact absurd rfl hsame
      · exact h.settled x hold hfinished
  · intro id
    have hold := h.counted id
    rw [set_finished s.runs j id r _ running hr hlive]
    by_cases hid : r.candidate.routine = id
    · subst hid
      rw [Function.update_self, if_pos ⟨rfl, rfl⟩, updated_counted cfg s r.candidate status hroom,
        hcurrent]
      omega
    · rw [Function.update_of_ne (fun heq => hid heq.symm), if_neg (fun hand => hid hand.1)]
      exact hold
  · intro id hnone
    by_cases hid : r.candidate.routine = id
    · subst hid
      obtain ⟨before, hbefore, hcount⟩ := h.pending r hmem status hstage
      rw [Function.update_self, hbefore, failingSuffix_append,
        updated_failures cfg s r.candidate status hroom, hcurrent, hcount]
    · rw [Function.update_of_ne (fun heq => hid heq.symm)]
      apply h.failures id
      intro x hx hsame
      have hxr : x ≠ r := fun heq => hid (heq ▸ hsame)
      exact hnone x (mem_set_other s.runs j r _ x hr hx hxr) hsame
  · intro x hx st hcompleted
    rcases mem_set_cases s.runs j _ x hx with rfl | hother
    · cases hcompleted
    · have hne := hothers x hother (by rw [hcompleted]; rfl)
      rw [Function.update_of_ne hne]
      obtain ⟨k, _, hk⟩ := hother
      exact h.pending x (List.mem_of_getElem? hk) st hcompleted

/-- A run that has ended and was not dropped has been finished, and a run fired
after it from the current row keeps its distance. -/
theorem ended_spaced (row : Row) (p q : Run) (hsettled : Settled row p) (hp : Facts cfg now p)
    (hq : Facts cfg now q) (hrow : q.candidate.row = row) (hstarted : q.startedAt = now)
    (hcooled : Fired.automatic q.fired = true → checkCooldown cfg now q.candidate = true)
    (hspan : cfg.cooldown q.candidate.routine ≤ maxSpan ∨ q.candidate.row.lastRunAt = none) :
    Spaced cfg p q := by
  refine ⟨fun _ hauto => ?_, fun hpc hqc heq => ?_⟩
  · obtain ⟨t, ht, hle⟩ := hsettled.last
    have hcheck := hcooled hauto
    rw [hrow, ht] at hspan
    simp only [checkCooldown, hrow, ht, decide_eq_true_eq, cooldownSpan,
      if_pos (hspan.resolve_right nofun)] at hcheck
    omega
  · obtain ⟨o, ho, _⟩ := hp.due hpc
    obtain ⟨t, ht, _⟩ := hq.due hqc
    have hrowt : row.nextFireAt = some t := by
      rw [← hrow]
      exact ht
    have hlt := hsettled.next hpc o t ho hrowt
    rw [ho, ht] at heq
    have := Option.some.inj heq
    omega

theorem spawn_book (rows : ℕ → Row) (runs : List Run) (log : List (ℕ × RunStatus)) (q : Run)
    (h : Book cfg rows₀ now rows runs log) (hfacts : Facts cfg now q)
    (hstage : q.stage = .spawned ∨ q.stage = .recorded) (hstarted : q.startedAt = now)
    (hidle : ∀ r ∈ runs, r.candidate.routine = q.candidate.routine → r.stage.ended = true)
    (hrow : q.candidate.row = rows q.candidate.routine)
    (hcooled : Fired.automatic q.fired = true → checkCooldown cfg now q.candidate = true)
    (hspan : cfg.cooldown q.candidate.routine ≤ maxSpan ∨ q.candidate.row.lastRunAt = none) :
    Book cfg rows₀ now rows (runs++[q]) log := by
  have hadd : ∀ P : Run → Prop, (∀ x ∈ runs, P x) → P q → ∀ x ∈ runs++[q], P x := by
    intro P hall hq x hx
    rcases List.mem_append.mp hx with hold | hnew
    · exact hall x hold
    · rw [List.mem_singleton.mp hnew]
      exact hq
  refine ⟨hadd _ h.facts hfacts, hadd _ h.calm ?_, hadd _ h.current (fun _ => hrow), ?_,
    hadd _ h.settled ?_, ?_, ?_, ?_, hadd _ h.pending ?_⟩
  · rcases hstage with hstage | hstage <;> rw [hstage] <;> nofun
  · rw [List.pairwise_append]
    refine ⟨h.single, List.pairwise_singleton _ _, fun x hx y hy hsame => ?_⟩
    rw [List.mem_singleton.mp hy] at hsame
    exact hidle x hx hsame
  · rcases hstage with hstage | hstage <;> rw [hstage] <;> nofun
  · refine List.pairwise_append.mpr ⟨h.spaced, List.pairwise_singleton _ _, ?_⟩
    intro x hx y hy hnot hsame
    rw [List.mem_singleton.mp hy] at hsame ⊢
    have hended := hidle x hx hsame
    have hfinished : x.stage = .finished := by
      have hcalm := h.calm x hx
      cases hs : x.stage <;> rw [hs] at hended hnot hcalm <;>
        first | rfl | cases hended; done | exact absurd rfl hnot | exact absurd rfl hcalm
    have hsettled := h.settled x hx hfinished
    rw [hsame] at hsettled
    exact ended_spaced cfg now _ x q hsettled (h.facts x hx) hfacts hrow hstarted hcooled
      hspan
  · intro id
    rw [h.counted id, finishedRuns, finishedRuns, List.countP_append, List.countP_singleton,
      if_neg]
    · rfl
    · rcases hstage with hstage | hstage <;> simp [hstage]
  · exact fun id hnone => h.failures id (fun x hx => hnone x (List.mem_append_left _ hx))
  · rcases hstage with hstage | hstage <;> rw [hstage] <;> nofun

theorem run_inv (outcome : Outcome) (s : Engine)
    (hnext : ∀ id now t, cfg.nextCronFire id now = some t → now < t) (h : Inv cfg rows₀ s)
    (horderly : Orderly cfg (.run j outcome) s) : Inv cfg rows₀ (runStep cfg j outcome s) := by
  have hadvance := runStep_advance cfg j outcome s
  generalize runStep cfg j outcome s = t at hadvance ⊢
  cases hadvance with
  | idle => exact h
  | recorded r hrun hstage =>
    exact ⟨h.listed, move_book cfg rows₀ _ _ _ _ j r .recorded true h.book hrun
      (by rw [hstage]; rfl) (by rw [hstage]; nofun) nofun nofun nofun⟩
  | dropped r hrun hstage =>
    exact ⟨h.listed, move_book cfg rows₀ _ _ _ _ j r .dropped r.running h.book hrun
      (by rw [hstage]; rfl) (by rw [hstage]; nofun) nofun nofun nofun⟩
  | begun r hrun hstage =>
    exact ⟨h.listed, move_book cfg rows₀ _ _ _ _ j r .executing r.running h.book hrun
      (by rw [hstage]; rfl) (by rw [hstage]; nofun) nofun nofun nofun⟩
  | panicked r hrun hstage hpanics =>
    rw [(horderly r hrun).1 hstage] at hpanics
    cases hpanics
  | left r hrun hstage =>
    exact ⟨h.listed, move_book cfg rows₀ _ _ _ _ j r (.left outcome.status) r.running h.book hrun
      (by rw [hstage]; rfl) (by rw [hstage]; nofun) nofun nofun nofun⟩
  | completed r status hrun hstage =>
    exact ⟨h.listed, complete_book cfg rows₀ _ _ _ _ j r status _ h.book hrun hstage⟩
  | finished r status hrun hstage =>
    obtain ⟨hok, hroom⟩ := (horderly r hrun).2 status hstage
    simp only [updateRoutineRuntime, hok, hroom, Bool.and_false, Bool.not_false, Bool.and_true,
      if_true]
    exact ⟨h.listed, finish_book cfg rows₀ s j r status r.running hnext h.book hrun hstage hroom⟩

theorem fired_facts (mode : Mode) (c : Candidate) (stage : Stage) (running : Bool)
    (h : Mode.Fits cfg now c mode) : Facts cfg now ⟨c, mode.fired, now, stage, running⟩ := by
  cases mode with
  | cron =>
    obtain ⟨hkind, o, ho, hdue⟩ := h
    exact ⟨Nat.le_refl now, ⟨fun _ => hkind, fun _ => rfl⟩, fun _ => ⟨o, ho, hdue⟩⟩
  | scan kind counts =>
    have hnot : (Mode.scan kind counts).fired ≠ .cron := by cases kind <;> nofun
    exact ⟨Nat.le_refl now, ⟨fun hf => absurd hf hnot, fun hk => absurd hk h⟩,
      fun hf => absurd hf hnot⟩
  | manual => exact ⟨Nat.le_refl now, ⟨nofun, fun hk => absurd hk h⟩, nofun⟩
  | webhook => exact ⟨Nat.le_refl now, ⟨nofun, fun hk => absurd hk h⟩, nofun⟩

theorem spawn_inv (mode : Mode) (c : Candidate) (rest : List Candidate) (stage : Stage)
    (running : Bool) (h : Inv cfg rows₀ s) (hentry : s.entries i = .firing mode c rest)
    (hstage : stage = .spawned ∨ stage = .recorded)
    (hidle : ∀ r ∈ s.runs, r.candidate.routine = c.routine → r.stage.ended = true)
    (hrow : c.row = s.rows c.routine)
    (hspan : cfg.cooldown c.routine ≤ maxSpan ∨ c.row.lastRunAt = none) :
    Inv cfg rows₀ ((s.spawn ⟨c, mode.fired, s.now, stage, running⟩).at i (.looking mode rest)) := by
  have hlisted := h.listed i
  rw [hentry] at hlisted
  obtain ⟨hfits, hcooled, hrest⟩ := hlisted
  refine at_inv cfg rows₀ (s.spawn _) i _ ⟨h.listed, ?_⟩ hrest
  exact spawn_book cfg rows₀ s.now s.rows s.runs s.log _ h.book
    (fired_facts cfg s.now mode c stage running hfits) hstage rfl hidle hrow hcooled
    hspan

theorem look_listed (mode : Mode) (c : Candidate) (rest : List Candidate) (s : Engine)
    (h : ∀ x ∈ c::rest, Mode.Fits cfg s.now x mode) :
    Listed cfg s.now (look cfg mode c rest s) := by
  have hc := h c List.mem_cons_self
  have hrest : ∀ x ∈ rest, Mode.Fits cfg s.now x mode :=
    fun x hx => h x (List.mem_cons_of_mem c hx)
  cases mode with
  | scan kind counts =>
    simp only [look]
    split
    · rename_i hchecks
      simp only [Bool.and_eq_true] at hchecks
      exact ⟨hc, fun _ => hchecks.1.1, hrest⟩
    · exact hrest
  | cron =>
    simp only [look]
    split
    · trivial
    · split
      · rename_i hcooled
        exact ⟨hc, fun _ => hcooled, hrest⟩
      · exact hrest
  | manual => trivial
  | webhook => trivial

theorem entry_inv (ok : Bool) (s : Engine) (h : Inv cfg rows₀ s)
    (horderly : Orderly cfg (.entry i ok) s) : Inv cfg rows₀ (entryStep cfg i ok s) := by
  have hlisted := h.listed i
  simp only [Orderly] at horderly
  unfold entryStep
  cases hentry : s.entries i with
  | idle => exact h
  | done => exact h
  | looking mode rest =>
    rw [hentry] at hlisted
    cases rest with
    | nil => exact at_inv cfg rows₀ s i _ h trivial
    | cons c rest => exact at_inv cfg rows₀ s i _ h (look_listed cfg mode c rest s hlisted)
  | counting mode c rest =>
    rw [hentry] at hlisted
    simp only
    split
    · apply at_inv cfg rows₀ s i _ h
      cases mode <;> exact hlisted
    · exact at_inv cfg rows₀ s i _ h hlisted.2.2
  | loading mode c rest =>
    rw [hentry] at hlisted
    apply at_inv cfg rows₀ s i _ h
    split
    · exact hlisted
    · exact hlisted.2.2
  | firing mode c rest =>
    rw [hentry] at hlisted horderly
    obtain ⟨hidle, hrow, hspan⟩ := horderly
    simp only [fire]
    split
    · exact spawn_inv cfg rows₀ s i _ c rest _ _ h hentry (.inl rfl) hidle hrow hspan
    · exact spawn_inv cfg rows₀ s i _ c rest _ _ h hentry (.inl rfl) hidle hrow hspan
    · split
      · exact spawn_inv cfg rows₀ s i _ c rest _ _ h hentry (.inr rfl) hidle hrow hspan
      · exact at_inv cfg rows₀ s i _ h hlisted.2.2
    · split
      · exact spawn_inv cfg rows₀ s i _ c rest _ _ h hentry (.inr rfl) hidle hrow hspan
      · exact at_inv cfg rows₀ s i _ h hlisted.2.2

theorem scan_inv (kind : TriggerKind) (matched : ℕ → Bool) (ok : Bool) (s : Engine)
    (h : Inv cfg rows₀ s) (hkind : kind ≠ .cron) :
    Inv cfg rows₀ (startScan cfg i kind matched ok s) := by
  unfold startScan
  split
  · split
    · apply at_inv cfg rows₀ s i _ h
      intro c hc
      have hmatch := (List.mem_filter.mp hc).2
      simp only [Bool.and_eq_true, decide_eq_true_eq] at hmatch
      show cfg.kind c.routine ≠ .cron
      rw [hmatch.1]
      exact hkind
    · exact at_inv cfg rows₀ s i _ h trivial
  · exact h

theorem cron_inv (ok : Bool) (s : Engine) (h : Inv cfg rows₀ s) :
    Inv cfg rows₀ (startCron cfg i ok s) := by
  unfold startCron
  split
  · apply at_inv cfg rows₀ s i _ h
    split
    · intro c hc
      obtain ⟨id, hid, rfl⟩ := List.mem_map.mp hc
      have hdue := (List.mem_filter.mp hid).2
      simp only [Bool.and_eq_true, decide_eq_true_eq, isDue] at hdue
      refine ⟨hdue.1.2, ?_⟩
      show ∃ t, (s.rows id).nextFireAt = some t ∧ t ≤ s.now
      cases hrow : (s.rows id).nextFireAt with
      | none => simp [hrow] at hdue
      | some t => exact ⟨t, rfl, by simpa [hrow] using hdue.2⟩
    · trivial
  · exact h

theorem fire_inv (mode : Mode) (routine : ℕ) (admitted : Bool) (s : Engine) (h : Inv cfg rows₀ s)
    (hmode : mode = .manual ∨ mode = .webhook) (hkind : cfg.kind routine ≠ .cron)
    (hcooled : admitted = true → Mode.Cooled cfg s.now ⟨routine, s.rows routine⟩ mode) :
    Inv cfg rows₀ (startFire cfg i mode routine admitted s) := by
  unfold startFire
  split
  · apply at_inv cfg rows₀ s i _ h
    split
    · rename_i hand
      refine ⟨?_, hcooled hand.2.2, nofun⟩
      rcases hmode with rfl | rfl <;> exact hkind
    · trivial
  · exact h

theorem step_inv (l : Label) (s : Engine)
    (hnext : ∀ id now t, cfg.nextCronFire id now = some t → now < t) (h : Inv cfg rows₀ s)
    (horderly : Orderly cfg l s) : Inv cfg rows₀ (step cfg l s) := by
  cases l with
  | pass time => exact pass_inv cfg rows₀ time s h
  | refreshEventCache ok =>
    simp only [step]
    split
    · exact ⟨h.listed, h.book⟩
    · exact h
  | checkEventTriggers i matched ok => exact scan_inv cfg rows₀ i _ matched ok s h nofun
  | emitSystemEvent i matched ok => exact scan_inv cfg rows₀ i _ matched ok s h nofun
  | checkCronTriggers i ok => exact cron_inv cfg rows₀ i ok s h
  | fireManual i routine authorized =>
    exact fire_inv cfg rows₀ i _ routine _ s h (.inl rfl) horderly nofun
  | fireWebhook i routine =>
    exact fire_inv cfg rows₀ i _ routine _ s h (.inr rfl) horderly (fun hcheck _ => hcheck)
  | entry i ok => exact entry_inv cfg rows₀ i ok s h horderly
  | run j outcome => exact run_inv cfg rows₀ j outcome s hnext h horderly

theorem new_runs (r : Run) : r ∉ (Engine.new rows₀ now).runs := List.not_mem_nil

theorem new_book (hs : s = Engine.new rows₀ now) :
    Book cfg rows₀ s.now s.rows s.runs s.log := by
  have hnone : ∀ r, r ∉ s.runs := by
    rw [hs]
    exact new_runs rows₀ now
  have hempty : s.runs = [] := List.eq_nil_iff_forall_not_mem.mpr hnone
  constructor
  case facts => exact fun r hr => absurd hr (hnone r)
  case calm => exact fun r hr => absurd hr (hnone r)
  case current => exact fun r hr => absurd hr (hnone r)
  case settled => exact fun r hr => absurd hr (hnone r)
  case pending => exact fun r hr => absurd hr (hnone r)
  case single =>
    rw [hempty]
    exact List.Pairwise.nil
  case spaced =>
    rw [hempty]
    exact List.Pairwise.nil
  case counted =>
    rw [hs]
    exact fun _ => rfl
  case failures =>
    rw [hs]
    exact fun _ _ => by simp [Engine.new, statuses, failingSuffix]

theorem new_inv : Inv cfg rows₀ (Engine.new rows₀ now) where
  listed _ := trivial
  book := new_book cfg rows₀ now _ rfl

def Kept (id o : ℕ) (s : Engine) : Prop := (s.rows id).nextFireAt = some o ∨ Served s id o

theorem kept_of (s t : Engine) (id o : ℕ) (hrows : t.rows id = s.rows id)
    (hruns : ∀ x ∈ s.runs, x.stage = .finished → x ∈ t.runs) (h : Kept id o s) : Kept id o t := by
  rcases h with hnext | ⟨r, hr, hid, hcron, hfinished, ho⟩
  · left
    rw [hrows]
    exact hnext
  · exact .inr ⟨r, hruns r hr hfinished, hid, hcron, hfinished, ho⟩

theorem finished_set (r r' x : Run) (hr : runs[j]? = some r) (hlive : r.stage.ended = false)
    (hx : x ∈ runs) (hfinished : x.stage = .finished) :
    x ∈ runs.set j r' := by
  apply mem_set_other runs j r r' x hr hx
  intro heq
  rw [← heq, hfinished] at hlive
  cases hlive

theorem entryStep_frame (ok : Bool) (s : Engine) :
    (entryStep cfg i ok s).rows = s.rows ∧ ∀ x ∈ s.runs, x ∈ (entryStep cfg i ok s).runs := by
  unfold entryStep
  split
  · exact ⟨rfl, fun _ hx => hx⟩
  · exact ⟨rfl, fun _ hx => hx⟩
  · exact ⟨rfl, fun _ hx => hx⟩
  · split <;> exact ⟨rfl, fun _ hx => hx⟩
  · exact ⟨rfl, fun _ hx => hx⟩
  · simp only [fire]
    split
    · exact ⟨rfl, fun _ hx => List.mem_append_left _ hx⟩
    · exact ⟨rfl, fun _ hx => List.mem_append_left _ hx⟩
    · split
      · exact ⟨rfl, fun _ hx => List.mem_append_left _ hx⟩
      · exact ⟨rfl, fun _ hx => hx⟩
    · split
      · exact ⟨rfl, fun _ hx => List.mem_append_left _ hx⟩
      · exact ⟨rfl, fun _ hx => hx⟩
  · exact ⟨rfl, fun _ hx => hx⟩

theorem run_kept (outcome : Outcome) (s : Engine) (id o : ℕ) (h : Inv cfg rows₀ s)
    (hkind : cfg.kind id = .cron) (hkept : Kept id o s) :
    Kept id o (runStep cfg j outcome s) := by
  have hadvance := runStep_advance cfg j outcome s
  generalize runStep cfg j outcome s = t at hadvance ⊢
  cases hadvance with
  | idle => exact hkept
  | finished r status hrun hstage =>
    have hlive : r.stage.ended = false := by rw [hstage]; rfl
    have hmem := List.mem_of_getElem? hrun
    by_cases hid : r.candidate.routine = id
    · -- the run that moves the schedule on is the one fired for this occurrence
      rcases hkept with hnow | hserved
      · refine .inr ⟨{ r with stage := .finished }, ?_, hid, ?_, rfl, ?_⟩
        · unfold updateRoutineRuntime
          split <;> exact List.mem_set (List.getElem?_eq_some_iff.mp hrun).1 _
        · show r.fired = .cron
          rw [(h.book.facts r hmem).cron, hid]
          exact hkind
        · show r.candidate.row.nextFireAt = some o
          rw [h.book.current r hmem hlive, hid]
          exact hnow
      · obtain ⟨x, hx, hxid, hcron, hfinished, ho⟩ := hserved
        refine .inr ⟨x, ?_, hxid, hcron, hfinished, ho⟩
        unfold updateRoutineRuntime
        split <;> exact finished_set s.runs j r _ x hrun hlive hx hfinished
    · apply kept_of s _ id o _ _ hkept
      · unfold updateRoutineRuntime
        split
        · exact Function.update_of_ne (fun heq => hid heq.symm) _ _
        · rfl
      · intro x hx hfinished
        unfold updateRoutineRuntime
        split <;> exact finished_set s.runs j r _ x hrun hlive hx hfinished
  | recorded r hrun hstage =>
    exact kept_of s _ id o rfl
      (fun x => finished_set s.runs j r _ x hrun (by rw [hstage]; rfl)) hkept
  | dropped r hrun hstage =>
    exact kept_of s _ id o rfl
      (fun x => finished_set s.runs j r _ x hrun (by rw [hstage]; rfl)) hkept
  | begun r hrun hstage =>
    exact kept_of s _ id o rfl
      (fun x => finished_set s.runs j r _ x hrun (by rw [hstage]; rfl)) hkept
  | panicked r hrun hstage hpanics =>
    exact kept_of s _ id o rfl
      (fun x => finished_set s.runs j r _ x hrun (by rw [hstage]; rfl)) hkept
  | left r hrun hstage =>
    exact kept_of s _ id o rfl
      (fun x => finished_set s.runs j r _ x hrun (by rw [hstage]; rfl)) hkept
  | completed r status hrun hstage =>
    exact kept_of s _ id o rfl
      (fun x => finished_set s.runs j r _ x hrun (by rw [hstage]; rfl)) hkept

theorem start_frame (l : Label) (s : Engine) (hl : ∀ j outcome, l ≠ .run j outcome)
    (he : ∀ i ok, l ≠ .entry i ok) :
    (step cfg l s).rows = s.rows ∧ (step cfg l s).runs = s.runs := by
  cases l with
  | pass time => exact ⟨rfl, rfl⟩
  | refreshEventCache ok => cases ok <;> exact ⟨rfl, rfl⟩
  | checkEventTriggers i matched ok =>
    simp only [step, startScan]
    split
    · split <;> exact ⟨rfl, rfl⟩
    · exact ⟨rfl, rfl⟩
  | emitSystemEvent i matched ok =>
    simp only [step, startScan]
    split
    · split <;> exact ⟨rfl, rfl⟩
    · exact ⟨rfl, rfl⟩
  | checkCronTriggers i ok =>
    simp only [step, startCron]
    split <;> exact ⟨rfl, rfl⟩
  | fireManual i routine authorized =>
    simp only [step, startFire]
    split <;> exact ⟨rfl, rfl⟩
  | fireWebhook i routine =>
    simp only [step, startFire]
    split <;> exact ⟨rfl, rfl⟩
  | entry i ok => exact absurd rfl (he i ok)
  | run j outcome => exact absurd rfl (hl j outcome)

theorem step_kept (l : Label) (s : Engine) (id o : ℕ) (h : Inv cfg rows₀ s)
    (hkind : cfg.kind id = .cron) (hkept : Kept id o s) : Kept id o (step cfg l s) := by
  by_cases hrun : ∃ j outcome, l = .run j outcome
  · obtain ⟨j, outcome, rfl⟩ := hrun
    exact run_kept cfg rows₀ j outcome s id o h hkind hkept
  · by_cases hentry : ∃ i ok, l = .entry i ok
    · obtain ⟨i, ok, rfl⟩ := hentry
      obtain ⟨hrows, hruns⟩ := entryStep_frame cfg i ok s
      exact kept_of s _ id o (congrFun hrows id) (fun x hx _ => hruns x hx) hkept
    · obtain ⟨hrows, hruns⟩ := start_frame cfg l s (fun j outcome heq => hrun ⟨j, outcome, heq⟩)
        (fun i ok heq => hentry ⟨i, ok, heq⟩)
      apply kept_of s _ id o (congrFun hrows id) _ hkept
      intro x hx _
      rw [hruns]
      exact hx

/-- A scan of due routines comes to each of them, and nothing it does on its
way changes what the limits say. -/
theorem scan_fires (rest : List Candidate) (s : Engine) (hentry : s.entries i = .looking .cron rest)
    (hroom : s.runningCount < cfg.maxConcurrentRoutines) (hc : c ∈ rest)
    (hcooled : checkCooldown cfg s.now c = true)
    (hfree : runningRuns s c.routine < cfg.maxConcurrent c.routine) :
    ∃ n, ∃ r ∈ (run (step cfg) (List.replicate n (.entry i true)) s).runs,
      r.candidate = c ∧ r.fired = .cron := by
  induction rest generalizing s with
  | nil => cases hc
  | cons d rest ih =>
    have hself : ∀ (t : Engine) (e : Entry), (t.at i e).entries i = e := by
      intro t e
      rw [at_entry, if_pos rfl]
    have hcounts : ∀ (t : Engine) (e : Entry) (id : ℕ),
        runningRuns (t.at i e) id = runningRuns t id := fun _ _ _ => rfl
    have hlook : step cfg (.entry i true) s = s.at i (if checkCooldown cfg s.now d then
        .counting .cron d rest else .looking .cron rest) := by
      simp only [step, entryStep, hentry, look, if_neg (Nat.not_le.mpr hroom)]
    by_cases hd : checkCooldown cfg s.now d = true
    · rw [if_pos hd] at hlook
      let t := s.at i (.counting .cron d rest)
      by_cases hdfree : runningRuns s d.routine < cfg.maxConcurrent d.routine
      · have hcount : step cfg (.entry i true) t = t.at i (.firing .cron d rest) := by
          simp only [step, entryStep, t, hself]
          rw [if_pos (by simpa [hcounts] using hdfree)]
        let u := t.at i (.firing .cron d rest)
        let v := (u.spawn ⟨d, .cron, s.now, .spawned, false⟩).at i (.looking .cron rest)
        have hfire : step cfg (.entry i true) u = v := by
          simp only [step, entryStep, u, hself, fire]
          rfl
        by_cases hcd : c = d
        · refine ⟨3, ⟨d, .cron, s.now, .spawned, false⟩, ?_, hcd.symm, rfl⟩
          rw [List.replicate_succ, List.replicate_succ, List.replicate_succ]
          simp only [run]
          rw [hlook, hcount, hfire]
          exact List.mem_append_right _ List.mem_cons_self
        · have hrest : c ∈ rest := (List.mem_cons.mp hc).resolve_left hcd
          have hruns : runningRuns v c.routine = runningRuns s c.routine := by
            show (s.runs++[_]).countP _ = _
            rw [List.countP_append, List.countP_singleton, if_neg (by simp)]
            rfl
          obtain ⟨n, hn⟩ := ih v (hself _ _) hroom hrest hcooled (by rw [hruns]; exact hfree)
          refine ⟨n+3, ?_⟩
          rw [List.replicate_succ, List.replicate_succ, List.replicate_succ]
          simp only [run]
          rw [hlook, hcount, hfire]
          exact hn
      · have hcount : step cfg (.entry i true) t = t.at i (.looking .cron rest) := by
          simp only [step, entryStep, t, hself]
          rw [if_neg (by simpa [hcounts] using hdfree)]
        have hcd : c ≠ d := fun heq => hdfree (heq ▸ hfree)
        have hrest : c ∈ rest := (List.mem_cons.mp hc).resolve_left hcd
        obtain ⟨n, hn⟩ := ih (t.at i (.looking .cron rest)) (hself _ _) hroom hrest hcooled hfree
        refine ⟨n+2, ?_⟩
        rw [List.replicate_succ, List.replicate_succ]
        simp only [run]
        rw [hlook, hcount]
        exact hn
    · rw [if_neg hd] at hlook
      have hcd : c ≠ d := fun heq => hd (heq ▸ hcooled)
      have hrest : c ∈ rest := (List.mem_cons.mp hc).resolve_left hcd
      obtain ⟨n, hn⟩ := ih (s.at i (.looking .cron rest)) (hself _ _) hroom hrest hcooled hfree
      refine ⟨n+1, ?_⟩
      rw [List.replicate_succ]
      simp only [run]
      rw [hlook]
      exact hn

theorem due_fires : Ticks cfg s := by
  intro i hidle hroom c hc hcooled hfree
  have hstart : step cfg (.checkCronTriggers i true) s =
      s.at i (.looking .cron (listDueCronRoutines cfg s)) := by
    simp only [step, startCron, hidle, if_true]
  simp only [run]
  rw [hstart]
  exact scan_fires cfg i c _ _ (by rw [at_entry, if_pos rfl]) hroom hc hcooled hfree

end

theorem begun_finished (runs : List Run) (id : ℕ) (hcalm : ∀ r ∈ runs, r.stage ≠ .panicked)
    (hended : ∀ r ∈ runs, r.stage.ended = true) : begunRuns runs id = finishedRuns runs id := by
  apply List.countP_congr
  intro r hr
  have hr' := hended r hr
  have hr'' := hcalm r hr
  cases hstage : r.stage <;> rw [hstage] at hr' hr'' <;>
    first | (cases hr'; done) | exact absurd rfl hr'' | simp

/-- In every orderly run the cooldown is kept, every occurrence that the
schedule has left has been served once, and the counters agree with the runs. -/
theorem books_hold (rows : ℕ → Row) (now : ℕ) (labels : List Label)
    (hnext : ∀ id now t, cfg.nextCronFire id now = some t → now < t)
    (h : Along (step cfg) (Orderly cfg) labels (Engine.new rows now)) :
    Books cfg rows now labels := by
  have hstep := fun l s hs hc => step_inv cfg rows l s hnext hs hc
  have hinv := guarded_invariant (step cfg) (Orderly cfg) (Inv cfg rows) hstep labels _ h
    (new_inv cfg rows now)
  refine ⟨hinv.book.spaced, ?_, due_fires cfg _, ?_, ?_⟩
  · intro before after hlabels id o hkind hrow
    rw [hlabels] at h ⊢
    obtain ⟨hbefore, hafter⟩ := along_split (step cfg) (Orderly cfg) before after _ h
    have hthen := guarded_invariant (step cfg) (Orderly cfg) (Inv cfg rows) hstep before _ hbefore
      (new_inv cfg rows now)
    rw [run_append]
    have hboth := guarded_invariant (step cfg) (Orderly cfg)
      (fun s => Inv cfg rows s ∧ Kept id o s)
      (fun l s hs hc => ⟨hstep l s hs.1 hc, step_kept cfg rows l s id o hs.1 hkind hs.2⟩)
      after _ hafter ⟨hthen, .inl hrow⟩
    exact hboth.2
  · intro hended id
    rw [hinv.book.counted id, begun_finished _ id hinv.book.calm hended]
  · intro hended id
    apply hinv.book.failures id
    intro r hr _ status hstage
    have hend := hended r hr
    rw [hstage] at hend
    cases hend

end

def everyMinute : Config where
  ids := [1]
  nodup := by decide
  kind _ := .cron
  enabled _ := true
  maxConcurrent _ := 1
  cooldown _ := 30000000000
  maxConcurrentRoutines := 5
  nextCronFire _ now := some ((now/60000000000+1)*60000000000)
  overflowChecks := true

theorem orderly_run (cfg : Config) (j : ℕ) (outcome : Outcome) (s : Engine) (r : Run)
    (hr : s.runs[j]? = some r) (hcalm : outcome.panics = false)
    (hdone : ∀ status, r.stage = .completed status →
      outcome.ok = true ∧ overflows r.candidate status = false) :
    Orderly cfg (.run j outcome) s := by
  intro r' hr'
  rw [hr] at hr'
  obtain rfl := Option.some.inj hr'
  exact ⟨fun _ => hcalm, hdone⟩

def goes : Outcome := ⟨true, false, .ok⟩

def fails : Outcome := ⟨true, false, .failed⟩

def twoTicks : List Label :=
  [.checkCronTriggers 0 true, .entry 0 true, .entry 0 true, .entry 0 true, .run 0 goes,
   .run 0 goes, .run 0 goes, .run 0 goes, .run 0 goes, .pass 60000000000, .checkCronTriggers 1 true,
   .entry 1 true, .entry 1 true, .entry 1 true, .run 1 fails, .run 1 fails, .run 1 fails,
   .run 1 fails, .run 1 fails]

theorem two_ticks_books :
    Books everyMinute (fun _ => ⟨none, some 0, 0, 0⟩) 0 twoTicks ∧
      (run (step everyMinute) twoTicks (Engine.new (fun _ => ⟨none, some 0, 0, 0⟩) 0)).rows 1 =
        ⟨some 60000000000, some 120000000000, 2, 1⟩ := by
  refine ⟨books_hold everyMinute _ 0 twoTicks ?_ ?_, by decide⟩
  · intro id now t ht
    have heq : (now/60000000000+1)*60000000000 = t := Option.some.inj ht
    omega
  · refine ⟨trivial, trivial, trivial, ⟨nofun, rfl, .inr rfl⟩, ?_, ?_, ?_, ?_, ?_, trivial, trivial, trivial,
      trivial, ⟨?_, by decide, .inl (by decide)⟩, ?_, ?_, ?_, ?_, ?_, trivial⟩
    · exact orderly_run _ _ _ _ _ rfl rfl nofun
    · exact orderly_run _ _ _ _ _ rfl rfl nofun
    · exact orderly_run _ _ _ _ _ rfl rfl nofun
    · exact orderly_run _ _ _ _ _ rfl rfl nofun
    · exact orderly_run _ _ _ _ _ rfl rfl (fun status h => ⟨rfl, by cases h; decide⟩)
    · intro r hr _
      have hr : r ∈ [(⟨⟨1, ⟨none, some 0, 0, 0⟩⟩, .cron, 0, .finished, false⟩ : Run)] := hr
      rw [List.mem_singleton.mp hr]
      rfl
    · exact orderly_run _ _ _ _ _ rfl rfl nofun
    · exact orderly_run _ _ _ _ _ rfl rfl nofun
    · exact orderly_run _ _ _ _ _ rfl rfl nofun
    · exact orderly_run _ _ _ _ _ rfl rfl nofun
    · exact orderly_run _ _ _ _ _ rfl rfl (fun status h => ⟨rfl, by cases h; decide⟩)

def onMessage : Config where
  ids := [1]
  nodup := by decide
  kind _ := .event
  enabled _ := true
  maxConcurrent _ := 1
  cooldown _ := 10000000000
  maxConcurrentRoutines := 5
  nextCronFire _ _ := none
  overflowChecks := true

def staleCache : List Label :=
  [.refreshEventCache true, .checkEventTriggers 0 (fun _ => true) true, .entry 0 true,
   .entry 0 true, .run 0 goes, .run 0 goes, .run 0 goes, .run 0 goes, .run 0 goes,
   .checkEventTriggers 1 (fun _ => true) true, .entry 1 true, .entry 1 true, .run 1 goes,
   .run 1 goes, .run 1 goes, .run 1 goes, .run 1 goes]

theorem stale_cache_two_runs :
    ¬ ∀ (cfg : Config) (rows : ℕ → Row) (now : ℕ) (labels : List Label),
      (∀ id now t, cfg.nextCronFire id now = some t → now < t) → Books cfg rows now labels := by
  intro h
  have hbooks := h onMessage (fun _ => ⟨none, none, 0, 0⟩) 0 staleCache nofun
  have hcount := hbooks.counted (by decide) 1
  exact absurd hcount (by decide)

end IronClaw.RoutineBookkeeping
