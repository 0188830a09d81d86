import IronClaw.RoutineEngine

/-!
# Limits on running routines

The limits hold in runs in which the entry points come one after the other and
look at the counts only while every run that has not ended is executing, so
that it is recorded and counted. `fire_manual` does not look at the counter,
and a run that panics keeps its place in it.
-/

set_option autoImplicit false

namespace IronClaw.RoutineLimits
open IronClaw.RoutineEngine Lib.Runs

def Run.open (r : Run) : Bool := !r.stage.ended

def total (s : Engine) : ℕ := s.runs.countP Run.open

def live (s : Engine) (routine : ℕ) : ℕ :=
  s.runs.countP (fun r => r.candidate.routine = routine && Run.open r)

section

variable (cfg : Config)

structure Limits (s : Engine) : Prop where
  each : ∀ routine, live s routine ≤ cfg.maxConcurrent routine
  overall : total s ≤ cfg.maxConcurrentRoutines
  returned : (∀ r ∈ s.runs, r.stage.ended = true) → s.runningCount = 0

def Entry.busy : Entry → Bool
  | .idle => false
  | .done => false
  | _ => true

def AllExecuting (s : Engine) : Prop :=
  ∀ r ∈ s.runs, r.stage.ended = false → r.stage = .executing

def NoneBusy (s : Engine) : Prop := ∀ i, Entry.busy (s.entries i) = false

def Steady : Label → Engine → Prop
  | .pass _, _ => True
  | .refreshEventCache _, _ => True
  | .checkEventTriggers _ _ _, s => NoneBusy s ∧ AllExecuting s
  | .emitSystemEvent _ _ _, s => NoneBusy s ∧ AllExecuting s
  | .checkCronTriggers _ _, s => NoneBusy s
  | .fireManual _ _ _, s => NoneBusy s
  | .fireWebhook _ _, s => NoneBusy s
  | .entry i _, s =>
    match s.entries i with
    | .looking _ _ => AllExecuting s
    | .counting .manual _ _ => AllExecuting s ∧ s.runningCount < cfg.maxConcurrentRoutines
    | .counting _ _ _ => AllExecuting s
    | .loading _ _ _ => AllExecuting s
    | _ => True
  | .run j outcome, s =>
    ∀ r, s.runs[j]? = some r → r.stage = .executing → outcome.panics = false

def Covered (s : Engine) (counts : ℕ → ℕ) (rest : List Candidate) : Prop :=
  (rest.map Candidate.routine).Nodup ∧ ∀ c ∈ rest, live s c.routine ≤ counts c.routine

def Room (s : Engine) (c : Candidate) : Prop :=
  live s c.routine < cfg.maxConcurrent c.routine ∧ total s < cfg.maxConcurrentRoutines

def Mode.Covers (s : Engine) (rest : List Candidate) : Mode → Prop
  | .scan _ counts => Covered s counts rest
  | _ => True

def Promise (s : Engine) : Entry → Prop
  | .looking mode rest => Mode.Covers s rest mode
  | .counting mode _ rest => Mode.Covers s rest mode ∧
      (∀ kind counts, mode ≠ .scan kind counts) ∧
      (mode = .cron → total s < cfg.maxConcurrentRoutines)
  | .loading mode c rest => Mode.Covers s rest mode ∧
      (∀ kind counts, mode ≠ .scan kind counts) ∧ live s c.routine < cfg.maxConcurrent c.routine
  | .firing mode c rest => Mode.Covers s rest mode ∧ Room cfg s c ∧
      (∀ kind counts, mode = .scan kind counts → c.routine ∉ rest.map Candidate.routine)
  | _ => True

structure Inv (s : Engine) : Prop where
  counted : s.runningCount = s.runs.countP (fun r => r.stage.counted)
  recorded : ∀ r ∈ s.runs, r.stage = .recorded ∨ r.stage = .executing → r.running = true
  calm : ∀ r ∈ s.runs, r.stage ≠ .panicked
  each : ∀ routine, live s routine ≤ cfg.maxConcurrent routine
  overall : total s ≤ cfg.maxConcurrentRoutines
  single : ∀ i j, Entry.busy (s.entries i) = true → Entry.busy (s.entries j) = true → i = j
  promised : ∀ i, Promise cfg s (s.entries i)
  cached : (s.cache.map Candidate.routine).Nodup

theorem covers_mono (s t : Engine) (mode : Mode) (rest : List Candidate)
    (hlive : ∀ id, live t id ≤ live s id) (h : Mode.Covers s rest mode) :
    Mode.Covers t rest mode := by
  cases mode with
  | scan kind counts => exact ⟨h.1, fun c hc => Nat.le_trans (hlive c.routine) (h.2 c hc)⟩
  | cron => trivial
  | manual => trivial
  | webhook => trivial

/-- Runs that end leave the promises as they are. -/
theorem promise_mono (s t : Engine) (e : Entry) (hlive : ∀ id, live t id ≤ live s id)
    (htotal : total t ≤ total s) (h : Promise cfg s e) : Promise cfg t e := by
  cases e with
  | idle => trivial
  | done => trivial
  | looking mode rest => exact covers_mono s t mode rest hlive h
  | counting mode c rest =>
    exact ⟨covers_mono s t mode rest hlive h.1, h.2.1,
      fun hcron => Nat.lt_of_le_of_lt htotal (h.2.2 hcron)⟩
  | loading mode c rest =>
    exact ⟨covers_mono s t mode rest hlive h.1, h.2.1,
      Nat.lt_of_le_of_lt (hlive c.routine) h.2.2⟩
  | firing mode c rest =>
    exact ⟨covers_mono s t mode rest hlive h.1,
      ⟨Nat.lt_of_le_of_lt (hlive c.routine) h.2.1.1, Nat.lt_of_le_of_lt htotal h.2.1.2⟩, h.2.2⟩

variable (s : Engine) (i : ℕ)

theorem total_le_counter (h : Inv cfg s) (hall : AllExecuting s) :
    total s ≤ s.runningCount := by
  rw [h.counted]
  apply List.countP_mono_left
  intro r hr hopen
  rw [hall r hr (by simpa [Run.open] using hopen)]
  rfl

theorem live_le_running (h : Inv cfg s) (hall : AllExecuting s) (id : ℕ) :
    live s id ≤ runningRuns s id := by
  apply List.countP_mono_left
  intro r hr hopen
  simp only [Bool.and_eq_true, decide_eq_true_eq] at hopen ⊢
  have hexec := hall r hr (by simpa [Run.open] using hopen.2)
  exact ⟨hopen.1, h.recorded r hr (.inr hexec)⟩

/-- A run that goes on, with the counter that goes with it. -/
theorem setRun_inv (s t : Engine) (j : ℕ) (r r' : Run) (h : Inv cfg s)
    (hrun : s.runs[j]? = some r) (hruns : t.runs = s.runs.set j r')
    (hentries : t.entries = s.entries) (hcache : t.cache = s.cache)
    (hsame : r'.candidate = r.candidate)
    (hcount : t.runningCount+(if r.stage.counted then 1 else 0) =
      s.runningCount+(if r'.stage.counted then 1 else 0))
    (hrecorded : r'.stage = .recorded ∨ r'.stage = .executing → r'.running = true)
    (hcalm : r'.stage ≠ .panicked) (hopen : r.stage.ended = false) : Inv cfg t := by
  have hlive : ∀ id, live t id ≤ live s id := by
    intro id
    simp only [live, hruns]
    apply count_set_le _ s.runs j r r' hrun
    simp only [Bool.and_eq_true, decide_eq_true_eq, hsame]
    intro h
    exact ⟨h.1, by rw [Run.open, hopen]; rfl⟩
  have htotal : total t ≤ total s := by
    simp only [total, hruns]
    exact count_set_le _ s.runs j r r' hrun (fun _ => by rw [Run.open, hopen]; rfl)
  constructor
  · have hset := count_set (fun r => r.stage.counted) s.runs j r r' hrun
    rw [hruns]
    have hold := h.counted
    omega
  · intro x hx hexec
    rw [hruns] at hx
    rcases mem_set s.runs j r' x hx with rfl | hin
    · exact hrecorded hexec
    · exact h.recorded x hin hexec
  · intro x hx
    rw [hruns] at hx
    rcases mem_set s.runs j r' x hx with rfl | hin
    · exact hcalm
    · exact h.calm x hin
  · exact fun id => Nat.le_trans (hlive id) (h.each id)
  · exact Nat.le_trans htotal h.overall
  · rw [hentries]
    exact h.single
  · intro i
    rw [hentries]
    exact promise_mono cfg s t (s.entries i) hlive htotal (h.promised i)
  · rw [hcache]
    exact h.cached

/-- An entry point that goes on. -/
theorem at_inv (e : Entry) (h : Inv cfg s)
    (halone : Entry.busy e = true → ∀ j, Entry.busy (s.entries j) = true → j = i)
    (hpromise : Promise cfg s e) : Inv cfg (s.at i e) := by
  refine ⟨h.counted, h.recorded, h.calm, h.each, h.overall, ?_, ?_, h.cached⟩
  · intro j k hj hk
    rw [at_entry] at hj hk
    split at hj
    · rename_i hji
      split at hk
      · rename_i hki
        rw [hji, hki]
      · rw [hji]
        exact (halone hj k hk).symm
    · split at hk
      · rename_i hki
        rw [hki]
        exact halone hk j hj
      · exact h.single j k hj hk
  · intro j
    rw [at_entry]
    split
    · exact hpromise
    · exact h.promised j

theorem busy_alone (h : Inv cfg s) (hbusy : Entry.busy (s.entries i) = true) :
    ∀ j, Entry.busy (s.entries j) = true → j = i :=
  fun j hj => h.single j i hj hbusy

theorem idle_promise (e : Entry) (h : Entry.busy e = false) : Promise cfg s e := by
  cases e with
  | idle => trivial
  | done => trivial
  | looking mode rest => cases h
  | counting mode c rest => cases h
  | loading mode c rest => cases h
  | firing mode c rest => cases h

theorem live_spawn (r : Run) (hopen : Run.open r = true) (id : ℕ) :
    live (s.spawn r) id = live s id+(if r.candidate.routine = id then 1 else 0) := by
  simp only [live, Engine.spawn, List.countP_append, List.countP_singleton, hopen, Bool.and_true,
    decide_eq_true_eq]

theorem total_spawn (r : Run) (hopen : Run.open r = true) :
    total (s.spawn r) = total s+1 := by
  simp only [total, Engine.spawn, List.countP_append, List.countP_singleton, hopen, if_true]

/-- A spawn where there is room for it. -/
theorem spawn_inv (mode : Mode) (c : Candidate) (rest : List Candidate) (r : Run) (h : Inv cfg s)
    (hentry : s.entries i = .firing mode c rest) (hcandidate : r.candidate = c)
    (hstage : r.stage = .spawned ∨ r.stage = .recorded)
    (hrunning : r.stage = .recorded → r.running = true) :
    Inv cfg ((s.spawn r).at i (.looking mode rest)) := by
  have hpromise := h.promised i
  rw [hentry] at hpromise
  obtain ⟨hcovers, hroom, hfresh⟩ := hpromise
  have hopen : Run.open r = true := by
    rcases hstage with hstage | hstage <;> rw [Run.open, hstage] <;> rfl
  have hcounted : r.stage.counted = false := by
    rcases hstage with hstage | hstage <;> rw [hstage] <;> rfl
  have halone := busy_alone cfg s i h (by rw [hentry]; rfl)
  refine ⟨?_, ?_, ?_, ?_, ?_, ?_, ?_, h.cached⟩
  · show s.runningCount = (s.runs++[r]).countP _
    rw [h.counted, List.countP_append, List.countP_singleton, hcounted]
    rfl
  · intro x hx hexec
    rcases List.mem_append.mp hx with hin | hnew
    · exact h.recorded x hin hexec
    · rw [List.mem_singleton.mp hnew] at hexec ⊢
      rcases hexec with hrec | hexec
      · exact hrunning hrec
      · rcases hstage with hstage | hstage <;> rw [hstage] at hexec <;> cases hexec
  · intro x hx
    rcases List.mem_append.mp hx with hin | hnew
    · exact h.calm x hin
    · rw [List.mem_singleton.mp hnew]
      rcases hstage with hstage | hstage <;> rw [hstage] <;> nofun
  · intro id
    show live (s.spawn r) id ≤ _
    rw [live_spawn s r hopen, hcandidate]
    split
    · rename_i hid
      rw [← hid]
      exact hroom.1
    · exact h.each id
  · show total (s.spawn r) ≤ _
    rw [total_spawn s r hopen]
    exact hroom.2
  · intro j k hj hk
    have hold : ∀ j, Entry.busy (((s.spawn r).at i (.looking mode rest)).entries j) = true →
        j = i := by
      intro j hj
      rw [at_entry] at hj
      split at hj
      · assumption
      · exact halone j hj
    rw [hold j hj, hold k hk]
  · intro j
    rw [at_entry]
    split
    · -- the other candidates of a scan are other routines
      cases mode with
      | scan kind counts =>
        refine ⟨hcovers.1, fun c' hc' => ?_⟩
        show live (s.spawn r) c'.routine ≤ _
        have hne : ¬ c.routine = c'.routine := by
          intro heq
          exact hfresh kind counts rfl (heq ▸ List.mem_map_of_mem hc')
        rw [live_spawn s r hopen, hcandidate, if_neg hne]
        exact hcovers.2 c' hc'
      | cron => trivial
      | manual => trivial
      | webhook => trivial
    · rename_i hji
      cases hbusy : Entry.busy (s.entries j) with
      | true => exact absurd (halone j hbusy) hji
      | false =>
        show Promise cfg _ (s.entries j)
        exact idle_promise cfg _ _ hbusy

theorem run_inv (j : ℕ) (outcome : Outcome) (s : Engine) (h : Inv cfg s)
    (hsteady : Steady cfg (.run j outcome) s) : Inv cfg (runStep cfg j outcome s) := by
  have hadvance := runStep_advance cfg j outcome s
  generalize runStep cfg j outcome s = t at hadvance ⊢
  cases hadvance with
  | idle => exact h
  | recorded r hrun hstage =>
    exact setRun_inv cfg s _ j r _ h hrun rfl rfl rfl rfl (by rw [hstage]; rfl) (fun _ => rfl) nofun
      (by rw [hstage]; rfl)
  | dropped r hrun hstage =>
    exact setRun_inv cfg s _ j r _ h hrun rfl rfl rfl rfl (by rw [hstage]; rfl) (by simp) nofun
      (by rw [hstage]; rfl)
  | begun r hrun hstage =>
    have hrecorded := h.recorded r (List.mem_of_getElem? hrun) (.inl hstage)
    exact setRun_inv cfg s _ j r _ h hrun rfl rfl rfl rfl (by rw [hstage]; rfl)
      (fun _ => hrecorded) nofun (by rw [hstage]; rfl)
  | panicked r hrun hstage hpanics =>
    rw [hsteady r hrun hstage] at hpanics
    cases hpanics
  | left r hrun hstage =>
    have hpos : 0 < s.runningCount := by
      rw [h.counted]
      exact List.countP_pos_iff.mpr ⟨r, List.mem_of_getElem? hrun, by rw [hstage]; rfl⟩
    refine setRun_inv cfg s _ j r _ h hrun rfl rfl rfl rfl ?_ (by simp) nofun
      (by rw [hstage]; rfl)
    simp only [Engine.setRun, hstage, Stage.counted, if_true, Bool.false_eq_true, if_false]
    omega
  | completed r status hrun hstage =>
    exact setRun_inv cfg s _ j r _ h hrun rfl rfl rfl rfl (by rw [hstage]; rfl) (by simp) nofun
      (by rw [hstage]; rfl)
  | finished r status hrun hstage =>
    apply setRun_inv cfg s _ j r { r with stage := .finished } h hrun _ _ _ rfl _ (by simp) nofun
      (by rw [hstage]; rfl)
    all_goals
      unfold updateRoutineRuntime
      split <;> first | rfl | (rw [hstage]; rfl)

theorem start_inv (e : Entry) (h : Inv cfg s) (hnone : NoneBusy s) (hpromise : Promise cfg s e) :
    Inv cfg (s.at i e) := by
  apply at_inv cfg s i e h _ hpromise
  intro _ j hj
  rw [hnone j] at hj
  cases hj

theorem scan_inv (kind : TriggerKind) (matched : ℕ → Bool) (ok : Bool) (s : Engine) (h : Inv cfg s)
    (hnone : NoneBusy s) (hall : AllExecuting s) :
    Inv cfg (startScan cfg i kind matched ok s) := by
  unfold startScan
  split
  · split
    · apply start_inv cfg s i _ h hnone
      refine ⟨?_, fun c _ => live_le_running cfg s h hall c.routine⟩
      exact h.cached.sublist (List.filter_sublist.map Candidate.routine)
    · exact start_inv cfg s i _ h hnone trivial
  · exact h

theorem cron_inv (ok : Bool) (s : Engine) (h : Inv cfg s) (hnone : NoneBusy s) :
    Inv cfg (startCron cfg i ok s) := by
  unfold startCron
  split
  · apply start_inv cfg s i _ h hnone
    split <;> trivial
  · exact h

theorem fire_inv (mode : Mode) (routine : ℕ) (admitted : Bool) (s : Engine) (h : Inv cfg s)
    (hnone : NoneBusy s) (hmode : mode = .manual ∨ mode = .webhook) :
    Inv cfg (startFire cfg i mode routine admitted s) := by
  unfold startFire
  split
  · apply start_inv cfg s i _ h hnone
    split
    · rcases hmode with rfl | rfl <;> exact ⟨trivial, nofun, nofun⟩
    · trivial
  · exact h

/-- A scan looks at the counts that it has loaded and at the counter. -/
theorem look_promise (mode : Mode) (c : Candidate) (rest : List Candidate) (s : Engine)
    (h : Inv cfg s) (hall : AllExecuting s) (hcovers : Mode.Covers s (c::rest) mode) :
    Promise cfg s (look cfg mode c rest s) := by
  have htotal := total_le_counter cfg s h hall
  cases mode with
  | scan kind counts =>
    obtain ⟨hnodup, hcounts⟩ := hcovers
    rw [List.map_cons, List.nodup_cons] at hnodup
    have hrest : Mode.Covers s rest (.scan kind counts) :=
      ⟨hnodup.2, fun c' hc' => hcounts c' (List.mem_cons_of_mem c hc')⟩
    simp only [look]
    split
    · rename_i hchecks
      simp only [Bool.and_eq_true, decide_eq_true_eq] at hchecks
      have hlive := hcounts c List.mem_cons_self
      exact ⟨hrest, ⟨by omega, by omega⟩, fun _ _ _ => hnodup.1⟩
    · exact hrest
  | cron =>
    simp only [look]
    split
    · trivial
    · split
      · exact ⟨trivial, nofun, fun _ => by omega⟩
      · trivial
  | manual => trivial
  | webhook => trivial

theorem entry_inv (ok : Bool) (s : Engine) (h : Inv cfg s) (hsteady : Steady cfg (.entry i ok) s) :
    Inv cfg (entryStep cfg i ok s) := by
  have hpromise := h.promised i
  have hsteady' := hsteady
  simp only [Steady] at hsteady'
  unfold entryStep
  cases hentry : s.entries i with
  | idle => exact h
  | done => exact h
  | looking mode rest =>
    have halone := busy_alone cfg s i h (by rw [hentry]; rfl)
    rw [hentry] at hpromise hsteady'
    cases rest with
    | nil => exact at_inv cfg s i _ h (fun _ => halone) trivial
    | cons c rest =>
      exact at_inv cfg s i _ h (fun _ => halone) (look_promise cfg mode c rest s h hsteady' hpromise)
  | counting mode c rest =>
    have halone := busy_alone cfg s i h (by rw [hentry]; rfl)
    rw [hentry] at hpromise hsteady'
    obtain ⟨hcovers, hmode, hroom⟩ := hpromise
    simp only
    split
    · rename_i hcount
      simp only [Bool.and_eq_true, decide_eq_true_eq] at hcount
      apply at_inv cfg s i _ h (fun _ => halone)
      cases mode with
      | scan kind counts => exact absurd rfl (hmode kind counts)
      | cron =>
        have hlive := live_le_running cfg s h hsteady' c.routine
        exact ⟨trivial, ⟨by omega, hroom rfl⟩, nofun⟩
      | manual =>
        have hlive := live_le_running cfg s h hsteady'.1 c.routine
        have htotal := total_le_counter cfg s h hsteady'.1
        exact ⟨trivial, ⟨by omega, Nat.lt_of_le_of_lt htotal hsteady'.2⟩, nofun⟩
      | webhook =>
        have hlive := live_le_running cfg s h hsteady' c.routine
        exact ⟨trivial, nofun, by omega⟩
    · exact at_inv cfg s i _ h (fun _ => halone) hcovers
  | loading mode c rest =>
    have halone := busy_alone cfg s i h (by rw [hentry]; rfl)
    rw [hentry] at hpromise hsteady'
    obtain ⟨hcovers, hmode, hlive⟩ := hpromise
    have htotal := total_le_counter cfg s h hsteady'
    apply at_inv cfg s i _ h (fun _ => halone)
    split
    · exact ⟨hcovers, ⟨hlive, by omega⟩, fun kind counts hscan => absurd hscan (hmode kind counts)⟩
    · exact hcovers
  | firing mode c rest =>
    have halone := busy_alone cfg s i h (by rw [hentry]; rfl)
    rw [hentry] at hpromise
    simp only [fire]
    split
    · exact spawn_inv cfg s i _ c rest _ h hentry rfl (.inl rfl) nofun
    · exact spawn_inv cfg s i _ c rest _ h hentry rfl (.inl rfl) nofun
    · split
      · exact spawn_inv cfg s i _ c rest _ h hentry rfl (.inr rfl) (fun _ => rfl)
      · exact at_inv cfg s i _ h (fun _ => halone) hpromise.1
    · split
      · exact spawn_inv cfg s i _ c rest _ h hentry rfl (.inr rfl) (fun _ => rfl)
      · exact at_inv cfg s i _ h (fun _ => halone) hpromise.1

theorem copies_nodup (p : ℕ → Bool) :
    ((copies cfg s p).map Candidate.routine).Nodup := by
  have hids : (copies cfg s p).map Candidate.routine = cfg.ids.filter p := by
    rw [copies, List.map_map]
    exact List.map_id' _
  rw [hids]
  exact cfg.nodup.sublist List.filter_sublist

theorem step_inv (l : Label) (s : Engine) (h : Inv cfg s) (hsteady : Steady cfg l s) :
    Inv cfg (step cfg l s) := by
  cases l with
  | pass time =>
    exact ⟨h.counted, h.recorded, h.calm, h.each, h.overall, h.single, h.promised, h.cached⟩
  | refreshEventCache ok =>
    simp only [step]
    split
    · exact ⟨h.counted, h.recorded, h.calm, h.each, h.overall, h.single, h.promised,
        copies_nodup cfg s _⟩
    · exact h
  | checkEventTriggers i matched ok =>
    exact scan_inv cfg i _ matched ok s h hsteady.1 hsteady.2
  | emitSystemEvent i matched ok => exact scan_inv cfg i _ matched ok s h hsteady.1 hsteady.2
  | checkCronTriggers i ok => exact cron_inv cfg i ok s h hsteady
  | fireManual i routine authorized =>
    exact fire_inv cfg i _ routine authorized s h hsteady (.inl rfl)
  | fireWebhook i routine => exact fire_inv cfg i _ routine _ s h hsteady (.inr rfl)
  | entry i ok => exact entry_inv cfg i ok s h hsteady
  | run j outcome => exact run_inv cfg j outcome s h hsteady

theorem new_inv (rows : ℕ → Row) (now : ℕ) : Inv cfg (Engine.new rows now) where
  counted := rfl
  recorded := fun _ hr => absurd hr List.not_mem_nil
  calm := fun _ hr => absurd hr List.not_mem_nil
  each := fun _ => Nat.zero_le _
  overall := Nat.zero_le _
  single := nofun
  promised := fun _ => trivial
  cached := List.nodup_nil

/-- In every steady run the limits hold, and the counter is back at zero when
every run has ended. -/
theorem limits_hold (rows : ℕ → Row) (now : ℕ) (labels : List Label)
    (h : Along (step cfg) (Steady cfg) labels (Engine.new rows now)) :
    Limits cfg (run (step cfg) labels (Engine.new rows now)) := by
  have hinv := guarded_invariant (step cfg) (Steady cfg) (Inv cfg)
    (fun l s hs hc => step_inv cfg l s hs hc) labels _ h (new_inv cfg rows now)
  refine ⟨hinv.each, hinv.overall, fun hended => ?_⟩
  rw [hinv.counted, List.countP_eq_zero]
  intro r hr hcounted
  have hend := hended r hr
  have hcalm := hinv.calm r hr
  cases hstage : r.stage <;> rw [hstage] at hcounted hend hcalm <;>
    first | cases hcounted; done | cases hend; done | exact hcalm rfl

end

theorem one_nodup : [1].Nodup := List.nodup_singleton 1

def oneRoutine : Config where
  ids := [1]
  nodup := one_nodup
  kind _ := .event
  enabled _ := true
  maxConcurrent _ := 1
  cooldown _ := 0
  maxConcurrentRoutines := 5
  nextCronFire _ _ := none
  overflowChecks := true

def newRow : Row := ⟨none, none, 0, 0⟩

def goes : Outcome := ⟨true, false, .ok⟩

def oneMessage : List Label :=
  [.refreshEventCache true, .checkEventTriggers 0 (fun _ => true) true, .entry 0 true,
   .entry 0 true, .run 0 goes, .run 0 goes, .entry 0 true, .run 0 goes, .run 0 goes, .run 0 goes]

theorem one_message_limits :
    Limits oneRoutine (run (step oneRoutine) oneMessage (Engine.new (fun _ => newRow) 0)) ∧
      (run (step oneRoutine) oneMessage (Engine.new (fun _ => newRow) 0)).runs.length = 1 := by
  refine ⟨limits_hold oneRoutine (fun _ => newRow) 0 oneMessage ?_, rfl⟩
  refine ⟨trivial, ⟨fun _ => rfl, nofun⟩, nofun, trivial, ?_, ?_, ?_, ?_, ?_, ?_, trivial⟩
  · exact fun r _ _ => rfl
  · exact fun r _ _ => rfl
  · intro r hr _
    have hr : r ∈ [(⟨⟨1, newRow⟩, .event, 0, .executing, true⟩ : Run)] := hr
    rw [List.mem_singleton.mp hr]
  · exact fun r _ _ => rfl
  · exact fun r _ _ => rfl
  · exact fun r _ _ => rfl

def twoMessages : List Label :=
  [.refreshEventCache true, .checkEventTriggers 0 (fun _ => true) true, .entry 0 true,
   .entry 0 true, .checkEventTriggers 1 (fun _ => true) true, .entry 1 true, .entry 1 true]

theorem two_messages_two_runs :
    ¬ ∀ (cfg : Config) (rows : ℕ → Row) (now : ℕ) (labels : List Label),
      Limits cfg (run (step cfg) labels (Engine.new rows now)) := by
  intro h
  have heach := (h oneRoutine (fun _ => newRow) 0 twoMessages).each 1
  have hlive : live (run (step oneRoutine) twoMessages (Engine.new (fun _ => newRow) 0)) 1 = 2 := by
    decide
  rw [hlive] at heach
  exact absurd heach (by decide)

end IronClaw.RoutineLimits
