import Mathlib.Algebra.Order.Ring.Int
import Mathlib.Data.Int.DivMod
import Mathlib.Data.List.Pairwise

/-!
# The daily heartbeat

`agent/heartbeat.rs`: with a time of day to fire at, the loop sleeps to its next
occurrence, checks outside the quiet hours, and begins again. A time zone gives
every instant its local date and time, and lists the instants of a local date
and time: none where the clock jumps over it, two where it is set back. Instants
and local times are in nanoseconds.
-/

set_option autoImplicit false

namespace IronClaw.Heartbeat

def second : ℤ := 10^9

def hour : ℤ := 3600*second

def day : ℤ := 24*hour

inductive LocalResult where
  | none
  | single (t : ℤ)
  | ambiguous (earliest latest : ℤ)
  deriving DecidableEq

def LocalResult.earliest : LocalResult → Option ℤ
  | .none => Option.none
  | .single t => some t
  | .ambiguous t _ => some t

def LocalResult.instants : LocalResult → List ℤ
  | .none => []
  | .single t => [t]
  | .ambiguous t u => [t, u]

structure Zone where
  toLocal : ℤ → ℤ
  fromLocal : ℤ → LocalResult
  denotes : ∀ l t, t ∈ (fromLocal l).instants ↔ toLocal t = l
  ordered : ∀ l t u, fromLocal l = .ambiguous t u → t < u

structure NaiveTime where
  nanos : ℤ
  within : 0 ≤ nanos ∧ nanos < day

def andTime (date : ℤ) (time : NaiveTime) : ℤ := date*day+time.nanos

section

variable (tz : Zone) (fireAt : NaiveTime)

def Zone.date (t : ℤ) : ℤ := tz.toLocal t/day

def tomorrowTarget (now : ℤ) : ℤ :=
  (tz.fromLocal (andTime (tz.date now+1) fireAt)).earliest.getD (now+day)

def fireTarget (now : ℤ) : ℤ :=
  match (tz.fromLocal (andTime (tz.date now) fireAt)).earliest with
  | some t => if now < t then t else tomorrowTarget tz fireAt now
  | none => tomorrowTarget tz fireAt now

/-- The sleep in seconds: `num_seconds` cuts the fraction off. -/
def durationUntilNextFire (now : ℤ) : ℕ :=
  (max ((fireTarget tz fireAt now-now).tdiv second) 1).toNat

end

/-! ## The loop -/

structure HeartbeatConfig where
  maxFailures : ℕ
  quietHoursStart : Option ℕ
  quietHoursEnd : Option ℕ

def HeartbeatConfig.isQuietHours (config : HeartbeatConfig) (tz : Zone) (now : ℤ) : Bool :=
  match config.quietHoursStart, config.quietHoursEnd with
  | some start, some finish =>
    let nowHour := (tz.toLocal now%day/hour).toNat
    if start ≤ finish then decide (start ≤ nowHour ∧ nowHour < finish)
    else decide (start ≤ nowHour ∨ nowHour < finish)
  | _, _ => false

inductive HeartbeatResult where
  | ok
  | needsAttention (message : String)
  | skipped
  | failed (error : String)
  deriving DecidableEq

structure Turn where
  late : ℕ
  result : HeartbeatResult
  took : ℕ

structure Check where
  asked : ℤ
  woke : ℤ
  deriving DecidableEq

section

variable (tz : Zone) (fireAt : NaiveTime)

def wakes (now : ℤ) (turn : Turn) : ℤ :=
  now+durationUntilNextFire tz fireAt now*second+turn.late

def run (config : HeartbeatConfig) : ℤ → ℕ → List Turn → List Check
  | _, _, [] => []
  | now, failures, turn::turns =>
    let woke := wakes tz fireAt now turn
    if config.isQuietHours tz woke then run config (woke+turn.took) failures turns
    else
      ⟨now, woke⟩::
        match turn.result with
        | .failed _ =>
          if config.maxFailures ≤ failures+1 then []
          else run config (woke+turn.took) (failures+1) turns
        | .skipped => run config (woke+turn.took) failures turns
        | .ok | .needsAttention _ => run config (woke+turn.took) 0 turns

/-! ## Occurrences -/

def IsFirst (date t : ℤ) : Prop :=
  tz.toLocal t = andTime date fireAt ∧ ∀ u, tz.toLocal u = andTime date fireAt → t ≤ u

def Next (now t : ℤ) : Prop :=
  now < t ∧ (IsFirst tz fireAt (tz.date now) t ∨
    (∀ u, IsFirst tz fireAt (tz.date now) u → u ≤ now) ∧
      IsFirst tz fireAt (tz.date now+1) t)

def Uncut (now t : ℤ) : Prop := second ∣ t-now ∨ t-now < second

theorem isFirst_iff (date t : ℤ) :
    IsFirst tz fireAt date t ↔ (tz.fromLocal (andTime date fireAt)).earliest = some t := by
  have hdenotes := tz.denotes (andTime date fireAt)
  have hordered := tz.ordered (andTime date fireAt)
  unfold IsFirst
  cases hlocal : tz.fromLocal (andTime date fireAt) with
  | none =>
    simp only [hlocal, LocalResult.instants, List.not_mem_nil, false_iff] at hdenotes
    simp [LocalResult.earliest, hdenotes]
  | single u =>
    simp only [hlocal, LocalResult.instants, List.mem_singleton] at hdenotes
    simp only [LocalResult.earliest, Option.some.injEq, ← hdenotes]
    constructor
    · rintro ⟨h, -⟩
      exact h.symm
    · rintro rfl
      exact ⟨rfl, fun v hv => le_of_eq hv.symm⟩
  | ambiguous u v =>
    have hlt := hordered u v hlocal
    simp only [hlocal, LocalResult.instants, List.mem_cons, List.not_mem_nil, or_false]
      at hdenotes
    simp only [LocalResult.earliest, Option.some.injEq, ← hdenotes]
    constructor
    · rintro ⟨h, hmin⟩
      have hu := hmin u (Or.inl rfl)
      rcases h with rfl | rfl
      · rfl
      · omega
    · rintro rfl
      refine ⟨Or.inl rfl, ?_⟩
      rintro w (rfl | rfl)
      · exact le_refl _
      · exact le_of_lt hlt

variable (now t : ℤ) (config : HeartbeatConfig)

/-- The sleep aims at the next occurrence. -/
theorem target_next (h : Next tz fireAt now t) : fireTarget tz fireAt now = t := by
  obtain ⟨hafter, htoday | ⟨hpast, htomorrow⟩⟩ := h
  · rw [fireTarget, (isFirst_iff tz fireAt _ t).mp htoday]
    exact if_pos hafter
  · have hnext : tomorrowTarget tz fireAt now = t := by
      rw [tomorrowTarget, (isFirst_iff tz fireAt _ t).mp htomorrow]
      rfl
    rw [fireTarget]
    cases htoday : (tz.fromLocal (andTime (tz.date now) fireAt)).earliest with
    | none => exact hnext
    | some u =>
      have hu := hpast u ((isFirst_iff tz fireAt _ u).mpr htoday)
      show (if now < u then u else tomorrowTarget tz fireAt now) = t
      rw [if_neg (not_lt.mpr hu)]
      exact hnext

theorem duration_next (h : Next tz fireAt now t) :
    (durationUntilNextFire tz fireAt now : ℤ) = max ((t-now)/second) 1 := by
  have hafter := h.1
  rw [durationUntilNextFire, target_next tz fireAt now t h,
    Int.tdiv_eq_ediv_of_nonneg (by omega), Int.toNat_of_nonneg (by omega)]

theorem duration_pos (now : ℤ) : 1 ≤ durationUntilNextFire tz fireAt now := by
  unfold durationUntilNextFire
  omega

theorem wakes_before (h : Next tz fireAt now t) :
    now+durationUntilNextFire tz fireAt now*second < t+second := by
  have hafter := h.1
  rw [duration_next tz fireAt now t h]
  unfold second
  omega

theorem wakes_after (h : Next tz fireAt now t) (huncut : Uncut now t) :
    t ≤ now+durationUntilNextFire tz fireAt now*second := by
  have hafter := h.1
  rw [duration_next tz fireAt now t h]
  unfold Uncut second at huncut
  unfold second
  omega

/-! ## Runs -/

/-- A turn makes no check, or one and then perhaps those of the later turns. -/
theorem run_cases (now : ℤ) (failures : ℕ) (turn : Turn) (turns : List Turn) :
    ∃ later, (later = [] ∨ ∃ f, later = run tz fireAt config
        (wakes tz fireAt now turn+turn.took) f turns) ∧
      (run tz fireAt config now failures (turn::turns) = later ∨
        run tz fireAt config now failures (turn::turns) =
          ⟨now, wakes tz fireAt now turn⟩::later) := by
  simp only [run]
  split
  · exact ⟨_, Or.inr ⟨failures, rfl⟩, Or.inl rfl⟩
  · cases turn.result with
    | failed error =>
      by_cases hlast : config.maxFailures ≤ failures+1
      · exact ⟨[], Or.inl rfl, Or.inr (by rw [if_pos hlast])⟩
      · exact ⟨_, Or.inr ⟨failures+1, rfl⟩, Or.inr (by rw [if_neg hlast])⟩
    | skipped => exact ⟨_, Or.inr ⟨failures, rfl⟩, Or.inr rfl⟩
    | ok => exact ⟨_, Or.inr ⟨0, rfl⟩, Or.inr rfl⟩
    | needsAttention message => exact ⟨_, Or.inr ⟨0, rfl⟩, Or.inr rfl⟩

/-- The checks of a run come after its beginning, each after its sleep. -/
theorem run_after (turns : List Turn) (now : ℤ) (failures : ℕ) :
    ∀ c ∈ run tz fireAt config now failures turns,
      now ≤ c.asked ∧ c.asked+durationUntilNextFire tz fireAt c.asked*second ≤ c.woke := by
  induction turns generalizing now failures with
  | nil =>
    intro c hc
    cases hc
  | cons turn turns ih =>
    intro c hc
    obtain ⟨later, hlater, hrun⟩ := run_cases tz fireAt config now failures turn turns
    have hpos := duration_pos tz fireAt now
    have hwoke : now+durationUntilNextFire tz fireAt now*second ≤ wakes tz fireAt now turn := by
      unfold wakes
      omega
    have hforward : now ≤ wakes tz fireAt now turn+turn.took := by
      unfold second at hwoke
      omega
    have hrest : c ∈ later → now ≤ c.asked ∧
        c.asked+durationUntilNextFire tz fireAt c.asked*second ≤ c.woke := by
      intro hin
      rcases hlater with rfl | ⟨f, rfl⟩
      · cases hin
      · obtain ⟨hasked, hslept⟩ := ih _ f c hin
        exact ⟨le_trans hforward hasked, hslept⟩
    rcases hrun with heq | heq
    · exact hrest (heq ▸ hc)
    · rw [heq] at hc
      rcases List.mem_cons.mp hc with rfl | hin
      · exact ⟨le_refl _, hwoke⟩
      · exact hrest hin

/-- One check is over before the sleep to another begins. -/
theorem run_ordered (turns : List Turn) (now : ℤ) (failures : ℕ) :
    (run tz fireAt config now failures turns).Pairwise (fun c c' => c.woke ≤ c'.asked) := by
  induction turns generalizing now failures with
  | nil => exact List.Pairwise.nil
  | cons turn turns ih =>
    obtain ⟨later, hlater, hrun⟩ := run_cases tz fireAt config now failures turn turns
    have hpairs : later.Pairwise (fun c c' => c.woke ≤ c'.asked) := by
      rcases hlater with rfl | ⟨f, rfl⟩
      · exact List.Pairwise.nil
      · exact ih _ f
    rcases hrun with heq | heq
    · rw [heq]
      exact hpairs
    · rw [heq]
      refine List.Pairwise.cons ?_ hpairs
      intro c hc
      rcases hlater with rfl | ⟨f, rfl⟩
      · cases hc
      · have hasked := (run_after tz fireAt config turns _ f c hc).1
        show wakes tz fireAt now turn ≤ c.asked
        omega

def Apart (c c' : Check) : Prop :=
  ∀ t t', Next tz fireAt c.asked t → Uncut c.asked t → Next tz fireAt c'.asked t' →
    tz.date t ≠ tz.date t'

theorem next_local (h : Next tz fireAt now t) :
    IsFirst tz fireAt (tz.date t) t := by
  have hdate : ∀ date, tz.toLocal t = andTime date fireAt → tz.date t = date := by
    intro date hlocal
    have hwithin := fireAt.within
    unfold andTime at hlocal
    unfold Zone.date
    rw [hlocal]
    unfold day hour second at hwithin ⊢
    omega
  rcases h.2 with hfirst | ⟨-, hfirst⟩
  · rwa [hdate _ hfirst.1]
  · rwa [hdate _ hfirst.1]

theorem apart_of_ordered (c c' : Check) (hafter : c.woke ≤ c'.asked)
    (hslept : c.asked+durationUntilNextFire tz fireAt c.asked*second ≤ c.woke) :
    Apart tz fireAt c c' := by
  intro t t' ht huncut ht' hsame
  have hreached := wakes_after tz fireAt c.asked t ht huncut
  have hfirst' := next_local tz fireAt c'.asked t' ht'
  have hfirst := next_local tz fireAt c.asked t ht
  rw [hsame] at hfirst
  have hle := hfirst'.2 t hfirst.1
  have hlater := ht'.1
  omega

/-- The sleep ends at the next first instant of the time of day, less than a
second late and never early where no fraction is cut off; and no two checks of a
run are for the same day. -/
theorem fires_once :
    (∀ now t, Next tz fireAt now t →
      now+durationUntilNextFire tz fireAt now*second < t+second ∧
        (Uncut now t → t ≤ now+durationUntilNextFire tz fireAt now*second)) ∧
      ∀ config now failures turns,
        (run tz fireAt config now failures turns).Pairwise (Apart tz fireAt) := by
  constructor
  · intro now t h
    exact ⟨wakes_before tz fireAt now t h, wakes_after tz fireAt now t h⟩
  · intro config now failures turns
    refine (run_ordered tz fireAt config turns now failures).imp_of_mem ?_
    intro c c' hc _ hafter
    have hslept := (run_after tz fireAt config turns now failures c hc).2
    exact apart_of_ordered tz fireAt c c' hafter hslept

end

/-! ## A clock that is set back -/

def setBack : Zone where
  toLocal t := if t < hour then t+2*hour else t+hour
  fromLocal l :=
    if l-2*hour < hour then
      if hour ≤ l-hour then .ambiguous (l-2*hour) (l-hour) else .single (l-2*hour)
    else .single (l-hour)
  denotes := by
    intro l t
    unfold hour second
    split
    · split
      · simp only [LocalResult.instants, List.mem_cons, List.not_mem_nil, or_false]
        split <;> omega
      · simp only [LocalResult.instants, List.mem_singleton]
        split <;> omega
    · simp only [LocalResult.instants, List.mem_singleton]
      split <;> omega
  ordered := by
    intro l t u h
    unfold hour second at h
    split at h
    · split at h
      · cases h
        omega
      · cases h
    · cases h

def halfPastTwo : NaiveTime := ⟨5*(hour/2), by decide⟩

/-- Sleeps of whole seconds on two days. -/
theorem fires_two_days :
    (day+3*(hour/2) ≤ day+durationUntilNextFire setBack halfPastTwo day*second ∧
      day+durationUntilNextFire setBack halfPastTwo day*second < day+3*(hour/2)+second) ∧
    2*day+3*(hour/2) ≤
        day+2*hour+durationUntilNextFire setBack halfPastTwo (day+2*hour)*second ∧
      day+2*hour+durationUntilNextFire setBack halfPastTwo (day+2*hour)*second <
        2*day+3*(hour/2)+second := by
  have hwakes := (fires_once setBack halfPastTwo).1
  have hdates : setBack.date day = 1 ∧ setBack.date (day+2*hour) = 1 := by decide
  have hfirst : IsFirst setBack halfPastTwo 1 (day+3*(hour/2)) :=
    (isFirst_iff _ _ _ _).mpr (by decide)
  have hone := hwakes day (day+3*(hour/2)) ⟨by decide, .inl (hdates.1 ▸ hfirst)⟩
  have htwo := hwakes (day+2*hour) (2*day+3*(hour/2)) (by
    refine ⟨by decide, .inr ⟨fun u hu => ?_, (isFirst_iff _ _ _ _).mpr (by decide)⟩⟩
    rw [hdates.2, isFirst_iff] at hu
    have hsame := Option.some.inj (((isFirst_iff _ _ _ _).mp hfirst).symm.trans hu)
    rw [← hsame]
    decide)
  exact ⟨⟨hone.2 (.inl (by decide)), hone.1⟩, htwo.2 (.inl (by decide)), htwo.1⟩

/-- When the time of day comes a second time, the sleep goes on to the next day. -/
theorem second_passed_over :
    hour < 3*(hour/2) ∧ setBack.toLocal (3*(hour/2)) = andTime (setBack.date hour) halfPastTwo ∧
      (∀ u, hour < u → setBack.toLocal u = andTime (setBack.date hour) halfPastTwo ∨
        setBack.toLocal u = andTime (setBack.date hour+1) halfPastTwo → 3*(hour/2) ≤ u) ∧
      3*(hour/2)+second ≤ hour+durationUntilNextFire setBack halfPastTwo hour*second := by
  refine ⟨by decide, by decide, ?_, by decide⟩
  intro u hu hlocal
  have htoday : setBack.date hour = 0 := by decide
  rw [htoday] at hlocal
  simp only [setBack, if_neg (not_lt.mpr (le_of_lt hu)), andTime, halfPastTwo] at hlocal
  unfold day hour second at *
  omega

-- a fraction is cut off: a check before the time of day, and another one for the same day
example : run setBack halfPastTwo ⟨3, none, none⟩ (day+3*(hour/2)-3*(second/2)) 0
    [⟨0, .ok, 0⟩, ⟨0, .ok, 0⟩] =
      [⟨day+3*(hour/2)-3*(second/2), day+3*(hour/2)-second/2⟩,
        ⟨day+3*(hour/2)-second/2, day+3*(hour/2)+second/2⟩] := by
  decide

end IronClaw.Heartbeat
