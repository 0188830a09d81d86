import IronClaw.Lib.Runs
import IronClaw.Lib.Tumbling

/-!
# The emit limiter of a channel

`ChannelEmitRateLimiter` of `channels/wasm/host.rs` asks its two windows one
after the other and lets a call through when both do. A window charges every
call that it lets through itself, also one that the other window denies. The
times of the calls that were let through are kept beside the limiter.
-/

set_option autoImplicit false

namespace IronClaw.EmitLimiter
open Lib.Runs Lib.Tumbling

structure EmitRateLimitConfig where
  messagesPerMinute : ℕ
  messagesPerHour : ℕ
  deriving DecidableEq

structure RateWindow where
  count : ℕ
  windowStart : ℕ
  windowDurationMs : ℕ
  deriving DecidableEq

def RateWindow.new (durationMs : ℕ) : RateWindow := ⟨0, 0, durationMs⟩

def RateWindow.reset (w : RateWindow) (nowMs : ℕ) : RateWindow :=
  if w.windowDurationMs < nowMs-w.windowStart then { w with count := 0, windowStart := nowMs }
  else w

def RateWindow.checkAndRecord (w : RateWindow) (nowMs limit : ℕ) : RateWindow × Bool :=
  let w := w.reset nowMs
  if limit ≤ w.count then (w, false) else ({ w with count := w.count+1 }, true)

structure ChannelEmitRateLimiter where
  config : EmitRateLimitConfig
  minuteWindow : RateWindow
  hourWindow : RateWindow
  deriving DecidableEq

def ChannelEmitRateLimiter.new (config : EmitRateLimitConfig) : ChannelEmitRateLimiter :=
  ⟨config, RateWindow.new 60000, RateWindow.new 3600000⟩

def ChannelEmitRateLimiter.checkAndRecord (l : ChannelEmitRateLimiter) (now : ℕ) :
    ChannelEmitRateLimiter × Bool :=
  let minute := l.minuteWindow.checkAndRecord now l.config.messagesPerMinute
  let hour := l.hourWindow.checkAndRecord now l.config.messagesPerHour
  ({ l with minuteWindow := minute.1, hourWindow := hour.1 }, minute.2 && hour.2)

structure Traced where
  limiter : ChannelEmitRateLimiter
  allowed : List ℕ

def start (config : EmitRateLimitConfig) : Traced := ⟨.new config, []⟩

def call (now : ℕ) (t : Traced) : Traced :=
  ⟨(t.limiter.checkAndRecord now).1,
    if (t.limiter.checkAndRecord now).2 then now::t.allowed else t.allowed⟩

def Reached (w : RateWindow) (limit : ℕ) (allowed : List ℕ) : Prop :=
  limit ≤ since w.windowStart allowed

instance (w : RateWindow) (limit : ℕ) (allowed : List ℕ) : Decidable (Reached w limit allowed) :=
  inferInstanceAs (Decidable (_ ≤ _))

def Fair (now : ℕ) (t : Traced) : Prop :=
  (t.limiter.checkAndRecord now).2 = false →
    (Reached (t.limiter.minuteWindow.reset now) t.limiter.config.messagesPerMinute t.allowed ∨
      Reached (t.limiter.hourWindow.reset now) t.limiter.config.messagesPerHour t.allowed) ∧
    (t.limiter.checkAndRecord now).1.minuteWindow = t.limiter.minuteWindow.reset now ∧
    (t.limiter.checkAndRecord now).1.hourWindow = t.limiter.hourWindow.reset now

instance (now : ℕ) (t : Traced) : Decidable (Fair now t) := inferInstanceAs (Decidable (_ → _))

def Agreed (now : ℕ) (t : Traced) : Prop :=
  t.limiter.config.messagesPerMinute ≤ (t.limiter.minuteWindow.reset now).count ↔
    t.limiter.config.messagesPerHour ≤ (t.limiter.hourWindow.reset now).count

instance (now : ℕ) (t : Traced) : Decidable (Agreed now t) := inferInstanceAs (Decidable (_ ↔ _))

structure Charged (w : RateWindow) (now : ℕ) (allowed : List ℕ) : Prop where
  started : w.windowStart ≤ now
  within : ∀ t ∈ allowed, t ≤ w.windowStart+w.windowDurationMs
  counted : w.count = since w.windowStart allowed

variable (w : RateWindow) (now limit : ℕ)

/-- A reset window has charged nothing, and nothing was let through in it. -/
theorem charged_reset (last now : ℕ) (allowed : List ℕ) (hlast : last ≤ now)
    (h : Charged w last allowed) :
    Charged (w.reset now) now allowed ∧ now ≤ (w.reset now).windowStart+w.windowDurationMs := by
  unfold RateWindow.reset
  by_cases hexpired : w.windowDurationMs < now-w.windowStart
  · have hbefore : ∀ t ∈ allowed, t < now := by
      intro t ht
      have hin := h.within t ht
      omega
    rw [if_pos hexpired]
    refine ⟨⟨Nat.le_refl now, ?_, (since_later now allowed hbefore).symm⟩, by simp⟩
    intro t ht
    exact Nat.le_add_right_of_le (Nat.le_of_lt (hbefore t ht))
  · rw [if_neg hexpired]
    have hstarted := h.started
    exact ⟨⟨by omega, h.within, h.counted⟩, by omega⟩

theorem reset_duration (now : ℕ) :
    (w.reset now).windowDurationMs = w.windowDurationMs := by
  unfold RateWindow.reset
  split <;> rfl

/-- A window that charges a call which is let through stays exact. -/
theorem charged_recorded (last now limit : ℕ) (allowed : List ℕ) (hlast : last ≤ now)
    (h : Charged w last allowed) (hok : (w.checkAndRecord now limit).2 = true) :
    Charged (w.checkAndRecord now limit).1 now (now::allowed) := by
  obtain ⟨hreset, hend⟩ := charged_reset w last now allowed hlast h
  unfold RateWindow.checkAndRecord at hok ⊢
  by_cases hfull : limit ≤ (w.reset now).count
  · simp only [if_pos hfull] at hok
    cases hok
  · simp only [if_neg hfull]
    refine ⟨hreset.started, ?_, ?_⟩
    · intro t ht
      rcases List.mem_cons.mp ht with rfl | ht
      · simpa only [reset_duration] using hend
      · exact hreset.within t ht
    · show (w.reset now).count+1 = _
      rw [since_cons _ now allowed hreset.started, hreset.counted]

theorem denied_reset (hdenied : (w.checkAndRecord now limit).2 = false) :
    (w.checkAndRecord now limit).1 = w.reset now := by
  unfold RateWindow.checkAndRecord at hdenied ⊢
  by_cases hfull : limit ≤ (w.reset now).count
  · simp only [if_pos hfull]
  · simp only [if_neg hfull] at hdenied
    cases hdenied

theorem denied_iff :
    (w.checkAndRecord now limit).2 = false ↔ limit ≤ (w.reset now).count := by
  unfold RateWindow.checkAndRecord
  by_cases hfull : limit ≤ (w.reset now).count
  · simp [hfull]
  · simp [hfull]

theorem allowed_charges (hok : (w.checkAndRecord now limit).2 = true) :
    (w.checkAndRecord now limit).1 ≠ w.reset now := by
  unfold RateWindow.checkAndRecord at hok ⊢
  by_cases hfull : limit ≤ (w.reset now).count
  · simp only [if_pos hfull] at hok
    cases hok
  · simp only [if_neg hfull]
    intro heq
    have hcount := congrArg RateWindow.count heq
    simp at hcount

def Exact (now : ℕ) (t : Traced) : Prop :=
  Charged t.limiter.minuteWindow now t.allowed ∧ Charged t.limiter.hourWindow now t.allowed

theorem exact_start (config : EmitRateLimitConfig) : Exact 0 (start config) :=
  ⟨⟨Nat.le_refl 0, by simp [start], rfl⟩, ⟨Nat.le_refl 0, by simp [start], rfl⟩⟩

/-- A call at which the windows agree leaves them exact. -/
theorem exact_call (last now : ℕ) (t : Traced) (hlast : last ≤ now) (h : Exact last t)
    (hagreed : Agreed now t) : Exact now (call now t) := by
  have hsame : (t.limiter.minuteWindow.checkAndRecord now t.limiter.config.messagesPerMinute).2 =
      (t.limiter.hourWindow.checkAndRecord now t.limiter.config.messagesPerHour).2 := by
    rw [Bool.eq_iff_iff, ← not_iff_not, Bool.not_eq_true, Bool.not_eq_true, denied_iff, denied_iff]
    exact hagreed
  unfold call ChannelEmitRateLimiter.checkAndRecord
  cases hhour : (t.limiter.hourWindow.checkAndRecord now t.limiter.config.messagesPerHour).2 with
  | true =>
    rw [hhour] at hsame
    simp only [hsame, hhour, Bool.and_self, if_true]
    exact ⟨charged_recorded _ last now _ _ hlast h.1 hsame,
      charged_recorded _ last now _ _ hlast h.2 hhour⟩
  | false =>
    rw [hhour] at hsame
    simp only [hsame, hhour, Bool.and_self, Bool.false_eq_true, if_false, Exact,
      denied_reset _ now _ hsame, denied_reset _ now _ hhour]
    exact ⟨(charged_reset _ last now _ hlast h.1).1, (charged_reset _ last now _ hlast h.2).1⟩

/-- With exact windows a call is fair exactly if the windows agree. -/
theorem fair_iff (last now : ℕ) (t : Traced) (hlast : last ≤ now) (h : Exact last t) :
    Fair now t ↔ Agreed now t := by
  have hminute := denied_iff t.limiter.minuteWindow now t.limiter.config.messagesPerMinute
  have hhour := denied_iff t.limiter.hourWindow now t.limiter.config.messagesPerHour
  have hcounted := (charged_reset _ last now _ hlast h.1).1.counted
  unfold Fair Agreed
  rw [← hminute, ← hhour]
  constructor
  · intro hfair
    constructor
    · intro hm
      by_contra hh
      obtain ⟨-, -, hcharged⟩ := hfair (by simp [ChannelEmitRateLimiter.checkAndRecord, hm])
      exact allowed_charges _ now _ (by simpa using hh) hcharged
    · intro hh
      by_contra hm
      obtain ⟨-, hcharged, -⟩ := hfair (by simp [ChannelEmitRateLimiter.checkAndRecord, hh])
      exact allowed_charges _ now _ (by simpa using hm) hcharged
  · intro hagreed hdenied
    have hm : (t.limiter.minuteWindow.checkAndRecord now
        t.limiter.config.messagesPerMinute).2 = false := by
      rcases Bool.and_eq_false_iff.mp hdenied with hm | hh
      · exact hm
      · exact hagreed.mpr hh
    refine ⟨Or.inl ?_, denied_reset _ now _ hm, denied_reset _ now _ (hagreed.mp hm)⟩
    rw [Reached, ← hcounted]
    exact hminute.mp hm

theorem fair_run (times : List ℕ) (last : ℕ) (t : Traced) (h : Exact last t)
    (hlast : ∀ now ∈ times, last ≤ now) (hsorted : times.Pairwise (· ≤ ·)) :
    Along call Fair times t ↔ Along call Agreed times t := by
  induction times generalizing last t with
  | nil => exact Iff.rfl
  | cons now times ih =>
    obtain ⟨hnow, hrest⟩ := List.pairwise_cons.mp hsorted
    have hle := hlast now List.mem_cons_self
    have hfirst := fair_iff last now t hle h
    constructor
    · rintro ⟨hfair, hlater⟩
      have hagreed := hfirst.mp hfair
      exact ⟨hagreed, (ih now _ (exact_call last now t hle h hagreed) hnow hrest).mp hlater⟩
    · rintro ⟨hagreed, hlater⟩
      exact ⟨hfirst.mpr hagreed,
        (ih now _ (exact_call last now t hle h hagreed) hnow hrest).mpr hlater⟩

/-- The calls of a run are all fair exactly if at no call one window is full
and the other is not. -/
theorem emits_fair (config : EmitRateLimitConfig) (times : List ℕ)
    (hsorted : times.Pairwise (· ≤ ·)) :
    Along call Fair times (start config) ↔ Along call Agreed times (start config) :=
  fair_run times 0 (start config) (exact_start config) (fun _ _ => Nat.zero_le _) hsorted

/-- Both windows are full at the second call. -/
theorem emits_fair_together : Along call Fair [1700000000000, 1700000000000] (start ⟨1, 1⟩) :=
  (emits_fair ⟨1, 1⟩ [1700000000000, 1700000000000] (by decide)).mpr (by decide)

/-- The second call is denied by the minute and charged to the hour, and the
third is denied although one call was let through in its hour, of two. -/
theorem hour_charged : ¬ Along call
    (fun now t => (t.limiter.checkAndRecord now).2 = false →
      Reached (t.limiter.minuteWindow.reset now) t.limiter.config.messagesPerMinute t.allowed ∨
        Reached (t.limiter.hourWindow.reset now) t.limiter.config.messagesPerHour t.allowed)
    [1700000000000, 1700000000000, 1700000060001] (start ⟨1, 2⟩) := by
  decide

end IronClaw.EmitLimiter
