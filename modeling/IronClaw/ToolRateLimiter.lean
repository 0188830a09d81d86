import IronClaw.Lib.Runs
import IronClaw.Lib.Tumbling

/-!
# The rate limiter of the tools

`tools/rate_limiter.rs`. The windows of a user and a tool are reset when a call
finds them expired, and a call is recorded in both of them or in none. Beside
the limiter stand the times of the calls that it recorded.
-/

set_option autoImplicit false

namespace IronClaw.ToolRateLimiter
open Lib.Runs Lib.Tumbling

structure ToolRateLimitConfig where
  requestsPerMinute : UInt32
  requestsPerHour : UInt32
  deriving DecidableEq

inductive LimitType where
  | perMinute
  | perHour
  deriving DecidableEq

def ToolRateLimitConfig.limit (config : ToolRateLimitConfig) : LimitType → ℕ
  | .perMinute => config.requestsPerMinute.toNat
  | .perHour => config.requestsPerHour.toNat

inductive RateLimitResult where
  | allowed (remainingMinute remainingHour : ℕ)
  | limited (retryAfter : ℕ) (limitType : LimitType)
  deriving DecidableEq

def RateLimitResult.isAllowed : RateLimitResult → Bool
  | .allowed _ _ => true
  | .limited _ _ => false

def nanos : ℕ := 1000000000

def LimitType.span : LimitType → ℕ
  | .perMinute => 60*nanos
  | .perHour => 3600*nanos

def subtract (a b : ℕ) : Option ℕ := if b ≤ a then some (a-b) else none

structure WindowState where
  windowStart : ℕ
  count : ℕ
  deriving DecidableEq

namespace WindowState

def new (now : ℕ) : WindowState := ⟨now, 0⟩

def maybeReset (w : WindowState) (now windowDuration : ℕ) : WindowState :=
  if windowDuration ≤ now-w.windowStart then ⟨now, 0⟩ else w

def timeUntilReset (w : WindowState) (now windowDuration : ℕ) : Option ℕ :=
  let elapsed := now-w.windowStart
  if windowDuration ≤ elapsed then some 0 else subtract windowDuration elapsed

def increment (w : WindowState) : Option WindowState :=
  if w.count+1 < 2^32 then some { w with count := w.count+1 } else none

end WindowState

structure ToolRateLimitState where
  minuteWindow : WindowState
  hourWindow : WindowState
  deriving DecidableEq

namespace ToolRateLimitState

def new (now : ℕ) : ToolRateLimitState := ⟨.new now, .new now⟩

def window (s : ToolRateLimitState) : LimitType → WindowState
  | .perMinute => s.minuteWindow
  | .perHour => s.hourWindow

def reset (s : ToolRateLimitState) (now : ℕ) : ToolRateLimitState :=
  ⟨s.minuteWindow.maybeReset now LimitType.perMinute.span,
    s.hourWindow.maybeReset now LimitType.perHour.span⟩

def bump (s : ToolRateLimitState) : ToolRateLimitState :=
  ⟨{ s.minuteWindow with count := s.minuteWindow.count+1 },
    { s.hourWindow with count := s.hourWindow.count+1 }⟩

end ToolRateLimitState

abbrev Key : Type := String × String

abbrev Table : Type := Key → Option ToolRateLimitState

/-- A call of `check_and_record`, or of `check` if it does not record. -/
structure Call where
  key : Key
  config : ToolRateLimitConfig
  record : Bool
  now : ℕ

def found (c : Call) (state : Table) : ToolRateLimitState :=
  ((state c.key).getD (.new c.now)).reset c.now

def settle (c : Call) (s : ToolRateLimitState) : Option (RateLimitResult × ToolRateLimitState) :=
  if c.config.requestsPerMinute.toNat ≤ s.minuteWindow.count then do
    let retryAfter ← s.minuteWindow.timeUntilReset c.now LimitType.perMinute.span
    some (.limited retryAfter .perMinute, s)
  else if c.config.requestsPerHour.toNat ≤ s.hourWindow.count then do
    let retryAfter ← s.hourWindow.timeUntilReset c.now LimitType.perHour.span
    some (.limited retryAfter .perHour, s)
  else do
    let minute ← if c.record then s.minuteWindow.increment else some s.minuteWindow
    let hour ← if c.record then s.hourWindow.increment else some s.hourWindow
    let remainingMinute ← subtract c.config.requestsPerMinute.toNat minute.count
    let remainingHour ← subtract c.config.requestsPerHour.toNat hour.count
    some (.allowed remainingMinute remainingHour, ⟨minute, hour⟩)

/-- `check_internal`; nothing if an operation leaves its type. -/
def checkInternal (c : Call) (state : Table) : Option (RateLimitResult × Table) :=
  (settle c (found c state)).map (fun r => (r.1, Function.update state c.key (some r.2)))

structure Traced where
  state : Table
  recorded : Key → List ℕ

def start : Traced := ⟨fun _ => none, fun _ => []⟩

def answer (c : Call) (t : Traced) : Option RateLimitResult :=
  (checkInternal c t.state).map Prod.fst

def call (c : Call) (t : Traced) : Traced :=
  match checkInternal c t.state with
  | none => t
  | some (result, state) =>
    ⟨state, if c.record && result.isAllowed then
      Function.update t.recorded c.key (c.now::t.recorded c.key) else t.recorded⟩

def answers : List Call → Traced → List (Key × Option RateLimitResult)
  | [], _ => []
  | c::cs, t => (c.key, answer c t)::answers cs (call c t)

theorem span_pos (τ : LimitType) : 0 < τ.span := by
  cases τ <;> decide

theorem timeUntilReset_some (w : WindowState) (now span : ℕ) :
    w.timeUntilReset now span = some (span-(now-w.windowStart)) := by
  unfold WindowState.timeUntilReset subtract
  by_cases h : span ≤ now-w.windowStart
  · rw [if_pos h, Nat.sub_eq_zero_of_le h]
  · rw [if_neg h, if_pos (by omega)]

theorem increment_some (w : WindowState) (limit : UInt32) (h : w.count < limit.toNat) :
    w.increment = some { w with count := w.count+1 } := by
  have hlimit := limit.toNat_lt
  rw [WindowState.increment, if_pos (by omega)]

inductive Settled (c : Call) (s : ToolRateLimitState) : RateLimitResult → ToolRateLimitState → Prop
  | limited (τ : LimitType) : c.config.limit τ ≤ (s.window τ).count →
      Settled c s (.limited (τ.span-(c.now-(s.window τ).windowStart)) τ) s
  | preview (m h : ℕ) : c.record = false → (∀ τ, (s.window τ).count < c.config.limit τ) →
      Settled c s (.allowed m h) s
  | recorded (m h : ℕ) : c.record = true → (∀ τ, (s.window τ).count < c.config.limit τ) →
      Settled c s (.allowed m h) s.bump

theorem settled (c : Call) (s : ToolRateLimitState) :
    ∃ result s', settle c s = some (result, s') ∧ Settled c s result s' := by
  unfold settle
  by_cases hminute : c.config.requestsPerMinute.toNat ≤ s.minuteWindow.count
  · rw [if_pos hminute, timeUntilReset_some]
    exact ⟨_, _, rfl, .limited .perMinute hminute⟩
  · rw [if_neg hminute]
    by_cases hhour : c.config.requestsPerHour.toNat ≤ s.hourWindow.count
    · rw [if_pos hhour, timeUntilReset_some]
      exact ⟨_, _, rfl, .limited .perHour hhour⟩
    · have hroom : ∀ τ, (s.window τ).count < c.config.limit τ := by
        rintro (_ | _)
        · exact Nat.lt_of_not_le hminute
        · exact Nat.lt_of_not_le hhour
      have hm : s.minuteWindow.count < c.config.requestsPerMinute.toNat := hroom .perMinute
      have hh : s.hourWindow.count < c.config.requestsPerHour.toNat := hroom .perHour
      rw [if_neg hhour]
      cases hrecord : c.record with
      | false =>
        simp only [subtract, Bool.false_eq_true, if_false, Option.bind_eq_bind, Option.bind_some,
          if_pos (Nat.le_of_lt hm), if_pos (Nat.le_of_lt hh)]
        exact ⟨_, _, rfl, .preview _ _ hrecord hroom⟩
      | true =>
        simp only [subtract, if_true, increment_some _ _ hm, increment_some _ _ hh,
          Option.bind_eq_bind, Option.bind_some, if_pos (Nat.succ_le_of_lt hm),
          if_pos (Nat.succ_le_of_lt hh)]
        exact ⟨_, _, rfl, .recorded _ _ hrecord hroom⟩

/-- A call as a whole. -/
theorem call_settled (c : Call) (t : Traced) :
    ∃ result s', answer c t = some result ∧ Settled c (found c t.state) result s' ∧
      call c t = ⟨Function.update t.state c.key (some s'),
        if c.record && result.isAllowed then
          Function.update t.recorded c.key (c.now::t.recorded c.key) else t.recorded⟩ := by
  obtain ⟨result, s', hsettle, hsettled⟩ := settled c (found c t.state)
  have hcheck : checkInternal c t.state =
      some (result, Function.update t.state c.key (some s')) := by
    rw [checkInternal, hsettle]
    rfl
  refine ⟨result, s', ?_, hsettled, ?_⟩
  · rw [answer, hcheck]
    rfl
  · rw [call, hcheck]

section Isolation

theorem answer_local (c : Call) (t t' : Traced) (h : t.state c.key = t'.state c.key) :
    answer c t = answer c t' ∧ (call c t).state c.key = (call c t').state c.key := by
  have hfound : found c t.state = found c t'.state := by rw [found, h, found]
  obtain ⟨result, s', hsettle, -⟩ := settled c (found c t.state)
  have hsettle' := hsettle
  rw [hfound] at hsettle'
  constructor
  · simp [answer, checkInternal, hsettle, hsettle']
  · simp [call, checkInternal, hsettle, hsettle']

theorem call_frame (c : Call) (t : Traced) (key : Key) (h : key ≠ c.key) :
    (call c t).state key = t.state key ∧ (call c t).recorded key = t.recorded key := by
  obtain ⟨result, s', -, -, hcall⟩ := call_settled c t
  rw [hcall]
  refine ⟨Function.update_of_ne h _ _, ?_⟩
  dsimp only
  split
  · exact Function.update_of_ne h _ _
  · rfl

/-- The calls of a pair get the results that they get without the others. -/
theorem answers_local (cs : List Call) (t t' : Traced) (key : Key)
    (h : t.state key = t'.state key) :
    (answers cs t).filter (fun r => r.1 = key) = answers (cs.filter (fun c => c.key = key)) t' := by
  induction cs generalizing t t' with
  | nil => rfl
  | cons c cs ih =>
    by_cases hkey : c.key = key
    · subst hkey
      obtain ⟨hanswer, hstate⟩ := answer_local c t t' h
      rw [answers, List.filter_cons_of_pos (by simp), List.filter_cons_of_pos (by simp), answers,
        hanswer, ih _ _ hstate]
    · rw [answers, List.filter_cons_of_neg (by simpa using hkey),
        List.filter_cons_of_neg (by simpa using hkey)]
      apply ih
      rw [(call_frame c t key (Ne.symm hkey)).1, h]

end Isolation

structure Exact (span : ℕ) (w : WindowState) (now : ℕ) (times : List ℕ) : Prop where
  started : w.windowStart ≤ now
  inside : ∀ t ∈ times, t < w.windowStart+span
  counted : w.count = since w.windowStart times

theorem exact_new (span now : ℕ) : Exact span (.new now) now [] :=
  ⟨Nat.le_refl now, by simp, rfl⟩

theorem exact_reset (span : ℕ) (w : WindowState) (last now : ℕ) (times : List ℕ)
    (hspan : 0 < span) (hlast : last ≤ now) (h : Exact span w last times) :
    Exact span (w.maybeReset now span) now times ∧
      now < (w.maybeReset now span).windowStart+span := by
  have hstarted := h.started
  unfold WindowState.maybeReset
  by_cases hexpired : span ≤ now-w.windowStart
  · have hbefore : ∀ t ∈ times, t < now := by
      intro t ht
      have hin := h.inside t ht
      omega
    rw [if_pos hexpired]
    refine ⟨⟨Nat.le_refl now, ?_, (since_later now times hbefore).symm⟩, by simpa using hspan⟩
    intro t ht
    exact Nat.lt_add_right span (hbefore t ht)
  · rw [if_neg hexpired]
    exact ⟨⟨by omega, h.inside, h.counted⟩, by omega⟩

theorem exact_record (span : ℕ) (w : WindowState) (now : ℕ) (times : List ℕ)
    (h : Exact span w now times) (hnow : now < w.windowStart+span) :
    Exact span { w with count := w.count+1 } now (now::times) := by
  refine ⟨h.started, ?_, ?_⟩
  · intro t ht
    rcases List.mem_cons.mp ht with rfl | ht
    · exact hnow
    · exact h.inside t ht
  · show w.count+1 = _
    rw [since_cons _ now times h.started, h.counted]

theorem limit_reset (span limit : ℕ) (w : WindowState) (now : ℕ) (times : List ℕ)
    (hstart : w.windowStart ≤ now) (h : Bounded span limit w.windowStart times) :
    Bounded span limit (w.maybeReset now span).windowStart times := by
  unfold WindowState.maybeReset
  split
  · exact (bounded_reset span limit w.windowStart now times h (by omega)).1
  · exact h

section Pairs

def Sound (now : ℕ) (t : Traced) (key : Key) : Prop :=
  (t.state key = none → t.recorded key = []) ∧
    ∀ s, t.state key = some s → ∀ τ : LimitType, Exact τ.span (s.window τ) now (t.recorded key)

def Kept (config : ToolRateLimitConfig) (t : Traced) (key : Key) : Prop :=
  ∀ s, t.state key = some s → ∀ τ : LimitType,
    Bounded τ.span (config.limit τ) (s.window τ).windowStart (t.recorded key)

theorem reset_window (s : ToolRateLimitState) (now : ℕ) (τ : LimitType) :
    (s.reset now).window τ = (s.window τ).maybeReset now τ.span := by
  cases τ <;> rfl

theorem bump_window (s : ToolRateLimitState) (τ : LimitType) :
    s.bump.window τ = { s.window τ with count := (s.window τ).count+1 } := by
  cases τ <;> rfl

variable (c : Call) (config : ToolRateLimitConfig) (last : ℕ) (t : Traced) (key : Key)

theorem found_exact (hlast : last ≤ c.now) (h : Sound last t c.key) (τ : LimitType) :
    Exact τ.span ((found c t.state).window τ) c.now (t.recorded c.key) ∧
      c.now < ((found c t.state).window τ).windowStart+τ.span := by
  rw [found, reset_window]
  cases hstate : t.state c.key with
  | none =>
    rw [h.1 hstate]
    have hnew : Exact τ.span (WindowState.new c.now) c.now [] := exact_new τ.span c.now
    cases τ <;> exact exact_reset _ _ _ _ _ (span_pos _) (Nat.le_refl _) hnew
  | some s => exact exact_reset _ _ _ _ _ (span_pos τ) hlast (h.2 s hstate τ)

theorem found_kept (hlast : last ≤ c.now) (h : Sound last t c.key) (hkept : Kept config t c.key)
    (τ : LimitType) :
    Bounded τ.span (config.limit τ) ((found c t.state).window τ).windowStart
      (t.recorded c.key) := by
  rw [found, reset_window]
  cases hstate : t.state c.key with
  | none =>
    rw [h.1 hstate]
    exact bounded_nil _ _ _
  | some s =>
    have hstarted := Nat.le_trans (h.2 s hstate τ).started hlast
    exact limit_reset _ _ _ _ _ hstarted (hkept s hstate τ)

theorem sound_call (hlast : last ≤ c.now) (h : Sound last t c.key) :
    Sound c.now (call c t) c.key := by
  have hfound := found_exact c last t hlast h
  obtain ⟨result, s', -, hsettled, hcall⟩ := call_settled c t
  rw [hcall]
  refine ⟨fun hnone => by simp at hnone, ?_⟩
  rintro s hs τ
  simp only [Function.update_self, Option.some.injEq] at hs
  subst hs
  cases hsettled with
  | limited τ' hfull => simpa [RateLimitResult.isAllowed] using (hfound τ).1
  | preview m k hrecord hroom => simpa [hrecord] using (hfound τ).1
  | recorded m k hrecord hroom =>
    obtain ⟨hexact, hnow⟩ := hfound τ
    have hnext := exact_record _ _ _ _ hexact hnow
    simpa [hrecord, RateLimitResult.isAllowed, bump_window] using hnext

theorem kept_call (hlast : last ≤ c.now) (h : Sound last t c.key) (hkept : Kept c.config t c.key) :
    Kept c.config (call c t) c.key := by
  have hbounded := found_kept c c.config last t hlast h hkept
  have hfound := found_exact c last t hlast h
  obtain ⟨result, s', -, hsettled, hcall⟩ := call_settled c t
  rw [hcall]
  rintro s hs τ
  simp only [Function.update_self, Option.some.injEq] at hs
  subst hs
  cases hsettled with
  | limited τ' hfull => simpa [RateLimitResult.isAllowed] using hbounded τ
  | preview m k hrecord hroom => simpa [hrecord] using hbounded τ
  | recorded m k hrecord hroom =>
    obtain ⟨hexact, hnow⟩ := hfound τ
    have hroom' := hroom τ
    rw [hexact.counted] at hroom'
    have hnext := bounded_record _ _ _ _ _ (hbounded τ) hexact.started hnow hroom'
    simpa [hrecord, RateLimitResult.isAllowed, bump_window] using hnext

theorem sound_frame (hkey : key ≠ c.key) (hlast : last ≤ c.now) (h : Sound last t key) :
    Sound c.now (call c t) key := by
  obtain ⟨hstate, hrecorded⟩ := call_frame c t key hkey
  rw [Sound, hstate, hrecorded]
  refine ⟨h.1, ?_⟩
  intro s hs τ
  have hexact := h.2 s hs τ
  exact ⟨Nat.le_trans hexact.started hlast, hexact.inside, hexact.counted⟩

theorem kept_frame (hkey : key ≠ c.key) (h : Kept config t key) : Kept config (call c t) key := by
  obtain ⟨hstate, hrecorded⟩ := call_frame c t key hkey
  rwa [Kept, hstate, hrecorded]

theorem sound_step (hlast : last ≤ c.now) (h : Sound last t key) : Sound c.now (call c t) key := by
  by_cases hkey : key = c.key
  · subst hkey
    exact sound_call c last t hlast h
  · exact sound_frame c last t key hkey hlast h

theorem kept_step (hlast : last ≤ c.now) (h : Sound last t key) (hkept : Kept config t key)
    (hconfig : c.key = key → c.config = config) : Kept config (call c t) key := by
  by_cases hkey : key = c.key
  · subst hkey
    rw [← hconfig rfl] at hkept ⊢
    exact kept_call c last t hlast h hkept
  · exact kept_frame c config t key hkey hkept

end Pairs

def Timed (last : ℕ) : List Call → Prop
  | [] => True
  | c::cs => last ≤ c.now ∧ Timed c.now cs

def lastTime (last : ℕ) (cs : List Call) : ℕ := (cs.getLast?.map Call.now).getD last

theorem lastTime_cons (last : ℕ) (c : Call) (cs : List Call) :
    lastTime last (c::cs) = lastTime c.now cs := by
  cases cs with
  | nil => rfl
  | cons c' cs =>
    have hlast := List.getLast?_eq_some_getLast (List.cons_ne_nil c' cs)
    simp only [lastTime, List.getLast?_cons_cons, hlast, Option.map_some, Option.getD_some]

theorem sound_run (cs : List Call) (last : ℕ) (t : Traced) (key : Key) (htimed : Timed last cs)
    (h : Sound last t key) : Sound (lastTime last cs) (run call cs t) key := by
  induction cs generalizing last t with
  | nil => exact h
  | cons c cs ih =>
    rw [lastTime_cons]
    exact ih c.now _ htimed.2 (sound_step c last t key htimed.1 h)

theorem kept_run (cs : List Call) (config : ToolRateLimitConfig) (last : ℕ) (t : Traced)
    (key : Key) (htimed : Timed last cs) (h : Sound last t key) (hkept : Kept config t key)
    (hconfig : ∀ c ∈ cs, c.key = key → c.config = config) :
    Kept config (run call cs t) key := by
  induction cs generalizing last t with
  | nil => exact hkept
  | cons c cs ih =>
    exact ih c.now _ htimed.2 (sound_step c last t key htimed.1 h)
      (kept_step c config last t key htimed.1 h hkept (hconfig c List.mem_cons_self))
      (fun c' hc' => hconfig c' (List.mem_cons_of_mem c hc'))

theorem sound_start (key : Key) : Sound 0 start key :=
  ⟨fun _ => rfl, fun _ hs => by cases hs⟩

theorem kept_start (config : ToolRateLimitConfig) (key : Key) : Kept config start key :=
  fun _ hs => by cases hs

/-- A call that is denied or a preview only resets the windows of its pair. -/
theorem unrecorded (c : Call) (t : Traced)
    (h : c.record = false ∨ ∃ r τ, answer c t = some (.limited r τ)) :
    (call c t).recorded = t.recorded ∧ (call c t).state c.key = some (found c t.state) := by
  obtain ⟨result, s', hanswer, hsettled, hcall⟩ := call_settled c t
  rw [hcall]
  cases hsettled with
  | limited τ hfull => simp [RateLimitResult.isAllowed]
  | preview m k hrecord hroom => simp [hrecord]
  | recorded m k hrecord hroom =>
    rcases h with h | ⟨r, τ, h⟩
    · rw [hrecord] at h
      cases h
    · rw [hanswer] at h
      cases h

section Waiting

def Waiting (τ : LimitType) (deadline : ℕ) (key : Key) (t : Traced) : Prop :=
  ∃ s, t.state key = some s ∧
    ((s.window τ).count = 0 ∨ (s.window τ).windowStart+τ.span ≤ deadline)

theorem reset_waiting (w : WindowState) (now span deadline : ℕ)
    (h : w.count = 0 ∨ w.windowStart+span ≤ deadline) :
    (w.maybeReset now span).count = 0 ∨ (w.maybeReset now span).windowStart+span ≤ deadline := by
  unfold WindowState.maybeReset
  split
  · exact Or.inl rfl
  · exact h

theorem reset_empty (w : WindowState) (now span deadline : ℕ) (hnow : deadline ≤ now)
    (h : w.count = 0 ∨ w.windowStart+span ≤ deadline) : (w.maybeReset now span).count = 0 := by
  unfold WindowState.maybeReset
  split
  · rfl
  · rcases h with h | h
    · exact h
    · omega

theorem limited_waiting (c : Call) (last : ℕ) (t : Traced) (hlast : last ≤ c.now)
    (h : Sound last t c.key) (r : ℕ) (τ : LimitType) (hlimited : answer c t = some (.limited r τ)) :
    Waiting τ (c.now+r) c.key (call c t) := by
  have hstate := (unrecorded c t (Or.inr ⟨r, τ, hlimited⟩)).2
  refine ⟨found c t.state, hstate, Or.inr ?_⟩
  obtain ⟨hexact, hnow⟩ := found_exact c last t hlast h τ
  have hstarted := hexact.started
  obtain ⟨result, s', hanswer, hsettled, -⟩ := call_settled c t
  rw [hanswer] at hlimited
  cases hlimited
  cases hsettled
  omega

theorem waiting_step (c : Call) (t : Traced) (τ : LimitType) (deadline : ℕ) (key : Key)
    (h : Waiting τ deadline key t) (hquiet : (call c t).recorded key = t.recorded key) :
    Waiting τ deadline key (call c t) := by
  by_cases hkey : key = c.key
  · subst hkey
    obtain ⟨s, hs, hwait⟩ := h
    have hsame : c.record = false ∨ ∃ r τ, answer c t = some (.limited r τ) := by
      obtain ⟨result, s', hanswer, hsettled, hcall⟩ := call_settled c t
      cases hsettled with
      | limited τ' hfull => exact Or.inr ⟨_, τ', hanswer⟩
      | preview m k hrecord hroom => exact Or.inl hrecord
      | recorded m k hrecord hroom =>
        rw [hcall] at hquiet
        simp [hrecord, RateLimitResult.isAllowed] at hquiet
    refine ⟨found c t.state, (unrecorded c t hsame).2, ?_⟩
    rw [found, reset_window, hs]
    exact reset_waiting _ c.now _ deadline hwait
  · obtain ⟨s, hs, hwait⟩ := h
    exact ⟨s, by rw [(call_frame c t key hkey).1, hs], hwait⟩

/-- After the wait the limit that was reported does not deny, unless it lets
nothing through. -/
theorem waiting_over (c : Call) (t : Traced) (τ : LimitType) (deadline : ℕ)
    (h : Waiting τ deadline c.key t) (hnow : deadline ≤ c.now) (hlimit : 0 < c.config.limit τ)
    (r : ℕ) : answer c t ≠ some (.limited r τ) := by
  obtain ⟨s, hs, hwait⟩ := h
  intro hlimited
  obtain ⟨result, s', hanswer, hsettled, -⟩ := call_settled c t
  rw [hanswer] at hlimited
  cases hlimited
  cases hsettled with
  | limited _ hfull =>
    have hempty := reset_empty (s.window τ) c.now τ.span deadline hnow hwait
    rw [found, reset_window, hs, Option.getD_some, hempty] at hfull
    omega

end Waiting

theorem timed_append (cs ds : List Call) (last : ℕ) :
    Timed last (cs++ds) ↔ Timed last cs ∧ Timed (lastTime last cs) ds := by
  induction cs generalizing last with
  | nil => simp [Timed, lastTime]
  | cons c cs ih => simp only [List.cons_append, Timed, ih, lastTime_cons, and_assoc]

/-- The laws of the limiter. No operation leaves its type. The calls of a pair
get the results that they get alone. The windows of a pair count what was
recorded for it, and a denied call or a preview only resets them. With a fixed
configuration an interval as long as a window has at most twice the limit of
recorded calls, and a window no more than the limit. Who waits as long as the
result says, and records nothing meanwhile, is not denied by the same limit
again unless that limit lets nothing through. -/
theorem limiter_laws :
    (∀ (c : Call) (state : Table), (checkInternal c state).isSome = true) ∧
    (∀ (cs : List Call) (key : Key), (answers cs start).filter (fun r => r.1 = key) =
      answers (cs.filter (fun c => c.key = key)) start) ∧
    (∀ (cs : List Call) (key : Key) (s : ToolRateLimitState), Timed 0 cs →
      (run call cs start).state key = some s → ∀ τ : LimitType, (s.window τ).count =
        since (s.window τ).windowStart ((run call cs start).recorded key)) ∧
    (∀ (c : Call) (t : Traced), (c.record = false ∨ ∃ r τ, answer c t = some (.limited r τ)) →
      (call c t).recorded = t.recorded ∧ (call c t).state c.key = some (found c t.state)) ∧
    (∀ (cs : List Call) (key : Key) (config : ToolRateLimitConfig), Timed 0 cs →
      (∀ c ∈ cs, c.key = key → c.config = config) → ∀ τ : LimitType,
        (∀ a, within a (a+τ.span) ((run call cs start).recorded key) ≤ 2*config.limit τ) ∧
        ∀ s, (run call cs start).state key = some s →
          since (s.window τ).windowStart ((run call cs start).recorded key) ≤ config.limit τ) ∧
    ∀ (cs more : List Call) (c c' : Call) (r : ℕ) (τ : LimitType),
      Timed 0 (cs++c::(more++[c'])) → answer c (run call cs start) = some (.limited r τ) →
      Along call (fun d t => (call d t).recorded c.key = t.recorded c.key) more
        (call c (run call cs start)) →
      c'.key = c.key → c.now+r ≤ c'.now → 0 < c'.config.limit τ →
      ∀ r', answer c' (run call more (call c (run call cs start))) ≠ some (.limited r' τ) := by
  refine ⟨?_, fun cs key => answers_local cs start start key rfl, ?_, unrecorded, ?_, ?_⟩
  · intro c state
    obtain ⟨result, s', hsettle, -⟩ := settled c (found c state)
    simp [checkInternal, hsettle]
  · intro cs key s htimed hs τ
    exact ((sound_run cs 0 start key htimed (sound_start key)).2 s hs τ).counted
  · intro cs key config htimed hconfig τ
    have hsound := sound_run cs 0 start key htimed (sound_start key)
    have hkept := kept_run cs config 0 start key htimed (sound_start key) (kept_start config key)
      hconfig
    refine ⟨fun a => ?_, fun s hs => (hkept s hs τ).current⟩
    cases hstate : (run call cs start).state key with
    | none =>
      rw [hsound.1 hstate]
      exact Nat.zero_le _
    | some s => exact (hkept s hstate τ).anywhere a
  · intro cs more c c' r τ htimed hlimited hquiet hkey hnow hlimit r'
    rw [timed_append] at htimed
    have hsound := sound_run cs 0 start c.key htimed.1 (sound_start c.key)
    have hwaiting := limited_waiting c _ _ htimed.2.1 hsound r τ hlimited
    have hlater := guarded_invariant call _ (Waiting τ (c.now+r) c.key)
      (fun d t hw hq => waiting_step d t τ (c.now+r) c.key hw hq) more _ hquiet hwaiting
    rw [← hkey] at hlater
    exact waiting_over c' _ τ (c.now+r) hlater hnow hlimit r'

def shell : Key := ("alice", "shell")

def once (now : ℕ) : Call := ⟨shell, ⟨1, 10⟩, true, now⟩

/-- One call a minute: the second is denied, and not when it is made again a
minute after the first. -/
theorem limiter_laws_waited :
    answer (once 1) (run call [once 0] start) = some (.limited (60*nanos-1) .perMinute) ∧
      ∀ r', answer (once (60*nanos)) (run call [] (call (once 1) (run call [once 0] start))) ≠
        some (.limited r' .perMinute) :=
  ⟨by decide, limiter_laws.2.2.2.2.2 [once 0] [] (once 1) (once (60*nanos)) (60*nanos-1) .perMinute
    (by simp [Timed, once, nanos]) (by decide) trivial rfl (by decide) (by decide)⟩

def never (now : ℕ) : Call := ⟨shell, ⟨0, 10⟩, true, now⟩

/-- A limit of no calls denies however long one waits. -/
theorem zero_denies : ¬ ∀ (c c' : Call) (r : ℕ) (τ : LimitType), c'.key = c.key →
    c'.config = c.config → answer c start = some (.limited r τ) → c.now+r ≤ c'.now →
    ∀ r', answer c' (call c start) ≠ some (.limited r' τ) := by
  intro h
  exact h (never 0) (never (60*nanos)) (60*nanos) .perMinute rfl rfl (by decide) (by decide)
    (60*nanos) (by decide)

end IronClaw.ToolRateLimiter
