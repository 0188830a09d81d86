import IronClaw.CodexSession

/-!
# Renewals and calls of the Codex provider

Whatever the order of the steps, a refresh token is only sent while it is the
one of the session, and only when that session was found due. So callers that
wait for the same renewal ask the server once. A call tries the provider at
most twice, with tokens of sessions.
-/

set_option autoImplicit false

namespace IronClaw.CodexCalls
open Lib.Tasks Lib.Runs
open IronClaw.CircuitBreaker (LlmError)
open IronClaw.Hygiene (DateTime second)
open IronClaw.CodexSession

def current (initial : Option OpenAiCodexSession) : List Renewal → Option OpenAiCodexSession
  | [] => initial
  | .renewed s::_ => some s
  | .refresh _ _::rest | .login::rest => current initial rest

def Known (initial : Option OpenAiCodexSession) (given : String) (renewals : List Renewal)
    (token : String) : Prop :=
  token = given ∨ (∃ s ∈ initial, token = s.accessToken) ∨
    ∃ s, .renewed s ∈ renewals ∧ token = s.accessToken

def Orderly (margin : UInt64) (initial : Option OpenAiCodexSession) : List Renewal → Prop
  | [] => True
  | .refresh token foundDue::rest =>
    (∃ s, current initial rest = some s ∧ token = s.refreshToken ∧
      due margin foundDue (some s) = some true) ∧ Orderly margin initial rest
  | .renewed _::rest | .login::rest => Orderly margin initial rest

section

variable {Response α β : Type} (margin : UInt64) (crates : Crates)
  (initial : Option OpenAiCodexSession) (given : String) (inputs : ℕ → Input Response → Prop)

structure Invariant (s : Shared Response) : Prop where
  session : s.session = current initial s.renewals
  orderly : Orderly margin initial s.renewals
  auth : Known initial given s.renewals s.auth.token
  attempts : ∀ a ∈ s.attempts, Known initial given s.renewals a.2.1

def mine (call : ℕ) (s : Shared Response) : List (String × Except LlmError Response) :=
  (s.attempts.filter (fun a => a.1 = call)).map Prod.snd

def Kept (call : ℕ) (s t : Shared Response) : Prop :=
  s.renewing = some call →
    t.renewing = some call ∧ t.session = s.session ∧ t.renewals = s.renewals

def protocol : Protocol ℕ (Shared Response) (Input Response) where
  inv := Invariant margin initial given
  allowed i e _ := inputs i e
  mayPanic := True
  guar i s t := s.renewals <:+ t.renewals ∧ ∀ j, j ≠ i → mine j t = mine j s ∧ Kept j s t
  rely i s t := s.renewals <:+ t.renewals ∧ mine i t = mine i s ∧ Kept i s t
  idle i s := mine i s = []
  rely_refl _ _ := ⟨List.suffix_refl _, rfl, fun h => ⟨h, rfl, rfl⟩⟩
  rely_trans i s t u hst htu := by
    refine ⟨hst.1.trans htu.1, htu.2.1.trans hst.2.1, fun h => ?_⟩
    obtain ⟨ht, hsession, hrenewals⟩ := hst.2.2 h
    obtain ⟨hu, hsession', hrenewals'⟩ := htu.2.2 ht
    exact ⟨hu, hsession'.trans hsession, hrenewals'.trans hrenewals⟩
  guar_rely i _ _ _ hij h := ⟨h.1, h.2 i hij⟩
  idle_rely _ _ _ hs h := h.2.1.trans hs

inductive RenewalError (i : ℕ) (renewals : List Renewal) : LlmError → Prop where
  | unready (older : List Renewal) (past : older <:+ renewals)
      (empty : ∀ s, current initial older = some s → s.refreshToken = "") :
      RenewalError i renewals authFailed
  | refresh (input : Input Response) (taken : inputs i input) (e : LlmError)
      (failed : input.tokens.read "Token refresh request" "Token refresh" "refresh response" =
        .error e) : RenewalError i renewals e
  | login (input : Input Response) (taken : inputs i input) (e : LlmError)
      (failed : input.flow.login input.now = .error e) : RenewalError i renewals e
  | saving (input : Input Response) (taken : inputs i input) (e : LlmError)
      (failed : input.saving = .untouched e ∨ input.saving = .exposed e) :
      RenewalError i renewals e
  | account (token : String) (known : Known initial given renewals token) (e : LlmError)
      (failed : extractAccountId crates token = .error e) : RenewalError i renewals e

def Explained (i : ℕ) (result : Except LlmError α) (renewals : List Renewal) : Prop :=
  ∀ e, result = .error e → RenewalError crates initial given inputs i renewals e

def Ended (i : ℕ) (before : List (String × Except LlmError Response))
    (result : Except LlmError α) (s : Shared Response) : Prop :=
  mine i s = before ∧ Explained crates initial given inputs i result s.renewals

theorem known_grows {initial : Option OpenAiCodexSession} {given token : String}
    {older newer : List Renewal} (hsuffix : older <:+ newer)
    (h : Known initial given older token) : Known initial given newer token := by
  rcases h with h | h | ⟨s, hs, htoken⟩
  · exact Or.inl h
  · exact Or.inr (Or.inl h)
  · exact Or.inr (Or.inr ⟨s, hsuffix.subset hs, htoken⟩)

theorem current_known {initial : Option OpenAiCodexSession} {given : String}
    {renewals : List Renewal} {s : OpenAiCodexSession} (h : current initial renewals = some s) :
    Known initial given renewals s.accessToken := by
  induction renewals with
  | nil => exact Or.inr (Or.inl ⟨s, h, rfl⟩)
  | cons r rest ih =>
    cases r with
    | refresh token foundDue => exact known_grows (List.suffix_cons _ _) (ih h)
    | login => exact known_grows (List.suffix_cons _ _) (ih h)
    | renewed t =>
      refine Or.inr (Or.inr ⟨t, List.mem_cons_self, ?_⟩)
      rw [Option.some.inj h]

/-! ## Steps -/

variable {margin initial given inputs} {i : ℕ}

theorem explained_grows {older newer : List Renewal} (hsuffix : older <:+ newer)
    (result : Except LlmError α) (h : Explained crates initial given inputs i result older) :
    Explained crates initial given inputs i result newer := by
  intro e he
  cases h e he with
  | unready past hpast hempty => exact .unready past (hpast.trans hsuffix) hempty
  | refresh input htaken _ hfailed => exact .refresh input htaken e hfailed
  | login input htaken _ hfailed => exact .login input htaken e hfailed
  | saving input htaken _ hfailed => exact .saving input htaken e hfailed
  | account token hknown _ hfailed => exact .account token (known_grows hsuffix hknown) e hfailed

theorem ended_ok {before : List (String × Except LlmError Response)} {s : Shared Response}
    (result : α) (h : mine i s = before) :
    Ended crates initial given inputs i before (.ok result) s :=
  ⟨h, fun _ he => nomatch he⟩

theorem ended_error {before : List (String × Except LlmError Response)} {s : Shared Response}
    (e : LlmError) (h : mine i s = before)
    (he : RenewalError crates initial given inputs i s.renewals e) :
    Ended crates initial given inputs i before (.error e : Except LlmError α) s :=
  ⟨h, fun _ heq => Except.error.inj heq ▸ he⟩

/-- A step that leaves alone what the protocol speaks of. -/
theorem quiet_step {pre : Shared Response → Prop} {post : α → Shared Response → Prop}
    (f : Input Response → Shared Response → α × Shared Response)
    (hsame : ∀ e s, (f e s).2 = { s with disk := (f e s).2.disk })
    (h : ∀ e s t, inputs i e → Invariant margin initial given s → pre s →
      (protocol margin initial given inputs).rely i s t → Invariant margin initial given t →
        post (f e s).1 t) :
    Meets (protocol margin initial given inputs) i post pre (perform f) := by
  apply meets_perform
  intro e s hs he hpre
  have hlike : ∀ d, Invariant margin initial given { s with disk := d } :=
    fun d => ⟨hs.session, hs.orderly, hs.auth, hs.attempts⟩
  rw [hsame e s]
  refine ⟨hlike _, ⟨List.suffix_refl _, fun j _ => ⟨rfl, fun hj => ⟨hj, rfl, rfl⟩⟩⟩, ?_⟩
  intro t ht hrely
  exact h e s t he hs hpre hrely ht

section

variable (margin initial given inputs i)

def Stable (A : Shared Response → Prop) : Prop :=
  ∀ s t, (protocol margin initial given inputs).rely i s t → A s → A t

end

structure Held (i : ℕ) (before : List (String × Except LlmError Response))
    (session : Option OpenAiCodexSession) (s : Shared Response) : Prop where
  renewing : s.renewing = some i
  mine : mine i s = before
  session : s.session = session

variable (before : List (String × Except LlmError Response)) (session : Option OpenAiCodexSession)

theorem held_stable :
    Stable margin initial given inputs i (Held i before session) := by
  intro s t hrely h
  obtain ⟨hrenewing, hsession, -⟩ := hrely.2.2 h.renewing
  exact ⟨hrenewing, hrely.2.1.trans h.mine, hsession.trans h.session⟩

theorem mine_stable :
    Stable margin initial given inputs i (fun s => mine i s = before) :=
  fun _ _ hrely h => hrely.2.1.trans h

theorem fact_stable (fact : Prop) {A : Shared Response → Prop}
    (hA : Stable margin initial given inputs i A) :
    Stable margin initial given inputs i (fun s => fact ∧ A s) :=
  fun s t hrely h => ⟨h.1, hA s t hrely h.2⟩

theorem quiet_rule {A : Shared Response → Prop} {post : α → Shared Response → Prop}
    (f : Input Response → Shared Response → α × Shared Response)
    (hsame : ∀ e s, (f e s).2 = { s with disk := (f e s).2.disk })
    (hstable : ∀ a, Stable margin initial given inputs i (post a))
    (h : ∀ e s, inputs i e → Invariant margin initial given s → A s → post (f e s).1 s) :
    Meets (protocol margin initial given inputs) i post A (perform f) :=
  quiet_step f hsame (fun e s t he hs hA hrely _ => hstable _ s t hrely (h e s he hs hA))

theorem quiet_keeps {A : Shared Response → Prop}
    (f : Input Response → Shared Response → α × Shared Response)
    (hsame : ∀ e s, (f e s).2 = { s with disk := (f e s).2.disk })
    (hA : Stable margin initial given inputs i A) :
    Meets (protocol margin initial given inputs) i (fun _ => A) A (perform f) :=
  quiet_rule f hsame (fun _ => hA) (fun _ _ _ _ h => h)

theorem orPanic_meets {A : Shared Response → Prop} (x : Option α) :
    Meets (protocol margin initial given inputs) i (fun a s => x = some a ∧ A s) A
      (orPanic x : Task (Shared Response) (Input Response) α) := by
  cases x with
  | none => exact meets_panicked trivial
  | some a => exact meets_done a (fun _ _ h => ⟨rfl, h⟩)

/-- The clock is read while the condition holds, and `Q` is what the condition
says of a reading that found the session due. -/
theorem needsRefresh_meets {A : Shared Response → Prop} (Q : DateTime → Prop)
    (hA : Stable margin initial given inputs i A)
    (hQ : ∀ s now, A s → due margin now s.session = some true → Q now) :
    Meets (protocol margin initial given inputs) i (fun r s => (∀ now ∈ r, Q now) ∧ A s) A
      (needsRefresh margin : Task (Shared Response) (Input Response) (Option DateTime)) := by
  apply meets_through (fun found s => (∀ now, found = some (true, now) → Q now) ∧ A s)
  · apply quiet_rule _ (fun _ _ => rfl) (fun _ => fact_stable _ hA)
    intro e s _ _ hs
    refine ⟨?_, hs⟩
    intro now hnow
    obtain ⟨d, hd, hpair⟩ := Option.map_eq_some_iff.mp hnow
    obtain ⟨rfl, rfl⟩ := Prod.mk.inj hpair
    exact hQ s e.now hs hd
  · intro found
    apply meets_fact
    intro hfound
    apply meets_bind (orPanic_meets found)
    rintro ⟨isDue, now⟩
    apply meets_fact
    intro hsome
    apply meets_done
    intro s _ hs
    refine ⟨?_, hs⟩
    intro t ht
    cases isDue with
    | false => cases ht
    | true =>
      obtain rfl : now = t := Option.some.inj ht
      exact hfound now hsome

/-! ## Renewals -/

theorem other_holder {before : List (String × Except LlmError Response)}
    {session : Option OpenAiCodexSession} {s t : Shared Response} (h : Held i before session s)
    (j : ℕ) (hj : j ≠ i) : Kept j s t := by
  intro hrenewing
  rw [h.renewing] at hrenewing
  exact absurd (Option.some.inj hrenewing).symm hj

/-- The holder of the lock may log what it is about to do. -/
theorem logged_meets (r : Renewal) (before : List (String × Except LlmError Response))
    (session : Option OpenAiCodexSession)
    (hcurrent : ∀ rest, current initial (r::rest) = current initial rest)
    (horderly : ∀ rest, current initial rest = session → Orderly margin initial rest →
      Orderly margin initial (r::rest)) :
    Meets (protocol margin initial given inputs) i (fun _ => Held i before session)
      (Held i before session) (logged r : Task (Shared Response) (Input Response) Unit) := by
  apply meets_modify
  intro s hs h
  have hsuffix : s.renewals <:+ r::s.renewals := List.suffix_cons _ _
  refine ⟨⟨?_, ?_, known_grows hsuffix hs.auth,
    fun a ha => known_grows hsuffix (hs.attempts a ha)⟩,
    ⟨hsuffix, fun j hj => ⟨rfl, other_holder h j hj⟩⟩, ?_⟩
  · rw [hcurrent]
    exact hs.session
  · exact horderly s.renewals (hs.session.symm.trans h.session) hs.orderly
  · intro t _ hrely
    exact held_stable before session _ t hrely ⟨h.renewing, h.mine, h.session⟩

theorem setSession_meets (x : OpenAiCodexSession)
    (before : List (String × Except LlmError Response)) (session : Option OpenAiCodexSession) :
    Meets (protocol margin initial given inputs) i (fun _ => Held i before (some x))
      (Held i before session) (setSession x : Task (Shared Response) (Input Response) Unit) := by
  apply meets_modify
  intro s hs h
  have hsuffix : s.renewals <:+ .renewed x::s.renewals := List.suffix_cons _ _
  refine ⟨⟨rfl, hs.orderly, known_grows hsuffix hs.auth,
    fun a ha => known_grows hsuffix (hs.attempts a ha)⟩,
    ⟨hsuffix, fun j hj => ⟨rfl, other_holder h j hj⟩⟩, ?_⟩
  intro t _ hrely
  exact held_stable before (some x) _ t hrely ⟨h.renewing, h.mine, rfl⟩

theorem keepTokens_meets (t : TokenResponse) (before : List (String × Except LlmError Response))
    (session : Option OpenAiCodexSession) :
    Meets (protocol margin initial given inputs) i
      (Ended crates initial given inputs i before) (Held i before session)
      (keepTokens t : Task (Shared Response) (Input Response) (Except LlmError Unit)) := by
  apply meets_bind (quiet_keeps _ (fun _ _ => rfl) (held_stable before session))
  intro expiry
  apply meets_bind (orPanic_meets expiry)
  intro expiresAt
  apply meets_fact
  intro _
  apply meets_bind (quiet_keeps _ (fun _ _ => rfl) (held_stable before session))
  intro createdAt
  apply meets_through (fun (r : Except LlmError Unit) s =>
    (∀ e, r = .error e → ∃ input, inputs i input ∧
      (input.saving = .untouched e ∨ input.saving = .exposed e)) ∧ Held i before session s)
  · apply quiet_rule
    · intro e s
      cases e.saving <;> rfl
    · exact fun _ => fact_stable _ (held_stable before session)
    · intro input s htaken _ hheld
      refine ⟨fun e he => ⟨input, htaken, ?_⟩, hheld⟩
      cases hsaving : input.saving with
      | untouched err =>
        rw [hsaving] at he
        exact .inl (congrArg Saving.untouched (Except.error.inj he))
      | exposed err =>
        rw [hsaving] at he
        exact .inr (congrArg Saving.exposed (Except.error.inj he))
      | written =>
        rw [hsaving] at he
        cases he
  · rintro (e | _)
    · apply meets_fact
      intro hfailed
      obtain ⟨input, htaken, hsaving⟩ := hfailed e rfl
      exact meets_done _ (fun _ _ h => ended_error crates e h.mine (.saving input htaken e hsaving))
    · apply meets_fact
      intro _
      apply meets_bind (setSession_meets _ before session)
      intro _
      exact meets_done _ (fun _ _ h => ended_ok crates () h.mine)

theorem refreshHeld_meets :
    Meets (protocol margin initial given inputs) i
      (Ended crates initial given inputs i before) (Held i before session)
      (refreshHeld margin : Task (Shared Response) (Input Response) (Except LlmError Unit)) := by
  have hdue := @needsRefresh_meets Response margin initial given inputs i _
    (fun now => due margin now session = some true) (held_stable before session)
    (fun s now h hd => h.session ▸ hd)
  apply meets_bind hdue
  rintro (_ | foundDue)
  · exact meets_done _ (fun _ _ h => ended_ok crates () h.2.mine)
  · apply meets_fact
    intro hfound
    have hread : Meets (protocol margin initial given inputs) i
        (fun (token : Option String) s =>
          token = session.map OpenAiCodexSession.refreshToken ∧ Held i before session s)
        (Held i before session)
        (read (fun s : Shared Response => s.session.map OpenAiCodexSession.refreshToken) :
          Task (Shared Response) (Input Response) (Option String)) :=
      quiet_rule _ (fun _ _ => rfl) (fun _ => fact_stable _ (held_stable before session))
        (fun e s _ _ h => ⟨by rw [← h.session], h⟩)
    apply meets_bind hread
    rintro (_ | token)
    · apply meets_fact
      intro htoken
      apply meets_done
      intro s hs h
      refine ended_error crates _ h.mine (.unready s.renewals (List.suffix_refl _) ?_)
      intro x hx
      rw [← hs.session, h.session, Option.map_eq_none_iff.mp htoken.symm] at hx
      cases hx
    · apply meets_fact
      intro htoken
      obtain ⟨x, hx, hxt⟩ := Option.map_eq_some_iff.mp htoken.symm
      have hsent := @logged_meets Response margin initial given inputs i
        (.refresh token foundDue) before session (fun _ => rfl)
        (fun rest hrest ho => ⟨⟨x, hrest.trans hx, hxt.symm, by
          rw [← hx]
          exact hfound foundDue rfl⟩, ho⟩)
      apply meets_bind hsent
      intro _
      apply meets_through (fun (answer : HttpAnswer TokenResponse) s =>
        (∃ input, inputs i input ∧ input.tokens = answer) ∧ Held i before session s)
      · exact quiet_rule _ (fun _ _ => rfl) (fun _ => fact_stable _ (held_stable before session))
          (fun input _ htaken _ h => ⟨⟨input, htaken, rfl⟩, h⟩)
      · intro answer
        apply meets_fact
        rintro ⟨input, htaken, rfl⟩
        cases hread : input.tokens.read "Token refresh request" "Token refresh"
          "refresh response" with
        | error e =>
          exact meets_done _ (fun _ _ h =>
            ended_error crates e h.mine (.refresh input htaken e hread))
        | ok t => exact keepTokens_meets crates t before session

theorem loginHeld_meets :
    Meets (protocol margin initial given inputs) i
      (Ended crates initial given inputs i before) (Held i before session)
      (loginHeld : Task (Shared Response) (Input Response) (Except LlmError Unit)) := by
  apply meets_bind (logged_meets .login before session (fun _ => rfl) (fun _ _ ho => ho))
  intro _
  apply meets_through (fun (tokens : Except LlmError TokenResponse) s =>
    (∃ input, inputs i input ∧ input.flow.login input.now = tokens) ∧ Held i before session s)
  · exact quiet_rule _ (fun _ _ => rfl) (fun _ => fact_stable _ (held_stable before session))
      (fun input _ htaken _ h => ⟨⟨input, htaken, rfl⟩, h⟩)
  · rintro (e | t)
    · apply meets_fact
      rintro ⟨input, htaken, hlogin⟩
      exact meets_done _ (fun _ _ h => ended_error crates e h.mine (.login input htaken e hlogin))
    · apply meets_fact
      intro _
      exact keepTokens_meets crates t before session

/-- A task in the lock may count on the session not changing, and gives the
lock back however it ends. -/
theorem locked_meets (task : Task (Shared Response) (Input Response) (Except LlmError Unit))
    (before : List (String × Except LlmError Response))
    (h : ∀ session, Meets (protocol margin initial given inputs) i
      (Ended crates initial given inputs i before) (Held i before session) task) :
    Meets (protocol margin initial given inputs) i (Ended crates initial given inputs i before)
      (fun s => mine i s = before) (lock i >>= fun _ => cleanup (unlock i) task) := by
  have hlock : Meets (protocol margin initial given inputs) i
      (fun (_ : Unit) (s : Shared Response) => ∃ session, Held i before session s)
      (fun s => mine i s = before) (lock i) := by
    apply meets_await
    intro e s hs _ hready hmine
    have hfree : s.renewing = none := of_decide_eq_true hready
    refine ⟨⟨hs.session, hs.orderly, hs.auth, hs.attempts⟩,
      ⟨List.suffix_refl _, fun j _ => ⟨rfl, fun hj => ?_⟩⟩, ?_⟩
    · rw [hfree] at hj
      cases hj
    · intro t _ hrely
      exact ⟨s.session, held_stable before s.session _ t hrely ⟨rfl, hmine, rfl⟩⟩
  apply meets_bind hlock
  intro _
  apply meets_exists
  intro session
  apply meets_cleanup (unlock i) task (h session)
  · intro s hs
    rw [unlock]
    split
    · next hi =>
      refine ⟨⟨hs.session, hs.orderly, hs.auth, hs.attempts⟩, List.suffix_refl _, ?_⟩
      intro j hj
      refine ⟨rfl, fun hrenewing => absurd ?_ hj⟩
      rw [hi] at hrenewing
      exact (Option.some.inj hrenewing).symm
    · exact ⟨hs, List.suffix_refl _, fun j _ => ⟨rfl, fun hj => ⟨hj, rfl, rfl⟩⟩⟩
  · intro result s t _ hended _ hrely
    have hunlocked : mine i (unlock i s) = mine i s ∧ (unlock i s).renewals = s.renewals := by
      rw [unlock]
      split <;> exact ⟨rfl, rfl⟩
    refine ⟨(hrely.2.1.trans hunlocked.1).trans hended.1, ?_⟩
    exact explained_grows crates (hunlocked.2 ▸ hrely.1) result hended.2

theorem refreshTokens_meets :
    Meets (protocol margin initial given inputs) i (Ended crates initial given inputs i before)
      (fun s => mine i s = before)
      (refreshTokens margin i : Task (Shared Response) (Input Response) (Except LlmError Unit)) :=
  locked_meets crates _ before (refreshHeld_meets crates before)

theorem handleAuthFailure_meets :
    Meets (protocol margin initial given inputs) i (Ended crates initial given inputs i before)
      (fun s => mine i s = before) (handleAuthFailure margin i :
        Task (Shared Response) (Input Response) (Except LlmError Unit)) := by
  apply meets_bind (refreshTokens_meets crates before)
  rintro (e | _)
  · apply meets_pre _ (fun _ _ h => h.1)
    exact locked_meets crates _ before (loginHeld_meets crates before)
  · exact meets_done _ (fun _ _ h => h)

/-! ## Calls -/

/-- A token from the session is known from then on. -/
theorem getAccessToken_meets :
    Meets (protocol margin initial given inputs) i
      (fun r s => Ended crates initial given inputs i before r s ∧ ∀ token, r = .ok token →
        Known initial given s.renewals token)
      (fun s => mine i s = before) (getAccessToken margin i :
        Task (Shared Response) (Input Response) (Except LlmError String)) := by
  refine meets_bind (?_ : Meets (protocol margin initial given inputs) i
    (Ended crates initial given inputs i before) (fun s => mine i s = before) _) ?_
  · apply meets_bind (needsRefresh_meets (fun _ => True) (mine_stable before)
      (fun _ _ _ _ => trivial))
    rintro (_ | foundDue)
    · exact meets_done _ (fun _ _ h => ended_ok crates () h.2)
    · apply meets_fact
      intro _
      apply meets_through (fun (ready : Bool) s => mine i s = before ∧
        (ready = false → RenewalError crates initial given inputs i s.renewals authFailed))
      · apply quiet_rule _ (fun _ _ => rfl)
        · intro ready s t hrely h
          refine ⟨hrely.2.1.trans h.1, fun hready => ?_⟩
          exact explained_grows (α := Unit) crates hrely.1 (.error authFailed)
            (fun _ he => Except.error.inj he ▸ h.2 hready) _ rfl
        · intro e s _ hs h
          refine ⟨h, fun hready => .unready s.renewals (List.suffix_refl _) ?_⟩
          intro x hx
          have hsession : s.session = some x := hs.session.trans hx
          dsimp only at hready
          rw [hsession] at hready
          simpa using hready
      · rintro (_ | _)
        · exact meets_done _ (fun _ _ h => ended_error crates _ h.1 (h.2 rfl))
        · apply meets_pre _ (fun _ _ h => h.1)
          exact refreshTokens_meets crates before
  · rintro (e | _)
    · exact meets_done _ (fun _ _ h => ⟨ended_error crates e h.1 (h.2 e rfl), by rintro token ⟨⟩⟩)
    · apply meets_through (fun token s => mine i s = before ∧
        (∀ t, token = some t → Known initial given s.renewals t) ∧
        (token = none → RenewalError crates initial given inputs i s.renewals authFailed))
      · apply quiet_rule _ (fun _ _ => rfl)
        · intro token s t hrely h
          refine ⟨hrely.2.1.trans h.1, fun x hx => known_grows hrely.1 (h.2.1 x hx),
            fun hnone => ?_⟩
          exact explained_grows (α := Unit) crates hrely.1 (.error authFailed)
            (fun _ he => Except.error.inj he ▸ h.2.2 hnone) _ rfl
        · intro e s _ hs h
          refine ⟨h.1, fun t ht => ?_, fun hnone => ?_⟩
          · obtain ⟨x, hx, rfl⟩ := Option.map_eq_some_iff.mp ht
            exact current_known (hs.session.symm.trans hx)
          · refine .unready s.renewals (List.suffix_refl _) fun x hx => ?_
            rw [← hs.session, Option.map_eq_none_iff.mp hnone] at hx
            cases hx
      · rintro (_ | token)
        · exact meets_done _ (fun _ _ h => ⟨ended_error crates _ h.1 (h.2.2 rfl),
            by rintro token ⟨⟩⟩)
        · apply meets_done
          intro s _ h
          refine ⟨ended_ok crates token h.1, fun t ht => h.2.1 t ?_⟩
          rw [Except.ok.inj ht]

theorem updateInnerToken_meets :
    Meets (protocol margin initial given inputs) i (Ended crates initial given inputs i before)
      (fun s => mine i s = before) (updateInnerToken margin crates i :
        Task (Shared Response) (Input Response) (Except LlmError Unit)) := by
  apply meets_bind (getAccessToken_meets crates before)
  rintro (e | token)
  · exact meets_done _ (fun _ _ h => ended_error crates e h.1.1 (h.1.2 e rfl))
  · dsimp only
    cases haccount : extractAccountId crates token with
    | error e =>
      exact meets_done _ (fun _ _ h =>
        ended_error crates e h.1.1 (.account token (h.2 token rfl) e haccount))
    | ok accountId =>
      apply meets_through (fun _ s => mine i s = before)
      · apply meets_modify
        intro s hs h
        refine ⟨⟨hs.session, hs.orderly, h.2 token rfl, hs.attempts⟩,
          ⟨List.suffix_refl _, fun j _ => ⟨rfl, fun hj => ⟨hj, rfl, rfl⟩⟩⟩, ?_⟩
        intro t _ hrely
        exact hrely.2.1.trans h.1.1
      · intro _
        exact meets_done _ (fun _ _ h => ended_ok crates () h)

theorem ensureFreshToken_meets :
    Meets (protocol margin initial given inputs) i (fun _ s => mine i s = before)
      (fun s => mine i s = before)
      (ensureFreshToken margin crates i : Task (Shared Response) (Input Response) Unit) := by
  apply meets_bind (needsRefresh_meets (fun _ => True) (mine_stable before)
    (fun _ _ _ _ => trivial))
  rintro (_ | foundDue)
  · exact meets_done _ (fun _ _ h => h.2)
  · apply meets_fact
    intro _
    apply meets_bind (refreshTokens_meets crates before)
    rintro (e | _)
    · exact meets_done _ (fun _ _ h => h.1)
    · apply meets_bind (meets_pre _ (fun _ _ h => h.1) (updateInnerToken_meets crates before))
      intro _
      exact meets_done _ (fun _ _ h => h.1)

/-- An attempt is made with a token that is known, and its answer is the result. -/
theorem attempt_meets :
    Meets (protocol margin initial given inputs) i
      (fun r s => ∃ token, mine i s = (token, r)::before) (fun s => mine i s = before)
      (attempt crates i :
        Task (Shared Response) (Input Response) (Except LlmError Response)) := by
  apply meets_through (fun token s => Known initial given s.renewals token ∧ mine i s = before)
  · apply quiet_rule _ (fun _ _ => rfl)
    · intro token s t hrely h
      exact ⟨known_grows hrely.1 h.1, hrely.2.1.trans h.2⟩
    · intro e s _ hs h
      exact ⟨hs.auth, h⟩
  · intro token
    apply meets_perform
    intro e s hs _ h
    refine ⟨⟨hs.session, hs.orderly, hs.auth, ?_⟩,
      ⟨List.suffix_refl _, fun j hj => ⟨?_, fun hj => ⟨hj, rfl, rfl⟩⟩⟩, ?_⟩
    · intro a ha
      rcases List.mem_cons.mp ha with rfl | ha
      · exact h.1
      · exact hs.attempts a ha
    · simp [mine, hj.symm]
    · intro t _ hrely
      refine ⟨token, hrely.2.1.trans ?_⟩
      rw [← h.2]
      simp [mine]

def Refused (answer : Except LlmError Response) : Prop :=
  ∃ e, answer = .error e ∧ isAuthFailure e = true

section

variable (initial given inputs)

def Answered (i : ℕ) (renewals : List Renewal) (result : Except LlmError Response) :
    List (String × Except LlmError Response) → Prop
  | [(_, answer)] => (answer = result ∧ ¬ Refused answer) ∨
      (Refused answer ∧
        ∃ e, result = .error e ∧ RenewalError crates initial given inputs i renewals e)
  | [(_, answer), (_, first)] => answer = result ∧ Refused first
  | _ => False

end

theorem retried_meets (token : String) (e : LlmError) (he : isAuthFailure e = true) :
    Meets (protocol margin initial given inputs) i
      (fun r s => Answered crates initial given inputs i s.renewals r (mine i s))
      (fun s => mine i s = [(token, .error e)])
      (retried margin crates i :
        Task (Shared Response) (Input Response) (Except LlmError Response)) := by
  have hrefused : Refused (.error e : Except LlmError Response) := ⟨e, rfl, he⟩
  apply meets_bind (handleAuthFailure_meets crates _)
  rintro (e' | _)
  · apply meets_done
    intro s _ h
    rw [h.1]
    exact Or.inr ⟨hrefused, e', rfl, h.2 e' rfl⟩
  · apply meets_bind (meets_pre _ (fun _ _ h => h.1) (updateInnerToken_meets crates _))
    rintro (e' | _)
    · apply meets_done
      intro s _ h
      rw [h.1]
      exact Or.inr ⟨hrefused, e', rfl, h.2 e' rfl⟩
    · apply meets_post _ _ (meets_pre _ (fun _ _ h => h.1) (attempt_meets crates _))
      rintro r s _ ⟨token', h⟩
      rw [h]
      exact ⟨rfl, hrefused⟩

theorem complete_meets :
    Meets (protocol margin initial given inputs) i
      (fun r s => Answered crates initial given inputs i s.renewals r (mine i s))
      (fun s => mine i s = [])
      (complete margin crates i :
        Task (Shared Response) (Input Response) (Except LlmError Response)) := by
  apply meets_bind (ensureFreshToken_meets crates [])
  intro _
  apply meets_bind (attempt_meets crates [])
  rintro (e | response)
  · apply meets_exists
    intro token
    dsimp only
    split
    · next he => exact retried_meets crates token e he
    · next he =>
      apply meets_done
      intro s _ h
      rw [h]
      refine Or.inl ⟨rfl, ?_⟩
      rintro ⟨e', he', hfailure⟩
      rw [Except.error.inj he'] at he
      exact he hfailure
  · apply meets_done
    rintro s _ ⟨token, h⟩
    rw [h]
    refine Or.inl ⟨rfl, ?_⟩
    rintro ⟨e, he, -⟩
    cases he

section

variable (initial given inputs)

def Replied (i : ℕ) (reply : Reply Response) (s : Shared Response) : Prop :=
  match reply with
  | .completed result => Answered crates initial given inputs i s.renewals result (mine i s)
  | .models => mine i s = []

end

theorem program_meets (i : ℕ) (question : Question) :
    Meets (protocol margin initial given inputs) i (fun reply s => Replied crates initial given inputs i reply s)
      (fun s => mine i s = [])
      (program margin crates i question :
        Task (Shared Response) (Input Response) (Reply Response)) := by
  cases question with
  | complete =>
    apply meets_bind (complete_meets crates)
    intro result
    exact meets_done _ (fun _ _ h => h)
  | listModels =>
    apply meets_bind (ensureFreshToken_meets crates [])
    intro _
    exact meets_done _ (fun _ _ h => h)

end

/-! ## Every run -/

section

variable {Response : Type} (margin : UInt64) (crates : Crates)

def Shared.new (session : Option OpenAiCodexSession) (auth : AuthState) : Shared Response where
  session := session
  renewing := none
  disk := session
  auth := auth
  renewals := []
  attempts := []

def after (session : Option OpenAiCodexSession) (auth : AuthState)
    (events : List (Event ℕ Question (Input Response))) :
    Pool ℕ Question (Shared Response) (Input Response) (Reply Response) :=
  run (step (program margin crates)) events (Pool.new (Shared.new session auth))

def Taken (events : List (Event ℕ Question (Input Response))) (i : ℕ) (input : Input Response) :
    Prop :=
  .advance i input ∈ events

variable (session : Option OpenAiCodexSession) (auth : AuthState)
  (events : List (Event ℕ Question (Input Response)))

theorem after_working :
    Working (protocol margin session auth.token (Taken events))
      (fun i _ reply s => Replied crates session auth.token (Taken events) i reply s)
      (after margin crates session auth events) := by
  apply run_working (program margin crates) (program_meets crates) events
  · refine ⟨rfl, trivial, Or.inl rfl, ?_⟩
    intro a ha
    cases ha
  · intro i
    rfl
  · apply along_all
    intro event hevent s
    cases event with
    | start id question => trivial
    | advance id input => exact hevent

theorem orderly_at {initial : Option OpenAiCodexSession} (newer older : List Renewal)
    (token : String) (foundDue : DateTime)
    (h : Orderly margin initial (newer++Renewal.refresh token foundDue::older)) :
    ∃ s, current initial older = some s ∧ token = s.refreshToken ∧
      due margin foundDue (some s) = some true := by
  induction newer with
  | nil => exact h.1
  | cons r rest ih =>
    cases r with
    | refresh _ _ => exact ih h.2
    | renewed _ => exact ih h
    | login => exact ih h

/-- Without a new session in between, the session is the one before; else it is
one of those that were set. -/
theorem current_between (initial : Option OpenAiCodexSession) (newer older : List Renewal) :
    current initial (newer++older) = current initial older ∧ (∀ s, .renewed s ∉ newer) ∨
      ∃ s, .renewed s ∈ newer ∧ current initial (newer++older) = some s := by
  induction newer with
  | nil => exact Or.inl ⟨rfl, fun _ h => by cases h⟩
  | cons r rest ih =>
    cases r with
    | renewed s => exact Or.inr ⟨s, List.mem_cons_self, rfl⟩
    | refresh _ _ =>
      rcases ih with ⟨h, hnone⟩ | ⟨s, hs, h⟩
      · exact Or.inl ⟨h, by simpa using hnone⟩
      · exact Or.inr ⟨s, List.mem_cons_of_mem _ hs, h⟩
    | login =>
      rcases ih with ⟨h, hnone⟩ | ⟨s, hs, h⟩
      · exact Or.inl ⟨h, by simpa using hnone⟩
      · exact Or.inr ⟨s, List.mem_cons_of_mem _ hs, h⟩

/-- In every run, whenever the server is asked to refresh a token, it is the
token of the session at that time, and that session was found due. A server
that gives out new refresh tokens gets a token again only where no session has
been set since it was last sent. -/
theorem refreshes_due :
    (∀ newer older token foundDue,
      (after margin crates session auth events).shared.renewals =
          newer++Renewal.refresh token foundDue::older →
        ∃ s, current session older = some s ∧ token = s.refreshToken ∧
          due margin foundDue (some s) = some true) ∧
    ∀ newer between older token foundDue foundDue',
      (after margin crates session auth events).shared.renewals =
          newer++Renewal.refresh token foundDue'::(between++Renewal.refresh token foundDue::older) →
        (∀ s, .renewed s ∈ between → s.refreshToken ≠ token) → ∀ s, .renewed s ∉ between := by
  have hworking := after_working margin crates session auth events
  have horderly : ∀ newer older token foundDue,
      (after margin crates session auth events).shared.renewals =
          newer++Renewal.refresh token foundDue::older →
        ∃ s, current session older = some s ∧ token = s.refreshToken ∧
          due margin foundDue (some s) = some true := by
    intro newer older token foundDue h
    exact orderly_at margin newer older token foundDue (h ▸ hworking.inv.orderly)
  refine ⟨horderly, ?_⟩
  intro newer between older token foundDue foundDue' h hrotates
  obtain ⟨s, hs, htoken, -⟩ := horderly newer _ token foundDue' h
  rcases current_between session between (.refresh token foundDue::older) with
    ⟨-, hnone⟩ | ⟨t, ht, hcurrent⟩
  · exact hnone
  · rw [hs] at hcurrent
    obtain rfl := Option.some.inj hcurrent
    exact absurd htoken.symm (hrotates s ht)

/-- In every run, a call that has returned made one attempt, or a second one
after its first was refused, and returns the answer of its last attempt or the
error of a renewal. All attempts were made with tokens of sessions. -/
theorem calls_answered (i : ℕ) (question : Question) (reply : Reply Response)
    (h : (after margin crates session auth events).returned i question reply) :
    Replied crates session auth.token (Taken events) i reply
        (after margin crates session auth events).shared ∧
      ∀ a ∈ (after margin crates session auth events).shared.attempts,
        Known session auth.token (after margin crates session auth events).shared.renewals
          a.2.1 := by
  have hworking := after_working margin crates session auth events
  refine ⟨?_, hworking.inv.attempts⟩
  exact hworking.meets i question _ h _ hworking.inv
    ((protocol margin session auth.token (Taken events)).rely_refl i _)

end

/-! ## Two callers whose tokens are refused -/

def atSecond (n : ℤ) (h : -8334601228800*second ≤ n*second ∧ n*second < 8210266876800*second) :
    DateTime := ⟨n*second, h⟩

def accountText : String :=
  "\x7b\"https://api.openai.com/auth\":\x7b\"chatgpt_account_id\":\"acct\"\x7d\x7d"

def tokenNamed (name : String) : String :=
  name++".eyJodHRwczovL2FwaS5vcGVuYWkuY29tL2F1dGgiOnsiY2hhdGdwdF9hY2NvdW50X2lkIjoiYWNjdCJ9fQ.s"

def revoked : OpenAiCodexSession where
  accessToken := tokenNamed "old"
  refreshToken := "first"
  expiresAt := atSecond 1000 (by decide)
  createdAt := atSecond 0 (by decide)

def answering (now : DateTime) (tokens : HttpAnswer TokenResponse) : Input String where
  now := now
  tokens := tokens
  flow := ⟨.failed "offline", [], .failed "offline"⟩
  saving := .written
  answer := fun token => if token = tokenNamed "old" then .error authFailed else .ok "hello"

def account : Crates where
  decodeUrlSafe := fun _ => .ok (accountText.toList.map (fun c => UInt8.ofNat c.toNat))
  fromSlice := fun _ => .ok (.object [("https://api.openai.com/auth",
    .object [("chatgpt_account_id", .string "acct")])])
  badHeader := fun _ => none

def steps (call n : ℕ) (now : DateTime) (tokens : HttpAnswer TokenResponse) :
    List (Event ℕ Question (Input String)) :=
  List.replicate n (.advance call (answering now tokens))

def crowd : List (Event ℕ Question (Input String)) :=
  .start 0 .complete::.start 1 .complete::
    (steps 0 3 (atSecond 100 (by decide)) (.failed "offline")++
      steps 1 3 (atSecond 100 (by decide)) (.failed "offline")++
      steps 1 15 (atSecond 900 (by decide)) (.failed "offline")++
      steps 0 18 (atSecond 900 (by decide)) (.content ⟨tokenNamed "new", "second", 3600⟩))

set_option maxRecDepth 4096 in
/-- One call is answered at its second attempt, the other returns the error of
its renewal. -/
theorem calls_answered_crowd :
    Replied account (some revoked) (tokenNamed "old") (Taken crowd) 0 (.completed (.ok "hello"))
      (after 300 account (some revoked) ⟨tokenNamed "old", "acct"⟩ crowd).shared ∧
    Replied account (some revoked) (tokenNamed "old") (Taken crowd) 1
      (.completed (.error (renewalFailed "Device code request failed: offline")))
      (after 300 account (some revoked) ⟨tokenNamed "old", "acct"⟩ crowd).shared :=
  ⟨(calls_answered 300 account (some revoked) ⟨tokenNamed "old", "acct"⟩ crowd 0 .complete
      (.completed (.ok "hello")) rfl).1,
    (calls_answered 300 account (some revoked) ⟨tokenNamed "old", "acct"⟩ crowd 1 .complete
      (.completed (.error (renewalFailed "Device code request failed: offline"))) rfl).1⟩

end IronClaw.CodexCalls
