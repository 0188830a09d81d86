import IronClaw.WorkerApi
import Mathlib.Data.List.Forall2

/-!
# Workers are kept apart

Whatever the order of the steps, a worker is admitted only with the token that
its job has at that time, credentials are those that its job is granted when
they are looked up, and every prompt queued for a job goes to at most one
request of that job, in the order in which the prompts were queued.
-/

set_option autoImplicit false

namespace IronClaw.WorkerIsolation
open IronClaw.LlmMessage IronClaw.WorkerApi Lib.Tasks Lib.Runs Lib.Text

def live (jobId : Uuid) : List Happening → Option String
  | [] => none
  | .issued id token::rest => if id = jobId then some token else live jobId rest
  | .revoked id::rest => if id = jobId then none else live jobId rest
  | _::rest => live jobId rest

def grantsIn (jobId : Uuid) : List Happening → Option (List CredentialGrant)
  | [] => none
  | .granted id grants::rest => if id = jobId then some grants else grantsIn jobId rest
  | .withdrawn id::rest => if id = jobId then none else grantsIn jobId rest
  | _::rest => grantsIn jobId rest

def queuedIn (jobId : Uuid) : List Happening → List PendingPrompt
  | [] => []
  | .queued id prompt::rest => queuedIn jobId rest++(if id = jobId then [prompt] else [])
  | _::rest => queuedIn jobId rest

def takenIn (jobId : Uuid) : List Happening → List PendingPrompt
  | [] => []
  | .taken _ id prompt::rest => takenIn jobId rest++(if id = jobId then [prompt] else [])
  | _::rest => takenIn jobId rest

def Orderly : List Happening → Prop
  | [] => True
  | .admitted _ id token::rest => live id rest = some token ∧ Orderly rest
  | .looked call id grants::rest =>
    (grantsIn id rest = some grants ∧ ∃ token, .admitted call id token ∈ rest) ∧ Orderly rest
  | .taken call id _::rest => (∃ token, .admitted call id token ∈ rest) ∧ Orderly rest
  | _::rest => Orderly rest

structure Invariant (s : Shared) : Prop where
  tokens : ∀ id, s.tokens id = live id s.history
  grants : ∀ id, s.grants id = grantsIn id s.history
  prompts : ∀ id, takenIn id s.history++s.prompts id = queuedIn id s.history
  orderly : Orderly s.history

def byCall (call : ℕ) : Happening → Bool
  | .admitted c _ _ | .looked c _ _ | .taken c _ _ => c = call
  | _ => false

def own (call : ℕ) (history : List Happening) : List Happening := history.filter (byCall call)

def protocol : Protocol ℕ Shared Input where
  inv := Invariant
  allowed _ _ _ := True
  mayPanic := False
  guar i s t := s.history <:+ t.history ∧ ∀ j, j ≠ i → own j t.history = own j s.history
  rely i s t := s.history <:+ t.history ∧ own i t.history = own i s.history
  idle i s := own i s.history = []
  rely_refl _ _ := ⟨List.suffix_refl _, rfl⟩
  rely_trans _ _ _ _ hst htu := ⟨hst.1.trans htu.1, htu.2.trans hst.2⟩
  guar_rely i _ _ _ hij h := ⟨h.1, h.2 i hij⟩
  idle_rely _ _ _ hs h := h.2.trans hs

def Served (history : List Happening) : List CredentialGrant → List CredentialResponse → Prop :=
  List.Forall₂ (fun grant response =>
    response.envVar = grant.envVar ∧ .decrypted grant.secretName response.value ∈ history)

theorem served_grows {older newer : List Happening} (hsuffix : older <:+ newer)
    {grants : List CredentialGrant} {credentials : List CredentialResponse}
    (h : Served older grants credentials) : Served newer grants credentials :=
  h.imp (fun _ _ hpair => ⟨hpair.1, hsuffix.subset hpair.2⟩)

/-! ## Steps -/

section

variable {α : Type} {i : ℕ}

variable (jobId : Uuid) (token : String) (l : List Happening)

theorem own_admitted (history : List Happening) :
    own i (.admitted i jobId token::history) = .admitted i jobId token::own i history :=
  List.filter_cons_of_pos (decide_eq_true rfl)

theorem own_looked (grants : List CredentialGrant) (history : List Happening) :
    own i (.looked i jobId grants::history) = .looked i jobId grants::own i history :=
  List.filter_cons_of_pos (decide_eq_true rfl)

theorem own_taken (prompt : PendingPrompt) (history : List Happening) :
    own i (.taken i jobId prompt::history) = .taken i jobId prompt::own i history :=
  List.filter_cons_of_pos (decide_eq_true rfl)

def Stable (i : ℕ) (A : Shared → Prop) : Prop := ∀ s t, protocol.rely i s t → A s → A t

theorem own_stable : Stable i (fun s => own i s.history = l) :=
  fun _ _ hrely h => hrely.2.trans h

/-- The rule of a step of call `i`, by what it adds to the history. -/
theorem logs_meets {A : Shared → Prop} {post : α → Shared → Prop}
    (f : Input → Shared → α × Shared) (hstable : ∀ a, Stable i (post a))
    (h : ∀ e s, Invariant s → A s → Invariant (f e s).2 ∧
      (∃ new, (f e s).2.history = new++s.history ∧ ∀ x ∈ new, ∀ j, j ≠ i → byCall j x = false) ∧
      post (f e s).1 (f e s).2) :
    Meets protocol i post A (perform f) := by
  apply meets_perform
  intro e s hs _ hA
  obtain ⟨hinv, ⟨new, hnew, hothers⟩, hpost⟩ := h e s hs hA
  refine ⟨hinv, ⟨⟨new, hnew.symm⟩, fun j hj => ?_⟩, fun t _ hrely => hstable _ _ t hrely hpost⟩
  have hnone : own j new = [] := by
    rw [own, List.filter_eq_nil_iff]
    intro x hx
    rw [hothers x hx j hj]
    decide
  rw [hnew, own, List.filter_append]
  exact congrArg (·++own j s.history) hnone

theorem still_orderly {s : Shared} (h : Invariant s) : Invariant s ∧
    ∃ new, s.history = new++s.history ∧ ∀ x ∈ new, ∀ j, j ≠ i → byCall j x = false :=
  ⟨h, [], rfl, fun _ hx => absurd hx (List.not_mem_nil)⟩

theorem one_new {x : Happening} {history : List Happening}
    (hx : ∀ j, j ≠ i → byCall j x = false) :
    ∃ new, x::history = new++history ∧ ∀ y ∈ new, ∀ j, j ≠ i → byCall j y = false :=
  ⟨[x], rfl, fun _ hy => List.mem_singleton.mp hy ▸ hx⟩

theorem createToken_meets (jobId : Uuid) :
    Meets protocol i (fun _ s => own i s.history = l) (fun s => own i s.history = l)
      (createToken jobId) := by
  apply logs_meets _ (fun _ => own_stable l)
  intro e s hs hown
  refine ⟨⟨fun id => ?_, hs.grants, hs.prompts, hs.orderly⟩, one_new (fun _ _ => rfl), hown⟩
  simp only [live, Function.update_apply, hs.tokens id, eq_comm]

theorem revoke_meets (jobId : Uuid) :
    Meets protocol i (fun _ s => own i s.history = l) (fun s => own i s.history = l)
      (revoke jobId) := by
  apply meets_bind
  · apply logs_meets _ (fun _ => own_stable l)
    intro e s hs hown
    refine ⟨⟨fun id => ?_, hs.grants, hs.prompts, hs.orderly⟩, one_new (fun _ _ => rfl), hown⟩
    simp only [live, Function.update_apply, hs.tokens id, eq_comm]
  · intro _
    apply logs_meets _ (fun _ => own_stable l)
    intro e s hs hown
    refine ⟨⟨hs.tokens, fun id => ?_, hs.prompts, hs.orderly⟩, one_new (fun _ _ => rfl), hown⟩
    simp only [grantsIn, Function.update_apply, hs.grants id, eq_comm]

theorem storeGrants_meets (jobId : Uuid) (grants : List CredentialGrant) :
    Meets protocol i (fun _ s => own i s.history = l) (fun s => own i s.history = l)
      (storeGrants jobId grants) := by
  unfold storeGrants
  split
  · exact meets_done _ (fun _ _ h => h)
  · apply logs_meets _ (fun _ => own_stable l)
    intro e s hs hown
    refine ⟨⟨hs.tokens, fun id => ?_, hs.prompts, hs.orderly⟩, one_new (fun _ _ => rfl), hown⟩
    simp only [grantsIn, Function.update_apply, hs.grants id, eq_comm]

theorem queuePrompt_meets (jobId : Uuid) (prompt : PendingPrompt) :
    Meets protocol i (fun _ s => own i s.history = l ∧ .queued jobId prompt ∈ s.history)
      (fun s => own i s.history = l) (queuePrompt jobId prompt) := by
  apply meets_through (fun _ s => own i s.history = l ∧ .queued jobId prompt ∈ s.history)
  · apply logs_meets _
    · intro _ s t hrely h
      exact ⟨own_stable l s t hrely h.1, hrely.1.subset h.2⟩
    intro e s hs hown
    refine ⟨⟨hs.tokens, hs.grants, fun id => ?_, hs.orderly⟩, one_new (fun _ _ => rfl), hown,
      List.mem_cons_self⟩
    have hprompts := hs.prompts id
    by_cases hid : id = jobId
    · rw [hid] at hprompts ⊢
      simp only [takenIn, queuedIn, Function.update_self, if_true, ← hprompts, List.append_assoc]
    · have hother : ¬ jobId = id := fun heq => hid heq.symm
      simp only [takenIn, queuedIn, Function.update_of_ne hid, if_neg hother, List.append_nil,
        hprompts]
  · intro _
    exact meets_done _ (fun _ _ h => h)

theorem validate_meets :
    Meets protocol i
      (fun valid s => own i s.history = if valid then [.admitted i jobId token] else [])
      (fun s => own i s.history = []) (validate i jobId token) := by
  apply logs_meets _ (fun _ => own_stable _)
  intro e s hs hown
  by_cases hlive : s.tokens jobId = some token
  · simp only [if_pos hlive]
    refine ⟨⟨hs.tokens, hs.grants, hs.prompts, ⟨?_, hs.orderly⟩⟩, ?_, ?_⟩
    · rw [← hs.tokens jobId, hlive]
    · exact one_new (fun j hj => decide_eq_false (fun heq => hj heq.symm))
    · exact (own_admitted _ _ _).trans (congrArg _ hown)
  · simp only [if_neg hlive]
    exact ⟨hs, (still_orderly hs).2, hown⟩

def Admitted (i : ℕ) (jobId : Uuid) (token : String) (s : Shared) : Prop :=
  own i s.history = [.admitted i jobId token]

theorem admitted_mem {jobId : Uuid} {token : String} {s : Shared}
    (h : Admitted i jobId token s) : Happening.admitted i jobId token ∈ s.history := by
  have hmem : Happening.admitted i jobId token ∈ own i s.history := by
    rw [h]
    exact List.mem_cons_self
  exact (List.mem_filter.mp hmem).1

def Untaken (i : ℕ) (s : Shared) : Prop := ∀ id p, .taken i id p ∉ own i s.history

theorem untaken_stable : Stable i (Untaken i) := by
  intro s t hrely h id p
  rw [hrely.2]
  exact h id p

theorem untaken_of {l : List Happening} {s : Shared} (h : own i s.history = l)
    (hl : ∀ id p, .taken i id p ∉ l) : Untaken i s := by
  intro id p
  rw [h]
  exact hl id p

theorem admitted_untaken {jobId : Uuid} {token : String} {s : Shared}
    (h : Admitted i jobId token s) : Untaken i s := untaken_of h (by simp)

def Answered (i : ℕ) (jobId : Uuid) (token : String) : Reply → Shared → Prop
  | .prompt p, s => own i s.history = [.taken i jobId p, .admitted i jobId token]
  | .credentials list, s => ∃ grants, Served s.history grants list ∧
      own i s.history = [.looked i jobId grants, .admitted i jobId token]
  | _, s => Untaken i s

theorem answered_stable (reply : Reply) :
    Stable i (Answered i jobId token reply) := by
  intro s t hrely h
  cases reply with
  | prompt p => exact own_stable _ s t hrely h
  | credentials list =>
    obtain ⟨grants, hserved, hown⟩ := h
    exact ⟨grants, served_grows hrely.1 hserved, hrely.2.trans hown⟩
  | status _ | created _ | done => exact untaken_stable s t hrely h

theorem getPrompt_meets :
    Meets protocol i (Answered i jobId token) (Admitted i jobId token) (getPrompt i jobId) := by
  apply logs_meets _ (answered_stable jobId token)
  · intro e s hs hown
    cases hprompts : s.prompts jobId with
    | nil => exact ⟨hs, (still_orderly hs).2, admitted_untaken hown⟩
    | cons p rest =>
      refine ⟨⟨hs.tokens, hs.grants, fun id => ?_,
        ⟨⟨token, admitted_mem hown⟩, hs.orderly⟩⟩, ?_, ?_⟩
      · have hqueue := hs.prompts id
        by_cases hid : id = jobId
        · rw [hid] at hqueue ⊢
          rw [hprompts] at hqueue
          simp only [takenIn, queuedIn, Function.update_self, if_true, List.append_assoc,
            List.singleton_append, hqueue]
        · have hother : ¬ jobId = id := fun heq => hid heq.symm
          simp only [takenIn, queuedIn, Function.update_of_ne hid, if_neg hother,
            List.append_nil, hqueue]
      · exact one_new (fun j hj => decide_eq_false (fun heq => hj heq.symm))
      · exact (own_taken _ _ _).trans (congrArg _ hown)

def Looked (i : ℕ) (jobId : Uuid) (token : String) (grants : List CredentialGrant)
    (s : Shared) : Prop := own i s.history = [.looked i jobId grants, .admitted i jobId token]

theorem looked_untaken {jobId : Uuid} {token : String} {grants : List CredentialGrant}
    {s : Shared} (h : Looked i jobId token grants s) : Untaken i s := untaken_of h (by simp)

theorem getGrants_meets :
    Meets protocol i
      (fun found s => (∀ grants, found = some grants → Looked i jobId token grants s) ∧
        (found = none → Admitted i jobId token s))
      (Admitted i jobId token) (getGrants i jobId) := by
  apply logs_meets
  · intro found s t hrely h
    exact ⟨fun grants hfound => own_stable _ s t hrely (h.1 grants hfound),
      fun hnone => own_stable _ s t hrely (h.2 hnone)⟩
  · intro e s hs hown
    cases hgrants : s.grants jobId with
    | none => exact ⟨hs, (still_orderly hs).2, fun _ h => (nomatch h), fun _ => hown⟩
    | some grants =>
      refine ⟨⟨hs.tokens, hs.grants, hs.prompts, ⟨⟨?_, token, admitted_mem hown⟩, hs.orderly⟩⟩,
        ?_, ?_, fun h => (nomatch h)⟩
      · rw [← hs.grants jobId, hgrants]
      · exact one_new (fun j hj => decide_eq_false (fun heq => hj heq.symm))
      · intro found hfound
        obtain rfl := Option.some.inj hfound
        exact (own_looked _ _ _).trans (congrArg _ hown)

def Serving (i : ℕ) (jobId : Uuid) (token : String) (served grants : List CredentialGrant)
    (credentials : List CredentialResponse) (s : Shared) : Prop :=
  Served s.history served credentials ∧ Looked i jobId token (served++grants) s

theorem serving_stable (served grants : List CredentialGrant)
    (credentials : List CredentialResponse) :
    Stable i (Serving i jobId token served grants credentials) :=
  fun s t hrely h => ⟨served_grows hrely.1 h.1, own_stable _ s t hrely h.2⟩

theorem getDecrypted_meets (grant : CredentialGrant) (served grants : List CredentialGrant)
    (credentials : List CredentialResponse) :
    Meets protocol i
      (fun found s => (∀ value, found = .ok value → Serving i jobId token (served++[grant]) grants
          (credentials++[⟨grant.envVar, value⟩]) s) ∧ Untaken i s)
      (Serving i jobId token served (grant::grants) credentials)
      (getDecrypted grant.secretName) := by
  apply logs_meets
  · intro found s t hrely h
    exact ⟨fun value hvalue => serving_stable _ _ _ _ _ s t hrely (h.1 value hvalue),
      untaken_stable s t hrely h.2⟩
  · intro e s hs hserving
    cases hdecrypt : e.decrypt grant.secretName with
    | error err =>
      exact ⟨hs, (still_orderly hs).2, fun _ h => (nomatch h), looked_untaken hserving.2⟩
    | ok value =>
      refine ⟨⟨hs.tokens, hs.grants, hs.prompts, hs.orderly⟩, one_new (fun _ _ => rfl), ?_,
        looked_untaken hserving.2⟩
      intro found hfound
      obtain rfl := Except.ok.inj hfound
      refine ⟨?_, ?_⟩
      · exact List.rel_append (served_grows (List.suffix_cons _ _) hserving.1)
          (.cons ⟨rfl, List.mem_cons_self⟩ .nil)
      · rw [Looked, List.append_assoc]
        exact hserving.2

theorem serveGrants_meets (grants : List CredentialGrant) (served : List CredentialGrant)
    (credentials : List CredentialResponse) :
    Meets protocol i (Answered i jobId token) (Serving i jobId token served grants credentials)
      (serveGrants grants credentials) := by
  induction grants generalizing served credentials with
  | nil =>
    apply meets_done
    rintro s _ ⟨hserved, hlooked⟩
    rw [List.append_nil] at hlooked
    exact ⟨served, hserved, hlooked⟩
  | cons grant grants ih =>
    apply meets_bind (getDecrypted_meets jobId token grant served grants credentials)
    rintro (err | value)
    · exact meets_done _ (fun _ _ h => h.2)
    · exact meets_pre _ (fun s _ h => h.1 value rfl) (ih _ _)

theorem getCredentials_meets (hasSecrets : Bool) (jobId : Uuid) (token : String) :
    Meets protocol i (Answered i jobId token) (Admitted i jobId token)
      (getCredentials hasSecrets i jobId) := by
  apply meets_bind (getGrants_meets jobId token)
  rintro (_ | ⟨_ | ⟨grant, grants⟩⟩)
  · exact meets_done _ (fun _ _ h => admitted_untaken (h.2 rfl))
  · exact meets_done _ (fun _ _ h => looked_untaken (h.1 [] rfl))
  · dsimp only
    split
    · exact meets_pre _ (fun s _ h => ⟨.nil, h.1 _ rfl⟩) (serveGrants_meets jobId token _ [] [])
    · exact meets_done _ (fun _ _ h => looked_untaken (h.1 _ rfl))

theorem handle_meets (hasSecrets : Bool) (jobId : Uuid) (token : String) (endpoint : Endpoint) :
    Meets protocol i (Answered i jobId token) (Admitted i jobId token)
      (handle hasSecrets i jobId endpoint) := by
  cases endpoint with
  | prompt => exact getPrompt_meets jobId token
  | credentials => exact getCredentials_meets hasSecrets jobId token
  | complete =>
    apply meets_bind (revoke_meets _ jobId)
    intro _
    exact meets_done _ (fun _ _ h => admitted_untaken h)
  | other =>
    apply logs_meets _ (answered_stable jobId token)
    intro e s hs hown
    exact ⟨hs, (still_orderly hs).2, admitted_untaken hown⟩

/-! ## The job of a request -/

section

variable (crates : Crates)

structure Documented : Prop where
  decode : ∀ s : String, '%' ∉ s.toList → crates.percentDecode s = some s
  parse : ∀ s : String, '%' ∈ s.toList → crates.parseUuid s = none

variable {crates}

theorem pathParts_slash (rest : List Char) : pathParts ('/' ::rest) = ""::pathParts rest := by
  simp [pathParts, List.splitOn_eq_splitOnP, List.splitOnP_cons_eq_if_modifyHead]

/-- Only a slash ends an empty part. -/
theorem pathParts_empty (path : List Char) (part : String) (parts : List String)
    (h : pathParts path = ""::part::parts) : ∃ rest, path = '/' ::rest := by
  cases path with
  | nil => cases h
  | cons c rest =>
    by_cases hc : c = '/'
    · exact ⟨rest, by rw [hc]⟩
    · exfalso
      obtain ⟨first, more, hsplit⟩ :=
        List.exists_cons_of_ne_nil (List.splitOnP_ne_nil (fun d => d == '/') rest)
      have hparts : pathParts (c::rest) = String.ofList (c::first)::more.map String.ofList := by
        simp [pathParts, List.splitOn_eq_splitOnP, List.splitOnP_cons_eq_if_modifyHead, hc, hsplit]
      rw [hparts] at h
      have hhead := congrArg String.toList (List.cons.inj h).1
      simp at hhead

theorem pathParts_absolute (path : List Char) (part : String) (parts : List String)
    (hne : part ≠ "") (h : pathParts path = ""::part::parts) :
    pathParts (path.dropWhile (fun c => c = '/')) = part::parts := by
  obtain ⟨rest, rfl⟩ := pathParts_empty path part parts h
  rw [pathParts_slash] at h
  have hrest := (List.cons.inj h).2
  have hhead : rest.head? ≠ some '/' := by
    intro heq
    obtain ⟨more, rfl⟩ := List.head?_eq_some_iff.mp heq
    rw [pathParts_slash] at hrest
    exact hne (List.cons.inj hrest).1.symm
  have hdrop : rest.dropWhile (fun c => decide (c = '/')) = rest := by
    cases rest with
    | nil => rfl
    | cons d rest =>
      have hd : ¬ d = '/' := fun heq => hhead (by rw [heq]; rfl)
      rw [List.dropWhile_cons, decide_eq_false hd]
      rfl
  rw [List.dropWhile_cons, decide_eq_true rfl, if_pos rfl, hdrop, hrest]

/-- The handler's job is the one that the middleware read from the path. -/
theorem route_job (hcrates : Documented crates) (path segment : String) (endpoint : Endpoint)
    (jobId : Uuid) (hroute : route path = some (segment, endpoint))
    (hjob : extractJobIdFromPath crates path = some jobId) :
    (crates.percentDecode segment).bind crates.parseUuid = some jobId := by
  unfold route at hroute
  split at hroute
  · next id rest hparts =>
    split at hroute
    · cases hroute
    · obtain ⟨e, he, hpair⟩ := Option.map_eq_some_iff.mp hroute
      obtain ⟨rfl, -⟩ := Prod.mk.inj hpair
      have hworker := pathParts_absolute _ _ _ (by decide) hparts
      rw [extractJobIdFromPath, hworker] at hjob
      change crates.parseUuid id = some jobId at hjob
      by_cases hpercent : '%' ∈ id.toList
      · rw [hcrates.parse id hpercent] at hjob
        cases hjob
      · rw [hcrates.decode id hpercent]
        exact hjob
  · cases hroute

def Presents (crates : Crates) (r : Request) (jobId : Uuid) (token : String) : Prop :=
  extractJobIdFromPath crates r.path = some jobId ∧ bearer r.authorization = some token

def Replied (crates : Crates) (i : ℕ) : Question → Reply → Shared → Prop
  | .request r, .prompt p, s => ∃ jobId token, Presents crates r jobId token ∧
      own i s.history = [.taken i jobId p, .admitted i jobId token]
  | .request r, .credentials list, s => ∃ jobId token, Presents crates r jobId token ∧
      ∃ grants, Served s.history grants list ∧
        own i s.history = [.looked i jobId grants, .admitted i jobId token]
  | .queuePrompt jobId prompt, _, s => Untaken i s ∧ .queued jobId prompt ∈ s.history
  | _, _, s => Untaken i s

theorem answered_replied (r : Request) (jobId : Uuid) (token : String)
    (hpresents : Presents crates r jobId token) (reply : Reply) (s : Shared)
    (h : Answered i jobId token reply s) : Replied crates i (.request r) reply s := by
  cases reply with
  | prompt p => exact ⟨jobId, token, hpresents, h⟩
  | credentials list => exact ⟨jobId, token, hpresents, h⟩
  | status _ | created _ | done => exact h

theorem status_meets (r : Request) (code : ℕ) (l : List Happening)
    (hl : ∀ id p, .taken i id p ∉ l) :
    Meets protocol i (Replied crates i (.request r)) (fun s => own i s.history = l)
      (pure (.status code) : Work Reply) :=
  meets_done _ (fun _ _ h => untaken_of h hl)

theorem workerRequest_meets (hcrates : Documented crates) (hasSecrets : Bool) (r : Request) :
    Meets protocol i (Replied crates i (.request r)) (fun s => own i s.history = [])
      (workerRequest crates hasSecrets i r) := by
  unfold workerRequest
  split
  · exact status_meets r 404 [] (by simp)
  · next segment endpoint hroute =>
    split
    · exact status_meets r 400 [] (by simp)
    · next jobId hjob =>
      split
      · exact status_meets r 401 [] (by simp)
      · next token htoken =>
        apply meets_bind (validate_meets jobId token)
        rintro (_ | _)
        · exact status_meets r 401 [] (by simp)
        · have hsame := route_job hcrates r.path segment endpoint jobId hroute hjob
          simp only [hsame, if_true]
          exact meets_post _
            (fun reply s _ h => answered_replied r jobId token ⟨hjob, htoken⟩ reply s h)
            (handle_meets hasSecrets jobId token endpoint)

theorem createJob_meets (jobId : Uuid) (grants : List CredentialGrant) :
    Meets protocol i (Replied crates i (.createJob jobId grants)) (fun s => own i s.history = [])
      (createJob jobId grants) := by
  apply meets_bind (createToken_meets [] jobId)
  intro token
  apply meets_bind (storeGrants_meets [] jobId grants)
  intro _
  apply meets_through (fun _ s => own i s.history = [])
  · apply logs_meets _ (fun _ => own_stable _)
    intro e s hs hown
    exact ⟨hs, (still_orderly hs).2, hown⟩
  · rintro (_ | _)
    · apply meets_bind (revoke_meets [] jobId)
      intro _
      exact meets_done _ (fun _ _ h => untaken_of h (by simp))
    · exact meets_done _ (fun _ _ h => untaken_of h (by simp))

theorem program_meets (hcrates : Documented crates) (hasSecrets : Bool) (i : ℕ)
    (question : Question) :
    Meets protocol i (Replied crates i question) (fun s => own i s.history = [])
      (program crates hasSecrets i question) := by
  cases question with
  | request r => exact workerRequest_meets hcrates hasSecrets r
  | createJob jobId grants => exact createJob_meets jobId grants
  | stopJob jobId =>
    apply meets_bind (revoke_meets [] jobId)
    intro _
    exact meets_done _ (fun _ _ h => untaken_of h (by simp))
  | queuePrompt jobId prompt =>
    apply meets_post _ _ (queuePrompt_meets [] jobId prompt)
    intro _ s _ h
    exact ⟨untaken_of h.1 (by simp), h.2⟩

end

end

/-! ## Every run -/

theorem orderly_rest (newer older : List Happening) (h : Orderly (newer++older)) :
    Orderly older := by
  induction newer with
  | nil => exact h
  | cons x newer ih =>
    refine ih ?_
    cases x with
    | admitted _ _ _ | looked _ _ _ | taken _ _ _ => exact h.2
    | issued _ _ | revoked _ | granted _ _ | withdrawn _ | decrypted _ _ | queued _ _ => exact h

theorem admitted_live {call : ℕ} {jobId : Uuid} {token : String} {history : List Happening}
    (h : Orderly history) (hin : .admitted call jobId token ∈ history) :
    ∃ older, .admitted call jobId token::older <:+ history ∧ live jobId older = some token := by
  obtain ⟨newer, older, rfl⟩ := List.append_of_mem hin
  exact ⟨older, List.suffix_append _ _, (orderly_rest newer _ h).1⟩

theorem own_mem {call : ℕ} {x : Happening} {history l : List Happening}
    (h : own call history = l) (hx : x ∈ l) : x ∈ history :=
  (List.mem_filter.mp (h ▸ hx)).1

theorem own_token {call : ℕ} {jobId : Uuid} {token token' : String} {x : Happening}
    {history : List Happening} (h : own call history = [x, .admitted call jobId token])
    (hx : x ≠ .admitted call jobId token') (hin : .admitted call jobId token' ∈ history) :
    token' = token := by
  have hown : Happening.admitted call jobId token' ∈ own call history :=
    List.mem_filter.mpr ⟨hin, decide_eq_true rfl⟩
  rw [h] at hown
  rcases List.mem_pair.mp hown with heq | heq
  · exact absurd heq.symm hx
  · injection heq

def Prompting (i : ℕ) : Work Reply → Prop
  | .done _ => True
  | .panicked => True
  | .act _ update next => ∀ e s, Prompting i (next e s) ∧ ∀ j jobId p,
      .taken j jobId p ∈ (update e s).history → .taken j jobId p ∉ s.history →
        j = i ∧ next e s = .done (.prompt p)

def Silent {α : Type} : Work α → Prop
  | .done _ => True
  | .panicked => True
  | .act _ update next => ∀ e s, Silent (next e s) ∧ ∀ j jobId p,
      .taken j jobId p ∈ (update e s).history → .taken j jobId p ∈ s.history

theorem silent_bind {α β : Type} {task : Work α} {k : α → Work β} (h : Silent task)
    (hk : ∀ a, Silent (k a)) : Silent (task >>= k) := by
  induction task with
  | done a => exact hk a
  | panicked => trivial
  | act ready update next ih => exact fun e s => ⟨ih e s (h e s).1, (h e s).2⟩

theorem prompting_bind {α : Type} {i : ℕ} {task : Work α} {k : α → Work Reply} (h : Silent task)
    (hk : ∀ a, Prompting i (k a)) : Prompting i (task >>= k) := by
  induction task with
  | done a => exact hk a
  | panicked => trivial
  | act ready update next ih =>
    exact fun e s => ⟨ih e s (h e s).1, fun j id p hin hnot => absurd ((h e s).2 j id p hin) hnot⟩

theorem prompting_silent {i : ℕ} {task : Work Reply} (h : Silent task) : Prompting i task := by
  induction task with
  | done a => trivial
  | panicked => trivial
  | act ready update next ih =>
    exact fun e s => ⟨ih e s (h e s).1, fun j id p hin hnot => absurd ((h e s).2 j id p hin) hnot⟩

section

variable (crates : Crates) (hasSecrets : Bool)

theorem revoke_silent (jobId : Uuid) : Silent (revoke jobId) := by
  refine silent_bind (fun e s => ⟨trivial, fun j id p hin => ?_⟩)
    (fun _ e s => ⟨trivial, fun j id p hin => ?_⟩)
  · simpa using hin
  · simpa using hin

theorem serveGrants_silent (grants : List CredentialGrant)
    (credentials : List CredentialResponse) : Silent (serveGrants grants credentials) := by
  induction grants generalizing credentials with
  | nil => trivial
  | cons grant grants ih =>
    refine silent_bind (fun e s => ⟨trivial, fun j id p hin => ?_⟩) fun found => ?_
    · revert hin
      dsimp only
      cases e.decrypt grant.secretName with
      | error err => exact fun hin => hin
      | ok value => exact fun hin => by simpa using hin
    · cases found with
      | error err => trivial
      | ok value => exact ih _

theorem getCredentials_silent (call : ℕ) (jobId : Uuid) :
    Silent (getCredentials hasSecrets call jobId) := by
  refine silent_bind (fun e s => ⟨trivial, fun j id p hin => ?_⟩) fun found => ?_
  · revert hin
    dsimp only
    cases s.grants jobId with
    | none => exact fun hin => hin
    | some grants => exact fun hin => by simpa using hin
  · match found with
    | none | some [] => trivial
    | some (grant::grants) =>
      dsimp only
      split
      · exact serveGrants_silent _ _
      · trivial

theorem getPrompt_prompting (call : ℕ) (jobId : Uuid) :
    Prompting call (getPrompt call jobId) := by
  refine fun e s => ⟨trivial, fun j id p hin hnot => ?_⟩
  revert hin
  dsimp only
  cases s.prompts jobId with
  | nil => exact fun hin => absurd hin hnot
  | cons prompt rest =>
    intro hin
    rcases List.mem_cons.mp hin with heq | hold
    · cases heq
      exact ⟨rfl, rfl⟩
    · exact absurd hold hnot

theorem handle_prompting (call : ℕ) (jobId : Uuid) (endpoint : Endpoint) :
    Prompting call (handle hasSecrets call jobId endpoint) := by
  cases endpoint with
  | prompt => exact getPrompt_prompting call jobId
  | credentials => exact prompting_silent (getCredentials_silent hasSecrets call jobId)
  | complete => exact prompting_silent (silent_bind (revoke_silent jobId) fun _ => trivial)
  | other => exact prompting_silent (fun e s => ⟨trivial, fun _ _ _ hin => hin⟩)

theorem workerRequest_prompting (call : ℕ) (r : Request) :
    Prompting call (workerRequest crates hasSecrets call r) := by
  unfold workerRequest
  split
  · trivial
  · split
    · trivial
    · next jobId _ =>
      split
      · trivial
      · next token _ =>
        refine prompting_bind (fun e s => ⟨trivial, fun j id p hin => ?_⟩) fun valid => ?_
        · revert hin
          dsimp only
          split
          · exact fun hin => by simpa using hin
          · exact fun hin => hin
        · split
          · split
            · trivial
            · exact handle_prompting hasSecrets call _ _
          · trivial

theorem createJob_silent (jobId : Uuid) (grants : List CredentialGrant) :
    Silent (createJob jobId grants) := by
  refine silent_bind (fun e s => ⟨trivial, fun j id p hin => by simpa using hin⟩) fun token => ?_
  refine silent_bind ?_ fun _ => ?_
  · unfold storeGrants
    split
    · trivial
    · exact fun e s => ⟨trivial, fun j id p hin => by simpa using hin⟩
  · refine silent_bind (fun e s => ⟨trivial, fun j id p hin => hin⟩) fun started => ?_
    cases started with
    | true => trivial
    | false => exact silent_bind (revoke_silent jobId) fun _ => trivial

theorem program_prompting (i : ℕ) (question : Question) :
    Prompting i (program crates hasSecrets i question) := by
  cases question with
  | request r => exact workerRequest_prompting crates hasSecrets i r
  | createJob jobId grants => exact prompting_silent (createJob_silent jobId grants)
  | stopJob jobId => exact prompting_silent (silent_bind (revoke_silent jobId) fun _ => trivial)
  | queuePrompt jobId prompt =>
    exact prompting_silent (silent_bind
      (fun e s => ⟨trivial, fun j id p hin => by simpa using hin⟩) fun _ => trivial)

def after (events : List (Event ℕ Question Input)) : Pool ℕ Question Shared Input Reply :=
  run (step (program crates hasSecrets)) events (Pool.new Shared.new)

theorem after_working (hcrates : Documented crates) (events : List (Event ℕ Question Input)) :
    Working protocol (fun i => Replied crates i) (after crates hasSecrets events) := by
  apply run_working (program crates hasSecrets) (program_meets hcrates hasSecrets) events
  · exact ⟨fun _ => rfl, fun _ => rfl, fun _ => rfl, trivial⟩
  · exact fun _ => rfl
  · apply along_all
    intro event _ s
    cases event <;> trivial

structure Handed (p : Pool ℕ Question Shared Input Reply) : Prop where
  prompting : ∀ i question task, p.tasks i = some (question, task) → Prompting i task
  taken : ∀ i jobId prompt, .taken i jobId prompt ∈ p.shared.history →
    ∃ question, p.tasks i = some (question, .done (.prompt prompt))

theorem handed_step (event : Event ℕ Question Input) (p : Pool ℕ Question Shared Input Reply)
    (h : Handed p) : Handed (step (program crates hasSecrets) event p) := by
  cases event with
  | start id question =>
    rw [step]
    split
    · exact h
    · next hnone =>
      refine ⟨fun i q task hi => ?_, fun i jobId prompt hin => ?_⟩
      · dsimp only at hi
        rw [Function.update_apply] at hi
        split at hi
        · next hid =>
          obtain ⟨-, rfl⟩ := Prod.mk.inj (Option.some.inj hi)
          exact hid ▸ program_prompting crates hasSecrets id question
        · exact h.prompting i q task hi
      · obtain ⟨q, hq⟩ := h.taken i jobId prompt hin
        have hid : i ≠ id := by
          rintro rfl
          rw [hnone] at hq
          cases hq
        exact ⟨q, (Function.update_of_ne hid _ _).trans hq⟩
  | advance id input =>
    rw [step]
    split
    · next question ready update next hrun =>
      split
      · obtain ⟨hnext, hnew⟩ := h.prompting id question _ hrun input p.shared
        refine ⟨fun i q task hi => ?_, fun i jobId prompt hin => ?_⟩
        · dsimp only at hi
          rw [Function.update_apply] at hi
          split at hi
          · next hid =>
            obtain ⟨-, rfl⟩ := Prod.mk.inj (Option.some.inj hi)
            exact hid ▸ hnext
          · exact h.prompting i q task hi
        · by_cases hold : .taken i jobId prompt ∈ p.shared.history
          · obtain ⟨q, hq⟩ := h.taken i jobId prompt hold
            have hid : i ≠ id := by
              rintro rfl
              rw [hrun] at hq
              cases hq
            exact ⟨q, (Function.update_of_ne hid _ _).trans hq⟩
          · obtain ⟨rfl, hdone⟩ := hnew i jobId prompt hin hold
            refine ⟨question, ?_⟩
            rw [← hdone]
            exact Function.update_self _ _ _
      · exact h
    · exact h

theorem after_prompting (events : List (Event ℕ Question Input)) (i : ℕ) (jobId : Uuid)
    (p : PendingPrompt)
    (h : .taken i jobId p ∈ (after crates hasSecrets events).shared.history) :
    ∃ question, (after crates hasSecrets events).returned i question (.prompt p) := by
  have hhanded : Handed (after crates hasSecrets events) := by
    refine run_invariant _ Handed (handed_step crates hasSecrets) events _ ⟨?_, ?_⟩
    · intro i question task hnone
      cases hnone
    · intro i jobId prompt hnone
      cases hnone
  exact hhanded.taken i jobId p h

theorem after_replied (hcrates : Documented crates) (events : List (Event ℕ Question Input))
    (i : ℕ) (question : Question) (reply : Reply)
    (h : (after crates hasSecrets events).returned i question reply) :
    Replied crates i question reply (after crates hasSecrets events).shared := by
  have hworking := after_working crates hasSecrets hcrates events
  exact hworking.meets i question _ h _ hworking.inv (protocol.rely_refl i _)

/-- In every run, credentials are given to a request that presented the token
its job had when it was admitted, and they are the decrypted secrets of all the
grants that the job had when they were looked up, in their order. -/
theorem credentials_granted (hcrates : Documented crates)
    (events : List (Event ℕ Question Input)) (i : ℕ) (r : Request)
    (list : List CredentialResponse)
    (h : (after crates hasSecrets events).returned i (.request r) (.credentials list)) :
    ∃ jobId token grants before older, Presents crates r jobId token ∧
      .admitted i jobId token::older <:+ before ∧ live jobId older = some token ∧
      .looked i jobId grants::before <:+ (after crates hasSecrets events).shared.history ∧
      grantsIn jobId before = some grants ∧
      Served (after crates hasSecrets events).shared.history grants list := by
  obtain ⟨jobId, token, hpresents, grants, hserved, hown⟩ :=
    after_replied crates hasSecrets hcrates events i (.request r) (.credentials list) h
  have horderly := (after_working crates hasSecrets hcrates events).inv.orderly
  obtain ⟨newer, before, hsplit⟩ := List.append_of_mem (own_mem hown List.mem_cons_self)
  have hbefore := orderly_rest newer _ (hsplit ▸ horderly)
  obtain ⟨⟨hgrants, token', hadmitted⟩, hrest⟩ := hbefore
  have hsame : token' = token := by
    refine own_token hown (by simp) ?_
    rw [hsplit]
    exact List.mem_append_right _ (List.mem_cons_of_mem _ hadmitted)
  obtain ⟨older, holder, hlive⟩ := admitted_live hrest hadmitted
  rw [hsame] at holder hlive
  exact ⟨jobId, token, grants, before, older, hpresents, holder, hlive,
    hsplit ▸ List.suffix_append _ _, hgrants, hserved⟩

def Delivered (i : ℕ) (r : Request) (history : List Happening) : Reply → Prop
  | .prompt p => ∃ jobId token older, Presents crates r jobId token ∧
      own i history = [.taken i jobId p, .admitted i jobId token] ∧
      .admitted i jobId token::older <:+ history ∧ live jobId older = some token
  | _ => ∀ jobId p, .taken i jobId p ∉ history

/-- In every run, the prompts that were taken for a job and those that wait are
the ones that were queued, in their order. Each taken prompt was answered by
the one request that took it. -/
theorem prompts_once (hcrates : Documented crates) (events : List (Event ℕ Question Input)) :
    (∀ jobId, takenIn jobId (after crates hasSecrets events).shared.history++
        (after crates hasSecrets events).shared.prompts jobId =
      queuedIn jobId (after crates hasSecrets events).shared.history) ∧
    (∀ i jobId p, .taken i jobId p ∈ (after crates hasSecrets events).shared.history →
      ∃ r, (after crates hasSecrets events).returned i (.request r) (.prompt p)) ∧
    (∀ i jobId p reply, (after crates hasSecrets events).returned i (.queuePrompt jobId p) reply →
      .queued jobId p ∈ (after crates hasSecrets events).shared.history) ∧
    ∀ i r reply, (after crates hasSecrets events).returned i (.request r) reply →
      Delivered crates i r (after crates hasSecrets events).shared.history reply := by
  have hworking := after_working crates hasSecrets hcrates events
  have huntaken : ∀ i, Untaken i (after crates hasSecrets events).shared → ∀ jobId p,
      .taken i jobId p ∉ (after crates hasSecrets events).shared.history := by
    intro i hnone jobId p hin
    exact hnone jobId p (List.mem_filter.mpr ⟨hin, decide_eq_true rfl⟩)
  refine ⟨hworking.inv.prompts, fun i jobId p hin => ?_, fun i jobId p reply h => ?_,
    fun i r reply h => ?_⟩
  · obtain ⟨question, hreturned⟩ := after_prompting crates hasSecrets events i jobId p hin
    have hreplied := after_replied crates hasSecrets hcrates events i question _ hreturned
    cases question with
    | request r => exact ⟨r, hreturned⟩
    | queuePrompt _ _ => exact absurd hin (huntaken i hreplied.1 jobId p)
    | createJob _ _ | stopJob _ => exact absurd hin (huntaken i hreplied jobId p)
  · exact (after_replied crates hasSecrets hcrates events i _ reply h).2
  · have hreplied := after_replied crates hasSecrets hcrates events i (.request r) reply h
    cases reply with
    | prompt p =>
      obtain ⟨jobId, token, hpresents, hown⟩ := hreplied
      have hadmitted := own_mem hown (List.mem_cons_of_mem _ List.mem_cons_self)
      obtain ⟨older, holder, hlive⟩ := admitted_live hworking.inv.orderly hadmitted
      exact ⟨jobId, token, older, hpresents, hown, holder, hlive⟩
    | credentials list =>
      obtain ⟨jobId, token, -, grants, -, hown⟩ := hreplied
      exact huntaken i (untaken_of hown (by simp))
    | status _ | created _ | done => exact huntaken i hreplied

end

/-! ## A worker that is stopped -/

def firstUuid : String := "00000000-0000-0000-0000-000000000001"

def hyphenated : Crates where
  parseUuid := fun s => if s = firstUuid then some 1 else none
  percentDecode := fun s => if '%' ∈ s.toList then none else some s

theorem hyphenated_documented : Documented hyphenated := by
  refine ⟨fun s hs => if_neg hs, fun s hs => if_neg fun heq => ?_⟩
  rw [heq] at hs
  exact absurd hs (by decide)

def vault : Input where
  bytes := List.replicate 32 7
  decrypt := fun name => .ok ("secret of "++name)
  started := true
  otherStatus := 200

def asking (endpoint : String) : Request :=
  ⟨"/worker/"++firstUuid++"/"++endpoint, some ("Bearer "++generateToken vault.bytes)⟩

def moves (call n : ℕ) : List (Event ℕ Question Input) := List.replicate n (.advance call vault)

def stoppedWorker : List (Event ℕ Question Input) :=
  [.start 0 (.createJob 1 [⟨"github", "GITHUB_TOKEN"⟩]), .start 1 (.request (asking "credentials")),
    .start 2 (.stopJob 1)]++
  moves 0 3++moves 1 2++moves 2 2++moves 1 1

theorem credentials_granted_stopped :
    ∃ jobId token grants before older, Presents hyphenated (asking "credentials") jobId token ∧
      .admitted 1 jobId token::older <:+ before ∧ live jobId older = some token ∧
      .looked 1 jobId grants::before <:+ (after hyphenated true stoppedWorker).shared.history ∧
      grantsIn jobId before = some grants ∧
      Served (after hyphenated true stoppedWorker).shared.history grants
        [⟨"GITHUB_TOKEN", "secret of github"⟩] :=
  credentials_granted hyphenated true hyphenated_documented stoppedWorker 1 _ _ rfl

def promptedWorker : List (Event ℕ Question Input) :=
  [.start 0 (.createJob 1 []), .start 1 (.queuePrompt 1 ⟨"first", false⟩),
    .start 2 (.queuePrompt 1 ⟨"second", true⟩), .start 3 (.request (asking "prompt"))]++
  moves 0 2++moves 1 1++moves 3 1++moves 2 1++moves 3 1

theorem prompts_once_first :
    [⟨"first", false⟩]++(after hyphenated true promptedWorker).shared.prompts 1 =
      [⟨"first", false⟩, ⟨"second", true⟩] ∧
    Delivered hyphenated 3 (asking "prompt")
      (after hyphenated true promptedWorker).shared.history (.prompt ⟨"first", false⟩) := by
  obtain ⟨hqueue, -, -, hdelivered⟩ :=
    prompts_once hyphenated true hyphenated_documented promptedWorker
  exact ⟨hqueue 1, hdelivered 3 _ _ rfl⟩

end IronClaw.WorkerIsolation
