import IronClaw.Lib.Runs
import IronClaw.Lib.Tables
import IronClaw.McpTransport

/-!
# Responses and the requests they answer

A request should complete only with the response that the server sent for it,
a send should leave the entries of other requests alone, and nothing should
stay pending after the end of the reader or the shutdown. All of this rests
on ids that are used once, on servers that send nothing but responses under
such an id, and on nothing being pending at the end.
-/

set_option autoImplicit false

namespace IronClaw.McpPending
open IronClaw.McpTransport IronClaw.JsonValue Lib.Runs Lib.Tables

def outstanding (r : Request) : Bool :=
  match r.phase with
  | .failed _ => false
  | .notified => false
  | .completed _ _ => false
  | _ => true

def closed (m : Transport) : Bool := m.eof || m.shut

def sendOf : Label → Option ℕ
  | .register t => some t
  | .write t _ => some t
  | .receive t => some t
  | .timeout t => some t
  | .cleanup t => some t
  | _ => none

structure Correct (l : Label) (m : Transport) : Prop where
  answered : ∀ t r response line, (step l m).requests t = some r →
    r.phase = .completed response line →
    line.answers = some t ∧ isAnswer line.value = true ∧ parseResponse line.value = some response
  distinct : ∀ t u r q id, (step l m).requests t = some r → (step l m).requests u = some q →
    outstanding r = true → outstanding q = true → r.id = some id → q.id = some id → t = u
  others : ∀ t, sendOf l = some t → ∀ id u, u ≠ t → m.pending id = some u →
    (step l m).pending id = some u
  emptied : closed (step l m) = true → ∀ id, (step l m).pending id = none

def FreshId (c : ℕ) (m : Transport) : Prop :=
  ∀ id, m.clients[c]? = some id → ∀ t r, m.requests t = some r → r.id ≠ some id

def Honest (line : Line) (m : Transport) : Prop :=
  ∀ response id, parseResponse line.value = some response → response.id = some id →
    m.pending id ≠ none →
    isAnswer line.value = true ∧
    ∃ t r, line.answers = some t ∧ m.requests t = some r ∧ r.id = some id

def Orderly : Label → Transport → Prop
  | .request c, m => FreshId c m
  | .readLine line, m => Honest line m
  | .register _, m => closed m = false
  | .readerEnds, m => m.aborted = true ∨ ∀ id, m.pending id = none
  | _, _ => True

def Matches (t : ℕ) (response : McpResponse) (line : Line) : Prop :=
  line.answers = some t ∧ isAnswer line.value = true ∧ parseResponse line.value = some response

structure Tidy (t : ℕ) (r : Request) : Prop where
  slot : ∀ response line, r.slot = .resolved response line → Matches t response line
  phase : ∀ response line, r.phase = .completed response line → Matches t response line

structure Inv (m : Transport) : Prop where
  tidy : ∀ t r, m.requests t = some r → Tidy t r
  unique : ∀ t u r q id, m.requests t = some r → m.requests u = some q →
    r.id = some id → q.id = some id → t = u
  entry : ∀ id t, m.pending id = some t → ∃ r, m.requests t = some r ∧ r.id = some id
  old : ∀ t r, m.requests t = some r → t < m.issued
  emptied : closed m = true → ∀ id, m.pending id = none

structure SameIds (m m' : Transport) : Prop where
  issued : m'.issued = m.issued
  back : ∀ t r, m'.requests t = some r → ∃ q, m.requests t = some q ∧ q.id = r.id
  forth : ∀ t q, m.requests t = some q → ∃ r, m'.requests t = some r ∧ r.id = q.id

variable (m : Transport) (t : ℕ)

theorem sameIds_refl : SameIds m m :=
  ⟨rfl, fun _ r h => ⟨r, h, rfl⟩, fun _ q h => ⟨q, h, rfl⟩⟩

theorem sameIds_setRequest (q r : Request) (hq : m.requests t = some q) (hid : r.id = q.id) :
    SameIds m (m.setRequest t r) := by
  refine ⟨rfl, fun u p hp => ?_, fun u p hp => ?_⟩
  · rcases update_entry m.requests t u r p hp with ⟨rfl, rfl⟩ | ⟨-, hold⟩
    · exact ⟨q, hq, hid.symm⟩
    · exact ⟨p, hold, rfl⟩
  · by_cases hu : u = t
    · rw [hu] at hp ⊢
      have hpq : p = q := by simpa [hq] using hp.symm
      exact ⟨r, by simp [Transport.setRequest], by rw [hid, hpq]⟩
    · exact ⟨p, by simpa [Transport.setRequest, Function.update_of_ne hu] using hp, rfl⟩

def TidyAll (m : Transport) : Prop := ∀ t r, m.requests t = some r → Tidy t r

theorem tidy_setRequest (r : Request) (h : TidyAll m) (hr : Tidy t r) :
    TidyAll (m.setRequest t r) := by
  intro u p hp
  rcases update_entry m.requests t u r p hp with ⟨rfl, rfl⟩ | ⟨-, hold⟩
  · exact hr
  · exact h u p hold

/-- A change of the requests that leaves the ids and keeps them tidy, with
entries that were there before. -/
theorem inv_update (m m' : Transport) (h : Inv m) (hids : SameIds m m') (htidy : TidyAll m')
    (hpending : ∀ id t, m'.pending id = some t → m.pending id = some t)
    (hclosed : closed m' = true → ∀ id, m'.pending id = none) : Inv m' := by
  refine ⟨htidy, ?_, ?_, ?_, hclosed⟩
  · intro t u r q id hr hq hrid hqid
    obtain ⟨r', hr', hrid'⟩ := hids.back t r hr
    obtain ⟨q', hq', hqid'⟩ := hids.back u q hq
    exact h.unique t u r' q' id hr' hq' (hrid'.trans hrid) (hqid'.trans hqid)
  · intro id t hp
    obtain ⟨r, hr, hrid⟩ := h.entry id t (hpending id t hp)
    obtain ⟨r', hr', hrid'⟩ := hids.forth t r hr
    exact ⟨r', hr', hrid'.trans hrid⟩
  · intro t r hr
    obtain ⟨q, hq, -⟩ := hids.back t r hr
    rw [hids.issued]
    exact h.old t q hq

theorem sameIds_dropSender (t : Option ℕ) : SameIds m (m.dropSender t) := by
  unfold Transport.dropSender
  split
  · exact sameIds_refl m
  · split
    · next hr => exact sameIds_setRequest m _ _ _ hr rfl
    · exact sameIds_refl m

theorem tidy_dropSender (t : Option ℕ) (h : TidyAll m) :
    TidyAll (m.dropSender t) := by
  unfold Transport.dropSender
  split
  · exact h
  · split
    · next hr => exact tidy_setRequest m _ _ h ⟨by simp, (h _ _ hr).phase⟩
    · exact h

theorem dropSender_frame (t : Option ℕ) :
    (m.dropSender t).pending = m.pending ∧ closed (m.dropSender t) = closed m := by
  unfold Transport.dropSender
  split
  · exact ⟨rfl, rfl⟩
  · split <;> exact ⟨rfl, rfl⟩

theorem tidy_setPhase (r : Request) (phase : Phase) (h : TidyAll m) (hr : m.requests t = some r)
    (hphase : ∀ response line, phase = .completed response line → Matches t response line) :
    TidyAll (m.setPhase t r phase) :=
  tidy_setRequest m t _ h ⟨(h t r hr).slot, hphase⟩

theorem inv_setPhase (r : Request) (phase : Phase) (h : Inv m) (hr : m.requests t = some r)
    (hphase : ∀ response line, phase = .completed response line → Matches t response line) :
    Inv (m.setPhase t r phase) :=
  inv_update m _ h (sameIds_setRequest m t r _ hr rfl) (tidy_setPhase m t r phase h.tidy hr hphase)
    (fun _ _ hp => hp) h.emptied

theorem inv_insertPending (id t : ℕ) (r : Request) (h : Inv m) (hr : m.requests t = some r)
    (hid : r.id = some id) (hopen : closed m = false) :
    Inv (m.insertPending id t) := by
  have hids := sameIds_dropSender m (m.pending id)
  obtain ⟨hpending, hclosed⟩ := dropSender_frame m (m.pending id)
  have hdropped : Inv (m.dropSender (m.pending id)) :=
    inv_update m _ h hids (tidy_dropSender m _ h.tidy) (fun _ _ hp => by rwa [hpending] at hp)
      (fun hc => by rw [hpending]; exact h.emptied (hclosed ▸ hc))
  refine ⟨hdropped.tidy, hdropped.unique, ?_, hdropped.old, ?_⟩
  · intro id' u hu
    rcases update_entry _ id id' t u hu with ⟨rfl, rfl⟩ | ⟨-, hold⟩
    · obtain ⟨r', hr', hrid'⟩ := hids.forth u r hr
      exact ⟨r', hr', hrid'.trans hid⟩
    · exact hdropped.entry id' u hold
  · intro hc
    have hc' : closed m = true := hclosed ▸ hc
    simp [hopen] at hc'

theorem inv_removePending (id : ℕ) (h : Inv m) : Inv (m.removePending id) := by
  obtain ⟨hpending, hclosed⟩ := dropSender_frame m (m.pending id)
  have hgone : ∀ id' t, (m.removePending id).pending id' = some t → m.pending id' = some t := by
    intro id' t ht
    have hold := update_erased _ id id' t ht
    rwa [hpending] at hold
  have hids := sameIds_dropSender m (m.pending id)
  refine inv_update m _ h ⟨hids.issued, hids.back, hids.forth⟩
    (tidy_dropSender m _ h.tidy) hgone ?_
  intro hc id'
  have hnone := h.emptied (hclosed ▸ hc) id'
  by_contra hsome
  obtain ⟨t, ht⟩ := Option.ne_none_iff_exists'.mp hsome
  simp [hgone id' t ht] at hnone

theorem inv_clone (c : ℕ) (m : Transport) (h : Inv m) : Inv (m.clone c) := by
  unfold Transport.clone
  split
  · exact ⟨h.tidy, h.unique, h.entry, h.old, h.emptied⟩
  · exact h

/-- A new request, with an id that no other carries or with none. -/
theorem inv_issue (clients : List ℕ) (id : Option ℕ) (h : Inv m)
    (hfresh : ∀ i, id = some i → ∀ t r, m.requests t = some r → r.id ≠ some i) :
    Inv { m with
      clients := clients
      issued := m.issued+1
      requests := Function.update m.requests m.issued (some ⟨id, .created, .waiting⟩) } := by
  have hother := fun t r => update_entry m.requests m.issued t ⟨id, .created, .waiting⟩ r
  refine ⟨?_, ?_, ?_, ?_, h.emptied⟩
  · intro t r hr
    rcases hother t r hr with ⟨-, rfl⟩ | ⟨-, hr⟩
    · exact ⟨by simp, by simp⟩
    · exact h.tidy t r hr
  · intro t u r q i hr hq hrid hqid
    rcases hother t r hr with ⟨rfl, rfl⟩ | ⟨-, hr⟩
    · rcases hother u q hq with ⟨rfl, -⟩ | ⟨-, hq⟩
      · rfl
      · exact absurd hqid (hfresh i hrid u q hq)
    · rcases hother u q hq with ⟨rfl, rfl⟩ | ⟨-, hq⟩
      · exact absurd hrid (hfresh i hqid t r hr)
      · exact h.unique t u r q i hr hq hrid hqid
  · intro i t ht
    obtain ⟨r, hr, hrid⟩ := h.entry i t ht
    have hlt := h.old t r hr
    exact ⟨r, (Function.update_of_ne (by omega) _ _).trans hr, hrid⟩
  · intro t r hr
    rcases hother t r hr with ⟨rfl, -⟩ | ⟨-, hr⟩
    · exact Nat.lt_succ_self _
    · have hlt := h.old t r hr
      show t < m.issued+1
      omega

theorem inv_request (c : ℕ) (m : Transport) (h : Inv m) (hfresh : FreshId c m) :
    Inv (m.request c) := by
  unfold Transport.request
  split
  · next nextId hclient =>
    apply inv_issue m _ _ h
    intro i hi t r hr
    rw [← Option.some.inj hi]
    exact hfresh nextId hclient t r hr
  · exact h

theorem inv_register (m : Transport) (h : Inv m) (hopen : closed m = false) :
    Inv (m.register t) := by
  unfold Transport.register
  split
  · next r hr =>
    split
    · next id _ hid =>
      have hset := inv_setPhase m t r .registered h hr (by simp)
      exact inv_insertPending _ id t { r with phase := .registered } hset
        (by simp [Transport.setPhase, Transport.setRequest]) hid hopen
    · exact h
  · exact h

theorem inv_write (failure : Option String) (m : Transport) (h : Inv m) :
    Inv (m.write t failure) := by
  unfold Transport.write
  split
  · next r hr =>
    split
    · exact inv_setPhase m t r _ h hr (by simp)
    · exact inv_setPhase m t r _ h hr (by simp)
    · exact inv_setPhase m t r _ h hr (by simp)
    · exact inv_setPhase m t r _ h hr (by simp)
    · exact h
  · exact h

theorem inv_receive (m : Transport) (h : Inv m) : Inv (m.receive t) := by
  unfold Transport.receive
  split
  · next r hr =>
    split
    · next response line _ hslot =>
      apply inv_setPhase m t r _ h hr
      intro response' line' heq
      obtain ⟨rfl, rfl⟩ := Phase.completed.inj heq
      exact (h.tidy t r hr).slot response line hslot
    · exact inv_setPhase m t r _ h hr (by simp)
    · exact h
  · exact h

theorem inv_timeout (m : Transport) (h : Inv m) : Inv (m.timeout t) := by
  unfold Transport.timeout
  split
  · next r hr =>
    split
    · exact inv_setPhase m t r _ h hr (by simp)
    · exact h
  · exact h

theorem inv_cleanup (m : Transport) (h : Inv m) : Inv (m.cleanup t) := by
  unfold Transport.cleanup
  split
  · next r hr =>
    split
    · next id _ _ => exact inv_removePending _ id (inv_setPhase m t r _ h hr (by simp))
    · exact h
  · exact h

/-- A response that is handed over touches the slot of its request only. -/
theorem resolve_frame (response : McpResponse) (line : Line) (h : TidyAll m)
    (hmatches : Matches t response line) :
    SameIds m (m.resolve t response line) ∧ TidyAll (m.resolve t response line) ∧
    (m.resolve t response line).pending = m.pending ∧
    closed (m.resolve t response line) = closed m := by
  unfold Transport.resolve
  split
  · next id phase hr =>
    refine ⟨sameIds_setRequest m t _ _ hr rfl, ?_, rfl, rfl⟩
    apply tidy_setRequest m t _ h
    refine ⟨?_, (h t _ hr).phase⟩
    intro response' line' heq
    obtain ⟨rfl, rfl⟩ := Slot.resolved.inj heq
    exact hmatches
  · exact ⟨sameIds_refl m, h, rfl, rfl⟩

theorem honest_matches (line : Line) (m : Transport) (h : Inv m) (hhonest : Honest line m)
    (response : McpResponse) (id t : ℕ) (hparse : parseResponse line.value = some response)
    (hid : response.id = some id) (hpending : m.pending id = some t) :
    Matches t response line := by
  obtain ⟨hanswer, u, q, hanswers, hq, hqid⟩ := hhonest response id hparse hid (by simp [hpending])
  obtain ⟨r, hr, hrid⟩ := h.entry id t hpending
  have hut := h.unique u t q r id hq hr hqid hrid
  exact ⟨by rw [hanswers, hut], hanswer, hparse⟩

theorem inv_readLine (line : Line) (m : Transport) (h : Inv m) (hhonest : Honest line m) :
    Inv (m.readLine line) := by
  unfold Transport.readLine
  split
  · split
    · next response hparse =>
      split
      · next id hid =>
        split
        · next t hpending =>
          have hmatches := honest_matches line m h hhonest response id t hparse hid hpending
          obtain ⟨hids, htidy, hsame, hclosed⟩ := resolve_frame m t response line h.tidy hmatches
          have hgone : ∀ id' u,
              Function.update (m.resolve t response line).pending id none id' = some u →
              m.pending id' = some u := by
            intro id' u hu
            have hold := update_erased _ id id' u hu
            rwa [hsame] at hold
          refine inv_update m _ h ⟨hids.issued, hids.back, hids.forth⟩ htidy hgone ?_
          intro hc
          have hempty := h.emptied (hclosed ▸ hc) id
          simp [hempty] at hpending
        · exact h
      · exact h
    · exact h
  · exact h

theorem inv_readerEnds (h : Inv m) (hend : m.aborted = true ∨ ∀ id, m.pending id = none) :
    Inv m.readerEnds := by
  unfold Transport.readerEnds
  split
  · refine ⟨h.tidy, h.unique, h.entry, h.old, fun hc => ?_⟩
    rcases hend with haborted | hempty
    · apply h.emptied
      simp only [closed, haborted, Bool.not_true, Bool.false_or] at hc
      simp [closed, hc]
    · exact hempty
  · exact h

theorem inv_clearPending (h : Inv m) : Inv m.clearPending := by
  unfold Transport.clearPending
  split
  · refine inv_update m _ h ⟨rfl, fun t r hr => ?_, fun t q hq => ?_⟩ (fun t r hr => ?_)
      (by simp) (fun _ _ => rfl)
    · obtain ⟨q, hq, rfl⟩ := Option.map_eq_some_iff.mp hr
      exact ⟨q, hq, by split <;> rfl⟩
    · refine ⟨_, Option.map_eq_some_iff.mpr ⟨q, hq, rfl⟩, ?_⟩
      split <;> rfl
    · obtain ⟨q, hq, rfl⟩ := Option.map_eq_some_iff.mp hr
      have htidy := h.tidy t q hq
      split
      · exact ⟨by simp, htidy.phase⟩
      · exact htidy
  · exact h

theorem step_inv (l : Label) (m : Transport) (h : Inv m) (horderly : Orderly l m) :
    Inv (step l m) := by
  cases l with
  | clone c => exact inv_clone c m h
  | request c => exact inv_request c m h horderly
  | notify => exact inv_issue m m.clients none h (by simp)
  | register t => exact inv_register t m h horderly
  | write t failure => exact inv_write t failure m h
  | receive t => exact inv_receive t m h
  | timeout t => exact inv_timeout t m h
  | cleanup t => exact inv_cleanup t m h
  | readLine line => exact inv_readLine line m h horderly
  | readerEnds => exact inv_readerEnds m h horderly
  | beginShutdown => exact ⟨h.tidy, h.unique, h.entry, h.old, h.emptied⟩
  | clearPending => exact inv_clearPending m h

theorem other_entry (h : Inv m) (t u i id : ℕ) (r : Request) (hr : m.requests t = some r)
    (hid : r.id = some i) (hut : u ≠ t) (hu : m.pending id = some u) : id ≠ i := by
  intro heq
  rw [heq] at hu
  obtain ⟨q, hq, hqid⟩ := h.entry i u hu
  exact hut (h.unique u t q r i hq hr hqid hid)

theorem register_others (m : Transport) (h : Inv m) (id u : ℕ) (hut : u ≠ t)
    (hu : m.pending id = some u) : (m.register t).pending id = some u := by
  unfold Transport.register
  split
  · next r hr =>
    split
    · next i _ hid =>
      have hne := other_entry m h t u i id r hr hid hut hu
      simp only [Transport.insertPending, Function.update_of_ne hne, (dropSender_frame _ _).1]
      exact hu
    · exact hu
  · exact hu

theorem cleanup_others (m : Transport) (h : Inv m) (id u : ℕ) (hut : u ≠ t)
    (hu : m.pending id = some u) : (m.cleanup t).pending id = some u := by
  unfold Transport.cleanup
  split
  · next r hr =>
    split
    · next error i _ hid =>
      have hne := other_entry m h t u i id r hr hid hut hu
      simp only [Transport.removePending, Function.update_of_ne hne, (dropSender_frame _ _).1]
      exact hu
    · exact hu
  · exact hu

theorem write_pending (failure : Option String) (m : Transport) :
    (m.write t failure).pending = m.pending := by
  unfold Transport.write
  split
  · split <;> rfl
  · rfl

theorem receive_pending (m : Transport) : (m.receive t).pending = m.pending := by
  unfold Transport.receive
  split
  · split <;> rfl
  · rfl

theorem timeout_pending (m : Transport) : (m.timeout t).pending = m.pending := by
  unfold Transport.timeout
  split
  · split <;> rfl
  · rfl

theorem step_others (l : Label) (m : Transport) (h : Inv m) (t : ℕ) (ht : sendOf l = some t)
    (id u : ℕ) (hut : u ≠ t) (hu : m.pending id = some u) : (step l m).pending id = some u := by
  cases l with
  | register t' =>
    obtain rfl := Option.some.inj ht
    exact register_others t' m h id u hut hu
  | write t' failure => rwa [step, write_pending]
  | receive t' => rwa [step, receive_pending]
  | timeout t' => rwa [step, timeout_pending]
  | cleanup t' =>
    obtain rfl := Option.some.inj ht
    exact cleanup_others t' m h id u hut hu
  | clone c => simp [sendOf] at ht
  | request c => simp [sendOf] at ht
  | notify => simp [sendOf] at ht
  | readLine line => simp [sendOf] at ht
  | readerEnds => simp [sendOf] at ht
  | beginShutdown => simp [sendOf] at ht
  | clearPending => simp [sendOf] at ht

theorem step_correct (l : Label) (m : Transport) (h : Inv m) (horderly : Orderly l m) :
    Inv (step l m) ∧ Correct l m := by
  have hnext := step_inv l m h horderly
  refine ⟨hnext, ?_, ?_, step_others l m h, hnext.emptied⟩
  · intro t r response line hr hphase
    exact (hnext.tidy t r hr).phase response line hphase
  · intro t u r q id hr hq _ _ hrid hqid
    exact hnext.unique t u r q id hr hq hrid hqid

theorem connected_inv (serverName : String) : Inv (connected serverName) :=
  ⟨by simp [connected], by simp [connected], by simp [connected], by simp [connected],
    fun _ _ => rfl⟩

/-- In every orderly run of the clients of one transport, every request that
completes got the response that the server sent for it, no two outstanding
requests share an id, no send touches the entry of another request, and
nothing is pending once the reader has ended or the transport is shut down. -/
theorem responses_reach_requests (serverName : String) (ls : List Label)
    (horderly : Along step Orderly ls (connected serverName)) :
    Along step Correct ls (connected serverName) :=
  along_of step Inv Orderly Correct step_correct ls _ (connected_inv serverName) horderly

def responseTo (id : UInt64) : Value :=
  .object [("id", .number (.posInt id)), ("jsonrpc", .string "2.0"), ("result", .bool true)]

def oneRequest : List Label :=
  [.request 0, .register 0, .write 0 none, .readLine ⟨responseTo 1, some 0⟩, .receive 0]

theorem response_line_honest :
    Honest ⟨responseTo 1, some 0⟩
      (run step [.request 0, .register 0, .write 0 none] (connected "files")) := by
  intro response id hparse hid _
  have hresponse : response = ⟨"2.0", some 1, some (.bool true), none⟩ :=
    (Option.some.inj hparse).symm
  have hone : id = 1 := by
    rw [hresponse] at hid
    exact (Option.some.inj hid).symm
  rw [hone]
  exact ⟨by decide, 0, ⟨some 1, .sent, .waiting⟩, rfl, by decide, rfl⟩

theorem one_request_answered :
    Along step Correct oneRequest (connected "files") ∧
    (run step oneRequest (connected "files")).requests 0 =
      some ⟨some 1, .completed ⟨"2.0", some 1, some (.bool true), none⟩ ⟨responseTo 1, some 0⟩,
        .resolved ⟨"2.0", some 1, some (.bool true), none⟩ ⟨responseTo 1, some 0⟩⟩ := by
  refine ⟨responses_reach_requests "files" oneRequest
    ⟨?_, ?_, trivial, ?_, trivial, trivial⟩, by decide⟩
  · intro id _ t r hr
    simp [connected] at hr
  · rfl
  · exact response_line_honest

def clonedRequests : List Label :=
  [.clone 0, .request 0, .request 1, .register 0, .write 0 none, .register 1, .write 1 none,
   .readLine ⟨responseTo 1, some 0⟩, .receive 1]

def serverPing : Value :=
  .object [("id", .number (.posInt 1)), ("jsonrpc", .string "2.0"), ("method", .string "ping")]

/-- Two outstanding requests of a client and its clone share an id, the second
takes the entry of the first and completes with its response; a request of the
server completes a request of the client; and entries outlive the reader. -/
theorem responses_go_astray :
    (let m := run step (clonedRequests.take 6) (connected "files")
     (m.requests 0).bind Request.id = some 1 ∧ (m.requests 1).bind Request.id = some 1 ∧
     (m.requests 0).map outstanding = some true ∧ (m.requests 1).map outstanding = some true ∧
     m.pending 1 = some 1) ∧
    ((run step clonedRequests (connected "files")).requests 1).map Request.phase =
      some (.completed ⟨"2.0", some 1, some (.bool true), none⟩ ⟨responseTo 1, some 0⟩) ∧
    (((run step [.request 0, .register 0, .write 0 none, .readLine ⟨serverPing, none⟩, .receive 0]
      (connected "files")).requests 0).map Request.phase =
      some (.completed ⟨"2.0", some 1, none, none⟩ ⟨serverPing, none⟩) ∧
      isAnswer serverPing = false) ∧
    (let m := run step [.request 0, .register 0, .write 0 none, .readerEnds] (connected "files")
     closed m = true ∧ m.pending 1 = some 0) := by
  decide

end IronClaw.McpPending
