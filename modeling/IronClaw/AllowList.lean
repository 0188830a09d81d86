import IronClaw.PairingStore

/-!
# The allow list of a channel

A successful approval should add the sender to the list of its channel key and
nothing else should change a list. `add_allow_from` truncates the file before
it reads it, so that the list after an approval is always the one sender. The
two agree as long as a key has only ever seen one sender.
-/

set_option autoImplicit false

namespace IronClaw.AllowList
open IronClaw.PairingStore Lib.Text Lib.Runs

def allowList (s : Store) (key : String) : List String := (s.allowFrom key).entries

def approvedOn (l : Ledger) (key : String) : List String :=
  (l.approved.filter (fun a => a.1 = key)).map Prod.snd

section
variable (plat : Platform)

def grown (list : List String) (id : String) : List String :=
  if list.any (fun e => sameCase plat e id) then list else list++[id]

def expected (op : Op) (s : Store) (key : String) : List String :=
  match approval plat op s with
  | some (k, id) => if k = key then grown plat (allowList s key) id else allowList s key
  | none => allowList s key

structure Faithful (op : Op) (l : Ledger) : Prop where
  lists : ∀ key, allowList (step plat op l).store key = expected plat op l.store key
  kept : ∀ key, ∀ id ∈ approvedOn (step plat op l) key, id ∈ allowList (step plat op l).store key
  allowed : ∀ channel key, safeChannelKey plat channel = .ok key → ∀ id,
    isSenderAllowed plat channel id none (step plat op l).store =
      .ok (decide (trim id ∈ approvedOn (step plat op l) key))

def OneSender (op : Op) (l : Ledger) : Prop :=
  ∀ key id, approval plat op l.store = some (key, id) → ∀ other ∈ approvedOn l key, other = id

end

def Trimmed (s : Store) : Prop :=
  ∀ key, ∀ r ∈ (s.pairing key).entries, trim r.id = r.id ∧ r.id ≠ ""

def TrimmedAll (requests : List PairingRequest) : Prop :=
  ∀ r ∈ requests, trim r.id = r.id ∧ r.id ≠ ""

variable (plat : Platform) (op : Op) (l : Ledger) (s : Store) (key : String)

theorem trimmed_write (requests : List PairingRequest) (h : Trimmed s) (hr : TrimmedAll requests) :
    Trimmed (s.writePairingFile key requests) := by
  intro key' r hmem
  by_cases hkey : key' = key
  · rw [hkey] at hmem
    simp only [Store.writePairingFile, Function.update_self, File.entries, List.mem_map] at hmem
    obtain ⟨r', hr', rfl⟩ := hmem
    exact hr r' hr'
  · simp only [Store.writePairingFile, Function.update_of_ne hkey] at hmem
    exact h key' r hmem

theorem trimmed_open (h : Trimmed s) : Trimmed (s.openPairing key) := by
  unfold Store.openPairing
  split
  · intro key' r hmem
    by_cases hkey : key' = key
    · simp [hkey, File.entries] at hmem
    · simp only [Function.update_of_ne hkey] at hmem
      exact h key' r hmem
  · exact h

theorem open_allowFrom :
    (s.openPairing key).allowFrom = s.allowFrom := by
  unfold Store.openPairing
  split <;> rfl

theorem trimmed_retained (now : ℕ) (h : Trimmed s) :
    TrimmedAll (retained plat (s.pairing key).entries now) :=
  fun r hr => h key r (List.mem_filter.mp hr).1

theorem trimmed_modify (requests : List PairingRequest) (n : ℕ)
    (f : PairingRequest → PairingRequest) (hf : ∀ r, (f r).id = r.id) (h : TrimmedAll requests) :
    TrimmedAll (requests.modify n f) := by
  intro r hr
  obtain ⟨i, hi, rfl⟩ := List.mem_iff_getElem.mp hr
  rw [List.getElem_modify]
  have hlen : i < requests.length := by simpa using hi
  split
  · rw [hf]
    exact h _ (List.getElem_mem hlen)
  · exact h _ (List.getElem_mem hlen)

theorem upsert_effect (channel id : String) (metadata : Option JsonValue.Value) (clock : Clock)
    (draws : Draws) (s : Store) (h : Trimmed s) :
    Trimmed (upsertRequest plat channel id metadata clock draws s).2 ∧
    (upsertRequest plat channel id metadata clock draws s).2.allowFrom = s.allowFrom := by
  unfold upsertRequest
  split
  · exact ⟨h, rfl⟩
  · next key _ =>
    have hopen := trimmed_open s key h
    have hallow := open_allowFrom s key
    have hretained := trimmed_retained plat s key clock.second h
    simp only
    split
    · exact ⟨hopen, hallow⟩
    · next hid =>
      split
      · refine ⟨trimmed_write _ key _ hopen (trimmed_modify _ _ _ (fun _ => rfl) hretained), ?_⟩
        exact hallow
      · split
        · exact ⟨hopen, hallow⟩
        · refine ⟨trimmed_write _ key _ hopen ?_, hallow⟩
          intro r hr
          rcases List.mem_append.mp hr with hr | hr
          · exact hretained r hr
          · rw [List.mem_singleton.mp hr]
            exact ⟨trim_trim id, hid⟩

theorem listPending_effect (channel : String) (now : ℕ) (s : Store) (h : Trimmed s) :
    Trimmed (listPending plat channel now s).2 ∧
    (listPending plat channel now s).2.allowFrom = s.allowFrom := by
  unfold listPending
  split
  · exact ⟨h, rfl⟩
  · next key _ =>
    split
    · exact ⟨h, rfl⟩
    · simp only
      split
      · exact ⟨trimmed_write s key _ h (trimmed_retained plat s key now h), rfl⟩
      · exact ⟨h, rfl⟩

theorem addAllowFrom_pairing (key entry : String) (s : Store) :
    (addAllowFrom plat key entry s).pairing = s.pairing := by
  unfold addAllowFrom
  split
  · rfl
  · simp only
    split <;> rfl

theorem addAllowFrom_list (key entry : String) (s : Store) (hentry : trim entry ≠ "")
    (key' : String) :
    allowList (addAllowFrom plat key entry s) key' =
      if key = key' then [trim entry] else allowList s key' := by
  unfold addAllowFrom
  rw [if_neg hentry]
  by_cases hkey : key' = key
  · rw [hkey, if_pos rfl]
    simp [Store.truncateAllowFrom, File.entries, allowList]
  · have hother : key ≠ key' := fun h => hkey h.symm
    simp [Store.truncateAllowFrom, File.entries, allowList, Function.update_of_ne hkey, hother]

theorem approve_effect (channel code : String) (clock : Clock) (s : Store) (h : Trimmed s) :
    Trimmed (approve plat channel code clock s).2 ∧
    ((approval plat (.approve channel code clock) s = none ∧
        (approve plat channel code clock s).2.allowFrom = s.allowFrom) ∨
      ∃ key id, approval plat (.approve channel code clock) s = some (key, id) ∧
        trim id = id ∧ id ≠ "" ∧
        ∀ key', allowList (approve plat channel code clock s).2 key' =
          if key = key' then [id] else allowList s key') := by
  unfold approval approve
  simp only
  split
  · refine ⟨h, Or.inl ⟨?_, rfl⟩⟩
    split <;> simp_all
  · split
    · next hkey => exact ⟨h, Or.inl ⟨by simp [hkey], rfl⟩⟩
    · next key hkey =>
      simp only [hkey]
      split
      · exact ⟨h, Or.inl ⟨rfl, rfl⟩⟩
      · split
        · exact ⟨h, Or.inl ⟨rfl, rfl⟩⟩
        · have hretained := trimmed_retained plat s key clock.second h
          split
          · exact ⟨h, Or.inl ⟨rfl, rfl⟩⟩
          · next entry hfind =>
            have hentry := hretained entry (List.mem_of_find?_eq_some hfind)
            constructor
            · intro key' r hmem
              rw [addAllowFrom_pairing] at hmem
              exact trimmed_write s key _ h
                (fun r hr => hretained r (List.mem_of_mem_eraseIdx hr)) key' r hmem
            · refine Or.inr ⟨key, entry.id, rfl, hentry.1, hentry.2, fun key' => ?_⟩
              rw [addAllowFrom_list plat key entry.id _ (by rw [hentry.1]; exact hentry.2) key',
                hentry.1]
              rfl

/-- Each operation leaves the lists alone or replaces the one of its key by
the approved sender. -/
theorem step_effect (h : Trimmed l.store) :
    Trimmed (step plat op l).store ∧
    ((approval plat op l.store = none ∧
        ∀ key, allowList (step plat op l).store key = allowList l.store key) ∨
      ∃ key id, approval plat op l.store = some (key, id) ∧ trim id = id ∧ id ≠ "" ∧
        ∀ key', allowList (step plat op l).store key' =
          if key = key' then [id] else allowList l.store key') := by
  cases op with
  | upsertRequest channel id metadata clock draws =>
    obtain ⟨htrimmed, hallow⟩ := upsert_effect plat channel id metadata clock draws l.store h
    exact ⟨htrimmed, Or.inl ⟨rfl, fun key => by simp [allowList, step, apply, hallow]⟩⟩
  | listPending channel now =>
    obtain ⟨htrimmed, hallow⟩ := listPending_effect plat channel now l.store h
    exact ⟨htrimmed, Or.inl ⟨rfl, fun key => by simp [allowList, step, apply, hallow]⟩⟩
  | approve channel code clock =>
    obtain ⟨htrimmed, ⟨hnone, hallow⟩ | happroved⟩ :=
      approve_effect plat channel code clock l.store h
    · exact ⟨htrimmed, Or.inl ⟨hnone, fun key => by simp [allowList, step, apply, hallow]⟩⟩
    · exact ⟨htrimmed, Or.inr happroved⟩
  | readAllowFrom channel => exact ⟨h, Or.inl ⟨rfl, fun key => rfl⟩⟩

theorem approvedOn_none (h : approval plat op l.store = none) :
    approvedOn (step plat op l) key = approvedOn l key := by
  simp [approvedOn, step, h]

theorem approvedOn_some (key key' id : String) (h : approval plat op l.store = some (key, id)) :
    approvedOn (step plat op l) key' = approvedOn l key'++if key = key' then [id] else [] := by
  by_cases hkey : key = key'
  · simp [approvedOn, step, h, hkey]
  · simp [approvedOn, step, h, hkey]

def Single (l : Ledger) (key : String) : Prop :=
  (allowList l.store key = [] ∧ approvedOn l key = []) ∨
  ∃ x, allowList l.store key = [x] ∧ trim x = x ∧ x ∈ approvedOn l key ∧
    ∀ y ∈ approvedOn l key, y = x

def SingleAll (l : Ledger) : Prop := Trimmed l.store ∧ ∀ key, Single l key

theorem step_single (h : SingleAll l) (hone : OneSender plat op l) :
    SingleAll (step plat op l) := by
  obtain ⟨htrimmed, ⟨hnone, hlists⟩ | ⟨key, id, hsome, hid, -, hlists⟩⟩ := step_effect plat op l h.1
  · refine ⟨htrimmed, fun key => ?_⟩
    unfold Single
    rw [hlists key, approvedOn_none plat op l key hnone]
    exact h.2 key
  · refine ⟨htrimmed, fun key' => ?_⟩
    unfold Single
    rw [hlists key', approvedOn_some plat op l key key' id hsome]
    by_cases hkey : key = key'
    · rw [if_pos hkey, if_pos hkey]
      refine Or.inr ⟨id, rfl, hid, by simp, fun y hy => ?_⟩
      rcases List.mem_append.mp hy with hy | hy
      · rw [← hkey] at hy
        exact hone key id hsome y hy
      · exact List.mem_singleton.mp hy
    · rw [if_neg hkey, if_neg hkey, List.append_nil]
      exact h.2 key'

theorem single_kept (key id : String) (h : Single l key) (hid : id ∈ approvedOn l key) :
    id ∈ allowList l.store key := by
  rcases h with ⟨-, hnone⟩ | ⟨x, hlist, -, -, hall⟩
  · simp [hnone] at hid
  · rw [hlist, hall id hid]
    exact List.mem_singleton_self x

theorem single_allowed (channel key id : String) (h : Single l key)
    (hkey : safeChannelKey plat channel = .ok key) :
    isSenderAllowed plat channel id none l.store = .ok (decide (trim id ∈ approvedOn l key)) := by
  have hread : readAllowFrom plat channel l.store = .ok (allowList l.store key) := by
    simp [readAllowFrom, hkey, allowList]
  rcases h with ⟨hlist, hnone⟩ | ⟨x, hlist, htrim, hmem, hall⟩
  · simp [isSenderAllowed, hread, hlist, hnone]
  · by_cases hx : x = trim id
    · rw [hx] at hmem hlist htrim
      simp [isSenderAllowed, hread, hlist, htrim, hmem]
    · have hnot : trim id ∉ approvedOn l key := fun hin => hx (hall _ hin).symm
      simp [isSenderAllowed, hread, hlist, htrim, hx, hnot]

theorem faithful_one (h : SingleAll l) (hf : Faithful plat op l) : OneSender plat op l := by
  intro key id hsome other hother
  obtain ⟨-, ⟨hnone, -⟩ | ⟨key', id', hsome', -, -, hlists⟩⟩ := step_effect plat op l h.1
  · simp [hnone] at hsome
  · have hpair : key' = key ∧ id' = id := by simpa [hsome'] using hsome
    rcases h.2 key with ⟨-, hnone⟩ | ⟨x, hlist, -, -, hall⟩
    · simp [hnone] at hother
    · have hexpected := hf.lists key
      rw [hlists key, if_pos hpair.1, hpair.2] at hexpected
      simp only [expected, hsome, if_true, grown, hlist] at hexpected
      split at hexpected
      · rw [hall other hother]
        exact (List.cons.inj hexpected).1.symm
      · simp at hexpected

theorem one_faithful (h : SingleAll l) (hone : OneSender plat op l) : Faithful plat op l := by
  have hnext := step_single plat op l h hone
  refine ⟨fun key' => ?_, fun key id => single_kept _ key id (hnext.2 key),
    fun channel key hkey id => single_allowed plat _ channel key id (hnext.2 key) hkey⟩
  obtain ⟨-, ⟨hnone, hlists⟩ | ⟨key, id, hsome, -, -, hlists⟩⟩ := step_effect plat op l h.1
  · rw [hlists key']
    simp [expected, hnone]
  · rw [hlists key']
    simp only [expected, hsome]
    by_cases hkey : key = key'
    · rw [if_pos hkey, if_pos hkey]
      rcases h.2 key' with ⟨hlist, -⟩ | ⟨x, hlist, -, hmem, -⟩
      · simp [grown, hlist]
      · rw [← hkey] at hmem
        have hx : x = id := hone key id hsome x hmem
        simp [grown, hlist, hx, sameCase]
    · rw [if_neg hkey, if_neg hkey]

/-- In every run from an empty store: every operation treats the lists as it
should, no approved sender is ever missing, and exactly the approved senders
are allowed, if and only if no two different senders are approved on one
channel key. -/
theorem allow_list_iff (ops : List Op) :
    Along (step plat) (Faithful plat) ops fresh ↔ Along (step plat) (OneSender plat) ops fresh := by
  apply along_iff (step plat) SingleAll
  · intro op l h
    exact ⟨⟨faithful_one plat op l h, one_faithful plat op l h⟩, step_single plat op l h⟩
  · refine ⟨fun key r hr => ?_, fun key => Or.inl ⟨rfl, rfl⟩⟩
    simp [fresh, emptyStore, File.entries] at hr

def plainPlatform : Platform :=
  { toLowercase := fun s => String.ofList (s.toList.map Char.toLower)
    toUppercase := fun s => String.ofList (s.toList.map Char.toUpper)
    parseTimestamp := fun s => if s = "1970-01-01T00:01:40+00:00" then some 100 else none
    nowIso := fun _ => "1970-01-01T00:01:40+00:00" }

def clockAt (now : ℕ) : Clock := ⟨now, now, now⟩

def repeated (n : Fin 32) : Draws := ⟨fun _ _ => n, 0⟩

def twoSenders : List Op :=
  [.upsertRequest "Telegram" "alice" none (clockAt 100) (repeated 0),
   .upsertRequest "telegram" " bob " none (clockAt 100) (repeated 1),
   .approve "telegram" "aaaaaaaa" (clockAt 102), .approve "telegram" "BBBBBBBB" (clockAt 103)]

/-- Two senders are approved on one channel, and the first one is gone from
the list. -/
theorem second_approval_replaces :
    approvedOn (run (step plainPlatform) twoSenders fresh) "telegram" = ["alice", "bob"] ∧
    allowList (run (step plainPlatform) twoSenders fresh).store "telegram" = ["bob"] ∧
    isSenderAllowed plainPlatform "telegram" "alice" none
      (run (step plainPlatform) twoSenders fresh).store = .ok false := by
  decide +kernel

end IronClaw.AllowList
