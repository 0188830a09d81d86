import Mathlib.Algebra.Order.Ring.Nat
import Mathlib.Data.Nat.SuccPred
import IronClaw.AllowList
import IronClaw.PairingProcess

/-!
# Requests that are lost between two processes

Under the lock a process writes what it has read with one request changed, so
the pending list keeps its bound, its two keys and its requests. This breaks
where `list_pending` truncates the file and writes back an old list, and where
a system call fails with the whole list or a removed request at stake.
-/

set_option autoImplicit false

namespace IronClaw.PairingRace
open IronClaw.JsonValue IronClaw.AllowList IronClaw.PairingProcess Lib.Text Lib.Runs
open IronClaw.PairingStore hiding step

def identity (r : PairingRequest) : String × String × String := (r.id, r.code, r.createdAt)

def Allowed (key : String) (w : World) (r : PairingRequest) : Prop :=
  ∃ e ∈ allowList w.store key, trim e = trim r.id

def Settled (key : String) (w : World) (r : PairingRequest) : Prop :=
  identity r ∈ (pending key w).map identity ∨ Allowed key w r

section
variable (plat : Platform) (key : String)

def OnlyPending (w : World) (these : PairingRequest → Prop) : Prop :=
  ∀ r ∈ pending key w, isExpired plat r w.now = false → these r

def approves (code : String) : Label → World → Prop
  | .go p _ _, w => ∃ entry rest, w.phase p = .approveWrite code entry rest
  | _, _ => False

def failsAfter (entry : PairingRequest) : Label → World → Prop
  | .go p io draws, w => (∀ r, w.phase p ≠ .going (.finished r)) ∧
      ∃ e, (go plat key p io draws w).phase p =
        .going (.finished (.approved (.error e) (some entry)))
  | _, _ => False

structure Kept (l : Label) (w : World) : Prop where
  bounded : (pending key (step plat key l w)).length ≤ pairingPendingMax
  ids : ((pending key (step plat key l w)).map PairingRequest.id).Nodup
  codes : ((pending key (step plat key l w)).map PairingRequest.code).Nodup
  lost : OnlyPending plat key w (fun r =>
    identity r ∈ (pending key (step plat key l w)).map identity ∨
      approves (plat.toUppercase r.code) l w)
  failed : ∀ entry, failsAfter plat key entry l w → Settled key (step plat key l w) entry

def FreshCode (draws : Draws) (existing : List String) : Prop :=
  (∃ n < 500, randomCode (draws.letter n) ∉ existing) ∨
    randomCode (draws.letter 500) ++ fourDigits draws.suffix ∉ existing

/-- A step of a process does not go wrong: `list_pending` empties the file only
when everything in it has expired, and writes back the requests that it had
read only over those; a drawn code is new; no call fails that has to read or
write the whole list, and none of an approval that has removed its request. -/
def CarefulStep (io : Io) (draws : Draws) (w : World) : Phase → Prop
  | .upsertRead _ _ =>
    (io = .done ∨ OnlyPending plat key w (fun _ => False)) ∧
      FreshCode draws ((retained plat (pending key w) w.now).map (fun r => plat.toUppercase r.code))
  | .upsertWrite _ _ => io = .emptied → OnlyPending plat key w (fun _ => False)
  | .listTruncate _ => io = .done → OnlyPending plat key w (fun _ => False)
  | .listWrite requests =>
    io = .refused ∨ OnlyPending plat key w
      (fun r => io ≠ .emptied ∧ identity r ∈ requests.map identity)
  | .approveWrite code entry _ =>
    io = .done ∨ io = .refused ∨ (Allowed key w entry ∧
      (io = .emptied → OnlyPending plat key w (fun r => plat.toUppercase r.code = code)))
  | .unlocking (.addAllowFrom entry) => io = .done ∨ Settled key w entry
  | .going (.addAllowFrom entry) => io = .done ∨ Settled key w entry
  | .allowLock entry => io = .done ∨ Settled key w entry
  | .allowWrite entry _ =>
    io = .done ∨ io = .unsynced ∨ identity entry ∈ (pending key w).map identity ∨
      (io = .refused ∧ Allowed key w entry)
  | .allowUnlock entry => io = .done ∨ Settled key w entry
  | _ => True

def Careful : Label → World → Prop
  | .go p io draws, w => CarefulStep plat key io draws w (w.phase p)
  | _, _ => True

structure Good (requests : List PairingRequest) : Prop where
  bounded : requests.length ≤ pairingPendingMax
  ids : (requests.map PairingRequest.id).Nodup
  codes : (requests.map PairingRequest.code).Nodup
  upper : ∀ r ∈ requests, plat.toUppercase r.code = r.code ∧ r.code ≠ ""

end

def KeepsCodes (plat : Platform) : Prop :=
  ∀ code : String, (∀ c ∈ code.toList, c ∈ pairingAlphabet ∨ c.isDigit) →
    plat.toUppercase code = code

variable (plat : Platform) (key : String) (w : World) (p : ℕ) (requests : List PairingRequest)
  (io : Io)

theorem good_nil : Good plat [] := ⟨by simp, by simp, by simp, by simp⟩

theorem good_sublist (requests some : List PairingRequest) (h : Good plat requests)
    (hsub : some.Sublist requests) : Good plat some := by
  constructor
  · exact le_trans hsub.length_le h.bounded
  · exact h.ids.sublist (hsub.map _)
  · exact h.codes.sublist (hsub.map _)
  · intro r hr
    exact h.upper r (hsub.subset hr)

theorem good_stored (h : Good plat requests) :
    Good plat (requests.map asStored) := by
  have hids : (requests.map asStored).map PairingRequest.id = requests.map PairingRequest.id := by
    simp [asStored]
  have hcodes : (requests.map asStored).map PairingRequest.code =
      requests.map PairingRequest.code := by
    simp [asStored]
  constructor
  · simpa using h.bounded
  · rw [hids]
    exact h.ids
  · rw [hcodes]
    exact h.codes
  · intro r hr
    obtain ⟨r', hr', rfl⟩ := List.mem_map.mp hr
    exact h.upper r' hr'

theorem identity_stored :
    (requests.map asStored).map identity = requests.map identity := by
  simp [asStored, identity]

/-- An update that keeps the identity of what it updates keeps those of a list. -/
theorem map_modify {β : Type} (requests : List PairingRequest) (n : ℕ)
    (f : PairingRequest → PairingRequest) (g : PairingRequest → β)
    (h : ∀ r, requests[n]? = some r → g (f r) = g r) :
    (requests.modify n f).map g = requests.map g := by
  apply List.ext_getElem?
  intro i
  rw [List.getElem?_map, List.getElem?_map, List.getElem?_modify]
  by_cases hi : n = i
  · rw [← hi]
    cases hr : requests[n]? with
    | none => simp
    | some r => simp [h r hr]
  · simp [hi]

theorem good_modify (n : ℕ) (f : PairingRequest → PairingRequest) (h : Good plat requests)
    (hid : ∀ r, requests[n]? = some r → (f r).id = r.id)
    (hcode : ∀ r, requests[n]? = some r → (f r).code = r.code) :
    Good plat (requests.modify n f) := by
  constructor
  · simpa using h.bounded
  · rw [map_modify requests n f _ hid]
    exact h.ids
  · rw [map_modify requests n f _ hcode]
    exact h.codes
  · intro r hr
    have hmem : r.code ∈ (requests.modify n f).map PairingRequest.code := List.mem_map_of_mem hr
    rw [map_modify requests n f _ hcode] at hmem
    obtain ⟨r', hr', heq⟩ := List.mem_map.mp hmem
    rw [← heq]
    exact h.upper r' hr'

variable (draws : Draws) (entry : PairingRequest) (requests : List PairingRequest)
  (file : List PairingRequest) (now : ℕ) (r : PairingRequest)

theorem good_push (h : Good plat requests) (hroom : requests.length < pairingPendingMax)
    (hid : r.id ∉ requests.map PairingRequest.id)
    (hcode : r.code ∉ requests.map PairingRequest.code)
    (hupper : plat.toUppercase r.code = r.code ∧ r.code ≠ "") : Good plat (requests++[r]) := by
  constructor
  · simpa using hroom
  · rw [List.map_append, List.nodup_append]
    refine ⟨h.ids, by simp, fun a ha b hb => ?_⟩
    have hb' : b = r.id := by simpa using hb
    rw [hb']
    exact fun heq => hid (heq ▸ ha)
  · rw [List.map_append, List.nodup_append]
    refine ⟨h.codes, by simp, fun a ha b hb => ?_⟩
    have hb' : b = r.code := by simpa using hb
    rw [hb']
    exact fun heq => hcode (heq ▸ ha)
  · intro r' hr'
    rcases List.mem_append.mp hr' with hr' | hr'
    · exact h.upper r' hr'
    · rw [List.mem_singleton.mp hr']
      exact hupper

theorem existing_codes (h : Good plat requests) :
    requests.map (fun r => plat.toUppercase r.code) = requests.map PairingRequest.code := by
  apply List.map_congr_left
  intro r hr
  exact (h.upper r hr).1

theorem randomCode_letters (letter : ℕ → Fin 32) :
    ∀ c ∈ (randomCode letter).toList, c ∈ pairingAlphabet := by
  intro c hc
  have hall : ∀ n : Fin 32, pairingAlphabet.getD n 'A' ∈ pairingAlphabet := by decide
  simp only [randomCode, String.toList_ofList, List.mem_map] at hc
  obtain ⟨i, -, rfl⟩ := hc
  exact hall (letter i)

theorem randomCode_ne (letter : ℕ → Fin 32) (tail : String) :
    randomCode letter ++ tail ≠ "" := by
  intro h
  have hlen := congrArg (fun s => s.toList.length) h
  simp [randomCode, pairingCodeLength] at hlen

theorem fourDigits_digits (n : ℕ) : ∀ c ∈ (fourDigits n).toList, c.isDigit := by
  intro c hc
  simp only [fourDigits, String.toList_append, String.toList_ofList, List.mem_append] at hc
  rcases hc with hc | hc
  · rw [(List.mem_replicate.mp hc).2]
    decide
  · have hdigits : c ∈ Nat.toDigits 10 n := by
      rw [← Nat.toList_repr]
      exact hc
    exact Nat.isDigit_of_mem_toDigits (by decide) (by decide) hdigits

theorem drawn_code (hplat : KeepsCodes plat) (draws : Draws) (existing : List String)
    (hfresh : FreshCode draws existing) :
    generateUniqueCode draws existing ∉ existing ∧
    plat.toUppercase (generateUniqueCode draws existing) = generateUniqueCode draws existing ∧
    generateUniqueCode draws existing ≠ "" := by
  unfold generateUniqueCode
  split
  · next n hn =>
    have hnew := List.find?_some hn
    refine ⟨by simpa using hnew, ?_, ?_⟩
    · apply hplat
      intro c hc
      exact Or.inl (randomCode_letters _ c hc)
    · simpa using randomCode_ne (draws.letter n) ""
  · next hnone =>
    refine ⟨?_, ?_, randomCode_ne _ _⟩
    · rcases hfresh with ⟨n, hn, hnew⟩ | hlast
      · have := List.find?_eq_none.mp hnone n (List.mem_range.mpr hn)
        simp [hnew] at this
      · exact hlast
    · apply hplat
      intro c hc
      rw [String.toList_append, List.mem_append] at hc
      rcases hc with hc | hc
      · exact Or.inl (randomCode_letters _ c hc)
      · exact Or.inr (fourDigits_digits _ c hc)

def carried : Phase → List PairingRequest
  | .upsertWrite requests _ => requests
  | .listTruncate requests => requests
  | .listLock requests => requests
  | .listWrite requests => requests
  | .approveWrite _ _ rest => rest
  | _ => []

def holdsLock : Phase → Bool
  | .unlocking _ => true
  | .upsertRead _ _ => true
  | .upsertWrite _ _ => true
  | .listWrite _ => true
  | .approveRead _ => true
  | .approveWrite _ _ _ => true
  | _ => false

def accountsFor (plat : Platform) : Phase → PairingRequest → Prop
  | .upsertWrite requests _, r => identity r ∈ requests.map identity
  | .approveWrite code _ rest, r =>
    identity r ∈ rest.map identity ∨ plat.toUppercase r.code = code
  | _, _ => True

section
variable (plat : Platform) (key : String)

structure Sound (w : World) (p : ℕ) (phase : Phase) : Prop where
  good : Good plat (carried phase)
  locked : holdsLock phase = true → w.holder = some p
  keeps : OnlyPending plat key w (accountsFor plat phase)
  grown : ∀ entry allowFrom, phase = .allowWrite entry allowFrom → trim entry.id ∈ allowFrom
  direct : ∀ answer removed, phase ≠ .unlocking (.finished (.approved answer removed))

structure Inv (w : World) : Prop where
  good : Good plat (pending key w)
  sound : ∀ p, Sound plat key w p (w.phase p)

end

theorem expired_later (now later : ℕ) (h : now ≤ later) (hlater : isExpired plat r later = false) :
    isExpired plat r now = false := by
  simp only [isExpired, decide_eq_false_iff_not, not_lt] at hlater ⊢
  omega

theorem unlocked_keeps (phase : Phase) (h : holdsLock phase = false) (r : PairingRequest) :
    accountsFor plat phase r := by
  cases phase <;> trivial

/-- The others stay sound when a process moves: those without the lock promise
nothing about the file, and under the lock of one nothing is added to it. -/
theorem inv_move (w w' : World) (p : ℕ) (hw : Inv plat key w)
    (hphase : ∀ q, q ≠ p → w'.phase q = w.phase q) (hnow : w.now ≤ w'.now)
    (hgood : Good plat (pending key w')) (hothers : ∀ q, q ≠ p → w.holder = some q →
      w'.holder = some q ∧ pending key w' ⊆ pending key w)
    (hmoved : Sound plat key w' p (w'.phase p)) : Inv plat key w' := by
  refine ⟨hgood, fun q => ?_⟩
  by_cases hq : q = p
  · rw [hq]
    exact hmoved
  · have hold := hw.sound q
    rw [hphase q hq]
    refine ⟨hold.good, fun hlocked => (hothers q hq (hold.locked hlocked)).1, ?_, hold.grown,
      hold.direct⟩
    intro r hr hlive
    cases hlocked : holdsLock (w.phase q) with
    | false => exact unlocked_keeps plat _ hlocked r
    | true =>
      have hsub := (hothers q hq (hold.locked hlocked)).2
      exact hold.keeps r (hsub hr) (expired_later plat r w.now w'.now hnow hlive)

theorem good_retained (h : Good plat file) :
    Good plat (retained plat file now) :=
  good_sublist plat file _ h List.filter_sublist

theorem live_retained (hr : r ∈ file) (hlive : isExpired plat r now = false) :
    r ∈ retained plat file now := by
  rw [retained, List.mem_filter]
  exact ⟨hr, by simp [hlive]⟩

theorem sound_plain (phase : Phase) (hcarried : carried phase = [])
    (hlocked : holdsLock phase = false)
    (hgrown : ∀ entry allowFrom, phase ≠ .allowWrite entry allowFrom) :
    Sound plat key w p phase := by
  constructor
  · rw [hcarried]
    exact good_nil plat
  · intro h
    simp [hlocked] at h
  · intro r hr hlive
    exact unlocked_keeps plat phase hlocked r
  · intro entry allowFrom h
    exact absurd h (hgrown entry allowFrom)
  · intro answer removed h
    simp [h, holdsLock] at hlocked

theorem sound_unlocking (next : Next) (hholder : w.holder = some p)
    (hdirect : ∀ answer removed, next ≠ .finished (.approved answer removed)) :
    Sound plat key w p (.unlocking next) := by
  constructor
  · exact good_nil plat
  · intro _
    exact hholder
  · intro r hr hlive
    trivial
  · intro entry allowFrom h
    simp at h
  · intro answer removed h
    simp only [Phase.unlocking.injEq] at h
    exact hdirect answer removed h

/-- What has been read under the lock is written back, with the sender's
request updated or added. -/
theorem upsertSeen_sound (hplat : KeepsCodes plat) (key : String) (w : World) (p : ℕ)
    (draws : Draws) (id : String) (metadata : Option Value) (file : List PairingRequest)
    (hholder : w.holder = some p) (hgood : Good plat file)
    (hfile : OnlyPending plat key w (fun r => r ∈ file))
    (hfresh : FreshCode draws ((retained plat file w.now).map
      (fun r => plat.toUppercase r.code))) :
    Sound plat key w p (upsertSeen plat w.now draws id metadata file) := by
  have hretained := good_retained plat file w.now hgood
  have hkept : OnlyPending plat key w (fun r => r ∈ retained plat file w.now) := by
    intro r hr hlive
    exact live_retained plat file w.now r (hfile r hr hlive) hlive
  have hcode := drawn_code plat hplat draws _ hfresh
  rw [existing_codes plat _ hretained] at hcode
  unfold upsertSeen
  simp only [existing_codes plat _ hretained]
  -- the code is used through its lemma only
  generalize generateUniqueCode draws _ = drawn at hcode ⊢
  split
  · exact sound_unlocking plat key w p _ hholder (by simp)
  · split
    · next req hreq =>
      have hmem := List.mem_of_find?_eq_some hreq
      have hne : ¬ req.code = "" := (hretained.upper req hmem).2
      have hat : ∀ r, (retained plat file w.now)[(retained plat file w.now).findIdx
          (fun r => r.id = trim id)]? = some r → req.code = r.code := by
        intro r hr
        rw [← List.find?_eq_getElem?_findIdx] at hr
        rw [hreq] at hr
        rw [Option.some.inj hr]
      rw [if_neg hne]
      constructor
      · exact good_modify plat _ _ _ hretained (fun r _ => rfl) hat
      · intro _
        exact hholder
      · intro r hr hlive
        simp only [accountsFor]
        rw [map_modify]
        · exact List.mem_map_of_mem (hkept r hr hlive)
        · intro r hr
          simp [identity, hat r hr]
      · intro entry allowFrom h
        simp at h
      · intro answer removed h
        simp at h
    · next hnone =>
      split
      · exact sound_unlocking plat key w p _ hholder (by simp)
      · next hroom =>
        constructor
        · apply good_push plat _ _ hretained (by omega)
          · intro hin
            obtain ⟨r, hr, hid⟩ := List.mem_map.mp hin
            have := List.find?_eq_none.mp hnone r hr
            simp [hid] at this
          · exact hcode.1
          · exact hcode.2
        · intro _
          exact hholder
        · intro r hr hlive
          simp only [accountsFor, List.map_append]
          exact List.mem_append_left _ (List.mem_map_of_mem (hkept r hr hlive))
        · intro entry allowFrom h
          simp at h
        · intro answer removed h
          simp at h

theorem mem_erased (code : String) (requests : List PairingRequest) (r : PairingRequest)
    (hr : r ∈ requests) :
    r ∈ requests.eraseIdx (requests.findIdx (fun r => plat.toUppercase r.code = code)) ∨
      plat.toUppercase r.code = code := by
  induction requests with
  | nil => simp at hr
  | cons a rest ih =>
    rw [List.findIdx_cons]
    by_cases ha : plat.toUppercase a.code = code
    · simp only [ha, decide_true, cond_true, List.eraseIdx_zero, List.tail_cons]
      rcases List.mem_cons.mp hr with hr | hr
      · exact Or.inr (hr ▸ ha)
      · exact Or.inl hr
    · simp only [ha, decide_false, cond_false, List.eraseIdx_cons_succ]
      rcases List.mem_cons.mp hr with hr | hr
      · exact Or.inl (hr ▸ List.mem_cons_self)
      · rcases ih hr with h | h
        · exact Or.inl (List.mem_cons_of_mem a h)
        · exact Or.inr h

theorem approveSeen_sound (code : String) (file : List PairingRequest) (hholder : w.holder = some p)
    (hgood : Good plat file) (hfile : OnlyPending plat key w (fun r => r ∈ file) ∨ file = []) :
    Sound plat key w p (approveSeen plat w.now code file) := by
  have hretained := good_retained plat file w.now hgood
  unfold approveSeen
  simp only
  split
  · exact sound_unlocking plat key w p _ hholder (by simp)
  · next entry hentry =>
    constructor
    · exact good_sublist plat _ _ hretained (List.eraseIdx_sublist _ _)
    · intro _
      exact hholder
    · intro r hr hlive
      rcases hfile with hfile | hfile
      · have hmem := live_retained plat file w.now r (hfile r hr hlive) hlive
        rcases mem_erased plat code _ r hmem with h | h
        · exact Or.inl (List.mem_map_of_mem h)
        · exact Or.inr h
      · simp [hfile, retained] at hentry
    · intro entry allowFrom h
      simp at h
    · intro answer removed h
      simp at h

theorem listSeen_sound (hgood : Good plat file) :
    Sound plat key w p (listSeen plat w.now file) := by
  unfold listSeen
  simp only
  split
  · constructor
    · exact good_retained plat file w.now hgood
    · intro h
      simp [holdsLock] at h
    · intro r hr hlive
      trivial
    · intro entry allowFrom h
      simp at h
    · intro answer removed h
      simp at h
  · exact sound_plain plat key w p _ rfl rfl (by simp)

theorem allowSeen_sound (allowFrom : List String) :
    Sound plat key w p (allowSeen plat entry allowFrom) := by
  unfold allowSeen
  split
  · exact sound_plain plat key w p _ rfl rfl (by simp)
  · constructor
    · exact good_nil plat
    · intro h
      simp [holdsLock] at h
    · intro r hr hlive
      trivial
    · intro entry' allowFrom' h
      simp only [Phase.allowWrite.injEq] at h
      rw [← h.1, ← h.2]
      exact List.mem_append_right _ List.mem_cons_self
    · intro answer removed h
      simp at h

theorem pending_write (io : Io) (requests : List PairingRequest) :
    pending key { w with store := writeLocked key io requests w.store } =
      match io with
      | .done => requests.map asStored
      | .unsynced => requests.map asStored
      | .refused => pending key w
      | .emptied => [] := by
  cases io <;> simp [pending, writeLocked, ended, File.entries]

theorem pending_truncate :
    pending key { w with store := truncatePairing key w.store } = [] := by
  simp [pending, truncatePairing, File.entries]

theorem good_write (io : Io) (requests : List PairingRequest) (hw : Good plat (pending key w))
    (h : Good plat requests) :
    Good plat (pending key { w with store := writeLocked key io requests w.store }) := by
  rw [pending_write]
  cases io with
  | done => exact good_stored plat requests h
  | unsynced => exact good_stored plat requests h
  | refused => exact hw
  | emptied => exact good_nil plat

theorem inv_goto (w u : World) (p : ℕ) (phase : Phase) (hw : Inv plat key w)
    (hphase : u.phase = w.phase) (hnow : u.now = w.now) (hgood : Good plat (pending key u))
    (hothers : ∀ q, q ≠ p → w.holder = some q →
      u.holder = some q ∧ pending key u ⊆ pending key w) (hmoved : Sound plat key u p phase) :
    Inv plat key (u.goto p phase) := by
  apply inv_move plat key w (u.goto p phase) p hw
  · intro q hq
    simp [World.goto, hq, hphase]
  · exact le_of_eq hnow.symm
  · exact hgood
  · exact hothers
  · simp only [World.goto, Function.update_self]
    exact ⟨hmoved.good, hmoved.locked, hmoved.keeps, hmoved.grown, hmoved.direct⟩

theorem inv_same (w u : World) (p : ℕ) (phase : Phase) (hw : Inv plat key w)
    (hphase : u.phase = w.phase) (hnow : u.now = w.now) (hholder : u.holder = w.holder)
    (hpending : pending key u = pending key w) (hmoved : Sound plat key u p phase) :
    Inv plat key (u.goto p phase) := by
  apply inv_goto plat key w u p phase hw hphase hnow (hpending ▸ hw.good) _ hmoved
  intro q _ hq
  exact ⟨hholder ▸ hq, hpending ▸ List.Subset.refl _⟩

theorem inv_answer (w u : World) (p : ℕ) (result : Result) (hw : Inv plat key w)
    (hphase : u.phase = w.phase) (hnow : u.now = w.now) (hholder : u.holder = w.holder)
    (hpending : pending key u = pending key w) :
    Inv plat key (u.answer p result) :=
  inv_same plat key w u p _ hw hphase hnow hholder hpending
    (sound_plain plat key u p _ rfl rfl (by simp))

theorem inv_holder (w u : World) (p : ℕ) (phase : Phase) (hw : Inv plat key w)
    (hheld : w.holder = some p) (hphase : u.phase = w.phase) (hnow : u.now = w.now)
    (hgood : Good plat (pending key u)) (hmoved : Sound plat key u p phase) :
    Inv plat key (u.goto p phase) := by
  apply inv_goto plat key w u p phase hw hphase hnow hgood _ hmoved
  intro q hq hholder
  rw [hheld] at hholder
  exact absurd (Option.some.inj hholder).symm hq

theorem lock_inv (locked : Phase) (failed : Result) (hw : Inv plat key w)
    (hlocked : Sound plat key { w with holder := some p } p locked) :
    Inv plat key (lock p io w locked failed) := by
  unfold lock
  split
  · exact hw
  · next hfree =>
    split
    · apply inv_goto plat key w { w with holder := some p } p locked hw rfl rfl hw.good _ hlocked
      intro q _ hq
      simp [hq] at hfree
    · exact inv_answer plat key w w p failed hw rfl rfl rfl rfl

/-- A list that is held as it was, under the lock or before it. -/
theorem sound_lock (phase : Phase) (hgood : Good plat (carried phase))
    (hkeeps : ∀ r, accountsFor plat phase r) (hlocked : holdsLock phase = true → w.holder = some p)
    (hgrown : ∀ entry allowFrom, phase ≠ .allowWrite entry allowFrom)
    (hdirect : ∀ next, phase ≠ .unlocking next) : Sound plat key w p phase := by
  constructor
  · exact hgood
  · exact hlocked
  · intro r _ _
    exact hkeeps r
  · intro entry allowFrom h
    exact absurd h (hgrown entry allowFrom)
  · intro answer removed h
    exact hdirect _ h

theorem inv_plain (w u : World) (p : ℕ) (phase : Phase) (hw : Inv plat key w)
    (hphase : u.phase = w.phase) (hnow : u.now = w.now) (hholder : u.holder = w.holder)
    (hpending : pending key u = pending key w) (hcarried : carried phase = [])
    (hlocked : holdsLock phase = false)
    (hgrown : ∀ entry allowFrom, phase ≠ .allowWrite entry allowFrom) :
    Inv plat key (u.goto p phase) :=
  inv_same plat key w u p phase hw hphase hnow hholder hpending
    (sound_plain plat key u p phase hcarried hlocked hgrown)

/-- The write at the end of an operation, under the lock: it is unlocked next, or
the operation has failed and the lock is gone. -/
theorem write_inv (next : Next) (failed : Result) (hw : Inv plat key w) (hheld : w.holder = some p)
    (hgood : Good plat requests)
    (hdirect : ∀ answer removed, next ≠ .finished (.approved answer removed)) :
    Inv plat key
      (if io = .done then
        { w with store := writeLocked key io requests w.store }.goto p (.unlocking next)
      else
        { w with store := writeLocked key io requests w.store, holder := none }.answer p
          failed) := by
  have hwritten := good_write plat key w io requests hw.good hgood
  split
  · exact inv_holder plat key w _ p _ hw hheld rfl rfl hwritten
      (sound_unlocking plat key _ p _ hheld hdirect)
  · exact inv_holder plat key w _ p _ hw hheld rfl rfl hwritten
      (sound_plain plat key _ p _ rfl rfl (by simp))

theorem unlock_inv (phase : Phase) (hw : Inv plat key w) (hheld : w.holder = some p)
    (hcarried : carried phase = []) (hlocked : holdsLock phase = false)
    (hgrown : ∀ entry allowFrom, phase ≠ .allowWrite entry allowFrom) :
    Inv plat key ({ w with holder := none }.goto p phase) :=
  inv_holder plat key w _ p phase hw hheld rfl rfl hw.good
    (sound_plain plat key _ p phase hcarried hlocked hgrown)

theorem going_inv (next : Next) (hw : Inv plat key w) (hph : w.phase p = .going next) :
    Inv plat key (go plat key p io draws w) := by
  cases next with
  | finished result =>
    simp only [go, hph]
    exact hw
  | recordFailedApprove =>
    simp only [go, hph]
    split
    · exact inv_answer plat key w _ p _ hw rfl rfl rfl rfl
    · exact inv_answer plat key w w p _ hw rfl rfl rfl rfl
  | addAllowFrom entry =>
    simp only [go, hph]
    split
    · exact inv_answer plat key w w p _ hw rfl rfl rfl rfl
    · split
      · exact inv_plain plat key w _ p _ hw rfl rfl rfl rfl rfl rfl (by simp)
      · exact inv_answer plat key w w p _ hw rfl rfl rfl rfl

/-- A read that fails under the lock is taken for an empty list. -/
theorem upsertRead_inv (hplat : KeepsCodes plat) (key : String) (w : World) (p : ℕ) (io : Io)
    (draws : Draws) (id : String) (metadata : Option Value) (hw : Inv plat key w)
    (hc : Careful plat key (.go p io draws) w) (hph : w.phase p = .upsertRead id metadata) :
    Inv plat key (go plat key p io draws w) := by
  have hp := hw.sound p
  rw [hph] at hp
  simp only [Careful, CarefulStep, hph] at hc
  simp only [go, hph]
  apply inv_same plat key w w p _ hw rfl rfl rfl rfl
  by_cases hio : io = .done
  · rw [readOr, if_pos hio]
    exact upsertSeen_sound plat hplat key w p draws id metadata _ (hp.locked rfl) hw.good
      (fun r hr _ => hr) hc.2
  · rw [readOr, if_neg hio]
    have hclear := hc.1.resolve_left hio
    have hfresh : FreshCode draws ((retained plat [] w.now).map
        (fun r => plat.toUppercase r.code)) := Or.inr (by simp [retained])
    exact upsertSeen_sound plat hplat key w p draws id metadata _ (hp.locked rfl)
      (good_nil plat) (fun r hr hlive => (hclear r hr hlive).elim) hfresh

theorem approveRead_inv (code : String) (hw : Inv plat key w)
    (hph : w.phase p = .approveRead code) : Inv plat key (go plat key p io draws w) := by
  have hp := hw.sound p
  rw [hph] at hp
  simp only [go, hph]
  apply inv_same plat key w w p _ hw rfl rfl rfl rfl
  by_cases hio : io = .done
  · rw [readOr, if_pos hio]
    exact approveSeen_sound plat key w p code _ (hp.locked rfl) hw.good
      (Or.inl (fun r hr _ => hr))
  · rw [readOr, if_neg hio]
    exact approveSeen_sound plat key w p code _ (hp.locked rfl) (good_nil plat) (Or.inr rfl)

/-- The file is emptied without the lock, whoever holds it. -/
theorem listTruncate_inv (hw : Inv plat key w) (hph : w.phase p = .listTruncate requests) :
    Inv plat key (go plat key p io draws w) := by
  have hp := hw.sound p
  rw [hph] at hp
  simp only [go, hph]
  split
  · have hnil := pending_truncate key w
    apply inv_goto plat key w { w with store := truncatePairing key w.store } p _ hw rfl rfl
    · rw [hnil]
      exact good_nil plat
    · intro q _ hq
      rw [hnil]
      exact ⟨hq, List.nil_subset _⟩
    · exact sound_lock plat key _ p _ hp.good (fun _ => trivial) (by simp [holdsLock])
        (by simp) (by simp)
  · exact inv_answer plat key w w p _ hw rfl rfl rfl rfl

theorem go_inv (hplat : KeepsCodes plat) (key : String) (w : World) (p : ℕ) (io : Io)
    (draws : Draws) (hw : Inv plat key w) (hc : Careful plat key (.go p io draws) w) :
    Inv plat key (go plat key p io draws w) := by
  have hp := hw.sound p
  cases hph : w.phase p with
  | idle =>
    simp only [go, hph]
    exact hw
  | going next => exact going_inv plat key w p io draws next hw hph
  | unlocking next =>
    rw [hph] at hp
    simp only [go, hph]
    split
    · exact unlock_inv plat key w p _ hw (hp.locked rfl) rfl rfl (by simp)
    · exact unlock_inv plat key w p _ hw (hp.locked rfl) rfl rfl (by simp)
  | upsertOpen id metadata =>
    simp only [go, hph]
    split
    · exact inv_plain plat key w _ p _ hw rfl rfl rfl (pending_open key w) rfl rfl (by simp)
    · exact inv_answer plat key w w p _ hw rfl rfl rfl rfl
  | upsertLock _ _ | approveLock _ =>
    simp only [go, hph]
    exact lock_inv plat key w p io _ _ hw
      (sound_lock plat key _ p _ (good_nil plat) (fun _ => trivial) (fun _ => rfl)
        (by simp) (by simp))
  | upsertRead id metadata => exact upsertRead_inv plat hplat key w p io draws id metadata hw hc hph
  | upsertWrite requests _ | listWrite requests | approveWrite _ _ requests =>
    rw [hph] at hp
    simp only [go, hph]
    exact write_inv plat key w p io requests _ _ hw (hp.locked rfl) hp.good (by simp)
  | listRead =>
    simp only [go, hph]
    split
    · exact inv_answer plat key w w p _ hw rfl rfl rfl rfl
    · split
      · exact inv_answer plat key w w p _ hw rfl rfl rfl rfl
      · exact inv_same plat key w w p _ hw rfl rfl rfl rfl
          (listSeen_sound plat key w p _ hw.good)
  | listTruncate requests => exact listTruncate_inv plat key w p io draws requests hw hph
  | listLock requests =>
    rw [hph] at hp
    simp only [go, hph]
    exact lock_inv plat key w p io _ _ hw
      (sound_lock plat key _ p _ hp.good (fun _ => trivial) (fun _ => rfl) (by simp) (by simp))
  | approveLimit _ | approveOpen _ =>
    simp only [go, hph]
    split
    · exact inv_answer plat key w w p _ hw rfl rfl rfl rfl
    · split
      · exact inv_answer plat key w w p _ hw rfl rfl rfl rfl
      · exact inv_plain plat key w w p _ hw rfl rfl rfl rfl rfl rfl (by simp)
  | approveRead code => exact approveRead_inv plat key w p io draws code hw hph
  | allowLock entry =>
    simp only [go, hph]
    split
    · exact hw
    · split
      · exact inv_plain plat key w _ p _ hw rfl rfl rfl rfl rfl rfl (by simp)
      · exact inv_answer plat key w w p _ hw rfl rfl rfl rfl
  | allowRead entry =>
    simp only [go, hph]
    exact inv_same plat key w w p _ hw rfl rfl rfl rfl (allowSeen_sound plat key w p entry _)
  | allowWrite entry allowFrom =>
    simp only [go, hph]
    split
    · exact inv_plain plat key w _ p _ hw rfl rfl rfl rfl rfl rfl (by simp)
    · exact inv_answer plat key w _ p _ hw rfl rfl rfl rfl
  | allowUnlock entry =>
    simp only [go, hph]
    split
    · exact inv_answer plat key w _ p _ hw rfl rfl rfl rfl
    · exact inv_answer plat key w _ p _ hw rfl rfl rfl rfl

def rewrites : Phase → Bool
  | .upsertWrite _ _ => true
  | .listTruncate _ => true
  | .listWrite _ => true
  | .approveWrite _ _ _ => true
  | _ => false

theorem lock_pending (locked : Phase) (failed : Result) :
    pending key (lock p io w locked failed) = pending key w := by
  unfold lock
  split
  · rfl
  · split <;> rfl

theorem go_pending (h : rewrites (w.phase p) = false) :
    pending key (go plat key p io draws w) = pending key w := by
  cases hph : w.phase p with
  | idle => simp only [go, hph]
  | going next =>
    cases next with
    | finished result => simp only [go, hph]
    | recordFailedApprove =>
      simp only [go, hph]
      split <;> rfl
    | addAllowFrom entry =>
      simp only [go, hph]
      split
      · rfl
      · split <;> rfl
  | unlocking next =>
    simp only [go, hph]
    split <;> rfl
  | upsertOpen id metadata =>
    simp only [go, hph]
    split
    · exact pending_open key w
    · rfl
  | upsertLock id metadata =>
    simp only [go, hph]
    exact lock_pending key w p io _ _
  | upsertRead id metadata =>
    simp only [go, hph]
    rfl
  | upsertWrite requests result => simp [hph, rewrites] at h
  | listRead =>
    simp only [go, hph]
    split
    · rfl
    · split <;> rfl
  | listTruncate requests => simp [hph, rewrites] at h
  | listLock requests =>
    simp only [go, hph]
    exact lock_pending key w p io _ _
  | listWrite requests => simp [hph, rewrites] at h
  | approveLimit code =>
    simp only [go, hph]
    split
    · rfl
    · split <;> rfl
  | approveOpen code =>
    simp only [go, hph]
    split
    · rfl
    · split <;> rfl
  | approveLock code =>
    simp only [go, hph]
    exact lock_pending key w p io _ _
  | approveRead code =>
    simp only [go, hph]
    rfl
  | approveWrite code entry rest => simp [hph, rewrites] at h
  | allowLock entry =>
    simp only [go, hph]
    split
    · rfl
    · split <;> rfl
  | allowRead entry =>
    simp only [go, hph]
    rfl
  | allowWrite entry allowFrom =>
    simp only [go, hph]
    split <;> rfl
  | allowUnlock entry =>
    simp only [go, hph]
    split <;> rfl

/-- What a write leaves of the requests that the list written has. -/
theorem write_keeps (hr : r ∈ pending key w)
    (h : io = .refused ∨ (io ≠ .emptied ∧ identity r ∈ requests.map identity)) :
    identity r ∈ (pending key { w with store := writeLocked key io requests w.store }).map
      identity := by
  rw [pending_write]
  cases io with
  | done =>
    rw [identity_stored]
    exact (h.resolve_left (by simp)).2
  | unsynced =>
    rw [identity_stored]
    exact (h.resolve_left (by simp)).2
  | refused => exact List.mem_map_of_mem hr
  | emptied => simp at h

theorem go_lost (hw : Inv plat key w) (hc : Careful plat key (.go p io draws) w) :
    OnlyPending plat key w (fun r =>
      identity r ∈ (pending key (go plat key p io draws w)).map identity ∨
        approves (plat.toUppercase r.code) (.go p io draws) w) := by
  intro r hr hlive
  cases hrewrites : rewrites (w.phase p) with
  | false =>
    rw [go_pending plat key w p io draws hrewrites]
    exact Or.inl (List.mem_map_of_mem hr)
  | true =>
    have hp := hw.sound p
    cases hph : w.phase p with
    | upsertWrite requests result =>
      rw [hph] at hp
      simp only [Careful, CarefulStep, hph] at hc
      have hkeep := hp.keeps r hr hlive
      have hio : io ≠ .emptied := fun h => hc h r hr hlive
      left
      simp only [go, hph]
      split
      · exact write_keeps key w io requests r hr (Or.inr ⟨hio, hkeep⟩)
      · exact write_keeps key w io requests r hr (Or.inr ⟨hio, hkeep⟩)
    | listTruncate requests =>
      simp only [Careful, CarefulStep, hph] at hc
      have hio : io ≠ .done := fun h => hc h r hr hlive
      left
      simp only [go, hph, if_neg hio]
      exact List.mem_map_of_mem hr
    | listWrite requests =>
      simp only [Careful, CarefulStep, hph] at hc
      left
      have hkeep := hc.imp_right (fun h => h r hr hlive)
      simp only [go, hph]
      split
      · exact write_keeps key w io requests r hr hkeep
      · exact write_keeps key w io requests r hr hkeep
    | approveWrite code entry rest =>
      rw [hph] at hp
      simp only [Careful, CarefulStep, hph] at hc
      rcases hp.keeps r hr hlive with hkeep | hcode
      · by_cases hio : io = .emptied
        · right
          simp only [hio, reduceCtorEq, false_or, forall_const] at hc
          exact ⟨entry, rest, by rw [hph, hc.2 r hr hlive]⟩
        · left
          simp only [go, hph]
          split
          · exact write_keeps key w io rest r hr (Or.inr ⟨hio, hkeep⟩)
          · exact write_keeps key w io rest r hr (Or.inr ⟨hio, hkeep⟩)
      · right
        exact ⟨entry, rest, by rw [hph, hcode]⟩
    | _ => simp [hph, rewrites] at hrewrites

theorem upsertSeen_going (draws : Draws) (id : String) (metadata : Option Value)
    (file : List PairingRequest) (next : Next) :
    upsertSeen plat now draws id metadata file ≠ .going next := by
  unfold upsertSeen
  simp only
  split
  · simp
  · split
    · simp
    · split <;> simp

theorem approveSeen_going (code : String) (file : List PairingRequest) (next : Next) :
    approveSeen plat now code file ≠ .going next := by
  unfold approveSeen
  simp only
  split <;> simp

theorem allowSeen_going (allowFrom : List String) (next : Next) :
    allowSeen plat entry allowFrom ≠ .going next := by
  unfold allowSeen
  split <;> simp

theorem listSeen_going (file : List PairingRequest)
    (answer : Except Failure (Option PairingRequest)) (removed : Option PairingRequest) :
    listSeen plat now file ≠ .going (.finished (.approved answer removed)) := by
  unfold listSeen
  simp only
  split <;> simp

theorem lock_finished (locked : Phase) (failed result : Result)
    (hwaiting : w.phase p ≠ .going (.finished result))
    (hlocked : locked ≠ .going (.finished result))
    (h : (lock p io w locked failed).phase p = .going (.finished result)) : failed = result := by
  unfold lock at h
  split at h
  · exact absurd h hwaiting
  · split at h
    · rw [goto_phase] at h
      exact absurd h hlocked
    · simpa only [answer_phase, Phase.going.injEq, Next.finished.injEq] using h

theorem answer_removed (failure : Failure) (reported entry : PairingRequest)
    (h : (w.answer p (.approved (.error .io) (some reported))).phase p =
      .going (.finished (.approved (.error failure) (some entry)))) : reported = entry := by
  simp only [answer_phase, Phase.going.injEq, Next.finished.injEq, Result.approved.injEq,
    Option.some.injEq] at h
  exact h.2

theorem unlocking_fails (e : Failure) (next : Next) (hw : Inv plat key w)
    (hph : w.phase p = .unlocking next) (h : (go plat key p io draws w).phase p =
      .going (.finished (.approved (.error e) (some entry)))) :
    io ≠ .done ∧ next = .addAllowFrom entry := by
  have hdirect := (hw.sound p).direct
  simp only [go, hph] at h
  split at h
  · simp only [goto_phase, Phase.going.injEq] at h
    rw [h] at hph
    exact absurd hph (hdirect _ _)
  · next hio =>
    cases next with
    | finished result =>
      cases result with
      | approved answer removed => exact absurd hph (hdirect _ _)
      | _ => simp [Next.failed] at h
    | recordFailedApprove => simp [Next.failed] at h
    | addAllowFrom entry' => exact ⟨hio, by rw [answer_removed _ _ _ _ _ h]⟩

/-- The steps with which an approval can fail after it has removed a request. -/
theorem fails_cases (hw : Inv plat key w) (h : failsAfter plat key entry (.go p io draws) w) :
    io ≠ .done ∧
      ((∃ code rest, w.phase p = .approveWrite code entry rest ∧ io ≠ .refused) ∨
       (w.phase p = .unlocking (.addAllowFrom entry)) ∨
       (w.phase p = .going (.addAllowFrom entry)) ∨
       (w.phase p = .allowLock entry) ∨
       (∃ allowFrom, w.phase p = .allowWrite entry allowFrom) ∨
       (w.phase p = .allowUnlock entry)) := by
  obtain ⟨hrunning, e, hafter⟩ := h
  cases hph : w.phase p with
  | idle => simp [go, hph] at hafter
  | going next =>
    cases next with
    | finished result => exact absurd hph (hrunning result)
    | recordFailedApprove =>
      simp only [go, hph] at hafter
      split at hafter <;> simp at hafter
    | addAllowFrom entry' =>
      simp only [go, hph] at hafter
      split at hafter
      · simp at hafter
      · split at hafter
        · simp at hafter
        · next hio => exact ⟨hio, by simp [answer_removed _ _ _ _ _ hafter]⟩
  | unlocking next =>
    obtain ⟨hio, rfl⟩ := unlocking_fails plat key w p io draws entry e next hw hph hafter
    exact ⟨hio, by simp⟩
  -- what fails before the file is rewritten has removed nothing
  | upsertOpen _ _ | upsertWrite _ _ | listTruncate _ | listWrite _ =>
    simp only [go, hph] at hafter
    split at hafter <;> simp at hafter
  | approveLimit _ | approveOpen _ =>
    simp only [go, hph] at hafter
    split at hafter
    · simp at hafter
    · split at hafter <;> simp at hafter
  | upsertLock _ _ | listLock _ | approveLock _ =>
    simp only [go, hph] at hafter
    have := lock_finished w p io _ _ _ (hrunning _) (by simp) hafter
    simp at this
  | upsertRead id metadata =>
    simp only [go, hph, goto_phase] at hafter
    exact absurd hafter (upsertSeen_going plat _ _ _ _ _ _)
  | listRead =>
    simp only [go, hph] at hafter
    split at hafter
    · simp at hafter
    · split at hafter
      · simp at hafter
      · rw [goto_phase] at hafter
        exact absurd hafter (listSeen_going plat _ _ _ _)
  | approveRead code =>
    simp only [go, hph, goto_phase] at hafter
    exact absurd hafter (approveSeen_going plat _ _ _ _)
  | approveWrite code entry' rest =>
    simp only [go, hph] at hafter
    split at hafter
    · simp at hafter
    · next hio =>
      simp only [answer_phase, Phase.going.injEq, Next.finished.injEq, Result.approved.injEq]
        at hafter
      by_cases hrefused : io = .refused
      · simp [hrefused] at hafter
      · simp only [if_neg hrefused, Option.some.injEq] at hafter
        exact ⟨hio, Or.inl ⟨code, rest, by rw [hafter.2], hrefused⟩⟩
  | allowLock entry' =>
    simp only [go, hph] at hafter
    split at hafter
    · simp [hph] at hafter
    · split at hafter
      · simp at hafter
      · next hio => exact ⟨hio, by simp [answer_removed _ _ _ _ _ hafter]⟩
  | allowRead entry' =>
    simp only [go, hph, goto_phase] at hafter
    exact absurd hafter (allowSeen_going plat _ _ _)
  | allowWrite _ _ | allowUnlock _ =>
    simp only [go, hph] at hafter
    split at hafter
    · simp at hafter
    · next hio => exact ⟨hio, by simp [answer_removed _ _ _ _ _ hafter]⟩

theorem go_failed (hw : Inv plat key w) (hc : Careful plat key (.go p io draws) w)
    (h : failsAfter plat key entry (.go p io draws) w) :
    Settled key (go plat key p io draws w) entry := by
  obtain ⟨hio, ⟨code, rest, hph, hrefused⟩ | hph | hph | hph | ⟨allowFrom, hph⟩ | hph⟩ :=
    fails_cases plat key w p io draws entry hw h
  · simp only [Careful, CarefulStep, hph, hio, hrefused, false_or] at hc
    right
    simp only [go, hph, if_neg hio]
    exact hc.1
  · simp only [Careful, CarefulStep, hph, hio, false_or] at hc
    simp only [go, hph, if_neg hio]
    exact hc
  · simp only [Careful, CarefulStep, hph, hio, false_or] at hc
    simp only [go, hph, if_neg hio]
    split
    · exact hc
    · exact hc
  · simp only [Careful, CarefulStep, hph, hio, false_or] at hc
    simp only [go, hph, if_neg hio]
    split
    · exact hc
    · exact hc
  · have hgrown := (hw.sound p).grown entry allowFrom hph
    simp only [Careful, CarefulStep, hph, hio, false_or] at hc
    simp only [go, hph, if_neg hio]
    rcases hc with hio' | hpending | ⟨hio', hallowed⟩
    · right
      refine ⟨trim entry.id, ?_, trim_trim entry.id⟩
      simpa [World.answer, World.goto, allowList, writeAllowFrom, ended, hio', File.entries]
        using hgrown
    · exact Or.inl hpending
    · right
      simpa [Allowed, World.answer, World.goto, allowList, writeAllowFrom, ended, hio']
        using hallowed
  · simp only [Careful, CarefulStep, hph, hio, false_or] at hc
    simp only [go, hph, if_neg hio]
    exact hc

theorem call_inv (c : Call) (hw : Inv plat key w) : Inv plat key (call plat p c w) := by
  have hbegun : Inv plat key (w.goto p (begun plat c)) := by
    apply inv_same plat key w w p _ hw rfl rfl rfl rfl
    cases c with
    | upsertRequest id metadata => exact sound_plain plat key w p _ rfl rfl (by simp [begun])
    | listPending => exact sound_plain plat key w p _ rfl rfl (by simp [begun])
    | approve code =>
      simp only [begun]
      split
      · exact sound_plain plat key w p _ rfl rfl (by simp)
      · exact sound_plain plat key w p _ rfl rfl (by simp)
  unfold call
  split
  · exact hbegun
  · exact hbegun
  · exact hw

theorem call_pending (c : Call) :
    pending key (call plat p c w) = pending key w := by
  unfold call
  split <;> rfl

theorem tick_inv (secs : ℕ) (hw : Inv plat key w) :
    Inv plat key { w with now := w.now+secs } := by
  refine ⟨hw.good, fun p => ?_⟩
  have hold := hw.sound p
  refine ⟨hold.good, hold.locked, fun r hr hlive => ?_, hold.grown, hold.direct⟩
  exact hold.keeps r hr (expired_later plat r w.now _ (Nat.le_add_right _ _) hlive)

theorem kept_of (l : Label) (w : World) (hinv : Inv plat key (step plat key l w))
    (hlost : OnlyPending plat key w (fun r =>
      identity r ∈ (pending key (step plat key l w)).map identity ∨
        approves (plat.toUppercase r.code) l w))
    (hfailed : ∀ entry, failsAfter plat key entry l w → Settled key (step plat key l w) entry) :
    Kept plat key l w :=
  ⟨hinv.good.bounded, hinv.good.ids, hinv.good.codes, hlost, hfailed⟩

theorem step_kept (hplat : KeepsCodes plat) (key : String) (l : Label) (w : World)
    (hw : Inv plat key w) (hc : Careful plat key l w) :
    Inv plat key (step plat key l w) ∧ Kept plat key l w := by
  cases l with
  | tick secs =>
    have hinv := tick_inv plat key w secs hw
    refine ⟨hinv, kept_of plat key _ w hinv (fun r hr _ => ?_) (fun _ h => h.elim)⟩
    exact Or.inl (List.mem_map_of_mem hr)
  | call p c =>
    have hinv := call_inv plat key w p c hw
    refine ⟨hinv, kept_of plat key _ w hinv (fun r hr _ => ?_) (fun _ h => h.elim)⟩
    left
    rw [step, call_pending]
    exact List.mem_map_of_mem hr
  | go p io draws =>
    have hinv := go_inv plat hplat key w p io draws hw hc
    exact ⟨hinv, kept_of plat key _ w hinv (go_lost plat key w p io draws hw hc)
      (fun entry h => go_failed plat key w p io draws entry hw hc h)⟩

theorem start_inv : Inv plat key (start now) :=
  ⟨good_nil plat, fun p => sound_plain plat key _ p _ rfl rfl (by simp [start])⟩

/-- In every run from an empty store by any number of processes whose steps
are careful, every step keeps the pending list. -/
theorem pending_kept (hplat : KeepsCodes plat) (key : String) (now : ℕ) (labels : List Label)
    (hcareful : Along (step plat key) (Careful plat key) labels (start now)) :
    Along (step plat key) (Kept plat key) labels (start now) := by
  apply along_of (step plat key) (Inv plat key) (Careful plat key) (Kept plat key) _ labels
    (start now) (start_inv plat key now) hcareful
  intro l w hw hc
  exact step_kept plat hplat key l w hw hc

instance (key : String) (w : World) (r : PairingRequest) : Decidable (Allowed key w r) :=
  inferInstanceAs (Decidable (∃ e ∈ allowList w.store key, trim e = trim r.id))

instance (key : String) (w : World) (r : PairingRequest) : Decidable (Settled key w r) :=
  inferInstanceAs (Decidable (_ ∨ _))

instance (plat : Platform) (key : String) (w : World) (these : PairingRequest → Prop)
    [DecidablePred these] : Decidable (OnlyPending plat key w these) :=
  inferInstanceAs (Decidable (∀ r ∈ pending key w, isExpired plat r w.now = false → these r))

instance (draws : Draws) (existing : List String) : Decidable (FreshCode draws existing) :=
  decidable_of_iff ((List.range 500).any (fun n => randomCode (draws.letter n) ∉ existing) = true ∨
    randomCode (draws.letter 500) ++ fourDigits draws.suffix ∉ existing) (by simp [FreshCode])

instance (plat : Platform) (key : String) (io : Io) (draws : Draws) (w : World) (phase : Phase) :
    Decidable (CarefulStep plat key io draws w phase) := by
  unfold CarefulStep
  split <;> infer_instance

instance (plat : Platform) (key : String) : ∀ l w, Decidable (Careful plat key l w)
  | .go p io draws, w => inferInstanceAs (Decidable (CarefulStep plat key io draws w (w.phase p)))
  | .tick _, _ => isTrue trivial
  | .call _ _, _ => isTrue trivial

def clockPlatform : Platform :=
  { plainPlatform with
    parseTimestamp := fun s =>
      if s = "1970-01-01T00:01:40+00:00" then some 100
      else if s = "1970-01-01T00:16:40+00:00" then some 1000
      else if s = "1970-01-01T00:16:41+00:00" then some 1001
      else none
    nowIso := fun now =>
      if now = 100 then "1970-01-01T00:01:40+00:00"
      else if now = 1000 then "1970-01-01T00:16:40+00:00"
      else "1970-01-01T00:16:41+00:00" }

def drawn (letter : ℕ) : Draws := repeated ⟨letter%32, Nat.mod_lt letter (by decide)⟩

def whole (p : ℕ) (c : Call) (steps letter : ℕ) : List Label :=
  .call p c::List.replicate steps (.go p .done (drawn letter))

theorem toUpper_letter (c : Char) (h : c ∈ pairingAlphabet ∨ c.isDigit) : c.toUpper = c := by
  rcases h with h | h
  · have hall : pairingAlphabet.all (fun c => c.toUpper == c) = true := by decide
    exact eq_of_beq (List.all_eq_true.mp hall c h)
  · have hhigh : c.val ≤ 57 := (Bool.and_eq_true_iff.mp h).2 |> of_decide_eq_true
    unfold Char.toUpper
    rw [dif_neg]
    intro hlower
    exact absurd (UInt32.le_trans hlower.1 hhigh) (by decide)

theorem clockPlatform_codes : KeepsCodes clockPlatform := by
  intro code hcode
  have hfixed : code.toList.map Char.toUpper = code.toList := by
    rw [List.map_congr_left (fun c hc => toUpper_letter c (hcode c hc)), List.map_id']
  show String.ofList (code.toList.map Char.toUpper) = code
  rw [hfixed, String.ofList_toList]

def orderly : List Label :=
  [.call 0 (.upsertRequest "alice" none), .call 1 (.upsertRequest "bob" none),
   .go 0 .done (drawn 0), .go 1 .done (drawn 1), .go 0 .done (drawn 0),
   .go 1 .done (drawn 1), .go 0 .done (drawn 0), .go 0 .done (drawn 0),
   .go 0 .done (drawn 0), .go 1 .done (drawn 1), .go 1 .done (drawn 1),
   .go 1 .done (drawn 1), .go 1 .done (drawn 1)]++whole 2 (.approve "BBBBBBBB") 11 0++
    whole 3 .listPending 1 0

theorem pending_kept_orderly :
    KeepsCodes clockPlatform ∧
    Along (step clockPlatform "telegram") (Careful clockPlatform "telegram") orderly (start 100) ∧
    Along (step clockPlatform "telegram") (Kept clockPlatform "telegram") orderly (start 100) := by
  have hcareful : Along (step clockPlatform "telegram") (Careful clockPlatform "telegram") orderly
      (start 100) := by
    decide +kernel
  exact ⟨clockPlatform_codes, hcareful,
    pending_kept clockPlatform clockPlatform_codes "telegram" 100 orderly hcareful⟩

def requestOf (id code createdAt : String) : PairingRequest :=
  ⟨id, code, createdAt, createdAt, none⟩

def alice : PairingRequest := requestOf "alice" "AAAAAAAA" "1970-01-01T00:01:40+00:00"

def bob : PairingRequest := requestOf "bob" "BBBBBBBB" "1970-01-01T00:16:40+00:00"

def carol : PairingRequest := requestOf "carol" "CCCCCCCC" "1970-01-01T00:16:41+00:00"

/-- `list_pending` reads an expired request and that of bob, and carol's is
added before it goes on. -/
def addedBetween : List Label :=
  whole 0 (.upsertRequest "alice" none) 5 0++.tick 900::
    (whole 1 (.upsertRequest "bob" none) 5 1++.tick 1::
      (whole 2 .listPending 1 0++whole 3 (.upsertRequest "carol" none) 5 2))

def carryOn : Label := .go 2 .done (drawn 0)

def removedOnly : List Label :=
  whole 0 (.upsertRequest "alice" none) 5 0++whole 1 (.approve "AAAAAAAA") 6 0

/-- The request of carol is gone when `list_pending` has written back what it had
read. An approval that cannot open the list of senders leaves its request neither
pending nor allowed. -/
theorem update_lost :
    (let steps := addedBetween++List.replicate 4 carryOn
     pending "telegram" (run (step clockPlatform "telegram") addedBetween (start 100)) =
       [bob, carol] ∧
     pending "telegram" (run (step clockPlatform "telegram") steps (start 100)) = [bob] ∧
     ¬ Along (step clockPlatform "telegram") (Kept clockPlatform "telegram") steps (start 100)) ∧
    ¬ Along (step clockPlatform "telegram") (Kept clockPlatform "telegram")
      (removedOnly++[.go 1 .refused (drawn 0)]) (start 100) := by
  have hbefore : pending "telegram" (run (step clockPlatform "telegram") addedBetween
      (start 100)) = [bob, carol] := by decide +kernel
  have hphase : (run (step clockPlatform "telegram") addedBetween (start 100)).phase 2 =
      .listTruncate [bob] := by decide +kernel
  have hremoved : (run (step clockPlatform "telegram") removedOnly (start 100)).phase 1 =
      .going (.addAllowFrom alice) := by decide +kernel
  refine ⟨⟨hbefore, by decide +kernel, fun h => ?_⟩, fun h => ?_⟩
  · have hstep := along_at _ _ addedBetween (List.replicate 3 carryOn) carryOn _ h
    rcases hstep.lost carol (by simp [hbefore]) (by decide) with hkept | happroves
    · have hafter : pending "telegram" (step clockPlatform "telegram" carryOn
          (run (step clockPlatform "telegram") addedBetween (start 100))) = [] := by
        decide
      simp [hafter] at hkept
    · obtain ⟨entry, rest, happroves⟩ := happroves
      simp [hphase] at happroves
  · have hstep := along_at _ _ removedOnly [] _ _ h
    have hnone : trim alice.id ≠ "" := by decide
    have hfails : failsAfter clockPlatform "telegram" alice (.go 1 .refused (drawn 0))
        (run (step clockPlatform "telegram") removedOnly (start 100)) :=
      ⟨by simp [hremoved], .io, by simp [go, hremoved, hnone]⟩
    have hlists : pending "telegram" (step clockPlatform "telegram" (.go 1 .refused (drawn 0))
          (run (step clockPlatform "telegram") removedOnly (start 100))) = [] ∧
        allowList (step clockPlatform "telegram" (.go 1 .refused (drawn 0))
          (run (step clockPlatform "telegram") removedOnly (start 100))).store "telegram" = [] := by
      decide +kernel
    rcases hstep.failed alice hfails with hpending | ⟨e, he, -⟩
    · simp [hlists.1] at hpending
    · simp [hlists.2] at he

end IronClaw.PairingRace
