import IronClaw.ResponseCache
import IronClaw.Lib.Recency

/-!
# Completions through the response cache

A call of `CachedProvider::complete` reads the clock once, looks its key up,
asks the provider without the lock when there is no answer, and files the
answer with the reading it began with. Calls may be at any of these points at
the same time, and their readings may come in any order. The log keeps what
the cache was used for under the lock, the newest first. How recently a key was
used is its place in the log, which the readings need not follow.
-/

set_option autoImplicit false

namespace IronClaw.CacheCalls
open IronClaw.ResponseCache Lib.Runs Lib.Recency

variable {ρ : Type}

inductive Phase (ρ : Type) where
  | begun
  | asking
  | hit (response : ρ)
  | answered (response : ρ)
  | failed (error : String)

structure Call (ρ : Type) where
  question : Question
  now : ℕ
  phase : Phase ρ

structure Access (ρ : Type) where
  key : String
  now : ℕ
  response : ρ
  stored : Bool

structure CachedProvider (ρ : Type) where
  entries : Entries ρ
  calls : ℕ → Option (Call ρ)
  log : List (Access ρ)

def CachedProvider.new : CachedProvider ρ := ⟨[], fun _ => none, []⟩

inductive Event (ρ : Type) where
  | complete (id : ℕ) (question : Question) (now : ℕ)
  | look (id : ℕ)
  | answer (id : ℕ) (result : Except String ρ) (order : Order ρ)
  | clear

namespace CachedProvider

def setPhase (p : CachedProvider ρ) (id : ℕ) (c : Call ρ) (phase : Phase ρ) : CachedProvider ρ :=
  { p with calls := Function.update p.calls id (some { c with phase := phase }) }

end CachedProvider

section machine

variable (cfg : Config) (keyOf : Question → String)

def roomFor (now : ℕ) (order : Order ρ) (entries : Entries ρ) : Entries ρ :=
  let retained := entries.filter (fun e => now-e.2.createdAt < cfg.ttl)
  evict cfg.maxEntries order retained.length retained

def lookup (id : ℕ) (c : Call ρ) (p : CachedProvider ρ) : CachedProvider ρ :=
  match lookupCache cfg (keyOf c.question) c.now p.entries with
  | (some response, entries) =>
    { p.setPhase id c (.hit response) with
      entries := entries
      log := ⟨keyOf c.question, c.now, response, false⟩::p.log }
  | (none, entries) => { p.setPhase id c .asking with entries := entries }

def store (id : ℕ) (c : Call ρ) (order : Order ρ) (response : ρ) (p : CachedProvider ρ) :
    CachedProvider ρ :=
  { p.setPhase id c (.answered response) with
    entries := fileResponse cfg (keyOf c.question) c.now order response p.entries
    log := ⟨keyOf c.question, c.now, response, true⟩::p.log }

def advance (a : Event ρ) (p : CachedProvider ρ) : CachedProvider ρ :=
  match a with
  | .complete id question now =>
    if (p.calls id).isNone then
      { p with calls := Function.update p.calls id (some ⟨question, now, .begun⟩) }
    else p
  | .look id => match p.calls id with
    | some ⟨question, now, .begun⟩ => lookup cfg keyOf id ⟨question, now, .begun⟩ p
    | _ => p
  | .answer id (.error e) _ => match p.calls id with
    | some ⟨question, now, .asking⟩ => p.setPhase id ⟨question, now, .asking⟩ (.failed e)
    | _ => p
  | .answer id (.ok response) order => match p.calls id with
    | some ⟨question, now, .asking⟩ => store cfg keyOf id ⟨question, now, .asking⟩ order response p
    | _ => p
  | .clear => { p with entries := [] }

def lastAccess (key : String) (log : List (Access ρ)) : Option ℕ :=
  (log.find? (fun a => a.key = key)).map Access.now

def StoredBefore (log : List (Access ρ)) (e : String × CacheEntry ρ) : Prop :=
  ∃ a ∈ log, a.stored = true ∧ a.key = e.1 ∧ a.now = e.2.createdAt ∧ a.response = e.2.response

structure Tracked (p : CachedProvider ρ) : Prop where
  bound : p.entries.length ≤ cfg.maxEntries
  distinct : Distinct Prod.fst p.entries
  accessed : ∀ e ∈ p.entries, lastAccess e.1 p.log = some e.2.lastAccessed
  stored : ∀ e ∈ p.entries, StoredBefore p.log e

def FreshHit (p p' : CachedProvider ρ) : Prop :=
  ∀ id c response, p.calls id = some c → c.phase = .begun →
    p'.calls id = some { c with phase := .hit response } →
    ∃ e ∈ p.entries, e.1 = keyOf c.question ∧ e.2.response = response ∧
      c.now-e.2.createdAt < cfg.ttl ∧ StoredBefore p.log e

def FailureStoresNothing (a : Event ρ) (p p' : CachedProvider ρ) : Prop :=
  ∀ id e order, a = .answer id (.error e) order → p'.entries = p.entries ∧ p'.log = p.log

def usedAt (key : String) (log : List (Access ρ)) : ℕ :=
  (log.dropWhile (fun a => a.key ≠ key)).length

def unexpired (now : ℕ) (entries : Entries ρ) : Entries ρ :=
  entries.filter (fun e => now-e.2.createdAt < cfg.ttl)

def RecentKept (id : ℕ) (c : Call ρ) (response : ρ) (order : Order ρ)
    (p : CachedProvider ρ) : Prop :=
  ∀ e ∈ unexpired cfg c.now p.entries, e ∉ roomFor cfg c.now order p.entries →
    ∀ f ∈ (advance cfg keyOf (.answer id (.ok response) order) p).entries,
      f.1 ≠ keyOf c.question → f ∈ p.entries ∧ usedAt e.1 p.log ≤ usedAt f.1 p.log

def LeastReadLongestUnused (c : Call ρ) (p : CachedProvider ρ) : Prop :=
  cfg.maxEntries ≤ (unexpired cfg c.now p.entries).length →
  ∀ e ∈ unexpired cfg c.now p.entries,
    (∀ g ∈ unexpired cfg c.now p.entries, e.2.lastAccessed ≤ g.2.lastAccessed) →
    ∀ f ∈ unexpired cfg c.now p.entries, f.1 ≠ keyOf c.question →
      usedAt e.1 p.log ≤ usedAt f.1 p.log

def BegunLast (id : ℕ) (p : CachedProvider ρ) : Prop :=
  ∀ c ∈ p.calls id, ∀ b ∈ p.log, b.now < c.now

def InStep (a : Event ρ) (p : CachedProvider ρ) : Prop :=
  match a with
  | .look id => BegunLast id p
  | .answer id (.ok _) _ => BegunLast id p
  | _ => True

end machine

section room

variable {cfg : Config} (entries : Entries ρ)

theorem oldest_eq (es : Entries ρ) : oldest es = leastRecent (fun e => e.2.lastAccessed) es := by
  induction es with
  | nil => rfl
  | cons e es ih =>
    rw [oldest, leastRecent, ih]
    cases leastRecent (fun e : String × CacheEntry ρ => e.2.lastAccessed) es <;> rfl

theorem evict_eq (limit : ℕ) (order : Order ρ) (fuel : ℕ) (es : Entries ρ) :
    evict limit order fuel es =
      shrink Prod.fst (fun e => e.2.lastAccessed) limit order.arrange fuel es := by
  induction fuel generalizing es with
  | zero => rfl
  | succ fuel ih =>
    rw [evict, shrink, oldest_eq]
    cases leastRecent (fun e : String × CacheEntry ρ => e.2.lastAccessed) (order.arrange es) with
    | none => rfl
    | some o =>
      dsimp only
      rw [ih]
      rfl

theorem room_sublist (now : ℕ) (order : Order ρ) :
    (roomFor cfg now order entries).Sublist entries := by
  rw [roomFor, evict_eq]
  exact (shrink_sublist _ _ _ _).trans List.filter_sublist

theorem room_length (now : ℕ) (order : Order ρ) (hmax : 1 ≤ cfg.maxEntries) :
    (roomFor cfg now order entries).length < cfg.maxEntries := by
  rw [roomFor, evict_eq]
  exact shrink_length order.arrange_perm hmax _ _ (le_refl _)

variable {entries}

/-- A table within its bound loses one entry at most. -/
theorem room_one (now : ℕ) (order : Order ρ) (hmax : 1 ≤ cfg.maxEntries)
    (hbound : entries.length ≤ cfg.maxEntries) :
    ((unexpired cfg now entries).length < cfg.maxEntries ∧
      roomFor cfg now order entries = unexpired cfg now entries) ∨
    (cfg.maxEntries ≤ (unexpired cfg now entries).length ∧
      ∃ o, oldest (order.arrange (unexpired cfg now entries)) = some o ∧
        roomFor cfg now order entries = removeEntry o.1 (unexpired cfg now entries)) := by
  have hroom : roomFor cfg now order entries =
      evict cfg.maxEntries order (unexpired cfg now entries).length
        (unexpired cfg now entries) := rfl
  have hlen : (unexpired cfg now entries).length ≤ cfg.maxEntries :=
    (List.length_filter_le _ entries).trans hbound
  rw [hroom]
  generalize unexpired cfg now entries = es at hlen ⊢
  by_cases hfull : cfg.maxEntries ≤ es.length
  · right
    obtain ⟨fuel, hfuel⟩ := Nat.exists_eq_add_of_le' (hmax.trans hfull)
    have hrest : ∀ n fs, fs.length < cfg.maxEntries → evict cfg.maxEntries order n fs = fs := by
      intro n fs hfs
      cases n with
      | zero => rfl
      | succ n => rw [evict, if_neg (Nat.not_le.mpr hfs)]
    cases ho : oldest (order.arrange es) with
    | none =>
      rw [oldest_eq, leastRecent_none] at ho
      have hperm := (order.arrange_perm es).length_eq
      rw [ho, List.length_nil] at hperm
      omega
    | some o =>
      rw [oldest_eq] at ho
      have hmem := (order.arrange_perm es).mem_iff.mp (leastRecent_spec _ o ho).1
      have hless : (removeEntry o.1 es).length < es.length := remove_length Prod.fst hmem
      refine ⟨hfull, o, rfl, ?_⟩
      rw [hfuel, evict, if_pos hfull, oldest_eq, ho]
      exact hrest fuel _ (hless.trans_le hlen)
  · left
    refine ⟨Nat.not_le.mp hfull, ?_⟩
    cases hn : es.length with
    | zero => rfl
    | succ n => rw [evict, if_neg hfull]

def firstOf (key : String) : Order ρ where
  arrange es := es.filter (fun e => e.1 = key)++es.filter (fun e => !decide (e.1 = key))
  arrange_perm es := List.filter_append_perm _ es

theorem firstOf_oldest (e : String × CacheEntry ρ) (es : Entries ρ) (h : Distinct Prod.fst es)
    (he : e ∈ es) (hle : ∀ g ∈ es, e.2.lastAccessed ≤ g.2.lastAccessed) :
    oldest ((firstOf e.1).arrange es) = some e := by
  have hfirst : es.filter (fun g => g.1 = e.1) = [e] := by
    refine List.perm_singleton.mp ?_
    rw [List.perm_ext_iff_of_nodup ((h.of_map Prod.fst).filter _) (List.nodup_singleton e)]
    intro g
    rw [List.mem_filter, List.mem_singleton]
    constructor
    · rintro ⟨hg, hk⟩
      exact eq_of_key h hg he (of_decide_eq_true hk)
    · rintro rfl
      exact ⟨he, decide_eq_true rfl⟩
  show oldest (es.filter (fun g => g.1 = e.1)++es.filter (fun g => !decide (g.1 = e.1))) = some e
  rw [hfirst, List.singleton_append, oldest]
  cases ho : oldest (es.filter (fun g => !decide (g.1 = e.1))) with
  | none => rfl
  | some o =>
    rw [oldest_eq] at ho
    have hmem := List.mem_of_mem_filter (leastRecent_spec _ o ho).1
    exact if_neg (Nat.not_lt.mpr (hle o hmem))

theorem insert_distinct (key : String) (entry : CacheEntry ρ) (h : Distinct Prod.fst entries) :
    Distinct Prod.fst (insertEntry key entry entries) := by
  rw [Distinct, insertEntry, List.map_cons, List.nodup_cons]
  refine ⟨?_, distinct_filter _ h⟩
  intro hm
  obtain ⟨e, he, hk⟩ := List.mem_map.mp hm
  simpa [hk] using (List.mem_filter.mp he).2

theorem mem_insert {key : String} {entry : CacheEntry ρ} {e : String × CacheEntry ρ} :
    e ∈ insertEntry key entry entries ↔ e = (key, entry) ∨ (e ∈ entries ∧ e.1 ≠ key) := by
  simp [insertEntry, removeEntry]

variable (entries) in
theorem insert_length (key : String) (entry : CacheEntry ρ) :
    (insertEntry key entry entries).length ≤ entries.length+1 ∧
    (key ∈ entries.map Prod.fst → (insertEntry key entry entries).length ≤ entries.length) := by
  constructor
  · simpa [insertEntry, removeEntry] using List.length_filter_le _ entries
  · intro hm
    obtain ⟨e, he, rfl⟩ := List.mem_map.mp hm
    have hlt := remove_length Prod.fst he
    simp only [insertEntry, List.length_cons]
    exact hlt

end room

section access

variable {cfg : Config} {keyOf : Question → String} {log : List (Access ρ)}

theorem lastAccess_self (a : Access ρ) : lastAccess a.key (a::log) = some a.now := by
  simp [lastAccess]

theorem lastAccess_other {key : String} {a : Access ρ} (h : a.key ≠ key) :
    lastAccess key (a::log) = lastAccess key log := by
  simp [lastAccess, h]

theorem storedBefore_cons {e : String × CacheEntry ρ} (a : Access ρ) (h : StoredBefore log e) :
    StoredBefore (a::log) e := by
  obtain ⟨b, hb, hs⟩ := h
  exact ⟨b, List.mem_cons_of_mem a hb, hs⟩

theorem tracked_sublist {p : CachedProvider ρ} {es : Entries ρ} (h : Tracked cfg p)
    (hsub : es.Sublist p.entries) (calls : ℕ → Option (Call ρ)) :
    Tracked cfg ⟨es, calls, p.log⟩ := by
  refine ⟨hsub.length_le.trans h.bound, ?_, ?_, ?_⟩
  · exact List.Nodup.sublist (hsub.map Prod.fst) h.distinct
  · intro e he
    exact h.accessed e (hsub.subset he)
  · intro e he
    exact h.stored e (hsub.subset he)

/-- An entry is put in, or renewed, with the access that is logged. -/
theorem tracked_insert {p : CachedProvider ρ} {es : Entries ρ} (h : Tracked cfg p)
    (hsub : es.Sublist p.entries) (calls : ℕ → Option (Call ρ)) (a : Access ρ)
    (entry : CacheEntry ρ) (hlen : (insertEntry a.key entry es).length ≤ cfg.maxEntries)
    (hnow : entry.lastAccessed = a.now) (hstored : StoredBefore (a::p.log) (a.key, entry)) :
    Tracked cfg ⟨insertEntry a.key entry es, calls, a::p.log⟩ := by
  have hes := tracked_sublist h hsub calls
  refine ⟨hlen, insert_distinct _ _ hes.distinct, ?_, ?_⟩
  · intro e he
    rcases mem_insert.mp he with rfl | ⟨he, hk⟩
    · rw [lastAccess_self, hnow]
    · rw [lastAccess_other hk.symm]
      exact hes.accessed e he
  · intro e he
    rcases mem_insert.mp he with rfl | ⟨he, hk⟩
    · exact hstored
    · exact storedBefore_cons a (hes.stored e he)

theorem lookup_tracked {p : CachedProvider ρ} (id : ℕ) (c : Call ρ) (h : Tracked cfg p) :
    Tracked cfg (lookup cfg keyOf id c p) := by
  rw [lookup, lookupCache]
  cases hl : lookupEntry (keyOf c.question) p.entries with
  | none => exact tracked_sublist h (.refl _) _
  | some entry =>
    have hmem := lookupEntry_mem _ _ _ hl
    by_cases ht : c.now-entry.createdAt < cfg.ttl
    · simp only [if_pos ht]
      refine tracked_insert h (.refl _) _ ⟨keyOf c.question, c.now, entry.response, false⟩ _ ?_ rfl
        ?_
      · have hin : keyOf c.question ∈ p.entries.map Prod.fst :=
          List.mem_map.mpr ⟨_, hmem, rfl⟩
        exact ((insert_length _ _ _).2 hin).trans h.bound
      · obtain ⟨b, hb, hs, hk, hc, hr⟩ := h.stored _ hmem
        exact ⟨b, List.mem_cons_of_mem _ hb, hs, hk, hc, hr⟩
    · simp only [if_neg ht]
      exact tracked_sublist h List.filter_sublist _

theorem store_tracked {p : CachedProvider ρ} (hmax : 1 ≤ cfg.maxEntries) (id : ℕ) (c : Call ρ)
    (order : Order ρ) (response : ρ) (h : Tracked cfg p) :
    Tracked cfg (store cfg keyOf id c order response p) := by
  have hlt := room_length p.entries c.now order hmax
  refine tracked_insert h (room_sublist p.entries c.now order) _
    ⟨keyOf c.question, c.now, response, true⟩ _ ?_ rfl ⟨_, List.mem_cons_self, rfl, rfl, rfl, rfl⟩
  have hlen := (insert_length (roomFor cfg c.now order p.entries) (keyOf c.question)
    (⟨response, c.now, c.now, 0⟩ : CacheEntry ρ)).1
  show (insertEntry (keyOf c.question) _ (roomFor cfg c.now order p.entries)).length ≤ _
  omega

theorem advance_tracked (hmax : 1 ≤ cfg.maxEntries) (a : Event ρ) (p : CachedProvider ρ)
    (h : Tracked cfg p) : Tracked cfg (advance cfg keyOf a p) := by
  have hcalls : ∀ calls, Tracked cfg { p with calls := calls } :=
    fun calls => tracked_sublist h (.refl _) calls
  cases a with
  | complete id question now =>
    rw [advance]
    by_cases hfree : (p.calls id).isNone
    · rw [if_pos hfree]
      exact hcalls _
    · rw [if_neg hfree]
      exact h
  | look id =>
    rw [advance]
    split
    · exact lookup_tracked id _ h
    · exact h
  | answer id result order =>
    cases result with
    | error e =>
      rw [advance]
      split
      · exact hcalls _
      · exact h
    | ok response =>
      rw [advance]
      split
      · exact store_tracked hmax id _ order response h
      · exact h
  | clear => exact tracked_sublist h (List.nil_sublist _) _

end access

section calls

variable {cfg : Config} {keyOf : Question → String}

theorem setPhase_other {p : CachedProvider ρ} {id id' : ℕ} (h : id ≠ id') (c : Call ρ)
    (phase : Phase ρ) : (p.setPhase id' c phase).calls id = p.calls id :=
  Function.update_of_ne h _ _

theorem setPhase_self {p : CachedProvider ρ} (id : ℕ) (c : Call ρ) (phase : Phase ρ) :
    (p.setPhase id c phase).calls id = some { c with phase := phase } :=
  Function.update_self _ _ _

theorem lookup_calls (id : ℕ) (c : Call ρ) (p : CachedProvider ρ) :
    (∃ response, (lookupCache cfg (keyOf c.question) c.now p.entries).1 = some response ∧
      (lookup cfg keyOf id c p).calls = (p.setPhase id c (.hit response)).calls) ∨
    (lookup cfg keyOf id c p).calls = (p.setPhase id c .asking).calls := by
  rw [lookup]
  split
  · next response entries hl => exact .inl ⟨response, by rw [hl], rfl⟩
  · exact .inr rfl

/-- A call that has only begun is moved by its lookup alone. -/
theorem begun_moves (a : Event ρ) (p : CachedProvider ρ) (id : ℕ) (c : Call ρ)
    (hc : p.calls id = some c) (hb : c.phase = .begun) :
    (advance cfg keyOf a p).calls id = some c ∨
      (a = .look id ∧ advance cfg keyOf a p = lookup cfg keyOf id c p) := by
  obtain ⟨question, now, phase⟩ := c
  obtain rfl : phase = .begun := hb
  cases a with
  | complete id' question' now' =>
    left
    rw [advance]
    by_cases hfree : (p.calls id').isNone
    · have hne : id ≠ id' := by
        rintro rfl
        simp [hc] at hfree
      rw [if_pos hfree]
      exact (Function.update_of_ne hne _ _).trans hc
    · rw [if_neg hfree, hc]
  | look id' =>
    by_cases he : id' = id
    · right
      rw [he, advance, hc]
      exact ⟨rfl, rfl⟩
    · left
      rw [advance]
      split
      · next question' now' _ =>
        rcases lookup_calls id' ⟨question', now', .begun⟩ p with ⟨response, _, h⟩ | h
        · rw [h, setPhase_other (Ne.symm he), hc]
        · rw [h, setPhase_other (Ne.symm he), hc]
      · exact hc
  | answer id' result order =>
    left
    cases result with
    | error e =>
      rw [advance]
      split
      · next question' now' ha =>
        have hne : id ≠ id' := by
          rintro rfl
          simp [hc] at ha
        rw [setPhase_other hne, hc]
      · exact hc
    | ok response =>
      rw [advance]
      split
      · next question' now' ha =>
        have hne : id ≠ id' := by
          rintro rfl
          simp [hc] at ha
        rw [store]
        exact (setPhase_other hne _ _).trans hc
      · exact hc
  | clear => exact .inl hc

theorem advance_hit (a : Event ρ) (p : CachedProvider ρ) (h : Tracked cfg p) :
    FreshHit cfg keyOf p (advance cfg keyOf a p) := by
  intro id c response hc hb hhit
  have hne : ∀ c' : Call ρ, c'.phase = .hit response → some c ≠ some c' := by
    intro c' hp he
    rw [← Option.some.inj he, hb] at hp
    simp at hp
  rcases begun_moves a p id c hc hb with hsame | ⟨_, hmove⟩
  · rw [hsame] at hhit
    exact absurd hhit (hne _ rfl)
  · rw [hmove] at hhit
    rcases lookup_calls id c p with ⟨response', hl, hcalls⟩ | hcalls
    · rw [hcalls, setPhase_self] at hhit
      obtain rfl : response' = response := by simpa using hhit
      rw [lookupCache] at hl
      cases hfound : lookupEntry (keyOf c.question) p.entries with
      | none => simp [hfound] at hl
      | some entry =>
        have hmem := lookupEntry_mem _ _ _ hfound
        rw [hfound] at hl
        dsimp only at hl
        by_cases ht : c.now-entry.createdAt < cfg.ttl
        · rw [if_pos ht] at hl
          exact ⟨_, hmem, rfl, Option.some.inj hl, ht, h.stored _ hmem⟩
        · simp [if_neg ht] at hl
    · rw [hcalls, setPhase_self] at hhit
      simp at hhit

theorem advance_failure (a : Event ρ) (p : CachedProvider ρ) :
    FailureStoresNothing a p (advance cfg keyOf a p) := by
  rintro id e order rfl
  rw [advance]
  split
  · exact ⟨rfl, rfl⟩
  · exact ⟨rfl, rfl⟩

theorem advance_stored {p : CachedProvider ρ} {id : ℕ} {c : Call ρ} (hc : p.calls id = some c)
    (hasking : c.phase = .asking) (response : ρ) (order : Order ρ) :
    (advance cfg keyOf (.answer id (.ok response) order) p).entries =
      insertEntry (keyOf c.question) ⟨response, c.now, c.now, 0⟩
        (roomFor cfg c.now order p.entries) := by
  obtain ⟨question, now, phase⟩ := c
  obtain rfl : phase = .asking := hasking
  rw [advance, hc]
  rfl

/-- What is evicted was used longest ago, in whatever order the map is walked,
exactly if that is so of every entry with the least reading. -/
theorem recent_iff {p : CachedProvider ρ} (hmax : 1 ≤ cfg.maxEntries) (h : Tracked cfg p)
    {id : ℕ} {c : Call ρ} (hc : p.calls id = some c) (hasking : c.phase = .asking)
    (response : ρ) :
    (∀ order, RecentKept cfg keyOf id c response order p) ↔
      LeastReadLongestUnused cfg keyOf c p := by
  have hdistinct : Distinct Prod.fst (unexpired cfg c.now p.entries) :=
    distinct_filter _ h.distinct
  constructor
  · intro hkept hfull e he hle f hf hother
    by_cases hsame : e.1 = f.1
    · rw [hsame]
    · rcases room_one c.now (firstOf e.1) hmax h.bound with
        ⟨hless, -⟩ | ⟨-, o, ho, hroom⟩
      · exact absurd hfull (Nat.not_le.mpr hless)
      · rw [firstOf_oldest e _ hdistinct he hle] at ho
        obtain rfl := Option.some.inj ho
        have hgone : e ∉ roomFor cfg c.now (firstOf e.1) p.entries := by
          simp [hroom, removeEntry]
        have hstays : f ∈ roomFor cfg c.now (firstOf e.1) p.entries := by
          rw [hroom]
          exact List.mem_filter.mpr ⟨hf, decide_eq_true (Ne.symm hsame)⟩
        refine (hkept (firstOf e.1) e he hgone f ?_ hother).2
        rw [advance_stored hc hasking]
        exact mem_insert.mpr (.inr ⟨hstays, hother⟩)
  · intro hleast order e he hgone f hf hother
    rw [advance_stored hc hasking] at hf
    have hstays : f ∈ roomFor cfg c.now order p.entries := by
      rcases mem_insert.mp hf with rfl | ⟨hf, -⟩
      · exact absurd rfl hother
      · exact hf
    refine ⟨(room_sublist p.entries c.now order).subset hstays, ?_⟩
    rcases room_one c.now order hmax h.bound with ⟨-, hroom⟩ | ⟨hfull, o, ho, hroom⟩
    · rw [hroom] at hgone
      exact absurd he hgone
    · rw [hroom] at hgone hstays
      obtain ⟨hf, -⟩ := List.mem_filter.mp hstays
      rw [oldest_eq] at ho
      obtain ⟨ho, hle⟩ := leastRecent_spec _ o ho
      have hmem := (order.arrange_perm _).mem_iff.mp ho
      have hkey : e.1 = o.1 := by
        by_contra hne
        exact hgone (List.mem_filter.mpr ⟨he, decide_eq_true hne⟩)
      obtain rfl := eq_of_key hdistinct he hmem hkey
      exact hleast hfull e he
        (fun g hg => hle g ((order.arrange_perm _).mem_iff.mpr hg)) f hf hother

end calls

def reached (cfg : Config) (keyOf : Question → String) (events : List (Event ρ)) :
    CachedProvider ρ :=
  run (advance cfg keyOf) events .new

variable (cfg : Config) (keyOf : Question → String)

theorem reached_tracked (hmax : 1 ≤ cfg.maxEntries) (events : List (Event ρ)) :
    Tracked cfg (reached cfg keyOf events) := by
  apply run_invariant _ (Tracked cfg) (fun a p h => advance_tracked hmax a p h)
  refine ⟨Nat.zero_le _, List.nodup_nil, ?_, ?_⟩
  · intro e he
    exact absurd he List.not_mem_nil
  · intro e he
    exact absurd he List.not_mem_nil

theorem usedAt_le (key : String) (log : List (Access ρ)) : usedAt key log ≤ log.length :=
  (List.dropWhile_sublist _).length_le

theorem usedAt_self (a : Access ρ) (log : List (Access ρ)) :
    usedAt a.key (a::log) = log.length+1 := by
  simp [usedAt]

theorem usedAt_other {key : String} {a : Access ρ} (log : List (Access ρ)) (h : a.key ≠ key) :
    usedAt key (a::log) = usedAt key log := by
  simp [usedAt, h]

def Rising (log : List (Access ρ)) : Prop := log.Pairwise (fun a b => b.now < a.now)

theorem rising_places (log : List (Access ρ)) (hlog : Rising log) (k l : String) (m n : ℕ)
    (hk : lastAccess k log = some m) (hl : lastAccess l log = some n) (h : m ≤ n) :
    usedAt k log ≤ usedAt l log := by
  induction log with
  | nil => simp [lastAccess] at hk
  | cons a log ih =>
    obtain ⟨hnew, hold⟩ := List.pairwise_cons.mp hlog
    by_cases hal : a.key = l
    · rw [← hal, usedAt_self]
      exact usedAt_le k (a::log)
    · rw [lastAccess_other hal] at hl
      by_cases hak : a.key = k
      · -- the newest access has the greatest reading of all
        rw [← hak, lastAccess_self] at hk
        obtain ⟨b, hb, hbn⟩ := Option.map_eq_some_iff.mp hl
        have hlt := hnew b (List.mem_of_find?_eq_some hb)
        have ham := Option.some.inj hk
        omega
      · rw [lastAccess_other hak] at hk
        rw [usedAt_other log hak, usedAt_other log hal]
        exact ih hold hk hl

theorem lookup_log (id : ℕ) (c : Call ρ) (p : CachedProvider ρ) :
    (lookup cfg keyOf id c p).log = p.log ∨
      ∃ a, a.now = c.now ∧ (lookup cfg keyOf id c p).log = a::p.log := by
  rw [lookup]
  split
  · exact .inr ⟨_, rfl, rfl⟩
  · exact .inl rfl

theorem advance_rising (a : Event ρ) (p : CachedProvider ρ) (h : Rising p.log) (ha : InStep a p) :
    Rising (advance cfg keyOf a p).log := by
  cases a with
  | complete id question now =>
    rw [advance]
    split
    · exact h
    · exact h
  | look id =>
    rw [advance]
    split
    · next question now hc =>
      rcases lookup_log cfg keyOf id ⟨question, now, .begun⟩ p with hlog | ⟨b, hb, hlog⟩
      · rw [hlog]
        exact h
      · rw [hlog]
        refine List.pairwise_cons.mpr ⟨fun d hd => ?_, h⟩
        rw [hb]
        exact ha _ hc d hd
    · exact h
  | answer id result order =>
    cases result with
    | error e =>
      rw [advance]
      split
      · exact h
      · exact h
    | ok response =>
      rw [advance]
      split
      · next question now hc =>
        exact List.pairwise_cons.mpr ⟨fun d hd => ha _ hc d hd, h⟩
      · exact h
  | clear => exact h

theorem rising_least {cfg : Config} {keyOf : Question → String} {p : CachedProvider ρ}
    (h : Tracked cfg p) (hlog : Rising p.log) (c : Call ρ) :
    LeastReadLongestUnused cfg keyOf c p := by
  intro _ e he hle f hf _
  exact rising_places p.log hlog e.1 f.1 _ _ (h.accessed e (List.mem_of_mem_filter he))
    (h.accessed f (List.mem_of_mem_filter hf)) (hle f hf)

/-- Whatever the events, the cache keeps its bound, answers with what is fresh
and stores no failure. What was not used for longest is evicted exactly if it has
the least reading, as in every run whose readings are in step with the lock. -/
theorem cached_completions (hmax : 1 ≤ cfg.maxEntries) (events : List (Event ρ)) :
    (reached cfg keyOf events).entries.length ≤ cfg.maxEntries ∧
    (∀ a, FreshHit cfg keyOf (reached cfg keyOf events)
        (advance cfg keyOf a (reached cfg keyOf events)) ∧
      FailureStoresNothing a (reached cfg keyOf events)
        (advance cfg keyOf a (reached cfg keyOf events))) ∧
    (∀ id c, (reached cfg keyOf events).calls id = some c → c.phase = .asking → ∀ response,
      (∀ order, RecentKept cfg keyOf id c response order (reached cfg keyOf events)) ↔
        LeastReadLongestUnused cfg keyOf c (reached cfg keyOf events)) ∧
    (Along (advance cfg keyOf) InStep events .new →
      ∀ c, LeastReadLongestUnused cfg keyOf c (reached cfg keyOf events)) := by
  have h := reached_tracked cfg keyOf hmax events
  refine ⟨h.bound, fun a => ⟨advance_hit a _ h, advance_failure a _⟩, ?_, ?_⟩
  · intro id c hc hasking response
    exact recent_iff hmax h hc hasking response
  · intro hevents c
    have hlog : Rising (reached cfg keyOf events).log :=
      guarded_invariant (advance cfg keyOf) InStep (fun p => Rising p.log)
        (fun a p hp ha => advance_rising cfg keyOf a p hp ha) events .new hevents List.Pairwise.nil
    exact rising_least h hlog c

def ask (model : String) : Question := (model, ⟨[], none, none, none⟩)

theorem asIs_perm (entries : Entries String) : (id entries).Perm entries := .refl _

def asIs : Order String := ⟨id, asIs_perm⟩

def overtaken : List (Event String) :=
  [.complete 0 (ask "small") 1, .look 0, .complete 1 (ask "large") 2, .look 1,
    .answer 1 (.ok "hello") asIs, .answer 0 (.ok "hi") asIs, .complete 2 (ask "other") 3, .look 2]

/-- The slow call's answer is the last one used and has the older reading, so it
is the one that goes. -/
theorem overtaken_evicted :
    (reached ⟨10, 2⟩ Prod.fst overtaken).calls 2 = some ⟨ask "other", 3, .asking⟩ ∧
    (reached ⟨10, 2⟩ Prod.fst overtaken).entries =
      unexpired ⟨10, 2⟩ 3 (reached ⟨10, 2⟩ Prod.fst overtaken).entries ∧
    ¬RecentKept ⟨10, 2⟩ Prod.fst 2 ⟨ask "other", 3, .asking⟩ "hey" asIs
      (reached ⟨10, 2⟩ Prod.fst overtaken) := by
  have hbefore : unexpired ⟨10, 2⟩ 3 (reached ⟨10, 2⟩ Prod.fst overtaken).entries =
      [("small", ⟨"hi", 1, 1, 0⟩), ("large", ⟨"hello", 2, 2, 0⟩)] := rfl
  have hroom : roomFor ⟨10, 2⟩ 3 asIs (reached ⟨10, 2⟩ Prod.fst overtaken).entries =
      [("large", ⟨"hello", 2, 2, 0⟩)] := rfl
  have hafter : (advance ⟨10, 2⟩ Prod.fst (.answer 2 (.ok "hey") asIs)
      (reached ⟨10, 2⟩ Prod.fst overtaken)).entries =
      [("other", ⟨"hey", 3, 3, 0⟩), ("large", ⟨"hello", 2, 2, 0⟩)] := rfl
  refine ⟨rfl, rfl, fun h => ?_⟩
  have hplaces := (h ("small", ⟨"hi", 1, 1, 0⟩) (by simp [hbefore]) (by simp [hroom])
    ("large", ⟨"hello", 2, 2, 0⟩) (by simp [hafter]) (by simp [ask])).2
  revert hplaces
  decide

def inTurn : List (Event String) :=
  [.complete 0 (ask "small") 1, .look 0, .answer 0 (.ok "hi") asIs, .complete 1 (ask "large") 2,
    .look 1, .answer 1 (.ok "hello") asIs, .complete 2 (ask "other") 3, .look 2]

theorem inTurn_evicts :
    RecentKept ⟨10, 2⟩ Prod.fst 2 ⟨ask "other", 3, .asking⟩ "hey" asIs
      (reached ⟨10, 2⟩ Prod.fst inTurn) ∧
    (reached ⟨10, 2⟩ Prod.fst inTurn).entries.map Prod.fst = ["large", "small"] ∧
    (advance ⟨10, 2⟩ Prod.fst (.answer 2 (.ok "hey") asIs)
      (reached ⟨10, 2⟩ Prod.fst inTurn)).entries.map Prod.fst = ["other", "large"] := by
  obtain ⟨-, -, hiff, hturn⟩ := cached_completions ⟨10, 2⟩ Prod.fst (by decide) inTurn
  have hsteps : Along (advance ⟨10, 2⟩ Prod.fst) InStep inTurn .new := by
    have hlast : ∀ id (p : CachedProvider String) c, p.calls id = some c →
        (∀ b ∈ p.log, b.now < c.now) → BegunLast id p := by
      intro id p c hc hlog c' hc'
      rw [Option.mem_def, hc] at hc'
      obtain rfl := Option.some.inj hc'
      exact hlog
    refine ⟨trivial, ?_, ?_, trivial, ?_, ?_, trivial, ?_, trivial⟩
    · exact hlast 0 _ ⟨ask "small", 1, .begun⟩ rfl (by decide)
    · exact hlast 0 _ ⟨ask "small", 1, .asking⟩ rfl (by decide)
    · exact hlast 1 _ ⟨ask "large", 2, .begun⟩ rfl (by decide)
    · exact hlast 1 _ ⟨ask "large", 2, .asking⟩ rfl (by decide)
    · exact hlast 2 _ ⟨ask "other", 3, .begun⟩ rfl (by decide)
  exact ⟨(hiff 2 ⟨ask "other", 3, .asking⟩ rfl rfl "hey").mpr (hturn hsteps _) asIs, rfl, rfl⟩

end IronClaw.CacheCalls
