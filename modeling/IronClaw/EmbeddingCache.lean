import Mathlib.Data.List.Find
import Mathlib.Data.List.GetD
import Mathlib.Data.Nat.SuccPred
import IronClaw.ResponseCache
import IronClaw.Lib.Recency

/-!
# The embedding cache

`workspace/embedding_cache.rs` keeps embeddings under the hash of the model and
the text. A call looks up what it can, asks the provider for the rest without
the lock, and stores the answers; a batch does this for many texts, by their
indices. Calls may be at any of these points at the same time. The provider is
a function of the text, and each of its calls may fail.
-/

set_option autoImplicit false

namespace IronClaw.EmbeddingCache
open IronClaw.ResponseCache Lib.PrefixCode Lib.Runs Lib.Recency

inductive EmbeddingError where
  | httpError (reason : String)
  | invalidResponse (reason : String)
  | rateLimited (retryAfter : Option ℕ)
  | authFailed
  | textTooLong (length max : ℕ)
  deriving DecidableEq

structure CacheEntry (ν : Type) where
  embedding : ν
  lastAccessed : ℕ

variable {κ ν : Type}

def lastUsed (e : κ × CacheEntry ν) : ℕ := e.2.lastAccessed

structure Table (κ ν : Type) where
  entries : List (κ × CacheEntry ν)
  uses : List (κ × ℕ)

structure Choice (κ ν : Type) where
  arrange : List (κ × CacheEntry ν) → List (κ × CacheEntry ν)
  perm : ∀ es, (arrange es).Perm es
  select : ∀ n, Selection (lastUsed (κ := κ) (ν := ν)) n

section table

variable [DecidableEq κ]

namespace Table

def find (key : κ) (t : Table κ ν) : Option (CacheEntry ν) :=
  (t.entries.find? (fun e => e.1 = key)).map Prod.snd

def put (key : κ) (embedding : ν) (now : ℕ) (t : Table κ ν) : Table κ ν :=
  ⟨(key, ⟨embedding, now⟩)::remove Prod.fst key t.entries, (key, now)::t.uses⟩

end Table

def evictLru (maxEntries : ℕ) (choice : Choice κ ν) (es : List (κ × CacheEntry ν)) :
    List (κ × CacheEntry ν) :=
  shrink Prod.fst lastUsed maxEntries choice.arrange es.length es

def evictKOldest (k : ℕ) (choice : Choice κ ν) (es : List (κ × CacheEntry ν)) :
    List (κ × CacheEntry ν) :=
  if k = 0 ∨ es = [] then es
  else if es.length ≤ k then []
  else removeAll Prod.fst (((choice.select k).arrange es).take k) es

def partition (now : ℕ) : ℕ → List κ → Table κ ν → Table κ ν × List (Option ν) × List ℕ
  | _, [], t => (t, [], [])
  | i, key::keys, t => match t.find key with
    | some entry =>
      let (t, results, misses) := partition now (i+1) keys (t.put key entry.embedding now)
      (t, some entry.embedding::results, misses)
    | none =>
      let (t, results, misses) := partition now (i+1) keys t
      (t, none::results, i::misses)

def fill (results : List (Option ν)) (new : List (ℕ × ν)) : List (Option ν) :=
  new.foldl (fun rs p => rs.set p.1 (some p.2)) results

def collect : ℕ → List (Option ν) → Except EmbeddingError (List ν)
  | _, [] => .ok []
  | i, none::_ =>
    .error (.invalidResponse ("embedding slot "++toString i++" was not populated"))
  | i, some v::slots => (collect (i+1) slots).map fun vs => v::vs

def batchRoom (maxEntries misses : ℕ) (choice : Choice κ ν) (es : List (κ × CacheEntry ν)) :
    List (κ × CacheEntry ν) :=
  let needToEvict := es.length+min misses maxEntries-maxEntries
  if 0 < needToEvict then evictKOldest needToEvict choice es else es

def insertAll (now : ℕ) (new : List (κ × ν)) (t : Table κ ν) : Table κ ν :=
  new.foldl (fun t p => t.put p.1 p.2 now) t

def storeBatch (maxEntries now : ℕ) (choice : Choice κ ν) (new : List (κ × ν)) (t : Table κ ν) :
    Table κ ν :=
  insertAll now (new.drop (new.length-min new.length maxEntries))
    { t with entries := batchRoom maxEntries new.length choice t.entries }

def storeOne (maxEntries now : ℕ) (choice : Choice κ ν) (key : κ) (embedding : ν)
    (t : Table κ ν) : Table κ ν :=
  match t.find key with
  | some entry => t.put key entry.embedding now
  | none => Table.put key embedding now { t with entries := evictLru maxEntries choice t.entries }

end table

inductive Call (ν : Type) where
  | embed (text : String)
  | embedAsking (text : String)
  | embedDone (text : String) (result : Except EmbeddingError ν)
  | batch (texts : List String)
  | batchAsking (texts : List String) (results : List (Option ν)) (missIndices : List ℕ)
  | batchDone (texts : List String) (result : Except EmbeddingError (List ν))

structure CachedProvider (κ ν : Type) where
  table : Table κ ν
  calls : ℕ → Option (Call ν)

def CachedProvider.new : CachedProvider κ ν := ⟨⟨[], []⟩, fun _ => none⟩

inductive Event (κ ν : Type) where
  | embed (id : ℕ) (text : String)
  | embedBatch (id : ℕ) (texts : List String)
  | look (id now : ℕ)
  | answer (id now : ℕ) (failure : Option EmbeddingError) (choice : Choice κ ν)
  | clear

def Event.texts : Event κ ν → List String
  | .embed _ text => [text]
  | .embedBatch _ texts => texts
  | _ => []

/-- The bytes that `cache_key` feeds to the hash. -/
def keyBytes (modelName text : String) : List UInt8 :=
  utf8 modelName.toList++0::utf8 text.toList

section machine

variable [DecidableEq κ] (maxEntries : ℕ) (cacheKey : String → κ) (inner : String → ν)

namespace CachedProvider

def setCall (p : CachedProvider κ ν) (id : ℕ) (c : Call ν) : CachedProvider κ ν :=
  { p with calls := Function.update p.calls id (some c) }

end CachedProvider

def lookOne (id now : ℕ) (text : String) (p : CachedProvider κ ν) : CachedProvider κ ν :=
  match p.table.find (cacheKey text) with
  | some entry =>
    { p.setCall id (.embedDone text (.ok entry.embedding)) with
      table := p.table.put (cacheKey text) entry.embedding now }
  | none => p.setCall id (.embedAsking text)

def lookBatch (id now : ℕ) (texts : List String) (p : CachedProvider κ ν) : CachedProvider κ ν :=
  if texts.isEmpty then p.setCall id (.batchDone texts (.ok []))
  else
    let (table, results, missIndices) := partition now 0 (texts.map cacheKey) p.table
    if missIndices.isEmpty then
      { p.setCall id (.batchDone texts (collect 0 results)) with table := table }
    else { p.setCall id (.batchAsking texts results missIndices) with table := table }

def missTexts (texts : List String) (missIndices : List ℕ) : List String :=
  missIndices.map (fun i => texts.getD i "")

def answerBatch (id now : ℕ) (choice : Choice κ ν) (texts : List String)
    (results : List (Option ν)) (missIndices : List ℕ) (newEmbeddings : List ν)
    (p : CachedProvider κ ν) : CachedProvider κ ν :=
  if newEmbeddings.length ≠ missIndices.length then
    p.setCall id (.batchDone texts (.error (.invalidResponse
      ("embed_batch returned "++toString newEmbeddings.length++" embeddings, expected "++
        toString missIndices.length))))
  else
    { p.setCall id (.batchDone texts
        (collect 0 (fill results (missIndices.zip newEmbeddings)))) with
      table := storeBatch maxEntries now choice
        (((missTexts texts missIndices).map cacheKey).zip newEmbeddings) p.table }

def advance (a : Event κ ν) (p : CachedProvider κ ν) : CachedProvider κ ν :=
  match a with
  | .embed id text => if (p.calls id).isNone then p.setCall id (.embed text) else p
  | .embedBatch id texts => if (p.calls id).isNone then p.setCall id (.batch texts) else p
  | .look id now => match p.calls id with
    | some (.embed text) => lookOne cacheKey id now text p
    | some (.batch texts) => lookBatch cacheKey id now texts p
    | _ => p
  | .answer id _ (some e) _ => match p.calls id with
    | some (.embedAsking text) => p.setCall id (.embedDone text (.error e))
    | some (.batchAsking texts _ _) => p.setCall id (.batchDone texts (.error e))
    | _ => p
  | .answer id now none choice => match p.calls id with
    | some (.embedAsking text) =>
      { p.setCall id (.embedDone text (.ok (inner text))) with
        table := storeOne maxEntries now choice (cacheKey text) (inner text) p.table }
    | some (.batchAsking texts results missIndices) =>
      answerBatch maxEntries cacheKey id now choice texts results missIndices
        ((missTexts texts missIndices).map inner) p
    | _ => p
  | .clear => { p with table := { p.table with entries := [] } }

end machine

section spec

variable [DecidableEq κ] (maxEntries : ℕ) (cacheKey : String → κ) (inner : String → ν)
variable (asked : String → Prop)

def lastUse (key : κ) (uses : List (κ × ℕ)) : Option ℕ :=
  (uses.find? (fun u => u.1 = key)).map Prod.snd

structure Sound (t : Table κ ν) : Prop where
  distinct : Distinct Prod.fst t.entries
  used : ∀ e ∈ t.entries, lastUse e.1 t.uses = some e.2.lastAccessed
  faithful : ∀ e ∈ t.entries, ∃ text, asked text ∧ cacheKey text = e.1 ∧
    e.2.embedding = inner text

def Partitioned (i : ℕ) (texts : List String) (results : List (Option ν)) (misses : List ℕ) :
    Prop :=
  ∀ j, results[j]? = texts[j]?.map fun text => if i+j ∈ misses then none else some (inner text)

def CallSound : Call ν → Prop
  | .embed text => asked text
  | .embedAsking text => asked text
  | .embedDone text result => ∀ v, result = .ok v → v = inner text
  | .batch texts => ∀ text ∈ texts, asked text
  | .batchAsking texts results misses =>
    (∀ text ∈ texts, asked text) ∧ (∀ i ∈ misses, i < texts.length) ∧
      Partitioned inner 0 texts results misses
  | .batchDone texts result => ∀ vs, result = .ok vs → vs = texts.map inner

structure Transparent (p : CachedProvider κ ν) : Prop where
  sound : Sound cacheKey inner asked p.table
  bound : p.table.entries.length ≤ maxEntries
  calls : ∀ id c, p.calls id = some c → CallSound inner asked c

def storedKeys : Call ν → List κ
  | .embedAsking text => [cacheKey text]
  | .batchAsking texts _ misses => (missTexts texts misses).map cacheKey
  | _ => []

def roomFor (choice : Choice κ ν) (t : Table κ ν) : Call ν → List (κ × CacheEntry ν)
  | .embedAsking text =>
    if (t.find (cacheKey text)).isSome then t.entries else evictLru maxEntries choice t.entries
  | .batchAsking _ _ misses => batchRoom maxEntries misses.length choice t.entries
  | _ => t.entries

def FailureCachesNothing (a : Event κ ν) (p p' : CachedProvider κ ν) : Prop :=
  ∀ id now e choice, a = .answer id now (some e) choice → p'.table = p.table

def RecentKept (a : Event κ ν) (p p' : CachedProvider κ ν) : Prop :=
  ∀ id now choice c, a = .answer id now none choice → p.calls id = some c →
    ∀ e ∈ p.table.entries, e ∉ roomFor maxEntries cacheKey choice p.table c →
    ∀ f ∈ p'.table.entries, f.1 ∉ storedKeys cacheKey c → f ∈ p.table.entries ∧
      ∃ old ∈ lastUse e.1 p.table.uses, ∃ recent ∈ lastUse f.1 p.table.uses, old ≤ recent

end spec

section table

variable [DecidableEq κ] {cacheKey : String → κ} {inner : String → ν} {asked : String → Prop}
variable {t : Table κ ν}

theorem find_mem {key : κ} {entry : CacheEntry ν} (h : t.find key = some entry) :
    (key, entry) ∈ t.entries := by
  obtain ⟨e, he, rfl⟩ := Option.map_eq_some_iff.mp h
  have hk : e.1 = key := by simpa using List.find?_some he
  rw [← hk]
  exact List.mem_of_find?_eq_some he

theorem mem_put {key : κ} {embedding : ν} {now : ℕ} {e : κ × CacheEntry ν} :
    e ∈ (t.put key embedding now).entries ↔
      e = (key, ⟨embedding, now⟩) ∨ (e ∈ t.entries ∧ e.1 ≠ key) := by
  simp [Table.put, remove]

theorem put_length (t : Table κ ν) (key : κ) (embedding : ν) (now : ℕ) :
    (t.put key embedding now).entries.length ≤ t.entries.length+1 := by
  simpa [Table.put, remove] using List.length_filter_le _ t.entries

theorem renewed_length {key : κ} {entry : CacheEntry ν} (h : t.find key = some entry)
    (embedding : ν) (now : ℕ) :
    (t.put key embedding now).entries.length ≤ t.entries.length :=
  remove_length Prod.fst (find_mem h)

theorem sound_sublist {es : List (κ × CacheEntry ν)} (h : Sound cacheKey inner asked t)
    (hsub : es.Sublist t.entries) : Sound cacheKey inner asked ⟨es, t.uses⟩ := by
  refine ⟨List.Nodup.sublist (hsub.map Prod.fst) h.distinct, ?_, ?_⟩
  · intro e he
    exact h.used e (hsub.subset he)
  · intro e he
    exact h.faithful e (hsub.subset he)

theorem put_sound {text : String} (h : Sound cacheKey inner asked t) (hasked : asked text)
    (now : ℕ) : Sound cacheKey inner asked (t.put (cacheKey text) (inner text) now) := by
  refine ⟨?_, ?_, ?_⟩
  · rw [Distinct, Table.put, List.map_cons, List.nodup_cons]
    refine ⟨?_, distinct_filter _ h.distinct⟩
    intro hm
    obtain ⟨e, he, hk⟩ := List.mem_map.mp hm
    simpa [hk] using (List.mem_filter.mp he).2
  · intro e he
    rcases mem_put.mp he with rfl | ⟨he, hk⟩
    · simp [lastUse, Table.put]
    · have hother := h.used e he
      simpa [lastUse, Table.put, Ne.symm hk] using hother
  · intro e he
    rcases mem_put.mp he with rfl | ⟨he, _⟩
    · exact ⟨text, hasked, rfl, rfl⟩
    · exact h.faithful e he

theorem find_faithful {text : String} {entry : CacheEntry ν} (h : Sound cacheKey inner asked t)
    (hkey : ∀ s u, asked s → asked u → cacheKey s = cacheKey u → s = u) (hasked : asked text)
    (hf : t.find (cacheKey text) = some entry) : entry.embedding = inner text := by
  obtain ⟨u, hu, hk, he⟩ := h.faithful _ (find_mem hf)
  rw [he, hkey u text hu hasked hk]

end table

section eviction

variable [DecidableEq κ] (maxEntries : ℕ) (choice : Choice κ ν) (es : List (κ × CacheEntry ν))

theorem evictLru_sublist : (evictLru maxEntries choice es).Sublist es :=
  shrink_sublist _ _ _ _

theorem evictLru_length (hmax : 0 < maxEntries) :
    (evictLru maxEntries choice es).length < maxEntries :=
  shrink_length choice.perm hmax _ _ (le_refl _)

theorem evictKOldest_sublist (k : ℕ) : (evictKOldest k choice es).Sublist es := by
  rw [evictKOldest]
  split
  · exact .refl es
  · split
    · exact List.nil_sublist es
    · exact List.filter_sublist

theorem evictKOldest_length (k : ℕ) (h : Distinct Prod.fst es) :
    (evictKOldest k choice es).length = es.length-k := by
  rw [evictKOldest]
  split
  · next hnone =>
    rcases hnone with rfl | rfl
    · rfl
    · simp
  · split
    · next hall => simpa using (Nat.sub_eq_zero_of_le hall).symm
    · exact removeAll_length (choice.select k) h

theorem evictKOldest_dropped (k : ℕ) (h : Distinct Prod.fst es) :
    Dropped lastUsed es (evictKOldest k choice es) := by
  rw [evictKOldest]
  split
  · exact dropped_refl es
  · split
    · exact dropped_all es
    · exact removeAll_dropped (choice.select k) h

theorem batchRoom_sublist (misses : ℕ) : (batchRoom maxEntries misses choice es).Sublist es := by
  rw [batchRoom]
  split
  · exact evictKOldest_sublist choice es _
  · exact .refl es

theorem batchRoom_dropped (misses : ℕ) (h : Distinct Prod.fst es) :
    Dropped lastUsed es (batchRoom maxEntries misses choice es) := by
  rw [batchRoom]
  split
  · exact evictKOldest_dropped choice es _ h
  · exact dropped_refl es

theorem batchRoom_length (misses : ℕ) (h : Distinct Prod.fst es) :
    (batchRoom maxEntries misses choice es).length+min misses maxEntries ≤ maxEntries := by
  rw [batchRoom]
  split
  · rw [evictKOldest_length choice es _ h]
    omega
  · omega

end eviction

section slots

variable {inner : String → ν}

theorem fill_get (f : ℕ → ν) (misses : List ℕ) (results : List (Option ν)) (j : ℕ) :
    (fill results (misses.map (fun i => (i, f i))))[j]? =
      if j ∈ misses then results[j]?.map (fun _ => some (f j)) else results[j]? := by
  induction misses generalizing results with
  | nil => rfl
  | cons i misses ih =>
    have hstep : fill results ((i::misses).map (fun i => (i, f i))) =
        fill (results.set i (some (f i))) (misses.map (fun i => (i, f i))) := rfl
    rw [hstep, ih]
    by_cases hij : i = j
    · subst hij
      have hset : (results.set i (some (f i)))[i]? = results[i]?.map (fun _ => some (f i)) :=
        List.getElem?_set_self'
      rw [hset, if_pos List.mem_cons_self, Option.map_map]
      exact ite_self _
    · simp [hij, Ne.symm hij]

theorem collect_all (i : ℕ) (vs : List ν) : collect i (vs.map some) = .ok vs := by
  induction vs generalizing i with
  | nil => rfl
  | cons v vs ih =>
    rw [List.map_cons, collect, ih]
    rfl

/-- The slots that were missed get their embeddings, the others have theirs. -/
theorem filled (texts : List String) (results : List (Option ν)) (misses : List ℕ)
    (h : Partitioned inner 0 texts results misses) :
    fill results (misses.zip ((missTexts texts misses).map inner)) =
      (texts.map inner).map some := by
  have hzip : misses.zip ((missTexts texts misses).map inner) =
      misses.map (fun i => (i, inner (texts.getD i ""))) := by
    rw [missTexts, List.map_map]
    have hpair : (misses.map id).zip (misses.map (fun i => inner (texts.getD i ""))) =
        misses.map (fun i => (i, inner (texts.getD i ""))) := List.zip_map'
    rwa [List.map_id] at hpair
  apply List.ext_getElem?
  intro j
  rw [hzip, fill_get (fun i => inner (texts.getD i "")), h j]
  cases ht : texts[j]? with
  | none => simp [ht]
  | some text =>
    by_cases hm : j ∈ misses
    · simp [hm, ht, List.getD_eq_getElem?_getD]
    · simp [hm, ht]

theorem partitioned_full (texts : List String) (results : List (Option ν))
    (h : Partitioned inner 0 texts results []) : results = (texts.map inner).map some :=
  filled texts results [] h

theorem missTexts_mem {texts : List String} {misses : List ℕ} (h : ∀ i ∈ misses, i < texts.length) :
    ∀ text ∈ missTexts texts misses, text ∈ texts := by
  intro text ht
  obtain ⟨i, hi, rfl⟩ := List.mem_map.mp ht
  rw [List.getD_eq_getElem _ _ (h i hi)]
  exact List.getElem_mem _

end slots

section batch

variable [DecidableEq κ] {cacheKey : String → κ} {inner : String → ν} {asked : String → Prop}

/-- A step of the partition puts one slot before those of the others. -/
theorem partitioned_cons {i : ℕ} {text : String} {texts : List String}
    {results : List (Option ν)} {misses : List ℕ} (slot : Option ν) (misses' : List ℕ)
    (h : Partitioned inner (i+1) texts results misses)
    (hslot : slot = if i ∈ misses' then none else some (inner text))
    (hsame : ∀ j, i < j → (j ∈ misses' ↔ j ∈ misses)) :
    Partitioned inner i (text::texts) (slot::results) misses' := by
  intro j
  cases j with
  | zero => simp [hslot]
  | succ j =>
    have hj := h j
    have hmem := hsame (i+1+j) (by omega)
    rw [List.getElem?_cons_succ, List.getElem?_cons_succ, hj, show i+(j+1) = i+1+j by omega]
    simp only [hmem]

theorem partition_sound (hkey : ∀ s u, asked s → asked u → cacheKey s = cacheKey u → s = u)
    (now i : ℕ) (texts : List String) (t : Table κ ν) (hasked : ∀ text ∈ texts, asked text)
    (h : Sound cacheKey inner asked t) :
    let r := partition now i (texts.map cacheKey) t
    Sound cacheKey inner asked r.1 ∧ r.1.entries.length ≤ t.entries.length ∧
      Partitioned inner i texts r.2.1 r.2.2 ∧ ∀ j ∈ r.2.2, i ≤ j ∧ j < i+texts.length := by
  induction texts generalizing i t with
  | nil => exact ⟨h, le_refl _, fun j => by simp [partition], by simp [partition]⟩
  | cons text texts ih =>
    have htext := hasked text List.mem_cons_self
    have hrest : ∀ u ∈ texts, asked u := fun u hu => hasked u (List.mem_cons_of_mem text hu)
    rw [List.map_cons, partition]
    cases hf : t.find (cacheKey text) with
    | some entry =>
      have he := find_faithful h hkey htext hf
      have hput : Sound cacheKey inner asked (t.put (cacheKey text) entry.embedding now) := by
        rw [he]
        exact put_sound h htext now
      obtain ⟨hs, hl, hp, hm⟩ := ih (i+1) _ hrest hput
      have hi : i ∉ (partition now (i+1) (texts.map cacheKey)
          (t.put (cacheKey text) entry.embedding now)).2.2 := fun hin => by
        have := (hm i hin).1
        omega
      refine ⟨hs, hl.trans (renewed_length hf _ now), ?_, ?_⟩
      · exact partitioned_cons _ _ hp (by rw [if_neg hi, he]) (fun _ _ => Iff.rfl)
      · intro j hj
        have := hm j hj
        rw [List.length_cons]
        omega
    | none =>
      obtain ⟨hs, hl, hp, hm⟩ := ih (i+1) t hrest h
      refine ⟨hs, hl, ?_, ?_⟩
      · refine partitioned_cons _ _ hp (by rw [if_pos List.mem_cons_self]) (fun j hj => ?_)
        rw [List.mem_cons, or_iff_right (by omega)]
      · intro j hj
        rw [List.length_cons]
        rcases List.mem_cons.mp hj with rfl | hj
        · omega
        · have := hm j hj
          omega

theorem insertAll_sound (now : ℕ) (texts : List String) (t : Table κ ν)
    (hasked : ∀ text ∈ texts, asked text) (h : Sound cacheKey inner asked t) :
    Sound cacheKey inner asked
        (insertAll now (texts.map (fun text => (cacheKey text, inner text))) t) ∧
      (insertAll now (texts.map (fun text => (cacheKey text, inner text))) t).entries.length ≤
        t.entries.length+texts.length := by
  induction texts generalizing t with
  | nil => exact ⟨h, le_refl _⟩
  | cons text texts ih =>
    have hput := put_sound h (hasked text List.mem_cons_self) now
    obtain ⟨hs, hl⟩ := ih _ (fun u hu => hasked u (List.mem_cons_of_mem text hu)) hput
    refine ⟨hs, ?_⟩
    have hone := put_length t (cacheKey text) (inner text) now
    rw [List.length_cons]
    exact hl.trans (by omega)

theorem insertAll_old (now : ℕ) (new : List (κ × ν)) (t : Table κ ν) (e : κ × CacheEntry ν)
    (he : e ∈ (insertAll now new t).entries) (hk : e.1 ∉ new.map Prod.fst) : e ∈ t.entries := by
  induction new generalizing t with
  | nil => exact he
  | cons p new ih =>
    rw [List.map_cons, List.mem_cons, not_or] at hk
    rcases mem_put.mp (ih (t.put p.1 p.2 now) he hk.2) with rfl | ⟨hold, _⟩
    · exact absurd rfl hk.1
    · exact hold

end batch

section steps

variable [DecidableEq κ] {maxEntries : ℕ} {cacheKey : String → κ} {inner : String → ν}
variable {asked : String → Prop}

theorem storeOne_sound (hmax : 0 < maxEntries)
    (hkey : ∀ s u, asked s → asked u → cacheKey s = cacheKey u → s = u) (now : ℕ)
    (choice : Choice κ ν) (text : String) (t : Table κ ν) (hasked : asked text)
    (h : Sound cacheKey inner asked t) (hb : t.entries.length ≤ maxEntries) :
    Sound cacheKey inner asked
        (storeOne maxEntries now choice (cacheKey text) (inner text) t) ∧
      (storeOne maxEntries now choice (cacheKey text) (inner text) t).entries.length ≤
        maxEntries := by
  rw [storeOne]
  cases hf : t.find (cacheKey text) with
  | some entry =>
    refine ⟨?_, (renewed_length hf _ now).trans hb⟩
    dsimp only
    rw [find_faithful h hkey hasked hf]
    exact put_sound h hasked now
  | none =>
    refine ⟨put_sound (sound_sublist h (evictLru_sublist maxEntries choice _)) hasked now, ?_⟩
    have hlt := evictLru_length maxEntries choice t.entries hmax
    have hone := put_length ⟨evictLru maxEntries choice t.entries, t.uses⟩ (cacheKey text)
      (inner text) now
    exact hone.trans hlt

variable (maxEntries) in
theorem storeBatch_sound (now : ℕ) (choice : Choice κ ν) (texts : List String) (t : Table κ ν)
    (hasked : ∀ text ∈ texts, asked text) (h : Sound cacheKey inner asked t) :
    Sound cacheKey inner asked (storeBatch maxEntries now choice
        (texts.map (fun text => (cacheKey text, inner text))) t) ∧
      (storeBatch maxEntries now choice
        (texts.map (fun text => (cacheKey text, inner text))) t).entries.length ≤ maxEntries := by
  have hroom := sound_sublist h (batchRoom_sublist maxEntries choice t.entries texts.length)
  have hlen := batchRoom_length maxEntries choice t.entries texts.length h.distinct
  rw [storeBatch, ← List.map_drop, List.length_map]
  obtain ⟨hs, hl⟩ := insertAll_sound now (texts.drop (texts.length-min texts.length maxEntries))
    ⟨batchRoom maxEntries texts.length choice t.entries, t.uses⟩
    (fun text ht => hasked text (List.mem_of_mem_drop ht)) hroom
  refine ⟨hs, hl.trans ?_⟩
  rw [List.length_drop]
  dsimp only
  omega

omit [DecidableEq κ] in
theorem zip_texts (texts : List String) :
    (texts.map cacheKey).zip (texts.map inner) =
      texts.map (fun text => (cacheKey text, inner text)) := List.zip_map'

theorem calls_update {calls : ℕ → Option (Call ν)} (id : ℕ) (c : Call ν)
    (h : ∀ i d, calls i = some d → CallSound inner asked d) (hc : CallSound inner asked c) :
    ∀ i d, Function.update calls id (some c) i = some d → CallSound inner asked d := by
  intro i d hd
  by_cases hi : i = id
  · subst hi
    rw [Function.update_self] at hd
    rwa [← Option.some.inj hd]
  · rw [Function.update_of_ne hi] at hd
    exact h i d hd

theorem lookOne_transparent
    (hkey : ∀ s u, asked s → asked u → cacheKey s = cacheKey u → s = u) (id now : ℕ)
    (text : String) (p : CachedProvider κ ν) (hasked : asked text)
    (h : Transparent maxEntries cacheKey inner asked p) :
    Transparent maxEntries cacheKey inner asked (lookOne cacheKey id now text p) := by
  rw [lookOne]
  cases hf : p.table.find (cacheKey text) with
  | some entry =>
    have he := find_faithful h.sound hkey hasked hf
    refine ⟨?_, (renewed_length hf _ now).trans h.bound, calls_update id _ h.calls ?_⟩
    · dsimp only
      rw [he]
      exact put_sound h.sound hasked now
    · intro v hv
      rw [← Except.ok.inj hv, he]
  | none => exact ⟨h.sound, h.bound, calls_update id _ h.calls hasked⟩

theorem lookBatch_transparent
    (hkey : ∀ s u, asked s → asked u → cacheKey s = cacheKey u → s = u) (id now : ℕ)
    (texts : List String) (p : CachedProvider κ ν) (hasked : ∀ text ∈ texts, asked text)
    (h : Transparent maxEntries cacheKey inner asked p) :
    Transparent maxEntries cacheKey inner asked (lookBatch cacheKey id now texts p) := by
  rw [lookBatch]
  by_cases hnil : texts.isEmpty
  · rw [if_pos hnil]
    refine ⟨h.sound, h.bound, calls_update id _ h.calls ?_⟩
    intro vs hvs
    rw [← Except.ok.inj hvs, List.isEmpty_iff.mp hnil, List.map_nil]
  · rw [if_neg hnil]
    obtain ⟨hs, hl, hp, hm⟩ := partition_sound hkey now 0 texts p.table hasked h.sound
    dsimp only
    split
    · next hempty =>
      refine ⟨hs, hl.trans h.bound, calls_update id _ h.calls ?_⟩
      intro vs hvs
      rw [List.isEmpty_iff.mp hempty] at hp
      rw [partitioned_full texts _ hp, collect_all] at hvs
      exact (Except.ok.inj hvs).symm
    · refine ⟨hs, hl.trans h.bound, calls_update id _ h.calls ⟨hasked, ?_, hp⟩⟩
      intro i hi
      have := (hm i hi).2
      omega

theorem answerBatch_transparent (id now : ℕ) (choice : Choice κ ν) (texts : List String)
    (results : List (Option ν)) (misses : List ℕ) (p : CachedProvider κ ν)
    (hc : CallSound inner asked (.batchAsking texts results misses))
    (h : Transparent maxEntries cacheKey inner asked p) :
    Transparent maxEntries cacheKey inner asked
      (answerBatch maxEntries cacheKey id now choice texts results misses
        ((missTexts texts misses).map inner) p) := by
  obtain ⟨hasked, hm, hp⟩ := hc
  have hlen : ((missTexts texts misses).map inner).length = misses.length := by
    simp [missTexts]
  rw [answerBatch, if_neg (not_not.mpr hlen), zip_texts]
  obtain ⟨hs, hl⟩ := storeBatch_sound maxEntries now choice (missTexts texts misses) p.table
    (fun text ht => hasked text (missTexts_mem hm text ht)) h.sound
  refine ⟨hs, hl, calls_update id _ h.calls ?_⟩
  intro vs hvs
  rw [filled texts results misses hp, collect_all] at hvs
  exact (Except.ok.inj hvs).symm

theorem advance_transparent (hmax : 0 < maxEntries)
    (hkey : ∀ s u, asked s → asked u → cacheKey s = cacheKey u → s = u) (a : Event κ ν)
    (p : CachedProvider κ ν) (hasked : ∀ text ∈ a.texts, asked text)
    (h : Transparent maxEntries cacheKey inner asked p) :
    Transparent maxEntries cacheKey inner asked (advance maxEntries cacheKey inner a p) := by
  have hset : ∀ id c, CallSound inner asked c →
      Transparent maxEntries cacheKey inner asked (p.setCall id c) :=
    fun id c hc => ⟨h.sound, h.bound, calls_update id c h.calls hc⟩
  cases a with
  | embed id text =>
    rw [advance]
    split
    · exact hset id _ (hasked text List.mem_cons_self)
    · exact h
  | embedBatch id texts =>
    rw [advance]
    split
    · exact hset id _ hasked
    · exact h
  | look id now =>
    rw [advance]
    split
    · next text hc => exact lookOne_transparent hkey id now text p (h.calls id _ hc) h
    · next texts hc => exact lookBatch_transparent hkey id now texts p (h.calls id _ hc) h
    · exact h
  | answer id now failure choice =>
    cases failure with
    | some e =>
      rw [advance]
      split
      · exact hset id _ (by simp [CallSound])
      · exact hset id _ (by simp [CallSound])
      · exact h
    | none =>
      rw [advance]
      split
      · next text hc =>
        obtain ⟨hs, hl⟩ := storeOne_sound hmax hkey now choice text p.table (h.calls id _ hc)
          h.sound h.bound
        refine ⟨hs, hl, calls_update id _ h.calls ?_⟩
        intro v hv
        exact (Except.ok.inj hv).symm
      · next texts results misses hc =>
        exact answerBatch_transparent id now choice texts results misses p (h.calls id _ hc) h
      · exact h
  | clear =>
    exact ⟨sound_sublist h.sound (List.nil_sublist _), Nat.zero_le _, h.calls⟩

end steps

section storing

variable [DecidableEq κ] {maxEntries : ℕ} {cacheKey : String → κ} {inner : String → ν}
variable {asked : String → Prop}

theorem advance_failure (a : Event κ ν) (p : CachedProvider κ ν) :
    FailureCachesNothing a p (advance maxEntries cacheKey inner a p) := by
  rintro id now e choice rfl
  rw [advance]
  split
  · rfl
  · rfl
  · rfl

theorem evictLru_dropped (choice : Choice κ ν) (es : List (κ × CacheEntry ν))
    (h : Distinct Prod.fst es) : Dropped lastUsed es (evictLru maxEntries choice es) :=
  shrink_dropped choice.perm _ _ h

variable (maxEntries cacheKey) in
theorem roomFor_dropped (choice : Choice κ ν) (t : Table κ ν) (c : Call ν)
    (h : Distinct Prod.fst t.entries) :
    Dropped lastUsed t.entries (roomFor maxEntries cacheKey choice t c) := by
  cases c with
  | embedAsking text =>
    rw [roomFor]
    split
    · exact dropped_refl _
    · exact evictLru_dropped choice _ h
  | batchAsking texts results misses => exact batchRoom_dropped maxEntries choice _ _ h
  | embed text => exact dropped_refl _
  | embedDone text result => exact dropped_refl _
  | batch texts => exact dropped_refl _
  | batchDone texts result => exact dropped_refl _

theorem storeOne_old (now : ℕ) (choice : Choice κ ν) (text : String) (t : Table κ ν)
    (f : κ × CacheEntry ν)
    (hf : f ∈ (storeOne maxEntries now choice (cacheKey text) (inner text) t).entries)
    (hk : f.1 ≠ cacheKey text) :
    f ∈ roomFor maxEntries cacheKey choice t (.embedAsking text) := by
  rw [storeOne] at hf
  rw [roomFor]
  cases hfound : t.find (cacheKey text) with
  | some entry =>
    rw [hfound] at hf
    rcases mem_put.mp hf with rfl | ⟨hf, _⟩
    · exact absurd rfl hk
    · exact hf
  | none =>
    rw [hfound] at hf
    rcases mem_put.mp hf with rfl | ⟨hf, _⟩
    · exact absurd rfl hk
    · exact hf

theorem answerBatch_old (id now : ℕ) (choice : Choice κ ν) (texts : List String)
    (results : List (Option ν)) (misses : List ℕ) (p : CachedProvider κ ν)
    (f : κ × CacheEntry ν)
    (hf : f ∈ (answerBatch maxEntries cacheKey id now choice texts results misses
      ((missTexts texts misses).map inner) p).table.entries)
    (hk : f.1 ∉ (missTexts texts misses).map cacheKey) :
    f ∈ batchRoom maxEntries misses.length choice p.table.entries := by
  have hlen : (missTexts texts misses).length = misses.length := by simp [missTexts]
  rw [answerBatch, if_neg (by simp [hlen]), zip_texts] at hf
  have hold := insertAll_old now _ _ f hf (by
    intro hm
    rw [← List.map_drop, List.map_map] at hm
    obtain ⟨text, ht, hkey⟩ := List.mem_map.mp hm
    exact hk (List.mem_map.mpr ⟨text, List.mem_of_mem_drop ht, hkey⟩))
  rwa [List.length_map, hlen] at hold

theorem advance_recent (a : Event κ ν) (p : CachedProvider κ ν)
    (h : Sound cacheKey inner asked p.table) :
    RecentKept maxEntries cacheKey a p (advance maxEntries cacheKey inner a p) := by
  rintro id now choice c rfl hc e he hgone f hf hother
  have hroom : f ∈ roomFor maxEntries cacheKey choice p.table c := by
    cases c with
    | embedAsking text =>
      rw [advance, hc] at hf
      exact storeOne_old now choice text p.table f hf (by simpa [storedKeys] using hother)
    | batchAsking texts results misses =>
      rw [advance, hc] at hf
      exact answerBatch_old id now choice texts results misses p f hf hother
    | embed text => exact absurd he hgone
    | embedDone text result => exact absurd he hgone
    | batch texts => exact absurd he hgone
    | batchDone texts result => exact absurd he hgone
  have hdropped := roomFor_dropped maxEntries cacheKey choice p.table c h.distinct
  have hold := hdropped.kept f hroom
  exact ⟨hold, _, h.used e he, _, h.used f hold, hdropped.older e he hgone f hroom⟩

end storing

theorem utf8_injective (p q : List Char) (h : utf8 p = utf8 q) : p = q := by
  have hnil : ∀ r : List Char,
      [] = r.flatMap String.utf8EncodeChar++([] : List UInt8) → r = [] := by
    intro r hr
    rw [List.append_nil, eq_comm, List.flatMap_eq_nil_iff] at hr
    cases r with
    | nil => rfl
    | cons c r => exact absurd (hr c List.mem_cons_self) String.utf8EncodeChar_ne_nil
  rcases text_overlap String.utf8EncodeChar char_delimited p q [] []
    (by rw [List.append_nil, List.append_nil]; exact h) with ⟨r, rfl, hr⟩ | ⟨r, rfl, hr⟩
  · rw [hnil r hr, List.append_nil]
  · rw [hnil r hr, List.append_nil]

theorem keyBytes_injective (modelName s u : String)
    (h : keyBytes modelName s = keyBytes modelName u) : s = u := by
  rw [keyBytes, keyBytes, List.append_right_inj, List.cons.injEq] at h
  exact String.toList_inj.mp (utf8_injective _ _ h.2)

def asked (events : List (Event κ ν)) : List String := events.flatMap Event.texts

def reached [DecidableEq κ] (configured : ℕ) (cacheKey : String → κ) (inner : String → ν)
    (events : List (Event κ ν)) : CachedProvider κ ν :=
  run (advance (max configured 1) cacheKey inner) events .new

theorem reached_transparent [DecidableEq κ] (configured : ℕ) (cacheKey : String → κ)
    (inner : String → ν) (events : List (Event κ ν))
    (hkey : ∀ s u, s ∈ asked events → u ∈ asked events → cacheKey s = cacheKey u → s = u) :
    Transparent (max configured 1) cacheKey inner (· ∈ asked events)
      (reached configured cacheKey inner events) := by
  apply guarded_invariant _ (fun a _ => ∀ text ∈ a.texts, text ∈ asked events)
    (Transparent (max configured 1) cacheKey inner (· ∈ asked events))
  · intro a p h hasked
    exact advance_transparent (by omega) hkey a p hasked h
  · apply along_all
    intro a ha _ text ht
    exact List.mem_flatMap.mpr ⟨a, ha, ht⟩
  · refine ⟨⟨List.nodup_nil, ?_, ?_⟩, Nat.zero_le _, ?_⟩
    · intro e he
      exact absurd he List.not_mem_nil
    · intro e he
      exact absurd he List.not_mem_nil
    · intro id c hc
      exact absurd hc (Option.some_ne_none c).symm

def cacheKey (hash : List UInt8 → κ) (modelName text : String) : κ :=
  hash (keyBytes modelName text)

/-- Whatever the calls and their order, the cache answers with what the
provider says, keeps its bound, and evicts what was not used for longest. -/
theorem cached_embeddings [DecidableEq κ] (configured : ℕ) (modelName : String)
    (hash : List UInt8 → κ) (inner : String → ν) (events : List (Event κ ν)) (a : Event κ ν)
    (hcollide : ∀ s ∈ asked events, ∀ u ∈ asked events,
      hash (keyBytes modelName s) = hash (keyBytes modelName u) →
        keyBytes modelName s = keyBytes modelName u) :
    (∀ id text v, (reached configured (cacheKey hash modelName) inner events).calls id =
      some (.embedDone text (.ok v)) → v = inner text) ∧
    (∀ id texts vs, (reached configured (cacheKey hash modelName) inner events).calls id =
      some (.batchDone texts (.ok vs)) → vs = texts.map inner) ∧
    (reached configured (cacheKey hash modelName) inner events).table.entries.length ≤
      max configured 1 ∧
    FailureCachesNothing a (reached configured (cacheKey hash modelName) inner events)
      (reached configured (cacheKey hash modelName) inner (events++[a])) ∧
    RecentKept (max configured 1) (cacheKey hash modelName) a
      (reached configured (cacheKey hash modelName) inner events)
      (reached configured (cacheKey hash modelName) inner (events++[a])) := by
  have h := reached_transparent configured (cacheKey hash modelName) inner events
    (fun s u hs hu he => keyBytes_injective modelName s u (hcollide s hs u hu he))
  have hnext : reached configured (cacheKey hash modelName) inner (events++[a]) =
      advance (max configured 1) (cacheKey hash modelName) inner a
        (reached configured (cacheKey hash modelName) inner events) :=
    run_append _ events [a] _
  rw [hnext]
  refine ⟨?_, ?_, h.bound, advance_failure a _, advance_recent a _ h.sound⟩
  · intro id text v hc
    exact h.calls id _ hc v rfl
  · intro id texts vs hc
    exact h.calls id _ hc vs rfl

def helloDigest (bytes : List UInt8) : List UInt8 :=
  if bytes = keyBytes "mock-embedding" "hello" then
    [0xd3, 0xf2, 0x5d, 0xaf, 0x18, 0xd1, 0xe4, 0x9b, 0x88, 0x08, 0x52, 0x40, 0x57, 0xa4, 0xd3, 0x09,
     0x30, 0x89, 0x99, 0xde, 0x15, 0x65, 0xea, 0x97, 0x49, 0x55, 0x58, 0x3c, 0xc8, 0xe2, 0xd7, 0x56]
  else
    [0x49, 0xfa, 0xf3, 0x38, 0x4e, 0x00, 0x72, 0x12, 0xe2, 0x83, 0x0b, 0xe7, 0x04, 0x93, 0x13, 0x95,
     0xe9, 0xef, 0xd2, 0xe3, 0x30, 0x2b, 0x23, 0xd9, 0x02, 0x69, 0x75, 0x11, 0xd3, 0xb5, 0x83, 0x56]

def sortedChoice : Choice (List UInt8) (List ℕ) := ⟨id, fun _ => .refl _, sortedSelection lastUsed⟩

def helloEvents : List (Event (List UInt8) (List ℕ)) :=
  [.embedBatch 0 ["hello", "hello"], .embed 1 "hello", .look 0 0, .look 1 1,
    .answer 0 2 none sortedChoice, .embed 2 "world", .look 2 3]

def embedding (text : String) : List ℕ := [text.length, 1]

/-- The answer to another text finds the cache full. -/
theorem cached_embeddings_hello :
    (∀ id text v, (reached 0 (cacheKey helloDigest "mock-embedding") embedding
      helloEvents).calls id = some (.embedDone text (.ok v)) → v = embedding text) ∧
    (∀ id texts vs, (reached 0 (cacheKey helloDigest "mock-embedding") embedding
      helloEvents).calls id = some (.batchDone texts (.ok vs)) → vs = texts.map embedding) ∧
    (reached 0 (cacheKey helloDigest "mock-embedding") embedding
      helloEvents).table.entries.length ≤ 1 ∧
    FailureCachesNothing (.answer 2 4 none sortedChoice)
      (reached 0 (cacheKey helloDigest "mock-embedding") embedding helloEvents)
      (reached 0 (cacheKey helloDigest "mock-embedding") embedding
        (helloEvents++[.answer 2 4 none sortedChoice])) ∧
    RecentKept 1 (cacheKey helloDigest "mock-embedding") (.answer 2 4 none sortedChoice)
      (reached 0 (cacheKey helloDigest "mock-embedding") embedding helloEvents)
      (reached 0 (cacheKey helloDigest "mock-embedding") embedding
        (helloEvents++[.answer 2 4 none sortedChoice])) := by
  have htwo : ∀ s ∈ asked helloEvents, s = "hello" ∨ s = "world" := by
    intro s hs
    simpa [helloEvents, asked, Event.texts] using hs
  have happart : helloDigest (keyBytes "mock-embedding" "hello") ≠
      helloDigest (keyBytes "mock-embedding" "world") := by
    decide +kernel
  refine cached_embeddings 0 "mock-embedding" helloDigest embedding helloEvents
    (.answer 2 4 none sortedChoice) ?_
  intro s hs u hu hsame
  rcases htwo s hs with rfl | rfl <;> rcases htwo u hu with rfl | rfl
  · rfl
  · exact absurd hsame happart
  · exact absurd hsame.symm happart
  · rfl

end IronClaw.EmbeddingCache
