import Mathlib.Data.List.AList
import Mathlib.Tactic.Positivity
import Mathlib.Tactic.Linarith
import IronClaw.Lib.Ranking

/-!
# Fusion of two rankings

`reciprocal_rank_fusion` and `weighted_score_fusion` of `workspace/search.rs`:
each result adds a score to its chunk, the scores are divided by the best one,
low ones are dropped and the best are kept. Scores are exact. The map of the
chunks gives its entries in an order of its own.
-/

set_option autoImplicit false

namespace IronClaw.SearchFusion
open Lib.Ranking

variable {Id : Type} [DecidableEq Id]

structure SearchConfig where
  limit : ℕ
  rrfK : ℕ
  minScore : ℚ
  ftsWeight : ℚ
  vectorWeight : ℚ

structure RankedResult (Id : Type) where
  chunkId : Id
  documentId : Id
  documentPath : String
  content : String
  rank : ℕ
  deriving DecidableEq

structure ChunkInfo (Id : Type) where
  documentId : Id
  documentPath : String
  content : String
  score : ℚ
  ftsRank : Option ℕ
  vectorRank : Option ℕ
  deriving DecidableEq

structure SearchResult (Id : Type) where
  documentId : Id
  documentPath : String
  chunkId : Id
  content : String
  score : ℚ
  ftsRank : Option ℕ
  vectorRank : Option ℕ
  deriving DecidableEq

inductive Method where
  | fts
  | vector
  deriving DecidableEq

def ChunkInfo.rankedBy (info : ChunkInfo Id) (rank : ℕ) : Method → ChunkInfo Id
  | .fts => { info with ftsRank := some rank }
  | .vector => { info with vectorRank := some rank }

abbrev ChunkScores (Id : Type) := AList (fun _ : Id => ChunkInfo Id)

def scored (method : Method) (score : ℕ → ℚ) (old : Option (ChunkInfo Id))
    (result : RankedResult Id) : ChunkInfo Id :=
  match old with
  | some info => { info with score := info.score+score result.rank }.rankedBy result.rank method
  | none => ChunkInfo.rankedBy ⟨result.documentId, result.documentPath, result.content,
      score result.rank, none, none⟩ result.rank method

def addResult (method : Method) (score : ℕ → ℚ) (chunkScores : ChunkScores Id)
    (result : RankedResult Id) : ChunkScores Id :=
  chunkScores.insert result.chunkId
    (scored method score (chunkScores.lookup result.chunkId) result)

def accumulate (ftsScore vectorScore : ℕ → ℚ) (fts vector : List (RankedResult Id)) :
    ChunkScores Id :=
  vector.foldl (addResult .vector vectorScore) (fts.foldl (addResult .fts ftsScore) ∅)

def toResult (chunkId : Id) (info : ChunkInfo Id) : SearchResult Id where
  documentId := info.documentId
  documentPath := info.documentPath
  chunkId := chunkId
  content := info.content
  score := info.score
  ftsRank := info.ftsRank
  vectorRank := info.vectorRank

structure MapOrder (Id : Type) where
  arrange : List (SearchResult Id) → List (SearchResult Id)
  arrange_perm : ∀ results, (arrange results).Perm results

def maxScore (results : List (SearchResult Id)) : Option ℚ :=
  (results.map SearchResult.score).max?

def normalize (results : List (SearchResult Id)) : List (SearchResult Id) :=
  match maxScore results with
  | some top => if 0 < top then results.map (fun r => { r with score := r.score/top }) else results
  | none => results

def keepScores (minScore : ℚ) (results : List (SearchResult Id)) : List (SearchResult Id) :=
  if 0 < minScore then results.filter (fun r => decide (minScore ≤ r.score)) else results

def fuse (order : MapOrder Id) (ftsScore vectorScore : ℕ → ℚ) (fts vector : List (RankedResult Id))
    (config : SearchConfig) : List (SearchResult Id) :=
  let results := order.arrange
    ((accumulate ftsScore vectorScore fts vector).entries.map (fun e => toResult e.1 e.2))
  best SearchResult.score config.limit (keepScores config.minScore (normalize results))

def rrfScore (config : SearchConfig) (rank : ℕ) : ℚ := 1/((config.rrfK : ℚ)+rank)

def weightedScore (weight : ℚ) (rank : ℕ) : ℚ := weight*(1/(rank : ℚ))

def reciprocalRankFusion (order : MapOrder Id) (fts vector : List (RankedResult Id))
    (config : SearchConfig) : List (SearchResult Id) :=
  fuse order (rrfScore config) (rrfScore config) fts vector config

def weightedScoreFusion (order : MapOrder Id) (fts vector : List (RankedResult Id))
    (config : SearchConfig) : List (SearchResult Id) :=
  fuse order (weightedScore config.ftsWeight) (weightedScore config.vectorWeight) fts vector config

section ranks

def resultOf (results : List (RankedResult Id)) (chunkId : Id) : Option (RankedResult Id) :=
  results.find? (fun r => r.chunkId = chunkId)

def rankOf (results : List (RankedResult Id)) (chunkId : Id) : Option ℕ :=
  (resultOf results chunkId).map RankedResult.rank

def AsGood : Option ℕ → Option ℕ → Prop
  | _, none => True
  | none, some _ => False
  | some a, some b => a ≤ b

def worth (score : ℕ → ℚ) (rank : Option ℕ) : ℚ := (rank.map score).getD 0

variable (ftsScore vectorScore : ℕ → ℚ) (fts vector : List (RankedResult Id))

def rawScore (chunkId : Id) : ℚ :=
  worth ftsScore (rankOf fts chunkId)+worth vectorScore (rankOf vector chunkId)

def topScore : ℚ :=
  ((fts++vector).map (fun r => rawScore ftsScore vectorScore fts vector r.chunkId)).max?.getD 0

def normalScore (chunkId : Id) : ℚ :=
  if 0 < topScore ftsScore vectorScore fts vector then
    rawScore ftsScore vectorScore fts vector chunkId/topScore ftsScore vectorScore fts vector
  else rawScore ftsScore vectorScore fts vector chunkId

def rescored (score : Id → ℚ) (r : SearchResult Id) : SearchResult Id :=
  { r with score := score r.chunkId }

structure Fused (config : SearchConfig) (out : List (SearchResult Id)) : Prop where
  distinct : (out.map SearchResult.chunkId).Nodup
  sourced : ∀ r ∈ out, ∃ source, resultOf (fts++vector) r.chunkId = some source ∧
    r.documentId = source.documentId ∧ r.documentPath = source.documentPath ∧
    r.content = source.content
  ranks : ∀ r ∈ out, r.ftsRank = rankOf fts r.chunkId ∧ r.vectorRank = rankOf vector r.chunkId
  scores : ∀ r ∈ out, r.score = normalScore ftsScore vectorScore fts vector r.chunkId
  sorted : out.Pairwise (fun a b => b.score ≤ a.score)
  limited : out.length ≤ config.limit
  left : ∀ x ∈ fts++vector, x.chunkId ∉ out.map SearchResult.chunkId →
    normalScore ftsScore vectorScore fts vector x.chunkId < config.minScore ∨
    out.length = config.limit ∧ ∀ last ∈ out.getLast?,
      normalScore ftsScore vectorScore fts vector x.chunkId ≤ last.score
  dominance : ∀ x ∈ fts++vector, ∀ y ∈ fts++vector,
    AsGood (rankOf fts x.chunkId) (rankOf fts y.chunkId) →
    AsGood (rankOf vector x.chunkId) (rankOf vector y.chunkId) →
    normalScore ftsScore vectorScore fts vector y.chunkId ≤
      normalScore ftsScore vectorScore fts vector x.chunkId

end ranks

section accumulation

/-- What a run over results about distinct chunks leaves under a chunk. -/
theorem lookup_foldl (method : Method) (score : ℕ → ℚ) (results : List (RankedResult Id))
    (hdistinct : (results.map RankedResult.chunkId).Nodup) (m : ChunkScores Id) (id : Id) :
    (results.foldl (addResult method score) m).lookup id =
      match resultOf results id with
      | some r => some (scored method score (m.lookup id) r)
      | none => m.lookup id := by
  induction results generalizing m with
  | nil => rfl
  | cons r results ih =>
    rw [List.map_cons, List.nodup_cons] at hdistinct
    rw [List.foldl_cons, ih hdistinct.2]
    by_cases hr : r.chunkId = id
    · have hnone : resultOf results id = none := by
        rw [resultOf, List.find?_eq_none]
        intro x hx heq
        rw [← hr, decide_eq_true_eq] at heq
        exact hdistinct.1 (List.mem_map.mpr ⟨x, hx, heq⟩)
      have hfirst : resultOf (r::results) id = some r :=
        List.find?_cons_of_pos (decide_eq_true hr)
      rw [hnone, hfirst, addResult, hr]
      exact AList.lookup_insert m
    · have hrest : resultOf (r::results) id = resultOf results id :=
        List.find?_cons_of_neg (by simpa using hr)
      have hsame : (addResult method score m r).lookup id = m.lookup id :=
        AList.lookup_insert_ne (fun h => hr h.symm)
      rw [hrest, hsame]

variable (ftsScore vectorScore : ℕ → ℚ) (fts vector : List (RankedResult Id))

theorem accumulate_lookup (hfts : (fts.map RankedResult.chunkId).Nodup)
    (hvector : (vector.map RankedResult.chunkId).Nodup) (id : Id) :
    (accumulate ftsScore vectorScore fts vector).lookup id =
      match resultOf fts id, resultOf vector id with
      | some f, some v => some ⟨f.documentId, f.documentPath, f.content,
          ftsScore f.rank+vectorScore v.rank, some f.rank, some v.rank⟩
      | some f, none => some ⟨f.documentId, f.documentPath, f.content,
          ftsScore f.rank, some f.rank, none⟩
      | none, some v => some ⟨v.documentId, v.documentPath, v.content,
          vectorScore v.rank, none, some v.rank⟩
      | none, none => none := by
  rw [accumulate, lookup_foldl .vector vectorScore vector hvector,
    lookup_foldl .fts ftsScore fts hfts]
  cases resultOf fts id with
  | none => cases resultOf vector id <;> rfl
  | some f => cases resultOf vector id <;> rfl

/-- The entry of a chunk holds its ranks, its score and its first result. -/
theorem accumulate_entry (hfts : (fts.map RankedResult.chunkId).Nodup)
    (hvector : (vector.map RankedResult.chunkId).Nodup) (id : Id) (info : ChunkInfo Id)
    (h : (accumulate ftsScore vectorScore fts vector).lookup id = some info) :
    info.score = rawScore ftsScore vectorScore fts vector id ∧
      info.ftsRank = rankOf fts id ∧ info.vectorRank = rankOf vector id ∧
      ∃ source, resultOf (fts++vector) id = some source ∧ info.documentId = source.documentId ∧
        info.documentPath = source.documentPath ∧ info.content = source.content := by
  rw [accumulate_lookup ftsScore vectorScore fts vector hfts hvector] at h
  have happend : resultOf (fts++vector) id = (resultOf fts id).or (resultOf vector id) :=
    List.find?_append
  rw [rawScore, rankOf, rankOf, happend]
  cases hf : resultOf fts id with
  | none =>
    cases hv : resultOf vector id with
    | none => simp [hf, hv] at h
    | some v =>
      simp only [hf, hv, Option.some.injEq] at h
      rw [← h]
      exact ⟨(zero_add _).symm, rfl, rfl, v, rfl, rfl, rfl, rfl⟩
  | some f =>
    cases hv : resultOf vector id with
    | none =>
      simp only [hf, hv, Option.some.injEq] at h
      rw [← h]
      exact ⟨(add_zero _).symm, rfl, rfl, f, rfl, rfl, rfl, rfl⟩
    | some v =>
      simp only [hf, hv, Option.some.injEq] at h
      rw [← h]
      exact ⟨rfl, rfl, rfl, f, rfl, rfl, rfl, rfl⟩

theorem accumulate_mem (hfts : (fts.map RankedResult.chunkId).Nodup)
    (hvector : (vector.map RankedResult.chunkId).Nodup) (id : Id) :
    ((accumulate ftsScore vectorScore fts vector).lookup id).isSome ↔
      ∃ x ∈ fts++vector, x.chunkId = id := by
  have hany : (resultOf (fts++vector) id).isSome ↔ ∃ x ∈ fts++vector, x.chunkId = id := by
    rw [resultOf, List.find?_isSome]
    simp
  have happend : resultOf (fts++vector) id = (resultOf fts id).or (resultOf vector id) :=
    List.find?_append
  rw [← hany, accumulate_lookup ftsScore vectorScore fts vector hfts hvector, happend]
  cases resultOf fts id with
  | none => cases resultOf vector id <;> rfl
  | some f => cases resultOf vector id <;> rfl

end accumulation

section results

variable (order : MapOrder Id) (ftsScore vectorScore : ℕ → ℚ)
variable (fts vector : List (RankedResult Id))

def gathered : List (SearchResult Id) :=
  order.arrange ((accumulate ftsScore vectorScore fts vector).entries.map
    (fun e => toResult e.1 e.2))

theorem gathered_nodup :
    ((gathered order ftsScore vectorScore fts vector).map SearchResult.chunkId).Nodup := by
  have hperm := (order.arrange_perm ((accumulate ftsScore vectorScore fts vector).entries.map
    (fun e => toResult e.1 e.2))).map SearchResult.chunkId
  rw [gathered, hperm.nodup_iff, List.map_map]
  exact (accumulate ftsScore vectorScore fts vector).nodupKeys

theorem mem_gathered (r : SearchResult Id) :
    r ∈ gathered order ftsScore vectorScore fts vector ↔ ∃ info,
      (accumulate ftsScore vectorScore fts vector).lookup r.chunkId = some info ∧
        toResult r.chunkId info = r := by
  rw [gathered, (order.arrange_perm _).mem_iff, List.mem_map]
  constructor
  · rintro ⟨⟨id, info⟩, he, hr⟩
    have hid : id = r.chunkId := congrArg SearchResult.chunkId hr
    rw [← hid]
    exact ⟨info, AList.mem_lookup_iff.mpr he, hr⟩
  · rintro ⟨info, hinfo, hr⟩
    exact ⟨⟨r.chunkId, info⟩, AList.mem_lookup_iff.mp hinfo, hr⟩

theorem gathered_facts (hfts : (fts.map RankedResult.chunkId).Nodup)
    (hvector : (vector.map RankedResult.chunkId).Nodup) (r : SearchResult Id)
    (h : r ∈ gathered order ftsScore vectorScore fts vector) :
    r.score = rawScore ftsScore vectorScore fts vector r.chunkId ∧
      r.ftsRank = rankOf fts r.chunkId ∧ r.vectorRank = rankOf vector r.chunkId ∧
      ∃ source, resultOf (fts++vector) r.chunkId = some source ∧
        r.documentId = source.documentId ∧ r.documentPath = source.documentPath ∧
        r.content = source.content := by
  obtain ⟨info, hinfo, hr⟩ := (mem_gathered order ftsScore vectorScore fts vector r).mp h
  have hentry := accumulate_entry ftsScore vectorScore fts vector hfts hvector r.chunkId info hinfo
  rw [← hr]
  exact hentry

theorem gathered_chunk (hfts : (fts.map RankedResult.chunkId).Nodup)
    (hvector : (vector.map RankedResult.chunkId).Nodup) (id : Id) :
    (∃ r ∈ gathered order ftsScore vectorScore fts vector, r.chunkId = id) ↔
      ∃ x ∈ fts++vector, x.chunkId = id := by
  rw [← accumulate_mem ftsScore vectorScore fts vector hfts hvector, Option.isSome_iff_exists]
  constructor
  · rintro ⟨r, hr, hid⟩
    obtain ⟨info, hinfo, -⟩ := (mem_gathered order ftsScore vectorScore fts vector r).mp hr
    exact ⟨info, by rwa [hid] at hinfo⟩
  · rintro ⟨info, hinfo⟩
    exact ⟨toResult id info, (mem_gathered order ftsScore vectorScore fts vector _).mpr
      ⟨info, hinfo, rfl⟩, rfl⟩

theorem max?_congr (xs ys : List ℚ) (h : ∀ a, a ∈ xs ↔ a ∈ ys) : xs.max? = ys.max? := by
  apply Option.ext
  intro a
  rw [List.max?_eq_some_iff, List.max?_eq_some_iff, h]
  simp only [h]

theorem maxScore_gathered (hfts : (fts.map RankedResult.chunkId).Nodup)
    (hvector : (vector.map RankedResult.chunkId).Nodup) :
    maxScore (gathered order ftsScore vectorScore fts vector) =
      ((fts++vector).map
        (fun r => rawScore ftsScore vectorScore fts vector r.chunkId)).max? := by
  refine max?_congr _ _ (fun a => ?_)
  rw [List.mem_map, List.mem_map]
  constructor
  · rintro ⟨r, hr, ha⟩
    obtain ⟨x, hx, hid⟩ :=
      (gathered_chunk order ftsScore vectorScore fts vector hfts hvector r.chunkId).mp ⟨r, hr, rfl⟩
    have hscore := (gathered_facts order ftsScore vectorScore fts vector hfts hvector r hr).1
    exact ⟨x, hx, by rw [hid, ← hscore, ha]⟩
  · rintro ⟨x, hx, ha⟩
    obtain ⟨r, hr, hid⟩ := (gathered_chunk order ftsScore vectorScore fts vector hfts hvector
      x.chunkId).mpr ⟨x, hx, rfl⟩
    have hscore := (gathered_facts order ftsScore vectorScore fts vector hfts hvector r hr).1
    exact ⟨r, hr, by rw [hscore, hid, ha]⟩

/-- Every result gets its normalised score. -/
theorem normalize_gathered (hfts : (fts.map RankedResult.chunkId).Nodup)
    (hvector : (vector.map RankedResult.chunkId).Nodup) :
    normalize (gathered order ftsScore vectorScore fts vector) =
      (gathered order ftsScore vectorScore fts vector).map
        (rescored (normalScore ftsScore vectorScore fts vector)) := by
  have hmax := maxScore_gathered order ftsScore vectorScore fts vector hfts hvector
  have hscore : ∀ r ∈ gathered order ftsScore vectorScore fts vector,
      r.score = rawScore ftsScore vectorScore fts vector r.chunkId :=
    fun r hr => (gathered_facts order ftsScore vectorScore fts vector hfts hvector r hr).1
  rw [normalize]
  split
  · next top htop =>
    have hbest : topScore ftsScore vectorScore fts vector = top := by
      rw [topScore, ← hmax, htop]
      rfl
    split
    · next hpos =>
      refine List.map_congr_left (fun r hr => ?_)
      rw [rescored, normalScore, hbest, if_pos hpos, hscore r hr]
    · next hpos =>
      conv_lhs => rw [← List.map_id (gathered order ftsScore vectorScore fts vector)]
      refine List.map_congr_left (fun r hr => ?_)
      rw [rescored, normalScore, hbest, if_neg hpos, ← hscore r hr]
      rfl
  · next hnone =>
    have hnil := List.map_eq_nil_iff.mp (List.max?_eq_none_iff.mp hnone)
    rw [hnil]
    rfl

end results

def Fair (score : ℕ → ℚ) : Prop := ∀ a b, 1 ≤ a → a ≤ b → 0 ≤ score b ∧ score b ≤ score a

section order

variable {ftsScore vectorScore : ℕ → ℚ} {fts vector : List (RankedResult Id)}

theorem worth_mono (score : ℕ → ℚ) (hfair : Fair score) (a b : Option ℕ)
    (ha : ∀ n ∈ a, 1 ≤ n) (h : AsGood a b) : worth score b ≤ worth score a := by
  cases b with
  | none =>
    cases a with
    | none => exact le_refl _
    | some a => exact (hfair a a (ha a rfl) (le_refl a)).1
  | some b =>
    cases a with
    | none => exact absurd h (by simp [AsGood])
    | some a => exact (hfair a b (ha a rfl) h).2

theorem rankOf_pos (results : List (RankedResult Id)) (h : ∀ r ∈ results, 1 ≤ r.rank) (id : Id) :
    ∀ n ∈ rankOf results id, 1 ≤ n := by
  intro n hn
  obtain ⟨r, hr, hrank⟩ := Option.map_eq_some_iff.mp hn
  rw [← hrank]
  exact h r (List.mem_of_find?_eq_some hr)

theorem normalScore_mono (hf : Fair ftsScore) (hv : Fair vectorScore)
    (hfts : ∀ r ∈ fts, 1 ≤ r.rank) (hvector : ∀ r ∈ vector, 1 ≤ r.rank) (x y : Id)
    (hx : AsGood (rankOf fts x) (rankOf fts y)) (hy : AsGood (rankOf vector x) (rankOf vector y)) :
    normalScore ftsScore vectorScore fts vector y ≤
      normalScore ftsScore vectorScore fts vector x := by
  have hraw : rawScore ftsScore vectorScore fts vector y ≤
      rawScore ftsScore vectorScore fts vector x :=
    add_le_add (worth_mono ftsScore hf _ _ (rankOf_pos fts hfts x) hx)
      (worth_mono vectorScore hv _ _ (rankOf_pos vector hvector x) hy)
  rw [normalScore, normalScore]
  split
  · next hpos => exact div_le_div_of_nonneg_right hraw (le_of_lt hpos)
  · exact hraw

omit [DecidableEq Id] in
theorem mem_keepScores (minScore : ℚ) (results : List (SearchResult Id)) (r : SearchResult Id)
    (h : r ∈ keepScores minScore results) : r ∈ results := by
  rw [keepScores] at h
  split at h
  · exact (List.mem_filter.mp h).1
  · exact h

omit [DecidableEq Id] in
theorem keepScores_left (minScore : ℚ) (results : List (SearchResult Id)) (r : SearchResult Id)
    (hr : r ∈ results) : r.score < minScore ∨ r ∈ keepScores minScore results := by
  rw [keepScores]
  split
  · obtain hlow | hkept := lt_or_ge r.score minScore
    · exact Or.inl hlow
    · exact Or.inr (List.mem_filter.mpr ⟨hr, decide_eq_true hkept⟩)
  · exact Or.inr hr

omit [DecidableEq Id] in
theorem keepScores_sublist (minScore : ℚ) (results : List (SearchResult Id)) :
    (keepScores minScore results).Sublist results := by
  rw [keepScores]
  split
  · exact List.filter_sublist
  · exact List.Sublist.refl _

theorem fuse_eq (mapOrder : MapOrder Id) (config : SearchConfig)
    (hfts : (fts.map RankedResult.chunkId).Nodup)
    (hvector : (vector.map RankedResult.chunkId).Nodup) :
    fuse mapOrder ftsScore vectorScore fts vector config =
      best SearchResult.score config.limit (keepScores config.minScore
        ((gathered mapOrder ftsScore vectorScore fts vector).map
          (rescored (normalScore ftsScore vectorScore fts vector)))) := by
  rw [← normalize_gathered mapOrder ftsScore vectorScore fts vector hfts hvector]
  rfl

omit [DecidableEq Id] in
/-- A chunk that is not among the best ones scores too low, or there is no room. -/
theorem best_missing (score : Id → ℚ) (config : SearchConfig) (results : List (SearchResult Id))
    (r : SearchResult Id) (hr : r ∈ results)
    (hmissing : r.chunkId ∉ (best SearchResult.score config.limit
      (keepScores config.minScore (results.map (rescored score)))).map SearchResult.chunkId) :
    score r.chunkId < config.minScore ∨
      (best SearchResult.score config.limit
        (keepScores config.minScore (results.map (rescored score)))).length = config.limit ∧
      ∀ last ∈ (best SearchResult.score config.limit
        (keepScores config.minScore (results.map (rescored score)))).getLast?,
        score r.chunkId ≤ last.score := by
  have hin : rescored score r ∈ results.map (rescored score) := List.mem_map_of_mem hr
  obtain hlow | hkept := keepScores_left config.minScore _ _ hin
  · exact Or.inl hlow
  · have hout : rescored score r ∉ best SearchResult.score config.limit
        (keepScores config.minScore (results.map (rescored score))) :=
      fun h => hmissing (List.mem_map.mpr ⟨_, h, rfl⟩)
    obtain ⟨hfull, hbetter⟩ := best_left SearchResult.score config.limit _ _ hkept hout
    exact Or.inr ⟨hfull, fun last hlast => hbetter last (List.mem_of_getLast? hlast)⟩

/-- The two fusions in one: any fair scores do. -/
theorem fuse_fused (mapOrder : MapOrder Id) (config : SearchConfig) (hf : Fair ftsScore)
    (hv : Fair vectorScore) (hfts : (fts.map RankedResult.chunkId).Nodup)
    (hvector : (vector.map RankedResult.chunkId).Nodup) (hftsRanks : ∀ r ∈ fts, 1 ≤ r.rank)
    (hvectorRanks : ∀ r ∈ vector, 1 ≤ r.rank) :
    Fused ftsScore vectorScore fts vector config
      (fuse mapOrder ftsScore vectorScore fts vector config) := by
  rw [fuse_eq mapOrder config hfts hvector]
  have hsource : ∀ r ∈ best SearchResult.score config.limit (keepScores config.minScore
      ((gathered mapOrder ftsScore vectorScore fts vector).map
        (rescored (normalScore ftsScore vectorScore fts vector)))),
      ∃ g ∈ gathered mapOrder ftsScore vectorScore fts vector,
        rescored (normalScore ftsScore vectorScore fts vector) g = r :=
    fun r hr => List.mem_map.mp (mem_keepScores _ _ _ (best_subset _ _ _ _ hr))
  have hfacts := gathered_facts mapOrder ftsScore vectorScore fts vector hfts hvector
  refine {
    distinct := ?_
    sourced := ?_
    ranks := ?_
    scores := ?_
    sorted := best_sorted _ _ _
    limited := best_length _ _ _
    left := ?_
    dominance := fun x _ y _ => normalScore_mono hf hv hftsRanks hvectorRanks x.chunkId y.chunkId }
  · refine best_nodup _ _ _ _ (((keepScores_sublist _ _).map _).nodup ?_)
    rw [List.map_map]
    exact gathered_nodup mapOrder ftsScore vectorScore fts vector
  · intro r hr
    obtain ⟨g, hg, hgr⟩ := hsource r hr
    rw [← hgr]
    exact (hfacts g hg).2.2.2
  · intro r hr
    obtain ⟨g, hg, hgr⟩ := hsource r hr
    rw [← hgr]
    exact ⟨(hfacts g hg).2.1, (hfacts g hg).2.2.1⟩
  · intro r hr
    obtain ⟨g, hg, hgr⟩ := hsource r hr
    rw [← hgr]
    rfl
  · intro x hx hmissing
    obtain ⟨g, hg, hgid⟩ := (gathered_chunk mapOrder ftsScore vectorScore fts vector hfts hvector
      x.chunkId).mpr ⟨x, hx, rfl⟩
    rw [← hgid] at hmissing ⊢
    exact best_missing _ config _ g hg hmissing

end order

theorem rrfScore_fair (config : SearchConfig) : Fair (rrfScore config) := by
  intro a b ha hab
  have hcast : (1 : ℚ) ≤ a := by exact_mod_cast ha
  have hle : (a : ℚ) ≤ b := by exact_mod_cast hab
  have hk : (0 : ℚ) ≤ config.rrfK := Nat.cast_nonneg _
  constructor
  · rw [rrfScore]
    positivity
  · exact one_div_le_one_div_of_le (by linarith) (by linarith)

theorem weightedScore_fair (weight : ℚ) (hweight : 0 ≤ weight) : Fair (weightedScore weight) := by
  intro a b ha hab
  have hcast : (1 : ℚ) ≤ a := by exact_mod_cast ha
  have hle : (a : ℚ) ≤ b := by exact_mod_cast hab
  constructor
  · rw [weightedScore]
    positivity
  · exact mul_le_mul_of_nonneg_left (one_div_le_one_div_of_le (by linarith) hle) hweight

/-- Both fusions return the best of the chunks with their ranks; a chunk that is
ranked as well as another in both lists never scores less. -/
theorem fusion_fused (order : MapOrder Id) (fts vector : List (RankedResult Id))
    (config : SearchConfig) (hfts : (fts.map RankedResult.chunkId).Nodup)
    (hvector : (vector.map RankedResult.chunkId).Nodup) (hftsRanks : ∀ r ∈ fts, 1 ≤ r.rank)
    (hvectorRanks : ∀ r ∈ vector, 1 ≤ r.rank) :
    Fused (rrfScore config) (rrfScore config) fts vector config
      (reciprocalRankFusion order fts vector config) ∧
    (0 ≤ config.ftsWeight → 0 ≤ config.vectorWeight →
      Fused (weightedScore config.ftsWeight) (weightedScore config.vectorWeight) fts vector config
        (weightedScoreFusion order fts vector config)) :=
  ⟨fuse_fused order config (rrfScore_fair config) (rrfScore_fair config) hfts hvector hftsRanks
      hvectorRanks,
    fun hf hv => fuse_fused order config (weightedScore_fair _ hf) (weightedScore_fair _ hv) hfts
      hvector hftsRanks hvectorRanks⟩

def plainOrder (Id : Type) : MapOrder Id := ⟨id, fun results => List.Perm.refl results⟩

def usualConfig : SearchConfig := ⟨10, 60, 0, 1/2, 1/2⟩

theorem fusion_fused_two :
    Fused (rrfScore usualConfig) (rrfScore usualConfig) [⟨1, 7, "a.md", "a", 1⟩, ⟨2, 7, "a.md", "b", 2⟩]
      [⟨2, 7, "a.md", "b", 1⟩] usualConfig (reciprocalRankFusion (plainOrder ℕ)
        [⟨1, 7, "a.md", "a", 1⟩, ⟨2, 7, "a.md", "b", 2⟩] [⟨2, 7, "a.md", "b", 1⟩] usualConfig) ∧
    Fused (weightedScore (1/2)) (weightedScore (1/2))
      [⟨1, 7, "a.md", "a", 1⟩, ⟨2, 7, "a.md", "b", 2⟩] [⟨2, 7, "a.md", "b", 1⟩] usualConfig
      (weightedScoreFusion (plainOrder ℕ) [⟨1, 7, "a.md", "a", 1⟩, ⟨2, 7, "a.md", "b", 2⟩]
        [⟨2, 7, "a.md", "b", 1⟩] usualConfig) := by
  have hboth := fusion_fused (plainOrder ℕ) [⟨1, 7, "a.md", "a", 1⟩, ⟨2, 7, "a.md", "b", 2⟩]
    [⟨2, 7, "a.md", "b", 1⟩] usualConfig (by decide) (by decide) (by decide) (by decide)
  exact ⟨hboth.1, hboth.2 (by norm_num [usualConfig]) (by norm_num [usualConfig])⟩

end IronClaw.SearchFusion
