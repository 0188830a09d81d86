import Mathlib.Algebra.Order.BigOperators.Group.List
import Mathlib.Data.Nat.SuccPred
import IronClaw.SkillRegistry
import IronClaw.Lib.Ranking

/-!
# The selection of skills for a message

Before a turn the loaded skills are scored against the message, and the best
ones are taken as long as their cost fits into a budget. A skill costs what it
declares, unless its prompt is estimated at more than twice that number, and
then the estimate. Arithmetic that leaves its type has no result.
-/

set_option autoImplicit false

namespace IronClaw.SkillSelector
open IronClaw.SkillRegistry (approxTokens)
open Lib.Text Lib.Letters Lib.Ranking

def lowered (t : Tables) (s : String) : String := String.ofList (toLowercase t s.toList)

structure LoadedSkill (t : Tables) extends SkillRegistry.LoadedSkill where
  compiledPatterns : List (String → Bool)
  lowercasedKeywords : List String
  lowercasedExcludeKeywords : List String
  lowercasedTags : List String
  keywords_lowered : lowercasedKeywords = manifest.activation.keywords.map (lowered t)
  excludes_lowered :
    lowercasedExcludeKeywords = manifest.activation.excludeKeywords.map (lowered t)
  tags_lowered : lowercasedTags = manifest.activation.tags.map (lowered t)

def prepare (t : Tables) (compile : String → Option (String → Bool))
    (skill : SkillRegistry.LoadedSkill) : LoadedSkill t where
  toLoadedSkill := skill
  compiledPatterns := skill.manifest.activation.patterns.filterMap compile
  lowercasedKeywords := skill.manifest.activation.keywords.map (lowered t)
  lowercasedExcludeKeywords := skill.manifest.activation.excludeKeywords.map (lowered t)
  lowercasedTags := skill.manifest.activation.tags.map (lowered t)
  keywords_lowered := rfl
  excludes_lowered := rfl
  tags_lowered := rfl

section

variable {t : Tables} (isAlphanumeric : Char → Bool)

def maxKeywordScore : ℕ := 30

def maxTagScore : ℕ := 15

def maxRegexScore : ℕ := 40

def trimWord (word : List Char) : List Char :=
  (word.dropWhile (fun c => !isAlphanumeric c)).rdropWhile (fun c => !isAlphanumeric c)

def exactMatch (messageLower keyword : String) : Bool :=
  (splitWhitespace messageLower).any
    (fun word => trimWord isAlphanumeric word.toList = keyword.toList)

def keywordPoints (messageLower keyword : String) : ℕ :=
  if exactMatch isAlphanumeric messageLower keyword then 10
  else if contains messageLower keyword then 5
  else 0

def tagPoints (messageLower tag : String) : ℕ := if contains messageLower tag then 3 else 0

def regexPoints (messageOriginal : String) (isMatch : String → Bool) : ℕ :=
  if isMatch messageOriginal then 20 else 0

def tally {α : Type} (points : α → ℕ) : ℕ → List α → Option ℕ
  | score, [] => some score
  | score, x::xs => if score+points x < 2^32 then tally points (score+points x) xs else none

def scoreSkill (skill : LoadedSkill t) (messageLower messageOriginal : String) : Option ℕ :=
  if skill.lowercasedExcludeKeywords.any (contains messageLower) then some 0
  else
    (tally (keywordPoints isAlphanumeric messageLower) 0 skill.lowercasedKeywords).bind
      fun keywordScore => (tally (tagPoints messageLower) 0 skill.lowercasedTags).bind
      fun tagScore => (tally (regexPoints messageOriginal) 0 skill.compiledPatterns).map
      fun regexScore => min keywordScore maxKeywordScore+min tagScore maxTagScore+
        min regexScore maxRegexScore

structure SkillRef (t : Tables) where
  index : ℕ
  skill : LoadedSkill t

structure ScoredSkill (t : Tables) where
  ref : SkillRef t
  score : ℕ

def scoreAll (messageLower message : String) :
    ℕ → List (LoadedSkill t) → Option (List (ScoredSkill t))
  | _, [] => some []
  | i, skill::skills =>
    (scoreSkill isAlphanumeric skill messageLower message).bind fun score =>
      (scoreAll messageLower message (i+1) skills).map fun scored =>
        if 0 < score then ⟨⟨i, skill⟩, score⟩::scored else scored

def charge (skill : LoadedSkill t) : ℕ :=
  max (if skill.manifest.activation.maxContextTokens*2 < approxTokens skill.promptContent then
      approxTokens skill.promptContent
    else skill.manifest.activation.maxContextTokens) 1

def tokenCost (skill : LoadedSkill t) : Option ℕ :=
  if skill.manifest.activation.maxContextTokens*2 < 2^64 then some (charge skill) else none

def takeWithin (maxCandidates : ℕ) :
    ℕ → ℕ → List (ScoredSkill t) → Option (List (ScoredSkill t))
  | _, _, [] => some []
  | taken, budgetRemaining, entry::scored =>
    if maxCandidates ≤ taken then some []
    else (tokenCost entry.ref.skill).bind fun cost =>
      if cost ≤ budgetRemaining then
        (takeWithin maxCandidates (taken+1) (budgetRemaining-cost) scored).map
          fun result => entry::result
      else takeWithin maxCandidates taken budgetRemaining scored

def prefilterSkills (message : String) (availableSkills : List (LoadedSkill t))
    (maxCandidates maxContextTokens : ℕ) : Option (List (SkillRef t)) :=
  if availableSkills.isEmpty || message.isEmpty then some []
  else (scoreAll isAlphanumeric (lowered t message) message 0 availableSkills).bind fun scored =>
    (takeWithin maxCandidates 0 maxContextTokens (ranked ScoredSkill.score scored)).map
      fun result => result.map ScoredSkill.ref

structure Moderate (skill : LoadedSkill t) : Prop where
  keywords : 10*skill.manifest.activation.keywords.length < 2^32
  tags : 3*skill.manifest.activation.tags.length < 2^32
  patterns : 20*skill.compiledPatterns.length < 2^32
  declared : skill.manifest.activation.maxContextTokens < 2^63

def scoreOf (message : String) (skill : LoadedSkill t) : ℕ :=
  (scoreSkill isAlphanumeric skill (lowered t message) message).getD 0

def estimated (result : List (SkillRef t)) : ℕ :=
  (result.map (fun r => approxTokens r.skill.promptContent)).sum

def charged (result : List (SkillRef t)) : ℕ := (result.map (fun r => charge r.skill)).sum

structure Selected (message : String) (availableSkills : List (LoadedSkill t))
    (maxCandidates : ℕ) (result : List (SkillRef t)) : Prop where
  listed : ∀ r ∈ result, availableSkills[r.index]? = some r.skill
  distinct : (result.map SkillRef.index).Nodup
  positive : ∀ r ∈ result, 0 < scoreOf isAlphanumeric message r.skill
  admitted : ∀ r ∈ result, ∀ keyword ∈ r.skill.manifest.activation.excludeKeywords,
    contains (lowered t message) (lowered t keyword) = false
  ordered : result.Pairwise
    (fun a b => scoreOf isAlphanumeric message b.skill ≤ scoreOf isAlphanumeric message a.skill)
  few : result.length ≤ maxCandidates

theorem tally_some {α : Type} (points : α → ℕ) (most : ℕ) (hmost : ∀ x, points x ≤ most)
    (score : ℕ) (xs : List α) (h : score+most*xs.length < 2^32) :
    ∃ total, tally points score xs = some total := by
  induction xs generalizing score with
  | nil => exact ⟨score, rfl⟩
  | cons x xs ih =>
    have hx := hmost x
    rw [List.length_cons, Nat.mul_add, Nat.mul_one] at h
    rw [tally, if_pos (by omega)]
    exact ih (score+points x) (by omega)

theorem keywordPoints_le (messageLower keyword : String) :
    keywordPoints isAlphanumeric messageLower keyword ≤ 10 := by
  unfold keywordPoints
  split
  · exact Nat.le_refl _
  · split <;> omega

theorem tagPoints_le (messageLower tag : String) : tagPoints messageLower tag ≤ 3 := by
  unfold tagPoints
  split <;> omega

theorem regexPoints_le (message : String) (isMatch : String → Bool) :
    regexPoints message isMatch ≤ 20 := by
  unfold regexPoints
  split <;> omega

variable (lower message : String) (skill : LoadedSkill t)

theorem scoreSkill_some (h : Moderate skill) (lower message : String) :
    ∃ score, scoreSkill isAlphanumeric skill lower message = some score := by
  have hkeywords := h.keywords
  have htags := h.tags
  have hpatterns := h.patterns
  obtain ⟨keywordScore, hk⟩ := tally_some (keywordPoints isAlphanumeric lower) 10
    (keywordPoints_le isAlphanumeric lower) 0 skill.lowercasedKeywords (by
      rw [skill.keywords_lowered, List.length_map]
      omega)
  obtain ⟨tagScore, ht⟩ := tally_some (tagPoints lower) 3 (tagPoints_le lower) 0
    skill.lowercasedTags (by
      rw [skill.tags_lowered, List.length_map]
      omega)
  obtain ⟨regexScore, hr⟩ := tally_some (regexPoints message) 20 (regexPoints_le message) 0
    skill.compiledPatterns (by omega)
  unfold scoreSkill
  split
  · exact ⟨0, rfl⟩
  · rw [hk, ht, hr]
    exact ⟨_, rfl⟩

theorem scoreSkill_admitted (lower message : String) (score : ℕ)
    (h : scoreSkill isAlphanumeric skill lower message = some score) (hpos : 0 < score) :
    ∀ keyword ∈ skill.manifest.activation.excludeKeywords,
      contains lower (lowered t keyword) = false := by
  unfold scoreSkill at h
  split at h
  · cases h
    omega
  · next hveto =>
    intro keyword hin
    rw [skill.excludes_lowered, List.any_map, List.any_eq_true] at hveto
    exact Bool.eq_false_iff.mpr (fun hc => hveto ⟨keyword, hin, hc⟩)

theorem scoreAll_some (i : ℕ) (skills : List (LoadedSkill t))
    (h : ∀ skill ∈ skills, Moderate skill) :
    ∃ scored, scoreAll isAlphanumeric lower message i skills = some scored := by
  induction skills generalizing i with
  | nil => exact ⟨[], rfl⟩
  | cons skill skills ih =>
    obtain ⟨score, hscore⟩ :=
      scoreSkill_some isAlphanumeric skill (h skill List.mem_cons_self) lower message
    obtain ⟨scored, hscored⟩ := ih (i+1) (fun s hs => h s (List.mem_cons_of_mem skill hs))
    rw [scoreAll, hscore, Option.bind_some, hscored]
    exact ⟨_, rfl⟩

theorem scoreAll_cons (i : ℕ) (skill : LoadedSkill t) (skills : List (LoadedSkill t))
    (scored : List (ScoredSkill t))
    (h : scoreAll isAlphanumeric lower message i (skill::skills) = some scored) :
    ∃ score rest, scoreSkill isAlphanumeric skill lower message = some score ∧
      scoreAll isAlphanumeric lower message (i+1) skills = some rest ∧
      scored = if 0 < score then ⟨⟨i, skill⟩, score⟩::rest else rest := by
  rw [scoreAll, Option.bind_eq_some_iff] at h
  obtain ⟨score, hscore, h⟩ := h
  obtain ⟨rest, hrest, h⟩ := Option.map_eq_some_iff.mp h
  exact ⟨score, rest, hscore, hrest, h.symm⟩

/-- Every scored entry is a skill of the list with its own, positive score. -/
theorem scoreAll_mem (i : ℕ) (skills : List (LoadedSkill t)) (scored : List (ScoredSkill t))
    (h : scoreAll isAlphanumeric lower message i skills = some scored) :
    ∀ e ∈ scored, i ≤ e.ref.index ∧ skills[e.ref.index-i]? = some e.ref.skill ∧ 0 < e.score ∧
      scoreSkill isAlphanumeric e.ref.skill lower message = some e.score := by
  induction skills generalizing i scored with
  | nil =>
    cases h
    intro e he
    cases he
  | cons skill skills ih =>
    obtain ⟨score, rest, hscore, hrest, rfl⟩ := scoreAll_cons isAlphanumeric _ _ _ _ _ _ h
    have hlater : ∀ e ∈ rest, i ≤ e.ref.index ∧ (skill::skills)[e.ref.index-i]? = some e.ref.skill ∧
        0 < e.score ∧ scoreSkill isAlphanumeric e.ref.skill lower message = some e.score := by
      intro e he
      obtain ⟨hi, hget, hpos, hown⟩ := ih (i+1) rest hrest e he
      have hindex : e.ref.index-i = e.ref.index-(i+1)+1 := by omega
      refine ⟨by omega, ?_, hpos, hown⟩
      rw [hindex, List.getElem?_cons_succ, hget]
    intro e he
    split at he
    · next hpos =>
      rcases List.mem_cons.mp he with rfl | he
      · exact ⟨Nat.le_refl i, by simp, hpos, hscore⟩
      · exact hlater e he
    · exact hlater e he

theorem scoreAll_distinct (i : ℕ) (skills : List (LoadedSkill t)) (scored : List (ScoredSkill t))
    (h : scoreAll isAlphanumeric lower message i skills = some scored) :
    (scored.map (fun e => e.ref.index)).Nodup := by
  induction skills generalizing i scored with
  | nil =>
    cases h
    exact List.nodup_nil
  | cons skill skills ih =>
    obtain ⟨score, rest, -, hrest, rfl⟩ := scoreAll_cons isAlphanumeric _ _ _ _ _ _ h
    have hdistinct := ih (i+1) rest hrest
    split
    · rw [List.map_cons, List.nodup_cons]
      refine ⟨fun hin => ?_, hdistinct⟩
      obtain ⟨e, he, hindex⟩ := List.mem_map.mp hin
      have := (scoreAll_mem isAlphanumeric lower message (i+1) skills rest hrest e he).1
      simp only at hindex
      omega
    · exact hdistinct

theorem estimate_le :
    approxTokens skill.promptContent ≤ 2*charge skill := by
  unfold charge
  split <;> omega

theorem tokenCost_some (cost : ℕ) (h : tokenCost skill = some cost) :
    cost = charge skill := by
  unfold tokenCost at h
  split at h
  · exact (Option.some.inj h).symm
  · cases h

theorem takeWithin_some (maxCandidates taken budget : ℕ) (scored : List (ScoredSkill t))
    (h : ∀ e ∈ scored, e.ref.skill.manifest.activation.maxContextTokens < 2^63) :
    ∃ result, takeWithin maxCandidates taken budget scored = some result := by
  induction scored generalizing taken budget with
  | nil => exact ⟨[], by rw [takeWithin]⟩
  | cons entry scored ih =>
    have hentry := h entry List.mem_cons_self
    have hscored := fun e he => h e (List.mem_cons_of_mem entry he)
    rw [takeWithin]
    split
    · exact ⟨[], rfl⟩
    · rw [tokenCost, if_pos (by omega), Option.bind_some]
      split
      · obtain ⟨result, hresult⟩ := ih (taken+1) (budget-charge entry.ref.skill) hscored
        exact ⟨entry::result, by rw [hresult]; rfl⟩
      · exact ih taken budget hscored

/-- The loop passes over entries, and charges those that it takes. -/
theorem takeWithin_kept (maxCandidates taken budget : ℕ) (scored result : List (ScoredSkill t))
    (h : takeWithin maxCandidates taken budget scored = some result) :
    result.Sublist scored ∧ (result ≠ [] → taken+result.length ≤ maxCandidates) ∧
      (result.map (fun e => charge e.ref.skill)).sum ≤ budget := by
  induction scored generalizing taken budget result with
  | nil =>
    rw [takeWithin] at h
    cases h
    exact ⟨List.Sublist.refl [], fun hne => absurd rfl hne, Nat.zero_le _⟩
  | cons entry scored ih =>
    rw [takeWithin] at h
    split at h
    · cases h
      exact ⟨List.nil_sublist _, fun hne => absurd rfl hne, Nat.zero_le _⟩
    · next hroom =>
      obtain ⟨cost, hcost, h⟩ := Option.bind_eq_some_iff.mp h
      rw [tokenCost_some entry.ref.skill cost hcost] at h
      split at h
      · next hfits =>
        obtain ⟨rest, hrest, rfl⟩ := Option.map_eq_some_iff.mp h
        obtain ⟨hsub, hfew, hsum⟩ := ih _ _ rest hrest
        refine ⟨hsub.cons_cons entry, fun _ => ?_, ?_⟩
        · by_cases hnil : rest = []
          · rw [hnil, List.length_singleton]
            omega
          · have := hfew hnil
            rw [List.length_cons]
            omega
        · rw [List.map_cons, List.sum_cons]
          omega
      · obtain ⟨hsub, hfew, hsum⟩ := ih _ _ result h
        exact ⟨hsub.cons entry, hfew, hsum⟩

theorem estimated_le (result : List (SkillRef t)) : estimated result ≤ 2*charged result := by
  unfold estimated charged
  induction result with
  | nil => exact Nat.zero_le _
  | cons r result ih =>
    have hr := estimate_le r.skill
    simp only [List.map_cons, List.sum_cons]
    omega

theorem prefilter_some (message : String) (availableSkills : List (LoadedSkill t))
    (maxCandidates maxContextTokens : ℕ) (h : ∀ skill ∈ availableSkills, Moderate skill) :
    ∃ result, prefilterSkills isAlphanumeric message availableSkills maxCandidates
      maxContextTokens = some result := by
  unfold prefilterSkills
  split
  · exact ⟨[], rfl⟩
  · obtain ⟨scored, hscored⟩ :=
      scoreAll_some isAlphanumeric (lowered t message) message 0 availableSkills h
    rw [hscored, Option.bind_some]
    have hdeclared : ∀ e ∈ ranked ScoredSkill.score scored,
        e.ref.skill.manifest.activation.maxContextTokens < 2^63 := by
      intro e he
      have hin := (ranked_perm ScoredSkill.score scored).mem_iff.mp he
      have hget := (scoreAll_mem isAlphanumeric _ _ _ _ _ hscored e hin).2.1
      exact (h e.ref.skill (List.mem_of_getElem? hget)).declared
    obtain ⟨result, hresult⟩ := takeWithin_some maxCandidates 0 maxContextTokens _ hdeclared
    exact ⟨_, by rw [hresult]; rfl⟩

theorem prefilter_selected (message : String) (availableSkills : List (LoadedSkill t))
    (maxCandidates maxContextTokens : ℕ) (result : List (SkillRef t))
    (h : prefilterSkills isAlphanumeric message availableSkills maxCandidates maxContextTokens =
      some result) :
    Selected isAlphanumeric message availableSkills maxCandidates result ∧
      charged result ≤ maxContextTokens := by
  unfold prefilterSkills at h
  split at h
  · cases h
    exact ⟨⟨by simp, by simp, by simp, by simp, List.Pairwise.nil, Nat.zero_le _⟩, Nat.zero_le _⟩
  · obtain ⟨scored, hscored, h⟩ := Option.bind_eq_some_iff.mp h
    obtain ⟨taken, htaken, rfl⟩ := Option.map_eq_some_iff.mp h
    obtain ⟨hsub, hfew, hsum⟩ := takeWithin_kept _ _ _ _ _ htaken
    have hperm := ranked_perm ScoredSkill.score scored
    have hentry : ∀ e ∈ taken, availableSkills[e.ref.index]? = some e.ref.skill ∧ 0 < e.score ∧
        scoreSkill isAlphanumeric e.ref.skill (lowered t message) message = some e.score := by
      intro e he
      have hin := hperm.mem_iff.mp (hsub.subset he)
      exact (scoreAll_mem isAlphanumeric _ _ _ _ _ hscored e hin).2
    have hscore : ∀ e ∈ taken, scoreOf isAlphanumeric message e.ref.skill = e.score := by
      intro e he
      rw [scoreOf, (hentry e he).2.2, Option.getD_some]
    have hsorted := (ranked_sorted ScoredSkill.score scored).sublist hsub
    have hindices := (((hperm.map (fun e => e.ref.index)).nodup_iff).mpr
      (scoreAll_distinct isAlphanumeric _ _ _ _ _ hscored)).sublist (hsub.map _)
    refine ⟨⟨?_, ?_, ?_, ?_, ?_, ?_⟩, ?_⟩
    · rw [List.forall_mem_map]
      exact fun e he => (hentry e he).1
    · rw [List.map_map]
      exact hindices
    · rw [List.forall_mem_map]
      intro e he
      rw [hscore e he]
      exact (hentry e he).2.1
    · rw [List.forall_mem_map]
      intro e he
      obtain ⟨-, hpos, hown⟩ := hentry e he
      exact scoreSkill_admitted isAlphanumeric _ _ _ _ hown hpos
    · rw [List.pairwise_map]
      refine hsorted.imp_of_mem (fun ha hb hab => ?_)
      rwa [hscore _ ha, hscore _ hb]
    · rw [List.length_map]
      by_cases hnil : taken = []
      · rw [hnil]
        exact Nat.zero_le _
      · have := hfew hnil
        omega
    · rw [charged, List.map_map]
      exact hsum

/-- The budget holds for what is charged, and up to the factor two for what the
prompts are estimated at. -/
theorem selection_budgeted (message : String) (availableSkills : List (LoadedSkill t))
    (maxCandidates maxContextTokens : ℕ) :
    ((∀ skill ∈ availableSkills, Moderate skill) →
        ∃ result, prefilterSkills isAlphanumeric message availableSkills maxCandidates
          maxContextTokens = some result) ∧
      ∀ result, prefilterSkills isAlphanumeric message availableSkills maxCandidates
          maxContextTokens = some result →
        Selected isAlphanumeric message availableSkills maxCandidates result ∧
          charged result ≤ maxContextTokens ∧ estimated result ≤ 2*maxContextTokens ∧
          ((∀ r ∈ result, approxTokens r.skill.promptContent ≤ charge r.skill) →
            estimated result ≤ maxContextTokens) := by
  refine ⟨prefilter_some isAlphanumeric message availableSkills maxCandidates maxContextTokens,
    fun result h => ?_⟩
  obtain ⟨hselected, hcharged⟩ := prefilter_selected isAlphanumeric _ _ _ _ result h
  have htwice := estimated_le result
  refine ⟨hselected, hcharged, by omega, fun hwithin => ?_⟩
  have hsum : estimated result ≤ charged result := List.sum_le_sum hwithin
  omega

end

def plainTables : Tables := ⟨fun c => [c.toLower], fun c => c.isAlpha, fun _ => false⟩

def declaring (maxContextTokens : ℕ) : LoadedSkill plainTables :=
  prepare plainTables (fun _ => none)
    ⟨⟨"deploy", "1.0.0", "", ⟨["deploy"], [], [], [], maxContextTokens⟩, none⟩, "12345678",
      .trusted, .user ⟨.user, some "deploy"⟩, false⟩

theorem declaring_scored (n : ℕ) : scoreAll Char.isAlphanum (lowered plainTables "deploy") "deploy"
    0 [declaring n] = some [⟨⟨0, declaring n⟩, 10⟩] := by
  have hscore : scoreSkill Char.isAlphanum (declaring n) (lowered plainTables "deploy") "deploy" =
      some 10 := by
    change scoreSkill Char.isAlphanum (declaring 0) _ _ = _
    decide
  rw [scoreAll, hscore]
  rfl

/-- A skill that declares half of its estimate exceeds a budget of one, and a
declaration of `2^63` cannot be doubled. -/
theorem estimate_exceeds :
    (∃ result, prefilterSkills Char.isAlphanum "deploy" [declaring 1] 1 1 = some result ∧
        1 < estimated result) ∧
      prefilterSkills Char.isAlphanum "deploy" [declaring (2^63)] 1 1 = none := by
  have hranked (n : ℕ) : ranked ScoredSkill.score [(⟨⟨0, declaring n⟩, 10⟩ : ScoredSkill _)] =
      [⟨⟨0, declaring n⟩, 10⟩] := List.mergeSort_singleton _
  have hrun (n : ℕ) : prefilterSkills Char.isAlphanum "deploy" [declaring n] 1 1 =
      (takeWithin 1 0 1 [⟨⟨0, declaring n⟩, 10⟩]).map
        (fun result => result.map ScoredSkill.ref) := by
    have hnonempty : ¬([declaring n].isEmpty || "deploy".isEmpty) = true := by
      change ¬"deploy".isEmpty = true
      decide
    rw [prefilterSkills, if_neg hnonempty, declaring_scored, Option.bind_some, hranked]
  constructor
  · refine ⟨[⟨0, declaring 1⟩], ?_, ?_⟩
    · rw [hrun]
      rfl
    · decide
  · rw [hrun]
    rfl

end IronClaw.SkillSelector
