import Mathlib.Data.List.Basic

/-!
# Codes that end where they end

A code is delimited when a word can be told apart from whatever follows it. A
text of such words is one in only one way, and a word that no part of a text
contains marks where the text ends.
-/

set_option autoImplicit false

namespace Lib.PrefixCode

variable {α γ : Type*}

def Delimited (enc : α → List γ) : Prop :=
  ∀ a b s t, enc a++s = enc b++t → a = b ∧ s = t

/-- A run of one class of symbols ends where another symbol follows. -/
theorem run_split (p : γ → Bool) (u v s t : List γ) (hu : ∀ c ∈ u, p c = true)
    (hv : ∀ c ∈ v, p c = true) (hs : ∀ c ∈ s.head?, p c = false)
    (ht : ∀ c ∈ t.head?, p c = false) (h : u++s = v++t) : u = v ∧ s = t := by
  have hrun : ∀ u s : List γ, (∀ c ∈ u, p c = true) → (∀ c ∈ s.head?, p c = false) →
      (u++s).takeWhile p = u := by
    intro u s hu hs
    rw [List.takeWhile_append_of_pos hu]
    cases s with
    | nil => simp
    | cons c s => simp [hs c rfl]
  have huv : u = v := by rw [← hrun u s hu hs, h, hrun v t hv ht]
  rw [huv] at h
  exact ⟨huv, List.append_cancel_left h⟩

section Text

variable (enc : α → List γ) (hd : Delimited enc)

include hd

/-- Of two texts at the start of the same word list one continues the other. -/
theorem text_overlap (p q : List α) (s t : List γ) (h : p.flatMap enc++s = q.flatMap enc++t) :
    (∃ r, q = p++r ∧ s = r.flatMap enc++t) ∨ (∃ r, p = q++r ∧ t = r.flatMap enc++s) := by
  induction p generalizing q with
  | nil => exact Or.inl ⟨q, rfl, h⟩
  | cons a p ih =>
    cases q with
    | nil => exact Or.inr ⟨a::p, rfl, h.symm⟩
    | cons b q =>
      rw [List.flatMap_cons, List.flatMap_cons, List.append_assoc, List.append_assoc] at h
      obtain ⟨hab, hrest⟩ := hd a b _ _ h
      rcases ih q hrest with ⟨r, hq, hs⟩ | ⟨r, hp, ht⟩
      · exact Or.inl ⟨r, by rw [hab, hq, List.cons_append], hs⟩
      · exact Or.inr ⟨r, by rw [hab, hp, List.cons_append], ht⟩

theorem mark_first (z : α) (r : List α) (s t : List γ) (h : enc z++s = r.flatMap enc++t)
    (hr : r ≠ []) : z ∈ r := by
  cases r with
  | nil => exact absurd rfl hr
  | cons a r =>
    rw [List.flatMap_cons, List.append_assoc] at h
    rw [(hd z a _ _ h).1]
    exact List.mem_cons_self

/-- Two texts in front of marks that occur in neither are the same. -/
theorem text_until (z : α) (p q : List α) (s t : List γ) (hp : z ∉ p) (hq : z ∉ q)
    (h : p.flatMap enc++(enc z++s) = q.flatMap enc++(enc z++t)) : p = q ∧ s = t := by
  have hends : ∀ r : List α, ∀ s t : List γ, z ∉ r → enc z++s = r.flatMap enc++(enc z++t) →
      r = [] := by
    intro r s t hnot heq
    by_contra hne
    exact hnot (mark_first enc hd z r s _ heq hne)
  rcases text_overlap enc hd p q _ _ h with ⟨r, hcont, hrest⟩ | ⟨r, hcont, hrest⟩
  · have hr : r = [] := hends r s t (fun hin => hq (by rw [hcont]; simp [hin])) hrest
    rw [hr] at hcont hrest
    exact ⟨by rw [hcont, List.append_nil], List.append_cancel_left hrest⟩
  · have hr : r = [] := hends r t s (fun hin => hp (by rw [hcont]; simp [hin])) hrest
    rw [hr] at hcont hrest
    exact ⟨by rw [hcont, List.append_nil], (List.append_cancel_left hrest).symm⟩

/-- Texts that each end with a mark make up a list that can be read back. -/
theorem marked_texts (z : α) (ps qs : List (List α)) (hp : ∀ p ∈ ps, z ∉ p)
    (hq : ∀ q ∈ qs, z ∉ q) (hz : enc z ≠ [])
    (h : ps.flatMap (fun p => p.flatMap enc++enc z) =
      qs.flatMap (fun q => q.flatMap enc++enc z)) : ps = qs := by
  induction ps generalizing qs with
  | nil =>
    cases qs with
    | nil => rfl
    | cons q qs =>
      simp only [List.flatMap_nil, List.flatMap_cons] at h
      exact absurd h.symm (by simp [hz])
  | cons p ps ih =>
    cases qs with
    | nil =>
      simp only [List.flatMap_nil, List.flatMap_cons] at h
      exact absurd h (by simp [hz])
    | cons q qs =>
      simp only [List.flatMap_cons, List.append_assoc] at h
      obtain ⟨hpq, hrest⟩ := text_until enc hd z p q _ _ (hp p List.mem_cons_self)
        (hq q List.mem_cons_self) h
      rw [hpq, ih qs (fun p' h' => hp p' (List.mem_cons_of_mem p h'))
        (fun q' h' => hq q' (List.mem_cons_of_mem q h')) hrest]

end Text

end Lib.PrefixCode
