import Mathlib.Data.List.Perm.Basic
import Mathlib.Data.List.Nodup

/-!
# Tables whose entries are dropped by their last use

A table is a list of entries with distinct keys, walked in any order. Room is
made by removing the least recently used entry until there is enough, or by
removing the first ones of a list that is split around a position. In both
cases nothing that is dropped was used later than anything that stays.
-/

set_option autoImplicit false

namespace Lib.Recency

section dropping

variable {β : Type*} (time : β → ℕ)

structure Dropped (before after : List β) : Prop where
  kept : ∀ e ∈ after, e ∈ before
  older : ∀ e ∈ before, e ∉ after → ∀ f ∈ after, time e ≤ time f

variable {time}

theorem dropped_refl (es : List β) : Dropped time es es :=
  ⟨fun _ h => h, fun _ he hn => absurd he hn⟩

theorem dropped_trans {es fs gs : List β} (h : Dropped time es fs) (g : Dropped time fs gs) :
    Dropped time es gs := by
  constructor
  · intro e he
    exact h.kept e (g.kept e he)
  · intro e he hn f hf
    by_cases hm : e ∈ fs
    · exact g.older e hm hn f hf
    · exact h.older e he hm f (g.kept f hf)

theorem dropped_all (es : List β) : Dropped time es [] :=
  ⟨fun _ h => absurd h List.not_mem_nil, fun _ _ _ _ h => absurd h List.not_mem_nil⟩

end dropping

section table

variable {κ β : Type*} [DecidableEq κ] (key : β → κ) (time : β → ℕ)

def Distinct (es : List β) : Prop := (es.map key).Nodup

def remove (k : κ) (es : List β) : List β := es.filter (fun e => key e ≠ k)

def leastRecent : List β → Option β
  | [] => none
  | e::es => match leastRecent es with
    | none => some e
    | some o => if time o < time e then some o else some e

def shrink (limit : ℕ) (arrange : List β → List β) : ℕ → List β → List β
  | 0, es => es
  | fuel+1, es =>
    if limit ≤ es.length then
      match leastRecent time (arrange es) with
      | some o => shrink limit arrange fuel (remove key (key o) es)
      | none => es
    else es

def removeAll (gone es : List β) : List β := es.filter (fun e => key e ∉ gone.map key)

structure Selection (n : ℕ) where
  arrange : List β → List β
  perm : ∀ es, (arrange es).Perm es
  split : ∀ es, ∀ e ∈ (arrange es).take n, ∀ f ∈ (arrange es).drop n, time e ≤ time f

def sortedSelection (n : ℕ) : Selection time n where
  arrange es := es.mergeSort (fun e f => decide (time e ≤ time f))
  perm es := es.mergeSort_perm _
  split es e he f hf := by
    have hsorted := @List.pairwise_mergeSort _ (fun e f => decide (time e ≤ time f))
      (fun a b c h g => by simp at h g ⊢; omega) (fun a b => by simp; omega) es
    rw [← List.take_append_drop n (es.mergeSort _), List.pairwise_append] at hsorted
    simpa using hsorted.2.2 e he f hf

variable {key time}

omit [DecidableEq κ] in
theorem distinct_filter {es : List β} (p : β → Bool) (h : Distinct key es) :
    Distinct key (es.filter p) :=
  h.sublist (List.filter_sublist.map key)

omit [DecidableEq κ] in
theorem eq_of_key {es : List β} (h : Distinct key es) {e f : β} (he : e ∈ es) (hf : f ∈ es)
    (hk : key e = key f) : e = f :=
  List.inj_on_of_nodup_map h he hf hk

theorem leastRecent_none (es : List β) : leastRecent time es = none ↔ es = [] := by
  constructor
  · intro h
    cases es with
    | nil => rfl
    | cons e es =>
      rw [leastRecent] at h
      cases ho : leastRecent time es with
      | none => simp [ho] at h
      | some o =>
        simp only [ho] at h
        split at h <;> simp at h
  · intro h
    rw [h, leastRecent]

theorem leastRecent_spec (es : List β) (o : β) (h : leastRecent time es = some o) :
    o ∈ es ∧ ∀ e ∈ es, time o ≤ time e := by
  induction es generalizing o with
  | nil => simp [leastRecent] at h
  | cons e es ih =>
    rw [leastRecent] at h
    cases hl : leastRecent time es with
    | none =>
      rw [hl] at h
      obtain rfl : e = o := Option.some.inj h
      rw [(leastRecent_none es).mp hl]
      simp
    | some p =>
      obtain ⟨hp, hle⟩ := ih p hl
      rw [hl] at h
      dsimp only at h
      by_cases hlt : time p < time e
      · rw [if_pos hlt] at h
        obtain rfl : p = o := Option.some.inj h
        refine ⟨List.mem_cons_of_mem e hp, List.forall_mem_cons.mpr ⟨?_, hle⟩⟩
        omega
      · rw [if_neg hlt] at h
        obtain rfl : e = o := Option.some.inj h
        refine ⟨List.mem_cons_self, List.forall_mem_cons.mpr ⟨Nat.le_refl _, ?_⟩⟩
        intro f hf
        have := hle f hf
        omega

theorem remove_dropped {es : List β} {o : β} (h : Distinct key es) (ho : o ∈ es)
    (hle : ∀ e ∈ es, time o ≤ time e) : Dropped time es (remove key (key o) es) := by
  constructor
  · intro e he
    exact List.mem_of_mem_filter he
  · intro e he hn f hf
    have hk : key e = key o := by
      by_contra hne
      exact hn (List.mem_filter.mpr ⟨he, by simpa using hne⟩)
    rw [eq_of_key h he ho hk]
    exact hle f (List.mem_of_mem_filter hf)

variable (key) in
theorem remove_length {es : List β} {o : β} (ho : o ∈ es) :
    (remove key (key o) es).length < es.length :=
  List.length_filter_lt_length_iff_exists.mpr ⟨o, ho, by simp⟩

section shrink

variable {limit : ℕ} {arrange : List β → List β} (hperm : ∀ es, (arrange es).Perm es)

include hperm

theorem shrink_dropped (fuel : ℕ) (es : List β) (h : Distinct key es) :
    Dropped time es (shrink key time limit arrange fuel es) := by
  induction fuel generalizing es with
  | zero => exact dropped_refl es
  | succ fuel ih =>
    rw [shrink]
    by_cases hl : limit ≤ es.length
    · rw [if_pos hl]
      cases hr : leastRecent time (arrange es) with
      | none => exact dropped_refl es
      | some o =>
        obtain ⟨ho, hle⟩ := leastRecent_spec (arrange es) o hr
        have hone : Dropped time es (remove key (key o) es) :=
          remove_dropped h ((hperm es).mem_iff.mp ho)
            (fun e he => hle e ((hperm es).mem_iff.mpr he))
        exact dropped_trans hone (ih _ (distinct_filter _ h))
    · rw [if_neg hl]
      exact dropped_refl es

/-- Enough rounds make room for one more. -/
theorem shrink_length (hlimit : 0 < limit) (fuel : ℕ) (es : List β) (hf : es.length ≤ fuel) :
    (shrink key time limit arrange fuel es).length < limit := by
  induction fuel generalizing es with
  | zero =>
    rw [shrink]
    omega
  | succ fuel ih =>
    rw [shrink]
    by_cases hl : limit ≤ es.length
    · rw [if_pos hl]
      cases hr : leastRecent time (arrange es) with
      | none =>
        have hnil : arrange es = [] := (leastRecent_none _).mp hr
        have hlen := (hperm es).length_eq
        rw [hnil, List.length_nil] at hlen
        omega
      | some o =>
        have ho := (hperm es).mem_iff.mp (leastRecent_spec _ o hr).1
        have hlt := remove_length key ho
        exact ih _ (by omega)
    · rw [if_neg hl]
      omega

end shrink

theorem shrink_sublist (limit : ℕ) (arrange : List β → List β) (fuel : ℕ) (es : List β) :
    (shrink key time limit arrange fuel es).Sublist es := by
  induction fuel generalizing es with
  | zero => exact .refl es
  | succ fuel ih =>
    rw [shrink]
    by_cases hl : limit ≤ es.length
    · rw [if_pos hl]
      cases leastRecent time (arrange es) with
      | none => exact .refl es
      | some o => exact (ih _).trans List.filter_sublist
    · rw [if_neg hl]

section removeAll

variable {n : ℕ} (selection : Selection time n)

omit [DecidableEq κ] in
theorem selected_apart {es : List β} (h : Distinct key es) {e f : β}
    (he : e ∈ (selection.arrange es).take n) (hf : f ∈ (selection.arrange es).drop n) :
    key e ≠ key f := by
  have hall : Distinct key ((selection.arrange es).take n++(selection.arrange es).drop n) := by
    rw [List.take_append_drop]
    exact ((selection.perm es).map key).nodup_iff.mpr h
  rw [Distinct, List.map_append, List.nodup_append] at hall
  exact hall.2.2 (key e) (List.mem_map_of_mem he) (key f) (List.mem_map_of_mem hf)

theorem mem_removeAll {gone es : List β} (e : β) :
    e ∈ removeAll key gone es ↔ e ∈ es ∧ ∀ g ∈ gone, key g ≠ key e := by
  simp [removeAll]

theorem removeAll_dropped {es : List β} (h : Distinct key es) :
    Dropped time es (removeAll key ((selection.arrange es).take n) es) := by
  have hsplit : ∀ e ∈ es, e ∈ (selection.arrange es).take n ∨
      e ∈ (selection.arrange es).drop n := by
    intro e he
    rw [← List.mem_append, List.take_append_drop]
    exact (selection.perm es).mem_iff.mpr he
  constructor
  · intro e he
    exact ((mem_removeAll e).mp he).1
  · intro e he hn f hf
    obtain ⟨hfe, hfk⟩ := (mem_removeAll f).mp hf
    have hdrop : f ∈ (selection.arrange es).drop n := by
      rcases hsplit f hfe with ht | hd
      · exact absurd rfl (hfk f ht)
      · exact hd
    have htake : e ∈ (selection.arrange es).take n := by
      rcases hsplit e he with ht | hd
      · exact ht
      · exact absurd ((mem_removeAll e).mpr ⟨he, fun g hg => selected_apart selection h hg hd⟩) hn
    exact selection.split es e htake f hdrop

theorem removeAll_length {es : List β} (h : Distinct key es) :
    (removeAll key ((selection.arrange es).take n) es).length = es.length-n := by
  have hperm : (removeAll key ((selection.arrange es).take n) es).Perm
      (removeAll key ((selection.arrange es).take n)
        ((selection.arrange es).take n++(selection.arrange es).drop n)) := by
    rw [List.take_append_drop]
    exact (selection.perm es).symm.filter _
  have hgone : removeAll key ((selection.arrange es).take n) ((selection.arrange es).take n) =
      [] := by
    rw [removeAll, List.filter_eq_nil_iff]
    intro e he
    simp only [decide_eq_true_eq, Decidable.not_not]
    exact List.mem_map_of_mem he
  have hkept : removeAll key ((selection.arrange es).take n) ((selection.arrange es).drop n) =
      (selection.arrange es).drop n := by
    rw [removeAll, List.filter_eq_self]
    intro f hf
    rw [decide_eq_true_eq, List.mem_map]
    rintro ⟨g, hg, hk⟩
    exact selected_apart selection h hg hf hk
  rw [hperm.length_eq, removeAll, List.filter_append]
  rw [removeAll] at hgone hkept
  rw [hgone, hkept, List.nil_append, List.length_drop, (selection.perm es).length_eq]

end removeAll

end table

end Lib.Recency
