import Mathlib.Data.List.Chain

/-!
# Runs of equal tags

A list of tagged items is kept as groups, each a tag with its items. Pushing
items of the tag of the last group goes on with that group. The groups are then
the maximal runs of equal tags, and there is only one such grouping of a list
of tagged items.
-/

set_option autoImplicit false

namespace Lib.Groups

variable {τ β : Type}

def push [DecidableEq τ] (groups : List (τ × List β)) (tag : τ) (items : List β) : List (τ × List β) :=
  if items.isEmpty then groups
  else match groups.getLast? with
    | some last =>
      if last.1 = tag then groups.dropLast++[(tag, last.2++items)] else groups++[(tag, items)]
    | none => groups++[(tag, items)]

def tagged (groups : List (τ × List β)) : List (τ × β) :=
  groups.flatMap (fun g => g.2.map (fun item => (g.1, item)))

structure Grouped (groups : List (τ × List β)) : Prop where
  alternates : groups.IsChain (fun a b => a.1 ≠ b.1)
  filled : ∀ g ∈ groups, g.2 ≠ []

theorem tagged_append (gs hs : List (τ × List β)) : tagged (gs++hs) = tagged gs++tagged hs :=
  List.flatMap_append

theorem grouped_nil : Grouped ([] : List (τ × List β)) := ⟨List.IsChain.nil, by simp⟩

section

variable [DecidableEq τ]

variable (groups : List (τ × List β)) (tag : τ) (items : List β)

theorem push_nil : push groups tag [] = groups := rfl

theorem push_first (h : items ≠ []) :
    push [] tag items = [(tag, items)] := by
  rw [push, if_neg (by simpa using h)]
  rfl

theorem push_same (old items : List β) :
    push (groups++[(tag, old)]) tag items = groups++[(tag, old++items)] := by
  cases items with
  | nil => rw [push_nil, List.append_nil]
  | cons x xs => simp [push]

theorem push_other (last : τ × List β) (tag : τ) (items : List β) (hne : last.1 ≠ tag)
    (h : items ≠ []) :
    push (groups++[last]) tag items = groups++[last, (tag, items)] := by
  rw [push, if_neg (by simpa using h)]
  simp [hne]

/-- What a push does, by the last group. -/
theorem push_cases (h : items ≠ []) :
    (∃ before old, groups = before++[(tag, old)] ∧
      push groups tag items = before++[(tag, old++items)]) ∨
    ((∀ last, groups.getLast? = some last → last.1 ≠ tag) ∧
      push groups tag items = groups++[(tag, items)]) := by
  rcases List.eq_nil_or_concat groups with rfl | ⟨before, ⟨t, old⟩, rfl⟩
  · right
    exact ⟨fun _ hlast => (nomatch hlast), push_first tag items h⟩
  · by_cases ht : t = tag
    · left
      rw [ht]
      exact ⟨before, old, by simp, by rw [← push_same]; simp⟩
    · right
      refine ⟨?_, ?_⟩
      · intro last hlast
        simp only [List.concat_eq_append, List.getLast?_append, List.getLast?_singleton,
          Option.some_or, Option.some.injEq] at hlast
        rw [← hlast]
        exact ht
      · rw [List.concat_eq_append, push_other before (t, old) tag items ht h]
        simp

theorem tagged_push :
    tagged (push groups tag items) = tagged groups++items.map (fun item => (tag, item)) := by
  by_cases h : items = []
  · rw [h, push_nil]
    simp
  · rcases push_cases groups tag items h with ⟨before, old, rfl, heq⟩ | ⟨_, heq⟩
    · rw [heq, tagged_append, tagged_append]
      simp [tagged]
    · rw [heq, tagged_append]
      simp [tagged]

theorem push_grouped (hg : Grouped groups) : Grouped (push groups tag items) := by
  by_cases h : items = []
  · rw [h, push_nil]
    exact hg
  · rcases push_cases groups tag items h with ⟨before, old, rfl, heq⟩ | ⟨hlast, heq⟩
    · rw [heq]
      constructor
      · have hchain := hg.alternates
        rw [List.isChain_append] at hchain ⊢
        refine ⟨hchain.1, List.isChain_singleton _, ?_⟩
        intro x hx y hy
        have hy' : (tag, old++items) = y := by simpa using hy
        rw [← hy']
        exact hchain.2.2 x hx (tag, old) (by simp)
      · intro g hin
        rcases List.mem_append.mp hin with hin | hin
        · exact hg.filled g (List.mem_append_left _ hin)
        · rw [List.mem_singleton.mp hin]
          simp [h]
    · rw [heq]
      constructor
      · rw [List.isChain_append]
        refine ⟨hg.alternates, List.isChain_singleton _, ?_⟩
        intro x hx y hy
        have hy' : (tag, items) = y := by simpa using hy
        rw [← hy']
        exact hlast x hx
      · intro g hin
        rcases List.mem_append.mp hin with hin | hin
        · exact hg.filled g hin
        · rw [List.mem_singleton.mp hin]
          exact h

/-- The first group takes all items up to the first other tag. -/
theorem tagged_head (g : τ × List β) (gs : List (τ × List β)) (hg : Grouped (g::gs)) :
    (tagged (g::gs)).takeWhile (fun x => x.1 = g.1) = g.2.map (fun item => (g.1, item)) ∧
      (tagged (g::gs)).dropWhile (fun x => x.1 = g.1) = tagged gs := by
  have hall : ∀ x ∈ g.2.map (fun item => (g.1, item)), decide (x.1 = g.1) = true := by
    intro x hx
    obtain ⟨item, _, rfl⟩ := List.mem_map.mp hx
    exact decide_eq_true rfl
  have hstop : (tagged gs).takeWhile (fun x => x.1 = g.1) = [] ∧
      (tagged gs).dropWhile (fun x => x.1 = g.1) = tagged gs := by
    cases gs with
    | nil => exact ⟨rfl, rfl⟩
    | cons next rest =>
      have hne : g.1 ≠ next.1 := (List.isChain_cons_cons.mp hg.alternates).1
      obtain ⟨item, items, hitems⟩ :=
        List.exists_cons_of_ne_nil (hg.filled next (by simp))
      have htagged : tagged (next::rest) =
          (next.1, item)::(items.map (fun i => (next.1, i))++tagged rest) := by
        simp [tagged, hitems]
      rw [htagged]
      simp [Ne.symm hne]
  have hsplit : tagged (g::gs) = g.2.map (fun item => (g.1, item))++tagged gs := by
    simp [tagged]
  rw [hsplit, List.takeWhile_append_of_pos hall, List.dropWhile_append_of_pos hall, hstop.1,
    hstop.2, List.append_nil]
  exact ⟨rfl, rfl⟩

/-- There is one grouping of a list of tagged items. -/
theorem grouped_unique (gs hs : List (τ × List β)) (hgs : Grouped gs) (hhs : Grouped hs)
    (h : tagged gs = tagged hs) : gs = hs := by
  induction gs generalizing hs with
  | nil =>
    cases hs with
    | nil => rfl
    | cons k ks =>
      obtain ⟨item, items, hitems⟩ := List.exists_cons_of_ne_nil (hhs.filled k (by simp))
      simp [tagged, hitems] at h
  | cons g gs ih =>
    cases hs with
    | nil =>
      obtain ⟨item, items, hitems⟩ := List.exists_cons_of_ne_nil (hgs.filled g (by simp))
      simp [tagged, hitems] at h
    | cons k ks =>
      have htag : g.1 = k.1 := by
        obtain ⟨x, xs, hx⟩ := List.exists_cons_of_ne_nil (hgs.filled g (by simp))
        obtain ⟨y, ys, hy⟩ := List.exists_cons_of_ne_nil (hhs.filled k (by simp))
        simp only [tagged, List.flatMap_cons, hx, hy, List.map_cons, List.cons_append] at h
        exact (Prod.mk.inj (List.cons.inj h).1).1
      obtain ⟨hgtake, hgdrop⟩ := tagged_head g gs hgs
      obtain ⟨hktake, hkdrop⟩ := tagged_head k ks hhs
      rw [h, htag, hktake] at hgtake
      rw [h, htag, hkdrop] at hgdrop
      have hitems : g.2 = k.2 := by
        have hinj : Function.Injective (fun item : β => (k.1, item)) :=
          fun a b hab => congrArg Prod.snd hab
        exact (List.map_injective_iff.mpr hinj hgtake).symm
      have hrest : gs = ks := by
        apply ih ks _ _ hgdrop.symm
        · exact ⟨hgs.alternates.tail, fun x hx => hgs.filled x (List.mem_cons_of_mem _ hx)⟩
        · exact ⟨hhs.alternates.tail, fun x hx => hhs.filled x (List.mem_cons_of_mem _ hx)⟩
      rw [Prod.ext htag hitems, hrest]

end

end Lib.Groups
