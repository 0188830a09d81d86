import Mathlib.Data.String.Basic
import IronClaw.JsonValue

/-!
# The map behind a JSON object

The fields of an object stand in the order of their keys, each key once.
Writing a field keeps the order, and two maps with the same lookups are the
same list of fields.
-/

set_option autoImplicit false

namespace IronClaw.JsonMap
open IronClaw.JsonValue

def Ordered (fields : Fields) : Prop :=
  (fields.map Prod.fst).Pairwise (· < ·)

theorem ordered_nil : Ordered [] := List.Pairwise.nil

variable (key : String) (v : Value) (fields : Fields)

theorem ordered_cons :
    Ordered ((key, v)::fields) ↔ (∀ f ∈ fields, key < f.1) ∧ Ordered fields := by
  simp [Ordered, List.pairwise_cons]

theorem lookup_mem (h : lookup key fields = some v) : (key, v) ∈ fields := by
  induction fields with
  | nil => cases h
  | cons f fields ih =>
    obtain ⟨k, w⟩ := f
    rw [lookup] at h
    by_cases hk : k = key
    · rw [if_pos hk] at h
      rw [← hk, ← Option.some.inj h]
      exact List.mem_cons_self
    · rw [if_neg hk] at h
      exact List.mem_cons_of_mem _ (ih h)

theorem lookup_below (h : ∀ f ∈ fields, key < f.1) : lookup key fields = none := by
  rw [Option.eq_none_iff_forall_not_mem]
  intro v hv
  exact lt_irrefl key (h _ (lookup_mem key v fields hv))

theorem mem_lookup (hordered : Ordered fields) (h : (key, v) ∈ fields) :
    lookup key fields = some v := by
  induction fields with
  | nil => cases h
  | cons f fields ih =>
    obtain ⟨k, w⟩ := f
    obtain ⟨hbelow, hrest⟩ := (ordered_cons k w fields).mp hordered
    rcases List.mem_cons.mp h with heq | hmem
    · obtain ⟨rfl, rfl⟩ := Prod.mk.inj heq
      rw [lookup, if_pos rfl]
    · rw [lookup, if_neg (ne_of_lt (hbelow _ hmem)), ih hrest hmem]

theorem insert_mem (f : String × Value) (h : f ∈ insert key v fields) :
    f = (key, v) ∨ f ∈ fields := by
  induction fields with
  | nil => exact Or.inl (List.mem_singleton.mp h)
  | cons g fields ih =>
    obtain ⟨k, w⟩ := g
    unfold JsonValue.insert at h
    split at h
    · rcases List.mem_cons.mp h with h | h
      · exact Or.inl h
      · exact Or.inr (List.mem_cons_of_mem _ h)
    · split at h
      · rcases List.mem_cons.mp h with h | h
        · exact Or.inl h
        · exact Or.inr h
      · rcases List.mem_cons.mp h with h | h
        · exact Or.inr (h ▸ List.mem_cons_self)
        · exact (ih h).imp id (List.mem_cons_of_mem _)

theorem insert_ordered (h : Ordered fields) : Ordered (insert key v fields) := by
  induction fields with
  | nil => exact (ordered_cons key v []).mpr ⟨by simp, ordered_nil⟩
  | cons f fields ih =>
    obtain ⟨k, w⟩ := f
    obtain ⟨hbelow, hrest⟩ := (ordered_cons k w fields).mp h
    unfold JsonValue.insert
    by_cases hk : k = key
    · rw [if_pos hk, ordered_cons, ← hk]
      exact ⟨hbelow, hrest⟩
    · rw [if_neg hk]
      by_cases hlt : key < k
      · rw [if_pos hlt, ordered_cons]
        refine ⟨?_, h⟩
        intro g hg
        rcases List.mem_cons.mp hg with rfl | hg
        · exact hlt
        · exact lt_trans hlt (hbelow g hg)
      · rw [if_neg hlt, ordered_cons]
        refine ⟨?_, ih hrest⟩
        intro g hg
        rcases insert_mem key v fields g hg with rfl | hg
        · exact lt_of_le_of_ne (not_lt.mp hlt) hk
        · exact hbelow g hg

theorem lookup_insert (key k : String) (v : Value) (fields : Fields) :
    lookup k (insert key v fields) = if k = key then some v else lookup k fields := by
  by_cases hk : k = key
  · rw [if_pos hk, hk, lookup_insert_self]
  · rw [if_neg hk, lookup_insert_ne key k v fields (Ne.symm hk)]

/-- The least key of two maps with the same lookups is the same. -/
theorem ordered_head (x y : String × Value) (xs ys : Fields)
    (hxs : Ordered (x::xs)) (h : ∀ key, lookup key (x::xs) = lookup key (y::ys)) :
    ¬y.1 < x.1 := by
  intro hlt
  have hy : lookup y.1 (x::xs) = some y.2 := by
    rw [h]
    simp [lookup]
  rw [lookup_below] at hy
  · cases hy
  · intro f hf
    rcases List.mem_cons.mp hf with rfl | hf
    · exact hlt
    · exact lt_trans hlt (((ordered_cons x.1 x.2 xs).mp hxs).1 f hf)

theorem ordered_ext (xs ys : Fields) (hxs : Ordered xs) (hys : Ordered ys)
    (h : ∀ key, lookup key xs = lookup key ys) : xs = ys := by
  induction xs generalizing ys with
  | nil =>
    cases ys with
    | nil => rfl
    | cons y ys => simpa [lookup] using h y.1
  | cons x xs ih =>
    cases ys with
    | nil => simpa [lookup] using h x.1
    | cons y ys =>
      have hkey : x.1 = y.1 := le_antisymm
        (not_lt.mp (ordered_head x y xs ys hxs h))
        (not_lt.mp (ordered_head y x ys xs hys (fun key => (h key).symm)))
      have hvalue : x.2 = y.2 := by
        have hx := h x.1
        simp only [lookup, if_pos, if_pos hkey.symm] at hx
        exact Option.some.inj hx
      have hxbelow := ((ordered_cons x.1 x.2 xs).mp hxs).1
      have hybelow := ((ordered_cons y.1 y.2 ys).mp hys).1
      have hrest : xs = ys := by
        apply ih ys ((ordered_cons x.1 x.2 xs).mp hxs).2 ((ordered_cons y.1 y.2 ys).mp hys).2
        intro key
        by_cases hk : key = x.1
        · rw [hk, lookup_below x.1 xs hxbelow, hkey, lookup_below y.1 ys hybelow]
        · have hne := h key
          rw [lookup, if_neg (Ne.symm hk), lookup, if_neg (by rw [← hkey]; exact Ne.symm hk)] at hne
          exact hne
      rw [Prod.ext hkey hvalue, hrest]

end IronClaw.JsonMap
