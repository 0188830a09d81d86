import Mathlib.Algebra.GroupWithZero.Nat
import Mathlib.Data.List.AList

/-!
# Tables with finitely many keys

A table holds one entry for each of its keys. Writing or erasing an entry
changes how many entries have a property by that entry alone; keeping the
entries of some keys leaves what they hold.
-/

set_option autoImplicit false

namespace Lib.Entries

variable {κ ν : Type*} [DecidableEq κ]

def count (p : ν → Bool) (table : AList (fun _ : κ => ν)) : ℕ :=
  table.entries.countP (fun e => p e.2)

variable (p : ν → Bool) (key : κ) (f : ν → ℕ)

theorem count_erase_le (table : AList (fun _ : κ => ν)) :
    count p (table.erase key) ≤ count p table :=
  (List.kerase_sublist key table.entries).countP_le

/-- A table with an entry, without it. -/
theorem erase_found (x : ν) (table : AList (fun _ : κ => ν)) (h : table.lookup key = some x) :
    ∃ before after, table.entries = before++⟨key, x⟩::after ∧
      (table.erase key).entries = before++after := by
  have hkey : key ∈ table.entries.keys :=
    (AList.lookup_isSome (s := table)).mp (by rw [h]; rfl)
  obtain ⟨y, before, after, hfresh, hsplit, herase⟩ := List.exists_of_kerase hkey
  have hy : y = x := by
    have hmem : (⟨key, y⟩ : Sigma fun _ : κ => ν) ∈ table.entries := by
      rw [hsplit]
      exact List.mem_append_right before List.mem_cons_self
    have hlookup := (AList.mem_lookup_iff (s := table)).mpr hmem
    rw [h] at hlookup
    exact (Option.some.inj hlookup).symm
  exact ⟨before, after, hy ▸ hsplit, herase⟩

theorem count_erase_found (x : ν) (table : AList (fun _ : κ => ν)) (h : table.lookup key = some x) :
    count p table = count p (table.erase key)+(if p x then 1 else 0) := by
  obtain ⟨before, after, hsplit, herase⟩ := erase_found key x table h
  rw [count, count, herase, hsplit]
  simp only [List.countP_append, List.countP_cons]
  omega

theorem count_insert (x : ν) (table : AList (fun _ : κ => ν)) :
    count p (table.insert key x) = count p (table.erase key)+(if p x then 1 else 0) := by
  rw [count, AList.entries_insert, List.countP_cons]
  rfl

theorem count_insert_le (x : ν) (table : AList (fun _ : κ => ν)) :
    count p (table.insert key x) ≤ count p table+1 := by
  have herase := count_erase_le p key table
  rw [count_insert]
  split <;> omega

theorem count_replace_le (x y : ν) (table : AList (fun _ : κ => ν)) (h : table.lookup key = some x)
    (hp : p y = true → p x = true) :
    count p (table.insert key y) ≤ count p table := by
  rw [count_insert, count_erase_found p key x table h]
  split
  · rename_i hy
    rw [if_pos (hp hy)]
  · omega

def weight (f : ν → ℕ) (table : AList (fun _ : κ => ν)) : ℕ :=
  (table.entries.map (fun e => f e.2)).sum

theorem weight_erase_found (key : κ) (x : ν) (table : AList (fun _ : κ => ν))
    (h : table.lookup key = some x) :
    weight f table = weight f (table.erase key)+f x := by
  obtain ⟨before, after, hsplit, herase⟩ := erase_found key x table h
  rw [weight, weight, herase, hsplit]
  simp only [List.map_append, List.map_cons, List.sum_append, List.sum_cons]
  omega

theorem weight_erase_missing (key : κ) (table : AList (fun _ : κ => ν))
    (h : table.lookup key = none) : weight f (table.erase key) = weight f table := by
  have hkey : key ∉ table.entries.keys := AList.lookup_eq_none.mp h
  have hsame : (table.erase key).entries = table.entries := List.kerase_of_notMem_keys hkey
  rw [weight, hsame]
  rfl

theorem weight_erase (key : κ) (table : AList (fun _ : κ => ν)) :
    weight f (table.erase key) = weight f table-((table.lookup key).map f).getD 0 := by
  cases h : table.lookup key with
  | none => exact weight_erase_missing f key table h
  | some x =>
    have hfound := weight_erase_found f key x table h
    show weight f (table.erase key) = weight f table-f x
    omega

theorem weight_insert (key : κ) (x : ν) (table : AList (fun _ : κ => ν)) :
    weight f (table.insert key x) = weight f (table.erase key)+f x := by
  rw [weight, AList.entries_insert, List.map_cons, List.sum_cons, Nat.add_comm]
  rfl

def retain (p : κ → Bool) (table : AList (fun _ : κ => ν)) : AList (fun _ : κ => ν) :=
  ⟨table.entries.filter (fun e => p e.1), table.nodupKeys.sublist List.filter_sublist⟩

theorem lookup_retain (p : κ → Bool) (table : AList (fun _ : κ => ν)) (key : κ) :
    (retain p table).lookup key = if p key then table.lookup key else none := by
  apply Option.ext
  intro x
  rw [← Option.mem_def, AList.mem_lookup_iff]
  show ⟨key, x⟩ ∈ table.entries.filter _ ↔ _
  rw [List.mem_filter, ← AList.mem_lookup_iff, Option.mem_def]
  cases hp : p key <;> simp

def holds [DecidableEq ν] (x : ν) (table : AList (fun _ : κ => ν)) : Bool :=
  table.entries.any (fun e => e.2 = x)

theorem holds_iff [DecidableEq ν] (x : ν) (table : AList (fun _ : κ => ν)) :
    holds x table = true ↔ ∃ key, table.lookup key = some x := by
  unfold holds
  rw [List.any_eq_true]
  constructor
  · rintro ⟨⟨key, y⟩, hmem, hy⟩
    have hyx : y = x := of_decide_eq_true hy
    subst hyx
    exact ⟨key, AList.mem_lookup_iff.mpr hmem⟩
  · rintro ⟨key, hkey⟩
    exact ⟨⟨key, x⟩, AList.mem_lookup_iff.mp hkey, decide_eq_true rfl⟩

end Lib.Entries
