import Mathlib.Data.List.DropRight
import Mathlib.Data.List.Infix
import Mathlib.Order.Nat

/-!
# Text measured in bytes

Strings are sequences of characters with a UTF-8 length. A byte position is a
boundary when some run of leading characters ends there; cutting a text at a
byte budget means walking back to the last boundary within the budget.
-/

set_option autoImplicit false

namespace Lib.Text

def byteLen : List Char → ℕ
  | [] => 0
  | c::cs => c.utf8Size+byteLen cs

def isBoundary : List Char → ℕ → Bool
  | _, 0 => true
  | [], _+1 => false
  | c::cs, n+1 => if c.utf8Size ≤ n+1 then isBoundary cs (n+1-c.utf8Size) else false

def sliceTo : List Char → ℕ → List Char
  | [], _ => []
  | c::cs, n => if c.utf8Size ≤ n then c::sliceTo cs (n-c.utf8Size) else []

def floorBoundary (cs : List Char) : ℕ → ℕ
  | 0 => 0
  | n+1 => if isBoundary cs (n+1) then n+1 else floorBoundary cs n

def startsWith (s t : String) : Bool := t.toList.isPrefixOf s.toList

def endsWith (s t : String) : Bool := t.toList.isSuffixOf s.toList

def contains (s t : String) : Bool := decide (t.toList <:+: s.toList)

def isWhitespace (c : Char) : Bool :=
  (0x9 ≤ c.val && c.val ≤ 0xD) || c.val == 0x20 || c.val == 0x85 || c.val == 0xA0 ||
  c.val == 0x1680 || (0x2000 ≤ c.val && c.val ≤ 0x200A) || c.val == 0x2028 || c.val == 0x2029 ||
  c.val == 0x202F || c.val == 0x205F || c.val == 0x3000

def trimChars (cs : List Char) : List Char :=
  (cs.dropWhile isWhitespace).rdropWhile isWhitespace

def trimEnd (cs : List Char) : List Char := cs.rdropWhile isWhitespace

def trim (s : String) : String := String.ofList (trimChars s.toList)

def splitWhitespace (s : String) : List String :=
  ((s.toList.splitOnP isWhitespace).filter (fun w => !w.isEmpty)).map String.ofList

def stripPrefix (s t : String) : Option String :=
  if startsWith s t then some (String.ofList (s.toList.drop t.toList.length)) else none

variable (cs : List Char) (p q : List Char) (n : ℕ)

theorem byteLen_append : byteLen (p++q) = byteLen p+byteLen q := by
  induction p with
  | nil => simp [byteLen]
  | cons c p ih => simp [byteLen, ih, Nat.add_assoc]

theorem byteLen_le : byteLen cs ≤ 4*cs.length := by
  induction cs with
  | nil => exact Nat.zero_le _
  | cons c cs ih =>
    have hc := Char.utf8Size_le_four c
    simp only [byteLen, List.length_cons]
    omega

theorem byteLen_ascii (h : ∀ c ∈ cs, c.utf8Size = 1) :
    byteLen cs = cs.length := by
  induction cs with
  | nil => rfl
  | cons c cs ih =>
    have hc := h c List.mem_cons_self
    have hcs := ih (fun d hd => h d (List.mem_cons_of_mem c hd))
    rw [byteLen, hc, hcs, List.length_cons, Nat.add_comm]

theorem boundary_past (k : ℕ) :
    isBoundary (p++q) (byteLen p+k) = isBoundary q k := by
  induction p with
  | nil => rw [byteLen, Nat.zero_add, List.nil_append]
  | cons c p ih =>
    have hc := Char.utf8Size_pos c
    obtain ⟨n, hn⟩ : ∃ n, c.utf8Size+byteLen p+k = n+1 := ⟨c.utf8Size+byteLen p+k-1, by omega⟩
    simp only [List.cons_append, byteLen, hn, isBoundary]
    rw [if_pos (by omega), show n+1-c.utf8Size = byteLen p+k by omega]
    exact ih

theorem boundary_append : isBoundary (p++q) (byteLen p) = true := by
  have hpast := boundary_past p q 0
  rw [Nat.add_zero] at hpast
  rw [hpast]
  cases q <;> rfl

theorem sliceTo_append : sliceTo (p++q) (byteLen p) = p := by
  induction p with
  | nil =>
    cases q with
    | nil => rfl
    | cons c q => simp [sliceTo, byteLen, Nat.ne_of_gt (Char.utf8Size_pos c)]
  | cons c p ih =>
    simp only [List.cons_append, byteLen, sliceTo]
    rw [if_pos (by omega), Nat.add_sub_cancel_left, ih]

theorem sliceTo_split : ∃ rest, cs = sliceTo cs n++rest := by
  induction cs generalizing n with
  | nil => exact ⟨[], rfl⟩
  | cons c cs ih =>
    simp only [sliceTo]
    split
    · obtain ⟨rest, h⟩ := ih (n-c.utf8Size)
      exact ⟨rest, by rw [List.cons_append, ← h]⟩
    · exact ⟨c::cs, rfl⟩

theorem byteLen_sliceTo_le : byteLen (sliceTo cs n) ≤ n := by
  induction cs generalizing n with
  | nil => exact Nat.zero_le _
  | cons c cs ih =>
    simp only [sliceTo]
    split
    · have := ih (n-c.utf8Size)
      simp only [byteLen]
      omega
    · exact Nat.zero_le _

/-- A cut loses at most three bytes of the budget. -/
theorem byteLen_sliceTo_ge (h : n ≤ byteLen cs) :
    n ≤ byteLen (sliceTo cs n)+3 := by
  induction cs generalizing n with
  | nil =>
    simp only [byteLen] at h
    omega
  | cons c cs ih =>
    have hc := Char.utf8Size_le_four c
    simp only [byteLen] at h
    simp only [sliceTo]
    split
    · have := ih (n-c.utf8Size) (by omega)
      simp only [byteLen]
      omega
    · simp only [byteLen]
      omega

theorem boundary_le_slice (k n : ℕ) (hk : isBoundary cs k = true) (h : k ≤ n) :
    k ≤ byteLen (sliceTo cs n) := by
  induction cs generalizing k n with
  | nil => cases k <;> simp_all [isBoundary]
  | cons c cs ih =>
    cases k with
    | zero => exact Nat.zero_le _
    | succ k =>
      simp only [isBoundary] at hk
      split at hk
      · have := ih (k+1-c.utf8Size) (n-c.utf8Size) hk (by omega)
        rw [sliceTo, if_pos (by omega)]
        simp only [byteLen]
        omega
      · simp at hk

theorem slice_boundary :
    isBoundary cs (byteLen (sliceTo cs n)) = true := by
  obtain ⟨rest, h⟩ := sliceTo_split cs n
  have hb := boundary_append (sliceTo cs n) rest
  rwa [← h] at hb

theorem floor_eq : floorBoundary cs n = byteLen (sliceTo cs n) := by
  induction n with
  | zero => exact (Nat.le_zero.mp (byteLen_sliceTo_le cs 0)).symm
  | succ n ih =>
    have hle := byteLen_sliceTo_le cs (n+1)
    simp only [floorBoundary]
    split
    · next hb =>
      have := boundary_le_slice cs (n+1) (n+1) hb (le_refl _)
      omega
    · next hb =>
      have hne : byteLen (sliceTo cs (n+1)) ≠ n+1 := fun e => hb (e ▸ slice_boundary cs (n+1))
      have h1 := boundary_le_slice cs _ n (slice_boundary cs (n+1)) (by omega)
      have h2 := boundary_le_slice cs _ (n+1) (slice_boundary cs n)
        (Nat.le_succ_of_le (byteLen_sliceTo_le cs n))
      omega

theorem slice_floor :
    sliceTo cs (floorBoundary cs n) = sliceTo cs n := by
  obtain ⟨rest, h⟩ := sliceTo_split cs n
  have hs := sliceTo_append (sliceTo cs n) rest
  rw [← h] at hs
  rw [floor_eq, hs]

theorem boundary_iff :
    isBoundary cs n = true ↔ byteLen (sliceTo cs n) = n := by
  constructor
  · intro hb
    have hge := boundary_le_slice cs n n hb (le_refl n)
    have hle := byteLen_sliceTo_le cs n
    omega
  · intro hn
    have hb := slice_boundary cs n
    rwa [hn] at hb

theorem sliceTo_within (h : n ≤ byteLen p) :
    sliceTo (p++q) n = sliceTo p n := by
  induction p generalizing n with
  | nil =>
    have hn : n = 0 := Nat.le_zero.mp h
    rw [hn, List.nil_append]
    exact sliceTo_append [] q
  | cons c p ih =>
    rw [byteLen] at h
    rw [List.cons_append, sliceTo, sliceTo]
    split
    · rw [ih (n-c.utf8Size) (by omega)]
    · rfl

theorem boundary_within (h : n ≤ byteLen p) :
    isBoundary (p++q) n = isBoundary p n := by
  rw [Bool.eq_iff_iff, boundary_iff, boundary_iff, sliceTo_within p q n h]

theorem count_le_byteLen (c : Char) (cs : List Char) : cs.count c ≤ byteLen cs := by
  induction cs with
  | nil => exact Nat.le_refl 0
  | cons d cs ih =>
    have hd := Char.utf8Size_pos d
    rw [List.count_cons, byteLen]
    split <;> omega

theorem startsWith_congr (s r t : String) (p q q' : List Char) (hs : s.toList = p++q)
    (hr : r.toList = p++q') (hp : t.toList.length ≤ p.length) :
    startsWith r t = startsWith s t := by
  rw [Bool.eq_iff_iff]
  simp only [startsWith, List.isPrefixOf_iff_prefix, hs, hr]
  constructor
  · intro h
    have ht := List.prefix_of_prefix_length_le h (List.prefix_append p q') hp
    exact ht.trans (List.prefix_append p q)
  · intro h
    have ht := List.prefix_of_prefix_length_le h (List.prefix_append p q) hp
    exact ht.trans (List.prefix_append p q')

theorem isWhitespace_range (c : Char) (h : isWhitespace c = true) :
    c.toNat < 48 ∨ 122 < c.toNat := by
  simp only [isWhitespace, Bool.or_eq_true, Bool.and_eq_true, decide_eq_true_eq, beq_iff_eq,
    UInt32.le_iff_toNat_le, ← UInt32.toNat_inj, UInt32.reduceToNat] at h
  rw [Char.toNat]
  omega

theorem trimEnd_append (c : Char) (hc : isWhitespace c = false) :
    trimEnd (p++c::q) = p++c::trimEnd q := by
  rw [trimEnd, List.rdropWhile, List.reverse_append, List.reverse_cons, List.append_assoc,
    List.singleton_append]
  rw [trimEnd, List.rdropWhile]
  by_cases hq : ∀ x ∈ q, isWhitespace x = true
  · have hrev : ∀ x ∈ q.reverse, isWhitespace x = true := by simpa using hq
    rw [List.dropWhile_append_of_pos hrev, List.dropWhile_eq_nil_iff.mpr hrev,
      List.dropWhile_cons_of_neg (by simp [hc])]
    simp
  · obtain ⟨x, hx, hblack⟩ : ∃ x ∈ q, ¬ isWhitespace x = true := by
      by_contra hnone
      push Not at hnone
      exact hq hnone
    rw [List.dropWhile_append, if_neg]
    · simp
    · rw [List.isEmpty_iff, List.dropWhile_eq_nil_iff]
      exact fun h => hblack (h x (List.mem_reverse.mpr hx))

theorem trimEnd_begins : trimEnd cs <+: cs := List.rdropWhile_prefix isWhitespace cs

theorem blank_iff : trimChars cs = [] ↔ ∀ c ∈ cs, isWhitespace c = true := by
  rw [trimChars, List.rdropWhile_eq_nil_iff]
  constructor
  · intro h c hc
    rw [← List.takeWhile_append_dropWhile (p := isWhitespace) (l := cs)] at hc
    exact (List.mem_append.mp hc).elim List.mem_takeWhile_imp (h c)
  · exact fun h c hc => h c ((List.dropWhile_suffix _).subset hc)

theorem trimChars_headed (c : Char) (hc : isWhitespace c = false) (h : cs.head? = some c) :
    trimChars cs = trimEnd cs := by
  obtain ⟨rest, rfl⟩ := List.head?_eq_some_iff.mp h
  rw [trimChars, List.dropWhile_cons_of_neg (by simp [hc])]
  rfl

theorem trimChars_trimChars : trimChars (trimChars cs) = trimChars cs := by
  unfold trimChars
  have hfirst : ((cs.dropWhile isWhitespace).rdropWhile isWhitespace).dropWhile isWhitespace =
      (cs.dropWhile isWhitespace).rdropWhile isWhitespace := by
    rw [List.dropWhile_eq_self_iff]
    intro hlen
    have hpre := List.rdropWhile_prefix isWhitespace (cs.dropWhile isWhitespace)
    have hpos : 0 < (cs.dropWhile isWhitespace).length := Nat.lt_of_lt_of_le hlen hpre.length_le
    have hhead := List.dropWhile_get_zero_not isWhitespace cs hpos
    rw [hpre.getElem hlen]
    exact hhead
  rw [hfirst, List.rdropWhile_idempotent]

theorem trim_trim (s : String) : trim (trim s) = trim s := by
  simp [trim, trimChars_trimChars]

end Lib.Text
