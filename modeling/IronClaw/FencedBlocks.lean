import IronClaw.CodeScanner

/-!
# Fenced blocks

A fence line has three or more backticks or tildes in front. A block goes from
there up to the first later line of at least as many and nothing else, or to
the end of the text. Blanks around the fences do not count. The first pass
finds the blocks in turn, each behind the end of the one before.
-/

set_option autoImplicit false

namespace IronClaw.FencedBlocks
open IronClaw.ResponseText IronClaw.CodeScanner Lib.BytePositions
open IronClaw.ToolTagCut (le_skipWhile nextLine_some fenced_starts)

section lines

variable (text : List Char)

def lineAt (i : ℕ) : List Char := (text.drop i).takeWhile (fun c => c ≠ '\n')

def afterLine (i : ℕ) : ℕ := min (i+(lineAt text i).length+1) text.length

def LineStart (i : ℕ) : Prop := i = 0 ∨ 0 < i ∧ text[i-1]? = some '\n'

def Blank (cs : List Char) : Prop := ∀ c ∈ cs, isBlank c = true

def FenceLine (line : List Char) (fence : Char) (len : ℕ) : Prop :=
  ∃ blanks info, line = blanks++List.replicate len fence++info ∧ Blank blanks ∧
    info.head? ≠ some fence ∧ (fence = '\x60' ∨ fence = '~') ∧ 3 ≤ len

def ClosingLine (line : List Char) (fence : Char) (len : ℕ) : Prop :=
  ∃ blanks n rest, line = blanks++List.replicate n fence++rest ∧ Blank blanks ∧ Blank rest ∧ len ≤ n

def FirstClosing (fence : Char) (len i l : ℕ) : Prop :=
  (LineStart text l ∧ i ≤ l ∧ ClosingLine (lineAt text l) fence len) ∧
    ∀ m, LineStart text m → i ≤ m → m < l → ¬ ClosingLine (lineAt text m) fence len

def BlockEnd (fence : Char) (len i e : ℕ) : Prop :=
  (∃ l, FirstClosing text fence len i l ∧ e = afterLine text l) ∨
  (∀ l, LineStart text l → i ≤ l → ¬ ClosingLine (lineAt text l) fence len) ∧ e = text.length

def Block (i e : ℕ) : Prop :=
  LineStart text i ∧ ∃ fence len, FenceLine (lineAt text i) fence len ∧
    BlockEnd text fence len (i+1) e

inductive Next : ℕ → ℕ → Prop where
  | line (i : ℕ) (h : LineStart text i)
      (hplain : ∀ fence len, ¬ FenceLine (lineAt text i) fence len)
      (hlt : i+(lineAt text i).length < text.length) : Next i (afterLine text i)
  | block (i e : ℕ) (h : Block text i e) : Next i e

def Fenced (i e : ℕ) : Prop := Relation.ReflTransGen (Next text) 0 i ∧ Block text i e

/-! ## Lines -/

variable (i : ℕ) (p : Char → Bool)

theorem skip_eq (i : ℕ) (a b : List Char) (h : text.drop i = a++b) (ha : ∀ c ∈ a, p c = true)
    (hb : ∀ c, b.head? = some c → p c = false) :
    skipWhile p text i = i+a.length ∧ text.drop (skipWhile p text i) = b := by
  have hskip : skipWhile p text i = i+a.length := by
    rw [skipWhile, h, List.takeWhile_append_of_pos ha]
    cases b with
    | nil => simp
    | cons c b => rw [List.takeWhile_cons_of_neg (by simp [hb c rfl]), List.append_nil]
  refine ⟨hskip, ?_⟩
  rw [hskip, ← List.drop_drop, h, List.drop_left]

theorem drop_rest (i : ℕ) :
    text.drop (skipWhile p text i) = (text.drop i).dropWhile p := by
  have h := drop_skip text p i
  conv_lhs at h => rw [← List.takeWhile_append_dropWhile (p := p) (l := text.drop i)]
  exact (List.append_cancel_left h).symm

theorem head_skip (i : ℕ) (c : Char) (h : (text.drop (skipWhile p text i)).head? = some c) :
    p c = false := by
  have hhead := List.head?_dropWhile_not p (text.drop i)
  rw [drop_rest] at h
  rw [h] at hhead
  simpa using hhead

theorem line_split : ∃ rest, text.drop i = lineAt text i++rest ∧
    (rest = [] ∨ ∃ q, rest = '\n'::q) := by
  refine ⟨(text.drop i).dropWhile (fun c => c ≠ '\n'), ?_, ?_⟩
  · exact List.takeWhile_append_dropWhile.symm
  · cases hrest : (text.drop i).dropWhile (fun c => c ≠ '\n') with
    | nil => exact Or.inl rfl
    | cons c q =>
      have hhead := List.head?_dropWhile_not (fun c => decide (c ≠ '\n')) (text.drop i)
      rw [hrest] at hhead
      have hc : c = '\n' := by simpa using hhead
      exact Or.inr ⟨q, by rw [hc]⟩

theorem line_no_break : '\n' ∉ lineAt text i := by
  intro hin
  have hne := List.mem_takeWhile_imp hin
  simp at hne

theorem line_eq (x rest : List Char) (h : text.drop i = x++rest) (hx : '\n' ∉ x)
    (hrest : rest = [] ∨ ∃ q, rest = '\n'::q) : lineAt text i = x := by
  have hne : ∀ c ∈ x, (fun c => decide (c ≠ '\n')) c = true := by
    intro c hc
    rw [decide_eq_true_eq]
    rintro rfl
    exact hx hc
  rw [lineAt, h, List.takeWhile_append_of_pos hne]
  rcases hrest with rfl | ⟨q, rfl⟩
  · simp
  · simp

theorem nextLine_eq : nextLine text i =
    if i+(lineAt text i).length < text.length then some (i+(lineAt text i).length+1)
    else none := by
  obtain ⟨rest, hdrop, hrest⟩ := line_split text i
  have hlen := congrArg List.length hdrop
  have hnone : (lineAt text i).findIdx? (fun c => c = '\n') = none := by
    rw [List.findIdx?_eq_none_iff]
    intro c hc
    rw [decide_eq_false_iff_not]
    rintro rfl
    exact line_no_break text i hc
  rw [List.length_drop, List.length_append] at hlen
  rw [nextLine, hdrop, List.findIdx?_append, hnone, Option.none_or]
  rcases hrest with rfl | ⟨q, rfl⟩
  · rw [if_neg (by simp at hlen; omega)]
    rfl
  · rw [List.length_cons] at hlen
    rw [if_pos (by omega), List.findIdx?_cons]
    simp [Nat.add_assoc]

/-- The next line begins behind this one. -/
theorem line_beyond (i l : ℕ) (hl : LineStart text l) (h : i < l) :
    i+(lineAt text i).length < l ∧ l ≤ text.length := by
  rcases hl with rfl | ⟨-, hchar⟩
  · exact absurd h (Nat.not_lt_zero i)
  · obtain ⟨hlt, -⟩ := List.getElem?_eq_some_iff.mp hchar
    refine ⟨?_, by omega⟩
    by_contra hle
    obtain ⟨rest, hdrop, -⟩ := line_split text i
    have hin : (text.drop i)[l-1-i]? = some '\n' := by
      rw [List.getElem?_drop, ← hchar]
      congr 1
      omega
    rw [hdrop, List.getElem?_append_left (by omega)] at hin
    exact line_no_break text i (List.mem_of_getElem? hin)

theorem next_start (h : i+(lineAt text i).length < text.length) :
    LineStart text (afterLine text i) := by
  have hnext := nextLine_eq text i
  rw [if_pos h] at hnext
  have hbreak := (nextLine_some text i _ hnext).2
  have hafter : afterLine text i = i+(lineAt text i).length+1 := Nat.min_eq_left h
  rw [hafter]
  exact Or.inr ⟨Nat.succ_pos _, hbreak⟩

/-! ## Fence lines -/

theorem replicate_run (fence : Char) (i : ℕ) :
    (text.drop i).takeWhile (fun c => c = fence) =
      List.replicate (skipWhile (fun c => c = fence) text i-i) fence := by
  rw [skipWhile, Nat.add_sub_cancel_left, List.eq_replicate_iff]
  exact ⟨rfl, fun c hc => by simpa using List.mem_takeWhile_imp hc⟩

theorem blank_run : Blank ((text.drop i).takeWhile isBlank) :=
  fun _ hc => List.mem_takeWhile_imp hc

theorem blank_no_break (cs : List Char) (h : Blank cs) : '\n' ∉ cs := by
  intro hin
  exact absurd (h '\n' hin) (by decide)

variable (fence : Char) (hfence : fence = '\x60' ∨ fence = '~')
include hfence

theorem fence_plain : isBlank fence = false ∧ fence ≠ '\n' := by
  rcases hfence with rfl | rfl <;> decide

theorem fenceLine_iff (i len : ℕ) : FenceLine (lineAt text i) fence len ↔
    3 ≤ len ∧ skipWhile (fun c => c = fence) text (skipWhile isBlank text i)-
      skipWhile isBlank text i = len := by
  obtain ⟨hblank, hbreak⟩ := fence_plain fence hfence
  obtain ⟨rest, hdrop, hrest⟩ := line_split text i
  constructor
  · rintro ⟨blanks, info, hline, hblanks, hinfo, -, hlen⟩
    refine ⟨hlen, ?_⟩
    rw [hline, List.append_assoc, List.append_assoc] at hdrop
    obtain ⟨-, hbody⟩ := skip_eq text isBlank i blanks _ hdrop hblanks (fun c hc => by
      cases len with
      | zero => omega
      | succ len =>
        rw [← Option.some.inj hc]
        exact hblank)
    obtain ⟨hrun, -⟩ := skip_eq text (fun c => c = fence) _ _ _ hbody
      (fun c hc => by simpa using List.eq_of_mem_replicate hc)
      (fun c hc => by
        rw [decide_eq_false_iff_not]
        rintro rfl
        cases info with
        | nil =>
          rcases hrest with rfl | ⟨q, rfl⟩
          · cases hc
          · exact hbreak (Option.some.inj hc).symm
        | cons x info => exact hinfo hc)
    rw [hrun, List.length_replicate, Nat.add_sub_cancel_left]
  · rintro ⟨hlen, hcount⟩
    have hfirst := drop_skip text isBlank i
    have hsecond := drop_skip text (fun c => c = fence) (skipWhile isBlank text i)
    rw [replicate_run, hcount] at hsecond
    obtain ⟨tail, htail, hend⟩ :=
      line_split text (skipWhile (fun c => c = fence) text (skipWhile isBlank text i))
    refine ⟨_, lineAt text (skipWhile (fun c => c = fence) text (skipWhile isBlank text i)), ?_,
      blank_run text i, ?_, hfence, hlen⟩
    · refine line_eq text i _ tail ?_ ?_ hend
      · rw [List.append_assoc, List.append_assoc, ← htail, ← hsecond]
        exact hfirst
      · rw [List.mem_append, List.mem_append]
        rintro ((hin | hin) | hin)
        · exact blank_no_break _ (blank_run text i) hin
        · exact hbreak (List.eq_of_mem_replicate hin).symm
        · exact line_no_break text _ hin
    · intro hhead
      have hmore : (text.drop (skipWhile (fun c => c = fence) text
          (skipWhile isBlank text i))).head? = some fence := by
        rw [htail, List.head?_append, hhead]
        rfl
      exact absurd (head_skip text (fun c => c = fence) _ fence hmore) (by simp)

/-- A line that the scan takes for a closing fence is one. -/
theorem closes_some (len l e : ℕ) (hl : l ≤ text.length)
    (h : closesLine text fence len l = some e) :
    ClosingLine (lineAt text l) fence len ∧ e = afterLine text l := by
  obtain ⟨-, hbreak⟩ := fence_plain fence hfence
  have hfirst := drop_skip text isBlank l
  have hsecond := drop_skip text (fun c => c = fence) (skipWhile isBlank text l)
  have hthird := drop_skip text isBlank
    (skipWhile (fun c => c = fence) text (skipWhile isBlank text l))
  have hfirstlen : skipWhile isBlank text l = l+((text.drop l).takeWhile isBlank).length := rfl
  have hlastblank := blank_run text
    (skipWhile (fun c => c = fence) text (skipWhile isBlank text l))
  have hk := le_skipWhile text (fun c => c = fence) (skipWhile isBlank text l)
  have hle := skipWhile_le text isBlank _ (skipWhile_le text (fun c => c = fence) _
    (skipWhile_le text isBlank l hl))
  rw [replicate_run] at hsecond
  rw [closesLine] at h
  generalize skipWhile isBlank text l = i at *
  generalize skipWhile (fun c => decide (c = fence)) text i = k at *
  have hthirdlen : skipWhile isBlank text k = k+((text.drop k).takeWhile isBlank).length := rfl
  generalize skipWhile isBlank text k = stop at *
  split at h
  · next hclose =>
    have hrest : text.drop stop = [] ∨ ∃ q, text.drop stop = '\n'::q := by
      rcases hclose.2 with hend | hnl
      · exact Or.inl (List.drop_eq_nil_of_le hend)
      · obtain ⟨hlt, hchar⟩ := List.getElem?_eq_some_iff.mp hnl
        exact Or.inr ⟨_, by rw [List.drop_eq_getElem_cons hlt, hchar]⟩
    have hline := line_eq text l ((text.drop l).takeWhile isBlank++List.replicate (k-i) fence++
        (text.drop k).takeWhile isBlank) (text.drop stop)
      (by rw [List.append_assoc, List.append_assoc, ← hthird, ← hsecond]; exact hfirst)
      (by
        rw [List.mem_append, List.mem_append]
        rintro ((hin | hin) | hin)
        · exact blank_no_break _ (blank_run text l) hin
        · exact hbreak (List.eq_of_mem_replicate hin).symm
        · exact blank_no_break _ hlastblank hin) hrest
    refine ⟨⟨_, k-i, _, hline, blank_run text l, hlastblank, hclose.1⟩, ?_⟩
    have hlen := congrArg List.length hline
    rw [List.length_append, List.length_append, List.length_replicate] at hlen
    rw [afterLine, ← Option.some.inj h, hlen]
    split <;> omega
  · cases h

/-- The scan finds every closing fence. -/
theorem closes_none (len l : ℕ) (hlen : 0 < len) (h : closesLine text fence len l = none) :
    ¬ ClosingLine (lineAt text l) fence len := by
  rintro ⟨blanks, n, spaces, hline, hblanks, hspaces, hn⟩
  obtain ⟨hblank, hbreak⟩ := fence_plain fence hfence
  obtain ⟨rest, hdrop, hrest⟩ := line_split text l
  rw [hline, List.append_assoc, List.append_assoc] at hdrop
  have hstop (c : Char) (hc : rest.head? = some c) : c = '\n' := by
    rcases hrest with rfl | ⟨q, rfl⟩
    · cases hc
    · exact (Option.some.inj hc).symm
  obtain ⟨hfirst, hbody⟩ := skip_eq text isBlank l blanks _ hdrop hblanks (fun c hc => by
    cases n with
    | zero => omega
    | succ n =>
      rw [← Option.some.inj hc]
      exact hblank)
  obtain ⟨hsecond, htail⟩ := skip_eq text (fun c => c = fence) _ _ _ hbody
    (fun c hc => by simpa using List.eq_of_mem_replicate hc)
    (fun c hc => by
      rw [decide_eq_false_iff_not]
      rintro rfl
      cases spaces with
      | nil => exact hbreak (hstop c hc)
      | cons x spaces =>
        rw [← Option.some.inj hc, hspaces x List.mem_cons_self] at hblank
        cases hblank)
  obtain ⟨-, hend⟩ := skip_eq text isBlank _ spaces rest htail hspaces
    (fun c hc => by
      rw [hstop c hc]
      rfl)
  rw [closesLine] at h
  generalize skipWhile isBlank text l = i at *
  generalize skipWhile (fun c => decide (c = fence)) text i = k at *
  generalize skipWhile isBlank text k = stop at *
  have hcount : len ≤ k-i := by
    rw [hsecond, List.length_replicate, Nat.add_sub_cancel_left]
    exact hn
  have hover : text.length ≤ stop ∨ text[stop]? = some '\n' := by
    rcases hrest with rfl | ⟨q, rfl⟩
    · exact Or.inl (List.drop_eq_nil_iff.mp hend)
    · right
      rw [← List.head?_drop, hend]
      rfl
  rw [if_pos ⟨hcount, hover⟩] at h
  cases h

omit hfence in
theorem closing_short (len l : ℕ) (hlen : 0 < len) (hl : text.length ≤ l) :
    ¬ ClosingLine (lineAt text l) fence len := by
  rintro ⟨blanks, n, spaces, hline, -, -, hn⟩
  rw [lineAt, List.drop_eq_nil_of_le hl] at hline
  have hcount := congrArg List.length hline
  simp only [List.takeWhile_nil, List.length_nil, List.length_append,
    List.length_replicate] at hcount
  omega

/-- The scan from a line on finds the end of the block. -/
theorem closing_end (len : ℕ) (hlen : 0 < len) (fuel line : ℕ) (hline : LineStart text line)
    (hle : line ≤ text.length) (hfuel : text.length-line ≤ fuel) :
    BlockEnd text fence len line ((closingFence text fence len fuel line).getD text.length) := by
  induction fuel generalizing line with
  | zero =>
    right
    refine ⟨fun l _ hl => closing_short text fence len l hlen (by omega), rfl⟩
  | succ fuel ih =>
    rw [closingFence_step]
    split
    · next hend =>
      right
      exact ⟨fun l _ hl => closing_short text fence len l hlen (by omega), rfl⟩
    · next hin =>
      cases hclose : closesLine text fence len line with
      | some e =>
        obtain ⟨hclosing, he⟩ := closes_some text fence hfence len line e hle hclose
        left
        refine ⟨line, ⟨⟨hline, Nat.le_refl _, hclosing⟩, ?_⟩, he⟩
        intro m _ hm hlt
        omega
      | none =>
        have hnot := closes_none text fence hfence len line hlen hclose
        have hnext := nextLine_eq text line
        have hlast (l : ℕ) (hl : LineStart text l) (hlt : line < l) :=
          line_beyond text line l hl hlt
        split at hnext
        · next hlt =>
          have hafter : afterLine text line = line+(lineAt text line).length+1 :=
            Nat.min_eq_left hlt
          have hstart := next_start text line hlt
          rw [hafter] at hstart
          have hend := ih _ hstart hlt (by omega)
          rw [hnext]
          dsimp only [Option.bind_some]
          rcases hend with ⟨l, ⟨⟨hl, hle', hclosing⟩, hfirst⟩, he⟩ | ⟨hnone, he⟩
          · refine Or.inl ⟨l, ⟨⟨hl, by omega, hclosing⟩, fun m hm hline' hlt' => ?_⟩, he⟩
            rcases Nat.eq_or_lt_of_le hline' with rfl | hbeyond
            · exact hnot
            · have hm' := (hlast m hm hbeyond).1
              exact hfirst m hm (by omega) hlt'
          · refine Or.inr ⟨fun m hm hline' => ?_, he⟩
            rcases Nat.eq_or_lt_of_le hline' with rfl | hbeyond
            · exact hnot
            · have hm' := (hlast m hm hbeyond).1
              exact hnone m hm (by omega)
        · next hge =>
          rw [hnext]
          refine Or.inr ⟨fun m hm hline' => ?_, rfl⟩
          rcases Nat.eq_or_lt_of_le hline' with rfl | hbeyond
          · exact hnot
          · have hm' := hlast m hm hbeyond
            omega

end lines

section blocks

variable (text : List Char)

variable (fuel i : ℕ) (fence : Char)

theorem fence_char (j : ℕ) (h : 0 < skipWhile (fun c => c = fence) text j-j) :
    text[j]? = some fence := by
  by_contra hne
  have hskip := skip_none text (fun c => c = fence) j (fun c hc => by
    rw [decide_eq_false_iff_not]
    rintro rfl
    exact hne hc)
  omega

theorem fenceLine_unique (i : ℕ) (f g : Char) (m n : ℕ) (hf : FenceLine (lineAt text i) f m)
    (hg : FenceLine (lineAt text i) g n) : f = g ∧ m = n := by
  obtain ⟨-, -, -, -, -, hf', -⟩ := id hf
  obtain ⟨-, -, -, -, -, hg', -⟩ := id hg
  obtain ⟨hm, hcountf⟩ := (fenceLine_iff text f hf' i m).mp hf
  obtain ⟨hn, hcountg⟩ := (fenceLine_iff text g hg' i n).mp hg
  have hcharf := fence_char text f _ (by rw [hcountf]; omega)
  have hcharg := fence_char text g _ (by rw [hcountg]; omega)
  obtain rfl : f = g := Option.some.inj (hcharf.symm.trans hcharg)
  exact ⟨rfl, hcountf.symm.trans hcountg⟩

theorem firstClosing_unique (len i l m : ℕ) (hl : FirstClosing text fence len i l)
    (hm : FirstClosing text fence len i m) : l = m := by
  rcases Nat.lt_trichotomy l m with h | h | h
  · exact absurd hl.1.2.2 (hm.2 l hl.1.1 hl.1.2.1 h)
  · exact h
  · exact absurd hm.1.2.2 (hl.2 m hm.1.1 hm.1.2.1 h)

theorem blockEnd_unique (len i e e' : ℕ) (h : BlockEnd text fence len i e)
    (h' : BlockEnd text fence len i e') : e = e' := by
  rcases h with ⟨l, hl, rfl⟩ | ⟨hnone, rfl⟩ <;> rcases h' with ⟨m, hm, rfl⟩ | ⟨hnone', rfl⟩
  · rw [firstClosing_unique text fence len i l m hl hm]
  · exact absurd hl.1.2.2 (hnone' l hl.1.1 hl.1.2.1)
  · exact absurd hm.1.2.2 (hnone m hm.1.1 hm.1.2.1)
  · rfl

theorem block_unique (i e e' : ℕ) (h : Block text i e) (h' : Block text i e') : e = e' := by
  obtain ⟨-, f, m, hf, he⟩ := h
  obtain ⟨-, g, n, hg, he'⟩ := h'
  obtain ⟨rfl, rfl⟩ := fenceLine_unique text i f g m n hf hg
  exact blockEnd_unique text f m (i+1) e e' he he'

theorem next_unique (i j j' : ℕ) (h : Next text i j) (h' : Next text i j') : j = j' := by
  cases h with
  | line _ hplain _ =>
    cases h' with
    | line => rfl
    | block _ hblock =>
      obtain ⟨-, f, m, hf, -⟩ := hblock
      exact absurd hf (hplain f m)
  | block _ hblock =>
    cases h' with
    | line _ hplain _ =>
      obtain ⟨-, f, m, hf, -⟩ := hblock
      exact absurd hf (hplain f m)
    | block _ hblock' => exact block_unique text i j j' hblock hblock'

theorem blockEnd_shift (len a b e : ℕ) (h : ∀ l, LineStart text l → (a ≤ l ↔ b ≤ l))
    (hend : BlockEnd text fence len a e) :
    BlockEnd text fence len b e := by
  rcases hend with ⟨l, ⟨⟨hl, hle, hclosing⟩, hfirst⟩, he⟩ | ⟨hnone, he⟩
  · exact Or.inl ⟨l, ⟨⟨hl, (h l hl).mp hle, hclosing⟩,
      fun m hm hle' => hfirst m hm ((h m hm).mpr hle')⟩, he⟩
  · exact Or.inr ⟨fun l hl hle => hnone l hl ((h l hl).mpr hle), he⟩

theorem fenced_end (h : text.length ≤ i) : fencedRegions text fuel i = [] := by
  cases fuel with
  | zero => rfl
  | succ fuel =>
    rw [fencedRegions]
    exact if_pos h

theorem skipped_line : (match nextLine text i with
      | some next => fencedRegions text fuel next
      | none => []) =
    if i+(lineAt text i).length < text.length then fencedRegions text fuel (afterLine text i)
    else [] := by
  have hnext := nextLine_eq text i
  by_cases hlast : i+(lineAt text i).length < text.length
  · rw [hnext, if_pos hlast, if_pos hlast, afterLine, Nat.min_eq_left hlast]
  · rw [hnext, if_neg hlast, if_neg hlast]

/-- What the first pass does with a line. -/
theorem fenced_step (hi : LineStart text i) (hlt : i < text.length) :
    (∃ e, Block text i e ∧
      fencedRegions text (fuel+1) i = ⟨i, e⟩::fencedRegions text fuel e) ∨
    (∀ fence len, ¬ FenceLine (lineAt text i) fence len) ∧
      fencedRegions text (fuel+1) i =
        if i+(lineAt text i).length < text.length then fencedRegions text fuel (afterLine text i)
        else [] := by
  have hstart : ¬ (0 < i ∧ text[i-1]? ≠ some '\n') := by
    rintro ⟨hpos, hne⟩
    rcases hi with rfl | ⟨-, hbreak⟩
    · exact absurd hpos (Nat.lt_irrefl 0)
    · exact hne hbreak
  have hnext := nextLine_eq text i
  have hblank := nextLine_skip text isBlank rfl i
  have hskipped := skipped_line text fuel i
  rw [fencedRegions, if_neg (not_le.mpr hlt), if_neg hstart]
  dsimp only
  cases hchar : text[skipWhile isBlank text i]? with
  | none =>
    right
    refine ⟨fun fence len hfence => ?_, ?_⟩
    · obtain ⟨-, -, -, -, -, hkind, -⟩ := id hfence
      obtain ⟨hlen, hcount⟩ := (fenceLine_iff text fence hkind i len).mp hfence
      have hsome := fence_char text fence _ (by rw [hcount]; omega)
      rw [hchar] at hsome
      cases hsome
    · have hend : nextLine text (skipWhile isBlank text i) = none := by
        rw [nextLine, List.drop_eq_nil_of_le (List.getElem?_eq_none_iff.mp hchar)]
        rfl
      rw [hend] at hblank
      rw [← hblank] at hskipped
      exact hskipped
  | some c =>
    dsimp only
    split
    · next hother =>
      right
      refine ⟨fun fence len hfence => ?_, ?_⟩
      · obtain ⟨-, -, -, -, -, hkind, -⟩ := id hfence
        obtain ⟨hlen, hcount⟩ := (fenceLine_iff text fence hkind i len).mp hfence
        have hsome := fence_char text fence _ (by rw [hcount]; omega)
        obtain rfl : c = fence := Option.some.inj (hchar.symm.trans hsome)
        rcases hother with ⟨htick, htilde⟩ | hshort
        · exact hkind.elim htick htilde
        · omega
      · rw [← hblank] at hskipped
        exact hskipped
    · next hfence =>
      left
      rw [not_or, not_lt] at hfence
      have hkind : c = '\x60' ∨ c = '~' := by
        by_contra hne
        exact hfence.1 (not_or.mp hne)
      have hline := (fenceLine_iff text c hkind i _).mpr ⟨hfence.2, rfl⟩
      have hrun := nextLine_skip text (fun d => d = c)
        (by rcases hkind with rfl | rfl <;> rfl) (skipWhile isBlank text i)
      rw [hblank, hnext] at hrun
      by_cases hlt' : i+(lineAt text i).length < text.length
      · rw [hrun, if_pos hlt']
        have hbody := next_start text i hlt'
        have hafter : afterLine text i = i+(lineAt text i).length+1 := Nat.min_eq_left hlt'
        rw [hafter] at hbody
        have hend := closing_end text c hkind (skipWhile (fun d => d = c) text
          (skipWhile isBlank text i)-skipWhile isBlank text i) (by omega) text.length _ hbody hlt'
          (by omega)
        have hblock := blockEnd_shift text c _ _ (i+1) _ (fun l hl => by
          refine ⟨fun hle => by omega, fun hle => ?_⟩
          have hbeyond := line_beyond text i l hl hle
          omega) hend
        refine ⟨_, ⟨hi, c, _, hline, hblock⟩, ?_⟩
        dsimp only
        cases closingFence text c (skipWhile (fun d => d = c) text (skipWhile isBlank text i)-
            skipWhile isBlank text i) text.length (i+(lineAt text i).length+1) with
        | some stop => rfl
        | none =>
          rw [Option.getD_none, fenced_end text fuel _ (Nat.le_refl _)]
      · rw [hrun, if_neg hlt']
        refine ⟨text.length, ⟨hi, c, _, hline, Or.inr ⟨fun l hl hle => ?_, rfl⟩⟩, ?_⟩
        · have hbeyond := line_beyond text i l hl hle
          omega
        · rw [fenced_end text fuel _ (Nat.le_refl _)]

theorem block_bounds (i e : ℕ) (h : Block text i e) : i < e ∧ e ≤ text.length := by
  obtain ⟨hi, fence, len, ⟨blanks, info, hline, -, -, -, hlen⟩, hend⟩ := h
  have hlt : i < text.length := by
    by_contra hge
    rw [lineAt, List.drop_eq_nil_of_le (not_lt.mp hge)] at hline
    have hcount := congrArg List.length hline
    simp only [List.takeWhile_nil, List.length_nil, List.length_append,
      List.length_replicate] at hcount
    omega
  rcases hend with ⟨l, ⟨⟨hl, hle, -⟩, -⟩, rfl⟩ | ⟨-, rfl⟩
  · rw [afterLine]
    omega
  · exact ⟨hlt, Nat.le_refl _⟩

theorem block_break (i e : ℕ) (h : Block text i e) :
    LineStart text e ∨ e = text.length := by
  obtain ⟨hi, fence, len, -, ⟨l, -, rfl⟩ | ⟨-, rfl⟩⟩ := h
  · by_cases hlt : l+(lineAt text l).length < text.length
    · exact Or.inl (next_start text l hlt)
    · right
      rw [afterLine]
      omega
  · exact Or.inr rfl

theorem next_start_or_end (i j : ℕ) (h : Next text i j) :
    LineStart text j ∨ j = text.length := by
  cases h with
  | line _ _ hlt => exact Or.inl (next_start text i hlt)
  | block _ hblock => exact block_break text i j hblock

theorem next_increases (i j : ℕ) (h : Next text i j) : i < j ∧ j ≤ text.length := by
  cases h with
  | line _ _ hlt =>
    rw [afterLine]
    omega
  | block _ hblock => exact block_bounds text i j hblock

/-- The regions of the first pass are blocks that it comes to. -/
theorem fenced_sound (hreached : Relation.ReflTransGen (Next text) 0 i)
    (hi : LineStart text i ∨ i = text.length) :
    ∀ r ∈ fencedRegions text fuel i, Fenced text r.start r.stop := by
  induction fuel generalizing i with
  | zero => exact fun r hr => absurd hr List.not_mem_nil
  | succ fuel ih =>
    intro r hr
    by_cases hlt : i < text.length
    · have hline := hi.resolve_right hlt.ne
      rcases fenced_step text fuel i hline hlt with ⟨e, hblock, heq⟩ | ⟨hplain, heq⟩
      · rw [heq, List.mem_cons] at hr
        rcases hr with rfl | hr
        · exact ⟨hreached, hblock⟩
        · exact ih e (hreached.tail (Next.block i e hblock)) (block_break text i e hblock) r hr
      · rw [heq] at hr
        split at hr
        · next hnext =>
          exact ih _ (hreached.tail (Next.line i hline hplain hnext))
            (Or.inl (next_start text i hnext)) r hr
        · exact absurd hr List.not_mem_nil
    · rw [fenced_end text _ i (not_lt.mp hlt)] at hr
      exact absurd hr List.not_mem_nil

/-- Every block that the first pass comes to is one of its regions. -/
theorem fenced_complete (fuel i s e : ℕ) (hfuel : text.length-i ≤ fuel)
    (hi : LineStart text i ∨ i = text.length) (hs : Relation.ReflTransGen (Next text) i s)
    (hblock : Block text s e) : CodeRegion.mk s e ∈ fencedRegions text fuel i := by
  have hbounds := block_bounds text s e hblock
  induction fuel generalizing i with
  | zero =>
    rcases Relation.ReflTransGen.cases_head hs with rfl | ⟨j, hj, -⟩
    · omega
    · have hstep := next_increases text i j hj
      omega
  | succ fuel ih =>
    have hlt : i < text.length := by
      rcases Relation.ReflTransGen.cases_head hs with rfl | ⟨j, hj, -⟩
      · omega
      · have hstep := next_increases text i j hj
        omega
    have hline := hi.resolve_right hlt.ne
    -- the next position of the pass is the one that the run goes to
    have hlater (j : ℕ) (hj : Next text i j) (hne : s ≠ i) :
        CodeRegion.mk s e ∈ fencedRegions text fuel j := by
      have hincreases := next_increases text i j hj
      rcases Relation.ReflTransGen.cases_head hs with heq | ⟨k, hk, hrest⟩
      · exact absurd heq.symm hne
      · rw [next_unique text i k j hk hj] at hrest
        exact ih j (by omega) (next_start_or_end text i j hj) hrest
    rcases fenced_step text fuel i hline hlt with ⟨e', hblock', heq⟩ | ⟨hplain, heq⟩
    · rw [heq, List.mem_cons]
      by_cases hsame : s = i
      · subst hsame
        rw [block_unique text s e e' hblock hblock']
        exact Or.inl rfl
      · exact Or.inr (hlater e' (Next.block i e' hblock') hsame)
    · have hne : s ≠ i := by
        rintro rfl
        obtain ⟨-, f, m, hf, -⟩ := hblock
        exact hplain f m hf
      have hnext : i+(lineAt text i).length < text.length := by
        rcases Relation.ReflTransGen.cases_head hs with heq' | ⟨k, hk, -⟩
        · exact absurd heq'.symm hne
        · cases hk with
          | line _ _ h => exact h
          | block _ hb =>
            obtain ⟨-, f, m, hf, -⟩ := hb
            exact absurd hf (hplain f m)
      rw [heq, if_pos hnext]
      exact hlater _ (Next.line i hline hplain hnext) hne

theorem fenced_iff (s e : ℕ) :
    CodeRegion.mk s e ∈ fencedRegions text text.length 0 ↔ Fenced text s e := by
  constructor
  · exact fenced_sound text text.length 0 Relation.ReflTransGen.refl (Or.inl (Or.inl rfl)) _
  · rintro ⟨hreached, hblock⟩
    exact fenced_complete text text.length 0 s e (Nat.sub_le _ _) (Or.inl (Or.inl rfl)) hreached
      hblock

/-- Each block begins behind the end of the one before. -/
theorem fenced_apart (hi : LineStart text i ∨ i = text.length) :
    (fencedRegions text fuel i).Pairwise (fun a b => a.stop ≤ b.start) := by
  induction fuel generalizing i with
  | zero => exact List.Pairwise.nil
  | succ fuel ih =>
    by_cases hlt : i < text.length
    · rcases fenced_step text fuel i (hi.resolve_right hlt.ne) hlt with
        ⟨e, hblock, heq⟩ | ⟨-, heq⟩
      · rw [heq, List.pairwise_cons]
        exact ⟨fenced_starts text fuel e, ih e (block_break text i e hblock)⟩
      · rw [heq]
        split
        · next hnext => exact ih _ (Or.inl (next_start text i hnext))
        · exact List.Pairwise.nil
    · rw [fenced_end text _ i (not_lt.mp hlt)]
      exact List.Pairwise.nil

end blocks

end IronClaw.FencedBlocks
