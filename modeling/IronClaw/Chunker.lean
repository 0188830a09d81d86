import IronClaw.Lib.Text
import IronClaw.Lib.Windows
import IronClaw.Lib.Words

/-!
# Chunks of a document

`chunk_document` of `workspace/chunker.rs`: windows of `chunk_size` words that
overlap, with a short rest merged into the last one. The share of a size that
the overlap takes is computed in floating point and comes from outside. Texts
are lists of characters; a loop that has not ended after one turn for each word
gives nothing.
-/

set_option autoImplicit false

namespace IronClaw.Chunker
open Lib.Text Lib.Words Lib.Windows

structure ChunkConfig (Percent : Type) where
  chunkSize : ℕ
  overlapPercent : Percent
  minChunkSize : ℕ

section Chunk

variable {Percent : Type} (share : ℕ → Percent → ℕ)

def overlapSize (config : ChunkConfig Percent) : ℕ :=
  share config.chunkSize config.overlapPercent

def stepSize (config : ChunkConfig Percent) : ℕ := config.chunkSize-overlapSize share config

def wordsOf (text : List Char) : List (List Char) := words isWhitespace text

def join (ws : List (List Char)) : List Char := [' '].intercalate ws

def chunkLoop (config : ChunkConfig Percent) (ws : List (List Char)) :
    ℕ → ℕ → List (List Char) → Option (List (List Char))
  | 0, _, _ => none
  | fuel+1, start, chunks =>
    if ws.length ≤ start then some chunks
    else
      let stop := min (start+config.chunkSize) ws.length
      let chunkWords := run ws start stop
      -- a tiny rest goes to the chunk before it, when there is one
      match if chunkWords.length < config.minChunkSize then chunks.getLast? else none with
      | some last => some (chunks.dropLast++[last++ ' '::join chunkWords])
      | none =>
        let chunks := chunks++[join chunkWords]
        let start := start+stepSize share config
        if ws.length ≤ start+config.minChunkSize ∧ stop = ws.length then some chunks
        else chunkLoop config ws fuel start chunks

def chunkDocument (content : List Char) (config : ChunkConfig Percent) :
    Option (List (List Char)) :=
  let ws := wordsOf content
  if content = [] ∨ ws = [] then some []
  else if ws.length ≤ config.chunkSize then some [content]
  else chunkLoop share config ws (ws.length+1) 0 []

end Chunk

structure Covers (content : List Char) (size : ℕ) (chunks : List (List Char)) : Prop where
  every : ∀ w ∈ wordsOf content, ∃ chunk ∈ chunks, w ∈ wordsOf chunk
  ordered : (wordsOf content).Sublist (chunks.flatMap wordsOf)
  sized : ∀ chunk ∈ chunks.dropLast, (wordsOf chunk).length ≤ size
  blank : chunks = [] → wordsOf content = []

section words

theorem wordsOf_word (content w : List Char) (h : w ∈ wordsOf content) :
    IsWord isWhitespace w := by
  induction hws : wordsOf content generalizing content with
  | nil =>
    rw [hws] at h
    cases h
  | cons v ws ih =>
    obtain ⟨g, rest, -, -, hv, hrest, -⟩ := words_first content v ws hws
    rw [hws, List.mem_cons] at h
    obtain h | h := h
    · rwa [h]
    · rw [← hrest] at h
      exact ih rest h hrest

theorem wordsOf_join (ws : List (List Char)) (h : ∀ w ∈ ws, IsWord isWhitespace w) :
    wordsOf (join ws) = ws := by
  rw [wordsOf, join, words_intercalate ' ' (by decide)]
  induction ws with
  | nil => rfl
  | cons w ws ih =>
    rw [List.flatMap_cons, words_word w (h w List.mem_cons_self),
      ih (fun v hv => h v (List.mem_cons_of_mem w hv))]
    rfl

theorem wordsOf_run (content : List Char) (a b : ℕ) :
    wordsOf (join (run (wordsOf content) a b)) = run (wordsOf content) a b :=
  wordsOf_join _ (fun w hw => wordsOf_word content w (mem_run _ a b w hw))

theorem wordsOf_merged (last : List Char) (content : List Char) (a b : ℕ) :
    wordsOf (last++ ' '::join (run (wordsOf content) a b)) =
      wordsOf last++run (wordsOf content) a b := by
  rw [wordsOf, words_append _ _ ' ' (by decide)]
  exact congrArg _ (wordsOf_run content a b)

end words

section covering

variable {Percent : Type} {share : ℕ → Percent → ℕ}

/-- What one turn of the loop does. -/
theorem chunkLoop_succ (config : ChunkConfig Percent) (ws : List (List Char)) (fuel start : ℕ)
    (chunks : List (List Char)) :
    chunkLoop share config ws (fuel+1) start chunks =
      if ws.length ≤ start then some chunks
      else match if (run ws start (min (start+config.chunkSize) ws.length)).length <
          config.minChunkSize then chunks.getLast? else none with
        | some last => some (chunks.dropLast++
            [last++ ' '::join (run ws start (min (start+config.chunkSize) ws.length))])
        | none =>
          if ws.length ≤ start+stepSize share config+config.minChunkSize ∧
              min (start+config.chunkSize) ws.length = ws.length then
            some (chunks++[join (run ws start (min (start+config.chunkSize) ws.length))])
          else chunkLoop share config ws fuel (start+stepSize share config)
            (chunks++[join (run ws start (min (start+config.chunkSize) ws.length))]) := rfl

structure Going (content : List Char) (config : ChunkConfig Percent) (share : ℕ → Percent → ℕ)
    (start : ℕ) (chunks : List (List Char)) (e : ℕ) : Prop where
  ordered : ((wordsOf content).take e).Sublist (chunks.flatMap wordsOf)
  sized : ∀ chunk ∈ chunks, (wordsOf chunk).length ≤ config.chunkSize
  near : start ≤ e ∨ (wordsOf content).length ≤ e
  later : chunks = [] ∧ start = 0 ∨ chunks ≠ [] ∧ stepSize share config ≤ start

theorem covers_of (content : List Char) (size : ℕ) (chunks : List (List Char))
    (hne : wordsOf content ≠ []) (hordered : (wordsOf content).Sublist (chunks.flatMap wordsOf))
    (hsized : ∀ chunk ∈ chunks.dropLast, (wordsOf chunk).length ≤ size) :
    Covers content size chunks where
  every := fun w hw => List.mem_flatMap.mp (hordered.subset hw)
  ordered := hordered
  sized := hsized
  blank := by
    intro h
    rw [h, List.flatMap_nil, List.sublist_nil] at hordered
    exact absurd hordered hne

variable {content : List Char} {config : ChunkConfig Percent}

theorem Going.start_le {start e : ℕ} {chunks : List (List Char)}
    (h : Going content config share start chunks e) (hstart : start < (wordsOf content).length) :
    start ≤ e := by
  have hnear := h.near
  omega

theorem Going.extended {start e : ℕ} {chunks : List (List Char)}
    (h : Going content config share start chunks e) (hstart : start < (wordsOf content).length)
    (stop : ℕ) : ((wordsOf content).take stop).Sublist
      (chunks.flatMap wordsOf++run (wordsOf content) start stop) :=
  take_sublist _ _ _ _ _ (h.start_le hstart) h.ordered

theorem going_start : Going content config share 0 [] 0 where
  ordered := by rw [List.take_zero]; exact List.nil_sublist _
  sized := by simp
  near := Or.inl (Nat.le_refl 0)
  later := Or.inl ⟨rfl, rfl⟩

theorem going_pushed {start e : ℕ} {chunks : List (List Char)}
    (h : Going content config share start chunks e) (hstart : start < (wordsOf content).length) :
    Going content config share (start+stepSize share config)
      (chunks++[join (run (wordsOf content) start
        (min (start+config.chunkSize) (wordsOf content).length))])
      (min (start+config.chunkSize) (wordsOf content).length) where
  ordered := by
    rw [List.flatMap_append, List.flatMap_singleton, wordsOf_run]
    exact h.extended hstart _
  sized := by
    intro chunk hchunk
    rw [List.mem_append, List.mem_singleton] at hchunk
    obtain hchunk | hchunk := hchunk
    · exact h.sized chunk hchunk
    · rw [hchunk, wordsOf_run, run_length _ _ _ (Nat.min_le_right _ _)]
      omega
  near := by
    have hstep : stepSize share config ≤ config.chunkSize := Nat.sub_le _ _
    omega
  later := Or.inr ⟨by simp, Nat.le_add_left _ _⟩

theorem merged_words (start stop : ℕ) (chunks : List (List Char)) (last : List Char)
    (hlast : chunks.getLast? = some last) :
    (chunks.dropLast++[last++ ' '::join (run (wordsOf content) start stop)]).flatMap wordsOf =
      chunks.flatMap wordsOf++run (wordsOf content) start stop := by
  obtain ⟨before, hbefore⟩ := List.getLast?_eq_some_iff.mp hlast
  rw [hbefore, List.dropLast_concat, List.flatMap_append, List.flatMap_singleton, wordsOf_merged,
    List.flatMap_append, List.flatMap_singleton, List.append_assoc]

/-- The loop ends with all words in the chunks when no full window is taken for
a tiny rest, or when the second window is the last one anyway. -/
theorem going_covers (hover : overlapSize share config < config.chunkSize)
    (hloss : config.minChunkSize ≤ config.chunkSize ∨
      (wordsOf content).length ≤ stepSize share config+config.chunkSize)
    (fuel start e : ℕ) (chunks : List (List Char))
    (h : Going content config share start chunks e)
    (hfuel : (wordsOf content).length < start+fuel) (hturn : 0 < fuel) :
    ∃ out, chunkLoop share config (wordsOf content) fuel start chunks = some out ∧
      (wordsOf content).Sublist (out.flatMap wordsOf) ∧
      ∀ chunk ∈ out.dropLast, (wordsOf chunk).length ≤ config.chunkSize := by
  have hpos : 1 ≤ stepSize share config := by
    rw [stepSize]
    omega
  -- on the turns left, the positions go up by a step in each
  induction fuel generalizing start e chunks with
  | zero => omega
  | succ fuel ih =>
    rw [chunkLoop_succ]
    by_cases hend : (wordsOf content).length ≤ start
    · rw [if_pos hend]
      have hfull : (wordsOf content).length ≤ e := by
        have hnear := h.near
        omega
      have hordered := h.ordered
      rw [List.take_of_length_le hfull] at hordered
      exact ⟨chunks, rfl, hordered, fun c hc => h.sized c (List.mem_of_mem_dropLast hc)⟩
    · rw [if_neg hend]
      have hstart : start < (wordsOf content).length := Nat.lt_of_not_le hend
      generalize hstop : min (start+config.chunkSize) (wordsOf content).length = stop
      have hlen := run_length (wordsOf content) start stop (by omega)
      split
      · next last hmerge =>
        obtain ⟨hshort, hlast⟩ := Option.ite_none_right_eq_some.mp hmerge
        obtain ⟨-, hfirst⟩ := h.later.resolve_left (fun hnil => by simp [hnil.1] at hlast)
        have hwhole : stop = (wordsOf content).length := by omega
        have hordered := h.extended hstart stop
        rw [hwhole, List.take_length] at hordered
        refine ⟨_, rfl, ?_, fun c hc => ?_⟩
        · rw [merged_words start stop chunks last hlast, hwhole]
          exact hordered
        · rw [List.dropLast_concat] at hc
          exact h.sized c (List.mem_of_mem_dropLast hc)
      · have hpushed := going_pushed h hstart
        rw [hstop] at hpushed
        split
        · next hbreak =>
          have hordered := hpushed.ordered
          rw [List.take_of_length_le hbreak.2.ge] at hordered
          exact ⟨_, rfl, hordered, fun c hc => hpushed.sized c (List.mem_of_mem_dropLast hc)⟩
        · exact ih _ _ _ hpushed (by omega) (by omega)

/-- When the second window is short of the minimum and of the end, it is merged
into the first and the rest is left. -/
theorem loop_cut (hmin : config.chunkSize < config.minChunkSize)
    (hlen : stepSize share config+config.chunkSize < (wordsOf content).length) (fuel : ℕ) :
    ∃ chunk, chunkLoop share config (wordsOf content) (fuel+2) 0 [] = some [chunk] ∧
      wordsOf chunk = (wordsOf content).take config.chunkSize++
        run (wordsOf content) (stepSize share config)
          (stepSize share config+config.chunkSize) := by
  have hfirst : min (0+config.chunkSize) (wordsOf content).length = config.chunkSize := by omega
  have hsecond : min (stepSize share config+config.chunkSize) (wordsOf content).length =
      stepSize share config+config.chunkSize := by omega
  have hshort := run_length (wordsOf content) (stepSize share config)
    (stepSize share config+config.chunkSize) (by omega)
  refine ⟨join (run (wordsOf content) 0 config.chunkSize)++ ' '::join (run (wordsOf content)
    (stepSize share config) (stepSize share config+config.chunkSize)), ?_, ?_⟩
  · rw [chunkLoop_succ, if_neg (by omega), hfirst, List.getLast?_nil, ite_self]
    simp only
    rw [if_neg (by omega), chunkLoop_succ, Nat.zero_add, if_neg (by omega), hsecond,
      if_pos (by omega)]
    rfl
  · rw [wordsOf_merged, wordsOf_run]
    rfl

theorem chunkDocument_long (hlen : config.chunkSize < (wordsOf content).length) :
    chunkDocument share content config =
      chunkLoop share config (wordsOf content) ((wordsOf content).length+1) 0 [] := by
  have hne : wordsOf content ≠ [] := by
    intro h
    rw [h] at hlen
    exact absurd hlen (Nat.not_lt_zero _)
  have hcontent : content ≠ [] := by
    intro h
    rw [h] at hne
    exact hne rfl
  rw [chunkDocument, if_neg (by tauto), if_neg (by omega)]

theorem chunkDocument_short (hlen : (wordsOf content).length ≤ config.chunkSize) :
    ∃ chunks, chunkDocument share content config = some chunks ∧
      Covers content config.chunkSize chunks := by
  by_cases hne : wordsOf content = []
  · refine ⟨[], ?_, ?_, ?_, ?_, ?_⟩
    · rw [chunkDocument, if_pos (Or.inr hne)]
    all_goals simp [hne]
  · have hcontent : content ≠ [] := by
      intro h
      rw [h] at hne
      exact hne rfl
    refine ⟨[content], ?_, covers_of content _ [content] hne (by simp) (by simp)⟩
    rw [chunkDocument, if_neg (by tauto), if_pos hlen]

end covering

def hundredths (size percent : ℕ) : ℕ := size*percent/100

section windows

variable {Percent : Type} {share : ℕ → Percent → ℕ} {content : List Char}
variable {config : ChunkConfig Percent}

def piece (ws : List (List Char)) (step size j : ℕ) : List Char :=
  join (run ws (j*step) (j*step+size))

theorem words_piece (step size j : ℕ) : wordsOf (piece (wordsOf content) step size j) =
    run (wordsOf content) (j*step) (j*step+size) := wordsOf_run content _ _

theorem loop_pieces (hmin : config.minChunkSize ≤ config.chunkSize) (ws : List (List Char))
    (k fuel : ℕ) (hfull : ∀ j < k, j*stepSize share config+config.chunkSize < ws.length) :
    chunkLoop share config ws (fuel+k) 0 [] =
      chunkLoop share config ws fuel (k*stepSize share config)
        ((List.range k).map (piece ws (stepSize share config) config.chunkSize)) := by
  induction k generalizing fuel with
  | zero => rw [Nat.zero_mul]; rfl
  | succ k ih =>
    have hk := hfull k (Nat.lt_succ_self k)
    have hstop : min (k*stepSize share config+config.chunkSize) ws.length =
        k*stepSize share config+config.chunkSize := by omega
    have hlen := run_length ws (k*stepSize share config)
      (k*stepSize share config+config.chunkSize) (by omega)
    rw [← Nat.add_assoc, Nat.add_right_comm, ih (fuel+1) (fun j hj => hfull j (by omega)),
      chunkLoop_succ, hstop, if_neg (by omega), if_neg (by omega)]
    simp only
    rw [if_neg (by omega), List.range_succ, List.map_append, Nat.succ_mul]
    rfl

def tailWords (len size o : ℕ) : ℕ := o+1+(len-size-1)%(size-o)

theorem tail_index (len size o : ℕ) (hlen : size < len) (ho : o < size) :
    ∃ i, (i+1)*(size-o)+tailWords len size o = len ∧ o < tailWords len size o ∧
      tailWords len size o ≤ size := by
  have hdiv := Nat.div_add_mod' (len-size-1) (size-o)
  have hmod := Nat.mod_lt (len-size-1) (by omega : 0 < size-o)
  refine ⟨(len-size-1)/(size-o), ?_, ?_, ?_⟩
  · rw [tailWords, Nat.succ_mul]
    omega
  · rw [tailWords]
    omega
  · rw [tailWords]
    omega

/-- The last turns: the tail is merged, ends the chunks, or is followed by a
window inside it. -/
theorem loop_tail (ho : 2*overlapSize share config ≤ config.chunkSize)
    (ws : List (List Char)) (i r fuel : ℕ) (hr : overlapSize share config < r)
    (hsize : r ≤ config.chunkSize) (hlen : (i+1)*stepSize share config+r = ws.length) :
    chunkLoop share config ws (fuel+2) ((i+1)*stepSize share config)
      ((List.range (i+1)).map (piece ws (stepSize share config) config.chunkSize)) =
    some (if r < config.minChunkSize then
        (List.range i).map (piece ws (stepSize share config) config.chunkSize)++
          [piece ws (stepSize share config) config.chunkSize i++
            ' '::join (run ws ((i+1)*stepSize share config) ws.length)]
      else if r ≤ stepSize share config+config.minChunkSize then
        (List.range (i+1)).map (piece ws (stepSize share config) config.chunkSize)++
          [join (run ws ((i+1)*stepSize share config) ws.length)]
      else (List.range (i+1)).map (piece ws (stepSize share config) config.chunkSize)++
        [join (run ws ((i+1)*stepSize share config) ws.length),
          join (run ws ((i+2)*stepSize share config) ws.length)]) := by
  have hdef : stepSize share config = config.chunkSize-overlapSize share config := rfl
  generalize hs : (i+1)*stepSize share config = s at hlen ⊢
  have hnext : (i+2)*stepSize share config = s+stepSize share config := by
    rw [← hs, ← Nat.succ_mul]
  have hstop : min (s+config.chunkSize) ws.length = ws.length := by omega
  have hend : min (s+stepSize share config+config.chunkSize) ws.length = ws.length := by omega
  have hfirst := run_length ws s ws.length (Nat.le_refl _)
  have hsecond := run_length ws (s+stepSize share config) ws.length (Nat.le_refl _)
  rw [hnext, chunkLoop_succ, if_neg (by omega), hstop]
  by_cases hmin : r < config.minChunkSize
  · have hlast : ((List.range (i+1)).map (piece ws (stepSize share config)
        config.chunkSize)).getLast? = some (piece ws (stepSize share config) config.chunkSize i) := by
      rw [List.range_succ, List.map_append]
      exact List.getLast?_concat
    rw [if_pos (by omega), hlast, if_pos hmin]
    simp only
    rw [List.range_succ, List.map_append, List.map_singleton, List.dropLast_concat]
  · rw [if_neg (by omega), if_neg hmin]
    simp only
    by_cases hshort : r ≤ stepSize share config+config.minChunkSize
    · rw [if_pos ⟨by omega, trivial⟩, if_pos hshort]
    · rw [if_neg (by omega), if_neg hshort, chunkLoop_succ, if_neg (by omega), hend,
        if_neg (by omega)]
      simp only
      rw [if_pos ⟨by omega, trivial⟩, List.append_assoc]
      rfl

/-- A long text comes to its last turns with all full windows taken. -/
theorem chunkDocument_tail (ho : 2*overlapSize share config ≤ config.chunkSize)
    (hstep : 0 < config.chunkSize) (hmin : config.minChunkSize ≤ config.chunkSize)
    (hlong : config.chunkSize < (wordsOf content).length) (i r : ℕ)
    (hr : overlapSize share config < r) (hsize : r ≤ config.chunkSize)
    (hlen : (i+1)*stepSize share config+r = (wordsOf content).length) :
    ∃ fuel, chunkDocument share content config =
      chunkLoop share config (wordsOf content) (fuel+2) ((i+1)*stepSize share config)
        ((List.range (i+1)).map
          (piece (wordsOf content) (stepSize share config) config.chunkSize)) := by
  have hdef : stepSize share config = config.chunkSize-overlapSize share config := rfl
  have hindex : i+1 ≤ (i+1)*stepSize share config := Nat.le_mul_of_pos_right _ (by omega)
  have hfuel : (wordsOf content).length+1 = (wordsOf content).length-(i+2)+2+(i+1) := by omega
  refine ⟨(wordsOf content).length-(i+2), ?_⟩
  rw [chunkDocument_long hlong, hfuel]
  refine loop_pieces hmin _ (i+1) _ (fun j hj => ?_)
  have hle : (j+1)*stepSize share config ≤ (i+1)*stepSize share config :=
    Nat.mul_le_mul_right _ hj
  rw [Nat.succ_mul] at hle
  omega

theorem words_pieces (step size k : ℕ) :
    ((List.range k).map (piece (wordsOf content) step size)).map wordsOf =
      (List.range k).map (fun j => run (wordsOf content) (j*step) (j*step+size)) := by
  rw [List.map_map]
  exact List.map_congr_left (fun j _ => words_piece step size j)

/-- A merged tail repeats the overlap, so that it fits only without one. -/
theorem merged_laid_iff (ws : List (List Char)) (step o i r : ℕ) (hstep : 0 < step)
    (hr : o < r) (hlen : (i+1)*step+r = ws.length) :
    (∃ windows, Laid ws o
      ((List.range i).map (fun j => run ws (j*step) (j*step+(step+o)))++
        [run ws (i*step) (i*step+(step+o))++run ws ((i+1)*step) ws.length]) windows) ↔ o = 0 := by
  rw [Nat.succ_mul] at hlen ⊢
  have hfull := run_length ws (i*step) (i*step+(step+o)) (by omega)
  have hrest := run_length ws (i*step+step) ws.length (Nat.le_refl _)
  constructor
  · rintro ⟨windows, hlaid⟩
    have hsizes : ∀ p ∈ (List.range i).map (fun j => run ws (j*step) (j*step+(step+o))),
        p.length = step+o := by
      intro p hp
      obtain ⟨j, hj, hjp⟩ := List.mem_map.mp hp
      have hle : (j+1)*step ≤ i*step := Nat.mul_le_mul_right step (List.mem_range.mp hj)
      rw [Nat.succ_mul] at hle
      rw [← hjp, run_length ws _ _ (by omega)]
      omega
    have hreach := hlaid.reach (step+o) _ _ windows hsizes (Nat.le_add_left _ _)
    rw [List.length_map, List.length_range, List.length_append, Nat.add_sub_cancel] at hreach
    omega
  · intro ho
    have hone : run ws (i*step) (i*step+(step+o))++run ws (i*step+step) ws.length =
        run ws (i*step) ws.length := by
      rw [ho, Nat.add_zero]
      exact run_append ws _ _ _ (by omega) (by omega)
    rw [hone]
    exact ⟨_, laid_stepped ws step o i hstep (by omega)⟩

end windows

/-- The chunks of a long text are windows that overlap as told exactly when the
tail is not merged, unless there is no overlap, and no window inside it follows. -/
theorem chunkDocument_laid_iff {Percent : Type} (share : ℕ → Percent → ℕ)
    (config : ChunkConfig Percent) (content : List Char) (hsize : 1 ≤ config.chunkSize)
    (hover : 2*overlapSize share config ≤ config.chunkSize)
    (hmin : config.minChunkSize ≤ config.chunkSize)
    (hlong : config.chunkSize < (wordsOf content).length) :
    (∃ chunks, chunkDocument share content config = some chunks ∧ ∃ windows,
      Laid (wordsOf content) (overlapSize share config) (chunks.map wordsOf) windows) ↔
    (overlapSize share config = 0 ∨ config.minChunkSize ≤ tailWords (wordsOf content).length
      config.chunkSize (overlapSize share config)) ∧
    tailWords (wordsOf content).length config.chunkSize (overlapSize share config) ≤
      stepSize share config+config.minChunkSize := by
  have hdef : stepSize share config = config.chunkSize-overlapSize share config := rfl
  have hwhole : config.chunkSize = stepSize share config+overlapSize share config := by omega
  obtain ⟨i, hlen, hr, hrsize⟩ := tail_index _ config.chunkSize (overlapSize share config) hlong
    (by omega)
  generalize tailWords (wordsOf content).length config.chunkSize (overlapSize share config) = r
    at hlen hr hrsize ⊢
  rw [← hdef] at hlen
  obtain ⟨fuel, hdoc⟩ := chunkDocument_tail hover hsize hmin hlong i r hr hrsize hlen
  rw [hdoc, loop_tail hover _ i r fuel hr hrsize hlen]
  simp only [Option.some.injEq, exists_eq_left']
  by_cases hmerged : r < config.minChunkSize
  · rw [if_pos hmerged, List.map_append, words_pieces, List.map_singleton, piece, wordsOf_merged,
      wordsOf_run, hwhole, merged_laid_iff _ _ _ i r (by omega) hr hlen]
    omega
  · rw [if_neg hmerged]
    by_cases hshort : r ≤ stepSize share config+config.minChunkSize
    · rw [if_pos hshort, List.map_append, words_pieces, List.map_singleton, wordsOf_run, hwhole]
      refine iff_of_true ⟨_, laid_stepped _ _ _ (i+1) (by omega) (by omega)⟩ ⟨?_, hshort⟩
      omega
    · rw [if_neg hshort, List.map_append, words_pieces]
      refine iff_of_false ?_ (fun h => hshort h.2)
      rintro ⟨windows, hlaid⟩
      have hlast := Laid.last _ _ _ windows hlaid (by
        rw [wordsOf_run, run_length _ _ _ (Nat.le_refl _)]
        omega)
      rw [wordsOf_run, run_length _ _ _ (Nat.le_refl _), Nat.succ_mul] at hlast
      omega

theorem chunkDocument_laid_quarter :
    (∃ chunks, chunkDocument hundredths "a b c d e f g".toList ⟨4, 25, 1⟩ = some chunks ∧
      ∃ windows, Laid (wordsOf "a b c d e f g".toList) 1 (chunks.map wordsOf) windows) ↔
    (1 = 0 ∨ 1 ≤ tailWords (wordsOf "a b c d e f g".toList).length 4 1) ∧
      tailWords (wordsOf "a b c d e f g".toList).length 4 1 ≤ 3+1 :=
  chunkDocument_laid_iff hundredths ⟨4, 25, 1⟩ "a b c d e f g".toList (by decide) (by decide)
    (by decide) (by decide)

/-- Half of the size for the overlap: the last chunk is the end of the one before. -/
theorem window_repeated : 2*overlapSize hundredths ⟨4, 50, 1⟩ ≤ 4 ∧
    4 < (wordsOf "a b c d e f".toList).length ∧
    ¬ ∃ chunks, chunkDocument hundredths "a b c d e f".toList ⟨4, 50, 1⟩ = some chunks ∧
      ∃ windows, Laid (wordsOf "a b c d e f".toList) 2 (chunks.map wordsOf) windows := by
  refine ⟨by decide, by decide, ?_⟩
  rintro ⟨chunks, hchunks, windows, hlaid⟩
  have hthree : chunkDocument hundredths "a b c d e f".toList ⟨4, 50, 1⟩ =
      some ["a b c d".toList, "c d e f".toList, "e f".toList] := by decide
  rw [hthree, Option.some.injEq] at hchunks
  rw [← hchunks] at hlaid
  have hlast := Laid.last [wordsOf "a b c d".toList] (wordsOf "c d e f".toList)
    (wordsOf "e f".toList) windows hlaid (by decide)
  revert hlast
  decide

end IronClaw.Chunker
