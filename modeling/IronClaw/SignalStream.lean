import IronClaw.Lib.LineFeed
import IronClaw.SignalListener

/-!
# The event stream of the Signal daemon

The bytes of a connection arrive in chunks cut anywhere, and `sse_listener` in
`channels/signal.rs` puts characters and lines back together. What the agent
gets does not depend on the cuts, and every announced event is handled once and
in order, except around a debug command: its data is not cleared, so that a
blank line repeats it and the next event is lost.
-/

set_option autoImplicit false

namespace IronClaw.SignalStream
open IronClaw.SignalEnvelope IronClaw.SignalListener Lib.Text Lib.Utf8 Lib.LineFeed Lib.Runs

def maxSseBufferSize : ℕ := 1024*1024

def trimEndCr (line : List Char) : List Char := line.rdropWhile (fun c => c = '\r')

structure Connection where
  held : Held
  listener : Listener

section

variable (crates : Crates) (cfg : SignalConfig) (readings : ℕ → Reading) (validPath : String → Bool)

def onLines (lines : List (List Char)) (s : Listener) : Listener :=
  run (step crates cfg readings validPath) (lines.map (fun line => .line (trimEndCr line))) s

def onChunk (c : Connection) (chunk : List UInt8) : Connection :=
  if maxSseBufferSize < byteLen c.held.buffer+byteLen (c.held.text chunk) then
    ⟨⟨[], []⟩, c.listener.clear⟩
  else ⟨c.held.next chunk, onLines crates cfg readings validPath (c.held.lines chunk) c.listener⟩

def listen (chunks : List (List UInt8)) (s : Listener) : Listener :=
  step crates cfg readings validPath .ended
    (chunks.foldl (onChunk crates cfg readings validPath) ⟨⟨[], []⟩, s.clear⟩).listener

end

inductive Frame where
  | other (line : List Char)
  | blank
  | event (blanks json : List Char)

def Frame.lines : Frame → List (List Char)
  | .other line => [line]
  | .blank => [[]]
  | .event blanks json => ["data:".toList++(blanks++json), []]

def written (returns : ℕ) (frames : List Frame) : List (List Char) :=
  (frames.flatMap Frame.lines).map (fun line => line++List.replicate returns '\r')

structure Writable (line : List Char) : Prop where
  single : '\n' ∉ line
  ends : line.getLast? ≠ some '\r'
  size : byteLen line ≤ maxSseEventSize

def Frame.Fits : Frame → Prop
  | .other line => Writable line ∧ line ≠ [] ∧ "data:".toList.isPrefixOf line = false
  | .blank => True
  | .event blanks json => Writable (blanks++json) ∧ (∀ b ∈ blanks, isWhitespace b) ∧
    ∃ c rest, json = c::rest ∧ isWhitespace c = false

section

variable (crates : Crates) (cfg : SignalConfig) (readings : ℕ → Reading) (validPath : String → Bool)

def hear : Frame → Listener → Listener
  | .other _, s => s
  | .blank, s => if s.returned then s else dispatch crates cfg readings s
  | .event _ json, s =>
    if s.returned then s
    else if s.currentData = [] then dispatch crates cfg readings { s with currentData := json }
    else s.clear

def Trailing : Prop :=
  ∀ a c rest, (crates.fromStr a).isSome → isWhitespace c = false →
    crates.fromStr (a++['\n']++c::rest) = none

/-! ## The lines of the chunks -/

theorem onLines_append (a b : List (List Char)) (s : Listener) :
    onLines crates cfg readings validPath (a++b) s =
      onLines crates cfg readings validPath b (onLines crates cfg readings validPath a s) := by
  rw [onLines, List.map_append, run_append]
  rfl

/-- The chunks of a text whose lines are short are read as the lines of the text. -/
theorem chunks_lines (cs : List Char) (long large : ℕ)
    (hlines : ∀ line, line <:+: cs → '\n' ∉ line → byteLen line ≤ long)
    (hfit : long+large+3 ≤ maxSseBufferSize) (s : Listener) (chunks : List (List UInt8))
    (hchunks : ∀ chunk ∈ chunks, chunk.length ≤ large) (c : Connection)
    (read back : List Char) (hcs : cs = read++back)
    (hbetween : Between c.held read back chunks.flatten)
    (hc : c.listener = onLines crates cfg readings validPath (drain [] read).1 s) :
    (chunks.foldl (onChunk crates cfg readings validPath) c).listener =
      onLines crates cfg readings validPath (drain [] cs).1 s := by
  induction chunks generalizing c read back with
  | nil =>
    obtain rfl := between_end c.held read back hbetween
    rw [List.foldl_nil, hc, hcs, List.append_nil]
  | cons chunk chunks ih =>
    rw [List.flatten_cons] at hbetween
    obtain ⟨hshort, back', hback, hnext, hdrained⟩ :=
      between_piece c.held read back chunk chunks.flatten hbetween
    have hchunk := hchunks chunk List.mem_cons_self
    obtain ⟨hclean, hsuffix⟩ := drain_left [] read (by simp)
    rw [List.nil_append] at hsuffix
    have hbuffer : byteLen c.held.buffer ≤ long := by
      rw [hbetween.buffer]
      refine hlines _ ?_ hclean
      rw [hcs]
      exact hsuffix.isInfix.trans (List.prefix_append read back).isInfix
    have hroom : ¬ maxSseBufferSize < byteLen c.held.buffer+byteLen (c.held.text chunk) := by
      omega
    rw [List.foldl_cons]
    refine ih (fun other hin => hchunks other (List.mem_cons_of_mem chunk hin)) _
      (read++c.held.text chunk) back' (by rw [hcs, hback, List.append_assoc]) ?_ ?_
    · rw [onChunk, if_neg hroom]
      exact hnext
    · rw [onChunk, if_neg hroom, hdrained, onLines_append, ← hc]

/-! ## The events of the lines -/

theorem trimEndCr_written (line : List Char) (returns : ℕ) (h : line.getLast? ≠ some '\r') :
    trimEndCr (line++List.replicate returns '\r') = line := by
  induction returns with
  | zero =>
    rw [List.replicate_zero, List.append_nil, trimEndCr, List.rdropWhile_eq_self_iff]
    intro hne
    rw [List.getLast?_eq_some_getLast hne] at h
    simpa using h
  | succ n ih =>
    rw [List.replicate_succ', ← List.append_assoc, trimEndCr,
      List.rdropWhile_concat_pos _ _ _ (by simp)]
    exact ih

theorem frame_ends (frame : Frame) (hframe : frame.Fits) :
    ∀ line ∈ frame.lines, line.getLast? ≠ some '\r' := by
  cases frame with
  | other line =>
    intro other hin
    rw [List.mem_singleton.mp hin]
    exact hframe.1.ends
  | blank =>
    intro other hin
    rw [List.mem_singleton.mp hin]
    simp
  | event blanks json =>
    obtain ⟨hwritable, -, c, rest, rfl, -⟩ := hframe
    intro other hin
    rcases List.mem_pair.mp hin with rfl | rfl
    · rw [List.getLast?_append_of_ne_nil _ (by simp)]
      exact hwritable.ends
    · simp

theorem onLines_written (returns : ℕ) (lines : List (List Char)) (s : Listener)
    (h : ∀ line ∈ lines, line.getLast? ≠ some '\r') :
    onLines crates cfg readings validPath
        (lines.map (fun line => line++List.replicate returns '\r')) s =
      run (step crates cfg readings validPath) (lines.map .line) s := by
  rw [onLines, List.map_map]
  congr 1
  apply List.map_congr_left
  intro line hin
  rw [Function.comp_apply, trimEndCr_written line returns (h line hin)]

def Left (s : Listener) : Prop :=
  s.returned = false → s.currentData = [] ∨ (crates.fromStr s.currentData).isSome

theorem dispatch_left (s : Listener) : Left crates (dispatch crates cfg readings s) := by
  unfold dispatch
  split
  · next hempty => exact fun _ => .inl hempty
  · split
    · exact fun _ => .inl rfl
    · next e he =>
      have hsome : (crates.fromStr s.currentData).isSome := by
        cases hread : crates.fromStr s.currentData with
        | none =>
          rw [hread] at he
          cases he
        | some sse => rfl
      split
      · exact fun _ => .inl rfl
      · dsimp only
        split
        · exact fun _ => .inr hsome
        · split
          · exact fun _ => .inl rfl
          · intro hreturned
            cases hreturned

theorem hear_left (frame : Frame) (s : Listener) (h : Left crates s) :
    Left crates (hear crates cfg readings frame s) := by
  cases frame with
  | other line => exact h
  | blank =>
    rw [hear]
    split
    · exact h
    · exact dispatch_left crates cfg readings s
  | event blanks json =>
    rw [hear]
    split
    · exact h
    · split
      · exact dispatch_left crates cfg readings _
      · exact fun _ => .inl rfl

theorem step_line (text : List Char) (s : Listener) (h : s.returned = false) :
    step crates cfg readings validPath (.line text) s = onLine crates cfg readings text s := by
  rw [step, h]
  rfl

theorem step_returned (text : List Char) (s : Listener) (h : s.returned = true) :
    step crates cfg readings validPath (.line text) s = s := by
  rw [step, if_pos h]

theorem onLine_blank (s : Listener) :
    onLine crates cfg readings [] s = dispatch crates cfg readings s := rfl

theorem onLine_data (json : List Char) (s : Listener) :
    onLine crates cfg readings ("data:".toList++json) s = collect s json := rfl

theorem onLine_other (line : List Char) (s : Listener) (hne : line ≠ [])
    (hdata : "data:".toList.isPrefixOf line = false) : onLine crates cfg readings line s = s := by
  unfold onLine
  split
  · rfl
  · rw [hdata]
    rfl

theorem drop_blanks (blanks rest : List Char) (c : Char) (hblanks : ∀ b ∈ blanks, isWhitespace b)
    (hc : isWhitespace c = false) : (blanks++c::rest).dropWhile isWhitespace = c::rest := by
  rw [List.dropWhile_append_of_pos hblanks, List.dropWhile_cons, hc]
  rfl

/-- An event after one that is left: both texts together are no envelope. -/
theorem event_lost (htrailing : Trailing crates) (s : Listener) (c : Char)
    (blanks rest : List Char) (hblanks : ∀ b ∈ blanks, isWhitespace b)
    (hc : isWhitespace c = false) (hdata : s.currentData ≠ [])
    (hread : (crates.fromStr s.currentData).isSome) :
    dispatch crates cfg readings (collect s (blanks++c::rest)) = s.clear := by
  unfold collect
  split
  · rfl
  · have hnone := htrailing s.currentData c rest hread hc
    rw [drop_blanks blanks rest c hblanks hc]
    unfold dispatch
    rw [if_neg (by simp), hnone]
    rfl

/-- The lines of a frame are read as the frame is heard. -/
theorem frame_heard (htrailing : Trailing crates) (frame : Frame) (hframe : frame.Fits)
    (s : Listener) (hs : Left crates s) :
    run (step crates cfg readings validPath) (frame.lines.map .line) s =
      hear crates cfg readings frame s := by
  cases hreturned : s.returned with
  | true =>
    have hstay := fun text => step_returned crates cfg readings validPath text s hreturned
    cases frame with
    | other line => exact hstay line
    | blank =>
      rw [hear, if_pos hreturned]
      exact hstay []
    | event blanks json =>
      rw [hear, if_pos hreturned]
      change step crates cfg readings validPath (.line [])
        (step crates cfg readings validPath (.line ("data:".toList++(blanks++json))) s) = s
      rw [hstay, hstay]
  | false =>
    have hline := fun text => step_line crates cfg readings validPath text s hreturned
    cases frame with
    | other line =>
      change step crates cfg readings validPath (.line line) s = s
      rw [hline, onLine_other crates cfg readings line s hframe.2.1 hframe.2.2]
    | blank =>
      rw [hear, hreturned]
      exact hline []
    | event blanks json =>
      obtain ⟨hwritable, hblanks, c, rest, rfl, hc⟩ := hframe
      change step crates cfg readings validPath (.line [])
        (step crates cfg readings validPath (.line ("data:".toList++(blanks++c::rest))) s) = _
      have hstill : (collect s (blanks++c::rest)).returned = false := by
        unfold collect
        split <;> exact hreturned
      have hrunning : ¬ s.returned = true := by rw [hreturned]; decide
      rw [hline, onLine_data, step_line crates cfg readings validPath [] _ hstill, onLine_blank,
        hear, if_neg hrunning]
      by_cases hempty : s.currentData = []
      · have hcollect : collect s (blanks++c::rest) = { s with currentData := c::rest } := by
          have hsize : ¬ maxSseEventSize < byteLen s.currentData+byteLen (blanks++c::rest) := by
            have := hwritable.size
            rw [hempty, byteLen]
            omega
          rw [collect, if_neg hsize, if_pos hempty, hempty, drop_blanks blanks rest c hblanks hc]
          rfl
        rw [hcollect, if_pos hempty]
      · rw [if_neg hempty]
        exact event_lost crates cfg readings htrailing s c blanks rest hblanks hc hempty
          ((hs hreturned).resolve_left hempty)

theorem frames_run (htrailing : Trailing crates) (frames : List Frame)
    (hframes : ∀ frame ∈ frames, frame.Fits) (s : Listener) (hs : Left crates s) :
    run (step crates cfg readings validPath) ((frames.flatMap Frame.lines).map .line) s =
      run (hear crates cfg readings) frames s := by
  induction frames generalizing s with
  | nil => rfl
  | cons frame frames ih =>
    rw [List.flatMap_cons, List.map_append, run_append,
      frame_heard crates cfg readings validPath htrailing frame
        (hframes frame List.mem_cons_self) s hs,
      ih (fun other hin => hframes other (List.mem_cons_of_mem frame hin)) _
        (hear_left crates cfg readings frame s hs)]
    rfl

theorem frame_lines (frame : Frame) (hframe : frame.Fits) :
    ∀ line ∈ frame.lines, '\n' ∉ line ∧ byteLen line ≤ maxSseEventSize+5 := by
  cases frame with
  | other line =>
    intro other hin
    rw [List.mem_singleton.mp hin]
    exact ⟨hframe.1.single, le_trans hframe.1.size (Nat.le_add_right _ _)⟩
  | blank =>
    intro other hin
    rw [List.mem_singleton.mp hin]
    exact ⟨by simp, Nat.zero_le _⟩
  | event blanks json =>
    intro other hin
    rcases List.mem_pair.mp hin with rfl | rfl
    · refine ⟨?_, ?_⟩
      · rw [List.mem_append]
        rintro (hname | hjson)
        · exact absurd hname (by decide)
        · exact hframe.1.single hjson
      · have hname : byteLen "data:".toList = 5 := by decide
        have hsize := hframe.1.size
        rw [byteLen_append, hname]
        omega
    · exact ⟨by simp, Nat.zero_le _⟩

theorem byteLen_part (a b : List Char) (h : a <:+: b) : byteLen a ≤ byteLen b := by
  obtain ⟨before, after, rfl⟩ := h
  rw [byteLen_append, byteLen_append]
  omega

theorem byteLen_returns (n : ℕ) : byteLen (List.replicate n '\r') = n := by
  induction n with
  | zero => rfl
  | succ n ih =>
    rw [List.replicate_succ, byteLen, ih]
    exact Nat.add_comm 1 n

theorem written_lines (returns : ℕ) (frames : List Frame)
    (hframes : ∀ frame ∈ frames, frame.Fits) :
    ∀ line ∈ written returns frames,
      '\n' ∉ line ∧ byteLen line ≤ maxSseEventSize+5+returns := by
  intro line hin
  obtain ⟨bare, hbare, rfl⟩ := List.mem_map.mp hin
  obtain ⟨frame, hframe, hline⟩ := List.mem_flatMap.mp hbare
  obtain ⟨hsingle, hsize⟩ := frame_lines frame (hframes frame hframe) bare hline
  refine ⟨?_, ?_⟩
  · rw [List.mem_append]
    rintro (hin | hret)
    · exact hsingle hin
    · exact absurd (List.eq_of_mem_replicate hret) (by decide)
  · rw [byteLen_append, byteLen_returns]
    omega

/-- However the bytes of the frames are cut, each frame is heard once and in
order, whether lines end in a carriage return or not. -/
theorem frames_heard (htrailing : Trailing crates) (frames : List Frame)
    (hframes : ∀ frame ∈ frames, frame.Fits) (returns : ℕ) (hreturns : returns ≤ 1)
    (chunks : List (List UInt8)) (hsmall : ∀ chunk ∈ chunks, chunk.length ≤ 768*1024-9)
    (hbytes : chunks.flatten = encode (unlines (written returns frames))) (s : Listener) :
    listen crates cfg readings validPath chunks s =
      step crates cfg readings validPath .ended
        (run (hear crates cfg readings) frames s.clear) := by
  have hwritten := written_lines returns frames hframes
  have hlong : ∀ line, line <:+: unlines (written returns frames) → '\n' ∉ line →
      byteLen line ≤ maxSseEventSize+5+returns := by
    intro line hline hclean
    by_cases hne : line = []
    · rw [hne]
      exact Nat.zero_le _
    · obtain ⟨whole, hwhole, hpart⟩ := within_unlines line _ hclean hline hne
      exact le_trans (byteLen_part line whole hpart) (hwritten whole hwhole).2
  have hfit : maxSseEventSize+5+returns+(768*1024-9)+3 ≤ maxSseBufferSize := by
    unfold maxSseEventSize maxSseBufferSize
    omega
  rw [listen, chunks_lines crates cfg readings validPath _ _ _ hlong hfit s.clear chunks hsmall
    ⟨⟨[], []⟩, s.clear⟩ [] _ rfl (between_start _ _ hbytes) rfl,
    drain_unlines _ (fun line hin => (hwritten line hin).1), written,
    onLines_written crates cfg readings validPath returns _ _ ?_,
    frames_run crates cfg readings validPath htrailing frames hframes s.clear (fun _ => .inl rfl)]
  intro line hin
  obtain ⟨frame, hframe, hline⟩ := List.mem_flatMap.mp hin
  exact frame_ends frame (hframes frame hframe) line hline

end

def openConfig : SignalConfig :=
  ⟨"+15550002222", [], [], "open", "disabled", [], false, true⟩

def debugFrames : List Frame :=
  [.other ":é".toList, .event [' '] (directText "hello"), .event [' '] (directText "/debug"), .blank,
    .event [] (directText "hello"), .event [' ', ' '] (directText "again")]

def tornBytes : List (List UInt8) :=
  [(encode (unlines (written 1 debugFrames))).take 2,
    (encode (unlines (written 1 debugFrames))).drop 2]

theorem phoneCrates_trailing : Trailing phoneCrates := by
  intro a c rest _ _
  have hnone : ["hello", "again", "/debug"].find?
      (fun word => directText word = a++['\n']++c::rest) = none := by
    rw [List.find?_eq_none]
    intro word hword heq
    have hline : ∀ word ∈ ["hello", "again", "/debug"], '\n' ∉ directText word := by
      decide +kernel
    refine hline word hword ?_
    rw [of_decide_eq_true heq]
    simp
  exact congrArg (Option.map _) hnone

/-- A debug command is heard twice, and the event behind it is lost. -/
theorem frames_heard_torn :
    listen phoneCrates openConfig countedReadings (fun _ => true) tornBytes SignalListener.fresh =
      step phoneCrates openConfig countedReadings (fun _ => true) .ended
        (run (hear phoneCrates openConfig countedReadings) debugFrames
          SignalListener.fresh.clear) := by
  refine frames_heard phoneCrates openConfig countedReadings (fun _ => true)
    phoneCrates_trailing debugFrames ?_ 1 (by decide) tornBytes ?_ ?_ SignalListener.fresh
  · have htexts : ∀ word ∈ ["hello", "again", "/debug"], ∀ blanks ∈ [[], [' '], [' ', ' ']],
        (Frame.event blanks (directText word)).Fits := by
      have hsingle : ∀ word ∈ ["hello", "again", "/debug"], ∀ blanks ∈ [[], [' '], [' ', ' ']],
          '\n' ∉ blanks++directText word ∧ (blanks++directText word).getLast? ≠ some '\r' ∧
          byteLen (blanks++directText word) ≤ 100 ∧ blanks.all isWhitespace = true := by
        decide +kernel
      have hroom : 100 ≤ maxSseEventSize := by
        unfold maxSseEventSize
        omega
      have hfirst : ∀ word ∈ ["hello", "again", "/debug"],
          directText word = '{'::(directText word).tail := by decide +kernel
      intro word hword blanks hblanks
      obtain ⟨hline, hends, hsize, hblank⟩ := hsingle word hword blanks hblanks
      exact ⟨⟨hline, hends, le_trans hsize hroom⟩, List.all_eq_true.mp hblank, _, _, hfirst word hword, by decide⟩
    intro frame hin
    simp only [debugFrames, List.mem_cons, List.not_mem_nil, or_false] at hin
    rcases hin with rfl | rfl | rfl | rfl | rfl | rfl
    · exact ⟨⟨by decide, by decide, by decide⟩, by decide, by decide⟩
    · exact htexts "hello" (by decide) [' '] (by decide)
    · exact htexts "/debug" (by decide) [' '] (by decide)
    · trivial
    · exact htexts "hello" (by decide) [] (by decide)
    · exact htexts "again" (by decide) [' ', ' '] (by decide)
  · decide +kernel
  · decide +kernel

end IronClaw.SignalStream
