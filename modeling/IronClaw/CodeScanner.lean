import IronClaw.Lib.BytePositions
import IronClaw.ToolTagCut

/-!
# The scanner for code regions

`find_code_regions` of `llm/reasoning.rs` over the bytes of a text. It stops on
a slice inside a character, and when a loop does not end. On every text it
finds what the scan over the characters finds.
-/

set_option autoImplicit false

namespace IronClaw.CodeScanner
open IronClaw.ResponseText Lib.Text Lib.Search Lib.Utf8 Lib.BytePositions
open IronClaw.ToolTagCut (le_skipWhile closingFence_lt tick_run closingTicks_lt)

def newline : UInt8 := byteOf '\n'

def tick : UInt8 := byteOf '\x60'

def tilde : UInt8 := byteOf '~'

def isBlankByte (b : UInt8) : Bool := b = byteOf ' ' || b = byteOf '\t'

section

variable (text : List Char)

def newlineFrom (i : ℕ) : Option (Option ℕ) :=
  (sliceFrom text i).map (fun rest => (find ['\n'] rest).map (fun nl => i+nl+1))

def closesAt (fenceChar : UInt8) (fenceLen clStart : ℕ) : Option ℕ :=
  let bytes := encode text
  let i := advance isBlankByte bytes clStart
  if bytes[i]? = some fenceChar then
    let k := advance (fun b => b = fenceChar) bytes i
    if fenceLen ≤ k-i then
      let e := advance isBlankByte bytes k
      if bytes.length ≤ e ∨ bytes[e]? = some newline then
        some (if e < bytes.length then e+1 else e)
      else none
    else none
  else none

def findClose (fenceChar : UInt8) (fenceLen : ℕ) : ℕ → ℕ → Option (Option ℕ)
  | 0, _ => none
  | fuel+1, clStart =>
    if (encode text).length ≤ clStart then some none
    else match closesAt text fenceChar fenceLen clStart with
      | some e => some (some e)
      | none =>
        match newlineFrom text clStart with
        | none => none
        | some none => some none
        | some (some next) => findClose fenceChar fenceLen fuel next

def fencedPass : ℕ → ℕ → Option (List CodeRegion)
  | 0, _ => none
  | fuel+1, lineStart =>
    let bytes := encode text
    let skipLine (i : ℕ) := match newlineFrom text i with
      | none => none
      | some none => some []
      | some (some next) => fencedPass fuel next
    if bytes.length ≤ lineStart then some []
    else if 0 < lineStart ∧ bytes[lineStart-1]? ≠ some newline then skipLine lineStart
    else
      let i := advance isBlankByte bytes lineStart
      match bytes[i]? with
      | none => skipLine i
      | some fenceChar =>
        if fenceChar ≠ tick ∧ fenceChar ≠ tilde then skipLine i
        else
          let k := advance (fun b => b = fenceChar) bytes i
          if k-i < 3 then skipLine k
          else match newlineFrom text k with
            | none => none
            | some none => some [⟨lineStart, bytes.length⟩]
            | some (some contentStart) =>
              match findClose text fenceChar (k-i) (bytes.length+1) contentStart with
              | none => none
              | some none => some [⟨lineStart, bytes.length⟩]
              | some (some e) => (fencedPass fuel e).map (fun rest => ⟨lineStart, e⟩::rest)

def findTicks (tickLen : ℕ) : ℕ → ℕ → Option (Option ℕ)
  | 0, _ => none
  | fuel+1, k =>
    if (encode text).length ≤ k then some none
    else if (encode text)[k]? ≠ some tick then findTicks tickLen fuel (k+1)
    else
      let e := advance (fun b => b = tick) (encode text) k
      if e-k = tickLen then some (some e) else findTicks tickLen fuel e

def inlinePass : ℕ → ℕ → List CodeRegion → Option (List CodeRegion)
  | 0, _, _ => none
  | fuel+1, j, regions =>
    let bytes := encode text
    if bytes.length ≤ j then some regions
    else if bytes[j]? ≠ some tick ∨ isInsideCode j regions = true then
      inlinePass fuel (j+1) regions
    else
      let k := advance (fun b => b = tick) bytes j
      match findTicks text (k-j) (bytes.length+1) k with
      | none => none
      | some (some e) => inlinePass fuel e (regions++[⟨j, e⟩])
      | some none => inlinePass fuel k regions

def scanCodeRegions : Option (List CodeRegion) := do
  let fenced ← fencedPass text ((encode text).length+1) 0
  let regions ← inlinePass text ((encode text).length+1) 0 fenced
  some (regions.mergeSort (fun a b => decide (a.start ≤ b.start)))

/-! ## From characters to bytes -/

def inBytes (r : CodeRegion) : CodeRegion := ⟨bytePos text r.start, bytePos text r.stop⟩

theorem blank_agrees : Agrees isBlankByte isBlank where
  low c hc := by
    have hspace := (agrees_of ' ' (by decide)).low c hc
    have htab := (agrees_of '\t' (by decide)).low c hc
    exact congrArg₂ or hspace htab
  high b hb := by
    have hspace := (agrees_of ' ' (by decide)).high b hb
    have htab := (agrees_of '\t' (by decide)).high b hb
    exact congrArg₂ or hspace htab
  wide c hc := by
    have hspace := (agrees_of ' ' (by decide)).wide c hc
    have htab := (agrees_of '\t' (by decide)).wide c hc
    exact congrArg₂ or hspace htab

variable (q : Char → Bool) (i : ℕ) (fence : Char) (regions : List CodeRegion)

theorem skip_blank :
    advance isBlankByte (encode text) (bytePos text i) = bytePos text (skipWhile isBlank text i) :=
  blank_agrees.advance text i

theorem skip_char (a : Char) (ha : Low a) (i : ℕ) :
    advance (fun b => b = byteOf a) (encode text) (bytePos text i) =
      bytePos text (skipWhile (fun c => c = a) text i) :=
  (agrees_of a ha).advance text i

theorem count_char (a : Char) (ha : Low a) (i : ℕ) :
    bytePos text (skipWhile (fun c => c = a) text i)-bytePos text i =
      skipWhile (fun c => c = a) text i-i := by
  have h := (agrees_of a ha).count text i
  rw [skipWhile]
  rw [advance] at h
  omega

theorem newline_from :
    newlineFrom text (bytePos text i) = some ((nextLine text i).map (bytePos text)) := by
  rw [newlineFrom, sliceFrom_bytePos, Option.map_some, find_char, nextLine, Option.map_map,
    Option.map_map]
  congr 1
  refine Option.map_congr (fun n hn => ?_)
  obtain ⟨hlt, hchar, -⟩ := List.findIdx?_eq_some_iff_getElem.mp hn
  have hnl : text[i+n]? = some '\n' := by
    rw [← List.getElem?_drop, List.getElem?_eq_getElem hlt, of_decide_eq_true hchar]
  rw [Function.comp_apply, Function.comp_apply, bytePos_succ text (i+n) '\n' hnl, bytePos,
    bytePos, List.take_add, byteLen_append]
  rfl

theorem end_iff : (encode text).length ≤ bytePos text i ↔ text.length ≤ i := by
  rw [← bytePos_length, bytePos_le_iff text _ _ (Nat.le_refl _)]

theorem skipWhile_le (hi : i ≤ text.length) :
    skipWhile q text i ≤ text.length := by
  have hle := (List.takeWhile_prefix q (l := text.drop i)).length_le
  rw [List.length_drop] at hle
  rw [skipWhile]
  omega

theorem nextLine_bounds (i j : ℕ) (h : nextLine text i = some j) : i < j ∧ j ≤ text.length := by
  obtain ⟨n, hn, rfl⟩ := Option.map_eq_some_iff.mp h
  obtain ⟨hlt, -, -⟩ := List.findIdx?_eq_some_iff_getElem.mp hn
  rw [List.length_drop] at hlt
  omega

/-! ## The closing fence -/

def closesLine (fence : Char) (len line : ℕ) : Option ℕ :=
  let i := skipWhile isBlank text line
  let k := skipWhile (fun c => c = fence) text i
  let e := skipWhile isBlank text k
  if len ≤ k-i ∧ (text.length ≤ e ∨ text[e]? = some '\n') then
    some (if e < text.length then e+1 else e)
  else none

theorem closingFence_step (len fuel line : ℕ) :
    closingFence text fence len (fuel+1) line =
      if text.length ≤ line then none
      else match closesLine text fence len line with
        | some e => some e
        | none => (nextLine text line).bind (closingFence text fence len fuel) := by
  rw [closingFence, closesLine]
  dsimp only
  split
  · rfl
  · split <;> rfl

theorem closesLine_le (len line e : ℕ) (hline : line ≤ text.length)
    (h : closesLine text fence len line = some e) : e ≤ text.length := by
  rw [closesLine] at h
  have hi := skipWhile_le text isBlank line hline
  have hk := skipWhile_le text (fun c => c = fence) _ hi
  have he := skipWhile_le text isBlank _ hk
  split at h
  · rw [Option.some.injEq] at h
    split at h <;> omega
  · cases h

theorem closingFence_le (len fuel line e : ℕ) (hline : line ≤ text.length)
    (h : closingFence text fence len fuel line = some e) : e ≤ text.length := by
  induction fuel generalizing line with
  | zero => cases h
  | succ fuel ih =>
    rw [closingFence_step] at h
    split at h
    · cases h
    · cases hclose : closesLine text fence len line with
      | some stop =>
        rw [hclose] at h
        rw [← Option.some.inj h]
        exact closesLine_le text fence len line stop hline hclose
      | none =>
        rw [hclose] at h
        obtain ⟨next, hnext, hrest⟩ := Option.bind_eq_some_iff.mp h
        exact ih next (nextLine_bounds text line next hnext).2 hrest

theorem start_iff : bytePos text i < (encode text).length ↔ i < text.length := by
  rw [← not_le, end_iff, not_le]

theorem skip_none (h : ∀ c, text[i]? = some c → q c = false) :
    skipWhile q text i = i := by
  rw [skipWhile]
  cases hdrop : text.drop i with
  | nil => rfl
  | cons c rest =>
    have hc : text[i]? = some c := by rw [← List.head?_drop, hdrop, List.head?_cons]
    rw [List.takeWhile_cons, h c hc]
    rfl

theorem closes_bytes (hfence : Low fence) (len line : ℕ) (hlen : 0 < len) :
    closesAt text (byteOf fence) len (bytePos text line) =
      (closesLine text fence len line).map (bytePos text) := by
  simp only [closesAt, closesLine, skip_blank, skip_char text fence hfence,
    count_char text fence hfence, end_iff, start_iff, newline, byte_at text '\n' (by decide),
    byte_at text fence hfence]
  by_cases hchar : text[skipWhile isBlank text line]? = some fence
  · rw [if_pos hchar]
    generalize skipWhile isBlank text line = i
    generalize skipWhile (fun c => decide (c = fence)) text i = k
    generalize skipWhile isBlank text k = e
    by_cases hcount : len ≤ k-i
    · by_cases hend : text.length ≤ e ∨ text[e]? = some '\n'
      · have hboth : len ≤ k-i ∧ (text.length ≤ e ∨ text[e]? = some '\n') := ⟨hcount, hend⟩
        rw [if_pos hcount, if_pos hend, if_pos hboth, Option.map_some]
        split
        · next hlt =>
          rw [bytePos_succ text e '\n' (hend.resolve_left (not_le.mpr hlt))]
          rfl
        · rfl
      · rw [if_pos hcount, if_neg hend, if_neg (fun h => hend h.2)]
        rfl
    · rw [if_neg hcount, if_neg (fun h => hcount h.1)]
      rfl
  · have hnone := skip_none text (fun c => c = fence) (skipWhile isBlank text line)
      (fun c hc => by
        rw [decide_eq_false_iff_not]
        rintro rfl
        exact hchar hc)
    rw [if_neg hchar, hnone, Nat.sub_self, if_neg (fun h => absurd h.1 (not_le.mpr hlen))]
    rfl

theorem findClose_bytes (hfence : Low fence) (len : ℕ) (hlen : 0 < len) (fuel steps line : ℕ)
    (hsteps : text.length-line ≤ steps) (hfuel : (encode text).length-bytePos text line < fuel) :
    findClose text (byteOf fence) len fuel (bytePos text line) =
      some ((closingFence text fence len steps line).map (bytePos text)) := by
  induction steps generalizing fuel line with
  | zero =>
    obtain ⟨fuel, rfl⟩ := Nat.exists_eq_add_one.mpr hfuel.pos
    rw [findClose, if_pos ((end_iff text line).mpr (by omega))]
    rfl
  | succ steps ih =>
    obtain ⟨fuel, rfl⟩ := Nat.exists_eq_add_one.mpr hfuel.pos
    rw [findClose, closingFence_step, closes_bytes text fence hfence len line hlen,
      newline_from]
    simp only [end_iff]
    split
    · rfl
    · next hin =>
      cases closesLine text fence len line with
      | some e => rfl
      | none =>
        cases hnext : nextLine text line with
        | none => rfl
        | some next =>
          obtain ⟨hlt, hle⟩ := nextLine_bounds text line next hnext
          have hpos := bytePos_lt text line next hlt hle
          have hend := bytePos_le text next text.length hle
          rw [bytePos_length] at hend
          exact ih fuel next (by omega) (by omega)

/-! ## The first pass -/

theorem drop_skip :
    text.drop i = (text.drop i).takeWhile q++text.drop (skipWhile q text i) := by
  rw [skipWhile, ← List.drop_drop]
  exact (List.prefix_iff_eq_append.mp (List.takeWhile_prefix q)).symm

/-- A line goes on behind what is skipped on it. -/
theorem nextLine_skip (hq : q '\n' = false) (i : ℕ) :
    nextLine text (skipWhile q text i) = nextLine text i := by
  have hnone : ((text.drop i).takeWhile q).findIdx? (fun c => c = '\n') = none := by
    rw [List.findIdx?_eq_none_iff]
    intro c hc
    rw [decide_eq_false_iff_not]
    rintro rfl
    rw [List.mem_takeWhile_imp hc] at hq
    cases hq
  conv_rhs => rw [nextLine, drop_skip text q i, List.findIdx?_append, hnone, Option.none_or]
  rw [nextLine, Option.map_map]
  refine Option.map_congr (fun n _ => ?_)
  rw [Function.comp_apply, skipWhile]
  omega

theorem starts_line (hi : i ≤ text.length) :
    (0 < bytePos text i ∧ (encode text)[bytePos text i-1]? ≠ some newline) ↔
      (0 < i ∧ text[i-1]? ≠ some '\n') := by
  have hzero : 0 < bytePos text i ↔ 0 < i := bytePos_lt_iff text 0 i hi
  rw [hzero]
  exact and_congr_right (fun hpos => not_congr (byte_before text '\n' (by decide) i hpos hi))

theorem fence_char (c : Char) (h : c = '\x60' ∨ c = '~') : Low c ∧ decide ('\n' = c) = false ∧
    ¬ (byteOf c ≠ tick ∧ byteOf c ≠ tilde) ∧ ¬ (c ≠ '\x60' ∧ c ≠ '~') := by
  rcases h with rfl | rfl <;> decide

theorem other_bytes (j : ℕ) (c : Char) (hchar : text[j]? = some c) (h : c ≠ '\x60' ∧ c ≠ '~') :
    ∃ b, (encode text)[bytePos text j]? = some b ∧ b ≠ tick ∧ b ≠ tilde := by
  have hbound : bytePos text j < (encode text).length := by
    rw [start_iff]
    exact (List.getElem?_eq_some_iff.mp hchar).1
  have hplain (a : Char) (ha : Low a) (hca : c ≠ a) :
      (encode text)[bytePos text j] ≠ byteOf a := by
    intro hsame
    have hbyte := List.getElem?_eq_getElem hbound
    rw [hsame, byte_at text a ha, hchar] at hbyte
    exact hca (Option.some.inj hbyte)
  exact ⟨_, List.getElem?_eq_getElem hbound, hplain '\x60' (by decide) h.1,
    hplain '~' (by decide) h.2⟩

theorem fenced_bytes (steps fuel i : ℕ) (hi : i ≤ text.length) (hsteps : text.length-i ≤ steps)
    (hfuel : (encode text).length-bytePos text i < fuel) :
    fencedPass text fuel (bytePos text i) =
      some ((fencedRegions text steps i).map (inBytes text)) := by
  induction steps generalizing fuel i with
  | zero =>
    obtain ⟨fuel, rfl⟩ := Nat.exists_eq_add_one.mpr hfuel.pos
    rw [fencedPass]
    exact if_pos ((end_iff text i).mpr (by omega))
  | succ steps ih =>
    obtain ⟨fuel, rfl⟩ := Nat.exists_eq_add_one.mpr hfuel.pos
    have hlater (j : ℕ) (hlt : i < j) (hle : j ≤ text.length) :
        fencedPass text fuel (bytePos text j) =
          some ((fencedRegions text steps j).map (inBytes text)) := by
      have hpos := bytePos_lt text i j hlt hle
      have hend := bytePos_le text j text.length hle
      rw [bytePos_length] at hend
      exact ih fuel j hle (by omega) (by omega)
    have hskip (p : ℕ) (hp : i ≤ p) :
        (match newlineFrom text (bytePos text p) with
          | none => none
          | some none => some []
          | some (some next) => fencedPass text fuel next) =
        some ((match nextLine text p with
          | some next => fencedRegions text steps next
          | none => []).map (inBytes text)) := by
      rw [newline_from]
      cases hnext : nextLine text p with
      | none => rfl
      | some next =>
        obtain ⟨hlt, hle⟩ := nextLine_bounds text p next hnext
        exact hlater next (by omega) hle
    rw [fencedPass, fencedRegions]
    simp only [end_iff]
    split
    · rfl
    · next hin =>
      simp only [starts_line text i hi]
      split
      · exact hskip i (Nat.le_refl i)
      · rw [skip_blank]
        have hblank : i ≤ skipWhile isBlank text i := le_skipWhile text isBlank i
        have hinside := skipWhile_le text isBlank i hi
        generalize skipWhile isBlank text i = j at *
        cases hchar : text[j]? with
        | none =>
          have hend : text.length ≤ j := List.getElem?_eq_none_iff.mp hchar
          have hbyte : (encode text)[bytePos text j]? = none :=
            List.getElem?_eq_none_iff.mpr ((end_iff text j).mpr hend)
          have hline : nextLine text j = none := by
            rw [nextLine, List.drop_eq_nil_of_le hend]
            rfl
          have hrest := hskip j hblank
          rw [hline] at hrest
          rw [hbyte]
          exact hrest
        | some c =>
          by_cases hc : c = '\x60' ∨ c = '~'
          · obtain ⟨hlow, hnl, hfence, hother⟩ := fence_char c hc
            have hbyte : (encode text)[bytePos text j]? = some (byteOf c) :=
              (byte_at text c hlow j).mpr hchar
            have hline := nextLine_skip text (fun d => d = c) hnl j
            have hrun := le_skipWhile text (fun d => d = c) j
            have hrest := hskip (skipWhile (fun d => d = c) text j) (by omega)
            rw [hbyte]
            simp only [if_neg hfence, hother, false_or, skip_char text c hlow,
              count_char text c hlow]
            generalize skipWhile (fun d => decide (d = c)) text j = k at *
            split
            · rw [hline] at hrest
              exact hrest
            · next hlen =>
              rw [newline_from]
              cases hbody : nextLine text k with
              | none =>
                rw [← bytePos_length]
                rfl
              | some body =>
                obtain ⟨hlt, hle⟩ := nextLine_bounds text k body hbody
                have hclose := findClose_bytes text c hlow (k-j) (by omega)
                  ((encode text).length+1) text.length body (by omega) (by omega)
                rw [Option.map_some]
                dsimp only
                rw [hclose]
                cases hstop : closingFence text c (k-j) text.length body with
                | none =>
                  rw [← bytePos_length]
                  rfl
                | some stop =>
                  have hbelow := closingFence_lt text c (k-j) text.length body stop hstop
                  have habove := closingFence_le text c (k-j) text.length body stop hle hstop
                  rw [Option.map_some]
                  dsimp only
                  rw [hlater stop (by omega) habove]
                  rfl
          · have hother : c ≠ '\x60' ∧ c ≠ '~' := not_or.mp hc
            obtain ⟨b, hbyte, hfence⟩ := other_bytes text j c hchar hother
            have hcond : (c ≠ '\x60' ∧ c ≠ '~') ∨ skipWhile (fun d => d = c) text j-j < 3 :=
              Or.inl hother
            rw [hbyte]
            dsimp only
            rw [if_pos hcond, if_pos hfence]
            exact hskip j hblank

/-! ## The second pass -/

theorem char_at (h : i < text.length) : ∃ c, text[i]? = some c :=
  ⟨text[i], List.getElem?_eq_getElem h⟩

/-- The search walks over bytes that are no backticks. -/
theorem findTicks_walk (len fuel n k : ℕ) (hle : k+n ≤ (encode text).length)
    (h : ∀ m < n, (encode text)[k+m]? ≠ some tick) :
    findTicks text len (fuel+n) k = findTicks text len fuel (k+n) := by
  induction n generalizing k with
  | zero => rfl
  | succ n ih =>
    have hfirst : (encode text)[k]? ≠ some tick := h 0 (Nat.succ_pos n)
    rw [← Nat.add_assoc, findTicks, if_neg (by omega), if_pos hfirst, ih (k+1) (by omega)]
    · congr 1
      omega
    · intro m hm
      have hlater := h (m+1) (by omega)
      rwa [show k+1+m = k+(m+1) by omega]

theorem findTicks_bytes (len steps fuel k : ℕ) (hk : k ≤ text.length)
    (hsteps : text.length-k ≤ steps) (hfuel : (encode text).length-bytePos text k < fuel) :
    findTicks text len fuel (bytePos text k) =
      some ((closingTicks text len steps k).map (bytePos text)) := by
  induction steps generalizing fuel k with
  | zero =>
    obtain ⟨fuel, rfl⟩ := Nat.exists_eq_add_one.mpr hfuel.pos
    rw [findTicks, if_pos ((end_iff text k).mpr (by omega))]
    rfl
  | succ steps ih =>
    have hend (j : ℕ) (hj : j ≤ text.length) : bytePos text j ≤ (encode text).length := by
      rw [← bytePos_length]
      exact bytePos_le text j _ hj
    rw [closingTicks]
    split
    · next hover =>
      obtain ⟨fuel, rfl⟩ := Nat.exists_eq_add_one.mpr hfuel.pos
      rw [findTicks, if_pos ((end_iff text k).mpr hover)]
      rfl
    · next hin =>
      obtain ⟨c, hc⟩ := char_at text k (not_le.mp hin)
      have hnext := bytePos_succ text k c hc
      have hbound := hend (k+1) (by omega)
      split
      · next hother =>
        have hne : c ≠ '\x60' := fun h => hother (by rw [hc, h])
        obtain ⟨fuel, rfl⟩ := Nat.exists_eq_add_of_le' (show c.utf8Size ≤ fuel by omega)
        rw [findTicks_walk text len fuel c.utf8Size _ (by omega)
          (fun m hm => byte_other text '\x60' (by decide) k m c hc hne hm), ← hnext]
        exact ih fuel (k+1) (by omega) (by omega) (by omega)
      · next htick =>
        have hbyte : (encode text)[bytePos text k]? = some tick :=
          (byte_at text '\x60' (by decide) k).mpr (not_not.mp htick)
        have hrun := tick_run text k (not_not.mp htick)
        have hinside := skipWhile_le text (fun c => c = '\x60') k hk
        have hpos := bytePos_lt text k _ hrun hinside
        have hlimit := hend _ hinside
        obtain ⟨fuel, rfl⟩ := Nat.exists_eq_add_one.mpr hfuel.pos
        rw [findTicks, if_neg (by rw [end_iff]; exact hin), if_neg (not_not.mpr hbyte)]
        dsimp only
        rw [tick, skip_char text '\x60' (by decide), count_char text '\x60' (by decide)]
        split
        · rfl
        · exact ih fuel _ hinside (by omega) (by omega)

def Within (regions : List CodeRegion) : Prop :=
  ∀ r ∈ regions, r.start ≤ text.length ∧ r.stop ≤ text.length

theorem within_append (j e : ℕ) (h : Within text regions) (hj : j ≤ text.length)
    (he : e ≤ text.length) : Within text (regions++[⟨j, e⟩]) := by
  intro r hr
  rcases List.mem_append.mp hr with hr | hr
  · exact h r hr
  · rw [List.mem_singleton.mp hr]
    exact ⟨hj, he⟩

theorem inside_bytes (h : Within text regions) (j : ℕ) :
    isInsideCode (bytePos text j) (regions.map (inBytes text)) = isInsideCode j regions := by
  rw [isInsideCode, isInsideCode, List.any_map, Bool.eq_iff_iff, List.any_eq_true,
    List.any_eq_true]
  refine exists_congr (fun r => and_congr_right (fun hr => ?_))
  obtain ⟨hstart, hstop⟩ := h r hr
  simp only [Function.comp_apply, inBytes, bytePos_le_iff text _ j hstart,
    bytePos_lt_iff text j _ hstop]

theorem inlinePass_walk (fuel n j : ℕ) (hle : j+n ≤ (encode text).length)
    (h : ∀ m < n, (encode text)[j+m]? ≠ some tick) :
    inlinePass text (fuel+n) j regions = inlinePass text fuel (j+n) regions := by
  induction n generalizing j with
  | zero => rfl
  | succ n ih =>
    have hfirst : (encode text)[j]? ≠ some tick := h 0 (Nat.succ_pos n)
    rw [← Nat.add_assoc, inlinePass]
    dsimp only
    rw [if_neg (by omega), if_pos (Or.inl hfirst), ih (j+1) (by omega)]
    · congr 1
      omega
    · intro m hm
      have hlater := h (m+1) (by omega)
      rwa [show j+1+m = j+(m+1) by omega]

theorem closingTicks_le (len fuel k e : ℕ) (hk : k ≤ text.length)
    (h : closingTicks text len fuel k = some e) : e ≤ text.length := by
  induction fuel generalizing k with
  | zero => cases h
  | succ fuel ih =>
    rw [closingTicks] at h
    split at h
    · cases h
    · split at h
      · exact ih (k+1) (by omega) h
      · dsimp only at h
        have hinside := skipWhile_le text (fun c => c = '\x60') k hk
        split at h
        · rw [← Option.some.inj h]
          exact hinside
        · exact ih _ hinside h

theorem inline_within (fuel j : ℕ) (regions : List CodeRegion) (h : Within text regions)
    (hj : j ≤ text.length) : Within text (inlineRegions text fuel j regions) := by
  induction fuel generalizing j regions with
  | zero => exact h
  | succ fuel ih =>
    rw [inlineRegions]
    split
    · exact h
    · split
      · exact ih (j+1) regions h (by omega)
      · have hle := skipWhile_le text (fun c => c = '\x60') j hj
        dsimp only
        split
        · next e he =>
          have hlast := closingTicks_le text _ _ _ e hle he
          exact ih e _ (within_append text regions j e h hj hlast) hlast
        · exact ih _ regions h hle

theorem inline_bytes (steps fuel j : ℕ) (regions : List CodeRegion) (hj : j ≤ text.length)
    (hwithin : Within text regions) (hsteps : text.length-j ≤ steps)
    (hfuel : (encode text).length-bytePos text j < fuel) :
    inlinePass text fuel (bytePos text j) (regions.map (inBytes text)) =
      some ((inlineRegions text steps j regions).map (inBytes text)) := by
  induction steps generalizing fuel j regions with
  | zero =>
    obtain ⟨fuel, rfl⟩ := Nat.exists_eq_add_one.mpr hfuel.pos
    rw [inlinePass]
    exact if_pos ((end_iff text j).mpr (by omega))
  | succ steps ih =>
    have hend (k : ℕ) (hk : k ≤ text.length) : bytePos text k ≤ (encode text).length := by
      rw [← bytePos_length]
      exact bytePos_le text k _ hk
    obtain ⟨rest, rfl⟩ := Nat.exists_eq_add_one.mpr hfuel.pos
    rw [inlineRegions]
    split
    · next hover =>
      rw [inlinePass]
      exact if_pos ((end_iff text j).mpr hover)
    · next hin =>
      obtain ⟨c, hc⟩ := char_at text j (not_le.mp hin)
      have hnext := bytePos_succ text j c hc
      have hbound := hend (j+1) (by omega)
      have hinside := inside_bytes text regions hwithin j
      have hnotend : ¬ (encode text).length ≤ bytePos text j := by rwa [end_iff]
      by_cases htick : text[j]? = some '\x60'
      · have hbyte : (encode text)[bytePos text j]? = some tick :=
          (byte_at text '\x60' (by decide) j).mpr htick
        rw [inlinePass]
        dsimp only
        rw [if_neg hnotend]
        simp only [hbyte, htick, hinside, ne_eq, not_true_eq_false, false_or]
        split
        · have hone : bytePos text j+1 = bytePos text (j+1) := by
            rw [bytePos_succ text j '\x60' htick]
            rfl
          rw [hone]
          exact ih rest (j+1) regions (by omega) hwithin (by omega) (by omega)
        · have hrun := tick_run text j htick
          have hle := skipWhile_le text (fun c => c = '\x60') j hj
          rw [tick, skip_char text '\x60' (by decide), count_char text '\x60' (by decide)]
          generalize skipWhile (fun c => decide (c = '\x60')) text j = k at *
          have hpos := bytePos_lt text j k hrun hle
          have hlimit := hend k hle
          rw [findTicks_bytes text (k-j) text.length ((encode text).length+1) k hle (by omega)
            (by omega)]
          cases hclose : closingTicks text (k-j) text.length k with
          | none => exact ih rest k regions hle hwithin (by omega) (by omega)
          | some e =>
            have hlt := closingTicks_lt text (k-j) text.length k e hclose
            have hlast := closingTicks_le text (k-j) text.length k e hle hclose
            have hbeyond := bytePos_lt text k e hlt hlast
            have hmore := within_append text regions j e hwithin hj hlast
            have hspan : regions.map (inBytes text)++
                [CodeRegion.mk (bytePos text j) (bytePos text e)] =
                (regions++[CodeRegion.mk j e]).map (inBytes text) := by
              rw [List.map_append]
              rfl
            rw [Option.map_some]
            dsimp only
            rw [hspan]
            exact ih rest e _ hlast hmore (by omega) (by omega)
      · have hne : c ≠ '\x60' := fun h => htick (by rw [hc, h])
        obtain ⟨fuel, hsum⟩ := Nat.exists_eq_add_of_le' (show c.utf8Size ≤ rest+1 by omega)
        rw [hsum, inlinePass_walk text _ fuel c.utf8Size _ (by omega)
          (fun m hm => byte_other text '\x60' (by decide) j m c hc hne hm), ← hnext]
        rw [if_pos (Or.inl htick)]
        exact ih fuel (j+1) regions (by omega) hwithin (by omega) (by omega)

/-- The bytes are scanned to the end, and give the regions of the characters. -/
theorem scan_bytes (hwithin : Within text (fencedRegions text text.length 0)) :
    scanCodeRegions text = some ((findCodeRegions text).map (inBytes text)) := by
  have hfenced := fenced_bytes text text.length ((encode text).length+1) 0 (Nat.zero_le _)
    (Nat.le_refl _) (by rw [bytePos_zero]; omega)
  have hinline := inline_bytes text text.length ((encode text).length+1) 0 _ (Nat.zero_le _)
    hwithin (Nat.le_refl _) (by rw [bytePos_zero]; omega)
  rw [bytePos_zero] at hfenced hinline
  rw [scanCodeRegions, hfenced, Option.bind_eq_bind, Option.bind_some, hinline,
    Option.bind_some, findCodeRegions, List.map_mergeSort]
  intro a ha b hb
  have hall := inline_within text text.length 0 _ hwithin (Nat.zero_le _)
  rw [decide_eq_decide]
  exact (bytePos_le_iff text a.start b.start (hall a ha).1).symm

end

end IronClaw.CodeScanner
