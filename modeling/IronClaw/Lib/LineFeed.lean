import IronClaw.Lib.BytePositions
import IronClaw.Lib.Utf8Stream

/-!
# Lines in pieces

A text that arrives in pieces is cut at its line feeds, and what is left is put
in front of the next piece. The lines are those of the whole text. With bytes
for pieces, characters that are torn are put back together first.
-/

set_option autoImplicit false

namespace Lib.LineFeed
open Lib.Text Lib.Utf8 Lib.BytePositions

def drain (line : List Char) : List Char → List (List Char) × List Char
  | [] => ([], line)
  | c::cs =>
    if c = '\n' then (line::(drain [] cs).1, (drain [] cs).2) else drain (line++[c]) cs

def unlines (lines : List (List Char)) : List Char := lines.flatMap (fun line => line++['\n'])

theorem drain_append (line a b : List Char) :
    drain line (a++b) =
      ((drain line a).1++(drain (drain line a).2 b).1, (drain (drain line a).2 b).2) := by
  induction a generalizing line with
  | nil => rfl
  | cons c a ih =>
    rw [List.cons_append, drain, drain]
    split
    · rw [ih]
      rfl
    · exact ih _

theorem drain_open (line a : List Char) (ha : '\n' ∉ a) : drain line a = ([], line++a) := by
  induction a generalizing line with
  | nil => rw [drain, List.append_nil]
  | cons c a ih =>
    have hc : c ≠ '\n' := fun heq => ha (heq ▸ List.mem_cons_self)
    rw [drain, if_neg hc, ih _ (fun hin => ha (List.mem_cons_of_mem c hin)), List.append_assoc]
    rfl

/-- What is left has no line feed and ends the text. -/
theorem drain_left (line a : List Char) (hline : '\n' ∉ line) :
    '\n' ∉ (drain line a).2 ∧ (drain line a).2 <:+ line++a := by
  induction a generalizing line with
  | nil => exact ⟨hline, by rw [drain, List.append_nil]⟩
  | cons c a ih =>
    rw [drain]
    split
    · obtain ⟨hclean, hends⟩ := ih [] (by simp)
      exact ⟨hclean, hends.trans ((List.suffix_cons c a).trans (List.suffix_append line _))⟩
    · next hc =>
      have hclean : '\n' ∉ line++[c] := by
        rw [List.mem_append, List.mem_singleton]
        rintro (hin | heq)
        · exact hline hin
        · exact hc heq.symm
      have h := ih (line++[c]) hclean
      rwa [List.append_assoc, List.singleton_append] at h

theorem drain_held (buffer text : List Char) (h : '\n' ∉ buffer) :
    drain [] (buffer++text) = drain buffer text := by
  rw [drain_append, drain_open [] buffer h]
  rfl

theorem drain_unlines (lines : List (List Char)) (h : ∀ line ∈ lines, '\n' ∉ line) :
    drain [] (unlines lines) = (lines, []) := by
  induction lines with
  | nil => rfl
  | cons line lines ih =>
    have hhead := h line List.mem_cons_self
    have htail := ih (fun other hin => h other (List.mem_cons_of_mem line hin))
    rw [unlines, List.flatMap_cons, List.append_assoc, drain_append, drain_open [] line hhead]
    change ([]++(line::(drain [] (unlines lines)).1), (drain [] (unlines lines)).2) = _
    rw [htail]
    rfl

/-- A run of characters without a line feed lies in one line. -/
theorem within_line (run line rest : List Char) (hrun : '\n' ∉ run)
    (h : run <:+: line++ '\n'::rest) : run <:+: line ∨ run <:+: rest := by
  obtain ⟨before, after, heq⟩ := h
  rw [List.append_assoc] at heq
  rcases List.append_eq_append_iff.mp heq with ⟨mid, hline, hmid⟩ | ⟨mid, hbefore, hmid⟩
  · rcases List.append_eq_append_iff.mp hmid with ⟨tail, htail, -⟩ | ⟨tail, htail, hafter⟩
    · exact .inl ⟨before, tail, by rw [hline, htail, List.append_assoc]⟩
    · cases tail with
      | nil => exact .inl ⟨before, [], by rw [hline, htail]; simp⟩
      | cons c tail =>
        obtain ⟨rfl, -⟩ := List.cons.inj hafter
        exact absurd (htail ▸ List.mem_append_right mid List.mem_cons_self) hrun
  · cases mid with
    | nil =>
      cases run with
      | nil => exact .inl (List.nil_infix)
      | cons c run =>
        obtain ⟨rfl, -⟩ := List.cons.inj hmid
        exact absurd List.mem_cons_self hrun
    | cons c mid =>
      obtain ⟨rfl, hrest⟩ := List.cons.inj hmid
      exact .inr ⟨mid, after, by rw [List.append_assoc]; exact hrest.symm⟩

theorem within_unlines (run : List Char) (lines : List (List Char)) (hrun : '\n' ∉ run)
    (h : run <:+: unlines lines) (hne : run ≠ []) : ∃ line ∈ lines, run <:+: line := by
  induction lines with
  | nil => exact absurd (List.eq_nil_of_infix_nil h) hne
  | cons line lines ih =>
    rw [unlines, List.flatMap_cons, List.append_assoc, List.singleton_append] at h
    rcases within_line run line _ hrun h with hin | hin
    · exact ⟨line, List.mem_cons_self, hin⟩
    · obtain ⟨other, hother, hinfix⟩ := ih hin
      exact ⟨other, List.mem_cons_of_mem line hother, hinfix⟩

structure Held where
  buffer : List Char
  carry : List UInt8

def Held.text (held : Held) (piece : List UInt8) : List Char := (valid (held.carry++piece)).1

def Held.next (held : Held) (piece : List UInt8) : Held where
  buffer := (drain [] (held.buffer++held.text piece)).2
  carry := (valid (held.carry++piece)).2.drop
    ((errorLength (valid (held.carry++piece)).2).getD 0)

def Held.lines (held : Held) (piece : List UInt8) : List (List Char) :=
  (drain [] (held.buffer++held.text piece)).1

structure Between (held : Held) (read back : List Char) (bytes : List UInt8) : Prop where
  buffer : held.buffer = (drain [] read).2
  bytes : held.carry++bytes = encode back
  short : held.carry.length ≤ 3
  torn : firstChar held.carry = none

theorem between_start (cs : List Char) (bytes : List UInt8) (h : bytes = encode cs) :
    Between ⟨[], []⟩ [] cs bytes := ⟨rfl, h, by simp, firstChar_nil⟩

theorem read_short (bytes more : List UInt8) (cs : List Char) (h : bytes++more = encode cs) :
    byteLen (valid bytes).1 ≤ bytes.length := by
  obtain ⟨back, hcut⟩ := valid_cut bytes more cs h
  have hbytes : bytes++more = (encode (valid bytes).1++(valid bytes).2)++more := by
    rw [h, hcut.text, encode_append, ← hcut.rest, List.append_assoc]
    rfl
  have hlen := congrArg List.length (List.append_cancel_right hbytes)
  rw [List.length_append, length_encode] at hlen
  omega

/-- A piece gives the lines that it finishes, and no more than its own bytes
and three are added to the buffer. -/
theorem between_piece (held : Held) (read back : List Char) (piece bytes : List UInt8)
    (h : Between held read back (piece++bytes)) :
    byteLen (held.text piece) ≤ 3+piece.length ∧ ∃ back', back = held.text piece++back' ∧
      Between (held.next piece) (read++held.text piece) back' bytes ∧
      (drain [] (read++held.text piece)).1 = (drain [] read).1++held.lines piece := by
  have hbytes := h.bytes
  rw [← List.append_assoc] at hbytes
  obtain ⟨back', hcut⟩ := valid_cut _ bytes back hbytes
  have hclean : '\n' ∉ held.buffer := h.buffer ▸ (drain_left [] read (by simp)).1
  have hdrain : drain [] (held.buffer++held.text piece) =
      drain (drain [] read).2 (held.text piece) := by
    rw [drain_held _ _ hclean, h.buffer]
  have hcarry : (held.next piece).carry = (valid (held.carry++piece)).2 := by
    unfold Held.next
    by_cases hrest : (valid (held.carry++piece)).2 = []
    · rw [hrest, List.drop_nil]
    · have htorn := hcut.torn hrest
      change errorLength (valid (held.carry++piece)).2 = none at htorn
      simp only [htorn, Option.getD_none, List.drop_zero]
  have hlength := read_short _ bytes back hbytes
  rw [List.length_append] at hlength
  have hshort := h.short
  refine ⟨by unfold Held.text; omega, back', hcut.text, ⟨?_, ?_, ?_, ?_⟩, ?_⟩
  · rw [drain_append, ← hdrain]
    rfl
  · rw [hcarry]
    exact hcut.rest
  · rw [hcarry]
    exact hcut.short
  · rw [hcarry]
    exact validIn_stops _ _ (Nat.le_refl _)
  · rw [drain_append, ← hdrain]
    rfl

theorem between_end (held : Held) (read back : List Char) (h : Between held read back []) :
    back = [] := by
  have hbytes := h.bytes
  rw [List.append_nil] at hbytes
  cases back with
  | nil => rfl
  | cons c back =>
    have htorn := h.torn
    rw [hbytes, encode_cons, firstChar_encoded] at htorn
    cases htorn

end Lib.LineFeed
