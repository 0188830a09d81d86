import Mathlib.Data.List.Basic

/-!
# The lines of a text

A text is cut behind every line feed, and a line is read without its ending: a
line feed, or a carriage return and a line feed. A last line may have none.
-/

set_option autoImplicit false

namespace Lib.Lines

def pieces : List Char → List (List Char)
  | [] => []
  | c::cs =>
    if c = '\n' then ['\n']::pieces cs
    else match pieces cs with
      | [] => [[c]]
      | p::ps => (c::p)::ps

def lineOf (piece : List Char) : List Char :=
  if piece.getLast? = some '\n' then
    if piece.dropLast.getLast? = some '\r' then piece.dropLast.dropLast else piece.dropLast
  else piece

def lines (text : List Char) : List (List Char) := (pieces text).map lineOf

theorem pieces_line (x rest : List Char) (hx : '\n' ∉ x) :
    pieces (x++ '\n'::rest) = (x++['\n'])::pieces rest := by
  induction x with
  | nil => rfl
  | cons c x ih =>
    have hc : c ≠ '\n' := fun heq => hx (heq ▸ List.mem_cons_self)
    rw [List.cons_append, pieces, if_neg hc, ih (fun hin => hx (List.mem_cons_of_mem c hin))]
    rfl

theorem pieces_last (x : List Char) (hx : '\n' ∉ x) (hne : x ≠ []) : pieces x = [x] := by
  induction x with
  | nil => exact absurd rfl hne
  | cons c x ih =>
    have hc : c ≠ '\n' := fun heq => hx (heq ▸ List.mem_cons_self)
    rw [pieces, if_neg hc]
    cases x with
    | nil => rfl
    | cons d x => rw [ih (fun hin => hx (List.mem_cons_of_mem c hin)) (List.cons_ne_nil d x)]

theorem pieces_flatten (cs : List Char) : (pieces cs).flatten = cs := by
  induction cs with
  | nil => rfl
  | cons c cs ih =>
    rw [pieces]
    split
    · next hc => rw [List.flatten_cons, ih, hc, List.singleton_append]
    · cases hps : pieces cs with
      | nil =>
        rw [hps] at ih
        rw [← ih]
        rfl
      | cons p ps =>
        rw [hps, List.flatten_cons] at ih
        rw [← ih]
        rfl

theorem pieces_ending (x ending rest : List Char) (hx : '\n' ∉ x)
    (h : ending = ['\n'] ∨ ending = ['\r', '\n']) :
    pieces (x++(ending++rest)) = (x++ending)::pieces rest := by
  rcases h with rfl | rfl
  · exact pieces_line x rest hx
  · have hcarriage : '\n' ∉ x++['\r'] := by
      simp [hx]
    have hline := pieces_line (x++['\r']) rest hcarriage
    rwa [List.append_assoc, List.append_assoc] at hline

theorem lineOf_ending (x ending : List Char) (hx : '\r' ∉ x)
    (h : ending = ['\n'] ∨ ending = ['\r', '\n']) : lineOf (x++ending) = x := by
  have hlast : x.getLast? ≠ some '\r' := fun hl => hx (List.mem_of_getLast? hl)
  rcases h with rfl | rfl
  · simp [lineOf, hlast]
  · have hsplit : x++['\r', '\n'] = (x++['\r'])++['\n'] := by simp
    rw [hsplit]
    simp [lineOf]

theorem lineOf_last (x : List Char) (hx : '\n' ∉ x) : lineOf x = x := by
  have hlast : x.getLast? ≠ some '\n' := fun hl => hx (List.mem_of_getLast? hl)
  rw [lineOf, if_neg hlast]

theorem pieces_append (a b : List Char) :
    pieces (a++ '\n'::b) = pieces (a++['\n'])++pieces b := by
  induction a with
  | nil => rfl
  | cons c a ih =>
    rw [List.cons_append, List.cons_append, pieces, pieces, ih]
    by_cases hc : c = '\n'
    · rw [if_pos hc, if_pos hc, List.cons_append]
    · rw [if_neg hc, if_neg hc]
      cases hps : pieces (a++['\n']) with
      | nil =>
        have hjoined := pieces_flatten (a++['\n'])
        rw [hps] at hjoined
        exact absurd hjoined.symm (List.append_ne_nil_of_right_ne_nil a (List.cons_ne_nil _ _))
      | cons p ps => rfl

theorem lines_append (a b : List Char) : lines (a++ '\n'::b) = lines (a++['\n'])++lines b := by
  rw [lines, pieces_append, List.map_append]
  rfl

@[elab_as_elim]
theorem piece_induction {α : Type*} (sep : α) {P : List α → Prop} (last : ∀ x, sep ∉ x → P x)
    (step : ∀ x y, sep ∉ x → P y → P (x++sep::y)) (cs : List α) : P cs := by
  induction hn : cs.length using Nat.strongRecOn generalizing cs with
  | ind n ih =>
    by_cases hin : sep ∈ cs
    · obtain ⟨x, y, rfl, hx⟩ := List.eq_append_cons_of_mem hin
      refine step x y hx (ih y.length ?_ y rfl)
      rw [← hn, List.length_append, List.length_cons]
      omega
    · exact last cs hin

@[elab_as_elim]
theorem line_induction {P : List Char → Prop} (last : ∀ x, '\n' ∉ x → P x)
    (step : ∀ x y, '\n' ∉ x → P y → P (x++ '\n'::y)) (text : List Char) : P text :=
  piece_induction '\n' last step text

theorem lineOf_line (x : List Char) :
    lineOf (x++['\n']) = if x.getLast? = some '\r' then x.dropLast else x := by
  simp [lineOf]

theorem first_line (x y : List Char) (hx : '\n' ∉ x) (h : ¬['\r', '\n'] <:+: x++ '\n'::y) :
    lines (x++['\n']) = [x] ∧ ¬['\r', '\n'] <:+: y := by
  constructor
  · have hlast : x.getLast? ≠ some '\r' := by
      intro hl
      obtain ⟨x', rfl⟩ := List.getLast?_eq_some_iff.mp hl
      exact h ⟨x', y, by simp⟩
    rw [lines, pieces_line x [] hx, List.map_cons, lineOf_line, if_neg hlast]
    rfl
  · intro hin
    exact h (hin.trans ((List.suffix_cons '\n' y).trans (List.suffix_append x _)).isInfix)

/-- Where no line but the last ends with a carriage return, only that one loses it. -/
theorem lines_ended (c : List Char) (h : ¬['\r', '\n'] <:+: c) :
    lines (c++['\n']) = (lineOf (c++['\n'])).splitOn '\n' := by
  induction c using line_induction with
  | last x hx =>
    have hline : '\n' ∉ lineOf (x++['\n']) := by
      rw [lineOf_line]
      split
      · exact fun hin => hx ((List.dropLast_prefix x).subset hin)
      · exact hx
    rw [lines, pieces_line x [] hx, List.splitOn_eq_singleton hline]
    rfl
  | step x y hx ih =>
    obtain ⟨hfirst, hrest⟩ := first_line x y hx h
    have hdropped : lineOf ((x++ '\n'::y)++['\n']) = x++ '\n'::lineOf (y++['\n']) := by
      rw [lineOf_line, lineOf_line]
      cases y with
      | nil => simp
      | cons d y =>
        have hl : (x++ '\n'::d::y).getLast? = (d::y).getLast? := by
          rw [List.getLast?_append_cons, List.getLast?_cons_cons]
        have hd : (x++ '\n'::d::y).dropLast = x++ '\n'::(d::y).dropLast := by
          rw [List.dropLast_append_cons, List.dropLast_cons_cons]
        rw [hl, hd]
        split <;> rfl
    rw [hdropped, List.splitOn_append_cons_self_of_not_mem hx, ← ih hrest, List.append_assoc,
      List.cons_append, lines_append, hfirst]
    rfl

theorem lines_open (c : List Char) (h : ¬['\r', '\n'] <:+: c) (hne : c ≠ [])
    (hlast : c.getLast? ≠ some '\n') : lines c = c.splitOn '\n' := by
  induction c using line_induction with
  | last x hx =>
    rw [lines, pieces_last x hx hne, List.splitOn_eq_singleton hx, List.map_cons,
      lineOf_last x hx]
    rfl
  | step x y hx ih =>
    obtain ⟨hfirst, hrest⟩ := first_line x y hx h
    have hy : y ≠ [] := by
      rintro rfl
      exact hlast List.getLast?_concat
    have hlast' : y.getLast? ≠ some '\n' := by
      obtain ⟨d, y, rfl⟩ := List.exists_cons_of_ne_nil hy
      rwa [List.getLast?_append_cons, List.getLast?_cons_cons] at hlast
    rw [List.splitOn_append_cons_self_of_not_mem hx, ← ih hrest hy hlast', lines_append, hfirst]
    rfl

theorem splitOn_ended (c : List Char) :
    (c.splitOn '\n').flatMap (fun x => x++['\n']) = c++['\n'] := by
  induction c using line_induction with
  | last x hx =>
    rw [List.splitOn_eq_singleton hx, List.flatMap_cons, List.flatMap_nil, List.append_nil]
  | step x y hx ih =>
    rw [List.splitOn_append_cons_self_of_not_mem hx, List.flatMap_cons, ih]
    simp

end Lib.Lines
