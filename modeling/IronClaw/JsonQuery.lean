import IronClaw.HttpApproval
import IronClaw.McpTransport
import IronClaw.Lib.Lines

/-!
# Queries of the JSON tool

`query_json` of `tools/builtin/json.rs` cuts a path at its dots, and a segment
at its first bracket: what stands in front names a field, what follows, without
the closing brackets at its end, is read as one position. A second position of
the same segment is part of that text.
-/

set_option autoImplicit false

namespace IronClaw.JsonQuery
open IronClaw.JsonValue IronClaw.HttpApproval IronClaw.McpTransport Lib.Search Lib.Lines

def getAt (v : Value) (i : ℕ) : Option Value :=
  match v with
  | .array xs => xs[i]?
  | _ => none

def field (current : Value) (name : List Char) : Except ToolError Value :=
  match current.get (String.ofList name) with
  | some v => .ok v
  | none => .error (.executionFailed ("field not found: " ++ String.ofList name))

/-- The position of an array that a text names; `parse::<usize>` is that of 64 bits. -/
def element (current : Value) (indexStr : List Char) : Except ToolError Value :=
  match parseU64 (String.ofList indexStr) with
  | none => .error (.invalidParameters ("invalid array index: " ++ String.ofList indexStr))
  | some index =>
    match getAt current index with
    | some v => .ok v
    | none => .error (.executionFailed ("array index out of bounds: " ++ toString index))

def trimClosing (cs : List Char) : List Char := cs.rdropWhile (fun c => c = ']')

def querySegment (current : Value) (segment : List Char) : Except ToolError Value :=
  if segment.isEmpty then .ok current
  else match splitFirst ['['] segment with
    | some (name, indexStr) =>
      (if name.isEmpty then .ok current else field current name).bind
        (fun found => element found (trimClosing indexStr))
    | none => field current segment

def querySegments : List (List Char) → Value → Except ToolError Value
  | [], current => .ok current
  | segment::segments, current => (querySegment current segment).bind (querySegments segments)

def queryJson (data : Value) (path : String) : Except ToolError Value :=
  querySegments (path.toList.splitOn '.') data

/-! ## Locations -/

inductive Step where
  | key (k : String)
  | index (i : UInt64)
  deriving DecidableEq

def Step.get : Step → Value → Option Value
  | .key k, v => v.get k
  | .index i, v => getAt v i.toNat

def valueAt : List Step → Value → Option Value
  | [], v => some v
  | s::loc, v => (s.get v).bind (valueAt loc)

def Plain (loc : List Step) : Prop :=
  ∀ k, .key k ∈ loc → k.toList ≠ [] ∧ '.' ∉ k.toList ∧ '[' ∉ k.toList ∧ ']' ∉ k.toList

def bracketed (i : UInt64) : List Char := '['::Nat.toDigits 10 i.toNat++[']']

def behind : List Step → List Char
  | [] => []
  | .key k::loc => '.'::k.toList++behind loc
  | .index i::loc => bracketed i++behind loc

def render : List Step → List Char
  | .key k::loc => k.toList++behind loc
  | loc => behind loc

def Step.isIndex : Step → Bool
  | .key _ => false
  | .index _ => true

def Spaced : List Step → Prop
  | s::t::loc => ¬ (s.isIndex = true ∧ t.isIndex = true) ∧ Spaced (t::loc)
  | _ => True

/-! ## Brackets -/

def Closed (path : List Char) : Prop :=
  ∀ before rest, path = before++ '['::rest → ∃ ds after, rest = ds++ ']'::after ∧ ds ≠ [] ∧
    (∀ c ∈ ds, c.isDigit = true) ∧ after.head? ≠ some ']'

def indexOf (segment : List Char) : Option (List Char) := (splitFirst ['['] segment).map Prod.snd

def Readable (path : List Char) : Prop :=
  ∀ segment ∈ path.splitOn '.', ∀ indexStr, indexOf segment = some indexStr →
    (parseU64 (String.ofList (trimClosing indexStr))).isSome = true

def Exact (path : List Char) : Prop :=
  ∀ segment ∈ path.splitOn '.', ∀ indexStr, indexOf segment = some indexStr →
    (∃ t, indexStr = t++[']'] ∧ t.getLast? ≠ some ']') ∧ indexStr.head? ≠ some '+'

theorem split_name (name rest : List Char) (h : '[' ∉ name) :
    splitFirst ['['] (name++ '['::rest) = some (name, rest) := by
  rw [splitFirst_headed '[' [] _ name rest List.not_mem_nil]
  exact ⟨by simp, fun hpart => h (hpart.subset List.mem_cons_self)⟩

theorem split_none (segment : List Char) (h : '[' ∉ segment) :
    splitFirst ['['] segment = none := by
  rw [splitFirst_eq_none _ _ (List.cons_ne_nil _ _)]
  exact fun hpart => h (hpart.subset List.mem_cons_self)

/-! ## The segments of a path -/

theorem splitOn_plain (x : List Char) (h : '.' ∉ x) : x.splitOn '.' = [x] := by
  rw [List.splitOn, List.splitOnP_eq_singleton]
  intro c hc
  rw [Bool.eq_false_iff, ne_eq, beq_iff_eq]
  rintro rfl
  exact h hc

theorem splitOn_dot (x y : List Char) (h : '.' ∉ x) :
    (x++ '.'::y).splitOn '.' = x::y.splitOn '.' := by
  have hx := splitOn_plain x h
  rw [List.splitOn] at hx
  rw [List.splitOn, List.splitOnP_append_cons _ _ (by simp), hx]
  rfl

def Ends (post : List Char) : Prop := post = [] ∨ ∃ q, post = '.'::q

theorem segment_within (path : List Char) (segment : List Char) (h : segment ∈ path.splitOn '.') :
    ∃ pre post, path = pre++segment++post ∧ Ends post := by
  induction path using piece_induction '.' with
  | last x hx =>
    rw [splitOn_plain x hx, List.mem_singleton] at h
    exact ⟨[], [], by rw [h]; simp, Or.inl rfl⟩
  | step x y hx ih =>
    rw [splitOn_dot x y hx, List.mem_cons] at h
    rcases h with rfl | h
    · exact ⟨[], '.'::y, rfl, Or.inr ⟨y, rfl⟩⟩
    · obtain ⟨pre, post, rfl, hpost⟩ := ih h
      exact ⟨x++ '.'::pre, post, by simp, hpost⟩

/-- A bracket stands in a segment, which goes on up to the next dot. -/
theorem bracket_within (path before rest : List Char) (h : path = before++ '['::rest) :
    ∃ a b post, a++ '['::b ∈ path.splitOn '.' ∧ rest = b++post ∧ Ends post := by
  induction path using piece_induction '.' generalizing before with
  | last x hx =>
    refine ⟨before, rest, [], ?_, (List.append_nil rest).symm, Or.inl rfl⟩
    rw [splitOn_plain x hx, h]
    exact List.mem_singleton_self _
  | step x y hx ih =>
    rw [splitOn_dot x y hx]
    rcases List.append_eq_append_iff.mp h with ⟨d, hbefore, hdot⟩ | ⟨d, hfront, hbracket⟩
    · cases d with
      | nil => cases hdot
      | cons e d =>
        obtain ⟨rfl, htail⟩ := List.cons.inj hdot
        obtain ⟨a, b, post, hmem, hrest, hpost⟩ := ih d htail
        exact ⟨a, b, post, List.mem_cons_of_mem _ hmem, hrest, hpost⟩
    · cases d with
      | nil => cases hbracket
      | cons e d =>
        obtain ⟨rfl, htail⟩ := List.cons.inj hbracket
        refine ⟨before, d, '.'::y, ?_, htail, Or.inr ⟨y, rfl⟩⟩
        rw [hfront]
        exact List.mem_cons_self

/-! ## Numbers in brackets -/

variable (cs : List Char) (is : List UInt64) (rest : List Step)

theorem closing_only (c : Char) (h : c ∈ cs.rtakeWhile (fun c => decide (c = ']'))) : c = ']' := by
  simpa using List.mem_rtakeWhile_imp h

theorem trimmed_mem (c : Char) (hc : c ≠ ']') (h : c ∈ cs) :
    c ∈ trimClosing cs := by
  have hsplit : trimClosing cs++cs.rtakeWhile (fun c => decide (c = ']')) = cs :=
    List.rdropWhile_append_rtakeWhile
  rw [← hsplit] at h
  rcases List.mem_append.mp h with h | h
  · exact h
  · exact absurd (closing_only cs c h) hc

theorem trimmed_split : ∃ m, cs = trimClosing cs++List.replicate m ']' := by
  have hsplit : trimClosing cs++cs.rtakeWhile (fun c => decide (c = ']')) = cs :=
    List.rdropWhile_append_rtakeWhile
  refine ⟨(cs.rtakeWhile (fun c => decide (c = ']'))).length, ?_⟩
  rw [← List.eq_replicate_of_mem (closing_only cs)]
  exact hsplit.symm

theorem trimmed_last (t : List Char) (h : t.getLast? ≠ some ']') : trimClosing (t++[']']) = t := by
  rw [trimClosing, List.rdropWhile_concat_pos _ _ _ (by simp), List.rdropWhile_eq_self_iff]
  intro hne hlast
  exact h ((List.getLast?_eq_some_getLast hne).trans (congrArg some (of_decide_eq_true hlast)))

theorem unreadable (c : Char) (hc : c ∈ cs) (hdigit : c.isDigit = false) (hplus : c ≠ '+') :
    parseU64 (String.ofList cs) = none := by
  cases hparse : parseU64 (String.ofList cs) with
  | none => rfl
  | some n =>
    obtain ⟨ds, hspelled, -, hds⟩ := parseU64_spelled cs n hparse
    have hin : c ∈ ds := by
      rcases hspelled with rfl | rfl
      · exact hc
      · exact (List.mem_cons.mp hc).resolve_left hplus
    rw [hds c hin] at hdigit
    cases hdigit

theorem digit_not (ds : List Char) (h : ∀ c ∈ ds, c.isDigit = true) (c : Char)
    (hc : c.isDigit = false) : c ∉ ds := by
  intro hin
  rw [h c hin] at hc
  cases hc

theorem position_digits (i : UInt64) : ∀ c ∈ Nat.toDigits 10 i.toNat, c.isDigit = true :=
  fun _ hc => Nat.isDigit_of_mem_toDigits (by omega) (by omega) hc

section segment

variable (data : Value)

theorem field_get (name : List Char) (v : Value) (h : data.get (String.ofList name) = some v) :
    field data name = .ok v := by
  rw [field, h]

/-- A segment with one position reads the element behind the field. -/
theorem segment_one (name : List Char) (i : UInt64) (found v : Value) (hname : '[' ∉ name)
    (hfound : (if name.isEmpty then .ok data else field data name) = Except.ok found)
    (h : getAt found i.toNat = some v) : querySegment data (name++bracketed i) = .ok v := by
  have hlast : (Nat.toDigits 10 i.toNat).getLast? ≠ some ']' := by
    intro hlast
    exact digit_not _ (position_digits i) ']' (by decide) (List.mem_of_getLast? hlast)
  have hne : (name++bracketed i).isEmpty = false := by simp [bracketed]
  rw [querySegment, hne, if_neg Bool.false_ne_true,
    show name++bracketed i = name++ '['::(Nat.toDigits 10 i.toNat++[']']) from rfl,
    split_name name _ hname]
  dsimp only
  rw [hfound, Except.bind, trimmed_last _ hlast, element, parseU64_toDigits _ i.toNat_lt]
  dsimp only
  rw [h]

/-- The brackets of a second position are no number. -/
theorem segment_more (name : List Char) (i j : UInt64) (more : List Char) (hname : '[' ∉ name) :
    ∃ e, querySegment data (name++bracketed i++bracketed j++more) = .error e := by
  have htext : name++bracketed i++bracketed j++more =
      name++ '['::(Nat.toDigits 10 i.toNat++ ']':: '['::(Nat.toDigits 10 j.toNat++ ']'::more)) := by
    simp [bracketed]
  have hne : (name++bracketed i++bracketed j++more).isEmpty = false := by simp [bracketed]
  rw [querySegment, hne, if_neg Bool.false_ne_true, htext, split_name name _ hname]
  dsimp only
  cases (if name.isEmpty then .ok data else field data name : Except ToolError Value) with
  | error e => exact ⟨e, rfl⟩
  | ok found =>
    rw [Except.bind, element, unreadable _ '[' (trimmed_mem _ '[' (by decide) (by simp)) (by decide)
      (by decide)]
    exact ⟨_, rfl⟩

end segment

/-! ## Rendered locations -/

theorem valueAt_append (a b : List Step) (v : Value) :
    valueAt (a++b) v = (valueAt a v).bind (valueAt b) := by
  induction a generalizing v with
  | nil => rfl
  | cons s a ih =>
    rw [List.cons_append, valueAt, valueAt]
    cases s.get v with
    | none => rfl
    | some w => exact ih w

theorem behind_indices :
    behind (is.map .index++rest) = is.flatMap bracketed++behind rest := by
  induction is with
  | nil => rfl
  | cons i is ih => rw [List.map_cons, List.cons_append, behind, ih, List.flatMap_cons,
      List.append_assoc]

def Begins (rest : List Step) : Prop := rest = [] ∨ ∃ k loc, rest = .key k::loc

theorem leading_indices (loc : List Step) :
    ∃ (is : List UInt64) (rest : List Step), loc = is.map Step.index++rest ∧ Begins rest := by
  induction loc with
  | nil => exact ⟨[], [], rfl, Or.inl rfl⟩
  | cons s loc ih =>
    cases s with
    | key k => exact ⟨[], .key k::loc, rfl, Or.inr ⟨k, loc, rfl⟩⟩
    | index i =>
      obtain ⟨is, rest, rfl, hrest⟩ := ih
      exact ⟨i::is, rest, rfl, hrest⟩

theorem spaced_key (k : String) (loc : List Step) : Spaced (.key k::loc) ↔ Spaced loc := by
  cases loc with
  | nil => exact Iff.rfl
  | cons t loc =>
    rw [Spaced]
    exact and_iff_right (fun h => by cases h.1)

theorem spaced_indices (hrest : Begins rest) :
    Spaced (is.map .index++rest) ↔ is.length ≤ 1 ∧ Spaced rest := by
  match is with
  | [] => simp
  | [i] =>
    rcases hrest with rfl | ⟨k, loc, rfl⟩
    · simp [Spaced]
    · simp [Spaced, Step.isIndex]
  | i::j::is => simp [Spaced, Step.isIndex]

theorem behind_begins (h : Begins rest) :
    behind rest = if rest = [] then [] else '.'::render rest := by
  rcases h with rfl | ⟨k, loc, rfl⟩
  · rfl
  · rw [if_neg (List.cons_ne_nil _ _)]
    rfl

theorem bracketed_dotless : '.' ∉ is.flatMap bracketed := by
  intro hin
  obtain ⟨i, -, hi⟩ := List.mem_flatMap.mp hin
  simp only [bracketed, List.cons_append, List.mem_cons, List.mem_append, List.not_mem_nil,
    or_false] at hi
  rcases hi with hi | hi | hi
  · exact absurd hi (by decide)
  · exact digit_not _ (position_digits i) '.' (by decide) hi
  · exact absurd hi (by decide)

/-- A segment with a name and positions, and what is left of the path. -/
theorem query_segment (name : List Char) (is : List UInt64) (rest : List Step) (data : Value)
    (hdot : '.' ∉ name) (hrest : Begins rest) :
    querySegments ((name++behind (is.map .index++rest)).splitOn '.') data =
      (querySegment data (name++is.flatMap bracketed)).bind
        (querySegments ((render rest).splitOn '.')) := by
  have hplain : '.' ∉ name++is.flatMap bracketed := by
    rw [List.mem_append, not_or]
    exact ⟨hdot, bracketed_dotless is⟩
  rw [behind_indices, behind_begins rest hrest, ← List.append_assoc]
  split
  · next hnil =>
    have hend : querySegments ((render []).splitOn '.') = Except.ok := by
      funext v
      rfl
    rw [List.append_nil, splitOn_plain _ hplain, hnil, hend]
    rfl
  · rw [splitOn_dot _ _ hplain]
    rfl

/-- One segment gives the value at its part of the location, as long as there
is one position at most. -/
theorem segment_value (name : List Char) (is : List UInt64) (data found w : Value)
    (hbracket : '[' ∉ name) (hne : name ≠ [] ∨ is ≠ [])
    (hfound : (if name.isEmpty then .ok data else field data name) = Except.ok found)
    (hw : valueAt (is.map .index) found = some w) :
    if is.length ≤ 1 then querySegment data (name++is.flatMap bracketed) = .ok w
    else ∃ e, querySegment data (name++is.flatMap bracketed) = .error e := by
  match is with
  | [] =>
    have hname : name.isEmpty = false := by
      rw [List.isEmpty_eq_false_iff]
      exact hne.resolve_right (fun h => h rfl)
    rw [hname, if_neg Bool.false_ne_true] at hfound
    rw [if_pos (by simp), List.flatMap_nil, List.append_nil, querySegment, hname,
      if_neg Bool.false_ne_true, split_none name hbracket]
    dsimp only
    rw [hfound]
    exact congrArg Except.ok (Option.some.inj hw)
  | [i] =>
    rw [if_pos (by simp), List.flatMap_cons, List.flatMap_nil, List.append_nil]
    refine segment_one data name i found w hbracket hfound ?_
    obtain ⟨u, hu, huw⟩ := Option.bind_eq_some_iff.mp hw
    rw [← Option.some.inj huw]
    exact hu
  | i::j::is =>
    rw [if_neg (by simp), List.flatMap_cons, List.flatMap_cons, ← List.append_assoc,
      ← List.append_assoc]
    exact segment_more data name i j _ hbracket

/-- The value at a location is found through its rendering exactly if no two
positions follow one another. -/
theorem query_iff (loc : List Step) (hplain : Plain loc) (data v : Value)
    (h : valueAt loc data = some v) :
    querySegments ((render loc).splitOn '.') data = .ok v ↔ Spaced loc := by
  induction hn : loc.length using Nat.strongRecOn generalizing loc data with
  | ind n ih =>
    -- a segment: perhaps a name, positions, and the rest that begins with a key
    have hsegment (name : List Char) (is : List UInt64) (rest : List Step) (found : Value)
        (hdot : '.' ∉ name) (hbracket : '[' ∉ name) (hne : name ≠ [] ∨ is ≠ [])
        (hrest : Begins rest) (hplain : Plain rest) (hshort : rest.length < n)
        (hfound : (if name.isEmpty then .ok data else field data name) = Except.ok found)
        (hv : valueAt (is.map .index++rest) found = some v) :
        querySegments ((name++behind (is.map .index++rest)).splitOn '.') data = .ok v ↔
          is.length ≤ 1 ∧ Spaced rest := by
      rw [valueAt_append] at hv
      obtain ⟨w, hw, hwv⟩ := Option.bind_eq_some_iff.mp hv
      have hvalue := segment_value name is data found w hbracket hne hfound hw
      rw [query_segment name is rest data hdot hrest]
      split at hvalue
      · next hlen =>
        rw [hvalue, and_iff_right hlen]
        exact ih rest.length hshort rest hplain w hwv rfl
      · next hlen =>
        obtain ⟨e, he⟩ := hvalue
        rw [he]
        refine iff_of_false ?_ (fun hok => hlen hok.1)
        intro hok
        cases hok
    cases loc with
    | nil =>
      rw [← Option.some.inj h]
      exact iff_of_true rfl trivial
    | cons s loc =>
      cases s with
      | key k =>
        obtain ⟨is, rest, rfl, hrest⟩ := leading_indices loc
        obtain ⟨hne, hdot, hbracket, -⟩ := hplain k List.mem_cons_self
        obtain ⟨found, hfound, hv⟩ := Option.bind_eq_some_iff.mp h
        rw [spaced_key, spaced_indices is rest hrest]
        have hget : data.get (String.ofList k.toList) = some found := by
          rw [String.ofList_toList]
          exact hfound
        refine hsegment k.toList is rest found hdot hbracket (Or.inl hne) hrest
          (fun k' hk' => hplain k' (List.mem_cons_of_mem _ (List.mem_append_right _ hk'))) ?_ ?_ hv
        · rw [← hn, List.length_cons, List.length_append]
          omega
        · rw [List.isEmpty_eq_false_iff.mpr hne, if_neg Bool.false_ne_true]
          exact field_get data k.toList found hget
      | index i =>
        obtain ⟨is, rest, rfl, hrest⟩ := leading_indices loc
        have hspaced := spaced_indices (i::is) rest hrest
        rw [List.map_cons, List.cons_append] at hspaced
        rw [hspaced]
        refine hsegment [] (i::is) rest data List.not_mem_nil List.not_mem_nil
          (Or.inr (List.cons_ne_nil _ _)) hrest
          (fun k' hk' => hplain k' (List.mem_cons_of_mem _ (List.mem_append_right _ hk'))) ?_ rfl h
        rw [← hn, List.length_cons, List.length_append]
        omega

end IronClaw.JsonQuery
