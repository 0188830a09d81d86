import IronClaw.JsonQuery

/-!
# Brackets in the queries of the JSON tool

Any number of closing brackets is trimmed off a position, none at all
included, and the number may have a plus sign. A path is answered by some
value exactly if each of its brackets holds a number.
-/

set_option autoImplicit false

namespace IronClaw.QueryBrackets
open IronClaw.JsonValue IronClaw.HttpApproval IronClaw.McpTransport Lib.Search
open IronClaw.JsonQuery

def Numbered (segments : List (List Char)) : Prop :=
  ∀ segment ∈ segments, ∀ indexStr, indexOf segment = some indexStr →
    (parseU64 (String.ofList (trimClosing indexStr))).isSome = true

theorem indexOf_parts (segment indexStr : List Char) (h : indexOf segment = some indexStr) :
    ∃ name, segment = name++ '['::indexStr ∧ splitFirst ['['] segment = some (name, indexStr) := by
  obtain ⟨⟨name, rest⟩, hsplit, rfl⟩ := Option.map_eq_some_iff.mp h
  refine ⟨name, ?_, hsplit⟩
  simpa using splitFirst_parts ['['] segment name rest hsplit

/-! ## Paths with an answer -/

theorem segment_numbered (segment : List Char) (data v : Value)
    (h : querySegment data segment = .ok v) (indexStr : List Char)
    (hindex : indexOf segment = some indexStr) :
    (parseU64 (String.ofList (trimClosing indexStr))).isSome = true := by
  obtain ⟨name, htext, hsplit⟩ := indexOf_parts segment indexStr hindex
  have hne : segment.isEmpty = false := by simp [htext]
  rw [querySegment, hne, if_neg Bool.false_ne_true, hsplit] at h
  dsimp only at h
  cases hfound : (if name.isEmpty then .ok data else field data name : Except ToolError Value) with
  | error e =>
    rw [hfound] at h
    cases h
  | ok found =>
    rw [hfound, Except.bind, element] at h
    cases hnumber : parseU64 (String.ofList (trimClosing indexStr)) with
    | some n => rfl
    | none =>
      rw [hnumber] at h
      cases h

theorem answered_numbered (segments : List (List Char)) (data v : Value)
    (h : querySegments segments data = .ok v) : Numbered segments := by
  induction segments generalizing data with
  | nil => exact fun segment hsegment => absurd hsegment List.not_mem_nil
  | cons segment segments ih =>
    rw [querySegments] at h
    cases hstep : querySegment data segment with
    | error e =>
      rw [hstep] at h
      cases h
    | ok w =>
      rw [hstep] at h
      intro s hs
      rcases List.mem_cons.mp hs with rfl | hs
      · exact segment_numbered s data w hstep
      · exact ih w h s hs

def named (name : List Char) (v : Value) : Value := .object [(String.ofList name, v)]

def placed (n : ℕ) (v : Value) : Value := .array (List.replicate n .null++[v])

def around (segment : List Char) (v : Value) : Value :=
  if segment.isEmpty then v
  else match splitFirst ['['] segment with
    | some (name, indexStr) =>
      let xs := placed ((parseU64 (String.ofList (trimClosing indexStr))).getD 0) v
      if name.isEmpty then xs else named name xs
    | none => named segment v

theorem named_field (name : List Char) (v : Value) : field (named name v) name = .ok v :=
  field_get (named name v) name v (if_pos rfl)

theorem placed_element (v : Value) (cs : List Char) (n : ℕ)
    (h : parseU64 (String.ofList cs) = some n) : element (placed n v) cs = .ok v := by
  have hget : getAt (placed n v) n = some v := by
    simp [getAt, placed]
  rw [element, h]
  dsimp only
  rw [hget]

theorem around_segment (segment : List Char) (v : Value) (h : Numbered [segment]) :
    querySegment (around segment v) segment = .ok v := by
  rw [querySegment, around]
  split
  · rfl
  · cases hsplit : splitFirst ['['] segment with
    | none => exact named_field segment v
    | some parts =>
      obtain ⟨name, indexStr⟩ := parts
      have hindex : indexOf segment = some indexStr := by rw [indexOf, hsplit]; rfl
      obtain ⟨n, hn⟩ := Option.isSome_iff_exists.mp
        (h segment (List.mem_singleton_self segment) indexStr hindex)
      dsimp only
      rw [hn, Option.getD_some]
      cases hname : name.isEmpty with
      | true => exact placed_element v _ n hn
      | false =>
        simp only [Bool.false_eq_true, if_false, named_field]
        exact placed_element v _ n hn

theorem numbered_answered (segments : List (List Char)) (h : Numbered segments) (v : Value) :
    querySegments segments (segments.foldr around v) = .ok v := by
  induction segments with
  | nil => rfl
  | cons segment segments ih =>
    have hfirst : Numbered [segment] := by
      intro s hs
      exact h s (by simpa using Or.inl (List.mem_singleton.mp hs))
    rw [List.foldr_cons, querySegments, around_segment segment _ hfirst]
    exact ih (fun s hs => h s (List.mem_cons_of_mem _ hs))

theorem readable_iff (path : String) :
    Readable path.toList ↔ ∃ data v, queryJson data path = .ok v := by
  constructor
  · intro h
    exact ⟨_, .null, numbered_answered _ h .null⟩
  · rintro ⟨data, v, h⟩
    exact answered_numbered _ data v h

/-! ## Closing brackets -/

theorem ends_head (post : List Char) (h : Ends post) (c : Char) (hc : post.head? = some c) :
    c = '.' := by
  rcases h with rfl | ⟨q, rfl⟩
  · cases hc
  · exact (Option.some.inj hc).symm

/-- Digits end where something else begins. -/
theorem digits_end (xs ys as bs : List Char) (hxs : ∀ c ∈ xs, c.isDigit = true)
    (hys : ∀ c ∈ ys, c.isDigit = true) (has : ∀ c, as.head? = some c → c.isDigit = false)
    (hbs : ∀ c, bs.head? = some c → c.isDigit = false) (h : xs++as = ys++bs) :
    xs = ys ∧ as = bs := by
  have hspan (ds rest : List Char) (hds : ∀ c ∈ ds, c.isDigit = true)
      (hrest : ∀ c, rest.head? = some c → c.isDigit = false) :
      (ds++rest).takeWhile Char.isDigit = ds := by
    rw [List.takeWhile_append_of_pos hds]
    cases rest with
    | nil => simp
    | cons c rest => rw [List.takeWhile_cons_of_neg (by simp [hrest c rfl]), List.append_nil]
  have hsame : xs = ys := by
    rw [← hspan xs as hxs has, h, hspan ys bs hys hbs]
  rw [hsame] at h
  exact ⟨hsame, List.append_cancel_left h⟩

theorem digits_last (ds : List Char) (h : ∀ c ∈ ds, c.isDigit = true) :
    ds.getLast? ≠ some ']' := by
  intro hlast
  exact digit_not ds h ']' (by decide) (List.mem_of_getLast? hlast)

theorem closed_exact (path : List Char) (hreadable : Readable path) (h : Closed path) :
    Exact path := by
  intro segment hsegment indexStr hindex
  obtain ⟨name, htext, -⟩ := indexOf_parts segment indexStr hindex
  obtain ⟨pre, post, hpath, hpost⟩ := segment_within path segment hsegment
  obtain ⟨ds, after, hrest, hne, hds, hafter⟩ :=
    h (pre++name) (indexStr++post) (by rw [hpath, htext]; simp)
  obtain ⟨m, htrim⟩ := trimmed_split indexStr
  obtain ⟨n, hn⟩ := Option.isSome_iff_exists.mp (hreadable segment hsegment indexStr hindex)
  obtain ⟨es, hspelled, hes, hdigits⟩ := parseU64_spelled _ n hn
  rw [htrim, List.append_assoc] at hrest
  have hnumber : trimClosing indexStr = es := by
    refine hspelled.resolve_right (fun hplus => ?_)
    cases ds with
    | nil => exact hne rfl
    | cons d ds =>
      rw [hplus] at hrest
      have hd := hds d List.mem_cons_self
      rw [← (List.cons.inj hrest).1] at hd
      exact absurd hd (by decide)
  rw [hnumber] at htrim hrest
  have hstop (c : Char) (hc : (List.replicate m ']'++post).head? = some c) : c.isDigit = false := by
    cases m with
    | zero =>
      rw [ends_head post hpost c hc]
      decide
    | succ m =>
      rw [← Option.some.inj hc]
      decide
  obtain ⟨-, hclosing⟩ := digits_end es ds _ _ hdigits hds hstop
    (fun c hc => by rw [← Option.some.inj hc]; decide) hrest
  have hone : m = 1 := by
    match m with
    | 0 =>
      have hhead : post.head? = some ']' := congrArg List.head? hclosing
      exact absurd (ends_head post hpost ']' hhead) (by decide)
    | 1 => rfl
    | m+2 => exact absurd (congrArg List.head? (List.cons.inj hclosing).2).symm hafter
  rw [htrim, hone]
  refine ⟨⟨es, rfl, digits_last es hdigits⟩, ?_⟩
  cases es with
  | nil => exact absurd rfl hes
  | cons e es =>
    intro hplus
    have he := hdigits e List.mem_cons_self
    rw [Option.some.inj hplus] at he
    exact absurd he (by decide)

theorem exact_closed (path : List Char) (hreadable : Readable path) (h : Exact path) :
    Closed path := by
  intro before rest hpath
  obtain ⟨a, b, post, hsegment, rfl, hpost⟩ := bracket_within path before rest hpath
  have hfirst : '[' ∉ a := by
    intro ha
    obtain ⟨c, d, rfl, hc⟩ := List.eq_append_cons_of_mem ha
    have hindex : indexOf (c++ '['::d++ '['::b) = some (d++ '['::b) := by
      rw [indexOf, List.append_assoc, List.cons_append, split_name c _ hc]
      rfl
    have hnumber := hreadable _ hsegment _ hindex
    rw [unreadable _ '[' (trimmed_mem _ '[' (by decide) (by simp)) (by decide) (by decide)]
      at hnumber
    cases hnumber
  have hindex : indexOf (a++ '['::b) = some b := by rw [indexOf, split_name a b hfirst]; rfl
  obtain ⟨⟨t, rfl, hlast⟩, hplus⟩ := h _ hsegment b hindex
  obtain ⟨n, hn⟩ := Option.isSome_iff_exists.mp (hreadable _ hsegment _ hindex)
  rw [trimmed_last t hlast] at hn
  obtain ⟨ds, hspelled, hne, hdigits⟩ := parseU64_spelled t n hn
  have ht : t = ds := by
    refine hspelled.resolve_right (fun ht => hplus ?_)
    rw [ht]
    rfl
  refine ⟨ds, post, by rw [ht]; simp, hne, hdigits, fun hhead => ?_⟩
  exact absurd (ends_head post hpost ']' hhead) (by decide)

/-- A location is found through its rendering exactly if no position directly
follows another. A path has answers only with one closing bracket behind the
digits of each position exactly if this is how its brackets look, or if one of
them holds no number. -/
theorem query_laws (data : Value) (path : String) :
    (∀ loc v, Plain loc → valueAt loc data = some v →
      (queryJson data (String.ofList (render loc)) = .ok v ↔ Spaced loc)) ∧
    ((∀ data v, queryJson data path = .ok v → Closed path.toList) ↔
      (Readable path.toList → Exact path.toList)) := by
  refine ⟨fun loc v hplain hv => ?_, fun h hreadable => ?_, ?_⟩
  · rw [queryJson, String.toList_ofList]
    exact query_iff loc hplain data v hv
  · obtain ⟨data, v, hv⟩ := (readable_iff path).mp hreadable
    exact closed_exact _ hreadable (h data v hv)
  · intro h data v hv
    have hreadable := (readable_iff path).mpr ⟨data, v, hv⟩
    exact exact_closed _ hreadable (h hreadable)

def pair : Value := .array [.number (.posInt 1), .number (.posInt 2)]

/-- `a[1]` in `{"a":[1,2]}`. -/
theorem query_laws_pair :
    queryJson (.object [("a", pair)]) (String.ofList (render [.key "a", .index 1])) =
      .ok (.number (.posInt 2)) := by
  have hplain : Plain [.key "a", .index 1] := by
    intro k hk
    have hk : k = "a" := by simpa using hk
    rw [hk]
    decide
  refine ((query_laws (.object [("a", pair)]) "a[1]").1 _ _ hplain ?_).mpr ?_
  · decide
  · simp [Spaced, Step.isIndex]

/-- `a[0][1]` is in `{"a":[[1,2]]}` and is refused; `a[0` is answered. -/
theorem second_position_lost :
    valueAt [.key "a", .index 0, .index 1] (.object [("a", .array [pair])]) =
      some (.number (.posInt 2)) ∧
    Plain [.key "a", .index 0, .index 1] ∧
    String.ofList (render [.key "a", .index 0, .index 1]) = "a[0][1]" ∧
    queryJson (.object [("a", .array [pair])]) "a[0][1]" =
      .error (.invalidParameters "invalid array index: 0][1") ∧
    queryJson (.object [("a", pair)]) "a[0" = .ok (.number (.posInt 1)) ∧
    ¬ Closed "a[0".toList := by
  refine ⟨by decide, ?_, by decide, by decide, by decide, ?_⟩
  · intro k hk
    have hk : k = "a" := by simpa using hk
    rw [hk]
    decide
  · intro h
    obtain ⟨ds, after, hrest, -⟩ := h ['a'] ['0'] (by decide)
    have hin : ']' ∈ ['0'] := by
      rw [hrest]
      simp
    exact absurd hin (by decide)

end IronClaw.QueryBrackets
