import Mathlib.Data.List.Induction

/-!
# File trees and path resolution

A tree of directories, files and symbolic links, given by what lies at each
location. A path is walked part by part from a directory; a link puts the parts
of its target in front of those that are left, and the number of links is
limited. A walk ends where it leads, at the first name that is not there, or
it fails.
-/

set_option autoImplicit false

namespace Lib.FileTree

structure Path where
  absolute : Bool
  parts : List String
  deriving DecidableEq

abbrev Location := List String

inductive Node where
  | dir
  | file
  | link (target : Path)
  deriving DecidableEq

structure FileTree where
  node : Location → Option Node
  root : node [] = some .dir
  within : ∀ loc name, (node (loc++[name])).isSome → node loc = some .dir
  named : ∀ loc name, (node (loc++[name])).isSome → name ≠ "" ∧ name ≠ "." ∧ name ≠ ".."

inductive Outcome where
  | found (loc : Location)
  | missing (loc : Location) (rest : List String)
  | failed
  deriving DecidableEq

namespace FileTree

variable (t : FileTree)

def walkWith (follow : Location → List String → Outcome) :
    Location → List String → Outcome
  | cur, [] => .found cur
  | cur, part::rest =>
    if part = "" ∨ part = "." then walkWith follow cur rest
    else if part = ".." then walkWith follow cur.dropLast rest
    else match t.node (cur++[part]) with
      | none => .missing (cur++[part]) rest
      | some .dir => walkWith follow (cur++[part]) rest
      | some .file => if rest = [] then .found (cur++[part]) else .failed
      | some (.link target) =>
        follow (if target.absolute then [] else cur) (target.parts++rest)

def follow : ℕ → Location → List String → Outcome
  | 0, _, _ => .failed
  | links+1, cur, parts => t.walkWith (follow links) cur parts

def walk (links : ℕ) (cur : Location) (parts : List String) : Outcome :=
  t.walkWith (t.follow links) cur parts

def resume (links : ℕ) (parts : List String) : Outcome → Outcome
  | .found loc =>
    if parts = [] ∨ t.node loc = some .dir then t.walk links loc parts else .failed
  | .missing loc rest => .missing loc (rest++parts)
  | .failed => .failed

variable {t}

theorem dir_above {loc : Location} {names : List String} (h : (t.node (loc++names)).isSome)
    (hne : names ≠ []) : t.node loc = some .dir := by
  induction names using List.reverseRecOn with
  | nil => exact absurd rfl hne
  | append_singleton names name ih =>
    rw [← List.append_assoc] at h
    have hdir := t.within _ name h
    by_cases hnil : names = []
    · simpa [hnil] using hdir
    · exact ih (by rw [hdir]; rfl) hnil

theorem dir_dropLast {loc : Location} (h : t.node loc = some .dir) :
    t.node loc.dropLast = some .dir := by
  by_cases hnil : loc = []
  · rw [hnil]
    exact t.root
  · have hsplit := List.dropLast_concat_getLast hnil
    apply t.within loc.dropLast (loc.getLast hnil)
    rw [hsplit, h]
    rfl

variable (links : ℕ) (cur : Location) (parts : List String)
  (follow : Location → List String → Outcome)

/-- A location is where its names lead from any directory above it. -/
theorem walkWith_names (cur : Location) (names : List String)
    (h : t.node (cur++names) = some .dir ∨ t.node (cur++names) = some .file) :
    t.walkWith follow cur names = .found (cur++names) := by
  induction names generalizing cur with
  | nil => rw [walkWith, List.append_nil]
  | cons name names ih =>
    have happ : cur++name::names = (cur++[name])++names := by simp
    have hsome : (t.node ((cur++[name])++names)).isSome := by
      rw [← happ]
      rcases h with h | h <;> rw [h] <;> rfl
    have hnode : t.node (cur++[name]) = some .dir ∨
        (t.node (cur++[name]) = some .file ∧ names = []) := by
      by_cases hnil : names = []
      · subst hnil
        rcases h with h | h
        · exact .inl h
        · exact .inr ⟨h, rfl⟩
      · exact .inl (dir_above hsome hnil)
    have hname : name ≠ "" ∧ name ≠ "." ∧ name ≠ ".." := by
      apply t.named cur name
      rcases hnode with h | ⟨h, _⟩ <;> rw [h] <;> rfl
    rw [walkWith, if_neg (by simp [hname.1, hname.2.1]), if_neg hname.2.2]
    rcases hnode with hdir | ⟨hfile, rfl⟩
    · rw [hdir, happ]
      dsimp only
      rw [happ] at h
      exact ih (cur++[name]) h
    · rw [hfile]
      rfl

/-- A walk leads from a directory to a directory or a file, when what is behind
the links does. -/
theorem walkWith_found
    (hfollow : ∀ cur parts loc, t.node cur = some .dir → follow cur parts = .found loc →
      t.node loc = some .dir ∨ t.node loc = some .file) (cur : Location) (parts : List String)
    (loc : Location) (hcur : t.node cur = some .dir)
    (h : t.walkWith follow cur parts = .found loc) :
    t.node loc = some .dir ∨ t.node loc = some .file := by
  induction parts generalizing cur with
  | nil =>
    rw [walkWith, Outcome.found.injEq] at h
    exact .inl (h ▸ hcur)
  | cons part rest ih =>
    rw [walkWith] at h
    split at h
    · exact ih cur hcur h
    · split at h
      · exact ih _ (dir_dropLast hcur) h
      · split at h
        · cases h
        · next hdir => exact ih _ hdir h
        · next hfile =>
          split at h
          · rw [Outcome.found.injEq] at h
            exact .inr (h ▸ hfile)
          · cases h
        · next target _ =>
          refine hfollow _ _ _ ?_ h
          split
          · exact t.root
          · exact hcur

theorem follow_found (loc : Location) (hcur : t.node cur = some .dir)
    (h : t.follow links cur parts = .found loc) :
    t.node loc = some .dir ∨ t.node loc = some .file := by
  induction links generalizing cur parts loc with
  | zero => cases h
  | succ links ih => exact walkWith_found _ ih cur parts loc hcur h

theorem walk_found (loc : Location) (hcur : t.node cur = some .dir)
    (h : t.walk links cur parts = .found loc) :
    t.node loc = some .dir ∨ t.node loc = some .file :=
  walkWith_found _ (follow_found links) cur parts loc hcur h

/-- A longer walk begins like the shorter one, with as many links to go as that
one has left. -/
theorem walkWith_append (hfollow : ∀ cur parts, t.node cur = some .dir → ∃ left, ∀ more,
      t.follow links cur (parts++more) = t.resume left more (t.follow links cur parts))
    (cur : Location) (parts : List String) (hcur : t.node cur = some .dir) :
    ∃ left, ∀ more, t.walk links cur (parts++more) =
      t.resume left more (t.walk links cur parts) := by
  induction parts generalizing cur with
  | nil =>
    refine ⟨links, fun more => ?_⟩
    have hstay : t.walk links cur [] = .found cur := by rw [walk, walkWith]
    rw [hstay, resume, if_pos (.inr hcur), List.nil_append]
  | cons part rest ih =>
    simp only [walk, List.cons_append, walkWith] at ih ⊢
    by_cases hstay : part = "" ∨ part = "."
    · simp only [if_pos hstay]
      exact ih cur hcur
    · simp only [if_neg hstay]
      by_cases hup : part = ".."
      · simp only [if_pos hup]
        exact ih _ (dir_dropLast hcur)
      · simp only [if_neg hup]
        cases hnode : t.node (cur++[part]) with
        | none => exact ⟨0, fun more => rfl⟩
        | some node =>
          cases node with
          | dir => exact ih _ hnode
          | file =>
            refine ⟨0, fun more => ?_⟩
            by_cases hlast : rest = []
            · subst hlast
              by_cases hmore : more = []
              · subst hmore
                simp [resume, walk, walkWith]
              · simp [resume, hmore, hnode]
            · simp [resume, hlast]
          | link target =>
            have hdir : t.node (if target.absolute then [] else cur) = some .dir := by
              split
              · exact t.root
              · exact hcur
            obtain ⟨left, hleft⟩ := hfollow _ (target.parts++rest) hdir
            refine ⟨left, fun more => ?_⟩
            have hmore := hleft more
            rw [List.append_assoc] at hmore
            exact hmore

theorem follow_append (hcur : t.node cur = some .dir) :
    ∃ left, ∀ more, t.follow links cur (parts++more) =
      t.resume left more (t.follow links cur parts) := by
  induction links generalizing cur parts with
  | zero => exact ⟨0, fun more => rfl⟩
  | succ links ih => exact walkWith_append links ih cur parts hcur

theorem walk_append (hcur : t.node cur = some .dir) :
    ∃ left, ∀ more, t.walk links cur (parts++more) =
      t.resume left more (t.walk links cur parts) :=
  walkWith_append links (follow_append links) cur parts hcur

def nodeIn (entries : List (Location × Node)) (loc : Location) : Option Node :=
  (entries.find? (fun e => e.1 = loc)).map Prod.snd

def entriesFit (entries : List (Location × Node)) : Bool :=
  nodeIn entries [] = some .dir &&
    entries.all fun e => match e.1.reverse with
      | [] => true
      | name::above =>
        nodeIn entries above.reverse = some .dir && name ≠ "" && name ≠ "." && name ≠ ".."

theorem nodeIn_fit {entries : List (Location × Node)} (h : entriesFit entries = true)
    (loc : Location) (name : String) (hs : (nodeIn entries (loc++[name])).isSome) :
    nodeIn entries loc = some .dir ∧ name ≠ "" ∧ name ≠ "." ∧ name ≠ ".." := by
  rw [nodeIn, Option.isSome_map, List.find?_isSome] at hs
  obtain ⟨e, he, hloc⟩ := hs
  rw [entriesFit, Bool.and_eq_true, List.all_eq_true] at h
  have hfit := h.2 e he
  rw [of_decide_eq_true hloc, List.reverse_append] at hfit
  simpa [and_assoc] using hfit

def ofEntries (entries : List (Location × Node)) (h : entriesFit entries = true) : FileTree where
  node := nodeIn entries
  root := by
    rw [entriesFit, Bool.and_eq_true] at h
    exact of_decide_eq_true h.1
  within := fun loc name hs => (nodeIn_fit h loc name hs).1
  named := fun loc name hs => (nodeIn_fit h loc name hs).2

end FileTree

structure Host where
  tree : FileTree
  cwd : Location
  cwdDir : tree.node cwd = some .dir
  links : ℕ

def Path.isEmpty (p : Path) : Bool := !p.absolute && p.parts.all (fun part => part = "")

namespace Host

variable (h : Host)

def start (p : Path) : Location := if p.absolute then [] else h.cwd

def outcome (p : Path) : Outcome :=
  if p.isEmpty then .failed else h.tree.walk h.links (h.start p) p.parts

def resolve (p : Path) : Option Location :=
  match h.outcome p with
  | .found loc => some loc
  | _ => none

def openedAt (p : Path) : Option Location :=
  match h.outcome p with
  | .found loc => some loc
  | .missing loc [] => some loc
  | _ => none

def nearest (absolute : Bool) : List String → List String → Option (Location × List String)
  | [], tail => (h.resolve ⟨absolute, []⟩).map fun loc => (loc, tail)
  | name::names, tail =>
    match h.resolve ⟨absolute, (name::names).reverse⟩ with
    | some loc => some (loc, tail)
    | none => nearest absolute names (name::tail)

def made (p : Path) : List Location :=
  match h.nearest p.absolute p.parts.reverse [] with
  | some (loc, tail) =>
    if h.tree.node loc = some .dir ∧ h.tree.node (loc++tail.take 1) = none then
      (List.range tail.length).map fun k => loc++tail.take (k+1)
    else []
  | none => []

variable {h}

theorem resolve_iff {p : Path} {loc : Location} :
    h.resolve p = some loc ↔ h.outcome p = .found loc := by
  rw [resolve]
  cases h.outcome p with
  | found loc' => simp
  | missing loc' rest => simp
  | failed => simp

theorem start_dir (p : Path) : h.tree.node (h.start p) = some .dir := by
  rw [start]
  split
  · exact h.tree.root
  · exact h.cwdDir

theorem resolve_node {p : Path} {loc : Location} (hr : h.resolve p = some loc) :
    h.tree.node loc = some .dir ∨ h.tree.node loc = some .file := by
  rw [resolve_iff, outcome] at hr
  split at hr
  · cases hr
  · exact FileTree.walk_found _ _ _ loc (start_dir p) hr

theorem resolve_location {loc : Location}
    (hn : h.tree.node loc = some .dir ∨ h.tree.node loc = some .file) :
    h.resolve ⟨true, loc⟩ = some loc := by
  rw [resolve_iff]
  exact FileTree.walkWith_names _ [] loc hn

theorem openedAt_resolved {p : Path} {loc : Location} (hr : h.resolve p = some loc) :
    h.openedAt p = some loc := by
  rw [openedAt, resolve_iff.mp hr]

theorem nonempty_resolved {p : Path} {loc : Location} (hr : h.resolve p = some loc) :
    ¬ p.isEmpty = true := by
  intro he
  rw [resolve_iff, outcome, if_pos he] at hr
  cases hr

theorem nonempty_append {absolute : Bool} {names : List String} (more : List String)
    (hne : ¬ Path.isEmpty ⟨absolute, names⟩ = true) :
    ¬ Path.isEmpty ⟨absolute, names++more⟩ = true := by
  intro he
  apply hne
  simp only [Path.isEmpty, List.all_append, Bool.and_eq_true] at he ⊢
  exact ⟨he.1, he.2.1⟩

theorem outcome_append {absolute : Bool} {names : List String}
    (hne : ¬ Path.isEmpty ⟨absolute, names⟩ = true) :
    ∃ left, ∀ more, h.outcome ⟨absolute, names++more⟩ =
      h.tree.resume left more (h.outcome ⟨absolute, names⟩) := by
  obtain ⟨left, hleft⟩ := FileTree.walk_append h.links _ names (start_dir ⟨absolute, names⟩)
  refine ⟨left, fun more => ?_⟩
  rw [outcome, outcome, if_neg hne, if_neg (nonempty_append more hne)]
  exact hleft more

theorem outcome_dir {absolute : Bool} {names : List String} {loc : Location}
    (hr : h.resolve ⟨absolute, names⟩ = some loc) (hdir : h.tree.node loc = some .dir) :
    ∃ left, ∀ more, h.outcome ⟨absolute, names++more⟩ = h.tree.walk left loc more := by
  obtain ⟨left, hleft⟩ := outcome_append (nonempty_resolved hr)
  refine ⟨left, fun more => ?_⟩
  rw [hleft, resolve_iff.mp hr, FileTree.resume, if_pos (.inr hdir)]

theorem nearest_here {absolute : Bool} (names tail : List String) {loc : Location}
    (hr : h.resolve ⟨absolute, names.reverse⟩ = some loc) :
    h.nearest absolute names tail = some (loc, tail) := by
  cases names with
  | nil =>
    rw [nearest]
    rw [List.reverse_nil] at hr
    rw [hr, Option.map_some]
  | cons name names => rw [nearest, hr]

/-- Before the names that are left, the path exists, and with one of them it
does not. -/
theorem nearest_spec {absolute : Bool} (names tail rest : List String) (loc : Location)
    (hn : h.nearest absolute names tail = some (loc, rest)) :
    ∃ before between, names.reverse = before++between ∧ rest = between++tail ∧
      h.resolve ⟨absolute, before⟩ = some loc ∧
      ∀ name ∈ between.head?, h.resolve ⟨absolute, before++[name]⟩ = none := by
  induction names generalizing tail with
  | nil =>
    rw [nearest, Option.map_eq_some_iff] at hn
    obtain ⟨loc', hr, he⟩ := hn
    rw [Prod.mk.injEq] at he
    exact ⟨[], [], rfl, he.2.symm, he.1 ▸ hr, by simp⟩
  | cons name names ih =>
    rw [nearest] at hn
    cases hr : h.resolve ⟨absolute, (name::names).reverse⟩ with
    | some loc' =>
      rw [hr] at hn
      simp only [Option.some.injEq, Prod.mk.injEq] at hn
      exact ⟨(name::names).reverse, [], by simp, hn.2.symm, hn.1 ▸ hr, by simp⟩
    | none =>
      rw [hr] at hn
      obtain ⟨before, between, hnames, hrest, hbefore, hfirst⟩ := ih (name::tail) hn
      refine ⟨before, between++[name], by simp [hnames], by simp [hrest], hbefore, ?_⟩
      intro first hf
      cases between with
      | nil =>
        obtain rfl : name = first := by simpa using hf
        rw [List.append_nil] at hnames
        rw [← hnames, ← List.reverse_cons]
        exact hr
      | cons next between => exact hfirst first (by simpa using hf)

theorem nearest_none {absolute : Bool} (names tail : List String)
    (hn : h.nearest absolute names tail = none) : h.resolve ⟨absolute, []⟩ = none := by
  induction names generalizing tail with
  | nil => simpa [nearest] using hn
  | cons name names ih =>
    rw [nearest] at hn
    split at hn
    · cases hn
    · exact ih _ hn

theorem made_resolved {p : Path} {loc : Location} (hr : h.resolve p = some loc) :
    h.made p = [] := by
  have hnear : h.nearest p.absolute p.parts.reverse [] = some (loc, []) :=
    nearest_here _ _ (by rw [List.reverse_reverse]; exact hr)
  rw [made, hnear]
  simp

/-- A directory above the missing names lies above the place they begin at. -/
theorem prefix_of_missing {absolute : Bool} {before tail : List String} {name : String}
    {loc root : Location} (hr : h.resolve ⟨absolute, before⟩ = some loc)
    (hnone : h.resolve ⟨absolute, before++[name]⟩ = none) (hroot : h.tree.node root = some .dir)
    (hpre : root <+: loc++name::tail) : root <+: loc := by
  rcases List.prefix_or_prefix_of_prefix hpre (List.prefix_append loc _) with hle | ⟨more, rfl⟩
  · exact hle
  · rw [List.prefix_append_right_inj] at hpre
    cases more with
    | nil => simp
    | cons first more =>
      obtain rfl : first = name := (List.cons_prefix_cons.mp hpre).1
      exfalso
      have hsome : (h.tree.node (loc++first::more)).isSome := by
        rw [hroot]
        rfl
      have hloc := FileTree.dir_above hsome (by simp)
      have hfirst : h.tree.node (loc++[first]) = some .dir := by
        by_cases hnil : more = []
        · rw [hnil] at hroot
          exact hroot
        · have hdeep : (h.tree.node ((loc++[first])++more)).isSome := by
            rw [List.append_assoc]
            exact hsome
          exact FileTree.dir_above hdeep hnil
      obtain ⟨left, hleft⟩ := outcome_dir hr hloc
      have hfound : h.outcome ⟨absolute, before++[first]⟩ = .found (loc++[first]) := by
        rw [hleft]
        exact FileTree.walkWith_names _ loc [first] (.inl hfirst)
      rw [resolve_iff.mpr hfound] at hnone
      cases hnone

/-- Nothing is opened below a name that leads nowhere. -/
theorem openedAt_last {absolute : Bool} {names tail : List String} {place : Location}
    (hne : ¬ Path.isEmpty ⟨absolute, names⟩ = true) (hnone : h.resolve ⟨absolute, names⟩ = none)
    (ho : h.openedAt ⟨absolute, names++tail⟩ = some place) : tail = [] := by
  obtain ⟨left, hleft⟩ := outcome_append hne
  rw [openedAt, hleft] at ho
  cases hout : h.outcome ⟨absolute, names⟩ with
  | found loc =>
    rw [resolve_iff.mpr hout] at hnone
    cases hnone
  | missing loc rest =>
    rw [hout, FileTree.resume] at ho
    cases rest with
    | nil =>
      cases tail with
      | nil => rfl
      | cons name tail => cases ho
    | cons name rest => cases ho
  | failed =>
    rw [hout, FileTree.resume] at ho
    cases ho

/-- What is opened at a missing name is made in the directory before it, unless
the name is that of a link. -/
theorem openedAt_missing {absolute : Bool} {before : List String} {name : String}
    {loc place : Location} (hr : h.resolve ⟨absolute, before⟩ = some loc)
    (hnone : h.resolve ⟨absolute, before++[name]⟩ = none)
    (hname : name ≠ "" ∧ name ≠ "." ∧ name ≠ "..")
    (ho : h.openedAt ⟨absolute, before++[name]⟩ = some place) :
    place = loc++[name] ∨ ∃ target, h.tree.node (loc++[name]) = some (.link target) := by
  by_cases hdir : h.tree.node loc = some .dir
  · obtain ⟨left, hleft⟩ := outcome_dir hr hdir
    have hwalk := hleft [name]
    rw [FileTree.walk, FileTree.walkWith, if_neg (by simp [hname.1, hname.2.1]),
      if_neg hname.2.2] at hwalk
    cases hnode : h.tree.node (loc++[name]) with
    | none =>
      rw [hnode] at hwalk
      rw [openedAt, hwalk] at ho
      exact .inl (Option.some.inj ho).symm
    | some node =>
      rw [hnode] at hwalk
      cases node with
      | dir =>
        rw [resolve_iff.mpr (hwalk.trans (by rw [FileTree.walkWith]))] at hnone
        cases hnone
      | file =>
        rw [resolve_iff.mpr (hwalk.trans (if_pos rfl))] at hnone
        cases hnone
      | link target => exact .inr ⟨target, rfl⟩
  · obtain ⟨left, hleft⟩ := outcome_append (nonempty_resolved hr)
    rw [openedAt, hleft, resolve_iff.mp hr, FileTree.resume, if_neg (by simp [hdir])] at ho
    cases ho

end Host

end Lib.FileTree
