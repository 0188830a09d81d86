import IronClaw.HttpExecute
import IronClaw.Lib.FileTree

/-!
# The sandbox of the file tools

`tools/builtin/path_utils.rs` resolves a path, looks where it leads, or where
its nearest existing ancestor does, and lets it pass when that is inside the
canonical base directory. What it returns is opened, or made with its parents.
Names are Unicode.
-/

set_option autoImplicit false

namespace IronClaw.PathSandbox
open IronClaw.HttpApproval IronClaw.HttpExecute Lib.Text Lib.FileTree

def fromStr (s : String) : Path :=
  ⟨startsWith s "/", (s.toList.splitOn '/').map String.ofList⟩

def join (base path : Path) : Path :=
  if path.absolute then path else ⟨base.absolute, base.parts++path.parts⟩

def normalStep (components : List String) (part : String) : List String :=
  if part = "" ∨ part = "." then components
  else if part = ".." then components.dropLast
  else components++[part]

def normalizeLexical (path : Path) : Path := ⟨path.absolute, path.parts.foldl normalStep []⟩

def pathStartsWith (path base : Path) : Bool :=
  path.absolute = base.absolute && base.parts.isPrefixOf path.parts

section

variable (crates : Crates) (host : Host)

def canonicalize (path : Path) : Option Path := (host.resolve path).map fun loc => ⟨true, loc⟩

def resolvedPath (path : Path) (baseDir : Option Path) : Path :=
  if path.absolute then (canonicalize host path).getD (normalizeLexical path)
  else match baseDir with
    | some base => (canonicalize host (join base path)).getD (normalizeLexical (join base path))
    | none => normalizeLexical (join ⟨true, host.cwd⟩ path)

def checkPath (resolved : Path) : Path :=
  if (host.resolve resolved).isSome then (canonicalize host resolved).getD resolved
  else match host.nearest resolved.absolute resolved.parts.reverse [] with
    | some (ancestor, tail) => ⟨true, ancestor++tail⟩
    | none => resolved

def validatePath (pathStr : String) (baseDir : Option Path) : Except ToolError Path :=
  if !isPathSafeMinimal crates pathStr then
    .error (.notAuthorized ("Path contains forbidden characters or sequences: "++pathStr))
  else
    let resolved := resolvedPath host (fromStr pathStr) baseDir
    match baseDir with
    | some base =>
      let baseCanonical := (canonicalize host base).getD (normalizeLexical base)
      if !pathStartsWith (checkPath host resolved) baseCanonical then
        .error (.notAuthorized ("Path escapes sandbox: "++pathStr))
      else .ok resolved
    | none => .ok resolved

def Affects (p : Path) (loc : Location) : Prop :=
  host.openedAt p = some loc ∨ loc ∈ host.made p

def Contained (pathStr : String) (base : Path) (root : Location) : Prop :=
  ∀ p, validatePath crates host pathStr (some base) = .ok p →
    ∀ loc, Affects host p loc → root <+: loc

structure DanglingEscape (pathStr : String) (base : Path) (root : Location) : Prop where
  safe : isPathSafeMinimal crates pathStr = true
  nowhere : host.resolve (join base (fromStr pathStr)) = none
  link : ∃ before name dir target place,
    (normalizeLexical (join base (fromStr pathStr))).parts = before++[name] ∧
    host.resolve ⟨(join base (fromStr pathStr)).absolute, before⟩ = some dir ∧ root <+: dir ∧
    host.tree.node (dir++[name]) = some (.link target) ∧
    host.resolve (normalizeLexical (join base (fromStr pathStr))) = none ∧
    host.openedAt (normalizeLexical (join base (fromStr pathStr))) = some place ∧
    ¬ root <+: place

end

section validate

variable {crates : Crates} {host : Host} {base : Path} {root : Location}

theorem normalStep_names (components : List String) (part : String)
    (h : ∀ name ∈ components, name ≠ "" ∧ name ≠ "." ∧ name ≠ "..") :
    ∀ name ∈ normalStep components part, name ≠ "" ∧ name ≠ "." ∧ name ≠ ".." := by
  intro name hn
  rw [normalStep] at hn
  split at hn
  · exact h name hn
  · next hstay =>
    split at hn
    · exact h name (List.mem_of_mem_dropLast hn)
    · next hup =>
      rcases List.mem_append.mp hn with hn | hn
      · exact h name hn
      · rw [List.mem_singleton.mp hn]
        exact ⟨fun e => hstay (.inl e), fun e => hstay (.inr e), hup⟩

theorem normalizeLexical_names (path : Path) :
    ∀ name ∈ (normalizeLexical path).parts, name ≠ "" ∧ name ≠ "." ∧ name ≠ ".." := by
  have hfold : ∀ (parts components : List String),
      (∀ name ∈ components, name ≠ "" ∧ name ≠ "." ∧ name ≠ "..") →
      ∀ name ∈ parts.foldl normalStep components, name ≠ "" ∧ name ≠ "." ∧ name ≠ ".." := by
    intro parts
    induction parts with
    | nil => exact fun _ h => h
    | cons part parts ih => exact fun components h => ih _ (normalStep_names components part h)
  exact hfold path.parts [] (by simp)

theorem resolvedPath_joined (path : Path) :
    resolvedPath host path (some base) =
      (canonicalize host (join base path)).getD (normalizeLexical (join base path)) := by
  rw [resolvedPath]
  by_cases habs : path.absolute
  · rw [if_pos habs, join, if_pos habs]
  · rw [if_neg habs]

theorem startsWith_location (p : Path) :
    pathStartsWith p ⟨true, root⟩ = true ↔ p.absolute = true ∧ root <+: p.parts := by
  simp [pathStartsWith]

theorem validatePath_ok (hbase : host.resolve base = some root) (pathStr : String) (p : Path) :
    validatePath crates host pathStr (some base) = .ok p ↔
      isPathSafeMinimal crates pathStr = true ∧
      p = resolvedPath host (fromStr pathStr) (some base) ∧
      (checkPath host p).absolute = true ∧ root <+: (checkPath host p).parts := by
  have hcanonical : canonicalize host base = some ⟨true, root⟩ := by
    rw [canonicalize, hbase, Option.map_some]
  simp only [validatePath, hcanonical, Option.getD_some]
  rw [← startsWith_location]
  by_cases hsafe : isPathSafeMinimal crates pathStr = true
  · rw [if_neg (by simp [hsafe])]
    generalize resolvedPath host (fromStr pathStr) (some base) = resolved
    by_cases hin : pathStartsWith (checkPath host resolved) ⟨true, root⟩ = true
    · rw [if_neg (by simp [hin])]
      constructor
      · intro h
        obtain rfl := Except.ok.inj h
        exact ⟨hsafe, rfl, hin⟩
      · rintro ⟨_, rfl, _⟩
        rfl
    · rw [if_pos (by simp [hin])]
      constructor
      · intro h
        cases h
      · rintro ⟨_, rfl, h⟩
        exact absurd h hin
  · rw [if_pos (by simp [hsafe])]
    constructor
    · intro h
      cases h
    · intro h
      exact absurd h.1 hsafe

theorem checkPath_existing {p : Path} {loc : Location} (h : host.resolve p = some loc) :
    checkPath host p = ⟨true, loc⟩ := by
  rw [checkPath, if_pos (by rw [h]; rfl), canonicalize, h]
  rfl

theorem affects_existing {p : Path} {loc place : Location} (h : host.resolve p = some loc)
    (ha : Affects host p place) : place = loc := by
  rcases ha with ho | hm
  · rw [Host.openedAt_resolved h] at ho
    exact (Option.some.inj ho).symm
  · rw [Host.made_resolved h] at hm
    exact absurd hm List.not_mem_nil

/-- Of a path that leads nowhere, what is checked is where its names would be
under the nearest ancestor. -/
theorem checkPath_missing {p : Path} (hnone : host.resolve p = none)
    (habs : (checkPath host p).absolute = true) :
    ∃ before name tail loc, p.parts = before++name::tail ∧
      host.nearest p.absolute p.parts.reverse [] = some (loc, name::tail) ∧
      host.resolve ⟨p.absolute, before⟩ = some loc ∧
      host.resolve ⟨p.absolute, before++[name]⟩ = none ∧
      checkPath host p = ⟨true, loc++name::tail⟩ := by
  rw [checkPath, if_neg (by simp [hnone])] at habs ⊢
  cases hn : host.nearest p.absolute p.parts.reverse [] with
  | none =>
    rw [hn] at habs
    have hroot := Host.nearest_none _ _ hn
    rw [habs, Host.resolve_location (.inl host.tree.root)] at hroot
    cases hroot
  | some found =>
    obtain ⟨loc, rest⟩ := found
    obtain ⟨before, between, hparts, hrest, hbefore, hfirst⟩ := Host.nearest_spec _ _ _ _ hn
    rw [List.reverse_reverse] at hparts
    rw [List.append_nil] at hrest
    subst hrest
    cases rest with
    | nil =>
      rw [List.append_nil] at hparts
      rw [← hparts] at hbefore
      rw [hbefore] at hnone
      cases hnone
    | cons name tail =>
      exact ⟨before, name, tail, loc, hparts, rfl, hbefore, hfirst name rfl, rfl⟩

theorem canonicalize_getD (joined : Path) (resolved : Path)
    (h : resolved = (canonicalize host joined).getD (normalizeLexical joined)) :
    (∃ loc, host.resolve joined = some loc ∧ resolved = ⟨true, loc⟩ ∧
      host.resolve resolved = some loc) ∨
    (host.resolve joined = none ∧ resolved = normalizeLexical joined) := by
  cases hr : host.resolve joined with
  | some loc =>
    rw [canonicalize, hr] at h
    left
    refine ⟨loc, rfl, h, ?_⟩
    rw [h]
    exact Host.resolve_location (Host.resolve_node hr)
  | none =>
    rw [canonicalize, hr] at h
    exact .inr ⟨rfl, h⟩

theorem made_under {p : Path} {loc place : Location} {tail : List String}
    (hn : host.nearest p.absolute p.parts.reverse [] = some (loc, tail))
    (hm : place ∈ host.made p) : loc <+: place := by
  rw [Host.made, hn] at hm
  dsimp only at hm
  split at hm
  · obtain ⟨k, _, rfl⟩ := List.mem_map.mp hm
    exact List.prefix_append loc _
  · exact absurd hm List.not_mem_nil

/-- Only a dangling link inside the base directory leads out of it. -/
theorem contained_of_no_escape (hbase : host.resolve base = some root)
    (hdir : host.tree.node root = some .dir) (pathStr : String)
    (hno : ¬ DanglingEscape crates host pathStr base root) :
    Contained crates host pathStr base root := by
  intro p hok place ha
  obtain ⟨hsafe, hp, habs, hin⟩ := (validatePath_ok hbase pathStr p).mp hok
  rw [resolvedPath_joined] at hp
  rcases canonicalize_getD _ p hp with ⟨loc, _, _, hr⟩ | ⟨hjoined, hnormal⟩
  · rw [affects_existing hr ha]
    rwa [checkPath_existing hr] at hin
  · cases hr : host.resolve p with
    | some loc =>
      rw [affects_existing hr ha]
      rwa [checkPath_existing hr] at hin
    | none =>
      obtain ⟨before, name, tail, loc, hparts, hnear, hbefore, hfirst, hcheck⟩ :=
        checkPath_missing hr habs
      rw [hcheck] at hin
      have hroot := Host.prefix_of_missing hbefore hfirst hdir hin
      rcases ha with ho | hm
      · have hwhole : p = ⟨p.absolute, (before++[name])++tail⟩ := by
          rw [List.append_assoc, List.cons_append, List.nil_append, ← hparts]
        have hlast : tail = [] := by
          rw [hwhole] at ho
          exact Host.openedAt_last
            (Host.nonempty_append [name] (Host.nonempty_resolved hbefore)) hfirst ho
        subst hlast
        have hname : name ≠ "" ∧ name ≠ "." ∧ name ≠ ".." := by
          apply normalizeLexical_names (join base (fromStr pathStr)) name
          rw [← hnormal, hparts]
          simp
        have hplace := ho
        rw [hwhole, List.append_nil] at hplace
        rcases Host.openedAt_missing hbefore hfirst hname hplace with rfl | ⟨target, hlink⟩
        · exact hroot.trans (List.prefix_append loc _)
        · -- a link in the last place, inside the base: what it makes must be too
          by_contra hout
          refine hno ⟨hsafe, hjoined, before, name, loc, target, place, ?_, ?_, hroot, hlink, ?_,
            ?_, hout⟩
          · rw [← hnormal, hparts]
          · rw [hnormal] at hbefore
            exact hbefore
          · rw [← hnormal, hr]
          · rw [← hnormal, ho]
      · exact hroot.trans (made_under hnear hm)

/-- Such a link is let through. -/
theorem escape_not_contained (hbase : host.resolve base = some root) (pathStr : String)
    (he : DanglingEscape crates host pathStr base root) :
    ¬ Contained crates host pathStr base root := by
  intro hc
  obtain ⟨before, name, dir, target, place, hparts, hbefore, hroot, _, hnone, ho, hout⟩ := he.link
  have hresolved : resolvedPath host (fromStr pathStr) (some base) =
      normalizeLexical (join base (fromStr pathStr)) := by
    rw [resolvedPath_joined, canonicalize, he.nowhere]
    rfl
  have hnear : host.nearest (join base (fromStr pathStr)).absolute
      (normalizeLexical (join base (fromStr pathStr))).parts.reverse [] = some (dir, [name]) := by
    have hself : (⟨(join base (fromStr pathStr)).absolute, before++[name]⟩ : Path) =
        normalizeLexical (join base (fromStr pathStr)) := by
      rw [← hparts]
      rfl
    rw [hparts, List.reverse_append, List.reverse_singleton, List.singleton_append, Host.nearest,
      List.reverse_cons, List.reverse_reverse, hself, hnone]
    exact Host.nearest_here _ _ (by rw [List.reverse_reverse]; exact hbefore)
  have hcheck : checkPath host (normalizeLexical (join base (fromStr pathStr))) =
      ⟨true, dir++[name]⟩ := by
    rw [checkPath, if_neg (by simp [hnone])]
    show (match host.nearest (join base (fromStr pathStr)).absolute
      (normalizeLexical (join base (fromStr pathStr))).parts.reverse [] with
      | some (ancestor, tail) => (⟨true, ancestor++tail⟩ : Path)
      | none => normalizeLexical (join base (fromStr pathStr))) = _
    rw [hnear]
  have hok : validatePath crates host pathStr (some base) =
      .ok (normalizeLexical (join base (fromStr pathStr))) := by
    rw [validatePath_ok hbase, hresolved, hcheck]
    exact ⟨he.safe, rfl, rfl, hroot.trans (List.prefix_append dir _)⟩
  exact hout (hc _ hok place (.inl ho))

end validate

/-- A file tool stays in its base directory but through a dangling link. -/
theorem validatePath_contained_iff (crates : Crates) (host : Host) (pathStr : String) (base : Path)
    (root : Location) (hbase : host.resolve base = some root)
    (hdir : host.tree.node root = some .dir) :
    Contained crates host pathStr base root ↔
      ¬ DanglingEscape crates host pathStr base root :=
  ⟨fun hc he => escape_not_contained hbase pathStr he hc,
    contained_of_no_escape hbase hdir pathStr⟩

def linkedEntries : List (Location × Node) :=
  [([], .dir), (["etc"], .dir), (["work"], .dir), (["work", "out"], .link ⟨true, ["etc", "job"]⟩)]

def linkedHost : Host :=
  ⟨FileTree.ofEntries linkedEntries (by decide), [], by decide, 40⟩

def work : Path := ⟨true, ["work"]⟩

theorem validatePath_contained_work :
    Contained sampleCrates linkedHost "notes" work ["work"] ↔
      ¬ DanglingEscape sampleCrates linkedHost "notes" work ["work"] :=
  validatePath_contained_iff sampleCrates linkedHost "notes" work ["work"] (by decide) (by decide)

/-- The link is let through, and a file is made behind it. -/
theorem dangling_link_escapes :
    linkedHost.resolve work = some ["work"] ∧ linkedHost.tree.node ["work"] = some .dir ∧
    validatePath sampleCrates linkedHost "out" (some work) = .ok ⟨true, ["work", "out"]⟩ ∧
    Affects linkedHost ⟨true, ["work", "out"]⟩ ["etc", "job"] ∧
    ¬ Contained sampleCrates linkedHost "out" work ["work"] := by
  have hok : validatePath sampleCrates linkedHost "out" (some work) =
      .ok ⟨true, ["work", "out"]⟩ := by decide
  have ho : Affects linkedHost ⟨true, ["work", "out"]⟩ ["etc", "job"] := .inl (by decide)
  refine ⟨by decide, by decide, hok, ho, fun hc => ?_⟩
  exact absurd (hc _ hok _ ho) (by decide)

end IronClaw.PathSandbox
