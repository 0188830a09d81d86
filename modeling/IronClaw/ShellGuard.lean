import IronClaw.HostPatterns

/-!
# The guard of the shell tool

`tools/builtin/shell.rs` looks for fixed texts in the lowered command. The
blocked commands are taken as they are written, the ones that always need an
approval are lowered first. A pipe to a shell is looked for in two spellings.
-/

set_option autoImplicit false

namespace IronClaw.ShellGuard
open Lib.Letters Lib.Search

def blockedCommands : List String :=
  ["rm -rf /", "rm -rf /*", ":()\x7b :|:& \x7d;:", "dd if=/dev/zero", "mkfs", "chmod -R 777 /",
    "> /dev/sda", "curl | sh", "wget | sh", "curl | bash", "wget | bash"]

def dangerousPatterns : List String :=
  ["sudo ", "doas ", " | sh", " | bash", " | zsh", "eval ", "$(curl", "$(wget", "/etc/passwd",
    "/etc/shadow", "~/.ssh", ".bash_history", "id_rsa"]

def neverAutoApprovePatterns : List String :=
  ["rm -rf", "rm -fr", "chmod -r 777", "chmod 777", "chown -r", "shutdown", "reboot", "poweroff",
    "init 0", "init 6", "iptables", "nft ", "useradd", "userdel", "passwd", "visudo", "crontab",
    "systemctl disable", "launchctl unload", "kill -9", "killall", "pkill", "docker rm",
    "docker rmi", "docker system prune", "git push --force", "git push -f", "git reset --hard",
    "git clean -f", "DROP TABLE", "DROP DATABASE", "TRUNCATE", "DELETE FROM"]

section

variable (t : Tables)

def toLower (s : String) : List Char := toLowercase t s.toList

def occurs (pattern text : List Char) : Bool := decide (pattern <:+: text)

def isBlocked (allowDangerous : Bool) (cmd : String) : Option String :=
  let normalized := toLower t cmd
  if blockedCommands.any (fun blocked => occurs blocked.toList normalized) then
    some "Command contains blocked pattern"
  else if !allowDangerous &&
      dangerousPatterns.any (fun pattern => occurs pattern.toList normalized) then
    some "Command contains potentially dangerous pattern"
  else none

def requiresExplicitApproval (command : String) : Bool :=
  neverAutoApprovePatterns.any (fun p => occurs (toLower t p) (toLower t command))

end

def delimiters : List Char := [' ', '\t', '\n', ';', '|', '&', ')']

def ends : List Char → Bool
  | [] => true
  | c::_ => delimiters.contains c

def hasPipeTo (lower shell : List Char) : Bool :=
  [['|', ' '], ['|']].any (fun lead => (behind (lead++shell) lower).any ends)

def shells : List (List Char) :=
  ["sh", "bash", "zsh", "dash", "/bin/sh", "/bin/bash"].map String.toList

def containsShellPipe (lower : List Char) : Bool := shells.any (hasPipeTo lower)

def Contains (t : Tables) (cmd text : String) : Prop :=
  ∃ w, w <:+: cmd.toList ∧ toLowercase t w = toLower t text

def PipedOver (gap lower : List Char) : Prop :=
  ∃ u shell rest, shell ∈ shells ∧ lower = u++ '|'::(gap++shell++rest) ∧ ends rest = true

def Blank (gap : List Char) : Prop := ∀ c ∈ gap, c = ' ' ∨ c = '\t'

structure Guarded (t : Tables) (allowDangerous : Bool) (cmd : String) : Prop where
  blocked : ∀ entry ∈ blockedCommands, Contains t cmd entry → isBlocked t allowDangerous cmd ≠ none
  explicit : ∀ entry ∈ neverAutoApprovePatterns, Contains t cmd entry →
    requiresExplicitApproval t cmd = true
  piped : ∀ gap, Blank gap → PipedOver gap (toLower t cmd) → containsShellPipe (toLower t cmd) = true

def openToAll : String := "chmod -R 777 /"

def CaughtOtherwise (t : Tables) (allowDangerous : Bool) (cmd : String) : Prop :=
  (∃ entry ∈ blockedCommands, entry ≠ openToAll ∧ occurs entry.toList (toLower t cmd) = true) ∨
    (allowDangerous = false ∧
      ∃ pattern ∈ dangerousPatterns, occurs pattern.toList (toLower t cmd) = true)

structure Covered (t : Tables) (allowDangerous : Bool) (cmd : String) : Prop where
  entry : Contains t cmd openToAll → CaughtOtherwise t allowDangerous cmd
  gap : ∀ gap, Blank gap → gap ≠ [] → gap ≠ [' '] → PipedOver gap (toLower t cmd) →
    PipedOver [] (toLower t cmd) ∨ PipedOver [' '] (toLower t cmd)

theorem shells_plain : ∀ shell ∈ shells, '|' ∉ shell := by decide

/-- The detector finds the two spellings. -/
theorem containsShellPipe_iff (lower : List Char) :
    containsShellPipe lower = true ↔ PipedOver [] lower ∨ PipedOver [' '] lower := by
  have hspelled : ∀ gap shell : List Char, '|' ∉ gap → shell ∈ shells →
      ((behind (('|'::gap)++shell) lower).any ends = true ↔
        ∃ u rest, lower = u++ '|'::(gap++shell++rest) ∧ ends rest = true) := by
    intro gap shell hgap hshell
    have hbar : '|' ∉ gap++shell := by
      rw [List.mem_append, not_or]
      exact ⟨hgap, shells_plain shell hshell⟩
    simp only [List.any_eq_true, List.cons_append, mem_behind '|' (gap++shell) lower _ hbar]
    constructor
    · rintro ⟨rest, ⟨u, hu⟩, hrest⟩
      exact ⟨u, rest, by rw [hu]; simp, hrest⟩
    · rintro ⟨u, rest, hu, hrest⟩
      exact ⟨rest, ⟨u, by rw [hu]; simp⟩, hrest⟩
  unfold containsShellPipe hasPipeTo
  rw [List.any_eq_true]
  constructor
  · rintro ⟨shell, hshell, hfound⟩
    rw [List.any_cons, List.any_cons, List.any_nil, Bool.or_false, Bool.or_eq_true] at hfound
    rcases hfound with hfound | hfound
    · obtain ⟨u, rest, hu, hrest⟩ := (hspelled [' '] shell (by decide) hshell).mp hfound
      exact Or.inr ⟨u, shell, rest, hshell, hu, hrest⟩
    · obtain ⟨u, rest, hu, hrest⟩ := (hspelled [] shell (by decide) hshell).mp hfound
      exact Or.inl ⟨u, shell, rest, hshell, hu, hrest⟩
  · rintro (⟨u, shell, rest, hshell, hu, hrest⟩ | ⟨u, shell, rest, hshell, hu, hrest⟩)
    · refine ⟨shell, hshell, ?_⟩
      rw [List.any_cons, List.any_cons, Bool.or_eq_true, Bool.or_eq_true]
      exact Or.inr (Or.inl ((hspelled [] shell (by decide) hshell).mpr ⟨u, rest, hu, hrest⟩))
    · refine ⟨shell, hshell, ?_⟩
      rw [List.any_cons, Bool.or_eq_true]
      exact Or.inl ((hspelled [' '] shell (by decide) hshell).mpr ⟨u, rest, hu, hrest⟩)

theorem isBlocked_iff (t : Tables) (allowDangerous : Bool) (cmd : String) :
    isBlocked t allowDangerous cmd ≠ none ↔
      (∃ entry ∈ blockedCommands, occurs entry.toList (toLower t cmd) = true) ∨
      (allowDangerous = false ∧
        ∃ pattern ∈ dangerousPatterns, occurs pattern.toList (toLower t cmd) = true) := by
  simp only [← List.any_eq_true]
  unfold isBlocked
  simp only
  split
  · simp [*]
  · split
    · rename_i hblocked hdangerous
      rw [Bool.and_eq_true, Bool.not_eq_true'] at hdangerous
      simp [hdangerous]
    · rename_i hblocked hdangerous
      rw [Bool.and_eq_true, Bool.not_eq_true'] at hdangerous
      exact ⟨fun h => absurd rfl h, fun h => h.elim (absurd · hblocked) (absurd · hdangerous)⟩

theorem blocked_lower (entry : String) (h : entry ∈ blockedCommands) :
    (∀ c ∈ entry.toList, c.toNat < 128) ∧
      (entry ≠ openToAll → entry.toList.map Char.toLower = entry.toList) := by
  have hall : (blockedCommands.all fun e => e.toList.all (·.toNat < 128) &&
      (e == openToAll || e.toList.map Char.toLower == e.toList)) = true := by
    decide
  have hentry := List.all_eq_true.mp hall entry h
  rw [Bool.and_eq_true, Bool.or_eq_true, beq_iff_eq, beq_iff_eq] at hentry
  obtain ⟨hsmall, hlower⟩ := hentry
  exact ⟨fun c hc => of_decide_eq_true (List.all_eq_true.mp hsmall c hc), hlower.resolve_left⟩

theorem never_ascii (entry : String) (h : entry ∈ neverAutoApprovePatterns) (c : Char)
    (hc : c ∈ entry.toList) : c.toNat < 128 := by
  have hall : (neverAutoApprovePatterns.all fun e => e.toList.all (·.toNat < 128)) = true := by
    decide
  exact of_decide_eq_true (List.all_eq_true.mp (List.all_eq_true.mp hall entry h) c hc)

section Guard

variable (t : Tables) (hascii : Ascii t)

include hascii

theorem toLower_ascii (text : String) (h : ∀ c ∈ text.toList, c.toNat < 128) :
    toLower t text = text.toList.map Char.toLower := lowerIn_ascii t hascii [] text.toList [] h

/-- A text of ASCII that a command contains when case is ignored is found in
the lowered command. -/
theorem contains_lower (cmd text : String) (h : ∀ c ∈ text.toList, c.toNat < 128)
    (hcontains : Contains t cmd text) : toLower t text <:+: toLower t cmd := by
  obtain ⟨w, hw, hlower⟩ := hcontains
  have hsigma : ∀ s : Char, 128 ≤ s.toNat → s ∉ toLowercase t w := by
    intro s hs hmem
    rw [hlower, toLower_ascii t hascii text h] at hmem
    obtain ⟨c, hc, rfl⟩ := List.mem_map.mp hmem
    have hsmall := h c hc
    rcases toLower_small c with hsame | hbound
    · rw [hsame] at hs
      omega
    · omega
  rw [← hlower]
  exact toLowercase_infix t w cmd.toList hw (hsigma 'σ' (by decide)) (hsigma 'ς' (by decide))

theorem no_capital (doc : Documented t) (cmd : String) (c : Char) (hc : c.toNat < 128)
    (hlower : c.toLower ≠ c) : c ∉ toLower t cmd := by
  intro hmem
  have hfixed := (lowerIn_settled t doc [] cmd.toList [] c hmem).2
  rw [hascii c hc] at hfixed
  exact hlower (List.cons.inj hfixed).1

theorem capital_missed (doc : Documented t) (cmd : String) :
    occurs openToAll.toList (toLower t cmd) = false := by
  rw [occurs, decide_eq_false_iff_not]
  intro h
  exact no_capital t hascii doc cmd 'R' (by decide) (by decide)
    (h.subset (by decide : 'R' ∈ openToAll.toList))

/-- The guard does for a command what is asked of it exactly if the entry with
a capital comes with another one and a pipe over a wide gap with a narrow one. -/
theorem guarded_iff (doc : Documented t) (allowDangerous : Bool) (cmd : String) :
    Guarded t allowDangerous cmd ↔ Covered t allowDangerous cmd := by
  constructor
  · intro h
    constructor
    · intro hcontains
      have hblocked := h.blocked openToAll (by decide) hcontains
      rcases (isBlocked_iff t allowDangerous cmd).mp hblocked with ⟨entry, hentry, hfound⟩ | hfound
      · refine Or.inl ⟨entry, hentry, ?_, hfound⟩
        rintro rfl
        rw [capital_missed t hascii doc cmd] at hfound
        cases hfound
      · exact Or.inr hfound
    · intro gap hblank _ _ hpiped
      exact (containsShellPipe_iff _).mp (h.piped gap hblank hpiped)
  · intro h
    constructor
    · intro entry hentry hcontains
      rw [isBlocked_iff]
      obtain ⟨hsmall, hlower⟩ := blocked_lower entry hentry
      by_cases hcapital : entry = openToAll
      · rw [hcapital] at hcontains
        rcases h.entry hcontains with ⟨other, hother, -, hfound⟩ | hfound
        · exact Or.inl ⟨other, hother, hfound⟩
        · exact Or.inr hfound
      · refine Or.inl ⟨entry, hentry, ?_⟩
        have hfound := contains_lower t hascii cmd entry hsmall hcontains
        rw [toLower_ascii t hascii entry hsmall, hlower hcapital] at hfound
        exact decide_eq_true hfound
    · intro entry hentry hcontains
      have hfound := contains_lower t hascii cmd entry (never_ascii entry hentry) hcontains
      exact List.any_eq_true.mpr ⟨entry, hentry, decide_eq_true hfound⟩
    · intro gap hblank hpiped
      rw [containsShellPipe_iff]
      by_cases hnone : gap = []
      · exact Or.inl (hnone ▸ hpiped)
      · by_cases hone : gap = [' ']
        · exact Or.inr (hone ▸ hpiped)
        · exact h.gap gap hblank hnone hone hpiped

end Guard

theorem asciiTables_ascii : Ascii HostPatterns.asciiTables := by
  intro c hc
  have hne : c ≠ 'Σ' := by
    rintro rfl
    exact absurd hc (by decide)
  simp [HostPatterns.asciiTables, hne]

/-- A command that is covered: no entry with a capital, one narrow pipe. -/
theorem guarded_piped : Guarded HostPatterns.asciiTables false "MKFS | sh" := by
  refine (guarded_iff HostPatterns.asciiTables asciiTables_ascii HostPatterns.ascii_documented false
    "MKFS | sh").mpr ⟨fun _ => Or.inl ⟨"mkfs", by decide, by decide, by decide⟩, ?_⟩
  intro gap _ _ _ _
  exact Or.inr
    ⟨['m', 'k', 'f', 's', ' '], ['s', 'h'], [], by decide, by decide, rfl⟩

/-- The entry with a capital is not blocked as it is written, and two blanks or
a tab hide a shell from the detector. -/
theorem guard_passed :
    (openToAll ∈ blockedCommands ∧ Contains HostPatterns.asciiTables openToAll openToAll ∧
      isBlocked HostPatterns.asciiTables false openToAll = none) ∧
    (PipedOver [' ', ' '] (toLower HostPatterns.asciiTables "base64 -d x |  sh") ∧
      containsShellPipe (toLower HostPatterns.asciiTables "base64 -d x |  sh") = false) ∧
    PipedOver ['\t'] (toLower HostPatterns.asciiTables "base64 -d x |\tsh") ∧
      containsShellPipe (toLower HostPatterns.asciiTables "base64 -d x |\tsh") = false := by
  refine ⟨⟨by decide, ⟨_, List.infix_rfl, rfl⟩, by decide⟩, ⟨⟨"base64 -d x ".toList,
    "sh".toList, [], by decide, by decide, rfl⟩, by decide⟩,
    ⟨"base64 -d x ".toList, "sh".toList, [], by decide, by decide, rfl⟩,
    by decide⟩

end IronClaw.ShellGuard
