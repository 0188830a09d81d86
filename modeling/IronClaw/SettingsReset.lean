import IronClaw.SettingsShown

/-!
# Bringing defaults back

`Settings::reset` writes the text of the default. For an optional field that is
the text of nothing, which a field that holds a text or a path takes for its
new value and a number refuses. The laws of reading, writing and resetting are
put together at the end.
-/

set_option autoImplicit false

namespace IronClaw.SettingsReset
open IronClaw.JsonValue IronClaw.JsonMap IronClaw.JsonText
open IronClaw.SettingsTree IronClaw.SettingsLayers IronClaw.SettingsPaths IronClaw.SettingsShown

def Leaf.path (f : Leaf) : String :=
  match f.1 with
  | none => f.key
  | some g => g.key++"."++f.key

theorem keys_dotless (part : Option Group) (field : Field) (h : field ∈ fields part) :
    '.' ∉ field.key.toList := by
  revert field
  rcases part with _ | g
  · decide +kernel
  · cases g <;> decide +kernel

theorem groups_dotless (g : Group) : '.' ∉ g.key.toList := by
  cases g <;> decide

theorem dotless (key : String) (h : '.' ∉ key.toList) :
    key.toList.splitOnP (· == '.') = [key.toList] := by
  apply List.splitOnP_eq_singleton
  intro c hc
  have hne : c ≠ '.' := by
    rintro rfl
    exact h hc
  simpa using hne

theorem segments_key (key : String) (h : '.' ∉ key.toList) : segments key = [key] := by
  rw [segments, List.splitOn, dotless key h, List.map_singleton, String.ofList_toList]

theorem segments_dot (key rest : String) (h : '.' ∉ key.toList) :
    segments (key++"."++rest) = key::segments rest := by
  have hsplit : (key++"."++rest).toList = key.toList++ '.'::rest.toList := by
    simp [String.toList_append]
  rw [segments, hsplit, List.splitOn, List.splitOnP_append_cons _ _ (by simp), dotless key h,
    List.map_append, List.map_singleton, String.ofList_toList]
  rfl

theorem segments_path (f : Leaf) : segments (Leaf.path f) = parts f := by
  have hkey := keys_dotless f.1 f.field (List.get_mem _ _)
  unfold Leaf.path parts
  cases f.1 with
  | none => exact segments_key f.key hkey
  | some g =>
    show segments (g.key++"."++f.key) = _
    rw [segments_dot g.key f.key (groups_dotless g), segments_key f.key hkey]

theorem parseU64_digits (n : UInt64) :
    McpTransport.parseU64 (String.ofList (digits n.toNat)) = some n.toNat :=
  McpTransport.parseU64_toDigits n.toNat n.toNat_lt

def Held : (kind : Kind) → kind.Carrier → Bool
  | .opt .transcription, _ => false
  | .opt _, some _ => true
  | _, _ => false

def Kind.listed : Kind → Bool
  | .plain .path | .plain .transcription => false
  | .plain _ => true
  | .opt .text | .opt .path | .opt .transcription | .opt (.unsigned _) => true
  | .opt _ => false

def Kind.blank : Kind → Option Value
  | .plain .texts => some (.array [])
  | .plain .owners => some (.object [])
  | .opt _ => some .null
  | _ => none

theorem fields_blank (part : Option Group) (field : Field) (h : field ∈ fields part) :
    Kind.listed field.kind = true ∧
      (Kind.blank field.kind).all (fun v => field.kind.encode field.initial = some v) = true := by
  revert field
  rcases part with _ | g
  · decide
  · cases g <;> decide

variable (crates : Crates)

/-- Where a field has another form than its default, the text of the default
is read as the default. -/
theorem infer_initial (hjson : Documented crates) (path : String) (kind : Kind) (x y : kind.Carrier)
    (u d : Value) (hlisted : Kind.listed kind = true)
    (hblank : ∀ v, Kind.blank kind = some v → kind.encode y = some v) (hheld : Held kind x = false)
    (hu : kind.encode x = some u) (hd : kind.encode y = some d) :
    infer crates path (display crates d) (some u) = .ok d := by
  cases kind with
  | plain shape =>
    cases shape with
    | bool =>
      cases hu
      cases hd
      cases y <;> rfl
    | unsigned bits =>
      cases hu
      cases hd
      simp only [infer, display, printNumber, parseU64_digits, UInt64.ofNat_toNat]
    | text =>
      cases hu
      cases hd
      rfl
    | keySource =>
      cases hu
      cases hd
      rfl
    | texts =>
      cases hu
      rw [hblank _ rfl] at hd
      cases hd
      simp only [infer, show display crates (.array []) = "[]" from rfl, hjson.emptyArray]
    | owners =>
      cases hu
      rw [hblank _ rfl] at hd
      cases hd
      simp only [infer, show display crates (.object []) = "{}" from rfl, hjson.emptyObject]
    | path => cases hlisted
    | transcription => cases hlisted
  | opt shape =>
    rw [hblank _ rfl] at hd
    cases hd
    show infer crates path "null" (some u) = _
    cases x with
    | none =>
      cases hu
      simp only [infer, jsonOrText, hjson.null]
    | some t =>
      cases shape with
      | transcription =>
        cases hu
        simp only [infer, hjson.null]
      | _ => cases hheld

/-- An optional field that is held does not take the text of nothing for nothing. -/
theorem infer_held (path : String) (kind : Kind) (x y : kind.Carrier) (u u' : Value)
    (hlisted : Kind.listed kind = true) (hheld : Held kind x = true) (hu : kind.encode x = some u)
    (h : infer crates path "null" (some u) = .ok u') (hread : kind.decode u' = some y) :
    kind.encode y ≠ some .null := by
  cases kind with
  | plain shape => cases shape <;> cases hheld
  | opt shape =>
    cases x with
    | none => cases shape <;> cases hheld
    | some t =>
      cases shape with
      | text =>
        cases hu
        cases h
        cases hread
        exact Shape.encode_ne_null .text "null"
      | path =>
        cases t with
        | text s =>
          cases hu
          cases h
          cases hread
          exact Shape.encode_ne_null .path (.text "null")
        | raw bytes => cases hu
      | unsigned bits =>
        cases hu
        have hnumber : McpTransport.parseU64 "null" = none := by decide
        simp only [infer, hnumber] at h
        cases h
      | transcription => cases hheld
      | _ => cases hlisted

def replaced (root : Fields) (f : Leaf) (w : Value) : Fields :=
  match f.1 with
  | none => JsonValue.insert f.key w root
  | some g => JsonValue.insert g.key (.object (JsonValue.insert f.key w (partFields root (some g)))) root

section Replaced

variable (s : Settings) (root : Fields) (tree : Tree s root) (f : Leaf)
  (hskip : f.field.skipped = false) (w : Value)

include tree

theorem assign_leaf (crates : Crates) (path value : String) (u : Value)
    (hu : f.written s = some u) (hskip : f.field.skipped = false)
    (h : infer crates path value (some u) = .ok w) :
    assign crates path value (parts f) (some (.object root)) = .ok (.object (replaced root f w)) := by
  have hleaf := tree.written f hskip
  unfold parts replaced
  cases hp : f.1 with
  | none =>
    rw [hp, hu] at hleaf
    rw [partFields] at hleaf
    simp only [assign, hleaf, h]
  | some g =>
    rw [hp, hu] at hleaf
    simp only [assign, tree.group g, hleaf, h]

include hskip

theorem replaced_group (g : Group) :
    lookup g.key (replaced root f w) = some (.object (partFields (replaced root f w) (some g))) := by
  have hlookup : ∃ fs, lookup g.key (replaced root f w) = some (.object fs) := by
    unfold replaced
    cases hp : f.1 with
    | none => exact ⟨_, by rw [lookup_insert, if_neg (key_not_group f g hp hskip), tree.group g]⟩
    | some g' =>
      simp only [lookup_insert]
      split
      · exact ⟨_, rfl⟩
      · exact ⟨_, tree.group g⟩
  obtain ⟨fs, hfs⟩ := hlookup
  rw [partFields, hfs]

omit tree in
theorem replaced_lookup (part : Option Group) (key : String)
    (hkey : part = none → ∀ g : Group, key ≠ g.key) :
    lookup key (partFields (replaced root f w) part) =
      if part = f.1 ∧ key = f.key then some w else lookup key (partFields root part) := by
  unfold replaced
  cases hp : f.1 with
  | none =>
    cases part with
    | none => simp [partFields, lookup_insert]
    | some g => simp [partFields, lookup_insert_ne _ _ _ _ (key_not_group f g hp hskip).symm]
  | some g' =>
    cases part with
    | none => simp [partFields, lookup_insert, hkey rfl g']
    | some g =>
      by_cases hg : g = g'
      · subst hg
        simp [partFields, lookup_insert]
      · have hne : g'.key ≠ g.key := fun hk => hg (groupKey_injective g' g hk).symm
        simp [partFields, lookup_insert_ne _ _ _ _ hne, hg]

theorem replaced_decode (f' : Leaf) :
    decodeLeaf (.object (replaced root f w)) f' =
      match (if f' = f then some w else lookup f'.key (partFields root f'.1)) with
      | none => some f'.field.initial
      | some v => f'.field.kind.decode v := by
  have hgroups : ∀ g : Group, f'.1 = none → f'.key ≠ g.key := by
    intro g hpart hkey
    by_cases hskip' : f'.field.skipped = true
    · apply skipped_absent f' hskip'
      rw [hpart, hkey]
      exact groupKey_mem g
    · exact key_not_group f' g hpart (by simpa using hskip') hkey.symm
  rw [decodeLeaf_inner (replaced root f w) f',
    replaced_lookup root f hskip w f'.1 f'.key (fun hpart g => hgroups g hpart)]
  · by_cases hf : f' = f
    · subst hf
      simp
    · have hother : ¬ (f'.1 = f.1 ∧ f'.key = f.key) :=
        fun hboth => hf (leaf_injective f' f hboth.1 hboth.2)
      cases hkept : lookup f'.key (partFields root f'.1) with
      | none => simp only [if_neg hf, if_neg hother]
      | some v => simp only [if_neg hf, if_neg hother]
  · intro g v _ hv
    rw [replaced_group s root tree f hskip w g] at hv
    exact (Option.some.inj hv).symm
  · intro key hkey
    have habsent := alias_absent f' key hkey
    rw [replaced_lookup root f hskip w f'.1 key, if_neg, tree.other f'.1 key habsent]
    · rintro ⟨hpart, rfl⟩
      rw [hpart] at habsent
      exact habsent (key_mem f hskip)
    · rintro hpart g rfl
      rw [hpart] at habsent
      exact habsent (groupKey_mem g)

/-- A tree with a readable value for one field is read. -/
theorem replaced_read (hs : Writable s) (x : f.field.kind.Carrier)
    (hx : f.field.kind.decode w = some x) :
    ∃ s', fromValue (.object (replaced root f w)) = some s' ∧ s' f = x := by
  have hdecode := replaced_decode s root tree f hskip w
  have hall : ∀ f', ∃ y, decodeLeaf (.object (replaced root f w)) f' = some y := by
    intro f'
    rw [hdecode]
    by_cases hf : f' = f
    · subst hf
      exact ⟨x, by rw [if_pos rfl]; exact hx⟩
    · rw [if_neg hf]
      by_cases hskip' : f'.field.skipped = true
      · rw [tree.other f'.1 f'.key (skipped_absent f' hskip')]
        exact ⟨_, rfl⟩
      · have hwritten := tree.written f' (by simpa using hskip')
        obtain ⟨v, hv⟩ := hs f' (by simpa using hskip')
        rw [hwritten, hv]
        exact ⟨s f', f'.field.kind.decode_encode (s f') v hv⟩
  choose s' hs' using hall
  refine ⟨s', (fromValue_iff _ s').mpr hs', ?_⟩
  have hf := hs' f
  rw [hdecode, if_pos rfl] at hf
  exact Option.some.inj (hf.symm.trans hx)

end Replaced

theorem valueAt_leaf (s : Settings) (hs : Writable s) (f : Leaf) (hskip : f.field.skipped = false) :
    valueAt s (Leaf.path f) = f.written s := by
  obtain ⟨v, hv⟩ := (toValue_writable s).mpr hs
  obtain ⟨root, rfl, tree⟩ := toValue_tree s v hv
  have hfind := find_leaf s root tree f hskip []
  rw [List.append_nil] at hfind
  rw [valueAt, hv, segments_path]
  show find (parts f) (.object root) = _
  rw [hfind]
  cases f.written s <;> rfl

theorem reset_set (s : Settings) (f : Leaf) (hskip : f.field.skipped = false) (d : Value)
    (hd : f.field.kind.encode f.field.initial = some d) :
    reset crates s (Leaf.path f) = set crates s (Leaf.path f) (display crates d) := by
  rw [reset, SettingsPaths.get, valueAt_leaf initial initial_writable f hskip,
    show f.written initial = some d from hd]
  rfl

theorem set_unwritable (s : Settings) (path value : String) (hs : ¬Writable s) :
    ∃ e, set crates s path value = (.error e, s) := by
  rcases set_cases crates s path value with h | ⟨v, _, _, _, _, hv, -⟩
  · exact h
  · exact absurd ((toValue_writable s).mp ⟨v, hv⟩) hs

theorem parts_ne_nil (f : Leaf) : parts f ≠ [] := by
  unfold parts
  split <;> exact List.cons_ne_nil _ _

theorem held_blank (kind : Kind) (x : kind.Carrier) (h : Held kind x = true) :
    Kind.blank kind = some .null := by
  cases kind with
  | plain shape => cases shape <;> cases h
  | opt shape => rfl

/-- A reset brings the default back exactly if the settings have a tree and the
field is no optional one that is held. -/
theorem reset_restores (hjson : Documented crates) (s : Settings) (f : Leaf)
    (hskip : f.field.skipped = false) :
    ((reset crates s (Leaf.path f)).1 = .ok () ∧
      get crates (reset crates s (Leaf.path f)).2 (Leaf.path f) =
        get crates initial (Leaf.path f) ∧
      (reset crates s (Leaf.path f)).2 f = f.field.initial) ↔
    Writable s ∧ Held f.field.kind (s f) = false := by
  obtain ⟨d, hd⟩ := initial_writable f hskip
  obtain ⟨hlisted, hblank⟩ := fields_blank f.1 f.field (List.get_mem _ _)
  have hspelled : ∀ v, Kind.blank f.field.kind = some v →
      f.field.kind.encode f.field.initial = some v := by
    intro v hv
    rw [hv] at hblank
    simpa using hblank
  rw [reset_set crates s f hskip d hd]
  constructor
  · rintro ⟨hok, -, hinitial⟩
    have hs : Writable s := by
      by_contra hs
      obtain ⟨e, he⟩ := set_unwritable crates s (Leaf.path f) (display crates d) hs
      rw [he] at hok
      cases hok
    refine ⟨hs, ?_⟩
    by_contra hheld
    have htrue : Held f.field.kind (s f) = true := by simpa using hheld
    have hnull : f.field.kind.encode f.field.initial = some .null :=
      hspelled _ (held_blank _ _ htrue)
    cases hd.symm.trans hnull
    obtain ⟨root, root', json, happlied⟩ := set_applied crates (Leaf.path f) "null" s _
      (Prod.ext hok rfl)
    obtain ⟨u, u', hu, hassign, hread⟩ := leaf_within crates (Leaf.path f) "null" _ s _ root json
      happlied.tree happlied.assigned happlied.applied f hskip hs [] (by
        rw [segments_path, List.append_nil])
    change f.field.kind.decode u' = some ((set crates s (Leaf.path f) "null").2 f) at hread
    rw [show (set crates s (Leaf.path f) "null").2 f = f.field.initial from hinitial] at hread
    exact infer_held crates (Leaf.path f) f.field.kind (s f) f.field.initial u u' hlisted htrue hu
      hassign hread hnull
  · rintro ⟨hs, hheld⟩
    obtain ⟨u, hu⟩ := hs f hskip
    obtain ⟨v, hv⟩ := (toValue_writable s).mpr hs
    obtain ⟨root, rfl, tree⟩ := toValue_tree s v hv
    have hinfer := infer_initial crates hjson (Leaf.path f) f.field.kind (s f) f.field.initial u d
      hlisted hspelled hheld hu hd
    have hassign := assign_leaf s root tree f d crates (Leaf.path f) (display crates d) u hu hskip
      hinfer
    obtain ⟨s', hread, hf⟩ := replaced_read s root tree f hskip d hs f.field.initial
      (f.field.kind.decode_encode _ d hd)
    have hset : set crates s (Leaf.path f) (display crates d) = (.ok (), s') := by
      unfold SettingsPaths.set
      rw [hv, segments_path]
      obtain ⟨key, r, hparts⟩ := List.exists_cons_of_ne_nil (parts_ne_nil f)
      rw [hparts] at hassign ⊢
      simp only [hassign, hread]
    rw [hset]
    refine ⟨rfl, ?_, hf⟩
    have hs' := fromValue_writable _ s' hread
    rw [SettingsPaths.get, SettingsPaths.get, valueAt_leaf s' hs' f hskip,
      valueAt_leaf initial initial_writable f hskip, Leaf.written, hf]
    rfl

/-- The laws of `set` and `reset`. A write that fails changes nothing; one that is
applied is seen at no path that has nothing to do with its own, and its own
path shows the value exactly if it leads to a place of the tree and the text
says all of it. A reset brings a default back exactly if the settings have a
tree and the field is no optional one that is held. -/
theorem settings_laws (hjson : Documented crates) :
    (∀ s path value,
      (∀ e, (set crates s path value).1 = .error e → (set crates s path value).2 = s) ∧
      ((set crates s path value).1 = .ok () →
        (∀ q, Unrelated (segments path) (segments q) →
          get crates (set crates s path value).2 q = get crates s q) ∧
        (Shows crates (set crates s path value).2 path value ↔ Whole crates path value))) ∧
    ∀ (s : Settings) (f : Leaf), f.field.skipped = false →
      (((reset crates s (Leaf.path f)).1 = .ok () ∧
        get crates (reset crates s (Leaf.path f)).2 (Leaf.path f) =
          get crates initial (Leaf.path f) ∧
        (reset crates s (Leaf.path f)).2 f = f.field.initial) ↔
      Writable s ∧ Held f.field.kind (s f) = false) := by
  refine ⟨fun s path value => ⟨set_failed crates s path value, fun hok => ?_⟩,
    fun s f hskip => reset_restores crates hjson s f hskip⟩
  obtain ⟨root, root', json, happlied⟩ := set_applied crates path value s _ (Prod.ext hok rfl)
  refine ⟨?_, applied_shows crates path value s _ root root' json happlied hjson⟩
  intro q hq
  have hframe := applied_frame crates path value s _ root root' json happlied (segments q) hq
  have hbefore : valueAt s q = find (segments q) (.object root) := by
    rw [valueAt, happlied.read]
    rfl
  have hafter : valueAt (set crates s path value).2 q = find (segments q) (.object root') := by
    rw [valueAt, happlied.read']
    rfl
  rw [SettingsPaths.get, SettingsPaths.get, hbefore, hafter, hframe]

def sampleCrates : Crates where
  parse := fun s =>
    if s = "null" then .ok .null
    else if s = "[]" then .ok (.array [])
    else if s = "\x7b\x7d" then .ok (.object [])
    else .error "expected value at line 1 column 1"
  floats := plainFloats
  parseFloat := fun _ => none
  writeError := fun _ => "path contains invalid UTF-8 characters"
  applyError := fun _ => "invalid type"

theorem sampleCrates_documented : Documented sampleCrates where
  null := by decide
  emptyArray := by decide
  emptyObject := by decide
  ordered := by
    intro value fs h
    simp only [sampleCrates] at h
    split at h
    · cases h
    · split at h
      · cases h
      · split at h <;> cases h
        exact ordered_nil

def ownedBy (m : Owners) : ownerIds.field.kind.Carrier := m

def owned : Settings := Function.update initial ownerIds (ownedBy ⟨[("telegram", 7)], by simp⟩)

theorem owned_writable : Writable owned := by
  intro f hskip
  by_cases h : f = ownerIds
  · subst h
    rw [Leaf.written, owned, Function.update_self]
    exact ⟨_, rfl⟩
  · rw [Leaf.written, owned, Function.update_of_ne h]
    exact initial_writable f hskip

theorem settings_laws_owners :
    (reset sampleCrates owned (Leaf.path ownerIds)).1 = .ok () ∧
      get sampleCrates (reset sampleCrates owned (Leaf.path ownerIds)).2 (Leaf.path ownerIds) =
        get sampleCrates initial (Leaf.path ownerIds) ∧
      (reset sampleCrates owned (Leaf.path ownerIds)).2 ownerIds = ownerIds.field.initial :=
  ((settings_laws sampleCrates sampleCrates_documented).2 owned ownerIds rfl).mpr
    ⟨owned_writable, by rw [owned, Function.update_self]; rfl⟩

def llmBackend : Leaf := ⟨none, ⟨9, by decide⟩⟩

def textOf (text : Option String) : llmBackend.field.kind.Carrier := text

def backed : Settings := Function.update initial llmBackend (textOf (some "openai"))

/-- A reset of the backend leaves the text of nothing in its place. -/
theorem backend_not_reset :
    ¬ ((∀ s path value,
      (∀ e, (set sampleCrates s path value).1 = .error e → (set sampleCrates s path value).2 = s) ∧
      ((set sampleCrates s path value).1 = .ok () →
        (∀ q, Unrelated (segments path) (segments q) →
          get sampleCrates (set sampleCrates s path value).2 q = get sampleCrates s q) ∧
        Shows sampleCrates (set sampleCrates s path value).2 path value)) ∧
    ∀ (s : Settings) (f : Leaf), f.field.skipped = false →
      (reset sampleCrates s (Leaf.path f)).1 = .ok () ∧
        get sampleCrates (reset sampleCrates s (Leaf.path f)).2 (Leaf.path f) =
          get sampleCrates initial (Leaf.path f) ∧
        (reset sampleCrates s (Leaf.path f)).2 f = f.field.initial) := by
  rintro ⟨-, h⟩
  have hheld := ((reset_restores sampleCrates sampleCrates_documented backed llmBackend rfl).mp
    (h backed llmBackend rfl)).2
  rw [backed, Function.update_self] at hheld
  cases hheld

end IronClaw.SettingsReset
