import IronClaw.SettingsPaths

/-!
# What a write to the settings shows

After a write that was applied its path shows a value that the text stands for
exactly if the path leads to a place of the tree and the text says all that the
place holds: a group is filled up with defaults where the text leaves keys out,
and drops the keys that it does not know.
-/

set_option autoImplicit false

namespace IronClaw.SettingsShown
open IronClaw.JsonValue IronClaw.JsonMap IronClaw.JsonText
open IronClaw.SettingsTree IronClaw.SettingsLayers IronClaw.SettingsPaths

def Reading (crates : Crates) (value : String) (w : Value) : Prop :=
  w = .string value ∨ crates.parse value = .ok w ∨ (∃ b, parseBool value = some b ∧ w = .bool b) ∨
    (∃ n, McpTransport.parseU64 value = some n ∧ w = .number (.posInt (UInt64.ofNat n))) ∨
    (∃ n, Coercion.parseI64 value = some n ∧ w = Coercion.Value.ofInt n) ∨
    ∃ bits, crates.parseFloat value = some bits ∧ w = .number (.float bits)

variable (crates : Crates) (path value : String)

theorem jsonOrText_reading (value : String) :
    Reading crates value (jsonOrText crates value) := by
  unfold jsonOrText
  split
  · exact Or.inr (Or.inl ‹_›)
  · exact Or.inl rfl

theorem infer_reading (existing : Option Value) (w : Value)
    (h : infer crates path value existing = .ok w) : Reading crates value w := by
  unfold infer at h
  split at h
  · split at h <;> cases h
    exact Or.inr (Or.inr (Or.inl ⟨_, ‹_›, rfl⟩))
  · split at h <;> cases h
    exact Or.inr (Or.inr (Or.inr (Or.inl ⟨_, ‹_›, rfl⟩)))
  · split at h <;> cases h
    exact Or.inr (Or.inr (Or.inr (Or.inr (Or.inl ⟨_, ‹_›, rfl⟩))))
  · split at h <;> cases h
    split
    · exact Or.inr (Or.inr (Or.inr (Or.inr (Or.inr ⟨_, ‹_›, rfl⟩))))
    · exact Or.inl rfl
  · cases h
    exact jsonOrText_reading crates value
  · split at h <;> cases h
    exact Or.inr (Or.inl ‹_›)
  · split at h <;> cases h
    exact Or.inr (Or.inl ‹_›)
  · cases h
    exact Or.inl rfl
  · cases h
    exact jsonOrText_reading crates value

theorem reading_json (value : String) (w : Value) (hw : w = .null ∨ ∃ fs, w = .object fs)
    (h : Reading crates value w) :
    crates.parse value = .ok w := by
  rcases h with rfl | h | ⟨b, -, rfl⟩ | ⟨n, -, rfl⟩ | ⟨n, -, rfl⟩ | ⟨bits, -, rfl⟩
  · rcases hw with hw | ⟨fs, hw⟩ <;> cases hw
  · exact h
  · rcases hw with hw | ⟨fs, hw⟩ <;> cases hw
  · rcases hw with hw | ⟨fs, hw⟩ <;> cases hw
  · unfold Coercion.Value.ofInt at hw
    split at hw <;> rcases hw with hw | ⟨fs, hw⟩ <;> cases hw
  · rcases hw with hw | ⟨fs, hw⟩ <;> cases hw

def Shows (crates : Crates) (s : Settings) (path value : String) : Prop :=
  ∃ w, valueAt s path = some w ∧ get crates s path = some (display crates w) ∧
    Reading crates value w

theorem shows_iff (s : Settings) (path value : String) :
    Shows crates s path value ↔ ∃ w, valueAt s path = some w ∧ Reading crates value w := by
  constructor
  · rintro ⟨w, hw, -, hreading⟩
    exact ⟨w, hw, hreading⟩
  · rintro ⟨w, hw, hreading⟩
    exact ⟨w, hw, by rw [SettingsPaths.get, hw]; rfl, hreading⟩

inductive Place where
  | leaf (f : Leaf)
  | group (g : Group)
  | owner (key : String)
  | enabled

def Place.parts : Place → List String
  | .leaf f => SettingsPaths.parts f
  | .group g => [g.key]
  | .owner key => SettingsPaths.parts ownerIds++[key]
  | .enabled => SettingsPaths.parts transcription++["enabled"]

def Place.spelled (crates : Crates) (value : String) : Place → Prop
  | .leaf f => f.field.skipped = false ∧ (f = transcription →
      crates.parse value = .ok .null ∨ ∃ t, crates.parse value = .ok (transcriptionValue t))
  | .group g => ∃ fs, crates.parse value = .ok (.object fs) ∧
      ∀ key, key ∈ fs.map Prod.fst ↔ key ∈ keysOf (some g)
  | .owner _ => True
  | .enabled => True

def Whole (crates : Crates) (path value : String) : Prop :=
  ∃ place : Place, segments path = place.parts ∧ place.spelled crates value

theorem leaf_injective (f f' : Leaf) (hpart : f.1 = f'.1) (hkey : f.key = f'.key) : f = f' :=
  List.inj_on_of_nodup_map (leaves_nodup f.1) (mem_leaves f) (hpart ▸ mem_leaves f') hkey

theorem groupKey_injective (g g' : Group) (h : g.key = g'.key) : g = g' :=
  List.inj_on_of_nodup_map groups_nodup (mem_groups g) (mem_groups g') h

theorem parts_injective (f f' : Leaf) (hskip : f.field.skipped = false)
    (hskip' : f'.field.skipped = false) (r r' : List String) (h : parts f++r = parts f'++r') :
    f = f' ∧ r = r' := by
  unfold parts at h
  cases hp : f.1 with
  | none =>
    cases hp' : f'.1 with
    | none =>
      simp only [hp, hp', List.cons_append, List.nil_append, List.cons.injEq] at h
      exact ⟨leaf_injective f f' (hp.trans hp'.symm) h.1, h.2⟩
    | some g =>
      simp only [hp, hp', List.cons_append, List.nil_append, List.cons.injEq] at h
      exact absurd h.1.symm (key_not_group f g hp hskip)
  | some g =>
    cases hp' : f'.1 with
    | none =>
      simp only [hp, hp', List.cons_append, List.nil_append, List.cons.injEq] at h
      exact absurd h.1 (key_not_group f' g hp' hskip')
    | some g' =>
      simp only [hp, hp', List.cons_append, List.nil_append, List.cons.injEq] at h
      have hg := groupKey_injective g g' h.1
      exact ⟨leaf_injective f f' (hp.trans (hg ▸ hp'.symm)) h.2.1, h.2.2⟩

theorem parts_not_group (f : Leaf) (hskip : f.field.skipped = false) (g : Group) (r : List String) :
    parts f++r ≠ [g.key] := by
  intro h
  unfold parts at h
  cases hp : f.1 with
  | none =>
    simp only [hp, List.cons_append, List.nil_append, List.cons.injEq] at h
    exact key_not_group f g hp hskip h.1.symm
  | some g' => simp [hp] at h

theorem known_parts (f : Leaf) (hskip : f.field.skipped = false) (r : List String) :
    ¬Unknown (parts f++r) := by
  rintro (⟨key, q, h, hkey⟩ | ⟨g, key, q, h, hkey⟩)
  · apply hkey
    unfold parts at h
    have hmem := key_mem f hskip
    cases hp : f.1 with
    | none =>
      simp only [hp, List.cons_append, List.cons.injEq] at h hmem
      rwa [← h.1]
    | some g =>
      simp only [hp, List.cons_append, List.cons.injEq] at h
      rw [← h.1]
      exact groupKey_mem g
  · unfold parts at h
    have hmem := key_mem f hskip
    cases hp : f.1 with
    | none =>
      simp only [hp, List.cons_append, List.cons.injEq] at h
      exact key_not_group f g hp hskip h.1.symm
    | some g' =>
      simp only [hp, List.cons_append, List.cons.injEq] at h hmem
      rw [groupKey_injective g' g h.1, h.2.1] at hmem
      exact hkey hmem

structure Documented (crates : Crates) : Prop where
  null : crates.parse "null" = .ok .null
  emptyArray : crates.parse "[]" = .ok (.array [])
  emptyObject : crates.parse "\x7b\x7d" = .ok (.object [])
  ordered : ∀ value fs, crates.parse value = .ok (.object fs) → Ordered fs

theorem whole_known (h : Whole crates path value) :
    ¬Unknown (segments path) := by
  obtain ⟨place, hparts, hspelled⟩ := h
  rw [hparts]
  cases place with
  | leaf f =>
    have hknown := known_parts f hspelled.1 []
    rwa [List.append_nil] at hknown
  | group g =>
    rintro (⟨key, q, heq, hkey⟩ | ⟨g', key, q, heq, -⟩)
    · rw [← (List.cons.inj heq).1] at hkey
      exact hkey (groupKey_mem g)
    · cases (List.cons.inj heq).2
  | owner key => exact known_parts ownerIds rfl [key]
  | enabled => exact known_parts transcription rfl ["enabled"]

theorem whole_group (g : Group) (hpath : segments path = [g.key]) :
    Whole crates path value ↔ Place.spelled crates value (.group g) := by
  constructor
  · rintro ⟨place, hparts, hspelled⟩
    rw [hpath] at hparts
    cases place with
    | leaf f =>
      have hnot := parts_not_group f hspelled.1 g []
      rw [List.append_nil] at hnot
      exact absurd hparts.symm hnot
    | group g' =>
      rw [groupKey_injective g g' (List.cons.inj hparts).1]
      exact hspelled
    | owner key => exact absurd hparts.symm (parts_not_group ownerIds rfl g [key])
    | enabled => exact absurd hparts.symm (parts_not_group transcription rfl g ["enabled"])
  · intro h
    exact ⟨.group g, hpath, h⟩

theorem whole_leaf (f : Leaf) (r : List String) (hskip : f.field.skipped = false)
    (hpath : segments path = parts f++r) :
    Whole crates path value ↔ (r = [] ∧ Place.spelled crates value (.leaf f)) ∨
      (f = ownerIds ∧ ∃ key, r = [key]) ∨ (f = transcription ∧ r = ["enabled"]) := by
  constructor
  · rintro ⟨place, hparts, hspelled⟩
    rw [hpath] at hparts
    cases place with
    | leaf f' =>
      obtain ⟨rfl, rfl⟩ := parts_injective f f' hskip hspelled.1 r [] (by
        rw [hparts, List.append_nil]; rfl)
      exact Or.inl ⟨rfl, hspelled⟩
    | group g => exact absurd hparts (parts_not_group f hskip g r)
    | owner key =>
      obtain ⟨rfl, rfl⟩ := parts_injective f ownerIds hskip rfl r [key] hparts
      exact Or.inr (Or.inl ⟨rfl, key, rfl⟩)
    | enabled =>
      obtain ⟨rfl, rfl⟩ := parts_injective f transcription hskip rfl r ["enabled"] hparts
      exact Or.inr (Or.inr ⟨rfl, rfl⟩)
  · rintro (⟨rfl, hspelled⟩ | ⟨rfl, key, rfl⟩ | ⟨rfl, rfl⟩)
    · exact ⟨.leaf f, by rw [hpath, List.append_nil]; rfl, hspelled⟩
    · exact ⟨.owner key, hpath, trivial⟩
    · exact ⟨.enabled, hpath, trivial⟩

theorem find_append (p q : List String) (v : Value) :
    find (p++q) v = (find p v).bind (find q) := by
  induction p generalizing v with
  | nil => rfl
  | cons key p ih =>
    rw [List.cons_append, find, find, Option.bind_assoc]
    exact congrArg _ (funext ih)

theorem mem_keys (fs : Fields) (key : String) :
    key ∈ fs.map Prod.fst ↔ ∃ v, lookup key fs = some v := by
  induction fs with
  | nil => simp [lookup]
  | cons f fs ih =>
    obtain ⟨k, v⟩ := f
    rw [List.map_cons, List.mem_cons, ih, lookup]
    by_cases hk : k = key
    · simp [hk]
    · simp [hk, Ne.symm hk]

theorem tree_keys (s : Settings) (root : Fields) (tree : Tree s root)
    (hs : Writable s) (g : Group) (key : String) :
    key ∈ (partFields root (some g)).map Prod.fst ↔ key ∈ keysOf (some g) := by
  rw [mem_keys]
  constructor
  · rintro ⟨v, hv⟩
    by_contra hkey
    rw [tree.other _ key hkey] at hv
    cases hv
  · intro hkey
    rcases key_cases (some g) key hkey with ⟨f, hpart, hskip, rfl⟩ | ⟨hpart, -⟩
    · obtain ⟨v, hv⟩ := hs f hskip
      have hwritten := tree.written f hskip
      rw [hpart, hv] at hwritten
      exact ⟨v, hwritten⟩
    · cases hpart

section Applied

variable (crates : Crates) (path value : String) (s s' : Settings)
  (root root' : Fields) (json : Value)
  (h : Applied crates path value s s' root root' json)

include h

theorem applied_value : valueAt s' path = find (segments path) (.object root') := by
  rw [valueAt, h.read']
  rfl

theorem shows_unknown (hpath : Unknown (segments path)) : ¬Shows crates s' path value := by
  rw [shows_iff, applied_value crates path value s s' root root' json h,
    find_unknown s' root' h.tree' _ hpath]
  rintro ⟨w, hw, -⟩
  cases hw

theorem applied_group (g : Group) (hpath : segments path = [g.key]) :
    ∃ w, crates.parse value = .ok w ∧ find [g.key] json = some w := by
  have hassigned := h.assigned
  rw [hpath] at hassigned
  obtain ⟨w, hw, hfind⟩ := assign_through crates path value [g.key] [] _ json hassigned
  rw [find_group s root h.tree g] at hw
  simp only [assign, infer] at hw
  refine ⟨w, ?_, hfind⟩
  split at hw
  · rename_i v hv
    rw [hv, Except.ok.inj hw]
  · cases hw

theorem shows_group (hjson : Documented crates) (g : Group) (hpath : segments path = [g.key]) :
    Shows crates s' path value ↔ Place.spelled crates value (.group g) := by
  obtain ⟨w, hparse, hfind⟩ := applied_group crates path value s s' root root' json h g hpath
  have hwritable := fromValue_writable json s' h.applied
  rw [shows_iff, applied_value crates path value s s' root root' json h, hpath,
    find_group s' root' h.tree']
  constructor
  · rintro ⟨v, hv, hreading⟩
    cases hv
    exact ⟨_, reading_json crates value _ (Or.inr ⟨_, rfl⟩) hreading,
      tree_keys s' root' h.tree' hwritable g⟩
  · rintro ⟨fs, hfs, hkeys⟩
    refine ⟨_, rfl, Or.inr (Or.inl ?_)⟩
    rw [hparse] at hfs
    cases hfs
    rw [hparse]
    congr 2
    apply ordered_ext _ _ (hjson.ordered value fs hparse) (h.tree'.ordered _)
    intro key
    by_cases hkey : key ∈ keysOf (some g)
    · rcases key_cases (some g) key hkey with ⟨f, hpart, hskip, rfl⟩ | ⟨hpart, -⟩
      · obtain ⟨v, hv⟩ := (mem_keys fs f.key).mp ((hkeys f.key).mpr hkey)
        have hleaf : find (parts f) json = some v := by
          rw [parts, hpart]
          show find ([g.key]++[f.key]) json = _
          rw [find_append, hfind]
          show (lookup f.key fs).bind _ = _
          rw [hv]
          rfl
        have hread : f.field.kind.decode v = some (s' f) := by
          cases json with
          | object top =>
            exact decodeLeaf_found f top v (s' f) hleaf ((fromValue_iff top s').mp h.applied f)
          | _ => cases h.applied
        have hwritten := h.tree'.written f hskip
        rw [hpart] at hwritten
        rw [hv, hwritten]
        refine (Kind.encode_decode f.field.kind v (s' f) ?_ ?_ hread).symm
        · intro hshape
          rw [shape_transcription f hshape] at hpart
          cases hpart
        · intro hshape
          rw [(shape_keySource f hshape).2] at hpart
          cases hpart
      · cases hpart
    · rw [h.tree'.other _ key hkey, Option.eq_none_iff_forall_ne_some]
      intro v hv
      exact hkey ((hkeys key).mp ((mem_keys fs key).mpr ⟨v, hv⟩))

end Applied

theorem segments_ne_nil (path : String) : segments path ≠ [] := by
  rw [segments, ne_eq, List.map_eq_nil_iff]
  exact List.splitOnP_ne_nil _ _

section Leaf

variable (crates : Crates) (path value : String)

/-- A path inside the owner ids leads to one of them. -/
theorem inside_owners (key : String) (r : List String) (m : Owners) (u' : Value)
    (h : assign crates path value (key::r) (some (.object (entriesOf m))) = .ok u') : r = [] := by
  cases r with
  | nil => rfl
  | cons k r =>
    obtain ⟨fs, w, hfs, hw, -⟩ := assign_cons crates path value key (k::r) _ u' h
    cases hfs
    obtain ⟨child, hchild⟩ := assign_below crates path value k r _ w hw
    rw [hchild] at hw
    obtain ⟨fs', -, hinner, -, -⟩ := assign_cons crates path value k r child w hw
    rw [entriesOf_lookup, hinner] at hchild
    obtain ⟨n, -, hn⟩ := Option.map_eq_some_iff.mp hchild
    unfold ofI64 at hn
    split at hn <;> cases hn

/-- A path inside the transcription settings has one more key. -/
theorem inside_transcription (key : String) (r : List String) (t : TranscriptionSettings)
    (u' : Value) (h : assign crates path value (key::r) (some (transcriptionValue t)) = .ok u') :
    r = [] := by
  cases r with
  | nil => rfl
  | cons k r =>
    obtain ⟨fs, w, hfs, hw, -⟩ := assign_cons crates path value key (k::r) _ u' h
    cases hfs
    obtain ⟨child, hchild⟩ := assign_below crates path value k r _ w hw
    rw [hchild] at hw
    obtain ⟨fs', -, rfl, -, -⟩ := assign_cons crates path value k r child w hw
    simp only [lookup] at hchild
    split at hchild <;> cases hchild

theorem written_transcription (s : Settings) (u : Value) (hu : transcription.written s = some u) :
    (transcriptionOf s = none ∧ u = .null) ∨
      ∃ t, transcriptionOf s = some t ∧ u = transcriptionValue t := by
  change Kind.encode (.opt .transcription) (transcriptionOf s) = _ at hu
  cases ht : transcriptionOf s with
  | none =>
    rw [ht] at hu
    cases hu
    exact Or.inl ⟨rfl, rfl⟩
  | some t =>
    rw [ht] at hu
    cases hu
    exact Or.inr ⟨t, rfl, rfl⟩

theorem infer_transcription (u u' v : Value)
    (hu : u = .null ∨ ∃ t, u = transcriptionValue t) (hv : crates.parse value = .ok v)
    (h : infer crates path value (some u) = .ok u') : u' = v := by
  rcases hu with rfl | ⟨t, rfl⟩
  · simp only [infer, jsonOrText, hv] at h
    exact (Except.ok.inj h).symm
  · simp only [infer, transcriptionValue, hv] at h
    exact (Except.ok.inj h).symm

end Leaf

section Applied

variable (crates : Crates) (path value : String) (s s' : Settings)
  (root root' : Fields) (json : Value)
  (h : Applied crates path value s s' root root' json)

include h

theorem shows_leaf (f : Leaf) (hf : f ≠ transcription) (r : List String)
    (hskip : f.field.skipped = false) (hpath : segments path = parts f++r) :
    Shows crates s' path value ∧ Whole crates path value := by
  have hwritable := applied_writable crates path value s s' root root' json h
  obtain ⟨u, u', hu, hassign, hread⟩ := leaf_within crates path value (segments path) s s' root
    json h.tree h.assigned h.applied f hskip hwritable r hpath
  have hsame := leaf_rewritten crates path value r f hf (s f) (s' f) u u' hu hassign hread
  constructor
  · rw [shows_iff, applied_value crates path value s s' root root' json h, hpath,
      find_leaf s' root' h.tree' f hskip, show f.written s' = some u' from hsame]
    rw [← List.append_nil r] at hassign
    obtain ⟨w, hw, hfind⟩ := assign_through crates path value r [] u u' hassign
    exact ⟨w, hfind, infer_reading crates path value _ w hw⟩
  · rw [whole_leaf crates path value f r hskip hpath]
    cases r with
    | nil => exact Or.inl ⟨rfl, hskip, fun h => absurd h hf⟩
    | cons key r =>
      rcases assign_inside crates path value key r f (s f) u u' hu hassign with rfl | h
      · cases hu
        rw [inside_owners crates path value key r (ownersOf s) u' hassign]
        exact Or.inr (Or.inl ⟨rfl, key, rfl⟩)
      · exact absurd h hf

theorem shows_transcription (r : List String) (hpath : segments path = parts transcription++r) :
    Shows crates s' path value ↔ Whole crates path value := by
  have hwritable := applied_writable crates path value s s' root root' json h
  obtain ⟨u, u', hu, hassign, hread⟩ := leaf_within crates path value (segments path) s s' root
    json h.tree h.assigned h.applied transcription rfl hwritable r hpath
  obtain ⟨u'', hu''⟩ := Kind.decode_encodable _ u' _ hread
  have hfound : valueAt s' path = find r u'' := by
    rw [applied_value crates path value s s' root root' json h, hpath,
      find_leaf s' root' h.tree' transcription rfl,
      show transcription.written s' = some u'' from hu'']
    rfl
  rw [shows_iff, hfound, whole_leaf crates path value transcription r rfl hpath]
  have hshape := written_transcription s u hu
  have hshape' := written_transcription s' u'' hu''
  cases r with
  | nil =>
    constructor
    · rintro ⟨w, hw, hreading⟩
      cases hw
      refine Or.inl ⟨rfl, rfl, fun _ => ?_⟩
      rcases hshape' with ⟨-, rfl⟩ | ⟨t, -, rfl⟩
      · exact Or.inl (reading_json crates value _ (Or.inl rfl) hreading)
      · exact Or.inr ⟨t, reading_json crates value _ (Or.inr ⟨_, rfl⟩) hreading⟩
    · rintro (⟨-, -, hspelled⟩ | ⟨-, key, hkey⟩ | ⟨-, hkey⟩)
      · have hparsed : ∃ x : transcription.field.kind.Carrier, ∃ v,
            transcription.field.kind.encode x = some v ∧ crates.parse value = .ok v := by
          rcases hspelled rfl with hparse | ⟨t, hparse⟩
          · exact ⟨(none : Option TranscriptionSettings), .null, rfl, hparse⟩
          · exact ⟨some t, _, rfl, hparse⟩
        obtain ⟨x, v, hx, hparse⟩ := hparsed
        have hu'v : u' = v := infer_transcription crates path value u u' v
          (hshape.imp And.right (fun ⟨t, _, ht⟩ => ⟨t, ht⟩)) hparse hassign
        rw [hu'v, transcription.field.kind.decode_encode x v hx] at hread
        rw [← Option.some.inj hread, hx] at hu''
        cases hu''
        exact ⟨_, rfl, Or.inr (Or.inl hparse)⟩
      · cases hkey
      · cases hkey
  | cons key r =>
    rcases hshape with ⟨-, rfl⟩ | ⟨t, -, rfl⟩
    · obtain ⟨fs, w, hfs, -, -⟩ := assign_cons crates path value key r _ u' hassign
      cases hfs
    · have hr := inside_transcription crates path value key r t u' hassign
      subst hr
      obtain ⟨fs, w, hfs, hw, rfl⟩ := assign_cons crates path value key [] _ u' hassign
      cases hfs
      obtain ⟨b, hb, hflag⟩ := decode_transcription _ _ hread
      rcases hshape' with ⟨hnone, -⟩ | ⟨t', ht', rfl⟩
      · rw [show transcriptionOf s' = some ⟨b⟩ from hb] at hnone
        cases hnone
      · rw [show transcriptionOf s' = some ⟨b⟩ from hb] at ht'
        cases ht'
        by_cases hkey : key = "enabled"
        · subst hkey
          rw [lookup_insert_self] at hflag
          rcases hflag with hflag | ⟨hflag, -⟩
          · cases hflag
            constructor
            · intro _
              exact Or.inr (Or.inr ⟨rfl, rfl⟩)
            · intro _
              exact ⟨.bool b, rfl, infer_reading crates path value (some (.bool t.enabled)) _ hw⟩
          · cases hflag
        · constructor
          · rintro ⟨v, hv, -⟩
            simp [find, Value.get, transcriptionValue, lookup, Ne.symm hkey] at hv
          · rintro (⟨hr, -⟩ | ⟨hf, -⟩ | ⟨-, hr⟩)
            · cases hr
            · cases hf
            · exact absurd (List.cons.inj hr).1 hkey

/-- After a write that was applied the path shows the value exactly if it leads
to a place of the tree and the text says all of it. -/
theorem applied_shows (hjson : Documented crates) :
    Shows crates s' path value ↔ Whole crates path value := by
  obtain ⟨key, q, hpath⟩ := List.exists_cons_of_ne_nil (segments_ne_nil path)
  rcases classify key q with ⟨f, hskip, r, hf⟩ | ⟨g, hg⟩ | hunknown
  · rw [← hpath] at hf
    by_cases htr : f = transcription
    · subst htr
      exact shows_transcription crates path value s s' root root' json h r hf
    · have hboth := shows_leaf crates path value s s' root root' json h f htr r hskip hf
      exact iff_of_true hboth.1 hboth.2
  · rw [← hpath] at hg
    rw [whole_group crates path value g hg]
    exact shows_group crates path value s s' root root' json h hjson g hg
  · rw [← hpath] at hunknown
    exact iff_of_false (shows_unknown crates path value s s' root root' json h hunknown)
      (fun hwhole => whole_known crates path value hwhole hunknown)

end Applied

end IronClaw.SettingsShown
