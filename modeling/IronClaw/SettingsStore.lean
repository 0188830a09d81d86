import IronClaw.SettingsReset

/-!
# The settings in the database

`Settings::to_db_map` keeps every value of the tree that is no object under its
dotted path, and `Settings::from_db_map` writes the values back with `set`, one
by one, in whatever order the map gives them. What `set` makes of a value
depends on what stands at its path by then, so the run is described by the
entries that it has been through.
-/

set_option autoImplicit false

namespace IronClaw.SettingsStore
open IronClaw.JsonValue IronClaw.JsonMap IronClaw.JsonText
open IronClaw.SettingsTree IronClaw.SettingsLayers IronClaw.SettingsPaths
open IronClaw.SettingsShown IronClaw.SettingsReset

def below (path key : String) : String :=
  if path = "" then key else path++"."++key

mutual

/-- `collect_settings_json`, into a map. -/
def collectSettingsJson : Value → String → Fields → Fields
  | .object fields, path, results => collectFields fields path results
  | other, path, results => insert path other results

def collectFields : Fields → String → Fields →
    Fields
  | [], _, results => results
  | (key, v)::rest, path, results =>
    collectFields rest path (collectSettingsJson v (below path key) results)

end

def toDbMap (s : Settings) : Fields :=
  match toValue s with
  | none => []
  | some v => (collectSettingsJson v "" []).filter (fun e => e.1 ≠ "owner_id")

/-- One round of the loop of `from_db_map`: a value that cannot be written is
passed over, with a warning or without. -/
def applySetting (crates : Crates) (s : Settings) (e : String × Value) : Settings :=
  if e.1 = "owner_id" then s
  else match e.2 with
    | .null => s
    | v => (set crates s e.1 (display crates v)).2

/-- `from_db_map`, over the entries in the order of the iteration. -/
def fromDbMap (crates : Crates) (entries : Fields) : Settings :=
  entries.foldl (applySetting crates) initial

mutual

def flat : Value → String → Fields
  | .object fields, path => flatFields fields path
  | other, path => [(path, other)]

def flatFields : Fields → String → Fields
  | [], _ => []
  | (key, v)::rest, path => flat v (below path key)++flatFields rest path

end

def store (results : Fields) (entries : Fields) :
    Fields :=
  entries.foldl (fun m e => insert e.1 e.2 m) results

mutual

theorem collect_flat (v : Value) (path : String) (results : Fields) :
    collectSettingsJson v path results = store results (flat v path) := by
  cases v with
  | object fields =>
    simp only [collectSettingsJson, flat]
    exact collectFields_flat fields path results
  | null => rfl
  | bool b => rfl
  | number n => rfl
  | string s => rfl
  | array xs => rfl

theorem collectFields_flat (fields : Fields) (path : String)
    (results : Fields) :
    collectFields fields path results = store results (flatFields fields path) := by
  match fields with
  | [] => rfl
  | (key, v)::rest =>
    simp only [collectFields, flatFields, store, List.foldl_append]
    rw [collect_flat v, collectFields_flat rest]
    rfl

end

theorem mem_flatFields (fields : Fields) (path : String) (e : String × Value) :
    e ∈ flatFields fields path ↔ ∃ f ∈ fields, e ∈ flat f.2 (below path f.1) := by
  induction fields with
  | nil => simp [flatFields]
  | cons f rest ih =>
    obtain ⟨key, v⟩ := f
    simp only [flatFields, List.mem_append, ih, List.exists_mem_cons_iff]

theorem store_ordered (results entries : Fields) (h : Ordered results) :
    Ordered (store results entries) := by
  induction entries generalizing results with
  | nil => exact h
  | cons e rest ih => exact ih _ (insert_ordered e.1 e.2 results h)

/-- Where no path has two values, the map holds what was put into it. -/
theorem mem_store (results entries : Fields) (hordered : Ordered results)
    (hsame : ∀ e ∈ entries++results, ∀ e' ∈ entries++results, e.1 = e'.1 → e = e')
    (e : String × Value) : e ∈ store results entries ↔ e ∈ entries ∨ e ∈ results := by
  induction entries generalizing results with
  | nil => simp [store]
  | cons x rest ih =>
    have hinsert : ∀ y, y ∈ insert x.1 x.2 results ↔ y = x ∨ y ∈ results := by
      intro y
      constructor
      · exact insert_mem x.1 x.2 results y
      · intro hy
        apply lookup_mem y.1 y.2
        rw [lookup_insert]
        split
        · rename_i hkey
          have hyx : y = x := by
            rcases hy with rfl | hy
            · rfl
            · exact hsame y (by simp [hy]) x (by simp) hkey
          rw [hyx]
        · rename_i hkey
          rcases hy with rfl | hy
          · exact absurd rfl hkey
          · exact mem_lookup y.1 y.2 results hordered hy
    have hsub : ∀ y ∈ rest++insert x.1 x.2 results, y ∈ (x::rest)++results := by
      intro y hy
      rcases List.mem_append.mp hy with hy | hy
      · simp [hy]
      · rcases (hinsert y).mp hy with rfl | hy
        · simp
        · simp [hy]
    change e ∈ store (insert x.1 x.2 results) rest ↔ _
    rw [ih _ (insert_ordered x.1 x.2 results hordered)
      (fun y hy y' hy' => hsame y (hsub y hy) y' (hsub y' hy')), hinsert, List.mem_cons]
    tauto

def ownerId : Leaf := ⟨none, ⟨1, by decide⟩⟩

inductive Stored (s : Settings) : String × Value → Prop
  | leaf (f : Leaf) (v : Value) (hskip : f.field.skipped = false) (hid : f ≠ ownerId)
      (hv : f.written s = some v) (hplain : ∀ fs, v ≠ .object fs) : Stored s (Leaf.path f, v)
  | owner (key : String) (n : Int64) (h : (ownersOf s).get key = some n) :
      Stored s (Leaf.path ownerIds++"."++key, ofI64 n)
  | enabled (t : TranscriptionSettings) (h : transcriptionOf s = some t) :
      Stored s (Leaf.path transcription++"."++"enabled", .bool t.enabled)

variable (crates : Crates) (s : Settings) (f : Leaf) (x : f.field.kind.Carrier) (v : Value)
  (t : Settings)

theorem flat_plain (path : String) (h : ∀ fs, v ≠ .object fs) :
    flat v path = [(path, v)] := by
  cases v with
  | object fs => exact absurd rfl (h fs)
  | _ => rfl

theorem groupKey_ne_empty (g : Group) : g.key ≠ "" := by
  cases g <;> decide

theorem below_group (g : Group) (key : String) : below g.key key = g.key++"."++key :=
  if_neg (groupKey_ne_empty g)

section Tree

variable (s : Settings) (root : Fields) (tree : Tree s root)

include tree

theorem tree_entry (part : Option Group) (key : String) (v : Value)
    (h : (key, v) ∈ partFields root part) :
    (∃ f : Leaf, f.1 = part ∧ f.field.skipped = false ∧ f.key = key ∧ f.written s = some v) ∨
      (part = none ∧ ∃ g : Group, g.key = key ∧ v = .object (partFields root (some g))) := by
  have hlookup := mem_lookup key v _ (tree.ordered part) h
  have hkey : key ∈ keysOf part := by
    by_contra hkey
    rw [tree.other part key hkey] at hlookup
    cases hlookup
  rcases key_cases part key hkey with ⟨f, hpart, hskip, rfl⟩ | ⟨rfl, g, rfl⟩
  · left
    have hwritten := tree.written f hskip
    rw [hpart, hlookup] at hwritten
    exact ⟨f, hpart, hskip, rfl, hwritten.symm⟩
  · right
    refine ⟨rfl, g, rfl, ?_⟩
    have hgroup := tree.group g
    rw [show lookup g.key root = some v from hlookup] at hgroup
    exact Option.some.inj hgroup

/-- The entries of the tree are those of its fields. -/
theorem flat_tree (e : String × Value) :
    e ∈ flat (.object root) "" ↔ ∃ (f : Leaf) (v : Value), f.field.skipped = false ∧
      f.written s = some v ∧ e ∈ flat v (Leaf.path f) := by
  simp only [flat, mem_flatFields]
  constructor
  · rintro ⟨⟨key, v⟩, hmem, he⟩
    change e ∈ flat v key at he
    rcases tree_entry s root tree none key v hmem with
      ⟨f, hpart, hskip, rfl, hwritten⟩ | ⟨-, g, rfl, rfl⟩
    · refine ⟨f, v, hskip, hwritten, ?_⟩
      unfold Leaf.path
      rwa [hpart]
    · obtain ⟨⟨key, v⟩, hmem, he⟩ := (mem_flatFields _ _ _).mp (by simpa only [flat] using he)
      rcases tree_entry s root tree (some g) key v hmem with
        ⟨f, hpart, hskip, rfl, hwritten⟩ | ⟨hpart, -⟩
      · refine ⟨f, v, hskip, hwritten, ?_⟩
        unfold Leaf.path
        rw [hpart]
        rwa [below_group] at he
      · cases hpart
  · rintro ⟨f, v, hskip, hwritten, he⟩
    have hmem : (f.key, v) ∈ partFields root f.1 :=
      lookup_mem f.key v _ ((tree.written f hskip).trans hwritten)
    unfold Leaf.path at he
    cases hpart : f.1 with
    | none =>
      rw [hpart] at hmem he
      exact ⟨(f.key, v), hmem, he⟩
    | some g =>
      rw [hpart] at hmem he
      refine ⟨(g.key, .object (partFields root (some g))), lookup_mem _ _ _ (tree.group g), ?_⟩
      change e ∈ flat (.object (partFields root (some g))) g.key
      simp only [flat, mem_flatFields]
      exact ⟨(f.key, v), hmem, by rwa [below_group]⟩

end Tree

theorem path_ownerIds : Leaf.path ownerIds ≠ "" := by
  decide

theorem path_transcription : Leaf.path transcription ≠ "" := by
  decide

theorem ofI64_plain (n : Int64) (fs : Fields) : ofI64 n ≠ .object fs := by
  unfold ofI64
  split <;> exact Value.noConfusion

theorem flat_owners (m : Owners) (e : String × Value) :
    e ∈ flat (.object (entriesOf m)) (Leaf.path ownerIds) ↔
      ∃ key n, m.get key = some n ∧ e = (Leaf.path ownerIds++"."++key, ofI64 n) := by
  simp only [flat, mem_flatFields, below, if_neg path_ownerIds]
  constructor
  · rintro ⟨⟨key, v⟩, hmem, he⟩
    have hlookup := mem_lookup key v _ (entriesOf_ordered m) hmem
    rw [entriesOf_lookup] at hlookup
    obtain ⟨n, hn, rfl⟩ := Option.map_eq_some_iff.mp hlookup
    rw [flat_plain _ _ (ofI64_plain n), List.mem_singleton] at he
    exact ⟨key, n, hn, he⟩
  · rintro ⟨key, n, hn, rfl⟩
    refine ⟨(key, ofI64 n), lookup_mem key _ _ ?_, ?_⟩
    · rw [entriesOf_lookup, hn]
      rfl
    · rw [flat_plain _ _ (ofI64_plain n)]
      exact List.mem_singleton.mpr rfl

theorem segments_inside (key : String) :
    segments (Leaf.path f++"."++key) = parts f++segments key := by
  have hkey := keys_dotless f.1 f.field (List.get_mem _ _)
  unfold Leaf.path parts
  cases f.1 with
  | none => exact segments_dot f.key key hkey
  | some g =>
    have hassoc : g.key++"."++f.key++"."++key = g.key++"."++(f.key++"."++key) := by
      simp only [String.append_assoc]
    change segments (g.key++"."++f.key++"."++key) = _
    rw [hassoc, segments_dot g.key _ (groups_dotless g), segments_dot f.key key hkey]
    rfl

/-- The entries of a field: itself, or the members of the two that are objects. -/
theorem flat_cases (hv : f.written s = some v) (e : String × Value)
    (he : e ∈ flat v (Leaf.path f)) :
    (e = (Leaf.path f, v) ∧ ∀ fs, v ≠ .object fs) ∨
      (f = ownerIds ∧ ∃ key n, (ownersOf s).get key = some n ∧
        e = (Leaf.path ownerIds++"."++key, ofI64 n)) ∨
      (f = transcription ∧ ∃ t, transcriptionOf s = some t ∧
        e = (Leaf.path transcription++"."++"enabled", .bool t.enabled)) := by
  by_cases hobject : ∃ fs, v = .object fs
  · obtain ⟨fs, rfl⟩ := hobject
    rcases encode_object f (s f) fs hv with rfl | rfl
    · have hfs : Value.object (entriesOf (ownersOf s)) = .object fs := Option.some.inj hv
      rw [← hfs] at he
      exact .inr (.inl ⟨rfl, (flat_owners _ _).mp he⟩)
    · rcases written_transcription s _ hv with ⟨-, hnull⟩ | ⟨t, ht, hfs⟩
      · cases hnull
      · rw [hfs] at he
        simp only [transcriptionValue, flat, flatFields, below, if_neg path_transcription,
          List.append_nil, List.mem_singleton] at he
        exact .inr (.inr ⟨rfl, t, ht, he⟩)
  · have hplain : ∀ fs, v ≠ .object fs := fun fs h => hobject ⟨fs, h⟩
    rw [flat_plain v _ hplain, List.mem_singleton] at he
    exact .inl ⟨he, hplain⟩

theorem stored_of_flat (hskip : f.field.skipped = false) (hid : f ≠ ownerId)
    (hv : f.written s = some v) (e : String × Value) (he : e ∈ flat v (Leaf.path f)) :
    Stored s e := by
  rcases flat_cases s f v hv e he with ⟨rfl, hplain⟩ | ⟨-, key, n, hn, rfl⟩ | ⟨-, t, ht, rfl⟩
  · exact .leaf f v hskip hid hv hplain
  · exact .owner key n hn
  · exact .enabled t ht

theorem flat_of_stored (e : String × Value) (he : Stored s e) :
    ∃ (f : Leaf) (v : Value), f.field.skipped = false ∧ f ≠ ownerId ∧
      f.written s = some v ∧ e ∈ flat v (Leaf.path f) := by
  cases he with
  | leaf f v hskip hid hv hplain =>
    refine ⟨f, v, hskip, hid, hv, ?_⟩
    rw [flat_plain v _ hplain]
    exact List.mem_singleton.mpr rfl
  | owner key n h =>
    exact ⟨ownerIds, .object (entriesOf (ownersOf s)), rfl, by decide, rfl,
      (flat_owners _ _).mpr ⟨key, n, h, rfl⟩⟩
  | enabled t h =>
    refine ⟨transcription, transcriptionValue t, rfl, by decide, ?_, ?_⟩
    · change Kind.encode (.opt .transcription) (transcriptionOf s) = _
      rw [h]
      rfl
    · simp only [transcriptionValue, flat, flatFields, below, if_neg path_transcription,
        List.append_nil, List.mem_singleton]

theorem flat_place (hv : f.written s = some v) (e : String × Value)
    (he : e ∈ flat v (Leaf.path f)) : ∃ r, segments e.1 = parts f++r := by
  rcases flat_cases s f v hv e he with ⟨rfl, -⟩ | ⟨rfl, key, n, -, rfl⟩ | ⟨rfl, t, -, rfl⟩
  · exact ⟨[], (segments_path f).trans (List.append_nil _).symm⟩
  · exact ⟨_, segments_inside ownerIds key⟩
  · exact ⟨_, segments_inside transcription "enabled"⟩

/-- No path has two values. -/
theorem flat_same (f f' : Leaf) (v v' : Value) (hskip : f.field.skipped = false)
    (hskip' : f'.field.skipped = false) (hv : f.written s = some v) (hv' : f'.written s = some v')
    (e e' : String × Value) (he : e ∈ flat v (Leaf.path f)) (he' : e' ∈ flat v' (Leaf.path f'))
    (hpath : e.1 = e'.1) : e = e' := by
  obtain ⟨r, hr⟩ := flat_place s f v hv e he
  obtain ⟨r', hr'⟩ := flat_place s f' v' hv' e' he'
  rw [hpath, hr'] at hr
  obtain ⟨rfl, -⟩ := parts_injective f' f hskip' hskip r' r hr
  cases hv.symm.trans hv'
  rcases flat_cases s f' v hv e he with
    ⟨rfl, hplain⟩ | ⟨rfl, key, n, hn, rfl⟩ | ⟨rfl, t, ht, rfl⟩
  · rw [flat_plain v _ hplain, List.mem_singleton] at he'
    exact he'.symm
  · have hfs : Value.object (entriesOf (ownersOf s)) = v := Option.some.inj hv
    rw [← hfs] at he'
    obtain ⟨key', n', hn', rfl⟩ := (flat_owners _ _).mp he'
    have hkey : key = key' := by
      exact (String.append_right_inj _).mp hpath
    subst hkey
    rw [hn] at hn'
    cases hn'
    rfl
  · rcases flat_cases s transcription v hv e' he' with
      ⟨rfl, hplain⟩ | ⟨hwrong, -⟩ | ⟨-, t', ht', rfl⟩
    · rcases written_transcription s v hv with ⟨hnone, -⟩ | ⟨t', -, hobject⟩
      · rw [ht] at hnone
        cases hnone
      · exact absurd hobject (hplain _)
    · exact absurd hwrong (by decide)
    · rw [ht] at ht'
      cases ht'
      rfl

theorem path_owner_id : Leaf.path ownerId = "owner_id" := by
  decide

theorem mem_toDbMap (hs : Writable s) (e : String × Value) :
    e ∈ toDbMap s ↔ Stored s e := by
  obtain ⟨v, hv⟩ := (toValue_writable s).mpr hs
  obtain ⟨root, rfl, tree⟩ := toValue_tree s v hv
  have hmem : e ∈ collectSettingsJson (.object root) "" [] ↔ e ∈ flat (.object root) "" := by
    rw [collect_flat, mem_store [] _ ordered_nil]
    · simp
    · intro x hx y hy hxy
      rw [List.append_nil] at hx hy
      obtain ⟨f, v, hskip, hfv, hfx⟩ := (flat_tree s root tree x).mp hx
      obtain ⟨f', v', hskip', hfv', hfy⟩ := (flat_tree s root tree y).mp hy
      exact flat_same s f f' v v' hskip hskip' hfv hfv' x y hfx hfy hxy
  unfold toDbMap
  rw [hv]
  simp only [List.mem_filter, hmem, flat_tree s root tree, decide_eq_true_eq]
  constructor
  · rintro ⟨⟨f, v, hskip, hfv, he⟩, hid⟩
    refine stored_of_flat s f v hskip ?_ hfv e he
    rintro rfl
    rcases flat_cases s ownerId v hfv e he with ⟨rfl, -⟩ | ⟨hwrong, -⟩ | ⟨hwrong, -⟩
    · exact hid path_owner_id
    · exact absurd hwrong (by decide)
    · exact absurd hwrong (by decide)
  · intro he
    obtain ⟨f, v, hskip, hid, hfv, hflat⟩ := flat_of_stored s e he
    refine ⟨⟨f, v, hskip, hfv, hflat⟩, ?_⟩
    intro hpath
    obtain ⟨r, hr⟩ := flat_place s f v hfv e hflat
    rw [hpath, ← path_owner_id, segments_path, ← List.append_nil (parts ownerId)] at hr
    exact hid (parts_injective ownerId f rfl hskip [] r hr).1.symm

theorem toDbMap_keys : ((toDbMap s).map Prod.fst).Nodup := by
  unfold toDbMap
  split
  · exact List.nodup_nil
  · rename_i v _
    have hordered : Ordered (collectSettingsJson v "" []) := by
      rw [collect_flat]
      exact store_ordered [] _ ordered_nil
    exact (List.Pairwise.imp ne_of_lt hordered).sublist (List.filter_sublist.map Prod.fst)

section Written

variable (crates : Crates) (t : Settings) (root : Fields) (tree : Tree t root)
  (f : Leaf) (hskip : f.field.skipped = false)

include tree

/-- A write that goes through a field comes to what stands in it. -/
theorem assign_within (path value : String) (r : List String) (u : Value)
    (hu : f.written t = some u) (hskip : f.field.skipped = false) :
    assign crates path value (parts f++r) (some (.object root)) =
      match assign crates path value r (some u) with
      | .ok w => .ok (.object (replaced root f w))
      | .error e => .error e := by
  have hleaf := tree.written f hskip
  unfold parts replaced
  cases hp : f.1 with
  | none =>
    rw [hp, hu, partFields] at hleaf
    cases hw : assign crates path value r (some u) with
    | ok w => simp only [List.cons_append, List.nil_append, assign, hleaf, hw]
    | error e => simp only [List.cons_append, List.nil_append, assign, hleaf, hw]
  | some g =>
    rw [hp, hu] at hleaf
    cases hw : assign crates path value r (some u) with
    | ok w => simp only [List.cons_append, List.nil_append, assign, tree.group g, hleaf, hw]
    | error e => simp only [List.cons_append, List.nil_append, assign, tree.group g, hleaf, hw]

include hskip

/-- A tree with another value for one field is read field by field. -/
theorem replaced_apart (ht : Writable t) (w : Value) (t' : Settings)
    (hread : fromValue (.object (replaced root f w)) = some t') :
    f.field.kind.decode w = some (t' f) ∧
      (∀ f', f' ≠ f → f'.field.skipped = false → t' f' = t f') ∧
      ∀ f', f'.field.skipped = true → t' f' = f'.field.initial := by
  have hdecode := replaced_decode t root tree f hskip w
  have hall := (fromValue_iff _ t').mp hread
  refine ⟨?_, ?_, ?_⟩
  · have hf := hall f
    rwa [hdecode, if_pos rfl] at hf
  · intro f' hne hskip'
    obtain ⟨v, hv⟩ := ht f' hskip'
    have hf := hall f'
    rw [hdecode, if_neg hne, tree.written f' hskip', hv] at hf
    have hsame := f'.field.kind.decode_encode (t f') v hv
    exact Option.some.inj (hf.symm.trans hsame)
  · intro f' hskip'
    have hne : f' ≠ f := by
      rintro rfl
      rw [hskip] at hskip'
      cases hskip'
    have hf := hall f'
    rw [hdecode, if_neg hne, tree.other f'.1 f'.key (skipped_absent f' hskip')] at hf
    exact (Option.some.inj hf).symm

end Written

structure Changed (t t' : Settings) (f : Leaf) : Prop where
  writable : Writable t'
  others : ∀ f', f' ≠ f → f'.field.skipped = false → t' f' = t f'
  skipped : (∀ f', f'.field.skipped = true → t f' = f'.field.initial) →
    ∀ f', f'.field.skipped = true → t' f' = f'.field.initial

theorem unchanged (ht : Writable t) (f : Leaf) : Changed t t f :=
  ⟨ht, fun _ _ _ => rfl, fun h => h⟩

/-- What a write to a place in a field does: it changes the field alone, or
nothing when the place or the new value is refused. -/
theorem set_within (ht : Writable t) (f : Leaf) (hskip : f.field.skipped = false)
    (path value : String) (r : List String) (hpath : segments path = parts f++r) (u : Value)
    (hu : f.written t = some u) :
    (∃ w, assign crates path value r (some u) = .ok w ∧
      f.field.kind.decode w = some ((set crates t path value).2 f) ∧
      Changed t (set crates t path value).2 f) ∨
    ((∀ w, assign crates path value r (some u) = .ok w → f.field.kind.decode w = none) ∧
      (set crates t path value).2 = t) := by
  obtain ⟨v, hv⟩ := (toValue_writable t).mpr ht
  obtain ⟨root, rfl, tree⟩ := toValue_tree t v hv
  obtain ⟨key, rest, hcons⟩ := List.exists_cons_of_ne_nil (segments_ne_nil path)
  have hassign := assign_within crates t root tree f path value r u hu hskip
  rw [← hpath, hcons] at hassign
  cases hw : assign crates path value r (some u) with
  | error e =>
    right
    constructor
    · intro w h
      cases h
    · rw [hw] at hassign
      unfold SettingsPaths.set
      simp only [hv, hcons, hassign]
  | ok w =>
    rw [hw] at hassign
    cases hread : fromValue (.object (replaced root f w)) with
    | none =>
      right
      constructor
      · intro w' hw'
        cases hw'
        by_contra hx
        obtain ⟨x, hx⟩ := Option.ne_none_iff_exists'.mp hx
        obtain ⟨t', ht', -⟩ := replaced_read t root tree f hskip w ht x hx
        rw [hread] at ht'
        cases ht'
      · unfold SettingsPaths.set
        simp only [hv, hcons, hassign, hread]
    | some t' =>
      left
      obtain ⟨hx, hothers, hskipped⟩ := replaced_apart t root tree f hskip ht w t' hread
      have hset : (set crates t path value).2 = t' := by
        unfold SettingsPaths.set
        simp only [hv, hcons, hassign, hread]
      rw [hset]
      exact ⟨w, rfl, hx, fromValue_writable _ t' hread, hothers, fun _ => hskipped⟩

def restoredAs (crates : Crates) (path : String) (kind : Kind) (y : kind.Carrier)
    (existing : Option Value) : Value → kind.Carrier
  | .null => y
  | v =>
    match infer crates path (display crates v) existing with
    | .error _ => y
    | .ok w => (kind.decode w).getD y

def restoredLeaf (crates : Crates) (s : Settings) (f : Leaf) : f.field.kind.Carrier :=
  match f.written s with
  | none => f.field.initial
  | some v => restoredAs crates (Leaf.path f) f.field.kind f.field.initial (f.written initial) v

theorem restoredAs_value (path : String) (kind : Kind) (y : kind.Carrier) (existing : Option Value)
    (v : Value) (hv : v ≠ .null) :
    restoredAs crates path kind y existing v =
      match infer crates path (display crates v) existing with
      | .error _ => y
      | .ok w => (kind.decode w).getD y := by
  cases v with
  | null => exact absurd rfl hv
  | _ => rfl

theorem applySetting_set (path : String) (v : Value) (hpath : path ≠ "owner_id") (hv : v ≠ .null) :
    applySetting crates t (path, v) = (set crates t path (display crates v)).2 := by
  unfold applySetting
  rw [if_neg hpath]
  cases v with
  | null => exact absurd rfl hv
  | _ => rfl

theorem apply_leaf (s t : Settings) (ht : Writable t) (f : Leaf) (v : Value)
    (hskip : f.field.skipped = false) (hpath : Leaf.path f ≠ "owner_id") (hv : f.written s = some v)
    (hf : t f = f.field.initial) :
    applySetting crates t (Leaf.path f, v) f = restoredLeaf crates s f ∧
      Changed t (applySetting crates t (Leaf.path f, v)) f := by
  by_cases hnull : v = .null
  · subst hnull
    have hkept : applySetting crates t (Leaf.path f, .null) = t := by
      unfold applySetting
      rw [if_neg hpath]
    rw [hkept]
    refine ⟨?_, unchanged t ht f⟩
    rw [hf, restoredLeaf, hv]
    rfl
  · rw [applySetting_set crates t _ v hpath hnull]
    obtain ⟨u, hu⟩ := ht f hskip
    have hinitial : f.written initial = some u := by
      rw [← hu, Leaf.written, Leaf.written, hf]
      rfl
    rw [restoredLeaf, hv, hinitial]
    simp only [restoredAs_value crates _ _ _ _ v hnull]
    have hsegments : segments (Leaf.path f) = parts f++[] := by
      rw [segments_path, List.append_nil]
    rcases set_within crates t ht f hskip (Leaf.path f) (display crates v) [] hsegments u hu with
      ⟨w, hassign, hread, hchanged⟩ | ⟨hassign, hsame⟩
    · simp only [assign] at hassign
      refine ⟨?_, hchanged⟩
      simp only [hassign, hread, Option.getD_some]
    · rw [hsame]
      refine ⟨?_, unchanged t ht f⟩
      rw [hf]
      simp only [assign] at hassign
      cases hinfer : infer crates (Leaf.path f) (display crates v) (some u) with
      | error e => rfl
      | ok w => simp only [hassign w hinfer, Option.getD_none]

def isNumberOrList : Value → Bool
  | .number _ => true
  | .array _ => true
  | _ => false

structure ReadsBack (crates : Crates) (s : Settings) : Prop where
  fields : ∀ (f : Leaf) (v : Value), f.written s = some v → isNumberOrList v = true →
    crates.parse (display crates v) = .ok v
  owners : ∀ key n, (ownersOf s).get key = some n →
    crates.parse (display crates (ofI64 n)) = .ok (ofI64 n)

theorem segments_dotted (key : String) (h : '.' ∈ key.toList) :
    ∃ first second rest, segments key = first::second::rest := by
  obtain ⟨xs, ys, hsplit, hfirst⟩ := List.eq_append_cons_of_mem h
  have hkey : key = String.ofList xs++"."++String.ofList ys := by
    apply String.toList_injective
    simp [hsplit]
  obtain ⟨second, rest, hrest⟩ := List.exists_cons_of_ne_nil (segments_ne_nil (String.ofList ys))
  refine ⟨String.ofList xs, second, rest, ?_⟩
  rw [hkey, segments_dot _ _ (by simpa using hfirst), hrest]

/-- One more owner id: its key must not hold a dot. -/
theorem apply_owner (ht : Writable t) (key : String) (n : Int64)
    (hread : crates.parse (display crates (ofI64 n)) = .ok (ofI64 n))
    (hpath : Leaf.path ownerIds++"."++key ≠ "owner_id") (hnew : (ownersOf t).get key = none) :
    Changed t (applySetting crates t (Leaf.path ownerIds++"."++key, ofI64 n)) ownerIds ∧
      ∀ k, (ownersOf (applySetting crates t (Leaf.path ownerIds++"."++key, ofI64 n))).get k =
        if k = key ∧ '.' ∉ key.toList then some n else (ownersOf t).get k := by
  rw [applySetting_set crates t _ _ hpath (ofI64_ne_null n)]
  have hsegments := segments_inside ownerIds key
  have hwritten : ownerIds.written t = some (.object (entriesOf (ownersOf t))) := rfl
  have hcases := set_within crates t ht ownerIds rfl _ (display crates (ofI64 n)) _ hsegments _
    hwritten
  by_cases hdot : '.' ∈ key.toList
  · obtain ⟨first, second, rest, hparts⟩ := segments_dotted key hdot
    rw [hparts] at hcases
    rcases hcases with ⟨w, hassign, -⟩ | ⟨-, hsame⟩
    · have hrest := inside_owners crates _ _ first (second::rest) (ownersOf t) w hassign
      cases hrest
    · rw [hsame]
      refine ⟨unchanged t ht ownerIds, ?_⟩
      intro k
      rw [if_neg]
      exact fun h => h.2 hdot
  · rw [segments_key key hdot] at hcases
    have hassign : assign crates (Leaf.path ownerIds++"."++key) (display crates (ofI64 n)) [key]
        (some (.object (entriesOf (ownersOf t)))) =
        .ok (.object (insert key (ofI64 n) (entriesOf (ownersOf t)))) := by
      simp only [assign, entriesOf_lookup, hnew, Option.map_none, infer, jsonOrText, hread]
    obtain ⟨m, hm⟩ := owners_of_fields (insert key (ofI64 n) (entriesOf (ownersOf t)))
      (insert_ordered key _ _ (entriesOf_ordered _)) (by
        intro k v hk
        rw [lookup_insert] at hk
        split at hk
        · exact ⟨n, (Option.some.inj hk).symm⟩
        · rw [entriesOf_lookup] at hk
          obtain ⟨n', -, hn'⟩ := Option.map_eq_some_iff.mp hk
          exact ⟨n', hn'.symm⟩)
    have hdecode : ownerIds.field.kind.decode
        (.object (insert key (ofI64 n) (entriesOf (ownersOf t)))) = some m := by
      rw [← hm]
      exact owners_decode m
    rcases hcases with ⟨w, hw, hread, hchanged⟩ | ⟨hnone, -⟩
    · refine ⟨hchanged, ?_⟩
      rw [hassign] at hw
      cases hw
      rw [hdecode] at hread
      have howners : ownersOf (set crates t (Leaf.path ownerIds++"."++key)
          (display crates (ofI64 n))).2 = m := (Option.some.inj hread).symm
      intro k
      rw [howners]
      have hlookup := entriesOf_lookup m k
      rw [hm, lookup_insert, entriesOf_lookup] at hlookup
      apply Option.map_injective ofI64_injective
      rw [← hlookup]
      by_cases hk : k = key
      · rw [if_pos hk, if_pos ⟨hk, hdot⟩]
        rfl
      · rw [if_neg hk, if_neg (fun h => hk h.1)]
    · have hwrong := hnone _ hassign
      rw [hdecode] at hwrong
      cases hwrong

/-- The flag of the transcription settings has no place to be written to. -/
theorem apply_enabled (ht : Writable t) (b : Bool)
    (hpath : Leaf.path transcription++"."++"enabled" ≠ "owner_id")
    (hnone : transcriptionOf t = none) :
    applySetting crates t (Leaf.path transcription++"."++"enabled", .bool b) = t := by
  rw [applySetting_set crates t _ _ hpath Value.noConfusion]
  have hwritten : transcription.written t = some .null := by
    change Kind.encode (.opt .transcription) (transcriptionOf t) = _
    rw [hnone]
    rfl
  have hsegments : segments (Leaf.path transcription++"."++"enabled") =
      parts transcription++["enabled"] := by
    rw [segments_inside, segments_key "enabled" (by decide)]
  rcases set_within crates t ht transcription rfl _ (display crates (.bool b)) _ hsegments _
    hwritten with ⟨w, hassign, -⟩ | ⟨-, hsame⟩
  · cases hassign
  · exact hsame

theorem path_injective (f f' : Leaf) (hskip : f.field.skipped = false)
    (hskip' : f'.field.skipped = false) (h : Leaf.path f = Leaf.path f') : f = f' := by
  have hparts := congrArg segments h
  rw [segments_path, segments_path] at hparts
  exact (parts_injective f f' hskip hskip' [] [] (by rw [hparts])).1

theorem path_not_inside (f f' : Leaf) (key : String) (hskip : f.field.skipped = false)
    (hskip' : f'.field.skipped = false) : Leaf.path f ≠ Leaf.path f'++"."++key := by
  intro h
  have hparts := congrArg segments h
  rw [segments_path, segments_inside, ← List.append_nil (parts f)] at hparts
  exact segments_ne_nil key (parts_injective f f' hskip hskip' _ _ hparts).2.symm

theorem inside_not_inside (f f' : Leaf) (key key' : String) (hskip : f.field.skipped = false)
    (hskip' : f'.field.skipped = false) (hne : f ≠ f') :
    Leaf.path f++"."++key ≠ Leaf.path f'++"."++key' := by
  intro h
  have hparts := congrArg segments h
  rw [segments_inside, segments_inside] at hparts
  exact hne (parts_injective f f' hskip hskip' _ _ hparts).1

theorem stored_leaf (hskip : f.field.skipped = false) (h : Stored s (Leaf.path f, v)) :
    f ≠ ownerId ∧ f.written s = some v ∧ ∀ fs, v ≠ .object fs := by
  generalize hpath : Leaf.path f = path at h
  cases h with
  | leaf f' v hskip' hid hv hplain =>
    have hsame := path_injective f f' hskip hskip' hpath
    subst hsame
    exact ⟨hid, hv, hplain⟩
  | owner key n h => exact absurd hpath (path_not_inside f ownerIds key hskip rfl)
  | enabled t h => exact absurd hpath (path_not_inside f transcription "enabled" hskip rfl)

theorem stored_path (e : String × Value) (h : Stored s e) : e.1 ≠ "owner_id" := by
  rw [← path_owner_id]
  cases h with
  | leaf f v hskip hid hv hplain =>
    intro hpath
    exact hid (path_injective f ownerId hskip rfl hpath)
  | owner key n h => exact (path_not_inside ownerId ownerIds key rfl rfl).symm
  | enabled t h => exact (path_not_inside ownerId transcription "enabled" rfl rfl).symm

structure Progress (crates : Crates) (s : Settings) (done : Fields)
    (t : Settings) : Prop where
  stored : ∀ e ∈ done, Stored s e
  writable : Writable t
  skipped : ∀ f, f.field.skipped = true → t f = f.field.initial
  waiting : ∀ f, f.field.skipped = false → f ≠ ownerIds → (∀ v, (Leaf.path f, v) ∉ done) →
    t f = f.field.initial
  restored : ∀ f v, f.field.skipped = false → (Leaf.path f, v) ∈ done →
    t f = restoredLeaf crates s f
  owned : ∀ key n, (Leaf.path ownerIds++"."++key, ofI64 n) ∈ done → '.' ∉ key.toList →
    (ownersOf t).get key = some n
  owner : ∀ key n, (ownersOf t).get key = some n →
    (Leaf.path ownerIds++"."++key, ofI64 n) ∈ done ∧ '.' ∉ key.toList

theorem progress_initial : Progress crates s [] initial where
  stored := by simp
  writable := initial_writable
  skipped := fun _ _ => rfl
  waiting := fun _ _ _ _ => rfl
  restored := by simp
  owned := by simp
  owner := fun key n h => by cases h

section Step

variable (crates : Crates) (s t : Settings) (done : Fields)
  (h : Progress crates s done t)

include h

theorem progress_leaf (f : Leaf) (v : Value) (hstored : Stored s (Leaf.path f, v))
    (hskip : f.field.skipped = false) (hnew : ∀ v', (Leaf.path f, v') ∉ done) :
    Progress crates s ((Leaf.path f, v)::done) (applySetting crates t (Leaf.path f, v)) := by
  obtain ⟨hid, hv, hplain⟩ := stored_leaf s f v hskip hstored
  have howners : f ≠ ownerIds := by
    rintro rfl
    exact hplain _ (Option.some.inj hv).symm
  have hf := h.waiting f hskip howners hnew
  obtain ⟨hrestored, hchanged⟩ := apply_leaf crates s t h.writable f v hskip
    (stored_path s _ hstored) hv hf
  have hsame : ownersOf (applySetting crates t (Leaf.path f, v)) = ownersOf t :=
    hchanged.others ownerIds howners.symm rfl
  have hapart : ∀ key n, (Leaf.path ownerIds++"."++key, ofI64 n) ≠ (Leaf.path f, v) := by
    intro key n heq
    exact path_not_inside f ownerIds key hskip rfl (Prod.mk.inj heq).1.symm
  constructor
  case stored => exact List.forall_mem_cons.mpr ⟨hstored, h.stored⟩
  case writable => exact hchanged.writable
  case skipped => exact hchanged.skipped h.skipped
  case waiting =>
    intro f' hskip' howners' hwaiting
    have hne : f' ≠ f := by
      rintro rfl
      exact hwaiting v List.mem_cons_self
    rw [hchanged.others f' hne hskip']
    exact h.waiting f' hskip' howners' (fun v' hv' => hwaiting v' (List.mem_cons_of_mem _ hv'))
  case restored =>
    intro f' v' hskip' hmem
    by_cases hne : f' = f
    · subst hne
      exact hrestored
    · rw [hchanged.others f' hne hskip']
      rcases List.mem_cons.mp hmem with heq | hmem
      · exact absurd (path_injective f' f hskip' hskip (Prod.mk.inj heq).1) hne
      · exact h.restored f' v' hskip' hmem
  case owned =>
    intro key n hmem hdot
    rw [hsame]
    rcases List.mem_cons.mp hmem with heq | hmem
    · exact absurd heq (hapart key n)
    · exact h.owned key n hmem hdot
  case owner =>
    intro key n hget
    rw [hsame] at hget
    obtain ⟨hmem, hdot⟩ := h.owner key n hget
    exact ⟨List.mem_cons_of_mem _ hmem, hdot⟩

theorem progress_owner (hreads : ReadsBack crates s) (key : String) (n : Int64)
    (hn : (ownersOf s).get key = some n)
    (hstored : Stored s (Leaf.path ownerIds++"."++key, ofI64 n))
    (hnew : ∀ v', (Leaf.path ownerIds++"."++key, v') ∉ done) :
    Progress crates s ((Leaf.path ownerIds++"."++key, ofI64 n)::done)
      (applySetting crates t (Leaf.path ownerIds++"."++key, ofI64 n)) := by
  have hnone : (ownersOf t).get key = none := by
    rw [Option.eq_none_iff_forall_not_mem]
    intro n' hn'
    exact hnew _ (h.owner key n' hn').1
  obtain ⟨hchanged, hget⟩ := apply_owner crates t h.writable key n
    (hreads.owners key n hn) (stored_path s _ hstored) hnone
  have hkey : ∀ key' n', (Leaf.path ownerIds++"."++key', ofI64 n') =
      (Leaf.path ownerIds++"."++key, ofI64 n) → key' = key ∧ n' = n := by
    intro key' n' heq
    obtain ⟨hpath, hvalue⟩ := Prod.mk.inj heq
    exact ⟨(String.append_right_inj _).mp hpath, ofI64_injective hvalue⟩
  constructor
  case stored => exact List.forall_mem_cons.mpr ⟨hstored, h.stored⟩
  case writable => exact hchanged.writable
  case skipped => exact hchanged.skipped h.skipped
  case waiting =>
    intro f' hskip' howners' hwaiting
    rw [hchanged.others f' howners' hskip']
    exact h.waiting f' hskip' howners' (fun v' hv' => hwaiting v' (List.mem_cons_of_mem _ hv'))
  case restored =>
    intro f' v' hskip' hmem
    rcases List.mem_cons.mp hmem with heq | hmem
    · exact absurd (Prod.mk.inj heq).1 (path_not_inside f' ownerIds key hskip' rfl)
    · have howners' : f' ≠ ownerIds := by
        rintro rfl
        obtain ⟨-, hv', hplain⟩ := stored_leaf s ownerIds v' rfl (h.stored _ hmem)
        exact hplain _ (Option.some.inj hv').symm
      rw [hchanged.others f' howners' hskip']
      exact h.restored f' v' hskip' hmem
  case owned =>
    intro key' n' hmem hdot
    rw [hget]
    rcases List.mem_cons.mp hmem with heq | hbefore
    · obtain ⟨rfl, rfl⟩ := hkey key' n' heq
      rw [if_pos ⟨rfl, hdot⟩]
    · rw [if_neg]
      · exact h.owned key' n' hbefore hdot
      · rintro ⟨rfl, -⟩
        exact hnew _ hbefore
  case owner =>
    intro key' n' hn'
    rw [hget] at hn'
    split at hn'
    · rename_i hwritten
      obtain ⟨rfl, hdot⟩ := hwritten
      cases hn'
      exact ⟨List.mem_cons_self, hdot⟩
    · obtain ⟨hmem, hdot⟩ := h.owner key' n' hn'
      exact ⟨List.mem_cons_of_mem _ hmem, hdot⟩

theorem progress_transcription : transcriptionOf t = none := by
  by_cases hdone : ∃ v, (Leaf.path transcription, v) ∈ done
  · obtain ⟨v, hv⟩ := hdone
    obtain ⟨-, hwritten, hplain⟩ := stored_leaf s transcription v rfl (h.stored _ hv)
    have hrestored := h.restored transcription v rfl hv
    rcases written_transcription s v hwritten with ⟨-, rfl⟩ | ⟨t', -, hobject⟩
    · change t transcription = none
      rw [hrestored, restoredLeaf, hwritten]
      rfl
    · exact absurd hobject (hplain _)
  · exact h.waiting transcription rfl (by decide) (fun v hv => hdone ⟨v, hv⟩)

theorem progress_enabled (t' : TranscriptionSettings)
    (hstored : Stored s (Leaf.path transcription++"."++"enabled", .bool t'.enabled)) :
    Progress crates s ((Leaf.path transcription++"."++"enabled", .bool t'.enabled)::done)
      (applySetting crates t
        (Leaf.path transcription++"."++"enabled", .bool t'.enabled)) := by
  rw [apply_enabled crates t h.writable t'.enabled (stored_path s _ hstored)
    (progress_transcription crates s t done h)]
  constructor
  case stored => exact List.forall_mem_cons.mpr ⟨hstored, h.stored⟩
  case writable => exact h.writable
  case skipped => exact h.skipped
  case waiting =>
    intro f' hskip' howners' hwaiting
    exact h.waiting f' hskip' howners' (fun v' hv' => hwaiting v' (List.mem_cons_of_mem _ hv'))
  case restored =>
    intro f' v' hskip' hmem
    rcases List.mem_cons.mp hmem with heq | hmem
    · exact absurd (Prod.mk.inj heq).1 (path_not_inside f' transcription "enabled" hskip' rfl)
    · exact h.restored f' v' hskip' hmem
  case owned =>
    intro key n hmem hdot
    rcases List.mem_cons.mp hmem with heq | hmem
    · exact absurd (Prod.mk.inj heq).1
        (inside_not_inside ownerIds transcription key "enabled" rfl rfl (by decide))
    · exact h.owned key n hmem hdot
  case owner =>
    intro key n hget
    obtain ⟨hmem, hdot⟩ := h.owner key n hget
    exact ⟨List.mem_cons_of_mem _ hmem, hdot⟩

theorem progress_step (hreads : ReadsBack crates s) (e : String × Value) (hstored : Stored s e)
    (hnew : ∀ v, (e.1, v) ∉ done) :
    Progress crates s (e::done) (applySetting crates t e) := by
  cases hstored with
  | leaf f v hskip hid hv hplain =>
    exact progress_leaf crates s t done h f v (.leaf f v hskip hid hv hplain) hskip hnew
  | owner key n hn =>
    exact progress_owner crates s t done h hreads key n hn (.owner key n hn) hnew
  | enabled t' ht' => exact progress_enabled crates s t done h t' (.enabled t' ht')

end Step

theorem progress_run (s t : Settings) (hreads : ReadsBack crates s) (done entries : Fields)
    (h : Progress crates s done t) (hstored : ∀ e ∈ entries, Stored s e)
    (hnodup : (entries.map Prod.fst).Nodup) (hnew : ∀ e ∈ entries, ∀ v, (e.1, v) ∉ done) :
    Progress crates s (entries.reverse++done) (entries.foldl (applySetting crates) t) := by
  induction entries generalizing t done with
  | nil => exact h
  | cons e rest ih =>
    rw [List.map_cons, List.nodup_cons] at hnodup
    have hstep := progress_step crates s t done h hreads e (hstored e List.mem_cons_self)
      (hnew e List.mem_cons_self)
    have hrest := ih _ _ hstep (fun e' he' => hstored e' (List.mem_cons_of_mem e he')) hnodup.2 (by
      intro e' he' v hv
      rcases List.mem_cons.mp hv with heq | hv
      · apply hnodup.1
        rw [← heq]
        exact List.mem_map.mpr ⟨e', he', rfl⟩
      · exact hnew e' (List.mem_cons_of_mem e he') v hv)
    rw [List.reverse_cons, List.append_assoc]
    exact hrest

theorem progress_fromDbMap (hreads : ReadsBack crates s) (hs : Writable s) (entries : Fields)
    (hperm : entries.Perm (toDbMap s)) :
    ∃ done, Progress crates s done (fromDbMap crates entries) ∧ ∀ e, e ∈ done ↔ Stored s e := by
  have hmem : ∀ e, e ∈ entries ↔ Stored s e := fun e => hperm.mem_iff.trans (mem_toDbMap s hs e)
  refine ⟨entries.reverse++[], ?_, ?_⟩
  · apply progress_run crates s initial hreads [] entries (progress_initial crates s)
    · exact fun e he => (hmem e).mp he
    · exact (hperm.map Prod.fst).nodup_iff.mpr (toDbMap_keys s)
    · simp
  · intro e
    rw [List.append_nil, List.mem_reverse]
    exact hmem e

theorem decode_optional_text (w : Value) (t : String) :
    (Kind.decode (.opt .text) w).getD none = some t ↔ w = .string t := by
  cases w <;> simp [Kind.decode, Shape.decode, Value.asStr]

theorem decode_optional_path (w : Value) (t : String) :
    (Kind.decode (.opt .path) w).getD none = some (.text t) ↔ w = .string t := by
  cases w <;> simp [Kind.decode, Shape.decode, Value.asStr]

theorem restored_same (path : String) (kind : Kind) (x y : kind.Carrier) (v d : Value)
    (hx : kind.encode x = some v) (hne : v ≠ .null)
    (hinfer : infer crates path (display crates v) (some d) = .ok v) :
    restoredAs crates path kind y (some d) v = x := by
  rw [restoredAs_value crates path kind y _ v hne, hinfer]
  change (kind.decode v).getD y = x
  rw [kind.decode_encode x v hx]
  rfl

/-- A text in the place of nothing comes back when it is no JSON text; every
other value comes back. -/
theorem restored_kind (path : String) (kind : Kind) (x y : kind.Carrier) (v d : Value)
    (hread : isNumberOrList v = true → crates.parse (display crates v) = .ok v)
    (hlisted : Kind.listed kind = true) (hplain : ∀ fs, v ≠ .object fs)
    (hx : kind.encode x = some v) (hy : kind.encode y = some d)
    (hblank : ∀ w, Kind.blank kind = some w → d = w) :
    restoredAs crates path kind y (some d) v = x ↔
      ∀ t, d = .null → v = .string t → jsonOrText crates t = .string t := by
  cases kind with
  | plain shape =>
    have hinfer : infer crates path (display crates v) (some d) = .ok v := by
      cases shape with
      | bool =>
        cases hx
        cases hy
        cases x <;> rfl
      | unsigned bits =>
        cases hx
        cases hy
        simp only [infer, display, printNumber, parseU64_digits, UInt64.ofNat_toNat]
      | text =>
        cases hx
        cases hy
        rfl
      | keySource =>
        cases hx
        cases hy
        rfl
      | texts =>
        cases hx
        cases hy
        simp only [infer, hread rfl]
      | owners =>
        cases hx
        exact absurd rfl (hplain _)
      | path => cases hlisted
      | transcription => cases hlisted
    have hnull : ∀ (z : (Kind.plain shape).Carrier) (w : Value),
        Kind.encode (.plain shape) z = some w → w ≠ .null := by
      rintro z w hw rfl
      exact Shape.encode_ne_null shape z hw
    exact iff_of_true (restored_same crates path _ x y v d hx (hnull x v hx) hinfer)
      (fun t hd => absurd hd (hnull y d hy))
  | opt shape =>
    have hd : d = .null := hblank _ rfl
    subst hd
    have hnone : y = none := Kind.encode_injective (.opt shape) y none .null hy rfl
    subst hnone
    cases x with
    | none =>
      cases hx
      exact iff_of_true rfl (fun t _ htext => by cases htext)
    | some t =>
      cases shape with
      | text =>
        cases hx
        rw [restoredAs_value crates path _ _ _ _ Value.noConfusion]
        constructor
        · intro h t' _ htext
          cases htext
          exact (decode_optional_text _ _).mp h
        · intro h
          exact (decode_optional_text _ _).mpr (h t rfl rfl)
      | path =>
        cases t with
        | text s =>
          cases hx
          rw [restoredAs_value crates path _ _ _ _ Value.noConfusion]
          constructor
          · intro h t' _ htext
            cases htext
            exact (decode_optional_path _ _).mp h
          · intro h
            exact (decode_optional_path _ _).mpr (h s rfl rfl)
        | raw bytes => cases hx
      | unsigned bits =>
        cases hx
        have hinfer : infer crates path (display crates (.number (.posInt t.1))) (some .null) =
            .ok (.number (.posInt t.1)) := by
          simp only [infer, jsonOrText, hread rfl]
        exact iff_of_true
          (restored_same crates path (.opt (.unsigned bits)) (some t) none _ _ rfl
            Value.noConfusion hinfer)
          (fun t' _ htext => by cases htext)
      | transcription =>
        cases hx
        exact absurd rfl (hplain _)
      | _ => cases hlisted

def masterKey : Leaf := masterKeyHex

theorem skipped_iff : f.field.skipped = true ↔ f = masterKey := by
  revert f
  rintro ⟨_ | g, i⟩
  · revert i
    decide
  · cases g <;> revert i <;> decide

theorem ownerId_text (h : f = ownerId) (s : Settings) : ∃ v, f.written s = some v := by
  subst h
  change ∃ v, Kind.encode (.opt .text) (s ownerId) = some v
  cases s ownerId with
  | none => exact ⟨.null, rfl⟩
  | some t => exact ⟨.string t, rfl⟩

structure Survives (crates : Crates) (s : Settings) : Prop where
  writable : Writable s
  texts : ∀ f t, f ≠ ownerId → f ≠ masterKey → f.written initial = some .null →
    f.written s = some (.string t) → jsonOrText crates t = .string t
  transcription : transcriptionOf s = none
  owners : ∀ key n, (ownersOf s).get key = some n → '.' ∉ key.toList

theorem restored_leaf (hreads : ReadsBack crates s) (f : Leaf) (v : Value)
    (hskip : f.field.skipped = false) (hv : f.written s = some v) (hplain : ∀ fs, v ≠ .object fs) :
    restoredLeaf crates s f = s f ↔ ∀ t, f.written initial = some .null →
      f.written s = some (.string t) → jsonOrText crates t = .string t := by
  obtain ⟨d, hd⟩ := initial_writable f hskip
  obtain ⟨hlisted, hblank⟩ := fields_blank f.1 f.field (List.get_mem _ _)
  have hdefault : ∀ w, Kind.blank f.field.kind = some w → d = w := by
    intro w hw
    rw [hw] at hblank
    have hencode : f.field.kind.encode f.field.initial = some w := by simpa using hblank
    exact Option.some.inj (hd.symm.trans hencode)
  have hkind := restored_kind crates (Leaf.path f) f.field.kind (s f) f.field.initial v d
    (hreads.fields f v hv) hlisted hplain hv hd hdefault
  rw [restoredLeaf, hv, show f.written initial = some d from hd]
  simp only [hkind, Option.some.injEq]

theorem stored_owner (key : String) (n : Int64)
    (h : Stored s (Leaf.path ownerIds++"."++key, ofI64 n)) :
    (ownersOf s).get key = some n := by
  generalize hpath : Leaf.path ownerIds++"."++key = path at h
  generalize hvalue : ofI64 n = v at h
  cases h with
  | leaf f v hskip hid hv hplain =>
    exact absurd hpath.symm (path_not_inside f ownerIds key hskip rfl)
  | owner key' n' h =>
    rw [(String.append_right_inj _).mp hpath, ofI64_injective hvalue]
    exact h
  | enabled t h =>
    exact absurd hpath
      (inside_not_inside ownerIds transcription key "enabled" rfl rfl (by decide))

theorem restored_owners (s t : Settings) (done : Fields) (h : Progress crates s done t)
    (hdone : ∀ e, e ∈ done ↔ Stored s e) :
    ownersOf t = ownersOf s ↔ ∀ key n, (ownersOf s).get key = some n → '.' ∉ key.toList := by
  constructor
  · intro hsame key n hn
    rw [← hsame] at hn
    exact (h.owner key n hn).2
  · intro hdotless
    apply owners_ext
    intro key
    cases hn : (ownersOf s).get key with
    | some n => exact h.owned key n ((hdone _).mpr (.owner key n hn)) (hdotless key n hn)
    | none =>
      rw [Option.eq_none_iff_forall_not_mem]
      intro n hget
      rw [stored_owner s key n ((hdone _).mp (h.owner key n hget).1)] at hn
      cases hn

theorem not_skipped_iff : f.field.skipped = false ↔ f ≠ masterKey := by
  rw [← Bool.not_eq_true, skipped_iff]

theorem unwritable_empty (hs : ¬Writable s) : toDbMap s = [] := by
  rw [toDbMap, toValue_none s hs]

theorem unwritable_lost (hs : ¬Writable s) :
    ∃ f, f ≠ ownerId ∧ f ≠ masterKey ∧ f.field.initial ≠ s f := by
  unfold Writable at hs
  push Not at hs
  obtain ⟨f, hskip, hf⟩ := hs
  refine ⟨f, ?_, (not_skipped_iff f).mp hskip, ?_⟩
  · intro hid
    obtain ⟨v, hv⟩ := ownerId_text f hid s
    exact hf v hv
  · intro hsame
    obtain ⟨v, hv⟩ := initial_writable f hskip
    apply hf v
    rw [Leaf.written, ← hsame]
    exact hv

/-- What is written to the database and read back in any order is as it was,
apart from two fields, exactly when nothing in it is lost on the way. -/
theorem restored_iff (hreads : ReadsBack crates s) (entries : Fields)
    (hperm : entries.Perm (toDbMap s)) :
    (∀ f, f ≠ ownerId → f ≠ masterKey → fromDbMap crates entries f = s f) ↔
      Survives crates s := by
  by_cases hs : Writable s
  · obtain ⟨done, hprogress, hdone⟩ := progress_fromDbMap crates s hreads hs entries hperm
    have howners := restored_owners crates s _ done hprogress hdone
    have hnone := progress_transcription crates s _ done hprogress
    have hleaf : ∀ f v, f ≠ ownerId → f ≠ masterKey → f.written s = some v →
        (∀ fs, v ≠ .object fs) → fromDbMap crates entries f = restoredLeaf crates s f := by
      intro f v hid hkey hv hplain
      have hskip := (not_skipped_iff f).mpr hkey
      exact hprogress.restored f v hskip ((hdone _).mpr (.leaf f v hskip hid hv hplain))
    constructor
    · intro hall
      constructor
      case writable => exact hs
      case texts =>
        intro f t hid hkey hinitial htext
        have hskip := (not_skipped_iff f).mpr hkey
        have hplain : ∀ fs, Value.string t ≠ .object fs := fun fs => Value.noConfusion
        have hrestored := hleaf f _ hid hkey htext hplain
        rw [hall f hid hkey] at hrestored
        exact (restored_leaf crates s hreads f _ hskip htext hplain).mp hrestored.symm t hinitial
          htext
      case transcription => exact (hall transcription (by decide) (by decide)).symm.trans hnone
      case owners => exact howners.mp (hall ownerIds (by decide) (by decide))
    · intro h f hid hkey
      have hskip := (not_skipped_iff f).mpr hkey
      obtain ⟨v, hv⟩ := hs f hskip
      by_cases hobject : ∃ fs, v = .object fs
      · obtain ⟨fs, rfl⟩ := hobject
        rcases encode_object f (s f) fs hv with rfl | rfl
        · exact howners.mpr h.owners
        · exact hnone.trans h.transcription.symm
      · have hplain : ∀ fs, v ≠ .object fs := fun fs heq => hobject ⟨fs, heq⟩
        rw [hleaf f v hid hkey hv hplain, restored_leaf crates s hreads f v hskip hv hplain]
        intro t hinitial htext
        exact h.texts f t hid hkey hinitial htext
  · rw [unwritable_empty s hs, List.perm_nil] at hperm
    subst hperm
    constructor
    · intro hall
      obtain ⟨f, hid, hkey, hne⟩ := unwritable_lost s hs
      exact absurd (hall f hid hkey) hne
    · intro h
      exact absurd h.writable hs

theorem masterKey_lost (hreads : ReadsBack crates s) (entries : Fields)
    (hperm : entries.Perm (toDbMap s)) :
    fromDbMap crates entries masterKey = masterKey.field.initial := by
  by_cases hs : Writable s
  · obtain ⟨done, hprogress, -⟩ := progress_fromDbMap crates s hreads hs entries hperm
    exact hprogress.skipped masterKey rfl
  · rw [unwritable_empty s hs, List.perm_nil] at hperm
    subst hperm
    rfl

/-- The settings after the way through the database, in any order of the map.
They are as before in every field except two exactly when they survive, and the
master key is never kept. -/
theorem database_laws (hreads : ReadsBack crates s) (entries : Fields)
    (hperm : entries.Perm (toDbMap s)) :
    ((∀ f, f ≠ ownerId → f ≠ masterKey → fromDbMap crates entries f = s f) ↔
      Survives crates s) ∧
    fromDbMap crates entries masterKey = masterKey.field.initial :=
  ⟨restored_iff crates s hreads entries hperm, masterKey_lost crates s hreads entries hperm⟩

def numeralCrates : Crates :=
  { sampleCrates with
    parse := fun s =>
      match McpTransport.parseU64 s with
      | some n => .ok (.number (.posInt (UInt64.ofNat n)))
      | none => sampleCrates.parse s }

def defaultReadable : Value → Bool
  | .number (.posInt _) => true
  | .number _ => false
  | .array xs => xs.isEmpty
  | _ => true

theorem fields_readable (part : Option Group) (field : Field) (h : field ∈ fields part) :
    (field.kind.encode field.initial).all defaultReadable = true := by
  revert field
  rcases part with _ | g
  · decide
  · cases g <;> decide

theorem numerals_read (n : UInt64) :
    numeralCrates.parse (display numeralCrates (.number (.posInt n))) =
      .ok (.number (.posInt n)) := by
  simp only [numeralCrates, display, printNumber, parseU64_digits, UInt64.ofNat_toNat]

theorem readable_read (h : defaultReadable v = true) (hv : isNumberOrList v = true) :
    numeralCrates.parse (display numeralCrates v) = .ok v := by
  cases v with
  | number n =>
    cases n with
    | posInt n => exact numerals_read n
    | _ => cases h
  | array xs =>
    cases xs with
    | nil => decide
    | cons x xs => cases h
  | _ => cases hv

/-- Settings that differ from the defaults in no number and no list. -/
theorem numerals_readsBack (hfields : ∀ f, s f = f.field.initial ∨
      ∀ v, f.written s = some v → isNumberOrList v = false)
    (howners : ∀ key n, (ownersOf s).get key = some n → 0 ≤ n.toInt) :
    ReadsBack numeralCrates s where
  fields := by
    intro f v hv hread
    rcases hfields f with hsame | hother
    · have hall := fields_readable f.1 f.field (List.get_mem _ _)
      rw [Leaf.written, hsame] at hv
      rw [hv] at hall
      exact readable_read v hall hread
    · rw [hother v hv] at hread
      cases hread
  owners := by
    intro key n hn
    unfold ofI64
    rw [if_pos (howners key n hn)]
    exact numerals_read _

theorem changed_readsBack (hx : ∀ v, f.field.kind.encode x = some v → isNumberOrList v = false)
    (howners : ∀ key n, (ownersOf (Function.update initial f x)).get key = some n → 0 ≤ n.toInt) :
    ReadsBack numeralCrates (Function.update initial f x) := by
  apply numerals_readsBack _ _ howners
  intro f'
  by_cases hf : f' = f
  · subst hf
    right
    intro v hv
    rw [Leaf.written, Function.update_self] at hv
    exact hx v hv
  · exact .inl (Function.update_of_ne hf _ _)

theorem changed_owners (hf : ownerIds ≠ f) (key : String) (n : Int64) :
    (ownersOf (Function.update initial f x)).get key ≠ some n := by
  rw [ownersOf, Function.update_of_ne hf]
  exact fun h => by cases h

theorem unowned_readsBack (hf : ownerIds ≠ f)
    (hx : ∀ v, f.field.kind.encode x = some v → isNumberOrList v = false) :
    ReadsBack numeralCrates (Function.update initial f x) :=
  changed_readsBack f x hx (fun key n hn => absurd hn (changed_owners f x hf key n))

theorem changed_writable (hx : ∃ v, f.field.kind.encode x = some v) :
    Writable (Function.update initial f x) := by
  intro f' hskip
  by_cases hf : f' = f
  · subst hf
    rw [Leaf.written, Function.update_self]
    exact hx
  · rw [Leaf.written, Function.update_of_ne hf]
    exact initial_writable f' hskip

def agentName : Leaf := ⟨some .agent, ⟨0, by decide⟩⟩

def nameOf (name : String) : agentName.field.kind.Carrier := name

def named : Settings := Function.update initial agentName (nameOf "jarvis")

theorem named_survives : Survives numeralCrates named where
  writable := changed_writable agentName _ ⟨_, rfl⟩
  texts := by
    intro f t _ _ hinitial htext
    by_cases hf : f = agentName
    · subst hf
      cases hinitial
    · rw [Leaf.written, named, Function.update_of_ne hf] at htext
      cases hinitial.symm.trans htext
  transcription := by
    rw [transcriptionOf, named, Function.update_of_ne (by decide)]
    rfl
  owners := fun key n hn => absurd hn (changed_owners agentName _ (by decide) key n)

theorem database_laws_named :
    (∀ f, f ≠ ownerId → f ≠ masterKey →
      fromDbMap numeralCrates (toDbMap named) f = named f) ∧
    fromDbMap numeralCrates (toDbMap named) masterKey = masterKey.field.initial := by
  have hreads : ReadsBack numeralCrates named :=
    unowned_readsBack agentName _ (by decide) (fun v hv => by cases hv; rfl)
  have hlaws := database_laws numeralCrates named hreads (toDbMap named) (List.Perm.refl _)
  exact ⟨hlaws.1.mpr named_survives, hlaws.2⟩

def keyOf (hex : String) : masterKey.field.kind.Carrier := some hex

def keyed : Settings := Function.update initial masterKey (keyOf "00ff")

def nullBacked : Settings := Function.update initial llmBackend (textOf (some "null"))

def enabledOf (t : TranscriptionSettings) : transcription.field.kind.Carrier := some t

def transcribing : Settings := Function.update initial transcription (enabledOf ⟨true⟩)

def oneOwner (key : String) : ownerIds.field.kind.Carrier :=
  (⟨[(key, 7)], List.pairwise_singleton _ _⟩ : Owners)

def dotted : Settings := Function.update initial ownerIds (oneOwner "team.ops")

/-- The master key is left out on purpose. A text that reads as JSON, the
transcription settings and an owner with a dot in its key are lost as well. -/
theorem settings_lost :
    fromDbMap numeralCrates (toDbMap keyed) masterKey ≠ keyed masterKey ∧
    fromDbMap numeralCrates (toDbMap nullBacked) llmBackend ≠ nullBacked llmBackend ∧
    fromDbMap numeralCrates (toDbMap transcribing) transcription ≠ transcribing transcription ∧
    fromDbMap numeralCrates (toDbMap dotted) ownerIds ≠ dotted ownerIds := by
  refine ⟨?_, ?_, ?_, ?_⟩
  · have hlost := masterKey_lost numeralCrates keyed
      (unowned_readsBack masterKey _ (by decide) (fun v hv => by cases hv; rfl))
      (toDbMap keyed) (List.Perm.refl _)
    rw [hlost, keyed, Function.update_self]
    exact fun h => by cases h
  · obtain ⟨done, hprogress, hdone⟩ := progress_fromDbMap numeralCrates nullBacked
      (unowned_readsBack llmBackend _ (by decide) (fun v hv => by cases hv; rfl))
      (changed_writable llmBackend _ ⟨_, rfl⟩) (toDbMap nullBacked) (List.Perm.refl _)
    have hwritten : llmBackend.written nullBacked = some (.string "null") := by
      rw [Leaf.written, nullBacked, Function.update_self]
      rfl
    have hrestored := hprogress.restored llmBackend (.string "null") rfl ((hdone _).mpr
      (.leaf llmBackend _ rfl (by decide) hwritten (fun fs => Value.noConfusion)))
    rw [hrestored, restoredLeaf, hwritten, nullBacked, Function.update_self]
    exact fun h => by cases h
  · obtain ⟨done, hprogress, -⟩ := progress_fromDbMap numeralCrates transcribing
      (unowned_readsBack transcription _ (by decide) (fun v hv => by cases hv; rfl))
      (changed_writable transcription _ ⟨_, rfl⟩) (toDbMap transcribing) (List.Perm.refl _)
    have hnone := progress_transcription numeralCrates transcribing _ done hprogress
    rw [transcribing, Function.update_self]
    exact fun h => by cases hnone.symm.trans h
  · have hget : (ownersOf dotted).get "team.ops" = some 7 := by
      rw [ownersOf, dotted, Function.update_self]
      decide
    have howners : ∀ key n, (ownersOf dotted).get key = some n → 0 ≤ n.toInt := by
      intro key n hn
      rw [ownersOf, dotted, Function.update_self] at hn
      obtain ⟨e, he, rfl⟩ := Option.map_eq_some_iff.mp hn
      rw [List.mem_singleton.mp (List.mem_of_find?_eq_some he)]
      decide
    obtain ⟨done, hprogress, -⟩ := progress_fromDbMap numeralCrates dotted
      (changed_readsBack ownerIds _ (fun v hv => by cases hv; rfl) howners)
      (changed_writable ownerIds _ ⟨_, rfl⟩) (toDbMap dotted) (List.Perm.refl _)
    intro h
    rw [← show ownersOf _ = ownersOf dotted from h] at hget
    exact (hprogress.owner "team.ops" 7 hget).2 (by decide)

end IronClaw.SettingsStore
