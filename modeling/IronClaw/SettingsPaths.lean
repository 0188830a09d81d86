import IronClaw.SettingsLayers
import IronClaw.JsonText
import IronClaw.Coercion
import IronClaw.McpTransport

/-!
# Reading and writing settings by their paths

`Settings::get`, `set` and `reset`. A path leads through the JSON tree; a value
is read by the type that stands at its end, put into the tree, and the tree is
read back as settings. Keys that no field has are dropped on the way, so a
write that succeeds need not be there afterwards. Reading and printing JSON
belong to the crate.
-/

set_option autoImplicit false

namespace IronClaw.SettingsPaths
open IronClaw.JsonValue IronClaw.JsonMap IronClaw.JsonText
open IronClaw.SettingsTree IronClaw.SettingsLayers

/-- `serde_json` with the texts of its errors, and the reader of floats. -/
structure Crates where
  parse : String → Except String Value
  floats : FloatPrinter
  parseFloat : String → Option UInt64
  writeError : Settings → String
  applyError : Value → String

def segments (path : String) : List String := (path.toList.splitOn '.').map String.ofList

def find : List String → Value → Option Value
  | [], v => some v
  | key::rest, v => (v.get key).bind (find rest)

def parseBool (s : String) : Option Bool :=
  if s = "true" then some true else if s = "false" then some false else none

section Access

variable (crates : Crates)

def display : Value → String
  | .string s => s
  | .number n => String.ofList (printNumber crates.floats n)
  | .bool b => if b then "true" else "false"
  | .null => "null"
  | v => String.ofList (printValue crates.floats v)

def valueAt (s : Settings) (path : String) : Option Value :=
  (toValue s).bind (find (segments path))

def get (s : Settings) (path : String) : Option String :=
  (valueAt s path).map (display crates)

def jsonOrText (value : String) : Value :=
  match crates.parse value with
  | .ok v => v
  | .error _ => .string value

def infer (path value : String) : Option Value → Except String Value
  | some (.bool _) =>
    match parseBool value with
    | some b => .ok (.bool b)
    | none => .error ("Expected boolean for "++path++", got '"++value++"'")
  | some (.number (.posInt _)) =>
    match McpTransport.parseU64 value with
    | some n => .ok (.number (.posInt (UInt64.ofNat n)))
    | none => .error ("Expected integer for "++path++", got '"++value++"'")
  | some (.number (.negInt _)) =>
    match Coercion.parseI64 value with
    | some n => .ok (Coercion.Value.ofInt n)
    | none => .error ("Expected integer for "++path++", got '"++value++"'")
  | some (.number (.float _)) =>
    match crates.parseFloat value with
    | some bits =>
      .ok (if (bits >>> 52) &&& 0x7FF ≠ 0x7FF then .number (.float bits) else .string value)
    | none => .error ("Expected number for "++path++", got '"++value++"'")
  | some .null => .ok (jsonOrText crates value)
  | some (.array _) =>
    match crates.parse value with
    | .ok v => .ok v
    | .error e => .error ("Invalid JSON array for "++path++": "++e)
  | some (.object _) =>
    match crates.parse value with
    | .ok v => .ok v
    | .error e => .error ("Invalid JSON object for "++path++": "++e)
  | some (.string _) => .ok (.string value)
  | none => .ok (jsonOrText crates value)

def assign (path value : String) : List String → Option Value → Except String Value
  | [], existing => infer crates path value existing
  | key::rest, some (.object fields) =>
    match assign path value rest (lookup key fields) with
    | .ok w => .ok (.object (insert key w fields))
    | .error e => .error e
  | [_], some _ => .error ("Parent is not an object: "++path)
  | _::_, _ => .error ("Path not found: "++path)

def set (s : Settings) (path value : String) : Except String Unit × Settings :=
  match toValue s with
  | none => (.error ("Failed to serialize settings: "++crates.writeError s), s)
  | some root =>
    match segments path with
    | [] => (.error "Empty path", s)
    | parts => match assign crates path value parts (some root) with
      | .error e => (.error e, s)
      | .ok json => match fromValue json with
        | none => (.error ("Failed to apply setting: "++crates.applyError json), s)
        | some s' => (.ok (), s')

def reset (s : Settings) (path : String) : Except String Unit × Settings :=
  match get crates initial path with
  | none => (.error ("Unknown setting: "++path), s)
  | some value => set crates s path value

end Access

section Trees

variable (crates : Crates)

/-- What a write can do. -/
theorem set_cases (s : Settings) (path value : String) :
    (∃ e, set crates s path value = (.error e, s)) ∨
    ∃ root key rest json s', toValue s = some root ∧ segments path = key::rest ∧
      assign crates path value (key::rest) (some root) = .ok json ∧
      fromValue json = some s' ∧ set crates s path value = (.ok (), s') := by
  unfold set
  cases toValue s with
  | none => exact Or.inl ⟨_, rfl⟩
  | some root =>
    cases segments path with
    | nil => exact Or.inl ⟨_, rfl⟩
    | cons key rest =>
      cases hjson : assign crates path value (key::rest) (some root) with
      | error e => exact Or.inl ⟨e, by simp only [hjson]⟩
      | ok json =>
        cases hread : fromValue json with
        | none => exact Or.inl ⟨_, by simp only [hjson, hread]; rfl⟩
        | some s' => exact Or.inr ⟨root, key, rest, json, s', rfl, rfl, hjson, hread,
            by simp only [hjson, hread]⟩

theorem set_failed (s : Settings) (path value e : String)
    (h : (set crates s path value).1 = .error e) : (set crates s path value).2 = s := by
  rcases set_cases crates s path value with ⟨e', heq⟩ | ⟨_, _, _, _, s', _, _, _, _, heq⟩
  · rw [heq]
  · rw [heq] at h
    cases h

theorem assign_cons (path value key : String) (rest : List String) (v w : Value)
    (h : assign crates path value (key::rest) (some v) = .ok w) :
    ∃ fields u, v = .object fields ∧
      assign crates path value rest (lookup key fields) = .ok u ∧
      w = .object (insert key u fields) := by
  cases v with
  | object fields =>
    rw [assign] at h
    split at h
    · rename_i u hu
      cases h
      exact ⟨fields, u, rfl, hu, rfl⟩
    · cases h
  | _ => cases rest <;> cases h

theorem assign_below (path value key : String) (rest : List String) (existing : Option Value)
    (w : Value) (h : assign crates path value (key::rest) existing = .ok w) :
    ∃ v, existing = some v := by
  cases existing with
  | some v => exact ⟨v, rfl⟩
  | none => cases rest <;> cases h

def Unrelated (p q : List String) : Prop := ¬p <+: q ∧ ¬q <+: p

theorem unrelated_cons (key : String) (p q : List String) (h : Unrelated (key::p) (key::q)) :
    Unrelated p q := by
  refine ⟨fun hpq => h.1 ?_, fun hqp => h.2 ?_⟩
  · exact List.cons_prefix_cons.mpr ⟨rfl, hpq⟩
  · exact List.cons_prefix_cons.mpr ⟨rfl, hqp⟩

/-- What a write leaves alone in the tree. -/
theorem assign_frame (path value : String) (p q : List String) (v w : Value)
    (h : assign crates path value p (some v) = .ok w) (hq : Unrelated p q) :
    find q w = find q v := by
  induction p generalizing q v w with
  | nil => exact absurd List.nil_prefix hq.1
  | cons key rest ih =>
    obtain ⟨fields, u, rfl, hu, rfl⟩ := assign_cons crates path value key rest v w h
    cases q with
    | nil => exact absurd List.nil_prefix hq.2
    | cons k q =>
      simp only [find, Value.get, lookup_insert]
      by_cases hk : k = key
      · subst hk
        have hrest := unrelated_cons k rest q hq
        cases rest with
        | nil => exact absurd List.nil_prefix hrest.1
        | cons k' rest =>
          obtain ⟨child, hchild⟩ := assign_below crates path value k' rest _ u hu
          rw [hchild] at hu ⊢
          rw [if_pos rfl]
          exact ih q child u hu hrest
      · rw [if_neg hk]

/-- What a write does at a place on its path. -/
theorem assign_through (path value : String) (p r : List String) (v w : Value)
    (h : assign crates path value (p++r) (some v) = .ok w) :
    ∃ u, assign crates path value r (find p v) = .ok u ∧ find p w = some u := by
  induction p generalizing v w with
  | nil => exact ⟨w, h, rfl⟩
  | cons key p ih =>
    obtain ⟨fields, u, rfl, hu, rfl⟩ := assign_cons crates path value key (p++r) v w h
    simp only [find, Value.get, lookup_insert_self, Option.bind_some]
    cases p with
    | nil =>
      refine ⟨u, ?_, rfl⟩
      cases hl : lookup key fields <;> simpa [hl, find] using hu
    | cons k p =>
      obtain ⟨child, hchild⟩ := assign_below crates path value k (p++r) _ u hu
      rw [hchild] at hu ⊢
      exact ih child u hu

def parts (f : Leaf) : List String :=
  match f.1 with
  | none => [f.key]
  | some g => [g.key, f.key]

theorem key_cases (part : Option Group) (key : String) (h : key ∈ keysOf part) :
    (∃ f : Leaf, f.1 = part ∧ f.field.skipped = false ∧ f.key = key) ∨
      (part = none ∧ ∃ g : Group, g.key = key) := by
  rw [keysOf, List.mem_append] at h
  rcases h with h | h
  · left
    obtain ⟨field, hfield, rfl⟩ := List.mem_map.mp h
    obtain ⟨hmem, hskip⟩ := List.mem_filter.mp hfield
    obtain ⟨i, hi⟩ := List.mem_iff_get.mp hmem
    refine ⟨⟨part, i⟩, rfl, ?_, ?_⟩
    · rw [Leaf.field, hi]
      simpa using hskip
    · rw [Leaf.key, Leaf.field, hi]
  · right
    split at h
    · rename_i hpart
      obtain ⟨g, -, hg⟩ := List.mem_map.mp h
      exact ⟨hpart, g, hg⟩
    · cases h

def Unknown (q : List String) : Prop :=
  (∃ key r, q = key::r ∧ key ∉ keysOf none) ∨
    ∃ (g : Group) (key : String) (r : List String), q = g.key::key::r ∧ key ∉ keysOf (some g)

theorem classify (key : String) (q : List String) :
    (∃ f : Leaf, f.field.skipped = false ∧ ∃ r, key::q = parts f++r) ∨
      (∃ g : Group, key::q = [g.key]) ∨ Unknown (key::q) := by
  by_cases hkey : key ∈ keysOf none
  · rcases key_cases none key hkey with ⟨f, hpart, hskip, rfl⟩ | ⟨-, g, rfl⟩
    · exact Or.inl ⟨f, hskip, q, by rw [parts, hpart]; rfl⟩
    · cases q with
      | nil => exact Or.inr (Or.inl ⟨g, rfl⟩)
      | cons k q =>
        by_cases hk : k ∈ keysOf (some g)
        · rcases key_cases (some g) k hk with ⟨f, hpart, hskip, rfl⟩ | ⟨hpart, -⟩
          · exact Or.inl ⟨f, hskip, q, by rw [parts, hpart]; rfl⟩
          · cases hpart
        · exact Or.inr (Or.inr (Or.inr ⟨g, k, q, rfl, hk⟩))
  · exact Or.inr (Or.inr (Or.inl ⟨key, q, rfl, hkey⟩))

section Found

variable (s : Settings) (root : Fields) (tree : Tree s root)

include tree

theorem find_leaf (f : Leaf) (hskip : f.field.skipped = false) (r : List String) :
    find (parts f++r) (.object root) = (f.written s).bind (find r) := by
  rw [← tree.written f hskip, parts]
  cases hpart : f.1 with
  | none => rfl
  | some g =>
    show (lookup g.key root).bind _ = _
    rw [tree.group g]
    rfl

theorem find_group (g : Group) :
    find [g.key] (.object root) = some (.object (partFields root (some g))) := by
  show (lookup g.key root).bind _ = _
  rw [tree.group g]
  rfl

theorem find_unknown (q : List String) (hq : Unknown q) : find q (.object root) = none := by
  rcases hq with ⟨key, r, rfl, hkey⟩ | ⟨g, key, r, rfl, hkey⟩
  · show (lookup key root).bind _ = none
    rw [show lookup key root = none from tree.other none key hkey]
    rfl
  · show (lookup g.key root).bind _ = none
    rw [tree.group g]
    show (lookup key (partFields root (some g))).bind _ = none
    rw [tree.other (some g) key hkey]
    rfl

end Found

/-- A field that is in the tree was read from there. -/
theorem decodeLeaf_found (f : Leaf) (root : Fields) (v : Value)
    (x : f.field.kind.Carrier) (hfind : find (parts f) (.object root) = some v)
    (h : decodeLeaf (.object root) f = some x) : f.field.kind.decode v = some x := by
  have hpart : ∃ fs, partOf (.object root) f.1 = .object fs ∧ lookup f.key fs = some v := by
    unfold parts at hfind
    cases hp : f.1 with
    | none =>
      rw [hp] at hfind
      exact ⟨root, rfl, by simpa [find, Value.get] using hfind⟩
    | some g =>
      rw [hp] at hfind
      obtain ⟨w, hw, hfind⟩ := Option.bind_eq_some_iff.mp hfind
      obtain ⟨u, hu, hfind⟩ := Option.bind_eq_some_iff.mp hfind
      cases hfind
      cases w with
      | object fs => exact ⟨fs, by simp [partOf, hw], hu⟩
      | _ => cases hu
  obtain ⟨fs, hfs, hkey⟩ := hpart
  rw [decodeLeaf, hfs] at h
  have hmember : ∀ r, member (f.field.key::f.field.aliases) f.2.val (fields f.1).length
      (.object fs) = some r → r = some v := by
    intro r hr
    have hcons : (f.field.key::f.field.aliases).filterMap (fun key => lookup key fs) =
        v::f.field.aliases.filterMap (fun key => lookup key fs) := by
      simp [show lookup f.field.key fs = some v from hkey]
    rw [member, hcons] at hr
    split at hr
    · rename_i heq
      cases heq
    · rename_i heq
      rw [← Option.some.inj hr, (List.cons.inj heq).1]
    · cases hr
  split at h
  · cases h
  · rename_i heq
    cases hmember _ heq
  · rename_i w heq
    cases hmember _ heq
    exact h

end Trees

theorem Shape.decode_encodable (shape : Shape) (v : Value) (x : shape.Carrier)
    (h : shape.decode v = some x) : ∃ u, shape.encode x = some u := by
  cases shape with
  | path =>
    obtain ⟨s, -, rfl⟩ := Option.map_eq_some_iff.mp h
    exact ⟨_, rfl⟩
  | _ => exact ⟨_, rfl⟩

theorem Kind.decode_encodable (kind : Kind) (v : Value) (x : kind.Carrier)
    (h : kind.decode v = some x) : ∃ u, kind.encode x = some u := by
  cases kind with
  | plain shape => exact Shape.decode_encodable shape v x h
  | opt shape =>
    cases x with
    | none => exact ⟨.null, rfl⟩
    | some y =>
      have hy : shape.decode v = some y := by
        cases v with
        | null => cases h
        | _ =>
          obtain ⟨z, hz, heq⟩ := Option.map_eq_some_iff.mp h
          rw [hz, ← Option.some.inj heq]
      exact Shape.decode_encodable shape v y hy

theorem decodeLeaf_encodable (root : Value) (f : Leaf) (x : f.field.kind.Carrier)
    (h : decodeLeaf root f = some x) : ∃ u, f.field.kind.encode x = some u := by
  unfold decodeLeaf at h
  split at h
  · cases h
  · cases h
    exact Option.isSome_iff_exists.mp (fields_initial f.1 f.field (List.get_mem _ _))
  · exact Kind.decode_encodable _ _ x h

theorem fromValue_writable (root : Value) (s : Settings) (h : fromValue root = some s) :
    Writable s := by
  intro f _
  cases root with
  | object fs => exact decodeLeaf_encodable _ f (s f) ((fromValue_iff fs s).mp h f)
  | _ => cases h

theorem asStr_string (v : Value) (s : String) (h : v.asStr = some s) : Value.string s = v := by
  cases v <;> cases h
  rfl

/-- Shapes with one form only: what is read is written the same way. -/
theorem Shape.encode_decode (shape : Shape) (v : Value) (x : shape.Carrier)
    (hshape : shape ≠ .transcription) (hv : shape = .keySource → ∃ name, v = .string name)
    (h : shape.decode v = some x) : shape.encode x = some v := by
  cases shape with
  | bool =>
    cases v <;> cases h
    rfl
  | unsigned bits =>
    change asUnsigned bits v = some x at h
    unfold asUnsigned at h
    split at h
    · split at h
      · cases h
        rfl
      · cases h
    · cases h
  | text => exact congrArg some (asStr_string v x h)
  | path =>
    obtain ⟨s, hs, rfl⟩ := Option.map_eq_some_iff.mp h
    exact congrArg some (asStr_string v s hs)
  | keySource =>
    obtain ⟨name, rfl⟩ := hv rfl
    exact congrArg (fun n => some (Value.string n)) (name_ofName name x h)
  | texts =>
    cases v with
    | array xs =>
      exact congrArg (fun ys => some (Value.array ys)) (map_mapM Value.string Value.asStr asStr_string xs x h)
    | _ => cases h
  | owners =>
    cases v with
    | object fs =>
      change asOwners (.object fs) = some x at h
      unfold asOwners at h
      simp only at h
      split at h
      · rename_i entries hentries
        split at h
        · cases h
          have hmap := map_mapM (fun e : String × Int64 => (e.1, ofI64 e.2))
            (fun f : String × Value => (asI64 f.2).map (fun n => (f.1, n))) (by
              intro f e he
              obtain ⟨n, hn, rfl⟩ := Option.map_eq_some_iff.mp he
              exact Prod.ext rfl (ofI64_asI64 f.2 n hn)) fs entries hentries
          exact congrArg (fun ys => some (Value.object ys)) hmap
        · cases h
      · cases h
    | _ => cases h
  | transcription => exact absurd rfl hshape

def Kind.shape : Kind → Shape
  | .plain shape => shape
  | .opt shape => shape

theorem Kind.encode_decode (kind : Kind) (v : Value) (x : kind.Carrier)
    (hshape : Kind.shape kind ≠ .transcription)
    (hv : Kind.shape kind = .keySource → ∃ name, v = .string name)
    (h : kind.decode v = some x) : kind.encode x = some v := by
  cases kind with
  | plain shape => exact Shape.encode_decode shape v x hshape hv h
  | opt shape =>
    cases v with
    | null =>
      cases h
      rfl
    | _ =>
      obtain ⟨y, hy, rfl⟩ := Option.map_eq_some_iff.mp h
      exact Shape.encode_decode shape _ y hshape hv hy

section Written

variable (crates : Crates) (path value : String) (p : List String) (s s' : Settings)
  (root : Fields) (json : Value) (tree : Tree s root)
  (hassign : assign crates path value p (some (.object root)) = .ok json)
  (hread : fromValue json = some s')

include tree hassign hread

/-- A field that the path neither leads to nor from keeps its value. -/
theorem leaf_away (f : Leaf) (hskip : f.field.skipped = false) (hs : Writable s)
    (hp : Unrelated p (parts f)) : s' f = s f := by
  obtain ⟨v, hv⟩ := hs f hskip
  have hfind : find (parts f) json = some v := by
    have hroot := find_leaf s root tree f hskip []
    rw [List.append_nil] at hroot
    rw [assign_frame crates path value p (parts f) _ json hassign hp, hroot, hv]
    rfl
  cases json with
  | object fs =>
    have hdecode := decodeLeaf_found f fs v (s' f) hfind ((fromValue_iff fs s').mp hread f)
    rw [f.field.kind.decode_encode (s f) v hv] at hdecode
    exact (Option.some.inj hdecode).symm
  | _ => cases hread

/-- A field that the path leads into is read from what was put there. -/
theorem leaf_within (f : Leaf) (hskip : f.field.skipped = false) (hs : Writable s)
    (r : List String) (hp : p = parts f++r) :
    ∃ u u', f.written s = some u ∧ assign crates path value r (some u) = .ok u' ∧
      f.field.kind.decode u' = some (s' f) := by
  obtain ⟨u, hu⟩ := hs f hskip
  rw [hp] at hassign
  obtain ⟨u', hassign', hfind⟩ := assign_through crates path value (parts f) r _ json hassign
  have hroot := find_leaf s root tree f hskip []
  rw [List.append_nil] at hroot
  rw [hroot, hu] at hassign'
  refine ⟨u, u', hu, hassign', ?_⟩
  cases json with
  | object fs => exact decodeLeaf_found f fs u' (s' f) hfind ((fromValue_iff fs s').mp hread f)
  | _ => cases hread

end Written

def transcription : Leaf := ⟨none, ⟨17, by decide⟩⟩

def transcriptionOf (s : Settings) : Option TranscriptionSettings := s transcription

def transcriptionValue (t : TranscriptionSettings) : Value := .object [("enabled", .bool t.enabled)]

theorem shape_transcription (f : Leaf) (h : Kind.shape f.field.kind = .transcription) :
    f = transcription := by
  revert f
  rintro ⟨_ | g, i⟩ h
  · revert i; decide
  · cases g <;> revert i <;> decide

theorem shape_keySource (f : Leaf) (h : Kind.shape f.field.kind = .keySource) :
    f.field.kind = .plain .keySource ∧ f.1 = none := by
  revert f
  rintro ⟨_ | g, i⟩ h
  · revert i; decide
  · cases g <;> revert i <;> decide

theorem shape_owners (f : Leaf) (h : Kind.shape f.field.kind = .owners) : f = ownerIds := by
  revert f
  rintro ⟨_ | g, i⟩ h
  · revert i; decide
  · cases g <;> revert i <;> decide

theorem Shape.encode_object (shape : Shape) (x : shape.Carrier) (fs : Fields)
    (h : shape.encode x = some (.object fs)) : shape = .owners ∨ shape = .transcription := by
  cases shape with
  | path => cases x <;> cases h
  | owners => exact Or.inl rfl
  | transcription => exact Or.inr rfl
  | _ => cases h

theorem encode_object (f : Leaf) (x : f.field.kind.Carrier) (fs : Fields)
    (h : f.field.kind.encode x = some (.object fs)) : f = ownerIds ∨ f = transcription := by
  have hshape : Kind.shape f.field.kind = .owners ∨ Kind.shape f.field.kind = .transcription := by
    generalize f.field.kind = kind at x h
    cases kind with
    | plain shape => exact Shape.encode_object shape x fs h
    | opt shape =>
      cases x with
      | none => cases h
      | some y => exact Shape.encode_object shape y fs h
  exact hshape.imp (shape_owners f) (shape_transcription f)

theorem assign_inside (crates : Crates) (path value key : String) (r : List String) (f : Leaf)
    (x : f.field.kind.Carrier) (u u' : Value) (hu : f.field.kind.encode x = some u)
    (h : assign crates path value (key::r) (some u) = .ok u') : f = ownerIds ∨ f = transcription := by
  obtain ⟨fs, w, rfl, -, -⟩ := assign_cons crates path value key r u u' h
  exact encode_object f x fs hu

/-- Whatever is read for a field other than the transcription settings stands
in the tree as it was put there. -/
theorem leaf_rewritten (crates : Crates) (path value : String) (r : List String) (f : Leaf)
    (hf : f ≠ transcription) (x y : f.field.kind.Carrier) (u u' : Value)
    (hu : f.field.kind.encode x = some u)
    (hassign : assign crates path value r (some u) = .ok u')
    (hread : f.field.kind.decode u' = some y) : f.field.kind.encode y = some u' := by
  refine Kind.encode_decode f.field.kind u' y (fun h => hf (shape_transcription f h)) ?_ hread
  intro hshape
  obtain ⟨hkind, hpart⟩ := shape_keySource f hshape
  have hstring : ∃ name, u = .string name := by
    clear hread
    revert x
    rw [hkind]
    intro x hu
    cases hu
    exact ⟨_, rfl⟩
  obtain ⟨name, rfl⟩ := hstring
  cases r with
  | nil =>
    cases hassign
    exact ⟨value, rfl⟩
  | cons key r =>
    obtain ⟨fs, w, hfs, -, -⟩ := assign_cons crates path value key r _ u' hassign
    cases hfs

/-- An object that is read as transcription settings. -/
theorem decode_transcription (fs : Fields) (t : Option TranscriptionSettings)
    (h : transcription.field.kind.decode (.object fs) = some t) :
    ∃ b, t = some ⟨b⟩ ∧ (lookup "enabled" fs = some (.bool b) ∨
      (lookup "enabled" fs = none ∧ b = false)) := by
  change (asTranscription (.object fs)).map some = some t at h
  obtain ⟨y, hy, rfl⟩ := Option.map_eq_some_iff.mp h
  rw [asTranscription, member_sole "enabled" [] 0 1 fs (by simp)] at hy
  cases hkey : lookup "enabled" fs with
  | none =>
    rw [hkey] at hy
    cases hy
    exact ⟨false, rfl, Or.inr ⟨rfl, rfl⟩⟩
  | some v =>
    rw [hkey] at hy
    obtain ⟨b, hb, rfl⟩ := Option.map_eq_some_iff.mp hy
    refine ⟨b, rfl, Or.inl ?_⟩
    cases v <;> cases hb
    rfl

theorem encode_transcription (x : transcription.field.kind.Carrier) (fs : Fields)
    (h : transcription.field.kind.encode x = some (.object fs)) :
    ∃ t : TranscriptionSettings, fs = [("enabled", .bool t.enabled)] := by
  change Kind.encode (.opt .transcription) x = _ at h
  cases x with
  | none => cases h
  | some t =>
    cases h
    exact ⟨t, rfl⟩

/-- What a write leaves alone inside a field. -/
theorem leaf_frame (crates : Crates) (path value : String) (r q : List String) (f : Leaf)
    (x y : f.field.kind.Carrier) (u u' u'' : Value) (hu : f.field.kind.encode x = some u)
    (hassign : assign crates path value r (some u) = .ok u')
    (hread : f.field.kind.decode u' = some y) (hu'' : f.field.kind.encode y = some u'')
    (hq : Unrelated r q) : find q u'' = find q u := by
  cases r with
  | nil => exact absurd List.nil_prefix hq.1
  | cons key r =>
    by_cases hf : f = transcription
    · subst hf
      obtain ⟨fs, w, rfl, hw, rfl⟩ := assign_cons crates path value key r u u' hassign
      obtain ⟨b, rfl, hb⟩ := decode_transcription _ _ hread
      obtain ⟨t, rfl⟩ := encode_transcription x fs hu
      cases hu''
      cases q with
      | nil => exact absurd List.nil_prefix hq.2
      | cons k q =>
        by_cases hk : k = "enabled"
        · subst hk
          by_cases hkey : key = "enabled"
          · -- the flag has nothing inside it
            subst hkey
            have hrest := unrelated_cons "enabled" r q hq
            cases r with
            | nil => exact absurd List.nil_prefix hrest.1
            | cons k' r =>
              obtain ⟨fs', w', hbool, -, -⟩ := assign_cons crates path value k' r _ w hw
              cases hbool
          · rw [lookup_insert, if_neg (Ne.symm hkey)] at hb
            rcases hb with hb | ⟨hb, -⟩
            · cases hb
              rfl
            · cases hb
        · simp [find, Value.get, lookup, Ne.symm hk]
    · have hsame := leaf_rewritten crates path value (key::r) f hf x y u u' hu hassign hread
      rw [hu''] at hsame
      rw [Option.some.inj hsame]
      exact assign_frame crates path value (key::r) q u u' hassign hq

theorem unrelated_append (p q r : List String) (h : Unrelated (p++q) (p++r)) : Unrelated q r :=
  ⟨fun hqr => h.1 ((List.prefix_append_right_inj p).mpr hqr),
    fun hrq => h.2 ((List.prefix_append_right_inj p).mpr hrq)⟩

structure Applied (crates : Crates) (path value : String) (s s' : Settings)
    (root root' : Fields) (json : Value) : Prop where
  read : toValue s = some (.object root)
  tree : Tree s root
  assigned : assign crates path value (segments path) (some (.object root)) = .ok json
  applied : fromValue json = some s'
  read' : toValue s' = some (.object root')
  tree' : Tree s' root'

theorem set_applied (crates : Crates) (path value : String) (s s' : Settings)
    (h : set crates s path value = (.ok (), s')) :
    ∃ root root' json, Applied crates path value s s' root root' json := by
  rcases set_cases crates s path value with ⟨e, heq⟩ | ⟨v, key, rest, json, t, hv, hpath, hassign, hread, heq⟩
  · rw [heq] at h
    cases h
  · rw [heq] at h
    cases h
    obtain ⟨root, rfl, tree⟩ := toValue_tree s v hv
    obtain ⟨v', hv'⟩ := (toValue_writable s').mpr (fromValue_writable json s' hread)
    obtain ⟨root', rfl, tree'⟩ := toValue_tree s' v' hv'
    exact ⟨root, root', json, hv, tree, hpath ▸ hassign, hread, hv', tree'⟩

section Applied

variable (crates : Crates) (path value : String) (s s' : Settings)
  (root root' : Fields) (json : Value)
  (h : Applied crates path value s s' root root' json)

include h

theorem applied_writable : Writable s := (toValue_writable s).mp ⟨_, h.read⟩

theorem applied_leaf (f : Leaf) (hskip : f.field.skipped = false) (r q : List String)
    (hp : segments path = parts f++r) (hq : Unrelated r q) :
    (f.written s').bind (find q) = (f.written s).bind (find q) := by
  obtain ⟨u, u', hu, hassign, hread⟩ := leaf_within crates path value (segments path) s s' root
    json h.tree h.assigned h.applied f hskip (applied_writable crates path value s s' root root' json h) r hp
  obtain ⟨u'', hu''⟩ := Kind.decode_encodable _ u' _ hread
  have hframe := leaf_frame crates path value r q f (s f) (s' f) u u' u'' hu hassign hread hu'' hq
  rw [hu, show f.written s' = some u'' from hu'']
  exact hframe

/-- Nothing is seen to change at a path that has nothing to do with the one
written to. -/
theorem applied_frame (q : List String) (hq : Unrelated (segments path) q) :
    find q (.object root') = find q (.object root) := by
  have haway := leaf_away crates path value (segments path) s s' root json h.tree h.assigned h.applied
  have hwritable := applied_writable crates path value s s' root root' json h
  cases q with
  | nil => exact absurd List.nil_prefix hq.2
  | cons key q =>
    rcases classify key q with ⟨f, hskip, r, hf⟩ | ⟨g, hg⟩ | hunknown
    · rw [hf, find_leaf s root h.tree f hskip, find_leaf s' root' h.tree' f hskip]
      by_cases hp : Unrelated (segments path) (parts f)
      · rw [Leaf.written, haway f hskip hwritable hp]
        rfl
      · have hbelow : parts f <+: segments path := by
          by_contra hnot
          have hover : segments path <+: parts f := by
            by_contra hnot'
            exact hp ⟨hnot', hnot⟩
          exact hq.1 (hf ▸ hover.trans (List.prefix_append (parts f) r))
        obtain ⟨r', hr'⟩ := hbelow
        rw [hf, ← hr'] at hq
        exact applied_leaf crates path value s s' root root' json h f hskip r' r hr'.symm
          (unrelated_append _ _ _ hq)
    · rw [hg, find_group s root h.tree, find_group s' root' h.tree']
      have hsame : partFields root' (some g) = partFields root (some g) := by
        apply ordered_ext _ _ (h.tree'.ordered _) (h.tree.ordered _)
        intro k
        by_cases hk : k ∈ keysOf (some g)
        · rcases key_cases (some g) k hk with ⟨f, hpart, hskip, rfl⟩ | ⟨hpart, -⟩
          · have hgroup : key::q <+: parts f := by
              rw [hg, parts, hpart]
              exact List.prefix_append [g.key] [f.key]
            have hf : Unrelated (segments path) (parts f) := by
              refine ⟨fun hover => ?_, fun hunder => hq.2 (hgroup.trans hunder)⟩
              exact (List.prefix_or_prefix_of_prefix hover hgroup).elim hq.1 hq.2
            have hs' := h.tree'.written f hskip
            have hs := h.tree.written f hskip
            rw [hpart] at hs' hs
            rw [hs', hs, Leaf.written, haway f hskip hwritable hf]
            rfl
          · cases hpart
        · rw [h.tree'.other _ k hk, h.tree.other _ k hk]
      rw [hsame]
    · rw [find_unknown s root h.tree _ hunknown, find_unknown s' root' h.tree' _ hunknown]

end Applied

end IronClaw.SettingsPaths
