import IronClaw.SettingsTree

/-!
# Laying settings over one another

`Settings::merge_from` merges the JSON trees of two settings: a field of the
other settings counts where it differs from the default. The owner ids of the
channels are merged key by key. The tree leaves out the master key, and
settings with a path that is no text have none.
-/

set_option autoImplicit false

namespace IronClaw.SettingsLayers
open IronClaw.JsonValue IronClaw.JsonMap IronClaw.SettingsTree

mutual

def mergeNonDefault : (target other defaults : Value) → Value
  | .object t, .object o, .object d => .object (mergeFields t o d)
  | target, other, defaults => if other ≠ defaults then other else target
  termination_by structural _ other _ => other

def mergeFields (t : Fields) : (o : Fields) →
    (d : Fields) → Fields
  | [], _ => t
  | (key, v)::o, d =>
    let fallback := (lookup key d).getD .null
    match lookup key t with
    | some w => mergeFields (insert key (mergeNonDefault w v fallback) t) o d
    | none => mergeFields (if v ≠ fallback then insert key v t else t) o d
  termination_by structural o => o

end

def mergeFrom (s other : Settings) : Settings :=
  match toValue initial, toValue other, toValue s with
  | some defaults, some o, some t => (fromValue (mergeNonDefault t o defaults)).getD s
  | _, _, _ => s

variable (a b : Settings) (t o d : Fields)

theorem merge_objects :
    mergeNonDefault (.object t) (.object o) (.object d) = .object (mergeFields t o d) := by
  rw [mergeNonDefault]

theorem merge_scalar (target other defaults : Value) (h : ∀ d, defaults ≠ .object d) :
    mergeNonDefault target other defaults = if other ≠ defaults then other else target := by
  unfold mergeNonDefault
  split
  · exact absurd rfl (h _)
  · rfl

def mergedField (target other : Option Value) (fallback : Value) : Option Value :=
  match other, target with
  | none, target => target
  | some v, some w => some (mergeNonDefault w v fallback)
  | some v, none => if v ≠ fallback then some v else none

theorem mergeFields_cons (key : String) (v : Value) :
    ∃ t', mergeFields t ((key, v)::o) d = mergeFields t' o d ∧
      (∀ k, lookup k t' = if k = key then
        mergedField (lookup key t) (some v) ((lookup key d).getD .null) else lookup k t) ∧
      (Ordered t → Ordered t') := by
  rw [mergeFields]
  cases ht : lookup key t with
  | some w =>
    refine ⟨_, rfl, ?_, insert_ordered _ _ _⟩
    intro k
    rw [lookup_insert]
    rfl
  | none =>
    refine ⟨_, rfl, ?_, ?_⟩
    · intro k
      by_cases hv : v ≠ (lookup key d).getD .null
      · rw [if_pos hv, lookup_insert, mergedField, if_pos hv]
      · rw [if_neg hv, mergedField, if_neg hv]
        by_cases hk : k = key
        · rw [if_pos hk, hk, ht]
        · rw [if_neg hk]
    · intro hordered
      split
      · exact insert_ordered _ _ _ hordered
      · exact hordered

theorem mergeFields_lookup (ho : Ordered o) (key : String) :
    lookup key (mergeFields t o d) =
      mergedField (lookup key t) (lookup key o) ((lookup key d).getD .null) := by
  induction o generalizing t with
  | nil =>
    rw [mergeFields]
    rfl
  | cons f o ih =>
    obtain ⟨k, v⟩ := f
    obtain ⟨hbelow, hrest⟩ := (ordered_cons k v o).mp ho
    obtain ⟨t', heq, hlookup, -⟩ := mergeFields_cons t o d k v
    rw [heq, ih t' hrest, hlookup, lookup]
    by_cases hk : key = k
    · rw [if_pos hk, if_pos hk.symm, hk, lookup_below k o hbelow]
      rfl
    · rw [if_neg hk, if_neg (Ne.symm hk)]

theorem mergeFields_ordered (ht : Ordered t) :
    Ordered (mergeFields t o d) := by
  induction o generalizing t with
  | nil => rwa [mergeFields]
  | cons f o ih =>
    obtain ⟨t', heq, -, hordered⟩ := mergeFields_cons t o d f.1 f.2
    rw [heq]
    exact ih t' (hordered ht)

/-- Two maps of owners merge into one that has the other's entries first. -/
theorem owners_merge (x y : Owners) :
    ∃ m, entriesOf m = mergeFields (entriesOf x) (entriesOf y) [] ∧
      ∀ key, Owners.get m key = (Owners.get y key).or (Owners.get x key) := by
  have hlookup : ∀ key, lookup key (mergeFields (entriesOf x) (entriesOf y) []) =
      ((Owners.get y key).or (Owners.get x key)).map ofI64 := by
    intro key
    rw [mergeFields_lookup _ _ _ (entriesOf_ordered y), entriesOf_lookup, entriesOf_lookup]
    show mergedField _ _ .null = _
    cases Owners.get y key with
    | none => rfl
    | some n =>
      have hn := ofI64_ne_null n
      cases Owners.get x key with
      | none => exact if_pos hn
      | some k =>
        show some (mergeNonDefault _ _ _) = _
        rw [merge_scalar _ _ _ (by simp), if_pos hn]
        rfl
  obtain ⟨m, hm⟩ := owners_of_fields _
    (mergeFields_ordered _ (entriesOf y) [] (entriesOf_ordered x)) (fun key v h => by
      rw [hlookup] at h
      obtain ⟨n, -, hn⟩ := Option.map_eq_some_iff.mp h
      exact ⟨n, hn.symm⟩)
  refine ⟨m, hm, ?_⟩
  intro key
  apply Option.map_injective ofI64_injective
  rw [← entriesOf_lookup, hm, hlookup]

def ownerIds : Leaf := ⟨some .channels, ⟨17, by decide⟩⟩

theorem fields_initial (part : Option Group) (field : Field) (h : field ∈ fields part) :
    (field.kind.encode field.initial).isSome = true := by
  revert field
  rcases part with _ | g
  · decide
  · cases g <;> decide

def isObject : Value → Bool
  | .object _ => true
  | _ => false

theorem fields_scalar (part : Option Group) (field : Field) (h : field ∈ fields part) :
    field.kind = .plain .owners ∨ (field.kind.encode field.initial).all (fun v => !isObject v) = true := by
  revert field
  rcases part with _ | g
  · decide
  · cases g <;> decide

theorem owners_kind (f : Leaf) (h : f.field.kind = .plain .owners) : f = ownerIds := by
  revert f
  rintro ⟨_ | g, i⟩ h
  · revert i; decide
  · cases g <;> revert i <;> decide

theorem initial_writable : Writable initial := by
  intro f _
  exact Option.isSome_iff_exists.mp (fields_initial f.1 f.field (List.get_mem _ _))

theorem initial_scalar (f : Leaf) (hf : f ≠ ownerIds) (v : Value)
    (hv : f.field.kind.encode f.field.initial = some v) : ∀ d, v ≠ .object d := by
  rintro d rfl
  rcases fields_scalar f.1 f.field (List.get_mem _ _) with h | h
  · exact hf (owners_kind f h)
  · rw [hv] at h
    cases h

/-- Three values of a field merge into the value that the layer says. -/
theorem decode_merge (f : Leaf) (hf : f ≠ ownerIds) (x y : f.field.kind.Carrier) (u v w : Value)
    (hu : f.field.kind.encode x = some u) (hv : f.field.kind.encode y = some v)
    (hw : f.field.kind.encode f.field.initial = some w) :
    f.field.kind.decode (mergeNonDefault u v w) =
      some (if y = f.field.initial then x else y) := by
  rw [merge_scalar u v w (initial_scalar f hf w hw)]
  by_cases hy : y = f.field.initial
  · have hvw : v = w := by
      rw [hy, hw] at hv
      exact (Option.some.inj hv).symm
    rw [if_pos hy, if_neg (not_not.mpr hvw)]
    exact f.field.kind.decode_encode x u hu
  · have hvw : v ≠ w := by
      rintro rfl
      exact hy (f.field.kind.encode_injective y _ v hv hw)
    rw [if_neg hy, if_pos hvw]
    exact f.field.kind.decode_encode y v hv

section Merged

variable (a b : Settings) (t o d : Fields)
  (ht : Tree a t) (ho : Tree b o) (hd : Tree initial d)

include ht ho hd

theorem merged_inner (part : Option Group) :
    partFields (mergeFields t o d) part = mergeFields (partFields t part) (partFields o part) (partFields d part) := by
  cases part with
  | none => rfl
  | some g =>
    have hlookup : lookup g.key (mergeFields t o d) = some (.object
        (mergeFields (partFields t (some g)) (partFields o (some g)) (partFields d (some g)))) := by
      rw [mergeFields_lookup t o d (ho.ordered none), ht.group, ho.group, hd.group]
      show some (mergeNonDefault _ _ _) = _
      rw [Option.getD_some, merge_objects]
    rw [partFields, hlookup]

theorem merged_lookup (part : Option Group) (key : String) :
    lookup key (partFields (mergeFields t o d) part) =
      mergedField (lookup key (partFields t part)) (lookup key (partFields o part))
        ((lookup key (partFields d part)).getD .null) := by
  rw [merged_inner a b t o d ht ho hd, mergeFields_lookup _ _ _ (ho.ordered part)]

theorem merged_other (part : Option Group) (key : String) (h : key ∉ keysOf part) :
    lookup key (partFields (mergeFields t o d) part) = none := by
  rw [merged_lookup a b t o d ht ho hd, ht.other part key h, ho.other part key h]
  rfl

theorem merged_decode (f : Leaf) :
    decodeLeaf (.object (mergeFields t o d)) f =
      match lookup f.key (partFields (mergeFields t o d) f.1) with
      | none => some f.field.initial
      | some v => f.field.kind.decode v := by
  apply decodeLeaf_inner
  · intro g v _ hv
    rw [mergeFields_lookup t o d (ho.ordered none), ht.group, ho.group, hd.group] at hv
    rw [merged_inner a b t o d ht ho hd, ← merge_objects]
    exact (Option.some.inj hv).symm
  · exact fun key hkey => merged_other a b t o d ht ho hd f.1 key (alias_absent f key hkey)

theorem merged_skipped (f : Leaf) (hskip : f.field.skipped = true) :
    decodeLeaf (.object (mergeFields t o d)) f = some f.field.initial := by
  rw [merged_decode a b t o d ht ho hd,
    merged_other a b t o d ht ho hd f.1 f.key (skipped_absent f hskip)]

theorem merged_written (f : Leaf) (hskip : f.field.skipped = false) (u v w : Value)
    (hu : f.written a = some u) (hv : f.written b = some v) (hw : f.written initial = some w) :
    decodeLeaf (.object (mergeFields t o d)) f = f.field.kind.decode (mergeNonDefault u v w) := by
  rw [merged_decode a b t o d ht ho hd, merged_lookup a b t o d ht ho hd, ht.written f hskip,
    ho.written f hskip, hd.written f hskip, hu, hv, hw]
  rfl

end Merged

def ownersOf (s : Settings) : Owners := s ownerIds

theorem merge_readable (ht : Tree a t) (ho : Tree b o) (hd : Tree initial d) (ha : Writable a)
    (hb : Writable b) :
    ∃ c, fromValue (.object (mergeFields t o d)) = some c ∧
      (∀ f : Leaf, f.field.skipped = true → c f = f.field.initial) ∧
      (∀ f : Leaf, f.field.skipped = false → f ≠ ownerIds →
        c f = if b f = f.field.initial then a f else b f) ∧
      ∀ key, (ownersOf c).get key = ((ownersOf b).get key).or ((ownersOf a).get key) := by
  obtain ⟨m, hm, hget⟩ := owners_merge (ownersOf a) (ownersOf b)
  have howners : decodeLeaf (.object (mergeFields t o d)) ownerIds = some m := by
    rw [merged_written a b t o d ht ho hd ownerIds rfl (.object (entriesOf (ownersOf a)))
      (.object (entriesOf (ownersOf b))) (.object []) rfl rfl rfl, merge_objects, ← hm]
    exact owners_decode m
  have hscalar : ∀ f : Leaf, f.field.skipped = false → f ≠ ownerIds →
      decodeLeaf (.object (mergeFields t o d)) f =
        some (if b f = f.field.initial then a f else b f) := by
    intro f hskip hf
    obtain ⟨u, hu⟩ := ha f hskip
    obtain ⟨v, hv⟩ := hb f hskip
    obtain ⟨w, hw⟩ := initial_writable f hskip
    rw [merged_written a b t o d ht ho hd f hskip u v w hu hv hw]
    exact decode_merge f hf (a f) (b f) u v w hu hv hw
  have hskipped := merged_skipped a b t o d ht ho hd
  have hall : ∀ f, ∃ x, decodeLeaf (.object (mergeFields t o d)) f = some x := by
    intro f
    by_cases hskip : f.field.skipped = true
    · exact ⟨_, hskipped f hskip⟩
    · by_cases hf : f = ownerIds
      · rw [hf]
        exact ⟨m, howners⟩
      · exact ⟨_, hscalar f (by simpa using hskip) hf⟩
  choose c hc using hall
  refine ⟨c, (fromValue_iff _ c).mpr hc, ?_, ?_, ?_⟩
  · intro f hskip
    exact Option.some.inj ((hc f).symm.trans (hskipped f hskip))
  · intro f hskip hf
    exact Option.some.inj ((hc f).symm.trans (hscalar f hskip hf))
  · have hcm : ownersOf c = m := Option.some.inj ((hc ownerIds).symm.trans howners)
    rw [hcm]
    exact hget

/-- Merging settings that both have a tree. -/
theorem mergeFrom_spec (ha : Writable a) (hb : Writable b) :
    (∀ f : Leaf, f.field.skipped = true → mergeFrom a b f = f.field.initial) ∧
      (∀ f : Leaf, f.field.skipped = false → f ≠ ownerIds →
        mergeFrom a b f = if b f = f.field.initial then a f else b f) ∧
      ∀ key, (ownersOf (mergeFrom a b)).get key =
        ((ownersOf b).get key).or ((ownersOf a).get key) := by
  obtain ⟨u, hu⟩ := (toValue_writable a).mpr ha
  obtain ⟨v, hv⟩ := (toValue_writable b).mpr hb
  obtain ⟨w, hw⟩ := (toValue_writable initial).mpr initial_writable
  obtain ⟨t, rfl, ht⟩ := toValue_tree a u hu
  obtain ⟨o, rfl, ho⟩ := toValue_tree b v hv
  obtain ⟨d, rfl, hd⟩ := toValue_tree initial w hw
  obtain ⟨c, hc, hspec⟩ := merge_readable a b t o d ht ho hd ha hb
  have heq : mergeFrom a b = c := by
    simp only [mergeFrom, hu, hv, hw, merge_objects, hc, Option.getD_some]
  rwa [heq]

theorem toValue_none (s : Settings) (h : ¬Writable s) : toValue s = none :=
  Option.eq_none_iff_forall_ne_some.mpr (fun v hv => h ((toValue_writable s).mp ⟨v, hv⟩))

theorem mergeFrom_unwritable (h : ¬(Writable a ∧ Writable b)) :
    mergeFrom a b = a := by
  unfold mergeFrom
  split
  · rename_i ho ht
    exact absurd ⟨(toValue_writable a).mp ⟨_, ht⟩, (toValue_writable b).mp ⟨_, ho⟩⟩ h
  · rfl

def Layered (a b c : Settings) : Prop :=
  (∀ f, f ≠ ownerIds → c f = if b f = f.field.initial then a f else b f) ∧
    ∀ key, (ownersOf c).get key = ((ownersOf b).get key).or ((ownersOf a).get key)

def Shown (s : Settings) : Prop := ∀ f : Leaf, f.field.skipped = true → s f = f.field.initial

def Covers (a b : Settings) : Prop :=
  (∀ f, f ≠ ownerIds → b f = f.field.initial ∨ b f = a f) ∧
    ∀ key n, (ownersOf b).get key = some n → (ownersOf a).get key = some n

theorem layered_ext (a b c c' : Settings) (h : Layered a b c) (h' : Layered a b c') : c = c' := by
  funext f
  by_cases hf : f = ownerIds
  · rw [hf]
    exact owners_ext _ _ (fun key => (h.2 key).trans (h'.2 key).symm)
  · rw [h.1 f hf, h'.1 f hf]

theorem layered_same : Layered a b a ↔ Covers a b := by
  constructor
  · intro h
    refine ⟨?_, ?_⟩
    · intro f hf
      have hleaf := h.1 f hf
      by_cases hb : b f = f.field.initial
      · exact Or.inl hb
      · rw [if_neg hb] at hleaf
        exact Or.inr hleaf.symm
    · intro key n hn
      rw [h.2 key, hn]
      rfl
  · intro h
    refine ⟨?_, ?_⟩
    · intro f hf
      rcases h.1 f hf with hb | hb
      · rw [if_pos hb]
      · rw [hb, ite_self]
    · intro key
      cases hb : (ownersOf b).get key with
      | none => rfl
      | some n => rw [h.2 key n hb]; rfl

theorem layered_initial (a : Settings) : Layered a initial a :=
  (layered_same a initial).mpr ⟨fun _ _ => Or.inl rfl, fun _ _ h => by cases h⟩

theorem skipped_ne_owners (f : Leaf) (h : f.field.skipped = true) : f ≠ ownerIds := by
  rintro rfl
  cases h

theorem mergeFrom_layered_iff (ha : Writable a) (hb : Writable b) :
    Layered a b (mergeFrom a b) ↔ Shown a ∧ Shown b := by
  obtain ⟨hskipped, hwritten, howners⟩ := mergeFrom_spec a b ha hb
  constructor
  · intro h
    have hleaf : ∀ f : Leaf, f.field.skipped = true → b f = f.field.initial ∧ a f = f.field.initial := by
      intro f hskip
      have hf := h.1 f (skipped_ne_owners f hskip)
      rw [hskipped f hskip] at hf
      by_cases hbf : b f = f.field.initial
      · rw [if_pos hbf] at hf
        exact ⟨hbf, hf.symm⟩
      · rw [if_neg hbf] at hf
        exact absurd hf.symm hbf
    exact ⟨fun f hskip => (hleaf f hskip).2, fun f hskip => (hleaf f hskip).1⟩
  · rintro ⟨hsa, hsb⟩
    refine ⟨?_, howners⟩
    intro f hf
    by_cases hskip : f.field.skipped = true
    · rw [hskipped f hskip, if_pos (hsb f hskip), hsa f hskip]
    · exact hwritten f (by simpa using hskip) hf

theorem mergeFrom_writable (ha : Writable a) (hb : Writable b) :
    Writable (mergeFrom a b) := by
  obtain ⟨-, hwritten, -⟩ := mergeFrom_spec a b ha hb
  intro f hskip
  by_cases hf : f = ownerIds
  · rw [hf]
    exact ⟨.object (entriesOf (ownersOf (mergeFrom a b))), rfl⟩
  · rw [Leaf.written, hwritten f hskip hf]
    split
    · exact ha f hskip
    · exact hb f hskip

/-- Laying the same settings over twice changes nothing more, on all settings. -/
theorem mergeFrom_again : mergeFrom (mergeFrom a b) b = mergeFrom a b := by
  by_cases h : Writable a ∧ Writable b
  · obtain ⟨hskipped, hwritten, howners⟩ := mergeFrom_spec a b h.1 h.2
    obtain ⟨hskipped', hwritten', howners'⟩ :=
      mergeFrom_spec (mergeFrom a b) b (mergeFrom_writable a b h.1 h.2) h.2
    funext f
    by_cases hskip : f.field.skipped = true
    · rw [hskipped' f hskip, hskipped f hskip]
    · by_cases hf : f = ownerIds
      · rw [hf]
        apply owners_ext
        intro key
        show (ownersOf (mergeFrom (mergeFrom a b) b)).get key = (ownersOf (mergeFrom a b)).get key
        rw [howners', howners, ← Option.or_assoc, Option.or_self]
      · have hskip' : f.field.skipped = false := by simpa using hskip
        rw [hwritten' f hskip' hf, hwritten f hskip' hf]
        split <;> rfl
  · rw [mergeFrom_unwritable a b h, mergeFrom_unwritable a b h]

theorem unwritable_uncovered (ha : Writable a) (hb : ¬Writable b) :
    ¬Covers a b := by
  intro h
  apply hb
  intro f hskip
  by_cases hf : f = ownerIds
  · rw [hf]
    exact ⟨.object (entriesOf (ownersOf b)), rfl⟩
  · rcases h.1 f hf with hbf | hbf
    · rw [Leaf.written, hbf]
      exact initial_writable f hskip
    · rw [Leaf.written, hbf]
      exact ha f hskip

/-- `merge_from` is the layering, changes nothing when it lays the defaults over
and nothing more when done twice, exactly if both settings have a tree and a
default in each field that the tree leaves out, or if the base has no tree and
the other settings add nothing to it. -/
theorem mergeFrom_layers :
    (Layered a b (mergeFrom a b) ∧ mergeFrom a initial = a ∧
      mergeFrom (mergeFrom a b) b = mergeFrom a b) ↔
    (Writable a ∧ Writable b ∧ Shown a ∧ Shown b) ∨ (¬Writable a ∧ Covers a b) := by
  by_cases ha : Writable a
  · by_cases hb : Writable b
    · constructor
      · rintro ⟨hlayered, -, -⟩
        exact Or.inl ⟨ha, hb, (mergeFrom_layered_iff a b ha hb).mp hlayered⟩
      · rintro (⟨-, -, hshown⟩ | ⟨hna, -⟩)
        · refine ⟨(mergeFrom_layered_iff a b ha hb).mpr hshown, ?_, mergeFrom_again a b⟩
          exact layered_ext a initial _ _
            ((mergeFrom_layered_iff a initial ha initial_writable).mpr ⟨hshown.1, fun _ _ => rfl⟩)
            (layered_initial a)
        · exact absurd ha hna
    · constructor
      · rintro ⟨hlayered, -, -⟩
        rw [mergeFrom_unwritable a b (fun h => hb h.2), layered_same] at hlayered
        exact absurd hlayered (unwritable_uncovered a b ha hb)
      · rintro (⟨-, hwb, -⟩ | ⟨hna, -⟩)
        · exact absurd hwb hb
        · exact absurd ha hna
  · have hsame : ∀ c, mergeFrom a c = a := fun c => mergeFrom_unwritable a c (fun h => ha h.1)
    constructor
    · rintro ⟨hlayered, -, -⟩
      rw [hsame, layered_same] at hlayered
      exact Or.inr ⟨ha, hlayered⟩
    · rintro (⟨hwa, -⟩ | ⟨-, hcovers⟩)
      · exact absurd hwa ha
      · exact ⟨by rw [hsame]; exact (layered_same a b).mpr hcovers, hsame initial, mergeFrom_again a b⟩

def masterKeyHex : Leaf := ⟨none, ⟨8, by decide⟩⟩

def hexOf (hex : Option String) : masterKeyHex.field.kind.Carrier := hex

def keyed : Settings := Function.update initial masterKeyHex (hexOf (some "00ff"))

/-- Laying the defaults over settings drops their master key. -/
theorem master_key_dropped : ¬ (∀ a b : Settings, Layered a b (mergeFrom a b) ∧
    mergeFrom a initial = a ∧ mergeFrom (mergeFrom a b) b = mergeFrom a b) := by
  intro h
  have hkeyed : Writable keyed := by
    intro f hskip
    have hf : f ≠ masterKeyHex := by
      rintro rfl
      cases hskip
    rw [Leaf.written, keyed, Function.update_of_ne hf]
    exact initial_writable f hskip
  have hmerged := (mergeFrom_spec keyed initial hkeyed initial_writable).1 masterKeyHex rfl
  rw [(h keyed initial).2.1, keyed, Function.update_self] at hmerged
  cases hmerged

end IronClaw.SettingsLayers
