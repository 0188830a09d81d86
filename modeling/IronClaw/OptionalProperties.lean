import IronClaw.JsonSchema
import IronClaw.StrictSchema

/-!
# Optional properties under strict function calling

What `make_nullable` and the normalisation of a schema mean for the values that
the schema accepts. A normalised schema with properties and without a type
accepts objects only.
-/

set_option autoImplicit false

namespace IronClaw.OptionalProperties
open IronClaw.JsonValue IronClaw.JsonSchema IronClaw.StrictSchema

def impliedObject (fields : Fields) (v : Value) : Bool :=
  !hasProperties fields || hasType "object" v

def propertySchema (schema : Value) (name : String) : Option Value :=
  (schema.get "properties").bind (·.get name)

def StaysOptional (nested given : Value) : Prop :=
  accepts given .null = true ∧
    ∀ v, accepts (normalizeSchemaStrict nested) v = true → accepts given v = true

def takesNull (fields : Fields) : Bool :=
  match lookup "type" fields with
  | none => !hasProperties fields || asserted impliedObject fields .null
  | some (.string _) => asserted impliedObject fields .null
  | some (.array _) => asserted impliedObject fields .null
  | some _ => false

section nullable

variable (implied : Fields → Value → Bool)

variable (fields : Fields) (v : Value)

theorem typed_none (h : lookup "type" fields = none) :
    typed implied fields v = implied fields v := by rw [typed, h]

theorem typed_some (t v : Value) (h : lookup "type" fields = some t) :
    typed implied fields v = admitsType t v := by rw [typed, h]

theorem retyped (t v : Value) :
    acceptsBy implied (.object (JsonValue.insert "type" t fields)) v =
      (admitsType t v && asserted implied fields v) := by
  rw [acceptsBy_object, typed_some implied _ t v (lookup_insert_self _ _ _),
    asserted_congr implied fields _ v (fun key hkey => lookup_insert_ne _ _ _ _ ?_)]
  revert key
  decide

theorem admits_named (t : String) (v : Value) :
    admitsType (.array [.string t, nullText]) v = (hasType t v || hasType "null" v) := by
  simp [admitsType, nullText, Value.asStr]

theorem admits_append (ts : List Value) (v : Value) :
    admitsType (.array (ts++[nullText])) v = (admitsType (.array ts) v || hasType "null" v) := by
  simp [admitsType, nullText, Value.asStr]

theorem admits_listed (ts : List Value) (h : ts.any (fun v => v.asStr = some "null") = true) :
    admitsType (.array ts) .null = true := by
  obtain ⟨t, ht, hname⟩ := List.any_eq_true.mp h
  rw [admitsType, List.any_eq_true]
  refine ⟨t, ht, ?_⟩
  rw [of_decide_eq_true hname]
  rfl

theorem wrapped_accepts :
    accepts (.object [("anyOf", .array [.object fields, .object [("type", nullText)]])]) v =
      (accepts (.object fields) v || hasType "null" v) := by
  have hnull : accepts (.object [("type", nullText)]) v = hasType "null" v := by
    rw [accepts, acceptsBy_object, typed_some _ _ nullText v rfl]
    simp [asserted, assertions, lookup, admitsType, nullText]
  rw [← hnull, accepts, acceptsBy_object, typed_none _ _ v rfl]
  simp [asserted, assertions, lookup, judge, parts, acceptsEach]

/-- What a nullable schema accepts, by the type that was there. -/
theorem nullable_accepts :
    accepts (makeNullable (.object fields)) v = match lookup "type" fields with
      | none => accepts (.object fields) v || hasType "null" v
      | some (.string t) =>
        (admitsType (.string t) v || hasType "null" v) && asserted (fun _ _ => true) fields v
      | some (.array ts) =>
        (admitsType (.array ts) v || hasType "null" v) && asserted (fun _ _ => true) fields v
      | some _ => accepts (.object fields) v := by
  cases htype : lookup "type" fields with
  | none =>
    rw [makeNullable, htype]
    exact wrapped_accepts fields v
  | some type =>
    rw [makeNullable, htype]
    cases type with
    | string t =>
      by_cases ht : t = "null"
      · simp only [ht, if_true]
        rw [accepts, acceptsBy_object, typed_some _ fields _ v htype, ht]
        simp [admitsType]
      · simp only [ht, if_false]
        rw [accepts, retyped, admits_named, admitsType]
    | array ts =>
      by_cases ht : ts.any (fun v => v.asStr = some "null") = true
      · simp only [ht, if_true]
        rw [accepts, acceptsBy_object, typed_some _ fields _ v htype]
        cases v <;> simp [hasType, admits_listed ts ht]
      · simp only [ht, Bool.false_eq_true, if_false]
        rw [accepts, retyped, admits_append]
    | null => rfl
    | bool b => rfl
    | number n => rfl
    | object fs => rfl

/-- Making a schema nullable takes no value from it. -/
theorem nullable_more (h : accepts (.object fields) v = true) :
    accepts (makeNullable (.object fields)) v = true := by
  have hparts := h
  rw [accepts, acceptsBy_object, Bool.and_eq_true] at hparts
  rw [nullable_accepts]
  cases htype : lookup "type" fields with
  | none => simp [h]
  | some type =>
    rw [typed_some _ fields type v htype] at hparts
    cases type with
    | string t => simp [hparts.1, hparts.2]
    | array ts => simp [hparts.1, hparts.2]
    | null => exact h
    | bool b => exact h
    | number n => exact h
    | object fs => exact h

end nullable

section normalized

/-- The parts of an assertion, over what the normalisation does to each. -/
theorem parts_normalized (key : String) (hkey : key ∈ combinators) (w v : Value)
    (h : ∀ c ∈ arrayItems (some w), accepts (normalizeSchemaRecursive c) v =
      acceptsBy impliedObject c v) :
    judge key (normalizeField key w) v (parts (fun _ _ => true) (normalizeField key w) v) =
      judge key w v (parts impliedObject w v) := by
  have hkeys : key ≠ "enum" ∧ key ≠ "const" := by
    revert key
    decide
  rw [field_variants key hkey]
  cases w with
  | array xs =>
    have heach : (xs.map normalizeSchemaRecursive).map
        (fun x => acceptsBy (fun _ _ => true) x v) = xs.map (fun x => acceptsBy impliedObject x v) := by
      rw [List.map_map]
      exact List.map_congr_left h
    simp only [judge, if_neg hkeys.1, if_neg hkeys.2, normalizeVariants, normalizeAll_eq, parts,
      acceptsEach_eq, heach]
  | null => simp only [judge, normalizeVariants, parts]
  | bool b => simp only [judge, normalizeVariants, parts]
  | number n => simp only [judge, normalizeVariants, parts]
  | string s => simp only [judge, normalizeVariants, parts]
  | object fs => simp only [judge, normalizeVariants, parts]

theorem plain_assertions : ∀ key ∈ assertions, key ∉ combinators → key = "enum" ∨ key = "const" := by
  decide

theorem asserted_normalized (fields : Fields) (v : Value)
    (h : ∀ c ∈ visitedChildren fields, accepts (normalizeSchemaRecursive c) v =
      acceptsBy impliedObject c v) :
    asserted (fun _ _ => true) (closeObject (normalizeFields fields)) v =
      asserted impliedObject fields v := by
  rw [asserted, asserted, Bool.eq_iff_iff, List.all_eq_true, List.all_eq_true]
  refine forall₂_congr (fun key hkey => ?_)
  have hkept : key ∉ ["type", "additionalProperties", "properties", "required"] := by
    revert key
    decide
  rw [lookup_close _ key hkept, lookup_normalizeFields]
  cases hv : lookup key fields with
  | none => rfl
  | some w =>
    rw [Option.map_some, Option.all_some, Option.all_some]
    by_cases hpart : key ∈ combinators
    · rw [parts_normalized key hpart w v (fun c hc => h c ?_)]
      rw [visitedChildren, List.mem_append, List.mem_append]
      refine Or.inl (Or.inl (List.mem_flatMap.mpr ⟨key, hpart, ?_⟩))
      rwa [hv]
    · obtain rfl | rfl := plain_assertions key hkey hpart
      · rw [normalizeField_other _ w (by decide)]
        rfl
      · rw [normalizeField_other _ w (by decide)]
        rfl

theorem typed_normalized (fields : Fields) (v : Value) :
    typed (fun _ _ => true) (closeObject (normalizeFields fields)) v =
      typed impliedObject fields v := by
  have htype := lookup_close_type (normalizeFields fields)
  rw [lookup_other "type" fields (by decide), (normalizeFields_type fields).2.2] at htype
  cases hv : lookup "type" fields with
  | none =>
    rw [hv] at htype
    rw [typed_none _ fields v hv, impliedObject]
    cases hprops : hasProperties fields with
    | false => rw [typed_none _ _ v (by rw [htype, hprops]; rfl)]; rfl
    | true => rw [typed_some _ _ (.string "object") v (by rw [htype, hprops]; rfl)]; rfl
  | some type =>
    rw [hv] at htype
    rw [typed_some _ fields type v hv, typed_some _ _ type v htype]

/-- A normalised schema accepts what the schema does with its types filled in. -/
theorem accepts_normalized (s v : Value) :
    accepts (normalizeSchemaRecursive s) v = acceptsBy impliedObject s v := by
  induction hn : sizeOf s using Nat.strong_induction_on generalizing s with
  | _ n ih =>
    cases s with
    | object fields =>
      have hchildren : ∀ c ∈ visitedChildren fields, accepts (normalizeSchemaRecursive c) v =
          acceptsBy impliedObject c v :=
        fun c hc => ih (sizeOf c) (hn ▸ visitedChildren_size fields c hc) c rfl
      rw [normalizeSchemaRecursive, accepts, acceptsBy_object, acceptsBy_object,
        typed_normalized, asserted_normalized fields v hchildren]
    | null => rw [normalizeSchemaRecursive, accepts, acceptsBy, acceptsBy]
    | bool b => rw [normalizeSchemaRecursive, accepts, acceptsBy, acceptsBy]
    | number n => rw [normalizeSchemaRecursive, accepts, acceptsBy, acceptsBy]
    | string s => rw [normalizeSchemaRecursive, accepts, acceptsBy, acceptsBy]
    | array xs => rw [normalizeSchemaRecursive, accepts, acceptsBy, acceptsBy]

end normalized

section property

theorem lookup_map (f : String → Value → Value) (key : String) (fields : Fields) :
    lookup key (fields.map (fun p => (p.1, f p.1 p.2))) = (lookup key fields).map (f key) := by
  induction fields with
  | nil => rfl
  | cons p fields ih =>
    rw [List.map_cons, lookup, ih, lookup]
    by_cases hp : p.1 = key
    · rw [if_pos hp, if_pos hp, hp]
      rfl
    · rw [if_neg hp, if_neg hp]

theorem propertySchema_some (fields : Fields) (name : String) (v : Value) :
    propertySchema (.object fields) name = some v ↔
      ∃ props, lookup "properties" fields = some (.object props) ∧ lookup name props = some v := by
  constructor
  · intro h
    obtain ⟨w, hw, hname⟩ := Option.bind_eq_some_iff.mp h
    cases w with
    | object props => exact ⟨props, hw, hname⟩
    | null => cases hname
    | bool b => cases hname
    | number n => cases hname
    | string s => cases hname
    | array xs => cases hname
  · rintro ⟨props, hprops, hname⟩
    exact Option.bind_eq_some_iff.mpr ⟨.object props, hprops, hname⟩

theorem required_normalized (fields : Fields) :
    currentRequired (closedFields (normalizeFields fields)) = currentRequired fields := by
  rw [currentRequired, lookup_closedFields _ _ (by decide) (by decide) (by decide),
    lookup_other _ _ (by decide), currentRequired]

/-- The schema of a property that is not required is normalised and then made nullable. -/
theorem propertySchema_optional (fields nested : Fields) (name : String)
    (hprop : propertySchema (.object fields) name = some (.object nested))
    (hopt : name ∉ currentRequired fields) :
    propertySchema (normalizeSchemaStrict (.object fields)) name =
      some (makeNullable (normalizeSchemaRecursive (.object nested))) := by
  obtain ⟨props, hprops, hname⟩ := (propertySchema_some _ _ _).mp hprop
  have hrec : recognised (normalizeFields fields) = true := by
    rw [recognised, (normalizeFields_type fields).2.2, hasProperties, hprops, Option.isSome_some,
      Bool.or_true]
  rw [normalizeSchemaStrict, normalizeSchemaRecursive, propertySchema_some]
  refine ⟨_, by rw [lookup_close_properties _ hrec, required_normalized, lookup_normalizeFields,
    hprops, Option.map_some, Option.getD_some, field_properties, normalizeProperties, relaxValue], ?_⟩
  rw [lookup_map (fun key v => if (currentRequired fields).contains key then v else makeNullable v),
    normalizeEach_eq, lookup_map (fun _ v => normalizeSchemaRecursive v), hname, Option.map_some,
    Option.map_some, if_neg (by simpa using hopt)]

/-- The nullable schema takes null exactly when the schema it comes from lets it. -/
theorem nullable_null (nested : Fields) :
    accepts (makeNullable (normalizeSchemaRecursive (.object nested))) .null = takesNull nested := by
  have hchildren : ∀ c ∈ visitedChildren nested, accepts (normalizeSchemaRecursive c) .null =
      acceptsBy impliedObject c .null := fun c _ => accepts_normalized c .null
  have htype := lookup_close_type (normalizeFields nested)
  have hassert := asserted_normalized nested .null hchildren
  rw [lookup_other "type" nested (by decide), (normalizeFields_type nested).2.2] at htype
  rw [normalizeSchemaRecursive, nullable_accepts, takesNull, htype]
  cases hv : lookup "type" nested with
  | none =>
    cases hprops : hasProperties nested with
    | false => simp [hasType]
    | true => simp [hasType, hassert]
  | some type =>
    rw [hv] at htype
    have hsame : accepts (.object (closeObject (normalizeFields nested))) .null =
        (admitsType type .null && asserted impliedObject nested .null) := by
      rw [accepts, acceptsBy_object, typed_some _ _ type _ htype, hassert]
    cases type with
    | string t => simp [hasType, hassert]
    | array ts => simp [hasType, hassert]
    | null => exact hsame
    | bool b => exact hsame
    | number n => exact hsame
    | object fs => exact hsame

end property

/-- An optional property stays optional exactly when its schema takes null. -/
theorem normalizeSchemaStrict_optional (fields nested : Fields) (name : String)
    (hprop : propertySchema (.object fields) name = some (.object nested))
    (hopt : name ∉ currentRequired fields) :
    ∃ given, propertySchema (normalizeSchemaStrict (.object fields)) name = some given ∧
      (StaysOptional (.object nested) given ↔ takesNull nested = true) := by
  refine ⟨_, propertySchema_optional fields nested name hprop hopt, ?_⟩
  rw [← nullable_null nested]
  refine and_iff_left (fun v hv => ?_)
  rw [normalizeSchemaStrict, normalizeSchemaRecursive] at hv
  rw [normalizeSchemaRecursive]
  exact nullable_more _ v hv

def optionalMode : Fields :=
  [("properties", .object [("mode", .object [("enum", .array [.string "fast", .string "safe"]),
    ("type", .string "string")])])]

theorem normalizeSchemaStrict_optional_name :
    ∃ given, propertySchema (normalizeSchemaStrict optionalName) "name" = some given ∧
      (StaysOptional (.object [("type", .string "string")]) given ↔
        takesNull [("type", .string "string")] = true) :=
  normalizeSchemaStrict_optional _ [("type", .string "string")] "name" rfl (by decide)

/-- The enumeration still leaves null out. -/
theorem optionalMode_required : ∃ nested given,
    propertySchema (.object optionalMode) "mode" = some nested ∧
    "mode" ∉ currentRequired optionalMode ∧
    propertySchema (normalizeSchemaStrict (.object optionalMode)) "mode" = some given ∧
    ¬ StaysOptional nested given := by
  refine ⟨_, _, rfl, by decide, rfl, fun h => ?_⟩
  have hnull := h.1
  revert hnull
  decide +kernel

end IronClaw.OptionalProperties
