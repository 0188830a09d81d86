import IronClaw.JsonMap

/-!
# Schemas for strict function calling

`normalize_schema_strict` of `llm/rig_adapter.rs`: the parts of a schema are
normalised, then an object schema is closed: no additional properties, and all
of its properties required, those that were not made nullable. A type list is
not looked into.
-/

set_option autoImplicit false

namespace IronClaw.StrictSchema
open IronClaw.JsonValue
open IronClaw.JsonMap (lookup_mem)

def combinators : List String := ["anyOf", "oneOf", "allOf"]

def branches : List String := ["not", "if", "then", "else"]

def nullText : Value := .string "null"

def makeNullable : Value → Value
  | .object fields =>
    match lookup "type" fields with
    | some (.string t) =>
      if t = "null" then .object fields
      else .object (JsonValue.insert "type" (.array [.string t, nullText]) fields)
    | some (.array arr) =>
      if arr.any (fun v => v.asStr = some "null") then .object fields
      else .object (JsonValue.insert "type" (.array (arr++[nullText])) fields)
    | some _ => .object fields
    | none => .object [("anyOf", .array [.object fields, .object [("type", nullText)]])]
  | v => v

def isObject (fields : Fields) : Bool :=
  (lookup "type" fields).bind Value.asStr = some "object"

def hasProperties (fields : Fields) : Bool := (lookup "properties" fields).isSome

def currentRequired (fields : Fields) : List String :=
  match lookup "required" fields with
  | some (.array arr) => arr.filterMap Value.asStr
  | _ => []

def propertyKeys (fields : Fields) : List String :=
  match lookup "properties" fields with
  | some (.object props) => props.map Prod.fst
  | _ => []

def allKeys (fields : Fields) : List String :=
  (propertyKeys fields).mergeSort (fun a b => a ≤ b)

def relaxProperties (required : List String) (fields : Fields) : Fields :=
  match lookup "properties" fields with
  | some (.object props) =>
    JsonValue.insert "properties" (.object (props.map (fun p =>
      (p.1, if required.contains p.1 then p.2 else makeNullable p.2)))) fields
  | _ => fields

def ensureType (fields : Fields) : Fields :=
  if (lookup "type" fields).isNone && hasProperties fields then
    JsonValue.insert "type" (.string "object") fields
  else fields

def ensureProperties (fields : Fields) : Fields :=
  if hasProperties fields then fields else JsonValue.insert "properties" (.object []) fields

def requireAll (fields : Fields) : Fields :=
  JsonValue.insert "required" (.array ((allKeys fields).map .string))
    (relaxProperties (currentRequired fields) fields)

def closeObject (fields : Fields) : Fields :=
  if !isObject fields && !hasProperties fields then fields
  else requireAll (ensureProperties
    (JsonValue.insert "additionalProperties" (.bool false) (ensureType fields)))

mutual

def normalizeSchemaRecursive : Value → Value
  | .object fields => .object (closeObject (normalizeFields fields))
  | .null => .null
  | .bool b => .bool b
  | .number n => .number n
  | .string s => .string s
  | .array xs => .array xs

def normalizeFields : Fields → Fields
  | [] => []
  | (key, v)::fields =>
    (key, if combinators.contains key then normalizeVariants v
      else if key = "items" || branches.contains key then normalizeSchemaRecursive v
      else if key = "properties" then normalizeProperties v
      else v)::normalizeFields fields

def normalizeVariants : Value → Value
  | .array xs => .array (normalizeAll xs)
  | .null => .null
  | .bool b => .bool b
  | .number n => .number n
  | .string s => .string s
  | .object fields => .object fields

def normalizeAll : List Value → List Value
  | [] => []
  | x::xs => normalizeSchemaRecursive x::normalizeAll xs

def normalizeProperties : Value → Value
  | .object props => .object (normalizeEach props)
  | .null => .null
  | .bool b => .bool b
  | .number n => .number n
  | .string s => .string s
  | .array xs => .array xs

def normalizeEach : Fields → Fields
  | [] => []
  | (key, v)::props => (key, normalizeSchemaRecursive v)::normalizeEach props

end

def normalizeSchemaStrict (schema : Value) : Value := normalizeSchemaRecursive schema

def arrayItems : Option Value → List Value
  | some (.array xs) => xs
  | _ => []

def propertyValues : Option Value → List Value
  | some (.object props) => props.map Prod.snd
  | _ => []

def visitedChildren (fields : Fields) : List Value :=
  combinators.flatMap (fun key => arrayItems (lookup key fields))++
  ("items"::branches).flatMap (fun key => (lookup key fields).toList)++
  propertyValues (lookup "properties" fields)

def tupleItems (fields : Fields) : List Value := arrayItems (lookup "items" fields)

inductive Sub : Value → Value → Prop
  | self (v : Value) : Sub v v
  | visited {fields : Fields} {c t : Value} :
      c ∈ visitedChildren fields → Sub c t → Sub (.object fields) t
  | tuple {fields : Fields} {c t : Value} :
      c ∈ tupleItems fields → Sub c t → Sub (.object fields) t

def listsObject (fields : Fields) : Bool :=
  (arrayItems (lookup "type" fields)).contains (.string "object")

def objectSchema (fields : Fields) : Bool :=
  isObject fields || listsObject fields || hasProperties fields

def Strict (fields : Fields) : Prop :=
  lookup "additionalProperties" fields = some (.bool false) ∧
  ∃ keys : List String, lookup "required" fields = some (.array (keys.map .string)) ∧
    keys.Perm (propertyKeys fields)

def AllStrict (schema : Value) : Prop :=
  ∀ fields, Sub schema (.object fields) → objectSchema fields = true → Strict fields

inductive Missed : Value → Fields → Prop
  | listed {fields : Fields} : listsObject fields = true → hasProperties fields = false →
      Missed (.object fields) fields
  | tuple {fields t : Fields} {c : Value} : c ∈ tupleItems fields → Sub c (.object t) →
      objectSchema t = true → Missed (.object fields) t
  | visited {fields t : Fields} {c : Value} : c ∈ visitedChildren fields → Missed c t →
      Missed (.object fields) t

section parts

def normalizeField (key : String) (v : Value) : Value :=
  if combinators.contains key then normalizeVariants v
  else if key = "items" || branches.contains key then normalizeSchemaRecursive v
  else if key = "properties" then normalizeProperties v
  else v

theorem normalizeAll_eq (xs : List Value) : normalizeAll xs = xs.map normalizeSchemaRecursive := by
  induction xs with
  | nil => rw [normalizeAll, List.map_nil]
  | cons x xs ih => rw [normalizeAll, ih, List.map_cons]

theorem normalizeEach_eq (props : Fields) :
    normalizeEach props = props.map (fun p => (p.1, normalizeSchemaRecursive p.2)) := by
  induction props with
  | nil => rw [normalizeEach, List.map_nil]
  | cons p props ih => rw [normalizeEach, ih, List.map_cons]

variable (key : String) (fields : Fields)

theorem normalizeFields_eq :
    normalizeFields fields = fields.map (fun p => (p.1, normalizeField p.1 p.2)) := by
  induction fields with
  | nil => rw [normalizeFields, List.map_nil]
  | cons p fields ih =>
    rw [normalizeFields, ih, List.map_cons]
    rfl

theorem lookup_normalizeFields :
    lookup key (normalizeFields fields) = (lookup key fields).map (normalizeField key) := by
  rw [normalizeFields_eq]
  induction fields with
  | nil => rfl
  | cons p fields ih =>
    rw [List.map_cons, lookup, ih, lookup]
    by_cases hp : p.1 = key
    · rw [if_pos hp, if_pos hp, hp]
      rfl
    · rw [if_neg hp, if_neg hp]

theorem normalizeField_other (v : Value)
    (h : key ∉ "properties"::"items"::(combinators++branches)) : normalizeField key v = v := by
  simp only [List.mem_cons, List.mem_append, not_or] at h
  rw [normalizeField, if_neg (by simpa using h.2.2.1), if_neg (by simp [h.2.1, h.2.2.2]),
    if_neg h.1]

theorem lookup_other (h : key ∉ "properties"::"items"::(combinators++branches)) :
    lookup key (normalizeFields fields) = lookup key fields := by
  rw [lookup_normalizeFields]
  cases hv : lookup key fields with
  | none => rfl
  | some v => rw [Option.map_some, normalizeField_other key v h]

theorem field_variants (hkey : key ∈ combinators) (v : Value) :
    normalizeField key v = normalizeVariants v := by
  rw [normalizeField, if_pos (List.contains_iff_mem.mpr hkey)]

theorem field_schema (hkey : key ∈ "items"::branches) (v : Value) :
    normalizeField key v = normalizeSchemaRecursive v := by
  have hnot : ¬ combinators.contains key = true := by
    revert key
    decide
  have hbranch : (key = "items" || branches.contains key) = true := by
    simpa [branches] using hkey
  rw [normalizeField, if_neg hnot, if_pos hbranch]

theorem field_properties (v : Value) : normalizeField "properties" v = normalizeProperties v := by
  rw [normalizeField, if_neg (by decide), if_neg (by decide), if_pos rfl]

theorem variant_field (hkey : key ∈ combinators) (v : Option Value) :
    arrayItems (v.map (normalizeField key)) = (arrayItems v).map normalizeSchemaRecursive := by
  cases v with
  | none => rfl
  | some v =>
    rw [Option.map_some, field_variants key hkey]
    cases v with
    | array xs => rw [normalizeVariants, normalizeAll_eq]; rfl
    | null => rfl
    | bool b => rfl
    | number n => rfl
    | string s => rfl
    | object fields => rfl

theorem branch_field (hkey : key ∈ "items"::branches) (v : Option Value) :
    v.map (normalizeField key) = v.map normalizeSchemaRecursive := by
  cases v with
  | none => rfl
  | some v => rw [Option.map_some, field_schema key hkey, Option.map_some]

theorem property_field (v : Option Value) : propertyValues (v.map (normalizeField "properties")) =
    (propertyValues v).map normalizeSchemaRecursive := by
  cases v with
  | none => rfl
  | some v =>
    rw [Option.map_some, field_properties]
    cases v with
    | object props =>
      rw [normalizeProperties, normalizeEach_eq, propertyValues, propertyValues, List.map_map,
        List.map_map]
      rfl
    | null => rfl
    | bool b => rfl
    | number n => rfl
    | string s => rfl
    | array xs => rfl

end parts

section children

variable (fields : Fields) (key : String)

theorem lookup_size (v : Value) (fields : Fields) (h : lookup key fields = some v) :
    sizeOf v < sizeOf (Value.object fields) := by
  have hmem := List.sizeOf_lt_of_mem (lookup_mem key v fields h)
  simp only [Prod.mk.sizeOf_spec] at hmem
  simp only [Value.object.sizeOf_spec]
  omega

theorem mem_arrayItems (v : Option Value) (c : Value) (h : c ∈ arrayItems v) :
    ∃ xs, v = some (.array xs) ∧ c ∈ xs := by
  rw [arrayItems.eq_def] at h
  split at h
  · next xs => exact ⟨xs, rfl, h⟩
  · cases h

theorem mem_propertyValues (v : Option Value) (c : Value) (h : c ∈ propertyValues v) :
    ∃ props key, v = some (.object props) ∧ (key, c) ∈ props := by
  rw [propertyValues.eq_def] at h
  split at h
  · next props =>
    obtain ⟨p, hp, hc⟩ := List.mem_map.mp h
    exact ⟨props, p.1, rfl, by rwa [← hc]⟩
  · cases h

theorem arrayItems_size :
    ∀ c ∈ arrayItems (lookup key fields), sizeOf c < sizeOf (Value.object fields) := by
  intro c hc
  obtain ⟨xs, hv, hc⟩ := mem_arrayItems _ c hc
  have hsize := lookup_size key _ fields hv
  have hmem := List.sizeOf_lt_of_mem hc
  simp only [Value.array.sizeOf_spec] at hsize
  omega

theorem propertyValues_size :
    ∀ c ∈ propertyValues (lookup key fields), sizeOf c < sizeOf (Value.object fields) := by
  intro c hc
  obtain ⟨props, k, hv, hc⟩ := mem_propertyValues _ c hc
  have hsize := lookup_size key _ fields hv
  have hmem := List.sizeOf_lt_of_mem hc
  simp only [Prod.mk.sizeOf_spec] at hmem
  simp only [Value.object.sizeOf_spec] at hsize ⊢
  omega

theorem visitedChildren_size :
    ∀ c ∈ visitedChildren fields, sizeOf c < sizeOf (Value.object fields) := by
  intro c hc
  rw [visitedChildren, List.mem_append, List.mem_append, List.mem_flatMap, List.mem_flatMap] at hc
  obtain (⟨key, _, hc⟩ | ⟨key, _, hc⟩) | hc := hc
  · exact arrayItems_size fields key c hc
  · exact lookup_size key c fields (Option.mem_toList.mp hc)
  · exact propertyValues_size fields "properties" c hc

/-- The children depend on what lies under a few keys. -/
theorem visitedChildren_congr (fields other : Fields)
    (h : ∀ key ∈ combinators++"items"::branches, lookup key other = lookup key fields) :
    visitedChildren other =
      combinators.flatMap (fun key => arrayItems (lookup key fields))++
      ("items"::branches).flatMap (fun key => (lookup key fields).toList)++
      propertyValues (lookup "properties" other) := by
  have hvariants : ∀ key ∈ combinators, arrayItems (lookup key other) =
      arrayItems (lookup key fields) := fun key hkey => by
    rw [h key (List.mem_append_left _ hkey)]
  have hbranches : ∀ key ∈ "items"::branches, (lookup key other).toList =
      (lookup key fields).toList := fun key hkey => by
    rw [h key (List.mem_append_right combinators hkey)]
  rw [visitedChildren, List.flatMap_congr hvariants, List.flatMap_congr hbranches]

/-- The children are normalised one by one. -/
theorem visitedChildren_normalize :
    visitedChildren (normalizeFields fields) =
      (visitedChildren fields).map normalizeSchemaRecursive := by
  have hvariants : ∀ key ∈ combinators, arrayItems (lookup key (normalizeFields fields)) =
      (arrayItems (lookup key fields)).map normalizeSchemaRecursive := fun key hkey => by
    rw [lookup_normalizeFields, variant_field key hkey]
  have hbranches : ∀ key ∈ "items"::branches, (lookup key (normalizeFields fields)).toList =
      (lookup key fields).toList.map normalizeSchemaRecursive := fun key hkey => by
    rw [lookup_normalizeFields, branch_field key hkey]
    cases lookup key fields <;> rfl
  rw [visitedChildren, List.flatMap_congr hvariants, List.flatMap_congr hbranches,
    lookup_normalizeFields, property_field, visitedChildren, List.map_append, List.map_append,
    List.map_flatMap, List.map_flatMap]

theorem tupleItems_normalize :
    tupleItems (normalizeFields fields) = tupleItems fields := by
  rw [tupleItems, lookup_normalizeFields, branch_field "items" List.mem_cons_self, tupleItems]
  cases lookup "items" fields with
  | none => rfl
  | some v =>
    rw [Option.map_some]
    cases v with
    | object fs => rw [normalizeSchemaRecursive]; rfl
    | array xs => rw [normalizeSchemaRecursive]
    | null => rw [normalizeSchemaRecursive]
    | bool b => rw [normalizeSchemaRecursive]
    | number n => rw [normalizeSchemaRecursive]
    | string s => rw [normalizeSchemaRecursive]

theorem allStrict_object : AllStrict (.object fields) ↔
    (objectSchema fields = true → Strict fields) ∧
    (∀ c ∈ visitedChildren fields, AllStrict c) ∧ ∀ c ∈ tupleItems fields, AllStrict c := by
  constructor
  · intro h
    exact ⟨h fields (.self _), fun c hc t ht => h t (.visited hc ht),
      fun c hc t ht => h t (.tuple hc ht)⟩
  · rintro ⟨hself, hvisited, htuple⟩ t ht
    cases ht with
    | self => exact hself
    | visited hc ht => exact hvisited _ hc t ht
    | tuple hc ht => exact htuple _ hc t ht

def MissedStrict (schema : Value) : Prop := ∀ t, Missed schema t → Strict t

theorem missedStrict_object : MissedStrict (.object fields) ↔
    (listsObject fields = true → hasProperties fields = false → Strict fields) ∧
    (∀ c ∈ visitedChildren fields, MissedStrict c) ∧ ∀ c ∈ tupleItems fields, AllStrict c := by
  constructor
  · intro h
    exact ⟨fun hlist hnone => h fields (.listed hlist hnone),
      fun c hc t ht => h t (.visited hc ht), fun c hc t ht hobject => h t (.tuple hc ht hobject)⟩
  · rintro ⟨hlisted, hvisited, htuple⟩ t ht
    cases ht with
    | listed hlist hnone => exact hlisted hlist hnone
    | tuple hc ht hobject => exact htuple _ hc t ht hobject
    | visited hc ht => exact hvisited _ hc t ht

end children

section nullable

/-- A type decides only whether a schema is an object schema. -/
theorem allStrict_type (fields other : Fields)
    (h : ∀ key, key ≠ "type" → lookup key other = lookup key fields)
    (htype : (isObject other || listsObject other) = (isObject fields || listsObject fields)) :
    AllStrict (.object other) ↔ AllStrict (.object fields) := by
  have hprops := h "properties" (by decide)
  have hchildren : visitedChildren other = visitedChildren fields := by
    have hkeys : ∀ key ∈ combinators++"items"::branches, lookup key other = lookup key fields := by
      intro key hkey
      refine h key (fun heq => ?_)
      rw [heq] at hkey
      revert hkey
      decide
    rw [visitedChildren_congr fields other hkeys, hprops]
    rfl
  have htuple : tupleItems other = tupleItems fields := by
    rw [tupleItems, h "items" (by decide), tupleItems]
  have hobject : objectSchema other = objectSchema fields := by
    rw [objectSchema, objectSchema, htype, hasProperties, hasProperties, hprops]
  have hstrict : Strict other ↔ Strict fields := by
    rw [Strict, Strict, h "additionalProperties" (by decide), h "required" (by decide),
      propertyKeys.eq_def, hprops]
    rfl
  rw [allStrict_object, allStrict_object, hchildren, htuple, hobject, hstrict]

theorem allStrict_plain (v : Value) (h : ∀ fields, v ≠ .object fields) : AllStrict v := by
  intro fields hsub
  cases hsub with
  | self => exact absurd rfl (h fields)
  | visited _ _ => exact absurd rfl (h _)
  | tuple _ _ => exact absurd rfl (h _)

theorem nullText_strict : AllStrict (.object [("type", nullText)]) := by
  have hvisited : visitedChildren [("type", nullText)] = [] := rfl
  have htuple : tupleItems [("type", nullText)] = [] := rfl
  have hobject : ¬ objectSchema [("type", nullText)] = true := by decide
  rw [allStrict_object, hvisited, htuple]
  exact ⟨fun h => absurd h hobject, fun c hc => absurd hc List.not_mem_nil,
    fun c hc => absurd hc List.not_mem_nil⟩

/-- Making a schema nullable leaves its strictness. -/
theorem makeNullable_allStrict (v : Value) : AllStrict (makeNullable v) ↔ AllStrict v := by
  cases v with
  | object fields =>
    have hinsert : ∀ w key, key ≠ "type" →
        lookup key (JsonValue.insert "type" w fields) = lookup key fields := fun w key hkey =>
      lookup_insert_ne "type" key w fields (Ne.symm hkey)
    rw [makeNullable]
    split
    · next t ht =>
      split
      · exact Iff.rfl
      · refine allStrict_type fields _ (hinsert _) ?_
        simp [isObject, listsObject, lookup_insert_self, ht, arrayItems, Value.asStr, nullText]
        exact eq_comm
    · next arr ht =>
      split
      · exact Iff.rfl
      · refine allStrict_type fields _ (hinsert _) ?_
        simp [isObject, listsObject, lookup_insert_self, ht, arrayItems, Value.asStr, nullText]
    · exact Iff.rfl
    · have hchildren : visitedChildren [("anyOf", .array [.object fields,
          .object [("type", nullText)]])] = [.object fields, .object [("type", nullText)]] := rfl
      have hobject : objectSchema [("anyOf", .array [.object fields,
          .object [("type", nullText)]])] = false := rfl
      rw [allStrict_object, hchildren, hobject]
      constructor
      · rintro ⟨_, hvisited, _⟩
        exact hvisited _ List.mem_cons_self
      · intro h
        refine ⟨fun hfalse => absurd hfalse Bool.false_ne_true, fun c hc => ?_,
          fun c hc => absurd hc List.not_mem_nil⟩
        obtain hc | hc := List.mem_cons.mp hc
        · rwa [hc]
        · rw [List.mem_singleton.mp hc]
          exact nullText_strict
  | null => exact Iff.rfl
  | bool b => exact Iff.rfl
  | number n => exact Iff.rfl
  | string s => exact Iff.rfl
  | array xs => exact Iff.rfl

end nullable

section close

def recognised (fields : Fields) : Bool := isObject fields || hasProperties fields

def closedFields (fields : Fields) : Fields :=
  ensureProperties (JsonValue.insert "additionalProperties" (.bool false) (ensureType fields))

variable (fields : Fields) (required : List String)

theorem closeObject_recognised (h : recognised fields = true) :
    closeObject fields = requireAll (closedFields fields) := by
  rw [closeObject, if_neg (by rw [recognised] at h; revert h; cases isObject fields <;> simp)]
  rfl

theorem closeObject_other (h : recognised fields = false) :
    closeObject fields = fields := by
  rw [recognised, Bool.or_eq_false_iff] at h
  rw [closeObject, h.1, h.2]
  rfl

def relaxValue (required : List String) : Value → Value
  | .object props => .object (props.map (fun p =>
      (p.1, if required.contains p.1 then p.2 else makeNullable p.2)))
  | v => v

theorem lookup_relax (fields : Fields) :
    lookup "properties" (relaxProperties required fields) =
      (lookup "properties" fields).map (relaxValue required) := by
  rw [relaxProperties.eq_def]
  split
  · next props hprops => rw [lookup_insert_self, hprops]; rfl
  · next hother =>
    cases hv : lookup "properties" fields with
    | none => rfl
    | some v =>
      cases v with
      | object props => exact absurd hv (hother props)
      | null => rfl
      | bool b => rfl
      | number n => rfl
      | string s => rfl
      | array xs => rfl

theorem lookup_relax_other (fields : Fields) (key : String) (hkey : key ≠ "properties") :
    lookup key (relaxProperties required fields) = lookup key fields := by
  rw [relaxProperties.eq_def]
  split
  · exact lookup_insert_ne "properties" key _ fields (Ne.symm hkey)
  · rfl

theorem lookup_closedFields (key : String) (htype : key ≠ "type")
    (hmore : key ≠ "additionalProperties") (hprops : key ≠ "properties") :
    lookup key (closedFields fields) = lookup key fields := by
  have hensure : lookup key (ensureType fields) = lookup key fields := by
    rw [ensureType]
    split
    · exact lookup_insert_ne "type" key _ fields (Ne.symm htype)
    · rfl
  rw [closedFields, ensureProperties]
  split
  · rw [lookup_insert_ne _ key _ _ (Ne.symm hmore), hensure]
  · rw [lookup_insert_ne _ key _ _ (Ne.symm hprops), lookup_insert_ne _ key _ _ (Ne.symm hmore),
      hensure]

theorem lookup_closed_properties : lookup "properties" (closedFields fields) =
    some ((lookup "properties" fields).getD (.object [])) := by
  have hensure : lookup "properties" (JsonValue.insert "additionalProperties" (.bool false)
      (ensureType fields)) = lookup "properties" fields := by
    rw [lookup_insert_ne _ _ _ _ (by decide), ensureType]
    split
    · exact lookup_insert_ne _ _ _ fields (by decide)
    · rfl
  rw [closedFields, ensureProperties, hasProperties, hensure]
  cases hv : lookup "properties" fields with
  | none => exact lookup_insert_self _ _ _
  | some v => rw [Option.isSome_some, if_pos rfl, hensure, hv]; rfl

theorem lookup_closed_more :
    lookup "additionalProperties" (closedFields fields) = some (.bool false) := by
  rw [closedFields, ensureProperties]
  split
  · exact lookup_insert_self _ _ _
  · rw [lookup_insert_ne _ _ _ _ (by decide), lookup_insert_self]

theorem lookup_requireAll (key : String) (hkey : key ≠ "required") (hprops : key ≠ "properties") :
    lookup key (requireAll fields) = lookup key fields := by
  rw [requireAll, lookup_insert_ne _ key _ _ (Ne.symm hkey), lookup_relax_other _ _ key hprops]

theorem lookup_close (key : String)
    (h : key ∉ ["type", "additionalProperties", "properties", "required"]) :
    lookup key (closeObject fields) = lookup key fields := by
  simp only [List.mem_cons, List.not_mem_nil, or_false, not_or] at h
  cases hrec : recognised fields with
  | true =>
    rw [closeObject_recognised fields hrec, lookup_requireAll _ key h.2.2.2 h.2.2.1,
      lookup_closedFields fields key h.1 h.2.1 h.2.2.1]
  | false => rw [closeObject_other fields hrec]

theorem lookup_close_properties (h : recognised fields = true) :
    lookup "properties" (closeObject fields) = some (relaxValue
      (currentRequired (closedFields fields)) ((lookup "properties" fields).getD (.object []))) := by
  rw [closeObject_recognised fields h, requireAll, lookup_insert_ne _ _ _ _ (by decide),
    lookup_relax, lookup_closed_properties, Option.map_some]

theorem relaxValue_keys (v : Option Value) (fields : Fields) (other : Fields)
    (hfields : lookup "properties" fields = v)
    (hother : lookup "properties" other = v.map (relaxValue required)) :
    propertyKeys other = propertyKeys fields := by
  rw [propertyKeys.eq_def, propertyKeys.eq_def, hfields, hother]
  cases v with
  | none => rfl
  | some v =>
    cases v with
    | object props =>
      change (props.map _).map Prod.fst = props.map Prod.fst
      rw [List.map_map]
      rfl
    | null => rfl
    | bool b => rfl
    | number n => rfl
    | string s => rfl
    | array xs => rfl

theorem closed_keys (h : recognised fields = true) :
    propertyKeys (closeObject fields) = propertyKeys (closedFields fields) := by
  refine relaxValue_keys (currentRequired (closedFields fields)) _ _ _
    (lookup_closed_properties fields) ?_
  rw [lookup_close_properties fields h, Option.map_some]

theorem lookup_close_required (h : recognised fields = true) :
    lookup "required" (closeObject fields) =
      some (.array ((allKeys (closedFields fields)).map .string)) := by
  rw [closeObject_recognised fields h, requireAll, lookup_insert_self]

theorem lookup_close_more (h : recognised fields = true) :
    lookup "additionalProperties" (closeObject fields) = some (.bool false) := by
  rw [closeObject_recognised fields h, lookup_requireAll _ _ (by decide) (by decide),
    lookup_closed_more]

theorem closeObject_strict (h : recognised fields = true) :
    Strict (closeObject fields) := by
  refine ⟨lookup_close_more fields h, allKeys (closedFields fields),
    lookup_close_required fields h, ?_⟩
  rw [closed_keys fields h]
  exact List.mergeSort_perm _ _

/-- What is left alone by making a property nullable holds of the properties of a
closed schema as it does before. -/
theorem close_properties (P : Value → Prop) (hP : ∀ v, P (makeNullable v) ↔ P v)
    (fields : Fields) :
    (∀ c ∈ propertyValues (lookup "properties" (closeObject fields)), P c) ↔
      ∀ c ∈ propertyValues (lookup "properties" fields), P c := by
  cases hrec : recognised fields with
  | false => rw [closeObject_other fields hrec]
  | true =>
    rw [lookup_close_properties fields hrec]
    cases hv : lookup "properties" fields with
    | none => exact Iff.rfl
    | some v =>
      rw [Option.getD_some]
      cases v with
      | object props =>
        simp only [relaxValue, propertyValues, List.map_map, List.forall_mem_map,
          Function.comp_apply]
        refine forall₂_congr (fun p _ => ?_)
        split
        · exact Iff.rfl
        · exact hP p.2
      | null => exact Iff.rfl
      | bool b => exact Iff.rfl
      | number n => exact Iff.rfl
      | string s => exact Iff.rfl
      | array xs => exact Iff.rfl

/-- The type that the normalisation fills in. -/
theorem lookup_close_type : lookup "type" (closeObject fields) =
    match lookup "type" fields with
      | none => if hasProperties fields then some (.string "object") else none
      | some type => some type := by
  cases hrec : recognised fields with
  | false =>
    rw [closeObject_other fields hrec]
    rw [recognised, Bool.or_eq_false_iff] at hrec
    rw [hrec.2]
    cases lookup "type" fields <;> rfl
  | true =>
    have hensured : lookup "type" (closedFields fields) = lookup "type" (ensureType fields) := by
      rw [closedFields, ensureProperties]
      split
      · exact lookup_insert_ne _ _ _ _ (by decide)
      · rw [lookup_insert_ne _ _ _ _ (by decide), lookup_insert_ne _ _ _ _ (by decide)]
    rw [closeObject_recognised fields hrec, lookup_requireAll _ _ (by decide) (by decide), hensured,
      ensureType]
    cases htype : lookup "type" fields with
    | none =>
      cases hprops : hasProperties fields with
      | false => exact htype
      | true => exact lookup_insert_self _ _ _
    | some type => exact htype

end close

section strict

theorem normalizeFields_type (fields : Fields) :
    isObject (normalizeFields fields) = isObject fields ∧
    listsObject (normalizeFields fields) = listsObject fields ∧
    hasProperties (normalizeFields fields) = hasProperties fields := by
  have htype := lookup_other "type" fields (by decide)
  refine ⟨by rw [isObject, htype, isObject], by rw [listsObject, htype, listsObject], ?_⟩
  rw [hasProperties, lookup_normalizeFields, Option.isSome_map, hasProperties]

theorem isObject_lists (fields : Fields) (h : isObject fields = true) :
    listsObject fields = false := by
  rw [isObject] at h
  rw [listsObject]
  cases hv : lookup "type" fields with
  | none => rfl
  | some v =>
    cases v with
    | array xs =>
      rw [hv] at h
      exact absurd h (by simp [Value.asStr])
    | null => rfl
    | bool b => rfl
    | number n => rfl
    | string s => rfl
    | object fs => rfl

/-- An object schema comes out strict, if it is one that is closed. -/
theorem node_strict (fields : Fields) :
    (objectSchema (closeObject (normalizeFields fields)) = true →
      Strict (closeObject (normalizeFields fields))) ↔
    (listsObject fields = true → hasProperties fields = false → Strict fields) := by
  obtain ⟨hobject, hlists, hprops⟩ := normalizeFields_type fields
  cases hrec : recognised (normalizeFields fields) with
  | true =>
    refine iff_of_true (fun _ => closeObject_strict _ hrec) (fun hlist hnone => ?_)
    rw [recognised, hobject, hprops, hnone, Bool.or_false] at hrec
    rw [isObject_lists fields hrec] at hlist
    cases hlist
  | false =>
    rw [closeObject_other _ hrec, objectSchema, hobject, hlists, hprops]
    rw [recognised, hobject, hprops, Bool.or_eq_false_iff] at hrec
    rw [hrec.1, hrec.2, Bool.false_or, Bool.or_false]
    have hnone : lookup "properties" fields = none := by
      have hempty := hrec.2
      rwa [hasProperties, Option.isSome_eq_false_iff, Option.isNone_iff_eq_none] at hempty
    have hkeys : propertyKeys (normalizeFields fields) = propertyKeys fields := by
      rw [propertyKeys.eq_def, propertyKeys.eq_def, lookup_normalizeFields, hnone]
      rfl
    rw [Strict, lookup_other _ fields (by decide), lookup_other _ fields (by decide), hkeys]
    exact ⟨fun h hlist _ => h hlist, fun h hlist => h hlist rfl⟩

theorem children_strict (fields : Fields) :
    (∀ c ∈ visitedChildren (closeObject (normalizeFields fields)), AllStrict c) ↔
      ∀ c ∈ visitedChildren fields, AllStrict (normalizeSchemaRecursive c) := by
  have hkeys : ∀ key ∈ combinators++"items"::branches,
      lookup key (closeObject (normalizeFields fields)) = lookup key (normalizeFields fields) := by
    intro key hkey
    refine lookup_close _ key (fun hin => ?_)
    revert key
    decide
  have hprops := close_properties AllStrict makeNullable_allStrict (normalizeFields fields)
  have hmap : (∀ c ∈ visitedChildren fields, AllStrict (normalizeSchemaRecursive c)) ↔
      ∀ c ∈ visitedChildren (normalizeFields fields), AllStrict c := by
    rw [visitedChildren_normalize, List.forall_mem_map]
  rw [hmap, visitedChildren_congr (normalizeFields fields) _ hkeys, visitedChildren,
    List.forall_mem_append, List.forall_mem_append, hprops, List.forall_mem_append,
    List.forall_mem_append]

theorem normalize_strict_iff (s : Value) :
    AllStrict (normalizeSchemaRecursive s) ↔ MissedStrict s := by
  induction hn : sizeOf s using Nat.strong_induction_on generalizing s with
  | _ n ih =>
    cases s with
    | object fields =>
      have htuple : tupleItems (closeObject (normalizeFields fields)) = tupleItems fields := by
        rw [tupleItems, lookup_close _ _ (by decide)]
        exact tupleItems_normalize fields
      rw [normalizeSchemaRecursive, allStrict_object, missedStrict_object, node_strict,
        children_strict, htuple]
      refine and_congr_right (fun _ => and_congr_left (fun _ => ?_))
      refine forall₂_congr (fun c hc => ?_)
      exact ih (sizeOf c) (hn ▸ visitedChildren_size fields c hc) c rfl
    | null => exact iff_of_true (allStrict_plain _ nofun) (fun t ht => by cases ht)
    | bool b => exact iff_of_true (allStrict_plain _ nofun) (fun t ht => by cases ht)
    | number n => exact iff_of_true (allStrict_plain _ nofun) (fun t ht => by cases ht)
    | string s => exact iff_of_true (allStrict_plain _ nofun) (fun t ht => by cases ht)
    | array xs => exact iff_of_true (allStrict_plain _ nofun) (fun t ht => by cases ht)

end strict

def KeysSorted (fields : Fields) : Prop := fields.Pairwise (fun a b => a.1 < b.1)

inductive Ordered : Value → Prop
  | null : Ordered .null
  | bool (b : Bool) : Ordered (.bool b)
  | number (n : Number) : Ordered (.number n)
  | string (s : String) : Ordered (.string s)
  | array {xs : List Value} : (∀ x ∈ xs, Ordered x) → Ordered (.array xs)
  | object {fields : Fields} : KeysSorted fields → (∀ p ∈ fields, Ordered p.2) →
      Ordered (.object fields)

section sorted

theorem mem_insert_cases (key : String) (v : Value) (fields : Fields) (p : String × Value)
    (h : p ∈ JsonValue.insert key v fields) : p = (key, v) ∨ p ∈ fields := by
  induction fields with
  | nil => exact Or.inl (List.mem_singleton.mp h)
  | cons q fields ih =>
    obtain ⟨k, w⟩ := q
    rw [JsonValue.insert] at h
    split at h
    · obtain h | h := List.mem_cons.mp h
      · exact Or.inl h
      · exact Or.inr (List.mem_cons_of_mem _ h)
    · split at h
      · exact List.mem_cons.mp h
      · obtain h | h := List.mem_cons.mp h
        · exact Or.inr (h ▸ List.mem_cons_self)
        · exact (ih h).imp id (List.mem_cons_of_mem _)

theorem insert_sorted (key : String) (v : Value) (fields : Fields) (h : KeysSorted fields) :
    KeysSorted (JsonValue.insert key v fields) := by
  induction fields with
  | nil => exact List.pairwise_singleton _ _
  | cons q fields ih =>
    obtain ⟨k, w⟩ := q
    obtain ⟨hhead, htail⟩ := List.pairwise_cons.mp h
    rw [JsonValue.insert]
    split
    · next heq => exact List.pairwise_cons.mpr ⟨fun p hp => heq ▸ hhead p hp, htail⟩
    · next hne =>
      split
      · next hlt =>
        refine List.pairwise_cons.mpr ⟨fun p hp => ?_, h⟩
        obtain hp | hp := List.mem_cons.mp hp
        · rw [hp]
          exact hlt
        · exact lt_trans hlt (hhead p hp)
      · next hge =>
        refine List.pairwise_cons.mpr ⟨fun p hp => ?_, ih htail⟩
        obtain hp | hp := mem_insert_cases key v fields p hp
        · rw [hp]
          exact lt_of_le_of_ne (not_lt.mp hge) hne
        · exact hhead p hp

theorem lookup_of_mem (fields : Fields) (h : KeysSorted fields) (p : String × Value)
    (hp : p ∈ fields) : lookup p.1 fields = some p.2 := by
  induction fields with
  | nil => cases hp
  | cons q fields ih =>
    obtain ⟨k, w⟩ := q
    obtain ⟨hhead, htail⟩ := List.pairwise_cons.mp h
    rw [lookup]
    obtain hp | hp := List.mem_cons.mp hp
    · rw [hp, if_pos rfl]
    · rw [if_neg (ne_of_lt (hhead p hp)), ih htail hp]

/-- A value that is there already is put in without a change. -/
theorem insert_same (key : String) (v : Value) (fields : Fields) (h : KeysSorted fields)
    (hv : lookup key fields = some v) : JsonValue.insert key v fields = fields := by
  induction fields with
  | nil => cases hv
  | cons q fields ih =>
    obtain ⟨k, w⟩ := q
    obtain ⟨hhead, htail⟩ := List.pairwise_cons.mp h
    rw [lookup] at hv
    rw [JsonValue.insert]
    by_cases hk : k = key
    · rw [if_pos hk, Option.some.injEq] at hv
      rw [if_pos hk, hk, hv]
    · rw [if_neg hk] at hv
      have hlt : k < key := hhead _ (lookup_mem key v fields hv)
      rw [if_neg hk, if_neg (lt_asymm hlt), ih htail hv]

theorem normalizeFields_sorted (fields : Fields) (h : KeysSorted fields) :
    KeysSorted (normalizeFields fields) := by
  rw [normalizeFields_eq, KeysSorted, List.pairwise_map]
  exact h

theorem closeObject_sorted (fields : Fields) (h : KeysSorted fields) :
    KeysSorted (closeObject fields) := by
  have htype : KeysSorted (ensureType fields) := by
    rw [ensureType]
    split
    · exact insert_sorted _ _ _ h
    · exact h
  have hclosed : KeysSorted (closedFields fields) := by
    rw [closedFields, ensureProperties]
    split
    · exact insert_sorted _ _ _ htype
    · exact insert_sorted _ _ _ (insert_sorted _ _ _ htype)
  have hrelax : KeysSorted (relaxProperties (currentRequired (closedFields fields))
      (closedFields fields)) := by
    rw [relaxProperties.eq_def]
    split
    · exact insert_sorted _ _ _ hclosed
    · exact hclosed
  cases hrec : recognised fields with
  | true =>
    rw [closeObject_recognised fields hrec, requireAll]
    exact insert_sorted _ _ _ hrelax
  | false => rwa [closeObject_other fields hrec]

end sorted

structure Closed (fields : Fields) : Prop where
  typed : (lookup "type" fields).isSome = true
  more : lookup "additionalProperties" fields = some (.bool false)
  properties : hasProperties fields = true
  required : lookup "required" fields = some (.array ((allKeys fields).map .string))

structure SettledFields (fields : Fields) : Prop where
  sorted : KeysSorted fields
  parts : normalizeFields fields = fields
  closed : recognised fields = true → Closed fields

def Settled (v : Value) : Prop := ∀ fields, v = .object fields → SettledFields fields

section settled

variable (fields : Fields) (v : Value)

theorem parts_iff : normalizeFields fields = fields ↔
    ∀ p ∈ fields, normalizeField p.1 p.2 = p.2 := by
  rw [normalizeFields_eq]
  conv_lhs => rw [← List.map_id fields]
  rw [List.map_map, List.map_inj_left]
  refine forall₂_congr (fun p _ => ?_)
  constructor
  · exact fun h => congrArg Prod.snd h
  · exact fun h => Prod.ext rfl h

theorem required_keys (h : Closed fields) :
    currentRequired fields = allKeys fields := by
  rw [currentRequired.eq_def, h.required]
  change ((allKeys fields).map Value.string).filterMap Value.asStr = allKeys fields
  rw [List.filterMap_map]
  exact List.filterMap_some

theorem relaxValue_same (hv : lookup "properties" fields = some v) (h : Closed fields) :
    relaxValue (currentRequired fields) v = v := by
  cases v with
  | object props =>
    have hsame : ∀ p ∈ props, (p.1, if (currentRequired fields).contains p.1 then p.2
        else makeNullable p.2) = p := by
      intro p hp
      have hkey : p.1 ∈ currentRequired fields := by
        rw [required_keys fields h, allKeys, List.mem_mergeSort, propertyKeys.eq_def, hv]
        exact List.mem_map_of_mem hp
      rw [if_pos (List.contains_iff_mem.mpr hkey)]
    rw [relaxValue, List.map_congr_left hsame, List.map_id']
  | null => rfl
  | bool b => rfl
  | number n => rfl
  | string s => rfl
  | array xs => rfl

/-- Closing a closed schema changes nothing. -/
theorem closeObject_same (hs : KeysSorted fields) (h : recognised fields = true → Closed fields) :
    closeObject fields = fields := by
  cases hrec : recognised fields with
  | false => exact closeObject_other fields hrec
  | true =>
    have hclosed := h hrec
    obtain ⟨v, hv⟩ := Option.isSome_iff_exists.mp hclosed.properties
    obtain ⟨t, ht⟩ := Option.isSome_iff_exists.mp hclosed.typed
    have htype : ensureType fields = fields := by
      rw [ensureType, ht]
      rfl
    have hfields : closedFields fields = fields := by
      rw [closedFields, htype, insert_same _ _ fields hs hclosed.more, ensureProperties,
        if_pos hclosed.properties]
    have hrelax : relaxProperties (currentRequired fields) fields = fields := by
      rw [relaxProperties.eq_def]
      split
      · next props hprops =>
        refine insert_same _ _ fields hs ?_
        have hsame := relaxValue_same fields _ hprops hclosed
        rw [hprops]
        exact congrArg some hsame.symm
      · rfl
    rw [closeObject_recognised fields hrec, hfields, requireAll, hrelax,
      insert_same _ _ fields hs hclosed.required]

theorem closeObject_closed (h : recognised (closeObject fields) = true) :
    Closed (closeObject fields) := by
  cases hrec : recognised fields with
  | false =>
    rw [closeObject_other fields hrec, hrec] at h
    cases h
  | true =>
    refine ⟨?_, lookup_close_more fields hrec, ?_, ?_⟩
    · rw [lookup_close_type]
      cases ht : lookup "type" fields with
      | some t => rfl
      | none =>
        rw [recognised, isObject, ht] at hrec
        rw [show hasProperties fields = true by simpa using hrec]
        rfl
    · rw [hasProperties, lookup_close_properties fields hrec]
      rfl
    · rw [lookup_close_required fields hrec, allKeys, allKeys, closed_keys fields hrec]

theorem settled_fixed (h : Settled v) : normalizeSchemaRecursive v = v := by
  cases v with
  | object fields =>
    have hfields := h fields rfl
    rw [normalizeSchemaRecursive, hfields.parts,
      closeObject_same fields hfields.sorted hfields.closed]
  | null => rw [normalizeSchemaRecursive]
  | bool b => rw [normalizeSchemaRecursive]
  | number n => rw [normalizeSchemaRecursive]
  | string s => rw [normalizeSchemaRecursive]
  | array xs => rw [normalizeSchemaRecursive]

/-- A type list in place of a type leaves the schema settled. -/
theorem settled_type (arr : List Value) (h : SettledFields fields) :
    SettledFields (JsonValue.insert "type" (.array arr) fields) := by
  have hother : ∀ key, key ≠ "type" → lookup key (JsonValue.insert "type" (.array arr) fields) =
      lookup key fields := fun key hkey => lookup_insert_ne "type" key _ fields (Ne.symm hkey)
  refine ⟨insert_sorted _ _ fields h.sorted, ?_, fun hrec => ?_⟩
  · rw [parts_iff]
    intro p hp
    obtain hp | hp := mem_insert_cases _ _ fields p hp
    · rw [hp]
      exact normalizeField_other "type" _ (by decide)
    · exact (parts_iff fields).mp h.parts p hp
  · rw [recognised, isObject, lookup_insert_self, hasProperties, hother _ (by decide)] at hrec
    have hprops : hasProperties fields = true := by
      simpa [Value.asStr, hasProperties] using hrec
    have hclosed := h.closed (by rw [recognised, hprops, Bool.or_true])
    refine ⟨by rw [lookup_insert_self]; rfl, ?_, ?_, ?_⟩
    · rw [hother _ (by decide), hclosed.more]
    · rw [hasProperties, hother _ (by decide)]
      exact hprops
    · rw [hother _ (by decide), hclosed.required, allKeys, allKeys, propertyKeys.eq_def,
        propertyKeys.eq_def, hother _ (by decide)]

theorem settled_nullable (h : Settled v) : Settled (makeNullable v) := by
  cases v with
  | object fields =>
    have hfields := h fields rfl
    rw [makeNullable]
    split
    · split
      · exact h
      · intro other heq
        rw [← Value.object.inj heq]
        exact settled_type fields _ hfields
    · split
      · exact h
      · intro other heq
        rw [← Value.object.inj heq]
        exact settled_type fields _ hfields
    · exact h
    · intro other heq
      rw [← Value.object.inj heq]
      refine ⟨List.pairwise_singleton _ _, ?_, fun hrec => ?_⟩
      · have hnull : normalizeSchemaRecursive (.object [("type", nullText)]) =
            .object [("type", nullText)] := by
          rw [normalizeSchemaRecursive]
          rfl
        rw [parts_iff, List.forall_mem_singleton]
        change Value.array (normalizeAll [.object fields, .object [("type", nullText)]]) = _
        rw [normalizeAll, normalizeAll, normalizeAll, settled_fixed _ h, hnull]
      · have hnot : recognised [("anyOf", .array [.object fields,
            .object [("type", nullText)]])] = false := rfl
        rw [hnot] at hrec
        cases hrec
  | null => exact h
  | bool b => exact h
  | number n => exact h
  | string s => exact h
  | array xs => exact h

theorem variants_twice (h : ∀ c ∈ arrayItems (some v),
    normalizeSchemaRecursive (normalizeSchemaRecursive c) = normalizeSchemaRecursive c) :
    normalizeVariants (normalizeVariants v) = normalizeVariants v := by
  cases v with
  | array xs =>
    rw [normalizeVariants, normalizeVariants, normalizeAll_eq, normalizeAll_eq, List.map_map]
    exact congrArg Value.array (List.map_congr_left h)
  | null => rfl
  | bool b => rfl
  | number n => rfl
  | string s => rfl
  | object fields => rfl

theorem properties_twice (required : List String) (v : Value)
    (h : ∀ c ∈ propertyValues (some v), Settled (normalizeSchemaRecursive c)) :
    normalizeProperties (relaxValue required (normalizeProperties v)) =
      relaxValue required (normalizeProperties v) := by
  cases v with
  | object props =>
    rw [normalizeProperties, normalizeEach_eq, relaxValue, normalizeProperties, normalizeEach_eq,
      List.map_map, List.map_map, List.map_map]
    refine congrArg Value.object (List.map_congr_left (fun p hp => ?_))
    have hset := h p.2 (List.mem_map_of_mem hp)
    simp only [Function.comp_apply]
    split
    · rw [settled_fixed _ hset]
    · rw [settled_fixed _ (settled_nullable _ hset)]
  | null => rfl
  | bool b => rfl
  | number n => rfl
  | string s => rfl
  | array xs => rfl

theorem ordered_lookup (h : Ordered (.object fields)) (key : String) (v : Value)
    (hv : lookup key fields = some v) : Ordered v := by
  cases h with
  | object _ hall => exact hall _ (lookup_mem key v fields hv)

theorem ordered_children (h : Ordered (.object fields)) :
    ∀ c ∈ visitedChildren fields, Ordered c := by
  intro c hc
  rw [visitedChildren, List.mem_append, List.mem_append, List.mem_flatMap, List.mem_flatMap] at hc
  obtain (⟨key, _, hc⟩ | ⟨key, _, hc⟩) | hc := hc
  · obtain ⟨xs, hv, hc⟩ := mem_arrayItems _ c hc
    cases ordered_lookup fields h key _ hv with
    | array hall => exact hall c hc
  · exact ordered_lookup fields h key c (Option.mem_toList.mp hc)
  · obtain ⟨props, key, hv, hc⟩ := mem_propertyValues _ c hc
    cases ordered_lookup fields h "properties" _ hv with
    | object _ hall => exact hall _ hc

theorem normalized_properties
    (hchildren : ∀ c ∈ visitedChildren fields, Settled (normalizeSchemaRecursive c)) (v : Value)
    (hv : lookup "properties" (closeObject (normalizeFields fields)) = some v) :
    normalizeProperties v = v := by
  cases hrec : recognised (normalizeFields fields) with
  | false =>
    rw [closeObject_other _ hrec] at hv
    rw [recognised, hasProperties, hv, Option.isSome_some, Bool.or_true] at hrec
    cases hrec
  | true =>
    rw [lookup_close_properties _ hrec, lookup_normalizeFields, Option.some.injEq] at hv
    rw [← hv]
    cases hprops : lookup "properties" fields with
    | none => rfl
    | some w =>
      rw [Option.map_some, Option.getD_some, field_properties]
      refine properties_twice _ w (fun c hc => hchildren c ?_)
      rw [visitedChildren, List.mem_append, hprops]
      exact Or.inr hc

/-- The fields of a normalised schema, over what holds of its children. -/
theorem normalized_parts (hs : KeysSorted fields)
    (hchildren : ∀ c ∈ visitedChildren fields, Settled (normalizeSchemaRecursive c)) :
    normalizeFields (closeObject (normalizeFields fields)) =
      closeObject (normalizeFields fields) := by
  have hsorted := closeObject_sorted _ (normalizeFields_sorted fields hs)
  rw [parts_iff]
  intro p hp
  have hv := lookup_of_mem _ hsorted p hp
  by_cases hkey : p.1 ∈ "properties"::"items"::(combinators++branches)
  · rw [List.mem_cons] at hkey
    obtain hkey | hkey := hkey
    · rw [hkey] at hv ⊢
      rw [field_properties]
      exact normalized_properties fields hchildren p.2 hv
    · have hin : p.1 ∈ combinators++"items"::branches := by
        rw [← List.cons_append, List.mem_append] at hkey
        simp only [List.mem_append, List.mem_cons] at hkey ⊢
        tauto
      rw [lookup_close _ p.1 (by revert hin; generalize p.1 = key; revert key; decide),
        lookup_normalizeFields] at hv
      obtain ⟨v, hv, hvalue⟩ := Option.map_eq_some_iff.mp hv
      rw [← hvalue]
      obtain hin | hin := List.mem_append.mp hin
      · rw [field_variants _ hin, field_variants _ hin]
        refine variants_twice v (fun c hc => settled_fixed _ (hchildren c ?_))
        rw [visitedChildren, List.mem_append, List.mem_append]
        refine Or.inl (Or.inl (List.mem_flatMap.mpr ⟨p.1, hin, ?_⟩))
        rwa [hv]
      · rw [field_schema _ hin, field_schema _ hin]
        refine settled_fixed _ (hchildren v ?_)
        rw [visitedChildren, List.mem_append, List.mem_append]
        refine Or.inl (Or.inr (List.mem_flatMap.mpr ⟨p.1, hin, ?_⟩))
        rw [hv]
        exact Option.mem_toList.mpr rfl
  · exact normalizeField_other p.1 p.2 hkey

theorem normalize_settled (s : Value) (ho : Ordered s) : Settled (normalizeSchemaRecursive s) := by
  induction hn : sizeOf s using Nat.strong_induction_on generalizing s with
  | _ n ih =>
    cases s with
    | object fields =>
      have hsorted : KeysSorted fields := by
        cases ho with
        | object hkeys _ => exact hkeys
      have hchildren : ∀ c ∈ visitedChildren fields, Settled (normalizeSchemaRecursive c) :=
        fun c hc => ih (sizeOf c) (hn ▸ visitedChildren_size fields c hc) c
          (ordered_children fields ho c hc) rfl
      intro other heq
      rw [normalizeSchemaRecursive] at heq
      rw [← Value.object.inj heq]
      exact {
        sorted := closeObject_sorted _ (normalizeFields_sorted fields hsorted)
        parts := normalized_parts fields hsorted hchildren
        closed := closeObject_closed _ }
    | null =>
      rw [normalizeSchemaRecursive]
      exact nofun
    | bool b =>
      rw [normalizeSchemaRecursive]
      exact nofun
    | number n =>
      rw [normalizeSchemaRecursive]
      exact nofun
    | string s =>
      rw [normalizeSchemaRecursive]
      exact nofun
    | array xs =>
      rw [normalizeSchemaRecursive]
      exact nofun

end settled

/-- Every object schema comes out strict when those that are missed are strict as
they stand, and a second pass changes nothing. -/
theorem normalizeSchemaStrict_iff (s : Value) (h : Ordered s) :
    (AllStrict (normalizeSchemaStrict s) ↔ MissedStrict s) ∧
      normalizeSchemaStrict (normalizeSchemaStrict s) = normalizeSchemaStrict s :=
  ⟨normalize_strict_iff s, settled_fixed _ (normalize_settled s h)⟩

def optionalName : Value :=
  .object [("properties", .object [("name", .object [("type", .string "string")])])]

theorem optionalName_ordered : Ordered optionalName := by
  have hname : Ordered (.object [("type", .string "string")]) := by
    refine .object (List.pairwise_singleton _ _) (fun p hp => ?_)
    rw [List.mem_singleton.mp hp]
    exact .string "string"
  have hprops : Ordered (.object [("name", .object [("type", .string "string")])]) := by
    refine .object (List.pairwise_singleton _ _) (fun p hp => ?_)
    rw [List.mem_singleton.mp hp]
    exact hname
  refine .object (List.pairwise_singleton _ _) (fun p hp => ?_)
  rw [List.mem_singleton.mp hp]
  exact hprops

theorem optionalName_strict : (AllStrict (normalizeSchemaStrict optionalName) ↔
    MissedStrict optionalName) ∧ normalizeSchemaStrict (normalizeSchemaStrict optionalName) =
      normalizeSchemaStrict optionalName :=
  normalizeSchemaStrict_iff optionalName optionalName_ordered

def listedObject : Value := .object [("type", .array [.string "object", .string "null"])]

theorem listedObject_open : Ordered listedObject ∧
    ¬ AllStrict (normalizeSchemaStrict listedObject) := by
  constructor
  · refine .object (List.pairwise_singleton _ _) (fun p hp => ?_)
    rw [List.mem_singleton.mp hp]
    refine .array (fun x hx => ?_)
    obtain hx | hx := List.mem_cons.mp hx
    · rw [hx]
      exact .string "object"
    · rw [List.mem_singleton.mp hx]
      exact .string "null"
  · intro h
    have hsame : normalizeSchemaStrict listedObject = listedObject := by
      rw [normalizeSchemaStrict, listedObject, normalizeSchemaRecursive]
      rfl
    rw [hsame] at h
    have hmore := (h _ (.self listedObject) rfl).1
    cases hmore

end IronClaw.StrictSchema
