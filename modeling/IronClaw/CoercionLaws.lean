import IronClaw.Coercion

/-!
# What preparing parameters keeps

The laws of `tools/coercion.rs` at every place that the coercion comes to: the
parameters, the items of an array, the fields of an object, and the value that
is read from a text. A place holds a value, the schema that applies to it and
what becomes of it, so that one induction along the places carries all laws.
-/

set_option autoImplicit false

namespace IronClaw.CoercionLaws
open IronClaw.JsonValue IronClaw.Coercion

section

variable (readers : Readers)

/-- `coerce_value`: there are no more readings inside one another than the
value has text. -/
def fit (v schema : Value) : Value :=
  coerceValue readers (textLength v) v schema

theorem fit_eq (hshrinks : Shrinks readers) (v schema : Value) :
    fit readers v schema = coerceWith (coerceText readers (fit readers)) v schema := by
  have hbound : fit readers v schema = coerceValue readers (textLength v+1) v schema :=
    coerceValue_fuel readers hshrinks _ _ v schema (Nat.le_refl _) (Nat.le_succ _)
  rw [hbound]
  apply coerceWith_inner readers hshrinks
  intro w hw τ
  exact coerceValue_fuel readers hshrinks _ _ w τ (Nat.le_of_lt hw) (Nat.le_refl _)

def fitIn (schema : Option Value) (v : Value) : Value :=
  match schema with
  | none => v
  | some σ => fit readers v σ

end

def itemSchema (schema : Option Value) : Option Value :=
  schema.bind (fun σ => if schemaAllowsType σ "array" then σ.get "items" else none)

def fieldPlace (schema : Option Value) (fields : Fields) (key : String) :
    Option (Value × Bool) :=
  schema.bind (fun σ =>
    if schemaAllowsType σ "object" then (fieldSchemas σ fields).schemaOf key else none)

def fieldSchema (schema : Option Value) (fields : Fields) (key : String) :
    Option Value :=
  (fieldPlace schema fields key).map Prod.fst

def emptied (schema : Option Value) (fields : Fields) (key : String)
    (v : Value) : Bool :=
  (fieldPlace schema fields key).any Prod.snd && v.asStr = some ""

def isContainer : Value → Bool
  | .array _ => true
  | .object _ => true
  | _ => false

structure Fitting where
  value : Value
  schema : Option Value
  result : Value

inductive Inside (readers : Readers) (whole : Fitting) : Fitting → Prop
  | whole : Inside readers whole whole
  | item (items fitted : List Value) (schema : Option Value) (i : ℕ) (v w : Value)
      (hin : Inside readers whole ⟨.array items, schema, .array fitted⟩)
      (hv : items[i]? = some v) (hw : fitted[i]? = some w) :
      Inside readers whole ⟨v, itemSchema schema, w⟩
  | field (fields fitted : Fields) (schema : Option Value) (i : ℕ)
      (key key' : String) (v w : Value)
      (hin : Inside readers whole ⟨.object fields, schema, .object fitted⟩)
      (hv : fields[i]? = some (key, v)) (hw : fitted[i]? = some (key', w)) :
      Inside readers whole ⟨v, fieldSchema schema fields key, w⟩
  | reading (s : String) (schema : Option Value) (read result : Value)
      (hin : Inside readers whole ⟨.string s, schema, result⟩)
      (hread : readers.json s = some read) (hcontainer : isContainer result = true) :
      Inside readers whole ⟨read, schema, result⟩

variable (readers : Readers) (inner : Value → Value → Value) (before after : Fields)

theorem Inside.trans (f g h : Fitting) (hfg : Inside readers f g) (hgh : Inside readers g h) :
    Inside readers f h := by
  induction hgh with
  | whole => exact hfg
  | item items fitted schema i v w hin hv hw ih =>
    exact .item items fitted schema i v w ih hv hw
  | field fields fitted schema i key key' v w hin hv hw ih =>
    exact .field fields fitted schema i key key' v w ih hv hw
  | reading s schema read result hin hread hcontainer ih =>
    exact .reading s schema read result ih hread hcontainer

/-- What is made of a text, by the branches of `coerce_string_value`. -/
theorem coerceText_cases (s : String) (schema : Value) :
    coerceText readers inner s schema = .string s ∨
    (s = "" ∧ schemaAllowsType schema "null" = true ∧ schemaAllowsType schema "string" = false ∧
      coerceText readers inner s schema = .null) ∨
    (s ≠ "" ∧ schemaAllowsType schema "string" = false ∧
      ((∃ n, coerceText readers inner s schema = Value.ofInt n) ∨
       (∃ bits, schemaAllowsType schema "number" = true ∧ readers.float s = some bits ∧
          coerceText readers inner s schema = Value.ofFloat bits) ∨
       (∃ b, coerceText readers inner s schema = .bool b) ∨
       (∃ read, readers.json s = some read ∧ isContainer read = true ∧
          coerceText readers inner s schema = inner read schema))) := by
  unfold coerceText
  cases hv : coerceStringValue readers inner s schema with
  | none => exact .inl rfl
  | some v =>
    right
    rw [Option.getD_some]
    unfold coerceStringValue at hv
    split at hv
    · rename_i hnull
      simp only [Bool.and_eq_true, decide_eq_true_eq, Bool.not_eq_true'] at hnull
      exact .inl ⟨hnull.1.1, hnull.1.2, hnull.2, (Option.some.inj hv).symm⟩
    · split at hv
      · cases hv
      · rename_i hstring
        split at hv
        · cases hv
        · rename_i hne
          refine .inr ⟨hne, Bool.eq_false_iff.mpr hstring, ?_⟩
          rcases Option.or_eq_some_iff.mp hv with hint | ⟨-, hv⟩
          · -- the integer reading
            split at hint
            · obtain ⟨n, -, hn⟩ := Option.map_eq_some_iff.mp hint
              exact .inl ⟨n, hn.symm⟩
            · cases hint
          · rcases Option.or_eq_some_iff.mp hv with hnum | ⟨-, hv⟩
            · split at hnum
              · rename_i hallows
                obtain ⟨bits, hbits, hw⟩ := Option.map_eq_some_iff.mp hnum
                exact .inr (.inl ⟨bits, hallows, hbits, hw.symm⟩)
              · cases hnum
            · rcases Option.or_eq_some_iff.mp hv with hbool | ⟨-, hv⟩
              · split at hbool
                · obtain ⟨b, -, hb⟩ := Option.map_eq_some_iff.mp hbool
                  exact .inr (.inr (.inl ⟨b, hb.symm⟩))
                · cases hbool
              · refine .inr (.inr (.inr ?_))
                split at hv
                · rename_i xs hread
                  split at hv
                  · exact ⟨_, hread, rfl, (Option.some.inj hv).symm⟩
                  · cases hv
                · rename_i fields hread
                  split at hv
                  · exact ⟨_, hread, rfl, (Option.some.inj hv).symm⟩
                  · cases hv
                · cases hv

theorem ofInt_plain (n : ℤ) : isContainer (Value.ofInt n) = false ∧ Value.ofInt n ≠ .null := by
  unfold Value.ofInt
  split <;> exact ⟨rfl, fun h => by cases h⟩

theorem ofFloat_plain (bits : UInt64) : isContainer (Value.ofFloat bits) = false := by
  unfold Value.ofFloat
  split <;> rfl

theorem coerceText_allowed (s : String) (schema : Value)
    (h : schemaAllowsType schema "string" = true) :
    coerceText readers inner s schema = .string s := by
  simp [coerceText, coerceStringValue, h]

theorem coerceText_empty (schema : Value) :
    coerceText readers inner "" schema = .null ↔
      schemaAllowsType schema "null" = true ∧ schemaAllowsType schema "string" = false := by
  cases hnull : schemaAllowsType schema "null" <;>
    cases hstring : schemaAllowsType schema "string" <;>
    simp [coerceText, coerceStringValue, hnull, hstring]

section

variable (readers : Readers)

variable (schema : Option Value) (onString : String → Value → Value)

theorem coerceFields_map (schemas : FieldSchemas) (fields : Fields) :
    coerceFields onString schemas fields = fields.map (fun f =>
      (f.1, match schemas.schemaOf f.1 with
        | none => f.2
        | some (schema, emptyIsNull) =>
          if emptyIsNull && f.2.asStr = some "" then .null
          else coerceWith onString f.2 schema)) := by
  induction fields with
  | nil => rfl
  | cons f rest ih =>
    obtain ⟨key, v⟩ := f
    rw [coerceFields, ih]
    rfl

theorem coerceItems_map (schema : Value) (items : List Value) :
    coerceItems onString schema items = items.map (fun v => coerceWith onString v schema) := by
  induction items with
  | nil => rfl
  | cons v vs ih => simp only [coerceItems, List.map_cons, ih]

theorem fitIn_none : fitIn readers none = id := rfl

theorem fitIn_null : fitIn readers schema .null = .null := by
  cases schema <;> rfl

theorem fitIn_bool (b : Bool) :
    fitIn readers schema (.bool b) = .bool b := by
  cases schema <;> rfl

theorem fitIn_number (n : Number) :
    fitIn readers schema (.number n) = .number n := by
  cases schema <;> rfl

theorem fitIn_ofInt (n : ℤ) :
    fitIn readers schema (Value.ofInt n) = Value.ofInt n := by
  unfold Value.ofInt
  split <;> exact fitIn_number readers schema _

theorem fitIn_ofFloat (bits : UInt64) :
    fitIn readers schema (Value.ofFloat bits) = Value.ofFloat bits := by
  unfold Value.ofFloat
  split
  · exact fitIn_number readers schema _
  · exact fitIn_null readers schema

theorem fitIn_noNewText (v : Value) (t : String) (h : fitIn readers schema v = .string t) :
    v = .string t := by
  cases schema with
  | none => exact h
  | some σ => exact coerceValue_noNewText readers _ v σ t h

def fitField (schema : Option Value) (fields : Fields) (f : String × Value) :
    Value :=
  if emptied schema fields f.1 f.2 then .null
  else fitIn readers (fieldSchema schema fields f.1) f.2

def Fitted (f : Fitting) : Prop :=
  f.result = fitIn readers f.schema f.value ∨ (f.value = .string "" ∧ f.result = .null)

theorem fitted_text (s : String) (result : Value) (hne : s ≠ "")
    (h : Fitted readers ⟨.string s, schema, result⟩) :
    result = fitIn readers schema (.string s) := by
  rcases h with h | ⟨h, -⟩
  · exact h
  · exact absurd (Value.string.inj h) hne

section

variable (hshrinks : Shrinks readers)
include hshrinks

theorem fitIn_text (σ : Value) (s : String) :
    fitIn readers (some σ) (.string s) = coerceText readers (fit readers) s σ := by
  change fit readers (.string s) σ = _
  rw [fit_eq readers hshrinks, coerceWith]

theorem fitIn_array (schema : Option Value) (items : List Value) :
    fitIn readers schema (.array items) =
      .array (items.map (fitIn readers (itemSchema schema))) := by
  cases schema with
  | none => simp [itemSchema, fitIn_none]
  | some σ =>
    change fit readers (.array items) σ = _
    rw [fit_eq readers hshrinks, coerceWith]
    cases hallows : schemaAllowsType σ "array" with
    | false => simp [itemSchema, hallows, fitIn_none]
    | true =>
      cases hitems : σ.get "items" with
      | none => simp [itemSchema, hallows, hitems, fitIn_none]
      | some τ =>
        simp only [itemSchema, Option.bind_some, hallows, hitems, if_true, coerceItems_map]
        congr 1
        apply List.map_congr_left
        intro v _
        exact (fit_eq readers hshrinks v τ).symm

theorem fitIn_object (schema : Option Value) (fields : Fields) :
    fitIn readers schema (.object fields) =
      .object (fields.map (fun f => (f.1, fitField readers schema fields f))) := by
  cases schema with
  | none => simp [fitField, emptied, fieldSchema, fieldPlace, fitIn_none]
  | some σ =>
    change fit readers (.object fields) σ = _
    rw [fit_eq readers hshrinks, coerceWith]
    cases hallows : schemaAllowsType σ "object" with
    | false => simp [fitField, emptied, fieldSchema, fieldPlace, hallows, fitIn_none]
    | true =>
      simp only [if_true, coerceFields_map]
      congr 1
      apply List.map_congr_left
      intro f _
      cases hplace : (fieldSchemas σ fields).schemaOf f.1 with
      | none => simp [fitField, emptied, fieldSchema, fieldPlace, hallows, hplace, fitIn_none]
      | some place =>
        simp only [fitField, emptied, fieldSchema, fieldPlace, Option.bind_some, hallows, hplace,
          if_true, Option.any_some, Option.map_some, fitIn, fit_eq readers hshrinks]

theorem fitted_item (items fitted : List Value) (schema : Option Value) (i : ℕ) (v w : Value)
    (h : Fitted readers ⟨.array items, schema, .array fitted⟩) (hv : items[i]? = some v)
    (hw : fitted[i]? = some w) : Fitted readers ⟨v, itemSchema schema, w⟩ := by
  rcases h with h | ⟨h, -⟩
  · simp only [fitIn_array readers hshrinks, Value.array.injEq] at h
    rw [h, List.getElem?_map, hv] at hw
    exact .inl (Option.some.inj hw).symm
  · cases h

theorem fitted_field (fields fitted : Fields) (schema : Option Value) (i : ℕ)
    (key key' : String) (v w : Value)
    (h : Fitted readers ⟨.object fields, schema, .object fitted⟩)
    (hv : fields[i]? = some (key, v)) (hw : fitted[i]? = some (key', w)) :
    Fitted readers ⟨v, fieldSchema schema fields key, w⟩ := by
  rcases h with h | ⟨h, -⟩
  · simp only [fitIn_object readers hshrinks, Value.object.injEq] at h
    rw [h, List.getElem?_map, hv] at hw
    have hfield : fitField readers schema fields (key, v) = w :=
      (Prod.mk.inj (Option.some.inj hw)).2
    unfold fitField at hfield
    split at hfield
    · rename_i hemptied
      have htext := of_decide_eq_true (Bool.and_eq_true_iff.mp hemptied).2
      exact .inr ⟨asStr_some v "" htext, hfield.symm⟩
    · exact .inl hfield.symm
  · cases h

theorem fit_container (schema v : Value) (h : isContainer v = true) :
    isContainer (fit readers v schema) = true := by
  cases v with
  | array items =>
    have hfit := fitIn_array readers hshrinks (some schema) items
    simp only [fitIn] at hfit
    rw [hfit]
    rfl
  | object fields =>
    have hfit := fitIn_object readers hshrinks (some schema) fields
    simp only [fitIn] at hfit
    rw [hfit]
    rfl
  | _ => cases h

theorem fitted_reading (s : String) (schema : Option Value) (read result : Value)
    (h : Fitted readers ⟨.string s, schema, result⟩) (hread : readers.json s = some read)
    (hcontainer : isContainer result = true) : Fitted readers ⟨read, schema, result⟩ := by
  rcases h with h | ⟨-, h⟩
  · cases schema with
    | none =>
      rw [show result = .string s from h] at hcontainer
      cases hcontainer
    | some σ =>
      have hresult : result = coerceText readers (fit readers) s σ :=
        h.trans (fitIn_text readers hshrinks σ s)
      rcases coerceText_cases readers (fit readers) s σ with
        hkept | ⟨-, -, -, hnull⟩ |
          ⟨-, -, ⟨n, hn⟩ | ⟨bits, -, -, hbits⟩ | ⟨b, hb⟩ | ⟨found, hfound, -, hfit⟩⟩
      · rw [hresult, hkept] at hcontainer
        cases hcontainer
      · rw [hresult, hnull] at hcontainer
        cases hcontainer
      · rw [hresult, hn, (ofInt_plain n).1] at hcontainer
        cases hcontainer
      · rw [hresult, hbits, ofFloat_plain bits] at hcontainer
        cases hcontainer
      · rw [hresult, hb] at hcontainer
        cases hcontainer
      · rw [hread] at hfound
        cases hfound
        exact .inl (hresult.trans hfit)
  · rw [show result = .null from h] at hcontainer
    cases hcontainer

theorem inside_fitted (whole f : Fitting) (hwhole : Fitted readers whole)
    (hin : Inside readers whole f) : Fitted readers f := by
  induction hin with
  | whole => exact hwhole
  | item items fitted schema i v w hin hv hw ih =>
    exact fitted_item readers hshrinks items fitted schema i v w ih hv hw
  | field fields fitted schema i key key' v w hin hv hw ih =>
    exact fitted_field readers hshrinks fields fitted schema i key key' v w ih hv hw
  | reading s schema read result hin hread hcontainer ih =>
    exact fitted_reading readers hshrinks s schema read result ih hread hcontainer

end
end

def requiredOf (schema : Value) : List String :=
  ((schema.get "required").bind Value.asArray).getD [] |>.filterMap Value.asStr

def endless (bits : UInt64) : Bool :=
  (bits >>> 52) &&& 0x7FF = 0x7FF

structure Conservative (readers : Readers) (f : Fitting) : Prop where
  keys : ∀ fields, f.value = .object fields →
    ∃ fitted, f.result = .object fitted ∧ fitted.map Prod.fst = fields.map Prod.fst
  length : ∀ items, f.value = .array items →
    ∃ fitted, f.result = .array fitted ∧ fitted.length = items.length
  scalar : f.value.asStr = none → isContainer f.value = false → f.result = f.value
  text : ∀ s, f.value = .string s → s ≠ "" →
    f.schema.all (fun σ => schemaAllowsType σ "string") = true → f.result = f.value
  lost : ∀ s, f.value = .string s → s ≠ "" → f.result = .null →
    ∃ σ bits, f.schema = some σ ∧ schemaAllowsType σ "number" = true ∧
      schemaAllowsType σ "string" = false ∧ readers.float s = some bits ∧ endless bits = true
  required : ∀ (fields fitted : Fields) (σ : Value) (i : ℕ) (key : String),
    f = ⟨.object fields, some σ, .object fitted⟩ →
    fields[i]? = some (key, .string "") → key ∈ requiredOf σ →
    (fitted[i]? = some (key, .null) ↔ ∃ τ, fieldSchema (some σ) fields key = some τ ∧
      schemaAllowsType τ "null" = true ∧ schemaAllowsType τ "string" = false)

section

variable (readers : Readers) (hshrinks : Shrinks readers)
include hshrinks

theorem text_lost (σ : Value) (s : String) (hne : s ≠ "")
    (h : coerceText readers (fit readers) s σ = .null) :
    ∃ bits, schemaAllowsType σ "number" = true ∧ schemaAllowsType σ "string" = false ∧
      readers.float s = some bits ∧ endless bits = true := by
  rcases coerceText_cases readers (fit readers) s σ with
    hkept | ⟨hempty, -⟩ |
      ⟨-, hstring, ⟨n, hn⟩ | ⟨bits, hnumber, hread, hbits⟩ | ⟨b, hb⟩ | ⟨read, -, hread, hfit⟩⟩
  · rw [h] at hkept
    cases hkept
  · exact absurd hempty hne
  · exact absurd (hn.symm.trans h) (ofInt_plain n).2
  · refine ⟨bits, hnumber, hstring, hread, ?_⟩
    have hnull : Value.ofFloat bits = .null := hbits.symm.trans h
    unfold Value.ofFloat at hnull
    split at hnull
    · cases hnull
    · rename_i hexponent
      exact decide_eq_true (not_not.mp hexponent)
  · rw [h] at hb
    cases hb
  · have hcontainer := fit_container readers hshrinks σ read hread
    rw [← hfit, h] at hcontainer
    cases hcontainer

/-- Where its own schema requires a property, nothing but the schema of the
property empties it. -/
theorem required_field (σ : Value) (fields : Fields) (key : String)
    (hrequired : key ∈ requiredOf σ) :
    fitField readers (some σ) fields (key, .string "") = .null ↔
      ∃ τ, fieldSchema (some σ) fields key = some τ ∧
        schemaAllowsType τ "null" = true ∧ schemaAllowsType τ "string" = false := by
  have hkept : emptied (some σ) fields key (.string "") = false := by
    have hcontains : (fieldSchemas σ fields).required.contains key = true := by
      exact List.contains_iff_mem.mpr hrequired
    simp only [emptied, fieldPlace, Option.bind_some]
    split
    · unfold FieldSchemas.schemaOf
      split
      · simp only [hcontains, Option.any_some, Bool.not_true, Bool.false_and]
      · cases (fieldSchemas σ fields).additional <;> rfl
    · rfl
  unfold fitField
  simp only [hkept, Bool.false_eq_true, if_false]
  cases hplace : fieldSchema (some σ) fields key with
  | none =>
    constructor
    · intro h
      cases h
    · rintro ⟨τ, hτ, -⟩
      cases hτ
  | some τ =>
    rw [fitIn_text readers hshrinks, coerceText_empty]
    simp

theorem fitted_keys (schema : Option Value) (fields : Fields) (result : Value)
    (h : Fitted readers ⟨.object fields, schema, result⟩) :
    ∃ fitted, result = .object fitted ∧ fitted.map Prod.fst = fields.map Prod.fst := by
  rcases h with h | ⟨h, -⟩
  · refine ⟨_, h.trans (fitIn_object readers hshrinks schema fields), ?_⟩
    rw [List.map_map]
    rfl
  · cases h

theorem fitted_length (schema : Option Value) (items : List Value) (result : Value)
    (h : Fitted readers ⟨.array items, schema, result⟩) :
    ∃ fitted, result = .array fitted ∧ fitted.length = items.length := by
  rcases h with h | ⟨h, -⟩
  · exact ⟨_, h.trans (fitIn_array readers hshrinks schema items), List.length_map _⟩
  · cases h

theorem fitted_required (fields fitted : Fields) (σ : Value) (i : ℕ) (key : String)
    (h : Fitted readers ⟨.object fields, some σ, .object fitted⟩)
    (hv : fields[i]? = some (key, .string "")) (hrequired : key ∈ requiredOf σ) :
    fitted[i]? = some (key, .null) ↔ ∃ τ, fieldSchema (some σ) fields key = some τ ∧
      schemaAllowsType τ "null" = true ∧ schemaAllowsType τ "string" = false := by
  rcases h with h | ⟨h, -⟩
  · simp only [fitIn_object readers hshrinks, Value.object.injEq] at h
    rw [h, List.getElem?_map, hv, Option.map_some, Option.some.injEq, Prod.mk.injEq]
    simp only [true_and]
    exact required_field readers hshrinks σ fields key hrequired
  · cases h

/-- What holds of a fitted place, law by law. -/
theorem fitted_conservative (f : Fitting) (h : Fitted readers f) : Conservative readers f := by
  obtain ⟨value, schema, result⟩ := f
  constructor
  case keys =>
    rintro fields rfl
    exact fitted_keys readers hshrinks schema fields result h
  case length =>
    rintro items rfl
    exact fitted_length readers hshrinks schema items result h
  case scalar =>
    intro htext hcontainer
    rcases h with h | ⟨h, -⟩
    · cases value with
      | null => exact h.trans (fitIn_null readers schema)
      | bool b => exact h.trans (fitIn_bool readers schema b)
      | number n => exact h.trans (fitIn_number readers schema n)
      | string s => cases htext
      | array items => cases hcontainer
      | object fields => cases hcontainer
    · rw [show value = .string "" from h] at htext
      cases htext
  case text =>
    rintro s rfl hne hallows
    have hresult := fitted_text readers schema s result hne h
    cases schema with
    | none => exact hresult
    | some σ =>
      rw [fitIn_text readers hshrinks, coerceText_allowed readers _ s σ hallows] at hresult
      exact hresult
  case lost =>
    intro s hvalue hne hnull
    subst hvalue
    have hresult := fitted_text readers schema s result hne h
    rw [show result = .null from hnull] at hresult
    cases schema with
    | none => cases hresult
    | some σ =>
      rw [fitIn_text readers hshrinks] at hresult
      obtain ⟨bits, hlost⟩ := text_lost readers hshrinks σ s hne hresult.symm
      exact ⟨σ, bits, rfl, hlost⟩
  case required =>
    intro fields fitted σ i key heq hv hrequired
    rw [heq] at h
    exact fitted_required readers hshrinks fields fitted σ i key h hv hrequired

end

def sameVariants (before after : Fields) : ℕ → Value → Bool
  | 0, _ => true
  | left+1, schema =>
    (variantsOf schema "allOf").all (sameVariants before after left) &&
    ["oneOf", "anyOf"].all (fun key =>
      findDiscriminatedVariant (variantsOf schema key) before =
        findDiscriminatedVariant (variantsOf schema key) after &&
      (findDiscriminatedVariant (variantsOf schema key) before).all
        (sameVariants before after left))

def Steady (f : Fitting) : Prop :=
  ∀ fields fitted σ, f = ⟨.object fields, some σ, .object fitted⟩ →
    schemaAllowsType σ "object" = true →
    sameVariants fields fitted (maxCombinatorDepth+1) σ = true

theorem sameVariants_succ (left : ℕ) (schema : Value)
    (h : sameVariants before after (left+1) schema = true) :
    (∀ variant ∈ variantsOf schema "allOf", sameVariants before after left variant = true) ∧
    ∀ key, key = "oneOf" ∨ key = "anyOf" →
      findDiscriminatedVariant (variantsOf schema key) before =
        findDiscriminatedVariant (variantsOf schema key) after ∧
      ∀ variant, findDiscriminatedVariant (variantsOf schema key) before = some variant →
        sameVariants before after left variant = true := by
  simp only [sameVariants, Bool.and_eq_true, List.all_eq_true, decide_eq_true_eq] at h
  refine ⟨h.1, ?_⟩
  intro key hkey
  have hboth := h.2 key (by simpa using hkey)
  refine ⟨hboth.1, ?_⟩
  intro variant hvariant
  have hall := hboth.2
  rw [hvariant] at hall
  exact hall

def withVariant (collect : Value → Option Fields)
    (merged : Fields) (variant : Value) : Fields :=
  extend (extend merged ((propertiesOf variant).getD [])) ((collect variant).getD [])

def withChosen (collect : Value → Option Fields)
    (merged : Fields) : Option Value → Fields
  | some variant => withVariant collect merged variant
  | none => merged

def mergedProperties (collect : Value → Option Fields) (schema : Value)
    (one any : Option Value) : Fields :=
  withChosen collect (withChosen collect ((variantsOf schema "allOf").foldl (withVariant collect)
    (extend [] ((propertiesOf schema).getD []))) one) any

theorem collect_succ (obj : Fields) (left : ℕ) (schema : Value) :
    collectProperties obj (left+1) schema =
      if (schema.get "allOf").isNone && (schema.get "oneOf").isNone && (schema.get "anyOf").isNone
      then none
      else
        (fun merged : Fields => if merged.isEmpty then none else some merged)
          (mergedProperties (collectProperties obj left) schema
            (findDiscriminatedVariant (variantsOf schema "oneOf") obj)
            (findDiscriminatedVariant (variantsOf schema "anyOf") obj)) := by
  rfl

theorem withChosen_congr (f g : Value → Option Fields)
    (merged : Fields) (chosen : Option Value)
    (h : ∀ variant, chosen = some variant → f variant = g variant) :
    withChosen f merged chosen = withChosen g merged chosen := by
  cases chosen with
  | none => rfl
  | some variant => simp only [withChosen, withVariant, h variant rfl]

theorem collect_same (left : ℕ) (schema : Value)
    (h : sameVariants before after left schema = true) :
    collectProperties before left schema = collectProperties after left schema := by
  induction left generalizing schema with
  | zero => rfl
  | succ left ih =>
    obtain ⟨hall, hchosen⟩ := sameVariants_succ before after left schema h
    obtain ⟨hone, honeIn⟩ := hchosen "oneOf" (.inl rfl)
    obtain ⟨hany, hanyIn⟩ := hchosen "anyOf" (.inr rfl)
    have hmerged : mergedProperties (collectProperties before left) schema
          (findDiscriminatedVariant (variantsOf schema "oneOf") before)
          (findDiscriminatedVariant (variantsOf schema "anyOf") before) =
        mergedProperties (collectProperties after left) schema
          (findDiscriminatedVariant (variantsOf schema "oneOf") before)
          (findDiscriminatedVariant (variantsOf schema "anyOf") before) := by
      unfold mergedProperties
      rw [withChosen_congr _ (collectProperties after left) _ _
          (fun variant hv => ih variant (hanyIn variant hv)),
        withChosen_congr _ (collectProperties after left) _ _
          (fun variant hv => ih variant (honeIn variant hv))]
      congr 2
      apply List.foldl_ext
      intro merged variant hvariant
      simp only [withVariant, ih variant (hall variant hvariant)]
    rw [collect_succ, collect_succ, hmerged, hone, hany]

theorem fieldSchemas_same (schema : Value)
    (h : sameVariants before after (maxCombinatorDepth+1) schema = true) :
    fieldSchemas schema before = fieldSchemas schema after := by
  obtain ⟨-, hchosen⟩ := sameVariants_succ before after maxCombinatorDepth schema h
  have hadditional :
      resolveAdditionalProperties schema before = resolveAdditionalProperties schema after := by
    simp only [resolveAdditionalProperties, List.findSome?_cons, List.findSome?_nil,
      (hchosen "oneOf" (.inl rfl)).1,
      (hchosen "anyOf" (.inr rfl)).1]
  simp only [fieldSchemas, resolveEffectiveProperties, hadditional, collect_same _ _ _ _ h]

theorem item_length (items : List Value) (v : Value) (h : v ∈ items) :
    textLength v ≤ textLength (.array items) := by
  simp only [textLength]
  induction items with
  | nil => cases h
  | cons w rest ih =>
    simp only [itemsLength]
    rcases List.mem_cons.mp h with rfl | h
    · omega
    · have hrest := ih h
      omega

theorem field_length (fields : Fields) (f : String × Value) (h : f ∈ fields) :
    textLength f.2 ≤ textLength (.object fields) := by
  simp only [textLength]
  induction fields with
  | nil => cases h
  | cons g rest ih =>
    simp only [fieldsLength]
    rcases List.mem_cons.mp h with rfl | h
    · omega
    · have hrest := ih h
      omega

/-- Induction along the coercion: the items, the fields, and what is read from
a text, which holds less text. -/
theorem fitting_induction (readers : Readers) (hshrinks : Shrinks readers) (P : Value → Prop)
    (hnull : P .null) (hbool : ∀ b, P (.bool b)) (hnumber : ∀ n, P (.number n))
    (harray : ∀ items, (∀ v ∈ items, P v) → P (.array items))
    (hobject : ∀ fields, (∀ f ∈ fields, P f.2) → P (.object fields))
    (htext : ∀ s, (∀ read, readers.json s = some read → P read) → P (.string s)) :
    ∀ v, P v
  | .null => hnull
  | .bool b => hbool b
  | .number n => hnumber n
  | .array items => harray items (fun v _ =>
      fitting_induction readers hshrinks P hnull hbool hnumber harray hobject htext v)
  | .object fields => hobject fields (fun f _ =>
      fitting_induction readers hshrinks P hnull hbool hnumber harray hobject htext f.2)
  | .string s => htext s (fun read _ =>
      fitting_induction readers hshrinks P hnull hbool hnumber harray hobject htext read)
termination_by v => (textLength v, sizeOf v)
decreasing_by
  · rename_i hv
    have hlength := item_length items v hv
    have hsize := List.sizeOf_lt_of_mem hv
    simp only [Prod.lex_def, Value.array.sizeOf_spec]
    omega
  · rename_i hf
    have hlength := field_length fields f hf
    have hsize := List.sizeOf_lt_of_mem hf
    have hpair : sizeOf f = 1+sizeOf f.1+sizeOf f.2 := rfl
    simp only [Prod.lex_def, Value.object.sizeOf_spec]
    omega
  · rename_i hread
    have hlength := hshrinks s read hread
    simp only [Prod.lex_def, textLength]
    omega

theorem fieldPlace_same (schema : Option Value) (fields fitted : Fields)
    (h : Steady ⟨.object fields, schema, .object fitted⟩) (key : String) :
    fieldPlace schema fitted key = fieldPlace schema fields key := by
  cases schema with
  | none => simp only [fieldPlace, Option.bind_none]
  | some σ =>
    simp only [fieldPlace, Option.bind_some]
    by_cases hallows : schemaAllowsType σ "object" = true
    · have hsame := fieldSchemas_same fields fitted σ (h fields fitted σ rfl hallows)
      rw [if_pos hallows, if_pos hallows, hsame]
    · rw [if_neg hallows, if_neg hallows]

def fitting (readers : Readers) (schema : Option Value) (v : Value) : Fitting :=
  ⟨v, schema, fitIn readers schema v⟩

section

variable (readers : Readers) (hshrinks : Shrinks readers)
include hshrinks

variable (schema : Option Value)

theorem fitIn_item_twice (items : List Value) (ih : ∀ v ∈ items, ∀ schema,
      (∀ f, Inside readers (fitting readers schema v) f → Steady f) →
      fitIn readers schema (fitIn readers schema v) = fitIn readers schema v)
    (h : ∀ f, Inside readers (fitting readers schema (.array items)) f → Steady f) :
    fitIn readers schema (fitIn readers schema (.array items)) =
      fitIn readers schema (.array items) := by
  have hwhole := fitIn_array readers hshrinks schema items
  rw [hwhole, fitIn_array readers hshrinks, List.map_map]
  congr 1
  apply List.map_congr_left
  intro v hv
  apply ih v hv
  intro f hf
  apply h f
  refine Inside.trans readers _ _ f ?_ hf
  obtain ⟨i, hi⟩ := List.mem_iff_getElem?.mp hv
  refine .item items _ schema i v _ ?_ hi (by rw [List.getElem?_map, hi]; rfl)
  rw [← hwhole]
  exact .whole

omit hshrinks in
theorem emptied_text (fields : Fields) (key : String) (v : Value)
    (h : emptied schema fields key v = true) : v = .string "" :=
  asStr_some v "" (of_decide_eq_true (Bool.and_eq_true_iff.mp h).2)

omit hshrinks in
/-- A field that is fitted again under the same schema stays as it is. -/
theorem fitField_twice (fields fitted : Fields) (f : String × Value)
    (hplace : fieldPlace schema fitted f.1 = fieldPlace schema fields f.1)
    (ih : emptied schema fields f.1 f.2 = false →
      fitIn readers (fieldSchema schema fields f.1)
          (fitIn readers (fieldSchema schema fields f.1) f.2) =
        fitIn readers (fieldSchema schema fields f.1) f.2) :
    fitField readers schema fitted (f.1, fitField readers schema fields f) =
      fitField readers schema fields f := by
  have hschema : fieldSchema schema fitted f.1 = fieldSchema schema fields f.1 := by
    unfold fieldSchema
    rw [hplace]
  have hemptied : ∀ v, emptied schema fitted f.1 v = emptied schema fields f.1 v := by
    intro v
    unfold emptied
    rw [hplace]
  cases hempty : emptied schema fields f.1 f.2 with
  | true =>
    have hnull : fitField readers schema fields f = .null := by
      rw [fitField, hempty, if_pos rfl]
    rw [hnull, fitField, fitIn_null, ite_self]
  | false =>
    have hfit : fitField readers schema fields f =
        fitIn readers (fieldSchema schema fields f.1) f.2 := by
      rw [fitField, hempty, if_neg Bool.false_ne_true]
    have hagain : emptied schema fitted f.1
        (fitIn readers (fieldSchema schema fields f.1) f.2) = false := by
      rw [hemptied, Bool.eq_false_iff]
      intro htrue
      -- a text after fitting was that text before
      have htext := fitIn_noNewText readers _ _ _ (emptied_text schema fields _ _ htrue)
      have hemptyTrue : emptied schema fields f.1 f.2 = true := by
        rw [htext]
        exact Bool.and_eq_true_iff.mpr ⟨(Bool.and_eq_true_iff.mp htrue).1, rfl⟩
      rw [hempty] at hemptyTrue
      cases hemptyTrue
    rw [hfit, fitField, hagain, if_neg Bool.false_ne_true, hschema]
    exact ih hempty

theorem fitIn_field_twice (fields : Fields) (ih : ∀ f ∈ fields, ∀ schema,
      (∀ g, Inside readers (fitting readers schema f.2) g → Steady g) →
      fitIn readers schema (fitIn readers schema f.2) = fitIn readers schema f.2)
    (h : ∀ g, Inside readers (fitting readers schema (.object fields)) g → Steady g) :
    fitIn readers schema (fitIn readers schema (.object fields)) =
      fitIn readers schema (.object fields) := by
  have hwhole := fitIn_object readers hshrinks schema fields
  have hsteady : Steady ⟨.object fields, schema, fitIn readers schema (.object fields)⟩ :=
    h _ .whole
  rw [hwhole] at hsteady
  have hplace := fieldPlace_same schema fields _ hsteady
  rw [hwhole, fitIn_object readers hshrinks, List.map_map]
  congr 1
  apply List.map_congr_left
  intro f hf
  simp only [Function.comp_apply, Prod.mk.injEq, true_and]
  apply fitField_twice readers schema fields _ f (hplace f.1)
  intro hempty
  apply ih f hf
  intro g hg
  apply h g
  refine Inside.trans readers _ _ g ?_ hg
  obtain ⟨i, hi⟩ := List.mem_iff_getElem?.mp hf
  have hfit : fitField readers schema fields f =
      fitIn readers (fieldSchema schema fields f.1) f.2 := by
    rw [fitField, hempty, if_neg Bool.false_ne_true]
  have hi' : (fields.map (fun f => (f.1, fitField readers schema fields f)))[i]? =
      some (f.1, fitIn readers (fieldSchema schema fields f.1) f.2) := by
    rw [List.getElem?_map, hi, Option.map_some, hfit]
  refine .field fields _ schema i f.1 f.1 f.2 _ ?_ hi hi'
  rw [← hwhole]
  exact .whole

theorem fitIn_text_twice (s : String) (ih : ∀ read, readers.json s = some read → ∀ schema,
      (∀ f, Inside readers (fitting readers schema read) f → Steady f) →
      fitIn readers schema (fitIn readers schema read) = fitIn readers schema read)
    (h : ∀ f, Inside readers (fitting readers schema (.string s)) f → Steady f) :
    fitIn readers schema (fitIn readers schema (.string s)) =
      fitIn readers schema (.string s) := by
  cases schema with
  | none => rfl
  | some σ =>
    have hwhole := fitIn_text readers hshrinks σ s
    rcases coerceText_cases readers (fit readers) s σ with
      hkept | ⟨-, -, -, hnull⟩ |
        ⟨-, -, ⟨n, hn⟩ | ⟨bits, -, -, hbits⟩ | ⟨b, hb⟩ | ⟨read, hread, hcontainer, hfit⟩⟩
    · rw [hwhole, hkept, hwhole, hkept]
    · rw [hwhole, hnull, fitIn_null]
    · rw [hwhole, hn, fitIn_ofInt]
    · rw [hwhole, hbits, fitIn_ofFloat]
    · rw [hwhole, hb, fitIn_bool]
    · have hresult : fitIn readers (some σ) (.string s) = fitIn readers (some σ) read :=
        hwhole.trans hfit
      rw [hresult]
      apply ih read hread
      intro f hf
      apply h f
      refine Inside.trans readers _ _ f ?_ hf
      refine .reading s (some σ) read _ ?_ hread (fit_container readers hshrinks σ read hcontainer)
      rw [← hresult]
      exact .whole

/-- Fitting twice is fitting once, where no variant changes on the way. -/
theorem fitIn_twice (v : Value) (schema : Option Value)
    (h : ∀ f, Inside readers (fitting readers schema v) f → Steady f) :
    fitIn readers schema (fitIn readers schema v) = fitIn readers schema v := by
  refine fitting_induction readers hshrinks (fun v => ∀ schema,
    (∀ f, Inside readers (fitting readers schema v) f → Steady f) →
    fitIn readers schema (fitIn readers schema v) = fitIn readers schema v)
    ?_ ?_ ?_ ?_ ?_ ?_ v schema h
  · intro schema _
    rw [fitIn_null, fitIn_null]
  · intro b schema _
    rw [fitIn_bool, fitIn_bool]
  · intro n schema _
    rw [fitIn_number, fitIn_number]
  · intro items ih schema h
    exact fitIn_item_twice readers hshrinks schema items ih h
  · intro fields ih schema h
    exact fitIn_field_twice readers hshrinks schema fields ih h
  · intro s ih schema h
    exact fitIn_text_twice readers hshrinks schema s ih h

end

def preparing (readers : Readers) (params schema : Value) : Fitting :=
  ⟨params, some (resolveRefs schema), prepareParamsForSchema readers params schema⟩

/-- The readings inside one another end by themselves, every place keeps what
it has to keep, and preparing twice is preparing once unless a variant changes. -/
theorem coercion_laws (hshrinks : Shrinks readers) (params schema : Value) :
    (∀ n, textLength params ≤ n → coerceValue readers n params (resolveRefs schema) =
      prepareParamsForSchema readers params schema) ∧
    (∀ f, Inside readers (preparing readers params schema) f → Conservative readers f) ∧
    ((∀ f, Inside readers (preparing readers params schema) f → Steady f) →
      prepareParamsForSchema readers (prepareParamsForSchema readers params schema) schema =
        prepareParamsForSchema readers params schema) := by
  refine ⟨?_, ?_, ?_⟩
  · intro n hn
    exact (prepare_fuel readers hshrinks params schema n hn).symm
  · intro f hf
    apply fitted_conservative readers hshrinks
    exact inside_fitted readers hshrinks _ f (.inl rfl) hf
  · intro h
    exact fitIn_twice readers hshrinks params (some (resolveRefs schema)) h

def numerals : Readers where
  json s := if s = "1" then some (.number (.posInt 1))
    else if s = "5" then some (.number (.posInt 5)) else none
  float s := if s = "1" then some 0x3FF0000000000000
    else if s = "5" then some 0x4014000000000000
    else if s = "inf" then some 0x7FF0000000000000 else none

theorem numerals_plain (s : String) (v : Value) (h : numerals.json s = some v) :
    s.length = 1 ∧ ∃ n, v = .number n := by
  simp only [numerals] at h
  split at h
  · rename_i hs
    cases h
    exact ⟨by rw [hs]; rfl, _, rfl⟩
  · split at h
    · rename_i hs
      cases h
      exact ⟨by rw [hs]; rfl, _, rfl⟩
    · cases h

theorem numerals_shrinks : Shrinks numerals := by
  intro s v h
  obtain ⟨hlength, n, rfl⟩ := numerals_plain s v h
  simp only [textLength, hlength]
  omega

def typed (name : String) : Value :=
  .object [("type", .string name)]

def listing : Value :=
  .object [("oneOf", .array [.object [
    ("properties", .object [
      ("action", .object [("const", .string "list")]),
      ("limit", typed "integer")]),
    ("required", .array [.string "limit"])]])]

def paging : Value :=
  .object [
    ("oneOf", .array [.object [("properties", .object [
      ("limit", typed "integer"),
      ("page", .object [("const", .number (.posInt 1))])])]]),
    ("properties", .object [("page", typed "integer")])]

def firstPage : Value :=
  .object [("limit", .string "5"), ("page", .string "1")]

/-- Over an object of plain values there are no further objects. -/
theorem inside_flat (fields : Fields) (schema : Option Value) (result : Value)
    (hplain : ∀ f ∈ fields, isContainer f.2 = false) (f : Fitting)
    (h : Inside numerals ⟨.object fields, schema, result⟩ f) :
    f = ⟨.object fields, schema, result⟩ ∨ isContainer f.value = false := by
  induction h with
  | whole => exact .inl rfl
  | item items fitted schema' i v w hin hv hw ih =>
    rcases ih with heq | hcontainer
    · cases heq
    · cases hcontainer
  | field fields' fitted schema' i key key' v w hin hv hw ih =>
    rcases ih with heq | hcontainer
    · cases heq
      exact .inr (hplain _ (List.mem_of_getElem? hv))
    · cases hcontainer
  | reading s schema' read result' hin hread hcontainer ih =>
    obtain ⟨-, n, rfl⟩ := numerals_plain s read hread
    exact .inr rfl

theorem coercion_laws_listed :
    prepareParamsForSchema numerals
        (prepareParamsForSchema numerals
          (.object [("action", .string "list"), ("limit", .string "5")]) listing) listing =
      .object [("action", .string "list"), ("limit", .number (.posInt 5))] := by
  have hresult : prepareParamsForSchema numerals
      (.object [("action", .string "list"), ("limit", .string "5")]) listing =
      .object [("action", .string "list"), ("limit", .number (.posInt 5))] := by
    decide
  refine ((coercion_laws numerals numerals_shrinks _ listing).2.2 ?_).trans hresult
  intro f hf
  rcases inside_flat _ _ _ (by decide) f hf with rfl | hplain
  · intro fields fitted σ heq _
    rw [hresult] at heq
    cases heq
    decide
  · intro fields fitted σ heq
    rw [heq] at hplain
    cases hplain

/-- A required property whose schema allows null, one that the variant
requires, a number beyond all floats, and a page that is a text before and the
first page after. -/
theorem unlawful_inputs :
    prepareParamsForSchema numerals (.object [("limit", .string "")])
        (.object [
          ("properties", .object [("limit", .object [
            ("type", .array [.string "integer", .string "null"])])]),
          ("required", .array [.string "limit"])]) =
      .object [("limit", .null)] ∧
    prepareParamsForSchema numerals
        (.object [("action", .string "list"), ("limit", .string "")]) listing =
      .object [("action", .string "list"), ("limit", .null)] ∧
    prepareParamsForSchema numerals (.string "inf") (typed "number") = .null ∧
    prepareParamsForSchema numerals (prepareParamsForSchema numerals firstPage paging) paging ≠
      prepareParamsForSchema numerals firstPage paging := by
  decide

end IronClaw.CoercionLaws
