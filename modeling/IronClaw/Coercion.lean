import IronClaw.JsonValue
import IronClaw.Lib.Text

/-!
# Preparing the parameters of a tool

`tools/coercion.rs`: the parameters that a language model writes are fitted to
the schema of the tool. References of the schema are inlined first; then texts
that stand for numbers, booleans, arrays or objects are read, wherever the
schema does not allow a string. A text is read by the JSON reader, whose values
are fitted again, so the recursion is not on the value alone: the number of
readings inside one another is a bound that the length of the texts gives.
-/

set_option autoImplicit false

namespace IronClaw.Coercion
open IronClaw.JsonValue
open Lib.Text

def Value.asObject : Value → Option Fields
  | .object fields => some fields
  | _ => none

def Value.asArray : Value → Option (List Value)
  | .array xs => some xs
  | _ => none

def maxRefDepth : ℕ := 16

def resolveRefPointer (ref : String) (definitions : Value) : Option Value :=
  match stripPrefix ref "#/" with
  | none => none
  | some path =>
    match (path.toList.splitOn '/').map String.ofList with
    | [place, name] =>
      if place = "definitions" || place = "$defs" then definitions.get name else none
    | _ => none

def refOf (fields : Fields) : Option String :=
  match lookup "$ref" fields with
  | some v => v.asStr
  | none => none

/-- `resolve_refs_inner`, given the levels that are left. -/
def resolveRefsInner (definitions : Value) : ℕ → Value → Value
  | 0, schema => schema
  | left+1, .object fields =>
    match refOf fields with
    | some ref =>
      match resolveRefPointer ref definitions with
      | some target => resolveRefsInner definitions left target
      | none => .object fields
    | none =>
      .object (fields.map (fun f =>
        if f.1 = "definitions" || f.1 = "$defs" then f
        else (f.1, resolveRefsInner definitions left f.2)))
  | left+1, .array xs => .array (xs.map (resolveRefsInner definitions left))
  | _+1, schema => schema

def resolveRefs (schema : Value) : Value :=
  resolveRefsInner (((schema.get "definitions").or (schema.get "$defs")).getD .null)
    (maxRefDepth+1) schema

def schemaAllowsType (schema : Value) (expected : String) : Bool :=
  match schema.get "type" with
  | some (.string t) => t = expected
  | some (.array types) => types.any (fun t => t.asStr = some expected)
  | _ =>
    if expected = "object" then
      ((schema.get "properties").bind Value.asObject).isSome || (schema.get "oneOf").isSome ||
        (schema.get "anyOf").isSome || (schema.get "allOf").isSome
    else if expected = "array" then (schema.get "items").isSome
    else false

def sameNumber : Number → Number → Bool
  | .float a, .float b => a = b || (a <<< 1 = 0 && b <<< 1 = 0)
  | a, b => a = b

mutual

def sameValue : Value → Value → Bool
  | .number a, .number b => sameNumber a b
  | .array xs, .array ys => sameItems xs ys
  | .object xs, .object ys => sameFields xs ys
  | .null, .null => true
  | .bool a, .bool b => a = b
  | .string a, .string b => a = b
  | _, _ => false

def sameItems : List Value → List Value → Bool
  | [], [] => true
  | x::xs, y::ys => sameValue x y && sameItems xs ys
  | _, _ => false

def sameFields : Fields → Fields → Bool
  | [], [] => true
  | (k, x)::xs, (l, y)::ys => k = l && sameValue x y && sameFields xs ys
  | _, _ => false

end

def discriminator (propSchema : Value) : Option Value :=
  match propSchema.get "const" with
  | some v => some v
  | none =>
    match (propSchema.get "enum").bind Value.asArray with
    | some [v] => some v
    | _ => none

def propertiesOf (schema : Value) : Option Fields :=
  (schema.get "properties").bind Value.asObject

def variantsOf (schema : Value) (combinator : String) : List Value :=
  ((schema.get combinator).bind Value.asArray).getD []

def matchesVariant (obj : Fields) (variant : Value) : Bool :=
  match propertiesOf variant with
  | none => false
  | some props =>
    props.all (fun p => match discriminator p.2 with
      | none => true
      | some v => match lookup p.1 obj with
        | some w => sameValue w v
        | none => false) &&
    props.any (fun p => (discriminator p.2).isSome)

def findDiscriminatedVariant (variants : List Value) (obj : Fields) :
    Option Value :=
  variants.find? (matchesVariant obj)

def extend (merged fields : Fields) : Fields :=
  fields.foldl (fun m f => JsonValue.insert f.1 f.2 m) merged

def maxCombinatorDepth : ℕ := 4

/-- `collect_properties`, given the levels that are left. -/
def collectProperties (obj : Fields) :
    ℕ → Value → Option Fields
  | 0, _ => none
  | left+1, schema =>
    if (schema.get "allOf").isNone && (schema.get "oneOf").isNone && (schema.get "anyOf").isNone
    then none
    else
      let withVariant (merged : Fields) (variant : Value) :=
        extend (extend merged ((propertiesOf variant).getD []))
          ((collectProperties obj left variant).getD [])
      let base := extend [] ((propertiesOf schema).getD [])
      let merged := (variantsOf schema "allOf").foldl withVariant base
      let merged := ["oneOf", "anyOf"].foldl (fun merged key =>
        match findDiscriminatedVariant (variantsOf schema key) obj with
        | some variant => withVariant merged variant
        | none => merged) merged
      if merged.isEmpty then none else some merged

def resolveEffectiveProperties (schema : Value) (obj : Fields) :
    Option Fields :=
  collectProperties obj (maxCombinatorDepth+1) schema

def additionalOf (schema : Value) : Option Value :=
  (schema.get "additionalProperties").filter (fun v => (Value.asObject v).isSome)

def resolveAdditionalProperties (schema : Value) (obj : Fields) : Option Value :=
  ((variantsOf schema "allOf").reverse.findSome? additionalOf).or
    (["oneOf", "anyOf"].findSome? (fun key =>
      (findDiscriminatedVariant (variantsOf schema key) obj).bind additionalOf))

structure FieldSchemas where
  properties : Option Fields
  additional : Option Value
  required : List String

def fieldSchemas (schema : Value) (obj : Fields) : FieldSchemas where
  properties := (resolveEffectiveProperties schema obj).or (propertiesOf schema)
  additional := (additionalOf schema).or (resolveAdditionalProperties schema obj)
  required := ((schema.get "required").bind Value.asArray).getD [] |>.filterMap Value.asStr

def FieldSchemas.schemaOf (f : FieldSchemas) (key : String) : Option (Value × Bool) :=
  match f.properties.bind (lookup key) with
  | some prop =>
    some (prop, !f.required.contains key &&
      (schemaAllowsType prop "null" || !schemaAllowsType prop "string"))
  | none => f.additional.map (fun a => (a, false))

mutual

/-- `coerce_value`, given what is done with a text. -/
def coerceWith (onString : String → Value → Value) : Value → Value → Value
  | .string s, schema => onString s schema
  | .array items, schema =>
    match schemaAllowsType schema "array", schema.get "items" with
    | true, some itemSchema => .array (coerceItems onString itemSchema items)
    | _, _ => .array items
  | .object fields, schema =>
    if schemaAllowsType schema "object" then
      .object (coerceFields onString (fieldSchemas schema fields) fields)
    else .object fields
  | .null, _ => .null
  | .bool b, _ => .bool b
  | .number n, _ => .number n

def coerceItems (onString : String → Value → Value) (schema : Value) : List Value → List Value
  | [] => []
  | v::vs => coerceWith onString v schema::coerceItems onString schema vs

def coerceFields (onString : String → Value → Value) (schemas : FieldSchemas) :
    Fields → Fields
  | [] => []
  | (key, v)::rest =>
    (key, match schemas.schemaOf key with
      | none => v
      | some (schema, emptyIsNull) =>
        if emptyIsNull && v.asStr = some "" then .null
        else coerceWith onString v schema)::coerceFields onString schemas rest

end

def maxI64 : ℕ := 9223372036854775808

/-- `str::parse::<i64>`. -/
def parseI64 (s : String) : Option ℤ :=
  let number (ds : List Char) : Option ℕ :=
    if ds ≠ [] && ds.all Char.isDigit then
      some (ds.foldl (fun n c => 10*n+(c.toNat- '0'.toNat)) 0) else none
  match s.toList with
  | '-'::ds => (number ds).bind (fun n => if n ≤ maxI64 then some (-(n : ℤ)) else none)
  | '+'::ds => (number ds).bind (fun n => if n < maxI64 then some (n : ℤ) else none)
  | ds => (number ds).bind (fun n => if n < maxI64 then some (n : ℤ) else none)

def Value.ofInt (n : ℤ) : Value :=
  if 0 ≤ n then .number (.posInt (UInt64.ofNat n.toNat)) else .number (.negInt (Int64.ofInt n))

def Value.ofFloat (bits : UInt64) : Value :=
  if (bits >>> 52) &&& 0x7FF ≠ 0x7FF then .number (.float bits) else .null

def toBool (s : String) : Option Bool :=
  let lower := s.toList.map Char.toLower
  if lower = ['t', 'r', 'u', 'e'] then some true
  else if lower = ['f', 'a', 'l', 's', 'e'] then some false
  else none

/-- `serde_json::from_str` and `str::parse::<f64>`. -/
structure Readers where
  json : String → Option Value
  float : String → Option UInt64

/-- `coerce_string_value`; `inner` fits what is read from the text. -/
def coerceStringValue (readers : Readers) (inner : Value → Value → Value) (s : String)
    (schema : Value) : Option Value :=
  if s = "" && schemaAllowsType schema "null" && !schemaAllowsType schema "string" then some .null
  else if schemaAllowsType schema "string" then none
  else if s = "" then none
  else
    let integer := if schemaAllowsType schema "integer" then
      (parseI64 s).map Value.ofInt else none
    let number := if schemaAllowsType schema "number" then
      (readers.float s).map Value.ofFloat else none
    let boolean := if schemaAllowsType schema "boolean" then (toBool s).map Value.bool else none
    let container := match readers.json s with
      | some (.array xs) =>
        if schemaAllowsType schema "array" then some (inner (.array xs) schema) else none
      | some (.object fields) =>
        if schemaAllowsType schema "object" then some (inner (.object fields) schema) else none
      | _ => none
    integer.or (number.or (boolean.or container))

def coerceText (readers : Readers) (inner : Value → Value → Value) (s : String) (schema : Value) :
    Value :=
  (coerceStringValue readers inner s schema).getD (.string s)

/-- `coerce_value`, with a bound on the readings inside one another. -/
def coerceValue (readers : Readers) : ℕ → Value → Value → Value
  | 0 => coerceWith (coerceText readers (fun v _ => v))
  | n+1 => coerceWith (coerceText readers (coerceValue readers n))

mutual

def textLength : Value → ℕ
  | .string s => s.length
  | .array xs => itemsLength xs
  | .object fields => fieldsLength fields
  | _ => 0

def itemsLength : List Value → ℕ
  | [] => 0
  | v::vs => textLength v+itemsLength vs

def fieldsLength : Fields → ℕ
  | [] => 0
  | (_, v)::rest => textLength v+fieldsLength rest

end

def prepareParamsForSchema (readers : Readers) (params schema : Value) : Value :=
  coerceValue readers (textLength params) params (resolveRefs schema)

def NoNewText (f : Value → Value → Value) : Prop :=
  ∀ v schema t, f v schema = .string t → v = .string t

theorem coerceWith_noNewText (onString : String → Value → Value)
    (h : ∀ s schema t, onString s schema = .string t → s = t) :
    NoNewText (coerceWith onString) := by
  intro v schema t heq
  cases v with
  | string s =>
    simp only [coerceWith] at heq
    rw [h s schema t heq]
  | null => simp only [coerceWith] at heq; cases heq
  | bool b => simp only [coerceWith] at heq; cases heq
  | number n => simp only [coerceWith] at heq; cases heq
  | array items =>
    simp only [coerceWith] at heq
    split at heq <;> cases heq
  | object fields =>
    simp only [coerceWith] at heq
    split at heq <;> cases heq

theorem ofInt_not_text (n : ℤ) (t : String) : Value.ofInt n ≠ .string t := by
  unfold Value.ofInt
  split <;> exact fun heq => by cases heq

theorem ofFloat_not_text (bits : UInt64) (t : String) : Value.ofFloat bits ≠ .string t := by
  unfold Value.ofFloat
  split <;> exact fun heq => by cases heq

section

variable (readers : Readers)

variable (inner : Value → Value → Value)

/-- What is made of a text is not a text. -/
theorem coerceStringValue_not_text (hinner : NoNewText inner) (s : String) (schema : Value)
    (t : String) :
    coerceStringValue readers inner s schema ≠ some (.string t) := by
  have hinteger : ∀ b : Bool,
      (if b then (parseI64 s).map Value.ofInt else none) ≠ some (.string t) := by
    intro b heq
    split at heq
    · obtain ⟨n, -, hn⟩ := Option.map_eq_some_iff.mp heq
      exact ofInt_not_text n t hn
    · cases heq
  have hnumber : ∀ b : Bool,
      (if b then (readers.float s).map Value.ofFloat else none) ≠ some (.string t) := by
    intro b heq
    split at heq
    · obtain ⟨bits, -, hbits⟩ := Option.map_eq_some_iff.mp heq
      exact ofFloat_not_text bits t hbits
    · cases heq
  have hboolean : ∀ b : Bool,
      (if b then (toBool s).map Value.bool else none) ≠ some (.string t) := by
    intro b heq
    split at heq
    · obtain ⟨x, -, hx⟩ := Option.map_eq_some_iff.mp heq
      cases hx
    · cases heq
  intro heq
  unfold coerceStringValue at heq
  split at heq
  · cases heq
  · split at heq
    · cases heq
    · split at heq
      · cases heq
      · rcases Option.or_eq_some_iff.mp heq with hint | ⟨-, heq⟩
        · exact hinteger _ hint
        · rcases Option.or_eq_some_iff.mp heq with hnum | ⟨-, heq⟩
          · exact hnumber _ hnum
          · rcases Option.or_eq_some_iff.mp heq with hbool | ⟨-, heq⟩
            · exact hboolean _ hbool
            · split at heq
              · split at heq
                · cases hinner _ _ _ (Option.some.inj heq)
                · cases heq
              · split at heq
                · cases hinner _ _ _ (Option.some.inj heq)
                · cases heq
              · cases heq

theorem coerceText_noNewText (hinner : NoNewText inner) (s : String) (schema : Value) (t : String)
    (h : coerceText readers inner s schema = .string t) : s = t := by
  unfold coerceText at h
  cases hv : coerceStringValue readers inner s schema with
  | none =>
    rw [hv] at h
    exact Value.string.inj h
  | some v =>
    rw [hv] at h
    exact absurd (h ▸ hv) (coerceStringValue_not_text readers inner hinner s schema t)

theorem coerceValue_noNewText (n : ℕ) : NoNewText (coerceValue readers n) := by
  induction n with
  | zero =>
    apply coerceWith_noNewText
    exact coerceText_noNewText readers _ (fun _ _ _ heq => heq)
  | succ n ih =>
    apply coerceWith_noNewText
    exact coerceText_noNewText readers _ ih

def Unread (s : String) : Prop :=
  s ≠ "" ∧ readers.json s = none ∧ readers.float s = none ∧ parseI64 s = none ∧ toBool s = none

theorem coerceText_unread (s : String) (schema : Value) (h : Unread readers s) :
    coerceText readers inner s schema = .string s := by
  obtain ⟨hne, hjson, hfloat, hint, hbool⟩ := h
  unfold coerceText coerceStringValue
  simp [hne, hjson, hfloat, hint, hbool]

theorem coerceValue_unread (n : ℕ) (s : String) (schema : Value) (h : Unread readers s) :
    coerceValue readers n (.string s) schema = .string s := by
  cases n with
  | zero =>
    simp only [coerceValue, coerceWith]
    exact coerceText_unread readers _ s schema h
  | succ n =>
    simp only [coerceValue, coerceWith]
    exact coerceText_unread readers _ s schema h

def Refit (f : Value → Value → Value) (v w : Value) : Prop :=
  w = v ∨ (v = .string "" ∧ w = .null) ∨ ∃ schema, w = f v schema

theorem asStr_some (v : Value) (s : String) (h : v.asStr = some s) : v = .string s := by
  cases v with
  | string t =>
    cases h
    rfl
  | _ => cases h

theorem lookup_coerceFields (onString : String → Value → Value) (schemas : FieldSchemas)
    (fields : Fields) (key : String) :
    Option.Rel (Refit (coerceWith onString)) (lookup key fields)
      (lookup key (coerceFields onString schemas fields)) := by
  induction fields with
  | nil => exact .none
  | cons f fields ih =>
    obtain ⟨k, v⟩ := f
    simp only [coerceFields, lookup]
    by_cases hk : k = key
    · rw [if_pos hk, if_pos hk]
      apply Option.Rel.some
      split
      · exact .inl rfl
      · split
        · rename_i hempty
          have hv := of_decide_eq_true (Bool.and_eq_true_iff.mp hempty).2
          exact .inr (.inl ⟨asStr_some v "" hv, rfl⟩)
        · exact .inr (.inr ⟨_, rfl⟩)
    · rw [if_neg hk, if_neg hk]
      exact ih

/-- An object stays an object, and its fields are refitted one by one. -/
theorem coerceValue_object (n : ℕ) (fields : Fields) (schema : Value) :
    ∃ fields', coerceValue readers n (.object fields) schema = .object fields' ∧
      ∀ key, Option.Rel (Refit (coerceValue readers n)) (lookup key fields)
        (lookup key fields') := by
  have hwith : ∀ onString : String → Value → Value,
      ∃ fields', coerceWith onString (.object fields) schema = .object fields' ∧
        ∀ key, Option.Rel (Refit (coerceWith onString)) (lookup key fields)
          (lookup key fields') := by
    intro onString
    simp only [coerceWith]
    split
    · exact ⟨_, rfl, lookup_coerceFields onString _ fields⟩
    · refine ⟨fields, rfl, ?_⟩
      intro key
      cases lookup key fields with
      | none => exact .none
      | some v => exact .some (.inl rfl)
  cases n with
  | zero => exact hwith _
  | succ n => exact hwith _

theorem refit_text (n : ℕ) (s : String) (h : Unread readers s) (v w : Value)
    (hr : Refit (coerceValue readers n) v w) : w = .string s ↔ v = .string s := by
  rcases hr with rfl | ⟨rfl, rfl⟩ | ⟨schema, rfl⟩
  · rfl
  · constructor
    · intro heq
      cases heq
    · intro heq
      exact absurd (Value.string.inj heq).symm h.1
  · constructor
    · intro heq
      exact coerceValue_noNewText readers n v schema s heq
    · intro heq
      rw [heq]
      exact coerceValue_unread readers n s schema h

/-- Preparing an object keeps its keys, and a text that cannot be read stands
afterwards exactly where it stood before. -/
theorem prepare_object (fields : Fields) (schema : Value) (s : String)
    (h : Unread readers s) :
    ∃ fields', prepareParamsForSchema readers (.object fields) schema = .object fields' ∧
      ∀ key, (lookup key fields' = none ↔ lookup key fields = none) ∧
        (lookup key fields' = some (.string s) ↔ lookup key fields = some (.string s)) := by
  obtain ⟨fields', heq, hrel⟩ := coerceValue_object readers (textLength (.object fields)) fields
    (resolveRefs schema)
  refine ⟨fields', heq, ?_⟩
  intro key
  have hkey := hrel key
  generalize lookup key fields = before at hkey
  generalize lookup key fields' = after at hkey
  cases hkey with
  | none => exact ⟨Iff.rfl, Iff.rfl⟩
  | some hr =>
    constructor
    · constructor <;> exact fun hnone => by cases hnone
    · rw [Option.some.injEq, Option.some.injEq]
      exact refit_text readers _ s h _ _ hr

def Shrinks : Prop := ∀ s v, readers.json s = some v → textLength v < s.length

mutual

theorem coerceWith_congr (f g : String → Value → Value) (n : ℕ)
    (h : ∀ s, s.length ≤ n → ∀ schema, f s schema = g s schema) (v schema : Value)
    (hv : textLength v ≤ n) : coerceWith f v schema = coerceWith g v schema := by
  cases v with
  | string s =>
    simp only [coerceWith]
    exact h s (by simpa only [textLength] using hv) schema
  | null => simp only [coerceWith]
  | bool b => simp only [coerceWith]
  | number n => simp only [coerceWith]
  | array items =>
    have hitems : itemsLength items ≤ n := by simpa only [textLength] using hv
    simp only [coerceWith, coerceItems_congr f g n h items _ hitems]
  | object fields =>
    have hfields : fieldsLength fields ≤ n := by simpa only [textLength] using hv
    simp only [coerceWith, coerceFields_congr f g n h fields _ hfields]

theorem coerceItems_congr (f g : String → Value → Value) (n : ℕ)
    (h : ∀ s, s.length ≤ n → ∀ schema, f s schema = g s schema) (items : List Value)
    (schema : Value) (hv : itemsLength items ≤ n) :
    coerceItems f schema items = coerceItems g schema items := by
  cases items with
  | nil => simp only [coerceItems]
  | cons v vs =>
    simp only [itemsLength] at hv
    simp only [coerceItems]
    rw [coerceWith_congr f g n h v schema (by omega), coerceItems_congr f g n h vs schema (by omega)]

theorem coerceFields_congr (f g : String → Value → Value) (n : ℕ)
    (h : ∀ s, s.length ≤ n → ∀ schema, f s schema = g s schema) (fields : Fields)
    (schemas : FieldSchemas) (hv : fieldsLength fields ≤ n) :
    coerceFields f schemas fields = coerceFields g schemas fields := by
  match fields, hv with
  | [], _ => simp only [coerceFields]
  | (key, v)::rest, hv =>
    simp only [fieldsLength] at hv
    simp only [coerceFields]
    rw [coerceFields_congr f g n h rest schemas (by omega)]
    cases schemas.schemaOf key with
    | none => rfl
    | some found =>
      simp only [coerceWith_congr f g n h v found.1 (by omega)]

end

theorem coerceText_congr (hshrinks : Shrinks readers) (f g : Value → Value → Value) (s : String)
    (h : ∀ v, textLength v < s.length → ∀ schema, f v schema = g v schema) (schema : Value) :
    coerceText readers f s schema = coerceText readers g s schema := by
  unfold coerceText coerceStringValue
  cases hread : readers.json s with
  | none => rfl
  | some v =>
    have hv := h v (hshrinks s v hread) schema
    cases v with
    | array xs => simp only [hv]
    | object fields => simp only [hv]
    | _ => rfl

theorem coerceWith_inner (hshrinks : Shrinks readers) (f g : Value → Value → Value)
    (v schema : Value)
    (h : ∀ w, textLength w < textLength v → ∀ schema, f w schema = g w schema) :
    coerceWith (coerceText readers f) v schema = coerceWith (coerceText readers g) v schema := by
  apply coerceWith_congr _ _ (textLength v) _ v schema (Nat.le_refl _)
  intro s hs
  apply coerceText_congr readers hshrinks f g s
  intro w hw
  exact h w (Nat.lt_of_lt_of_le hw hs)

/-- The bound on the readings does not matter once it is the length of the
texts. -/
theorem coerceValue_fuel (hshrinks : Shrinks readers) (n m : ℕ) (v schema : Value)
    (hn : textLength v ≤ n) (hm : textLength v ≤ m) :
    coerceValue readers n v schema = coerceValue readers m v schema := by
  induction n generalizing m v schema with
  | zero =>
    cases m with
    | zero => rfl
    | succ m =>
      apply coerceWith_inner readers hshrinks
      intro w hw
      omega
  | succ n ih =>
    cases m with
    | zero =>
      apply coerceWith_inner readers hshrinks
      intro w hw
      omega
    | succ m =>
      apply coerceWith_inner readers hshrinks
      intro w hw schema
      exact ih m w schema (by omega) (by omega)

theorem prepare_fuel (hshrinks : Shrinks readers) (params schema : Value) (n : ℕ)
    (h : textLength params ≤ n) :
    prepareParamsForSchema readers params schema =
      coerceValue readers n params (resolveRefs schema) := by
  exact coerceValue_fuel readers hshrinks _ n params _ (Nat.le_refl _) h

end

section

variable (readers : Readers)

mutual

def settled : Value → Value → Bool
  | .string s, schema => (coerceStringValue readers (fun v _ => v) s schema).isNone
  | .array items, schema =>
    match schemaAllowsType schema "array", schema.get "items" with
    | true, some itemSchema => settledItems itemSchema items
    | _, _ => true
  | .object fields, schema =>
    if schemaAllowsType schema "object" then settledFields (fieldSchemas schema fields) fields
    else true
  | _, _ => true

def settledItems (schema : Value) : List Value → Bool
  | [] => true
  | v::vs => settled v schema && settledItems schema vs

def settledFields (schemas : FieldSchemas) : Fields → Bool
  | [] => true
  | (key, v)::rest =>
    (match schemas.schemaOf key with
      | none => true
      | some (schema, emptyIsNull) => !(emptyIsNull && v.asStr = some "") && settled v schema) &&
      settledFields schemas rest

end

theorem coerceStringValue_isNone (f g : Value → Value → Value) (s : String) (schema : Value) :
    (coerceStringValue readers f s schema).isNone =
      (coerceStringValue readers g s schema).isNone := by
  unfold coerceStringValue
  simp only [apply_ite Option.isNone, Option.isNone_or]
  cases readers.json s with
  | none => rfl
  | some v =>
    cases v with
    | array xs => simp only [apply_ite Option.isNone, Option.isNone_some]
    | object fields => simp only [apply_ite Option.isNone, Option.isNone_some]
    | _ => rfl

theorem coerceText_fixed (inner : Value → Value → Value) (hinner : NoNewText inner) (s : String)
    (schema : Value) :
    coerceText readers inner s schema = .string s ↔
      settled readers (.string s) schema = true := by
  simp only [settled]
  rw [coerceStringValue_isNone readers _ inner s schema]
  unfold coerceText
  cases hv : coerceStringValue readers inner s schema with
  | none => simp
  | some v =>
    have hne : v ≠ .string s := by
      intro heq
      exact coerceStringValue_not_text readers inner hinner s schema s (heq ▸ hv)
    simp [hne]

mutual

theorem coerceWith_fixed (onString : String → Value → Value)
    (h : ∀ s schema, onString s schema = .string s ↔ settled readers (.string s) schema = true)
    (v schema : Value) :
    coerceWith onString v schema = v ↔ settled readers v schema = true := by
  cases v with
  | string s =>
    simp only [coerceWith]
    exact h s schema
  | null => simp only [coerceWith, settled]
  | bool b => simp only [coerceWith, settled]
  | number n => simp only [coerceWith, settled]
  | array items =>
    simp only [coerceWith, settled]
    split
    · rw [Value.array.injEq]
      exact coerceItems_fixed onString h items _
    · simp
  | object fields =>
    simp only [coerceWith, settled]
    split
    · rw [Value.object.injEq]
      exact coerceFields_fixed onString h fields _
    · simp

theorem coerceItems_fixed (onString : String → Value → Value)
    (h : ∀ s schema, onString s schema = .string s ↔ settled readers (.string s) schema = true)
    (items : List Value) (schema : Value) :
    coerceItems onString schema items = items ↔ settledItems readers schema items = true := by
  cases items with
  | nil => simp only [coerceItems, settledItems]
  | cons v vs =>
    simp only [coerceItems, settledItems, List.cons.injEq, Bool.and_eq_true]
    rw [coerceWith_fixed onString h v schema, coerceItems_fixed onString h vs schema]

theorem coerceFields_fixed (onString : String → Value → Value)
    (h : ∀ s schema, onString s schema = .string s ↔ settled readers (.string s) schema = true)
    (fields : Fields) (schemas : FieldSchemas) :
    coerceFields onString schemas fields = fields ↔
      settledFields readers schemas fields = true := by
  match fields with
  | [] => simp only [coerceFields, settledFields]
  | (key, v)::rest =>
    simp only [coerceFields, settledFields, List.cons.injEq, Prod.mk.injEq, true_and,
      Bool.and_eq_true]
    rw [coerceFields_fixed onString h rest schemas]
    cases schemas.schemaOf key with
    | none => simp
    | some found =>
      have hv := coerceWith_fixed onString h v found.1
      by_cases hempty : found.2 = true ∧ v.asStr = some ""
      · -- the empty text becomes null, which is another value
        have htext := asStr_some v "" hempty.2
        simp [hempty.1, htext, Value.asStr]
      · have hkeep : (!(found.2 && decide (v.asStr = some ""))) = true := by
          rw [Bool.not_eq_true', Bool.and_eq_false_iff, decide_eq_false_iff_not,
            ← Bool.not_eq_true, ← not_and_or]
          exact hempty
        simp only [decide_eq_true_eq, if_neg hempty, hkeep, Bool.true_and, hv]

end

theorem coerceValue_fixed (n : ℕ) (v schema : Value) :
    coerceValue readers n v schema = v ↔ settled readers v schema = true := by
  cases n with
  | zero =>
    apply coerceWith_fixed
    exact coerceText_fixed readers _ (fun _ _ _ heq => heq)
  | succ n =>
    apply coerceWith_fixed
    exact coerceText_fixed readers _ (coerceValue_noNewText readers n)

theorem prepare_fixed (params schema : Value) :
    prepareParamsForSchema readers params schema = params ↔
      settled readers params (resolveRefs schema) = true :=
  coerceValue_fixed readers _ params (resolveRefs schema)

end

end IronClaw.Coercion
