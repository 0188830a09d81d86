import IronClaw.Lib.Text
import IronClaw.JsonValue

/-!
# Validation of input and tool parameters

`ironclaw_safety/validator.rs`. The parameters of a tool are walked down to a
fixed depth and every string that is met is checked like an input. The set of
forbidden patterns is given in the order in which it is gone through; the lower
case of a text and the comparison of the floating-point ratio are parameters.
-/

set_option autoImplicit false

namespace IronClaw.Validator
open Lib.Text IronClaw.JsonValue

inductive ValidationErrorCode where
  | empty
  | tooLong
  | tooShort
  | invalidFormat
  | forbiddenContent
  | invalidEncoding
  | suspiciousPattern
  deriving DecidableEq

structure ValidationError where
  field : String
  message : String
  code : ValidationErrorCode
  deriving DecidableEq

structure ValidationResult where
  isValid : Bool
  errors : List ValidationError
  warnings : List String
  deriving DecidableEq

def ValidationResult.ok : ValidationResult := ⟨true, [], []⟩

def ValidationResult.error (error : ValidationError) : ValidationResult := ⟨false, [error], []⟩

def ValidationResult.withWarning (r : ValidationResult) (warning : String) : ValidationResult :=
  { r with warnings := r.warnings++[warning] }

def ValidationResult.merge (r other : ValidationResult) : ValidationResult :=
  ⟨r.isValid && other.isValid, r.errors++other.errors, r.warnings++other.warnings⟩

structure Validator where
  maxLength : ℕ
  minLength : ℕ
  forbiddenPatterns : List (List Char)
  deriving DecidableEq

def Validator.new : Validator := ⟨100000, 1, []⟩

def maxRepeat (last : Char) (current best : ℕ) : List Char → ℕ
  | [] => best
  | c::cs =>
    if c = last then maxRepeat c (current+1) (max best (current+1)) cs
    else maxRepeat c 1 best cs

def hasExcessiveRepetition : List Char → Bool
  | [] => false
  | c::cs => 50 ≤ byteLen (c::cs) && 20 < maxRepeat c 1 1 cs

structure Std where
  toLowercase : List Char → List Char
  /-- Whether a share of a total, as floating-point numbers, is above 0.9. -/
  aboveRatio : ℕ → ℕ → Bool

def maxDepth : ℕ := 32

section

variable (std : Std) (v : Validator)

def lengthErrors (input : List Char) (field : String) : List ValidationError :=
  (if v.maxLength < byteLen input then
    [⟨field, "Input too long: " ++ toString (byteLen input) ++ " bytes (max " ++
      toString v.maxLength ++ ")", .tooLong⟩]
  else [])++
  if byteLen input < v.minLength then
    [⟨field, "Input too short: " ++ toString (byteLen input) ++ " bytes (min " ++
      toString v.minLength ++ ")", .tooShort⟩]
  else []

def nulErrors (input : List Char) (field : String) : List ValidationError :=
  if input.any (fun c => c = '\x00') then
    [⟨field, "Input contains null bytes", .invalidEncoding⟩]
  else []

def patternErrors (input : List Char) (field : String) : List ValidationError :=
  (v.forbiddenPatterns.filter (fun pattern => pattern <:+: std.toLowercase input)).map
    (fun pattern => ⟨field, "Input contains forbidden pattern: " ++ String.ofList pattern,
      .forbiddenContent⟩)

def paddingWarnings (input : List Char) : List String :=
  (if std.aboveRatio (input.countP isWhitespace) (byteLen input) && 100 < byteLen input then
    ["Input has unusually high whitespace ratio"]
  else [])++
  if hasExcessiveRepetition input then ["Input has excessive character repetition"] else []

def mergeErrors (r : ValidationResult) (errors : List ValidationError) : ValidationResult :=
  errors.foldl (fun r e => r.merge (.error e)) r

def validateNonEmptyInput (input : List Char) (field : String) : ValidationResult :=
  let result := mergeErrors .ok
    (lengthErrors v input field++nulErrors input field++patternErrors std v input field)
  (paddingWarnings std input).foldl ValidationResult.withWarning result

def validate (input : List Char) : ValidationResult :=
  if input = [] then .error ⟨"input", "Input cannot be empty", .empty⟩
  else validateNonEmptyInput std v input "input"

def stringResult (s : List Char) (path : String) : ValidationResult :=
  if s = [] then .ok else validateNonEmptyInput std v s path

def itemPath (path : String) (i : ℕ) : String := path ++ "[" ++ toString i ++ "]"

def fieldPath (path key : String) : String := if path = "" then key else path ++ "." ++ key

mutual

def checkStrings (value : Value) (path : String) (depth : ℕ) (result : ValidationResult) :
    ValidationResult :=
  if maxDepth < depth then result
  else match value with
  | .string s => result.merge (stringResult std v s.toList path)
  | .array arr => checkItems arr path 0 depth result
  | .object obj => checkFields obj path depth result
  | .null => result
  | .bool _ => result
  | .number _ => result

def checkItems (arr : List Value) (path : String) (i depth : ℕ) (result : ValidationResult) :
    ValidationResult :=
  match arr with
  | [] => result
  | item::arr => checkItems arr path (i+1) depth
      (checkStrings item (itemPath path i) (depth+1) result)

def checkFields (obj : Fields) (path : String) (depth : ℕ)
    (result : ValidationResult) : ValidationResult :=
  match obj with
  | [] => result
  | (k, value)::obj => checkFields obj path depth
      (checkStrings value (fieldPath path k) (depth+1) result)

end

def validateToolParams (params : Value) : ValidationResult := checkStrings std v params "" 0 .ok

inductive StringAt : String → Value → ℕ → String → String → Prop
  | here (path s : String) : StringAt path (.string s) 0 path s
  | item {path : String} {arr : List Value} {i : ℕ} {x : Value} {d : ℕ} {p s : String} :
      arr[i]? = some x → StringAt (itemPath path i) x d p s → StringAt path (.array arr) (d+1) p s
  | field {path : String} {obj : Fields} {k : String} {x : Value} {d : ℕ}
      {p s : String} : (k, x) ∈ obj → StringAt (fieldPath path k) x d p s →
      StringAt path (.object obj) (d+1) p s

def Passes (s : String) : Prop := (validateToolParams std v (.string s)).isValid = true

def Consistent (r : ValidationResult) : Prop := r.isValid = r.errors.isEmpty

section results

theorem merge_consistent (r other : ValidationResult) (hr : Consistent r)
    (hother : Consistent other) : Consistent (r.merge other) := by
  change (r.isValid && other.isValid) = (r.errors++other.errors).isEmpty
  rw [hr, hother]
  cases r.errors with
  | nil => rfl
  | cons e errors => rfl

theorem mergeErrors_errors (r : ValidationResult) (errors : List ValidationError) :
    (mergeErrors r errors).errors = r.errors++errors ∧
      (Consistent r → Consistent (mergeErrors r errors)) := by
  induction errors generalizing r with
  | nil => exact ⟨(List.append_nil r.errors).symm, id⟩
  | cons e errors ih =>
    obtain ⟨herrors, hconsistent⟩ := ih (r.merge (.error e))
    refine ⟨?_, fun hr => hconsistent (merge_consistent r _ hr rfl)⟩
    change (mergeErrors (r.merge (.error e)) errors).errors = _
    rw [herrors, ValidationResult.merge, List.append_assoc]
    rfl

theorem withWarnings_errors (warnings : List String) (r : ValidationResult) :
    (warnings.foldl ValidationResult.withWarning r).errors = r.errors ∧
      (warnings.foldl ValidationResult.withWarning r).isValid = r.isValid := by
  induction warnings generalizing r with
  | nil => exact ⟨rfl, rfl⟩
  | cons w warnings ih => exact ih (r.withWarning w)

def stringErrors (s : List Char) (path : String) : List ValidationError :=
  if s = [] then []
  else lengthErrors v s path++nulErrors s path++patternErrors std v s path

theorem stringResult_errors (s : List Char) (path : String) :
    (stringResult std v s path).errors = stringErrors std v s path ∧
      Consistent (stringResult std v s path) := by
  rw [stringResult, stringErrors]
  split
  · exact ⟨rfl, rfl⟩
  · have hwarnings := withWarnings_errors (paddingWarnings std s) (mergeErrors .ok
      (lengthErrors v s path++nulErrors s path++patternErrors std v s path))
    have herrors := mergeErrors_errors .ok
      (lengthErrors v s path++nulErrors s path++patternErrors std v s path)
    refine ⟨hwarnings.1.trans herrors.1, ?_⟩
    exact hwarnings.2.trans ((herrors.2 rfl).trans (by rw [validateNonEmptyInput, hwarnings.1]))

/-- Every error names the path of the string it is about. -/
theorem stringErrors_field (s : List Char) (path : String) :
    ∀ e ∈ stringErrors std v s path, e.field = path := by
  intro e he
  rw [stringErrors] at he
  split at he
  · cases he
  · rw [List.mem_append, List.mem_append] at he
    obtain (he | he) | he := he
    · rw [lengthErrors, List.mem_append] at he
      obtain he | he := he
      · split at he
        · rw [List.mem_singleton.mp he]
        · cases he
      · split at he
        · rw [List.mem_singleton.mp he]
        · cases he
    · rw [nulErrors] at he
      split at he
      · rw [List.mem_singleton.mp he]
      · cases he
    · rw [patternErrors] at he
      obtain ⟨pattern, _, hpattern⟩ := List.mem_map.mp he
      rw [← hpattern]

theorem stringErrors_path (s : List Char) (path path' : String) :
    stringErrors std v s path = [] ↔ stringErrors std v s path' = [] := by
  simp [stringErrors, lengthErrors, nulErrors, patternErrors]

end results

section walk

theorem string_at (path s : String) (d : ℕ) (p t : String) :
    StringAt path (.string s) d p t ↔ d = 0 ∧ p = path ∧ t = s := by
  constructor
  · rintro ⟨⟩
    exact ⟨rfl, rfl, rfl⟩
  · rintro ⟨rfl, rfl, rfl⟩
    exact .here _ _

def Walked (depth : ℕ) (at' : ℕ → String → String → Prop) (result after : ValidationResult) :
    Prop :=
  (Consistent result → Consistent after) ∧
  ∀ e, e ∈ after.errors ↔ e ∈ result.errors ∨
    ∃ d p s, at' d p s ∧ depth+d ≤ maxDepth ∧ e ∈ stringErrors std v s.toList p

theorem walked_none (depth : ℕ) (at' : ℕ → String → String → Prop) (result : ValidationResult)
    (h : ∀ d p s, at' d p s → maxDepth < depth+d) : Walked std v depth at' result result := by
  refine ⟨id, fun e => ⟨Or.inl, ?_⟩⟩
  rintro (he | ⟨d, p, s, hat, hdepth, _⟩)
  · exact he
  · have hdeep := h d p s hat
    omega

/-- Two parts one after the other. -/
theorem walked_append (depth : ℕ) (first second both : ℕ → String → String → Prop)
    (r₁ r₂ r₃ : ValidationResult) (h₁ : Walked std v depth first r₁ r₂)
    (h₂ : Walked std v depth second r₂ r₃)
    (hboth : ∀ d p s, both d p s ↔ first d p s ∨ second d p s) :
    Walked std v depth both r₁ r₃ := by
  refine ⟨fun h => h₂.1 (h₁.1 h), fun e => ?_⟩
  rw [h₂.2, h₁.2]
  constructor
  · rintro ((he | ⟨d, p, s, hat, h⟩) | ⟨d, p, s, hat, h⟩)
    · exact Or.inl he
    · exact Or.inr ⟨d, p, s, (hboth d p s).mpr (Or.inl hat), h⟩
    · exact Or.inr ⟨d, p, s, (hboth d p s).mpr (Or.inr hat), h⟩
  · rintro (he | ⟨d, p, s, hat, h⟩)
    · exact Or.inl (Or.inl he)
    · obtain hat | hat := (hboth d p s).mp hat
      · exact Or.inl (Or.inr ⟨d, p, s, hat, h⟩)
      · exact Or.inr ⟨d, p, s, hat, h⟩

theorem walked_down (depth : ℕ) (inner outer : ℕ → String → String → Prop)
    (result after : ValidationResult) (h : Walked std v (depth+1) inner result after)
    (houter : ∀ d p s, outer d p s ↔ ∃ d', d = d'+1 ∧ inner d' p s) :
    Walked std v depth outer result after := by
  refine ⟨h.1, fun e => (h.2 e).trans (or_congr_right ?_)⟩
  constructor
  · rintro ⟨d, p, s, hat, hdepth, he⟩
    exact ⟨d+1, p, s, (houter _ p s).mpr ⟨d, rfl, hat⟩, by omega, he⟩
  · rintro ⟨d, p, s, hat, hdepth, he⟩
    obtain ⟨d', hd, hat⟩ := (houter d p s).mp hat
    exact ⟨d', p, s, hat, by omega, he⟩

mutual

theorem checkStrings_walked (value : Value) (path : String) (depth : ℕ)
    (result : ValidationResult) : Walked std v depth (StringAt path value) result
      (checkStrings std v value path depth result) := by
  rw [checkStrings.eq_def]
  split
  · next hdeep => exact walked_none std v depth _ result (fun d p s _ => by omega)
  · next hdepth =>
    cases value with
    | string s =>
      obtain ⟨herrors, hconsistent⟩ := stringResult_errors std v s.toList path
      refine ⟨fun h => merge_consistent result _ h hconsistent, fun e => ?_⟩
      change e ∈ result.errors++(stringResult std v s.toList path).errors ↔ _
      rw [herrors, List.mem_append]
      refine or_congr_right ⟨fun he => ⟨0, path, s, .here path s, by omega, he⟩, ?_⟩
      rintro ⟨d, p, t, hat, _, he⟩
      obtain ⟨_, hp, ht⟩ := (string_at path s d p t).mp hat
      rwa [hp, ht] at he
    | array arr =>
      refine walked_down std v depth _ _ result _ (checkItems_walked arr path 0 depth result) ?_
      intro d p s
      constructor
      · intro hat
        cases hat with
        | item hi hat => exact ⟨_, rfl, _, _, hi, by rwa [Nat.zero_add]⟩
      · rintro ⟨d', hd, i, x, hi, hat⟩
        rw [Nat.zero_add] at hat
        rw [hd]
        exact .item hi hat
    | object obj =>
      refine walked_down std v depth _ _ result _ (checkFields_walked obj path depth result) ?_
      intro d p s
      constructor
      · intro hat
        cases hat with
        | field hin hat => exact ⟨_, rfl, _, _, hin, hat⟩
      · rintro ⟨d', hd, k, x, hin, hat⟩
        rw [hd]
        exact .field hin hat
    | null => exact walked_none std v depth _ result (by rintro d p s ⟨⟩)
    | bool b => exact walked_none std v depth _ result (by rintro d p s ⟨⟩)
    | number n => exact walked_none std v depth _ result (by rintro d p s ⟨⟩)

theorem checkItems_walked (arr : List Value) (path : String) (i depth : ℕ)
    (result : ValidationResult) : Walked std v (depth+1)
      (fun d p s => ∃ j x, arr[j]? = some x ∧ StringAt (itemPath path (i+j)) x d p s) result
      (checkItems std v arr path i depth result) := by
  cases arr with
  | nil =>
    refine walked_none std v (depth+1) _ result ?_
    rintro d p s ⟨j, x, hj, _⟩
    simp at hj
  | cons item arr =>
    refine walked_append std v (depth+1) _ _ _ _ _ _
      (checkStrings_walked item (itemPath path i) (depth+1) result)
      (checkItems_walked arr path (i+1) depth _) ?_
    intro d p s
    constructor
    · rintro ⟨j, x, hj, hat⟩
      cases j with
      | zero =>
        rw [← Option.some.inj hj] at hat
        exact Or.inl hat
      | succ j =>
        refine Or.inr ⟨j, x, hj, ?_⟩
        rwa [Nat.add_right_comm, Nat.add_assoc]
    · rintro (hat | ⟨j, x, hj, hat⟩)
      · exact ⟨0, item, rfl, hat⟩
      · refine ⟨j+1, x, hj, ?_⟩
        rwa [Nat.add_right_comm, Nat.add_assoc] at hat

theorem checkFields_walked (obj : Fields) (path : String) (depth : ℕ)
    (result : ValidationResult) : Walked std v (depth+1)
      (fun d p s => ∃ k x, (k, x) ∈ obj ∧ StringAt (fieldPath path k) x d p s) result
      (checkFields std v obj path depth result) := by
  cases obj with
  | nil =>
    refine walked_none std v (depth+1) _ result ?_
    rintro d p s ⟨k, x, hin, _⟩
    cases hin
  | cons field obj =>
    obtain ⟨k, value⟩ := field
    refine walked_append std v (depth+1) _ _ _ _ _ _
      (checkStrings_walked value (fieldPath path k) (depth+1) result)
      (checkFields_walked obj path depth _) ?_
    intro d p s
    constructor
    · rintro ⟨k', x, hin, hat⟩
      obtain heq | hin := List.mem_cons.mp hin
      · rw [Prod.mk.injEq] at heq
        rw [heq.1, heq.2] at hat
        exact Or.inl hat
      · exact Or.inr ⟨k', x, hin, hat⟩
    · rintro (hat | ⟨k', x, hin, hat⟩)
      · exact ⟨k, value, List.mem_cons_self, hat⟩
      · exact ⟨k', x, List.mem_cons_of_mem _ hin, hat⟩

end

end walk

theorem validateToolParams_errors (params : Value) (e : ValidationError) :
    e ∈ (validateToolParams std v params).errors ↔ ∃ d s, d ≤ maxDepth ∧
      StringAt "" params d e.field s ∧ e ∈ stringErrors std v s.toList e.field := by
  refine ((checkStrings_walked std v params "" 0 .ok).2 e).trans ?_
  constructor
  · rintro (he | ⟨d, p, s, hat, hdepth, he⟩)
    · cases he
    · have hfield := stringErrors_field std v s.toList p e he
      rw [hfield]
      exact ⟨d, s, by omega, hat, he⟩
  · rintro ⟨d, s, hdepth, hat, he⟩
    exact Or.inr ⟨d, e.field, s, hat, by omega, he⟩

theorem validateToolParams_consistent (params : Value) :
    Consistent (validateToolParams std v params) :=
  (checkStrings_walked std v params "" 0 .ok).1 rfl

theorem passes_iff (s p : String) :
    Passes std v s ↔ stringErrors std v s.toList p = [] := by
  have herrors := stringResult_errors std v s.toList ""
  have hresult : validateToolParams std v (.string s) =
      ValidationResult.ok.merge (stringResult std v s.toList "") := by
    rw [validateToolParams, checkStrings.eq_def]
    rfl
  rw [Passes, validateToolParams_consistent, hresult, List.isEmpty_iff,
    stringErrors_path std v s.toList p "", ← herrors.1]
  rfl

/-- Parameters are valid exactly when every string down to the last depth is. -/
theorem validateToolParams_valid_iff (params : Value) :
    (validateToolParams std v params).isValid = true ↔
      ∀ d p s, StringAt "" params d p s → d ≤ maxDepth → Passes std v s := by
  rw [validateToolParams_consistent, List.isEmpty_iff, List.eq_nil_iff_forall_not_mem]
  constructor
  · intro h d p s hat hdepth
    rw [passes_iff std v s p, List.eq_nil_iff_forall_not_mem]
    intro e he
    have hfield := stringErrors_field std v s.toList p e he
    refine h e ((validateToolParams_errors std v params e).mpr ⟨d, s, hdepth, ?_⟩)
    rw [hfield]
    exact ⟨hat, he⟩
  · intro h e he
    obtain ⟨d, s, hdepth, hat, he⟩ := (validateToolParams_errors std v params e).mp he
    have hpasses := (passes_iff std v s e.field).mp (h d e.field s hat hdepth)
    rw [hpasses] at he
    cases he

end

def nested : ℕ → Value → Value
  | 0, value => value
  | n+1, value => .array [nested n value]

theorem nested_at (n : ℕ) (path s : String) : ∃ p, StringAt path (nested n (.string s)) n p s := by
  induction n generalizing path with
  | zero => exact ⟨path, .here path s⟩
  | succ n ih =>
    obtain ⟨p, hp⟩ := ih (itemPath path 0)
    exact ⟨p, .item (i := 0) rfl hp⟩

/-- A string with a NUL passes below the last depth. -/
theorem deep_string_skipped : ∃ (std : Std) (params : Value) (s : String),
    (validateToolParams std Validator.new params).isValid = true ∧
    (∃ d p, StringAt "" params d p s) ∧ ¬ Passes std Validator.new s := by
  refine ⟨⟨List.map Char.toLower, fun _ _ => false⟩, nested 33 (.string "\x00"), "\x00", ?_,
    ⟨33, nested_at 33 "" "\x00"⟩, ?_⟩
  · decide
  · rw [Passes]
    decide

end IronClaw.Validator
