import Mathlib.Algebra.GroupWithZero.Nat
import Mathlib.Data.Rat.Defs
import IronClaw.JsonValue

/-!
# What a JSON Schema accepts

The keywords `type`, `enum`, `const`, `anyOf`, `oneOf` and `allOf`; the others
say nothing here. A keyword with a value that no schema has there accepts
nothing, and nothing is a schema besides objects and booleans.
-/

set_option autoImplicit false

namespace IronClaw.JsonSchema
open IronClaw.JsonValue

def numberValue : Number → ℚ
  | .posInt n => n.toNat
  | .negInt n => n.toInt
  | .float bits =>
    let exponent := ((bits >>> 52) &&& 0x7FF).toNat
    let fraction := (bits &&& 0xFFFFFFFFFFFFF).toNat
    let significand := if exponent = 0 then fraction else fraction+2^52
    let size : ℚ := (significand*2^(max exponent 1) : ℕ) / (2^1075 : ℕ)
    if bits >>> 63 = 1 then -size else size

def hasType (name : String) : Value → Bool
  | .null => name = "null"
  | .bool _ => name = "boolean"
  | .number n => name = "number" || name = "integer" && (numberValue n).isInt
  | .string _ => name = "string"
  | .array _ => name = "array"
  | .object _ => name = "object"

def admitsType (type v : Value) : Bool :=
  match type with
  | .string name => hasType name v
  | .array names => names.any (fun name => name.asStr.any (fun s => hasType s v))
  | _ => false

mutual

def same : Value → Value → Bool
  | .null, .null => true
  | .bool a, .bool b => a = b
  | .number a, .number b => numberValue a = numberValue b
  | .string a, .string b => a = b
  | .array xs, .array ys => sameItems xs ys
  | .object xs, .object ys => sameFields xs ys
  | _, _ => false

def sameItems : List Value → List Value → Bool
  | [], [] => true
  | x::xs, y::ys => same x y && sameItems xs ys
  | _, _ => false

def sameFields : Fields → Fields → Bool
  | [], [] => true
  | (k, x)::xs, (l, y)::ys => k = l && same x y && sameFields xs ys
  | _, _ => false

end

def assertions : List String := ["enum", "const", "anyOf", "oneOf", "allOf"]

def judge (key : String) (w v : Value) (parts : Option (List Bool)) : Bool :=
  if key = "enum" then match w with
    | .array xs => xs.any (fun x => same x v)
    | _ => false
  else if key = "const" then same w v
  else if key = "anyOf" then parts.any (fun bs => bs.any id)
  else if key = "oneOf" then parts.any (fun bs => bs.count true = 1)
  else parts.any (fun bs => bs.all id)

section accepts

variable (implied : Fields → Value → Bool)

mutual

def acceptsBy : Value → Value → Bool
  | .bool b, _ => b
  | .object fields, v =>
    (match lookup "type" fields with
      | none => implied fields v
      | some type => admitsType type v) &&
    assertions.all (fun key => ((verdicts fields v).lookup key).getD true)
  | .null, _ => false
  | .number _, _ => false
  | .string _, _ => false
  | .array _, _ => false

def verdicts : Fields → Value → List (String × Bool)
  | [], _ => []
  | (key, w)::fields, v => (key, judge key w v (parts w v))::verdicts fields v

def parts : Value → Value → Option (List Bool)
  | .array xs, v => some (acceptsEach xs v)
  | .null, _ => none
  | .bool _, _ => none
  | .number _, _ => none
  | .string _, _ => none
  | .object _, _ => none

def acceptsEach : List Value → Value → List Bool
  | [], _ => []
  | x::xs, v => acceptsBy x v::acceptsEach xs v

end

def accepts : Value → Value → Bool := acceptsBy (fun _ _ => true)

def typed (fields : Fields) (v : Value) : Bool :=
  match lookup "type" fields with
  | none => implied fields v
  | some type => admitsType type v

def asserted (fields : Fields) (v : Value) : Bool :=
  assertions.all (fun key => (lookup key fields).all (fun w => judge key w v (parts implied w v)))

theorem acceptsEach_eq (xs : List Value) (v : Value) :
    acceptsEach implied xs v = xs.map (fun x => acceptsBy implied x v) := by
  induction xs with
  | nil => rw [acceptsEach, List.map_nil]
  | cons x xs ih => rw [acceptsEach, ih, List.map_cons]

theorem lookup_verdicts (key : String) (fields : Fields) (v : Value) :
    ((verdicts implied fields v).lookup key).getD true =
      (lookup key fields).all (fun w => judge key w v (parts implied w v)) := by
  induction fields with
  | nil => rw [verdicts]; rfl
  | cons p fields ih =>
    obtain ⟨k, w⟩ := p
    rw [verdicts, lookup]
    by_cases hk : k = key
    · rw [if_pos hk, hk, List.lookup_cons_self]
      rfl
    · rw [if_neg hk, List.lookup_cons, beq_eq_false_iff_ne.mpr (Ne.symm hk)]
      exact ih

theorem acceptsBy_object (fields : Fields) (v : Value) :
    acceptsBy implied (.object fields) v =
      (typed implied fields v && asserted implied fields v) := by
  rw [acceptsBy, typed, asserted]
  simp only [lookup_verdicts]

theorem asserted_congr (fields other : Fields) (v : Value)
    (h : ∀ key ∈ assertions, lookup key other = lookup key fields) :
    asserted implied other v = asserted implied fields v := by
  rw [asserted, asserted, Bool.eq_iff_iff, List.all_eq_true, List.all_eq_true]
  exact forall₂_congr (fun key hkey => by rw [h key hkey])

end accepts

end IronClaw.JsonSchema
