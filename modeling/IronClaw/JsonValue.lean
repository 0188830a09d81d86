import Mathlib.Data.List.Basic

/-!
# JSON values

`serde_json::Value` as the program uses it. Object fields are kept in the
order of the underlying map, which sorts its keys. Reading and printing text
belong to the JSON crate and are parameters of the modules that need them.
-/

set_option autoImplicit false

namespace IronClaw.JsonValue

inductive Number where
  | posInt (n : UInt64)
  | negInt (n : Int64)
  | float (bits : UInt64)
  deriving DecidableEq

inductive Value where
  | null
  | bool (b : Bool)
  | number (n : Number)
  | string (s : String)
  | array (xs : List Value)
  | object (fields : List (String × Value))
  deriving Inhabited

abbrev Fields := List (String × Value)

mutual

def decEqValue : (a b : Value) → Decidable (a = b)
  | .null, .null => isTrue rfl
  | .bool a, .bool b => decidable_of_iff (a = b) (by simp)
  | .number a, .number b => decidable_of_iff (a = b) (by simp)
  | .string a, .string b => decidable_of_iff (a = b) (by simp)
  | .array xs, .array ys => match decEqValues xs ys with
    | isTrue h => isTrue (by rw [h])
    | isFalse h => isFalse (by simpa using h)
  | .object xs, .object ys => match decEqFields xs ys with
    | isTrue h => isTrue (by rw [h])
    | isFalse h => isFalse (by simpa using h)
  | .null, .bool _ | .null, .number _ | .null, .string _ | .null, .array _ | .null, .object _
  | .bool _, .null | .bool _, .number _ | .bool _, .string _ | .bool _, .array _
  | .bool _, .object _ | .number _, .null | .number _, .bool _ | .number _, .string _
  | .number _, .array _ | .number _, .object _ | .string _, .null | .string _, .bool _
  | .string _, .number _ | .string _, .array _ | .string _, .object _ | .array _, .null
  | .array _, .bool _ | .array _, .number _ | .array _, .string _ | .array _, .object _
  | .object _, .null | .object _, .bool _ | .object _, .number _ | .object _, .string _
  | .object _, .array _ => isFalse (by simp)

def decEqValues : (xs ys : List Value) → Decidable (xs = ys)
  | [], [] => isTrue rfl
  | [], _::_ | _::_, [] => isFalse (by simp)
  | x::xs, y::ys => match decEqValue x y, decEqValues xs ys with
    | isTrue h, isTrue g => isTrue (by rw [h, g])
    | isFalse h, _ => isFalse (by simp [h])
    | _, isFalse g => isFalse (by simp [g])

def decEqFields : (xs ys : Fields) → Decidable (xs = ys)
  | [], [] => isTrue rfl
  | [], _::_ | _::_, [] => isFalse (by simp)
  | (k, x)::xs, (l, y)::ys =>
    match (inferInstance : Decidable (k = l)), decEqValue x y, decEqFields xs ys with
    | isTrue e, isTrue h, isTrue g => isTrue (by rw [e, h, g])
    | isFalse e, _, _ => isFalse (by simp [e])
    | _, isFalse h, _ => isFalse (by simp [h])
    | _, _, isFalse g => isFalse (by simp [g])

end

instance : DecidableEq Value := decEqValue

def lookup (key : String) : Fields → Option Value
  | [] => none
  | (k, v)::rest => if k = key then some v else lookup key rest

def insert (key : String) (value : Value) : Fields → Fields
  | [] => [(key, value)]
  | (k, v)::rest =>
    if k = key then (key, value)::rest
    else if key < k then (key, value)::(k, v)::rest
    else (k, v)::insert key value rest

theorem lookup_append (key : String) (xs ys : Fields) :
    lookup key (xs++ys) = (lookup key xs).or (lookup key ys) := by
  induction xs with
  | nil => rfl
  | cons x xs ih =>
    obtain ⟨k, v⟩ := x
    by_cases hk : k = key
    · simp [lookup, hk]
    · simp [lookup, hk, ih]

theorem lookup_insert_self (key : String) (v : Value) (fields : Fields) :
    lookup key (insert key v fields) = some v := by
  induction fields with
  | nil => simp [insert, lookup]
  | cons f fields ih =>
    obtain ⟨k, w⟩ := f
    unfold insert
    by_cases hk : k = key
    · simp [hk, lookup]
    · by_cases hlt : key < k
      · simp [hk, hlt, lookup]
      · simp [hk, hlt, lookup, ih]

theorem lookup_insert_ne (key k' : String) (v : Value) (fields : Fields)
    (h : key ≠ k') : lookup k' (insert key v fields) = lookup k' fields := by
  induction fields with
  | nil => simp [insert, lookup, h]
  | cons f fields ih =>
    obtain ⟨k, w⟩ := f
    unfold insert
    by_cases hk : k = key
    · simp [hk, lookup, h]
    · by_cases hlt : key < k
      · simp [hk, hlt, lookup, h]
      · simp [hk, hlt, lookup, ih]

def Value.get (v : Value) (key : String) : Option Value :=
  match v with
  | .object fields => lookup key fields
  | _ => none

def Value.asStr : Value → Option String
  | .string s => some s
  | _ => none

end IronClaw.JsonValue
