import Mathlib.Tactic.IntervalCases
import IronClaw.JsonValue
import IronClaw.Lib.PrefixCode

/-!
# The text of a JSON value

`serde_json::to_string` on values: no blanks, fields in the order of the map,
strings with the control characters escaped. How a double is spelled is left
to the number printer; distinct doubles have distinct spellings, and none of
them looks like an integer.
-/

set_option autoImplicit false

namespace IronClaw.JsonText
open IronClaw.JsonValue Lib.PrefixCode

def isNumeric (c : Char) : Bool := c.isDigit || ['-', '+', '.', 'e', 'E'].contains c

def IsFinite (bits : UInt64) : Prop := (bits >>> 52) &&& 0x7FF ≠ 0x7FF

structure FloatPrinter where
  text : UInt64 → List Char
  numeric : ∀ bits, IsFinite bits → ∀ c ∈ text bits, isNumeric c = true
  marked : ∀ bits, IsFinite bits → '.' ∈ text bits ∨ 'e' ∈ text bits
  injective : ∀ a b, IsFinite a → IsFinite b → text a = text b → a = b

def ValidNumber : Number → Prop
  | .posInt _ => True
  | .negInt n => n.toInt < 0
  | .float bits => IsFinite bits

mutual

def ValidValue : Value → Prop
  | .number n => ValidNumber n
  | .array xs => ValidItems xs
  | .object fields => ValidFields fields
  | .null | .bool _ | .string _ => True

def ValidItems : List Value → Prop
  | [] => True
  | x::xs => ValidValue x ∧ ValidItems xs

def ValidFields : Fields → Prop
  | [] => True
  | (_, x)::fields => ValidValue x ∧ ValidFields fields

end

def digits (n : ℕ) : List Char := Nat.toDigits 10 n

def escape (c : Char) : List Char :=
  if c = '"' then ['\\', '"']
  else if c = '\\' then ['\\', '\\']
  else if c = '\x08' then ['\\', 'b']
  else if c = '\x0c' then ['\\', 'f']
  else if c = '\n' then ['\\', 'n']
  else if c = '\r' then ['\\', 'r']
  else if c = '\t' then ['\\', 't']
  else if c.toNat < 0x20 then
    ['\\', 'u', '0', '0', Nat.digitChar (c.toNat/16), Nat.digitChar (c.toNat%16)]
  else [c]

def printString (s : String) : List Char := '"' ::(s.toList.flatMap escape++['"'])

section Print

variable (floats : FloatPrinter)

def printNumber : Number → List Char
  | .posInt n => digits n.toNat
  | .negInt n => '-'::digits n.toInt.natAbs
  | .float bits => floats.text bits

mutual

def printValue : Value → List Char
  | .null => ['n', 'u', 'l', 'l']
  | .bool true => ['t', 'r', 'u', 'e']
  | .bool false => ['f', 'a', 'l', 's', 'e']
  | .number n => printNumber floats n
  | .string s => printString s
  | .array [] => ['[', ']']
  | .array (x::xs) => '['::(printValue x++printItems xs)
  | .object [] => ['{', '}']
  | .object ((k, x)::fields) => '{' ::(printString k++ ':' ::(printValue x++printFields fields))

def printItems : List Value → List Char
  | [] => [']']
  | x::xs => ','::(printValue x++printItems xs)

def printFields : Fields → List Char
  | [] => ['}']
  | (k, x)::fields => ',' ::(printString k++ ':' ::(printValue x++printFields fields))

end

end Print

def firstEscaped : List Char → Option Char
  | '\\' :: 'u' ::_::_::h::l::_ =>
    some (Char.ofNat ((h.toNat-48)*16+(if l.toNat < 58 then l.toNat-48 else l.toNat-87)))
  | '\\' :: 'b' ::_ => some '\x08'
  | '\\' :: 'f' ::_ => some '\x0c'
  | '\\' :: 'n' ::_ => some '\n'
  | '\\' :: 'r' ::_ => some '\r'
  | '\\' :: 't' ::_ => some '\t'
  | '\\'::c::_ => some c
  | c::_ => some c
  | [] => none

theorem firstEscaped_escape (c : Char) (s : List Char) : firstEscaped (escape c++s) = some c := by
  unfold escape
  split_ifs with hquote hslash hb hf hn hr ht hcontrol
  · rw [hquote]; rfl
  · rw [hslash]; rfl
  · rw [hb]; rfl
  · rw [hf]; rfl
  · rw [hn]; rfl
  · rw [hr]; rfl
  · rw [ht]; rfl
  · have hc := Char.ofNat_toNat c
    generalize c.toNat = n at hc hcontrol
    rw [← hc]
    interval_cases n <;> rfl
  · unfold firstEscaped
    split <;> simp_all

theorem escape_delimited : Delimited escape := by
  intro a b s t h
  have hab : a = b := by
    apply Option.some.inj
    rw [← firstEscaped_escape a s, h, firstEscaped_escape]
  rw [hab] at h
  exact ⟨hab, List.append_cancel_left h⟩

theorem quote_not_escape (c : Char) (s t : List Char) : '"' ::s ≠ escape c++t := by
  unfold escape
  split_ifs with hquote <;> simp
  exact fun h => absurd h.symm hquote

theorem quote_ends (r s t : List Char) (h : '"' ::s = r.flatMap escape++t) : r = [] := by
  cases r with
  | nil => rfl
  | cons c r =>
    rw [List.flatMap_cons, List.append_assoc] at h
    exact absurd h (quote_not_escape c _ _)

theorem string_delimited : Delimited printString := by
  intro a b s t h
  simp only [printString, List.cons_append, List.append_assoc, List.cons.injEq, true_and,
    List.nil_append] at h
  have hlist : a.toList = b.toList ∧ s = t := by
    rcases text_overlap escape escape_delimited _ _ _ _ h with
      ⟨r, hcont, hrest⟩ | ⟨r, hcont, hrest⟩
    · rw [quote_ends r _ _ hrest, List.append_nil] at hcont
      rw [quote_ends r _ _ hrest] at hrest
      exact ⟨hcont.symm, (List.cons.inj hrest).2⟩
    · rw [quote_ends r _ _ hrest, List.append_nil] at hcont
      rw [quote_ends r _ _ hrest] at hrest
      exact ⟨hcont, (List.cons.inj hrest).2.symm⟩
  exact ⟨String.toList_inj.mp hlist.1, hlist.2⟩

theorem digits_digit (n : ℕ) (c : Char) (h : c ∈ digits n) : c.isDigit = true :=
  Nat.isDigit_of_mem_toDigits (by omega) (by omega) h

theorem digits_injective (n m : ℕ) (h : digits n = digits m) : n = m := by
  simpa [digits] using congrArg (fun cs => Nat.ofDigitChars 10 cs 0) h

section Readable

variable (floats : FloatPrinter)

theorem number_numeric (n : Number) (hn : ValidNumber n) :
    ∀ c ∈ printNumber floats n, isNumeric c = true := by
  intro c hc
  cases n with
  | posInt n => simp [isNumeric, digits_digit _ c hc]
  | negInt n =>
    rcases List.mem_cons.mp hc with rfl | hc
    · rfl
    · simp [isNumeric, digits_digit _ c hc]
  | float bits => exact floats.numeric bits hn c hc

def spelledKind (cs : List Char) : ℕ :=
  if cs.any (fun c => c = '.' || c = 'e') then 2 else if cs.head? = some '-' then 1 else 0

def numberKind : Number → ℕ
  | .posInt _ => 0
  | .negInt _ => 1
  | .float _ => 2

theorem digits_plain (n : ℕ) : (digits n).any (fun c => c = '.' || c = 'e') = false := by
  rw [List.any_eq_false]
  intro c hc
  have hdigit := digits_digit n c hc
  by_contra hmark
  simp only [Bool.or_eq_true, decide_eq_true_eq] at hmark
  rcases hmark with rfl | rfl <;> simp at hdigit

theorem spelled_kind (n : Number) (hn : ValidNumber n) :
    spelledKind (printNumber floats n) = numberKind n := by
  unfold spelledKind
  cases n with
  | posInt n =>
    have hhead : (digits n.toNat).head? ≠ some '-' := by
      intro h
      have hdigit := digits_digit _ '-' (List.mem_of_mem_head? h)
      simp at hdigit
    simp [printNumber, digits_plain, hhead, numberKind]
  | negInt n => simp [printNumber, digits_plain, numberKind]
  | float bits =>
    have hmark : (floats.text bits).any (fun c => c = '.' || c = 'e') = true := by
      rw [List.any_eq_true]
      rcases floats.marked bits hn with h | h
      · exact ⟨'.', h, rfl⟩
      · exact ⟨'e', h, rfl⟩
    rw [printNumber, if_pos hmark, numberKind]

theorem number_injective (n m : Number) (hn : ValidNumber n) (hm : ValidNumber m)
    (h : printNumber floats n = printNumber floats m) : n = m := by
  have hkind := spelled_kind floats n hn
  rw [h, spelled_kind floats m hm] at hkind
  cases n <;> cases m <;> simp only [numberKind, reduceCtorEq, Nat.reduceEqDiff,
    OfNat.ofNat_ne_zero, OfNat.zero_ne_ofNat] at hkind
  case posInt.posInt n m => rw [UInt64.toNat_inj.mp (digits_injective _ _ h)]
  case negInt.negInt n m =>
    have habs := digits_injective _ _ (List.cons.inj h).2
    have hneg : n.toInt < 0 := hn
    have hneg' : m.toInt < 0 := hm
    have heq : n.toInt = m.toInt := by omega
    rw [Int64.toInt_inj.mp heq]
  case float.float a b => rw [floats.injective a b hn hm h]

def leadKind (c : Char) : ℕ :=
  if isNumeric c then 0 else if c = 'n' then 1 else if c = 't' then 2 else if c = 'f' then 3
  else if c = '"' then 4 else if c = '[' then 5 else if c = '{' then 6 else 7

def valueKind : Value → ℕ
  | .number _ => 0
  | .null => 1
  | .bool true => 2
  | .bool false => 3
  | .string _ => 4
  | .array _ => 5
  | .object _ => 6

theorem number_head (n : Number) (hn : ValidNumber n) :
    ∃ c cs, printNumber floats n = c::cs ∧ isNumeric c = true := by
  have hnumeric := number_numeric floats n hn
  have hne : printNumber floats n ≠ [] := by
    cases n with
    | posInt n => exact Nat.toDigits_ne_nil
    | negInt n => exact List.cons_ne_nil _ _
    | float bits =>
      intro h
      have hmark := floats.marked bits hn
      rw [show floats.text bits = [] from h] at hmark
      simp at hmark
  obtain ⟨c, cs, hcs⟩ := List.exists_cons_of_ne_nil hne
  exact ⟨c, cs, hcs, hnumeric c (by rw [hcs]; exact List.mem_cons_self)⟩

theorem value_head (v : Value) (hv : ValidValue v) :
    ∃ c cs, printValue floats v = c::cs ∧ leadKind c = valueKind v := by
  cases v with
  | null => exact ⟨'n', _, rfl, rfl⟩
  | bool b =>
    cases b with
    | true => exact ⟨'t', _, rfl, rfl⟩
    | false => exact ⟨'f', _, rfl, rfl⟩
  | number n =>
    obtain ⟨c, cs, hcs, hnumeric⟩ := number_head floats n hv
    exact ⟨c, cs, hcs, by simp [leadKind, hnumeric, valueKind]⟩
  | string s => exact ⟨'"', _, rfl, rfl⟩
  | array xs =>
    cases xs with
    | nil => exact ⟨'[', _, rfl, rfl⟩
    | cons x xs => exact ⟨'[', _, rfl, rfl⟩
  | object fields =>
    cases fields with
    | nil => exact ⟨'{', _, rfl, rfl⟩
    | cons f fields => exact ⟨'{', _, rfl, rfl⟩

theorem same_kind (a b : Value) (s t : List Char) (ha : ValidValue a) (hb : ValidValue b)
    (h : printValue floats a++s = printValue floats b++t) : valueKind a = valueKind b := by
  obtain ⟨c, cs, hcs, hc⟩ := value_head floats a ha
  obtain ⟨d, ds, hds, hd⟩ := value_head floats b hb
  rw [hcs, hds] at h
  rw [← hc, ← hd, (List.cons.inj h).1]

theorem value_opens (v : Value) (hv : ValidValue v) (c : Char) (s t : List Char)
    (hc : leadKind c = 7) : c::s ≠ printValue floats v++t := by
  intro h
  obtain ⟨d, ds, hds, hd⟩ := value_head floats v hv
  rw [hds] at h
  rw [(List.cons.inj h).1, hd] at hc
  revert hc
  cases v with
  | bool b => cases b <;> decide
  | _ => simp [valueKind]

def Stops (s : List Char) : Prop := ∀ c ∈ s.head?, isNumeric c = false

theorem items_stop (xs : List Value) (s : List Char) : Stops (printItems floats xs++s) := by
  cases xs <;> simp [Stops, printItems] <;> rfl

theorem fields_stop (fields : Fields) (s : List Char) :
    Stops (printFields floats fields++s) := by
  cases fields <;> simp [Stops, printFields] <;> rfl

mutual

theorem value_delimited (a b : Value) (s t : List Char) (ha : ValidValue a) (hb : ValidValue b)
    (hs : Stops s) (ht : Stops t) (h : printValue floats a++s = printValue floats b++t) :
    a = b ∧ s = t := by
  have hkind := same_kind floats a b s t ha hb h
  match a, b, ha, hb, h, hkind with
  | .null, .null, _, _, h, _ => exact ⟨rfl, List.append_cancel_left h⟩
  | .bool true, .bool true, _, _, h, _ => exact ⟨rfl, List.append_cancel_left h⟩
  | .bool false, .bool false, _, _, h, _ => exact ⟨rfl, List.append_cancel_left h⟩
  | .number n, .number m, hn, hm, h, _ =>
    obtain ⟨htext, hrest⟩ := run_split isNumeric _ _ s t (number_numeric floats n hn)
      (number_numeric floats m hm) hs ht h
    exact ⟨by rw [number_injective floats n m hn hm htext], hrest⟩
  | .string x, .string y, _, _, h, _ =>
    obtain ⟨hxy, hrest⟩ := string_delimited x y s t h
    exact ⟨by rw [hxy], hrest⟩
  | .array xs, .array ys, hxs, hys, h, _ =>
    match xs, ys, hxs, hys, h with
    | [], [], _, _, h => exact ⟨rfl, List.append_cancel_left h⟩
    | [], y::ys, _, hy, h =>
      simp only [printValue, List.cons_append, List.nil_append, List.append_assoc,
        List.cons.injEq, true_and] at h
      exact absurd h (value_opens floats y hy.1 ']' s _ (by decide))
    | x::xs, [], hx, _, h =>
      simp only [printValue, List.cons_append, List.nil_append, List.append_assoc,
        List.cons.injEq, true_and] at h
      exact absurd h.symm (value_opens floats x hx.1 ']' t _ (by decide))
    | x::xs, y::ys, hx, hy, h =>
      simp only [printValue, List.cons_append, List.append_assoc, List.cons.injEq,
        true_and] at h
      obtain ⟨hxy, hrest⟩ := value_delimited x y _ _ hx.1 hy.1 (items_stop floats xs s)
        (items_stop floats ys t) h
      obtain ⟨hxys, hend⟩ := items_delimited xs ys s t hx.2 hy.2 hrest
      exact ⟨by rw [hxy, hxys], hend⟩
  | .object xs, .object ys, hxs, hys, h, _ =>
    match xs, ys, hxs, hys, h with
    | [], [], _, _, h => exact ⟨rfl, List.append_cancel_left h⟩
    | [], (l, y)::ys, _, _, h =>
      simp only [printValue, printString, List.cons_append, List.nil_append, List.cons.injEq,
        true_and] at h
      exact absurd h.1 (by decide)
    | (k, x)::xs, [], _, _, h =>
      simp only [printValue, printString, List.cons_append, List.nil_append, List.cons.injEq,
        true_and] at h
      exact absurd h.1 (by decide)
    | (k, x)::xs, (l, y)::ys, hx, hy, h =>
      simp only [printValue, List.cons_append, List.append_assoc, List.cons.injEq,
        true_and] at h
      obtain ⟨hkl, hvalue⟩ := string_delimited k l _ _ h
      obtain ⟨hxy, hrest⟩ := value_delimited x y _ _ hx.1 hy.1 (fields_stop floats xs s)
        (fields_stop floats ys t) (List.cons.inj hvalue).2
      obtain ⟨hxys, hend⟩ := fields_delimited xs ys s t hx.2 hy.2 hrest
      exact ⟨by rw [hkl, hxy, hxys], hend⟩

theorem items_delimited (xs ys : List Value) (s t : List Char) (hxs : ValidItems xs)
    (hys : ValidItems ys) (h : printItems floats xs++s = printItems floats ys++t) :
    xs = ys ∧ s = t := by
  match xs, ys, hxs, hys, h with
  | [], [], _, _, h => exact ⟨rfl, List.append_cancel_left h⟩
  | [], _::_, _, _, h => simp [printItems] at h
  | _::_, [], _, _, h => simp [printItems] at h
  | x::xs, y::ys, hx, hy, h =>
    simp only [printItems, List.cons_append, List.append_assoc, List.cons.injEq, true_and] at h
    obtain ⟨hxy, hrest⟩ := value_delimited x y _ _ hx.1 hy.1 (items_stop floats xs s)
      (items_stop floats ys t) h
    obtain ⟨hxys, hend⟩ := items_delimited xs ys s t hx.2 hy.2 hrest
    exact ⟨by rw [hxy, hxys], hend⟩

theorem fields_delimited (xs ys : Fields) (s t : List Char)
    (hxs : ValidFields xs) (hys : ValidFields ys)
    (h : printFields floats xs++s = printFields floats ys++t) : xs = ys ∧ s = t := by
  match xs, ys, hxs, hys, h with
  | [], [], _, _, h => exact ⟨rfl, List.append_cancel_left h⟩
  | [], (_, _)::_, _, _, h => simp [printFields] at h
  | (_, _)::_, [], _, _, h => simp [printFields] at h
  | (k, x)::xs, (l, y)::ys, hx, hy, h =>
    simp only [printFields, List.cons_append, List.append_assoc, List.cons.injEq,
      true_and] at h
    obtain ⟨hkl, hvalue⟩ := string_delimited k l _ _ h
    obtain ⟨hxy, hrest⟩ := value_delimited x y _ _ hx.1 hy.1 (fields_stop floats xs s)
      (fields_stop floats ys t) (List.cons.inj hvalue).2
    obtain ⟨hxys, hend⟩ := fields_delimited xs ys s t hx.2 hy.2 hrest
    exact ⟨by rw [hkl, hxy, hxys], hend⟩

end

theorem string_line (s : String) : '\n' ∉ printString s := by
  have hescape : ∀ c, '\n' ∉ escape c := by
    intro c hin
    unfold escape at hin
    split_ifs at hin <;> simp_all [eq_comm]
  intro hin
  simp only [printString, List.mem_cons, List.mem_append, List.mem_flatMap, List.not_mem_nil,
    or_false] at hin
  rcases hin with hin | ⟨c, -, hin⟩ | hin
  · simp at hin
  · exact hescape c hin
  · simp at hin

mutual

theorem value_line (v : Value) (hv : ValidValue v) : '\n' ∉ printValue floats v := by
  match v, hv with
  | .null, _ => simp [printValue]
  | .bool true, _ => simp [printValue]
  | .bool false, _ => simp [printValue]
  | .number n, hn =>
    intro hin
    exact absurd (number_numeric floats n hn _ hin) (by decide)
  | .string s, _ => exact string_line s
  | .array [], _ => simp [printValue]
  | .array (x::xs), hx =>
    simp [printValue, value_line x hx.1, items_line xs hx.2]
  | .object [], _ => simp [printValue]
  | .object ((k, x)::fields), hx =>
    simp [printValue, string_line k, value_line x hx.1, fields_line fields hx.2]

theorem items_line (xs : List Value) (hxs : ValidItems xs) : '\n' ∉ printItems floats xs := by
  match xs, hxs with
  | [], _ => simp [printItems]
  | x::xs, hx => simp [printItems, value_line x hx.1, items_line xs hx.2]

theorem fields_line (fields : Fields) (hfields : ValidFields fields) :
    '\n' ∉ printFields floats fields := by
  match fields, hfields with
  | [], _ => simp [printFields]
  | (k, x)::fields, hx =>
    simp [printFields, string_line k, value_line x hx.1, fields_line fields hx.2]

end

end Readable

def plainFloats : FloatPrinter where
  text bits := digits bits.toNat++['.', '0']
  numeric := by
    intro bits _ c hc
    rcases List.mem_append.mp hc with hc | hc
    · simp [isNumeric, digits_digit _ c hc]
    · rcases List.mem_cons.mp hc with rfl | hc
      · rfl
      · rw [List.mem_singleton.mp hc]
        rfl
  marked := fun _ _ => Or.inl (by simp)
  injective := by
    intro a b _ _ h
    exact UInt64.toNat_inj.mp (digits_injective _ _ (List.append_cancel_right h))

end IronClaw.JsonText
