import IronClaw.JsonValue
import IronClaw.Lib.Letters
import IronClaw.Lib.Text
import IronClaw.Lib.Words

/-!
# Redaction of sensitive keys

`tools/redaction.rs` replaces the values of the keys that name a secret. A key
is looked up in a list of names and cut into words, at what is no letter or
digit and where the case changes; some words tell on their own, others beside a
word that gives them a context.
-/

set_option autoImplicit false

namespace IronClaw.KeyRedaction
open IronClaw.JsonValue Lib.Letters Lib.Text Lib.Words

def redacted : String := "[REDACTED]"

def sensitiveExact : List String :=
  ["authorization", "proxy-authorization", "cookie", "set-cookie", "x-api-key", "api-key",
    "api_key", "access_token", "refresh_token", "session_token", "id_token", "token", "password",
    "passwd", "secret", "client_secret", "private_key", "apikey", "apisecret"]

def sensitiveParts : List String :=
  ["password", "passwd", "secret", "credential", "authorization", "cookie", "apikey", "apisecret"]

def tokenParts : List String := ["token", "jwt"]

def keyParts : List String := ["key"]

def contextParts : List String :=
  ["auth", "oauth", "authorization", "api", "access", "refresh", "session", "bearer", "private",
    "client", "id", "app", "user", "application", "account"]

/-! ## Words of a key -/

def camelBoundary (prev cur : Char) (next : Option Char) : Bool :=
  (prev.isLower && cur.isUpper) || (prev.isAlpha && cur.isDigit) ||
  (prev.isDigit && cur.isAlpha) ||
  (prev.isUpper && cur.isUpper && (next.map Char.isLower).getD false)

def camelFrom (part : List Char) (prev : Char) : List Char → List (List Char)
  | [] => [part]
  | cur::rest =>
    if camelBoundary prev cur rest.head? then part::camelFrom [cur] cur rest
    else camelFrom (part++[cur]) cur rest

def splitCamelCaseKeyParts : List Char → List (List Char)
  | [] => []
  | c::cs => camelFrom [c] c cs

def separates (c : Char) : Bool := !c.isAlphanum

def asciiLower (cs : List Char) : List Char := cs.map Char.toLower

def tokenizeKeyParts (key : String) : List String :=
  ((words separates key.toList).flatMap splitCamelCaseKeyParts).map
    (fun part => String.ofList (asciiLower part))

def hasExact (parts candidates : List String) : Bool :=
  parts.any (fun part => candidates.contains part)

def numberedVariant (part candidate : String) : Bool :=
  part == candidate ||
    match stripPrefix part candidate with
    | some suffix => !suffix.toList.isEmpty && suffix.toList.all Char.isDigit
    | none => false

def hasCandidateOrNumberedVariant (parts candidates : List String) : Bool :=
  parts.any (fun part => candidates.any (numberedVariant part))

def stripSuffix (s t : String) : Option String :=
  if endsWith s t then
    some (String.ofList (s.toList.take (s.toList.length-t.toList.length)))
  else none

def contextualSuffix (part candidate : String) : Bool :=
  match stripSuffix part candidate with
  | some lead => !lead.toList.isEmpty && contextParts.contains lead
  | none => false

def hasContextualSuffix (parts candidates : List String) : Bool :=
  parts.any (fun part => candidates.any (contextualSuffix part))

def partsSensitive (parts : List String) : Bool :=
  if parts.isEmpty then false
  else if hasCandidateOrNumberedVariant parts sensitiveParts then true
  else
    let hasToken := hasCandidateOrNumberedVariant parts tokenParts
    let hasKey := hasCandidateOrNumberedVariant parts keyParts
    if hasToken && hasKey then true
    else if hasContextualSuffix parts tokenParts || hasContextualSuffix parts keyParts then true
    else hasExact parts contextParts && (hasToken || hasKey)

def isSensitiveKey (key : String) : Bool :=
  if sensitiveExact.contains (String.ofList (asciiLower key.toList)) then true
  else partsSensitive (tokenizeKeyParts key)

/-! ## Redaction -/

mutual

def redactInPlace : Value → Value
  | .object fields => .object (redactObject fields)
  | .array xs => .array (redactItems xs)
  | v => v

def redactItems : List Value → List Value
  | [] => []
  | x::xs => redactInPlace x::redactItems xs

def redactObject : Fields → Fields
  | [] => []
  | (key, v)::fields =>
    (key, if isSensitiveKey key then .string redacted else redactInPlace v)::redactObject fields

end

def redactSensitiveJson (value : Value) : Value := redactInPlace value

inductive Step where
  | key (k : String)
  | index (i : ℕ)
  deriving DecidableEq

def at_ : List Step → Value → Option Value
  | [], v => some v
  | .key k::p, .object fields => (lookup k fields).bind (at_ p)
  | .index i::p, .array xs => xs[i]?.bind (at_ p)
  | _::_, _ => none

def Open (p : List Step) : Prop := ∀ k, .key k ∈ p → isSensitiveKey k = false

def Alike : Value → Value → Prop
  | .array xs, .array ys => ys.length = xs.length
  | .object fields, .object fields' => fields'.map Prod.fst = fields.map Prod.fst
  | v, w => w = v

theorem redactItems_map (xs : List Value) : redactItems xs = xs.map redactInPlace := by
  induction xs with
  | nil => rfl
  | cons x xs ih => rw [redactItems, ih, List.map_cons]

theorem redactObject_keys (fields : Fields) :
    (redactObject fields).map Prod.fst = fields.map Prod.fst := by
  induction fields with
  | nil => rfl
  | cons f fields ih => rw [redactObject, List.map_cons, ih, List.map_cons]

theorem lookup_redactObject (k : String) (fields : Fields) :
    lookup k (redactObject fields) = (lookup k fields).map
      (fun v => if isSensitiveKey k then .string redacted else redactInPlace v) := by
  induction fields with
  | nil => rfl
  | cons f fields ih =>
    obtain ⟨key, v⟩ := f
    rw [redactObject, lookup, lookup, ih]
    by_cases hk : key = k
    · simp [hk]
    · simp [hk]

theorem alike_redact (v : Value) : Alike v (redactSensitiveJson v) := by
  cases v with
  | array xs =>
    show (redactItems xs).length = xs.length
    rw [redactItems_map, List.length_map]
  | object fields => exact redactObject_keys fields
  | null => rfl
  | bool b => rfl
  | number n => rfl
  | string s => rfl

/-- At an open path stands what stood there, redacted. -/
theorem at_open (p : List Step) (v : Value) (h : Open p) :
    at_ p (redactSensitiveJson v) = (at_ p v).map redactSensitiveJson := by
  induction p generalizing v with
  | nil => rfl
  | cons step p ih =>
    have hrest : Open p := fun k hk => h k (List.mem_cons_of_mem step hk)
    have hbind : ∀ o : Option Value, (o.map redactInPlace).bind (at_ p) =
        (o.bind (at_ p)).map redactSensitiveJson := by
      intro o
      cases o with
      | none => rfl
      | some x => exact ih x hrest
    cases step with
    | key k =>
      cases v with
      | object fields =>
        have hk := h k List.mem_cons_self
        show (lookup k (redactObject fields)).bind (at_ p) = _
        rw [lookup_redactObject, hk]
        exact hbind (lookup k fields)
      | array xs => rfl
      | null => rfl
      | bool b => rfl
      | number n => rfl
      | string s => rfl
    | index i =>
      cases v with
      | array xs =>
        show ((redactItems xs)[i]?).bind (at_ p) = _
        rw [redactItems_map, List.getElem?_map]
        exact hbind xs[i]?
      | object fields => rfl
      | null => rfl
      | bool b => rfl
      | number n => rfl
      | string s => rfl

theorem at_append (p q : List Step) (v : Value) : at_ (p++q) v = (at_ p v).bind (at_ q) := by
  induction p generalizing v with
  | nil => rfl
  | cons step p ih =>
    have hbind : ∀ o : Option Value, o.bind (at_ (p++q)) = (o.bind (at_ p)).bind (at_ q) := by
      intro o
      cases o with
      | none => rfl
      | some x => exact ih x
    cases step with
    | key k =>
      cases v with
      | object fields => exact hbind (lookup k fields)
      | array xs => rfl
      | null => rfl
      | bool b => rfl
      | number n => rfl
      | string s => rfl
    | index i =>
      cases v with
      | array xs => exact hbind xs[i]?
      | object fields => rfl
      | null => rfl
      | bool b => rfl
      | number n => rfl
      | string s => rfl

/-- Under a sensitive key behind an open path stands the marker. -/
theorem at_sensitive (p : List Step) (k : String) (v : Value) (h : Open p)
    (hk : isSensitiveKey k = true) :
    at_ (p++[.key k]) (redactSensitiveJson v) =
      (at_ (p++[.key k]) v).map (fun _ => .string redacted) := by
  rw [at_append, at_append, at_open p v h]
  cases at_ p v with
  | none => rfl
  | some x =>
    cases x with
    | object fields =>
      show (lookup k (redactObject fields)).bind (at_ []) = ((lookup k fields).bind (at_ [])).map _
      rw [lookup_redactObject]
      cases lookup k fields with
      | none => rfl
      | some y => simp [at_, hk]
    | array xs => rfl
    | null => rfl
    | bool b => rfl
    | number n => rfl
    | string s => rfl

mutual

theorem redact_redact : (v : Value) → redactInPlace (redactInPlace v) = redactInPlace v
  | .object fields => congrArg Value.object (redactObject_redact fields)
  | .array xs => congrArg Value.array (redactItems_redact xs)
  | .null | .bool _ | .number _ | .string _ => rfl

theorem redactItems_redact : (xs : List Value) → redactItems (redactItems xs) = redactItems xs
  | [] => rfl
  | x::xs => by
    rw [redactItems, redactItems, redact_redact x, redactItems_redact xs]

theorem redactObject_redact : (fields : Fields) →
    redactObject (redactObject fields) = redactObject fields
  | [] => rfl
  | (key, v)::fields => by
    rw [redactObject, redactObject, redactObject_redact fields]
    cases isSensitiveKey key with
    | true => rfl
    | false => simp only [Bool.false_eq_true, if_false, redact_redact v]

end

/-! ## Spellings -/

structure Word where
  letters : List Char
  nonempty : letters ≠ []
  lower : ∀ c ∈ letters, c.isLower = true

def Word.text (w : Word) : String := String.ofList w.letters

def joinedBy (c : Char) (ws : List Word) : String :=
  String.ofList ([c].intercalate (ws.map Word.letters))

def snakeCase (ws : List Word) : String := joinedBy '_' ws

def kebabCase (ws : List Word) : String := joinedBy '-' ws

def capitalized : List Char → List Char
  | [] => []
  | c::cs => c.toUpper::cs

def camelCase : List Word → String
  | [] => ""
  | w::ws => String.ofList (w.letters++ws.flatMap (fun v => capitalized v.letters))

def together (ws : List Word) : String := String.ofList (ws.flatMap Word.letters)

def mergedAfter (run : List Char) : List Word → List (List Char)
  | [] => if run = [] then [] else [run]
  | w::ws =>
    if w.letters.length = 1 then mergedAfter (run++w.letters) ws
    else (if run = [] then [] else [run])++w.letters::mergedAfter [] ws

def camelWords : List Word → List String
  | [] => []
  | w::ws => w.text::(mergedAfter [] ws).map String.ofList

/-! ### Letters -/

def LetterFacts (c : Char) : Prop :=
  c.isUpper = false ∧ c.isDigit = false ∧ c.isAlpha = true ∧ separates c = false ∧
    c.toLower = c ∧ c.toUpper.isUpper = true ∧ c.toUpper.isLower = false ∧
    c.toUpper.isDigit = false ∧ c.toUpper.isAlpha = true ∧ separates c.toUpper = false ∧
    c.toUpper.toLower = c ∧ c ≠ '_' ∧ c ≠ '-'

variable (ws : List Word) (c : Char)

theorem lower_letter (h : c.isLower = true) : LetterFacts c := by
  have hrange := (isLower_iff c).mp h
  have hall : ∀ i < 26, LetterFacts (Char.ofNat (97+i)) := by
    unfold LetterFacts
    decide
  have hc : Char.ofNat (97+(c.toNat-97)) = c := by
    rw [Nat.add_sub_cancel' hrange.1, Char.ofNat_toNat]
  have hfacts := hall (c.toNat-97) (by omega)
  rwa [hc] at hfacts

theorem word_separates (w : Word) : ∀ c ∈ w.letters, separates c = false :=
  fun c hc => (lower_letter c (w.lower c hc)).2.2.2.1

theorem word_words (w : Word) : words separates w.letters = [w.letters] :=
  words_word w.letters ⟨w.nonempty, word_separates w⟩

theorem asciiLower_letters (l : List Char) (h : ∀ c ∈ l, c.isLower = true) :
    asciiLower l = l := by
  have hmap : l.map Char.toLower = l.map id := by
    apply List.map_congr_left
    intro c hc
    obtain ⟨_, _, _, _, hlower, _⟩ := lower_letter c (h c hc)
    exact hlower
  rw [asciiLower, hmap, List.map_id]

theorem asciiLower_word (w : Word) : asciiLower w.letters = w.letters :=
  asciiLower_letters w.letters w.lower

theorem camelFrom_lower (l rest part : List Char) (prev : Char) (hprev : prev.isAlpha = true)
    (hdigit : prev.isDigit = false) (hl : ∀ c ∈ l, c.isLower = true) :
    camelFrom part prev (l++rest) = camelFrom (part++l) ((prev::l).getLast (by simp)) rest := by
  induction l generalizing part prev with
  | nil => rw [List.nil_append, List.append_nil, List.getLast_singleton]
  | cons c l ih =>
    obtain ⟨hupper, hcdigit, hcalpha, _⟩ := lower_letter c (hl c List.mem_cons_self)
    have hgoes : camelBoundary prev c (l++rest).head? = false := by
      simp [camelBoundary, hupper, hcdigit, hdigit]
    rw [List.cons_append, camelFrom, hgoes, if_neg (by simp),
      ih (part++[c]) c hcalpha hcdigit (fun d hd => hl d (List.mem_cons_of_mem c hd)),
      List.append_assoc, List.singleton_append, List.getLast_cons_cons]

theorem split_word (w : Word) : splitCamelCaseKeyParts w.letters = [w.letters] := by
  obtain ⟨letters, hne, hlower⟩ := w
  cases letters with
  | nil => exact absurd rfl hne
  | cons c l =>
    obtain ⟨_, hdigit, halpha, _⟩ := lower_letter c (hlower c List.mem_cons_self)
    have hparts := camelFrom_lower l [] [c] c halpha hdigit
      (fun d hd => hlower d (List.mem_cons_of_mem c hd))
    rw [List.append_nil] at hparts
    show camelFrom [c] c l = _
    rw [hparts]
    rfl

theorem capitals_head :
    (((ws.flatMap (fun v => capitalized v.letters)).head?).map Char.isLower).getD false =
      false := by
  cases ws with
  | nil => rfl
  | cons w ws =>
    obtain ⟨letters, hne, hlower⟩ := w
    cases letters with
    | nil => exact absurd rfl hne
    | cons c l =>
      obtain ⟨_, _, _, _, _, _, hcapital, _⟩ := lower_letter c (hlower c List.mem_cons_self)
      exact hcapital

theorem asciiLower_capitalized (l : List Char) (h : ∀ d ∈ c::l, d.isLower = true) :
    asciiLower (c.toUpper::l) = c::l := by
  obtain ⟨_, _, _, _, _, _, _, _, _, _, hback, _⟩ := lower_letter c (h c List.mem_cons_self)
  have hl := asciiLower_letters l (fun d hd => h d (List.mem_cons_of_mem c hd))
  show c.toUpper.toLower::asciiLower l = c::l
  rw [hback, hl]

/-- A capitalized word of several letters is a part of its own. -/
theorem longer_part (l rest : List Char) (tail : List (List Char))
    (hlower : ∀ d ∈ c::l, d.isLower = true) (hne : l ≠ [])
    (hrest : ∀ (part : List Char) (prev : Char), prev.isLower = true →
      (camelFrom part prev rest).map asciiLower = asciiLower part::tail) :
    (camelFrom [c.toUpper] c.toUpper (l++rest)).map asciiLower = (c::l)::tail := by
  obtain ⟨_, _, _, _, _, _, _, hdigit, halpha, _⟩ := lower_letter c (hlower c List.mem_cons_self)
  have hl : ∀ d ∈ l, d.isLower = true := fun d hd => hlower d (List.mem_cons_of_mem c hd)
  have hlast : ((c.toUpper::l).getLast (by simp)).isLower = true := by
    rw [List.getLast_cons hne]
    exact hl _ (List.getLast_mem hne)
  rw [camelFrom_lower l rest [c.toUpper] c.toUpper halpha hdigit hl, hrest _ _ hlast]
  congr 1
  exact asciiLower_capitalized c l hlower

theorem mergedAfter_cons (l : List Char) (hne : c::l ≠ []) (hlower : ∀ d ∈ c::l, d.isLower = true)
    (ws : List Word) (run : List Char) :
    mergedAfter run (⟨c::l, hne, hlower⟩::ws) =
      if l = [] then mergedAfter (run++[c]) ws
      else (if run = [] then [] else [run])++(c::l)::mergedAfter [] ws := by
  rw [mergedAfter]
  cases l with
  | nil => rfl
  | cons d l => rfl

/-- The parts behind a lower-case letter are the words; those behind a capital
on its own go on with it as long as single letters follow. -/
theorem camel_parts (part : List Char) :
    (∀ prev : Char, prev.isLower = true →
      (camelFrom part prev (ws.flatMap (fun v => capitalized v.letters))).map asciiLower =
        asciiLower part::mergedAfter [] ws) ∧
      (∀ c : Char, c.isLower = true → part ≠ [] →
        (camelFrom part c.toUpper (ws.flatMap (fun v => capitalized v.letters))).map asciiLower =
          mergedAfter (asciiLower part) ws) := by
  induction ws generalizing part with
  | nil =>
    refine ⟨fun prev _ => rfl, ?_⟩
    intro c _ hpart
    have hne : asciiLower part ≠ [] := by
      simpa [asciiLower] using hpart
    rw [mergedAfter, if_neg hne]
    rfl
  | cons w ws ih =>
    obtain ⟨letters, hne, hlower⟩ := w
    cases letters with
    | nil => exact absurd rfl hne
    | cons c l =>
      have htail := capitals_head ws
      obtain ⟨_, _, _, _, _, hupper, hnotlower, hdigit, halpha, _⟩ :=
        lower_letter c (hlower c List.mem_cons_self)
      have hl : ∀ d ∈ l, d.isLower = true := fun d hd => hlower d (List.mem_cons_of_mem c hd)
      have hlonger : l ≠ [] → (camelFrom [c.toUpper] c.toUpper
          (l++ws.flatMap (fun v => capitalized v.letters))).map asciiLower =
          (c::l)::mergedAfter [] ws :=
        fun hlne => longer_part c l _ _ hlower hlne (fun part prev => (ih part).1 prev)
      have hone : asciiLower [c.toUpper] = [c] :=
        asciiLower_capitalized c [] (fun d hd => hlower d (by simp_all))
      constructor
      · intro prev hprev
        have hcut : camelBoundary prev c.toUpper
            (l++ws.flatMap (fun v => capitalized v.letters)).head? = true := by
          simp [camelBoundary, hprev, hupper]
        show (camelFrom part prev (c.toUpper::(l++ws.flatMap _))).map asciiLower = _
        rw [camelFrom, hcut, if_pos rfl, List.map_cons, mergedAfter_cons]
        by_cases hnil : l = []
        · rw [if_pos hnil, hnil, List.nil_append,
            (ih _).2 c (hlower c List.mem_cons_self) (by simp), hone]
          rfl
        · rw [if_neg hnil, hlonger hnil]
          rfl
      · intro c' hc' hpart
        obtain ⟨_, _, _, _, _, hupper', hnotlower', hdigit', halpha', _⟩ := lower_letter c' hc'
        have hrun : asciiLower part ≠ [] := by
          simpa [asciiLower] using hpart
        show (camelFrom part c'.toUpper (c.toUpper::(l++ws.flatMap _))).map asciiLower = _
        rw [camelFrom, mergedAfter_cons]
        by_cases hnil : l = []
        · have hgoes : camelBoundary c'.toUpper c.toUpper
              (l++ws.flatMap (fun v => capitalized v.letters)).head? = false := by
            simp [camelBoundary, hnotlower', hdigit, hdigit', hnil, htail]
          rw [hgoes, if_neg (by simp), if_pos hnil, hnil, List.nil_append,
            (ih _).2 c (hlower c List.mem_cons_self) (by simp)]
          rw [asciiLower, List.map_append, ← asciiLower, ← asciiLower, hone]
        · obtain ⟨d, l', rfl⟩ := List.exists_cons_of_ne_nil hnil
          have hcut : camelBoundary c'.toUpper c.toUpper
              (d::l'++ws.flatMap (fun v => capitalized v.letters)).head? = true := by
            simp [camelBoundary, hupper, hupper', hl d List.mem_cons_self]
          rw [hcut, if_pos rfl, List.map_cons, if_neg hnil, if_neg hrun, hlonger hnil]
          rfl

/-! ### Keys -/

theorem words_joined (hc : separates c = true) (ws : List Word) :
    words separates ([c].intercalate (ws.map Word.letters)) = ws.map Word.letters := by
  rw [words_intercalate c hc, List.flatMap_map]
  induction ws with
  | nil => rfl
  | cons w ws ih => rw [List.flatMap_cons, ih, word_words, List.map_cons, List.singleton_append]

theorem tokenize_joined (hc : separates c = true) (ws : List Word) :
    tokenizeKeyParts (joinedBy c ws) = ws.map Word.text := by
  rw [tokenizeKeyParts, joinedBy, String.toList_ofList, words_joined c hc]
  induction ws with
  | nil => rfl
  | cons w ws ih =>
    rw [List.map_cons, List.flatMap_cons, List.map_append, ih, split_word, List.map_singleton,
      asciiLower_word]
    rfl

theorem tokenize_camel : tokenizeKeyParts (camelCase ws) = camelWords ws := by
  cases ws with
  | nil => rfl
  | cons w ws =>
    have hcapitals : ∀ c ∈ ws.flatMap (fun v => capitalized v.letters), separates c = false := by
      intro c hc
      obtain ⟨v, _, hin⟩ := List.mem_flatMap.mp hc
      obtain ⟨letters, hne, hlower⟩ := v
      cases letters with
      | nil => cases hin
      | cons d l =>
        obtain ⟨_, _, _, _, _, _, _, _, _, hapart, _⟩ :=
          lower_letter d (hlower d List.mem_cons_self)
        rcases List.mem_cons.mp hin with rfl | hin
        · exact hapart
        · exact (lower_letter c (hlower c (List.mem_cons_of_mem d hin))).2.2.2.1
    have hword : IsWord separates (w.letters++ws.flatMap (fun v => capitalized v.letters)) := by
      refine ⟨List.append_ne_nil_of_left_ne_nil w.nonempty _, ?_⟩
      intro c hc
      rcases List.mem_append.mp hc with hc | hc
      · exact word_separates w c hc
      · exact hcapitals c hc
    have hsplit : (splitCamelCaseKeyParts
        (w.letters++ws.flatMap (fun v => capitalized v.letters))).map asciiLower =
          w.letters::mergedAfter [] ws := by
      have hsame := asciiLower_word w
      obtain ⟨letters, hne, hlower⟩ := w
      cases letters with
      | nil => exact absurd rfl hne
      | cons c l =>
        obtain ⟨_, hdigit, halpha, _⟩ := lower_letter c (hlower c List.mem_cons_self)
        have hlast := hlower _ (List.getLast_mem hne)
        show (camelFrom [c] c (l++ws.flatMap _)).map asciiLower = _
        rw [camelFrom_lower l _ [c] c halpha hdigit
          (fun d hd => hlower d (List.mem_cons_of_mem c hd)), (camel_parts ws _).1 _ hlast]
        congr 1
    rw [tokenizeKeyParts, camelCase, String.toList_ofList, words_word _ hword,
      List.flatMap_singleton]
    have hmaps := congrArg (List.map String.ofList) hsplit
    rw [List.map_map] at hmaps
    exact hmaps

theorem asciiLower_joined (hc : c.toLower = c) (ws : List Word) :
    asciiLower ([c].intercalate (ws.map Word.letters)) = [c].intercalate (ws.map Word.letters) := by
  induction ws with
  | nil => rfl
  | cons w ws ih =>
    cases ws with
    | nil => simpa using asciiLower_word w
    | cons v ws =>
      rw [List.map_cons] at ih ⊢
      rw [List.map_cons, List.intercalate_cons_cons, asciiLower, List.map_append, List.map_append,
        ← asciiLower, ← asciiLower, ← asciiLower, ih, asciiLower_word]
      simp [asciiLower, hc]

theorem asciiLower_camel :
    asciiLower (camelCase ws).toList = (together ws).toList := by
  cases ws with
  | nil => rfl
  | cons w ws =>
    rw [camelCase, together, String.toList_ofList, String.toList_ofList, asciiLower,
      List.map_append, ← asciiLower, asciiLower_word, List.flatMap_cons]
    congr 1
    induction ws with
    | nil => rfl
    | cons v ws ih =>
      rw [List.flatMap_cons, List.map_append, ih, List.flatMap_cons]
      congr 1
      obtain ⟨letters, hne, hlower⟩ := v
      cases letters with
      | nil => exact absurd rfl hne
      | cons c l => exact asciiLower_capitalized c l hlower

theorem exact_parts : ∀ name ∈ sensitiveExact, ('_' ∈ name.toList ∨ '-' ∈ name.toList) →
    partsSensitive (tokenizeKeyParts name) = true := by
  decide

/-- A key of several joined words is sensitive when its words are. -/
theorem sensitive_joined (hc : c = '_' ∨ c = '-') (w v : Word) (ws : List Word) :
    isSensitiveKey (joinedBy c (w::v::ws)) =
      partsSensitive ((w::v::ws).map Word.text) := by
  have hmark : separates c = true ∧ c.toLower = c := by
    rcases hc with rfl | rfl
    · decide
    · decide
  have hlower := asciiLower_joined c hmark.2 (w::v::ws)
  have htokens := tokenize_joined c hmark.1 (w::v::ws)
  unfold isSensitiveKey
  rw [htokens]
  split
  · rename_i hexact
    rw [joinedBy, String.toList_ofList, hlower, ← joinedBy] at hexact
    have hmem : joinedBy c (w::v::ws) ∈ sensitiveExact := by simpa using hexact
    have hin : c ∈ (joinedBy c (w::v::ws)).toList := by
      rw [joinedBy, String.toList_ofList, List.map_cons, List.map_cons,
        List.intercalate_cons_cons]
      simp
    have hparts := exact_parts _ hmem (by rcases hc with rfl | rfl; exacts [Or.inl hin, Or.inr hin])
    rw [htokens] at hparts
    exact hparts.symm
  · rfl

theorem partsSensitive_eq (parts : List String) :
    partsSensitive parts = (hasCandidateOrNumberedVariant parts sensitiveParts ||
      (hasCandidateOrNumberedVariant parts tokenParts &&
        hasCandidateOrNumberedVariant parts keyParts) ||
      (hasContextualSuffix parts tokenParts || hasContextualSuffix parts keyParts) ||
      (hasExact parts contextParts && (hasCandidateOrNumberedVariant parts tokenParts ||
        hasCandidateOrNumberedVariant parts keyParts))) := by
  cases parts with
  | nil => rfl
  | cons p parts =>
    unfold partsSensitive
    rw [List.isEmpty_cons]
    generalize hasCandidateOrNumberedVariant (p::parts) sensitiveParts = a
    generalize hasCandidateOrNumberedVariant (p::parts) tokenParts = t
    generalize hasCandidateOrNumberedVariant (p::parts) keyParts = k
    generalize hasContextualSuffix (p::parts) tokenParts = x
    generalize hasContextualSuffix (p::parts) keyParts = y
    generalize hasExact (p::parts) contextParts = z
    revert a t k x y z
    decide

theorem any_carried (test : String → Bool) (ps qs : List String)
    (htest : ∀ p, test p = true → 2 ≤ p.toList.length)
    (h : ∀ p ∈ ps, 2 ≤ p.toList.length → p ∈ qs) (hps : ps.any test = true) :
    qs.any test = true := by
  obtain ⟨p, hp, htrue⟩ := List.any_eq_true.mp hps
  exact List.any_eq_true.mpr ⟨p, h p hp (htest p htrue), htrue⟩

theorem numberedVariant_long (part candidate : String) (h : numberedVariant part candidate = true) :
    candidate.toList.length ≤ part.toList.length := by
  unfold numberedVariant at h
  rcases Bool.or_eq_true_iff.mp h with heq | hsuffix
  · rw [beq_iff_eq.mp heq]
  · unfold stripPrefix startsWith at hsuffix
    split at hsuffix
    · rename_i suffix hstrip
      split at hstrip
      · rename_i hpre
        exact (List.isPrefixOf_iff_prefix.mp hpre).length_le
      · cases hstrip
    · cases hsuffix

theorem contextualSuffix_long (part candidate : String)
    (h : contextualSuffix part candidate = true) :
    candidate.toList.length ≤ part.toList.length := by
  unfold contextualSuffix stripSuffix endsWith at h
  split at h
  · rename_i lead hstrip
    split at hstrip
    · rename_i hpre
      exact (List.isSuffixOf_iff_suffix.mp hpre).length_le
    · cases hstrip
  · cases h

theorem candidates_long : ∀ candidate ∈ sensitiveParts++tokenParts++keyParts++contextParts,
    2 ≤ candidate.toList.length := by
  decide

/-- The test of the words does not look at single letters, and more words only
make it truer. -/
theorem partsSensitive_carried (ps qs : List String)
    (h : ∀ p ∈ ps, 2 ≤ p.toList.length → p ∈ qs) (hps : partsSensitive ps = true) :
    partsSensitive qs = true := by
  have hnumbered : ∀ candidates ⊆ sensitiveParts++tokenParts++keyParts++contextParts,
      hasCandidateOrNumberedVariant ps candidates = true →
        hasCandidateOrNumberedVariant qs candidates = true := by
    intro candidates hsub
    apply any_carried _ ps qs _ h
    intro p hp
    obtain ⟨candidate, hin, hvariant⟩ := List.any_eq_true.mp hp
    exact (candidates_long candidate (hsub hin)).trans (numberedVariant_long p candidate hvariant)
  have hcontextual : ∀ candidates ⊆ sensitiveParts++tokenParts++keyParts++contextParts,
      hasContextualSuffix ps candidates = true → hasContextualSuffix qs candidates = true := by
    intro candidates hsub
    apply any_carried _ ps qs _ h
    intro p hp
    obtain ⟨candidate, hin, hsuffix⟩ := List.any_eq_true.mp hp
    exact (candidates_long candidate (hsub hin)).trans (contextualSuffix_long p candidate hsuffix)
  have hexact : hasExact ps contextParts = true → hasExact qs contextParts = true := by
    apply any_carried _ ps qs _ h
    intro p hp
    exact candidates_long p (by simp_all)
  have hsensitive := hnumbered sensitiveParts (by intro c hc; simp [hc])
  have htoken := hnumbered tokenParts (by intro c hc; simp [hc])
  have hkey := hnumbered keyParts (by intro c hc; simp [hc])
  have htokenSuffix := hcontextual tokenParts (by intro c hc; simp [hc])
  have hkeySuffix := hcontextual keyParts (by intro c hc; simp [hc])
  rw [partsSensitive_eq] at hps ⊢
  simp only [Bool.or_eq_true, Bool.and_eq_true] at hps ⊢
  rcases hps with ((hps | ⟨ht, hk⟩) | (hps | hps)) | ⟨hx, ht | hk⟩
  · exact Or.inl (Or.inl (Or.inl (hsensitive hps)))
  · exact Or.inl (Or.inl (Or.inr ⟨htoken ht, hkey hk⟩))
  · exact Or.inl (Or.inr (Or.inl (htokenSuffix hps)))
  · exact Or.inl (Or.inr (Or.inr (hkeySuffix hps)))
  · exact Or.inr ⟨hexact hx, Or.inl (htoken ht)⟩
  · exact Or.inr ⟨hexact hx, Or.inr (hkey hk)⟩

theorem mem_mergedAfter (run : List Char) (w : Word) (hw : w ∈ ws) (hlong : 2 ≤ w.letters.length) :
    w.letters ∈ mergedAfter run ws := by
  induction ws generalizing run with
  | nil => cases hw
  | cons v ws ih =>
    rw [mergedAfter]
    rcases List.mem_cons.mp hw with rfl | hin
    · rw [if_neg (by omega)]
      exact List.mem_append_right _ List.mem_cons_self
    · split
      · exact ih _ hin
      · exact List.mem_append_right _ (List.mem_cons_of_mem _ (ih [] hin))

theorem mem_camelWords :
    ∀ p ∈ ws.map Word.text, 2 ≤ p.toList.length → p ∈ camelWords ws := by
  intro p hp hlong
  obtain ⟨w, hw, rfl⟩ := List.mem_map.mp hp
  cases ws with
  | nil => cases hw
  | cons v ws =>
    rcases List.mem_cons.mp hw with rfl | hin
    · exact List.mem_cons_self
    · rw [Word.text, String.toList_ofList] at hlong
      exact List.mem_cons_of_mem _
        (List.mem_map_of_mem (mem_mergedAfter ws [] w hin hlong))

/-- The joined spellings agree; the one in camel case is sensitive with them, as
one name, or by the words that its single letters make up. -/
theorem spelled :
    isSensitiveKey (kebabCase ws) = isSensitiveKey (snakeCase ws) ∧
      isSensitiveKey (camelCase ws) = (isSensitiveKey (snakeCase ws) ||
        sensitiveExact.contains (together ws) || partsSensitive (camelWords ws)) := by
  have hcamel : isSensitiveKey (camelCase ws) =
      (sensitiveExact.contains (together ws) || partsSensitive (camelWords ws)) := by
    rw [isSensitiveKey, asciiLower_camel, String.ofList_toList, tokenize_camel]
    cases sensitiveExact.contains (together ws) with
    | true => rfl
    | false => rfl
  cases ws with
  | nil =>
    have hempty : camelCase [] = snakeCase [] := by decide
    rw [Bool.or_assoc, ← hcamel, hempty, Bool.or_self]
    exact ⟨rfl, rfl⟩
  | cons w ws =>
    cases ws with
    | nil =>
      have hsame : camelCase [w] = snakeCase [w] := by
        simp [camelCase, snakeCase, joinedBy]
      have hkebab : kebabCase [w] = snakeCase [w] := by
        simp [kebabCase, snakeCase, joinedBy]
      rw [Bool.or_assoc, ← hcamel, hsame, Bool.or_self, hkebab]
      exact ⟨rfl, rfl⟩
    | cons v ws =>
      have hsnake := sensitive_joined '_' (Or.inl rfl) w v ws
      have hkebab := sensitive_joined '-' (Or.inr rfl) w v ws
      rw [hcamel, kebabCase, snakeCase, hkebab, hsnake]
      constructor
      · rfl
      · cases hparts : partsSensitive ((w::v::ws).map Word.text) with
        | false => rfl
        | true =>
          rw [partsSensitive_carried _ _ (mem_camelWords (w::v::ws)) hparts]
          simp

/-- What stands at an open path keeps its shape, a sensitive key there has the
marker, and redacting again changes nothing; the spellings of a key agree up to
what camel case runs together. -/
theorem redaction_laws :
    (∀ v p, Open p → at_ p (redactSensitiveJson v) = (at_ p v).map redactSensitiveJson) ∧
      (∀ v, Alike v (redactSensitiveJson v)) ∧
      (∀ v p k, Open p → isSensitiveKey k = true →
        at_ (p++[.key k]) (redactSensitiveJson v) =
          (at_ (p++[.key k]) v).map (fun _ => .string redacted)) ∧
      (∀ v, redactSensitiveJson (redactSensitiveJson v) = redactSensitiveJson v) ∧
      ∀ ws, isSensitiveKey (kebabCase ws) = isSensitiveKey (snakeCase ws) ∧
        isSensitiveKey (camelCase ws) = (isSensitiveKey (snakeCase ws) ||
          sensitiveExact.contains (together ws) || partsSensitive (camelWords ws)) :=
  ⟨fun v p h => at_open p v h, alike_redact, fun v p k h hk => at_sensitive p k v h hk,
    redact_redact, spelled⟩

def word (s : String) (h : s.toList ≠ [] ∧ ∀ c ∈ s.toList, c.isLower = true) : Word :=
  ⟨s.toList, h.1, h.2⟩

/-- Words that are sensitive only when they are written together, or when single
letters run into an acronym. -/
theorem password_split :
    isSensitiveKey (snakeCase [word "pass" (by simp), word "word" (by simp)]) = false ∧
      isSensitiveKey (camelCase [word "pass" (by simp), word "word" (by simp)]) = true ∧
      isSensitiveKey (snakeCase [word "user" (by simp), word "j" (by simp), word "w" (by simp),
        word "t" (by simp)]) = false ∧
      isSensitiveKey (camelCase [word "user" (by simp), word "j" (by simp), word "w" (by simp),
        word "t" (by simp)]) = true := by
  decide

end IronClaw.KeyRedaction
