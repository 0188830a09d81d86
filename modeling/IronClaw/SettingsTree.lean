import Mathlib.Data.Fintype.Sigma
import Mathlib.Data.Fintype.Option
import IronClaw.JsonMap

/-!
# The settings and their JSON tree

`Settings` of `settings.rs` is a record of groups of fields. What serde derives
for it reads the fields off a table: the key, the type, the default, the other
keys that are read for it and whether it is left out when the record is
written. A tree is read field by field; keys that no field has are passed over,
and a missing field takes its default.
-/

set_option autoImplicit false

namespace IronClaw.SettingsTree
open IronClaw.JsonValue IronClaw.JsonMap

def Unsigned (bits : ℕ) : Type := {n : UInt64 // n.toNat < 2^bits}
  deriving DecidableEq

inductive KeySource where
  | keychain
  | env
  | none
  deriving DecidableEq

instance decEqRaw : DecidableEq {b : ByteArray // ¬b.IsValidUTF8} := fun a b =>
  decidable_of_iff (a.1.data = b.1.data)
    ⟨fun h => Subtype.ext (ByteArray.ext h), fun h => h ▸ rfl⟩

inductive OsPath where
  | text (s : String)
  | raw (bytes : {b : ByteArray // ¬b.IsValidUTF8})
  deriving DecidableEq

def Owners : Type := {entries : List (String × Int64) // (entries.map Prod.fst).Pairwise (· < ·)}
  deriving DecidableEq

structure TranscriptionSettings where
  enabled : Bool
  deriving DecidableEq

inductive Shape where
  | bool
  | unsigned (bits : ℕ)
  | text
  | path
  | keySource
  | texts
  | owners
  | transcription
  deriving DecidableEq

abbrev Shape.Carrier : Shape → Type
  | .bool => Bool
  | .unsigned bits => Unsigned bits
  | .text => String
  | .path => OsPath
  | .keySource => KeySource
  | .texts => List String
  | .owners => Owners
  | .transcription => TranscriptionSettings

inductive Kind where
  | plain (shape : Shape)
  | opt (shape : Shape)
  deriving DecidableEq

abbrev Kind.Carrier : Kind → Type
  | .plain shape => shape.Carrier
  | .opt shape => Option shape.Carrier

instance (shape : Shape) : DecidableEq shape.Carrier := by
  cases shape <;> infer_instance

instance (kind : Kind) : DecidableEq kind.Carrier := by
  cases kind <;> infer_instance

/-- A field of a struct: `skipped` is `skip_serializing`. -/
structure Field where
  key : String
  kind : Kind
  initial : kind.Carrier
  aliases : List String := []
  skipped : Bool := false

def flag (key : String) (initial : Bool) : Field := ⟨key, .plain .bool, initial, [], false⟩

def text (key initial : String) : Field := ⟨key, .plain .text, initial, [], false⟩

def optional (key : String) (shape : Shape) : Field := ⟨key, .opt shape, none, [], false⟩

def number (key : String) (bits : ℕ) (initial : UInt64) (h : initial.toNat < 2^bits) : Field :=
  ⟨key, .plain (.unsigned bits), ⟨initial, h⟩, [], false⟩

inductive Group where
  | embeddings
  | tunnel
  | channels
  | heartbeat
  | agent
  | wasm
  | sandbox
  | safety
  | builder
  deriving DecidableEq

def Group.key : Group → String
  | .embeddings => "embeddings"
  | .tunnel => "tunnel"
  | .channels => "channels"
  | .heartbeat => "heartbeat"
  | .agent => "agent"
  | .wasm => "wasm"
  | .sandbox => "sandbox"
  | .safety => "safety"
  | .builder => "builder"

def groups : List Group :=
  [.embeddings, .tunnel, .channels, .heartbeat, .agent, .wasm, .sandbox, .safety, .builder]

instance : Fintype Group := ⟨⟨groups, by decide⟩, by intro g; cases g <;> decide⟩

def fields : Option Group → List Field
  | none =>
    [⟨"onboard_completed", .plain .bool, false, ["setup_completed"], false⟩,
      optional "owner_id" .text,
      optional "database_backend" .text,
      optional "database_url" .text,
      optional "database_pool_size" (.unsigned 64),
      optional "libsql_path" .text,
      optional "libsql_url" .text,
      ⟨"secrets_master_key_source", .plain .keySource, .none, [], false⟩,
      ⟨"secrets_master_key_hex", .opt .text, none, [], true⟩,
      optional "llm_backend" .text,
      optional "ollama_base_url" .text,
      optional "openai_compatible_base_url" .text,
      optional "bedrock_region" .text,
      optional "bedrock_cross_region" .text,
      optional "bedrock_profile" .text,
      optional "selected_model" .text,
      ⟨"profile_onboarding_completed", .plain .bool, false,
        ["personal_onboarding_completed"], false⟩,
      optional "transcription" .transcription]
  | some .embeddings =>
    [flag "enabled" false,
      text "provider" "nearai",
      text "model" "text-embedding-3-small"]
  | some .tunnel =>
    [optional "public_url" .text,
      optional "provider" .text,
      optional "cf_token" .text,
      optional "ngrok_token" .text,
      optional "ngrok_domain" .text,
      flag "ts_funnel" false,
      optional "ts_hostname" .text,
      optional "custom_command" .text,
      optional "custom_health_url" .text,
      optional "custom_url_pattern" .text]
  | some .channels =>
    [flag "http_enabled" false,
      optional "http_port" (.unsigned 16),
      optional "http_host" .text,
      flag "gateway_enabled" true,
      optional "gateway_host" .text,
      optional "gateway_port" (.unsigned 16),
      optional "gateway_auth_token" .text,
      optional "gateway_user_id" .text,
      flag "cli_enabled" true,
      flag "signal_enabled" false,
      optional "signal_http_url" .text,
      optional "signal_account" .text,
      optional "signal_allow_from" .text,
      optional "signal_allow_from_groups" .text,
      optional "signal_dm_policy" .text,
      optional "signal_group_policy" .text,
      optional "signal_group_allow_from" .text,
      ⟨"wasm_channel_owner_ids", .plain .owners, ⟨[], List.Pairwise.nil⟩, [], false⟩,
      ⟨"wasm_channels", .plain .texts, [], [], false⟩,
      flag "wasm_channels_enabled" true,
      optional "wasm_channels_dir" .path]
  | some .heartbeat =>
    [flag "enabled" false,
      number "interval_secs" 64 1800 (by decide),
      optional "notify_channel" .text,
      optional "notify_user" .text,
      optional "fire_at" .text,
      optional "quiet_hours_start" (.unsigned 32),
      optional "quiet_hours_end" (.unsigned 32),
      optional "timezone" .text]
  | some .agent =>
    [text "name" "ironclaw",
      number "max_parallel_jobs" 32 5 (by decide),
      number "job_timeout_secs" 64 3600 (by decide),
      number "stuck_threshold_secs" 64 300 (by decide),
      flag "use_planning" true,
      number "repair_check_interval_secs" 64 60 (by decide),
      number "max_repair_attempts" 32 3 (by decide),
      number "session_idle_timeout_secs" 64 (7*24*3600) (by decide),
      number "max_tool_iterations" 64 50 (by decide),
      flag "auto_approve_tools" false,
      text "default_timezone" "UTC",
      number "max_tokens_per_job" 64 0 (by decide)]
  | some .wasm =>
    [flag "enabled" true,
      optional "tools_dir" .path,
      number "default_memory_limit" 64 (10*1024*1024) (by decide),
      number "default_timeout_secs" 64 60 (by decide),
      number "default_fuel_limit" 64 10000000 (by decide),
      flag "cache_compiled" true,
      optional "cache_dir" .path]
  | some .sandbox =>
    [flag "enabled" true,
      text "policy" "readonly",
      number "timeout_secs" 64 120 (by decide),
      number "memory_limit_mb" 64 2048 (by decide),
      number "cpu_shares" 32 1024 (by decide),
      text "image" "ironclaw-worker:latest",
      flag "auto_pull_image" true,
      ⟨"extra_allowed_domains", .plain .texts, [], [], false⟩,
      flag "claude_code_enabled" false]
  | some .safety =>
    [number "max_output_length" 64 100000 (by decide),
      flag "injection_check_enabled" true]
  | some .builder =>
    [flag "enabled" true,
      optional "build_dir" .path,
      number "max_iterations" 32 20 (by decide),
      number "timeout_secs" 64 600 (by decide),
      flag "auto_register" true]

abbrev Leaf : Type := Σ part : Option Group, Fin (fields part).length

def Leaf.field (f : Leaf) : Field := (fields f.1).get f.2

abbrev Settings : Type := (f : Leaf) → f.field.kind.Carrier

def initial : Settings := fun f => f.field.initial

def ofI64 (n : Int64) : Value :=
  if 0 ≤ n.toInt then .number (.posInt n.toUInt64) else .number (.negInt n)

def asI64 : Value → Option Int64
  | .number (.posInt n) => if n.toNat < 2^63 then some n.toInt64 else none
  | .number (.negInt n) => if n.toInt < 0 then some n else none
  | _ => none

def KeySource.name : KeySource → String
  | .keychain => "keychain"
  | .env => "env"
  | .none => "none"

def KeySource.ofName (name : String) : Option KeySource :=
  [KeySource.keychain, .env, .none].find? (fun source => source.name = name)

def member (keys : List String) (place size : ℕ) : Value → Option (Option Value)
  | .object fields =>
    match keys.filterMap (fun key => lookup key fields) with
    | [] => some none
    | [v] => some (some v)
    | _ => none
  | .array xs => if xs.length ≤ size then some xs[place]? else none
  | _ => none

def Shape.encode : (shape : Shape) → shape.Carrier → Option Value
  | .bool, b => some (.bool b)
  | .unsigned _, n => some (.number (.posInt n.1))
  | .text, s => some (.string s)
  | .path, .text s => some (.string s)
  | .path, .raw _ => none
  | .keySource, source => some (.string source.name)
  | .texts, xs => some (.array (xs.map .string))
  | .owners, m => some (.object (m.1.map (fun e => (e.1, ofI64 e.2))))
  | .transcription, t => some (.object [("enabled", .bool t.enabled)])

def asBool : Value → Option Bool
  | .bool b => some b
  | _ => none

def asUnsigned (bits : ℕ) : Value → Option (Unsigned bits)
  | .number (.posInt n) => if h : n.toNat < 2^bits then some ⟨n, h⟩ else none
  | _ => none

def asKeySource : Value → Option KeySource
  | .string name => KeySource.ofName name
  | .object [(name, .null)] => KeySource.ofName name
  | _ => none

def asTexts : Value → Option (List String)
  | .array xs => xs.mapM Value.asStr
  | _ => none

def asOwners : Value → Option Owners
  | .object fields =>
    match fields.mapM (fun f => (asI64 f.2).map (fun n => (f.1, n))) with
    | some entries =>
      if h : (entries.map Prod.fst).Pairwise (· < ·) then some ⟨entries, h⟩ else none
    | none => none
  | _ => none

def asTranscription (v : Value) : Option TranscriptionSettings :=
  match member ["enabled"] 0 1 v with
  | some none => some ⟨false⟩
  | some (some w) => (asBool w).map TranscriptionSettings.mk
  | none => none

def Shape.decode : (shape : Shape) → Value → Option shape.Carrier
  | .bool => asBool
  | .unsigned bits => asUnsigned bits
  | .text => Value.asStr
  | .path => fun v => v.asStr.map OsPath.text
  | .keySource => asKeySource
  | .texts => asTexts
  | .owners => asOwners
  | .transcription => asTranscription

def Kind.encode : (kind : Kind) → kind.Carrier → Option Value
  | .plain shape, x => shape.encode x
  | .opt _, none => some .null
  | .opt shape, some x => shape.encode x

def Kind.decode : (kind : Kind) → Value → Option kind.Carrier
  | .plain shape, v => shape.decode v
  | .opt _, .null => some none
  | .opt shape, v => (shape.decode v).map some

def leaves (part : Option Group) : List Leaf := (List.finRange _).map (Sigma.mk part)

def encodeFields (s : Settings) : List Leaf → Fields →
    Option Fields
  | [], acc => some acc
  | f::fs, acc =>
    if f.field.skipped then encodeFields s fs acc
    else match f.field.kind.encode (s f) with
      | none => none
      | some v => encodeFields s fs (insert f.field.key v acc)

def encodeGroups (s : Settings) : List Group → Fields →
    Option Fields
  | [], acc => some acc
  | g::gs, acc =>
    match encodeFields s (leaves (some g)) [] with
    | none => none
    | some members => encodeGroups s gs (insert g.key (.object members) acc)

/-- `serde_json::to_value`. -/
def toValue (s : Settings) : Option Value :=
  match encodeFields s (leaves none) [] with
  | none => none
  | some top => (encodeGroups s groups top).map Value.object

def partOf (root : Value) : Option Group → Value
  | none => root
  | some g => (root.get g.key).getD (.object [])

def decodeLeaf (root : Value) (f : Leaf) : Option f.field.kind.Carrier :=
  match member (f.field.key::f.field.aliases) f.2.val (fields f.1).length (partOf root f.1) with
  | none => none
  | some none => some f.field.initial
  | some (some v) => f.field.kind.decode v

/-- `serde_json::from_value`, on the objects that it is given here. -/
def fromValue (root : Value) : Option Settings :=
  match root with
  | .object _ =>
    if h : ∀ f, (decodeLeaf root f).isSome then some (fun f => (decodeLeaf root f).get (h f))
    else none
  | _ => none

theorem asI64_ofI64 (n : Int64) : asI64 (ofI64 n) = some n := by
  unfold ofI64
  by_cases h : 0 ≤ n.toInt
  · have hnat : n.toUInt64.toNat = n.toNatClampNeg :=
      Int64.toNat_toUInt64_of_le (Int64.le_iff_toInt_le.mpr h)
    have hlt : n.toUInt64.toNat < 2^63 := by
      rw [hnat]
      exact n.toNatClampNeg_lt
    rw [if_pos h, asI64, if_pos hlt, Int64.toInt64_toUInt64]
  · rw [if_neg h, asI64, if_pos (not_le.mp h)]

theorem ofI64_asI64 (v : Value) (n : Int64) (h : asI64 v = some n) : ofI64 n = v := by
  unfold asI64 at h
  split at h
  · rename_i m
    split at h
    · rename_i hm
      cases h
      have hpos : 0 ≤ m.toInt64.toInt := by
        show 0 ≤ m.toBitVec.toInt
        rw [BitVec.toInt_eq_toNat_of_lt (by change 2*m.toNat < 2^64; omega)]
        exact Int.natCast_nonneg _
      rw [ofI64, if_pos hpos, UInt64.toUInt64_toInt64]
    · cases h
  · split at h
    · rename_i m hm
      cases h
      rw [ofI64, if_neg (not_le.mpr hm)]
    · cases h
  · cases h

theorem ofName_name (source : KeySource) : KeySource.ofName source.name = some source := by
  cases source <;> decide

theorem name_ofName (name : String) (source : KeySource) (h : KeySource.ofName name = some source) :
    source.name = name := of_decide_eq_true (List.find?_some (p := fun t : KeySource => decide (t.name = name)) h)


theorem mapM_map {α β : Type} (f : α → β) (g : β → Option α) (hg : ∀ x, g (f x) = some x)
    (xs : List α) : (xs.map f).mapM g = some xs := by
  induction xs with
  | nil => rfl
  | cons x xs ih => simp [List.map_cons, List.mapM_cons, hg, ih]

theorem map_mapM {α β : Type} (f : α → β) (g : β → Option α) (hg : ∀ y x, g y = some x → f x = y)
    (ys : List β) (xs : List α) (h : ys.mapM g = some xs) : xs.map f = ys := by
  induction ys generalizing xs with
  | nil =>
    cases h
    rfl
  | cons y ys ih =>
    rw [List.mapM_cons] at h
    obtain ⟨x, hx, h⟩ := Option.bind_eq_some_iff.mp h
    obtain ⟨zs, hzs, h⟩ := Option.bind_eq_some_iff.mp h
    cases h
    rw [List.map_cons, hg y x hx, ih zs hzs]

theorem Shape.decode_encode (shape : Shape) (x : shape.Carrier) (v : Value)
    (h : shape.encode x = some v) : shape.decode v = some x := by
  cases shape with
  | bool =>
    cases h
    rfl
  | unsigned bits =>
    cases h
    exact dif_pos x.2
  | text =>
    cases h
    rfl
  | path =>
    cases x with
    | text s =>
      cases h
      rfl
    | raw bytes => cases h
  | keySource =>
    cases h
    exact ofName_name x
  | texts =>
    cases h
    exact mapM_map Value.string Value.asStr (fun _ => rfl) x
  | owners =>
    cases h
    have hread := mapM_map (fun e : String × Int64 => (e.1, ofI64 e.2))
      (fun f : String × Value => (asI64 f.2).map (fun n => (f.1, n)))
      (fun e => by simp [asI64_ofI64]) x.1
    simp only [Shape.decode, asOwners, hread]
    exact dif_pos x.2
  | transcription =>
    cases h
    simp [Shape.decode, asTranscription, member, lookup, asBool]

theorem Shape.encode_ne_null (shape : Shape) (x : shape.Carrier) :
    shape.encode x ≠ some .null := by
  intro h
  cases shape with
  | path => cases x <;> cases h
  | _ => cases h

theorem Kind.decode_encode (kind : Kind) (x : kind.Carrier) (v : Value)
    (h : kind.encode x = some v) : kind.decode v = some x := by
  cases kind with
  | plain shape => exact shape.decode_encode x v h
  | opt shape =>
    cases x with
    | none =>
      cases h
      rfl
    | some y =>
      have hread := shape.decode_encode y v h
      have hnull : v ≠ .null := by
        rintro rfl
        exact shape.encode_ne_null y h
      cases v <;> first | exact absurd rfl hnull | simp [Kind.decode, hread]

theorem Kind.encode_injective (kind : Kind) (x y : kind.Carrier) (v : Value)
    (hx : kind.encode x = some v) (hy : kind.encode y = some v) : x = y := by
  have h := kind.decode_encode x v hx
  rw [kind.decode_encode y v hy] at h
  exact (Option.some.inj h).symm

abbrev Leaf.key (f : Leaf) : String := f.field.key

def Leaf.written (s : Settings) (f : Leaf) : Option Value := f.field.kind.encode (s f)

variable (s : Settings) (part : Option Group) (f : Leaf) (gs : List Group) (fs : List Leaf)
  (acc out : Fields)

theorem mem_leaves : f ∈ leaves f.1 := List.mem_map.mpr ⟨f.2, List.mem_finRange _, rfl⟩

theorem leaves_part (h : f ∈ leaves part) : f.1 = part := by
  obtain ⟨i, -, rfl⟩ := List.mem_map.mp h
  rfl

def writtenOf (part : Option Group) : List String :=
  ((fields part).filter (fun field => !field.skipped)).map Field.key

def keysOf (part : Option Group) : List String :=
  writtenOf part++(if part = none then groups.map Group.key else [])

def aliasesOf (part : Option Group) : List String := (fields part).flatMap Field.aliases

def skippedOf (part : Option Group) : List String :=
  ((fields part).filter Field.skipped).map Field.key

theorem keys_nodup :
    (keysOf part++(skippedOf part++aliasesOf part)).Nodup := by
  rcases part with _ | g
  · decide
  · cases g <;> decide

theorem fields_nodup : ((fields part).map Field.key).Nodup := by
  rcases part with _ | g
  · decide
  · cases g <;> decide

theorem leaves_fields : (leaves part).map Leaf.field = fields part := by
  rw [leaves, List.map_map]
  exact List.map_get_finRange (fields part)

theorem leaves_nodup : ((leaves part).map Leaf.key).Nodup := by
  have h := fields_nodup part
  rwa [← leaves_fields, List.map_map] at h

theorem written_mem (h : f.field.skipped = false) : f.key ∈ writtenOf f.1 :=
  List.mem_map.mpr ⟨f.field, List.mem_filter.mpr ⟨List.get_mem _ _, by simp [h]⟩, rfl⟩

theorem key_mem (h : f.field.skipped = false) : f.key ∈ keysOf f.1 :=
  List.mem_append_left _ (written_mem f h)

/-- Writing the fields of a struct keeps what stands under the other keys. -/
theorem encodeFields_other (key : String) (h : encodeFields s fs acc = some out)
    (hkey : ∀ f ∈ fs, f.field.skipped = false → f.key ≠ key) : lookup key out = lookup key acc := by
  induction fs generalizing acc with
  | nil => rw [Option.some.inj h]
  | cons f fs ih =>
    have hfs : ∀ f' ∈ fs, f'.field.skipped = false → f'.key ≠ key :=
      fun f' hf' => hkey f' (List.mem_cons_of_mem f hf')
    rw [encodeFields] at h
    split at h
    · exact ih acc h hfs
    · rename_i hskip
      split at h
      · cases h
      · rw [ih _ h hfs, lookup_insert_ne]
        exact hkey f List.mem_cons_self (by simpa using hskip)

theorem encodeFields_lookup (hnodup : (fs.map Leaf.key).Nodup)
    (h : encodeFields s fs acc = some out) :
    ∀ f ∈ fs, f.field.skipped = false → lookup f.key out = f.written s := by
  induction fs generalizing acc with
  | nil => simp
  | cons f fs ih =>
    obtain ⟨hfresh, hrest⟩ := List.nodup_cons.mp hnodup
    intro f' hmem hskip
    rw [encodeFields] at h
    rcases List.mem_cons.mp hmem with rfl | hmem
    · rw [if_neg (by simp [hskip])] at h
      split at h
      · cases h
      · rename_i v hv
        rw [encodeFields_other s fs _ out f'.key h, lookup_insert_self]
        · exact hv.symm
        · intro f'' hf'' _ hkey
          exact hfresh (hkey ▸ List.mem_map_of_mem hf'')
    · split at h
      · exact ih acc hrest h f' hmem hskip
      · split at h
        · cases h
        · exact ih _ hrest h f' hmem hskip

theorem encodeFields_ordered (hacc : Ordered acc) (h : encodeFields s fs acc = some out) :
    Ordered out := by
  induction fs generalizing acc with
  | nil => rwa [← Option.some.inj h]
  | cons f fs ih =>
    rw [encodeFields] at h
    split at h
    · exact ih acc hacc h
    · split at h
      · cases h
      · exact ih _ (insert_ordered _ _ _ hacc) h

theorem encodeFields_some (acc : Fields) :
    (∃ out, encodeFields s fs acc = some out) ↔
      ∀ f ∈ fs, f.field.skipped = false → ∃ v, f.written s = some v := by
  induction fs generalizing acc with
  | nil => simp [encodeFields]
  | cons f fs ih =>
    rw [encodeFields, List.forall_mem_cons]
    by_cases hskip : f.field.skipped = true
    · rw [if_pos hskip, ih]
      simp [hskip]
    · rw [if_neg hskip]
      cases hv : f.field.kind.encode (s f) with
      | none => simp [Leaf.written, hv, hskip]
      | some v => simp [Leaf.written, hv, ih]

def Writable (s : Settings) : Prop :=
  ∀ f : Leaf, f.field.skipped = false → ∃ v, f.written s = some v

def partFields (root : Fields) : Option Group → Fields
  | none => root
  | some g => match lookup g.key root with
    | some (.object members) => members
    | _ => []

structure Tree (s : Settings) (root : Fields) : Prop where
  group : ∀ g : Group, lookup g.key root = some (.object (partFields root (some g)))
  ordered : ∀ part, Ordered (partFields root part)
  written : ∀ f : Leaf, f.field.skipped = false → lookup f.key (partFields root f.1) = f.written s
  other : ∀ part key, key ∉ keysOf part → lookup key (partFields root part) = none

theorem encodeGroups_other (key : String) (h : encodeGroups s gs acc = some out)
    (hkey : ∀ g ∈ gs, g.key ≠ key) :
    lookup key out = lookup key acc := by
  induction gs generalizing acc with
  | nil => rw [Option.some.inj h]
  | cons g gs ih =>
    rw [encodeGroups] at h
    split at h
    · cases h
    · rw [ih _ h (fun g' hg' => hkey g' (List.mem_cons_of_mem g hg')), lookup_insert_ne]
      exact hkey g List.mem_cons_self

theorem encodeGroups_lookup (hnodup : (gs.map Group.key).Nodup)
    (h : encodeGroups s gs acc = some out) :
    ∀ g ∈ gs, ∃ fs, encodeFields s (leaves (some g)) [] = some fs ∧
      lookup g.key out = some (.object fs) := by
  induction gs generalizing acc with
  | nil => simp
  | cons g gs ih =>
    obtain ⟨hfresh, hrest⟩ := List.nodup_cons.mp hnodup
    rw [encodeGroups] at h
    split at h
    · cases h
    · rename_i fs hfs
      intro g' hmem
      rcases List.mem_cons.mp hmem with rfl | hmem
      · refine ⟨fs, hfs, ?_⟩
        rw [encodeGroups_other s gs _ out g'.key h, lookup_insert_self]
        intro g'' hg'' hkey
        exact hfresh (hkey ▸ List.mem_map_of_mem hg'')
      · exact ih _ hrest h g' hmem

theorem encodeGroups_ordered (hacc : Ordered acc) (h : encodeGroups s gs acc = some out) :
    Ordered out := by
  induction gs generalizing acc with
  | nil => rwa [← Option.some.inj h]
  | cons g gs ih =>
    rw [encodeGroups] at h
    split at h
    · cases h
    · exact ih _ (insert_ordered _ _ _ hacc) h

theorem encodeGroups_some (acc : Fields) :
    (∃ out, encodeGroups s gs acc = some out) ↔
      ∀ g ∈ gs, ∃ fs, encodeFields s (leaves (some g)) [] = some fs := by
  induction gs generalizing acc with
  | nil => simp [encodeGroups]
  | cons g gs ih =>
    rw [encodeGroups, List.forall_mem_cons]
    cases hfs : encodeFields s (leaves (some g)) [] with
    | none => simp
    | some fs => simp [ih]

theorem groups_nodup : (groups.map Group.key).Nodup := by decide

theorem mem_groups (g : Group) : g ∈ groups := by cases g <;> decide

theorem groupKey_mem (g : Group) : g.key ∈ keysOf none :=
  List.mem_append_right _ (List.mem_map_of_mem (mem_groups g))

theorem key_not_group (g : Group) (hf : f.1 = none) (hskip : f.field.skipped = false) :
    g.key ≠ f.key := by
  have hmem := written_mem f hskip
  rw [hf] at hmem
  have hapart := (List.nodup_append.mp (List.nodup_append.mp (keys_nodup none)).1).2.2
  exact (hapart f.key hmem g.key (List.mem_map_of_mem (mem_groups g))).symm

theorem absent_key (key : String) (h : key ∉ keysOf part) :
    ∀ f ∈ leaves part, f.field.skipped = false → f.key ≠ key := by
  rintro f hf hskip rfl
  rw [← leaves_part part f hf] at h
  exact h (key_mem f hskip)

theorem toValue_some (v : Value) (h : toValue s = some v) :
    ∃ top root, encodeFields s (leaves none) [] = some top ∧
      encodeGroups s groups top = some root ∧ v = .object root := by
  unfold toValue at h
  split at h
  · cases h
  · rename_i top htop
    obtain ⟨root, hroot, rfl⟩ := Option.map_eq_some_iff.mp h
    exact ⟨top, root, htop, hroot, rfl⟩

theorem toValue_tree (v : Value) (h : toValue s = some v) :
    ∃ root, v = .object root ∧ Tree s root := by
  obtain ⟨top, root, htop, hroot, rfl⟩ := toValue_some s v h
  have hgroup : ∀ g : Group, ∃ fs, encodeFields s (leaves (some g)) [] = some fs ∧
      lookup g.key root = some (.object fs) ∧ partFields root (some g) = fs := by
    intro g
    obtain ⟨fs, hfs, hlookup⟩ := encodeGroups_lookup s groups top root groups_nodup hroot g (mem_groups g)
    exact ⟨fs, hfs, hlookup, by rw [partFields, hlookup]⟩
  refine ⟨root, rfl, ⟨?_, ?_, ?_, ?_⟩⟩
  · intro g
    obtain ⟨fs, -, hlookup, hinner⟩ := hgroup g
    rw [hinner, hlookup]
  · rintro (_ | g)
    · exact encodeGroups_ordered s groups top root
        (encodeFields_ordered s _ [] top ordered_nil htop) hroot
    · obtain ⟨fs, hfs, -, hinner⟩ := hgroup g
      rw [hinner]
      exact encodeFields_ordered s _ [] fs ordered_nil hfs
  · intro f hskip
    cases hpart : f.1 with
    | none =>
      rw [partFields, encodeGroups_other s groups top root f.key hroot
        (fun g _ => key_not_group f g hpart hskip)]
      exact encodeFields_lookup s _ [] top (leaves_nodup none) htop f (hpart ▸ mem_leaves f) hskip
    | some g =>
      obtain ⟨fs, hfs, -, hinner⟩ := hgroup g
      rw [hinner]
      exact encodeFields_lookup s _ [] fs (leaves_nodup _) hfs f (hpart ▸ mem_leaves f) hskip
  · rintro (_ | g) key hkey
    · rw [partFields, encodeGroups_other s groups top root key hroot,
        encodeFields_other s _ [] top key htop (absent_key none key hkey), lookup]
      rintro g - rfl
      exact hkey (groupKey_mem g)
    · obtain ⟨fs, hfs, -, hinner⟩ := hgroup g
      rw [hinner, encodeFields_other s _ [] fs key hfs (absent_key _ key hkey), lookup]

theorem toValue_writable : (∃ v, toValue s = some v) ↔ Writable s := by
  constructor
  · rintro ⟨v, hv⟩ f hskip
    obtain ⟨top, root, htop, hroot, -⟩ := toValue_some s v hv
    cases hpart : f.1 with
    | none => exact (encodeFields_some s (leaves none) []).mp ⟨top, htop⟩ f (hpart ▸ mem_leaves f) hskip
    | some g =>
      have hfs := (encodeGroups_some s groups top).mp ⟨root, hroot⟩ g (mem_groups g)
      exact (encodeFields_some s (leaves (some g)) []).mp hfs f (hpart ▸ mem_leaves f) hskip
  · intro hs
    have hpart : ∀ part, ∃ fs, encodeFields s (leaves part) [] = some fs :=
      fun part => (encodeFields_some s (leaves part) []).mpr (fun f _ => hs f)
    obtain ⟨top, htop⟩ := hpart none
    obtain ⟨root, hroot⟩ := (encodeGroups_some s groups top).mpr (fun g _ => hpart (some g))
    exact ⟨.object root, by simp [toValue, htop, hroot]⟩

theorem alias_absent (key : String) (h : key ∈ f.field.aliases) : key ∉ keysOf f.1 := by
  intro hkey
  have hapart := (List.nodup_append.mp (keys_nodup f.1)).2.2
  refine hapart key hkey key (List.mem_append_right _ ?_) rfl
  exact List.mem_flatMap.mpr ⟨f.field, List.get_mem _ _, h⟩

theorem skipped_absent (h : f.field.skipped = true) : f.key ∉ keysOf f.1 := by
  intro hkey
  have hapart := (List.nodup_append.mp (keys_nodup f.1)).2.2
  refine hapart f.key hkey f.key (List.mem_append_left _ ?_) rfl
  exact List.mem_map.mpr ⟨f.field, List.mem_filter.mpr ⟨List.get_mem _ _, h⟩, rfl⟩

theorem member_sole (key : String) (aliases : List String) (place size : ℕ)
    (fs : Fields) (h : ∀ a ∈ aliases, lookup a fs = none) :
    member (key::aliases) place size (.object fs) = some (lookup key fs) := by
  have hnone : aliases.filterMap (fun a => lookup a fs) = [] :=
    List.filterMap_eq_nil_iff.mpr h
  cases hkey : lookup key fs with
  | none => simp [member, hkey, hnone]
  | some v => simp [member, hkey, hnone]

/-- Reading a field when its struct is an object that has none of the other
keys of the field. -/
theorem decodeLeaf_inner (root : Fields) (f : Leaf)
    (hpart : ∀ g v, f.1 = some g → lookup g.key root = some v → v = .object (partFields root (some g)))
    (halias : ∀ a ∈ f.field.aliases, lookup a (partFields root f.1) = none) :
    decodeLeaf (.object root) f = match lookup f.key (partFields root f.1) with
      | none => some f.field.initial
      | some v => f.field.kind.decode v := by
  have hobject : partOf (.object root) f.1 = .object (partFields root f.1) := by
    cases hp : f.1 with
    | none => rfl
    | some g =>
      cases hv : lookup g.key root with
      | none => simp [partOf, Value.get, partFields, hv]
      | some v => simp [partOf, Value.get, hv, hpart g v hp hv]
  rw [decodeLeaf, hobject, member_sole _ _ _ _ _ halias]
  show (match some (lookup f.key (partFields root f.1)) with
    | none => none
    | some none => some f.field.initial
    | some (some v) => f.field.kind.decode v) = _
  cases lookup f.key (partFields root f.1) <;> rfl

theorem fromValue_iff (root : Fields) (s : Settings) :
    fromValue (.object root) = some s ↔ ∀ f, decodeLeaf (.object root) f = some (s f) := by
  unfold fromValue
  constructor
  · intro h f
    simp only at h
    split at h
    · rename_i hall
      rw [← Option.some.inj h]
      exact (Option.some_get (hall f)).symm
    · cases h
  · intro h
    have hall : ∀ f, (decodeLeaf (.object root) f).isSome = true := by simp [h]
    simp only
    rw [dif_pos hall]
    congr
    funext f
    simp [h f]

def Owners.get (m : Owners) (key : String) : Option Int64 :=
  (m.1.find? (fun e => e.1 = key)).map Prod.snd

def entriesOf (m : Owners) : Fields := m.1.map (fun e => (e.1, ofI64 e.2))

theorem entriesOf_ordered (m : Owners) : Ordered (entriesOf m) := by
  have h := m.2
  rwa [Ordered, entriesOf, List.map_map]

theorem entriesOf_lookup (m : Owners) (key : String) :
    lookup key (entriesOf m) = (Owners.get m key).map ofI64 := by
  unfold entriesOf Owners.get
  induction m.1 with
  | nil => rfl
  | cons e es ih =>
    rw [List.map_cons, lookup, List.find?_cons]
    by_cases hk : e.1 = key
    · rw [if_pos hk, decide_eq_true hk]
      rfl
    · rw [if_neg hk, ih, decide_eq_false hk]

theorem ofI64_injective : Function.Injective ofI64 := by
  intro n m h
  have hread := asI64_ofI64 n
  rw [h, asI64_ofI64] at hread
  exact (Option.some.inj hread).symm

theorem owners_decode (m : Owners) : asOwners (.object (entriesOf m)) = some m :=
  Shape.decode_encode .owners m _ rfl

theorem owners_ext (x y : Owners) (h : ∀ key, Owners.get x key = Owners.get y key) : x = y := by
  have heq : entriesOf x = entriesOf y := by
    apply ordered_ext _ _ (entriesOf_ordered x) (entriesOf_ordered y)
    intro key
    rw [entriesOf_lookup, entriesOf_lookup, h]
  have hread := owners_decode x
  rw [heq, owners_decode] at hread
  exact (Option.some.inj hread).symm

/-- A map of integers reads as owners. -/
theorem owners_of_fields (fs : Fields) (hordered : Ordered fs)
    (h : ∀ key v, lookup key fs = some v → ∃ n, v = ofI64 n) : ∃ m, entriesOf m = fs := by
  have hentries : ∃ entries : List (String × Int64),
      entries.map (fun e => (e.1, ofI64 e.2)) = fs := by
    have hall : ∀ f ∈ fs, ∃ n, f.2 = ofI64 n :=
      fun f hf => h f.1 f.2 (mem_lookup f.1 f.2 fs hordered hf)
    clear hordered h
    induction fs with
    | nil => exact ⟨[], rfl⟩
    | cons f fs ih =>
      obtain ⟨n, hn⟩ := hall f List.mem_cons_self
      obtain ⟨entries, rfl⟩ := ih (fun f' hf' => hall f' (List.mem_cons_of_mem f hf'))
      exact ⟨(f.1, n)::entries, by rw [List.map_cons, ← hn]⟩
  obtain ⟨entries, rfl⟩ := hentries
  rw [Ordered, List.map_map] at hordered
  exact ⟨⟨entries, hordered⟩, rfl⟩

theorem ofI64_ne_null (n : Int64) : ofI64 n ≠ .null := by
  unfold ofI64
  split <;> exact Value.noConfusion

end IronClaw.SettingsTree
