import Mathlib.Algebra.Order.Ring.Abs
import IronClaw.Coercion

/-!
# Signatures of webhooks

`channels/wasm/signature.rs`: the timestamp of a request is compared with the
clock before anything is known of its sender. The difference and its absolute
value are computed in 64 bits, which a debug build refuses to leave and a
release build wraps around. The signature schemes belong to their crates.
-/

set_option autoImplicit false

namespace IronClaw.WebhookSignature
open IronClaw.Coercion

inductive Build where
  | debug
  | release
  deriving DecidableEq

def InRange (n : ℤ) : Prop := -2^63 ≤ n ∧ n < 2^63

instance (n : ℤ) : Decidable (InRange n) := inferInstanceAs (Decidable (_ ∧ _))

def Build.result (build : Build) (n : ℤ) : Option ℤ :=
  if InRange n then some n
  else match build with
    | .debug => none
    | .release => some (Int.bmod n (2^64))

def isStale (build : Build) (nowSecs ts window : ℤ) : Option Bool := do
  let difference ← build.result (nowSecs-ts)
  let age ← build.result |difference|
  some (window < age)

def utf8 (s : String) : List UInt8 := s.toList.flatMap String.utf8EncodeChar

structure Schemes where
  Signature : Type
  VerifyingKey : Type
  signature : List UInt8 → Option Signature
  verifyingKey : List UInt8 → Option VerifyingKey
  verifyStrict : VerifyingKey → List UInt8 → Signature → Bool
  hmac : List UInt8 → Option (List UInt8 → List UInt8)
  hexDecode : String → Option (List UInt8)
  hexEncode : List UInt8 → String

section

variable (schemes : Schemes) (build : Build)

def verifyDiscordSignature (publicKeyHex signatureHex timestamp : String) (body : List UInt8)
    (nowSecs : Int64) : Option Bool :=
  match parseI64 timestamp with
  | none => some false
  | some ts => do
    let stale ← isStale build nowSecs.toInt ts 5
    if stale then some false
    else match schemes.hexDecode signatureHex, schemes.hexDecode publicKeyHex with
      | some sigBytes, some keyBytes =>
        match schemes.signature sigBytes, schemes.verifyingKey keyBytes with
        | some signature, some verifyingKey =>
          some (schemes.verifyStrict verifyingKey (utf8 timestamp++body) signature)
        | _, _ => some false
      | _, _ => some false

def verifySlackSignature (signingSecret timestamp : String) (body : List UInt8)
    (signatureHeader : String) (nowSecs : Int64) : Option Bool :=
  match parseI64 timestamp with
  | none => some false
  | some ts => do
    let stale ← isStale build nowSecs.toInt ts 300
    if stale then some false
    else match schemes.hmac (utf8 signingSecret) with
      | none => some false
      | some mac =>
        let computed := mac (utf8 "v0:"++utf8 timestamp++utf8 ":"++body)
        some ("v0="++schemes.hexEncode computed = signatureHeader)

end

def Fresh (timestamp : String) (nowSecs : Int64) (window : ℤ) : Prop :=
  ∃ ts, parseI64 timestamp = some ts ∧ |nowSecs.toInt-ts| ≤ window

def DiscordSigned (schemes : Schemes) (publicKeyHex signatureHex : String)
    (message : List UInt8) : Prop :=
  ∃ signature key, (schemes.hexDecode signatureHex).bind schemes.signature = some signature ∧
    (schemes.hexDecode publicKeyHex).bind schemes.verifyingKey = some key ∧
    schemes.verifyStrict key message signature = true

def SlackSigned (schemes : Schemes) (signingSecret signatureHeader : String)
    (message : List UInt8) : Prop :=
  ∃ mac, schemes.hmac (utf8 signingSecret) = some mac ∧
    signatureHeader = "v0="++schemes.hexEncode (mac message)

def Sound (verify : Build → Option Bool) (fresh signed : Prop) : Prop :=
  verify .debug ≠ none ∧ ∀ build, verify build = some true → fresh ∧ signed

def Near (timestamp : String) (nowSecs : Int64) : Prop :=
  ∀ ts, parseI64 timestamp = some ts → |nowSecs.toInt-ts| < 2^63

theorem result_inRange (build : Build) (n : ℤ) (h : InRange n) : build.result n = some n :=
  if_pos h

theorem isStale_near (build : Build) (now ts window : ℤ) (h : |now-ts| < 2^63) :
    isStale build now ts window = some (decide (window < |now-ts|)) := by
  have hdifference : InRange (now-ts) := by
    have hbounds := abs_lt.mp h
    exact ⟨le_of_lt hbounds.1, hbounds.2⟩
  have hage : InRange |now-ts| := ⟨by have hpos := abs_nonneg (now-ts); omega, h⟩
  simp only [isStale, result_inRange build _ hdifference, Option.bind_eq_bind, Option.bind_some,
    result_inRange build _ hage]

theorem isStale_far (now ts window : ℤ) (h : ¬ |now-ts| < 2^63) :
    isStale .debug now ts window = none := by
  by_cases hdifference : InRange (now-ts)
  · have hage : ¬ InRange |now-ts| := fun hin => h hin.2
    simp [isStale, Build.result, hdifference, hage]
  · simp [isStale, Build.result, hdifference]

section

variable (schemes : Schemes) (build : Build) (timestamp : String) (body : List UInt8)
  (nowSecs : Int64)

theorem discord_accepts (publicKeyHex signatureHex : String) (hnear : Near timestamp nowSecs) :
    ∃ accepted, verifyDiscordSignature schemes build publicKeyHex signatureHex timestamp body
        nowSecs = some accepted ∧
      (accepted = true → Fresh timestamp nowSecs 5 ∧
        DiscordSigned schemes publicKeyHex signatureHex (utf8 timestamp++body)) := by
  unfold verifyDiscordSignature
  cases hts : parseI64 timestamp with
  | none => exact ⟨false, rfl, fun h => by cases h⟩
  | some ts =>
    simp only [isStale_near build _ _ 5 (hnear ts hts), Option.bind_eq_bind, Option.bind_some,
      decide_eq_true_eq]
    by_cases hstale : 5 < |nowSecs.toInt-ts|
    · exact ⟨false, if_pos hstale, fun h => by cases h⟩
    · have hfresh : Fresh timestamp nowSecs 5 := ⟨ts, hts, not_lt.mp hstale⟩
      rw [if_neg hstale]
      cases hsig : schemes.hexDecode signatureHex with
      | none => exact ⟨false, rfl, fun h => by cases h⟩
      | some sigBytes =>
        cases hkey : schemes.hexDecode publicKeyHex with
        | none => exact ⟨false, rfl, fun h => by cases h⟩
        | some keyBytes =>
          cases hsignature : schemes.signature sigBytes with
          | none => exact ⟨false, by simp only [hsignature], fun h => by cases h⟩
          | some signature =>
            cases hverifying : schemes.verifyingKey keyBytes with
            | none => exact ⟨false, by simp only [hsignature, hverifying], fun h => by cases h⟩
            | some key =>
              refine ⟨_, by simp only [hsignature, hverifying], fun h => ⟨hfresh, signature, key,
                ?_, ?_, h⟩⟩
              · rw [hsig, Option.bind_some, hsignature]
              · rw [hkey, Option.bind_some, hverifying]

theorem slack_accepts (signingSecret signatureHeader : String) (hnear : Near timestamp nowSecs) :
    ∃ accepted, verifySlackSignature schemes build signingSecret timestamp body signatureHeader
        nowSecs = some accepted ∧
      (accepted = true → Fresh timestamp nowSecs 300 ∧ SlackSigned schemes signingSecret
        signatureHeader (utf8 "v0:"++utf8 timestamp++utf8 ":"++body)) := by
  unfold verifySlackSignature
  cases hts : parseI64 timestamp with
  | none => exact ⟨false, rfl, fun h => by cases h⟩
  | some ts =>
    simp only [isStale_near build _ _ 300 (hnear ts hts), Option.bind_eq_bind, Option.bind_some,
      decide_eq_true_eq]
    by_cases hstale : 300 < |nowSecs.toInt-ts|
    · exact ⟨false, if_pos hstale, fun h => by cases h⟩
    · have hfresh : Fresh timestamp nowSecs 300 := ⟨ts, hts, not_lt.mp hstale⟩
      rw [if_neg hstale]
      cases hmac : schemes.hmac (utf8 signingSecret) with
      | none => exact ⟨false, rfl, fun h => by cases h⟩
      | some mac =>
        exact ⟨_, rfl, fun h => ⟨hfresh, mac, hmac, (of_decide_eq_true h).symm⟩⟩

theorem discord_far (publicKeyHex signatureHex : String) (ts : ℤ)
    (hts : parseI64 timestamp = some ts) (h : ¬ |nowSecs.toInt-ts| < 2^63) :
    verifyDiscordSignature schemes .debug publicKeyHex signatureHex timestamp body nowSecs =
      none := by
  simp [verifyDiscordSignature, hts, isStale_far _ _ 5 h]

theorem slack_far (signingSecret signatureHeader : String) (ts : ℤ)
    (hts : parseI64 timestamp = some ts) (h : ¬ |nowSecs.toInt-ts| < 2^63) :
    verifySlackSignature schemes .debug signingSecret timestamp body signatureHeader nowSecs =
      none := by
  simp [verifySlackSignature, hts, isStale_far _ _ 300 h]

/-- A verifier that is right near the clock and stops far from it. -/
theorem sound_iff (verify : Build → Option Bool) (fresh signed : Prop)
    (hnear : Near timestamp nowSecs → ∀ build, ∃ accepted, verify build = some accepted ∧
      (accepted = true → fresh ∧ signed))
    (hfar : ∀ ts, parseI64 timestamp = some ts → ¬ |nowSecs.toInt-ts| < 2^63 →
      verify .debug = none) :
    Sound verify fresh signed ↔ Near timestamp nowSecs := by
  constructor
  · rintro ⟨hdebug, -⟩ ts hts
    by_contra h
    exact hdebug (hfar ts hts h)
  · intro h
    refine ⟨?_, ?_⟩
    · obtain ⟨accepted, haccepted, -⟩ := hnear h .debug
      rw [haccepted]
      exact Option.some_ne_none accepted
    · intro build hbuild
      obtain ⟨accepted, haccepted, hsound⟩ := hnear h build
      rw [haccepted] at hbuild
      exact hsound (Option.some.inj hbuild)

end

/-- Both verifiers are sound for a request exactly if its timestamp is no
number, or one whose distance to the clock has 63 bits. -/
theorem signatures_sound (schemes : Schemes) (timestamp : String) (body : List UInt8)
    (nowSecs : Int64) (publicKeyHex signatureHex signingSecret signatureHeader : String) :
    (Sound (fun build => verifyDiscordSignature schemes build publicKeyHex signatureHex timestamp
        body nowSecs) (Fresh timestamp nowSecs 5)
        (DiscordSigned schemes publicKeyHex signatureHex (utf8 timestamp++body)) ↔
      Near timestamp nowSecs) ∧
    (Sound (fun build => verifySlackSignature schemes build signingSecret timestamp body
        signatureHeader nowSecs) (Fresh timestamp nowSecs 300)
        (SlackSigned schemes signingSecret signatureHeader
          (utf8 "v0:"++utf8 timestamp++utf8 ":"++body)) ↔
      Near timestamp nowSecs) := by
  constructor
  · apply sound_iff timestamp nowSecs
    · intro hnear build
      exact discord_accepts schemes build timestamp body nowSecs publicKeyHex signatureHex hnear
    · exact discord_far schemes timestamp body nowSecs publicKeyHex signatureHex
  · apply sound_iff timestamp nowSecs
    · intro hnear build
      exact slack_accepts schemes build timestamp body nowSecs signingSecret signatureHeader hnear
    · exact slack_far schemes timestamp body nowSecs signingSecret signatureHeader

def hexDigit (c : Char) : Option ℕ :=
  if '0' ≤ c ∧ c ≤ '9' then some (c.toNat- '0'.toNat)
  else if 'a' ≤ c ∧ c ≤ 'f' then some (c.toNat- 'a'.toNat+10)
  else if 'A' ≤ c ∧ c ≤ 'F' then some (c.toNat- 'A'.toNat+10)
  else none

def hexBytes : List Char → Option (List UInt8)
  | [] => some []
  | [_] => none
  | high::low::rest => do
    let high ← hexDigit high
    let low ← hexDigit low
    let rest ← hexBytes rest
    some (UInt8.ofNat (16*high+low)::rest)

def hexDecode (s : String) : Option (List UInt8) := hexBytes s.toList

def hexEncode (bytes : List UInt8) : String :=
  String.ofList (bytes.flatMap (fun b => [Nat.digitChar (b.toNat/16), Nat.digitChar (b.toNat%16)]))

def plain : Schemes where
  Signature := List UInt8
  VerifyingKey := List UInt8
  signature := some
  verifyingKey := some
  verifyStrict _ message signature := message = signature
  hmac _ := some id
  hexDecode := hexDecode
  hexEncode := hexEncode

/-- A debug build stops at the least timestamp, and a release build accepts one
that is 2^63 seconds old. -/
theorem old_accepted :
    verifyDiscordSignature plain .debug "" "" "-9223372036854775808" [] 1700000000 = none ∧
    verifySlackSignature plain .debug "" "-9223372036854775808" [] "" 1700000000 = none ∧
    verifyDiscordSignature plain .release "" "2d39323233333732303335313534373735383038"
      "-9223372035154775808" [] 1700000000 = some true ∧
    ¬ Fresh "-9223372035154775808" 1700000000 5 := by
  have hts : parseI64 "-9223372035154775808" = some (-9223372035154775808) := by decide +kernel
  refine ⟨by decide +kernel, by decide +kernel, by decide +kernel, ?_⟩
  rintro ⟨ts, hparse, hfresh⟩
  rw [hts] at hparse
  cases hparse
  revert hfresh
  decide

end IronClaw.WebhookSignature
