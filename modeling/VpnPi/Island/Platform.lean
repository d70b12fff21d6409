import VpnPi.Js.Utf8
import VpnPi.Js.JsonRoundTrip

/-!
# `Island.Platform` — libsodium, exceptions, and the base64 codec

libsodium is taken as a parameter: `Sodium` lists the calls the daemon makes, with `none` where the
JavaScript binding throws. Nothing is assumed of these functions here; the theorems that need
unforgeability or a sealed box that opens say so. The classes of `Error` the daemon throws are told apart
because the routes answer with a different status for each (`errorStatus`).
-/

namespace VpnPi
namespace Island

open Js

/-! ## Exceptions -/

inductive Exn where
  /-- `FriendError`. -/
  | friend (message : JsString)
  /-- `VerificationError`. -/
  | verification (message : JsString)
  /-- `CanaryError`. -/
  | canary (message : JsString)
  /-- `RegistryError`. -/
  | registry (message : JsString)
  /-- `EventError`. -/
  | event (message : JsString)
  /-- `Forbidden`. -/
  | forbidden (message : JsString)
  /-- `RateLimited`. -/
  | rateLimited (message : JsString)
  /-- `PayloadTooLarge`. -/
  | payloadTooLarge (message : JsString)
  /-- A plain `Error`. -/
  | error (message : JsString)
  /-- A `TypeError` of the engine: a property of `undefined`, a method that does not exist. -/
  | typeError
  /-- `toISOString` on an invalid date. -/
  | rangeError
  /-- libsodium refused its arguments. -/
  | sodium
  deriving DecidableEq

/-- `errorStatus`, for the exceptions above. -/
def Exn.errorStatus : Exn → Nat
  | payloadTooLarge _ => 413
  | rateLimited _ => 429
  | forbidden _ | verification _ | canary _ => 403
  | registry _ | event _ | friend _ => 400
  | error _ | typeError | rangeError | sodium => 500

/-! ## libsodium -/

structure Sodium where
  /-- `to_base64(raw, ORIGINAL)`. -/
  toBase64 : Bytes → JsString
  /-- `from_base64(text, ORIGINAL)`. -/
  fromBase64 : JsString → Option Bytes
  /-- `crypto_sign_detached(message, secretKey)`. -/
  signDetached : Bytes → Bytes → Bytes
  /-- `crypto_sign_verify_detached(signature, message, publicKey)`. -/
  verifyDetached : Bytes → Bytes → Bytes → Option Bool
  /-- `crypto_box_seal(message, publicKey)`, with the ephemeral key pair it draws as first argument. -/
  boxSeal : Bytes → Bytes → Bytes → Option Bytes
  /-- `crypto_box_seal_open(sealed, publicKey, privateKey)`. -/
  boxSealOpen : Bytes → Bytes → Bytes → Option Bytes
  /-- `crypto_generichash(32, message)`. -/
  genericHash : Bytes → Bytes

/-- What the daemon runs on. -/
structure Platform extends Engine, Sodium

/-- `Identity`. -/
structure Identity where
  edPublic  : Bytes
  edSecret  : Bytes
  xPublic   : Bytes
  xPrivate  : Bytes
  deriving DecidableEq

/-! ## Small pieces every module uses -/

/-- `v.k`. -/
def prop (v : Value) (k : JsString) : Except Exn Value :=
  match v.prop k with
  | some w => .ok w
  | none => .error .typeError

/-- A result of a call that throws. -/
def orThrow {α : Type} (e : Exn) : Option α → Except Exn α
  | some a => .ok a
  | none => .error e

/-- `if (c) throw e`. -/
def failIf (c : Prop) [Decidable c] (e : Exn) : Except Exn Unit := if c then .error e else .ok ()

/-- `String(v)`. -/
def stringOf (v : Value) : Except Exn JsString := orThrow .typeError v.toStr

/-- `String(v ?? "")`. -/
def stringOrEmpty (v : Value) : Except Exn JsString := stringOf (if v.isNullish then .str [] else v)

variable (P : Platform)

/-- `Date.parse(v)`, which converts `v` to a string first. -/
def dateParse (v : Value) : Except Exn (Option Instant) := do
  let s ← orThrow .typeError v.toStr
  pure (P.dateParse s)

/-- `new Date(ms).toISOString()`. -/
def toISOString (ms : Int) : Except Exn JsString :=
  match Instant.ofMs ms with
  | some d => .ok (P.toISOString d)
  | none => .error .rangeError

/-! ## `core/codec.ts` -/

def toB64 (raw : Bytes) : JsString := P.toBase64 raw

/-- `fromB64(text)`: only a string has a `trim` to call. -/
def fromB64 (text : Value) : Except Exn Bytes :=
  match text with
  | .str s => orThrow .sodium (P.fromBase64 (trim s))
  | _ => .error .typeError

/-! ## Request bodies -/

/-- A request with a body: the length its header declares, and the text. -/
structure Body where
  declared : Nat
  text     : JsString

/-- `MAX_JSON_BODY`. -/
def maxJsonBody : Nat := 65536

/-- `readJson`. -/
def readJson (b : Body) : Except Exn Value := do
  failIf (maxJsonBody < b.declared) (.payloadTooLarge (js "body too large"))
  failIf (maxJsonBody < b.text.length) (.payloadTooLarge (js "body too large"))
  match parse P.toEngine b.text with
  | some (.obj es) => pure (.obj es)
  | _ => .error (.friend (js "invalid JSON body"))

/-! ## Taking a successful computation apart -/

theorem bind_ok {ε α β : Type} {x : Except ε α} {f : α → Except ε β} {b : β} :
    (x >>= f) = .ok b ↔ ∃ a, x = .ok a ∧ f a = .ok b := by
  cases x with
  | ok a => exact ⟨fun h => ⟨a, rfl, h⟩, fun ⟨a', ha, h⟩ => Except.ok.inj ha ▸ h⟩
  | error e => exact ⟨nofun, fun ⟨_, ha, _⟩ => nomatch ha⟩

theorem map_ok {ε α β : Type} {x : Except ε α} {f : α → β} {b : β} :
    x.map f = .ok b ↔ ∃ a, x = .ok a ∧ f a = b := by
  cases x with
  | ok a => exact ⟨fun h => ⟨a, rfl, Except.ok.inj h⟩,
      fun ⟨a', ha, h⟩ => congrArg Except.ok (Except.ok.inj ha ▸ h)⟩
  | error e => exact ⟨nofun, fun ⟨_, ha, _⟩ => nomatch ha⟩

theorem mapError_ok {ε ε' α : Type} {x : Except ε α} {f : ε → ε'} {a : α} : x.mapError f = .ok a ↔ x = .ok a := by
  cases x with
  | ok b => exact ⟨fun h => congrArg Except.ok (Except.ok.inj h), fun h => congrArg Except.ok (Except.ok.inj h)⟩
  | error e => exact ⟨nofun, nofun⟩

theorem orThrow_ok {α : Type} {e : Exn} {o : Option α} {a : α} :
    orThrow e o = .ok a ↔ o = some a := by
  cases o with
  | some b => exact ⟨fun h => congrArg some (Except.ok.inj h),
      fun h => congrArg Except.ok (Option.some.inj h)⟩
  | none => exact ⟨nofun, nofun⟩

theorem failIf_ok {c : Prop} [Decidable c] {e : Exn} {u : Unit} : failIf c e = .ok u ↔ ¬c := by
  unfold failIf
  by_cases h : c
  · rw [if_pos h]; exact ⟨nofun, fun hn => absurd h hn⟩
  · rw [if_neg h]; exact ⟨fun _ => h, fun _ => rfl⟩

theorem prop_ok {v w : Value} {k : JsString} : prop v k = .ok w ↔ v.prop k = some w := by
  unfold prop
  cases v.prop k with
  | some u => exact ⟨fun h => congrArg some (Except.ok.inj h),
      fun h => congrArg Except.ok (Option.some.inj h)⟩
  | none => exact ⟨nofun, nofun⟩

/-- Only strings decode. -/
theorem fromB64_ok {P : Platform} {v : Value} {b : Bytes} :
    fromB64 P v = .ok b ↔ ∃ s, v = .str s ∧ P.fromBase64 (trim s) = some b := by
  cases v with
  | str s =>
      show orThrow _ _ = _ ↔ _
      rw [orThrow_ok]
      exact ⟨fun h => ⟨s, rfl, h⟩, fun ⟨s', hs, h⟩ => Value.str.inj hs ▸ h⟩
  | _ =>
      constructor
      · intro h; cases h
      · rintro ⟨_, hs, _⟩; cases hs

theorem prop_wf {P : Platform} {v w : Value} {k : JsString} (hv : v.WF P.toEngine)
    (h : prop v k = .ok w) : w.WF P.toEngine := hv.prop (prop_ok.mp h)

end Island
end VpnPi
