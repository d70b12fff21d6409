import VpnPi.Island.Friends

/-!
# `Island.Registry` — signed records of the friend-code directory (`core/registry.ts`)

A node announces its keys and address under its own signature; whoever resolves its code checks that signature
and that the code is the fingerprint of the key.
-/

namespace VpnPi
namespace Island

open Js

variable (P : Platform)

/-- `signable`. -/
def recordSignable (r : Value) : Except Exn Value := do
  let ed25519 ← prop r (js "ed25519")
  let label ← prop r (js "label")
  let wg0 ← prop r (js "wg0")
  let x25519 ← prop r (js "x25519")
  pure (.obj [(js "ed25519", ed25519), (js "label", label), (js "wg0", wg0), (js "x25519", x25519)])

/-- Node side: the record and its signature. -/
def signRecord (id : Identity) (wg0 label : JsString) : Except Exn (Value × JsString) := do
  let record := Value.obj [(js "ed25519", .str (toB64 P id.edPublic)), (js "x25519", .str (toB64 P id.xPublic)),
    (js "wg0", .str wg0), (js "label", .str label)]
  let signable ← recordSignable record
  let sig ← sign P signable id.edSecret
  pure (record, sig)

/-- Registry side: any exception counts as a bad signature. -/
def verifyAnnounce (record sig : Value) : Bool :=
  let checked : Except Exn Bool := do
    let signable ← recordSignable record
    let pub ← prop record (js "ed25519")
    verify P signable sig pub
  match checked with
  | .ok good => good
  | .error _ => false

end Island
end VpnPi
