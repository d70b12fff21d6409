import VpnPi.Island.Canonical

/-!
# `Island.Envelope` — sign-then-seal, open-then-verify (`core/envelope.ts`)

A sealed box holds the canonical form of `{ payload, sig }`, the signature being made over the canonical form
of `payload`. What the reader trusts is decided by the caller, who resolves `payload.node` to a key.

* `openVerify_ok` — what opens is a JSON value signed with a trusted key;
* `openVerify_sealSign` — what is sealed for a node opens there.
-/

namespace VpnPi
namespace Island

open Js Value

/-- The trusted key of a node, or `null`. -/
abbrev VerifyKeyFor := JsString → Option Bytes

variable (P : Platform)

/-- `from_base64`, which takes nothing but strings and does not trim them. -/
def fromBase64 (text : Value) : Except Exn Bytes :=
  match text with
  | .str s => orThrow .sodium (P.fromBase64 s)
  | _ => .error .typeError

def sealSign (payload : Value) (signSecretKey recipientPublicKey ephemeral : Bytes) : Except Exn Bytes := do
  let msg ← canonicalBytes payload
  let sig := P.toBase64 (P.signDetached msg signSecretKey)
  let inner ← canonicalBytes (.obj [(js "payload", payload), (js "sig", .str sig)])
  orThrow .sodium (P.boxSeal ephemeral inner recipientPublicKey)

/-- The sealed contents: payload, signature, and the node that claims to have signed. -/
def sealedContents (innerBytes : Bytes) : Except Exn (Value × Bytes × JsString) := do
  let obj ← orThrow (.error (js "malformed JSON")) (parse P.toEngine (utf8Decode innerBytes))
  let payload ← prop obj (js "payload")
  let signature ← prop obj (js "sig") >>= fromBase64 P
  let node ← prop payload (js "node")
  match node with
  | .str node => pure (payload, signature, node)
  | _ => .error (.error (js "missing node"))

def openVerify (blob recipientPublicKey recipientPrivateKey : Bytes) (verifyKeyFor : VerifyKeyFor) :
    Except Exn Value := do
  let innerBytes ← orThrow (.verification (js "cannot decrypt blob"))
    (P.boxSealOpen blob recipientPublicKey recipientPrivateKey)
  let (payload, signature, node) ← (sealedContents P innerBytes).mapError
    fun _ => .verification (js "malformed sealed contents")
  let verifyKey ← orThrow (.verification (js "unknown node, not trusted: " ++ node)) (verifyKeyFor node)
  let msg ← canonicalBytes payload
  let good ← orThrow .sodium (P.verifyDetached signature msg verifyKey)
  failIf (!good) (.verification (js "bad signature for node " ++ node))
  pure payload

/-! ## What is sealed opens -/

variable {P : Platform}

theorem sealSign_ok {payload : Value} {sk pk ephemeral blob : Bytes}
    (h : sealSign P payload sk pk ephemeral = .ok blob) :
    ∃ msg inner, canonicalBytes payload = .ok msg ∧
      canonicalBytes (.obj [(js "payload", payload), (js "sig", .str (P.toBase64 (P.signDetached msg sk)))])
        = .ok inner ∧ P.boxSeal ephemeral inner pk = some blob := by
  obtain ⟨msg, hmsg, h⟩ := bind_ok.mp h
  obtain ⟨inner, hinner, h⟩ := bind_ok.mp h
  exact ⟨msg, inner, hmsg, hinner, orThrow_ok.mp h⟩

theorem sealedContents_canonicalBytes {payload : Value} {sig : JsString} {raw inner : Bytes} {node : JsString}
    (hwf : payload.WF P.toEngine) (hinner : canonicalBytes (.obj [(js "payload", payload), (js "sig", .str sig)])
      = .ok inner) (hsig : P.fromBase64 sig = some raw) (hnode : prop payload (js "node") = .ok (.str node)) :
    sealedContents P inner = .ok (sortKeys payload, raw, node) := by
  have hobj : WF P.toEngine (.obj [(js "payload", payload), (js "sig", .str sig)]) :=
    ⟨show [js "payload", js "sig"].Nodup by decide, hwf, trivial, trivial⟩
  refine bind_ok.mpr ⟨_, orThrow_ok.mpr (parse_canonicalBytes hobj hinner), ?_⟩
  refine bind_ok.mpr ⟨sortKeys payload, prop_sortKeys hobj rfl, ?_⟩
  refine bind_ok.mpr ⟨raw, bind_ok.mpr ⟨_, prop_sortKeys hobj rfl, orThrow_ok.mpr hsig⟩, ?_⟩
  exact bind_ok.mpr ⟨.str node, prop_sortKeys hwf hnode, rfl⟩

/-- **What opens was checked**: the payload is a JSON value, and its signature verifies under the key that its
    node is trusted with. -/
theorem openVerify_ok {blob pk priv : Bytes} {verifyKeyFor : VerifyKeyFor} {payload : Value}
    (h : openVerify P blob pk priv verifyKeyFor = .ok payload) :
    payload.WF P.toEngine ∧ ∃ node key sig msg, prop payload (js "node") = .ok (.str node) ∧
      verifyKeyFor node = some key ∧ canonicalBytes payload = .ok msg ∧ P.verifyDetached sig msg key = some true := by
  obtain ⟨inner, _, h⟩ := bind_ok.mp h
  obtain ⟨⟨payload', sig, node⟩, hcontents, h⟩ := bind_ok.mp h
  obtain ⟨key, hkey, h⟩ := bind_ok.mp h
  obtain ⟨msg, hmsg, h⟩ := bind_ok.mp h
  obtain ⟨good, hgood, h⟩ := bind_ok.mp h
  obtain ⟨_, hfail, h⟩ := bind_ok.mp h
  obtain rfl := Except.ok.inj h
  obtain rfl : good = true := by simpa using failIf_ok.mp hfail
  obtain ⟨obj, hobj, h⟩ := bind_ok.mp (mapError_ok.mp hcontents)
  obtain ⟨payload', hpayload, h⟩ := bind_ok.mp h
  obtain ⟨_, _, h⟩ := bind_ok.mp h
  obtain ⟨v, hnode, h⟩ := bind_ok.mp h
  cases v with
  | str s =>
      obtain ⟨rfl, rfl, rfl⟩ := Except.ok.inj h
      have hwf := prop_wf (parse_wf (orThrow_ok.mp hobj)) hpayload
      exact ⟨hwf, _, key, _, msg, hnode, orThrow_ok.mp hkey, hmsg, orThrow_ok.mp hgood⟩
  | _ => cases h

/-- **What is sealed opens**: the recipient gets the payload, with its keys sorted, if it trusts the key it was
    signed with under the name the payload gives. -/
theorem openVerify_sealSign {payload : Value} {sk pk priv key ephemeral blob : Bytes} {node : JsString}
    {verifyKeyFor : VerifyKeyFor} (hwf : payload.WF P.toEngine)
    (hseal : sealSign P payload sk pk ephemeral = .ok blob)
    (hopen : ∀ inner, P.boxSeal ephemeral inner pk = some blob → P.boxSealOpen blob pk priv = some inner)
    (hbase64 : ∀ msg, P.fromBase64 (P.toBase64 (P.signDetached msg sk)) = some (P.signDetached msg sk))
    (hnode : prop payload (js "node") = .ok (.str node)) (hkey : verifyKeyFor node = some key)
    (hverify : ∀ msg, P.verifyDetached (P.signDetached msg sk) msg key = some true) :
    openVerify P blob pk priv verifyKeyFor = .ok (sortKeys payload) := by
  obtain ⟨msg, inner, hmsg, hinner, hblob⟩ := sealSign_ok hseal
  refine bind_ok.mpr ⟨inner, orThrow_ok.mpr (hopen inner hblob), ?_⟩
  refine bind_ok.mpr ⟨(sortKeys payload, P.signDetached msg sk, node), ?_, ?_⟩
  · rw [sealedContents_canonicalBytes hwf hinner (hbase64 msg) hnode]
    rfl
  · refine bind_ok.mpr ⟨key, orThrow_ok.mpr hkey, ?_⟩
    refine bind_ok.mpr ⟨msg, (canonicalBytes_sortKeys payload).trans hmsg, ?_⟩
    exact bind_ok.mpr ⟨true, orThrow_ok.mpr (hverify msg), rfl⟩

end Island
end VpnPi
