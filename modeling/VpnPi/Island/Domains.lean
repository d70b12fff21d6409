import VpnPi.Island.Canary
import VpnPi.Island.Events
import VpnPi.Island.Messages
import VpnPi.Island.Registry

/-!
# `Island.Domains` — one key, seven kinds of signatures

Tokens, accepts, notices, registry records, reports, messages and canaries are all signed with a node's one key,
over one encoding, and only messages carry a tag. What keeps the kinds apart is the set of keys of what is signed
(`Kind.fields`): five of the seven verifiers sign a view with a fixed set of keys, and the two that take a whole
sealed payload ask for fields that no other kind has.

* `accepted_kind_signed` — what a verifier accepts was signed as what it is accepted for.
-/

namespace VpnPi
namespace Island

open Js Value

variable {P : Platform} {pk : Bytes}

inductive Kind where
  | token
  | accept
  | revoke
  | record
  | report
  | message
  | canary
  deriving DecidableEq

/-- The keys of what is signed. -/
def Kind.fields : Kind → List JsString
  | token => [js "v", js "from", js "nonce", js "issued", js "expires"]
  | accept => [js "v", js "from", js "ref", js "issued"]
  | revoke => [js "v", js "from", js "target", js "nonce", js "at"]
  | record => [js "ed25519", js "label", js "wg0", js "x25519"]
  | report => [js "node", js "label", js "at", js "events"]
  | message => [js "typ", js "id", js "node", js "to", js "body", js "ts"]
  | canary => [js "node", js "keyword", js "text", js "nonce", js "issued"]

/-! ## What a node signs -/

/-- The payload of `sealMessage`. -/
def messageView (P : Platform) (self : Identity) (to_ : Value) (body uuid : JsString) (now : Instant) : Value :=
  .obj [(js "typ", .str (js "message")), (js "id", .str uuid), (js "node", .str (toB64 P self.edPublic)),
    (js "to", to_), (js "body", .str body), (js "ts", .str (P.toISOString now))]

/-- The payload of `makeCanary`. -/
def canaryView (P : Platform) (admin : Identity) (keyword text : JsString) (random : Bytes) (now : Instant) : Value :=
  .obj [(js "node", .str (toB64 P admin.edPublic)), (js "keyword", .str keyword), (js "text", .str text),
    (js "nonce", .str (toB64 P random)), (js "issued", .str (P.toISOString now))]

/-- A call of one of the seven functions, on JSON values, by the holder of `pk`, and the object that it signs. -/
inductive Signs (P : Platform) : Bytes → Kind → Value → Prop
  | token {me : Self} {ttlSeconds : ℚ} {random : Bytes} {now : Instant} {t view : Value}
      (made : makeToken P me ttlSeconds random now = .ok t) (hview : tokenSignable t = .ok view) :
      Signs P me.id.edPublic .token view
  | accept {me : Self} {token ref a view : Value} {ephemeral : Bytes} {now : Instant} {blob : JsString}
      (wf : token.WF P.toEngine) (made : makeAccept P me token ephemeral now = .ok blob)
      (href : prop token (js "nonce") = .ok ref) (ha : acceptOf P me ref now = .ok a)
      (hview : acceptSignable a = .ok view) : Signs P me.id.edPublic .accept view
  | revoke {me : Self} {peer : JsString} {random : Bytes} {now : Instant} {notice view : Value}
      (made : makeRevoke P me peer random now = .ok notice) (hview : revokeSignable notice = .ok view) :
      Signs P me.id.edPublic .revoke view
  | record {id : Identity} {wg0 label sig : JsString} {record view : Value}
      (made : signRecord P id wg0 label = .ok (record, sig)) (hview : recordSignable record = .ok view) :
      Signs P id.edPublic .record view
  | report {id : Identity} {label : JsString} {events : List Value} {now : Instant} {r : EventReport}
      (wf : WFList P.toEngine events) (made : signReport P id label events now = .ok r) :
      Signs P id.edPublic .report r.signable
  | message {self : Identity} {recipient to_ : Value} {body uuid blob : JsString} {ephemeral : Bytes} {now : Instant}
      (wf : recipient.WF P.toEngine) (made : sealMessage P self recipient body uuid ephemeral now = .ok blob)
      (hto : prop recipient (js "ed25519") = .ok to_) :
      Signs P self.edPublic .message (messageView P self to_ body uuid now)
  | canary {admin : Identity} {keyword text vegaX25519 blob : JsString} {random ephemeral : Bytes} {now : Instant}
      (made : makeCanary P admin keyword text vegaX25519 random ephemeral now = .ok blob) :
      Signs P admin.edPublic .canary (canaryView P admin keyword text random now)

theorem recordSignable_ok {r view : Value} (h : recordSignable r = .ok view) :
    ∃ ed25519 label wg0 x25519, prop r (js "ed25519") = .ok ed25519 ∧ prop r (js "label") = .ok label ∧
      prop r (js "wg0") = .ok wg0 ∧ prop r (js "x25519") = .ok x25519 ∧
      view = .obj [(js "ed25519", ed25519), (js "label", label), (js "wg0", wg0), (js "x25519", x25519)] := by
  obtain ⟨ed25519, h1, h⟩ := bind_ok.mp h
  obtain ⟨label, h2, h⟩ := bind_ok.mp h
  obtain ⟨wg0, h3, h⟩ := bind_ok.mp h
  obtain ⟨x25519, h4, h⟩ := bind_ok.mp h
  exact ⟨ed25519, label, wg0, x25519, h1, h2, h3, h4, (Except.ok.inj h).symm⟩

theorem recordSignable_wf {r view : Value} (hr : r.WF P.toEngine) (h : recordSignable r = .ok view) :
    view.WF P.toEngine := by
  obtain ⟨_, _, _, _, h1, h2, h3, h4, rfl⟩ := recordSignable_ok h
  exact ⟨show [js "ed25519", js "label", js "wg0", js "x25519"].Nodup by decide, prop_wf hr h1, prop_wf hr h2,
    prop_wf hr h3, prop_wf hr h4, trivial⟩

/-- An object with the keys of its kind. -/
def Kind.Shaped (k : Kind) (v : Value) : Prop := ∃ es, v = .obj es ∧ es.map Prod.fst = k.fields

theorem tokenSignable_shaped {t view : Value} (h : tokenSignable t = .ok view) : Kind.token.Shaped view := by
  obtain ⟨_, _, _, _, _, _, _, _, _, _, _, _, rfl⟩ := tokenSignable_ok h
  exact ⟨_, rfl, rfl⟩

theorem acceptSignable_shaped {a view : Value} (h : acceptSignable a = .ok view) : Kind.accept.Shaped view := by
  obtain ⟨_, _, _, _, _, _, _, _, _, _, rfl⟩ := acceptSignable_ok h
  exact ⟨_, rfl, rfl⟩

theorem revokeSignable_shaped {n view : Value} (h : revokeSignable n = .ok view) : Kind.revoke.Shaped view := by
  obtain ⟨_, _, _, _, _, _, _, _, _, _, rfl⟩ := revokeSignable_ok h
  exact ⟨_, rfl, rfl⟩

theorem recordSignable_shaped {r view : Value} (h : recordSignable r = .ok view) : Kind.record.Shaped view := by
  obtain ⟨_, _, _, _, _, _, _, _, rfl⟩ := recordSignable_ok h
  exact ⟨_, rfl, rfl⟩

/-- **What is signed has the keys of its kind.** -/
theorem Signs.shaped {k : Kind} {w : Value} (h : Signs P pk k w) : k.Shaped w := by
  cases h with
  | token _ hview => exact tokenSignable_shaped hview
  | accept _ _ _ _ hview => exact acceptSignable_shaped hview
  | revoke _ hview => exact revokeSignable_shaped hview
  | record _ hview => exact recordSignable_shaped hview
  | report => exact ⟨_, rfl, rfl⟩
  | message => exact ⟨_, rfl, rfl⟩
  | canary => exact ⟨_, rfl, rfl⟩

theorem signRecord_ok {id : Identity} {wg0 label sig : JsString} {record : Value}
    (h : signRecord P id wg0 label = .ok (record, sig)) : record = .obj [(js "ed25519", .str (toB64 P id.edPublic)),
      (js "x25519", .str (toB64 P id.xPublic)), (js "wg0", .str wg0), (js "label", .str label)] := by
  obtain ⟨_, _, h⟩ := bind_ok.mp h
  obtain ⟨_, _, h⟩ := bind_ok.mp h
  exact (Prod.mk.inj (Except.ok.inj h)).1.symm

theorem signReport_ok {id : Identity} {label : JsString} {events : List Value} {now : Instant} {r : EventReport}
    (h : signReport P id label events now = .ok r) :
    ∃ sig, r = ⟨toB64 P id.edPublic, label, events, P.toISOString now, sig⟩ := by
  obtain ⟨sig, _, h⟩ := bind_ok.mp h
  exact ⟨sig, (Except.ok.inj h).symm⟩

theorem signable_wf {r : EventReport} (h : WFList P.toEngine r.events) : r.signable.WF P.toEngine :=
  ⟨show [js "node", js "label", js "at", js "events"].Nodup by decide, trivial, trivial, trivial, h, trivial⟩

theorem Signs.wf {k : Kind} {w : Value} (h : Signs P pk k w) : w.WF P.toEngine := by
  cases h with
  | token made hview => exact tokenSignable_wf (makeToken_wf made) hview
  | accept wf _ href ha hview => exact acceptSignable_wf (acceptOf_wf ha (prop_wf wf href)) hview
  | revoke made hview => exact revokeSignable_wf (makeRevoke_wf made) hview
  | record made hview =>
      refine recordSignable_wf ?_ hview
      rw [signRecord_ok made]
      exact ⟨show [js "ed25519", js "x25519", js "wg0", js "label"].Nodup by decide, trivial, trivial, trivial,
        trivial, trivial⟩
  | report wf made =>
      obtain ⟨sig, rfl⟩ := signReport_ok made
      exact signable_wf wf
  | message wf _ hto =>
      exact ⟨show [js "typ", js "id", js "node", js "to", js "body", js "ts"].Nodup by decide, trivial, trivial,
        trivial, prop_wf wf hto, trivial, trivial, trivial⟩
  | canary =>
      exact ⟨show [js "node", js "keyword", js "text", js "nonce", js "issued"].Nodup by decide, trivial, trivial,
        trivial, trivial, trivial, trivial⟩

/-! ## What a verifier accepts -/

/-- One of the seven verifiers accepts an input, a JSON value where it takes one, under the key `pk`: what the
    signature covers. -/
inductive Accepted (P : Platform) (pk : Bytes) : Kind → Value → Prop
  | token {t peer view : Value} {now : Instant} (wf : t.WF P.toEngine) (h : verifyToken P t now = .ok peer)
      (hkey : (prop peer (js "ed25519") >>= fromB64 P) = .ok pk) (hview : tokenSignable t = .ok view) :
      Accepted P pk .token view
  | accept {me : Self} {blob : JsString} {a peer view : Value} (h : openAccept P me blob = .ok a)
      (hpeer : prop a (js "from") = .ok peer) (hkey : (prop peer (js "ed25519") >>= fromB64 P) = .ok pk)
      (hview : acceptSignable a = .ok view) : Accepted P pk .accept view
  | revoke {me : Self} {n rec_ peer view : Value} {now : Instant} {b b' : FriendBook} (wf : n.WF P.toEngine)
      (h : (receiveRevoke P me n now).run b = (.ok rec_, b')) (hpeer : prop rec_ (js "peer") = .ok peer)
      (hkey : (prop peer (js "ed25519") >>= fromB64 P) = .ok pk) (hview : revokeSignable n = .ok view) :
      Accepted P pk .revoke view
  | record {record sig view : Value} (wf : record.WF P.toEngine) (h : verifyAnnounce P record sig = true)
      (hkey : (prop record (js "ed25519") >>= fromB64 P) = .ok pk) (hview : recordSignable record = .ok view) :
      Accepted P pk .record view
  | report {body : Value} {r : EventReport} (wf : body.WF P.toEngine) (parsed : parseReport body = .ok r)
      (h : verifyReport P r = true) (hkey : fromB64 P (.str r.node) = .ok pk) : Accepted P pk .report r.signable
  /-- `openMessage`, with the replay guard or without. -/
  | message {self : Identity} {blob node : JsString} {keyFor : VerifyKeyFor} {payload : Value}
      (h : messagePayload P self blob keyFor = .ok payload) (hnode : prop payload (js "node") = .ok (.str node))
      (hkey : keyFor node = some pk) : Accepted P pk .message payload
  | canary {vega : Identity} {blob node keyword : JsString} {keyFor : VerifyKeyFor} {freshness : Seconds}
      {now : Instant} {payload : Value} {c : Canary}
      (h : verifyCanary P vega blob keyFor keyword freshness now = .ok c)
      (hpayload : canaryPayload P vega blob keyFor = .ok payload)
      (hnode : prop payload (js "node") = .ok (.str node)) (hkey : keyFor node = some pk) :
      Accepted P pk .canary payload

/-- The signature check of a verifier. -/
def Checked (P : Platform) (pk : Bytes) (view : Value) : Prop :=
  ∃ sig msg, canonicalBytes view = .ok msg ∧ P.verifyDetached sig msg pk = some true

theorem Verified.checked {view sig pub : Value} (h : Verified P view sig pub) (hkey : fromB64 P pub = .ok pk) :
    Checked P pk view := by
  obtain ⟨s, m, pk', _, hm, hpk, hv⟩ := h.ok
  obtain rfl := Except.ok.inj (hpk.symm.trans hkey)
  exact ⟨s, m, hm, hv⟩

theorem fromB64_of_bind {v : Value} {k : JsString} {w : Value} (h : (prop v k >>= fromB64 P) = .ok pk)
    (hw : prop v k = .ok w) : fromB64 P w = .ok pk := by
  rw [hw] at h
  exact h

theorem parseReport_wf {body : Value} {r : EventReport} (hbody : body.WF P.toEngine) (h : parseReport body = .ok r) :
    WFList P.toEngine r.events := by
  unfold parseReport at h
  split at h
  · next hnode hlabel hevents hat hsig =>
      obtain ⟨_, _, h⟩ := bind_ok.mp h
      obtain ⟨_, _, h⟩ := bind_ok.mp h
      obtain rfl := Except.ok.inj h
      exact hbody.prop hevents
  · cases h

theorem verifyRevoke_true {n rec_ peer view : Value} (h : verifyRevoke P n rec_ = .ok true)
    (hview : revokeSignable n = .ok view) (hpeer : prop rec_ (js "peer") = .ok peer) :
    ∃ sig pub, prop peer (js "ed25519") = .ok pub ∧ Verified P view sig pub := by
  obtain ⟨view', hview', h⟩ := bind_ok.mp h
  obtain ⟨sig, _, h⟩ := bind_ok.mp h
  obtain ⟨peer', hpeer', h⟩ := bind_ok.mp h
  obtain ⟨pub, hpub, hverify⟩ := bind_ok.mp h
  obtain rfl := Except.ok.inj (hview.symm.trans hview')
  obtain rfl := Except.ok.inj (hpeer.symm.trans hpeer')
  exact ⟨sig, pub, hpub, verify_true hverify⟩

theorem verifyAnnounce_true {record sig view : Value} (h : verifyAnnounce P record sig = true)
    (hview : recordSignable record = .ok view) :
    ∃ pub, prop record (js "ed25519") = .ok pub ∧ Verified P view sig pub := by
  unfold verifyAnnounce at h
  dsimp only at h
  split at h
  · next hchecked =>
      subst h
      obtain ⟨view', hview', h⟩ := bind_ok.mp hchecked
      obtain ⟨pub, hpub, h⟩ := bind_ok.mp h
      obtain rfl := Except.ok.inj (hview.symm.trans hview')
      exact ⟨pub, hpub, verify_true h⟩
  · cases h

theorem verifyReport_true {r : EventReport} (h : verifyReport P r = true) :
    Verified P r.signable (.str r.sig) (.str r.node) := by
  unfold verifyReport at h
  split at h
  · next hverify =>
      subst h
      exact verify_true hverify
  · cases h

theorem messagePayload_ok {self : Identity} {blob : JsString} {keyFor : VerifyKeyFor} {payload : Value}
    (h : messagePayload P self blob keyFor = .ok payload) :
    (∃ box, openVerify P box self.xPublic self.xPrivate keyFor = .ok payload) ∧
      prop payload (js "typ") = .ok (.str (js "message")) := by
  obtain ⟨box, _, h⟩ := bind_ok.mp h
  obtain ⟨payload', hopen, h⟩ := bind_ok.mp h
  obtain ⟨typ, htyp, h⟩ := bind_ok.mp h
  obtain ⟨_, hmessage, h⟩ := bind_ok.mp h
  obtain ⟨to_, _, h⟩ := bind_ok.mp h
  obtain ⟨_, _, h⟩ := bind_ok.mp h
  obtain rfl := Except.ok.inj h
  obtain rfl := not_not.mp (failIf_ok.mp hmessage)
  exact ⟨⟨box, hopen⟩, htyp⟩

/-- A canary without a time of issue is refused: its date would be that of the text `undefined`. -/
theorem canaryPayload_issued (hundefined : P.dateParse (js "undefined") = none) {vega : Identity}
    {blob keyword : JsString} {keyFor : VerifyKeyFor} {freshness : Seconds} {now : Instant} {c : Canary}
    {payload : Value} (h : verifyCanary P vega blob keyFor keyword freshness now = .ok c)
    (hpayload : canaryPayload P vega blob keyFor = .ok payload) :
    ∃ issued, prop payload (js "issued") = .ok issued ∧ issued ≠ .undefined := by
  obtain ⟨payload', hpayload', h⟩ := bind_ok.mp h
  obtain rfl := Except.ok.inj (hpayload.symm.trans hpayload')
  obtain ⟨_, _, h⟩ := bind_ok.mp h
  obtain ⟨_, _, h⟩ := bind_ok.mp h
  obtain ⟨_, _, h⟩ := bind_ok.mp h
  obtain ⟨parsed, hparsed, h⟩ := bind_ok.mp h
  obtain ⟨at_, hat, _⟩ := bind_ok.mp h
  obtain ⟨issued, hissued, hdate⟩ := bind_ok.mp hparsed
  refine ⟨issued, hissued, ?_⟩
  rintro rfl
  obtain rfl := Except.ok.inj ((congrArg Except.ok hundefined).symm.trans hdate)
  cases hat

/-- An opened payload was checked under the key of its node. -/
theorem checked_of_openVerify {box pub priv : Bytes} {keyFor : VerifyKeyFor} {payload : Value} {node : JsString}
    (h : openVerify P box pub priv keyFor = .ok payload) (hnode : prop payload (js "node") = .ok (.str node))
    (hkey : keyFor node = some pk) : payload.WF P.toEngine ∧ Checked P pk payload := by
  obtain ⟨hwf, node', key, sig, msg, hnode', hkey', hmsg, hverify⟩ := openVerify_ok h
  obtain rfl := Value.str.inj (Except.ok.inj (hnode.symm.trans hnode'))
  obtain rfl := Option.some.inj (hkey.symm.trans hkey')
  exact ⟨hwf, sig, msg, hmsg, hverify⟩

/-- **What is accepted was checked**, and is a JSON value. -/
theorem Accepted.checked {k : Kind} {view : Value} (h : Accepted P pk k view) :
    view.WF P.toEngine ∧ Checked P pk view := by
  cases h with
  | token wf h hkey hview =>
      obtain ⟨_, _, view', sig, pub, hview', _, hpub, hv⟩ := verifyToken_ok h
      obtain rfl := Except.ok.inj (hview.symm.trans hview')
      exact ⟨tokenSignable_wf wf hview, hv.checked (fromB64_of_bind hkey hpub)⟩
  | accept h hpeer hkey hview =>
      obtain ⟨_, view', sig, peer', pub, hview', _, hpeer', hpub, hv⟩ := openAccept_ok h
      obtain rfl := Except.ok.inj (hview.symm.trans hview')
      obtain rfl := Except.ok.inj (hpeer.symm.trans hpeer')
      exact ⟨acceptSignable_wf (openAccept_wf h) hview, hv.checked (fromB64_of_bind hkey hpub)⟩
  | @revoke _ n _ _ _ now _ _ wf h hpeer hkey hview =>
      rcases run_cases (c := .receiveRevoke n now) h with ⟨_, he, _⟩ | hcommit
      · cases he
      · cases hcommit with
        | receiveRevoke _ _ _ _ _ _ verified =>
            obtain ⟨sig, pub, hpub, hv⟩ := verifyRevoke_true verified hview hpeer
            exact ⟨revokeSignable_wf wf hview, hv.checked (fromB64_of_bind hkey hpub)⟩
  | record wf h hkey hview =>
      obtain ⟨pub, hpub, hv⟩ := verifyAnnounce_true h hview
      exact ⟨recordSignable_wf wf hview, hv.checked (fromB64_of_bind hkey hpub)⟩
  | report wf parsed h hkey => exact ⟨signable_wf (parseReport_wf wf parsed), (verifyReport_true h).checked hkey⟩
  | message h hnode hkey =>
      obtain ⟨⟨box, hopen⟩, _⟩ := messagePayload_ok h
      exact checked_of_openVerify hopen hnode hkey
  | canary h hpayload hnode hkey =>
      obtain ⟨box, _, hopen⟩ := bind_ok.mp hpayload
      exact checked_of_openVerify hopen hnode hkey

/-! ## The keys tell the kinds apart -/

theorem Kind.eq_of_fields {k k' : Kind}
    (h : k.fields.insertionSort (fun a b => keyLe a b) = k'.fields.insertionSort fun a b => keyLe a b) : k = k' := by
  revert h
  cases k <;> cases k' <;> decide

/-- A value with the keys of two kinds, up to their order. -/
theorem Kind.Shaped.eq {k k' : Kind} {v w : Value} (hv : k.Shaped v) (hw : k'.Shaped w) (h : JsonEq v w) : k = k' := by
  obtain ⟨es, rfl, hes⟩ := hv
  obtain ⟨fs, rfl, hfs⟩ := hw
  have hkeys (es : List (JsString × Value)) : (sortFields (sortKeysFields es)).map Prod.fst
      = (es.map Prod.fst).insertionSort fun a b => keyLe a b := by
    have hfst : (sortKeysFields es).map Prod.fst = es.map Prod.fst := by
      rw [sortKeysFields_eq, List.map_map]
      rfl
    rw [← hfst]
    exact List.map_insertionSort _ _ _ _ fun _ _ _ _ => Iff.rfl
  have hfields : sortFields (sortKeysFields es) = sortFields (sortKeysFields fs) := Value.obj.inj h
  refine Kind.eq_of_fields ?_
  rw [← hes, ← hfs, ← hkeys, ← hkeys, hfields]

/-- A field that both have, whatever the order of the keys. -/
theorem Kind.Shaped.mem_fields {k : Kind} {v w u : Value} {f : JsString} (hv : k.Shaped v) (wfv : v.WF P.toEngine)
    (wfw : w.WF P.toEngine) (h : JsonEq v w) (hf : prop w f = .ok u) (hu : u ≠ .undefined) : f ∈ k.fields := by
  obtain ⟨es, rfl, hes⟩ := hv
  by_contra hnot
  have hprop : prop (.obj es) f = .ok .undefined := by
    show Except.ok ((es.lookup f).getD .undefined) = _
    cases hl : es.lookup f with
    | none => rfl
    | some v =>
        have hmem := (OrdMap.lookup_eq_some_iff wfv.1).mp hl
        exact absurd (hes ▸ List.mem_map_of_mem hmem) hnot
  exact hu (eq_of_sortKeys_primitive rfl (h.field wfv wfw hprop hf))

theorem str_ne_undefined (s : JsString) : Value.str s ≠ .undefined := by
  intro h
  cases h

/-- **What a verifier asks for**, no other kind has. -/
theorem Accepted.kind_eq (hundefined : P.dateParse (js "undefined") = none) {k k' : Kind} {v w : Value}
    (h : Accepted P pk k w) (hv : k'.Shaped v) (wfv : v.WF P.toEngine) (heq : JsonEq v w) : k' = k := by
  have hwf := h.checked.1
  cases h with
  | token _ _ _ hview => exact hv.eq (tokenSignable_shaped hview) heq
  | accept _ _ _ hview => exact hv.eq (acceptSignable_shaped hview) heq
  | revoke _ _ _ _ hview => exact hv.eq (revokeSignable_shaped hview) heq
  | record _ _ _ hview => exact hv.eq (recordSignable_shaped hview) heq
  | report => exact hv.eq ⟨_, rfl, rfl⟩ heq
  | message h =>
      have htyp := hv.mem_fields wfv hwf heq (messagePayload_ok h).2 (str_ne_undefined _)
      revert htyp
      cases k' <;> decide
  | canary h hpayload hnode =>
      have hnode := hv.mem_fields wfv hwf heq hnode (str_ne_undefined _)
      obtain ⟨issued, hprop, hdefined⟩ := canaryPayload_issued hundefined h hpayload
      have hissued := hv.mem_fields wfv hwf heq hprop hdefined
      revert hnode hissued
      cases k' <;> decide

/-- **Domain separation.** If all that was signed with a key was signed by the seven functions, then what a verifier
    accepts under the key was signed as the kind it is accepted as, with the same fields. -/
theorem accepted_kind_signed (P : Platform) (hundefined : P.dateParse (js "undefined") = none) (pk : Bytes)
    (signed : Set (Kind × Value)) (made : ∀ k w, (k, w) ∈ signed → Signs P pk k w)
    (unforgeable : ∀ sig msg, P.verifyDetached sig msg pk = some true →
      ∃ k w, (k, w) ∈ signed ∧ canonicalBytes w = .ok msg)
    {k : Kind} {view : Value} (h : Accepted P pk k view) : ∃ w, (k, w) ∈ signed ∧ JsonEq w view := by
  obtain ⟨hwf, sig, msg, hmsg, hverify⟩ := h.checked
  obtain ⟨k', w, hmem, hbytes⟩ := unforgeable sig msg hverify
  have hsigns := made k' w hmem
  have heq : JsonEq w view := canonicalBytes_inj hsigns.wf hwf hbytes hmsg
  obtain rfl := h.kind_eq hundefined hsigns.shaped hsigns.wf heq
  exact ⟨w, hmem, heq⟩

namespace Symbolic

/-- What node 1 has signed: its token and a report. -/
def signedByOne : List (Kind × Value) :=
  [(.token, ((tokenSignable (invite 1 [7])).toOption).getD .undefined), (.report, (reportAt epoch).signable)]

/-- The symbolic platform, on which nothing verifies but what node 1 has signed. -/
def strict : Platform :=
  { platform with
    verifyDetached := fun sig msg pk =>
      if pk.length = 1 then some (sig = pk ++ msg && signedByOne.any fun e => (canonicalBytes e.2).toOption = some msg)
      else none }

/-- The token of node 1 was signed as a token. -/
theorem invite_kind_signed : ∃ view, tokenSignable (invite 1 [7]) = .ok view ∧
    ∃ w, (.token, w) ∈ {e | e ∈ signedByOne} ∧ JsonEq w view := by
  have hview : tokenSignable (invite 1 [7]) = .ok (((tokenSignable (invite 1 [7])).toOption).getD .undefined) := by
    decide +kernel
  have hverified : verifyToken strict (invite 1 [7]) epoch = .ok (peerPubOf platform (node 1)) := by decide +kernel
  have htoken : makeToken strict (node 1) 60 [7] epoch = .ok (invite 1 [7]) := by decide +kernel
  have hreport : signReport strict (identity 1) (js "node") [] epoch = .ok (reportAt epoch) := by decide +kernel
  refine ⟨_, hview, accepted_kind_signed strict (by decide +kernel) [1] {e | e ∈ signedByOne} ?_ ?_
    (.token invite_wf hverified (by decide +kernel) hview)⟩
  · intro k w hmem
    rcases List.mem_cons.mp hmem with heq | hmem
    · obtain ⟨rfl, rfl⟩ := Prod.mk.inj heq
      exact .token htoken hview
    · obtain ⟨rfl, rfl⟩ := Prod.mk.inj (List.mem_singleton.mp hmem)
      have hevents : WFList strict.toEngine [] := trivial
      exact .report hevents hreport
  · intro sig msg hverify
    obtain ⟨_, hany⟩ := Bool.and_eq_true_iff.mp (Option.some.inj hverify)
    obtain ⟨⟨k, w⟩, hmem, hbytes⟩ := List.any_eq_true.mp hany
    refine ⟨k, w, hmem, ?_⟩
    have hsome := of_decide_eq_true hbytes
    cases hw : canonicalBytes w with
    | ok b =>
        rw [hw] at hsome
        exact congrArg Except.ok (Option.some.inj hsome)
    | error e =>
        rw [hw] at hsome
        cases hsome

end Symbolic

end Island
end VpnPi
