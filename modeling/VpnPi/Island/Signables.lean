import VpnPi.Island.Friends

/-!
# `Island.Signables` — what a signature covers

A token, an accept and a notice are each signed through a view that drops `sig`. This module takes the
signing and verifying functions apart: what they checked when they succeed (`verifyToken_ok`,
`openAccept_ok`), what a node puts under its own signature (`tokenView`, `acceptView`, `revokeView`), and
that the three kinds of view never have the same bytes (`canonicalBytes_inj` and the keys they sort to).
-/

namespace VpnPi
namespace Island

open Js Value

variable {P : Platform} {me : Self}

/-! ## Verified signatures -/

/-- The signature check that `verify` makes. -/
structure Verified (P : Platform) (view sig pub : Value) : Prop where
  ok : ∃ s m pk, fromB64 P sig = .ok s ∧ canonicalBytes view = .ok m ∧ fromB64 P pub = .ok pk ∧
    P.verifyDetached s m pk = some true

theorem verify_true {view sig pub : Value} (h : verify P view sig pub = .ok true) :
    Verified P view sig pub := by
  obtain ⟨s, hs, h⟩ := bind_ok.mp h
  obtain ⟨m, hm, h⟩ := bind_ok.mp h
  obtain ⟨pk, hpk, h⟩ := bind_ok.mp h
  exact ⟨s, m, pk, hs, hm, hpk, orThrow_ok.mp h⟩

theorem canonicalBytes_plain {v : Value} {m : Bytes} (h : canonicalBytes v = .ok m) : Plain v := by
  obtain ⟨t, ht, _⟩ := map_ok.mp h
  exact (canonicalize_eq_render v t ht).2

theorem Verified.plain {view sig pub : Value} (h : Verified P view sig pub) : Plain view := by
  obtain ⟨s, m, pk, _, hm, _, _⟩ := h.ok
  exact canonicalBytes_plain hm

/-! ## The views, field by field -/

theorem peerPubJson_ok {p view : Value} (h : peerPubJson p = .ok view) :
    ∃ ed25519 x25519 label wg0, prop p (js "ed25519") = .ok ed25519 ∧ prop p (js "x25519") = .ok x25519 ∧
      prop p (js "label") = .ok label ∧ prop p (js "wg0") = .ok wg0 ∧
      view = .obj [(js "ed25519", ed25519), (js "x25519", x25519), (js "label", label),
        (js "wg0", wg0)] := by
  obtain ⟨ed25519, h1, h⟩ := bind_ok.mp h
  obtain ⟨x25519, h2, h⟩ := bind_ok.mp h
  obtain ⟨label, h3, h⟩ := bind_ok.mp h
  obtain ⟨wg0, h4, h⟩ := bind_ok.mp h
  exact ⟨ed25519, x25519, label, wg0, h1, h2, h3, h4, (Except.ok.inj h).symm⟩

theorem tokenSignable_ok {t view : Value} (h : tokenSignable t = .ok view) :
    ∃ v peer pub nonce issued expires, prop t (js "v") = .ok v ∧ prop t (js "from") = .ok peer ∧
      peerPubJson peer = .ok pub ∧ prop t (js "nonce") = .ok nonce ∧ prop t (js "issued") = .ok issued ∧
      prop t (js "expires") = .ok expires ∧
      view = .obj [(js "v", v), (js "from", pub), (js "nonce", nonce), (js "issued", issued),
        (js "expires", expires)] := by
  obtain ⟨v, h1, h⟩ := bind_ok.mp h
  obtain ⟨pub, h2, h⟩ := bind_ok.mp h
  obtain ⟨peer, h2, h2'⟩ := bind_ok.mp h2
  obtain ⟨nonce, h3, h⟩ := bind_ok.mp h
  obtain ⟨issued, h4, h⟩ := bind_ok.mp h
  obtain ⟨expires, h5, h⟩ := bind_ok.mp h
  exact ⟨v, peer, pub, nonce, issued, expires, h1, h2, h2', h3, h4, h5, (Except.ok.inj h).symm⟩

theorem acceptSignable_ok {a view : Value} (h : acceptSignable a = .ok view) :
    ∃ v peer pub ref issued, prop a (js "v") = .ok v ∧ prop a (js "from") = .ok peer ∧
      peerPubJson peer = .ok pub ∧ prop a (js "ref") = .ok ref ∧ prop a (js "issued") = .ok issued ∧
      view = .obj [(js "v", v), (js "from", pub), (js "ref", ref), (js "issued", issued)] := by
  obtain ⟨v, h1, h⟩ := bind_ok.mp h
  obtain ⟨pub, h2, h⟩ := bind_ok.mp h
  obtain ⟨peer, h2, h2'⟩ := bind_ok.mp h2
  obtain ⟨ref, h3, h⟩ := bind_ok.mp h
  obtain ⟨issued, h4, h⟩ := bind_ok.mp h
  exact ⟨v, peer, pub, ref, issued, h1, h2, h2', h3, h4, (Except.ok.inj h).symm⟩

theorem revokeSignable_ok {n view : Value} (h : revokeSignable n = .ok view) :
    ∃ v from_ target nonce at_, prop n (js "v") = .ok v ∧ prop n (js "from") = .ok from_ ∧
      prop n (js "target") = .ok target ∧ prop n (js "nonce") = .ok nonce ∧ prop n (js "at") = .ok at_ ∧
      view = .obj [(js "v", v), (js "from", from_), (js "target", target), (js "nonce", nonce), (js "at", at_)] := by
  obtain ⟨v, h1, h⟩ := bind_ok.mp h
  obtain ⟨from_, h2, h⟩ := bind_ok.mp h
  obtain ⟨target, h3, h⟩ := bind_ok.mp h
  obtain ⟨nonce, h4, h⟩ := bind_ok.mp h
  obtain ⟨at_, h5, h⟩ := bind_ok.mp h
  exact ⟨v, from_, target, nonce, at_, h1, h2, h3, h4, h5, (Except.ok.inj h).symm⟩

/-! ## What the checks establish -/

/-- `Date.parse(o.expires) < now.getTime()` is false. -/
def NotExpired (P : Platform) (o : Value) (now : Instant) : Prop :=
  ∃ d, (prop o (js "expires") >>= dateParse P) = .ok d ∧ isBefore d now = false

/-- `verifyToken` returns `t.from` of an unexpired token whose view its own key signed. -/
theorem verifyToken_ok {t peer : Value} {now : Instant} (h : verifyToken P t now = .ok peer) :
    prop t (js "from") = .ok peer ∧ NotExpired P t now ∧ ∃ view sig pub, tokenSignable t = .ok view ∧
      prop t (js "sig") = .ok sig ∧ prop peer (js "ed25519") = .ok pub ∧ Verified P view sig pub := by
  obtain ⟨v, _, h⟩ := bind_ok.mp h
  obtain ⟨_, _, h⟩ := bind_ok.mp h
  obtain ⟨view, hview, h⟩ := bind_ok.mp h
  obtain ⟨sig, hsig, h⟩ := bind_ok.mp h
  obtain ⟨peer', hpeer, h⟩ := bind_ok.mp h
  obtain ⟨pub, hpub, h⟩ := bind_ok.mp h
  obtain ⟨good, hgood, h⟩ := bind_ok.mp h
  obtain ⟨_, hg, h⟩ := bind_ok.mp h
  obtain ⟨expires, hexp, h⟩ := bind_ok.mp h
  obtain ⟨_, hnot, h⟩ := bind_ok.mp h
  obtain rfl := Except.ok.inj h
  obtain rfl : good = true := by simpa using failIf_ok.mp hg
  exact ⟨hpeer, ⟨expires, hexp, Bool.eq_false_iff.mpr (failIf_ok.mp hnot)⟩, view, sig, pub, hview, hsig, hpub, verify_true hgood⟩

/-- `openAccept` returns what the opened bytes parse to, signed by its own key. -/
theorem openAccept_ok {blob : JsString} {a : Value} (h : openAccept P me blob = .ok a) :
    (∃ inner, openBlob P me blob = .ok inner ∧ parse P.toEngine (utf8Decode inner) = some a) ∧
      ∃ view sig peer pub, acceptSignable a = .ok view ∧ prop a (js "sig") = .ok sig ∧
        prop a (js "from") = .ok peer ∧ prop peer (js "ed25519") = .ok pub ∧ Verified P view sig pub := by
  obtain ⟨inner, hinner, h⟩ := bind_ok.mp h
  obtain ⟨a', ha, h⟩ := bind_ok.mp h
  obtain ⟨v, _, h⟩ := bind_ok.mp h
  obtain ⟨_, _, h⟩ := bind_ok.mp h
  obtain ⟨view, hview, h⟩ := bind_ok.mp h
  obtain ⟨sig, hsig, h⟩ := bind_ok.mp h
  obtain ⟨peer, hpeer, h⟩ := bind_ok.mp h
  obtain ⟨pub, hpub, h⟩ := bind_ok.mp h
  obtain ⟨good, hgood, h⟩ := bind_ok.mp h
  obtain ⟨_, hg, h⟩ := bind_ok.mp h
  obtain rfl := Except.ok.inj h
  obtain rfl : good = true := by simpa using failIf_ok.mp hg
  exact ⟨⟨inner, mapError_ok.mp hinner, orThrow_ok.mp ha⟩, view, sig, peer, pub, hview, hsig, hpeer, hpub,
    verify_true hgood⟩

/-! ## What a node signs -/

/-- The view of a token the node mints. -/
def tokenView (P : Platform) (me : Self) (random : Bytes) (now expires : Instant) : Value :=
  .obj [(js "v", .num Number.one), (js "from", peerPubOf P me), (js "nonce", .str (toB64 P random)),
    (js "issued", .str (P.toISOString now)), (js "expires", .str (P.toISOString expires))]

/-- The view of an accept the node returns. -/
def acceptView (P : Platform) (me : Self) (ref : Value) (now : Instant) : Value :=
  .obj [(js "v", .num Number.one), (js "from", peerPubOf P me), (js "ref", ref),
    (js "issued", .str (P.toISOString now))]

/-- The view of a notice the node mints. -/
def revokeView (P : Platform) (me : Self) (peerEd25519 : JsString) (random : Bytes) (now : Instant) : Value :=
  .obj [(js "v", .num Number.one), (js "from", .str (selfEd P me)), (js "target", .str peerEd25519),
    (js "nonce", .str (toB64 P random)), (js "at", .str (P.toISOString now))]

/-- `{ ...body, sig }`. -/
def withSig (view : Value) (sig : JsString) : Value :=
  match view with
  | .obj es => .obj (es ++ [(js "sig", .str sig)])
  | v => v

theorem makeToken_ok {ttlSeconds : ℚ} {random : Bytes} {now : Instant} {token : Value}
    (h : makeToken P me ttlSeconds random now = .ok token) :
    ∃ (expires : Instant) (m : Bytes), now.addSeconds ttlSeconds = some expires ∧
      canonicalBytes (tokenView P me random now expires) = .ok m ∧
      token = withSig (tokenView P me random now expires)
        (toB64 P (P.signDetached m me.id.edSecret)) := by
  obtain ⟨expires, hexp, h⟩ := bind_ok.mp h
  obtain ⟨signable, hsig, h⟩ := bind_ok.mp h
  obtain rfl := Except.ok.inj hsig
  obtain ⟨sig, hsig, h⟩ := bind_ok.mp h
  obtain ⟨m, hm, hsig⟩ := bind_ok.mp hsig
  obtain rfl := Except.ok.inj hsig
  exact ⟨expires, m, orThrow_ok.mp hexp, hm, (Except.ok.inj h).symm⟩

theorem acceptOf_ok {ref a : Value} {now : Instant} (h : acceptOf P me ref now = .ok a) :
    ∃ m, canonicalBytes (acceptView P me ref now) = .ok m ∧
      a = withSig (acceptView P me ref now) (toB64 P (P.signDetached m me.id.edSecret)) := by
  obtain ⟨signable, hsig, h⟩ := bind_ok.mp h
  obtain rfl := Except.ok.inj hsig
  obtain ⟨sig, hsig, h⟩ := bind_ok.mp h
  obtain ⟨m, hm, hsig⟩ := bind_ok.mp hsig
  obtain rfl := Except.ok.inj hsig
  exact ⟨m, hm, (Except.ok.inj h).symm⟩

theorem makeAccept_ok {token : Value} {ephemeral : Bytes} {now : Instant} {blob : JsString}
    (h : makeAccept P me token ephemeral now = .ok blob) :
    ∃ ref a peer x25519 sealed, prop token (js "nonce") = .ok ref ∧ acceptOf P me ref now = .ok a ∧
      prop token (js "from") = .ok peer ∧ (prop peer (js "x25519") >>= fromB64 P) = .ok x25519 ∧
      P.boxSeal ephemeral (utf8Encode (stringify a)) x25519 = some sealed ∧ blob = toB64 P sealed := by
  obtain ⟨ref, href, h⟩ := bind_ok.mp h
  obtain ⟨a, ha, h⟩ := bind_ok.mp h
  obtain ⟨peer, hpeer, h⟩ := bind_ok.mp h
  obtain ⟨x25519, hx, h⟩ := bind_ok.mp h
  obtain ⟨sealed, hs, h⟩ := bind_ok.mp h
  exact ⟨ref, a, peer, x25519, sealed, href, ha, hpeer, hx, orThrow_ok.mp hs,
    (Except.ok.inj h).symm⟩

theorem makeRevoke_ok {peerEd25519 : JsString} {random : Bytes} {now : Instant} {notice : Value}
    (h : makeRevoke P me peerEd25519 random now = .ok notice) :
    ∃ m, canonicalBytes (revokeView P me peerEd25519 random now) = .ok m ∧
      notice = withSig (revokeView P me peerEd25519 random now) (toB64 P (P.signDetached m me.id.edSecret)) := by
  obtain ⟨signable, hsig, h⟩ := bind_ok.mp h
  obtain rfl := Except.ok.inj hsig
  obtain ⟨sig, hsig, h⟩ := bind_ok.mp h
  obtain ⟨m, hm, hsig⟩ := bind_ok.mp hsig
  obtain rfl := Except.ok.inj hsig
  exact ⟨m, hm, (Except.ok.inj h).symm⟩

/-- Only a nonce that prints can be accepted. -/
theorem makeAccept_nonce_plain {token nonce : Value} {ephemeral : Bytes} {now : Instant} {blob : JsString}
    (h : makeAccept P me token ephemeral now = .ok blob) (hn : prop token (js "nonce") = .ok nonce) :
    Plain nonce := by
  obtain ⟨ref, a, _, _, _, href, ha, _⟩ := makeAccept_ok h
  obtain rfl := Except.ok.inj (hn.symm.trans href)
  obtain ⟨m, hm, _⟩ := acceptOf_ok ha
  have hp : PlainFields _ := canonicalBytes_plain hm
  exact hp.2.2.1

/-! ## Well-formedness -/

theorem one_wf (P : Platform) : WF P.toEngine (.num Number.one) := ⟨by decide, P.toNumber_int (n := 1) (by decide) (by decide)⟩

theorem peerPubOf_wf (P : Platform) (me : Self) : WF P.toEngine (peerPubOf P me) :=
  ⟨show [js "ed25519", js "x25519", js "label", js "wg0"].Nodup by decide, trivial, trivial, trivial,
    trivial, trivial⟩

theorem makeToken_wf {ttlSeconds : ℚ} {random : Bytes} {now : Instant} {token : Value}
    (h : makeToken P me ttlSeconds random now = .ok token) : token.WF P.toEngine := by
  obtain ⟨expires, m, _, _, rfl⟩ := makeToken_ok h
  exact ⟨show [js "v", js "from", js "nonce", js "issued", js "expires", js "sig"].Nodup by decide,
    one_wf P, peerPubOf_wf P me, trivial, trivial, trivial, trivial, trivial⟩

theorem acceptOf_wf {ref a : Value} {now : Instant} (h : acceptOf P me ref now = .ok a)
    (href : ref.WF P.toEngine) : a.WF P.toEngine := by
  obtain ⟨m, _, rfl⟩ := acceptOf_ok h
  exact ⟨show [js "v", js "from", js "ref", js "issued", js "sig"].Nodup by decide, one_wf P, peerPubOf_wf P me,
    href, trivial, trivial, trivial⟩

theorem makeRevoke_wf {peerEd25519 : JsString} {random : Bytes} {now : Instant} {notice : Value}
    (h : makeRevoke P me peerEd25519 random now = .ok notice) : notice.WF P.toEngine := by
  obtain ⟨m, _, rfl⟩ := makeRevoke_ok h
  exact ⟨show [js "v", js "from", js "target", js "nonce", js "at", js "sig"].Nodup by decide, one_wf P, trivial,
    trivial, trivial, trivial, trivial, trivial⟩

theorem peerPubJson_wf {p view : Value} (hp : p.WF P.toEngine) (h : peerPubJson p = .ok view) :
    view.WF P.toEngine := by
  obtain ⟨_, _, _, _, h1, h2, h3, h4, rfl⟩ := peerPubJson_ok h
  exact ⟨show [js "ed25519", js "x25519", js "label", js "wg0"].Nodup by decide, prop_wf hp h1,
    prop_wf hp h2, prop_wf hp h3, prop_wf hp h4, trivial⟩

theorem acceptSignable_wf {a view : Value} (ha : a.WF P.toEngine) (h : acceptSignable a = .ok view) :
    view.WF P.toEngine := by
  obtain ⟨_, _, _, _, _, h1, h2, h3, h4, h5, rfl⟩ := acceptSignable_ok h
  exact ⟨show [js "v", js "from", js "ref", js "issued"].Nodup by decide, prop_wf ha h1,
    peerPubJson_wf (prop_wf ha h2) h3, prop_wf ha h4, prop_wf ha h5, trivial⟩

theorem revokeSignable_wf {n view : Value} (hn : n.WF P.toEngine) (h : revokeSignable n = .ok view) :
    view.WF P.toEngine := by
  obtain ⟨_, _, _, _, _, h1, h2, h3, h4, h5, rfl⟩ := revokeSignable_ok h
  exact ⟨show [js "v", js "from", js "target", js "nonce", js "at"].Nodup by decide, prop_wf hn h1, prop_wf hn h2,
    prop_wf hn h3, prop_wf hn h4, prop_wf hn h5, trivial⟩

theorem tokenSignable_wf {t view : Value} (ht : t.WF P.toEngine) (h : tokenSignable t = .ok view) :
    view.WF P.toEngine := by
  obtain ⟨_, _, _, _, _, _, h1, h2, h3, h4, h5, h6, rfl⟩ := tokenSignable_ok h
  exact ⟨show [js "v", js "from", js "nonce", js "issued", js "expires"].Nodup by decide, prop_wf ht h1,
    peerPubJson_wf (prop_wf ht h2) h3, prop_wf ht h4, prop_wf ht h5, prop_wf ht h6, trivial⟩

end Island
end VpnPi
