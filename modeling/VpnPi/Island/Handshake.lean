import VpnPi.Island.BookRuns
import VpnPi.Island.CanonicalJson

/-!
# `Island.Handshake` — what one honest node makes, the other takes

With keys that belong together (`KeyPairs`) and base64 that decodes to what was encoded (`Codec`), an accept opens
at the node whose token it answers (`accept_opens`), and a notice verifies against the record the handshake has
left (`notice_verifies`). Minting itself never fails on what a node mints from: the encoder is total on it.
-/

namespace VpnPi
namespace Island

open Js Value

/-- What is encoded in base64 decodes. -/
def Codec (P : Platform) : Prop := ∀ raw, P.fromBase64 (trim (P.toBase64 raw)) = some raw

/-- The text of the date parses to the date. -/
def Dated (P : Platform) (d : Instant) : Prop := P.dateParse (P.toISOString d) = some d

/-- The keys of an identity belong together. -/
structure KeyPairs (P : Platform) (id : Identity) : Prop where
  verifies : ∀ msg, P.verifyDetached (P.signDetached msg id.edSecret) msg id.edPublic = some true
  opens    : ∀ ephemeral msg box, P.boxSeal ephemeral msg id.xPublic = some box →
    P.boxSealOpen box id.xPublic id.xPrivate = some msg

variable {P : Platform} {me peer : Self}

theorem Codec.fromB64 (codec : Codec P) (raw : Bytes) : fromB64 P (.str (toB64 P raw)) = .ok raw :=
  orThrow_ok.mpr (codec raw)

theorem verify_sign (codec : Codec P) (keys : KeyPairs P me.id) {view : Value} {m : Bytes}
    (h : canonicalBytes view = .ok m) :
    verify P view (.str (toB64 P (P.signDetached m me.id.edSecret))) (.str (selfEd P me)) = .ok true :=
  bind_ok.mpr ⟨_, codec.fromB64 _, bind_ok.mpr ⟨m, h, bind_ok.mpr ⟨_, codec.fromB64 _,
    orThrow_ok.mpr (keys.verifies m)⟩⟩⟩

/-- A signed view prints as it is. -/
theorem withSig_plain {view : Value} {m : Bytes} (sig : JsString) (h : canonicalBytes view = .ok m) :
    Plain (withSig view sig) := by
  have hview := canonicalBytes_plain h
  cases view with
  | obj es =>
      refine plainFields_iff.mpr fun e he => ?_
      rcases List.mem_append.mp he with he | he
      · exact plainFields_iff.mp hview e he
      · rw [List.mem_singleton.mp he]
        trivial
  | _ => exact hview

/-! ## Minting -/

theorem one_isJson : IsJson (.num Number.one) := ⟨1, by decide, by decide, rfl⟩

theorem peerPubOf_isJson (P : Platform) (me : Self) : IsJson (peerPubOf P me) :=
  ⟨show [js "ed25519", js "x25519", js "label", js "wg0"].Nodup by decide, trivial, trivial, trivial, trivial, trivial⟩

theorem canonicalBytes_of_isJson {v : Value} (h : IsJson v) : ∃ m, canonicalBytes v = .ok m := by
  obtain ⟨t, ht⟩ := h.canonicalize_ok
  exact ⟨utf8Encode t, map_ok.mpr ⟨t, ht, rfl⟩⟩

theorem sign_of_isJson {v : Value} (h : IsJson v) (secretKey : Bytes) : ∃ sig, sign P v secretKey = .ok sig := by
  obtain ⟨m, hm⟩ := canonicalBytes_of_isJson h
  exact ⟨_, bind_ok.mpr ⟨m, hm, rfl⟩⟩

theorem makeToken_mints {ttlSeconds : ℚ} {now expires : Instant} (me : Self) (random : Bytes)
    (h : now.addSeconds ttlSeconds = some expires) : ∃ token, makeToken P me ttlSeconds random now = .ok token := by
  have hview : IsJson (tokenView P me random now expires) :=
    ⟨show [js "v", js "from", js "nonce", js "issued", js "expires"].Nodup by decide, one_isJson, peerPubOf_isJson P me,
      trivial, trivial, trivial, trivial⟩
  obtain ⟨sig, hsig⟩ := sign_of_isJson hview me.id.edSecret
  exact ⟨_, bind_ok.mpr ⟨expires, orThrow_ok.mpr h, bind_ok.mpr ⟨_, rfl, bind_ok.mpr ⟨sig, hsig, rfl⟩⟩⟩⟩

theorem makeRevoke_mints (me : Self) (target : JsString) (random : Bytes) (now : Instant) :
    ∃ notice, makeRevoke P me target random now = .ok notice := by
  have hview : IsJson (revokeView P me target random now) :=
    ⟨show [js "v", js "from", js "target", js "nonce", js "at"].Nodup by decide, one_isJson, trivial, trivial, trivial,
      trivial, trivial⟩
  obtain ⟨sig, hsig⟩ := sign_of_isJson hview me.id.edSecret
  exact ⟨_, bind_ok.mpr ⟨_, rfl, bind_ok.mpr ⟨sig, hsig, rfl⟩⟩⟩

theorem makeAccept_mints (codec : Codec P) {token : Value} {nonce : JsString} (me : Self) (ephemeral : Bytes)
    (now : Instant) (hnonce : prop token (js "nonce") = .ok (.str nonce))
    (hpeer : prop token (js "from") = .ok (peerPubOf P peer))
    (hseal : ∀ msg, (P.boxSeal ephemeral msg peer.id.xPublic).isSome) :
    ∃ blob, makeAccept P me token ephemeral now = .ok blob := by
  have hview : IsJson (acceptView P me (.str nonce) now) :=
    ⟨show [js "v", js "from", js "ref", js "issued"].Nodup by decide, one_isJson, peerPubOf_isJson P me, trivial, trivial,
      trivial⟩
  obtain ⟨sig, hsig⟩ := sign_of_isJson hview me.id.edSecret
  have haccept : acceptOf P me (.str nonce) now = .ok (withSig (acceptView P me (.str nonce) now) sig) :=
    bind_ok.mpr ⟨_, rfl, bind_ok.mpr ⟨sig, hsig, rfl⟩⟩
  obtain ⟨box, hbox⟩ := Option.isSome_iff_exists.mp (hseal (utf8Encode (stringify (withSig (acceptView P me (.str nonce) now) sig))))
  exact ⟨toB64 P box, bind_ok.mpr ⟨_, hnonce, bind_ok.mpr ⟨_, haccept, bind_ok.mpr ⟨_, hpeer,
    bind_ok.mpr ⟨_, bind_ok.mpr ⟨_, rfl, codec.fromB64 _⟩, bind_ok.mpr ⟨box, orThrow_ok.mpr hbox, rfl⟩⟩⟩⟩⟩⟩

theorem makeToken_from {token : Value} {ttlSeconds : ℚ} {random : Bytes} {now : Instant}
    (minted : makeToken P me ttlSeconds random now = .ok token) : prop token (js "from") = .ok (peerPubOf P me) := by
  obtain ⟨_, _, _, _, rfl⟩ := makeToken_ok minted
  rfl

theorem makeToken_nonce {token : Value} {ttlSeconds : ℚ} {random : Bytes} {now : Instant}
    (minted : makeToken P me ttlSeconds random now = .ok token) : prop token (js "nonce") = .ok (.str (toB64 P random)) := by
  obtain ⟨_, _, _, _, rfl⟩ := makeToken_ok minted
  rfl

theorem makeRevoke_from {notice : Value} {target : JsString} {random : Bytes} {now : Instant}
    (minted : makeRevoke P me target random now = .ok notice) : prop notice (js "from") = .ok (.str (selfEd P me)) := by
  obtain ⟨_, _, rfl⟩ := makeRevoke_ok minted
  rfl

theorem makeRevoke_nonce {notice : Value} {target : JsString} {random : Bytes} {now : Instant}
    (minted : makeRevoke P me target random now = .ok notice) : prop notice (js "nonce") = .ok (.str (toB64 P random)) := by
  obtain ⟨_, _, rfl⟩ := makeRevoke_ok minted
  rfl

/-- What was minted is what a reading of it with a default gives. -/
theorem eq_ok_getD {ε α : Type} {r : Except ε α} (d : α) (h : ∃ v, r = .ok v) : r = .ok (r.toOption.getD d) := by
  obtain ⟨v, rfl⟩ := h
  rfl

/-- **A token verifies** until it expires. -/
theorem token_verifies (codec : Codec P) (keys : KeyPairs P me.id) {token : Value} {ttlSeconds : ℚ} {random : Bytes}
    {now expires later : Instant} (minted : makeToken P me ttlSeconds random now = .ok token)
    (hexpires : now.addSeconds ttlSeconds = some expires) (dated : Dated P expires) (fresh : later.ms ≤ expires.ms) :
    verifyToken P token later = .ok (peerPubOf P me) := by
  obtain ⟨expires', m, hexpires', hm, rfl⟩ := makeToken_ok minted
  obtain rfl := Option.some.inj (hexpires.symm.trans hexpires')
  have hbefore : isBefore (some expires) later = false := decide_eq_false (not_lt.mpr fresh)
  refine bind_ok.mpr ⟨_, rfl, bind_ok.mpr ⟨(), rfl, bind_ok.mpr ⟨tokenView P me random now expires, rfl, ?_⟩⟩⟩
  refine bind_ok.mpr ⟨_, rfl, bind_ok.mpr ⟨_, rfl, bind_ok.mpr ⟨_, rfl, bind_ok.mpr ⟨true, verify_sign codec keys hm, ?_⟩⟩⟩⟩
  refine bind_ok.mpr ⟨(), rfl, bind_ok.mpr ⟨some expires, ?_, bind_ok.mpr ⟨(), ?_, rfl⟩⟩⟩
  · exact congrArg Except.ok dated
  · rw [hbefore]
    rfl

/-! ## Meeting -/

/-- **An accept opens** at the node whose token it answers. -/
theorem accept_opens (codec : Codec P) (mine : KeyPairs P me.id) (theirs : KeyPairs P peer.id) {token : Value}
    {nonce blob : JsString} {ephemeral : Bytes} {now : Instant}
    (sealed : makeAccept P peer token ephemeral now = .ok blob)
    (hpeer : prop token (js "from") = .ok (peerPubOf P me)) (hnonce : prop token (js "nonce") = .ok (.str nonce)) :
    ∃ a, openAccept P me blob = .ok a ∧ prop a (js "ref") = .ok (.str nonce) ∧
      prop a (js "from") = .ok (peerPubOf P peer) := by
  obtain ⟨ref, a, from_, x25519, box, href, ha, hfrom, hx, hbox, rfl⟩ := makeAccept_ok sealed
  obtain rfl : .str nonce = ref := Except.ok.inj (hnonce.symm.trans href)
  obtain rfl : peerPubOf P me = from_ := Except.ok.inj (hpeer.symm.trans hfrom)
  obtain rfl : me.id.xPublic = x25519 := Except.ok.inj ((codec.fromB64 _).symm.trans hx)
  have hwf := acceptOf_wf ha trivial
  obtain ⟨m, hm, rfl⟩ := acceptOf_ok ha
  have hparse := parse_utf8 hwf
  rw [jsonView_of_plain _ (withSig_plain _ hm)] at hparse
  have hopen : openBlob P me (toB64 P box) = .ok (utf8Encode (stringify (withSig (acceptView P peer (.str nonce) now)
      (toB64 P (P.signDetached m peer.id.edSecret))))) :=
    bind_ok.mpr ⟨box, codec.fromB64 box, orThrow_ok.mpr (mine.opens _ _ _ hbox)⟩
  refine ⟨withSig (acceptView P peer (.str nonce) now) (toB64 P (P.signDetached m peer.id.edSecret)), ?_, rfl, rfl⟩
  unfold openAccept
  rw [hopen]
  refine bind_ok.mpr ⟨_, rfl, bind_ok.mpr ⟨_, orThrow_ok.mpr hparse, ?_⟩⟩
  refine bind_ok.mpr ⟨_, rfl, bind_ok.mpr ⟨(), rfl, bind_ok.mpr ⟨acceptView P peer (.str nonce) now, rfl, ?_⟩⟩⟩
  refine bind_ok.mpr ⟨_, rfl, bind_ok.mpr ⟨_, rfl, bind_ok.mpr ⟨_, rfl, ?_⟩⟩⟩
  exact bind_ok.mpr ⟨true, verify_sign codec theirs hm, rfl⟩

/-- **A notice verifies** against a record that holds its author's key. -/
theorem notice_verifies (codec : Codec P) (theirs : KeyPairs P peer.id) {notice rec_ stored : Value}
    {target : JsString} {random : Bytes} {now : Instant} (minted : makeRevoke P peer target random now = .ok notice)
    (hstored : prop rec_ (js "peer") = .ok stored) (hkey : prop stored (js "ed25519") = .ok (.str (selfEd P peer))) :
    verifyRevoke P notice rec_ = .ok true := by
  obtain ⟨m, hm, rfl⟩ := makeRevoke_ok minted
  refine bind_ok.mpr ⟨revokeView P peer target random now, rfl, ?_⟩
  exact bind_ok.mpr ⟨_, rfl, bind_ok.mpr ⟨_, hstored, bind_ok.mpr ⟨_, hkey, verify_sign codec theirs hm⟩⟩⟩

/-! ## Between the symbolic nodes -/

namespace Symbolic

theorem codec : Codec platform := fun raw => by
  show fromHex (trim (toHex raw)) = some raw
  rw [trim_toHex, fromHex_toHex]

theorem keyPairs (n : UInt8) : KeyPairs platform (identity n) where
  verifies := fun msg => congrArg some (decide_eq_true rfl)
  opens := fun _ msg box h => by
    obtain rfl := Option.some.inj h
    exact if_pos ⟨rfl, rfl, List.isPrefixOf_iff_prefix.mpr (List.prefix_append [100 + n] msg)⟩

theorem firstDay_dated {d : Instant} (h : 0 ≤ d.ms ∧ d.ms < 86400000) : Dated platform d := parseIso_isoString h

theorem epoch_dated : Dated platform epoch := firstDay_dated ⟨by decide, by decide⟩

theorem minute_expires : epoch.addSeconds 60 = some ⟨60000, by decide⟩ :=
  @Instant.addSeconds_intCast epoch 60 (by norm_num [abs_lt]) (by norm_num [epoch, abs_lt])

theorem invite_minted (n : UInt8) (random : Bytes) : makeToken platform (node n) 60 random epoch = .ok (invite n random) :=
  eq_ok_getD _ (makeToken_mints _ _ minute_expires)

theorem invite_verifies (n : UInt8) (random : Bytes) :
    verifyToken platform (invite n random) epoch = .ok (peerPubOf platform (node n)) :=
  token_verifies codec (keyPairs n) (invite_minted n random) minute_expires (firstDay_dated ⟨by decide, by decide⟩) (by decide)

end Symbolic

end Island
end VpnPi
