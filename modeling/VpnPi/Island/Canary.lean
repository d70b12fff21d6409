import VpnPi.Island.Envelope
import VpnPi.Js.Double

/-!
# `Island.Canary` — the signed command that opens the gate (`core/canary.ts`)

The payload of a canary is bound by its signature; the clock enters in one place only, the freshness check.
So two successful verifications of one blob return the same canary, at most twice the freshness apart
(`verifyCanary_agree`), and a canary that is returned is fresh (`verifyCanary_fresh`).
-/

namespace VpnPi
namespace Island

open Js

/-- A positive number of seconds, which is what `numConfig` lets through. -/
structure Seconds where
  val : ℚ
  pos : 0 < val

/-- The trusted payload. -/
structure Canary where
  admin   : JsString
  keyword : JsString
  text    : JsString
  nonce   : JsString
  issued  : JsString
  deriving DecidableEq

variable (P : Platform)

def makeCanary (admin : Identity) (keyword text : JsString) (vegaX25519 : JsString)
    (random ephemeral : Bytes) (now : Instant) : Except Exn JsString := do
  let payload := Value.obj [(js "node", .str (toB64 P admin.edPublic)), (js "keyword", .str keyword),
    (js "text", .str text), (js "nonce", .str (toB64 P random)), (js "issued", .str (P.toISOString now))]
  let x25519 ← fromB64 P (.str vegaX25519)
  let blob ← sealSign P payload admin.edSecret x25519 ephemeral
  pure (toB64 P blob)

/-- What a blob says, once the seal opens and the signature is an admin's. -/
def canaryPayload (vega : Identity) (blobB64 : JsString) (adminVerify : VerifyKeyFor) : Except Exn Value := do
  let blob ← fromB64 P (.str blobB64)
  openVerify P blob vega.xPublic vega.xPrivate adminVerify

def verifyCanary (vega : Identity) (blobB64 : JsString) (adminVerify : VerifyKeyFor) (keyword : JsString)
    (freshnessSeconds : Seconds) (now : Instant) : Except Exn Canary := do
  let payload ← canaryPayload P vega blobB64 adminVerify
  let text ← prop payload (js "text") >>= stringOrEmpty
  let kw ← prop payload (js "keyword") >>= stringOrEmpty
  let firstToken := splitSpaceFst (trim text)
  failIf (kw ≠ keyword ∨ firstToken ≠ keyword)
    (.canary (js "canary keyword missing or not the first token"))
  let parsed ← prop payload (js "issued") >>= dateParse P
  let issued ← orThrow (.canary (js "canary has no valid issued time")) parsed
  failIf (millis freshnessSeconds.val < (|now.ms - issued.ms| : Int))
    (.canary (js "canary is stale or future-dated"))
  let admin ← prop payload (js "node") >>= stringOf
  let nonce ← prop payload (js "nonce") >>= stringOf
  let issuedText ← prop payload (js "issued") >>= stringOf
  pure ⟨admin, kw, text, nonce, issuedText⟩

/-- A freshness window, in whole milliseconds. -/
def Seconds.windowMs (s : Seconds) : Int := ⌊millis s.val⌋

/-- The clock is within the window around the time of issue. -/
def FreshAt (freshness : Seconds) (c : Canary) (now : Instant) : Prop :=
  ∃ issued, P.dateParse c.issued = some issued ∧ ((|now.ms - issued.ms| : Int) : ℚ) ≤ millis freshness.val

variable {P} {vega : Identity} {blobB64 keyword : JsString} {adminVerify : VerifyKeyFor} {freshness : Seconds}

/-- Two instants in the window are at most twice its width apart. -/
theorem FreshAt.near {c : Canary} {v w : Instant} (h : FreshAt P freshness c v) (h' : FreshAt P freshness c w) :
    w.ms - v.ms ≤ 2 * freshness.windowMs := by
  obtain ⟨issued, hi, hv⟩ := h
  obtain ⟨issued', hi', hw⟩ := h'
  obtain rfl := Option.some.inj (hi.symm.trans hi')
  have hv : |v.ms - issued.ms| ≤ freshness.windowMs := Int.le_floor.mpr hv
  have hw : |w.ms - issued.ms| ≤ freshness.windowMs := Int.le_floor.mpr hw
  have h1 := (abs_le.mp hv).1
  have h2 := (abs_le.mp hw).2
  omega

/-- **A canary that is returned is fresh.** -/
theorem verifyCanary_fresh {now : Instant} {c : Canary}
    (h : verifyCanary P vega blobB64 adminVerify keyword freshness now = .ok c) : FreshAt P freshness c now := by
  unfold verifyCanary at h
  obtain ⟨payload, _, h⟩ := bind_ok.mp h
  obtain ⟨text, _, h⟩ := bind_ok.mp h
  obtain ⟨kw, _, h⟩ := bind_ok.mp h
  obtain ⟨_, _, h⟩ := bind_ok.mp h
  obtain ⟨parsed, hparsed, h⟩ := bind_ok.mp h
  obtain ⟨issued, hissued, h⟩ := bind_ok.mp h
  obtain ⟨_, hwindow, h⟩ := bind_ok.mp h
  obtain ⟨admin, _, h⟩ := bind_ok.mp h
  obtain ⟨nonce, _, h⟩ := bind_ok.mp h
  obtain ⟨issuedText, htext, h⟩ := bind_ok.mp h
  obtain rfl := Except.ok.inj h
  refine ⟨issued, ?_, not_lt.mp (failIf_ok.mp hwindow)⟩
  -- `Date.parse` reads the text that is returned
  obtain ⟨v, hv, hparsed⟩ := bind_ok.mp hparsed
  obtain ⟨v', hv', htext⟩ := bind_ok.mp htext
  obtain rfl := Except.ok.inj (hv.symm.trans hv')
  obtain ⟨t, ht, hparsed⟩ := bind_ok.mp hparsed
  obtain rfl := Except.ok.inj (ht.symm.trans htext)
  obtain rfl := Except.ok.inj hparsed
  exact orThrow_ok.mp hissued

/-- **One blob, one canary.** What a blob verifies as does not depend on the time; the times differ by at most
    the window on either side of the time of issue. -/
theorem verifyCanary_agree {v w : Instant} {c d : Canary}
    (h : verifyCanary P vega blobB64 adminVerify keyword freshness v = .ok c)
    (h' : verifyCanary P vega blobB64 adminVerify keyword freshness w = .ok d) :
    c = d ∧ w.ms - v.ms ≤ 2 * freshness.windowMs := by
  have hfresh := verifyCanary_fresh h
  have hfresh' := verifyCanary_fresh h'
  have hsame : c = d := by
    unfold verifyCanary at h h'
    obtain ⟨payload, hp, h⟩ := bind_ok.mp h
    obtain ⟨payload', hp', h'⟩ := bind_ok.mp h'
    obtain rfl := Except.ok.inj (hp.symm.trans hp')
    obtain ⟨text, ht, h⟩ := bind_ok.mp h
    obtain ⟨text', ht', h'⟩ := bind_ok.mp h'
    obtain rfl := Except.ok.inj (ht.symm.trans ht')
    obtain ⟨kw, hk, h⟩ := bind_ok.mp h
    obtain ⟨kw', hk', h'⟩ := bind_ok.mp h'
    obtain rfl := Except.ok.inj (hk.symm.trans hk')
    obtain ⟨_, _, h⟩ := bind_ok.mp h
    obtain ⟨_, _, h'⟩ := bind_ok.mp h'
    obtain ⟨_, _, h⟩ := bind_ok.mp h
    obtain ⟨_, _, h'⟩ := bind_ok.mp h'
    obtain ⟨_, _, h⟩ := bind_ok.mp h
    obtain ⟨_, _, h'⟩ := bind_ok.mp h'
    obtain ⟨_, _, h⟩ := bind_ok.mp h
    obtain ⟨_, _, h'⟩ := bind_ok.mp h'
    exact Except.ok.inj (h.symm.trans h')
  subst hsame
  exact ⟨rfl, hfresh.near hfresh'⟩

end Island
end VpnPi
