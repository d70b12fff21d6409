import VpnPi.Js.OrdMap
import VpnPi.Selfheal.Time

/-!
# `Selfheal.Heal` — classification and remediation decisions (`internal/heal`)

Two pure functions of one snapshot of the interface. `Heal.step` advances the health state of every peer, on
handshake age and the memo of the previous tick; `Heal.decide` picks one action for every peer whose handshake is
older than `Staleness`, by role and by what the breaker window still allows. The daemon's strings are base64
keys, addresses and endpoints, so a byte of Go is a code unit here; a Go `map` is an `OrdMap`, of which only
the lookups are used.
-/

namespace VpnPi
namespace Selfheal

open Js

/-! ## `types.go` -/

inductive Role where
  | spoke
  | relay
  deriving DecidableEq

def Role.text : Role → JsString
  | spoke => js "spoke"
  | relay => js "relay"

structure PeerState where
  publicKey     : JsString
  name          : JsString
  tunnelIP      : JsString
  /-- Zero for a peer that never handshaked. -/
  lastHandshake : Time
  endpoint      : JsString

def maxStaleness : Duration := 9223372036854775807

def PeerState.staleness (p : PeerState) (now : Time) : Duration :=
  if p.lastHandshake.isZero then maxStaleness else now.sub p.lastHandshake

def PeerState.stalenessLabel (p : PeerState) (now : Time) : JsString :=
  if p.lastHandshake.isZero then js "never handshaked" else (p.staleness now).roundSecond.text

inductive ActionKind where
  | reResolve
  | bounceInterface
  | alert
  deriving DecidableEq

structure Action where
  kind   : ActionKind
  peer   : JsString
  name   : JsString
  ip     : JsString
  reason : JsString

structure ActionRecord where
  peer : JsString
  kind : ActionKind
  at_  : Time

structure Config where
  staleAfter    : Duration
  degradedAfter : Duration
  restoredHold  : Duration
  staleness     : Duration
  window        : Duration
  maxReResolve  : Int
  maxBounce     : Int
  /-- A `Duration` has 64 bits. -/
  range         : degradedAfter ≤ maxDuration := by decide

def defaultConfig : Config where
  staleAfter    := 150 * second
  degradedAfter := 180 * second
  restoredHold  := 30 * second
  staleness     := 180 * second
  window        := 600 * second
  maxReResolve  := 3
  maxBounce     := 1

/-! ## `status.go` -/

inductive State where
  | ok
  | stale
  | degraded
  | restored
  /-- Never produced by `Heal.step`. -/
  | gone
  deriving DecidableEq

def State.text : State → JsString
  | ok => js "ok"
  | stale => js "stale"
  | degraded => js "degraded"
  | restored => js "restored"
  | gone => js "gone"

structure PeerStatus where
  peer          : JsString
  name          : JsString
  tunnelIP      : JsString
  state         : State
  lastHandshake : Time
  endpoint      : JsString

structure PeerMemo where
  state         : State
  restoredSince : Time

/-- The zero value, which is what a missing map entry reads as. -/
def PeerMemo.zero : PeerMemo := ⟨.ok, .zero⟩

abbrev Memo := OrdMap JsString PeerMemo

def Memo.at_ (memo : Memo) (key : JsString) : PeerMemo := (memo.get key).getD .zero

def stepPeer (now : Time) (p : PeerState) (prev : PeerMemo) (cfg : Config) : PeerMemo :=
  let age := p.staleness now
  if cfg.degradedAfter ≤ age then ⟨.degraded, .zero⟩
  else if cfg.staleAfter ≤ age then ⟨.stale, .zero⟩
  else
    match prev.state with
    | .stale | .degraded => ⟨.restored, now⟩
    | .restored =>
        if cfg.restoredHold ≤ now.sub prev.restoredSince then ⟨.ok, .zero⟩
        else ⟨.restored, prev.restoredSince⟩
    | _ => ⟨.ok, .zero⟩

/-- The memo of one peer after this tick. -/
def memoOf (now : Time) (prev : Memo) (cfg : Config) (p : PeerState) : PeerMemo :=
  stepPeer now p (prev.at_ p.publicKey) cfg

def statusOf (now : Time) (prev : Memo) (cfg : Config) (p : PeerState) : PeerStatus where
  peer          := p.publicKey
  name          := p.name
  tunnelIP      := p.tunnelIP
  state         := (memoOf now prev cfg p).state
  lastHandshake := p.lastHandshake
  endpoint      := p.endpoint

def Heal.step (now : Time) (peers : List PeerState) (prev : Memo) (cfg : Config) : List PeerStatus × Memo :=
  (peers.map (statusOf now prev cfg),
    .ofEntries (peers.map fun p => (p.publicKey, memoOf now prev cfg p)))

def statesOf (memo : Memo) : OrdMap JsString State := memo.mapVal PeerMemo.state

/-! ## `decide.go` -/

/-- Records on the cutoff boundary are excluded. -/
def countRecent (history : List ActionRecord) (peer : JsString) (kind : ActionKind) (now : Time)
    (window : Duration) : Nat :=
  history.countP fun r => r.peer = peer && r.kind = kind && r.at_.after (now.add (-window))

def decidePeer (now : Time) (role : Role) (p : PeerState) (history : List ActionRecord) (cfg : Config) :
    Action :=
  let reResolves := countRecent history p.publicKey .reResolve now cfg.window
  let bounces := countRecent history p.publicKey .bounceInterface now cfg.window
  let why := js "stale (" ++ p.stalenessLabel now ++ js "); "
  if reResolves < cfg.maxReResolve then
    ⟨.reResolve, p.publicKey, p.name, p.tunnelIP,
      why ++ js "re-resolve attempt " ++ intText (reResolves + 1) ++ js "/" ++ intText cfg.maxReResolve⟩
  else if role = .spoke ∧ bounces < cfg.maxBounce then
    ⟨.bounceInterface, p.publicKey, p.name, p.tunnelIP,
      why ++ intText reResolves ++ js " re-resolves exhausted; spoke bounce attempt "
        ++ intText (bounces + 1) ++ js "/" ++ intText cfg.maxBounce⟩
  else
    ⟨.alert, p.publicKey, p.name, p.tunnelIP,
      why ++ role.text ++ js " remediation exhausted; latched degraded"⟩

def Heal.decide (now : Time) (role : Role) (peers : List PeerState) (history : List ActionRecord) (cfg : Config) :
    List Action :=
  (peers.filter fun p => cfg.staleness ≤ p.staleness now).map fun p => decidePeer now role p history cfg

/-! ## What one tick does to a peer -/

variable {now : Time} {cfg : Config}

/-- **What `stepPeer` can return**, by the age of the handshake and the state before. -/
theorem stepPeer_state (p : PeerState) (prev : PeerMemo) :
    (cfg.degradedAfter ≤ p.staleness now ∧ (stepPeer now p prev cfg).state = .degraded) ∨
    (p.staleness now < cfg.degradedAfter ∧ cfg.staleAfter ≤ p.staleness now ∧
      (stepPeer now p prev cfg).state = .stale) ∨
    (p.staleness now < cfg.degradedAfter ∧ p.staleness now < cfg.staleAfter ∧
      ((stepPeer now p prev cfg).state = .ok ∧ prev.state ≠ .stale ∧ prev.state ≠ .degraded ∨
        (stepPeer now p prev cfg).state = .restored ∧
          (prev.state = .stale ∨ prev.state = .degraded ∨ prev.state = .restored))) := by
  unfold stepPeer
  by_cases hdeg : cfg.degradedAfter ≤ p.staleness now
  · exact Or.inl ⟨hdeg, by rw [if_pos hdeg]⟩
  · by_cases hst : cfg.staleAfter ≤ p.staleness now
    · exact Or.inr (Or.inl ⟨Int.not_le.mp hdeg, hst, by rw [if_neg hdeg, if_pos hst]⟩)
    · refine Or.inr (Or.inr ⟨Int.not_le.mp hdeg, Int.not_le.mp hst, ?_⟩)
      simp only [if_neg hdeg, if_neg hst]
      cases hprev : prev.state with
      | ok => exact Or.inl ⟨rfl, by simp, by simp⟩
      | stale => exact Or.inr ⟨rfl, by simp⟩
      | degraded => exact Or.inr ⟨rfl, by simp⟩
      | restored =>
          by_cases hheld : cfg.restoredHold ≤ now.sub prev.restoredSince
          · exact Or.inl ⟨by simp only [if_pos hheld], by simp, by simp⟩
          · exact Or.inr ⟨by simp only [if_neg hheld], by simp⟩
      | gone => exact Or.inl ⟨rfl, by simp, by simp⟩

end Selfheal
end VpnPi
