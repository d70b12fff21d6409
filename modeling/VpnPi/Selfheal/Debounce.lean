import Mathlib.Data.Int.Order.Basic
import Mathlib.Order.MinMax
import VpnPi.Selfheal.Loop

/-!
# `Selfheal.Debounce` — the recovery of a peer over a run of `Step`

`Heal.step` keeps one memo for each peer, in which a hold carries the time it started. Over a run in which each
call gets the memo of the one before, the memo of a peer that went back to healthy is a function of the time since
(`memo_recovered`): `restored` until `RestoredHold` has passed, `ok` from then on.

* `recovery_debounced` — the state reported for a peer at every tick, from its handshake ages alone.
-/

namespace VpnPi
namespace Selfheal

open Js

/-! ## Runs of `Step` -/

/-- What one call of `Step` is given. -/
structure Cycle where
  now   : Time
  peers : List PeerState

/-- The memo that call `m` gets: the first one, then always what the call before returned. -/
def memoBefore (cfg : Config) (memo : Memo) (ticks : Nat → Cycle) : Nat → Memo
  | 0 => memo
  | m + 1 => (Heal.step (ticks m).now (ticks m).peers (memoBefore cfg memo ticks m) cfg).2

def statusesAt (cfg : Config) (memo : Memo) (ticks : Nat → Cycle) (m : Nat) : List PeerStatus :=
  (Heal.step (ticks m).now (ticks m).peers (memoBefore cfg memo ticks m) cfg).1

/-- The states that the statuses give for a key. -/
def reported (statuses : List PeerStatus) (key : JsString) : List State :=
  (statuses.filter fun s => s.peer = key).map PeerStatus.state

/-- The key is in the snapshot once, with the peer `p`. -/
def Cycle.Once (c : Cycle) (key : JsString) (p : PeerState) : Prop :=
  c.peers.filter (fun q => q.publicKey = key) = [p]

/-- The age of the handshake is past one of the thresholds. -/
def Unhealthy (cfg : Config) (now : Time) (p : PeerState) : Prop :=
  min cfg.staleAfter cfg.degradedAfter ≤ p.staleness now

instance unhealthyDecidable (cfg : Config) (now : Time) (p : PeerState) : Decidable (Unhealthy cfg now p) :=
  inferInstanceAs (Decidable (min cfg.staleAfter cfg.degradedAfter ≤ p.staleness now))

/-- Up to call `n` the times are read from one clock (all with a monotonic reading, or all without) that does not go
    back. -/
def Steady (ticks : Nat → Cycle) (n : Nat) : Prop :=
  ∀ m m', m ≤ m' → m' ≤ n →
    (ticks m).now.mono.isSome = (ticks m').now.mono.isSome ∧ (ticks m).now.after (ticks m').now = false

/-! ## One step -/

variable {cfg : Config} {now since : Time} {p : PeerState} {prev : PeerMemo}

theorem unhealthy_iff : Unhealthy cfg now p ↔ cfg.staleAfter ≤ p.staleness now ∨ cfg.degradedAfter ≤ p.staleness now :=
  min_le_iff

theorem stepPeer_unhealthy (h : Unhealthy cfg now p) : stepPeer now p prev cfg
    = ⟨if cfg.degradedAfter ≤ p.staleness now then .degraded else .stale, .zero⟩ := by
  unfold stepPeer
  by_cases hdeg : cfg.degradedAfter ≤ p.staleness now
  · simp only [if_pos hdeg]
  · -- below `DegradedAfter`, so it is `StaleAfter` that the age is past
    have hstale : cfg.staleAfter ≤ p.staleness now := (unhealthy_iff.mp h).resolve_right hdeg
    simp only [if_neg hdeg, if_pos hstale]

theorem stepPeer_healthy (h : ¬Unhealthy cfg now p) : stepPeer now p prev cfg
    = match prev.state with
      | .stale | .degraded => ⟨.restored, now⟩
      | .restored =>
          if cfg.restoredHold ≤ now.sub prev.restoredSince then ⟨.ok, .zero⟩ else ⟨.restored, prev.restoredSince⟩
      | _ => ⟨.ok, .zero⟩ := by
  have hdeg : ¬cfg.degradedAfter ≤ p.staleness now := fun hle => h (unhealthy_iff.mpr (.inr hle))
  have hstale : ¬cfg.staleAfter ≤ p.staleness now := fun hle => h (unhealthy_iff.mpr (.inl hle))
  unfold stepPeer
  cases prev.state <;> simp only [if_neg hdeg, if_neg hstale]

theorem Unhealthy.not_ok (h : Unhealthy cfg now p) :
    (stepPeer now p prev cfg).state = .stale ∨ (stepPeer now p prev cfg).state = .degraded := by
  rw [stepPeer_unhealthy h]
  by_cases hdeg : cfg.degradedAfter ≤ p.staleness now
  · exact .inr (if_pos hdeg)
  · exact .inl (if_neg hdeg)

/-- Time since an earlier reading does not shrink. -/
theorem Time.sub_mono {s t u : Time} (hs : s.mono.isSome = t.mono.isSome) (ht : t.mono.isSome = u.mono.isSome)
    (h : t.after u = false) : t.sub s ≤ u.sub s := by
  have hle : (Time.readings t u).1 ≤ (Time.readings t u).2 := Int.not_lt.mp (of_decide_eq_false h)
  have hdiff : (Time.readings t s).1 - (Time.readings t s).2 ≤ (Time.readings u s).1 - (Time.readings u s).2 := by
    unfold Time.readings at hle ⊢
    cases hsm : s.mono <;> cases htm : t.mono <;> cases hum : u.mono <;> simp_all
  exact max_le_max_left _ (min_le_min_left _ hdiff)

/-! ## One key -/

variable {memo : Memo} {ticks : Nat → Cycle} {key : JsString} {m i n : Nat}

/-- What a call leaves in the memo of a key. -/
theorem memoBefore_succ (h : (ticks m).Once key p) : (memoBefore cfg memo ticks (m + 1)).at_ key
    = stepPeer (ticks m).now p ((memoBefore cfg memo ticks m).at_ key) cfg := by
  have hmem : ∀ q, q ∈ (ticks m).peers ∧ q.publicKey = key ↔ q = p := by
    intro q
    have hq := congrArg (q ∈ ·) h
    simpa using hq
  obtain ⟨hp, hkey⟩ := (hmem p).mpr rfl
  have hget : (memoBefore cfg memo ticks (m + 1)).get key
      = some (memoOf (ticks m).now (memoBefore cfg memo ticks m) cfg p) := by
    apply OrdMap.get_ofEntries_unique
    · exact List.mem_map.mpr ⟨p, hp, by rw [hkey]⟩
    · intro w hw
      obtain ⟨q, hq, heq⟩ := List.mem_map.mp hw
      obtain ⟨hqkey, rfl⟩ := Prod.mk.inj heq
      rw [(hmem q).mp ⟨hq, hqkey⟩]
  rw [Memo.at_, hget, memoOf, hkey]
  rfl

theorem reported_statusesAt (h : (ticks m).Once key p) : reported (statusesAt cfg memo ticks m) key
    = [((memoBefore cfg memo ticks (m + 1)).at_ key).state] := by
  have hp : p.publicKey = key := by
    have hmem : p ∈ (ticks m).peers.filter (fun q => q.publicKey = key) := h ▸ List.mem_singleton_self p
    exact of_decide_eq_true (List.mem_filter.mp hmem).2
  have hfilter : ((ticks m).peers.filter fun q => (statusOf (ticks m).now (memoBefore cfg memo ticks m) cfg q).peer = key)
      = [p] := h
  rw [memoBefore_succ h, reported, statusesAt, Heal.step, List.filter_map]
  show List.map _ (List.map _ ((ticks m).peers.filter _)) = _
  rw [Function.comp_def, hfilter]
  show [(memoOf _ _ cfg p).state] = _
  rw [memoOf, hp]

/-! ## From the first healthy tick on -/

/-- The memo `since` the first healthy tick. -/
def recovered (cfg : Config) (ticks : Nat → Cycle) (k m : Nat) : PeerMemo :=
  if m = k ∨ (ticks m).now.sub (ticks k).now < cfg.restoredHold then ⟨.restored, (ticks k).now⟩ else ⟨.ok, .zero⟩

/-- **The hold, followed tick by tick.** -/
theorem memo_recovered {p : Nat → PeerState} (hsteady : Steady ticks n) (honce : ∀ m, i ≤ m → m ≤ n → (ticks m).Once key (p m))
    (hlast : Unhealthy cfg (ticks i).now (p i)) (hhealthy : ∀ m, i < m → m ≤ n → ¬Unhealthy cfg (ticks m).now (p m))
    (him : i < m) (hmn : m ≤ n) :
    (memoBefore cfg memo ticks (m + 1)).at_ key = recovered cfg ticks (i + 1) m := by
  -- by induction on the ticks since the recovery; the memo of the tick before decides each
  induction m, him using Nat.le_induction with
  | base =>
      have hbefore : (memoBefore cfg memo ticks (i + 1)).at_ key = _ :=
        memoBefore_succ (honce i (Nat.le_refl i) (by omega))
      have hfirst : recovered cfg ticks (i + 1) (i + 1) = ⟨.restored, (ticks (i + 1)).now⟩ := if_pos (.inl rfl)
      rw [memoBefore_succ (honce (i + 1) (by omega) hmn), stepPeer_healthy (hhealthy (i + 1) (by omega) hmn), hbefore,
        hfirst]
      rcases hlast.not_ok with hstate | hstate
      · rw [hstate]
      · rw [hstate]
  | succ m him ih =>
      have hprev := ih (by omega)
      rw [memoBefore_succ (honce (m + 1) (by omega) hmn), stepPeer_healthy (hhealthy (m + 1) (by omega) hmn), hprev]
      unfold recovered
      by_cases hheld : m = i + 1 ∨ (ticks m).now.sub (ticks (i + 1)).now < cfg.restoredHold
      · -- the hold was on: it ends when its time has passed
        rw [if_pos hheld]
        by_cases hover : cfg.restoredHold ≤ (ticks (m + 1)).now.sub (ticks (i + 1)).now
        · have hend : ¬(m + 1 = i + 1 ∨ (ticks (m + 1)).now.sub (ticks (i + 1)).now < cfg.restoredHold) :=
            not_or.mpr ⟨by omega, Int.not_lt.mpr hover⟩
          simp only [if_pos hover, if_neg hend]
        · have hon : m + 1 = i + 1 ∨ (ticks (m + 1)).now.sub (ticks (i + 1)).now < cfg.restoredHold :=
            .inr (Int.not_le.mp hover)
          simp only [if_neg hover, if_pos hon]
      · -- the hold was over, and time does not go back
        rw [if_neg hheld]
        have hclock := hsteady (i + 1) m him (by omega)
        have hstep := hsteady m (m + 1) (Nat.le_succ m) hmn
        have hgrows := Time.sub_mono hclock.1 hstep.1 hstep.2
        have hpast : cfg.restoredHold ≤ (ticks m).now.sub (ticks (i + 1)).now := Int.not_lt.mp (not_or.mp hheld).2
        have hend : ¬(m + 1 = i + 1 ∨ (ticks (m + 1)).now.sub (ticks (i + 1)).now < cfg.restoredHold) :=
          not_or.mpr ⟨by omega, Int.not_lt.mpr (hpast.trans hgrows)⟩
        rw [if_neg hend]

/-- **The recovery debounce is exact.** A peer that is past a threshold at tick `i` and below both from then on is
    reported `restored` at the first healthy tick and until `RestoredHold` has passed since, and `ok` after that; an
    unhealthy peer is reported by its age. -/
theorem recovery_debounced (cfg : Config) (memo : Memo) (ticks : Nat → Cycle) (key : JsString) (p : Nat → PeerState)
    {i n : Nat} (hsteady : Steady ticks n) (honce : ∀ m, i ≤ m → m ≤ n → (ticks m).Once key (p m))
    (hlast : Unhealthy cfg (ticks i).now (p i)) (hhealthy : ∀ m, i < m → m ≤ n → ¬Unhealthy cfg (ticks m).now (p m)) :
    (∀ m, i < m → m ≤ n → reported (statusesAt cfg memo ticks m) key
      = [if m = i + 1 ∨ (ticks m).now.sub (ticks (i + 1)).now < cfg.restoredHold then .restored else .ok]) ∧
    (∀ m q, (ticks m).Once key q → Unhealthy cfg (ticks m).now q → reported (statusesAt cfg memo ticks m) key
      = [if cfg.degradedAfter ≤ q.staleness (ticks m).now then .degraded else .stale]) := by
  constructor
  · intro m him hmn
    rw [reported_statusesAt (honce m (Nat.le_of_lt him) hmn), memo_recovered hsteady honce hlast hhealthy him hmn,
      recovered, apply_ite PeerMemo.state]
  · intro m q hq hage
    rw [reported_statusesAt hq, memoBefore_succ hq, stepPeer_unhealthy hage]

/-! ## `sirius` handshakes at noon and is read every ten seconds from then on -/

/-- Before its first handshake at tick 0, after it from tick 1 on. -/
def siriusAt (m : Nat) : PeerState := if m = 0 then { sirius with lastHandshake := .zero } else sirius

def everyTen (m : Nat) : Cycle := ⟨Reading.time ⟨noon.wall + 10 * second * m, noon.mono + 10 * second * m⟩, [siriusAt m]⟩

theorem everyTen_steady (n : Nat) : Steady everyTen n := by
  intro m m' hle _
  refine ⟨rfl, decide_eq_false (Int.not_lt.mpr ?_)⟩
  show noon.mono + 10 * second * m ≤ noon.mono + 10 * second * m'
  have hsecond : (0 : Int) ≤ 10 * second := by decide
  have hm : (m : Int) ≤ m' := Int.ofNat_le.mpr hle
  exact Int.add_le_add_left (Int.mul_le_mul_of_nonneg_left hm hsecond) _

theorem everyTen_once (m : Nat) : (everyTen m).Once sirius.publicKey (siriusAt m) := by
  unfold siriusAt Cycle.Once everyTen siriusAt
  split
  · rfl
  · rfl

theorem everyTen_healthy {m : Nat} (hm : 0 < m) (hle : m ≤ 4) :
    ¬Unhealthy defaultConfig (everyTen m).now (siriusAt m) := by
  obtain rfl | rfl | rfl | rfl : m = 1 ∨ m = 2 ∨ m = 3 ∨ m = 4 := by omega
  all_goals decide +kernel

/-- It is `restored` for thirty seconds and then `ok`. -/
theorem sirius_recovers :
    reported (statusesAt defaultConfig .empty everyTen 0) sirius.publicKey = [.degraded] ∧
    reported (statusesAt defaultConfig .empty everyTen 1) sirius.publicKey = [.restored] ∧
    reported (statusesAt defaultConfig .empty everyTen 3) sirius.publicKey = [.restored] ∧
    reported (statusesAt defaultConfig .empty everyTen 4) sirius.publicKey = [.ok] := by
  have hlast : Unhealthy defaultConfig (everyTen 0).now (siriusAt 0) := by decide +kernel
  obtain ⟨hheld, haged⟩ := recovery_debounced defaultConfig .empty everyTen sirius.publicKey siriusAt (everyTen_steady 4)
    (fun m _ _ => everyTen_once m) hlast (fun _ => everyTen_healthy)
  refine ⟨?_, ?_, ?_, ?_⟩
  · rw [haged 0 _ (everyTen_once 0) hlast]
    decide +kernel
  · rw [hheld 1 (by decide) (by decide)]
    decide +kernel
  · rw [hheld 3 (by decide) (by decide)]
    decide +kernel
  · rw [hheld 4 (by decide) (by decide)]
    decide +kernel

end Selfheal
end VpnPi
