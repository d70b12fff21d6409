import Mathlib.Data.List.Induction
import VpnPi.Selfheal.Loop

/-!
# `Selfheal.Breaker` — the circuit breaker over whole runs

The breaker counts the attempts on record since `now - Window`, and `pruneHistory` drops at every tick what is
older than that. `recordsOf` is the record nothing was ever dropped from; pruned at a tick, it is what the
daemon's own history prunes to (`Unpruned`), so the daemon counts all its attempts, the failed ones included.
Hence `reassert_le`: in no window of length `Window` are there more than `MaxReResolve` of them for one peer.
-/

namespace VpnPi
namespace Selfheal

open Js Async

variable {f : Flags} {st st' : LoopState} {t : Tick}

/-! ## Attempts on record -/

/-- The record of every attempt of a run. -/
def recordsOf (tr : List Tick) : List ActionRecord :=
  tr.flatMap fun t => (callsOf t.out).map fun c => ⟨c.1, .reResolve, t.now.time⟩

/-- The calls of `ReassertEndpoint` for a peer at times in the half-open interval `(lo, hi]`. -/
def callCount (tr : List Tick) (peer : JsString) (lo hi : Int) : Nat :=
  ((tr.filter fun t => lo < t.now.mono ∧ t.now.mono ≤ hi).flatMap fun t => callsOf t.out).countP
    fun c => c.1 = peer

/-- The clock does not go back. -/
def Ascending (tr : List Tick) : Prop := tr.Pairwise fun t t' => t.now.mono ≤ t'.now.mono

theorem recordsOf_snoc (tr : List Tick) (t : Tick) :
    recordsOf (tr ++ [t]) = recordsOf tr ++ (callsOf t.out).map fun c => ⟨c.1, .reResolve, t.now.time⟩ := by
  unfold recordsOf
  rw [List.flatMap_append, List.flatMap_cons, List.flatMap_nil, List.append_nil]

theorem callCount_snoc (tr : List Tick) (t : Tick) (peer : JsString) (lo hi : Int) :
    callCount (tr ++ [t]) peer lo hi = callCount tr peer lo hi
      + if lo < t.now.mono ∧ t.now.mono ≤ hi then (callsOf t.out).countP (fun c => c.1 = peer) else 0 := by
  unfold callCount
  rw [List.filter_append, List.flatMap_append, List.countP_append]
  by_cases h : lo < t.now.mono ∧ t.now.mono ≤ hi
  · simp [h]
  · simp [h]

theorem callCount_mono {tr : List Tick} {lo hi lo' hi' : Int} (peer : JsString)
    (h : ∀ t ∈ tr, lo < t.now.mono ∧ t.now.mono ≤ hi → lo' < t.now.mono ∧ t.now.mono ≤ hi') :
    callCount tr peer lo hi ≤ callCount tr peer lo' hi' := by
  induction tr using List.reverseRecOn with
  | nil => exact Nat.le_refl _
  | append_singleton tr t ih =>
      rw [callCount_snoc, callCount_snoc]
      refine Nat.add_le_add (ih fun t ht => h t (List.mem_append_left _ ht)) ?_
      by_cases hin : lo < t.now.mono ∧ t.now.mono ≤ hi
      · rw [if_pos hin, if_pos (h t (by simp) hin)]
      · rw [if_neg hin]
        exact Nat.zero_le _

theorem mem_recordsOf {tr : List Tick} {r : ActionRecord} (h : r ∈ recordsOf tr) :
    ∃ t ∈ tr, ∃ c ∈ callsOf t.out, r = ⟨c.1, .reResolve, t.now.time⟩ := by
  obtain ⟨t, ht, hr⟩ := List.mem_flatMap.mp h
  obtain ⟨c, hc, rfl⟩ := List.mem_map.mp hr
  exact ⟨t, ht, c, hc, rfl⟩

theorem pruneHistory_append (h h' : List ActionRecord) (cutoff : Time) :
    pruneHistory (h ++ h') cutoff = pruneHistory h cutoff ++ pruneHistory h' cutoff := List.filter_append ..

theorem countRecent_append (h h' : List ActionRecord) (peer : JsString) (kind : ActionKind) (now : Time)
    (w : Duration) : countRecent (h ++ h') peer kind now w
      = countRecent h peer kind now w + countRecent h' peer kind now w := List.countP_append

/-- Pruning twice is pruning at the later time. -/
theorem prune_prune {tr : List Tick} {now now' : Reading} (h : now.mono ≤ now'.mono) (w : Duration) :
    pruneHistory (pruneHistory (recordsOf tr) (now.time.add (-w))) (now'.time.add (-w))
      = pruneHistory (recordsOf tr) (now'.time.add (-w)) := by
  unfold pruneHistory
  rw [List.filter_filter]
  refine List.filter_congr fun r hr => ?_
  obtain ⟨t, _, c, _, rfl⟩ := mem_recordsOf hr
  simp only [after_add_neg, Bool.and_eq_left_iff_imp, decide_eq_true_eq]
  intro hlt
  omega

/-- What the breaker counts over the full record. -/
theorem countRecent_recordsOf {tr : List Tick} {now : Reading} (h : ∀ t ∈ tr, t.now.mono ≤ now.mono)
    (peer : JsString) (w : Duration) :
    countRecent (pruneHistory (recordsOf tr) (now.time.add (-w))) peer .reResolve now.time w
      = callCount tr peer (now.mono - w) now.mono := by
  induction tr using List.reverseRecOn with
  | nil => rfl
  | append_singleton tr t ih =>
      rw [recordsOf_snoc, callCount_snoc, ← ih fun t ht => h t (List.mem_append_left _ ht), pruneHistory_append,
        countRecent_append]
      refine congrArg (countRecent _ _ _ _ _ + ·) ?_
      unfold countRecent pruneHistory
      rw [List.countP_filter, List.countP_map]
      by_cases hlt : now.mono - w < t.now.mono
      · rw [if_pos ⟨hlt, h t (by simp)⟩]
        refine List.countP_congr fun c _ => ?_
        simp [after_add_neg, hlt]
      · rw [if_neg fun h => hlt h.1, List.countP_eq_zero]
        intro c _
        simp [after_add_neg, hlt]

/-! ## The history -/

/-- Nothing that still counts has been dropped: pruned at a time that is not before a tick of the run, the
    history is the pruned record of all attempts. -/
def Unpruned (w : Duration) (tr : List Tick) (st : LoopState) : Prop :=
  ∀ now : Reading, (∀ t ∈ tr, t.now.mono ≤ now.mono) →
    pruneHistory st.history (now.time.add (-w)) = pruneHistory (recordsOf tr) (now.time.add (-w))

/-- In no window of the breaker's length are there more attempts than it allows. -/
def Limited (cfg : Config) (tr : List Tick) : Prop :=
  ∀ peer hi, callCount tr peer (hi - cfg.window) hi ≤ cfg.maxReResolve

theorem Step.unpruned {tr : List Tick} (h : Step f st t st') (hi : Unpruned f.cfg.window tr st)
    (hlast : ∀ t' ∈ tr, t'.now.mono ≤ t.now.mono) : Unpruned f.cfg.window (tr ++ [t]) st' := by
  intro now hnow
  have hlater : t.now.mono ≤ now.mono := hnow t (by simp)
  have hold : ∀ t' ∈ tr, t'.now.mono ≤ now.mono := fun t' ht => hnow t' (List.mem_append_left _ ht)
  rw [recordsOf_snoc, pruneHistory_append]
  rcases h.failed_or_read with ⟨_, _, rfl, hcalls, _⟩ | ⟨peers, _, ha⟩
  · rw [hcalls, hi now hold]
    exact (List.append_nil _).symm
  · rw [ha.history, pruneHistory_append, hi t.now hlast, prune_prune hlater]

/-- Distinct peers are asked once each. -/
theorem Advance.countP_calls_le {peers : List PeerState} (h : Advance f st t peers st')
    (hnd : (peers.map PeerState.publicKey).Nodup) (peer : JsString) :
    (callsOf t.out).countP (fun c => c.1 = peer) ≤ 1 := by
  have hcount := List.nodup_iff_count_le_one.mp (hnd.sublist h.calls_sublist) peer
  rw [List.count, List.countP_map] at hcount
  refine le_of_eq_of_le (List.countP_congr fun c _ => ?_) hcount
  simp

theorem Step.limited {tr : List Tick} (h : Step f st t st') (hd : t.Distinct)
    (hi : Unpruned f.cfg.window tr st) (hlast : ∀ t' ∈ tr, t'.now.mono ≤ t.now.mono)
    (hlim : Limited f.cfg tr) : Limited f.cfg (tr ++ [t]) := by
  intro peer hi'
  rw [callCount_snoc]
  by_cases hin : hi' - f.cfg.window < t.now.mono ∧ t.now.mono ≤ hi'
  · rw [if_pos hin]
    rcases h.failed_or_read with ⟨_, _, rfl, hcalls, _⟩ | ⟨peers, hread, ha⟩
    · rw [hcalls]
      exact hlim peer hi'
    · rcases Nat.eq_zero_or_pos ((callsOf t.out).countP fun c => c.1 = peer) with hz | hpos
      · rw [hz]
        exact hlim peer hi'
      · obtain ⟨c, hc, hpeer⟩ := List.countP_pos_iff.mp hpos
        obtain rfl := of_decide_eq_true hpeer
        obtain ⟨_, _, _, _, hlt⟩ := ha.mem_calls hc
        rw [hi t.now hlast, countRecent_recordsOf hlast] at hlt
        have hone := ha.countP_calls_le (hd peers hread) c.1
        -- the window ends at or after the tick, and nothing lies between the two ends
        have hsub : callCount tr c.1 (hi' - f.cfg.window) hi'
            ≤ callCount tr c.1 (t.now.mono - f.cfg.window) t.now.mono := by
          refine callCount_mono c.1 fun t' ht h => ⟨?_, hlast t' ht⟩
          omega
        omega
  · rw [if_neg hin]
    exact hlim peer hi'

/-- **The breaker holds over whole runs.** However the peers, the reads and the re-asserts go, in the window
    that ends at any tick there are at most `MaxReResolve` re-asserts of one peer. -/
theorem reassert_le (f : Flags) (hmax : 0 ≤ f.cfg.maxReResolve) {tr : List Tick} {st : LoopState}
    (run : Run (Step f) .empty tr st) (hd : ∀ t ∈ tr, t.Distinct) (hclock : Ascending tr)
    (peer : JsString) : ∀ t ∈ tr, callCount tr peer (t.now.mono - f.cfg.window) t.now.mono
      ≤ f.cfg.maxReResolve := by
  have hinv : Unpruned f.cfg.window tr st ∧ Limited f.cfg tr := by
    refine run.invariant (I := fun tr st => (∀ t ∈ tr, t.Distinct) → Ascending tr →
      Unpruned f.cfg.window tr st ∧ Limited f.cfg tr) ?_ ?_ hd hclock
    · intro _ _
      exact ⟨fun _ _ => rfl, fun _ _ => hmax⟩
    · intro tr st t st' _ ih h hd hclock
      obtain ⟨hpast, _, hlast⟩ := List.pairwise_append.mp hclock
      have hlast : ∀ t' ∈ tr, t'.now.mono ≤ t.now.mono := fun t' ht => hlast t' ht t (by simp)
      obtain ⟨hun, hlim⟩ := ih (fun t ht => hd t (List.mem_append_left _ ht)) hpast
      exact ⟨h.unpruned hun hlast, h.limited (hd t (by simp)) hun hlast hlim⟩
  exact fun t _ => hinv.2 peer t.now.mono

theorem outage_distinct : ∀ t ∈ (ticks spoke quiet outage .empty).1, t.Distinct := by
  refine ticks_distinct fun i hi peers hread => ?_
  obtain ⟨s, _, rfl⟩ := List.mem_map.mp hi
  cases hread
  exact List.nodup_singleton _

theorem outage_ascending : Ascending (ticks spoke quiet outage .empty).1 := by
  refine List.pairwise_map.mp (?_ : ((ticks spoke quiet outage .empty).1.map fun t => t.now.mono).Pairwise (· ≤ ·))
  exact (by decide : ([60000000000, 240000000000, 270000000000, 300000000000, 330000000000] : List Int).Pairwise
    (· ≤ ·))

/-- The daemon re-asserts `sirius` three times in ten minutes, and no more. -/
theorem outage_limited : ∃ t ∈ (ticks spoke quiet outage .empty).1, t.now.mono = noon.mono + 270 * second ∧
    callCount (ticks spoke quiet outage .empty).1 sirius.publicKey (t.now.mono - 600 * second) t.now.mono
      ≤ (3 : Int) := by
  have hlast : ∃ t ∈ (ticks spoke quiet outage .empty).1, t.now.mono = noon.mono + 270 * second :=
    ⟨_, List.getLast_mem (show (ticks spoke quiet outage .empty).1 ≠ [] from nofun), rfl⟩
  obtain ⟨t, ht, hnow⟩ := hlast
  exact ⟨t, ht, hnow, reassert_le spoke (by decide) (run_of_ticks spoke quiet outage) outage_distinct
    outage_ascending sirius.publicKey t ht⟩

end Selfheal
end VpnPi
