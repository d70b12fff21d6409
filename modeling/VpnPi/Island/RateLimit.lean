import VpnPi.Js.OrdMap
import VpnPi.Js.Text

/-!
# `Island.RateLimit` — failed attempts per address (`core/ratelimit.ts`)

Every operation reads the clock itself, so each reading is an argument. `attempts` is what a key's list of
failures holds; the lemmas say what each operation does to it, for its own key and for the others.
-/

namespace VpnPi
namespace Island

open Js

structure AttemptLimiter where
  max      : Nat
  windowMs : Int
  /-- Key (IP) → recent failure timestamps. -/
  hits     : OrdMap JsString (List Int) := .empty

namespace AttemptLimiter

def recent (key : JsString) (now : Int) (lim : AttemptLimiter) : List Int × AttemptLimiter :=
  let cutoff := now - lim.windowMs
  let kept := ((lim.hits.get key).getD []).filter fun t => t > cutoff
  (kept, { lim with hits := if kept.length > 0 then lim.hits.set key kept else lim.hits.delete key })

def locked (key : JsString) (now : Int) (lim : AttemptLimiter) : Bool × AttemptLimiter :=
  let (kept, lim) := lim.recent key now
  (kept.length ≥ lim.max, lim)

/-- `now` is the reading of `recent`, `at_` the one that is recorded. -/
def fail (key : JsString) (now at_ : Int) (lim : AttemptLimiter) : AttemptLimiter :=
  let (a, lim) := lim.recent key now
  { lim with hits := lim.hits.set key (a ++ [at_]) }

def reset (key : JsString) (lim : AttemptLimiter) : AttemptLimiter :=
  { lim with hits := lim.hits.delete key }

/-! ## The recorded failures -/

/-- The failures recorded for a key. -/
def attempts (lim : AttemptLimiter) (key : JsString) : List Int := (lim.hits.get key).getD []

theorem attempts_recent (lim : AttemptLimiter) (key key' : JsString) (now : Int) :
    (lim.recent key now).2.attempts key' =
      if key' = key then (lim.attempts key).filter (fun t => t > now - lim.windowMs)
      else lim.attempts key' := by
  unfold recent attempts
  dsimp only
  split
  · next hpos =>
      rw [OrdMap.get_set]
      split
      · rfl
      · rfl
  · next hpos =>
      rw [OrdMap.get_delete]
      split
      · -- nothing was kept
        exact (List.length_eq_zero_iff.mp (by omega)).symm
      · rfl

@[simp] theorem windowMs_recent (lim : AttemptLimiter) (key : JsString) (now : Int) :
    (lim.recent key now).2.windowMs = lim.windowMs := rfl

theorem attempts_fail (lim : AttemptLimiter) (key key' : JsString) (now at_ : Int) :
    (lim.fail key now at_).attempts key' =
      if key' = key then (lim.attempts key).filter (fun t => t > now - lim.windowMs) ++ [at_]
      else lim.attempts key' := by
  have hrecent := attempts_recent lim key key' now
  unfold fail attempts at *
  dsimp only
  rw [OrdMap.get_set]
  split
  · rfl
  · next hne => rw [hrecent, if_neg hne]

theorem attempts_reset_ne {lim : AttemptLimiter} {key key' : JsString} (h : key' ≠ key) :
    (lim.reset key).attempts key' = lim.attempts key' := by
  unfold reset attempts
  rw [OrdMap.get_delete_ne h]

/-- How many failures lie after an instant. -/
def since (lim : AttemptLimiter) (key : JsString) (start : Int) : Nat :=
  (lim.attempts key).countP fun t => t > start

/-- Pruning at a reading within a window's length of `start` keeps what lies after `start`. -/
theorem since_recent {lim : AttemptLimiter} (key : JsString) {start now : Int}
    (h : now - lim.windowMs ≤ start) : (lim.recent key now).2.since key start = lim.since key start := by
  unfold since
  rw [attempts_recent, if_pos rfl, List.countP_filter]
  refine List.countP_congr (fun t _ => ?_)
  simp only [Bool.and_eq_true, decide_eq_true_eq]
  constructor
  · exact fun hb => hb.1
  · intro ht
    exact ⟨ht, by omega⟩

/-- A key that is not locked has fewer than `max` failures after `start`. -/
theorem since_lt_max {lim : AttemptLimiter} {key : JsString} {start now : Int}
    (h : now - lim.windowMs ≤ start) (hlocked : (lim.locked key now).1 = false) :
    lim.since key start < lim.max := by
  have hlen : ((lim.attempts key).filter fun t => t > now - lim.windowMs).length < lim.max := by
    have hle := of_decide_eq_false (show decide (_ ≥ lim.max) = false from hlocked)
    exact Nat.lt_of_not_le hle
  refine Nat.lt_of_le_of_lt ?_ hlen
  unfold since
  rw [← List.countP_eq_length_filter]
  refine List.countP_mono_left (fun t _ ht => ?_)
  simp only [decide_eq_true_eq] at ht ⊢
  omega

theorem since_fail {lim : AttemptLimiter} {key : JsString} {start now at_ : Int}
    (h : now - lim.windowMs ≤ start) (hat : start < at_) :
    (lim.fail key now at_).since key start = lim.since key start + 1 := by
  have hprune := since_recent key h
  unfold since at *
  rw [attempts_recent, if_pos rfl] at hprune
  rw [attempts_fail, if_pos rfl, List.countP_append, hprune, List.countP_singleton]
  simp [hat]

theorem since_fail_ne {lim : AttemptLimiter} {key key' : JsString} {start now at_ : Int} (h : key' ≠ key) :
    (lim.fail key now at_).since key' start = lim.since key' start := by
  unfold since
  rw [attempts_fail, if_neg h]

theorem since_recent_ne (lim : AttemptLimiter) {key key' : JsString} {start : Int} (now : Int) (h : key' ≠ key) :
    (lim.recent key now).2.since key' start = lim.since key' start := by
  unfold since
  rw [attempts_recent, if_neg h]

theorem since_reset_ne {lim : AttemptLimiter} {key key' : JsString} {start : Int} (h : key' ≠ key) :
    (lim.reset key).since key' start = lim.since key' start := by
  unfold since
  rw [attempts_reset_ne h]

end AttemptLimiter

end Island
end VpnPi
