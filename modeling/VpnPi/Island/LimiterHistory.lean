import VpnPi.Async.Service
import VpnPi.Island.RateLimit

/-!
# `Island.LimiterHistory` — the limiter against its full history (`core/ratelimit.ts`)

`FullHistory` is what the limiter is for: per key, the times of all failures since the last reset, and nothing is ever
pruned. Every method of the limiter prunes, at a reading of the clock; what it drops is too old for that reading, and so
for every later one (`Agrees`). On a clock that never goes back the two give the same answers (`limiter_refines`).
-/

namespace VpnPi
namespace Island

open Js Async

/-! ## Calls -/

/-- A call, with what it reads on the clock; `fail` reads it twice, and records the second reading. -/
inductive LimiterCall where
  | locked (key : JsString) (now : Int)
  | fail (key : JsString) (now at_ : Int)
  | reset (key : JsString)

namespace LimiterCall

def readings : LimiterCall → List Int
  | locked _ now => [now]
  | fail _ now at_ => [now, at_]
  | reset _ => []

def key : LimiterCall → JsString
  | locked key _ => key
  | fail key _ _ => key
  | reset key => key

end LimiterCall

/-- The clock never goes back. -/
def Ticking (calls : List LimiterCall) : Prop := (calls.flatMap LimiterCall.readings).Pairwise (· ≤ ·)

/-- Only `locked` has an answer. -/
def AttemptLimiter.call : Service AttemptLimiter LimiterCall (Option Bool)
  | lim, .locked key now => (some (lim.locked key now).1, (lim.locked key now).2)
  | lim, .fail key now at_ => (none, lim.fail key now at_)
  | lim, .reset key => (none, lim.reset key)

/-! ## The specification -/

/-- All failures of each key since its last reset. -/
structure FullHistory where
  max      : Nat
  windowMs : Int
  failures : JsString → List Int := fun _ => []

namespace FullHistory

/-- How many failures of the key lie within the window at `now`. -/
def recent (h : FullHistory) (key : JsString) (now : Int) : Nat := (h.failures key).countP fun t => t > now - h.windowMs

def call : Service FullHistory LimiterCall (Option Bool)
  | h, .locked key now => (some (h.recent key now ≥ h.max), h)
  | h, .fail key _ at_ => (none, { h with failures := Function.update h.failures key (h.failures key ++ [at_]) })
  | h, .reset key => (none, { h with failures := Function.update h.failures key [] })

end FullHistory

variable {max : Nat} {windowMs : Int} {calls : List LimiterCall} {lim : AttemptLimiter} {h : FullHistory}

/-! ## What a key does to another -/

theorem FullHistory.call_bounds (h : FullHistory) (c : LimiterCall) :
    (h.call c).2.max = h.max ∧ (h.call c).2.windowMs = h.windowMs := by
  cases c with
  | locked => exact ⟨rfl, rfl⟩
  | fail => exact ⟨rfl, rfl⟩
  | reset => exact ⟨rfl, rfl⟩

theorem FullHistory.after_bounds (h : FullHistory) (calls : List LimiterCall) :
    (after FullHistory.call h calls).max = h.max ∧ (after FullHistory.call h calls).windowMs = h.windowMs := by
  refine after_invariant (I := fun h' : FullHistory => h'.max = h.max ∧ h'.windowMs = h.windowMs) (fun h' c hh' => ?_) ⟨rfl, rfl⟩ calls
  obtain ⟨hmax, hwindow⟩ := h'.call_bounds c
  exact ⟨hmax.trans hh'.1, hwindow.trans hh'.2⟩

/-- A call changes the failures of its own key only. -/
theorem FullHistory.call_failures_ne (h : FullHistory) {c : LimiterCall} {key : JsString} (hne : c.key ≠ key) :
    (h.call c).2.failures key = h.failures key := by
  cases c with
  | locked => rfl
  | fail => exact Function.update_of_ne hne.symm ..
  | reset => exact Function.update_of_ne hne.symm ..

/-- What a call does to the failures of its own key depends on these alone. -/
theorem FullHistory.call_failures_congr {h h' : FullHistory} {key : JsString} (heq : h.failures key = h'.failures key)
    (c : LimiterCall) : (h.call c).2.failures key = (h'.call c).2.failures key := by
  by_cases hkey : c.key = key
  · cases c with
    | locked => exact heq
    | fail key' now at_ =>
        obtain rfl : key' = key := hkey
        show Function.update _ _ _ _ = Function.update _ _ _ _
        rw [Function.update_self, Function.update_self, heq]
    | reset key' =>
        obtain rfl : key' = key := hkey
        show Function.update _ _ _ _ = Function.update _ _ _ _
        rw [Function.update_self, Function.update_self]
  · rw [h.call_failures_ne hkey, h'.call_failures_ne hkey, heq]

/-- **Calls on other keys** leave no trace in the failures of a key. -/
theorem FullHistory.after_own (h h' : FullHistory) {key : JsString} (heq : h.failures key = h'.failures key)
    (calls : List LimiterCall) : (after FullHistory.call h calls).failures key =
      (after FullHistory.call h' (calls.filter fun c => c.key = key)).failures key := by
  induction calls generalizing h h' with
  | nil => exact heq
  | cons c calls ih =>
      by_cases hkey : c.key = key
      · rw [List.filter_cons_of_pos (by simpa using hkey)]
        exact ih _ _ (FullHistory.call_failures_congr heq c)
      · rw [List.filter_cons_of_neg (by simpa using hkey)]
        exact ih _ _ ((h.call_failures_ne hkey).trans heq)

/-! ## What pruning keeps -/

/-- From any instant on that no reading's window has passed, the limiter has what the history has. -/
structure Agrees (readings : List Int) (lim : AttemptLimiter) (h : FullHistory) : Prop where
  max      : lim.max = h.max
  windowMs : lim.windowMs = h.windowMs
  since    : ∀ key start, (∀ r ∈ readings, r - lim.windowMs ≤ start) →
    lim.since key start = (h.failures key).countP fun t => t > start

theorem Agrees.new (max : Nat) (windowMs : Int) : Agrees [] ⟨max, windowMs, .empty⟩ ⟨max, windowMs, fun _ => []⟩ :=
  ⟨rfl, rfl, fun _ _ _ => rfl⟩

/-- One more failure, on both sides. -/
theorem AttemptLimiter.since_fail_self {key : JsString} {start now at_ : Int} (hle : now - lim.windowMs ≤ start) :
    (lim.fail key now at_).since key start = lim.since key start + [at_].countP fun t => t > start := by
  have hprune := AttemptLimiter.since_recent key hle
  unfold AttemptLimiter.since at *
  rw [AttemptLimiter.attempts_recent, if_pos rfl] at hprune
  rw [AttemptLimiter.attempts_fail, if_pos rfl, List.countP_append, hprune]

theorem AttemptLimiter.since_reset_self (lim : AttemptLimiter) (key : JsString) (start : Int) :
    (lim.reset key).since key start = 0 := by
  unfold AttemptLimiter.since AttemptLimiter.attempts AttemptLimiter.reset
  rw [OrdMap.get_delete_self]
  rfl

/-- **A call** keeps the agreement. -/
theorem Agrees.call {rs : List Int} (hagrees : Agrees rs lim h) (c : LimiterCall) :
    Agrees (rs ++ c.readings) (lim.call c).2 (h.call c).2 := by
  cases c with
  | locked key now =>
      refine ⟨hagrees.max, hagrees.windowMs, fun key' start hstart => ?_⟩
      obtain ⟨hrs, hnew⟩ := List.forall_mem_append.mp hstart
      have hnow : now - lim.windowMs ≤ start := hnew now (List.mem_singleton_self now)
      refine Eq.trans ?_ (hagrees.since key' start hrs)
      show (lim.recent key now).2.since key' start = _
      by_cases hkey : key' = key
      · subst hkey
        exact AttemptLimiter.since_recent key' hnow
      · exact AttemptLimiter.since_recent_ne lim now hkey
  | fail key now at_ =>
      refine ⟨hagrees.max, hagrees.windowMs, fun key' start hstart => ?_⟩
      obtain ⟨hrs, hnew⟩ := List.forall_mem_append.mp hstart
      have hnow : now - lim.windowMs ≤ start := hnew now (List.mem_cons_self ..)
      have hsince := hagrees.since key' start hrs
      show (lim.fail key now at_).since key' start =
        (Function.update h.failures key (h.failures key ++ [at_]) key').countP fun t => t > start
      by_cases hkey : key' = key
      · subst hkey
        rw [AttemptLimiter.since_fail_self hnow, hsince, Function.update_self, List.countP_append]
      · rw [AttemptLimiter.since_fail_ne hkey, hsince, Function.update_of_ne hkey]
  | reset key =>
      refine ⟨hagrees.max, hagrees.windowMs, fun key' start hstart => ?_⟩
      have hsince := hagrees.since key' start (List.forall_mem_append.mp hstart).1
      show (lim.reset key).since key' start = (Function.update h.failures key [] key').countP fun t => t > start
      by_cases hkey : key' = key
      · subst hkey
        rw [AttemptLimiter.since_reset_self, Function.update_self]
        rfl
      · rw [AttemptLimiter.since_reset_ne hkey, hsince, Function.update_of_ne hkey]

theorem Agrees.after {rs : List Int} (hagrees : Agrees rs lim h) (calls : List LimiterCall) :
    Agrees (rs ++ calls.flatMap LimiterCall.readings) (after AttemptLimiter.call lim calls)
      (after FullHistory.call h calls) := by
  induction calls generalizing rs lim h with
  | nil =>
      rw [List.flatMap_nil, List.append_nil]
      exact hagrees
  | cons c calls ih =>
      have hnext := ih (hagrees.call c)
      rwa [List.append_assoc, ← List.flatMap_cons] at hnext

/-- **What is kept** at a reading that no earlier one exceeds. -/
theorem Agrees.recent {rs : List Int} (hagrees : Agrees rs lim h) {key : JsString} {now : Int} (hrs : ∀ r ∈ rs, r ≤ now) :
    (lim.recent key now).1.length = h.recent key now := by
  have hsince := hagrees.since key (now - lim.windowMs) fun r hr => Int.sub_le_sub_right (hrs r hr) _
  show ((lim.attempts key).filter fun t => t > now - lim.windowMs).length = h.recent key now
  rw [← List.countP_eq_length_filter, FullHistory.recent, ← hagrees.windowMs, ← hsince]
  rfl

theorem AttemptLimiter.locked_eq (lim : AttemptLimiter) (key : JsString) (now : Int) :
    (lim.locked key now).1 = decide ((lim.recent key now).1.length ≥ lim.max) := rfl

theorem Ticking.before {pre post : List LimiterCall} {c : LimiterCall} (hclock : Ticking (pre ++ c :: post)) :
    ∀ r ∈ pre.flatMap LimiterCall.readings, ∀ r' ∈ c.readings, r ≤ r' := by
  unfold Ticking at hclock
  rw [List.flatMap_append, List.flatMap_cons] at hclock
  intro r hr r' hr'
  exact (List.pairwise_append.mp hclock).2.2 r hr r' (List.mem_append_left _ hr')

/-- **The limiter answers as the full history does**: on a clock that never goes back, whatever has been pruned, what is
    kept of a key are its failures within the window since its last reset, and it is locked exactly when these are at
    least `max`; what was called for other keys does not matter. -/
theorem limiter_refines (max : Nat) (windowMs : Int) {calls : List LimiterCall} (hclock : Ticking calls) :
    replies AttemptLimiter.call ⟨max, windowMs, .empty⟩ calls = replies FullHistory.call ⟨max, windowMs, fun _ => []⟩ calls ∧
    ∀ pre key now post, calls = pre ++ .locked key now :: post →
      let lim := after AttemptLimiter.call ⟨max, windowMs, .empty⟩ pre
      let own := after FullHistory.call ⟨max, windowMs, fun _ => []⟩ (pre.filter fun c => c.key = key)
      (lim.recent key now).1.length = (own.failures key).countP (fun t => t > now - windowMs) ∧
        (lim.locked key now).1 = decide ((own.failures key).countP (fun t => t > now - windowMs) ≥ max) := by
  have hrecent : ∀ pre key now post, calls = pre ++ .locked key now :: post →
      ((after AttemptLimiter.call ⟨max, windowMs, .empty⟩ pre).recent key now).1.length =
        (after FullHistory.call ⟨max, windowMs, fun _ => []⟩ pre).recent key now := by
    intro pre key now post heq
    have hagrees := (Agrees.new max windowMs).after pre
    rw [List.nil_append] at hagrees
    exact hagrees.recent fun r hr => (heq ▸ hclock).before r hr now (List.mem_singleton_self now)
  have hmax : ∀ pre, (after AttemptLimiter.call ⟨max, windowMs, .empty⟩ pre).max = max := fun pre =>
    ((Agrees.new max windowMs).after pre).max.trans (FullHistory.after_bounds _ pre).1
  constructor
  · refine replies_eq_iff.mpr fun pre c post heq => ?_
    cases c with
    | locked key now =>
        refine congrArg some ?_
        rw [AttemptLimiter.locked_eq, hrecent pre key now post heq, hmax, (FullHistory.after_bounds _ pre).1]
    | fail key now at_ => rfl
    | reset key => rfl
  · intro pre key now post heq lim own
    have hcount : (lim.recent key now).1.length = (own.failures key).countP (fun t => t > now - windowMs) := by
      rw [hrecent pre key now post heq, FullHistory.recent, (FullHistory.after_bounds _ pre).2,
        FullHistory.after_own _ ⟨max, windowMs, fun _ => []⟩ rfl pre]
    exact ⟨hcount, by rw [AttemptLimiter.locked_eq, hcount, hmax]⟩

/-- Two failures, and the window passes. -/
def agingCalls : List LimiterCall :=
  [.fail (js "10.42.0.9") 0 0, .fail (js "10.42.0.9") 1 1, .locked (js "10.42.0.9") 5, .locked (js "10.42.0.7") 5,
    .locked (js "10.42.0.9") 10]

theorem aging_refines : replies AttemptLimiter.call ⟨2, 10, .empty⟩ agingCalls
      = replies FullHistory.call ⟨2, 10, fun _ => []⟩ agingCalls ∧
    replies FullHistory.call ⟨2, 10, fun _ => []⟩ agingCalls = [none, none, some true, some false, some false] :=
  ⟨(limiter_refines 2 10 (show Ticking agingCalls by unfold Ticking; decide)).1, by decide⟩

end Island
end VpnPi
