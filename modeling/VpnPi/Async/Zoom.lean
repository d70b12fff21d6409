import VpnPi.Async.Task

/-!
# `Async.Zoom` — tasks on a part of the state, and what a task keeps

`zoom` runs a task on the part of a larger state that `get` reads and `set` replaces. `Keeps I` says that a task
writes only states with `I` as long as it reads only such states; whatever other code does at its suspensions is
then allowed to be anything that keeps `I` too.

Generic in the states; names nothing of the daemon.
-/

namespace VpnPi
namespace Async
namespace Task

variable {σ μ ε α β : Type} {I : σ → Prop}

/-! ## Invariants of a task -/

def Keeps (I : σ → Prop) : Task σ ε α → Prop
  | ret _ => True
  | throw _ => True
  | read k => ∀ s, I s → Keeps I (k s)
  | write s k => I s ∧ Keeps I k
  | await k => Keeps I k

/-- **A segment** keeps the invariant, and so does what it leaves. -/
theorem Keeps.segment {x : Task σ ε α} {s s' : σ} {o : Outcome σ ε α} (h : Keeps I x) (hs : I s)
    (hseg : x.segment s = (o, s')) : I s' ∧ ∀ y, o = .suspended y → Keeps I y := by
  induction x generalizing s with
  | ret a =>
      cases hseg
      exact ⟨hs, fun y hy => by cases hy⟩
  | throw e =>
      cases hseg
      exact ⟨hs, fun y hy => by cases hy⟩
  | read k ih => exact ih s (h s hs) hs hseg
  | write s₁ k ih => exact ih h.2 h.1 hseg
  | await k ih =>
      cases hseg
      refine ⟨hs, fun y hy => ?_⟩
      cases hy
      exact h

theorem keeps_get_bind {f : σ → Task σ ε β} (h : ∀ s, I s → Keeps I (f s)) : Keeps I (get >>= f) := h

theorem keeps_modify_bind {g : σ → σ} {f : Unit → Task σ ε β} (hg : ∀ s, I s → I (g s)) (hf : Keeps I (f ())) :
    Keeps I (modify g >>= f) := fun s hs => ⟨hg s hs, hf⟩

theorem keeps_yield_bind {f : Unit → Task σ ε β} (h : Keeps I (f ())) : Keeps I (yield >>= f) := h

theorem keeps_ofExcept_bind {x : Except ε α} {f : α → Task σ ε β} (h : ∀ a, x = .ok a → Keeps I (f a)) :
    Keeps I (ofExcept x >>= f) := by
  cases x with
  | ok a => exact h a rfl
  | error e => trivial

theorem keeps_awaiting_bind {x : Except ε α} {f : α → Task σ ε β} (h : ∀ a, x = .ok a → Keeps I (f a)) :
    Keeps I (awaiting x >>= f) := by
  cases x with
  | ok a => exact h a rfl
  | error e => trivial

theorem keeps_throwIf_bind {c : Prop} [Decidable c] {e : ε} {f : Unit → Task σ ε β} (h : ¬c → Keeps I (f ())) :
    Keeps I (throwIf c e >>= f) := by
  by_cases hc : c
  · rw [throwIf, if_pos hc]
    trivial
  · rw [throwIf, if_neg hc]
    exact h hc

/-! ## A part of the state -/

variable (get : μ → σ) (set : σ → μ → μ)

def zoom : Task σ ε α → Task μ ε α
  | ret a => ret a
  | throw e => throw e
  | read k => read fun m => zoom (k (get m))
  | write s k => read fun m => write (set s m) (zoom k)
  | await k => await (zoom k)

variable {get set}

theorem Keeps.zoom {J : μ → Prop} {x : Task σ ε α} (h : Keeps I x) (hget : ∀ m, J m → I (get m))
    (hset : ∀ m s, J m → I s → J (set s m)) : Keeps J (x.zoom get set) := by
  induction x with
  | ret a => trivial
  | throw e => trivial
  | read k ih => exact fun m hm => ih (get m) (h _ (hget m hm))
  | write s k ih => exact fun m hm => ⟨hset m s hm h.1, ih h.2⟩
  | await k ih => exact ih h

/-- On a lawful part the zoomed task, run alone, is the task run alone on the part. -/
theorem run_zoom {x : Task σ ε α} {m : μ} (hgs : ∀ s m, get (set s m) = s)
    (hss : ∀ s s' m, set s (set s' m) = set s m) (hsg : ∀ m, set (get m) m = m) :
    (x.zoom get set).run m = ((x.run (get m)).1, set (x.run (get m)).2 m) := by
  have key : ∀ s m, get m = s → (x.zoom get set).run m = ((x.run s).1, set (x.run s).2 m) := by
    induction x with
    | ret a =>
        intro s m hm
        rw [← hm]
        exact Prod.ext rfl (hsg m).symm
    | throw e =>
        intro s m hm
        rw [← hm]
        exact Prod.ext rfl (hsg m).symm
    | read k ih =>
        intro s m hm
        rw [← hm]
        exact ih (get m) (get m) m rfl
    | write s₁ k ih =>
        intro s m _
        have hk := ih s₁ (set s₁ m) (hgs s₁ m)
        rw [hss] at hk
        exact hk
    | await k ih => exact ih
  exact key _ m rfl

end Task
end Async
end VpnPi
