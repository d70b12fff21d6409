import Mathlib.Data.List.Basic

/-!
# `Async.Task` — `async` functions over a shared state

A single-threaded runtime runs the code between two `await`s without interruption and may run anything else
at an `await`. `Task σ ε α` is the body of an `async` function in that reading: it reads and writes a state
of type `σ`, may throw an `ε`, may suspend, and ends with an `α`. A write that happened before a throw stays.

Two meanings of one body:

* `run` — nothing else runs: the suspensions are skipped;
* `segment` — run up to the next suspension, and say what is left.

`run_eq_segment` ties them together: running to the end is running one segment and then the rest.
Generic in the state, error and result; names nothing of the daemon.
-/

namespace VpnPi
namespace Async

inductive Task (σ ε α : Type) where
  | ret (a : α)
  | throw (e : ε)
  | read (k : σ → Task σ ε α)
  | write (s : σ) (k : Task σ ε α)
  | await (k : Task σ ε α)

namespace Task

variable {σ ε α β : Type}

/-! ## Building tasks -/

def bind : Task σ ε α → (α → Task σ ε β) → Task σ ε β
  | ret a, f => f a
  | throw e, _ => throw e
  | read k, f => read fun s => bind (k s) f
  | write s k, f => write s (bind k f)
  | await k, f => await (bind k f)

instance : Monad (Task σ ε) where
  pure := ret
  bind := bind

def get : Task σ ε σ := read ret

def modify (f : σ → σ) : Task σ ε Unit := read fun s => write (f s) (ret ())

/-- `await` on nothing in particular: let others run. -/
def yield : Task σ ε Unit := await (ret ())

def throwIf (c : Prop) [Decidable c] (e : ε) : Task σ ε Unit := if c then throw e else ret ()

/-- Synchronous code that touches no shared state. -/
def ofExcept : Except ε α → Task σ ε α
  | .ok a => ret a
  | .error e => throw e

/-- `await f(..)` for an `async` `f` that touches no shared state. -/
def awaiting (x : Except ε α) : Task σ ε α := await (ofExcept x)

/-! ## Running alone -/

def run : Task σ ε α → σ → Except ε α × σ
  | ret a, s => (.ok a, s)
  | throw e, s => (.error e, s)
  | read k, s => run (k s) s
  | write s' k, _ => run k s'
  | await k, s => run k s

@[simp] theorem run_pure (a : α) (s : σ) : run (pure a : Task σ ε α) s = (.ok a, s) := rfl
@[simp] theorem run_throw (e : ε) (s : σ) : run (throw e : Task σ ε α) s = (.error e, s) := rfl

theorem run_bind (x : Task σ ε α) (f : α → Task σ ε β) (s : σ) :
    run (x >>= f) s =
      match run x s with
      | (.ok a, s') => run (f a) s'
      | (.error e, s') => (.error e, s') := by
  show run (bind x f) s = _
  induction x generalizing s with
  | ret a => rfl
  | throw e => rfl
  | read k ih => exact ih s s
  | write s' k ih => exact ih s'
  | await k ih => exact ih s

@[simp] theorem run_get_bind (f : σ → Task σ ε β) (s : σ) : run (get >>= f) s = run (f s) s := rfl

@[simp] theorem run_modify_bind (g : σ → σ) (f : Unit → Task σ ε β) (s : σ) :
    run (modify g >>= f) s = run (f ()) (g s) := rfl

@[simp] theorem run_yield_bind (f : Unit → Task σ ε β) (s : σ) : run (yield >>= f) s = run (f ()) s := rfl

@[simp] theorem run_throwIf_bind (c : Prop) [Decidable c] (e : ε) (f : Unit → Task σ ε β) (s : σ) :
    run (throwIf c e >>= f) s = if c then (.error e, s) else run (f ()) s := by
  by_cases h : c
  · rw [throwIf, if_pos h, if_pos h]; rfl
  · rw [throwIf, if_neg h, if_neg h]; rfl

@[simp] theorem run_ofExcept_bind (x : Except ε α) (f : α → Task σ ε β) (s : σ) :
    run (ofExcept x >>= f) s =
      match x with
      | .ok a => run (f a) s
      | .error e => (.error e, s) := by
  cases x <;> rfl

@[simp] theorem run_awaiting_bind (x : Except ε α) (f : α → Task σ ε β) (s : σ) :
    run (awaiting x >>= f) s =
      match x with
      | .ok a => run (f a) s
      | .error e => (.error e, s) := by
  cases x <;> rfl

theorem run_awaiting (x : Except ε α) (f : α → Task σ ε β) (s : σ) :
    run (awaiting x >>= f) s = run (ofExcept x >>= f) s := rfl

theorem run_ofExcept_ok {x : Except ε α} {a : α} {f : α → Task σ ε β} {s : σ} (h : x = .ok a) :
    run (ofExcept x >>= f) s = run (f a) s := by
  rw [h]; rfl

theorem run_ofExcept_bind_ok {x : Except ε α} {f : α → Task σ ε β} {s s' : σ} {b : β}
    (h : run (ofExcept x >>= f) s = (.ok b, s')) : ∃ a, x = .ok a ∧ run (f a) s = (.ok b, s') := by
  cases x with
  | ok a => exact ⟨a, rfl, h⟩
  | error e => cases h

theorem run_throwIf_neg {c : Prop} [Decidable c] {e : ε} {f : Unit → Task σ ε β} {s : σ} (h : ¬c) :
    run (throwIf c e >>= f) s = run (f ()) s := by
  rw [run_throwIf_bind, if_neg h]

/-! ## Running to the next suspension -/

/-- What a segment ends with: the result of the whole task, or the suspended rest. -/
inductive Outcome (σ ε α : Type) where
  | done (r : Except ε α)
  | suspended (k : Task σ ε α)

def segment : Task σ ε α → σ → Outcome σ ε α × σ
  | ret a, s => (.done (.ok a), s)
  | throw e, s => (.done (.error e), s)
  | read k, s => segment (k s) s
  | write s' k, _ => segment k s'
  | await k, s => (.suspended k, s)

/-- **One segment, then the rest.** -/
theorem run_eq_segment (x : Task σ ε α) (s : σ) :
    run x s =
      match segment x s with
      | (.done r, s') => (r, s')
      | (.suspended k, s') => run k s' := by
  induction x generalizing s with
  | ret a => rfl
  | throw e => rfl
  | read k ih => exact ih s s
  | write s' k ih => exact ih s'
  | await k ih => rfl

theorem run_of_done {x : Task σ ε α} {s s' : σ} {r : Except ε α} (h : segment x s = (.done r, s')) :
    run x s = (r, s') := by
  rw [run_eq_segment, h]

/-- Induction along suspensions: `motive` may be assumed of what a suspension leaves. -/
theorem segmentInduction {motive : Task σ ε α → Prop}
    (h : ∀ x : Task σ ε α, (∀ s y s', segment x s = (.suspended y, s') → motive y) → motive x)
    (x : Task σ ε α) : motive x := by
  refine h x ?_
  induction x with
  | ret a => exact fun s y s' hs => nomatch hs
  | throw e => exact fun s y s' hs => nomatch hs
  | read k ih => exact fun s y s' hs => ih s s y s' hs
  | write s₁ k ih => exact fun s y s' hs => ih s₁ y s' hs
  | await k ih =>
      intro s y s' hs
      obtain ⟨rfl, _⟩ : k = y ∧ s = s' := by cases hs; exact ⟨rfl, rfl⟩
      exact h k ih

@[simp] theorem segment_pure (a : α) (s : σ) :
    segment (pure a : Task σ ε α) s = (.done (.ok a), s) := rfl

@[simp] theorem segment_get_bind (f : σ → Task σ ε β) (s : σ) :
    segment (get >>= f) s = segment (f s) s := rfl

@[simp] theorem segment_modify_bind (g : σ → σ) (f : Unit → Task σ ε β) (s : σ) :
    segment (modify g >>= f) s = segment (f ()) (g s) := rfl

@[simp] theorem segment_yield_bind (f : Unit → Task σ ε β) (s : σ) :
    segment (yield >>= f) s = (.suspended (f ()), s) := rfl

@[simp] theorem segment_throwIf_bind (c : Prop) [Decidable c] (e : ε) (f : Unit → Task σ ε β) (s : σ) :
    segment (throwIf c e >>= f) s = if c then (.done (.error e), s) else segment (f ()) s := by
  by_cases h : c
  · rw [throwIf, if_pos h, if_pos h]; rfl
  · rw [throwIf, if_neg h, if_neg h]; rfl

@[simp] theorem segment_ofExcept_bind (x : Except ε α) (f : α → Task σ ε β) (s : σ) :
    segment (ofExcept x >>= f) s =
      match x with
      | .ok a => segment (f a) s
      | .error e => (.done (.error e), s) := by
  cases x <;> rfl

@[simp] theorem segment_awaiting_bind (x : Except ε α) (f : α → Task σ ε β) (s : σ) :
    segment (awaiting x >>= f) s = (.suspended (ofExcept x >>= f), s) := by
  cases x <;> rfl

theorem segment_ofExcept_ok {x : Except ε α} {a : α} {f : α → Task σ ε β} {s : σ} (h : x = .ok a) :
    segment (ofExcept x >>= f) s = segment (f a) s := by
  rw [h]; rfl

theorem segment_throwIf_neg {c : Prop} [Decidable c] {e : ε} {f : Unit → Task σ ε β} {s : σ} (h : ¬c) :
    segment (throwIf c e >>= f) s = segment (f ()) s := by
  rw [segment_throwIf_bind, if_neg h]

/-! ## Taking a segment apart -/

theorem segment_ofExcept_cases {x : Except ε α} {f : α → Task σ ε β} {s s' : σ} {o : Outcome σ ε β}
    (h : segment (ofExcept x >>= f) s = (o, s')) :
    (∃ e, o = .done (.error e) ∧ s' = s) ∨ ∃ a, x = .ok a ∧ segment (f a) s = (o, s') := by
  rw [segment_ofExcept_bind] at h
  cases x with
  | ok a => exact Or.inr ⟨a, rfl, h⟩
  | error e => cases h; exact Or.inl ⟨e, rfl, rfl⟩

theorem segment_throwIf_cases {c : Prop} [Decidable c] {e : ε} {f : Unit → Task σ ε β} {s s' : σ}
    {o : Outcome σ ε β} (h : segment (throwIf c e >>= f) s = (o, s')) :
    (∃ e, o = .done (.error e) ∧ s' = s) ∨ ¬c ∧ segment (f ()) s = (o, s') := by
  rw [segment_throwIf_bind] at h
  split at h
  · cases h; exact Or.inl ⟨e, rfl, rfl⟩
  · next hc => exact Or.inr ⟨hc, h⟩

end Task
end Async
end VpnPi
