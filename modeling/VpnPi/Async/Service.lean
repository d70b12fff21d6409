import Mathlib.Data.List.Induction
import VpnPi.Async.Trace

/-!
# `Async.Service` — a state that answers calls

A service takes a state and a call to an answer and the next state. `after` is the state that a list of calls leads
to, `replies` what they were answered. An invariant that every call keeps holds after any calls (`after_invariant`),
a relation that every call keeps relates two services throughout (`after_related`), and two services give the same
replies exactly when they answer each call alike in the states reached before it (`replies_eq_iff`). A `transcript` puts
each call beside its answer.

Generic in states, calls and answers; names nothing of the daemon.
-/

namespace VpnPi
namespace Async

/-- The answer to a call, and the state after it. -/
abbrev Service (σ ι ο : Type) := σ → ι → ο × σ

variable {σ τ ι ο ω : Type}

/-- The state after the calls. -/
def after (f : Service σ ι ο) (s : σ) : List ι → σ
  | [] => s
  | i :: is => after f (f s i).2 is

/-- The answers to the calls. -/
def replies (f : Service σ ι ο) (s : σ) : List ι → List ο
  | [] => []
  | i :: is => (f s i).1 :: replies f (f s i).2 is

theorem after_append (f : Service σ ι ο) (s : σ) (is is' : List ι) :
    after f s (is ++ is') = after f (after f s is) is' := by
  induction is generalizing s with
  | nil => rfl
  | cons i is ih => exact ih (f s i).2

theorem after_snoc (f : Service σ ι ο) (s : σ) (is : List ι) (i : ι) :
    after f s (is ++ [i]) = (f (after f s is) i).2 := after_append f s is [i]

theorem replies_append (f : Service σ ι ο) (s : σ) (is is' : List ι) :
    replies f s (is ++ is') = replies f s is ++ replies f (after f s is) is' := by
  induction is generalizing s with
  | nil => rfl
  | cons i is ih =>
      rw [List.cons_append, replies, ih (f s i).2]
      rfl

theorem replies_snoc (f : Service σ ι ο) (s : σ) (is : List ι) (i : ι) :
    replies f s (is ++ [i]) = replies f s is ++ [(f (after f s is) i).1] := replies_append f s is [i]

/-- **Invariants** of a service. -/
theorem after_invariant {f : Service σ ι ο} {I : σ → Prop} (hstep : ∀ s i, I s → I (f s i).2) {s : σ} (h : I s)
    (is : List ι) : I (after f s is) := by
  induction is generalizing s with
  | nil => exact h
  | cons i is ih => exact ih (hstep s i h)

/-- **Simulation**: related states stay related. -/
theorem after_related {f : Service σ ι ο} {g : Service τ ι ο} {R : σ → τ → Prop}
    (hstep : ∀ s t i, R s t → R (f s i).2 (g t i).2) {s : σ} {t : τ} (h : R s t) (is : List ι) :
    R (after f s is) (after g t is) := by
  induction is generalizing s t with
  | nil => exact h
  | cons i is ih => exact ih (hstep s t i h)

/-- Related states answer alike throughout, if every call keeps the relation. -/
theorem replies_related {f : Service σ ι ο} {g : Service τ ι ω} {R : σ → τ → Prop} {Q : ο → ω → Prop}
    (hstep : ∀ s t i, R s t → Q (f s i).1 (g t i).1 ∧ R (f s i).2 (g t i).2) {s : σ} {t : τ} (h : R s t) (is : List ι) :
    List.Forall₂ Q (replies f s is) (replies g t is) := by
  induction is generalizing s t with
  | nil => exact .nil
  | cons i is ih =>
      obtain ⟨hanswer, hnext⟩ := hstep s t i h
      exact .cons hanswer (ih hnext)

/-- A call of the list, with the calls before and after it. -/
theorem forall_split_cons {P : List ι → ι → Prop} {i : ι} {is : List ι} :
    (∀ pre c post, i :: is = pre ++ c :: post → P pre c) ↔
      P [] i ∧ ∀ pre c post, is = pre ++ c :: post → P (i :: pre) c := by
  constructor
  · intro h
    refine ⟨h [] i is rfl, fun pre c post heq => h (i :: pre) c post ?_⟩
    rw [heq, List.cons_append]
  · rintro ⟨h0, h⟩ pre c post heq
    cases pre with
    | nil =>
        obtain rfl := (List.cons.inj heq).1
        exact h0
    | cons j pre =>
        obtain ⟨rfl, htail⟩ := List.cons.inj heq
        exact h pre c post htail

/-- **The same replies** are the same answer to every call. -/
theorem replies_eq_iff {f : Service σ ι ο} {g : Service τ ι ο} {s : σ} {t : τ} {is : List ι} :
    replies f s is = replies g t is ↔
      ∀ pre i post, is = pre ++ i :: post → (f (after f s pre) i).1 = (g (after g t pre) i).1 := by
  induction is generalizing s t with
  | nil =>
      refine ⟨fun _ pre i post heq => ?_, fun _ => rfl⟩
      exact absurd heq (by simp)
  | cons i is ih =>
      rw [forall_split_cons]
      refine List.cons_eq_cons.trans (and_congr Iff.rfl ?_)
      exact ih

/-! ## Calls beside their answers -/

/-- The calls, each with its answer. -/
def transcript (f : Service σ ι ο) (s : σ) (is : List ι) : List (ι × ο) := is.zip (replies f s is)

@[simp] theorem transcript_nil (f : Service σ ι ο) (s : σ) : transcript f s [] = [] := rfl

@[simp] theorem transcript_cons (f : Service σ ι ο) (s : σ) (i : ι) (is : List ι) :
    transcript f s (i :: is) = (i, (f s i).1) :: transcript f (f s i).2 is := rfl

end Async
end VpnPi
