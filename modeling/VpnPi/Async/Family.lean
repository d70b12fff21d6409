import Mathlib.Logic.Function.Basic
import VpnPi.Async.Pool

/-!
# `Async.Family` — members that take steps of their own

A family of transition systems, one of whose members moves at a time. A run of one member from its present state continues
a run of the family (`Run.member`), and an invariant that a member's own steps keep, and that a longer trace does not
disturb, holds of every member (`Run.members`).

Where the members are pools, calls that are made one after another, each with nothing else under way (`InTurn`), are one of
the family's runs (`InTurn.run`).

Generic in members, states and labels; names nothing of the daemon.
-/

namespace VpnPi
namespace Async

variable {ι σ ℓ : Type} [DecidableEq ι]

inductive Each (step : ι → σ → ℓ → σ → Prop) : (ι → σ) → ι × ℓ → (ι → σ) → Prop
  | step {s : ι → σ} {n : ι} {l : ℓ} {s' : σ} (h : step n (s n) l s') : Each step s (n, l) (Function.update s n s')

variable {step : ι → σ → ℓ → σ → Prop} {s₀ : ι → σ}

theorem Run.member {tr : List (ι × ℓ)} {s : ι → σ} {n : ι} {ls : List ℓ} {s' : σ} (run : Run (Each step) s₀ tr s)
    (h : Run (step n) (s n) ls s') : Run (Each step) s₀ (tr ++ ls.map fun l => (n, l)) (Function.update s n s') := by
  induction h with
  | nil =>
      rw [List.map_nil, List.append_nil, Function.update_eq_self]
      exact run
  | @snoc ls s₁ s₂ l _ hl ih =>
      have hstep : step n (Function.update s n s₁ n) l s₂ := by
        rw [Function.update_self]
        exact hl
      have hnext := ih.snoc (.step hstep)
      rw [Function.update_idem, List.append_assoc] at hnext
      rw [List.map_append]
      exact hnext

/-- **Invariants** of every member. -/
theorem Run.members {I : List (ι × ℓ) → ι → σ → Prop} (h0 : ∀ n, I [] n (s₀ n))
    (hlonger : ∀ tr e n s, I tr n s → I (tr ++ [e]) n s)
    (hstep : ∀ tr n s l s', I tr n s → step n s l s' → I (tr ++ [(n, l)]) n s') {tr : List (ι × ℓ)} {s : ι → σ}
    (run : Run (Each step) s₀ tr s) : ∀ n, I tr n (s n) := by
  refine run.invariant (I := fun tr s => ∀ n, I tr n (s n)) h0 fun tr s e s' _ ih h n => ?_
  cases h with
  | @step m l s₁ h =>
      by_cases hn : n = m
      · subst hn
        rw [Function.update_self]
        exact hstep tr n (s n) l s₁ (ih n) h
      · rw [Function.update_of_ne hn]
        exact hlonger tr _ n _ (ih n)

/-! ## Pools -/

section Pools

open Pool

variable {κ ε α : Type} {task : ι → κ → Task σ ε α} {b₀ : ι → σ}

/-- A call has returned. -/
def isReturn : ι × Label κ σ ε α → Bool
  | (_, .finish ..) => true
  | _ => false

/-- Calls made in turn: what they returned, and the states they leave. -/
inductive InTurn (task : ι → κ → Task σ ε α) (b₀ : ι → σ) : List (ι × Label κ σ ε α) → (ι → σ) → Prop
  | nil : InTurn task b₀ [] b₀
  | call {es : List (ι × Label κ σ ε α)} {b : ι → σ} {n : ι} {c : κ} {r : Except ε α} {s : σ} (h : InTurn task b₀ es b)
      (hrun : (task n c).run (b n) = (r, s)) :
      InTurn task b₀ (es ++ [(n, .finish c (b n) (b n) r)]) (Function.update b n s)

/-- **Calls made in turn** are one of the interleavings. -/
theorem InTurn.run (reads : ∀ n, ReadsOnly (task n)) {es : List (ι × Label κ σ ε α)} {b : ι → σ} (h : InTurn task b₀ es b) :
    ∃ tr, Run (Each fun n => Step (task n)) (fun n => ⟨b₀ n, []⟩) tr (fun n => ⟨b n, []⟩) ∧ tr.filter isReturn = es := by
  induction h with
  | nil => exact ⟨[], .nil, rfl⟩
  | @call es b n c r s h hrun ih =>
      obtain ⟨tr, run, rfl⟩ := ih
      obtain ⟨ls, hls, alone⟩ := run_alone_trace (reads n) hrun
      have hquiet : (ls.map fun l => (n, l)).filter isReturn = [] := by
        rw [List.filter_eq_nil_iff, List.forall_mem_map]
        intro l hl
        rcases hls l hl with rfl | rfl <;> nofun
      have hbooks : Function.update (fun m => (⟨b m, []⟩ : Pool κ σ ε α)) n ⟨s, []⟩ = fun m => ⟨Function.update b n s m, []⟩ :=
        (Function.comp_update (fun b => (⟨b, []⟩ : Pool κ σ ε α)) b n s).symm
      refine ⟨_, hbooks ▸ run.member alone, ?_⟩
      rw [List.map_append, List.filter_append, List.filter_append, hquiet]
      rfl

end Pools

end Async
end VpnPi
