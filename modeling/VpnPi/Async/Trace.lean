import Mathlib.Data.List.Basic

/-!
# `Async.Trace` — runs of a labelled transition system

`Run step s₀ tr s`: from `s₀` the labels `tr`, oldest first, lead to `s`. An invariant of every reachable
state is proved once by `Run.invariant`, whose step case may use the run so far; `Run.split` recovers the
step that produced a label of the trace.

Generic in states and labels; names nothing of the daemon.
-/

namespace VpnPi
namespace Async

variable {σ ℓ : Type} {step : σ → ℓ → σ → Prop} {s₀ : σ}

/-! ## Splitting a trace that ends in a given label -/

theorem concat_split_cons {xs pre post : List ℓ} {x y : ℓ} (h : xs ++ [x] = pre ++ y :: post) :
    (pre = xs ∧ y = x ∧ post = []) ∨ ∃ post', post = post' ++ [x] ∧ xs = pre ++ y :: post' := by
  rcases List.eq_nil_or_concat post with rfl | ⟨post', z, rfl⟩
  · obtain ⟨hpre, hy⟩ := List.append_inj' h rfl
    exact .inl ⟨hpre.symm, (List.head_eq_of_cons_eq hy).symm, rfl⟩
  · rw [List.concat_eq_append, ← List.cons_append, ← List.append_assoc] at h
    obtain ⟨hxs, hz⟩ := List.append_inj' h rfl
    obtain rfl := List.head_eq_of_cons_eq hz
    exact .inr ⟨post', List.concat_eq_append, hxs⟩

theorem concat_split {xs pre post : List ℓ} {x : ℓ} (h : xs ++ [x] = pre ++ post) :
    (pre = xs ++ [x] ∧ post = []) ∨ ∃ post', post = post' ++ [x] ∧ xs = pre ++ post' := by
  cases post with
  | nil => exact .inl ⟨by rw [h, List.append_nil], rfl⟩
  | cons y post =>
      rcases concat_split_cons h with ⟨rfl, rfl, rfl⟩ | ⟨post', rfl, rfl⟩
      · exact .inr ⟨[], rfl, (List.append_nil _).symm⟩
      · exact .inr ⟨y :: post', rfl, rfl⟩

/-! ## Runs -/

inductive Run (step : σ → ℓ → σ → Prop) (s₀ : σ) : List ℓ → σ → Prop
  | nil : Run step s₀ [] s₀
  | snoc {tr : List ℓ} {s s' : σ} {l : ℓ} (run : Run step s₀ tr s) (h : step s l s') :
      Run step s₀ (tr ++ [l]) s'

namespace Run

/-- **Invariants.** What holds at the start and is kept by every step of a run holds after the run. -/
theorem invariant {I : List ℓ → σ → Prop} (h0 : I [] s₀)
    (hstep : ∀ tr s l s', Run step s₀ tr s → I tr s → step s l s' → I (tr ++ [l]) s')
    {tr : List ℓ} {s : σ} (run : Run step s₀ tr s) : I tr s := by
  induction run with
  | nil => exact h0
  | snoc run h ih => exact hstep _ _ _ _ run ih h

/-- One run after another. -/
theorem trans {tr tr' : List ℓ} {s s' : σ} (run : Run step s₀ tr s) (run' : Run step s tr' s') :
    Run step s₀ (tr ++ tr') s' := by
  induction run' with
  | nil => rwa [List.append_nil]
  | snoc _ h ih =>
      rw [← List.append_assoc]
      exact ih.snoc h

/-- The step behind a label of the trace. -/
theorem split {pre post : List ℓ} {l : ℓ} {s : σ} (run : Run step s₀ (pre ++ l :: post) s) :
    ∃ s₁ s₂, Run step s₀ pre s₁ ∧ step s₁ l s₂ := by
  generalize htr : pre ++ l :: post = tr at run
  induction run generalizing post with
  | nil => exact absurd htr (by simp)
  | @snoc tr s s' l' run h ih =>
      rcases concat_split_cons htr.symm with ⟨rfl, rfl, rfl⟩ | ⟨post', rfl, rfl⟩
      · exact ⟨s, s', run, h⟩
      · exact ih rfl

/-- A run is determined up to its last label by a shorter run. -/
theorem of_concat {tr : List ℓ} {l : ℓ} {s : σ} (run : Run step s₀ (tr ++ [l]) s) :
    ∃ s₁, Run step s₀ tr s₁ ∧ step s₁ l s := by
  generalize htr : tr ++ [l] = tr' at run
  cases run with
  | nil => exact absurd htr (by simp)
  | @snoc tr₁ s₁ s' l' run h =>
      obtain ⟨rfl, hl⟩ := List.append_inj' htr rfl
      obtain rfl := List.head_eq_of_cons_eq hl
      exact ⟨s₁, run, h⟩

end Run

/-- The steps that meet a condition on the state before them. -/
def Where (step : σ → ℓ → σ → Prop) (ok : σ → ℓ → Prop) : σ → ℓ → σ → Prop :=
  fun s l s' => step s l s' ∧ ok s l

theorem Run.imp {step' : σ → ℓ → σ → Prop} {tr : List ℓ} {s : σ} (run : Run step s₀ tr s)
    (h : ∀ s l s', step s l s' → step' s l s') : Run step' s₀ tr s := by
  induction run with
  | nil => exact .nil
  | snoc _ hs ih => exact ih.snoc (h _ _ _ hs)

theorem Run.of_where {ok : σ → ℓ → Prop} {tr : List ℓ} {s : σ} (run : Run (Where step ok) s₀ tr s) :
    Run step s₀ tr s := run.imp fun _ _ _ h => h.1

/-- A run whose labels meet a condition in any state. -/
theorem Run.to_where {ok : σ → ℓ → Prop} {tr : List ℓ} {s : σ} (run : Run step s₀ tr s)
    (h : ∀ l ∈ tr, ∀ s, ok s l) : Run (Where step ok) s₀ tr s := by
  induction run with
  | nil => exact .nil
  | @snoc tr s s' l _ hstep ih =>
      refine (ih fun l hl => h l (List.mem_append_left _ hl)).snoc ⟨hstep, ?_⟩
      exact h l (List.mem_append_right _ (List.mem_singleton_self l)) s

/-- `P` holds of every label of the trace, given the labels before it. -/
def Always (P : List ℓ → ℓ → Prop) (tr : List ℓ) : Prop :=
  ∀ pre l post, tr = pre ++ l :: post → P pre l

theorem always_nil {P : List ℓ → ℓ → Prop} : Always P [] := by
  intro pre l post htr
  cases pre <;> cases htr

theorem Always.take {P : List ℓ → ℓ → Prop} {tr tr' : List ℓ} (h : Always P (tr ++ tr')) : Always P tr := by
  intro pre l post htr
  refine h pre l (post ++ tr') ?_
  rw [htr, List.append_assoc, List.cons_append]

theorem Always.init {P : List ℓ → ℓ → Prop} {tr : List ℓ} {l : ℓ} (h : Always P (tr ++ [l])) :
    Always P tr := h.take

theorem Always.last {P : List ℓ → ℓ → Prop} {tr : List ℓ} {l : ℓ} (h : Always P (tr ++ [l])) :
    P tr l := h tr l [] rfl

theorem Always.snoc {P : List ℓ → ℓ → Prop} {tr : List ℓ} {l : ℓ} (h : Always P tr) (hl : P tr l) :
    Always P (tr ++ [l]) := by
  intro pre l' post htr
  rcases concat_split_cons htr with ⟨rfl, rfl, rfl⟩ | ⟨post', rfl, rfl⟩
  · exact hl
  · exact h pre l' post' rfl

/-- What does not depend on some of the labels holds along the trace if it does along the trace without them. -/
theorem always_filter {P : List ℓ → ℓ → Prop} {p : ℓ → Bool} (hskip : ∀ pre l, p l = false → P pre l)
    (hfilter : ∀ pre l, P (pre.filter p) l ↔ P pre l) {tr : List ℓ} : Always P (tr.filter p) ↔ Always P tr := by
  constructor
  · intro h pre l post htr
    cases hp : p l with
    | false => exact hskip pre l hp
    | true =>
        refine (hfilter pre l).mp (h _ l (post.filter p) ?_)
        rw [htr, List.filter_append, List.filter_cons_of_pos hp]
  · intro h pre l post htr
    obtain ⟨left, right, rfl, rfl, hright⟩ := List.filter_eq_append_iff.mp htr
    obtain ⟨gap, right', rfl, hgap, _, _⟩ := List.filter_eq_cons_iff.mp hright
    have hkept : (left ++ gap).filter p = left.filter p := by
      rw [List.filter_append, List.filter_eq_nil_iff.mpr hgap, List.append_nil]
    rw [← hkept]
    exact (hfilter (left ++ gap) l).mpr (h _ l right' (List.append_assoc ..).symm)

end Async
end VpnPi
