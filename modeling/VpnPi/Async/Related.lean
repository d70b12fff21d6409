import VpnPi.Async.Task

/-!
# `Async.Related` — two tasks side by side

`Related S R x s y t`: run alone from `s` and `t`, the tasks `x` and `y` throw the same exception or return results related
by `R`, and leave states related by `S`. One rule for each construct of a task, so that two bodies of one shape are compared
construct by construct.

Generic in states, exceptions and results; names nothing of the daemon.
-/

namespace VpnPi
namespace Async

variable {σ τ ε α β γ δ : Type}

/-- The same exception, or related values. -/
inductive Matched (R : α → β → Prop) : Except ε α → Except ε β → Prop
  | ok {a : α} {b : β} (h : R a b) : Matched R (.ok a) (.ok b)
  | error (e : ε) : Matched R (.error e) (.error e)

theorem Matched.refl {R : α → α → Prop} (h : ∀ a, R a a) (x : Except ε α) : Matched R x x := by
  cases x with
  | ok a => exact .ok (h a)
  | error e => exact .error e

theorem Matched.bind {Q : α → β → Prop} {R : γ → δ → Prop} {x : Except ε α} {y : Except ε β} {f : α → Except ε γ}
    {g : β → Except ε δ} (h : Matched Q x y) (hf : ∀ a b, Q a b → Matched R (f a) (g b)) :
    Matched R (x >>= f) (y >>= g) := by
  cases h with
  | ok h => exact hf _ _ h
  | error e => exact .error e

theorem Matched.map {Q : α → β → Prop} {R : γ → δ → Prop} {f : α → γ} {g : β → δ} {x : Except ε α} {y : Except ε β}
    (h : Matched Q x y) (hfg : ∀ a b, Q a b → R (f a) (g b)) : Matched R (x.map f) (y.map g) := by
  cases h with
  | ok h => exact .ok (hfg _ _ h)
  | error e => exact .error e

namespace Task

structure Related (S : σ → τ → Prop) (R : α → β → Prop) (x : Task σ ε α) (s : σ) (y : Task τ ε β) (t : τ) : Prop where
  result : Matched R (x.run s).1 (y.run t).1
  state  : S (x.run s).2 (y.run t).2

variable {S : σ → τ → Prop} {R : γ → δ → Prop} {s : σ} {t : τ}

/-- Only the runs matter. -/
theorem Related.of_run {x x' : Task σ ε γ} {y y' : Task τ ε δ} (hx : x.run s = x'.run s) (hy : y.run t = y'.run t)
    (h : Related S R x' s y' t) : Related S R x s y t := by
  refine ⟨?_, ?_⟩
  · rw [hx, hy]
    exact h.result
  · rw [hx, hy]
    exact h.state

theorem Related.pure {c : γ} {d : δ} (h : R c d) (hs : S s t) :
    Related S R (Pure.pure c : Task σ ε γ) s (Pure.pure d : Task τ ε δ) t := ⟨.ok h, hs⟩

theorem Related.get_bind {f : σ → Task σ ε γ} {g : τ → Task τ ε δ} (h : Related S R (f s) s (g t) t) :
    Related S R (get >>= f) s (get >>= g) t := ⟨h.result, h.state⟩

theorem Related.modify_bind {u : σ → σ} {v : τ → τ} {f : Unit → Task σ ε γ} {g : Unit → Task τ ε δ}
    (h : Related S R (f ()) (u s) (g ()) (v t)) : Related S R (modify u >>= f) s (modify v >>= g) t :=
  ⟨h.result, h.state⟩

theorem Related.yield_bind {f : Unit → Task σ ε γ} {g : Unit → Task τ ε δ} (h : Related S R (f ()) s (g ()) t) :
    Related S R (yield >>= f) s (yield >>= g) t := ⟨h.result, h.state⟩

theorem Related.throwIf_bind {c d : Prop} [Decidable c] [Decidable d] {e : ε} {f : Unit → Task σ ε γ}
    {g : Unit → Task τ ε δ} (hs : S s t) (hcd : c ↔ d) (h : Related S R (f ()) s (g ()) t) :
    Related S R (throwIf c e >>= f) s (throwIf d e >>= g) t := by
  by_cases hc : c
  · have hd : d := hcd.mp hc
    refine ⟨?_, ?_⟩
    · rw [run_throwIf_bind, run_throwIf_bind, if_pos hc, if_pos hd]
      exact .error e
    · rw [run_throwIf_bind, run_throwIf_bind, if_pos hc, if_pos hd]
      exact hs
  · have hd : ¬d := fun hd => hc (hcd.mpr hd)
    refine ⟨?_, ?_⟩
    · rw [run_throwIf_neg hc, run_throwIf_neg hd]
      exact h.result
    · rw [run_throwIf_neg hc, run_throwIf_neg hd]
      exact h.state

theorem Related.ofExcept_bind {Q : α → β → Prop} {x : Except ε α} {y : Except ε β} {f : α → Task σ ε γ}
    {g : β → Task τ ε δ} (hs : S s t) (hxy : Matched Q x y)
    (h : ∀ a b, x = .ok a → y = .ok b → Q a b → Related S R (f a) s (g b) t) :
    Related S R (ofExcept x >>= f) s (ofExcept y >>= g) t := by
  cases hxy with
  | ok hab => exact h _ _ rfl rfl hab
  | error e => exact ⟨.error e, hs⟩

theorem Related.ofExcept_ok {x : Except ε α} {y : Except ε β} {a : α} {b : β} {f : α → Task σ ε γ} {g : β → Task τ ε δ}
    (hx : x = .ok a) (hy : y = .ok b) (h : Related S R (f a) s (g b) t) :
    Related S R (ofExcept x >>= f) s (ofExcept y >>= g) t := by
  subst hx
  subst hy
  exact ⟨h.result, h.state⟩

/-- The same value on both sides. -/
theorem Related.ofExcept_eq {x y : Except ε α} {f : α → Task σ ε γ} {g : α → Task τ ε δ} (hs : S s t) (hxy : x = y)
    (h : ∀ a, x = .ok a → Related S R (f a) s (g a) t) : Related S R (ofExcept x >>= f) s (ofExcept y >>= g) t := by
  subst hxy
  refine .ofExcept_bind hs (.refl (fun _ => rfl) x : Matched Eq x x) fun a b ha _ hab => ?_
  subst hab
  exact h a ha

theorem Related.awaiting_eq {x y : Except ε α} {f : α → Task σ ε γ} {g : α → Task τ ε δ} (hs : S s t) (hxy : x = y)
    (h : ∀ a, x = .ok a → Related S R (f a) s (g a) t) : Related S R (awaiting x >>= f) s (awaiting y >>= g) t := by
  have hsame := Related.ofExcept_eq hs hxy h
  exact ⟨hsame.result, hsame.state⟩

end Task
end Async
end VpnPi
