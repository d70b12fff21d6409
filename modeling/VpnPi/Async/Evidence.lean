import VpnPi.Async.Family
import VpnPi.Async.Saving

/-!
# `Async.Evidence` — states that are good by what has happened

In a family of saved states, what a member may hold can depend on what the others have done before: `Good tr m` says that
the state `m` is good by the trace `tr`, and a longer trace takes nothing back. `Backed` is the invariant: a state is
backed if it is good, if everything on its files and on the way there was saved of good states, and if the calls under
way keep what is good, however long the trace grows meanwhile.

* `Run.members_along` — an invariant of each member, whose step case may use the run so far.
* `Step.backed` — a step keeps a state backed, if the call that it starts keeps what is good.

Generic in members, states, calls and files; names nothing of the daemon.
-/

namespace VpnPi
namespace Async

variable {ι σ ℓ μ : Type}

/-! ## Labels that show what was there -/

/-- A step, its label with what there was to see before it. -/
inductive Seen (look : σ → μ) (step : σ → ℓ → σ → Prop) : σ → μ × ℓ → σ → Prop
  | step {s : σ} {l : ℓ} {s' : σ} (h : step s l s') : Seen look step s (look s, l) s'

theorem Run.seen (look : σ → μ) {step : σ → ℓ → σ → Prop} {s₀ s : σ} {tr : List ℓ} (run : Run step s₀ tr s) :
    ∃ tr', Run (Seen look step) s₀ tr' s ∧ tr'.map Prod.snd = tr := by
  induction run with
  | nil => exact ⟨[], .nil, rfl⟩
  | snoc _ h ih =>
      obtain ⟨tr', run', rfl⟩ := ih
      refine ⟨_, run'.snoc (.step h), ?_⟩
      rw [List.map_append]
      rfl

section Members

variable [DecidableEq ι] {step : ι → σ → ℓ → σ → Prop} {s₀ : ι → σ}

/-- **Invariants** of every member, along a run. -/
theorem Run.members_along {I : List (ι × ℓ) → ι → σ → Prop} (h0 : ∀ n, I [] n (s₀ n))
    (hlonger : ∀ tr e n s, I tr n s → I (tr ++ [e]) n s)
    (hstep : ∀ tr s n l s', Run (Each step) s₀ tr s → I tr n (s n) → step n (s n) l s' → I (tr ++ [(n, l)]) n s')
    {tr : List (ι × ℓ)} {s : ι → σ} (run : Run (Each step) s₀ tr s) : ∀ n, I tr n (s n) := by
  refine run.invariant (I := fun tr s => ∀ n, I tr n (s n)) h0 fun tr s e s' hrun ih h n => ?_
  cases h with
  | @step m l s₁ h =>
      by_cases hn : n = m
      · subst hn
        rw [Function.update_self]
        exact hstep tr s n l s₁ hrun (ih n) h
      · rw [Function.update_of_ne hn]
        exact hlonger tr _ n _ (ih n)

/-- The step of a member behind a label of the trace. -/
theorem Run.split_member {pre post : List (ι × ℓ)} {n : ι} {l : ℓ} {s : ι → σ}
    (run : Run (Each step) s₀ (pre ++ (n, l) :: post) s) : ∃ s₁ s₂, Run (Each step) s₀ pre s₁ ∧ step n (s₁ n) l s₂ := by
  obtain ⟨s₁, s₂, run₁, h⟩ := run.split
  cases h with
  | step h => exact ⟨s₁, _, run₁, h⟩

end Members

namespace Saving

variable {η κ φ τ ε α : Type} {F : Format μ φ τ} {C : Calls κ μ ε α} {Good : List η → μ → Prop} {tr : List η}

/-! ## Backed states -/

/-- What is left of a call keeps what is good, now and later; what it writes was saved of a good state. -/
def Phase.Backed (F : Format μ φ τ) (Good : List η → μ → Prop) (tr : List η) : Phase μ φ τ ε α → Prop
  | working x => ∀ more, x.Keeps (Good (tr ++ more))
  | saving _ => True
  | writing f w _ => Rendered F (Good tr) f w.text

/-- The text of a file, if there is one, was saved of a good state. -/
def Genuine (F : Format μ φ τ) (Good : μ → Prop) (content : φ → Option τ) : Prop :=
  ∀ f text, content f = some text → Rendered F Good f text

structure Backed (F : Format μ φ τ) (Good : List η → μ → Prop) (tr : List η) (s : State κ μ φ τ ε α) : Prop where
  mem     : Good tr s.mem
  files   : Genuine F (Good tr) fun f => (s.files f).content
  running : ∀ e ∈ s.running, e.2.Backed F Good tr

theorem good_append (hlonger : ∀ tr e m, Good tr m → Good (tr ++ [e]) m) {m : μ} (h : Good tr m) (more : List η) :
    Good (tr ++ more) m := by
  induction more generalizing tr with
  | nil => rwa [List.append_nil]
  | cons e more ih =>
      have hnext := ih (hlonger tr e m h)
      rwa [List.append_assoc, List.singleton_append] at hnext

theorem Rendered.longer (hlonger : ∀ tr e m, Good tr m → Good (tr ++ [e]) m) {f : φ} {text : τ}
    (h : Rendered F (Good tr) f text) (e : η) : Rendered F (Good (tr ++ [e])) f text := by
  obtain ⟨m, hm, htext⟩ := h
  exact ⟨m, hlonger tr e m hm, htext⟩

theorem Phase.Backed.longer (hlonger : ∀ tr e m, Good tr m → Good (tr ++ [e]) m) {p : Phase μ φ τ ε α}
    (h : p.Backed F Good tr) (e : η) : p.Backed F Good (tr ++ [e]) := by
  cases p with
  | working x =>
      intro more
      rw [List.append_assoc]
      exact h ([e] ++ more)
  | saving todo => trivial
  | writing f w todo => exact Rendered.longer hlonger h e

theorem Backed.longer (hlonger : ∀ tr e m, Good tr m → Good (tr ++ [e]) m) {s : State κ μ φ τ ε α}
    (h : Backed F Good tr s) (e : η) : Backed F Good (tr ++ [e]) s where
  mem := hlonger tr e s.mem h.mem
  files := fun f text hf => (h.files f text hf).longer hlonger e
  running := fun x hx => (h.running x hx).longer hlonger e

variable [DecidableEq φ]

/-- **A step keeps a state backed**: a call that starts has to keep what is good, and files that were saved of good
    states have to load as one. -/
theorem Step.backed (hlonger : ∀ tr e m, Good tr m → Good (tr ++ [e]) m)
    (hboot : ∀ content m, Genuine F (Good tr) content → F.boot content = some m → Good tr m)
    {s s' : State κ μ φ τ ε α} {l : Label κ φ τ} (h : Step F C s l s')
    (hstart : ∀ c, l = .start c → ∀ more, (C.task c).Keeps (Good (tr ++ more))) (hs : Backed F Good tr s) :
    Backed F Good tr s' := by
  have now {x : Task μ ε α} (hx : ∀ more, x.Keeps (Good (tr ++ more))) : x.Keeps (Good tr) := by
    simpa using hx []
  cases h with
  | start m fs l c => exact { hs with running := List.forall_mem_cons.mpr ⟨hstart c rfl, hs.running⟩ }
  | @suspend m m' x y fs c l r h =>
      have hx : ∀ more, x.Keeps (Good (tr ++ more)) := hs.running _ (List.mem_append_right _ (List.mem_cons_self ..))
      obtain ⟨hmem, _⟩ := (now hx).segment hs.mem h
      refine ⟨hmem, hs.files, forall_replace hs.running fun more => ?_⟩
      -- the rest of the call keeps what is good of any longer trace, as the call did
      exact ((hx more).segment (good_append hlonger hs.mem more) h).2 y rfl
  | @returned m m' x c a fs l r h hsaves =>
      have hx : ∀ more, x.Keeps (Good (tr ++ more)) := hs.running _ (List.mem_append_right _ (List.mem_cons_self ..))
      exact ⟨((now hx).segment hs.mem h).1, hs.files, forall_replace hs.running trivial⟩
  | call m fs c g todo l r =>
      refine ⟨hs.mem, fun f text hf => hs.files f text ?_, forall_replace hs.running ⟨m, hs.mem, rfl⟩⟩
      rw [← hf]
      by_cases hfg : f = g
      · subst hfg
        show _ = (Function.update fs f _ f).content
        rw [Function.update_self]
        rfl
      · show _ = (Function.update fs g _ f).content
        rw [Function.update_of_ne hfg]
  | land m fs c g w todo l r =>
      -- the text was rendered of a good state when the write was called
      have hw : Rendered F (Good tr) g w.text := hs.running _ (List.mem_append_right _ (List.mem_cons_self ..))
      refine ⟨hs.mem, fun f text hf => ?_, forall_replace hs.running trivial⟩
      have hf' : (Function.update fs g ((fs g).land w) f).content = some text := hf
      by_cases hfg : f = g
      · subst hfg
        rw [Function.update_self] at hf'
        exact Option.some.inj hf' ▸ hw
      · rw [Function.update_of_ne hfg] at hf'
        exact hs.files f text hf'
  | done m fs c l r =>
      refine { hs with running := fun e he => ?_ }
      rcases List.mem_append.mp he with he | he
      · exact hs.running e (List.mem_append_left _ he)
      · exact hs.running e (List.mem_append_right _ (List.mem_cons_of_mem _ he))
  | restart m fs l h =>
      -- the files are of good states, each perhaps of another one
      refine ⟨hboot _ _ hs.files h, hs.files, fun e he => ?_⟩
      cases he

/-- A call may work alone, up to where it saves. -/
theorem work_labelled {m m' : μ} {fs : φ → File τ} {l : List (κ × Phase μ φ τ ε α)} {c : κ} {a : α}
    (h : (C.task c).run m = (.ok a, m')) (hsaves : C.saves c a = true) :
    ∃ ls, (∀ e ∈ ls, e = .start c ∨ e = .suspend c ∨ e = .returned c) ∧
      Run (Step F C) ⟨m, fs, l⟩ ls ⟨m', fs, (c, .saving F.order) :: l⟩ := by
  have key : ∀ x : Task μ ε α, ∀ m₁ ls, (∀ e ∈ ls, e = .start c ∨ e = .suspend c ∨ e = .returned c) →
      x.run m₁ = (.ok a, m') → Run (Step F C) ⟨m, fs, l⟩ ls ⟨m₁, fs, (c, .working x) :: l⟩ →
      ∃ ls, (∀ e ∈ ls, e = .start c ∨ e = .suspend c ∨ e = .returned c) ∧
        Run (Step F C) ⟨m, fs, l⟩ ls ⟨m', fs, (c, .saving F.order) :: l⟩ := by
    refine Task.segmentInduction fun x ih m₁ ls hls hx run => ?_
    rw [Task.run_eq_segment] at hx
    rcases hseg : x.segment m₁ with ⟨r | y, m₂⟩
    · rw [hseg] at hx
      cases hx
      refine ⟨_, ?_, run.snoc (.returned fs [] l hseg hsaves)⟩
      exact List.forall_mem_append.mpr ⟨hls, List.forall_mem_singleton.mpr (.inr (.inr rfl))⟩
    · rw [hseg] at hx
      refine ih m₁ y m₂ hseg m₂ _ ?_ hx (run.snoc (.suspend fs c [] l hseg))
      exact List.forall_mem_append.mpr ⟨hls, List.forall_mem_singleton.mpr (.inr (.inl rfl))⟩
  exact key _ m _ (List.forall_mem_singleton.mpr (.inl rfl)) h (Run.nil.snoc (.start m fs l c))

end Saving
end Async
end VpnPi
