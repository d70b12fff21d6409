import VpnPi.Async.Task
import VpnPi.Async.Trace

/-!
# `Async.Pool` — concurrent calls on one state, and when they are linearizable

A `Pool` is a shared state and the calls that have started and not finished. Any of them may run its next
segment at any time, so a run of a pool is an interleaving at the suspensions. Each slot remembers the state
in which its last segment began (`seen`), which no call can observe: it is what a check made before a
suspension was made against.

`Run.linearize`: when the segments before the last one only read, and each last segment does in the present
state what the whole call would do there, the calls behave as if run one after another in the order in which
they finish.

Generic in state, calls, errors and results; names nothing of the daemon.
-/

namespace VpnPi
namespace Async

structure Slot (κ σ ε α : Type) where
  call : κ
  seen : σ
  rest : Task σ ε α

structure Pool (κ σ ε α : Type) where
  state   : σ
  running : List (Slot κ σ ε α)

namespace Pool

variable {κ σ ε α : Type}

/-- What happens to one call. `finish` carries the state its last segment but one began in, the state its
    last segment began in, and its result. -/
inductive Label (κ σ ε α : Type) where
  | start (c : κ)
  | suspend (c : κ)
  | finish (c : κ) (seen before : σ) (r : Except ε α)

inductive Step (task : κ → Task σ ε α) : Pool κ σ ε α → Label κ σ ε α → Pool κ σ ε α → Prop
  | start (s : σ) (l : List (Slot κ σ ε α)) (c : κ) :
      Step task ⟨s, l⟩ (.start c) ⟨s, ⟨c, s, task c⟩ :: l⟩
  | suspend {s s' : σ} {x y : Task σ ε α} {c : κ} {seen : σ} (l r : List (Slot κ σ ε α))
      (h : x.segment s = (.suspended y, s')) :
      Step task ⟨s, l ++ ⟨c, seen, x⟩ :: r⟩ (.suspend c) ⟨s', l ++ ⟨c, s, y⟩ :: r⟩
  | finish {s s' : σ} {x : Task σ ε α} {c : κ} {seen : σ} {res : Except ε α}
      (l r : List (Slot κ σ ε α)) (h : x.segment s = (.done res, s')) :
      Step task ⟨s, l ++ ⟨c, seen, x⟩ :: r⟩ (.finish c seen s res) ⟨s', l ++ r⟩

/-- What is left of a call after some of its segments, the last of which began in the given state. The
    states the segments began in are arbitrary: whatever other calls do in between is allowed. -/
inductive Rest (task : κ → Task σ ε α) (c : κ) : σ → Task σ ε α → Prop
  | start (s : σ) : Rest task c s (task c)
  | next {s₀ s s' : σ} {x y : Task σ ε α} (h : Rest task c s₀ x) (hs : x.segment s = (.suspended y, s')) :
      Rest task c s y

variable {task : κ → Task σ ε α}

/-- Every slot of a reachable pool holds what is left of its call. -/
theorem rest_of_run {s₀ : σ} {tr : List (Label κ σ ε α)} {p : Pool κ σ ε α}
    (run : Run (Step task) ⟨s₀, []⟩ tr p) : ∀ e ∈ p.running, Rest task e.call e.seen e.rest := by
  refine run.invariant (I := fun _ p => ∀ e ∈ p.running, Rest task e.call e.seen e.rest) nofun ?_
  intro tr p l p' _ ih hstep
  cases hstep with
  | start s l c => exact List.forall_mem_cons.mpr ⟨.start s, ih⟩
  | suspend l r h =>
      intro e he
      have hx := ih _ (List.mem_append_right _ (List.mem_cons_self ..))
      rcases List.mem_append.mp he with he | he
      · exact ih e (List.mem_append_left _ he)
      · rcases List.mem_cons.mp he with rfl | he
        · exact .next hx h
        · exact ih e (List.mem_append_right _ (List.mem_cons_of_mem _ he))
  | finish l r h =>
      intro e he
      rcases List.mem_append.mp he with he | he
      · exact ih e (List.mem_append_left _ he)
      · exact ih e (List.mem_append_right _ (List.mem_cons_of_mem _ he))

/-- What holds of the state, of every call under way, and of every state that one of them has read. -/
structure Holds (task : κ → Task σ ε α) (Q : κ → Prop) (I : σ → Prop) (p : Pool κ σ ε α) : Prop where
  state : I p.state
  calls : ∀ e ∈ p.running, Rest task e.call e.seen e.rest ∧ Q e.call ∧ I e.seen

/-- What holds of the calls that are started. -/
def Label.Starts (Q : κ → Prop) : Label κ σ ε α → Prop
  | .start c => Q c
  | _ => True

/-- **Invariants** that every segment keeps, given what its call has read. -/
theorem Step.holds {Q : κ → Prop} {I : σ → Prop}
    {p p' : Pool κ σ ε α} {l : Label κ σ ε α}
    (hseg : ∀ c seen s s' x o, (∀ r, o = .done r → l = .finish c seen s r) → Rest task c seen x → Q c → I seen → I s →
      x.segment s = (o, s') → I s')
    (h : Step task p l p') (hl : l.Starts Q) (hp : Holds task Q I p) : Holds task Q I p' := by
  cases h with
  | start s l c => exact ⟨hp.state, List.forall_mem_cons.mpr ⟨⟨.start s, hl, hp.state⟩, hp.calls⟩⟩
  | suspend l r h =>
      obtain ⟨hrest, hq, hseen⟩ := hp.calls _ (List.mem_append_right _ (List.mem_cons_self ..))
      refine ⟨hseg _ _ _ _ _ _ (fun _ ho => by cases ho) hrest hq hseen hp.state h, fun e he => ?_⟩
      rcases List.mem_append.mp he with he | he
      · exact hp.calls e (List.mem_append_left _ he)
      · rcases List.mem_cons.mp he with rfl | he
        · exact ⟨.next hrest h, hq, hp.state⟩
        · exact hp.calls e (List.mem_append_right _ (List.mem_cons_of_mem _ he))
  | finish l r h =>
      obtain ⟨hrest, hq, hseen⟩ := hp.calls _ (List.mem_append_right _ (List.mem_cons_self ..))
      refine ⟨hseg _ _ _ _ _ _ (fun _ ho => by cases ho; rfl) hrest hq hseen hp.state h, fun e he => ?_⟩
      rcases List.mem_append.mp he with he | he
      · exact hp.calls e (List.mem_append_left _ he)
      · exact hp.calls e (List.mem_append_right _ (List.mem_cons_of_mem _ he))

theorem Holds.imp {Q : κ → Prop} {I J : σ → Prop} {p : Pool κ σ ε α} (h : Holds task Q I p) (hIJ : ∀ s, I s → J s) :
    Holds task Q J p :=
  ⟨hIJ _ h.state, fun e he => ⟨(h.calls e he).1, (h.calls e he).2.1, hIJ _ (h.calls e he).2.2⟩⟩

/-- The last segment of a call that finishes. -/
theorem Step.finish_inv {p p' : Pool κ σ ε α} {c : κ} {seen s : σ} {r : Except ε α}
    (h : Step task p (.finish c seen s r) p') :
    p.state = s ∧ ∃ x, ⟨c, seen, x⟩ ∈ p.running ∧ x.segment s = (.done r, p'.state) := by
  cases h with
  | finish l r h => exact ⟨rfl, _, List.mem_append_right _ (List.mem_cons_self ..), h⟩

/-- Segments before the last one only read. -/
def ReadsOnly (task : κ → Task σ ε α) : Prop :=
  ∀ {c : κ} {seen s s' : σ} {x y : Task σ ε α}, Rest task c seen x →
    x.segment s = (.suspended y, s') → s' = s

/-- A call that runs alone ends with a last segment that began in the same state as the one before it. -/
theorem run_last (reads : ReadsOnly task) {c : κ} {s s' : σ} {r : Except ε α}
    (h : (task c).run s = (r, s')) : ∃ x, Rest task c s x ∧ x.segment s = (.done r, s') := by
  have key : ∀ x, Rest task c s x → x.run s = (r, s') → ∃ y, Rest task c s y ∧
      y.segment s = (.done r, s') := by
    refine Task.segmentInduction (fun x ih hrest hrun => ?_)
    rw [Task.run_eq_segment] at hrun
    rcases hseg : x.segment s with ⟨r' | y, s₁⟩
    · rw [hseg] at hrun
      cases hrun
      exact ⟨x, hrest, hseg⟩
    · rw [hseg] at hrun
      obtain rfl := reads hrest hseg
      exact ih _ y _ hseg (.next hrest hseg) hrun
  exact key _ (.start s) h

/-- **Running a call alone** is one of the interleavings. -/
theorem run_alone_trace (reads : ReadsOnly task) {c : κ} {s s' : σ} {r : Except ε α} (h : (task c).run s = (r, s')) :
    ∃ ls, (∀ l ∈ ls, l = .start c ∨ l = .suspend c) ∧ Run (Step task) ⟨s, []⟩ (ls ++ [.finish c s s r]) ⟨s', []⟩ := by
  have key : ∀ x seen, Rest task c seen x → seen = s → x.run s = (r, s') → ∀ ls,
      (∀ l ∈ ls, l = .start c ∨ l = .suspend c) → Run (Step task) ⟨s, []⟩ ls ⟨s, [⟨c, s, x⟩]⟩ →
      ∃ ls, (∀ l ∈ ls, l = .start c ∨ l = .suspend c) ∧ Run (Step task) ⟨s, []⟩ (ls ++ [.finish c s s r]) ⟨s', []⟩ := by
    refine Task.segmentInduction (fun x ih seen hrest hseen hrun ls hls run => ?_)
    subst hseen
    rw [Task.run_eq_segment] at hrun
    rcases hseg : x.segment seen with ⟨r' | y, s₁⟩
    · rw [hseg] at hrun
      cases hrun
      exact ⟨ls, hls, run.snoc (.finish [] [] hseg)⟩
    · rw [hseg] at hrun
      obtain rfl := reads hrest hseg
      refine ih _ y _ hseg _ (.next hrest hseg) rfl hrun _ ?_ (run.snoc (.suspend [] [] hseg))
      exact List.forall_mem_append.mpr ⟨hls, List.forall_mem_singleton.mpr (.inr rfl)⟩
  exact key _ s (.start s) rfl h _ (List.forall_mem_singleton.mpr (.inl rfl)) (Run.nil.snoc (.start s [] c))

theorem Label.starts_true (l : Label κ σ ε α) : l.Starts fun _ => True := by
  cases l <;> trivial

theorem run_alone (reads : ReadsOnly task) {c : κ} {s₀ s s' : σ} {r : Except ε α}
    {tr : List (Label κ σ ε α)} (run : Run (Step task) ⟨s₀, []⟩ tr ⟨s, []⟩)
    (h : (task c).run s = (r, s')) : ∃ tr', Run (Step task) ⟨s₀, []⟩ tr' ⟨s', []⟩ := by
  obtain ⟨ls, _, run'⟩ := run_alone_trace reads h
  exact ⟨_, run.trans run'⟩

/-! ## Sequential runs -/

/-- The calls of `h` run one after another from `s`, with the results `h` lists, and end in `s'`. -/
inductive SeqRun (task : κ → Task σ ε α) (s : σ) : List (κ × Except ε α) → σ → Prop
  | nil : SeqRun task s [] s
  | snoc {h : List (κ × Except ε α)} {s₁ s₂ : σ} {c : κ} {r : Except ε α} (run : SeqRun task s h s₁)
      (hc : (task c).run s₁ = (r, s₂)) : SeqRun task s (h ++ [(c, r)]) s₂

theorem SeqRun.of_concat {s s' : σ} {h : List (κ × Except ε α)} {c : κ} {r : Except ε α}
    (run : SeqRun task s (h ++ [(c, r)]) s') : ∃ s₁, SeqRun task s h s₁ ∧ (task c).run s₁ = (r, s') := by
  generalize hh : h ++ [(c, r)] = h' at run
  cases run with
  | nil => exact absurd hh (by simp)
  | @snoc h₁ s₁ s₂ c' r' run hc =>
      obtain ⟨rfl, hl⟩ := List.append_inj' hh rfl
      cases hl
      exact ⟨s₁, run, hc⟩

/-- The calls a trace starts. -/
def started : List (Label κ σ ε α) → List κ
  | [] => []
  | .start c :: tr => c :: started tr
  | _ :: tr => started tr

/-- The calls a trace finishes, in that order, with their results. -/
def finished : List (Label κ σ ε α) → List (κ × Except ε α)
  | [] => []
  | .finish c _ _ r :: tr => (c, r) :: finished tr
  | _ :: tr => finished tr

/-- The calls the trace started, all finished, give the results and the final state of running them one
    after another in some order. -/
def Linearizable (task : κ → Task σ ε α) (s₀ : σ) (tr : List (Label κ σ ε α)) (s : σ) : Prop :=
  ∃ order : List (κ × Except ε α), (order.map Prod.fst).Perm (started tr) ∧ order.Perm (finished tr) ∧
    SeqRun task s₀ order s

theorem started_append (tr tr' : List (Label κ σ ε α)) :
    started (tr ++ tr') = started tr ++ started tr' := by
  induction tr with
  | nil => rfl
  | cons l tr ih => cases l <;> simp [started, ih]

theorem finished_append (tr tr' : List (Label κ σ ε α)) :
    finished (tr ++ tr') = finished tr ++ finished tr' := by
  induction tr with
  | nil => rfl
  | cons l tr ih => cases l <;> simp [finished, ih]

/-- Every call that started is finished or running. -/
theorem started_perm {s₀ : σ} {tr : List (Label κ σ ε α)} {p : Pool κ σ ε α}
    (run : Run (Step task) ⟨s₀, []⟩ tr p) :
    ((finished tr).map Prod.fst ++ p.running.map Slot.call).Perm (started tr) := by
  refine run.invariant (I := fun tr p =>
    ((finished tr).map Prod.fst ++ p.running.map Slot.call).Perm (started tr)) (.refl _) ?_
  intro tr p l p' _ ih hstep
  rw [started_append, finished_append]
  cases hstep with
  | start s l c =>
      simp only [finished, started, List.append_nil, List.map_cons]
      exact List.perm_middle.trans ((ih.cons c).trans (List.perm_append_singleton c _).symm)
  | suspend l r h =>
      simp only [finished, started, List.append_nil, List.map_append, List.map_cons] at ih ⊢
      exact ih
  | finish l r h =>
      simp only [finished, started, List.append_nil, List.map_append, List.map_cons, List.map_nil,
        List.append_assoc, List.singleton_append] at ih ⊢
      exact (List.perm_middle.symm.append_left _).trans ih

/-- A last segment does in the present state what the whole call would do there. -/
def Atomic (task : κ → Task σ ε α) : Label κ σ ε α → Prop
  | .finish c seen s r => ∀ x s', Rest task c seen x → x.segment s = (.done r, s') →
      (task c).run s = (r, s')
  | _ => True

/-- **Linearization in the order of completion.** -/
theorem linearize {s₀ : σ} {tr : List (Label κ σ ε α)} {p : Pool κ σ ε α}
    (run : Run (Step task) ⟨s₀, []⟩ tr p)
    (reads : ReadsOnly task)
    (atomic : Always (fun _ l => Atomic task l) tr) : SeqRun task s₀ (finished tr) p.state := by
  refine run.invariant (I := fun tr p => Always (fun _ l => Atomic task l) tr →
    SeqRun task s₀ (finished tr) p.state) (fun _ => .nil) ?_ atomic
  intro tr p l p' hrun ih hstep hatomic
  have hseq := ih hatomic.init
  have hrest := rest_of_run hrun
  rw [finished_append]
  cases hstep with
  | start s l c =>
      simp only [finished, List.append_nil]
      exact hseq
  | suspend l r h =>
      have hx := hrest _ (List.mem_append_right _ (List.mem_cons_self ..))
      obtain rfl := reads hx h
      simp only [finished, List.append_nil]
      exact hseq
  | finish l r h =>
      have hx := hrest _ (List.mem_append_right _ (List.mem_cons_self ..))
      exact .snoc hseq (hatomic.last _ _ hx h)

/-- When no call is left running, the order of completion is a linearization. -/
theorem linearizable {s₀ s : σ} {tr : List (Label κ σ ε α)}
    (run : Run (Step task) ⟨s₀, []⟩ tr ⟨s, []⟩)
    (reads : ReadsOnly task)
    (atomic : Always (fun _ l => Atomic task l) tr) : Linearizable task s₀ tr s := by
  refine ⟨finished tr, ?_, .refl _, linearize run reads atomic⟩
  have hperm := started_perm run
  rwa [List.map_nil, List.append_nil] at hperm

end Pool
end Async
end VpnPi
