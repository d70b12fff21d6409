import VpnPi.Async.Trace
import VpnPi.Async.Zoom

/-!
# `Async.Saving` — a state that its calls save, file by file

Calls run on a shared state and each ends with saving it: for one file after another it renders the present state,
calls a write, and waits for the write to end. A write takes effect at one moment between its call and its end.
Nothing keeps the saves of different calls apart, so writes of one file may overlap and take effect in any order.

* `idle_iff` — when no call is under way, loading the files gives the present state exactly if the last write of
  each file to take effect is of the text that the last one to be called was given.
* `in_order` — which is so when overlapping writes of one file take effect in the order of their calls.

Generic in the state, the calls and the files; names nothing of the daemon.
-/

namespace VpnPi
namespace Async
namespace Saving

variable {κ μ φ τ ε α : Type}

/-- How a state is saved and loaded. -/
structure Format (μ φ τ : Type) where
  /-- The files, in the order of the writes. -/
  order : List φ
  save  : φ → μ → τ
  fresh : μ
  /-- What a new process starts with; a file may be missing. -/
  boot  : (φ → Option τ) → Option μ

structure Calls (κ μ ε α : Type) where
  task  : κ → Task μ ε α
  /-- Whether a call that returned this goes on to save. -/
  saves : κ → α → Bool

structure Write (τ : Type) where
  number : Nat
  text   : τ

/-- A file, with the writes of this process to it. `shown` is the text of the state it loads as: its content, or
    the text of a fresh state. `latest` is the text of the last write that was called (of what was loaded, at
    first), `landed` the greatest number of a write that has taken effect. -/
structure File (τ : Type) where
  content : Option τ
  shown   : τ
  latest  : τ
  called  : Nat
  landed  : Nat

/-- What is left of a call. -/
inductive Phase (μ φ τ ε α : Type) where
  | working (rest : Task μ ε α)
  /-- About to call the write of the first of these files. -/
  | saving (todo : List φ)
  /-- The write has been called and has not taken effect. -/
  | writing (f : φ) (w : Write τ) (todo : List φ)

structure State (κ μ φ τ ε α : Type) where
  mem     : μ
  files   : φ → File τ
  running : List (κ × Phase μ φ τ ε α)

inductive Label (κ φ τ : Type) where
  | start (c : κ)
  | suspend (c : κ)
  | returned (c : κ)
  | call (c : κ) (f : φ)
  | land (c : κ) (f : φ) (w : Write τ)
  | done (c : κ)
  | restart

variable [DecidableEq φ]

/-- The write of `text` is called. -/
def File.call (f : File τ) (text : τ) : File τ := { f with latest := text, called := f.called + 1 }

/-- A write takes effect. -/
def File.land (f : File τ) (w : Write τ) : File τ :=
  { f with content := some w.text, shown := w.text, landed := max f.landed w.number }

/-- A file as a process finds it that has loaded `m`. -/
def Format.found (F : Format μ φ τ) (content : φ → Option τ) (m : μ) (f : φ) : File τ :=
  ⟨content f, (content f).getD (F.save f F.fresh), F.save f m, 0, 0⟩

variable (F : Format μ φ τ) (C : Calls κ μ ε α)

inductive Step : State κ μ φ τ ε α → Label κ φ τ → State κ μ φ τ ε α → Prop
  | start (m : μ) (fs : φ → File τ) (l : List (κ × Phase μ φ τ ε α)) (c : κ) :
      Step ⟨m, fs, l⟩ (.start c) ⟨m, fs, (c, .working (C.task c)) :: l⟩
  | suspend {m m' : μ} {x y : Task μ ε α} (fs : φ → File τ) (c : κ) (l r : List (κ × Phase μ φ τ ε α))
      (h : x.segment m = (.suspended y, m')) :
      Step ⟨m, fs, l ++ (c, .working x) :: r⟩ (.suspend c) ⟨m', fs, l ++ (c, .working y) :: r⟩
  | returned {m m' : μ} {x : Task μ ε α} {c : κ} {a : α} (fs : φ → File τ) (l r : List (κ × Phase μ φ τ ε α))
      (h : x.segment m = (.done (.ok a), m')) (hsaves : C.saves c a = true) :
      Step ⟨m, fs, l ++ (c, .working x) :: r⟩ (.returned c) ⟨m', fs, l ++ (c, .saving F.order) :: r⟩
  | call (m : μ) (fs : φ → File τ) (c : κ) (f : φ) (todo : List φ) (l r : List (κ × Phase μ φ τ ε α)) :
      Step ⟨m, fs, l ++ (c, .saving (f :: todo)) :: r⟩ (.call c f)
        ⟨m, Function.update fs f ((fs f).call (F.save f m)),
          l ++ (c, .writing f ⟨(fs f).called + 1, F.save f m⟩ todo) :: r⟩
  | land (m : μ) (fs : φ → File τ) (c : κ) (f : φ) (w : Write τ) (todo : List φ)
      (l r : List (κ × Phase μ φ τ ε α)) :
      Step ⟨m, fs, l ++ (c, .writing f w todo) :: r⟩ (.land c f w)
        ⟨m, Function.update fs f ((fs f).land w), l ++ (c, .saving todo) :: r⟩
  | done (m : μ) (fs : φ → File τ) (c : κ) (l r : List (κ × Phase μ φ τ ε α)) :
      Step ⟨m, fs, l ++ (c, .saving []) :: r⟩ (.done c) ⟨m, fs, l ++ r⟩
  | restart {m' : μ} (m : μ) (fs : φ → File τ) (l : List (κ × Phase μ φ τ ε α))
      (h : F.boot (fun f => (fs f).content) = some m') :
      Step ⟨m, fs, l⟩ .restart ⟨m', F.found (fun f => (fs f).content) m', []⟩

/-- The first process, before the first call: no file is there. -/
def Format.init (F : Format μ φ τ) : State κ μ φ τ ε α := ⟨F.fresh, F.found (fun _ => none) F.fresh, []⟩

variable {F C}

/-! ## The last write of a file to be called -/

/-- The call still has a write of `f` to call. -/
def Phase.Owes (f : φ) : Phase μ φ τ ε α → Prop
  | working _ => True
  | saving todo => f ∈ todo
  | writing _ _ todo => f ∈ todo

/-- Some call still has a write of `f` to call. -/
def State.Owes (f : φ) (s : State κ μ φ τ ε α) : Prop := ∃ e ∈ s.running, e.2.Owes f

/-- The last write of each file was given the present state, unless a write of it is still to be called. -/
def Current (F : Format μ φ τ) (s : State κ μ φ τ ε α) : Prop :=
  ∀ f, s.Owes f ∨ (s.files f).latest = F.save f s.mem

omit [DecidableEq φ] in
theorem owes_of_mem {f : φ} {m : μ} {fs : φ → File τ} {l r : List (κ × Phase μ φ τ ε α)} {c : κ}
    {p : Phase μ φ τ ε α} (h : p.Owes f) : State.Owes f ⟨m, fs, l ++ (c, p) :: r⟩ :=
  ⟨_, List.mem_append_right _ (List.mem_cons_self ..), h⟩

omit [DecidableEq φ] in
/-- A call that owed no write has moved on: the others owe what they owed. -/
theorem owes_replace {f : φ} {m m' : μ} {fs fs' : φ → File τ} {l r : List (κ × Phase μ φ τ ε α)} {c : κ}
    {p p' : Phase μ φ τ ε α} (h : State.Owes f ⟨m, fs, l ++ (c, p) :: r⟩) (hp : p.Owes f → p'.Owes f) :
    State.Owes f ⟨m', fs', l ++ (c, p') :: r⟩ := by
  obtain ⟨e, he, hf⟩ := h
  rcases List.mem_append.mp he with he | he
  · exact ⟨e, List.mem_append_left _ he, hf⟩
  · rcases List.mem_cons.mp he with rfl | he
    · exact ⟨_, List.mem_append_right _ (List.mem_cons_self ..), hp hf⟩
    · exact ⟨e, List.mem_append_right _ (List.mem_cons_of_mem _ he), hf⟩

theorem Step.current {s s' : State κ μ φ τ ε α} {e : Label κ φ τ} (horder : ∀ f, f ∈ F.order)
    (h : Step F C s e s') (hs : Current F s) : Current F s' := by
  intro f
  -- a call that works owes every file, one that saves those it has still to write
  cases h with
  | start m fs l c => exact .inl ⟨_, List.mem_cons_self .., trivial⟩
  | suspend fs c l r h => exact .inl (owes_of_mem trivial)
  | returned fs l r h hsaves => exact .inl (owes_of_mem (horder f))
  | call m fs c g todo l r =>
      by_cases hfg : f = g
      · refine .inr ?_
        rw [hfg]
        show (Function.update fs g _ g).latest = _
        rw [Function.update_self]
        rfl
      · refine (hs f).imp (fun h => owes_replace h fun hf => ?_) fun h => ?_
        · exact (List.mem_cons.mp hf).resolve_left hfg
        · show (Function.update fs g _ f).latest = _
          rw [Function.update_of_ne hfg]
          exact h
  | land m fs c g w todo l r =>
      rcases hs f with h | h
      · exact .inl (owes_replace h id)
      refine .inr ?_
      show (Function.update fs g _ f).latest = _
      by_cases hfg : f = g
      · rw [hfg] at h ⊢
        rw [Function.update_self]
        exact h
      · rw [Function.update_of_ne hfg]
        exact h
  | done m fs c l r =>
      refine (hs f).imp (fun ⟨e, he, hf⟩ => ?_) id
      rcases List.mem_append.mp he with he | he
      · exact ⟨e, List.mem_append_left _ he, hf⟩
      · rcases List.mem_cons.mp he with rfl | he
        · cases hf
        · exact ⟨e, List.mem_append_right _ he, hf⟩
  | restart m fs l h => exact .inr rfl

theorem current_of_run {tr : List (Label κ φ τ)} {s : State κ μ φ τ ε α} (horder : ∀ f, f ∈ F.order)
    (run : Run (Step F C) F.init tr s) : Current F s :=
  run.invariant (I := fun _ s => Current F s) (fun _ => .inr rfl) fun _ _ _ _ _ ih h => h.current horder ih

/-! ## What the files hold -/

/-- Loading gives back what was saved of states with `Good`, which is what the calls keep. -/
structure Lawful (F : Format μ φ τ) (C : Calls κ μ ε α) (Good : μ → Prop) : Prop where
  order : ∀ f, f ∈ F.order
  fresh : Good F.fresh
  keeps : ∀ c, (C.task c).Keeps Good
  boot  : ∀ content : φ → Option τ, (∀ f, content f = none ∨ ∃ m, Good m ∧ content f = some (F.save f m)) →
    ∃ m, F.boot content = some m ∧ Good m ∧ ∀ f, F.save f m = (content f).getD (F.save f F.fresh)

/-- A text that was rendered of a good state. -/
def Rendered (F : Format μ φ τ) (Good : μ → Prop) (f : φ) (text : τ) : Prop := ∃ m, Good m ∧ text = F.save f m

/-- Everything rendered so far was rendered of good states. -/
def Phase.Good (F : Format μ φ τ) (Good : μ → Prop) : Phase μ φ τ ε α → Prop
  | working x => x.Keeps Good
  | saving _ => True
  | writing f w _ => Rendered F Good f w.text

structure File.Sound (F : Format μ φ τ) (Good : μ → Prop) (f : φ) (file : File τ) : Prop where
  content : file.content = none ∨ ∃ m, Good m ∧ file.content = some (F.save f m)
  shown   : file.shown = file.content.getD (F.save f F.fresh)

structure Sound (F : Format μ φ τ) (Good : μ → Prop) (s : State κ μ φ τ ε α) : Prop where
  mem     : Good s.mem
  files   : ∀ f, (s.files f).Sound F Good f
  running : ∀ e ∈ s.running, e.2.Good F Good

variable {Good : μ → Prop}

omit [DecidableEq φ] in
theorem forall_replace {P : κ × Phase μ φ τ ε α → Prop} {l r : List (κ × Phase μ φ τ ε α)}
    {e e' : κ × Phase μ φ τ ε α} (h : ∀ x ∈ l ++ e :: r, P x) (he : P e') : ∀ x ∈ l ++ e' :: r, P x := by
  intro x hx
  rcases List.mem_append.mp hx with hx | hx
  · exact h x (List.mem_append_left _ hx)
  · rcases List.mem_cons.mp hx with rfl | hx
    · exact he
    · exact h x (List.mem_append_right _ (List.mem_cons_of_mem _ hx))

theorem Step.sound {s s' : State κ μ φ τ ε α} {e : Label κ φ τ} (L : Lawful F C Good) (h : Step F C s e s')
    (hs : Sound F Good s) : Sound F Good s' := by
  cases h with
  | start m fs l c => exact { hs with running := List.forall_mem_cons.mpr ⟨L.keeps c, hs.running⟩ }
  | suspend fs c l r h =>
      have hx : Phase.Good F Good (.working _) := hs.running _ (List.mem_append_right _ (List.mem_cons_self ..))
      obtain ⟨hmem, hrest⟩ := hx.segment hs.mem h
      exact ⟨hmem, hs.files, forall_replace hs.running (hrest _ rfl)⟩
  | returned fs l r h hsaves =>
      have hx : Phase.Good F Good (.working _) := hs.running _ (List.mem_append_right _ (List.mem_cons_self ..))
      exact ⟨(hx.segment hs.mem h).1, hs.files, forall_replace hs.running trivial⟩
  | call m fs c g todo l r =>
      refine ⟨hs.mem, ?_, forall_replace hs.running ⟨m, hs.mem, rfl⟩⟩
      have hg := hs.files g
      -- a write that is only called shows nothing yet
      exact (Function.forall_update_iff fs fun f file => file.Sound F Good f).mpr
        ⟨⟨hg.content, hg.shown⟩, fun f _ => hs.files f⟩
  | land m fs c g w todo l r =>
      have hw : Phase.Good F Good (.writing g w todo) :=
        hs.running _ (List.mem_append_right _ (List.mem_cons_self ..))
      obtain ⟨m', hm', htext⟩ := hw
      refine ⟨hs.mem, ?_, forall_replace hs.running trivial⟩
      exact (Function.forall_update_iff fs fun f file => file.Sound F Good f).mpr
        ⟨⟨.inr ⟨m', hm', congrArg some htext⟩, rfl⟩, fun f _ => hs.files f⟩
  | done m fs c l r =>
      refine { hs with running := fun e he => ?_ }
      rcases List.mem_append.mp he with he | he
      · exact hs.running e (List.mem_append_left _ he)
      · exact hs.running e (List.mem_append_right _ (List.mem_cons_of_mem _ he))
  | restart m fs l h =>
      obtain ⟨m', hboot, hgood, _⟩ := L.boot _ fun f => (hs.files f).content
      obtain rfl := Option.some.inj (h.symm.trans hboot)
      -- the files stay as they are, and nothing is under way
      exact ⟨hgood, fun f => ⟨(hs.files f).content, rfl⟩, fun e he => by cases he⟩

omit [DecidableEq φ] in
theorem Sound.init (L : Lawful F C Good) : Sound F Good (F.init : State κ μ φ τ ε α) :=
  ⟨L.fresh, fun _ => ⟨.inl rfl, rfl⟩, fun e he => by cases he⟩

theorem sound_of_run {tr : List (Label κ φ τ)} {s : State κ μ φ τ ε α} (L : Lawful F C Good)
    (run : Run (Step F C) F.init tr s) : Sound F Good s :=
  run.invariant (I := fun _ s => Sound F Good s) (.init L) fun _ _ _ _ _ ih h => h.sound L ih

/-- Loading the files gives a state that is saved as the present one is. -/
def Durable (F : Format μ φ τ) (s : State κ μ φ τ ε α) : Prop :=
  ∃ m, F.boot (fun f => (s.files f).content) = some m ∧ ∀ f, F.save f m = F.save f s.mem

/-- Each file shows the text of the last write of it that was called. -/
def LastCalled (s : State κ μ φ τ ε α) : Prop := ∀ f, (s.files f).shown = (s.files f).latest

/-- **When no call is under way**, the files are good for a restart exactly if each shows the text of the last
    write of it that was called. -/
theorem idle_iff {tr : List (Label κ φ τ)} {s : State κ μ φ τ ε α} (L : Lawful F C Good)
    (run : Run (Step F C) F.init tr s) (idle : s.running = []) : Durable F s ↔ LastCalled s := by
  have hsound := sound_of_run L run
  obtain ⟨m, hboot, _, hsave⟩ := L.boot _ fun f => (hsound.files f).content
  have hlatest : ∀ f, (s.files f).latest = F.save f s.mem := by
    intro f
    rcases current_of_run L.order run f with ⟨e, he, _⟩ | h
    · rw [idle] at he
      cases he
    · exact h
  have hshown : ∀ f, F.save f m = (s.files f).shown := fun f => (hsave f).trans (hsound.files f).shown.symm
  constructor
  · rintro ⟨m', hboot', hm'⟩ f
    obtain rfl := Option.some.inj (hboot.symm.trans hboot')
    rw [← hshown, hm', hlatest]
  · intro h
    exact ⟨m, hboot, fun f => by rw [hshown, h f, hlatest]⟩

/-! ## Writes that take effect in the order of their calls -/

/-- The condition on a step: a write takes effect only if no later-called write of the file has, other than of the
    same text. -/
def InOrder (s : State κ μ φ τ ε α) : Label κ φ τ → Prop
  | .land _ f w => (s.files f).landed < w.number ∨ (s.files f).shown = w.text
  | _ => True

/-- The pending writes of a file. -/
def Pending (l : List (κ × Phase μ φ τ ε α)) (f : φ) (w : Write τ) : Prop := ∃ c todo, (c, .writing f w todo) ∈ l

/-- Pending writes are numbered up to the last one, which has its text; if it is not pending, it shows. -/
structure Ordered (l : List (κ × Phase μ φ τ ε α)) (f : φ) (file : File τ) : Prop where
  number : ∀ w, Pending l f w → w.number ≤ file.called
  landed : file.landed ≤ file.called
  text   : ∀ w, Pending l f w → w.number = file.called → w.text = file.latest
  last   : (∃ w, Pending l f w ∧ w.number = file.called) ∨ file.landed = file.called ∧ file.shown = file.latest

omit [DecidableEq φ] in
/-- Pending writes are those of the other calls and of this one. -/
theorem pending_replace {l r : List (κ × Phase μ φ τ ε α)} {c : κ} {p : Phase μ φ τ ε α} {f : φ} {w : Write τ} :
    Pending (l ++ (c, p) :: r) f w ↔ Pending (l ++ r) f w ∨ ∃ todo, p = .writing f w todo := by
  constructor
  · rintro ⟨c', todo, h⟩
    rcases List.mem_append.mp h with h | h
    · exact .inl ⟨c', todo, List.mem_append_left _ h⟩
    · rcases List.mem_cons.mp h with h | h
      · exact .inr ⟨todo, (Prod.mk.inj h).2.symm⟩
      · exact .inl ⟨c', todo, List.mem_append_right _ h⟩
  · rintro (⟨c', todo, h⟩ | ⟨todo, rfl⟩)
    · rcases List.mem_append.mp h with h | h
      · exact ⟨c', todo, List.mem_append_left _ h⟩
      · exact ⟨c', todo, List.mem_append_right _ (List.mem_cons_of_mem _ h)⟩
    · exact ⟨c, todo, List.mem_append_right _ (List.mem_cons_self ..)⟩

omit [DecidableEq φ] in
theorem Ordered.congr {l l' : List (κ × Phase μ φ τ ε α)} {f : φ} {file : File τ} (h : Ordered l f file)
    (hl : ∀ w, Pending l' f w ↔ Pending l f w) : Ordered l' f file := by
  refine ⟨fun w hw => h.number w ((hl w).mp hw), h.landed, fun w hw => h.text w ((hl w).mp hw), h.last.imp ?_ id⟩
  rintro ⟨w, hw, hn⟩
  exact ⟨w, (hl w).mpr hw, hn⟩

omit [DecidableEq φ] in
/-- A call that had no pending write and has none. -/
theorem pending_idle {l r : List (κ × Phase μ φ τ ε α)} {c : κ} {p p' : Phase μ φ τ ε α} {f : φ} {w : Write τ}
    (hp : ∀ todo, p ≠ .writing f w todo) (hp' : ∀ todo, p' ≠ .writing f w todo) :
    Pending (l ++ (c, p') :: r) f w ↔ Pending (l ++ (c, p) :: r) f w := by
  rw [pending_replace, pending_replace]
  exact or_congr_right ⟨fun ⟨todo, h⟩ => absurd h (hp' todo), fun ⟨todo, h⟩ => absurd h (hp todo)⟩

omit [DecidableEq φ] in
/-- The write that is called is the last one. -/
theorem Ordered.call {l r : List (κ × Phase μ φ τ ε α)} {c : κ} {f : φ} {todo : List φ} {file : File τ} (text : τ)
    (h : Ordered (l ++ (c, .saving (f :: todo)) :: r) f file) :
    Ordered (l ++ (c, .writing f ⟨file.called + 1, text⟩ todo) :: r) f (file.call text) := by
  have old : ∀ w, Pending (l ++ r) f w → w.number ≤ file.called := fun w hw => h.number w (pending_replace.mpr (.inl hw))
  refine ⟨fun w hw => ?_, Nat.le_succ_of_le h.landed, fun w hw hn => ?_, .inl ⟨⟨file.called + 1, text⟩, ?_, rfl⟩⟩
  · rcases pending_replace.mp hw with hw | ⟨todo', heq⟩
    · exact Nat.le_succ_of_le (old w hw)
    · cases heq
      exact Nat.le_refl _
  · rcases pending_replace.mp hw with hw | ⟨todo', heq⟩
    · have hle := old w hw
      rw [hn] at hle
      exact absurd hle (Nat.not_succ_le_self _)
    · cases heq
      rfl
  · exact pending_replace.mpr (.inr ⟨todo, rfl⟩)

omit [DecidableEq φ] in
/-- A write takes effect: if it is the last one it shows from now on, and otherwise nothing changes. -/
theorem Ordered.land {l r : List (κ × Phase μ φ τ ε α)} {c : κ} {f : φ} {todo : List φ} {file : File τ} {w : Write τ}
    (h : Ordered (l ++ (c, .writing f w todo) :: r) f file) (hw : file.landed < w.number ∨ file.shown = w.text) :
    Ordered (l ++ (c, .saving todo) :: r) f (file.land w) := by
  have hself : Pending (l ++ (c, .writing f w todo) :: r) f w := pending_replace.mpr (.inr ⟨todo, rfl⟩)
  have hsub : ∀ v, Pending (l ++ (c, .saving todo) :: r) f v → Pending (l ++ (c, .writing f w todo) :: r) f v := by
    intro v hv
    rcases pending_replace.mp hv with hv | ⟨_, heq⟩
    · exact pending_replace.mpr (.inl hv)
    · cases heq
  have hle := h.number w hself
  refine ⟨fun v hv => h.number v (hsub v hv), Nat.max_le.mpr ⟨h.landed, hle⟩, fun v hv => h.text v (hsub v hv), ?_⟩
  by_cases hlast : w.number = file.called
  · -- the last write that was called
    refine .inr ⟨?_, h.text w hself hlast⟩
    show max file.landed w.number = file.called
    rw [hlast, Nat.max_eq_right h.landed]
  · rcases h.last with ⟨v, hv, hn⟩ | ⟨hlanded, hshown⟩
    · rcases pending_replace.mp hv with hv | ⟨_, heq⟩
      · exact .inl ⟨v, pending_replace.mpr (.inl hv), hn⟩
      · cases heq
        exact absurd hn hlast
    · -- the last one has taken effect: this one has its text
      have htext : file.shown = w.text := hw.resolve_left fun hlt => by omega
      refine .inr ⟨?_, htext.symm.trans hshown⟩
      show max file.landed w.number = file.called
      rw [hlanded, Nat.max_eq_left hle]

theorem Step.ordered {s s' : State κ μ φ τ ε α} {e : Label κ φ τ} (L : Lawful F C Good) (h : Step F C s e s')
    (he : InOrder s e) (hsound : Sound F Good s) (hs : ∀ f, Ordered s.running f (s.files f)) :
    ∀ f, Ordered s'.running f (s'.files f) := by
  intro f
  cases h with
  | start m fs l c =>
      refine (hs f).congr fun w => ?_
      rw [show (c, Phase.working (C.task c)) :: l = [] ++ (c, .working (C.task c)) :: l from rfl, pending_replace]
      exact or_iff_left fun ⟨_, h⟩ => by cases h
  | suspend fs c l r h => exact (hs f).congr fun w => pending_idle (fun _ h => by cases h) fun _ h => by cases h
  | returned fs l r h hsaves =>
      exact (hs f).congr fun w => pending_idle (fun _ h => by cases h) fun _ h => by cases h
  | done m fs c l r =>
      refine (hs f).congr fun w => ?_
      rw [pending_replace]
      exact (or_iff_left fun ⟨_, h⟩ => by cases h).symm
  | call m fs c g todo l r =>
      show Ordered _ f (Function.update fs g _ f)
      by_cases hfg : f = g
      · rw [hfg, Function.update_self]
        exact (hs g).call _
      · rw [Function.update_of_ne hfg]
        exact (hs f).congr fun w => pending_idle (fun _ h => by cases h) fun _ h => by cases h; exact hfg rfl
  | land m fs c g w todo l r =>
      show Ordered _ f (Function.update fs g _ f)
      by_cases hfg : f = g
      · rw [hfg, Function.update_self]
        exact (hs g).land he
      · rw [Function.update_of_ne hfg]
        exact (hs f).congr fun w => pending_idle (fun _ h => by cases h; exact hfg rfl) fun _ h => by cases h
  | restart m fs l h =>
      obtain ⟨m', hboot, _, hsave⟩ := L.boot _ fun f => (hsound.files f).content
      obtain rfl := Option.some.inj (h.symm.trans hboot)
      exact ⟨fun w ⟨_, _, h⟩ => (by cases h), Nat.le_refl _, fun w ⟨_, _, h⟩ => (by cases h), .inr ⟨rfl, (hsave f).symm⟩⟩

/-- **Writes in the order of their calls** leave the text of the last one. -/
theorem in_order {tr : List (Label κ φ τ)} {s : State κ μ φ τ ε α} (L : Lawful F C Good)
    (run : Run (Where (Step F C) InOrder) F.init tr s) (idle : s.running = []) : LastCalled s := by
  have key : Sound F Good s ∧ ∀ f, Ordered s.running f (s.files f) := by
    refine run.invariant (I := fun _ s => Sound F Good s ∧ ∀ f, Ordered s.running f (s.files f)) ?_
      fun _ _ _ _ _ ih h => ⟨h.1.sound L ih.1, h.1.ordered L h.2 ih.1 ih.2⟩
    refine ⟨.init L, fun f => ⟨fun w ⟨_, _, h⟩ => (by cases h), Nat.le_refl _, fun w ⟨_, _, h⟩ => (by cases h), ?_⟩⟩
    exact .inr ⟨rfl, rfl⟩
  intro f
  rcases (key.2 f).last with ⟨w, ⟨_, _, hw⟩, _⟩ | ⟨_, hshown⟩
  · rw [idle] at hw
    cases hw
  · exact hshown

/-! ## One call at a time -/

/-- No write has taken effect that was not called. -/
def Counted (fs : φ → File τ) : Prop := ∀ f, (fs f).landed ≤ (fs f).called

omit [DecidableEq φ] in
theorem Counted.found (F : Format μ φ τ) (content : φ → Option τ) (m : μ) : Counted (F.found content m) :=
  fun _ => Nat.le_refl _

theorem Counted.call {fs : φ → File τ} (h : Counted fs) (f : φ) (text : τ) :
    Counted (Function.update fs f ((fs f).call text)) :=
  (Function.forall_update_iff fs fun _ file => file.landed ≤ file.called).mpr
    ⟨Nat.le_succ_of_le (h f), fun f' _ => h f'⟩

theorem Counted.land {fs : φ → File τ} (h : Counted fs) {f : φ} {w : Write τ} (hw : w.number ≤ (fs f).called) :
    Counted (Function.update fs f ((fs f).land w)) :=
  (Function.forall_update_iff fs fun _ file => file.landed ≤ file.called).mpr
    ⟨Nat.max_le.mpr ⟨h f, hw⟩, fun f' _ => h f'⟩

/-- A condition on steps that a write meets which was called last. -/
structure Admits (ok : State κ μ φ τ ε α → Label κ φ τ → Prop) : Prop where
  quiet : ∀ s e, (∀ c f w, e ≠ .land c f w) → ok s e
  land  : ∀ s c f w, (s.files f).landed < w.number → ok s (.land c f w)

omit [DecidableEq φ] in
theorem admits_all : Admits fun (_ : State κ μ φ τ ε α) _ => True := ⟨fun _ _ _ => trivial, fun _ _ _ _ _ => trivial⟩

omit [DecidableEq φ] in
theorem admits_inOrder : Admits (@InOrder κ μ φ τ ε α) := by
  refine ⟨fun s e h => ?_, fun s c f w h => .inl h⟩
  cases e with
  | land c f w => exact absurd rfl (h c f w)
  | _ => trivial

variable {ok : State κ μ φ τ ε α → Label κ φ τ → Prop}

/-- A call may work alone. -/
theorem work_alone (hok : Admits ok) {s₀ : State κ μ φ τ ε α} {tr : List (Label κ φ τ)} {m m' : μ} {fs : φ → File τ}
    {l : List (κ × Phase μ φ τ ε α)} {c : κ} {a : α} (run : Run (Where (Step F C) ok) s₀ tr ⟨m, fs, l⟩)
    (h : (C.task c).run m = (.ok a, m')) (hsaves : C.saves c a = true) :
    ∃ tr', Run (Where (Step F C) ok) s₀ (tr ++ .start c :: tr') ⟨m', fs, (c, .saving F.order) :: l⟩ := by
  have key : ∀ x : Task μ ε α, ∀ m tr', x.run m = (.ok a, m') →
      Run (Where (Step F C) ok) s₀ (tr ++ .start c :: tr') ⟨m, fs, (c, .working x) :: l⟩ →
      ∃ tr', Run (Where (Step F C) ok) s₀ (tr ++ .start c :: tr') ⟨m', fs, (c, .saving F.order) :: l⟩ := by
    refine Task.segmentInduction fun x ih m tr' hx run => ?_
    rw [Task.run_eq_segment] at hx
    rcases hseg : x.segment m with ⟨r | y, m₁⟩
    · rw [hseg] at hx
      cases hx
      have returned := run.snoc ⟨.returned fs [] l hseg hsaves, hok.quiet _ _ fun _ _ _ h => by cases h⟩
      rw [List.append_assoc, List.cons_append] at returned
      exact ⟨_, returned⟩
    · rw [hseg] at hx
      have suspended := run.snoc ⟨.suspend fs c [] l hseg, hok.quiet _ _ fun _ _ _ h => by cases h⟩
      rw [List.append_assoc, List.cons_append] at suspended
      exact ih m y m₁ hseg m₁ _ hx suspended
  exact key _ m [] h (run.snoc ⟨.start m fs l c, hok.quiet _ _ fun _ _ _ h => by cases h⟩)

/-- A call may save alone; it leaves the other files as they are. -/
theorem save_alone (hok : Admits ok) {s₀ : State κ μ φ τ ε α} {tr : List (Label κ φ τ)} {m : μ} {fs : φ → File τ}
    {l r : List (κ × Phase μ φ τ ε α)} {c : κ} {todo : List φ} (hfs : Counted fs)
    (run : Run (Where (Step F C) ok) s₀ tr ⟨m, fs, l ++ (c, .saving todo) :: r⟩) :
    ∃ tr' fs', Run (Where (Step F C) ok) s₀ (tr ++ tr' ++ [.done c]) ⟨m, fs', l ++ r⟩ ∧ Counted fs' ∧
      (∀ f, (fs f).called ≤ (fs' f).called) ∧ ∀ f, f ∉ todo → fs' f = fs f := by
  induction todo generalizing tr fs with
  | nil =>
      have done := run.snoc ⟨.done m fs c l r, hok.quiet _ _ fun _ _ _ h => by cases h⟩
      refine ⟨[], fs, ?_, hfs, fun f => Nat.le_refl _, fun _ _ => rfl⟩
      rw [List.append_nil]
      exact done
  | cons g todo ih =>
      -- each write takes effect before the next one is called
      have called := run.snoc ⟨.call m fs c g todo l r, hok.quiet _ _ fun _ _ _ h => by cases h⟩
      have hself : (Function.update fs g ((fs g).call (F.save g m)) g).called = (fs g).called + 1 := by
        rw [Function.update_self]
        rfl
      have hlanded : (Function.update fs g ((fs g).call (F.save g m)) g).landed < (fs g).called + 1 := by
        rw [Function.update_self]
        exact Nat.lt_succ_of_le (hfs g)
      have landed := called.snoc ⟨.land m _ c g ⟨(fs g).called + 1, F.save g m⟩ todo l r, hok.land _ _ _ _ hlanded⟩
      obtain ⟨tr', fs', run', hfs', hcalled, hother⟩ := ih ((hfs.call g (F.save g m)).land (Nat.le_of_eq hself.symm)) landed
      refine ⟨.call c g :: .land c g ⟨(fs g).called + 1, F.save g m⟩ :: tr', fs', ?_, hfs', fun f => ?_, fun f hf => ?_⟩
      · simp only [List.append_assoc, List.cons_append, List.nil_append] at run' ⊢
        exact run'
      · refine Nat.le_trans ?_ (hcalled f)
        by_cases hfg : f = g
        · rw [hfg, Function.update_self]
          show _ ≤ (Function.update fs g _ g).called
          exact Nat.le_trans (Nat.le_succ _) (Nat.le_of_eq hself.symm)
        · refine Nat.le_of_eq ?_
          rw [Function.update_of_ne hfg, Function.update_of_ne hfg]
      · rw [List.mem_cons, not_or] at hf
        obtain ⟨hfg, hf⟩ := hf
        rw [hother f hf, Function.update_of_ne hfg, Function.update_of_ne hfg]

end Saving
end Async
end VpnPi
