import Mathlib.Data.List.Basic

/-!
# `Async.Lock` — mutual exclusion by chaining promises

`locked(fn)` queues `fn` behind a promise and makes `fn`'s own promise the one the next caller waits for. A
`Chain` lists the links in the order of the calls: a link is `waiting` until its predecessor has settled, then
`running`, then `settled`, whatever its job ended with. Nothing in the rules says that at most one job runs;
it follows:

* `Chained` — settled links, then at most one that runs, then those that wait — is kept by every operation;
* on a chained list the operations are those of a first-in, first-out lock (`Starts.view`, `Settles.view`).

Generic in the jobs; names nothing of the daemon.
-/

namespace VpnPi
namespace Async

inductive Phase (κ : Type) where
  | waiting (job : κ)
  | running (job : κ)
  | settled

abbrev Chain (κ : Type) := List (Phase κ)

namespace Chain

variable {κ : Type}

/-! ## The operations -/

/-- `this.lock.then(fn)`, remembered as the new `this.lock`. -/
def enqueue (c : Chain κ) (job : κ) : Chain κ := c ++ [.waiting job]

/-- The predecessor's promise has settled (the first link has none), so the job is called. -/
inductive Starts (job : κ) : Chain κ → Chain κ → Prop
  | first (post : Chain κ) : Starts job (.waiting job :: post) (.running job :: post)
  | next (pre post : Chain κ) :
      Starts job (pre ++ .settled :: .waiting job :: post) (pre ++ .settled :: .running job :: post)

/-- The promise the job returned has settled. -/
inductive Settles (job : κ) : Chain κ → Chain κ → Prop
  | mk (pre post : Chain κ) : Settles job (pre ++ .running job :: post) (pre ++ .settled :: post)

/-! ## What a chain shows -/

def running : Chain κ → List κ
  | [] => []
  | .running job :: c => job :: running c
  | _ :: c => running c

def waiting : Chain κ → List κ
  | [] => []
  | .waiting job :: c => job :: waiting c
  | _ :: c => waiting c

/-- No job is queued or running. -/
def Idle (c : Chain κ) : Prop := c.running = [] ∧ c.waiting = []

@[simp] theorem running_append (c d : Chain κ) : running (c ++ d) = running c ++ running d := by
  induction c with
  | nil => rfl
  | cons p c ih => cases p <;> simp [running, ih]

@[simp] theorem waiting_append (c d : Chain κ) : waiting (c ++ d) = waiting c ++ waiting d := by
  induction c with
  | nil => rfl
  | cons p c ih => cases p <;> simp [waiting, ih]

@[simp] theorem running_enqueue (c : Chain κ) (job : κ) : (c.enqueue job).running = c.running := by
  rw [enqueue, running_append]
  exact List.append_nil _

@[simp] theorem waiting_enqueue (c : Chain κ) (job : κ) :
    (c.enqueue job).waiting = c.waiting ++ [job] := by
  rw [enqueue, waiting_append]
  rfl

/-! ## The invariant -/

/-- Only waiting links. -/
def AllWaiting : Chain κ → Prop
  | [] => True
  | .waiting _ :: c => AllWaiting c
  | _ :: _ => False

/-- Settled links, then at most one that runs, then those that wait. -/
def Chained : Chain κ → Prop
  | [] => True
  | .settled :: c => Chained c
  | .running _ :: c => AllWaiting c
  | .waiting _ :: c => AllWaiting c

theorem AllWaiting.chained {c : Chain κ} (h : AllWaiting c) : Chained c := by
  cases c with
  | nil => trivial
  | cons p c =>
      cases p with
      | waiting job => exact h
      | running job => exact h.elim
      | settled => exact h.elim

theorem AllWaiting.running {c : Chain κ} (h : AllWaiting c) : c.running = [] := by
  induction c with
  | nil => rfl
  | cons p c ih =>
      cases p with
      | waiting job => exact ih h
      | running job => exact h.elim
      | settled => exact h.elim

theorem AllWaiting.append {c : Chain κ} {job : κ} (h : AllWaiting c) :
    AllWaiting (c ++ [.waiting job]) := by
  induction c with
  | nil => trivial
  | cons p c ih =>
      cases p with
      | waiting job => exact ih h
      | running job => exact h.elim
      | settled => exact h.elim

/-- What stands before a settled link has settled, and what stands after it is chained by itself. -/
theorem Chained.settled_split {pre post : Chain κ} (h : Chained (pre ++ .settled :: post)) :
    pre.running = [] ∧ pre.waiting = [] ∧ Chained post ∧ ∀ {d}, Chained d → Chained (pre ++ .settled :: d) := by
  induction pre with
  | nil => exact ⟨rfl, rfl, h, id⟩
  | cons p pre ih =>
      -- nothing settles behind a link that has not
      have hno : ¬AllWaiting (pre ++ .settled :: post) := by
        clear ih h
        induction pre with
        | nil => exact id
        | cons q pre ih =>
            cases q with
            | waiting job => exact ih
            | running job => exact id
            | settled => exact id
      cases p with
      | waiting job => exact absurd h hno
      | running job => exact absurd h hno
      | settled => exact ih h

theorem Chained.running_split {pre post : Chain κ} {job : κ} (h : Chained (pre ++ .running job :: post)) :
    pre.running = [] ∧ pre.waiting = [] ∧ AllWaiting post ∧ Chained (pre ++ .settled :: post) := by
  induction pre with
  | nil => exact ⟨rfl, rfl, h, AllWaiting.chained (c := post) h⟩
  | cons p pre ih =>
      have hno : ¬AllWaiting (pre ++ .running job :: post) := by
        intro hw
        have := hw.running
        rw [running_append] at this
        exact absurd (List.append_eq_nil_iff.mp this).2 nofun
      cases p with
      | waiting job => exact absurd h hno
      | running job => exact absurd h hno
      | settled => exact ih h

theorem Chained.enqueue {c : Chain κ} (h : Chained c) (job : κ) : Chained (c.enqueue job) := by
  unfold Chain.enqueue
  induction c with
  | nil => trivial
  | cons p c ih =>
      cases p with
      | waiting job => exact AllWaiting.append h
      | running job => exact AllWaiting.append h
      | settled => exact ih h

theorem Starts.chained {c d : Chain κ} {job : κ} (h : Starts job c d) (hc : Chained c) : Chained d := by
  cases h with
  | first post => exact hc
  | next pre post =>
      obtain ⟨_, _, hpost, hkeep⟩ := hc.settled_split
      exact hkeep hpost

theorem Settles.chained {c d : Chain κ} {job : κ} (h : Settles job c d) (hc : Chained c) : Chained d := by
  cases h with
  | mk pre post => exact hc.running_split.2.2.2

/-! ## A first-in, first-out lock -/

/-- **Mutual exclusion.** -/
theorem Chained.running_length {c : Chain κ} (h : Chained c) : c.running.length ≤ 1 := by
  induction c with
  | nil => exact Nat.zero_le _
  | cons p c ih =>
      cases p with
      | waiting job =>
          show (running c).length ≤ 1
          rw [AllWaiting.running h]
          exact Nat.zero_le _
      | running job =>
          show (job :: running c).length ≤ 1
          rw [AllWaiting.running h]
          exact Nat.le_refl _
      | settled => exact ih h

/-- **A job starts when nothing runs, and it is the one that waits longest.** -/
theorem Starts.view {c d : Chain κ} {job : κ} (h : Starts job c d) (hc : Chained c) :
    c.running = [] ∧ c.waiting = job :: d.waiting ∧ d.running = [job] := by
  cases h with
  | first post =>
      have hpost := AllWaiting.running hc
      exact ⟨hpost, rfl, congrArg (List.cons job) hpost⟩
  | next pre post =>
      obtain ⟨hrun, hwait, hpost, _⟩ := hc.settled_split
      have hnone := AllWaiting.running hpost
      simp [running, waiting, hrun, hwait, hnone]

/-- **The job that settles is the one that runs.** -/
theorem Settles.view {c d : Chain κ} {job : κ} (h : Settles job c d) (hc : Chained c) :
    c.running = [job] ∧ d.running = [] ∧ d.waiting = c.waiting := by
  cases h with
  | mk pre post =>
      obtain ⟨hrun, _, hpost, _⟩ := hc.running_split
      have hnone := hpost.running
      simp [running, waiting, hrun, hnone]

end Chain
end Async
end VpnPi
