import Mathlib.Data.List.Induction
import VpnPi.Island.GateWindow

/-!
# `Island.GateReclose` — whose window a timer closes

`clearTimeout` disarms a pending timer, but one that has fired is a close in the queue, and nothing takes it out
again. `Lineage` reads off the trace where each queued section comes from, and how many windows had been opened
when the timer behind it was armed; it follows the queue of the gate section by section (`tracks_of_run`).

* `Fresh` — no timer, pending or fired, is older than the last window; every step keeps it, unless an open succeeds
  in front of a fired timer;
* `Stale` — a fired timer is; then it stays in the queue until it closes a window that is not its own.
-/

namespace VpnPi
namespace Island

open Js Async

variable {P : Platform} {cfg : GateConfig}

/-! ## Where a section comes from -/

/-- What a close goes back to; windows are counted from one. -/
inductive Cause where
  /-- Somebody has called `close`. -/
  | call
  /-- The timer that the open of this window has armed. -/
  | ttl (window : Nat)
  /-- An open that has failed while this window was the last. -/
  | reopen (window : Nat)

/-- The cause may end the window `k`. -/
def Cause.Ends (k : Nat) : Cause → Prop
  | .call => True
  | .ttl window => window = k
  | .reopen window => window = k

inductive Origin where
  | called
  /-- A timer, armed when so many windows had been opened. -/
  | fired (armed : Nat) (cause : Cause)

def Origin.cause : Origin → Cause
  | .called => .call
  | .fired _ cause => cause

/-- The timer that was armed last. -/
structure LastArmed where
  reason : JsString := []
  armed  : Nat := 0
  cause  : Cause := .call

structure Lineage where
  /-- How many opens have succeeded. -/
  windows : Nat := 0
  pending : LastArmed := {}
  queue   : List (Section × Origin) := []
  running : List (Section × Origin) := []

namespace Lineage

/-- What the running section goes back to. -/
def cause (p : Lineage) : Cause :=
  match p.running with
  | [] => .call
  | (_, o) :: _ => o.cause

/-- The end of a section. -/
def settle (cfg : GateConfig) (s : Section) (exec : Except Exn Unit) (p : Lineage) : Lineage :=
  match s, exec with
  | .opening _ now _, .ok () =>
      if (now.addSeconds cfg.ttlSeconds.val).isSome then
        { p with
          windows := p.windows + 1
          pending := ⟨js "auto-reclose (ttl)", p.windows + 1, .ttl (p.windows + 1)⟩
          running := [] }
      else { p with running := [] }
  -- with the gate closed no timer is armed, and none was pending
  | .opening _ _ _, .error _ =>
      { p with pending := ⟨js "reclose after failed re-open", p.windows, .reopen p.windows⟩, running := [] }
  | .closing reason _, .error _ => { p with pending := ⟨reason, p.windows, p.cause⟩, running := [] }
  | .closing _ _, .ok () => { p with running := [] }

def next (cfg : GateConfig) (p : Lineage) : GateEvent → Lineage
  | .answered c now d => if d.approve then { p with queue := p.queue ++ [(.opening c now d.reason, .called)] } else p
  | .close reason now => { p with queue := p.queue ++ [(.closing reason now, .called)] }
  | .fire now =>
      { p with queue := p.queue ++ [(.closing p.pending.reason now, .fired p.pending.armed p.pending.cause)] }
  | .enter _ =>
      match p.queue with
      | [] => p
      | e :: q => { p with queue := q, running := [e] }
  | .exit s exec _ => p.settle cfg s exec
  | .asked _ _ => p
  | .refused _ _ => p

end Lineage

/-- Of the sections that a trace leaves queued and running. -/
def lineage (cfg : GateConfig) (tr : List GateEvent) : Lineage := tr.foldl (Lineage.next cfg) {}

theorem lineage_snoc (cfg : GateConfig) (tr : List GateEvent) (l : GateEvent) :
    lineage cfg (tr ++ [l]) = (lineage cfg tr).next cfg l := by
  rw [lineage, List.foldl_append]
  rfl

/-- No close that a timer has triggered is run after an open that succeeded since that timer was armed, and what
    closes a window is a call, the timer of its own open, or an open after it. -/
def Lineage.Kept (p : Lineage) : GateEvent → Prop
  | .enter (.closing _ _) => ∀ s armed cause q, p.queue = (s, .fired armed cause) :: q → armed = p.windows
  | .exit (.closing _ _) (.ok ()) _ => p.cause.Ends p.windows
  | _ => True

/-- An open succeeds with a fired timer's close queued behind it. -/
def Lineage.Overtakes (cfg : GateConfig) (p : Lineage) : GateEvent → Prop
  | .exit (.opening _ now _) (.ok ()) _ =>
      (now.addSeconds cfg.ttlSeconds.val).isSome ∧ ∃ s armed cause, (s, Origin.fired armed cause) ∈ p.queue
  | _ => False

/-! ## The queue of the gate -/

/-- The lineage of the gate `g`. -/
structure Tracks (p : Lineage) (g : Gate) : Prop where
  queue   : p.queue.map Prod.fst = g.lock.waiting
  running : p.running.map Prod.fst = g.lock.running
  timer   : ∀ t, g.timer = some t → t.reason = p.pending.reason

theorem Tracks.enqueue {p : Lineage} {g : Gate} (h : Tracks p g) (s : Section) (o : Origin) :
    Tracks { p with queue := p.queue ++ [(s, o)] } { g with lock := g.lock.enqueue s } where
  queue := by
    rw [List.map_append, h.queue]
    exact (Chain.waiting_enqueue g.lock s).symm
  running := h.running.trans (Chain.running_enqueue g.lock s).symm
  timer := h.timer

theorem Lineage.settle_queue (cfg : GateConfig) (s : Section) (exec : Except Exn Unit) (p : Lineage) :
    (p.settle cfg s exec).queue = p.queue := by
  cases s with
  | opening c now reason =>
      cases exec with
      | ok u =>
          show (if _ then _ else _ : Lineage).queue = p.queue
          split <;> rfl
      | error e => rfl
  | closing reason now => cases exec <;> rfl

theorem Lineage.settle_running (cfg : GateConfig) (s : Section) (exec : Except Exn Unit) (p : Lineage) :
    (p.settle cfg s exec).running = [] := by
  cases s with
  | opening c now reason =>
      cases exec with
      | ok u =>
          show (if _ then _ else _ : Lineage).running = []
          split <;> rfl
      | error e => rfl
  | closing reason now => cases exec <;> rfl

theorem Lineage.settle_opened {now : Instant} (p : Lineage) (c : Canary) (reason : JsString)
    (h : (now.addSeconds cfg.ttlSeconds.val).isSome) :
    p.settle cfg (.opening c now reason) (.ok ()) =
      { p with
        windows := p.windows + 1
        pending := ⟨js "auto-reclose (ttl)", p.windows + 1, .ttl (p.windows + 1)⟩
        running := [] } := if_pos h

/-- The timer that the end of a section leaves. -/
theorem settle_timer (p : Lineage) {g : Gate} {s : Section} {t : Timer}
    (hdisarmed : ∀ c now reason, s = .opening c now reason → g.timer = none) (exec : Except Exn Unit) (clock : Instant)
    (ht : (g.exit P cfg s exec clock).2.timer = some t) : t.reason = (p.settle cfg s exec).pending.reason := by
  cases s with
  | opening c now reason =>
      have hnone := hdisarmed c now reason rfl
      replace ht : (g.openExit P cfg c now reason exec clock).2.timer = some t := ht
      unfold Gate.openExit at ht
      cases exec with
      | ok u =>
          cases hd : now.addSeconds cfg.ttlSeconds.val with
          | none =>
              simp only [hd] at ht
              cases hnone.symm.trans ht
          | some closesAt =>
              simp only [hd] at ht
              obtain rfl := Option.some.inj ht
              rw [p.settle_opened c reason (Option.isSome_iff_exists.mpr ⟨closesAt, hd⟩)]
      | error e =>
          by_cases hs : g.state.state = .internet
          · simp only [if_pos hs] at ht
            obtain rfl := Option.some.inj ht
            rfl
          · simp only [if_neg hs] at ht
            cases hnone.symm.trans ht
  | closing reason now =>
      cases exec with
      | ok u => cases ht
      | error e =>
          obtain rfl := Option.some.inj ht
          rfl

theorem Gate.Step.tracks {w w' : GateRun} {l : GateEvent} {p : Lineage} (h : Gate.Step P cfg w l w')
    (hc : w.gate.lock.Chained)
    (hdisarmed : ∀ c now reason, .opening c now reason ∈ w.gate.lock.running → w.gate.timer = none)
    (hp : Tracks p w.gate) : Tracks (p.next cfg l) w'.gate := by
  cases h with
  | asked h =>
      obtain ⟨_, rfl⟩ := openStart_frame h
      exact ⟨hp.queue, hp.running, hp.timer⟩
  | refused h =>
      obtain ⟨_, rfl⟩ := openStart_frame h
      exact ⟨hp.queue, hp.running, hp.timer⟩
  | answered g _ _ c now d =>
      show Tracks (if d.approve then _ else _) (Gate.answered P c now d g).2
      unfold Gate.answered
      cases d.approve with
      | true => exact hp.enqueue _ _
      | false => exact ⟨hp.queue, hp.running, hp.timer⟩
  | close g _ reason now => exact hp.enqueue _ _
  | @fire g t _ ht now =>
      have hfired : Tracks p { g with timer := none } := ⟨hp.queue, hp.running, fun _ h => by cases h⟩
      rw [hp.timer t ht]
      exact hfired.enqueue _ _
  | @enter g lock s _ h =>
      obtain ⟨_, hwait, hrun⟩ := h.view hc
      have hqueue := hp.queue.trans hwait
      -- first in, first out: the head of the queue is the section that enters
      obtain ⟨⟨s', o⟩, q, hq, rfl, hrest⟩ := List.map_eq_cons_iff.mp hqueue
      have hnext : p.next cfg (.enter s') = { p with queue := q, running := [(s', o)] } := by
        unfold Lineage.next
        simp only [hq]
      rw [hnext]
      refine ⟨hrest, hrun.symm, fun t ht => hp.timer t ?_⟩
      cases s' with
      | opening => cases ht
      | closing => exact ht
  | @exit g lock s _ h exec clock =>
      obtain ⟨hrun, hsettled, hwait⟩ := h.view hc
      refine ⟨?_, ?_, fun t ht => settle_timer p (fun c now reason heq => ?_) exec clock ht⟩
      · rw [show p.next cfg (.exit s exec clock) = p.settle cfg s exec from rfl, Lineage.settle_queue, hp.queue]
        exact hwait.symm
      · rw [show p.next cfg (.exit s exec clock) = p.settle cfg s exec from rfl, Lineage.settle_running]
        exact hsettled.symm
      · apply hdisarmed c now reason
        rw [show Chain.running (GateRun.gate ⟨g, _⟩).lock = [s] from hrun, heq]
        exact List.mem_singleton_self _

theorem tracks_of_run {file : Option Bytes} {tr : List GateEvent} {w : GateRun}
    (run : Run (Gate.Step P cfg) ⟨Gate.boot P file, []⟩ tr w) : Tracks (lineage cfg tr) w.gate := by
  refine run.invariant (I := fun tr w => Tracks (lineage cfg tr) w.gate) ?_ fun tr w l w' r ih h => ?_
  · obtain ⟨_, hg⟩ := Gate.boot_frame P file
    rw [hg]
    exact ⟨rfl, rfl, fun t ht => by cases ht⟩
  · rw [lineage_snoc]
    exact h.tracks (Gate.chained_of_run r) (Gate.disarmed_of_run r) ih

/-! ## No old timer -/

/-- No timer behind the section is older than the last window. -/
def Origin.Fresh (k : Nat) : Origin → Prop
  | .called => True
  | .fired armed cause => armed = k ∧ cause.Ends k

structure Fresh (p : Lineage) : Prop where
  queue   : ∀ e ∈ p.queue, e.2.Fresh p.windows
  running : ∀ e ∈ p.running, e.2.Fresh p.windows
  armed   : p.pending.armed = p.windows
  cause   : p.pending.cause.Ends p.windows

theorem Origin.Fresh.ends {o : Origin} {k : Nat} (h : o.Fresh k) : o.cause.Ends k := by
  cases o with
  | called => trivial
  | fired armed cause => exact h.2

theorem Fresh.cause_ends {p : Lineage} (h : Fresh p) : p.cause.Ends p.windows := by
  unfold Lineage.cause
  split
  · trivial
  · next s o rest hrun => exact (h.running (s, o) (hrun ▸ List.mem_cons_self ..)).ends

theorem Fresh.enqueue {p : Lineage} (h : Fresh p) {s : Section} {o : Origin} (ho : o.Fresh p.windows) :
    Fresh { p with queue := p.queue ++ [(s, o)] } where
  queue := by
    intro e he
    rcases List.mem_append.mp he with he | he
    · exact h.queue e he
    · obtain rfl := List.mem_singleton.mp he
      exact ho
  running := h.running
  armed := h.armed
  cause := h.cause

theorem Fresh.settle {p : Lineage} (h : Fresh p) {s : Section} {exec : Except Exn Unit} {clock : Instant}
    (hl : ¬p.Overtakes cfg (.exit s exec clock)) : Fresh (p.settle cfg s exec) := by
  cases s with
  | opening c now reason =>
      cases exec with
      | ok u =>
          show Fresh (if _ then _ else _)
          split
          · next hd =>
              refine ⟨fun e he => ?_, List.forall_mem_nil _, rfl, rfl⟩
              obtain ⟨s, o⟩ := e
              cases o with
              | called => trivial
              | fired armed cause => exact absurd ⟨hd, s, armed, cause, he⟩ hl
          · exact ⟨h.queue, List.forall_mem_nil _, h.armed, h.cause⟩
      | error e => exact ⟨h.queue, List.forall_mem_nil _, rfl, rfl⟩
  | closing reason now =>
      cases exec with
      | ok u => exact ⟨h.queue, List.forall_mem_nil _, h.armed, h.cause⟩
      | error e => exact ⟨h.queue, List.forall_mem_nil _, rfl, h.cause_ends⟩

theorem Fresh.next {p : Lineage} (h : Fresh p) {l : GateEvent} (hl : ¬p.Overtakes cfg l) : Fresh (p.next cfg l) := by
  cases l with
  | asked => exact h
  | refused => exact h
  | answered c now d =>
      show Fresh (if _ then _ else _)
      split
      · exact h.enqueue trivial
      · exact h
  | close => exact h.enqueue trivial
  | fire => exact h.enqueue ⟨h.armed, h.cause⟩
  | enter s =>
      unfold Lineage.next
      dsimp only
      split
      · exact h
      · next e q hq =>
          have hqueue := List.forall_mem_cons.mp (hq ▸ h.queue)
          exact ⟨hqueue.2, List.forall_mem_singleton.mpr hqueue.1, h.armed, h.cause⟩
  | exit s exec clock => exact h.settle hl

theorem fresh_of_always {tr : List GateEvent}
    (h : Always (fun pre l => ¬(lineage cfg pre).Overtakes cfg l) tr) : Fresh (lineage cfg tr) := by
  induction tr using List.reverseRecOn with
  | nil => exact ⟨List.forall_mem_nil _, List.forall_mem_nil _, rfl, trivial⟩
  | append_singleton tr l ih =>
      rw [lineage_snoc]
      exact (ih h.init).next h.last

theorem Fresh.kept {p : Lineage} (h : Fresh p) (l : GateEvent) : p.Kept l := by
  unfold Lineage.Kept
  split
  · intro s armed cause q hq
    exact (h.queue (s, .fired armed cause) (hq ▸ List.mem_cons_self ..)).1
  · exact h.cause_ends
  · trivial

/-! ## An old timer stays -/

/-- A fired timer is older than the last window. -/
def Stale (p : Lineage) : Prop := ∃ s armed cause, (s, Origin.fired armed cause) ∈ p.queue ∧ armed < p.windows

/-- What every trace keeps: what a timer has queued is a close, and no timer is younger than the last window. -/
structure Aged (p : Lineage) : Prop where
  queue : ∀ s armed cause, (s, Origin.fired armed cause) ∈ p.queue → armed ≤ p.windows ∧ ∃ reason now, s = .closing reason now
  armed : p.pending.armed ≤ p.windows

theorem Aged.settle {p : Lineage} (h : Aged p) (s : Section) (exec : Except Exn Unit) : Aged (p.settle cfg s exec) := by
  cases s with
  | opening c now reason =>
      cases exec with
      | ok u =>
          show Aged (if _ then _ else _)
          split
          · exact ⟨fun s armed cause he => (h.queue s armed cause he).imp_left Nat.le_succ_of_le, Nat.le_refl _⟩
          · exact ⟨h.queue, h.armed⟩
      | error e => exact ⟨h.queue, Nat.le_refl _⟩
  | closing reason now =>
      cases exec with
      | ok u => exact ⟨h.queue, h.armed⟩
      | error e => exact ⟨h.queue, Nat.le_refl _⟩

theorem Aged.enqueue {p : Lineage} (h : Aged p) {s : Section} {o : Origin}
    (ho : ∀ armed cause, o = .fired armed cause → armed ≤ p.windows ∧ ∃ reason now, s = .closing reason now) :
    Aged { p with queue := p.queue ++ [(s, o)] } where
  queue := by
    intro s' armed cause he
    rcases List.mem_append.mp he with he | he
    · exact h.queue s' armed cause he
    · obtain ⟨rfl, rfl⟩ := Prod.mk.inj (List.mem_singleton.mp he)
      exact ho armed cause rfl
  armed := h.armed

theorem Aged.next {p : Lineage} (h : Aged p) (l : GateEvent) : Aged (p.next cfg l) := by
  cases l with
  | asked => exact h
  | refused => exact h
  | answered c now d =>
      show Aged (if _ then _ else _)
      split
      · exact h.enqueue nofun
      · exact h
  | close => exact h.enqueue nofun
  | fire now =>
      apply h.enqueue
      intro armed cause heq
      cases heq
      exact ⟨h.armed, _, _, rfl⟩
  | enter s =>
      unfold Lineage.next
      dsimp only
      split
      · exact h
      · next e q hq =>
          exact ⟨fun s armed cause he => h.queue s armed cause (hq ▸ List.mem_cons_of_mem e he), h.armed⟩
  | exit s exec clock => exact h.settle s exec

theorem aged (cfg : GateConfig) (tr : List GateEvent) : Aged (lineage cfg tr) := by
  induction tr using List.reverseRecOn with
  | nil => exact ⟨fun _ _ _ h => absurd h List.not_mem_nil, Nat.le_refl _⟩
  | append_singleton tr l ih =>
      rw [lineage_snoc]
      exact ih.next l

theorem Lineage.settle_windows (cfg : GateConfig) (s : Section) (exec : Except Exn Unit) (p : Lineage) :
    p.windows ≤ (p.settle cfg s exec).windows := by
  cases s with
  | opening c now reason =>
      cases exec with
      | ok u =>
          show p.windows ≤ (if _ then _ else _ : Lineage).windows
          split
          · exact Nat.le_succ _
          · exact Nat.le_refl _
      | error e => exact Nat.le_refl _
  | closing reason now => cases exec <;> exact Nat.le_refl _

theorem Stale.enqueue {p : Lineage} (h : Stale p) (e : Section × Origin) : Stale { p with queue := p.queue ++ [e] } := by
  obtain ⟨s, armed, cause, he, hlt⟩ := h
  exact ⟨s, armed, cause, List.mem_append_left _ he, hlt⟩

/-- An old timer's close leaves the queue only to be run. -/
theorem Stale.next {p : Lineage} {w w' : GateRun} {l : GateEvent} (h : Stale p) (haged : Aged p)
    (hp : Tracks p w.gate) (hc : w.gate.lock.Chained) (hstep : Gate.Step P cfg w l w') (hkept : p.Kept l) :
    Stale (p.next cfg l) := by
  obtain ⟨s, armed, cause, he, hlt⟩ := h
  cases l with
  | asked => exact ⟨s, armed, cause, he, hlt⟩
  | refused => exact ⟨s, armed, cause, he, hlt⟩
  | answered c now d =>
      show Stale (if _ then _ else _)
      split
      · exact Stale.enqueue ⟨s, armed, cause, he, hlt⟩ _
      · exact ⟨s, armed, cause, he, hlt⟩
  | close => exact Stale.enqueue ⟨s, armed, cause, he, hlt⟩ _
  | fire => exact Stale.enqueue ⟨s, armed, cause, he, hlt⟩ _
  | enter s' =>
      cases hstep with
      | @enter g lock _ _ hstart =>
          obtain ⟨_, hwait, _⟩ := hstart.view hc
          obtain ⟨⟨s', o⟩, q, hq, rfl, _⟩ := List.map_eq_cons_iff.mp (hp.queue.trans hwait)
          have hnext : p.next cfg (.enter s') = { p with queue := q, running := [(s', o)] } := by
            unfold Lineage.next
            simp only [hq]
          rw [hnext]
          rcases List.mem_cons.mp (hq ▸ he) with heq | he
          · obtain ⟨rfl, rfl⟩ := Prod.mk.inj heq
            obtain ⟨_, reason, now, rfl⟩ := haged.queue s armed cause (hq ▸ List.mem_cons_self ..)
            exact absurd (hkept _ armed cause q hq) (Nat.ne_of_lt hlt)
          · exact ⟨s, armed, cause, he, hlt⟩
  | exit s' exec clock =>
      refine ⟨s, armed, cause, ?_, Nat.lt_of_lt_of_le hlt (p.settle_windows cfg s' exec)⟩
      rw [show p.next cfg (.exit s' exec clock) = p.settle cfg s' exec from rfl, Lineage.settle_queue]
      exact he

theorem stale_of_overtakes {p : Lineage} {l : GateEvent} (haged : Aged p) (h : p.Overtakes cfg l) :
    Stale (p.next cfg l) := by
  unfold Lineage.Overtakes at h
  split at h
  · obtain ⟨hd, s, armed, cause, he⟩ := h
    refine ⟨s, armed, cause, ?_⟩
    show _ ∈ (p.settle cfg _ _).queue ∧ armed < (p.settle cfg _ _).windows
    rw [p.settle_opened _ _ hd]
    exact ⟨he, Nat.lt_succ_of_le (haged.queue s armed cause he).1⟩
  · exact h.elim

theorem overtaken_or_stale {file : Option Bytes} {tr : List GateEvent} {w : GateRun}
    (run : Run (Gate.Step P cfg) ⟨Gate.boot P file, []⟩ tr w)
    (h : Always (fun pre l => (lineage cfg pre).Kept l) tr) :
    Always (fun pre l => ¬(lineage cfg pre).Overtakes cfg l) tr ∨ Stale (lineage cfg tr) := by
  induction run with
  | nil =>
      refine .inl fun pre l post htr => ?_
      exact absurd htr (by simp)
  | @snoc tr w w' l run hstep ih =>
      rw [lineage_snoc]
      rcases ih h.init with hnever | hstale
      · by_cases hl : (lineage cfg tr).Overtakes cfg l
        · exact .inr (stale_of_overtakes (aged cfg tr) hl)
        · exact .inl (hnever.snoc hl)
      · exact .inr (hstale.next (aged cfg tr) (tracks_of_run run) (Gate.chained_of_run run) hstep h.last)

/-- **When a timer closes only its own window**: as long as no open succeeds with the close of a fired timer queued
    behind it. Once the queue has drained, that is the only way. -/
theorem reclose_own_window_iff (P : Platform) (cfg : GateConfig) (file : Option Bytes) {tr : List GateEvent} {w : GateRun}
    (run : Run (Gate.Step P cfg) ⟨Gate.boot P file, []⟩ tr w) :
    (Always (fun pre l => ¬(lineage cfg pre).Overtakes cfg l) tr →
      Always (fun pre l => (lineage cfg pre).Kept l) tr) ∧
    (w.gate.lock.waiting = [] → Always (fun pre l => (lineage cfg pre).Kept l) tr →
      Always (fun pre l => ¬(lineage cfg pre).Overtakes cfg l) tr) := by
  constructor
  · rintro h pre l post rfl
    exact (fresh_of_always h.take).kept l
  · intro hdrained h
    rcases overtaken_or_stale run h with hnever | ⟨s, armed, cause, he, _⟩
    · exact hnever
    · have hqueue := (tracks_of_run run).queue.trans hdrained
      rw [List.map_eq_nil_iff.mp hqueue] at he
      exact absurd he List.not_mem_nil

/-! ## A window closed by the timer of the one before -/

theorem default_pos : (0 : ℚ) < 2700 := by norm_num

/-- `ISLAND_GATE_TTL` by default. -/
def defaultConfig : GateConfig := { ttlSeconds := ⟨2700, default_pos⟩ }

theorem default_closes : Gate.early.addSeconds defaultConfig.ttlSeconds.val = some ⟨1800002700000, by decide⟩ :=
  @Instant.addSeconds_intCast Gate.early 2700 (by norm_num [abs_lt]) (by norm_num [Gate.early, abs_lt])

/-- A second before the first window ends. -/
def lastSecond : Instant := ⟨1800002699000, by decide⟩

/-- When it ends. -/
def atTtl : Instant := ⟨1800002700000, by decide⟩

theorem default_closes_again : lastSecond.addSeconds defaultConfig.ttlSeconds.val = some ⟨1800005399000, by decide⟩ :=
  @Instant.addSeconds_intCast lastSecond 2700 (by norm_num [abs_lt]) (by norm_num [lastSecond, abs_lt])

/-- The events of an open that nothing interferes with. -/
def firstOpen : List GateEvent :=
  [.asked Gate.firstCanary Gate.early, .answered Gate.firstCanary Gate.early ⟨true, []⟩,
    .enter (.opening Gate.firstCanary Gate.early []), .exit (.opening Gate.firstCanary Gate.early []) (.ok ()) Gate.early]

/-- The gate after it. -/
def firstWindow : Gate :=
  { Gate.opening defaultConfig {} 0 Gate.firstCanary Gate.early [] with
    state := ⟨.internet, some (Symbolic.platform.toISOString ⟨1800002700000, by decide⟩)⟩
    log := [⟨Symbolic.platform.toISOString Gate.early, .opened, some Gate.firstCanary.admin, some []⟩]
    timer := some ⟨millis 2700, js "auto-reclose (ttl)", Gate.early⟩
    lock := [.settled] }

theorem firstOpen_run :
    Run (Gate.Step Symbolic.platform defaultConfig) ⟨Gate.boot Symbolic.platform none, []⟩ firstOpen ⟨firstWindow, []⟩ := by
  have run₀ : Run (Gate.Step Symbolic.platform defaultConfig) ⟨Gate.boot Symbolic.platform none, []⟩ [] ⟨{}, []⟩ := .nil
  have run₁ := Gate.opened_run (Gate.opening_run (n := 0) (c := Gate.firstCanary) run₀ rfl rfl Gate.early []) (.ok ())
    Gate.early
  unfold Gate.openExit at run₁
  simp only [default_closes] at run₁
  exact run₁

theorem firstOpen_lineage : lineage defaultConfig firstOpen =
    { windows := 1, pending := ⟨js "auto-reclose (ttl)", 1, .ttl 1⟩, queue := [], running := [] } :=
  Lineage.settle_opened { running := [(.opening Gate.firstCanary Gate.early [], .called)] } Gate.firstCanary []
    (default_closes ▸ rfl)

/-- The timer fires, and its close is run. -/
def firstClose : List GateEvent :=
  firstOpen ++ [.fire atTtl] ++ [.enter (.closing (js "auto-reclose (ttl)") atTtl)]

theorem firstClose_run : ∃ w, Run (Gate.Step Symbolic.platform defaultConfig) ⟨Gate.boot Symbolic.platform none, []⟩
    firstClose w := by
  have hfire : Gate.Step Symbolic.platform defaultConfig ⟨firstWindow, []⟩ (.fire atTtl) _ := .fire [] rfl atTtl
  have hstart : Chain.Starts (Section.closing (js "auto-reclose (ttl)") atTtl)
      [.settled, .waiting (.closing (js "auto-reclose (ttl)") atTtl)] _ := .next [] []
  exact ⟨_, (firstOpen_run.snoc hfire).snoc (.enter [] hstart)⟩

theorem firstClose_ordered :
    Always (fun pre l => ¬(lineage defaultConfig pre).Overtakes defaultConfig l) firstClose := by
  have hnil : Always (fun pre l => ¬(lineage defaultConfig pre).Overtakes defaultConfig l) [] := by
    intro pre l post htr
    exact absurd htr (by simp)
  have hasked := hnil.snoc (l := .asked Gate.firstCanary Gate.early) id
  have hanswered := hasked.snoc (l := .answered Gate.firstCanary Gate.early ⟨true, []⟩) id
  have hentered := hanswered.snoc (l := .enter (.opening Gate.firstCanary Gate.early [])) id
  have hopened : Always (fun pre l => ¬(lineage defaultConfig pre).Overtakes defaultConfig l) firstOpen := by
    refine hentered.snoc ?_
    rintro ⟨_, _, _, _, hmem⟩
    exact absurd hmem List.not_mem_nil
  exact (hopened.snoc id).snoc id

/-- The first window is closed by its own timer. -/
theorem reclose_first_window : Always (fun pre l => (lineage defaultConfig pre).Kept l) firstClose := by
  obtain ⟨w, run⟩ := firstClose_run
  exact (reclose_own_window_iff Symbolic.platform defaultConfig none run).1 firstClose_ordered

/-- A close that somebody has called runs while a second open waits and the first timer fires. -/
def overtaking : List GateEvent :=
  firstOpen ++ [.close [] lastSecond] ++ [.enter (.closing [] lastSecond)] ++ [.asked Gate.secondCanary lastSecond]
    ++ [.answered Gate.secondCanary lastSecond ⟨true, []⟩] ++ [.fire atTtl] ++ [.exit (.closing [] lastSecond) (.ok ()) atTtl]
    ++ [.enter (.opening Gate.secondCanary lastSecond [])] ++ [.exit (.opening Gate.secondCanary lastSecond []) (.ok ()) atTtl]

theorem overtaking_lineage : lineage defaultConfig overtaking =
    { windows := 2, pending := ⟨js "auto-reclose (ttl)", 2, .ttl 2⟩
      queue := [(.closing (js "auto-reclose (ttl)") atTtl, .fired 1 (.ttl 1))], running := [] } := by
  unfold overtaking
  simp only [lineage_snoc, firstOpen_lineage]
  exact Lineage.settle_opened
    { windows := 1, pending := ⟨js "auto-reclose (ttl)", 1, .ttl 1⟩
      queue := [(.closing (js "auto-reclose (ttl)") atTtl, .fired 1 (.ttl 1))]
      running := [(.opening Gate.secondCanary lastSecond [], .called)] } Gate.secondCanary [] (default_closes_again ▸ rfl)

/-- Then the close of the first timer is run in the second window. -/
theorem reclose_second_window : ∃ tr w, Run (Gate.Step Symbolic.platform defaultConfig)
      ⟨Gate.boot Symbolic.platform none, []⟩ tr w ∧
    ¬Always (fun pre l => (lineage defaultConfig pre).Kept l) tr := by
  have hclose := firstOpen_run.snoc (.close firstWindow [] [] lastSecond)
  have hentered := hclose.snoc (.enter [] (Chain.Starts.next [] []))
  have hfree : OrdMap.get (Gate.consumed firstWindow) Gate.secondCanary.nonce = none := by
    unfold firstWindow Gate.opening
    rw [OrdMap.get_set_ne (by decide)]
    exact OrdMap.get_filter_none rfl
  have hasked := hentered.snoc (.asked (Gate.openStart_of_unused defaultConfig lastSecond hfree))
  have hanswered := hasked.snoc (.answered _ [] [] Gate.secondCanary lastSecond ⟨true, []⟩)
  have hfired := hanswered.snoc (.fire [] rfl atTtl)
  have hclosed := hfired.snoc (.exit [] (Chain.Settles.mk [.settled] _) (.ok ()) atTtl)
  have hreopening := hclosed.snoc (.enter [] (Chain.Starts.next [.settled] _))
  have hreopened := hreopening.snoc (.exit [] (Chain.Settles.mk [.settled, .settled] _) (.ok ()) atTtl)
  have run := hreopened.snoc (.enter [] (Chain.Starts.next [.settled, .settled] []))
  refine ⟨_, _, run, fun h => ?_⟩
  have hkept : (lineage defaultConfig overtaking).Kept (.enter (.closing (js "auto-reclose (ttl)") atTtl)) := h.last
  rw [overtaking_lineage] at hkept
  cases hkept _ 1 (.ttl 1) [] rfl

end Island
end VpnPi
