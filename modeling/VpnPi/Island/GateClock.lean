import VpnPi.Island.GateReclose
import VpnPi.Island.Handshake

/-!
# `Island.GateClock` — the advertised close time

`open` computes `closesAt` from the time it was called at, and arms the timer only after the LLM, the lock and the
helper. `Clocked` runs the gate against a clock: what a step reads is the clock, a timer fires when it is due, and time
does not pass it. The timer is then due after `closesAt` by the time all three have taken (`closesAt_kept_iff`).

* `Shows` — an open window shows a date;
* `Timely` — it has a timer that is due by then, or a section is queued or running; every step keeps it that is not
  `Late`.
-/

namespace VpnPi
namespace Island

open Js Async

variable {P : Platform} {cfg : GateConfig}

/-! ## Timers -/

/-- The delay of `setTimeout`: whole milliseconds, and one when it is out of range. -/
def timeoutMs (delayMs : ℚ) : ℤ := if 1 ≤ delayMs ∧ delayMs ≤ 2147483647 then truncate delayMs else 1

def Timer.due (t : Timer) : ℤ := t.armed.ms + timeoutMs t.delayMs

theorem one_le_timeoutMs (delayMs : ℚ) : 1 ≤ timeoutMs delayMs := by
  unfold timeoutMs
  split
  · next h =>
      have hpos : 0 ≤ delayMs := le_trans zero_le_one h.1
      rw [truncate, if_pos hpos, Int.le_floor]
      exact_mod_cast h.1
  · exact Int.le_refl 1

theorem timeoutMs_zero : timeoutMs 0 = 1 := if_neg fun h => absurd h.1 (by norm_num)

theorem timeoutMs_intCast {n : ℤ} (h : 1 ≤ n) (h' : n ≤ 2147483647) : timeoutMs n = n := by
  rw [timeoutMs, if_pos ⟨by exact_mod_cast h, by exact_mod_cast h'⟩, truncate_intCast]

/-- How much earlier than `closesAt` the timer is due that is armed at the time of the call. -/
def slack (cfg : GateConfig) (now closesAt : Instant) : ℤ :=
  closesAt.ms - now.ms - timeoutMs (millis cfg.ttlSeconds.val)

/-- None, for whole seconds within the range of `setTimeout`. -/
theorem slack_whole {now closesAt : Instant} {n : ℤ} (httl : cfg.ttlSeconds.val = n) (h1 : 1 ≤ n) (hle : n ≤ 2147483)
    (h : now.addSeconds cfg.ttlSeconds.val = some closesAt) : slack cfg now closesAt = 0 := by
  have hmul : |n * 1000| < 2 ^ 53 := by
    rw [abs_lt]
    omega
  have hsum : |now.ms + n * 1000| < 2 ^ 53 := by
    have := now.valid
    rw [abs_lt]
    omega
  rw [httl, Instant.addSeconds_intCast hmul hsum] at h
  have hms : millis n = ((n * 1000 : ℤ) : ℚ) := by
    rw [millis, ← roundDouble_intCast hmul]
    push_cast
    rfl
  have hcloses : closesAt.ms = now.ms + n * 1000 := by
    unfold Instant.ofMs at h
    split at h
    · exact (congrArg Instant.ms (Option.some.inj h)).symm
    · cases h
  rw [slack, httl, hms, timeoutMs_intCast (by omega) (by omega), hcloses]
  omega

/-! ## The gate against a clock -/

structure Clocked where
  run   : GateRun
  clock : ℤ

inductive ClockedEvent where
  | gate (l : GateEvent)
  | tick (clock : ℤ)

/-- The clock reading of a step; the calls of `open` and `close` use the default `now`. -/
def GateEvent.reading : GateEvent → Option Instant
  | .asked _ now => some now
  | .refused _ now => some now
  | .answered _ _ _ => none
  | .close _ now => some now
  | .fire now => some now
  | .enter _ => none
  | .exit _ _ clock => some clock

inductive Clocked.Step (P : Platform) (cfg : GateConfig) : Clocked → ClockedEvent → Clocked → Prop
  | gate {w w' : GateRun} {l : GateEvent} {clock : ℤ} (h : Gate.Step P cfg w l w')
      (hread : ∀ d, l.reading = some d → d.ms = clock)
      (hdue : ∀ now t, l = .fire now → w.gate.timer = some t → t.due ≤ clock) :
      Step P cfg ⟨w, clock⟩ (.gate l) ⟨w', clock⟩
  | tick {w : GateRun} {clock clock' : ℤ} (hlater : clock ≤ clock')
      (hdue : ∀ t, w.gate.timer = some t → clock' ≤ t.due) : Step P cfg ⟨w, clock⟩ (.tick clock') ⟨w, clock'⟩

/-- `state()` shows a window whose `closesAt` has passed. -/
def Overdue (P : Platform) (s : Clocked) : Prop :=
  s.run.gate.state.state = .internet ∧
    ∃ shown d, s.run.gate.state.closesAt = some shown ∧ P.dateParse shown = some d ∧ d.ms < s.clock

/-- The pending timer is due no later than the `closesAt` that is shown. -/
def OnTime (P : Platform) (g : Gate) : Prop :=
  ∃ t shown d, g.timer = some t ∧ g.state.closesAt = some shown ∧ P.dateParse shown = some d ∧ t.due ≤ d.ms

/-- An open ends with nothing queued behind it and leaves a window without a timer that is due by its `closesAt`:
    more time has passed since the call than there is slack; or it fails when the old `closesAt` is reached; or the
    new one would be no date. -/
def Late (P : Platform) (cfg : GateConfig) (w : GateRun) : GateEvent → Prop
  | .exit (.opening _ now _) (.ok ()) clock =>
      w.gate.lock.waiting = [] ∧
        match now.addSeconds cfg.ttlSeconds.val with
        | some closesAt => slack cfg now closesAt < clock.ms - now.ms
        | none => w.gate.state.state = .internet
  | .exit (.opening _ _ _) (.error _) clock =>
      w.gate.lock.waiting = [] ∧ w.gate.state.state = .internet ∧
        ∃ d, w.gate.state.closesAt = some (P.toISOString d) ∧ d.ms ≤ clock.ms
  | _ => False

/-- `exec.close` fails. -/
def CloseFails : GateEvent → Prop
  | .exit (.closing _ _) (.error _) _ => True
  | _ => False

/-! ## What an open leaves -/

theorem openExit_opened (P : Platform) (g : Gate) (c : Canary) {now closesAt : Instant} (reason : JsString) (clock : Instant)
    (h : now.addSeconds cfg.ttlSeconds.val = some closesAt) :
    (g.openExit P cfg c now reason (.ok ()) clock).2.timer
        = some ⟨millis cfg.ttlSeconds.val, js "auto-reclose (ttl)", clock⟩ ∧
      (g.openExit P cfg c now reason (.ok ()) clock).2.state = ⟨.internet, some (P.toISOString closesAt)⟩ := by
  unfold Gate.openExit
  simp only [h]
  exact ⟨rfl, rfl⟩

theorem openExit_dateless (P : Platform) (g : Gate) (c : Canary) {now : Instant} (reason : JsString) (clock : Instant)
    (h : now.addSeconds cfg.ttlSeconds.val = none) :
    (g.openExit P cfg c now reason (.ok ()) clock).2 = { g with recloseAttempts := 0 } := by
  unfold Gate.openExit
  simp only [h]

theorem openExit_failed_state (P : Platform) (cfg : GateConfig) (g : Gate) (c : Canary) (now : Instant) (reason : JsString)
    (e : Exn) (clock : Instant) : (g.openExit P cfg c now reason (.error e) clock).2.state = g.state := by
  unfold Gate.openExit
  dsimp only
  split
  · rfl
  · rfl

theorem openExit_failed (P : Platform) (cfg : GateConfig) (g : Gate) (c : Canary) (now : Instant) (reason : JsString)
    (e : Exn) (clock : Instant) (h : g.state.state = .internet) :
    (g.openExit P cfg c now reason (.error e) clock).2
      = { g with timer := some ⟨0, js "reclose after failed re-open", clock⟩ } := if_pos h

/-! ## A timely close -/

/-- An open window shows a date. -/
def Shows (P : Platform) (g : Gate) : Prop :=
  g.state.state = .internet → ∃ d, g.state.closesAt = some (P.toISOString d)

/-- What closes the window in time: a timer, or a section that is queued or running. -/
def Timely (P : Platform) (g : Gate) : Prop :=
  g.state.state = .internet →
    (∃ t d, g.timer = some t ∧ g.state.closesAt = some (P.toISOString d) ∧ t.due ≤ d.ms) ∨ ¬g.lock.Idle

theorem Shows.openExit {g : Gate} (h : Shows P g) (c : Canary) (now : Instant) (reason : JsString)
    (exec : Except Exn Unit) (clock : Instant) : Shows P (g.openExit P cfg c now reason exec clock).2 := by
  cases exec with
  | ok u =>
      cases hd : now.addSeconds cfg.ttlSeconds.val with
      | none =>
          rw [openExit_dateless P g c reason clock hd]
          exact h
      | some closesAt =>
          intro _
          exact ⟨closesAt, congrArg GateState.closesAt (openExit_opened P g c reason clock hd).2⟩
  | error e =>
      intro hs
      rw [openExit_failed_state] at hs ⊢
      exact h hs

theorem Gate.Step.shows {w w' : GateRun} {l : GateEvent} (h : Gate.Step P cfg w l w') (hs : Shows P w.gate) :
    Shows P w'.gate := by
  cases h with
  | asked h =>
      obtain ⟨_, rfl⟩ := openStart_frame h
      exact hs
  | refused h =>
      obtain ⟨_, rfl⟩ := openStart_frame h
      exact hs
  | answered g _ _ c now d =>
      rcases answered_cases P g c now d with ⟨log, hd⟩ | hd
      · simp only [hd]; exact hs
      · simp only [hd]; exact hs
  | close => exact hs
  | fire => exact hs
  | @enter g lock s _ h =>
      cases s with
      | opening => exact hs
      | closing => exact hs
  | @exit g lock s _ h exec clock =>
      cases s with
      | opening c now reason => exact hs.openExit c now reason exec clock
      | closing reason now =>
          rcases Gate.closeExit_cases P g reason now exec clock with ⟨_, _, _, _, _, hstate⟩ | ⟨_, hstate⟩
          · intro hnet
            show ∃ d, (g.closeExit P reason now exec clock).2.state.closesAt = _
            rw [hstate]
            exact hs ((congrArg GateState.state hstate).symm.trans hnet)
          · intro hnet
            cases (congrArg GateState.state hstate).symm.trans hnet

/-- **One step** that is not late, and in which `exec.close` does not fail. -/
theorem Gate.Step.timely {w w' : GateRun} {l : GateEvent} (h : Gate.Step P cfg w l w') (hc : w.gate.lock.Chained)
    (hs : Shows P w.gate) (ht : Timely P w.gate) (hclose : ¬CloseFails l) (hlate : ¬Late P cfg w l) :
    Timely P w'.gate := by
  cases h with
  | asked h =>
      obtain ⟨_, rfl⟩ := openStart_frame h
      exact ht
  | refused h =>
      obtain ⟨_, rfl⟩ := openStart_frame h
      exact ht
  | answered g _ _ c now d =>
      rcases answered_cases P g c now d with ⟨log, hd⟩ | hd
      · simp only [hd]; exact ht
      · simp only [hd]; exact fun _ => .inr (not_idle_enqueue _ _)
  | close => exact fun _ => .inr (not_idle_enqueue _ _)
  | fire => exact fun _ => .inr (not_idle_enqueue _ _)
  | enter _ h =>
      have hrun := (h.view hc).2.2
      exact fun _ => .inr fun hidle => absurd (hrun.symm.trans hidle.1) (List.cons_ne_nil _ _)
  | @exit g lock s _ h exec clock =>
      obtain ⟨_, _, hwait⟩ := h.view hc
      intro hnet
      by_cases hidle : lock.Idle
      · -- nothing is queued, so the timer must be timely
        have hnone : g.lock.waiting = [] := hwait.symm.trans hidle.2
        refine .inl ?_
        cases s with
        | closing reason now =>
            cases exec with
            | ok u => cases hnet
            | error e => exact absurd trivial hclose
        | opening c now reason =>
            cases exec with
            | ok u =>
                cases hd : now.addSeconds cfg.ttlSeconds.val with
                | none =>
                    have hexit := openExit_dateless P g c reason clock hd
                    have hnet' : g.state.state = .internet :=
                      (congrArg (fun g : Gate => g.state.state) hexit).symm.trans hnet
                    refine absurd ⟨hnone, ?_⟩ hlate
                    rw [hd]
                    exact hnet'
                | some closesAt =>
                    obtain ⟨htimer, hstate⟩ := openExit_opened P g c reason clock hd
                    refine ⟨_, closesAt, htimer, congrArg GateState.closesAt hstate, ?_⟩
                    have hle : ¬slack cfg now closesAt < clock.ms - now.ms := by
                      intro hlt
                      refine hlate ⟨hnone, ?_⟩
                      rw [hd]
                      exact hlt
                    unfold slack at hle
                    show clock.ms + timeoutMs (millis cfg.ttlSeconds.val) ≤ closesAt.ms
                    omega
            | error e =>
                have hstate := openExit_failed_state P cfg g c now reason e clock
                have hnet' : g.state.state = .internet := (congrArg GateState.state hstate).symm.trans hnet
                -- a failed open of an open window arms the timer at once
                obtain ⟨d, hshown⟩ := hs hnet'
                have hexit := openExit_failed P cfg g c now reason e clock hnet'
                refine ⟨_, d, congrArg Gate.timer hexit, (congrArg GateState.closesAt hstate).trans hshown, ?_⟩
                have hle : ¬d.ms ≤ clock.ms := fun hle => hlate ⟨hnone, hnet', d, hshown, hle⟩
                show clock.ms + timeoutMs 0 ≤ d.ms
                rw [timeoutMs_zero]
                omega
      · exact .inr hidle

/-- A timer is armed at the end of a section, by the clock. -/
theorem exit_timer {g : Gate} {s : Section} {exec : Except Exn Unit} {clock : Instant} {t : Timer}
    (ht : (g.exit P cfg s exec clock).2.timer = some t) : g.timer = some t ∨ t.armed = clock := by
  cases s with
  | opening c now reason =>
      replace ht : (g.openExit P cfg c now reason exec clock).2.timer = some t := ht
      cases exec with
      | ok u =>
          cases hd : now.addSeconds cfg.ttlSeconds.val with
          | none =>
              rw [openExit_dateless P g c reason clock hd] at ht
              exact .inl ht
          | some closesAt =>
              obtain rfl := Option.some.inj ((openExit_opened P g c reason clock hd).1.symm.trans ht)
              exact .inr rfl
      | error e =>
          by_cases hs : g.state.state = .internet
          · rw [openExit_failed P cfg g c now reason e clock hs] at ht
            obtain rfl := Option.some.inj ht
            exact .inr rfl
          · have hexit : (g.openExit P cfg c now reason (.error e) clock).2 = g := if_neg hs
            rw [hexit] at ht
            exact .inl ht
  | closing reason now =>
      cases exec with
      | ok u => cases ht
      | error e =>
          obtain rfl := Option.some.inj ht
          exact .inr rfl

theorem Gate.Step.timer_cases {w w' : GateRun} {l : GateEvent} {t : Timer} (h : Gate.Step P cfg w l w')
    (ht : w'.gate.timer = some t) : w.gate.timer = some t ∨ l.reading = some t.armed := by
  cases h with
  | asked h =>
      obtain ⟨_, rfl⟩ := openStart_frame h
      exact .inl ht
  | refused h =>
      obtain ⟨_, rfl⟩ := openStart_frame h
      exact .inl ht
  | answered g _ _ c now d =>
      rcases answered_cases P g c now d with ⟨log, hd⟩ | hd
      · simp only [hd] at ht; exact .inl ht
      · simp only [hd] at ht; exact .inl ht
  | close => exact .inl ht
  | fire => cases ht
  | @enter g lock s _ h =>
      cases s with
      | opening => cases ht
      | closing => exact .inl ht
  | @exit g lock s _ h exec clock =>
      rcases exit_timer ht with ht | harmed
      · exact .inl ht
      · exact .inr (congrArg some harmed.symm)

/-! ## Runs -/

/-- The gate of a new process, at a given time. -/
def Clocked.boot (P : Platform) (file : Option Bytes) (clock : ℤ) : Clocked := ⟨⟨Gate.boot P file, []⟩, clock⟩

/-- What holds in every state of a run. -/
structure Clocked.Inv (P : Platform) (s : Clocked) : Prop where
  chained : s.run.gate.lock.Chained
  shows   : Shows P s.run.gate
  disarmed : ∀ c now reason, .opening c now reason ∈ s.run.gate.lock.running → s.run.gate.timer = none
  /-- No timer is overdue. -/
  punctual : ∀ t, s.run.gate.timer = some t → s.clock ≤ t.due

theorem Clocked.Inv.boot (P : Platform) (file : Option Bytes) (clock : ℤ) : Inv P (Clocked.boot P file clock) := by
  unfold Clocked.boot
  obtain ⟨_, hg⟩ := Gate.boot_frame P file
  rw [hg]
  exact ⟨trivial, fun h => (by cases h), fun _ _ _ h => absurd h List.not_mem_nil, fun _ h => (by cases h)⟩

theorem Clocked.Step.inv {s s' : Clocked} {l : ClockedEvent} (h : Clocked.Step P cfg s l s') (hi : Clocked.Inv P s) :
    Clocked.Inv P s' := by
  cases h with
  | @gate w w' l clock h hread hdue =>
      refine ⟨h.chained hi.chained, h.shows hi.shows, h.disarmed hi.chained hi.disarmed, fun t ht => ?_⟩
      rcases h.timer_cases ht with ht | hreading
      · exact hi.punctual t ht
      · have hms := hread t.armed hreading
        have hpos := one_le_timeoutMs t.delayMs
        show clock ≤ t.armed.ms + timeoutMs t.delayMs
        omega
  | tick hlater hdue => exact ⟨hi.chained, hi.shows, hi.disarmed, hdue⟩

theorem Clocked.inv_of_run {file : Option Bytes} {clock : ℤ} {tr : List ClockedEvent} {s : Clocked}
    (run : Run (Clocked.Step P cfg) (.boot P file clock) tr s) : Clocked.Inv P s :=
  run.invariant (I := fun _ s => Clocked.Inv P s) (.boot P file clock) fun _ _ _ _ _ ih h => h.inv ih

/-- The steps of the claim's runs: `exec.close` does not fail, and none is late. -/
def Prompt (P : Platform) (cfg : GateConfig) (s : Clocked) : ClockedEvent → Prop
  | .gate l => ¬CloseFails l ∧ ¬Late P cfg s.run l
  | .tick _ => True

theorem timely_of_run {file : Option Bytes} {clock : ℤ} {tr : List ClockedEvent} {s : Clocked}
    (run : Run (Where (Clocked.Step P cfg) (Prompt P cfg)) (.boot P file clock) tr s) : Timely P s.run.gate := by
  refine run.invariant (I := fun _ s => Timely P s.run.gate) ?_ fun _ s l s' r ih h => ?_
  · unfold Clocked.boot
    obtain ⟨_, hg⟩ := Gate.boot_frame P file
    rw [hg]
    exact fun h => by cases h
  · have hi := Clocked.inv_of_run r.of_where
    obtain ⟨hstep, hprompt⟩ := h
    cases hstep with
    | gate h hread hdue => exact h.timely hi.chained hi.shows ih hprompt.1 hprompt.2
    | tick hlater hdue => exact ih

theorem Timely.idle_not_overdue (hdates : ∀ d, Dated P d) {s : Clocked} (hi : Clocked.Inv P s)
    (ht : Timely P s.run.gate) (h : Overdue P s) : ¬s.run.gate.lock.Idle := by
  obtain ⟨hnet, shown, d, hshown, hd, hlt⟩ := h
  rcases ht hnet with ⟨t, d', htimer, hshown', hle⟩ | hbusy
  · obtain rfl := Option.some.inj (hshown.symm.trans hshown')
    obtain rfl := Option.some.inj ((hdates d').symm.trans hd)
    have := hi.punctual t htimer
    omega
  · exact hbusy

/-- Time passes the `closesAt` of a window at rest. -/
theorem overdue_tick (hdates : ∀ d, Dated P d) {w : GateRun} {clock : ℤ} {d : Instant} (clock' : ℤ)
    (hnet : w.gate.state.state = .internet) (hshown : w.gate.state.closesAt = some (P.toISOString d))
    (hidle : w.gate.lock.Idle) (hlater : clock ≤ clock') (hpast : d.ms < clock')
    (hdue : ∀ t, w.gate.timer = some t → clock' ≤ t.due) :
    ∃ clock'' s, Clocked.Step P cfg ⟨w, clock⟩ (.tick clock'') s ∧ Overdue P s ∧ s.run.gate.lock.Idle :=
  ⟨clock', ⟨w, clock'⟩, .tick hlater hdue, ⟨hnet, _, d, hshown, hdates d, hpast⟩, hidle⟩

/-- What a late step leaves is a window that outlives its `closesAt`. -/
theorem Late.overdue (hdates : ∀ d, Dated P d) {s s' : Clocked} {l : GateEvent} (hi : Clocked.Inv P s)
    (h : Clocked.Step P cfg s (.gate l) s') (hlate : Late P cfg s.run l) :
    ∃ clock s'', Clocked.Step P cfg s' (.tick clock) s'' ∧ Overdue P s'' ∧ s''.run.gate.lock.Idle := by
  cases h with
  | @gate w w' _ clock h hread hdue =>
      cases h with
      | @exit g lock s _ hsettle exec d =>
          obtain ⟨hrun, hsettled, hwait⟩ := hsettle.view hi.chained
          obtain rfl : d.ms = clock := hread d rfl
          cases s with
          | closing reason now => cases exec <;> exact hlate.elim
          | opening c now reason =>
              cases exec with
              | ok u =>
                  obtain ⟨hnone, hlate⟩ := hlate
                  have hidle : lock.Idle := ⟨hsettled, hwait.trans hnone⟩
                  cases hd : now.addSeconds cfg.ttlSeconds.val with
                  | some closesAt =>
                      rw [hd] at hlate
                      obtain ⟨htimer, hstate⟩ := openExit_opened P g c reason d hd
                      have hpos := one_le_timeoutMs (millis cfg.ttlSeconds.val)
                      unfold slack at hlate
                      refine overdue_tick hdates (d.ms + timeoutMs (millis cfg.ttlSeconds.val))
                        (congrArg GateState.state hstate) (congrArg GateState.closesAt hstate) hidle (by omega) (by omega) ?_
                      intro t ht
                      obtain rfl := Option.some.inj (htimer.symm.trans ht)
                      exact Int.le_refl _
                  | none =>
                      rw [hd] at hlate
                      have hexit := openExit_dateless P g c reason d hd
                      obtain ⟨closesAt, hshown⟩ := hi.shows hlate
                      have hdisarmed : g.timer = none := by
                        -- the new window has no date, and the timer of the old one was disarmed
                        apply hi.disarmed c now reason
                        rw [show Chain.running (GateRun.gate ⟨g, _⟩).lock = [_] from hrun]
                        exact List.mem_singleton_self _
                      refine overdue_tick hdates (d := closesAt) (max d.ms (closesAt.ms + 1)) ?_ ?_ hidle (by omega)
                        (by omega) ?_
                      · exact (congrArg (fun g : Gate => g.state.state) hexit).trans hlate
                      · exact (congrArg (fun g : Gate => g.state.closesAt) hexit).trans hshown
                      · intro t ht
                        cases hdisarmed.symm.trans ((congrArg Gate.timer hexit).symm.trans ht)
              | error e =>
                  obtain ⟨hnone, hnet, closesAt, hshown, hle⟩ := hlate
                  have hidle : lock.Idle := ⟨hsettled, hwait.trans hnone⟩
                  have hexit := openExit_failed P cfg g c now reason e d hnet
                  refine overdue_tick hdates (d := closesAt) (d.ms + 1) ?_ ?_ hidle (by omega) (by omega) ?_
                  · exact (congrArg (fun g : Gate => g.state.state) hexit).trans hnet
                  · exact (congrArg (fun g : Gate => g.state.closesAt) hexit).trans hshown
                  · intro t ht
                    obtain rfl := Option.some.inj ((congrArg Gate.timer hexit).symm.trans ht)
                    show d.ms + 1 ≤ d.ms + timeoutMs 0
                    rw [timeoutMs_zero]
      | _ => exact hlate.elim

/-- The timer of a successful open, against what the open stores. -/
theorem Clocked.Step.onTime_iff (hdates : ∀ d, Dated P d) {s s' : Clocked} {c : Canary} {now clock closesAt : Instant}
    {reason : JsString} (h : Clocked.Step P cfg s (.gate (.exit (.opening c now reason) (.ok ()) clock)) s')
    (hd : now.addSeconds cfg.ttlSeconds.val = some closesAt) :
    OnTime P s'.run.gate ↔ clock.ms - now.ms ≤ slack cfg now closesAt := by
  cases h with
  | @gate w w' _ _ h hread hdue =>
      cases h with
      | @exit g lock _ _ hsettle _ _ =>
          obtain ⟨htimer, hstate⟩ := openExit_opened P g c reason clock hd
          have hshown := congrArg GateState.closesAt hstate
          have hslack : clock.ms + timeoutMs (millis cfg.ttlSeconds.val) ≤ closesAt.ms ↔
              clock.ms - now.ms ≤ slack cfg now closesAt := by
            unfold slack
            omega
          rw [← hslack]
          constructor
          · rintro ⟨t, shown, d, ht, hs, hparse, hle⟩
            obtain rfl := Option.some.inj (htimer.symm.trans ht)
            obtain rfl := Option.some.inj (hshown.symm.trans hs)
            obtain rfl := Option.some.inj ((hdates closesAt).symm.trans hparse)
            exact hle
          · intro hle
            exact ⟨_, _, closesAt, htimer, hshown, hdates closesAt, hle⟩

/-- **When the advertised close time is honoured.** The timer that a successful open arms is due by the `closesAt` it
    stores exactly if no more time has passed since the call than there is slack. With no close failing, a run without
    a late step never shows a `closesAt` in the past while no section is queued or running, and after a late step it
    can. -/
theorem closesAt_kept_iff (P : Platform) (hdates : ∀ d, Dated P d) (cfg : GateConfig) (file : Option Bytes) (clock₀ : ℤ) :
    (∀ tr s s' c now reason clock closesAt, Run (Clocked.Step P cfg) (.boot P file clock₀) tr s →
      Clocked.Step P cfg s (.gate (.exit (.opening c now reason) (.ok ()) clock)) s' →
      now.addSeconds cfg.ttlSeconds.val = some closesAt →
      (OnTime P s'.run.gate ↔ clock.ms - now.ms ≤ slack cfg now closesAt)) ∧
    (∀ tr s, Run (Where (Clocked.Step P cfg) (Prompt P cfg)) (.boot P file clock₀) tr s → Overdue P s →
      ¬s.run.gate.lock.Idle) ∧
    (∀ tr s s' l, Run (Clocked.Step P cfg) (.boot P file clock₀) tr s → Clocked.Step P cfg s (.gate l) s' →
      Late P cfg s.run l →
      ∃ clock s'', Clocked.Step P cfg s' (.tick clock) s'' ∧ Overdue P s'' ∧ s''.run.gate.lock.Idle) := by
  refine ⟨?_, ?_, ?_⟩
  · intro tr s s' c now reason clock closesAt run h hd
    exact h.onTime_iff hdates hd
  · intro tr s run hoverdue
    exact (timely_of_run run).idle_not_overdue hdates (Clocked.inv_of_run run.of_where) hoverdue
  · intro tr s s' l run h hlate
    exact hlate.overdue hdates (Clocked.inv_of_run run) h

/-! ## An open that takes its time -/

/-- The first open is called, approved and let in; the helper ends at the time `d`. -/
def slowOpen (d : Instant) : List ClockedEvent :=
  [.gate (.asked Gate.firstCanary Gate.early)] ++ [.gate (.answered Gate.firstCanary Gate.early ⟨true, []⟩)]
    ++ [.gate (.enter (.opening Gate.firstCanary Gate.early []))] ++ [.tick d.ms]

theorem slowOpen_run (d : Instant) (h : Gate.early.ms ≤ d.ms) :
    Run (Clocked.Step Symbolic.dated defaultConfig) (.boot Symbolic.dated none Gate.early.ms) (slowOpen d)
      ⟨⟨Gate.opening defaultConfig {} 0 Gate.firstCanary Gate.early [], []⟩, d.ms⟩ := by
  have hasked : Clocked.Step Symbolic.dated defaultConfig (.boot Symbolic.dated none Gate.early.ms)
      (.gate (.asked Gate.firstCanary Gate.early)) _ :=
    .gate (.asked (Gate.openStart_of_unused defaultConfig Gate.early rfl)) (fun d hd => by cases hd; rfl)
      fun _ _ hfire => by cases hfire
  have hanswered := (Run.nil.snoc hasked).snoc (.gate (.answered _ [] [] Gate.firstCanary Gate.early ⟨true, []⟩)
    (fun d hd => by cases hd) fun _ _ hfire => by cases hfire)
  have hentered := hanswered.snoc (.gate (.enter [] (Chain.Starts.first [])) (fun d hd => by cases hd)
    fun _ _ hfire => by cases hfire)
  exact hentered.snoc (.tick h fun t ht => by cases ht)

/-- The helper succeeds. -/
theorem slowOpen_ends (d : Instant) : ∃ s', Clocked.Step Symbolic.dated defaultConfig
    ⟨⟨Gate.opening defaultConfig {} 0 Gate.firstCanary Gate.early [], []⟩, d.ms⟩
    (.gate (.exit (.opening Gate.firstCanary Gate.early []) (.ok ()) d)) s' ∧ s'.run.gate.state.state = .internet := by
  have hsettles : Chain.Settles (Section.opening Gate.firstCanary Gate.early [])
      [.running (.opening Gate.firstCanary Gate.early [])] _ := .mk [] []
  have hexit : Clocked.Step Symbolic.dated defaultConfig
      ⟨⟨Gate.opening defaultConfig {} 0 Gate.firstCanary Gate.early [], []⟩, d.ms⟩
      (.gate (.exit (.opening Gate.firstCanary Gate.early []) (.ok ()) d)) _ :=
    .gate (.exit [] hsettles (.ok ()) d) (fun d hd => by cases hd; rfl) fun _ _ hfire => by cases hfire
  exact ⟨_, hexit, congrArg GateState.state (openExit_opened _ _ _ _ _ default_closes).2⟩

theorem default_slack : slack defaultConfig Gate.early ⟨1800002700000, by decide⟩ = 0 :=
  slack_whole (n := 2700) rfl (by norm_num) (by norm_num) default_closes

/-- Without any delay the timer is on time. -/
theorem prompt_open_onTime : ∃ tr s, Run (Clocked.Step Symbolic.dated defaultConfig)
      (.boot Symbolic.dated none Gate.early.ms) tr s ∧ s.run.gate.state.state = .internet ∧
    OnTime Symbolic.dated s.run.gate := by
  have run := slowOpen_run Gate.early (Int.le_refl _)
  obtain ⟨s', h, hnet⟩ := slowOpen_ends Gate.early
  have honTime := ((closesAt_kept_iff Symbolic.dated Symbolic.dated_round defaultConfig none Gate.early.ms).1 _ _ _ _ _ _ _ _
    run h default_closes).mpr (by rw [default_slack, sub_self])
  exact ⟨_, s', run.snoc h, hnet, honTime⟩

/-- Five seconds after `early`. -/
def fiveSecondsLater : Instant := ⟨1800000005000, by decide⟩

/-- With the helper five seconds late the window outlives its `closesAt`, and nothing is queued. -/
theorem slow_open_overdue : ∃ tr s, Run (Clocked.Step Symbolic.dated defaultConfig)
      (.boot Symbolic.dated none Gate.early.ms) tr s ∧ (∀ l, .gate l ∈ tr → ¬CloseFails l) ∧
    Overdue Symbolic.dated s ∧ s.run.gate.lock.Idle := by
  have run := slowOpen_run fiveSecondsLater (by decide)
  obtain ⟨s', h, _⟩ := slowOpen_ends fiveSecondsLater
  have hlate : Late Symbolic.dated defaultConfig ⟨Gate.opening defaultConfig {} 0 Gate.firstCanary Gate.early [], []⟩
      (.exit (.opening Gate.firstCanary Gate.early []) (.ok ()) fiveSecondsLater) := by
    refine ⟨rfl, ?_⟩
    rw [default_closes]
    show slack defaultConfig Gate.early _ < _
    rw [default_slack]
    decide
  obtain ⟨clock, s'', htick, hoverdue, hidle⟩ := hlate.overdue Symbolic.dated_round (Clocked.inv_of_run run) h
  refine ⟨_, s'', (run.snoc h).snoc htick, ?_, hoverdue, hidle⟩
  intro l hl
  simp [slowOpen] at hl
  rcases hl with rfl | rfl | rfl | rfl
  all_goals exact id

end Island
end VpnPi
