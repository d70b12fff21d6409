import VpnPi.Island.Gate
import VpnPi.Island.Symbolic

/-!
# `Island.GateWindow` — an open window has a reclose pending

Two runs of the helper never overlap, because the promise chain is a lock (`chained_of_run`). The window is
`Guarded` when it is closed, or the reclose timer is armed, or a section is queued or running. Each step of
the gate keeps it guarded but one (`Step.guarded`): a re-open whose close time is past the last valid date
throws after it has disarmed the timer of the window it found open.
-/

namespace VpnPi
namespace Island

open Js Async

variable {P : Platform} {cfg : GateConfig}

namespace Gate

/-! ## The lock -/

theorem openStart_frame {g g' : Gate} {c : Canary} {now : Instant} {r : Except Exn Unit}
    (h : g.openStart cfg c now = (r, g')) : ∃ consumed, g' = { g with consumed := consumed } := by
  unfold openStart at h
  dsimp only at h
  split at h
  · cases h; exact ⟨_, rfl⟩
  · cases h; exact ⟨_, rfl⟩

theorem openStart_of_pruned {g : Gate} {c : Canary} {now : Instant}
    (h : (g.prune cfg now).consumed.get c.nonce = none) :
    g.openStart cfg c now =
      (.ok (), { g with consumed := (g.prune cfg now).consumed.set c.nonce (.ofInt now.ms) }) := by
  have hnone : ¬(g.prune cfg now).consumed.has c.nonce = true := by
    rw [OrdMap.has, h]
    exact Bool.false_ne_true
  unfold openStart
  rw [if_neg hnone]
  rfl

theorem openStart_of_spent {g : Gate} {c : Canary} {now : Instant} {x : Number}
    (h : (g.prune cfg now).consumed.get c.nonce = some x) :
    g.openStart cfg c now = (.error (.canary (js "canary already used")), g.prune cfg now) := by
  have hhas : (g.prune cfg now).consumed.has c.nonce = true := by
    rw [OrdMap.has, h]
    rfl
  unfold openStart
  rw [if_pos hhas]

theorem openStart_of_unused {g : Gate} {c : Canary} (cfg : GateConfig) (now : Instant)
    (h : g.consumed.get c.nonce = none) :
    g.openStart cfg c now =
      (.ok (), { g with consumed := (g.prune cfg now).consumed.set c.nonce (.ofInt now.ms) }) :=
  openStart_of_pruned (OrdMap.get_filter_none h)

/-- What the LLM's answer does: a line in the log, or a section in the queue. -/
theorem answered_cases (P : Platform) (g : Gate) (c : Canary) (now : Instant) (d : LlamaDecision) :
    (∃ log, (g.answered P c now d).2 = { g with log := log }) ∨
      (g.answered P c now d).2 = { g with lock := g.lock.enqueue (.opening c now d.reason) } := by
  unfold answered
  split
  · exact Or.inr rfl
  · exact Or.inl ⟨_, rfl⟩

theorem Step.chained {w w' : GateRun} {l : GateEvent} (h : Step P cfg w l w')
    (hc : w.gate.lock.Chained) : w'.gate.lock.Chained := by
  cases h with
  | asked h =>
      obtain ⟨_, rfl⟩ := openStart_frame h
      exact hc
  | refused h =>
      obtain ⟨_, rfl⟩ := openStart_frame h
      exact hc
  | answered g _ _ c now d =>
      rcases answered_cases P g c now d with ⟨log, hg⟩ | hg
      · simp only [hg]; exact hc
      · simp only [hg]; exact Chain.Chained.enqueue hc _
  | close => exact Chain.Chained.enqueue hc _
  | fire => exact Chain.Chained.enqueue hc _
  | enter _ h => exact h.chained hc
  | exit _ h => exact h.chained hc

theorem boot_frame (P : Platform) (file : Option Bytes) :
    ∃ consumed, boot P file = { consumed := consumed } := by
  unfold boot loadConsumed
  split
  · split
    · exact ⟨_, rfl⟩
    · exact ⟨_, rfl⟩
  · exact ⟨_, rfl⟩

theorem boot_idle (P : Platform) (file : Option Bytes) : (boot P file).lock.Idle := by
  obtain ⟨_, hg⟩ := boot_frame P file
  rw [hg]
  exact ⟨rfl, rfl⟩

theorem chained_of_run {file : Option Bytes} {tr : List GateEvent} {w : GateRun}
    (run : Run (Step P cfg) ⟨boot P file, []⟩ tr w) : w.gate.lock.Chained := by
  refine run.invariant (I := fun _ w => w.gate.lock.Chained) ?_ (fun _ _ _ _ _ ih h => h.chained ih)
  obtain ⟨_, hg⟩ := boot_frame P file
  rw [hg]
  trivial

/-! ## The window -/

/-- The window is closed, or something will close it. -/
def Guarded (g : Gate) : Prop := g.state.state = .internet → g.timer.isSome ∨ ¬g.lock.Idle

/-- A re-open succeeds whose close time is no date, and nothing is queued behind it. -/
def Strands (cfg : GateConfig) (w : GateRun) (l : GateEvent) : Prop :=
  ∃ c now reason clock, l = .exit (.opening c now reason) (.ok ()) clock ∧
    w.gate.state.state = .internet ∧ now.addSeconds cfg.ttlSeconds.val = none ∧ w.gate.lock.waiting = []

theorem not_idle_enqueue (c : Chain Section) (s : Section) : ¬(c.enqueue s).Idle := by
  intro h
  have := h.2
  rw [Chain.waiting_enqueue] at this
  exact absurd (List.append_eq_nil_iff.mp this).2 nofun

/-- What the section of `open` leaves behind: an armed timer, a closed gate, or — when the close time is no
    date — the window as it found it. -/
theorem openExit_cases (P : Platform) (cfg : GateConfig) (g : Gate) (c : Canary) (now : Instant)
    (reason : JsString) (exec : Except Exn Unit) (clock : Instant) :
    let g' := (g.openExit P cfg c now reason exec clock).2
    g'.timer.isSome ∨ g'.state.state = .island ∨
      (exec = .ok () ∧ now.addSeconds cfg.ttlSeconds.val = none ∧ g'.state = g.state ∧ g'.timer = g.timer) := by
  unfold openExit
  cases exec with
  | error e =>
      dsimp only
      by_cases h : g.state.state = .internet
      · rw [if_pos h]
        exact Or.inl rfl
      · rw [if_neg h]
        cases hs : g.state.state with
        | island => exact Or.inr (Or.inl rfl)
        | internet => exact absurd hs h
  | ok u =>
      dsimp only
      cases hd : now.addSeconds cfg.ttlSeconds.val with
      | none => exact Or.inr (Or.inr ⟨rfl, rfl, rfl, rfl⟩)
      | some closesAt => exact Or.inl rfl

theorem closeExit_cases (P : Platform) (g : Gate) (reason : JsString) (now : Instant)
    (exec : Except Exn Unit) (clock : Instant) :
    let g' := (g.closeExit P reason now exec clock).2
    (∃ e t, exec = .error e ∧ g'.timer = some t ∧ t.delayMs ≤ 60000 ∧ g'.state = g.state) ∨
      (exec = .ok () ∧ g'.state = ⟨.island, none⟩) := by
  cases exec with
  | error e =>
      refine Or.inl ⟨e, _, rfl, rfl, ?_, rfl⟩
      show ((retryDelay (g.recloseAttempts + 1) : ℕ) : ℚ) ≤ 60000
      have : retryDelay (g.recloseAttempts + 1) ≤ 60000 := Nat.min_le_right _ _
      exact_mod_cast this
  | ok u => exact Or.inr ⟨rfl, rfl⟩

theorem Step.guarded {w w' : GateRun} {l : GateEvent} (h : Step P cfg w l w')
    (hc : w.gate.lock.Chained) (hg : Guarded w.gate) (hl : ¬Strands cfg w l) : Guarded w'.gate := by
  cases h with
  | asked h =>
      obtain ⟨_, rfl⟩ := openStart_frame h
      exact hg
  | refused h =>
      obtain ⟨_, rfl⟩ := openStart_frame h
      exact hg
  | answered g _ _ c now d =>
      rcases answered_cases P g c now d with ⟨log, hd⟩ | hd
      · simp only [hd]; exact hg
      · simp only [hd]; exact fun _ => Or.inr (not_idle_enqueue _ _)
  | close => exact fun _ => Or.inr (not_idle_enqueue _ _)
  | fire => exact fun _ => Or.inr (not_idle_enqueue _ _)
  | enter _ h =>
      -- the section that enters is running
      have hrun := (h.view hc).2.2
      exact fun _ => Or.inr (fun hidle => nomatch hrun.symm.trans hidle.1)
  | @exit g lock s _ h exec clock =>
      intro hnet
      cases s with
      | closing reason now =>
          rcases closeExit_cases P g reason now exec clock with ⟨_, t, _, ht, _⟩ | ⟨_, hs⟩
          · exact Or.inl (Option.isSome_iff_exists.mpr ⟨t, ht⟩)
          · exact nomatch (congrArg GateState.state hs).symm.trans hnet
      | opening c now reason =>
          rcases openExit_cases P cfg g c now reason exec clock with ht | hs | ⟨rfl, hd, hs, _⟩
          · exact Or.inl ht
          · exact nomatch hs.symm.trans hnet
          · -- the timer is gone, so something must be queued
            have hwait := (h.view hc).2.2
            exact Or.inr fun hidle => hl ⟨c, now, reason, clock, rfl,
              (congrArg GateState.state hs).symm.trans hnet, hd, hwait.symm.trans hidle.2⟩

/-- A section of `open` runs with the timer disarmed. -/
theorem Step.disarmed {w w' : GateRun} {l : GateEvent} (h : Step P cfg w l w')
    (hc : w.gate.lock.Chained)
    (hg : ∀ c now reason, .opening c now reason ∈ w.gate.lock.running → w.gate.timer = none) :
    ∀ c now reason, .opening c now reason ∈ w'.gate.lock.running → w'.gate.timer = none := by
  intro c now reason hmem
  cases h with
  | asked h =>
      obtain ⟨_, rfl⟩ := openStart_frame h
      exact hg c now reason hmem
  | refused h =>
      obtain ⟨_, rfl⟩ := openStart_frame h
      exact hg c now reason hmem
  | answered g _ _ c' now' d =>
      rcases answered_cases P g c' now' d with ⟨log, hd⟩ | hd
      · simp only [hd] at hmem ⊢; exact hg c now reason hmem
      · simp only [hd, Chain.running_enqueue] at hmem ⊢; exact hg c now reason hmem
  | close g _ reason' now' =>
      have hrun := Chain.running_enqueue g.lock (.closing reason' now')
      exact hg c now reason (hrun ▸ hmem)
  | fire _ h now' => rfl
  | enter _ h =>
      have hrun := (h.view hc).2.2
      obtain rfl := List.mem_singleton.mp (hrun ▸ hmem)
      rfl
  | exit _ h =>
      have hrun := (h.view hc).2.1
      exact absurd (hrun ▸ hmem) List.not_mem_nil

theorem disarmed_of_run {file : Option Bytes} {tr : List GateEvent} {w : GateRun}
    (run : Run (Step P cfg) ⟨boot P file, []⟩ tr w) :
    ∀ c now reason, .opening c now reason ∈ w.gate.lock.running → w.gate.timer = none := by
  refine run.invariant
    (I := fun _ w => ∀ c now reason, .opening c now reason ∈ w.gate.lock.running → w.gate.timer = none)
    ?_ (fun _ _ _ _ r ih h => h.disarmed (chained_of_run r) ih)
  intro c now reason hmem
  obtain ⟨_, hg⟩ := boot_frame P file
  have hlock : (boot P file).lock = [] := congrArg Gate.lock hg
  rw [show (GateRun.gate ⟨boot P file, []⟩).lock = [] from hlock] at hmem
  exact absurd hmem List.not_mem_nil

/-! ## Runs -/

/-- What holds of a gate after the steps `tr`. -/
structure WindowInv (tr : List GateEvent) (g : Gate) : Prop where
  /-- At most one helper runs. -/
  single  : g.lock.running.length ≤ 1
  guarded : Guarded g
  /-- A close that has just failed has armed a retry, a minute ahead at most. -/
  retried : ∀ tr' reason now e clock, tr = tr' ++ [.exit (.closing reason now) (.error e) clock] →
    ∃ t, g.timer = some t ∧ t.delayMs ≤ 60000

theorem Step.retried {w w' : GateRun} {reason : JsString} {now clock : Instant} {e : Exn}
    (h : Step P cfg w (.exit (.closing reason now) (.error e) clock) w') :
    ∃ t, w'.gate.timer = some t ∧ t.delayMs ≤ 60000 := by
  cases h with
  | @exit g lock _ _ _ _ _ =>
      rcases closeExit_cases P g reason now (.error e) clock with ⟨_, t, _, ht, hle, _⟩ | ⟨hexec, _⟩
      · exact ⟨t, ht, hle⟩
      · cases hexec

theorem windowInv_of_run {file : Option Bytes} {tr : List GateEvent} {w : GateRun}
    (run : Run (Where (Step P cfg) fun w l => ¬Strands cfg w l) ⟨boot P file, []⟩ tr w) :
    WindowInv tr w.gate := by
  have hguard : Guarded w.gate := by
    refine run.invariant (I := fun _ w => Guarded w.gate) ?_
      (fun _ _ _ _ r ih h => h.1.guarded (chained_of_run r.of_where) ih h.2)
    obtain ⟨_, hg⟩ := boot_frame P file
    rw [show (GateRun.gate ⟨boot P file, []⟩) = _ from hg]
    nofun
  refine ⟨(chained_of_run run.of_where).running_length, hguard, ?_⟩
  rintro tr' reason now e clock rfl
  obtain ⟨w₀, _, h⟩ := run.of_concat
  exact h.1.retried

/-- **When an open window has a reclose pending.** The helper never runs twice at once, every failed close
    has a retry at most a minute ahead, and an open window is guarded, in every run without a re-open whose
    close time is no date; such a re-open leaves the window open with nothing to close it. -/
theorem window_guarded_iff (P : Platform) (cfg : GateConfig) (file : Option Bytes) :
    (∀ tr w, Run (Where (Step P cfg) fun w l => ¬Strands cfg w l) ⟨boot P file, []⟩ tr w →
      WindowInv tr w.gate) ∧
    (∀ tr w l w', Run (Step P cfg) ⟨boot P file, []⟩ tr w → Step P cfg w l w' → Strands cfg w l →
      ¬Guarded w'.gate) := by
  refine ⟨fun tr w run => windowInv_of_run run, ?_⟩
  rintro tr w l w' run h ⟨c, now, reason, clock, rfl, hnet, hd, hwait⟩ hg
  have hc := chained_of_run run
  cases h with
  | @exit g lock _ _ h _ _ =>
      have hview := h.view hc
      have htimer : g.timer = none :=
        disarmed_of_run run c now reason (hview.1 ▸ List.mem_singleton_self _)
      have hexit : (g.openExit P cfg c now reason (.ok ()) clock).2 = { g with recloseAttempts := 0 } := by
        unfold openExit
        simp only [hd]
      have hstate : (g.exit P cfg (.opening c now reason) (.ok ()) clock).2.state.state = .internet := by
        show (g.openExit P cfg c now reason (.ok ()) clock).2.state.state = _
        rw [hexit]
        exact hnet
      have hnone : (g.exit P cfg (.opening c now reason) (.ok ()) clock).2.timer = none := by
        show (g.openExit P cfg c now reason (.ok ()) clock).2.timer = _
        rw [hexit]
        exact htimer
      rcases hg hstate with ht | hidle
      · obtain ⟨t, ht⟩ := Option.isSome_iff_exists.mp ht
        exact nomatch hnone.symm.trans ht
      · exact hidle ⟨hview.2.1, hview.2.2.trans hwait⟩

/-! ## A window left open -/

theorem starts_replicate (n : Nat) (s : Section) :
    Chain.Starts s (List.replicate n .settled ++ [.waiting s]) (List.replicate n .settled ++ [.running s]) := by
  cases n with
  | zero => exact .first []
  | succ n =>
      have h : ∀ p : Phase Section, List.replicate (n + 1) Phase.settled ++ [p]
          = List.replicate n .settled ++ .settled :: [p] := by
        intro p
        rw [List.replicate_succ', List.append_assoc]
        rfl
      rw [h, h]
      exact .next _ []

/-- The gate whose helper has been called for an open that nothing interferes with. -/
def opening (cfg : GateConfig) (g : Gate) (n : Nat) (c : Canary) (now : Instant) (reason : JsString) : Gate :=
  { g with
    consumed := (g.prune cfg now).consumed.set c.nonce (.ofInt now.ms)
    timer := none
    lock := List.replicate n .settled ++ [.running (.opening c now reason)] }

/-- A call of `open` with an unspent nonce that nothing else interferes with, approved by the LLM. -/
theorem opening_run {s₀ : GateRun} {tr : List GateEvent} {g : Gate} {n : Nat}
    (run : Run (Step P cfg) s₀ tr ⟨g, []⟩) (hl : g.lock = List.replicate n .settled) {c : Canary}
    (hc : g.consumed.get c.nonce = none) (now : Instant) (reason : JsString) :
    Run (Step P cfg) s₀ (tr ++ [.asked c now] ++ [.answered c now ⟨true, reason⟩]
      ++ [.enter (.opening c now reason)]) ⟨opening cfg g n c now reason, []⟩ := by
  have hasked := run.snoc (Step.asked (openStart_of_unused cfg now hc))
  have hanswered := hasked.snoc (.answered _ [] [] c now ⟨true, reason⟩)
  have hstart := starts_replicate n (.opening c now reason)
  rw [← hl] at hstart
  have hentered := hanswered.snoc (.enter [] hstart)
  rw [hl] at hentered
  exact hentered

/-- The helper ends, and with it the call. -/
theorem opened_run {s₀ : GateRun} {tr : List GateEvent} {g : Gate} {n : Nat} {c : Canary} {now : Instant}
    {reason : JsString} (run : Run (Step P cfg) s₀ tr ⟨opening cfg g n c now reason, []⟩)
    (exec : Except Exn Unit) (clock : Instant) :
    Run (Step P cfg) s₀ (tr ++ [.exit (.opening c now reason) exec clock])
      ⟨{ (openExit P cfg c now reason exec clock (opening cfg g n c now reason)).2 with
          lock := List.replicate (n + 1) .settled }, []⟩ := by
  have hsettle : Chain.Settles (Section.opening c now reason)
      (List.replicate n .settled ++ .running (Section.opening c now reason) :: [])
      (List.replicate n .settled ++ .settled :: []) := .mk (List.replicate n .settled) []
  rw [← List.replicate_succ'] at hsettle
  exact run.snoc (.exit [] hsettle exec clock)

/-- The reclose timer fires, and the helper is called and ends. -/
theorem fired_run {s₀ : GateRun} {tr : List GateEvent} {g : Gate} {n : Nat} {t : Timer}
    (run : Run (Step P cfg) s₀ tr ⟨g, []⟩) (hl : g.lock = List.replicate n .settled) (ht : g.timer = some t)
    (now : Instant) (exec : Except Exn Unit) (clock : Instant) :
    Run (Step P cfg) s₀ (tr ++ [.fire now] ++ [.enter (.closing t.reason now)]
        ++ [.exit (.closing t.reason now) exec clock])
      ⟨{ (closeExit P t.reason now exec clock { g with timer := none }).2 with
          lock := List.replicate (n + 1) .settled }, []⟩ := by
  obtain ⟨state, log, consumed, timer, lock, attempts⟩ := g
  obtain rfl : lock = List.replicate n .settled := hl
  have hfired := run.snoc (Step.fire [] ht now)
  have hentered := hfired.snoc (.enter [] (starts_replicate n (.closing t.reason now)))
  have hsettle : Chain.Settles (Section.closing t.reason now)
      (List.replicate n .settled ++ .running (Section.closing t.reason now) :: [])
      (List.replicate n .settled ++ .settled :: []) := .mk (List.replicate n .settled) []
  rw [← List.replicate_succ'] at hsettle
  have hexited := hentered.snoc (.exit [] hsettle exec clock)
  cases exec with
  | error e => exact hexited
  | ok u => exact hexited

/-- `ISLAND_GATE_TTL`, with the last valid date the first call's close time. -/
def farConfig : GateConfig := { ttlSeconds := ⟨8638200000000, by norm_num⟩ }

def early : Instant := ⟨1800000000000, by decide⟩

def late : Instant := ⟨1800000000001, by decide⟩

theorem early_closes :
    early.addSeconds farConfig.ttlSeconds.val = Instant.ofMs 8640000000000000 := by
  have h := @Instant.addSeconds_intCast early 8638200000000 (by norm_num [abs_lt])
    (by norm_num [early, abs_lt])
  exact h

theorem late_never : late.addSeconds farConfig.ttlSeconds.val = none := by
  have h := @Instant.addSeconds_intCast late 8638200000000 (by norm_num [abs_lt])
    (by norm_num [late, abs_lt])
  exact h

def firstCanary : Canary := ⟨[], [], [], js "first", []⟩

def secondCanary : Canary := ⟨[], [], [], js "second", []⟩

/-- Two opens a millisecond apart: the second disarms the timer of the first and throws. -/
theorem reopen_unguarded :
    ∃ tr w, Run (Step Symbolic.platform farConfig) ⟨boot Symbolic.platform none, []⟩ tr w ∧
      ¬Guarded w.gate := by
  have hclose : early.addSeconds farConfig.ttlSeconds.val = some ⟨8640000000000000, by decide⟩ :=
    early_closes
  have run₀ : Run (Step Symbolic.platform farConfig) ⟨boot Symbolic.platform none, []⟩ [] ⟨{}, []⟩ := .nil
  have run₁ := opened_run (opening_run (n := 0) (c := firstCanary) run₀ rfl rfl early []) (.ok ()) early
  unfold openExit at run₁
  simp only [hclose] at run₁
  have hfree : (opening farConfig {} 0 firstCanary early []).consumed.get secondCanary.nonce = none := by
    unfold opening
    rw [OrdMap.get_set_ne (by decide)]
    exact OrdMap.get_filter_none rfl
  have run₂ := opened_run (opening_run run₁ rfl (c := secondCanary) hfree late []) (.ok ()) late
  unfold openExit at run₂
  simp only [late_never] at run₂
  refine ⟨_, _, run₂, fun hg => ?_⟩
  rcases hg rfl with ht | hidle
  · cases ht
  · exact hidle ⟨rfl, rfl⟩

/-- A canary opens the window, the timer fires, and the helper fails to close it. -/
def failedClose : List GateEvent :=
  [.asked firstCanary early, .answered firstCanary early ⟨true, []⟩, .enter (.opening firstCanary early []),
    .exit (.opening firstCanary early []) (.ok ()) early, .fire early,
    .enter (.closing (js "auto-reclose (ttl)") early),
    .exit (.closing (js "auto-reclose (ttl)") early) (.error .typeError) early]

/-- A second canary opens the window that is still open. -/
def reopening : List GateEvent :=
  [.asked secondCanary early, .answered secondCanary early ⟨true, []⟩, .enter (.opening secondCanary early []),
    .exit (.opening secondCanary early []) (.ok ()) early]

theorem not_strands_early {l : GateEvent} (hl : l ∈ failedClose ++ reopening) (w : GateRun) :
    ¬Strands farConfig w l := by
  rintro ⟨c, now, reason, clock, rfl, _, hd, _⟩
  have hnow : now = early := by
    simp [failedClose, reopening] at hl
    rcases hl with ⟨⟨_, hnow, _⟩, _⟩ | ⟨⟨_, hnow, _⟩, _⟩
    · exact hnow
    · exact hnow
  rw [hnow, early_closes] at hd
  cases hd

/-- The window is guarded by the retry, and by the timer of the second open. -/
theorem window_guarded_open : ∃ w w',
    Run (Where (Step Symbolic.platform farConfig) fun w l => ¬Strands farConfig w l)
        ⟨boot Symbolic.platform none, []⟩ failedClose w ∧
      w.gate.state.state = .internet ∧ WindowInv failedClose w.gate ∧
    Run (Where (Step Symbolic.platform farConfig) fun w l => ¬Strands farConfig w l)
        ⟨boot Symbolic.platform none, []⟩ (failedClose ++ reopening) w' ∧
      w'.gate.state.state = .internet ∧ WindowInv (failedClose ++ reopening) w'.gate := by
  have hclose : early.addSeconds farConfig.ttlSeconds.val = some ⟨8640000000000000, by decide⟩ :=
    early_closes
  have run₀ : Run (Step Symbolic.platform farConfig) ⟨boot Symbolic.platform none, []⟩ [] ⟨{}, []⟩ := .nil
  have run₁ := opened_run (opening_run (n := 0) (c := firstCanary) run₀ rfl rfl early []) (.ok ()) early
  unfold openExit at run₁
  simp only [hclose] at run₁
  have run₂ := fired_run run₁ rfl rfl early (.error .typeError) early
  have hfree : (opening farConfig {} 0 firstCanary early []).consumed.get secondCanary.nonce = none := by
    unfold opening
    rw [OrdMap.get_set_ne (by decide)]
    exact OrdMap.get_filter_none rfl
  have run₃ := opened_run (opening_run run₂ rfl (c := secondCanary) hfree early []) (.ok ()) early
  unfold openExit at run₃
  simp only [hclose] at run₃
  have hfailed := run₂.to_where fun l hl => not_strands_early (List.mem_append_left reopening hl)
  have hreopened := run₃.to_where fun l hl => not_strands_early hl
  have hguarded := (window_guarded_iff Symbolic.platform farConfig none).1
  exact ⟨_, _, hfailed, rfl, hguarded _ _ hfailed, hreopened, rfl, hguarded _ _ hreopened⟩

end Gate

end Island
end VpnPi
