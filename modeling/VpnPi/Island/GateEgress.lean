import VpnPi.Island.GateWindow

/-!
# `Island.GateEgress` — the reported state and the packet filter

`Machine` puts the gate beside what it cannot see: whether the packet filter lets the mesh out, and the
commands that the running helper (`deploy/island-gate`) still has to issue. The helper can fail between any
two of them, and a restart replaces the gate and kills the helper but leaves the filter as it is.

`Machine.Faithful` says that a gate at rest which reports `island` has egress closed. Every step keeps it
except the three kinds that `Exposes` names (`faithful_iff`).
-/

namespace VpnPi
namespace Island

open Js Async

/-! ## The helper -/

/-- The `nft` calls of the script. -/
inductive NftCommand where
  | deleteTable
  | addTable
  | addForwardChain
  | acceptMeshToMesh
  | acceptMeshToUplink
  | acceptUplinkToMesh
  | addPostroutingChain
  | masquerade
  deriving DecidableEq

def gateOpen : List NftCommand :=
  [.deleteTable, .addTable, .addForwardChain, .acceptMeshToMesh, .acceptMeshToUplink, .acceptUplinkToMesh,
    .addPostroutingChain, .masquerade]

def gateClose : List NftCommand := [.deleteTable]

/-- Whether the mesh reaches the uplink, after a command. -/
def NftCommand.effect (c : NftCommand) (egress : Bool) : Bool :=
  match c with
  | .deleteTable => false
  | .acceptMeshToUplink => true
  | _ => egress

/-- The verb a section calls the helper with. -/
def Section.script : Section → List NftCommand
  | .opening _ _ _ => gateOpen
  | .closing _ _ => gateClose

/-! ## The machine -/

structure Machine where
  run    : GateRun
  egress : Bool
  /-- What the running helper has still to do. -/
  script : List NftCommand

namespace Machine

inductive Event where
  | gate (l : GateEvent)
  | command (c : NftCommand)
  | restart (file : Option Bytes)

/-- The steps that neither start nor end a helper. -/
def Quiet (l : GateEvent) : Prop := (∀ s, l ≠ .enter s) ∧ ∀ s exec clock, l ≠ .exit s exec clock

inductive Step (P : Platform) (cfg : GateConfig) : Machine → Event → Machine → Prop
  | gate {w w' : GateRun} {l : GateEvent} (egress : Bool) (script : List NftCommand)
      (h : Gate.Step P cfg w l w') (hl : Quiet l) :
      Step P cfg ⟨w, egress, script⟩ (.gate l) ⟨w', egress, script⟩
  | enter {w w' : GateRun} {s : Section} (egress : Bool) (script : List NftCommand)
      (h : Gate.Step P cfg w (.enter s) w') :
      Step P cfg ⟨w, egress, script⟩ (.gate (.enter s)) ⟨w', egress, s.script⟩
  | command (w : GateRun) (egress : Bool) (c : NftCommand) (script : List NftCommand) :
      Step P cfg ⟨w, egress, c :: script⟩ (.command c) ⟨w, c.effect egress, script⟩
  | exit {w w' : GateRun} {s : Section} {exec : Except Exn Unit} {clock : Instant} (egress : Bool)
      (script : List NftCommand) (h : Gate.Step P cfg w (.exit s exec clock) w')
      -- exit status 0 means that the last command has been issued
      (hexec : exec = .ok () → script = []) :
      Step P cfg ⟨w, egress, script⟩ (.gate (.exit s exec clock)) ⟨w', egress, []⟩
  | restart (w : GateRun) (egress : Bool) (script : List NftCommand) (file : Option Bytes) :
      Step P cfg ⟨w, egress, script⟩ (.restart file) ⟨⟨Gate.boot P file, []⟩, egress, []⟩

/-- The machine as it is first switched on. -/
def initial (P : Platform) (file : Option Bytes) : Machine := ⟨⟨Gate.boot P file, []⟩, false, []⟩

/-- A gate at rest that reports `island` has egress closed. -/
def Faithful (m : Machine) : Prop :=
  m.run.gate.lock.Idle → m.run.gate.state.state = .island → m.egress = false

/-- The steps that leave egress open behind a gate that reports `island`: a restart with egress open, and the
    end of an open that has installed the uplink rule and then fails, or throws because its close time is no
    date, while the gate reports `island`. -/
inductive Exposes (cfg : GateConfig) (m : Machine) : Event → Prop
  | restart (file : Option Bytes) (h : m.egress = true) : Exposes cfg m (.restart file)
  | failed (c : Canary) (now : Instant) (reason : JsString) (e : Exn) (clock : Instant)
      (hs : m.run.gate.state.state = .island) (h : m.egress = true) :
      Exposes cfg m (.gate (.exit (.opening c now reason) (.error e) clock))
  | threw (c : Canary) (now : Instant) (reason : JsString) (clock : Instant)
      (hd : now.addSeconds cfg.ttlSeconds.val = none)
      (hs : m.run.gate.state.state = .island) (h : m.egress = true) :
      Exposes cfg m (.gate (.exit (.opening c now reason) (.ok ()) clock))

variable {P : Platform} {cfg : GateConfig}

/-! ## The reported state, step by step -/

theorem openExit_state (P : Platform) (cfg : GateConfig) (g : Gate) (c : Canary) (now : Instant)
    (reason : JsString) (exec : Except Exn Unit) (clock : Instant) :
    (exec = .ok () ∧ (now.addSeconds cfg.ttlSeconds.val).isSome ∧
        (g.openExit P cfg c now reason exec clock).2.state.state = .internet) ∨
      ((exec = .ok () → now.addSeconds cfg.ttlSeconds.val = none) ∧
        (g.openExit P cfg c now reason exec clock).2.state = g.state) := by
  unfold Gate.openExit
  cases exec with
  | error e =>
      refine Or.inr ⟨nofun, ?_⟩
      dsimp only
      split
      · rfl
      · rfl
  | ok u =>
      cases hd : now.addSeconds cfg.ttlSeconds.val with
      | none => exact Or.inr ⟨fun _ => rfl, rfl⟩
      | some closesAt => exact Or.inl ⟨rfl, rfl, rfl⟩

/-- Between helpers the reported state and the running section stay. -/
theorem quiet_frame {w w' : GateRun} {l : GateEvent} (h : Gate.Step P cfg w l w') (hl : Quiet l) :
    w'.gate.state = w.gate.state ∧ w'.gate.lock.running = w.gate.lock.running := by
  cases h with
  | asked h =>
      obtain ⟨_, rfl⟩ := Gate.openStart_frame h
      exact ⟨rfl, rfl⟩
  | refused h =>
      obtain ⟨_, rfl⟩ := Gate.openStart_frame h
      exact ⟨rfl, rfl⟩
  | answered g _ _ c now d =>
      rcases Gate.answered_cases P g c now d with ⟨log, hd⟩ | hd
      · rw [hd]; exact ⟨rfl, rfl⟩
      · rw [hd]; exact ⟨rfl, Chain.running_enqueue _ _⟩
  | close => exact ⟨rfl, Chain.running_enqueue _ _⟩
  | fire => exact ⟨rfl, Chain.running_enqueue _ _⟩
  | enter => exact absurd rfl (hl.1 _)
  | exit => exact absurd rfl (hl.2 _ _ _)

/-- What holds of the machine in every state of a run. -/
structure Inv (m : Machine) : Prop where
  chained : m.run.gate.lock.Chained
  /-- Only while an open runs can egress be open behind a gate that reports `island`. -/
  closed  : m.run.gate.state.state = .island → m.egress = false ∨
    ∃ c now reason, m.run.gate.lock.running = [.opening c now reason]
  /-- A close clears the filter with its only command. -/
  closing : ∀ reason now, m.run.gate.lock.running = [.closing reason now] →
    m.script = gateClose ∨ m.script = [] ∧ m.egress = false
  /-- Only a section runs a helper. -/
  idle    : m.run.gate.lock.running = [] → m.script = []

theorem inv_boot (P : Platform) (file : Option Bytes) : Inv ⟨⟨Gate.boot P file, []⟩, false, []⟩ := by
  obtain ⟨_, hg⟩ := Gate.boot_frame P file
  rw [hg]
  exact ⟨trivial, fun _ => Or.inl rfl, fun _ _ h => absurd (show [] = _ from h) (List.cons_ne_nil _ _).symm, fun _ => rfl⟩

theorem Inv.faithful {m : Machine} (h : Inv m) : Faithful m := by
  intro hidle hs
  rcases h.closed hs with he | ⟨_, _, _, hrun⟩
  · exact he
  · exact nomatch hidle.1.symm.trans hrun

theorem Step.inv {m m' : Machine} {l : Event} (h : Step P cfg m l m') (hi : Inv m)
    (hl : ¬Exposes cfg m l) : Inv m' := by
  cases h with
  | gate egress script h hq =>
      obtain ⟨hs, hr⟩ := quiet_frame h hq
      refine ⟨h.chained hi.chained, ?_, ?_, ?_⟩
      · rw [hs, hr]; exact hi.closed
      · rw [hr]; exact hi.closing
      · rw [hr]; exact hi.idle
  | @enter w w' s egress script h =>
      have hc := h.chained hi.chained
      cases h with
      | @enter g lock _ ds hstart =>
          obtain ⟨hnone, _, hrun⟩ := hstart.view hi.chained
          have hrun' : Chain.running lock = [s] := hrun
          cases s with
          | opening c now reason =>
              -- an open that runs may have opened the firewall; a close starts where no open runs
              exact ⟨hc, fun _ => Or.inr ⟨c, now, reason, hrun'⟩,
                fun _ _ h => (nomatch hrun'.symm.trans h), fun h => (nomatch hrun'.symm.trans h)⟩
          | closing reason now =>
              refine ⟨hc, fun hs => ?_, fun _ _ _ => Or.inl rfl, fun h => (nomatch hrun'.symm.trans h)⟩
              rcases hi.closed hs with he | ⟨_, _, _, ho⟩
              · exact Or.inl he
              · exact nomatch hnone.symm.trans ho
  | command w egress c script =>
      refine ⟨hi.chained, fun hs => ?_, fun reason now hr => ?_, fun hr => nomatch hi.idle hr⟩
      · rcases hi.closed hs with he | ho
        · -- with no open running, the command is the close's
          cases hrun : w.gate.lock.running with
          | nil => exact nomatch hi.idle hrun
          | cons s ss =>
              have hlen := hi.chained.running_length
              simp only [hrun, List.length_cons] at hlen
              obtain rfl := List.length_eq_zero_iff.mp (show ss.length = 0 by omega)
              cases s with
              | opening c now reason => exact Or.inr ⟨c, now, reason, rfl⟩
              | closing reason now =>
                  rcases hi.closing reason now hrun with hsc | ⟨hsc, _⟩
                  · cases hsc; exact Or.inl rfl
                  · cases hsc
        · exact Or.inr ho
      · rcases hi.closing reason now hr with hsc | ⟨hsc, _⟩
        · cases hsc; exact Or.inr ⟨rfl, rfl⟩
        · cases hsc
  | @exit w w' s exec clock egress script h hexec =>
      have hc := h.chained hi.chained
      cases h with
      | @exit g lock _ ds hsettle _ _ =>
          obtain ⟨hrun, hnone, _⟩ := hsettle.view hi.chained
          have hnone' : Chain.running lock = [] := hnone
          refine ⟨hc, fun hs => Or.inl ?_, fun _ _ h => (nomatch hnone'.symm.trans h), fun _ => rfl⟩
          cases s with
          | closing reason now =>
              rcases Gate.closeExit_cases P g reason now exec clock with ⟨_, _, _, _, _, hst⟩ | ⟨hok, _⟩
              · -- a failed close leaves the state as it was
                rcases hi.closed ((congrArg GateState.state hst).symm.trans hs) with he | ⟨_, _, _, ho⟩
                · exact he
                · exact nomatch hrun.symm.trans ho
              · -- one that succeeded has run its script to the end
                rcases hi.closing reason now hrun with hsc | ⟨_, he⟩
                · exact nomatch (hexec hok).symm.trans hsc
                · exact he
          | opening c now reason =>
              rcases openExit_state P cfg g c now reason exec clock with ⟨_, _, hst⟩ | ⟨hd, hst⟩
              · exact nomatch hst.symm.trans hs
              · -- the state is not open although the helper was called: an exposing step if the firewall is
                have hs' := (congrArg GateState.state hst).symm.trans hs
                refine Bool.eq_false_iff.mpr (fun he => hl ?_)
                cases exec with
                | error e => exact .failed c now reason e clock hs' he
                | ok u => exact .threw c now reason clock (hd rfl) hs' he
  | restart w egress script file =>
      have he : egress = false := Bool.eq_false_iff.mpr (fun he => hl (.restart file he))
      subst he
      exact inv_boot P file

theorem inv_of_run {file : Option Bytes} {tr : List Event} {m : Machine}
    (run : Run (Where (Step P cfg) fun m l => ¬Exposes cfg m l) (initial P file) tr m) : Inv m :=
  run.invariant (I := fun _ m => Inv m) (inv_boot P file) (fun _ _ _ _ _ ih h => h.1.inv ih h.2)

/-! ## Exactly these steps -/

theorem Exposes.unfaithful {m m' : Machine} {l : Event} (he : Exposes cfg m l) (h : Step P cfg m l m')
    (hidle : m'.run.gate.lock.Idle) : ¬Faithful m' := by
  intro hf
  cases he with
  | restart file hopen =>
      cases h with
      | restart w egress script _ =>
          obtain ⟨_, hg⟩ := Gate.boot_frame P file
          have hs : (Gate.boot P file).state.state = .island := congrArg (fun g => g.state.state) hg
          exact nomatch hopen.symm.trans (hf hidle hs)
  | failed c now reason e clock hs hopen =>
      cases h with
      | gate _ _ _ hq => exact absurd rfl (hq.2 _ _ _)
      | exit egress script h _ =>
          cases h with
          | @exit g _ _ _ _ _ _ =>
              rcases openExit_state P cfg g c now reason (.error e) clock with ⟨hok, _⟩ | ⟨_, hst⟩
              · cases hok
              · exact nomatch hopen.symm.trans (hf hidle ((congrArg GateState.state hst).trans hs))
  | threw c now reason clock hd hs hopen =>
      cases h with
      | gate _ _ _ hq => exact absurd rfl (hq.2 _ _ _)
      | exit egress script h _ =>
          cases h with
          | @exit g _ _ _ _ _ _ =>
              rcases openExit_state P cfg g c now reason (.ok ()) clock with ⟨_, hsome, _⟩ | ⟨_, hst⟩
              · rw [hd] at hsome; cases hsome
              · exact nomatch hopen.symm.trans (hf hidle ((congrArg GateState.state hst).trans hs))

/-- **When the reported state can be trusted.** In every run without a step that `Exposes`, a gate at rest
    that reports `island` has egress closed; and after such a step, unless another section is queued behind
    it, it has egress open. -/
theorem faithful_iff (P : Platform) (cfg : GateConfig) (file : Option Bytes) :
    (∀ tr m, Run (Where (Step P cfg) fun m l => ¬Exposes cfg m l) (initial P file) tr m → Faithful m) ∧
    (∀ tr m l m', Run (Step P cfg) (initial P file) tr m → Step P cfg m l m' → Exposes cfg m l →
      m'.run.gate.lock.Idle → ¬Faithful m') :=
  ⟨fun _ _ run => (inv_of_run run).faithful, fun _ _ _ _ _ h he hidle => he.unfaithful h hidle⟩

/-! ## A restart with the window open -/

/-- The helper issues its commands. -/
theorem commands_run {m : Machine} {w : GateRun} (script : List NftCommand) :
    ∀ {egress : Bool} {tr : List Event},
      Run (Where (Step P cfg) fun m l => ¬Exposes cfg m l) m tr ⟨w, egress, script⟩ →
      ∃ tr', Run (Where (Step P cfg) fun m l => ¬Exposes cfg m l) m tr'
        ⟨w, script.foldl (fun b c => c.effect b) egress, []⟩ := by
  induction script with
  | nil => exact fun run => ⟨_, run⟩
  | cons c script ih => exact fun run => ih (run.snoc ⟨.command w _ c script, fun h => nomatch h⟩)

theorem quiet_asked (c : Canary) (now : Instant) : Quiet (.asked c now) :=
  ⟨fun _ h => (nomatch h), fun _ _ _ h => (nomatch h)⟩

theorem quiet_answered (c : Canary) (now : Instant) (d : LlamaDecision) : Quiet (.answered c now d) :=
  ⟨fun _ h => (nomatch h), fun _ _ _ h => (nomatch h)⟩

/-- The gate as it is installed, with a window of 45 minutes. -/
def installed : GateConfig := { ttlSeconds := ⟨2700, by norm_num⟩ }

theorem early_in_range : (Gate.early.addSeconds installed.ttlSeconds.val).isSome := by
  have h := @Instant.addSeconds_intCast Gate.early 2700 (by norm_num [abs_lt])
    (by norm_num [Gate.early, abs_lt])
  rw [show installed.ttlSeconds.val = ((2700 : ℤ) : ℚ) by norm_num [installed], h]
  decide

/-- One canary opens the gate. -/
theorem opened_run : ∃ tr w,
    Run (Where (Step Symbolic.platform installed) fun m l => ¬Exposes installed m l)
      (initial Symbolic.platform none) tr ⟨w, true, []⟩ ∧ w.gate.state.state = .internet := by
  have hasked : Where (Step Symbolic.platform installed) (fun m l => ¬Exposes installed m l)
      (initial Symbolic.platform none) (.gate (.asked Gate.firstCanary Gate.early)) _ :=
    ⟨.gate false [] (.asked (Gate.openStart_of_unused installed Gate.early rfl))
      (quiet_asked _ _), fun h => nomatch h⟩
  have hanswered := (Run.nil.snoc hasked).snoc
    ⟨.gate false [] (.answered _ [] [] Gate.firstCanary Gate.early ⟨true, []⟩) (quiet_answered _ _ _),
      fun h => nomatch h⟩
  have hentered := hanswered.snoc ⟨.enter false [] (.enter [] (.first [])), fun h => nomatch h⟩
  obtain ⟨tr, hissued⟩ := commands_run gateOpen hentered
  refine ⟨_, _, hissued.snoc ⟨.exit _ [] (.exit [] (.mk [] []) (.ok ()) Gate.early) (fun _ => rfl), ?_⟩, ?_⟩
  · rintro ⟨⟩
    next hd => exact nomatch hd ▸ early_in_range
  · rcases openExit_state Symbolic.platform installed _ Gate.firstCanary Gate.early [] (.ok ()) Gate.early
      with ⟨_, _, hst⟩ | ⟨hd, _⟩
    · exact hst
    · have := early_in_range
      rw [hd rfl] at this
      cases this

/-- The window is open, the daemon restarts, and the new gate reports `island`. -/
theorem restart_unfaithful :
    ∃ tr m, Run (Step Symbolic.platform installed) (initial Symbolic.platform none) tr m ∧ ¬Faithful m := by
  obtain ⟨tr, w, run, _⟩ := opened_run
  exact ⟨_, _, run.of_where.snoc (.restart w true [] none), fun h => nomatch h ⟨rfl, rfl⟩ rfl⟩

/-- Without the restart the gate reports what is the case. -/
theorem faithful_opened : ∃ tr w,
    Run (Where (Step Symbolic.platform installed) fun m l => ¬Exposes installed m l)
      (initial Symbolic.platform none) tr ⟨w, true, []⟩ ∧
    w.gate.state.state = .internet ∧ Faithful ⟨w, true, []⟩ := by
  obtain ⟨tr, w, run, hnet⟩ := opened_run
  exact ⟨tr, w, run, hnet, (faithful_iff Symbolic.platform installed none).1 tr _ run⟩

end Machine

end Island
end VpnPi
