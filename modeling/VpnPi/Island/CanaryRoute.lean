import VpnPi.Island.GateEgress
import VpnPi.Island.GateFile

/-!
# `Island.CanaryRoute` — `POST /admin/canary` over the life of a daemon (`main.ts`)

A request is verified, then calls `open`, and saves `gate.json` once `open` has returned; when `open` throws
it saves nothing. `Daemon.Step` interleaves any number of requests with the gate and with the saves of other
routes, and lets the daemon restart. Only the two clock readings of a request are ordered, its
`verifyCanary` and its `open`; the other events of the gate do not look at the spent nonces.

The invariant is `Daemon.Inv`: as long as two readings and the freshness window fit into the hour for which spent
nonces are kept, and no restart falls between a request that threw and the next save, the LLM is not asked about a
nonce again while the canary that spent it is fresh, so about each blob at most once (`Daemon.inv_of_run`).
`asked_once_iff` is about a single process, `spent_survives_iff` about runs with restarts.
-/

namespace VpnPi
namespace Island

open Js Async

/-- What the route reads of its context. -/
structure Ctx where
  identity         : Identity
  adminVerify      : VerifyKeyFor
  canaryKeyword    : JsString
  canaryFreshnessS : Seconds
  gateTtlS         : Seconds

/-- `new Gate(llama, gateExec, gateTtlS)`. -/
def Ctx.gate (ctx : Ctx) : GateConfig := { ttlSeconds := ctx.gateTtlS }

/-- A request whose canary has been verified, and when. -/
structure Request where
  blob   : JsString
  at_    : Instant
  canary : Canary

structure Daemon where
  run      : GateRun
  clock    : Int
  /-- Requests between `verifyCanary` and `open`. -/
  verified : List Request := []
  /-- Requests whose `open` has returned and that have not saved yet. -/
  saving   : Nat := 0
  /-- A request has thrown after its nonce was consumed, and nothing has been saved since. -/
  unsaved  : Bool := false
  /-- `gate.json`. -/
  file     : Option Bytes

namespace Daemon

inductive Event where
  | verified (q : Request)
  | asked (q : Request) (now : Instant)
  | refused (q : Request) (now : Instant)
  | gate (l : GateEvent)
  /-- A request to this route saves and is answered. -/
  | persisted
  /-- Another route saves. -/
  | saved
  | restart

/-- `open` returns with this event, to a route that goes on to save. -/
def returns (P : Platform) (cfg : GateConfig) (g : Gate) : GateEvent → Bool
  | .answered _ _ d => !d.approve
  | .exit (.opening c now reason) exec clock => (g.openExit P cfg c now reason exec clock).1.isOk
  | _ => false

/-- `open` throws with this event. -/
def throws (P : Platform) (cfg : GateConfig) (g : Gate) : GateEvent → Bool
  | .exit (.opening c now reason) exec clock => !(g.openExit P cfg c now reason exec clock).1.isOk
  | _ => false

/-- Events of the gate other than the start of `open`. -/
def Internal (l : GateEvent) : Prop := (∀ c now, l ≠ .asked c now) ∧ ∀ c now, l ≠ .refused c now

variable (P : Platform) (ctx : Ctx)

inductive Step : Daemon → Event → Daemon → Prop
  | verified (d : Daemon) {blob : JsString} {now : Instant} {c : Canary}
      (h : verifyCanary P ctx.identity blob ctx.adminVerify ctx.canaryKeyword ctx.canaryFreshnessS now = .ok c)
      (hclock : d.clock ≤ now.ms) :
      Step d (.verified ⟨blob, now, c⟩)
        { d with clock := now.ms, verified := d.verified ++ [⟨blob, now, c⟩] }
  | asked (d : Daemon) {w : GateRun} {l r : List Request} {q : Request} {now : Instant}
      (hq : d.verified = l ++ q :: r) (h : Gate.Step P ctx.gate d.run (.asked q.canary now) w)
      (hclock : d.clock ≤ now.ms) :
      Step d (.asked q now) { d with run := w, clock := now.ms, verified := l ++ r }
  | refused (d : Daemon) {w : GateRun} {l r : List Request} {q : Request} {now : Instant}
      (hq : d.verified = l ++ q :: r) (h : Gate.Step P ctx.gate d.run (.refused q.canary now) w)
      (hclock : d.clock ≤ now.ms) :
      Step d (.refused q now) { d with run := w, clock := now.ms, verified := l ++ r }
  | gate (d : Daemon) {w : GateRun} {l : GateEvent} (h : Gate.Step P ctx.gate d.run l w) (hl : Internal l) :
      Step d (.gate l) { d with
        run := w
        saving := if returns P ctx.gate d.run.gate l then d.saving + 1 else d.saving
        unsaved := d.unsaved || throws P ctx.gate d.run.gate l }
  | persisted (d : Daemon) {n : Nat} (hn : d.saving = n + 1) :
      Step d .persisted { d with saving := n, unsaved := false, file := some d.run.gate.saved }
  | saved (d : Daemon) : Step d .saved { d with unsaved := false, file := some d.run.gate.saved }
  | restart (d : Daemon) :
      Step d .restart { run := ⟨Gate.boot P d.file, []⟩, clock := d.clock, file := d.file }

/-- A daemon that has just started. -/
def booted (file : Option Bytes) (clock : Int) : Daemon :=
  { run := ⟨Gate.boot P file, []⟩, clock := clock, file := file }

/-- An `open` that is queued on the lock or running. -/
def Opening (c : Chain Section) : Prop :=
  ∃ canary now reason, .opening canary now reason ∈ c.waiting ∨ .opening canary now reason ∈ c.running

/-- A request has consumed its nonce and has neither saved nor thrown. -/
def Busy (d : Daemon) : Prop := d.run.deciding ≠ [] ∨ Opening d.run.gate.lock ∨ d.saving ≠ 0

/-- No request is in flight. -/
def Resting (d : Daemon) : Prop := d.verified = [] ∧ ¬Busy d

/-- The blobs the LLM was asked about. -/
def askedBlobs : List Event → List JsString
  | [] => []
  | .asked q _ :: tr => q.blob :: askedBlobs tr
  | _ :: tr => askedBlobs tr

/-- The clock advances so little between `verifyCanary` and `open` that both ends of the freshness window
    fit into the hour for which a spent nonce is kept. -/
def InHour (freshness : Seconds) : Event → Prop
  | .asked q now => 2 * freshness.windowMs + (now.ms - q.at_.ms) ≤ 3600000
  | _ => True

/-- The nonce of a question has not been asked about before, by a canary that is still fresh now. -/
def SpentStays (pre : List Event) : Event → Prop
  | .asked q _ => ∀ q₀ now₀, .asked q₀ now₀ ∈ pre → q.canary.nonce = q₀.canary.nonce →
      ¬FreshAt P ctx.canaryFreshnessS q₀.canary q.at_
  | _ => True

theorem askedBlobs_append (tr tr' : List Event) : askedBlobs (tr ++ tr') = askedBlobs tr ++ askedBlobs tr' := by
  induction tr with
  | nil => rfl
  | cons l tr ih =>
      cases l with
      | asked q now => exact congrArg (List.cons q.blob) ih
      | verified q => exact ih
      | refused q now => exact ih
      | gate l => exact ih
      | persisted => exact ih
      | saved => exact ih
      | restart => exact ih

theorem mem_askedBlobs {tr : List Event} {blob : JsString} (h : blob ∈ askedBlobs tr) :
    ∃ q now, .asked q now ∈ tr ∧ q.blob = blob := by
  induction tr with
  | nil => cases h
  | cons l tr ih =>
      have hrest : blob ∈ askedBlobs tr → ∃ q now, Event.asked q now ∈ l :: tr ∧ q.blob = blob := by
        intro hb
        obtain ⟨q, now, hq, hblob⟩ := ih hb
        exact ⟨q, now, List.mem_cons_of_mem _ hq, hblob⟩
      cases l with
      | asked q now =>
          rcases List.mem_cons.mp h with rfl | hb
          · exact ⟨q, now, List.mem_cons_self .., rfl⟩
          · exact hrest hb
      | verified q => exact hrest h
      | refused q now => exact hrest h
      | gate l => exact hrest h
      | persisted => exact hrest h
      | saved => exact hrest h
      | restart => exact hrest h

/-! ## Spent nonces -/

variable {P : Platform} {ctx : Ctx}

/-- The nonce of a canary that the LLM was asked about at `now` is in the map, or more than an hour old. -/
def Spent (m : OrdMap JsString Number) (clock : Int) (nonce : JsString) (now : Instant) : Prop :=
  (∃ t, m.get nonce = some (.ofInt t) ∧ now.ms ≤ t) ∨ now.ms + 3600000 < clock

theorem Spent.later {m : OrdMap JsString Number} {clock clock' : Int} {nonce : JsString} {now : Instant}
    (h : Spent m clock nonce now) (hle : clock ≤ clock') : Spent m clock' nonce now :=
  h.imp id (fun hlt => lt_of_lt_of_le hlt hle)

theorem Spent.prune (ctx : Ctx) {g : Gate} {clock : Int} {nonce : JsString} {now at_ : Instant}
    (h : Spent g.consumed clock nonce now) (hle : clock ≤ at_.ms) :
    Spent (g.prune ctx.gate at_).consumed at_.ms nonce now := by
  rcases h with ⟨t, hget, ht⟩ | hlt
  · by_cases hkeep : at_.ms - 3600000 ≤ t
    · exact Or.inl ⟨t, Gate.get_prune_ofInt rfl hget hkeep, ht⟩
    · exact Or.inr (by omega)
  · exact Or.inr (lt_of_lt_of_le hlt hle)

theorem Spent.set {m : OrdMap JsString Number} {clock : Int} {nonce nonce' : JsString} {now : Instant} {x : Number}
    (h : Spent m clock nonce now) (hnone : m.get nonce' = none) : Spent (m.set nonce' x) clock nonce now := by
  rcases h with ⟨t, hget, ht⟩ | hlt
  · have hne : nonce ≠ nonce' := by
      rintro rfl
      exact nomatch hnone.symm.trans hget
    exact Or.inl ⟨t, by rw [OrdMap.get_set_ne hne, hget], ht⟩
  · exact Or.inr hlt

theorem Spent.saved {g : Gate} {clock : Int} {nonce : JsString} {now : Instant}
    (h : Spent g.consumed clock nonce now) (hwf : Gate.NumbersWF P g.consumed) :
    Spent (Gate.boot P (some g.saved)).consumed clock nonce now := by
  rcases h with ⟨t, hget, ht⟩ | hlt
  · exact Or.inl ⟨t, Gate.get_boot_saved hwf hget, ht⟩
  · exact Or.inr hlt

/-! ## What the gate does in between -/

theorem internal_consumed {w w' : GateRun} {l : GateEvent} (h : Gate.Step P ctx.gate w l w')
    (hl : Internal l) : w'.gate.consumed = w.gate.consumed := by
  cases h with
  | asked => exact absurd rfl (hl.1 _ _)
  | refused => exact absurd rfl (hl.2 _ _)
  | answered g _ _ c now d =>
      rcases Gate.answered_cases P g c now d with ⟨log, hd⟩ | hd
      · rw [hd]
      · rw [hd]
  | close => rfl
  | fire => rfl
  | @enter g lock s ds h =>
      cases s with
      | opening c now reason => rfl
      | closing reason now => rfl
  | @exit g lock s ds h exec clock =>
      cases s with
      | opening c now reason =>
          show (g.openExit P ctx.gate c now reason exec clock).2.consumed = _
          unfold Gate.openExit
          cases exec with
          | error e =>
              dsimp only
              split
              · rfl
              · rfl
          | ok u =>
              dsimp only
              split
              · rfl
              · rfl
      | closing reason now =>
          show (g.closeExit P reason now exec clock).2.consumed = _
          cases exec with
          | error e => rfl
          | ok u => rfl

theorem opening_enqueue {c : Chain Section} {s : Section} (h : Opening c) : Opening (c.enqueue s) := by
  obtain ⟨canary, now, reason, hm⟩ := h
  refine ⟨canary, now, reason, ?_⟩
  rw [Chain.waiting_enqueue, Chain.running_enqueue]
  exact hm.imp (List.mem_append_left _) id

/-- A busy request stays busy until it saves or throws. -/
theorem busy_of_gate {d : Daemon} {w : GateRun} {l : GateEvent} (h : Gate.Step P ctx.gate d.run l w)
    (hl : Internal l) (hc : d.run.gate.lock.Chained) (hb : d.run.deciding ≠ [] ∨ Opening d.run.gate.lock) :
    (w.deciding ≠ [] ∨ Opening w.gate.lock) ∨ returns P ctx.gate d.run.gate l = true ∨
      throws P ctx.gate d.run.gate l = true := by
  obtain ⟨run, clock, verified, saving, unsaved, file⟩ := d
  cases h with
  | asked => exact absurd rfl (hl.1 _ _)
  | refused => exact absurd rfl (hl.2 _ _)
  | answered g ds rs c now dec =>
      cases happ : dec.approve with
      | false => exact Or.inr (Or.inl (by rw [returns, happ]; rfl))
      | true =>
          refine Or.inl (Or.inr ⟨c, now, dec.reason, Or.inl ?_⟩)
          show _ ∈ (g.answered P c now dec).2.lock.waiting
          rw [Gate.answered, if_pos happ]
          show _ ∈ (g.lock.enqueue (.opening c now dec.reason)).waiting
          rw [Chain.waiting_enqueue]
          exact List.mem_append_right _ (List.mem_singleton_self _)
  | close => exact Or.inl (hb.imp id opening_enqueue)
  | fire => exact Or.inl (hb.imp id opening_enqueue)
  | @enter g lock s ds h =>
      refine Or.inl (hb.imp id ?_)
      rintro ⟨c, now, reason, hm⟩
      obtain ⟨hnone, hwait, hrun⟩ := h.view hc
      refine ⟨c, now, reason, ?_⟩
      show _ ∈ lock.waiting ∨ _ ∈ lock.running
      rw [hrun]
      rcases hm with hm | hm
      · -- the open that enters was queued before it runs
        rw [show Chain.waiting g.lock = _ from hwait] at hm
        rcases List.mem_cons.mp hm with rfl | hm
        · exact Or.inr (List.mem_singleton_self _)
        · exact Or.inl hm
      · rw [show Chain.running g.lock = [] from hnone] at hm
        cases hm
  | @exit g lock s ds h exec clk =>
      cases s with
      | opening c now reason =>
          refine Or.inr ?_
          cases hok : (g.openExit P ctx.gate c now reason exec clk).1.isOk with
          | true => exact Or.inl hok
          | false => exact Or.inr (by rw [throws, hok]; rfl)
      | closing creason cnow =>
          refine Or.inl (hb.imp id ?_)
          rintro ⟨c, now, reason, hm⟩
          obtain ⟨hrun, _, hwait⟩ := h.view hc
          refine ⟨c, now, reason, Or.inl ?_⟩
          -- a close ran, so the open is still queued
          show _ ∈ lock.waiting
          rw [hwait]
          rcases hm with hm | hm
          · exact hm
          · rw [show Chain.running g.lock = _ from hrun] at hm
            exact nomatch List.mem_singleton.mp hm

/-! ## The invariant -/

/-- What a request in the trace or in flight has behind it. -/
def Genuine (P : Platform) (ctx : Ctx) (q : Request) : Prop :=
  verifyCanary P ctx.identity q.blob ctx.adminVerify ctx.canaryKeyword ctx.canaryFreshnessS q.at_ = .ok q.canary

structure Inv (P : Platform) (ctx : Ctx) (tr : List Event) (d : Daemon) : Prop where
  chained  : d.run.gate.lock.Chained
  numbers  : Gate.NumbersWF P d.run.gate.consumed
  verified : ∀ q ∈ d.verified, Genuine P ctx q ∧ q.at_.ms ≤ d.clock
  asked    : ∀ q now, .asked q now ∈ tr → Genuine P ctx q ∧ q.at_.ms ≤ now.ms ∧
    Spent d.run.gate.consumed d.clock q.canary.nonce now
  /-- The file covers what the map covers, unless a request is about to save or has failed to. -/
  stored   : ¬Busy d → d.unsaved = false → ∀ q now, .asked q now ∈ tr →
    Spent (Gate.boot P d.file).consumed d.clock q.canary.nonce now
  spent    : Always (SpentStays P ctx) tr
  nodup    : (askedBlobs tr).Nodup

/-- The conditions on a step: the window fits into the hour, and a restart finds everything saved. -/
def Safe (ctx : Ctx) (d : Daemon) (l : Event) : Prop :=
  InHour ctx.canaryFreshnessS l ∧ (l = .restart → Resting d ∧ d.unsaved = false)

theorem inv_booted (P : Platform) (ctx : Ctx) (file : Option Bytes) (clock : Int) :
    Inv P ctx [] (booted P file clock) := by
  obtain ⟨_, hg⟩ := Gate.boot_frame P file
  refine ⟨?_, Gate.boot_wf P file, fun _ h => absurd h List.not_mem_nil,
    fun _ _ h => absurd h List.not_mem_nil, fun _ _ _ _ h => absurd h List.not_mem_nil, always_nil, List.nodup_nil⟩
  show (Gate.boot P file).lock.Chained
  rw [hg]
  trivial

/-- **A nonce that is not in the map** was not asked about by a canary that is still fresh. -/
theorem Inv.stale {tr : List Event} {d : Daemon} (hi : Inv P ctx tr d) {q : Request} {now : Instant}
    (hclock : d.clock ≤ now.ms) (hhour : InHour ctx.canaryFreshnessS (.asked q now))
    (hnone : (d.run.gate.prune ctx.gate now).consumed.get q.canary.nonce = none) :
    SpentStays P ctx tr (.asked q now) := by
  intro q₀ now₀ hasked hnonce hfresh
  obtain ⟨hq₀, hle, hspent⟩ := hi.asked q₀ now₀ hasked
  rw [← hnonce] at hspent
  have hnear := (verifyCanary_fresh hq₀).near hfresh
  have hhour : 2 * ctx.canaryFreshnessS.windowMs + (now.ms - q.at_.ms) ≤ 3600000 := hhour
  rcases hspent.prune ctx hclock with ⟨t, hget, _⟩ | hold
  · cases hnone.symm.trans hget
  · omega

/-- A blob always carries the same canary, so it was not asked about either. -/
theorem SpentStays.fresh_blob {tr : List Event} {d : Daemon} (hi : Inv P ctx tr d) {q : Request} {now : Instant}
    (h : SpentStays P ctx tr (.asked q now)) (hq : Genuine P ctx q) : q.blob ∉ askedBlobs tr := by
  intro hmem
  obtain ⟨q₀, now₀, hasked, hblob⟩ := mem_askedBlobs hmem
  obtain ⟨hq₀, _⟩ := hi.asked q₀ now₀ hasked
  rw [Genuine, hblob] at hq₀
  have hcanary := (verifyCanary_agree hq₀ hq).1
  refine h q₀ now₀ hasked (by rw [hcanary]) ?_
  rw [hcanary]
  exact verifyCanary_fresh hq

theorem mem_concat {tr : List Event} {l : Event} {q : Request} {now : Instant}
    (h : .asked q now ∈ tr ++ [l]) : .asked q now ∈ tr ∨ l = .asked q now := by
  rcases List.mem_append.mp h with h | h
  · exact Or.inl h
  · exact Or.inr (List.mem_singleton.mp h).symm

/-- No question is asked in a step that adds no blob. -/
theorem mem_of_concat {tr : List Event} {l : Event} {q : Request} {now : Instant}
    (h : .asked q now ∈ tr ++ [l]) (hl : askedBlobs [l] = []) : .asked q now ∈ tr := by
  rcases mem_concat h with h | rfl
  · exact h
  · cases hl

/-- Steps after which the same blobs have been asked about. -/
theorem nodup_concat {tr : List Event} {l : Event} (h : (askedBlobs tr).Nodup)
    (hl : askedBlobs [l] = []) : (askedBlobs (tr ++ [l])).Nodup := by
  rw [askedBlobs_append, hl, List.append_nil]
  exact h

theorem spent_concat {tr : List Event} {l : Event} (h : Always (SpentStays P ctx) tr) (hl : askedBlobs [l] = []) :
    Always (SpentStays P ctx) (tr ++ [l]) := by
  refine h.snoc ?_
  cases l with
  | asked q now => cases hl
  | _ => trivial

/-- The requests that are still between `verifyCanary` and `open` when another one goes on. -/
theorem Inv.others {tr : List Event} {d : Daemon} (hi : Inv P ctx tr d) {l r : List Request} {q : Request} {clock : Int}
    (hq : d.verified = l ++ q :: r) (hclock : d.clock ≤ clock) :
    ∀ q' ∈ l ++ r, Genuine P ctx q' ∧ q'.at_.ms ≤ clock := by
  intro q' hq'
  have hmem : q' ∈ d.verified := by
    rw [hq]
    rcases List.mem_append.mp hq' with h | h
    · exact List.mem_append_left _ h
    · exact List.mem_append_right _ (List.mem_cons_of_mem _ h)
  obtain ⟨hgen, hle⟩ := hi.verified q' hmem
  exact ⟨hgen, hle.trans hclock⟩

theorem Inv.verify {tr : List Event} {d : Daemon} (hi : Inv P ctx tr d) {q : Request} (hq : Genuine P ctx q)
    (hclock : d.clock ≤ q.at_.ms) :
    Inv P ctx (tr ++ [.verified q]) { d with clock := q.at_.ms, verified := d.verified ++ [q] } := by
  refine ⟨hi.chained, hi.numbers, ?_, ?_, ?_, spent_concat hi.spent rfl, nodup_concat hi.nodup rfl⟩
  · intro q' hq'
    rcases List.mem_append.mp hq' with hq' | hq'
    · obtain ⟨hgen, hle⟩ := hi.verified q' hq'
      exact ⟨hgen, hle.trans hclock⟩
    · obtain rfl := List.mem_singleton.mp hq'
      exact ⟨hq, le_rfl⟩
  · intro q' now hm
    obtain ⟨hgen, hle, hsp⟩ := hi.asked q' now (mem_of_concat hm rfl)
    exact ⟨hgen, hle, hsp.later hclock⟩
  · intro hb hu q' now hm
    exact (hi.stored hb hu q' now (mem_of_concat hm rfl)).later hclock

/-- A question: the nonce was not in the map and enters it. -/
theorem Inv.ask {tr : List Event} {d : Daemon} (hi : Inv P ctx tr d) {w : GateRun} {l r : List Request} {q : Request}
    {now : Instant} (hq : d.verified = l ++ q :: r) (h : Gate.Step P ctx.gate d.run (.asked q.canary now) w)
    (hclock : d.clock ≤ now.ms) (hhour : InHour ctx.canaryFreshnessS (.asked q now)) :
    Inv P ctx (tr ++ [.asked q now]) { d with run := w, clock := now.ms, verified := l ++ r } := by
  have hmem : q ∈ d.verified := hq ▸ List.mem_append_right _ (List.mem_cons_self ..)
  obtain ⟨hgen, hle⟩ := hi.verified q hmem
  have hchained := h.chained hi.chained
  generalize hrun : d.run = run at h
  cases h with
  | @asked g g' ds _ _ hopen =>
      obtain ⟨hnone, rfl⟩ := Gate.openStart_ok hopen
      have hg : d.run.gate = g := by rw [hrun]
      have hstale := hi.stale hclock hhour (by rw [hg]; exact hnone)
      have hfresh := hstale.fresh_blob hi hgen
      have hnum := hi.numbers
      rw [hg] at hnum
      refine ⟨hchained, (hnum.prune now).set (Gate.ofInt_wf P now), hi.others hq hclock, ?_, ?_, hi.spent.snoc hstale, ?_⟩
      · intro q' now' hm
        rcases mem_concat hm with hm | hm
        · obtain ⟨hgen', hle', hsp⟩ := hi.asked q' now' hm
          rw [hg] at hsp
          exact ⟨hgen', hle', (hsp.prune ctx hclock).set hnone⟩
        · cases hm
          exact ⟨hgen, hle.trans hclock, Or.inl ⟨now.ms, OrdMap.get_set_self _ _ _, le_rfl⟩⟩
      · -- the request has consumed its nonce and not saved yet
        exact fun hb => absurd (Or.inl (by simp)) hb
      · rw [askedBlobs_append]
        refine List.nodup_append.mpr ⟨hi.nodup, List.nodup_singleton _, ?_⟩
        intro a ha b hb hab
        obtain rfl := List.mem_singleton.mp hb
        exact hfresh (hab ▸ ha)

/-- A refused request prunes the map and leaves the rest. -/
theorem Inv.refuse {tr : List Event} {d : Daemon} (hi : Inv P ctx tr d) {w : GateRun} {l r : List Request} {q : Request}
    {now : Instant} (hq : d.verified = l ++ q :: r) (h : Gate.Step P ctx.gate d.run (.refused q.canary now) w)
    (hclock : d.clock ≤ now.ms) :
    Inv P ctx (tr ++ [.refused q now]) { d with run := w, clock := now.ms, verified := l ++ r } := by
  have hchained := h.chained hi.chained
  generalize hrun : d.run = run at h
  cases h with
  | @refused g g' ds _ _ e hopen =>
      obtain rfl := Gate.openStart_error hopen
      have hg : d.run.gate = g := by rw [hrun]
      have hnum := hi.numbers
      rw [hg] at hnum
      refine ⟨hchained, hnum.prune now, hi.others hq hclock, ?_, ?_, spent_concat hi.spent rfl,
        nodup_concat hi.nodup rfl⟩
      · intro q' now' hm
        obtain ⟨hgen', hle', hsp⟩ := hi.asked q' now' (mem_of_concat hm rfl)
        rw [hg] at hsp
        exact ⟨hgen', hle', hsp.prune ctx hclock⟩
      · intro hb hu q' now' hm
        have hb' : ¬Busy d := by
          intro hbusy
          rw [Busy, hrun] at hbusy
          exact hb hbusy
        exact (hi.stored hb' hu q' now' (mem_of_concat hm rfl)).later hclock

/-- The gate goes on: the map stays, and a request that stops being busy goes on to save or has thrown. -/
theorem Inv.gate {tr : List Event} {d : Daemon} (hi : Inv P ctx tr d) {w : GateRun} {l : GateEvent}
    (h : Gate.Step P ctx.gate d.run l w) (hl : Internal l) :
    Inv P ctx (tr ++ [.gate l]) { d with
      run := w
      saving := if returns P ctx.gate d.run.gate l then d.saving + 1 else d.saving
      unsaved := d.unsaved || throws P ctx.gate d.run.gate l } := by
  have hconsumed := internal_consumed h hl
  refine ⟨h.chained hi.chained, ?_, hi.verified, ?_, ?_, spent_concat hi.spent rfl, nodup_concat hi.nodup rfl⟩
  · show Gate.NumbersWF P w.gate.consumed
    rw [hconsumed]
    exact hi.numbers
  · intro q now hm
    show _ ∧ _ ∧ Spent w.gate.consumed _ _ _
    rw [hconsumed]
    exact hi.asked q now (mem_of_concat hm rfl)
  · intro hb hu q now hm
    obtain ⟨hunsaved, hthrow⟩ := Bool.or_eq_false_iff.mp hu
    refine hi.stored (fun hbusy => ?_) hunsaved q now (mem_of_concat hm rfl)
    rw [Busy, ← or_assoc] at hbusy
    rcases hbusy with hbusy | hsave
    · rcases busy_of_gate h hl hi.chained hbusy with hw | hret | hthr
      · exact hb (hw.elim Or.inl (fun ho => Or.inr (Or.inl ho)))
      · refine hb (Or.inr (Or.inr ?_))
        simp [hret]
      · cases hthrow.symm.trans hthr
    · refine hb (Or.inr (Or.inr ?_))
      show (if _ then _ else _) ≠ 0
      split
      · exact Nat.succ_ne_zero _
      · exact hsave

/-- A save, of this route or of another: the file covers what the map covers. -/
theorem Inv.save {tr : List Event} {d : Daemon} (hi : Inv P ctx tr d) {l : Event} (hl : askedBlobs [l] = []) (n : Nat) :
    Inv P ctx (tr ++ [l]) { d with saving := n, unsaved := false, file := some d.run.gate.saved } := by
  refine ⟨hi.chained, hi.numbers, hi.verified, fun q now hm => hi.asked q now (mem_of_concat hm hl), ?_,
    spent_concat hi.spent hl, nodup_concat hi.nodup hl⟩
  intro _ _ q now hm
  exact (hi.asked q now (mem_of_concat hm hl)).2.2.saved hi.numbers

/-- A restart that finds everything saved. -/
theorem Inv.restart {tr : List Event} {d : Daemon} (hi : Inv P ctx tr d) (hrest : Resting d) (hsaved : d.unsaved = false) :
    Inv P ctx (tr ++ [.restart]) { run := ⟨Gate.boot P d.file, []⟩, clock := d.clock, file := d.file } := by
  have hstored := hi.stored hrest.2 hsaved
  obtain ⟨_, hg⟩ := Gate.boot_frame P d.file
  refine ⟨?_, Gate.boot_wf P d.file, fun _ h => absurd h List.not_mem_nil, ?_, ?_, spent_concat hi.spent rfl,
    nodup_concat hi.nodup rfl⟩
  · show (Gate.boot P d.file).lock.Chained
    rw [hg]
    trivial
  · intro q now hm
    have hm := mem_of_concat hm rfl
    obtain ⟨hgen, hle, _⟩ := hi.asked q now hm
    exact ⟨hgen, hle, hstored q now hm⟩
  · exact fun _ _ q now hm => hstored q now (mem_of_concat hm rfl)

theorem Step.inv {tr : List Event} {d d' : Daemon} {l : Event} (h : Step P ctx d l d')
    (hi : Inv P ctx tr d) (hs : Safe ctx d l) : Inv P ctx (tr ++ [l]) d' := by
  cases h with
  | verified hv hclock => exact hi.verify hv hclock
  | asked hq h hclock => exact hi.ask hq h hclock hs.1
  | refused hq h hclock => exact hi.refuse hq h hclock
  | gate h hl => exact hi.gate h hl
  | @persisted n hn => exact hi.save rfl n
  | saved => exact hi.save rfl d.saving
  | restart =>
      obtain ⟨hrest, hsaved⟩ := hs.2 rfl
      exact hi.restart hrest hsaved

/-- **The invariant holds** in runs whose windows fit into the hour and whose restarts find everything saved. -/
theorem inv_of_run {file : Option Bytes} {clock : Int} {tr : List Event} {d : Daemon}
    (run : Run (Where (Step P ctx) (Safe ctx)) (booted P file clock) tr d) : Inv P ctx tr d :=
  run.invariant (I := fun tr d => Inv P ctx tr d) (inv_booted P ctx file clock)
    (fun _ _ _ _ _ ih h => h.1.inv ih h.2)

/-! ## Replays -/

/-- A request that is verified and asked about at one instant. -/
theorem ask_run {ok : Daemon → Event → Prop} {s₀ d : Daemon} {tr : List Event}
    (run : Run (Where (Step P ctx) ok) s₀ tr d) (hv : d.verified = []) {q : Request}
    (hq : Genuine P ctx q) (hclock : d.clock ≤ q.at_.ms)
    (hnone : (d.run.gate.prune ctx.gate q.at_).consumed.get q.canary.nonce = none)
    (hok : ok d (.verified q)) (hok' : ∀ d, ok d (.asked q q.at_)) :
    Run (Where (Step P ctx) ok) s₀ (tr ++ [.verified q] ++ [.asked q q.at_])
      { d with
        run := ⟨{ d.run.gate with
          consumed := (d.run.gate.prune ctx.gate q.at_).consumed.set q.canary.nonce (.ofInt q.at_.ms) },
            d.run.deciding ++ [(q.canary, q.at_)]⟩
        clock := q.at_.ms } := by
  have hverified := run.snoc ⟨Step.verified d hq hclock, hok⟩
  have hlist : d.verified ++ [q] = [] ++ q :: [] := by rw [hv]
  have hasked := hverified.snoc ⟨Step.asked _ hlist (.asked (Gate.openStart_of_pruned hnone)) le_rfl, hok' _⟩
  rw [show ([] : List Request) ++ [] = d.verified from hv.symm] at hasked
  exact hasked

/-- A request whose nonce is in the map. -/
theorem refuse_run {ok : Daemon → Event → Prop} {s₀ d : Daemon} {tr : List Event}
    (run : Run (Where (Step P ctx) ok) s₀ tr d) (hv : d.verified = []) {q : Request}
    (hq : Genuine P ctx q) (hclock : d.clock ≤ q.at_.ms) {x : Number}
    (hspent : (d.run.gate.prune ctx.gate q.at_).consumed.get q.canary.nonce = some x)
    (hok : ok d (.verified q)) (hok' : ∀ d, ok d (.refused q q.at_)) :
    Run (Where (Step P ctx) ok) s₀ (tr ++ [.verified q] ++ [.refused q q.at_])
      { d with run := ⟨d.run.gate.prune ctx.gate q.at_, d.run.deciding⟩, clock := q.at_.ms } := by
  have hverified := run.snoc ⟨Step.verified d hq hclock, hok⟩
  have hlist : d.verified ++ [q] = [] ++ q :: [] := by rw [hv]
  have hrefused := hverified.snoc ⟨Step.refused _ hlist (.refused (Gate.openStart_of_spent hspent)) le_rfl, hok' _⟩
  rw [show ([] : List Request) ++ [] = d.verified from hv.symm] at hrefused
  exact hrefused

/-- A blob that verifies at two instants more than an hour apart is asked about at both. -/
theorem replay_run {q q' : Request} (hblob : q'.blob = q.blob) (hq : Genuine P ctx q)
    (hq' : Genuine P ctx q') (hlater : q.at_.ms + 3600000 < q'.at_.ms) :
    ∃ tr d, Run (Where (Step P ctx) fun _ l => l ≠ .restart) (booted P none q.at_.ms) tr d ∧
      ¬(askedBlobs tr).Nodup := by
  have hsame : verifyCanary P ctx.identity q.blob ctx.adminVerify ctx.canaryKeyword ctx.canaryFreshnessS q'.at_
      = .ok q'.canary := hblob ▸ (show verifyCanary _ _ _ _ _ _ _ = _ from hq')
  have hcanary := (verifyCanary_agree hq hsame).1
  have hboot : Run (Where (Step P ctx) fun _ l => l ≠ .restart) (booted P none q.at_.ms) [] _ := .nil
  have hfirst := ask_run hboot rfl hq le_rfl (OrdMap.get_filter_none rfl) nofun (fun _ => nofun)
  have hsecond := ask_run hfirst rfl hq' (show q.at_.ms ≤ q'.at_.ms by omega) ?_ nofun (fun _ => nofun)
  · refine ⟨_, _, hsecond, ?_⟩
    show ¬[q.blob, q'.blob].Nodup
    rw [hblob]
    simp
  · -- the first reading lies behind the horizon of the second
    rw [Option.eq_none_iff_forall_not_mem]
    intro x hx
    obtain ⟨hget, hkeep⟩ := OrdMap.get_filter.mp hx
    rw [← hcanary] at hget
    obtain rfl := Option.some.inj ((OrdMap.get_set_self _ _ _).symm.trans hget)
    rw [Gate.cutoff_hour rfl, Bool.not_eq_true', Bool.eq_false_iff] at hkeep
    exact hkeep (Number.lt_ofInt.mpr (by exact_mod_cast (by omega : q.at_.ms < q'.at_.ms - 3600000)))

/-- **When a canary opens the gate at most once.** In every run of a single process whose requests all meet
    `InHour`, the LLM is asked about each blob at most once; a blob that passes `verifyCanary` at two instants
    more than an hour apart can be asked about twice. -/
theorem asked_once_iff (P : Platform) (ctx : Ctx) :
    (∀ file clock tr d, Run (Where (Step P ctx) fun _ l => InHour ctx.canaryFreshnessS l ∧ l ≠ .restart)
      (booted P file clock) tr d → (askedBlobs tr).Nodup) ∧
    (∀ q q', q'.blob = q.blob → Genuine P ctx q → Genuine P ctx q' → q.at_.ms + 3600000 < q'.at_.ms →
      ∃ tr d, Run (Where (Step P ctx) fun _ l => l ≠ .restart) (booted P none q.at_.ms) tr d ∧
        ¬(askedBlobs tr).Nodup) := by
  refine ⟨fun file clock tr d run => ?_, fun _ _ => replay_run⟩
  have hsafe : Run (Where (Step P ctx) (Safe ctx)) (booted P file clock) tr d :=
    run.imp fun _ _ _ h => ⟨h.1, h.2.1, fun heq => absurd heq h.2.2⟩
  exact (inv_of_run hsafe).nodup

/-! ## Restarts -/

/-- Requests are handled one after another, and the daemon restarts between them. -/
def OneAtATime (d : Daemon) : Event → Prop
  | .verified _ | .restart => Resting d
  | _ => True

/-- Nothing is verified, asked about, on the lock or about to be saved. -/
theorem resting_of_idle {d : Daemon} (hverified : d.verified = []) (hdeciding : d.run.deciding = [])
    (hlock : d.run.gate.lock.Idle) (hsaving : d.saving = 0) : Resting d := by
  refine ⟨hverified, ?_⟩
  rintro (h | ⟨_, _, _, h⟩ | h)
  · exact h hdeciding
  · rw [hlock.1, hlock.2] at h
    rcases h with h | h
    · cases h
    · cases h
  · exact h hsaving

theorem resting_booted (P : Platform) (clock : Int) : Resting (booted P none clock) :=
  resting_of_idle rfl rfl ⟨rfl, rfl⟩ rfl

/-- A request verified and asked about at one instant needs no more than the window. -/
theorem inHour_of_window {freshness : Seconds} (h : 2 * freshness.windowMs ≤ 3600000) (q : Request) :
    InHour freshness (.asked q q.at_) := by
  show _ + _ ≤ _
  omega

/-- The helper fails for the one request in flight. -/
theorem failed_run {s₀ d : Daemon} {tr : List Event} {q : Request}
    (run : Run (Where (Step P ctx) fun d l => OneAtATime d l ∧ InHour ctx.canaryFreshnessS l) s₀ tr d)
    (hdeciding : d.run.deciding = [(q.canary, q.at_)]) (hlock : d.run.gate.lock = [])
    (hverified : d.verified = []) (hsaving : d.saving = 0) :
    ∃ tr' d', Run (Where (Step P ctx) fun d l => OneAtATime d l ∧ InHour ctx.canaryFreshnessS l) s₀
        (tr ++ tr') d' ∧ Resting d' ∧ d'.file = d.file ∧ d'.clock = d.clock ∧ askedBlobs tr' = [] := by
  obtain ⟨⟨g, ds⟩, clock, verified, saving, unsaved, file⟩ := d
  obtain rfl : ds = [] ++ (q.canary, q.at_) :: [] := hdeciding
  obtain rfl : verified = [] := hverified
  obtain rfl : saving = 0 := hsaving
  have hanswered := run.snoc
    ⟨Step.gate _ (.answered g [] [] q.canary q.at_ ⟨true, []⟩) ⟨fun _ _ h => (nomatch h), fun _ _ h => (nomatch h)⟩,
      trivial, trivial⟩
  have hstart : Chain.Starts (.opening q.canary q.at_ []) (g.answered P q.canary q.at_ ⟨true, []⟩).2.lock
      [.running (.opening q.canary q.at_ [])] := by
    show Chain.Starts _ (g.lock ++ [_]) _
    rw [show g.lock = [] from hlock]
    exact .first []
  have hentered := hanswered.snoc
    ⟨Step.gate _ (.enter [] hstart) ⟨fun _ _ h => (nomatch h), fun _ _ h => (nomatch h)⟩,
      trivial, trivial⟩
  have hexited := hentered.snoc
    ⟨Step.gate _ (.exit [] (.mk [] []) (.error (.error [])) q.at_)
      ⟨fun _ _ h => (nomatch h), fun _ _ h => (nomatch h)⟩, trivial, trivial⟩
  rw [List.append_assoc, List.append_assoc] at hexited
  exact ⟨_, _, hexited, resting_of_idle rfl rfl ⟨rfl, rfl⟩ rfl, rfl, rfl, rfl⟩

/-- A nonce whose request failed in the helper is asked about again after a restart. -/
theorem lost_run {q q' : Request} (hnonce : q'.canary.nonce = q.canary.nonce) (hq : Genuine P ctx q)
    (hq' : Genuine P ctx q') (hfresh : FreshAt P ctx.canaryFreshnessS q.canary q'.at_) (hlater : q.at_.ms ≤ q'.at_.ms)
    (hwindow : 2 * ctx.canaryFreshnessS.windowMs ≤ 3600000) :
    ∃ tr d, Run (Where (Step P ctx) fun d l => OneAtATime d l ∧ InHour ctx.canaryFreshnessS l)
      (booted P none q.at_.ms) tr d ∧ ¬Always (SpentStays P ctx) tr := by
  have hstart : Run (Where (Step P ctx) fun d l => OneAtATime d l ∧ InHour ctx.canaryFreshnessS l)
    (booted P none q.at_.ms) [] _ := .nil
  have hfirst := ask_run hstart rfl hq le_rfl (OrdMap.get_filter_none rfl) ⟨resting_booted _ _, trivial⟩
    (fun _ => ⟨trivial, inHour_of_window hwindow q⟩)
  obtain ⟨tr, d, hfailed, hrest, hfile, hclock, htr⟩ := failed_run (q := q) hfirst rfl rfl rfl rfl
  have hrestarted := hfailed.snoc ⟨Step.restart d, hrest, trivial⟩
  have hboot : ({ run := ⟨Gate.boot P d.file, []⟩, clock := d.clock, file := d.file } : Daemon)
      = booted P none q.at_.ms := by
    rw [show d.file = none from hfile, show d.clock = q.at_.ms from hclock]
    rfl
  rw [hboot] at hrestarted
  have hsecond := ask_run hrestarted rfl hq' hlater (OrdMap.get_filter_none rfl)
    ⟨resting_booted _ _, trivial⟩ (fun _ => ⟨trivial, inHour_of_window hwindow q'⟩)
  refine ⟨_, _, hsecond, fun hspent => ?_⟩
  refine hspent.last q q.at_ ?_ hnonce hfresh
  simp

/-- **When a spent canary stays spent.** Requests come one after another and the daemon restarts between
    them: if no restart falls between a request that threw and the next save (and the windows fit into the
    hour), the LLM is not asked about a nonce again while the canary that spent it is fresh; if one does, it can
    be. -/
theorem spent_survives_iff (P : Platform) (ctx : Ctx) :
    (∀ file clock tr d, Run (Where (Step P ctx) fun d l => OneAtATime d l ∧
        InHour ctx.canaryFreshnessS l ∧ (l = .restart → d.unsaved = false)) (booted P file clock) tr d →
      Always (SpentStays P ctx) tr) ∧
    (∀ q q', q'.canary.nonce = q.canary.nonce → Genuine P ctx q → Genuine P ctx q' →
      FreshAt P ctx.canaryFreshnessS q.canary q'.at_ → q.at_.ms ≤ q'.at_.ms →
      2 * ctx.canaryFreshnessS.windowMs ≤ 3600000 →
      ∃ tr d, Run (Where (Step P ctx) fun d l => OneAtATime d l ∧ InHour ctx.canaryFreshnessS l)
        (booted P none q.at_.ms) tr d ∧ ¬Always (SpentStays P ctx) tr) := by
  refine ⟨?_, fun _ _ => lost_run⟩
  intro file clock tr d run
  have hsafe : Run (Where (Step P ctx) (Safe ctx)) (booted P file clock) tr d := by
    refine run.imp fun d l d' h => ⟨h.1, h.2.2.1, ?_⟩
    rintro rfl
    exact ⟨h.2.1, h.2.2.2 rfl⟩
  exact (inv_of_run hsafe).spent

/-! ## Two canaries -/

/-- A gate node that trusts the admin with key 9. -/
def gateNode (freshness : Seconds) : Ctx where
  identity := Symbolic.identity 1
  adminVerify := fun ed => if ed == Symbolic.toHex [9] then some [9] else none
  canaryKeyword := js "GREEN18"
  canaryFreshnessS := freshness
  gateTtlS := Machine.installed.ttlSeconds

/-- What the admin sends at one second past the epoch. -/
def greenBlob : JsString :=
  ((makeCanary Symbolic.platform (Symbolic.identity 9) (js "GREEN18") (js "GREEN18 open egress")
    (Symbolic.toHex [101]) [7] [] ⟨1000, by decide⟩).toOption).getD []

def greenCanary : Canary where
  admin := Symbolic.toHex [9]
  keyword := js "GREEN18"
  text := js "GREEN18 open egress"
  nonce := Symbolic.toHex [7]
  issued := Symbolic.isoString ⟨1000, by decide⟩

def hour : Seconds := ⟨3600, by norm_num⟩

def twoMinutes : Seconds := ⟨120, by norm_num⟩

/-- With a window of an hour either side, a canary seen a millisecond before its time of issue is good again
    an hour and a millisecond later. -/
theorem canary_asked_twice :
    ∃ tr d, Run (Where (Step Symbolic.platform (gateNode hour)) fun _ l => l ≠ .restart)
      (booted Symbolic.platform none 999) tr d ∧ ¬(askedBlobs tr).Nodup :=
  @replay_run _ _ ⟨greenBlob, ⟨999, by decide⟩, greenCanary⟩
    ⟨greenBlob, ⟨3601000, by decide⟩, greenCanary⟩ rfl (by unfold Genuine; decide +kernel)
    (by unfold Genuine; decide +kernel) (by decide)

theorem twoMinutes_window : 2 * twoMinutes.windowMs ≤ 3600000 := by decide +kernel

/-- The admin's canary, at its time of issue. -/
def greenRequest : Request := ⟨greenBlob, ⟨1000, by decide⟩, greenCanary⟩

theorem greenRequest_genuine : Genuine Symbolic.platform (gateNode twoMinutes) greenRequest := by
  unfold Genuine
  decide +kernel

/-- The same blob a second later. -/
def greenAgain : Request := ⟨greenBlob, ⟨2000, by decide⟩, greenCanary⟩

theorem greenAgain_genuine : Genuine Symbolic.platform (gateNode twoMinutes) greenAgain := by
  unfold Genuine
  decide +kernel

/-- The helper fails, the daemon restarts, and the canary is good again a second later. -/
theorem failed_canary_replayed :
    ∃ tr d, Run (Where (Step Symbolic.platform (gateNode twoMinutes)) fun d l =>
        OneAtATime d l ∧ InHour twoMinutes l) (booted Symbolic.platform none 1000) tr d ∧
      ¬Always (SpentStays Symbolic.platform (gateNode twoMinutes)) tr := by
  refine @lost_run Symbolic.platform (gateNode twoMinutes) greenRequest greenAgain rfl greenRequest_genuine
    greenAgain_genuine (verifyCanary_fresh greenAgain_genuine) ?_ twoMinutes_window
  decide

/-- The blob is posted twice. -/
def postedTwice : List Event :=
  [.verified greenRequest, .asked greenRequest greenRequest.at_, .verified greenAgain, .refused greenAgain greenAgain.at_]

/-- The LLM is asked about it once. -/
theorem green_asked_once : ∃ d, Run (Where (Step Symbolic.platform (gateNode twoMinutes)) fun _ l =>
      InHour (gateNode twoMinutes).canaryFreshnessS l ∧ l ≠ .restart) (booted Symbolic.platform none 1000) postedTwice d ∧
    askedBlobs postedTwice = [greenBlob] ∧ (askedBlobs postedTwice).Nodup := by
  have hboot : Run (Where (Step Symbolic.platform (gateNode twoMinutes)) fun _ l =>
    InHour (gateNode twoMinutes).canaryFreshnessS l ∧ l ≠ .restart) (booted Symbolic.platform none 1000) [] _ := .nil
  have hasked := ask_run hboot rfl greenRequest_genuine le_rfl (OrdMap.get_filter_none rfl)
    ⟨trivial, fun h => by cases h⟩ (fun _ => ⟨inHour_of_window twoMinutes_window _, fun h => by cases h⟩)
  have run := refuse_run hasked rfl greenAgain_genuine (by decide)
    (Gate.get_prune_ofInt rfl (OrdMap.get_set_self ..) (by decide)) ⟨trivial, fun h => by cases h⟩
    (fun _ => ⟨trivial, fun h => by cases h⟩)
  exact ⟨_, run, rfl, (asked_once_iff Symbolic.platform (gateNode twoMinutes)).1 none 1000 postedTwice _ run⟩

def denial : LlamaDecision := ⟨false, js "not now"⟩

/-- The LLM denies the one request in flight, the route saves, and the daemon restarts. -/
theorem denied_run {s₀ d : Daemon} {tr : List Event} {c : Canary} {now : Instant}
    (run : Run (Where (Step P ctx) fun d l => OneAtATime d l ∧ InHour ctx.canaryFreshnessS l ∧
      (l = .restart → d.unsaved = false)) s₀ tr d)
    (hdeciding : d.run.deciding = [(c, now)]) (hlock : d.run.gate.lock.Idle) (hverified : d.verified = [])
    (hsaving : d.saving = 0) (hnumbers : Gate.NumbersWF P d.run.gate.consumed) :
    ∃ file, Run (Where (Step P ctx) fun d l => OneAtATime d l ∧ InHour ctx.canaryFreshnessS l ∧
        (l = .restart → d.unsaved = false)) s₀
        (tr ++ [.gate (.answered c now denial)] ++ [.persisted] ++ [.restart]) (booted P (some file) d.clock) ∧
      ∀ k t, d.run.gate.consumed.get k = some (.ofInt t) →
        (Gate.boot P (some file)).consumed.get k = some (.ofInt t) := by
  obtain ⟨⟨g, ds⟩, clock, verified, saving, unsaved, file⟩ := d
  obtain rfl : ds = [] ++ (c, now) :: [] := hdeciding
  obtain rfl : verified = [] := hverified
  obtain rfl : saving = 0 := hsaving
  have hdenied := run.snoc ⟨Step.gate _ (.answered g [] [] c now denial)
    ⟨fun _ _ h => (by cases h), fun _ _ h => (by cases h)⟩, trivial, trivial, fun h => by cases h⟩
  have hsaved := hdenied.snoc ⟨Step.persisted _ rfl, trivial, trivial, fun h => by cases h⟩
  have hrestarted := hsaved.snoc ⟨Step.restart _, resting_of_idle rfl rfl hlock rfl, trivial, fun _ => rfl⟩
  refine ⟨_, hrestarted, fun k t hget => ?_⟩
  exact Gate.get_boot_saved (g := (g.answered P c now denial).2) hnumbers hget

/-- A canary is denied and saved; after a restart it is posted again. -/
def deniedAndPosted : List Event :=
  [.verified greenRequest, .asked greenRequest greenRequest.at_, .gate (.answered greenCanary greenRequest.at_ denial),
    .persisted, .restart, .verified greenAgain, .refused greenAgain greenAgain.at_]

/-- It is fresh, and its nonce stays spent. -/
theorem green_spent_after_save : FreshAt Symbolic.platform twoMinutes greenCanary greenAgain.at_ ∧
    ∃ d, Run (Where (Step Symbolic.platform (gateNode twoMinutes)) fun d l => OneAtATime d l ∧
        InHour (gateNode twoMinutes).canaryFreshnessS l ∧ (l = .restart → d.unsaved = false))
      (booted Symbolic.platform none 1000) deniedAndPosted d ∧
      Always (SpentStays Symbolic.platform (gateNode twoMinutes)) deniedAndPosted := by
  have hboot : Run (Where (Step Symbolic.platform (gateNode twoMinutes)) fun d l => OneAtATime d l ∧
    InHour (gateNode twoMinutes).canaryFreshnessS l ∧ (l = .restart → d.unsaved = false))
    (booted Symbolic.platform none 1000) [] _ := .nil
  have hasked := ask_run hboot rfl greenRequest_genuine le_rfl (OrdMap.get_filter_none rfl)
    ⟨resting_booted _ _, trivial, fun h => by cases h⟩
    (fun _ => ⟨trivial, inHour_of_window twoMinutes_window _, fun h => by cases h⟩)
  have hempty : Gate.NumbersWF Symbolic.platform
      ((Gate.boot Symbolic.platform none).prune (gateNode twoMinutes).gate greenRequest.at_).consumed :=
    (Gate.boot_wf Symbolic.platform none).prune _
  have hnumbers := hempty.set (k := greenCanary.nonce) (Gate.ofInt_wf Symbolic.platform greenRequest.at_)
  obtain ⟨file, hrestarted, hspent⟩ := denied_run hasked rfl ⟨rfl, rfl⟩ rfl rfl hnumbers
  have hspent := hspent greenCanary.nonce 1000 (OrdMap.get_set_self ..)
  have run := refuse_run hrestarted rfl greenAgain_genuine (show (1000 : Int) ≤ 2000 by decide)
    (Gate.get_prune_ofInt rfl hspent (by decide))
    ⟨resting_of_idle rfl rfl (Gate.boot_idle ..) rfl, trivial, fun h => by cases h⟩
    (fun _ => ⟨trivial, trivial, fun h => by cases h⟩)
  refine ⟨verifyCanary_fresh greenAgain_genuine, _, run, ?_⟩
  exact (spent_survives_iff Symbolic.platform (gateNode twoMinutes)).1 none 1000 deniedAndPosted _ run

end Daemon

end Island
end VpnPi
