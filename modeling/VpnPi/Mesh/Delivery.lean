import Mathlib.Logic.Equiv.List
import VpnPi.Async.Trace
import VpnPi.Mesh.MeshSource

/-!
# `Mesh.Delivery` — from a node's feed to the master's

One node ships its feed through the hub to the master, cycle by cycle. A post may be lost on the way to the hub or on
the way back, the node may be restarted between any two steps and continues with the state it last saved, other nodes
deposit, the master pulls.

`acked_shown_once`: whatever happens, an acknowledged event is shown once when the hub has been drained, provided
that a number that reaches the hub always carries the same event, and an event the same number, and that the other
nodes deposit nothing at which the master's loop raises. After such a deposit the hub is never drained
(`cursor_of_harmful`).
-/

namespace VpnPi
namespace Mesh

open Async Js

/-! ## The steps -/

structure NodeConfig where
  node   : String
  window : Nat

/-- Between two cycles, or in the loop: what is still to be shipped, and how much was. -/
inductive Phase where
  | idle
  | shipping (unsent : List IdsEvent) (shipped : Nat)

/-- How a post ended for the node. It may have reached the hub all the same. -/
inductive Outcome where
  | acked
  | refused (reached : Bool)
  | raised (reached : Bool)
  deriving DecidableEq

def Outcome.reached : Outcome → Bool
  | acked => true
  | refused reached => reached
  | raised reached => reached

structure World where
  shipper : Shipper
  /-- The state file, once there is one. -/
  file    : Option Shipper
  phase   : Phase
  relay   : RelayBuffer
  mesh    : MeshDataSource

def World.init (cap : Nat) : World := ⟨.load none, none, .idle, .new cap, .new⟩

inductive Label where
  /-- `ship_once` reads the feed; it ends at once if the events cannot be sorted. -/
  | read (events : List IdsEvent)
  | post (e : IdsEvent) (seq : Int) (coins : Nat) (now : String) (outcome : Outcome)
  /-- The end of a cycle; writing the state file may fail. -/
  | finish (saved : Bool)
  | restart
  /-- Another node's blob. -/
  | deposit (now : String) (d : RelayDeposit)
  /-- The master's pull; one that does not reach the hub changes nothing. -/
  | pull
  deriving DecidableEq

variable (cfg : NodeConfig) (env : Envelope cfg.node)

/-- The hub after a post. -/
def arrived (relay : RelayBuffer) (now : String) (d : RelayDeposit) (reached : Bool) : RelayBuffer :=
  if reached then (relay.deposit now d).2 else relay

inductive Step : World → Label → World → Prop
  | read {w : World} {events unsent : List IdsEvent} (hphase : w.phase = .idle)
      (hunsent : w.shipper.unsent events = some unsent) :
      Step w (.read events) { w with phase := .shipping unsent 0 }
  | acked {w : World} {e : IdsEvent} {es : List IdsEvent} {shipped : Nat} (coins : Nat) (now : String)
      (hphase : w.phase = .shipping (e :: es) shipped) :
      Step w (.post e (w.shipper.seq + 1) coins now .acked)
        { w with
          shipper := w.shipper.consume e
          phase := .shipping es (shipped + 1)
          relay := arrived w.relay now (posted env (w.shipper.seq + 1) e coins) true }
  /-- `break`. -/
  | refused {w : World} {e : IdsEvent} {es : List IdsEvent} {shipped : Nat} (coins : Nat) (now : String)
      (reached : Bool) (hphase : w.phase = .shipping (e :: es) shipped) :
      Step w (.post e (w.shipper.seq + 1) coins now (.refused reached))
        { w with
          phase := .shipping [] shipped
          relay := arrived w.relay now (posted env (w.shipper.seq + 1) e coins) reached }
  /-- `run_forever` goes on after an exception. -/
  | raised {w : World} {e : IdsEvent} {es : List IdsEvent} {shipped : Nat} (coins : Nat) (now : String)
      (reached : Bool) (hphase : w.phase = .shipping (e :: es) shipped) :
      Step w (.post e (w.shipper.seq + 1) coins now (.raised reached))
        { w with
          phase := .idle
          relay := arrived w.relay now (posted env (w.shipper.seq + 1) e coins) reached }
  | finish {w : World} {shipped : Nat} (saved : Bool) (hphase : w.phase = .shipping [] shipped) :
      Step w (.finish saved)
        (if shipped = 0 then { w with phase := .idle }
         else
          { w with
            shipper := w.shipper.boundSeen cfg.window
            file := if saved then some (w.shipper.boundSeen cfg.window) else w.file
            phase := .idle })
  | restart {w : World} : Step w .restart { w with shipper := .load w.file, phase := .idle }
  /-- `relay_deposit` takes a blob under the name of its caller only. -/
  | deposit {w : World} (now : String) {d : RelayDeposit} (hnode : d.node ≠ cfg.node) :
      Step w (.deposit now d) { w with relay := (w.relay.deposit now d).2 }
  | pull {w : World} :
      Step w .pull { w with mesh := (pullAndMerge env w.mesh (w.relay.drain w.mesh.cursor pullLimit)).1 }

/-! ## What a run leaves -/

/-- The number and the event of a post that reached the hub. -/
def carried : Label → List (Int × IdsEvent)
  | .post e seq _ _ outcome => if outcome.reached then [(seq, e)] else []
  | _ => []

/-- The events whose post returned true. -/
def acknowledged : Label → List IdsEvent
  | .post e _ _ _ .acked => [e]
  | _ => []

/-- The calls of the hub. -/
def relayCall : Label → List RelayCall
  | .post e seq coins now outcome =>
      if outcome.reached then [.deposit now (posted env seq e coins)] else []
  | .deposit now d => [.deposit now d]
  | .pull => [.drain pullLimit]
  | _ => []

def relayCalls (tr : List Label) : List RelayCall := tr.flatMap (relayCall cfg env)

/-- The blobs deposited in a run, and their keys. -/
def depositsOf (tr : List Label) : List RelayDeposit := deposits (relayCalls cfg env tr)

def depositKeys (tr : List Label) : List (String × Int) := (depositsOf cfg env tr).map fun d => (d.node, d.seq)

/-- Nothing is left for the master to pull. -/
def Drained (w : World) : Prop := ∀ r ∈ w.relay.rows, r.id ≤ w.mesh.cursor

/-- The master holds the event of the node under one key. -/
def ShownOnce (m : MeshDataSource) (node : String) (e : IdsEvent) : Prop :=
  ∃! key, m.events.get key = some (e.shown node)

/-- A post that reaches the hub carries an event under the number under which it was carried before, and a number
    with the event it carried before, if they were. -/
def Steady (pre : List Label) (l : Label) : Prop :=
  ∀ x ∈ carried l, ∀ y ∈ pre.flatMap carried, y.1 = x.1 ↔ y.2.shown cfg.node = x.2.shown cfg.node

/-- The same, and what another node deposits is harmless. -/
def Sound (pre : List Label) (l : Label) : Prop := Steady cfg pre l ∧ ∀ now d, l = .deposit now d → Harmless env d

variable {cfg env} {cap : Nat} {tr : List Label} {w w' : World} {l : Label}

/-! ## The hub and the master -/

def World.session (w : World) : Session := ⟨w.relay, w.mesh.cursor⟩

/-- What a step does to the hub and to the master's cursor, and what it adds to the master's events. -/
structure Follows (env : Envelope cfg.node) (w : World) (calls : List RelayCall) (w' : World) : Prop where
  session : w'.session = after Session.call w.session calls
  events  : w'.mesh.events = ((((replies Session.call w.session calls).flatMap blobsOf).filterMap
    (blobEntry env)).foldl (keep meshCap) w.mesh.events)

theorem follows_post {e : IdsEvent} {seq : Int} {coins : Nat} {now : String} {outcome : Outcome}
    (hrelay : w'.relay = arrived w.relay now (posted env seq e coins) outcome.reached)
    (hmesh : w'.mesh = w.mesh) : Follows env w (relayCall cfg env (.post e seq coins now outcome)) w' := by
  have hsession : w'.session = ⟨arrived w.relay now (posted env seq e coins) outcome.reached, w.mesh.cursor⟩ := by
    rw [World.session, hrelay, hmesh]
  have hevents := congrArg MeshDataSource.events hmesh
  show Follows env w (if outcome.reached then _ else _) w'
  unfold arrived at hsession
  cases hreached : outcome.reached with
  | true =>
      rw [hreached] at hsession
      exact ⟨hsession, hevents⟩
  | false =>
      rw [hreached] at hsession
      exact ⟨hsession, hevents⟩

/-- A step up to which the master has met harmless blobs only. -/
theorem Step.follows (h : Step cfg env w l w')
    (hpage : ∀ d ∈ (w.relay.drain w.mesh.cursor pullLimit).blobs, Harmless env d) :
    Follows env w (relayCall cfg env l) w' := by
  cases h with
  | read hphase hunsent => exact ⟨rfl, rfl⟩
  | acked coins now hphase => exact follows_post rfl rfl
  | refused coins now reached hphase => exact follows_post rfl rfl
  | raised coins now reached hphase => exact follows_post rfl rfl
  | finish saved hphase =>
      split
      · exact ⟨rfl, rfl⟩
      · exact ⟨rfl, rfl⟩
  | restart => exact ⟨rfl, rfl⟩
  | deposit now hnode => exact ⟨rfl, rfl⟩
  | pull =>
      obtain ⟨hevents, hcursor⟩ := pullAndMerge_harmless hpage w.mesh
      refine ⟨?_, hevents.trans ?_⟩
      · show (⟨w.relay, (pullAndMerge env w.mesh _).1.cursor⟩ : Session) = _
        rw [hcursor]
        rfl
      · show _ = (((w.relay.drain w.mesh.cursor pullLimit).blobs ++ []).filterMap _).foldl _ _
        rw [List.append_nil]

theorem relayCalls_snoc (tr : List Label) (l : Label) :
    relayCalls cfg env (tr ++ [l]) = relayCalls cfg env tr ++ relayCall cfg env l := by
  rw [relayCalls, List.flatMap_append]
  exact congrArg _ (List.append_nil _)

theorem depositsOf_snoc (tr : List Label) (l : Label) :
    depositsOf cfg env (tr ++ [l]) = depositsOf cfg env tr ++ deposits (relayCall cfg env l) := by
  rw [depositsOf, relayCalls_snoc, deposits, List.flatMap_append]
  rfl

/-- What a step does to the hub, whatever the master meets. -/
theorem Step.relay {ds : List RelayDeposit} (h : Step cfg env w l w') (hds : Holds cap ds w.relay) :
    Holds cap (ds ++ deposits (relayCall cfg env l)) w'.relay := by
  have hpost : ∀ {now : String} {d : RelayDeposit} (reached : Bool),
      Holds cap (ds ++ deposits (if reached then [.deposit now d] else [])) (arrived w.relay now d reached) := by
    intro now d reached
    cases reached with
    | true => exact hds.deposit now d
    | false =>
        show Holds cap (ds ++ []) w.relay
        rw [List.append_nil]
        exact hds
  have hnone : Holds cap (ds ++ []) w.relay := by
    rw [List.append_nil]
    exact hds
  cases h with
  | read hphase hunsent => exact hnone
  | acked coins now hphase => exact hpost true
  | refused coins now reached hphase => exact hpost reached
  | raised coins now reached hphase => exact hpost reached
  | finish saved hphase =>
      split
      · exact hnone
      · exact hnone
  | restart => exact hnone
  | deposit now hnode => exact hds.deposit now _
  | pull => exact hnone

theorem relay_of_run (run : Run (Step cfg env) (.init cap) tr w) : Holds cap (depositsOf cfg env tr) w.relay := by
  refine run.invariant (I := fun tr w => Holds cap (depositsOf cfg env tr) w.relay) ?_ ?_
  · exact Holds.new cap
  intro tr w l w' _ ih h
  rw [depositsOf_snoc]
  exact h.relay ih

/-- **The hub and the master of a run** in which every deposit is harmless: the session of its calls, and the blobs
    drained in it, merged. -/
theorem session_of_run (run : Run (Step cfg env) (.init cap) tr w)
    (hopen : ∀ d ∈ depositsOf cfg env tr, Harmless env d) :
    w.session = sessionAfter cap (relayCalls cfg env tr) ∧
      w.mesh.events = ((drained cap (relayCalls cfg env tr)).filterMap (blobEntry env)).foldl (keep meshCap) .empty := by
  refine run.invariant (I := fun tr w => (∀ d ∈ depositsOf cfg env tr, Harmless env d) →
    w.session = sessionAfter cap (relayCalls cfg env tr) ∧
    w.mesh.events = ((drained cap (relayCalls cfg env tr)).filterMap (blobEntry env)).foldl (keep meshCap) .empty)
    (fun _ => ⟨rfl, rfl⟩) ?_ hopen
  intro tr w l w' run ih h hopen
  rw [depositsOf_snoc] at hopen
  have hbefore : ∀ d ∈ depositsOf cfg env tr, Harmless env d := fun d hd => hopen d (List.mem_append_left _ hd)
  obtain ⟨hsession, hevents⟩ := ih hbefore
  obtain ⟨hsession', hevents'⟩ := h.follows fun d hd => hbefore d ((relay_of_run run).mem_of_drain hd)
  rw [hsession] at hsession' hevents'
  rw [relayCalls_snoc, sessionAfter, after_append, drained, replies_append, List.flatMap_append, List.filterMap_append,
    List.foldl_append]
  refine ⟨hsession', hevents'.trans ?_⟩
  rw [hevents]
  rfl

/-! ## The log of the hub -/

/-- The blobs that a step deposits. -/
theorem mem_depositsOf {d : RelayDeposit} :
    d ∈ depositsOf cfg env tr ↔ ∃ l ∈ tr, d ∈ deposits (relayCall cfg env l) := by
  unfold depositsOf relayCalls deposits
  rw [List.flatMap_assoc, List.mem_flatMap]

theorem carried_post (e : IdsEvent) (seq : Int) (coins : Nat) (now : String) (outcome : Outcome) :
    carried (.post e seq coins now outcome) = if outcome.reached then [(seq, e)] else [] := rfl

theorem relayCall_post (e : IdsEvent) (seq : Int) (coins : Nat) (now : String) (outcome : Outcome) :
    relayCall cfg env (.post e seq coins now outcome)
      = if outcome.reached then [.deposit now (posted env seq e coins)] else [] := rfl

theorem mem_carried {x : Int × IdsEvent} (hx : x ∈ carried l) :
    ∃ coins now outcome, Outcome.reached outcome = true ∧ l = .post x.2 x.1 coins now outcome := by
  cases l with
  | post e seq coins now outcome =>
      rw [carried_post] at hx
      split at hx
      · next hreached =>
          obtain rfl := List.mem_singleton.mp hx
          exact ⟨coins, now, outcome, hreached, rfl⟩
      · cases hx
  | _ => cases hx

/-- **What the blobs of a run open to**: what the node posted, under its number; or an event of another node. -/
theorem mem_entries (run : Run (Step cfg env) (.init cap) tr w) {x : (String × Int) × IdsEvent}
    (hx : x ∈ (depositsOf cfg env tr).filterMap (blobEntry env)) :
    (∃ y ∈ tr.flatMap carried, x = ((cfg.node, y.1), y.2.shown cfg.node)) ∨
      x.1.1 ≠ cfg.node ∧ x.2.node ≠ some cfg.node := by
  obtain ⟨d, hd, hx⟩ := List.mem_filterMap.mp hx
  obtain ⟨l, hl, hd⟩ := mem_depositsOf.mp hd
  obtain ⟨hkey, hopen⟩ := blobEntry_eq_some.mp hx
  cases l with
  | post e seq coins now outcome =>
      rw [relayCall_post] at hd
      cases hreached : outcome.reached with
      | false =>
          rw [hreached] at hd
          cases hd
      | true =>
          rw [hreached] at hd
          obtain rfl := List.mem_singleton.mp hd
          -- what the node has posted opens to the event it posted
          rw [openBlob_posted] at hopen
          refine .inl ⟨(seq, e), List.mem_flatMap.mpr ⟨_, hl, ?_⟩, Prod.ext hkey (Option.some.inj (Except.ok.inj hopen)).symm⟩
          rw [carried_post, hreached]
          exact List.mem_singleton_self _
  | deposit now d' =>
      obtain rfl := List.mem_singleton.mp hd
      obtain ⟨pre, post, rfl⟩ := List.append_of_mem hl
      obtain ⟨_, _, _, hstep⟩ := run.split
      cases hstep with
      | deposit now hnode =>
          refine .inr ⟨hkey ▸ hnode, ?_⟩
          rw [openBlob_node hopen]
          -- a blob opens under the name it was deposited with, or not at all
          exact fun h => hnode (Option.some.inj h)
  | read events => cases hd
  | finish saved => cases hd
  | restart => cases hd
  | pull => cases hd

/-- An acknowledged event is in the log. -/
theorem acknowledged_entry {e : IdsEvent} (he : e ∈ tr.flatMap acknowledged) :
    ∃ seq, (seq, e) ∈ tr.flatMap carried ∧
      ((cfg.node, seq), e.shown cfg.node) ∈ (depositsOf cfg env tr).filterMap (blobEntry env) := by
  obtain ⟨l, hl, he⟩ := List.mem_flatMap.mp he
  unfold acknowledged at he
  split at he
  · next e' seq coins now =>
      obtain rfl := List.mem_singleton.mp he
      refine ⟨seq, List.mem_flatMap.mpr ⟨_, hl, List.mem_singleton_self _⟩, List.mem_filterMap.mpr ?_⟩
      refine ⟨posted env seq e coins, mem_depositsOf.mpr ⟨_, hl, List.mem_singleton_self _⟩, ?_⟩
      exact blobEntry_posted ..
  · cases he

/-- **A steady run** has one number for each event that reached the hub. -/
theorem steady_iff : Always (Steady cfg) tr ↔
    ∀ x ∈ tr.flatMap carried, ∀ y ∈ tr.flatMap carried, y.1 = x.1 ↔ y.2.shown cfg.node = x.2.shown cfg.node := by
  constructor
  · intro h
    induction tr using List.reverseRecOn with
    | nil =>
        intro x hx
        cases hx
    | append_singleton tr l ih =>
        have ih := ih h.init
        have hlast := h.last
        intro x hx y hy
        rw [List.flatMap_append, List.mem_append] at hx hy
        have hsingle : ∀ z, z ∈ [l].flatMap carried ↔ z ∈ carried l := fun z => by simp
        rw [hsingle] at hx hy
        rcases hx with hx | hx
        · rcases hy with hy | hy
          · exact ih x hx y hy
          · exact eq_comm.trans ((hlast y hy x hx).trans eq_comm)
        · rcases hy with hy | hy
          · exact hlast x hx y hy
          · -- a post carries one event
            obtain ⟨_, _, _, _, hl⟩ := mem_carried hx
            obtain ⟨_, _, _, _, hl'⟩ := mem_carried hy
            have hsame := hl.symm.trans hl'
            injection hsame with he hseq
            exact iff_of_true hseq.symm (congrArg (IdsEvent.shown · cfg.node) he.symm)
  · intro h pre l post htr x hx y hy
    subst htr
    refine h x ?_ y ?_
    · exact List.mem_flatMap.mpr ⟨l, by simp, hx⟩
    · rw [List.flatMap_append]
      exact List.mem_append_left _ hy

/-! ## Draining -/

/-- Without eviction, a drained hub has given out its log. -/
theorem drained_all (run : Run (Step cfg env) (.init cap) tr w) (hopen : ∀ d ∈ depositsOf cfg env tr, Harmless env d)
    (hcap : (depositsOf cfg env tr).length ≤ cap) (hdrained : Drained w) :
    drained cap (relayCalls cfg env tr) = depositsOf cfg env tr := by
  obtain ⟨hsession, _⟩ := session_of_run run hopen
  rw [drained_eq hcap, ← hsession]
  refine List.take_of_length_le ?_
  rcases Nat.eq_zero_or_pos (depositsOf cfg env tr).length with hzero | hpos
  · exact hzero.le.trans (Nat.zero_le _)
  · obtain ⟨r, hr, hid⟩ := ((holds_after cap (relayCalls cfg env tr)).mem_ids (depositsOf cfg env tr).length).mpr
      ⟨Nat.lt_add_of_pos_right (hpos.trans_le hcap), hpos, le_rfl⟩
    rw [← hsession] at hr
    exact hid ▸ hdrained r hr

theorem depositsOf_pull : depositsOf cfg env (tr ++ [.pull]) = depositsOf cfg env tr :=
  (depositsOf_snoc ..).trans (List.append_nil _)

/-- A pull of harmless blobs takes the cursor closer to the end of the log. -/
theorem cursor_pull (run : Run (Step cfg env) (.init cap) tr w) (hopen : ∀ d ∈ depositsOf cfg env tr, Harmless env d)
    (hcap : (depositsOf cfg env tr).length ≤ cap) (h : Step cfg env w .pull w')
    (hend : w.mesh.cursor < (depositsOf cfg env tr).length) : w.mesh.cursor < w'.mesh.cursor := by
  have hholds := relay_of_run run
  have hpositive : 0 < pullLimit := by decide
  cases h with
  | pull =>
      obtain ⟨_, hcursor⟩ := pullAndMerge_harmless (fun d hd => hopen d (hholds.mem_of_drain hd)) w.mesh
      show _ < (pullAndMerge env w.mesh _).1.cursor
      rw [hcursor, hholds.drain_cursor, Nat.sub_eq_zero_of_le hcap, Nat.zero_max, if_neg (by omega)]
      omega

/-- The hub is drained when the cursor is at the end of the log. -/
theorem drained_of_cursor (run : Run (Step cfg env) (.init cap) tr w)
    (h : (depositsOf cfg env tr).length ≤ w.mesh.cursor) : Drained w :=
  fun _ hr => ((relay_of_run run).id_le hr).trans h

/-- **Pulling drains the hub.** -/
theorem reaches_drained (run : Run (Step cfg env) (.init cap) tr w)
    (hopen : ∀ d ∈ depositsOf cfg env tr, Harmless env d) (hcap : (depositsOf cfg env tr).length ≤ cap) :
    ∃ k w', Run (Step cfg env) (.init cap) (tr ++ List.replicate k .pull) w' ∧ Drained w' := by
  induction hleft : (depositsOf cfg env tr).length - w.mesh.cursor using Nat.strong_induction_on
    generalizing tr w with
  | _ left ih =>
      by_cases hend : (depositsOf cfg env tr).length ≤ w.mesh.cursor
      · refine ⟨0, w, ?_, drained_of_cursor run hend⟩
        rw [List.replicate_zero, List.append_nil]
        exact run
      · obtain ⟨w₁, hpull⟩ : ∃ w₁, Step cfg env w .pull w₁ := ⟨_, .pull⟩
        have hcursor := cursor_pull run hopen hcap hpull (Nat.lt_of_not_le hend)
        have hless : (depositsOf cfg env tr).length - w₁.mesh.cursor < left := by omega
        have hopen' : ∀ d ∈ depositsOf cfg env (tr ++ [.pull]), Harmless env d := by
          rw [depositsOf_pull]
          exact hopen
        have hcap' : (depositsOf cfg env (tr ++ [.pull])).length ≤ cap := by
          rw [depositsOf_pull]
          exact hcap
        obtain ⟨k, w', hrun, hdrained⟩ := ih _ hless (run.snoc hpull) hopen' hcap' (by rw [depositsOf_pull])
        refine ⟨k + 1, w', ?_, hdrained⟩
        rw [List.append_assoc, List.singleton_append, ← List.replicate_succ] at hrun
        exact hrun

/-- **What the master holds** when the hub has been drained: the first event under each key. -/
theorem events_of_drained (run : Run (Step cfg env) (.init cap) tr w)
    (hopen : ∀ d ∈ depositsOf cfg env tr, Harmless env d) (hcap : (depositsOf cfg env tr).length ≤ cap)
    (hmesh : (depositKeys cfg env tr).toFinset.card < meshCap) (hdrained : Drained w) :
    w.mesh.events = firsts ((depositsOf cfg env tr).filterMap (blobEntry env)) := by
  have hevents := (session_of_run run hopen).2
  rw [drained_all run hopen hcap hdrained] at hevents
  have hfit : ((((OrdMap.empty : OrdMap (String × Int) IdsEvent).entries.map Prod.fst)
      ++ ((depositsOf cfg env tr).filterMap (blobEntry env)).map Prod.fst).toFinset).card ≤ meshCap := by
    refine (Finset.card_le_card fun k hk => ?_).trans hmesh.le
    rw [List.mem_toFinset] at hk ⊢
    obtain ⟨x, hx, rfl⟩ := List.mem_map.mp hk
    obtain ⟨d, hd, hx⟩ := List.mem_filterMap.mp hx
    rw [(blobEntry_eq_some.mp hx).1]
    exact List.mem_map_of_mem hd
  exact hevents.trans (foldl_keep _ _ hfit)

/-- **An acknowledged event is shown once** when the hub has been drained. -/
theorem shown_once_of_steady (run : Run (Step cfg env) (.init cap) tr w)
    (hopen : ∀ d ∈ depositsOf cfg env tr, Harmless env d) (hcap : (depositsOf cfg env tr).length ≤ cap)
    (hmesh : (depositKeys cfg env tr).toFinset.card < meshCap)
    (hsteady : Always (Steady cfg) tr) (hdrained : Drained w) :
    ∀ e ∈ tr.flatMap acknowledged, ShownOnce w.mesh cfg.node e := by
  intro e he
  obtain ⟨seq, hcarried, hentry⟩ := acknowledged_entry he
  unfold ShownOnce
  rw [events_of_drained run hopen hcap hmesh hdrained]
  refine firsts_unique hentry fun x hx => ?_
  rcases mem_entries run hx with ⟨y, hy, rfl⟩ | ⟨hkey, hnode⟩
  · have hpair := steady_iff.mp hsteady _ hcarried y hy
    rw [← hpair, Prod.mk.injEq]
    exact and_iff_right rfl
  · exact iff_of_false (fun h => hkey (congrArg Prod.fst h)) fun h => hnode (congrArg IdsEvent.node h)

/-! ## Harmful deposits -/

/-- What the master's loop gets through is harmless. -/
theorem harmless_of_merged {blobs : List RelayDeposit} {m : MeshDataSource} (h : (mergeBlobs env blobs m).2 = .ok ()) :
    ∀ d ∈ blobs, Harmless env d := by
  induction blobs generalizing m with
  | nil => exact List.forall_mem_nil _
  | cons blob blobs ih =>
      rw [mergeBlobs] at h
      cases hopen : openBlob env blob with
      | error e =>
          rw [hopen] at h
          cases h
      | ok opened =>
          rw [hopen] at h
          cases opened with
          | none => exact List.forall_mem_cons.mpr ⟨⟨none, hopen⟩, ih h⟩
          | some ev => exact List.forall_mem_cons.mpr ⟨⟨some ev, hopen⟩, ih h⟩

/-- The cursor moves over harmless blobs only. -/
theorem pull_cursor (m : MeshDataSource) (batch : RelayBatch) :
    (pullAndMerge env m batch).1.cursor = m.cursor ∨
      (pullAndMerge env m batch).1.cursor = batch.cursor ∧ ∀ d ∈ batch.blobs, Harmless env d := by
  unfold pullAndMerge
  cases hmerge : mergeBlobs env batch.blobs m with
  | mk merged ended =>
      cases ended with
      | error e =>
          have hraised : (mergeBlobs env batch.blobs m).2 = .error e := by rw [hmerge]
          have hcursor := cursor_of_raised hraised
          rw [hmerge] at hcursor
          exact .inl hcursor
      | ok _ =>
          have hended : (mergeBlobs env batch.blobs m).2 = .ok () := by rw [hmerge]
          exact .inr ⟨rfl, harmless_of_merged hended⟩

/-- The cursor stands within the deposits and behind no harmful one. -/
structure Halted (cfg : NodeConfig) (env : Envelope cfg.node) (tr : List Label) (cursor : Nat) : Prop where
  within : cursor ≤ (depositsOf cfg env tr).length
  before : ∀ i d, (depositsOf cfg env tr)[i]? = some d → ¬Harmless env d → cursor ≤ i

/-- What is deposited later stands behind the cursor too. -/
theorem Halted.stay {cursor : Nat} (h : Halted cfg env tr cursor) (l : Label) : Halted cfg env (tr ++ [l]) cursor := by
  refine ⟨?_, fun i d hd hharm => ?_⟩
  · rw [depositsOf_snoc, List.length_append]
    exact h.within.trans (Nat.le_add_right ..)
  · by_cases hi : i < (depositsOf cfg env tr).length
    · refine h.before i d ?_ hharm
      rwa [depositsOf_snoc, List.getElem?_append_left hi] at hd
    · exact h.within.trans (Nat.le_of_not_lt hi)

/-- A pull raises at a harmful deposit on its page, or there is none and the cursor moves behind the page. -/
theorem Halted.pull (run : Run (Step cfg env) (.init cap) tr w) (hcap : (depositsOf cfg env tr).length ≤ cap)
    (h : Halted cfg env tr w.mesh.cursor) :
    Halted cfg env tr (pullAndMerge env w.mesh (w.relay.drain w.mesh.cursor pullLimit)).1.cursor := by
  have hholds := relay_of_run run
  rcases pull_cursor w.mesh (w.relay.drain w.mesh.cursor pullLimit) with hstay | ⟨hmove, hopen⟩
  · rw [hstay]
    exact h
  · have hcursor := hholds.drain_cursor w.mesh.cursor pullLimit
    have hblobs := hholds.drain_blobs w.mesh.cursor pullLimit
    rw [Nat.sub_eq_zero_of_le hcap, Nat.zero_max] at hcursor hblobs
    rw [hblobs] at hopen
    rw [hmove, hcursor]
    have hwithin := h.within
    refine ⟨by split <;> omega, fun i d hd hharm => ?_⟩
    have hstart := h.before i d hd hharm
    -- were it behind the new cursor, it would have been on the page
    by_contra hpassed
    refine hharm (hopen d (List.mem_iff_getElem?.mpr ⟨i - w.mesh.cursor, ?_⟩))
    have hinside : i - w.mesh.cursor < pullLimit := by
      split at hpassed
      · omega
      · omega
    rw [List.getElem?_take, if_pos hinside, List.getElem?_drop, ← hd]
    congr 1
    omega

theorem Step.halted (run : Run (Step cfg env) (.init cap) tr w) {l : Label} {w' : World} (h : Step cfg env w l w')
    (hcap : (depositsOf cfg env (tr ++ [l])).length ≤ cap) (hhalted : Halted cfg env tr w.mesh.cursor) :
    Halted cfg env (tr ++ [l]) w'.mesh.cursor := by
  cases h with
  | read hphase hunsent => exact hhalted.stay _
  | acked coins now hphase => exact hhalted.stay _
  | refused coins now reached hphase => exact hhalted.stay _
  | raised coins now reached hphase => exact hhalted.stay _
  | finish saved hphase =>
      split
      · exact hhalted.stay _
      · exact hhalted.stay _
  | restart => exact hhalted.stay _
  | deposit now hnode => exact hhalted.stay _
  | pull =>
      rw [depositsOf_pull] at hcap
      exact (hhalted.pull run hcap).stay _

theorem halted_of_run (run : Run (Step cfg env) (.init cap) tr w) :
    (depositsOf cfg env tr).length ≤ cap → Halted cfg env tr w.mesh.cursor := by
  refine run.invariant (I := fun tr w => (depositsOf cfg env tr).length ≤ cap → Halted cfg env tr w.mesh.cursor) ?_ ?_
  · exact fun _ => ⟨Nat.zero_le _, fun i _ _ _ => Nat.zero_le i⟩
  · intro tr w l w' run ih h hcap
    have hle : (depositsOf cfg env tr).length ≤ (depositsOf cfg env (tr ++ [l])).length := by
      rw [depositsOf_snoc, List.length_append]
      exact Nat.le_add_right ..
    exact h.halted run hcap (ih (hle.trans hcap))

/-- **The cursor stays before a harmful deposit**, in every run without eviction. -/
theorem cursor_of_harmful (run : Run (Step cfg env) (.init cap) tr w) (hcap : (depositsOf cfg env tr).length ≤ cap)
    {i : Nat} {d : RelayDeposit} (hd : (depositsOf cfg env tr)[i]? = some d) (hharm : ¬Harmless env d) :
    w.mesh.cursor ≤ i :=
  (halted_of_run run hcap).before i d hd hharm

/-- Behind a harmful deposit the hub is never drained. -/
theorem not_drained_of_harmful (run : Run (Step cfg env) (.init cap) tr w)
    (hcap : (depositsOf cfg env tr).length ≤ cap) {d : RelayDeposit} (hd : d ∈ depositsOf cfg env tr)
    (hharm : ¬Harmless env d) : ¬Drained w := by
  intro hdrained
  obtain ⟨i, hi⟩ := List.mem_iff_getElem?.mp hd
  have hcursor := cursor_of_harmful run hcap hi hharm
  have hlt : i < (depositsOf cfg env tr).length := (List.getElem?_eq_some_iff.mp hi).1
  obtain ⟨r, hr, hid⟩ := ((relay_of_run run).mem_ids (i + 1)).mpr ⟨by omega, by omega, by omega⟩
  have := hdrained r hr
  omega

/-- What the node posts is harmless, so a run is if the other nodes' deposits are. -/
theorem harmless_of_deposits (h : ∀ now d, .deposit now d ∈ tr → Harmless env d) :
    ∀ d ∈ depositsOf cfg env tr, Harmless env d := by
  intro d hd
  obtain ⟨l, hl, hd⟩ := mem_depositsOf.mp hd
  cases l with
  | post e seq coins now outcome =>
      rw [relayCall_post] at hd
      split at hd
      · obtain rfl := List.mem_singleton.mp hd
        exact ⟨_, openBlob_posted ..⟩
      · cases hd
  | deposit now d' =>
      obtain rfl := List.mem_singleton.mp hd
      exact h now d hl
  | read events => cases hd
  | finish saved => cases hd
  | restart => cases hd
  | pull => cases hd

/-- The hub is drained when the cursor of the session is at the end of the log. -/
theorem drained_of_session (run : Run (Step cfg env) (.init cap) tr w)
    (h : ∀ now d, .deposit now d ∈ tr → Harmless env d)
    (hend : (depositsOf cfg env tr).length ≤ (sessionAfter cap (relayCalls cfg env tr)).cursor) : Drained w := by
  refine drained_of_cursor run ?_
  have hsession := (session_of_run run (harmless_of_deposits h)).1
  exact hend.trans_eq (congrArg Session.cursor hsession).symm

theorem harmless_of_sound (hsound : Always (Sound cfg env) tr) : ∀ d ∈ depositsOf cfg env tr, Harmless env d := by
  refine harmless_of_deposits fun now d hl => ?_
  obtain ⟨pre, post, htr⟩ := List.append_of_mem hl
  exact (hsound pre _ post htr).2 now d rfl

/-! ## Pulls change nothing else -/

theorem depositsOf_pulls (tr : List Label) (k : Nat) :
    depositsOf cfg env (tr ++ List.replicate k .pull) = depositsOf cfg env tr := by
  induction k with
  | zero => rw [List.replicate_zero, List.append_nil]
  | succ k ih => rw [List.replicate_succ', ← List.append_assoc, depositsOf_pull, ih]

theorem sound_pulls (h : Always (Sound cfg env) tr) (k : Nat) :
    Always (Sound cfg env) (tr ++ List.replicate k .pull) := by
  induction k with
  | zero =>
      rw [List.replicate_zero, List.append_nil]
      exact h
  | succ k ih =>
      rw [List.replicate_succ', ← List.append_assoc]
      refine ih.snoc ⟨fun x hx => absurd hx List.not_mem_nil, fun now d hl => ?_⟩
      cases hl

/-- **No acknowledged alert is lost** in a sound run: when the hub has been drained, and pulling drains it, the
    master shows each event whose post returned true once. After a deposit at which the master's loop raises, the hub
    is never drained. -/
theorem acked_shown_once (cfg : NodeConfig) (env : Envelope cfg.node) (cap : Nat) {tr : List Label} {w : World}
    (run : Run (Step cfg env) (.init cap) tr w) (hcap : (depositsOf cfg env tr).length ≤ cap)
    (hmesh : (depositKeys cfg env tr).toFinset.card < meshCap) :
    (Always (Sound cfg env) tr →
      (Drained w → ∀ e ∈ tr.flatMap acknowledged, ShownOnce w.mesh cfg.node e) ∧
        ∃ k w', Run (Step cfg env) (.init cap) (tr ++ List.replicate k .pull) w' ∧ Drained w' ∧
          ∀ e ∈ tr.flatMap acknowledged, ShownOnce w'.mesh cfg.node e) ∧
      ((∃ d ∈ depositsOf cfg env tr, ¬Harmless env d) → ¬Drained w) := by
  constructor
  · intro hsound
    have hopen := harmless_of_sound hsound
    have hsteady : ∀ {tr'}, Always (Sound cfg env) tr' → Always (Steady cfg) tr' :=
      fun h pre l post htr => (h pre l post htr).1
    refine ⟨shown_once_of_steady run hopen hcap hmesh (hsteady hsound), ?_⟩
    obtain ⟨k, w', run', hdrained⟩ := reaches_drained run hopen hcap
    refine ⟨k, w', run', hdrained, fun e he => ?_⟩
    have hsound' := sound_pulls hsound k
    refine shown_once_of_steady run' (harmless_of_sound hsound') ?_ ?_ (hsteady hsound') hdrained e ?_
    · rw [depositsOf_pulls]
      exact hcap
    · rw [depositKeys, depositsOf_pulls]
      exact hmesh
    · rw [List.flatMap_append]
      exact List.mem_append_left _ he
  · rintro ⟨d, hd, hharm⟩
    exact not_drained_of_harmful run hcap hd hharm

/-! ## An alert that is lost -/

theorem entries_overtaken {node : String} (env : Envelope node) (a b : IdsEvent) :
    [posted env 1 b 0, posted env 1 a 0, posted env 2 b 0].filterMap (blobEntry env)
      = [((node, 1), b.shown node), ((node, 1), a.shown node), ((node, 2), b.shown node)] := by
  simp only [List.filterMap_cons, blobEntry_posted, List.filterMap_nil]

/-- The second value under a key that is used twice is not there. -/
theorem firsts_overtaken {κ α : Type} [DecidableEq κ] (k k' : κ) {a b : α} (h : b ≠ a) (key : κ) :
    (firsts [(k, b), (k, a), (k', b)]).get key ≠ some a := by
  have hb : some b ≠ some a := fun hb => h (Option.some.inj hb)
  rw [get_firsts, OrdMap.lookup_cons_if, OrdMap.lookup_cons_if, OrdMap.lookup_cons_if]
  by_cases hk : key = k
  · rw [if_pos hk]
    exact hb
  · rw [if_neg hk, if_neg hk]
    split
    · exact hb
    · intro hnone
      cases hnone

namespace Symbolic

instance charCode : Encodable Char := .ofLeftInverse Char.toNat Char.ofNat Char.ofNat_toNat

instance stringCode : Encodable String := .ofLeftInverse String.toList String.ofList fun _ => String.ofList_toList

instance sourceCode : Encodable IdsSource :=
  .ofLeftInverse (fun | .usb => (some true, true) | .login => (some true, false) | .auth => (some false, true) | .reboot => (none, true))
    (fun | (some true, true) => .usb | (some true, false) => .login | (some false, _) => .auth | (none, _) => .reboot)
    fun s => by cases s <;> rfl

instance severityCode : Encodable IdsSeverity :=
  .ofLeftInverse (fun | .info => some true | .warn => some false | .crit => none)
    (fun | some true => .info | some false => .warn | none => .crit) fun s => by cases s <;> rfl

instance dateTimeCode : Encodable DateTime :=
  .ofLeftInverse (fun t => (t.wall, t.offset)) (fun t => ⟨t.1, t.2⟩) fun _ => rfl

instance eventCode : Encodable IdsEvent :=
  .ofLeftInverse (fun e => (e.id, e.at_, e.node, e.source, e.severity, e.subject, e.message))
    (fun ⟨id, at_, node, source, severity, subject, message⟩ => ⟨id, at_, node, source, severity, subject, message⟩)
    fun _ => rfl

instance nodeFieldCode : Encodable NodeField :=
  .ofLeftInverse (fun | .text name => some (some name) | .scalar => some none | .container => none)
    (fun | some (some name) => .text name | some none => .scalar | none => .container) fun n => by cases n <;> rfl

instance payloadCode : Encodable Payload :=
  .ofLeftInverse (fun p => (p.node, p.seq, p.event)) (fun p => ⟨p.1, p.2.1, p.2.2⟩) fun _ => rfl

instance byteCode : Encodable UInt8 := .ofLeftInverse UInt8.toNat UInt8.ofNat fun _ => UInt8.ofNat_toNat

instance sealedCode : Encodable Sealed :=
  .ofLeftInverse (fun s => (s.payload, s.signature)) (fun s => ⟨s.1, s.2⟩) fun _ => rfl

def sensor : NodeConfig := ⟨"10.42.0.5", 200⟩

/-- Bytes as the characters of Latin 1. -/
def latin1 (ct : Bytes) : String := String.ofList (ct.map fun b => Char.ofNat b.toNat)

def ofLatin1 (s : String) : Option Bytes :=
  s.toList.mapM fun c => if c.toNat < 256 then some (UInt8.ofNat c.toNat) else none

theorem latin1_toNat {n : Nat} (h : n < 256) : (Char.ofNat n).toNat = n := by
  have hvalid : n.isValidChar := .inl (h.trans (by decide))
  unfold Char.ofNat
  rw [dif_pos hvalid]
  rfl

theorem ofLatin1_latin1 (ct : Bytes) : ofLatin1 (latin1 ct) = some ct := by
  unfold ofLatin1 latin1
  rw [String.toList_ofList]
  induction ct with
  | nil => rfl
  | cons b ct ih =>
      have hlt : b.toNat < 256 := b.toNat_lt
      rw [List.map_cons, List.mapM_cons, ih, latin1_toNat hlt, if_pos hlt, UInt8.ofNat_toNat]
      rfl

/-- Blobs that anyone could read: the number of the contents, in bytes; and a signature that anyone could make. -/
def envelope : Envelope sensor.node where
  b64encode := latin1
  b64decode := ofLatin1
  encrypt contents _ := List.replicate (Encodable.encode contents) 0
  decrypt ct := ((Encodable.decode ct.length).map Except.ok).getD (.error .verificationError)
  sign _ := List.replicate 64 0
  verify _ _ signature := signature = List.replicate 64 0
  verifyKeyFor name := if name = sensor.node then some [5] else none
  key := [5]
  decodes := ofLatin1_latin1
  decrypts contents coins := by
    rw [List.length_replicate, Encodable.encodek]
    rfl
  length _ := List.length_replicate
  registered := if_pos rfl
  verifies _ := by simp

/-- Seconds after midnight UTC. -/
def loginAt (id : String) (seconds : Int) : IdsEvent :=
  ⟨id, ⟨seconds * 1000000, some 0⟩, none, .login, .info, "billy", "login"⟩

/-- `b` reached the hub as number 1, but the node does not know; then `a` turns up, which is older, and is
    acknowledged as number 1. -/
def overtaking : List Label :=
  [.read [loginAt "b" 20], .post (loginAt "b" 20) 1 0 "" (.refused true), .finish false,
    .read [loginAt "b" 20, loginAt "a" 10], .post (loginAt "a" 10) 1 0 "" .acked,
    .post (loginAt "b" 20) 2 0 "" .acked, .finish true, .pull]

theorem overtaken : ∃ w, Run (Step sensor envelope) (.init 5000) overtaking w ∧ Drained w := by
  have hfirst : (Shipper.load none).unsent [loginAt "b" 20] = some [loginAt "b" 20] := rfl
  have hsecond : (Shipper.load none).unsent [loginAt "b" 20, loginAt "a" 10]
      = some [loginAt "a" 10, loginAt "b" 20] := rfl
  have refused : Run (Step sensor envelope) (.init 5000) _ _ :=
    ((Run.nil.snoc (.read rfl hfirst)).snoc (.refused 0 "" true rfl)).snoc (.finish false rfl)
  have shipped := ((refused.snoc (.read rfl hsecond)).snoc (.acked 0 "" rfl)).snoc (.acked 0 "" rfl)
  have run : Run (Step sensor envelope) (.init 5000) overtaking _ := (shipped.snoc (.finish true rfl)).snoc .pull
  refine ⟨_, run, drained_of_session run ?_ ?_⟩
  · intro now d hd
    simp [overtaking] at hd
  · decide

/-- The master shows `b` as number 1 and as number 2, and never shows `a`. -/
theorem acked_alert_lost : ¬∀ (cfg : NodeConfig) (env : Envelope cfg.node) (cap : Nat) (tr : List Label) (w : World),
    Run (Step cfg env) (.init cap) tr w → (depositsOf cfg env tr).length ≤ cap →
    (depositKeys cfg env tr).toFinset.card < meshCap → Drained w →
    ∀ e ∈ tr.flatMap acknowledged, ShownOnce w.mesh cfg.node e := by
  intro hall
  obtain ⟨w, run, hdrained⟩ := overtaken
  have hdeposits : depositsOf sensor envelope overtaking = [posted envelope 1 (loginAt "b" 20) 0,
      posted envelope 1 (loginAt "a" 10) 0, posted envelope 2 (loginAt "b" 20) 0] := rfl
  have hcap : (depositsOf sensor envelope overtaking).length ≤ 5000 := by
    rw [hdeposits]
    decide
  have hmesh : (depositKeys sensor envelope overtaking).toFinset.card < meshCap := by
    rw [depositKeys, hdeposits]
    decide
  have hacked : loginAt "a" 10 ∈ overtaking.flatMap acknowledged := by decide
  obtain ⟨key, hkey, _⟩ := hall sensor envelope 5000 overtaking w run hcap hmesh hdrained _ hacked
  have hopen : ∀ d ∈ depositsOf sensor envelope overtaking, Harmless envelope d := by
    refine harmless_of_deposits fun now d hd => ?_
    simp [overtaking] at hd
  rw [events_of_drained run hopen hcap hmesh hdrained, hdeposits, entries_overtaken] at hkey
  have hne : (loginAt "b" 20).shown sensor.node ≠ (loginAt "a" 10).shown sensor.node :=
    fun h => absurd (congrArg IdsEvent.id h) (by decide)
  exact firsts_overtaken (sensor.node, 1) (sensor.node, 2) hne key hkey

/-- A node that is not in the registry. -/
def stranger : RelayDeposit :=
  ⟨"10.42.0.9", 1, envelope.b64encode (envelope.encrypt ⟨⟨.text "10.42.0.9", some 1, none⟩, []⟩ 0)⟩

theorem stranger_rejected : openBlob envelope stranger = .ok none := by
  apply openBlob_unregistered
  · rfl
  · rfl

/-- An acknowledgement was lost, and the event is posted again. A stranger deposits in between. -/
def retrying : List Label :=
  [.read [loginAt "a" 10], .post (loginAt "a" 10) 1 0 "" (.refused true), .finish false, .deposit "" stranger,
    .read [loginAt "a" 10], .post (loginAt "a" 10) 1 0 "" .acked, .finish true, .pull]

theorem retried_shown_once : ∃ w, Run (Step sensor envelope) (.init 5000) retrying w ∧ Drained w ∧
    loginAt "a" 10 ∈ retrying.flatMap acknowledged ∧ ShownOnce w.mesh sensor.node (loginAt "a" 10) := by
  have hunsent : (Shipper.load none).unsent [loginAt "a" 10] = some [loginAt "a" 10] := rfl
  have refused : Run (Step sensor envelope) (.init 5000) _ _ :=
    ((Run.nil.snoc (.read rfl hunsent)).snoc (.refused 0 "" true rfl)).snoc (.finish false rfl)
  have deposited := refused.snoc (.deposit "" (show stranger.node ≠ sensor.node by decide))
  have shipped := (deposited.snoc (.read rfl hunsent)).snoc (.acked 0 "" rfl)
  have run : Run (Step sensor envelope) (.init 5000) retrying _ := (shipped.snoc (.finish true rfl)).snoc .pull
  have hdeposits : ∀ now d, Label.deposit now d ∈ retrying → Harmless envelope d := by
    intro now d hd
    simp only [retrying, List.mem_cons, List.not_mem_nil, reduceCtorEq, false_or, or_false] at hd
    injection hd with _ hd
    exact ⟨none, hd ▸ stranger_rejected⟩
  have hdrained : Drained _ := drained_of_session run hdeposits (by decide)
  have hsteady : Always (Steady sensor) retrying := steady_iff.mpr (by decide)
  have hsound : Always (Sound sensor envelope) retrying := by
    intro pre l post htr
    refine ⟨hsteady pre l post htr, ?_⟩
    rintro now d rfl
    exact hdeposits now d (by rw [htr]; simp)
  have hshown := (acked_shown_once sensor envelope 5000 run (by decide) (by decide)).1 hsound
  exact ⟨_, run, hdrained, by decide, hshown.1 hdrained _ (by decide)⟩

/-- A text that is no base64. -/
def spoilt : RelayDeposit := ⟨"10.42.0.6", 1, "€"⟩

theorem spoilt_harmful : ¬Harmless envelope spoilt := by
  have htext : envelope.b64decode "€" = none := by
    show ofLatin1 "€" = none
    decide
  rintro ⟨opened, hopen⟩
  rw [openBlob, spoilt, htext] at hopen
  cases hopen

/-- **One spoilt deposit** and the master never gets to the end of the hub. -/
theorem spoilt_blocks {tr : List Label} {w : World} {now : String} (run : Run (Step sensor envelope) (.init 5000) tr w)
    (hcap : (depositsOf sensor envelope tr).length ≤ 5000) (hspoilt : .deposit now spoilt ∈ tr) : ¬Drained w := by
  refine not_drained_of_harmful run hcap ?_ spoilt_harmful
  exact mem_depositsOf.mpr ⟨_, hspoilt, List.mem_singleton_self _⟩

end Symbolic

end Mesh
end VpnPi
