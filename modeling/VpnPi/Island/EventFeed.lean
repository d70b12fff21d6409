import Mathlib.Data.List.Forall2
import VpnPi.Island.Events
import VpnPi.Island.RegistryStore
import VpnPi.Island.Removal

/-!
# `Island.EventFeed` — what the admin's feed shows (`core/events.ts`, `main.ts`)

Many nodes with their books, one of which collects. Nodes sign reports of their events, anyone posts anything to the collector,
and the admin lists what it has. The columns are of type `TEXT`: a name that is a number or a truth value is written out, and
what is no text is replaced. A signature that verifies under a node's key is one that the node has made (`Unforged`).

* `feed_authentic` — the listing succeeds, and every row of it is what the columns keep of the report under its key that was
  accepted last: the key was the collector's or a friend's then, the label is the collector's name for it, and if the key is a
  node's, that node has signed these events at the time that the row shows.
-/

namespace VpnPi
namespace Island
namespace EventFeed

open Js Async Value
open Removal (LivesStep unused lives_inv)

/-! ## The table -/

/-- A row of `node_events` as the table has it, next to its key. -/
structure FeedRow where
  label    : JsString
  events   : JsString
  at_      : JsString
  received : JsString
  deriving DecidableEq

abbrev FeedTable := OrdMap JsString FeedRow

variable (P : Platform) (column : TextColumn)

/-- What the columns keep of the bound values; `none` where the statement throws. -/
def storedRow (row : NodeEvents) : Option FeedRow := do
  let label ← column.bind row.label
  pure ⟨label, column.text.carry row.events, column.text.carry row.at_, column.text.carry row.received⟩

/-- `POST /events/report`, on the table. -/
def report (ctx : Collector) (table : FeedTable) (q : ReportRequest) : FeedTable :=
  match delivery P ctx q with
  | none => table
  | some d =>
      match storedRow column d.row with
      | none => table
      | some row => table.set (column.text.carry d.report.node) row

/-- `MAX_FEED_NODES`. -/
def maxFeedNodes : Nat := 64

/-- `SELECT .. ORDER BY at DESC LIMIT 64`. SQLite compares texts by their bytes, and leaves the order of equal ones open. -/
inductive Lists (table : FeedTable) : List (JsString × FeedRow) → Prop
  | mk {rows : List (JsString × FeedRow)} (hperm : rows.Perm table.entries)
      (hsorted : rows.Pairwise fun a b => utf8Encode b.2.at_ ≤ utf8Encode a.2.at_) : Lists table (rows.take maxFeedNodes)

/-- What the feed shows of a row, with its events read. -/
def shownRow (e : JsString × FeedRow) (events : Value) : Value :=
  .obj [(js "node", .str e.1), (js "label", .str e.2.label), (js "at", .str e.2.at_), (js "received", .str e.2.received),
    (js "events", events)]

/-- One row of the listing; `none` where `JSON.parse` throws. -/
def listRow (e : JsString × FeedRow) : Option Value := (parse P.toEngine e.2.events).map (shownRow e)

/-- `list()`, on the rows that the query has returned. -/
def list (rows : List (JsString × FeedRow)) : Option (List Value) := rows.mapM (listRow P)

/-! ## Nodes and a collector -/

variable {ι : Type} [DecidableEq ι] (nodes : ι → Self) (c : ι)

/-- What the collector is. -/
def collectorOf : Collector := ⟨selfEd P (nodes c), (nodes c).label⟩

structure World (ι : Type) where
  books : ι → BookPool P
  /-- The collector's, which a restart leaves as it is. -/
  table : FeedTable

inductive Event (ι : Type) where
  | book (e : Removal.Event P ι)
  /-- A node signs a report. -/
  | signs (m : ι) (label : JsString) (events : List Value) (now : Instant)
  /-- `POST /events/report`, with the collector's book at that time. -/
  | post (q : ReportRequest)

inductive Step : World P ι → Event P ι → World P ι → Prop
  | book {w : World P ι} {books : ι → BookPool P} {e : Removal.Event P ι} (h : LivesStep P nodes w.books e books) :
      Step w (.book e) { w with books := books }
  | signs {w : World P ι} {m : ι} {label : JsString} {events : List Value} {now : Instant} {r : EventReport}
      (wf : WFList P.toEngine events) (made : signReport P (nodes m).id label events now = .ok r) :
      Step w (.signs m label events now) w
  | post {w : World P ι} {q : ReportRequest} (hbook : q.book = (w.books c).state) :
      Step w (.post q) { w with table := report P column (collectorOf P nodes c) w.table q }

def start : World P ι := ⟨unused P, .empty⟩

/-- What a node signs of its events. -/
def reportView (m : ι) (label : JsString) (events : List Value) (now : Instant) : Value :=
  (EventReport.mk (selfEd P (nodes m)) label events (P.toISOString now) []).signable

/-- A node has signed the bytes of this value: as a report before, or ever as something else. -/
def HasSigned (pre : List (Event P ι)) (m : ι) (v : Value) : Prop :=
  (∃ k w, k ≠ .report ∧ Signs P (nodes m).id.edPublic k w ∧ canonicalBytes w = canonicalBytes v) ∨
    ∃ label events now, .signs m label events now ∈ pre ∧ canonicalBytes (reportView P nodes m label events now) = canonicalBytes v

/-- **Signatures are unforgeable.** Of a node's signatures, a report that is posted has one that was made. -/
def Unforged (pre : List (Event P ι)) (e : Event P ι) : Prop :=
  ∀ q, e = .post q → ∀ r, (readJson P q.body >>= parseReport) = .ok r → verifyReport P r = true →
    ∀ m, fromB64 P (.str r.node) = .ok (nodes m).id.edPublic → HasSigned P nodes pre m r.signable

/-- The last report under the key that the collector has accepted, in a request after `pre`. -/
structure LastAccepted (tr : List (Event P ι)) (node : JsString) (pre : List (Event P ι)) (q : ReportRequest) (r : EventReport)
    (label : Value) : Prop where
  accepted : acceptReport P (collectorOf P nodes c) q.book q.body = .ok (r, label)
  node_eq  : column.text.carry r.node = node
  last     : ∃ post, tr = pre ++ .post q :: post ∧ ∀ q', .post q' ∈ post → ∀ r' label',
    acceptReport P (collectorOf P nodes c) q'.book q'.body = .ok (r', label') → column.text.carry r'.node ≠ node

/-- The node has signed these events at the time that the row shows. -/
def SignedBy (pre : List (Event P ι)) (m : ι) (node : JsString) (row : FeedRow) (events : Value) : Prop :=
  node = selfEd P (nodes m) ∧ ∃ label signed now, .signs m label signed now ∈ pre ∧
    row.at_ = column.text.carry (P.toISOString now) ∧ JsonEq (.arr signed) events

variable {P column nodes c} {tr : List (Event P ι)} {w : World P ι}

/-! ## The rows -/

/-- A report that was accepted passes the checks. -/
theorem accepted_checks {ctx : Collector} {book : FriendBook} {body : Body} {r : EventReport} {label : Value}
    (h : acceptReport P ctx book body = .ok (r, label)) : (readJson P body >>= parseReport) = .ok r ∧ verifyReport P r = true ∧
      reporterLabel ctx book r.node = .ok label ∧ label.truthy = true ∧ label.isPrimitive = true := by
  obtain ⟨r', hparsed, h⟩ := bind_ok.mp h
  obtain ⟨_, hverified, h⟩ := bind_ok.mp h
  obtain ⟨label', hlabel, h⟩ := bind_ok.mp h
  obtain ⟨_, hknown, h⟩ := bind_ok.mp h
  obtain ⟨_, hbound, h⟩ := bind_ok.mp h
  obtain ⟨rfl, rfl⟩ := Prod.mk.inj (Except.ok.inj h)
  refine ⟨hparsed, ?_, hlabel, ?_, ?_⟩
  · simpa using failIf_ok.mp hverified
  · simpa using failIf_ok.mp hknown
  · simpa using failIf_ok.mp hbound

/-- The reporter is the collector itself or one of its friends. -/
theorem reporter_known {ctx : Collector} {book : FriendBook} {node : JsString} {label : Value}
    (h : reporterLabel ctx book node = .ok label) (htruthy : label.truthy = true) :
    node = ctx.selfEd ∨ book.friends.has node = true := by
  unfold reporterLabel at h
  split at h
  · next hself => exact .inl hself
  · right
    cases hget : book.friends.get node with
    | some record => simp [OrdMap.has, hget]
    | none =>
        rw [hget] at h
        obtain rfl : Value.undefined = label := Except.ok.inj h
        cases htruthy

omit [DecidableEq ι] in
theorem LastAccepted.later {node : JsString} {pre : List (Event P ι)} {q : ReportRequest} {r : EventReport} {label : Value}
    (h : LastAccepted P column nodes c tr node pre q r label) {e : Event P ι} (hother : ∀ q, e = .post q → ∀ r label,
      acceptReport P (collectorOf P nodes c) q.book q.body = .ok (r, label) → column.text.carry r.node ≠ node) :
    LastAccepted P column nodes c (tr ++ [e]) node pre q r label := by
  obtain ⟨post, rfl, hlast⟩ := h.last
  refine { h with last := ⟨post ++ [e], by simp, fun q' hq' => ?_⟩ }
  rcases List.mem_append.mp hq' with hq' | hq'
  · exact hlast q' hq'
  · exact hother q' (List.mem_singleton.mp hq').symm

/-- The row is what the columns keep of the last report under its key. -/
def Left (P : Platform) (column : TextColumn) (nodes : ι → Self) (c : ι) (tr : List (Event P ι)) (node : JsString)
    (row : FeedRow) : Prop :=
  ∃ pre q r label, LastAccepted P column nodes c tr node pre q r label ∧ storedRow column (rowOf P r label q.now) = some row

omit [DecidableEq ι] in
theorem Left.later {node : JsString} {row : FeedRow} (h : Left P column nodes c tr node row) {e : Event P ι}
    (hother : ∀ q, e = .post q → ∀ r label, acceptReport P (collectorOf P nodes c) q.book q.body = .ok (r, label) →
      column.text.carry r.node ≠ node) : Left P column nodes c (tr ++ [e]) node row := by
  obtain ⟨pre, q, r, label, hreport, hrow⟩ := h
  exact ⟨pre, q, r, label, hreport.later hother, hrow⟩

/-- The name of a reporter that was accepted can be bound. -/
theorem stored_of_accepted {ctx : Collector} {book : FriendBook} {body : Body} {r : EventReport} {label : Value} (now : Instant)
    (h : acceptReport P ctx book body = .ok (r, label)) : ∃ row, storedRow column (rowOf P r label now) = some row := by
  obtain ⟨_, _, _, htruthy, hprimitive⟩ := accepted_checks h
  cases label with
  | undefined => cases htruthy
  | null => cases htruthy
  | arr xs => cases hprimitive
  | obj es => cases hprimitive
  | bool b => exact ⟨_, rfl⟩
  | num x => exact ⟨_, rfl⟩
  | str s => exact ⟨_, rfl⟩

/-- What a request does to the table. -/
theorem report_cases (ctx : Collector) (table : FeedTable) (q : ReportRequest) :
    ((∃ e, acceptReport P ctx q.book q.body = .error e) ∧ report P column ctx table q = table) ∨
    ∃ r label row, acceptReport P ctx q.book q.body = .ok (r, label) ∧
      storedRow column (rowOf P r label q.now) = some row ∧
      report P column ctx table q = table.set (column.text.carry r.node) row := by
  unfold report delivery
  cases haccept : acceptReport P ctx q.book q.body with
  | error e => exact .inl ⟨⟨e, rfl⟩, rfl⟩
  | ok found =>
      obtain ⟨r, label⟩ := found
      obtain ⟨row, hrow⟩ := @stored_of_accepted P column _ _ _ _ _ q.now haccept
      refine .inr ⟨r, label, row, rfl, hrow, ?_⟩
      simp only [hrow]

/-- **One step** keeps the rows to the last reports. -/
theorem Step.left {w w' : World P ι} {e : Event P ι} (h : Step P column nodes c w e w')
    (hw : ∀ node row, w.table.get node = some row → Left P column nodes c tr node row) :
    ∀ node row, w'.table.get node = some row → Left P column nodes c (tr ++ [e]) node row := by
  intro node row hget
  cases h with
  | book h => exact (hw node row hget).later fun q heq => by cases heq
  | signs wf made => exact (hw node row hget).later fun q heq => by cases heq
  | @post q hbook =>
      dsimp only at hget
      rcases @report_cases P column (collectorOf P nodes c) w.table q with ⟨⟨ex, haccept⟩, heq⟩ |
        ⟨r, label, stored, haccept, hstored, heq⟩
      · rw [heq] at hget
        refine (hw node row hget).later fun q' heq r label hok => ?_
        obtain rfl := Event.post.inj heq
        cases haccept.symm.trans hok
      · rw [heq, OrdMap.get_set] at hget
        split at hget
        · next hnode =>
            -- the row has just been written
            obtain rfl := Option.some.inj hget
            refine ⟨tr, q, r, label, ⟨haccept, hnode.symm, [], rfl, ?_⟩, hstored⟩
            intro _ h
            cases h
        · next hne =>
            refine (hw node row hget).later fun q' heq r' label' hok => ?_
            obtain rfl := Event.post.inj heq
            obtain ⟨rfl, rfl⟩ := Prod.mk.inj (Except.ok.inj (haccept.symm.trans hok))
            exact Ne.symm hne

/-- **Every row** in the collector's table. -/
theorem rows_left (run : Run (Step P column nodes c) (start P) tr w) :
    ∀ node row, w.table.get node = some row → Left P column nodes c tr node row := by
  induction run with
  | nil =>
      intro node row hget
      cases hget
  | snoc run h ih => exact h.left ih

/-! ## What a node has signed -/

omit [DecidableEq ι] in
/-- **A report that a node has signed** shows its events of that time. -/
theorem HasSigned.report {pre : List (Event P ι)} {m : ι} {r : EventReport} (h : HasSigned P nodes pre m r.signable)
    (hpast : ∀ m label events now, .signs m label events now ∈ pre → WFList P.toEngine events)
    (hwf : WFList P.toEngine r.events) (hbytes : ∃ bytes, canonicalBytes r.signable = .ok bytes) :
    r.node = selfEd P (nodes m) ∧ ∃ label signed now, .signs m label signed now ∈ pre ∧ r.at_ = P.toISOString now ∧
      JsonEq (.arr signed) (.arr r.events) := by
  obtain ⟨bytes, hbytes⟩ := hbytes
  have hrwf : r.signable.WF P.toEngine := signable_wf hwf
  rcases h with ⟨k, v, hk, hsigns, heq⟩ | ⟨label, signed, now, hmem, heq⟩
  · -- nothing else that is signed has the fields of a report
    have hjson : JsonEq v r.signable := canonicalBytes_inj hsigns.wf hrwf (heq.trans hbytes) hbytes
    have hshape : Kind.report.Shaped r.signable := ⟨_, rfl, rfl⟩
    exact absurd (hsigns.shaped.eq hshape hjson) hk
  · have hvwf : (reportView P nodes m label signed now).WF P.toEngine := signable_wf (hpast m label signed now hmem)
    have hjson : JsonEq (reportView P nodes m label signed now) r.signable :=
      canonicalBytes_inj hvwf hrwf (heq.trans hbytes) hbytes
    have hnode := hjson.field (k := js "node") hvwf hrwf rfl rfl
    have hat := hjson.field (k := js "at") hvwf hrwf rfl rfl
    have hevents := hjson.field (k := js "events") hvwf hrwf rfl rfl
    exact ⟨Value.str.inj hnode.eq_str, label, signed, now, hmem, Value.str.inj hat.eq_str, hevents⟩

theorem accepted_wf {body : Body} {r : EventReport} (h : (readJson P body >>= parseReport) = .ok r) :
    WFList P.toEngine r.events := by
  obtain ⟨v, hv, hparsed⟩ := bind_ok.mp h
  refine parseReport_wf ?_ hparsed
  obtain ⟨_, _, hv⟩ := bind_ok.mp hv
  obtain ⟨_, _, hv⟩ := bind_ok.mp hv
  split at hv
  · next hparse =>
      obtain rfl := Except.ok.inj hv
      exact parse_wf hparse
  · cases hv

/-- The columns keep the text of the events, and it can be read again. -/
theorem row_read {r : EventReport} {label : Value} {now : Instant} {row : FeedRow} (hwf : WFList P.toEngine r.events)
    (hverified : verifyReport P r = true) (hrow : storedRow column (rowOf P r label now) = some row) :
    parse P.toEngine row.events = some (.arr r.events) := by
  have hplain := (verifyReport_true hverified).plain
  have hevents : Plain (.arr r.events) := hplain.2.2.2.1
  have harr : (Value.arr r.events).WF P.toEngine := hwf
  have htext : WellFormed (stringify (.arr r.events)) :=
    wellFormed_render _ (WF.jsonView _ harr) (jsonView_plain _)
  obtain ⟨_, _, hrow⟩ := Option.bind_eq_some_iff.mp hrow
  obtain rfl := Option.some.inj hrow
  show parse P.toEngine (column.text.carry (stringify (.arr r.events))) = _
  rw [column.text.keeps htext, parse_stringify harr, jsonView_of_plain _ hevents]

/-! ## The feed -/

theorem mapM_rows {α β : Type} {f : α → Option β} {R : α → β → Prop} {rows : List α} (h : ∀ e ∈ rows, ∃ v, f e = some v ∧ R e v) :
    ∃ vs, rows.mapM f = some vs ∧ List.Forall₂ R rows vs := by
  induction rows with
  | nil => exact ⟨[], rfl, .nil⟩
  | cons e rows ih =>
      obtain ⟨⟨v, hv, hr⟩, hrows⟩ := List.forall_mem_cons.mp h
      obtain ⟨vs, hvs, hall⟩ := ih hrows
      refine ⟨v :: vs, ?_, .cons hr hall⟩
      rw [List.mapM_cons, hv, hvs]
      rfl

theorem signed_wf (run : Run (Step P column nodes c) (start P) tr w) {m : ι} {label : JsString} {events : List Value} {now : Instant}
    (h : .signs m label events now ∈ tr) : WFList P.toEngine events := by
  obtain ⟨pre, post, rfl⟩ := List.append_of_mem h
  obtain ⟨_, _, _, hstep⟩ := run.split
  cases hstep with
  | signs wf made => exact wf

/-- **The feed shows what was reported.** In every run, whatever is posted to the collector, replayed or late, and whatever
    becomes of its book meanwhile: the listing of the table succeeds, with 64 rows at most, and each of them is what the columns
    keep of the report that was accepted last under its key. Then the key was the collector's own or that of a friend, and the
    label is what the column keeps of the collector's name for it; and if the key is that of one of the nodes, the node has
    signed these events before, at the time that the row shows. -/
theorem feed_authentic (P : Platform) (column : TextColumn) (nodes : ι → Self) (c : ι) {tr : List (Event P ι)} {w : World P ι}
    (run : Run (Step P column nodes c) (start P) tr w) (hunforged : Always (Unforged P nodes) tr)
    {rows : List (JsString × FeedRow)} (hrows : Lists w.table rows) :
    rows.length ≤ maxFeedNodes ∧ (rows.map Prod.fst).Nodup ∧ ∃ shown, list P rows = some shown ∧
      List.Forall₂ (fun e v => ∃ events pre q r label, v = shownRow e events ∧
        LastAccepted P column nodes c tr e.1 pre q r label ∧ storedRow column (rowOf P r label q.now) = some e.2 ∧
        (∃ w', Run (Step P column nodes c) (start P) pre w' ∧ q.book = (w'.books c).state) ∧
        (r.node = selfEd P (nodes c) ∨ q.book.friends.has r.node = true) ∧
        reporterLabel (collectorOf P nodes c) q.book r.node = .ok label ∧ column.bind label = some e.2.label ∧
        ∀ m, fromB64 P (.str r.node) = .ok (nodes m).id.edPublic → SignedBy P column nodes pre m r.node e.2 events)
        rows shown := by
  cases hrows with
  | @mk rows hperm hsorted =>
      have hnodup : (rows.map Prod.fst).Nodup := (hperm.map Prod.fst).nodup_iff.mpr w.table.nodup
      refine ⟨List.length_take_le .., (List.Sublist.map _ (List.take_sublist ..)).nodup hnodup, mapM_rows fun e he => ?_⟩
      have hget : w.table.get e.1 = some e.2 := OrdMap.mem_entries_iff.mp (hperm.mem_iff.mp (List.mem_of_mem_take he))
      obtain ⟨pre, q, r, label, hreport, hrow⟩ := rows_left run e.1 e.2 hget
      obtain ⟨hparsed, hverified, hlabel, htruthy, _⟩ := accepted_checks hreport.accepted
      have hwf : WFList P.toEngine r.events := accepted_wf hparsed
      have hread : parse P.toEngine e.2.events = some (.arr r.events) := row_read hwf hverified hrow
      obtain ⟨post, htr, _⟩ := hreport.last
      have hbook : ∃ w', Run (Step P column nodes c) (start P) pre w' ∧ q.book = (w'.books c).state := by
        rw [htr] at run
        obtain ⟨w', _, run', hstep⟩ := run.split
        cases hstep with
        | post hbook => exact ⟨w', run', hbook⟩
      obtain ⟨text, hbind, hstored⟩ := Option.bind_eq_some_iff.mp hrow
      have hstored := Option.some.inj hstored
      have hbound : column.bind label = some e.2.label := by
        rw [← hstored]
        exact hbind
      have hshown : e.2.at_ = column.text.carry r.at_ := by
        rw [← hstored]
        rfl
      refine ⟨_, by rw [listRow, hread]; rfl, .arr r.events, pre, q, r, label, rfl, hreport, hrow, hbook,
        reporter_known hlabel htruthy, hlabel, hbound, fun m hm => ?_⟩
      -- the report verified under the node's key, so the node has signed it; what it signed has one reading
      have hsigned := hunforged pre _ post htr q rfl r hparsed hverified m hm
      obtain ⟨_, bytes, _, _, hbytes, _⟩ := (verifyReport_true hverified).ok
      obtain ⟨hself, signedLabel, signed, now, hmem, hat, hevents⟩ := hsigned.report (fun m label events now hmem =>
        signed_wf run (htr ▸ List.mem_append_left _ hmem)) hwf ⟨bytes, hbytes⟩
      exact ⟨hself, signedLabel, signed, now, hmem, by rw [hshown, hat], hevents⟩

/-- What happens to the books alone. -/
theorem lift_books {books books' : ι → BookPool P} {table : FeedTable} {tr : List (Event P ι)} {more : List (Removal.Event P ι)}
    {w₀ : World P ι} (run : Run (Step P column nodes c) w₀ tr ⟨books, table⟩) (later : Run (LivesStep P nodes) books more books') :
    Run (Step P column nodes c) w₀ (tr ++ more.map .book) ⟨books', table⟩ := by
  induction later with
  | nil => rwa [List.map_nil, List.append_nil]
  | snoc _ h ih =>
      rw [List.map_append, ← List.append_assoc]
      exact ih.snoc (.book h)

omit [DecidableEq ι] in
/-- Only what is posted can be forged. -/
theorem unforged_books {more : List (Removal.Event P ι)} : Always (Unforged P nodes) (more.map .book) := by
  intro pre e post heq q he
  have hmem : e ∈ more.map .book := by simp [heq]
  obtain ⟨e', _, rfl⟩ := List.mem_map.mp hmem
  cases he

end EventFeed

namespace Symbolic

open Js Async EventFeed Value

/-- What node `m` sends of its events. -/
def filed (m : Bool) (events : List Value) (now : Instant) : EventReport :=
  ((signReport platform (couple m).id (js "node") events now).toOption).getD ⟨[], [], [], [], []⟩

/-- The collector's answer to a report that node `m` has filed. -/
def tableAfter (table : FeedTable) (m : Bool) (events : List Value) (now : Instant) : FeedTable :=
  report platform columns (collectorOf platform couple false) table (posted (filed m events now))

/-- A node signs a report, and posts it to node 2, which is friends with node 1. -/
theorem filed_run {m : Bool} {events : List Value} {now : Instant} {books : Bool → BookPool platform} {table : FeedTable}
    {tr : List (EventFeed.Event platform Bool)} (wf : WFList platform.toEngine events)
    (made : signReport platform (couple m).id (js "node") events now = .ok (filed m events now))
    (parsed : (readJson platform (posted (filed m events now)).body >>= parseReport) = .ok (filed m events now))
    (hbook : befriended = (books false).state)
    (run : Run (EventFeed.Step platform columns couple false) (start platform) tr ⟨books, table⟩)
    (hall : Always (EventFeed.Unforged platform couple) tr) :
    Run (EventFeed.Step platform columns couple false) (start platform)
      (tr ++ [.signs m (js "node") events now] ++ [.post (posted (filed m events now))])
      ⟨books, tableAfter table m events now⟩ ∧
    Always (EventFeed.Unforged platform couple)
      (tr ++ [.signs m (js "node") events now] ++ [.post (posted (filed m events now))]) := by
  refine ⟨(run.snoc (.signs wf made)).snoc (.post hbook), (hall.snoc fun q heq => by cases heq).snoc ?_⟩
  intro q heq r hparsed _ k hk
  cases heq
  obtain rfl := Except.ok.inj (parsed.symm.trans hparsed)
  obtain ⟨sig, _, hreport⟩ := bind_ok.mp made
  have hreport := Except.ok.inj hreport
  rw [← hreport] at hk ⊢
  by_cases hmk : m = k
  · subst hmk
    refine .inr ⟨js "node", events, now, List.mem_append_right _ (List.mem_singleton_self _), rfl⟩
  · -- the report names the node that has made it
    have hkey : (couple m).id.edPublic = (couple k).id.edPublic := Except.ok.inj ((codec.fromB64 _).symm.trans hk)
    revert hkey hmk
    cases m <;> cases k <;> simp [couple, node, identity]

/-- A ban, as node 1 reports it. -/
def ban : Value :=
  .obj [(js "kind", .str (js "fail2ban")), (js "subject", .str (js "203.0.113.9")), (js "detail", .str (js "banned in sshd"))]

theorem ban_wf : WFList platform.toEngine [ban] :=
  ⟨⟨show [js "kind", js "subject", js "detail"].Nodup by decide, trivial, trivial, trivial, trivial⟩, trivial⟩

theorem calm_parsed : (readJson platform (posted (filed true [] epoch)).body >>= parseReport) = .ok (filed true [] epoch) := by
  decide +kernel

theorem own_parsed : (readJson platform (posted (filed false [] epoch)).body >>= parseReport) = .ok (filed false [] epoch) := by
  decide +kernel

theorem ban_signed : signReport platform (couple true).id (js "node") [ban] minuteLater = .ok (filed true [ban] minuteLater) := by
  decide +kernel

theorem ban_parsed : (readJson platform (posted (filed true [ban] minuteLater)).body >>= parseReport)
    = .ok (filed true [ban] minuteLater) := by
  decide +kernel

/-- The rows of node 1 and of node 2. -/
def banRow : FeedRow := ⟨js "node", stringify (.arr [ban]), isoString minuteLater, isoString epoch⟩

def calmRow : FeedRow := ⟨js "node", js "[]", isoString epoch, isoString epoch⟩

/-- Node 1 reports, node 2 reports to itself, and node 1 reports again. -/
def filedTable : FeedTable :=
  tableAfter (tableAfter (tableAfter .empty true [] epoch) false [] epoch) true [ban] minuteLater

theorem filedTable_entries : filedTable.entries = [(toHex [1], banRow), (toHex [2], calmRow)] := by decide +kernel

/-- Node 2 has made node 1 its friend. Its feed shows the ban that node 1 has reported and signed last, and its own report. -/
theorem ban_shown : ∃ tr w, Run (EventFeed.Step platform columns couple false) (start platform) tr w ∧
    ∃ rows, Lists w.table rows ∧ rows = [(toHex [1], banRow), (toHex [2], calmRow)] ∧
      EventFeed.list platform rows = some [shownRow (toHex [1], banRow) (.arr [ban]), shownRow (toHex [2], calmRow) (.arr [])] ∧
      ∃ pre, SignedBy platform columns couple pre true (toHex [1]) banRow (.arr [ban]) := by
  obtain ⟨_, received⟩ := life_alone .nil (show Call.WF _ (.receive _ _) from invite_wf) invite_received
  obtain ⟨_, life⟩ := life_alone received (show Call.WF _ (.accept ..) from trivial) invite_accepted
  have books : Run (Removal.LivesStep platform couple) (Removal.unused platform) [] (Removal.unused platform) := .nil
  have start₀ : Run (EventFeed.Step platform columns couple false) (start platform) [] ⟨Removal.unused platform, .empty⟩ :=
    .nil
  have run₀ := lift_books start₀ (books.member (n := false) life)
  have hbook : befriended = (Function.update (Removal.unused platform) false (⟨befriended, []⟩ : BookPool platform) false).state := by
    rw [Function.update_self]
  -- three reports: of node 1, of the collector itself, and of node 1 again
  obtain ⟨run₁, ok₁⟩ := @filed_run true [] epoch _ _ _ trivial (by decide +kernel) calm_parsed hbook run₀ unforged_books
  obtain ⟨run₂, ok₂⟩ := @filed_run false [] epoch _ _ _ trivial (by decide +kernel) own_parsed hbook run₁ ok₁
  obtain ⟨run₃, ok₃⟩ := @filed_run true [ban] minuteLater _ _ _ ban_wf ban_signed ban_parsed hbook run₂ ok₂
  have hrows : Lists filedTable (filedTable.entries.take maxFeedNodes) := by
    refine .mk (.refl _) ?_
    rw [filedTable_entries]
    decide +kernel
  rw [filedTable_entries] at hrows
  change Run _ _ _ (World.mk _ filedTable) at run₃
  generalize filedTable = table at run₃ hrows
  have hlist : EventFeed.list platform [(toHex [1], banRow), (toHex [2], calmRow)] =
      some [shownRow (toHex [1], banRow) (.arr [ban]), shownRow (toHex [2], calmRow) (.arr [])] := by decide +kernel
  obtain ⟨_, _, shown, hshown, hall⟩ := feed_authentic platform columns couple false run₃ ok₃ hrows
  obtain rfl := Option.some.inj (hlist.symm.trans hshown)
  refine ⟨_, _, run₃, _, hrows, rfl, hlist, ?_⟩
  cases hall with
  | cons hfirst _ =>
      obtain ⟨events, pre, q, r, label, hevents, hreport, _, _, _, _, _, hsigned⟩ := hfirst
      have hshown : events = .arr [ban] := by simpa [shownRow] using hevents.symm
      subst hshown
      obtain ⟨hparsed, _⟩ := accepted_checks hreport.accepted
      obtain ⟨post, htr, _⟩ := hreport.last
      have hmem : .post q ∈ pre ++ .post q :: post := by simp
      rw [← htr] at hmem
      have hnode : r.node = toHex [1] := by
        -- of the three it is not the collector's, which stands under another key
        simp at hmem
        rcases hmem with rfl | rfl | rfl
        · obtain rfl := Except.ok.inj (calm_parsed.symm.trans hparsed)
          decide +kernel
        · obtain rfl := Except.ok.inj (own_parsed.symm.trans hparsed)
          exact absurd hreport.node_eq (by decide +kernel)
        · obtain rfl := Except.ok.inj (ban_parsed.symm.trans hparsed)
          decide +kernel
      have hkey : fromB64 platform (.str r.node) = .ok (couple true).id.edPublic := by
        rw [hnode]
        exact fromB64_toHex [1]
      have hfrom := hsigned true hkey
      rw [hnode] at hfrom
      exact ⟨pre, hfrom⟩

end Symbolic
end Island
end VpnPi
