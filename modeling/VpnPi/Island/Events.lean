import Mathlib.Data.List.Induction
import VpnPi.Island.Symbolic

/-!
# `Island.Events` — signed event reports and the collector's store (`core/events.ts`)

A node signs a report of its events; the collector keeps one row per node. `POST /events/report` lets a report
in if its signature is its node's and the node is this one or a friend; nothing in it looks at the row that is
there.

* `get_storeAfter` — the row of a node is the report of it that was accepted last.
* `latest_iff` — it is the report sent last after every request exactly if the reports of each node are
  accepted in the order of their times.
-/

namespace VpnPi
namespace Island

open Js

/-! ## Reports -/

structure EventReport where
  node   : JsString
  label  : JsString
  events : List Value
  at_    : JsString
  sig    : JsString
  deriving DecidableEq

/-- `signable`. -/
def EventReport.signable (r : EventReport) : Value :=
  .obj [(js "node", .str r.node), (js "label", .str r.label), (js "at", .str r.at_), (js "events", .arr r.events)]

/-- `MAX_REPORT_EVENTS`. -/
def maxReportEvents : Nat := 200

/-- `typeof v === "object"`, of what is not `null`. -/
def isObject : Value → Bool
  | .obj _ | .arr _ => true
  | _ => false

def checkEvent (e : Value) : Except Exn Unit := do
  failIf (!(isObject e && [js "kind", js "subject", js "detail"].all fun k => (e.prop k).any Value.isStr))
    (.event (js "malformed report event"))
  failIf ((e.prop (js "state")).any fun s => s ≠ .undefined && !s.isStr) (.event (js "malformed report event"))

def checkEvents : List Value → Except Exn Unit
  | [] => pure ()
  | e :: es => do
      checkEvent e
      checkEvents es

/-- Shape and size only. -/
def parseReport (body : Value) : Except Exn EventReport :=
  match body.prop (js "node"), body.prop (js "label"), body.prop (js "events"), body.prop (js "at"),
    body.prop (js "sig") with
  | some (.str node), some (.str label), some (.arr events), some (.str at_), some (.str sig) => do
      failIf (maxReportEvents < events.length) (.event (js "too many events in report"))
      checkEvents events
      pure ⟨node, label, events, at_, sig⟩
  | _, _, _, _, _ => .error (.event (js "malformed report"))

variable (P : Platform)

/-- Any exception counts as a bad signature. -/
def verifyReport (r : EventReport) : Bool :=
  match verify P r.signable (.str r.sig) (.str r.node) with
  | .ok good => good
  | .error _ => false

/-- Node side. -/
def signReport (id : Identity) (label : JsString) (events : List Value) (now : Instant) :
    Except Exn EventReport := do
  let body : EventReport := ⟨toB64 P id.edPublic, label, events, P.toISOString now, []⟩
  let sig ← sign P body.signable id.edSecret
  pure { body with sig := sig }

/-- What a report is sent as. -/
def EventReport.toJSON (r : EventReport) : Value :=
  .obj [(js "node", .str r.node), (js "label", .str r.label), (js "events", .arr r.events), (js "at", .str r.at_),
    (js "sig", .str r.sig)]

/-! ## The store -/

/-- What a row of `node_events` is bound to, next to its key. -/
structure NodeEvents where
  label    : Value
  events   : JsString
  at_      : JsString
  received : JsString
  deriving DecidableEq

abbrev EventStore := OrdMap JsString NodeEvents

def rowOf (r : EventReport) (label : Value) (now : Instant) : NodeEvents where
  label    := label
  events   := stringify (.arr r.events)
  at_      := r.at_
  received := P.toISOString now

def EventStore.upsert (store : EventStore) (r : EventReport) (label : Value) (now : Instant) : EventStore :=
  store.set r.node (rowOf P r label now)

/-! ## `POST /events/report` -/

/-- What the collector is. -/
structure Collector where
  selfEd : JsString
  label  : JsString

variable (ctx : Collector)

/-- The collector's name for the reporter. -/
def reporterLabel (book : FriendBook) (node : JsString) : Except Exn Value :=
  if node = ctx.selfEd then pure (.str ctx.label)
  else
    match book.friends.get node with
    | some rec_ => prop rec_ (js "peer") >>= fun peer => prop peer (js "label")
    | none => pure .undefined

/-- A report that passes every check, with the label it is stored under. -/
def acceptReport (book : FriendBook) (body : Body) : Except Exn (EventReport × Value) := do
  let r ← readJson P body >>= parseReport
  failIf (!verifyReport P r) (.event (js "bad report signature"))
  let label ← reporterLabel ctx book r.node
  failIf (!label.truthy) (.event (js "reporter is not a known island node"))
  -- a list or an object cannot be bound to a column
  failIf (!label.isPrimitive) .typeError
  pure (r, label)

/-- A request, with the friend book at the time it is handled. -/
structure ReportRequest where
  body : Body
  book : FriendBook
  now  : Instant

def postReport (store : EventStore) (q : ReportRequest) : Except Exn Unit × EventStore :=
  match acceptReport P ctx q.book q.body with
  | .ok (r, label) => (.ok (), store.upsert P r label q.now)
  | .error e => (.error e, store)

/-- The store after a sequence of requests. -/
def storeAfter (qs : List ReportRequest) : EventStore :=
  qs.foldl (fun store q => (postReport P ctx store q).2) .empty

/-! ## What was accepted -/

/-- A report that was accepted, and the row it made. -/
structure Delivery where
  report : EventReport
  row    : NodeEvents
  deriving DecidableEq

def delivery (q : ReportRequest) : Option Delivery :=
  match acceptReport P ctx q.book q.body with
  | .ok (r, label) => some ⟨r, rowOf P r label q.now⟩
  | .error _ => none

/-- The accepted reports of a node, in the order they were accepted. -/
def deliveriesOf (qs : List ReportRequest) (node : JsString) : List Delivery :=
  (qs.filterMap (delivery P ctx)).filter fun d => d.report.node = node

variable {P ctx}

theorem storeAfter_snoc (qs : List ReportRequest) (q : ReportRequest) :
    storeAfter P ctx (qs ++ [q]) = (postReport P ctx (storeAfter P ctx qs) q).2 := by
  unfold storeAfter
  rw [List.foldl_append]
  rfl

theorem deliveriesOf_snoc (qs : List ReportRequest) (q : ReportRequest) (node : JsString) :
    deliveriesOf P ctx (qs ++ [q]) node = deliveriesOf P ctx qs node ++
      ((delivery P ctx q).toList.filter fun d => d.report.node = node) := by
  have hone : [q].filterMap (delivery P ctx) = (delivery P ctx q).toList := by
    cases h : delivery P ctx q with
    | none => rw [List.filterMap_cons_none h]; rfl
    | some d => rw [List.filterMap_cons_some h]; rfl
  unfold deliveriesOf
  rw [List.filterMap_append, List.filter_append, hone]

/-- **The row of a node** is that of the report of it that was accepted last. -/
theorem get_storeAfter (qs : List ReportRequest) (node : JsString) :
    (storeAfter P ctx qs).get node = (deliveriesOf P ctx qs node).getLast?.map Delivery.row := by
  induction qs using List.reverseRecOn with
  | nil => rfl
  | append_singleton qs q ih =>
      rw [storeAfter_snoc, deliveriesOf_snoc]
      unfold postReport delivery
      cases h : acceptReport P ctx q.book q.body with
      | error e =>
          simp only [Option.toList_none, List.filter_nil, List.append_nil]
          exact ih
      | ok a =>
          obtain ⟨r, label⟩ := a
          show (OrdMap.set _ r.node _).get node = _
          rw [OrdMap.get_set]
          by_cases hnode : node = r.node
          · subst hnode
            simp
          · have hne : ¬r.node = node := fun h => hnode h.symm
            simp [hnode, hne, ih]

/-! ## The order of sending -/

/-- `Date.parse` of the report's time. -/
def EventReport.sentAt (P : Platform) (r : EventReport) : Option Instant := P.dateParse r.at_

/-- Not later; what is no date comes before everything. -/
def NotLater (d e : Option Instant) : Prop := ∀ x, d = some x → ∃ y, e = some y ∧ x.ms ≤ y.ms

theorem NotLater.refl (d : Option Instant) : NotLater d d := fun x hx => ⟨x, hx, le_rfl⟩

/-- The row of every node is that of the report sent last among its accepted ones. -/
def Latest (P : Platform) (ctx : Collector) (qs : List ReportRequest) : Prop :=
  ∀ node, deliveriesOf P ctx qs node ≠ [] → ∃ d ∈ deliveriesOf P ctx qs node,
    (storeAfter P ctx qs).get node = some d.row ∧
      ∀ d' ∈ deliveriesOf P ctx qs node, NotLater (d'.report.sentAt P) (d.report.sentAt P)

/-- The accepted reports of every node came in the order in which they were sent. -/
def InOrder (P : Platform) (ctx : Collector) (qs : List ReportRequest) : Prop :=
  ∀ node, (deliveriesOf P ctx qs node).Pairwise fun d d' => NotLater (d.report.sentAt P) (d'.report.sentAt P)

theorem NotLater.trans {d e f : Option Instant} (h : NotLater d e) (h' : NotLater e f) : NotLater d f := by
  intro x hx
  obtain ⟨y, hy, hxy⟩ := h x hx
  obtain ⟨z, hz, hyz⟩ := h' y hy
  exact ⟨z, hz, hxy.trans hyz⟩

/-- In a list that ascends, the last element is the greatest. -/
theorem notLater_getLast {ds : List Delivery} {d d' : Delivery}
    (h : ds.Pairwise fun d d' => NotLater (d.report.sentAt P) (d'.report.sentAt P))
    (hlast : ds.getLast? = some d) (hd : d' ∈ ds) : NotLater (d'.report.sentAt P) (d.report.sentAt P) := by
  obtain ⟨init, rfl⟩ := List.getLast?_eq_some_iff.mp hlast
  rcases List.mem_append.mp hd with hd | hd
  · exact (List.pairwise_append.mp h).2.2 d' hd d (List.mem_singleton_self d)
  · rw [List.mem_singleton.mp hd]
    exact .refl _

theorem latest_of_inOrder {qs : List ReportRequest} (h : InOrder P ctx qs) : Latest P ctx qs := by
  intro node hne
  have hlast := List.getLast?_eq_some_getLast hne
  refine ⟨_, List.getLast_mem hne, ?_, fun d' hd' => notLater_getLast (h node) hlast hd'⟩
  rw [get_storeAfter, hlast]
  rfl

/-- A delivery that ends the requests of a node leaves its time in the row. -/
theorem not_latest {qs : List ReportRequest} {node : JsString} {d d' : Delivery}
    (hlast : (deliveriesOf P ctx qs node).getLast? = some d) (hd' : d' ∈ deliveriesOf P ctx qs node)
    (hlater : ¬NotLater (d'.report.sentAt P) (d.report.sentAt P)) : ¬Latest P ctx qs := by
  intro hlatest
  obtain ⟨e, he, hrow, hmax⟩ := hlatest node (List.ne_nil_of_mem hd')
  rw [get_storeAfter, hlast] at hrow
  have hat : ∀ d ∈ deliveriesOf P ctx qs node, d.report.at_ = d.row.at_ := by
    intro d hd
    obtain ⟨q, _, hq⟩ := List.mem_filterMap.mp (List.mem_filter.mp hd).1
    unfold delivery at hq
    split at hq
    · cases hq; rfl
    · cases hq
  have hsame : e.report.at_ = d.report.at_ := by
    rw [hat e he, hat d (List.mem_of_getLast? hlast), Option.some.inj hrow]
  refine hlater ((hmax d' hd').trans ?_)
  unfold EventReport.sentAt
  rw [hsame]
  exact .refl _

/-- **When the collector keeps the latest report.** After every request the row of every node is that of its
    report sent last, among those accepted, exactly if each node's reports are accepted in the order they were
    sent. -/
theorem latest_iff (P : Platform) (ctx : Collector) (qs : List ReportRequest) :
    (∀ pre post, qs = pre ++ post → Latest P ctx pre) ↔ InOrder P ctx qs := by
  constructor
  · intro h
    induction qs using List.reverseRecOn with
    | nil => exact fun _ => List.Pairwise.nil
    | append_singleton qs q ih =>
        have hpre := ih fun pre post hqs => h pre (post ++ [q]) (by rw [hqs, List.append_assoc])
        have hlatest := h (qs ++ [q]) [] (List.append_nil _).symm
        intro node
        rw [deliveriesOf_snoc]
        refine List.pairwise_append.mpr ⟨hpre node, ?_, ?_⟩
        · cases delivery P ctx q with
          | none => exact List.Pairwise.nil
          | some d => exact (List.pairwise_singleton _ d).filter _
        · intro d' hd' d hd
          -- were an earlier delivery later by date, the row would not be the latest now
          by_contra hlater
          have hq : delivery P ctx q = some d := Option.mem_toList.mp (List.mem_filter.mp hd).1
          have hdeliveries := @deliveriesOf_snoc P ctx qs q node
          rw [hq, Option.toList_some, List.filter_cons, if_pos (List.mem_filter.mp hd).2, List.filter_nil]
            at hdeliveries
          refine @not_latest P ctx _ node d d' ?_ ?_ hlater hlatest
          · rw [hdeliveries, List.getLast?_concat]
          · rw [hdeliveries]
            exact List.mem_append_left _ hd'
  · intro h pre post hqs
    subst hqs
    refine latest_of_inOrder fun node => ?_
    have hnode := h node
    unfold deliveriesOf at hnode
    rw [List.filterMap_append, List.filter_append] at hnode
    exact (List.pairwise_append.mp hnode).1

/-! ## A report that comes late -/

namespace Symbolic

/-- Node 2 collects, and is friends with node 1. -/
def collector : Collector := ⟨selfEd platform (node 2), js "node"⟩

/-- What node 1 sends when its clock is at `now`. -/
def reportAt (now : Instant) : EventReport :=
  ((signReport platform (identity 1) (js "node") [] now).toOption).getD ⟨[], [], [], [], []⟩

def posted (r : EventReport) : ReportRequest := ⟨⟨0, stringify r.toJSON⟩, befriended, epoch⟩

theorem minute_valid : (-8640000000000000 : Int) ≤ 60000 ∧ (60000 : Int) ≤ 8640000000000000 := by decide

def minuteLater : Instant := ⟨60000, minute_valid⟩

def stored (r : EventReport) : Delivery := ⟨r, rowOf platform r (.str (js "node")) epoch⟩

/-- The report of the epoch comes after the one of a minute later, and takes its place. -/
theorem late_report_stored : ∃ r r', signReport platform (identity 1) (js "node") [] epoch = .ok r ∧
    signReport platform (identity 1) (js "node") [] minuteLater = .ok r' ∧
    ¬Latest platform collector [posted r', posted r] := by
  have hlater : delivery platform collector (posted (reportAt minuteLater))
      = some (stored (reportAt minuteLater)) := by decide +kernel
  have hsooner : delivery platform collector (posted (reportAt epoch)) = some (stored (reportAt epoch)) := by
    decide +kernel
  have hdeliveries : deliveriesOf platform collector [posted (reportAt minuteLater), posted (reportAt epoch)]
      (reportAt epoch).node = [stored (reportAt minuteLater), stored (reportAt epoch)] := by
    unfold deliveriesOf
    rw [List.filterMap_cons_some hlater, List.filterMap_cons_some hsooner]
    decide +kernel
  refine ⟨reportAt epoch, reportAt minuteLater, by decide +kernel, by decide +kernel, ?_⟩
  refine @not_latest _ _ _ (reportAt epoch).node (stored (reportAt epoch)) (stored (reportAt minuteLater)) ?_ ?_ ?_
  · rw [hdeliveries]
    rfl
  · rw [hdeliveries]
    exact List.mem_cons_self ..
  · intro hle
    obtain ⟨y, hy, hms⟩ := hle minuteLater (by decide +kernel)
    obtain rfl : epoch = y := Option.some.inj ((show _ = some epoch by decide +kernel).symm.trans hy)
    exact absurd hms (by decide)

end Symbolic

end Island
end VpnPi
