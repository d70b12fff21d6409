import Mathlib.Data.List.Induction
import VpnPi.Island.Messages
import VpnPi.Island.Symbolic

/-!
# `Island.Replay` — no message is appended twice

A message that was let in is remembered as long as its time is in the window (`Remembered` is the invariant):
pruning drops only what is older, a save and a reload keep every id, and a message that is out of the window is
refused by its time. What breaks it is the limit on the number of ids: with 4096 younger ones an id is dropped
while its message is still fresh.

* `exactly_once` — in every run in which no id is dropped that young, no message is appended twice.
* `flood_replayed` — 4096 messages make room for a replay.
-/

namespace VpnPi
namespace Island

open Js Value Async MessageBook

variable {P : Platform} {me : Self}

/-! ## The set of seen ids -/

/-- The ids are stored with numbers, and the logs are arrays of messages. -/
structure MessageBookWF (E : Engine) (b : MessageBook) : Prop where
  logs : MapWF E b.logs
  seen : MapWF E b.seen

theorem isBelow_ofInt {t c : Int} : isBelow (.num (.ofInt t)) c = true ↔ t < c := by
  show (Number.ofInt t).lt c = true ↔ _
  rw [Number.lt_ofInt]
  exact_mod_cast Iff.rfl

theorem get_prune {seen : OrdMap JsString Value} {now : Instant} {id : JsString} {t : Int}
    (h : seen.get id = some (.num (.ofInt t))) (ht : now.ms - maxMsgAgeMs - maxMsgSkewMs ≤ t) :
    (prune seen now).get id = some (.num (.ofInt t)) := by
  refine OrdMap.get_filter.mpr ⟨h, ?_⟩
  rw [Bool.not_eq_true', Bool.eq_false_iff]
  exact fun hbelow => absurd (isBelow_ofInt.mp hbelow) (Int.not_lt.mpr ht)

/-- An id that is not among the evicted ones stays. -/
theorem get_evict {seen : OrdMap JsString Value} {id : JsString} {v : Value} (h : seen.get id = some v)
    (hkeep : (id, v) ∉ evicted seen) : (evict seen).get id = some v := by
  refine OrdMap.mem_entries_iff.mp ?_
  by_contra hnot
  exact hkeep (List.mem_filter.mpr ⟨OrdMap.mem_entries_iff.mpr h, decide_eq_true hnot⟩)

theorem get_of_get_evict {seen : OrdMap JsString Value} {id : JsString} {v : Value}
    (h : (evict seen).get id = some v) : seen.get id = some v :=
  OrdMap.mem_entries_iff.mp ((newest_suffix _ _).subset (OrdMap.mem_entries_iff.mpr h))

theorem MapWF.filter {E : Engine} {m : OrdMap JsString Value} {p : JsString → Value → Bool} (h : MapWF E m) :
    MapWF E (m.filter p) := fun k v hget => h k v (OrdMap.get_filter.mp hget).1

theorem MapWF.evict {E : Engine} {m : OrdMap JsString Value} (h : MapWF E m) : MapWF E (evict m) :=
  fun k v hget => h k v (get_of_get_evict hget)

theorem MapWF.ownOrder {E : Engine} {m : OrdMap JsString Value} (h : MapWF E m) : MapWF E (ownOrder m) := by
  intro k v hget
  rw [get_ownOrder] at hget
  exact h k v hget

theorem ofInt_stored {E : Engine} (t : Instant) : Stored E (.num (.ofInt t.ms)) := by
  have hv := t.valid
  exact ⟨⟨isJsonNumber_intText _, E.toNumber_int (by omega) (by omega)⟩, nofun⟩

/-! ## A request -/

/-- **What a request can do**: be refused and change nothing, or be the first with its id, mark it, and append
    its message or fail to. -/
theorem inbound_cases (q : Inbound) (b : MessageBook) :
    (∃ e, inbound P me q b = (.error e, b)) ∨
    ∃ g, guardInbound P me q = .ok g ∧ b.seen.get g.id = none ∧
      ((∃ e, inbound P me q b = (.error e, (b.markSeen g.id g.ts q.mark).2)) ∨
        ∃ m b', messageOf g.payload = .ok m ∧
          (b.markSeen g.id g.ts q.mark).2.append m.from_
            (storedMessage (js "in") m.from_ m.to_ m.body m.ts) = .ok b' ∧
          inbound P me q b = (.ok m, b')) := by
  unfold inbound
  cases hguard : guardInbound P me q with
  | error e => exact Or.inl ⟨e, rfl⟩
  | ok g =>
      cases hnew : b.seen.get g.id with
      | some v =>
          refine Or.inl ⟨duplicateId, ?_⟩
          have hhas : b.seen.has g.id = true := by rw [OrdMap.has, hnew]; rfl
          simp only [markSeen, if_pos hhas]
      | none =>
          have hhas : ¬b.seen.has g.id = true := by rw [OrdMap.has, hnew]; nofun
          refine Or.inr ⟨g, rfl, hnew, ?_⟩
          simp only [markSeen, if_neg hhas]
          cases hm : messageOf g.payload with
          | error e => exact Or.inl ⟨e, rfl⟩
          | ok m =>
              cases happend : ({ b with seen := (evict (prune b.seen q.mark)).set g.id (.num (.ofInt g.ts.ms)) } :
                  MessageBook).append m.from_ (storedMessage (js "in") m.from_ m.to_ m.body m.ts) with
              | error e =>
                  refine Or.inl ⟨e, ?_⟩
                  simp only [bind, Except.bind, happend]
              | ok b' =>
                  refine Or.inr ⟨m, b', rfl, happend, ?_⟩
                  simp only [bind, Except.bind, happend, pure, Except.pure]

theorem freshTime_ok {payload : Value} {now ts : Instant} (h : freshTime P payload now = .ok ts) :
    (prop payload (js "ts") >>= dateParse P) = .ok (some ts) ∧ now.ms - ts.ms ≤ maxMsgAgeMs := by
  obtain ⟨parsed, hparsed, h⟩ := bind_ok.mp h
  obtain ⟨ts', hts, h⟩ := bind_ok.mp h
  obtain ⟨_, hwindow, h⟩ := bind_ok.mp h
  obtain rfl := Except.ok.inj h
  rw [orThrow_ok] at hts
  rw [hts] at hparsed
  have := failIf_ok.mp hwindow
  rw [not_or, Int.not_lt] at this
  exact ⟨hparsed, this.1⟩

theorem messageId_ok {payload : Value} {id : JsString} (h : messageId payload = .ok id) :
    prop payload (js "id") = .ok (.str id) := by
  obtain ⟨v, hv, h⟩ := bind_ok.mp h
  cases v with
  | str s =>
      obtain ⟨_, _, h⟩ := bind_ok.mp h
      obtain rfl := Except.ok.inj h
      exact hv
  | _ => cases h

/-- The id and the time of a message are those the guard saw. -/
theorem guarded_message {q : Inbound} {g : Guarded} {m : Message} (hg : guardInbound P me q = .ok g)
    (hm : messageOf g.payload = .ok m) :
    m.id = some g.id ∧ P.dateParse m.ts = some g.ts ∧ q.now.ms - g.ts.ms ≤ maxMsgAgeMs := by
  obtain ⟨verify, _, hg⟩ := bind_ok.mp hg
  obtain ⟨blob, _, hg⟩ := bind_ok.mp hg
  obtain ⟨payload, _, hg⟩ := bind_ok.mp hg
  obtain ⟨ts, hts, hg⟩ := bind_ok.mp hg
  obtain ⟨id, hid, hg⟩ := bind_ok.mp hg
  obtain rfl := Except.ok.inj hg
  obtain ⟨hparsed, hage⟩ := freshTime_ok hts
  obtain ⟨v, hv, hm⟩ := bind_ok.mp hm
  obtain ⟨from_, _, hm⟩ := bind_ok.mp hm
  obtain ⟨to_, _, hm⟩ := bind_ok.mp hm
  obtain ⟨body, _, hm⟩ := bind_ok.mp hm
  obtain ⟨text, htext, hm⟩ := bind_ok.mp hm
  obtain rfl := Except.ok.inj hm
  obtain rfl := Except.ok.inj (hv.symm.trans (messageId_ok hid))
  obtain ⟨w, hw, htext⟩ := bind_ok.mp htext
  obtain ⟨w', hw', hparsed⟩ := bind_ok.mp hparsed
  obtain rfl := Except.ok.inj (hw.symm.trans hw')
  obtain ⟨s, hs, hparsed⟩ := bind_ok.mp hparsed
  obtain rfl : text = s := Except.ok.inj (htext.symm.trans hs)
  exact ⟨rfl, Except.ok.inj hparsed, hage⟩

/-! ## The book of a run -/

theorem append_ok {E : Engine} {b b' : MessageBook} {peer : JsString} {m : Value}
    (h : b.append peer m = .ok b') : b'.seen = b.seen ∧
      (MapWF E b.logs → m.WF E → MapWF E b'.logs) := by
  unfold append at h
  split at h
  · next log hlog =>
      obtain rfl := Except.ok.inj h
      refine ⟨rfl, fun hlogs hm => hlogs.set ⟨?_, nofun⟩⟩
      have hwf : (Value.arr log).WF E := by
        rw [← hlog]
        unfold orElse
        split
        · trivial
        · cases hget : b.logs.get peer with
          | none => trivial
          | some v => exact (hlogs peer v hget).1
      have hlist : ∀ x ∈ log, x.WF E := wfList_iff.mp hwf
      refine wfList_iff.mpr fun x hx => ?_
      rcases List.mem_append.mp ((newest_suffix _ _).subset hx) with hx | hx
      · exact hlist x hx
      · rw [List.mem_singleton.mp hx]
        exact hm
  · cases h

theorem storedMessage_wf {E : Engine} (dir from_ to_ body ts : JsString) :
    (storedMessage dir from_ to_ body ts).WF E :=
  ⟨show [js "dir", js "from", js "to", js "body", js "ts"].Nodup by decide, trivial, trivial, trivial, trivial,
    trivial, trivial⟩

theorem markSeen_wf {E : Engine} {b : MessageBook} (h : MessageBookWF E b) (id : JsString) (ts now : Instant) :
    MessageBookWF E (b.markSeen id ts now).2 := by
  unfold markSeen
  split
  · exact h
  · exact ⟨h.logs, h.seen.filter.evict.set (ofInt_stored ts)⟩

theorem fromJSON_eq (logs seen : Value) :
    fromJSON (.obj [(js "logs", logs), (js "seen", seen)])
      = .ok ⟨mapOf (orElse logs (.obj [])), mapOf (orElse seen (.obj []))⟩ := rfl

/-- What a saved file holds of a book. -/
def MessageBook.reloaded (b : MessageBook) : MessageBook :=
  ⟨(ownOrder b.logs).mapVal jsonView, (ownOrder b.seen).mapVal jsonView⟩

theorem MessageBookWF.toJSON_wf {E : Engine} {b : MessageBook} (h : MessageBookWF E b) : b.toJSON.WF E :=
  ⟨show [js "logs", js "seen"].Nodup by decide, h.logs.ownOrder.obj_wf, h.seen.ownOrder.obj_wf, trivial⟩

theorem MessageBook.jsonView_toJSON (b : MessageBook) :
    jsonView b.toJSON = .obj [(js "logs", jsonView (.obj (ownOrder b.logs).entries)),
      (js "seen", jsonView (.obj (ownOrder b.seen).entries))] := by
  rw [toJSON, jsonView, jsonViewFields_eq_map]
  · rfl
  · intro e he
    simp only [List.mem_cons, List.not_mem_nil, or_false] at he
    rcases he with rfl | rfl <;> exact nofun

theorem MessageBook.reload_eq {b : MessageBook} (h : MessageBookWF P.toEngine b) : b.reload P = .ok b.reloaded := by
  unfold reload
  rw [parse_utf8 h.toJSON_wf, jsonView_toJSON, orThrow, bind_ok]
  refine ⟨_, rfl, ?_⟩
  rw [fromJSON_eq, mapOf_view h.logs.ownOrder, mapOf_view h.seen.ownOrder]
  rfl

theorem MessageBookWF.reloaded {E : Engine} {b : MessageBook} (h : MessageBookWF E b) : MessageBookWF E b.reloaded :=
  ⟨h.logs.ownOrder.mapVal, h.seen.ownOrder.mapVal⟩

/-- **A book reloads**, with every id it had. -/
theorem reload_seen {b b' : MessageBook} (h : MessageBookWF P.toEngine b) (hload : b.reload P = .ok b') :
    MessageBookWF P.toEngine b' ∧ ∀ id, b'.seen.get id = (b.seen.get id).map jsonView := by
  rw [MessageBook.reload_eq h] at hload
  obtain rfl := Except.ok.inj hload
  refine ⟨h.reloaded, fun id => ?_⟩
  show ((ownOrder b.seen).mapVal jsonView).get id = _
  rw [OrdMap.get_mapVal, get_ownOrder]

/-! ## Runs -/

def readings (tr : List MessageEvent) : List Instant := tr.flatMap MessageEvent.readings

/-- The clock does not go back. -/
def Ascending (tr : List MessageEvent) : Prop := (readings tr).Pairwise fun s t => s.ms ≤ t.ms

/-- If the request gets to mark an id, no id it evicts for the number of ids is of a message in the window. -/
def Roomy (P : Platform) (me : Self) (b : MessageBook) : MessageEvent → Prop
  | .inbound q _ => ∀ g, guardInbound P me q = .ok g → b.seen.get g.id = none →
      ∀ e ∈ evicted (prune b.seen q.mark), isBelow e.2 (q.mark.ms - maxMsgAgeMs)
  | _ => True

/-- What a message that was let in leaves in the book, until it is out of the window. -/
structure Remembered (P : Platform) (tr : List MessageEvent) (b : MessageBook) : Prop where
  wf   : MessageBookWF P.toEngine b
  kept : ∀ m ∈ ingested tr, ∃ id ts, m.id = some id ∧ P.dateParse m.ts = some ts ∧
    ∀ now : Instant, (∀ r ∈ readings tr, r.ms ≤ now.ms) → now.ms - ts.ms ≤ maxMsgAgeMs →
      b.seen.get id = some (.num (.ofInt ts.ms))
  once : (ingested tr).Nodup

theorem readings_snoc (tr : List MessageEvent) (l : MessageEvent) :
    readings (tr ++ [l]) = readings tr ++ l.readings := by
  unfold readings
  rw [List.flatMap_append, List.flatMap_cons, List.flatMap_nil, List.append_nil]

theorem ingested_snoc (tr : List MessageEvent) (l : MessageEvent) :
    ingested (tr ++ [l]) = ingested tr ++ ingested [l] := List.filterMap_append ..

/-- An event that lets nothing in and forgets nothing. -/
theorem Remembered.frame {tr : List MessageEvent} {b b' : MessageBook} {l : MessageEvent}
    (h : Remembered P tr b) (hwf : MessageBookWF P.toEngine b') (hnone : ingested [l] = [])
    (hseen : ∀ id t, b.seen.get id = some (.num (.ofInt t)) → b'.seen.get id = some (.num (.ofInt t))) :
    Remembered P (tr ++ [l]) b' := by
  refine ⟨hwf, ?_, ?_⟩
  · intro m hm
    rw [ingested_snoc, hnone, List.append_nil] at hm
    obtain ⟨id, ts, hid, hts, hkept⟩ := h.kept m hm
    refine ⟨id, ts, hid, hts, fun now hnow hage => hseen id ts.ms (hkept now (fun r hr => hnow r ?_) hage)⟩
    rw [readings_snoc]
    exact List.mem_append_left _ hr
  · rw [ingested_snoc, hnone, List.append_nil]
    exact h.once

/-- **Marking an id** forgets no message that is in the window. -/
theorem Remembered.marked {tr : List MessageEvent} {b : MessageBook} {q : Inbound} {g : Guarded}
    (h : Remembered P tr b) (reply : Except Exn Message) (hnew : b.seen.get g.id = none)
    (hroom : ∀ e ∈ evicted (prune b.seen q.mark), isBelow e.2 (q.mark.ms - maxMsgAgeMs))
    (hclock : ∀ r ∈ readings tr, r.ms ≤ q.mark.ms) :
    let b' := (b.markSeen g.id g.ts q.mark).2
    b'.seen.get g.id = some (.num (.ofInt g.ts.ms)) ∧
      ∀ m ∈ ingested tr, ∃ id ts, m.id = some id ∧ P.dateParse m.ts = some ts ∧
        ∀ now : Instant, (∀ r ∈ readings (tr ++ [.inbound q reply]), r.ms ≤ now.ms) →
          now.ms - ts.ms ≤ maxMsgAgeMs → b'.seen.get id = some (.num (.ofInt ts.ms)) := by
  have hhas : ¬b.seen.has g.id = true := by rw [OrdMap.has, hnew]; nofun
  have hbook : (b.markSeen g.id g.ts q.mark).2.seen
      = (evict (prune b.seen q.mark)).set g.id (.num (.ofInt g.ts.ms)) := by
    unfold markSeen
    rw [if_neg hhas]
  dsimp only
  rw [hbook]
  refine ⟨OrdMap.get_set_self _ _ _, fun m hm => ?_⟩
  obtain ⟨id, ts, hid, hts, hkept⟩ := h.kept m hm
  refine ⟨id, ts, hid, hts, fun now hnow hage => ?_⟩
  have hmark : q.mark.ms ≤ now.ms := by
    refine hnow q.mark ?_
    rw [readings_snoc]
    exact List.mem_append_right _ (by simp [MessageEvent.readings])
  -- the message was in the window at the time of the marking, too
  have hwindow : q.mark.ms - ts.ms ≤ maxMsgAgeMs := by omega
  have hold := hkept q.mark hclock hwindow
  have hne : id ≠ g.id := by
    intro heq
    rw [heq, hnew] at hold
    cases hold
  have hskew : (0 : Int) ≤ maxMsgSkewMs := by decide
  rw [OrdMap.get_set_ne hne]
  refine get_evict (get_prune hold (by omega)) fun hevicted => ?_
  have hbelow := isBelow_ofInt.mp (hroom _ hevicted)
  omega

theorem MessageStep.remembered {tr : List MessageEvent} {b b' : MessageBook} {l : MessageEvent}
    (h : MessageStep P me b l b') (hroom : Roomy P me b l) (hclock : Ascending (tr ++ [l]))
    (hi : Remembered P tr b) : Remembered P (tr ++ [l]) b' := by
  have hpast : ∀ r ∈ readings tr, ∀ s ∈ l.readings, r.ms ≤ s.ms := by
    unfold Ascending at hclock
    rw [readings_snoc] at hclock
    exact (List.pairwise_append.mp hclock).2.2
  cases h with
  | sent happend =>
      obtain ⟨hseen, hlogs⟩ := append_ok (E := P.toEngine) happend
      refine hi.frame ⟨hlogs hi.wf.logs (storedMessage_wf ..), ?_⟩ rfl fun id t hget => ?_
      · rw [hseen]; exact hi.wf.seen
      · rw [hseen]; exact hget
  | reload hload =>
      obtain ⟨hwf, hseen⟩ := reload_seen hi.wf hload
      refine hi.frame hwf rfl fun id t hget => ?_
      rw [hseen, hget]
      rfl
  | inbound q =>
      rcases inbound_cases q b with ⟨e, heq⟩ | ⟨g, hg, hnew, heq⟩
      · rw [heq]
        exact hi.frame hi.wf rfl fun _ _ hget => hget
      · -- past the guard the id is marked, whether the append succeeds or not
        have hmark : ∀ r ∈ readings tr, r.ms ≤ q.mark.ms :=
          fun r hr => hpast r hr q.mark (by simp [MessageEvent.readings])
        have hwf := markSeen_wf hi.wf g.id g.ts q.mark
        rcases heq with ⟨e, heq⟩ | ⟨m, b', hm, happend, heq⟩
        · rw [heq]
          obtain ⟨_, hkept⟩ := hi.marked (.error e) hnew (hroom g hg hnew) hmark
          refine ⟨hwf, fun m hm => ?_, ?_⟩
          · rw [ingested_snoc] at hm
            exact hkept m ((List.mem_append.mp hm).resolve_right List.not_mem_nil)
          · rw [ingested_snoc]
            exact (List.append_nil (ingested tr)).symm ▸ hi.once
        · rw [heq]
          obtain ⟨hself, hkept⟩ := hi.marked (.ok m) hnew (hroom g hg hnew) hmark
          obtain ⟨hseen, hlogs⟩ := append_ok (E := P.toEngine) happend
          obtain ⟨hid, hts, hage⟩ := guarded_message hg hm
          refine ⟨⟨hlogs hwf.logs (storedMessage_wf ..), hseen ▸ hwf.seen⟩, fun m' hm' => ?_, ?_⟩
          · rw [ingested_snoc] at hm'
            rw [hseen]
            rcases List.mem_append.mp hm' with hm' | hm'
            · exact hkept m' hm'
            · obtain rfl := List.mem_singleton.mp hm'
              exact ⟨g.id, g.ts, hid, hts, fun _ _ _ => hself⟩
          · rw [ingested_snoc]
            refine List.nodup_append.mpr ⟨hi.once, List.nodup_singleton m, fun m₁ hm₁ m₂ hm₂ hsame => ?_⟩
            obtain rfl := List.mem_singleton.mp hm₂
            subst hsame
            -- a message that was let in before has its id in the book
            obtain ⟨id, ts, hid', hts', hold⟩ := hi.kept _ hm₁
            obtain rfl : g.id = id := Option.some.inj (hid.symm.trans hid')
            obtain rfl : g.ts = ts := Option.some.inj (hts.symm.trans hts')
            have hnow : ∀ r ∈ readings tr, r.ms ≤ q.now.ms :=
              fun r hr => hpast r hr q.now (by simp [MessageEvent.readings])
            rw [hold q.now hnow hage] at hnew
            cases hnew

/-- **Every message once.** In a run in which the clock does not go back and no id is dropped whose message is in
    the window, no message is appended twice. -/
theorem exactly_once (P : Platform) (me : Self) {tr : List MessageEvent} {b : MessageBook}
    (run : Run (Where (MessageStep P me) (Roomy P me)) .empty tr b) (hclock : Ascending tr) :
    (ingested tr).Nodup := by
  have hinv : Ascending tr → Remembered P tr b := by
    refine run.invariant (I := fun tr b => Ascending tr → Remembered P tr b) ?_ ?_
    · intro _
      exact ⟨⟨.empty, .empty⟩, nofun, List.nodup_nil⟩
    · intro tr b l b' _ ih h hclock
      refine h.1.remembered h.2 hclock (ih ?_)
      unfold Ascending at hclock
      rw [readings_snoc] at hclock
      exact (List.pairwise_append.mp hclock).1
  exact (hinv hclock).once

/-! ## A flood -/

theorem newest_of_le {α : Type} {limit : Nat} {xs : List α} (h : xs.length ≤ limit) : newest limit xs = xs := by
  cases xs with
  | nil => rfl
  | cons x xs => rw [newest, if_neg (Nat.not_lt.mpr h)]

theorem newest_map {α β : Type} (f : α → β) (limit : Nat) (xs : List α) :
    newest limit (xs.map f) = (newest limit xs).map f := by
  induction xs with
  | nil => rfl
  | cons x xs ih =>
      rw [List.map_cons, newest, newest, ← List.map_cons, List.length_map, ih]
      split <;> rfl

namespace Symbolic

/-- The payload of a message of node 1 to node 2. -/
def letter (uuid : JsString) : Value :=
  .obj [(js "typ", .str (js "message")), (js "id", .str uuid), (js "node", .str (toHex [1])),
    (js "to", .str (toHex [2])), (js "body", .str (js "hi")), (js "ts", .str (isoString epoch))]

def message (uuid : JsString) : Message := ⟨some uuid, toHex [1], toHex [2], js "hi", isoString epoch⟩

/-- What node 1 sends. -/
def post (uuid : JsString) : JsString :=
  ((sealMessage platform (identity 1) (peerPubOf platform (node 2)) (js "hi") uuid [] epoch).toOption).getD []

theorem letter_wf (uuid : JsString) : (letter uuid).WF platform.toEngine :=
  ⟨show [js "typ", js "id", js "node", js "to", js "body", js "ts"].Nodup by decide, trivial, trivial, trivial,
    trivial, trivial, trivial, trivial⟩

theorem letter_sealed (uuid : JsString) : ∃ blob,
    sealSign platform (letter uuid) (identity 1).edSecret (node 2).id.xPublic [] = .ok blob ∧
    sealMessage platform (identity 1) (peerPubOf platform (node 2)) (js "hi") uuid [] epoch
      = .ok (toHex blob) := ⟨_, rfl, rfl⟩

/-- Its delivery at node 2. -/
def delivered (uuid : JsString) : Inbound := ⟨.obj [(js "blob", .str (post uuid))], befriended, epoch, epoch⟩

theorem friend_resolved : ∃ verify, verifyKeyResolver platform befriended = .ok verify ∧
    verify (toHex [1]) = some [1] := ⟨_, rfl, by decide +kernel⟩

theorem letter_opened (uuid : JsString) {verify : VerifyKeyFor} (h : verify (toHex [1]) = some [1]) :
    messagePayload platform (node 2).id (post uuid) verify = .ok (sortKeys (letter uuid)) := by
  obtain ⟨blob, hseal, hblob⟩ := letter_sealed uuid
  have hpost : post uuid = toHex blob := by rw [post, hblob]; rfl
  have hopen : openVerify platform blob (node 2).id.xPublic (node 2).id.xPrivate verify
      = .ok (sortKeys (letter uuid)) := by
    refine openVerify_sealSign (letter_wf uuid) hseal ?_ (fun _ => fromHex_toHex _) rfl h ?_
    · intro inner hinner
      obtain rfl := Option.some.inj hinner
      rfl
    · intro msg
      exact congrArg some (decide_eq_true rfl)
  refine bind_ok.mpr ⟨blob, hpost ▸ fromB64_toHex blob, ?_⟩
  refine bind_ok.mpr ⟨_, hopen, ?_⟩
  refine bind_ok.mpr ⟨_, prop_sortKeys (letter_wf uuid) rfl, ?_⟩
  refine bind_ok.mpr ⟨(), rfl, ?_⟩
  refine bind_ok.mpr ⟨_, prop_sortKeys (letter_wf uuid) rfl, ?_⟩
  exact bind_ok.mpr ⟨(), failIf_ok.mpr (not_not_intro rfl), rfl⟩

theorem delivered_guarded {uuid : JsString} (h : uuid ≠ []) :
    guardInbound platform (node 2) (delivered uuid) = .ok ⟨sortKeys (letter uuid), uuid, epoch⟩ := by
  obtain ⟨verify, hverify, hkey⟩ := friend_resolved
  refine bind_ok.mpr ⟨verify, hverify, bind_ok.mpr ⟨post uuid, rfl, ?_⟩⟩
  refine bind_ok.mpr ⟨_, letter_opened uuid hkey, bind_ok.mpr ⟨epoch, ?_, ?_⟩⟩
  · refine bind_ok.mpr ⟨some epoch, ?_, rfl⟩
    have hparse : dateParse platform (.str (isoString epoch)) = .ok (some epoch) := by decide +kernel
    exact bind_ok.mpr ⟨_, prop_sortKeys (letter_wf uuid) rfl, hparse⟩
  · refine bind_ok.mpr ⟨uuid, ?_, rfl⟩
    refine bind_ok.mpr ⟨.str uuid, prop_sortKeys (letter_wf uuid) rfl, ?_⟩
    exact bind_ok.mpr ⟨(), failIf_ok.mpr h, rfl⟩

theorem message_read (uuid : JsString) : messageOf (sortKeys (letter uuid)) = .ok (message uuid) := by
  have hprop {k : JsString} {w : Value} (h : prop (letter uuid) k = .ok w) :
      prop (sortKeys (letter uuid)) k = .ok (sortKeys w) := prop_sortKeys (letter_wf uuid) h
  refine bind_ok.mpr ⟨.str uuid, hprop rfl, bind_ok.mpr ⟨_, bind_ok.mpr ⟨_, hprop rfl, rfl⟩, ?_⟩⟩
  refine bind_ok.mpr ⟨_, bind_ok.mpr ⟨_, hprop rfl, rfl⟩, bind_ok.mpr ⟨_, bind_ok.mpr ⟨_, hprop rfl, rfl⟩, ?_⟩⟩
  exact bind_ok.mpr ⟨_, bind_ok.mpr ⟨_, hprop rfl, rfl⟩, rfl⟩

/-- The book holds the ids, all of the epoch, and a log of node 1 if there is one. -/
structure Heard (uuids : List JsString) (b : MessageBook) : Prop where
  seen : b.seen.entries = uuids.map fun uuid => (uuid, .num (.ofInt epoch.ms))
  log  : ∃ log, orElse ((b.logs.get (toHex [1])).getD .undefined) (.arr []) = .arr log

/-- Nothing is pruned at the epoch. -/
theorem heard_prune {seen : OrdMap JsString Value} {uuids : List JsString}
    (h : seen.entries = uuids.map fun uuid => (uuid, .num (.ofInt epoch.ms))) :
    (prune seen epoch).entries = seen.entries := by
  refine List.filter_eq_self.mpr fun e he => ?_
  rw [h] at he
  obtain ⟨u, _, rfl⟩ := List.mem_map.mp he
  show (!isBelow (.num (.ofInt epoch.ms)) (epoch.ms - maxMsgAgeMs - maxMsgSkewMs)) = true
  decide +kernel

/-- All but the youngest 4095 ids make room for the new one. -/
theorem heard_next {seen : OrdMap JsString Value} {uuids : List JsString} {uuid : JsString}
    (h : seen.entries = uuids.map fun uuid => (uuid, .num (.ofInt epoch.ms))) (hnew : uuid ∉ uuids) :
    ((evict (prune seen epoch)).set uuid (.num (.ofInt epoch.ms))).entries
      = (newest (maxSeenIds - 1) uuids ++ [uuid]).map fun uuid => (uuid, .num (.ofInt epoch.ms)) := by
  have hevict : (evict (prune seen epoch)).entries
      = (newest (maxSeenIds - 1) uuids).map fun uuid => (uuid, .num (.ofInt epoch.ms)) := by
    rw [← newest_map, ← h, ← heard_prune h]
    rfl
  have hfresh : uuid ∉ (evict (prune seen epoch)).entries.map Prod.fst := by
    rw [hevict, List.map_map]
    intro hmem
    obtain ⟨u, hu, rfl⟩ := List.mem_map.mp hmem
    exact hnew ((newest_suffix _ _).subset hu)
  show OrdMap.setEntry _ _ _ = _
  rw [OrdMap.setEntry_of_not_mem hfresh, hevict, List.map_append]
  rfl

/-- **A letter with a new id** is appended and remembered. -/
theorem letter_heard {b : MessageBook} {uuids : List JsString} {uuid : JsString} (h : Heard uuids b)
    (hne : uuid ≠ []) (hnew : uuid ∉ uuids) : ∃ b',
      MessageStep platform (node 2) b (.inbound (delivered uuid) (.ok (message uuid))) b' ∧
      Heard (newest (maxSeenIds - 1) uuids ++ [uuid]) b' := by
  obtain ⟨log, hlog⟩ := h.log
  have hget : b.seen.get uuid = none := by
    by_contra hget
    obtain ⟨v, hv⟩ := Option.ne_none_iff_exists'.mp hget
    have hmem := OrdMap.mem_entries_iff.mpr hv
    rw [h.seen] at hmem
    obtain ⟨u, hu, heq⟩ := List.mem_map.mp hmem
    exact hnew ((Prod.mk.inj heq).1 ▸ hu)
  have hhas : ¬b.seen.has uuid = true := by rw [OrdMap.has, hget]; nofun
  have hinbound : inbound platform (node 2) (delivered uuid) b = (.ok (message uuid),
      ⟨b.logs.set (toHex [1]) (.arr (newest maxPerPeer
        (log ++ [storedMessage (js "in") (toHex [1]) (toHex [2]) (js "hi") (isoString epoch)]))),
      (evict (prune b.seen epoch)).set uuid (.num (.ofInt epoch.ms))⟩) := by
    unfold inbound
    rw [delivered_guarded hne]
    simp only [markSeen, if_neg hhas, message_read, bind, Except.bind, append, message, hlog, pure, Except.pure]
    rfl
  have hstep := @MessageStep.inbound platform (node 2) (delivered uuid) b
  rw [hinbound] at hstep
  refine ⟨_, hstep, ⟨heard_next h.seen hnew, ?_⟩⟩
  rw [OrdMap.get_set_self]
  exact ⟨_, rfl⟩

/-- Letters of node 1 and nothing else, all at the epoch. -/
def OnlyLetters (tr : List MessageEvent) : Prop := ∀ e ∈ tr, ∃ uuid reply, e = .inbound (delivered uuid) reply

theorem OnlyLetters.snoc {tr : List MessageEvent} (h : OnlyLetters tr) (uuid : JsString)
    (reply : Except Exn Message) : OnlyLetters (tr ++ [.inbound (delivered uuid) reply]) := by
  intro e he
  rcases List.mem_append.mp he with he | he
  · exact h e he
  · exact ⟨uuid, reply, List.mem_singleton.mp he⟩

theorem OnlyLetters.ascending {tr : List MessageEvent} (h : OnlyLetters tr) : Ascending tr := by
  have hepoch : ∀ r ∈ readings tr, r = epoch := by
    intro r hr
    obtain ⟨e, he, hr⟩ := List.mem_flatMap.mp hr
    obtain ⟨uuid, reply, rfl⟩ := h e he
    simpa [MessageEvent.readings, delivered] using hr
  refine List.pairwise_of_forall_mem_list fun r hr r' hr' => ?_
  rw [hepoch r hr, hepoch r' hr']

/-- As many letters as there is room for, one after the other. -/
theorem letters_heard {uuids : List JsString} (hnd : uuids.Nodup) (hne : [] ∉ uuids)
    (hlen : uuids.length ≤ maxSeenIds) : ∃ tr b, Run (MessageStep platform (node 2)) .empty tr b ∧
      OnlyLetters tr ∧ ingested tr = uuids.map message ∧ Heard uuids b := by
  induction uuids using List.reverseRecOn with
  | nil => exact ⟨[], .empty, .nil, fun _ h => absurd h List.not_mem_nil, rfl, rfl, [], rfl⟩
  | append_singleton uuids uuid ih =>
      rw [List.length_append, List.length_singleton] at hlen
      obtain ⟨hnd, _, hfresh⟩ := List.nodup_append.mp hnd
      obtain ⟨tr, b, run, hletters, hin, hb⟩ := ih hnd (fun h => hne (List.mem_append_left _ h)) (by omega)
      obtain ⟨b', hstep, hb'⟩ := letter_heard hb
        (fun h => hne (List.mem_append_right _ (List.mem_singleton.mpr h.symm)))
        (fun h => hfresh uuid h uuid (List.mem_singleton_self _) rfl)
      rw [newest_of_le (Nat.le_sub_one_of_lt hlen)] at hb'
      refine ⟨_, b', run.snoc hstep, hletters.snoc uuid _, ?_, hb'⟩
      rw [ingested_snoc, hin, List.map_append]
      rfl

/-- With as many letters in the book as there is room for, one more makes it forget the first. -/
theorem first_forgotten {first last : JsString} {rest : List JsString} (hnd : (first :: rest ++ [last]).Nodup)
    (hne : [] ∉ first :: rest ++ [last]) (hlen : (first :: rest).length = maxSeenIds) :
    ∃ tr b, Run (MessageStep platform (node 2)) .empty tr b ∧ OnlyLetters tr ∧
      ingested tr = (first :: rest ++ [last]).map message ∧ Heard (rest ++ [last]) b := by
  obtain ⟨hnd, _, hfresh⟩ := List.nodup_append.mp hnd
  obtain ⟨tr, b, run, hletters, hin, hb⟩ := letters_heard hnd (fun h => hne (List.mem_append_left _ h)) hlen.le
  obtain ⟨b', hstep, hb'⟩ := letter_heard hb
    (fun h => hne (List.mem_append_right _ (List.mem_singleton.mpr h.symm)))
    (fun h => hfresh last h last (List.mem_singleton_self _) rfl)
  have hrest : newest (maxSeenIds - 1) (first :: rest) = rest := by
    rw [newest, hlen, if_pos (by decide), newest_of_le]
    rw [← hlen, List.length_cons, Nat.add_sub_cancel]
  rw [hrest] at hb'
  refine ⟨_, b', run.snoc hstep, hletters.snoc last _, ?_, hb'⟩
  rw [ingested_snoc, hin, List.map_append]
  rfl

/-- 4097 letters, and then the first of them again, which is let in. -/
theorem flood_replayed : ∃ tr b, Run (MessageStep platform (node 2)) .empty tr b ∧ OnlyLetters tr ∧
    Ascending tr ∧ ¬(ingested tr).Nodup := by
  have hinj : Function.Injective natText := fun m n h => by
    rw [← digitsValue_natText m, h, digitsValue_natText]
  have hids : (List.range (maxSeenIds + 1)).map natText
      = natText 0 :: (List.range' 1 (maxSeenIds - 1)).map natText ++ [natText maxSeenIds] := by
    rw [List.range_succ, List.range_eq_range', List.map_append]
    rfl
  have hnd : ((List.range (maxSeenIds + 1)).map natText).Nodup := List.nodup_range.map hinj
  have hne : [] ∉ (List.range (maxSeenIds + 1)).map natText := by
    intro h
    obtain ⟨n, _, hn⟩ := List.mem_map.mp h
    exact natText_ne_nil n hn
  rw [hids] at hnd hne
  obtain ⟨tr, b, run, hletters, hin, hb⟩ := first_forgotten hnd hne (by simp [maxSeenIds])
  obtain ⟨b', hstep, _⟩ := letter_heard hb (natText_ne_nil 0) (List.nodup_cons.mp hnd).1
  have hagain := hletters.snoc (natText 0) (.ok (message (natText 0)))
  refine ⟨_, b', run.snoc hstep, hagain, hagain.ascending, fun hnodup => ?_⟩
  rw [ingested_snoc, hin] at hnodup
  exact (List.nodup_append.mp hnodup).2.2 _ (List.mem_cons_self ..) _ (List.mem_singleton_self _) rfl

theorem Heard.roomy {uuids : List JsString} {b : MessageBook} (h : Heard uuids b)
    (hlen : uuids.length < maxSeenIds) (uuid : JsString) (reply : Except Exn Message) :
    Roomy platform (node 2) b (.inbound (delivered uuid) reply) := by
  intro _ _ _ e he
  obtain ⟨hmem, hout⟩ := List.mem_filter.mp he
  have hroom : (prune b.seen epoch).entries.length ≤ maxSeenIds - 1 := by
    rw [heard_prune h.seen, h.seen, List.length_map]
    exact Nat.le_sub_one_of_lt hlen
  refine absurd ?_ (of_decide_eq_true hout)
  show e ∈ newest (maxSeenIds - 1) (prune b.seen epoch).entries
  rw [newest_of_le hroom]
  exact hmem

/-- A letter whose id is in the book is refused. -/
theorem letter_refused {b : MessageBook} {uuids : List JsString} {uuid : JsString} (h : Heard uuids b)
    (hne : uuid ≠ []) (hmem : uuid ∈ uuids) :
    MessageStep platform (node 2) b (.inbound (delivered uuid) (.error duplicateId)) b := by
  have hget : b.seen.get uuid = some (.num (.ofInt epoch.ms)) := by
    rw [← OrdMap.mem_entries_iff, h.seen]
    exact List.mem_map_of_mem hmem
  have hhas : b.seen.has uuid = true := by rw [OrdMap.has, hget]; rfl
  have hinbound : inbound platform (node 2) (delivered uuid) b = (.error duplicateId, b) := by
    unfold inbound
    rw [delivered_guarded hne]
    simp only [markSeen, if_pos hhas]
  have hstep := @MessageStep.inbound platform (node 2) (delivered uuid) b
  rw [hinbound] at hstep
  exact hstep

/-- The letter with id 7 and its replay. -/
theorem seven_once : ∃ tr b, Run (Where (MessageStep platform (node 2)) (Roomy platform (node 2))) .empty tr b ∧
    Ascending tr ∧ tr.length = 2 ∧ ingested tr = [message (natText 7)] ∧ (ingested tr).Nodup := by
  have hempty : Heard [] .empty := ⟨rfl, [], rfl⟩
  obtain ⟨b, hstep, hb⟩ := letter_heard hempty (natText_ne_nil 7) List.not_mem_nil
  have hagain := letter_refused hb (natText_ne_nil 7) (List.mem_append_right _ (List.mem_singleton_self _))
  have hletters : OnlyLetters ([] ++ [.inbound (delivered (natText 7)) (.ok (message (natText 7)))]) :=
    OnlyLetters.snoc (fun _ h => absurd h List.not_mem_nil) _ _
  have run := ((@Run.nil _ _ (Where (MessageStep platform (node 2)) (Roomy platform (node 2))) .empty).snoc
    ⟨hstep, hempty.roomy (by decide) _ _⟩).snoc ⟨hagain, hb.roomy (by decide) _ _⟩
  have hclock := (hletters.snoc (natText 7) (.error duplicateId)).ascending
  exact ⟨_, b, run, hclock, rfl, rfl, exactly_once platform (node 2) run hclock⟩

end Symbolic

end Island
end VpnPi
