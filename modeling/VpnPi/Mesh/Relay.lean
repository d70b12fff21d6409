import VpnPi.Async.Numbered
import VpnPi.Async.Service
import VpnPi.Async.Trace

/-!
# `Mesh.Relay` — the hub's buffer of sealed alerts (`app/relay.py`)

Nodes deposit opaque blobs, the master drains them page by page from the highest id it has seen, and beyond `cap`
rows the oldest are evicted. The table is taken with what its schema promises: `AUTOINCREMENT` numbers the rows
consecutively, and each call is one transaction.

* `rows_eq` — the table holds the newest `cap` deposits, under their numbers;
* `relay_paging` — a reader gets, in order and once each, what was deposited up to its cursor and not evicted ahead
  of it.
-/

namespace VpnPi
namespace Mesh

open Async

/-! ## The buffer -/

/-- One sealed alert as deposited by a node. -/
structure RelayDeposit where
  node : String
  seq  : Int
  ct   : String
  deriving DecidableEq

structure RelayRow extends RelayDeposit where
  id       : Nat
  received : String

/-- A drain response: the blobs, and the cursor to ask from next. -/
structure RelayBatch where
  cursor : Nat
  blobs  : List RelayDeposit

/-- The table in the order of its ids, and the largest id it ever gave out. -/
structure RelayBuffer where
  rows     : List RelayRow
  sequence : Nat
  cap      : Nat

/-- `SELECT MAX(id)`. -/
def maxId (rows : List RelayRow) : Nat := (rows.map RelayRow.id).foldr max 0

namespace RelayBuffer

def new (cap : Nat) : RelayBuffer := ⟨[], 0, cap⟩

/-- Append one blob and keep only the newest `cap` rows; returns its id. -/
def deposit (b : RelayBuffer) (now : String) (d : RelayDeposit) : Nat × RelayBuffer :=
  let newId := b.sequence + 1
  let rows := b.rows ++ [⟨d, newId, now⟩]
  (newId, { b with rows := rows.filter fun r => ¬(r.id : Int) ≤ maxId rows - b.cap, sequence := newId })

/-- At most `limit` blobs with an id above `since`. -/
def drain (b : RelayBuffer) (since limit : Nat) : RelayBatch :=
  let rows := (b.rows.filter fun r => since < r.id).take limit
  ⟨(rows.getLast?.map RelayRow.id).getD since, rows.map RelayRow.toRelayDeposit⟩

end RelayBuffer

/-! ## Depositors and a reader -/

inductive RelayCall where
  | deposit (now : String) (d : RelayDeposit)
  | drain (limit : Nat)

/-- What a call was answered: an id, or a batch. -/
inductive RelayReply where
  | stored (id : Nat)
  | batch (blobs : List RelayDeposit)

/-- The buffer, and the cursor of the reader. -/
structure Session where
  buffer : RelayBuffer
  cursor : Nat

def Session.new (cap : Nat) : Session := ⟨.new cap, 0⟩

/-- The reader drains from its last cursor. -/
def Session.call : Service Session RelayCall RelayReply
  | s, .deposit now d =>
      let stored := s.buffer.deposit now d
      (.stored stored.1, { s with buffer := stored.2 })
  | s, .drain limit =>
      let batch := s.buffer.drain s.cursor limit
      (.batch batch.blobs, { s with cursor := batch.cursor })

def depositOf : RelayCall → List RelayDeposit
  | .deposit _ d => [d]
  | .drain _ => []

def blobsOf : RelayReply → List RelayDeposit
  | .stored _ => []
  | .batch blobs => blobs

/-- What was deposited, in order. -/
def deposits (calls : List RelayCall) : List RelayDeposit := calls.flatMap depositOf

/-- The drained batches, one after the other. -/
def drained (cap : Nat) (calls : List RelayCall) : List RelayDeposit :=
  (replies Session.call (.new cap) calls).flatMap blobsOf

/-- The state after the calls. -/
abbrev sessionAfter (cap : Nat) (calls : List RelayCall) : Session := after Session.call (.new cap) calls

@[simp] theorem deposits_snoc (calls : List RelayCall) (c : RelayCall) :
    deposits (calls ++ [c]) = deposits calls ++ depositOf c := by
  rw [deposits, List.flatMap_append]
  exact congrArg _ (List.append_nil _)

theorem drained_snoc (cap : Nat) (calls : List RelayCall) (c : RelayCall) :
    drained cap (calls ++ [c]) = drained cap calls ++ blobsOf ((sessionAfter cap calls).call c).1 := by
  rw [drained, replies_snoc, List.flatMap_append]
  exact congrArg _ (List.append_nil _)

/-! ## What the table holds -/

/-- A row as an entry of the log of deposits. -/
def RelayRow.entry (r : RelayRow) : RelayDeposit × Nat := (r.toRelayDeposit, r.id)

theorem filter_entry (rows : List RelayRow) (p : Nat → Bool) :
    (rows.filter fun r => p r.id).map RelayRow.entry = (rows.map RelayRow.entry).filter fun e => p e.2 := by
  rw [List.filter_map]
  rfl

theorem maxId_concat {rows : List RelayRow} {r : RelayRow} (h : ∀ r' ∈ rows, r'.id ≤ r.id) :
    maxId (rows ++ [r]) = r.id := by
  induction rows with
  | nil => exact Nat.max_eq_left (Nat.zero_le _)
  | cons a rows ih =>
      obtain ⟨ha, hrows⟩ := List.forall_mem_cons.mp h
      show max a.id (maxId (rows ++ [r])) = r.id
      rw [ih hrows, Nat.max_eq_right ha]

/-- The table of `n` deposits: all but the oldest `n - cap`. -/
structure Holds (cap : Nat) (ds : List RelayDeposit) (b : RelayBuffer) : Prop where
  rows     : b.rows.map RelayRow.entry = (numbered ds).drop (ds.length - cap)
  sequence : b.sequence = ds.length
  cap      : b.cap = cap

theorem Holds.new (cap : Nat) : Holds cap [] (.new cap) := ⟨List.drop_nil.symm, rfl, rfl⟩

theorem Holds.id_le {cap : Nat} {ds : List RelayDeposit} {b : RelayBuffer} (h : Holds cap ds b) {r : RelayRow}
    (hr : r ∈ b.rows) : r.id ≤ ds.length := by
  have hmem : r.id ∈ ((numbered ds).drop (ds.length - cap)).map Prod.snd := by
    rw [← h.rows, List.map_map]
    exact List.mem_map_of_mem hr
  rw [map_snd_drop, List.mem_range'_1] at hmem
  omega

/-- **A deposit evicts exactly the oldest.** -/
theorem Holds.deposit {cap : Nat} {ds : List RelayDeposit} {b : RelayBuffer} (h : Holds cap ds b) (now : String)
    (d : RelayDeposit) : Holds cap (ds ++ [d]) (b.deposit now d).2 := by
  have hle : ∀ r ∈ b.rows, r.id ≤ (⟨d, b.sequence + 1, now⟩ : RelayRow).id := by
    intro r hr
    rw [h.sequence]
    exact Nat.le_succ_of_le (h.id_le hr)
  have hmax : maxId (b.rows ++ [(⟨d, b.sequence + 1, now⟩ : RelayRow)]) = ds.length + 1 :=
    (maxId_concat hle).trans (congrArg (· + 1) h.sequence)
  refine ⟨?_, ?_, h.cap⟩
  · have hentries : (b.rows ++ [(⟨d, b.sequence + 1, now⟩ : RelayRow)]).map RelayRow.entry
        = (numbered (ds ++ [d])).drop (ds.length - cap) := by
      rw [List.map_append, h.rows, numbered_concat, List.drop_append_of_le_length (by simp), h.sequence]
      rfl
    show (List.filter _ _).map RelayRow.entry = _
    rw [hmax, h.cap, filter_entry _ fun i => ¬(i : Int) ≤ (ds.length + 1 : Nat) - cap, hentries, List.length_append,
      List.length_singleton]
    have hcut := filter_drop_numbered (ds ++ [d]) (ds.length - cap) (ds.length + 1 - cap)
    rw [show max (ds.length - cap) (ds.length + 1 - cap) = ds.length + 1 - cap by omega] at hcut
    rw [← hcut]
    refine List.filter_congr fun e he => ?_
    rw [decide_eq_decide]
    have hpos : 1 ≤ e.2 := (mem_numbered.mp (List.mem_of_mem_drop he)).1
    omega
  · show b.sequence + 1 = _
    rw [h.sequence, List.length_append, List.length_singleton]

/-- A page is the part of the log from where the reader, or the table, begins. -/
theorem Holds.drain {cap : Nat} {ds : List RelayDeposit} {b : RelayBuffer} (h : Holds cap ds b) (since limit : Nat) :
    ((b.rows.filter fun r => since < r.id).take limit).map RelayRow.entry
      = ((numbered ds).drop (max (ds.length - cap) since)).take limit := by
  rw [List.map_take, filter_entry _ fun i => since < i, h.rows, filter_drop_numbered]

theorem Holds.drain_blobs {cap : Nat} {ds : List RelayDeposit} {b : RelayBuffer} (h : Holds cap ds b)
    (since limit : Nat) : (b.drain since limit).blobs = (ds.drop (max (ds.length - cap) since)).take limit := by
  have hpage := congrArg (List.map Prod.fst) (h.drain since limit)
  simp only [List.map_take, List.map_drop, List.map_map, numbered, List.zipIdx_map_fst] at hpage
  show (List.take limit _).map RelayRow.toRelayDeposit = _
  rw [List.map_take]
  exact hpage

/-- The last number of a page. -/
theorem getLast_range' (a k since : Nat) :
    ((List.range' (a + 1) k).getLast?).getD since = if k = 0 then since else a + k := by
  cases k with
  | zero => rfl
  | succ k =>
      rw [if_neg (Nat.succ_ne_zero k), List.range'_concat, List.getLast?_concat, Option.getD_some]
      omega

/-- The cursor of a page: its last number, or the cursor it was asked from. -/
theorem Holds.drain_cursor {cap : Nat} {ds : List RelayDeposit} {b : RelayBuffer} (h : Holds cap ds b)
    (since limit : Nat) : (b.drain since limit).cursor =
      if min limit (ds.length - max (ds.length - cap) since) = 0 then since
      else max (ds.length - cap) since + min limit (ds.length - max (ds.length - cap) since) := by
  have hids := congrArg (List.map Prod.snd) (h.drain since limit)
  rw [List.map_map, map_snd_page] at hids
  show ((List.getLast? _).map RelayRow.id).getD _ = _
  rw [← List.getLast?_map, ← getLast_range']
  exact congrArg (fun ids => (List.getLast? ids).getD since) hids

theorem Holds.mem_of_drain {cap : Nat} {ds : List RelayDeposit} {b : RelayBuffer} (h : Holds cap ds b)
    {since limit : Nat} {d : RelayDeposit} (hd : d ∈ (b.drain since limit).blobs) : d ∈ ds := by
  rw [h.drain_blobs] at hd
  exact List.mem_of_mem_drop (List.mem_of_mem_take hd)

/-- **The newest `cap` deposits**, in every state. -/
theorem holds_after (cap : Nat) (calls : List RelayCall) :
    Holds cap (deposits calls) (sessionAfter cap calls).buffer := by
  induction calls using List.reverseRecOn with
  | nil => exact .new cap
  | append_singleton calls c ih =>
      rw [deposits_snoc, sessionAfter, after_snoc]
      cases c with
      | deposit now d => exact ih.deposit now d
      | drain limit =>
          rw [depositOf, List.append_nil]
          exact ih

theorem rows_eq (cap : Nat) (calls : List RelayCall) :
    (sessionAfter cap calls).buffer.rows.map RelayRow.toRelayDeposit
      = (deposits calls).drop ((deposits calls).length - cap) := by
  have hrows := congrArg (List.map Prod.fst) (holds_after cap calls).rows
  rw [List.map_map, List.map_drop, numbered, List.zipIdx_map_fst] at hrows
  exact hrows

/-- Which of the numbers given out are still in the table. -/
theorem Holds.mem_ids {cap : Nat} {ds : List RelayDeposit} {b : RelayBuffer} (h : Holds cap ds b) (i : Nat) :
    (∃ r ∈ b.rows, r.id = i) ↔ ds.length < i + cap ∧ 1 ≤ i ∧ i ≤ ds.length := by
  have hids : b.rows.map RelayRow.id = ((numbered ds).drop (ds.length - cap)).map Prod.snd := by
    rw [← h.rows, List.map_map]
    rfl
  rw [← List.mem_map, hids, map_snd_drop, List.mem_range'_1]
  omega

/-! ## What the reader gets -/

/-- The blob numbered `i` was evicted before the cursor had passed it. -/
def Lost (cap : Nat) (calls : List RelayCall) (i : Nat) : Prop :=
  ∃ pre post, calls = pre ++ post ∧ i ≤ (deposits pre).length ∧ (sessionAfter cap pre).cursor < i ∧
    ∀ r ∈ (sessionAfter cap pre).buffer.rows, r.id ≠ i

/-- Evicted as soon as `cap` younger blobs are there. -/
theorem evicted_iff {cap : Nat} {calls : List RelayCall} {i : Nat} (hi : 1 ≤ i) :
    (i ≤ (deposits calls).length ∧ ∀ r ∈ (sessionAfter cap calls).buffer.rows, r.id ≠ i) ↔
      i + cap ≤ (deposits calls).length := by
  have hmem := (holds_after cap calls).mem_ids i
  constructor
  · rintro ⟨hle, hnone⟩
    by_contra hlt
    obtain ⟨r, hr, hid⟩ := hmem.mpr ⟨by omega, hi, hle⟩
    exact hnone r hr hid
  · intro hle
    refine ⟨by omega, fun r hr hid => ?_⟩
    have := (hmem.mp ⟨r, hr, hid⟩).1
    omega

theorem deposits_append_length (pre post : List RelayCall) :
    (deposits pre).length ≤ (deposits (pre ++ post)).length := by
  rw [deposits, deposits, List.flatMap_append, List.length_append]
  exact Nat.le_add_right _ _

/-- What is lost in the end is not in the table any more. -/
theorem Lost.evicted {cap : Nat} {calls : List RelayCall} {i : Nat} (h : Lost cap calls i) :
    i + cap ≤ (deposits calls).length := by
  obtain ⟨pre, post, rfl, hle, hcursor, hnone⟩ := h
  have hcap := (evicted_iff (by omega)).mp ⟨hle, hnone⟩
  exact Nat.le_trans hcap (deposits_append_length pre post)

/-- What the cursor has passed was lost before, or not at all. -/
theorem lost_snoc {cap : Nat} {calls : List RelayCall} {c : RelayCall} {i : Nat}
    (h : i ≤ (sessionAfter cap (calls ++ [c])).cursor) : Lost cap (calls ++ [c]) i ↔ Lost cap calls i := by
  constructor
  · rintro ⟨pre, post, heq, hle, hcursor, hnone⟩
    rcases concat_split heq with ⟨rfl, _⟩ | ⟨post', _, rfl⟩
    · -- the last call is part of `pre`, whose cursor had not reached `i`
      exact absurd hcursor (Nat.not_lt.mpr h)
    · exact ⟨pre, post', rfl, hle, hcursor, hnone⟩
  · rintro ⟨pre, post, rfl, hrest⟩
    exact ⟨pre, post ++ [c], List.append_assoc .., hrest⟩

/-- The numbers of the drained blobs, in order. -/
structure Paged (cap : Nat) (calls : List RelayCall) (ids : List Nat) : Prop where
  sorted : ids.Pairwise (· < ·)
  mem    : ∀ i, i ∈ ids ↔ 1 ≤ i ∧ i ≤ (sessionAfter cap calls).cursor ∧ ¬Lost cap calls i
  blobs  : (drained cap calls).map some = ids.map fun i => (deposits calls)[i - 1]?
  cursor : (sessionAfter cap calls).cursor ≤ (deposits calls).length

theorem Paged.deposit {cap : Nat} {calls : List RelayCall} {ids : List Nat} (h : Paged cap calls ids) (now : String)
    (d : RelayDeposit) : Paged cap (calls ++ [.deposit now d]) ids := by
  have hcursor : (sessionAfter cap (calls ++ [.deposit now d])).cursor = (sessionAfter cap calls).cursor := by
    rw [sessionAfter, after_snoc]
    rfl
  refine ⟨h.sorted, fun i => ?_, ?_, ?_⟩
  · rw [h.mem, hcursor]
    refine and_congr_right fun _ => and_congr_right fun hi => not_congr (lost_snoc ?_).symm
    rwa [hcursor]
  · rw [drained_snoc, deposits_snoc]
    show (drained cap calls ++ []).map some = _
    rw [List.append_nil, h.blobs]
    refine List.map_congr_left fun i hi => ?_
    have hi := (h.mem i).mp hi
    have hcur := h.cursor
    exact (List.getElem?_append_left (by omega)).symm
  · rw [hcursor]
    exact Nat.le_trans h.cursor (deposits_append_length calls _)

theorem Paged.drain {cap : Nat} {calls : List RelayCall} {ids : List Nat} (h : Paged cap calls ids) (limit : Nat) :
    ∃ ids', Paged cap (calls ++ [.drain limit]) ids' := by
  have hholds := holds_after cap calls
  have hpage := hholds.drain (sessionAfter cap calls).cursor limit
  have hcur := h.cursor
  generalize hn : (deposits calls).length = n at hpage hcur
  generalize hm : max (n - cap) (sessionAfter cap calls).cursor = m at hpage
  have hk : min limit (n - m) ≤ n - m := Nat.min_le_right ..
  generalize hk' : min limit (n - m) = k at hk
  have hids := congrArg (List.map Prod.snd) hpage
  rw [List.map_map, map_snd_page, hn, hk'] at hids
  have hcursor : (sessionAfter cap (calls ++ [.drain limit])).cursor
      = if k = 0 then (sessionAfter cap calls).cursor else m + k := by
    have hdrain := hholds.drain_cursor (sessionAfter cap calls).cursor limit
    rw [hn, hm, hk'] at hdrain
    rw [sessionAfter, after_snoc]
    exact hdrain
  -- the page holds the ids from `m + 1` on
  refine ⟨ids ++ List.range' (m + 1) k, ?_, fun i => ?_, ?_, ?_⟩
  · refine List.pairwise_append.mpr ⟨h.sorted, List.pairwise_lt_range', fun a ha b hb => ?_⟩
    have ha := (h.mem a).mp ha
    have hb := List.mem_range'_1.mp hb
    omega
  · rw [List.mem_append, h.mem, List.mem_range'_1]
    have hreach : i ≤ (sessionAfter cap (calls ++ [.drain limit])).cursor ↔
        i ≤ (sessionAfter cap calls).cursor ∨ (k ≠ 0 ∧ i ≤ m + k) := by
      rw [hcursor]
      split <;> omega
    constructor
    · rintro (⟨hpos, hle, hkept⟩ | hnew)
      · have hle' := hreach.mpr (.inl hle)
        exact ⟨hpos, hle', fun hlost => hkept ((lost_snoc hle').mp hlost)⟩
      · have hle' := hreach.mpr (.inr (by omega))
        refine ⟨by omega, hle', fun hlost => ?_⟩
        have hevicted := ((lost_snoc hle').mp hlost).evicted
        omega
    · rintro ⟨hpos, hle', hkept⟩
      have hkept' : ¬Lost cap calls i := fun hlost => hkept ((lost_snoc hle').mpr hlost)
      by_cases hle : i ≤ (sessionAfter cap calls).cursor
      · exact .inl ⟨hpos, hle, hkept'⟩
      · refine .inr ?_
        -- between the old cursor and the start of the page everything was evicted unseen
        have hstart : m < i := by
          by_contra hm'
          have hevicted := (evicted_iff hpos).mpr (show i + cap ≤ (deposits calls).length by omega)
          exact hkept' ⟨calls, [], (List.append_nil _).symm, hevicted.1, Nat.lt_of_not_le hle, hevicted.2⟩
        have := hreach.mp hle'
        omega
  · rw [drained_snoc, deposits_snoc]
    show (drained cap calls ++ (List.take _ _).map RelayRow.toRelayDeposit).map some
      = (ids ++ _).map fun i => (deposits calls ++ [])[i - 1]?
    rw [List.append_nil, List.map_append, List.map_append, h.blobs, ← hids, List.map_map, List.map_map]
    refine congrArg _ (List.map_congr_left fun r hr => ?_)
    have hentry : r.entry ∈ numbered (deposits calls) := by
      have hmem := List.mem_map_of_mem (f := RelayRow.entry) hr
      rw [hpage] at hmem
      exact List.mem_of_mem_drop (List.mem_of_mem_take hmem)
    exact (mem_numbered.mp hentry).2.symm
  · rw [hcursor, deposits_snoc]
    show _ ≤ (deposits calls ++ []).length
    rw [List.append_nil, hn]
    split <;> omega

theorem paged_after (cap : Nat) (calls : List RelayCall) : ∃ ids, Paged cap calls ids := by
  induction calls using List.reverseRecOn with
  | nil =>
      refine ⟨[], .nil, fun i => ?_, rfl, Nat.le_refl 0⟩
      refine iff_of_false List.not_mem_nil fun h => ?_
      exact absurd h.2.1 (Nat.not_le.mpr h.1)
  | append_singleton calls c ih =>
      obtain ⟨ids, h⟩ := ih
      cases c with
      | deposit now d => exact ⟨ids, h.deposit now d⟩
      | drain limit => exact h.drain limit

/-- **Without eviction** the reader has the log up to its cursor. -/
theorem drained_eq {cap : Nat} {calls : List RelayCall} (h : (deposits calls).length ≤ cap) :
    drained cap calls = (deposits calls).take (sessionAfter cap calls).cursor := by
  obtain ⟨ids, hpaged⟩ := paged_after cap calls
  have hmem : ∀ i, i ∈ ids ↔ i ∈ List.range' 1 (sessionAfter cap calls).cursor := by
    intro i
    rw [hpaged.mem, List.mem_range'_1]
    constructor
    · rintro ⟨hpos, hle, _⟩
      omega
    · intro hi
      refine ⟨by omega, by omega, fun hlost => ?_⟩
      have := hlost.evicted
      omega
  have hnodup : ids.Nodup := hpaged.sorted.imp Nat.ne_of_lt
  have hids : ids = List.range' 1 (sessionAfter cap calls).cursor :=
    List.Perm.eq_of_pairwise (fun a b _ _ hab hba => absurd hab (Nat.lt_asymm hba)) hpaged.sorted
      List.pairwise_lt_range' ((List.perm_ext_iff_of_nodup hnodup List.nodup_range').mpr hmem)
  have hblobs := hpaged.blobs
  rw [hids, ← map_some_take hpaged.cursor] at hblobs
  exact List.map_injective_iff.mpr (fun _ _ => Option.some.inj) hblobs

/-- A page takes the cursor as far as it goes. -/
theorem cursor_drain (cap : Nat) (calls : List RelayCall) (limit : Nat) :
    (sessionAfter cap (calls ++ [.drain limit])).cursor =
      if min limit ((deposits calls).length - max ((deposits calls).length - cap) (sessionAfter cap calls).cursor) = 0
      then (sessionAfter cap calls).cursor
      else max ((deposits calls).length - cap) (sessionAfter cap calls).cursor
        + min limit ((deposits calls).length - max ((deposits calls).length - cap) (sessionAfter cap calls).cursor) := by
  rw [sessionAfter, after_snoc]
  exact (holds_after cap calls).drain_cursor ..

/-- **Relay paging is complete and free of duplicates**, after any deposits and drains: the table holds the newest
    `cap` deposits, and the drained blobs are those numbered up to the cursor, in order and once each, but for the
    ones evicted before the cursor had passed them. A drain takes the cursor as many blobs further as it may, from the
    oldest that is left. -/
theorem relay_paging (cap : Nat) (calls : List RelayCall) :
    (sessionAfter cap calls).buffer.rows.map RelayRow.toRelayDeposit
        = (deposits calls).drop ((deposits calls).length - cap) ∧
      (sessionAfter cap calls).buffer.rows.length = min cap (deposits calls).length ∧
      ∃ ids : List Nat, ids.Pairwise (· < ·) ∧
        (∀ i, i ∈ ids ↔ 1 ≤ i ∧ i ≤ (sessionAfter cap calls).cursor ∧ ¬Lost cap calls i) ∧
        (drained cap calls).map some = (ids.map fun i => (deposits calls)[i - 1]?) ∧
      ∀ limit start, start = max ((deposits calls).length - cap) (sessionAfter cap calls).cursor →
        (sessionAfter cap (calls ++ [.drain limit])).cursor =
          if min limit ((deposits calls).length - start) = 0 then (sessionAfter cap calls).cursor
          else start + min limit ((deposits calls).length - start) := by
  have hrows := rows_eq cap calls
  refine ⟨hrows, ?_, ?_⟩
  · have hlength := congrArg List.length hrows
    rw [List.length_map, List.length_drop] at hlength
    omega
  · obtain ⟨ids, h⟩ := paged_after cap calls
    refine ⟨ids, h.sorted, h.mem, h.blobs, ?_⟩
    rintro limit start rfl
    exact cursor_drain cap calls limit

end Mesh
end VpnPi
