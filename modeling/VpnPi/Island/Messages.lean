import VpnPi.Async.Trace
import VpnPi.Island.BookRuns
import VpnPi.Island.Envelope

/-!
# `Island.Messages` — direct messages and their replay guard (`core/messages.ts`)

A message is an envelope whose payload is stamped `typ: "message"` and names its recipient. The receiving node
lets in what is fresh by its signed time and new by its signed id; the ids it has let in are kept with their
times, pruned by time and by number. `POST /api/messages/inbound` handles one request without interruption
from the guard to the append.
-/

namespace VpnPi
namespace Island

open Js Async

/-! ## `Object.fromEntries` -/

/-- The index a key is, if it is the canonical text of one. -/
def arrayIndex (k : JsString) : Option Nat :=
  if natText (digitsValue k) = k ∧ digitsValue k < 4294967295 then some (digitsValue k) else none

/-- The order of own properties: indices ascending, then the other keys as they came. -/
def propertyOrder {α : Type} (es : List (JsString × α)) : List (JsString × α) :=
  ((es.filter fun e => (arrayIndex e.1).isSome).insertionSort fun e e' =>
      (arrayIndex e.1).getD 0 ≤ (arrayIndex e'.1).getD 0)
    ++ es.filter fun e => !(arrayIndex e.1).isSome

theorem propertyOrder_perm {α : Type} (es : List (JsString × α)) : (propertyOrder es).Perm es :=
  ((List.perm_insertionSort ..).append_right _).trans (List.filter_append_perm ..)

/-- The map that `Object.entries(Object.fromEntries(m))` makes. -/
def ownOrder {α : Type} (m : OrdMap JsString α) : OrdMap JsString α where
  entries := propertyOrder m.entries
  nodup := ((propertyOrder_perm m.entries).map Prod.fst).nodup_iff.mpr m.nodup

theorem get_ownOrder {α : Type} (m : OrdMap JsString α) (k : JsString) : (ownOrder m).get k = m.get k := by
  refine Option.ext fun v => ?_
  rw [← Option.mem_def, ← Option.mem_def, Option.mem_def, Option.mem_def, ← OrdMap.mem_entries_iff,
    ← OrdMap.mem_entries_iff]
  exact (propertyOrder_perm m.entries).mem_iff

/-- What is in property order stays as it is. -/
theorem propertyOrder_of_ordered {α : Type} {indices others : List (JsString × α)}
    (hindices : ∀ e ∈ indices, (arrayIndex e.1).isSome = true) (hothers : ∀ e ∈ others, (arrayIndex e.1).isSome = false)
    (hsorted : indices.Pairwise fun e e' => (arrayIndex e.1).getD 0 ≤ (arrayIndex e'.1).getD 0) :
    propertyOrder (indices ++ others) = indices ++ others := by
  have h1 : (indices ++ others).filter (fun e => (arrayIndex e.1).isSome) = indices := by
    rw [List.filter_append, List.filter_eq_self.mpr hindices, List.filter_eq_nil_iff.mpr, List.append_nil]
    intro e he
    rw [hothers e he]
    exact Bool.false_ne_true
  have h2 : (indices ++ others).filter (fun e => !(arrayIndex e.1).isSome) = others := by
    rw [List.filter_append, List.filter_eq_nil_iff.mpr, List.nil_append, List.filter_eq_self.mpr]
    · intro e he
      rw [hothers e he]
      rfl
    · intro e he
      rw [hindices e he]
      exact Bool.false_ne_true
  rw [propertyOrder, h1, h2, hsorted.insertionSort_eq]

/-- A map that was saved and loaded keeps its order. -/
theorem ownOrder_mapVal {α β : Type} (m : OrdMap JsString α) (f : α → β) :
    ownOrder ((ownOrder m).mapVal f) = (ownOrder m).mapVal f := by
  refine OrdMap.ext ?_
  show propertyOrder ((propertyOrder m.entries).map fun e => (e.1, f e.2)) = (propertyOrder m.entries).map _
  have hsplit : (propertyOrder m.entries).map (fun e => (e.1, f e.2)) = _ := List.map_append
  rw [hsplit]
  refine propertyOrder_of_ordered ?_ ?_ ?_
  · rw [List.forall_mem_map]
    intro e he
    exact (List.mem_filter.mp ((List.mem_insertionSort _).mp he)).2
  · rw [List.forall_mem_map]
    intro e he
    exact Bool.not_eq_true' _ |>.mp (List.mem_filter.mp he).2
  · exact List.pairwise_map.mpr (List.pairwise_insertionSort _ _)

/-! ## Sealing and opening -/

/-- `MAX_MSG_AGE_MS`. -/
def maxMsgAgeMs : Int := 900000

/-- `MAX_MSG_SKEW_MS`. -/
def maxMsgSkewMs : Int := 300000

structure Message where
  id    : Option JsString
  from_ : JsString
  to_   : JsString
  body  : JsString
  ts    : JsString
  deriving DecidableEq

variable (P : Platform)

def sealMessage (self : Identity) (recipient : Value) (body uuid : JsString) (ephemeral : Bytes)
    (now : Instant) : Except Exn JsString := do
  let ed25519 ← prop recipient (js "ed25519")
  let payload := Value.obj [(js "typ", .str (js "message")), (js "id", .str uuid),
    (js "node", .str (toB64 P self.edPublic)), (js "to", ed25519), (js "body", .str body),
    (js "ts", .str (P.toISOString now))]
  let x25519 ← prop recipient (js "x25519") >>= fromB64 P
  let blob ← sealSign P payload self.edSecret x25519 ephemeral
  pure (toB64 P blob)

/-- The payload of a message to this node, signed by a friend. -/
def messagePayload (self : Identity) (blobB64 : JsString) (verifyKeyFor : VerifyKeyFor) : Except Exn Value := do
  let blob ← fromB64 P (.str blobB64)
  let payload ← openVerify P blob self.xPublic self.xPrivate verifyKeyFor
  let typ ← prop payload (js "typ")
  failIf (typ ≠ .str (js "message")) (.verification (js "not a message envelope"))
  let to_ ← prop payload (js "to")
  failIf (to_ ≠ .str (toB64 P self.edPublic)) (.verification (js "message not addressed to this node"))
  pure payload

/-- The signed time, which has to lie in the window. -/
def freshTime (payload : Value) (now : Instant) : Except Exn Instant := do
  let stale := Exn.verification (js "message timestamp missing or outside freshness window")
  let parsed ← prop payload (js "ts") >>= dateParse P
  let ts ← orThrow stale parsed
  failIf (maxMsgAgeMs < now.ms - ts.ms ∨ now.ms - ts.ms < -maxMsgSkewMs) stale
  pure ts

def duplicateId : Exn := .verification (js "duplicate or missing message id (replay)")

/-- The signed id, a string that is not empty. -/
def messageId (payload : Value) : Except Exn JsString := do
  match ← prop payload (js "id") with
  | .str id => do
      failIf (id = []) duplicateId
      pure id
  | _ => .error duplicateId

/-- What `openMessage` returns of a payload. -/
def messageOf (payload : Value) : Except Exn Message := do
  let id ← prop payload (js "id")
  let from_ ← prop payload (js "node") >>= stringOf
  let to_ ← prop payload (js "to") >>= stringOf
  let body ← prop payload (js "body") >>= stringOf
  let ts ← prop payload (js "ts") >>= stringOf
  pure ⟨match id with | .str s => some s | _ => none, from_, to_, body, ts⟩

/-! ## The book -/

structure MessageBook where
  /-- By peer: an array of messages. -/
  logs : OrdMap JsString Value
  /-- The times of the ids that were let in. -/
  seen : OrdMap JsString Value

namespace MessageBook

def empty : MessageBook := ⟨.empty, .empty⟩

/-- `MAX_PER_PEER`. -/
def maxPerPeer : Nat := 500

/-- `MAX_SEEN_IDS`. -/
def maxSeenIds : Nat := 4096

/-- Deletes from the front while there are more than `limit`. -/
def newest {α : Type} (limit : Nat) : List α → List α
  | [] => []
  | x :: xs => if limit < (x :: xs).length then newest limit xs else x :: xs

def append (b : MessageBook) (peer : JsString) (m : Value) : Except Exn MessageBook :=
  match orElse ((b.logs.get peer).getD .undefined) (.arr []) with
  | .arr log => pure { b with logs := b.logs.set peer (.arr (newest maxPerPeer (log ++ [m]))) }
  | _ => .error .typeError

/-- `ts < cutoff`, of a number. -/
def isBelow (ts : Value) (cutoff : Int) : Bool :=
  match ts with
  | .num x => x.lt cutoff
  | _ => false

def prune (seen : OrdMap JsString Value) (now : Instant) : OrdMap JsString Value :=
  seen.filter fun _ ts => !isBelow ts (now.ms - maxMsgAgeMs - maxMsgSkewMs)

theorem newest_suffix {α : Type} (limit : Nat) (xs : List α) : newest limit xs <:+ xs := by
  induction xs with
  | nil => exact List.suffix_rfl
  | cons x xs ih =>
      rw [newest]
      split
      · exact ih.trans (List.suffix_cons x xs)
      · exact List.suffix_rfl

/-- `while (size >= MAX_SEEN_IDS) delete(first)`: there is room for one more. -/
def evict (seen : OrdMap JsString Value) : OrdMap JsString Value where
  entries := newest (maxSeenIds - 1) seen.entries
  nodup := ((newest_suffix _ seen.entries).sublist.map Prod.fst).nodup seen.nodup

/-- The ids that make room for another one. -/
def evicted (seen : OrdMap JsString Value) : List (JsString × Value) :=
  seen.entries.filter fun e => e ∉ (evict seen).entries

/-- Whether the id was new, and the book with it. -/
def markSeen (b : MessageBook) (id : JsString) (ts now : Instant) : Bool × MessageBook :=
  if b.seen.has id then (false, b)
  else (true, { b with seen := (evict (prune b.seen now)).set id (.num (.ofInt ts.ms)) })

def toJSON (b : MessageBook) : Value :=
  .obj [(js "logs", .obj (ownOrder b.logs).entries), (js "seen", .obj (ownOrder b.seen).entries)]

def fromJSON (data : Value) : Except Exn MessageBook := do
  let logs ← prop data (js "logs")
  let seen ← prop data (js "seen")
  pure ⟨mapOf (orElse logs (.obj [])), mapOf (orElse seen (.obj []))⟩

/-- `persist` writes `JSON.stringify(msgs)` to a UTF-8 file, the next boot reads it back. -/
def reload (b : MessageBook) : Except Exn MessageBook := do
  let data ← orThrow (.error (js "malformed messages.json"))
    (parse P.toEngine (utf8Decode (utf8Encode (stringify b.toJSON))))
  fromJSON data

end MessageBook

/-! ## `POST /api/messages/inbound` -/

/-- `verifyKeyResolver`, with no other call between its awaits. -/
def verifyKeyResolver (book : FriendBook) : Except Exn VerifyKeyFor := do
  let keys ← book.friends.values.foldlM (fun keys rec_ => do
    let ed ← prop rec_ (js "peer") >>= fun peer => prop peer (js "ed25519")
    let raw ← fromB64 P ed
    let key ← strKey ed
    pure (keys.set key raw)) (OrdMap.empty : OrdMap JsString Bytes)
  pure keys.get

/-- A request, with the friend book as it is handled; `now` and `mark` are the two readings of the clock. -/
structure Inbound where
  body : Value
  book : FriendBook
  now  : Instant
  mark : Instant

/-- A payload that passed the guard, up to the question whether its id is new. -/
structure Guarded where
  payload : Value
  id      : JsString
  ts      : Instant

def guardInbound (me : Self) (q : Inbound) : Except Exn Guarded := do
  let verify ← verifyKeyResolver P q.book
  let blob ← prop q.body (js "blob") >>= stringOf
  let payload ← messagePayload P me.id blob verify
  let ts ← freshTime P payload q.now
  let id ← messageId payload
  pure ⟨payload, id, ts⟩

/-- A `StoredMessage`, in the order of its fields. -/
def storedMessage (dir from_ to_ body ts : JsString) : Value :=
  .obj [(js "dir", .str dir), (js "from", .str from_), (js "to", .str to_), (js "body", .str body),
    (js "ts", .str ts)]

def inbound (me : Self) (q : Inbound) (b : MessageBook) : Except Exn Message × MessageBook :=
  match guardInbound P me q with
  | .error e => (.error e, b)
  | .ok g =>
      match b.markSeen g.id g.ts q.mark with
      | (false, b) => (.error duplicateId, b)
      | (true, b) =>
          let appended : Except Exn (Message × MessageBook) := do
            let m ← messageOf g.payload
            let b ← b.append m.from_ (storedMessage (js "in") m.from_ m.to_ m.body m.ts)
            pure (m, b)
          match appended with
          | .ok (m, b) => (.ok m, b)
          | .error e => (.error e, b)

/-! ## Runs -/

inductive MessageEvent where
  | inbound (q : Inbound) (reply : Except Exn Message)
  /-- The operator has sent a message. -/
  | sent (peer text : JsString) (now : Instant)
  | reload

inductive MessageStep (P : Platform) (me : Self) : MessageBook → MessageEvent → MessageBook → Prop
  | inbound (q : Inbound) (b : MessageBook) :
      MessageStep P me b (.inbound q (Island.inbound P me q b).1) (Island.inbound P me q b).2
  | sent {b b' : MessageBook} {peer text : JsString} {now : Instant}
      (h : b.append peer (storedMessage (js "out") (selfEd P me) peer text (P.toISOString now)) = .ok b') :
      MessageStep P me b (.sent peer text now) b'
  | reload {b b' : MessageBook} (h : b.reload P = .ok b') : MessageStep P me b .reload b'

/-- The readings of the clock in an event. -/
def MessageEvent.readings : MessageEvent → List Instant
  | inbound q _ => [q.now, q.mark]
  | sent _ _ now => [now]
  | reload => []

/-- The messages that were appended, one entry for each time. -/
def ingested (tr : List MessageEvent) : List Message :=
  tr.filterMap fun
    | .inbound _ (.ok m) => some m
    | _ => none

end Island
end VpnPi
