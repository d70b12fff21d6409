import VpnPi.Island.BookWrites
import VpnPi.Island.Messages
import VpnPi.Js.RegExp

/-!
# `Island.BookQueries` — reading a friend book (`core/friends.ts`)

The synchronous readers of a book, and with them every call there is: `BookOp` is a service on books whose answers are
values, or the key resolver that `verifyKeyResolver` returns.
-/

namespace VpnPi
namespace Island

open Js Async

variable (P : Platform) (me : Self)

/-! ## By mesh address -/

/-- `^10\.42\.0\.(\d{1,3})$`. -/
def meshRe : RegExp := .seqs [.lit (js "10.42.0."), .group (.reps isDigit 1 (some 3))]

def meshWg0 (addr : JsString) : Option JsString :=
  let ip := if js "::ffff:" <+: addr then addr.drop 7 else addr
  match meshRe.exec ip with
  | some [some host] => if 1 ≤ digitsValue host ∧ digitsValue host ≤ 254 then some ip else none
  | _ => none

/-- The loop of `friendByWg0`: the one record with the address. -/
def findWg0 (ip : JsString) : List Value → Value → Except Exn Value
  | [], found => pure found
  | r :: rs, found => do
      let wg0 ← prop r (js "peer") >>= fun peer => prop peer (js "wg0")
      if wg0 ≠ .str ip then findWg0 ip rs found
      -- a second claim: neither is authorized
      else if found.truthy then pure .undefined
      else findWg0 ip rs r

def friendByWg0 (addr : JsString) (b : FriendBook) : Except Exn Value :=
  match meshWg0 addr with
  | none => pure .undefined
  | some ip => if ip = me.wg0 then pure .undefined else findWg0 ip b.friends.values .undefined

/-! ## Lists -/

def listFriends (b : FriendBook) : Value := .arr b.friends.values

/-- `{ peer: p.token.from, received: p.received }`. -/
def pendingRow (p : Value) : Except Exn Value := do
  let peer ← prop p (js "token") >>= fun token => prop token (js "from")
  let received ← prop p (js "received")
  pure (.obj [(js "peer", peer), (js "received", received)])

def pendingRows : List Value → Except Exn (List Value)
  | [] => pure []
  | p :: ps => do
      let row ← pendingRow p
      let rows ← pendingRows ps
      pure (row :: rows)

def listPending (b : FriendBook) : Except Exn Value := (pendingRows b.pending.values).map .arr

def listOffered (b : FriendBook) : Value := .arr b.offered.values

/-! ## Every call -/

inductive BookOp where
  | call (op : FriendOp)
  | revoke (peer : JsString)
  | friend (peer : JsString)
  | isFriend (peer : JsString)
  | friendByWg0 (addr : JsString)
  | verifyKeyResolver
  | listFriends
  | listPending
  | listOffered

inductive Answer where
  | value (v : Value)
  | keys (keyFor : VerifyKeyFor)

/-- What a task answers. -/
def answered (x : Except Exn Value × FriendBook) : Except Exn Answer × FriendBook := (x.1.map Answer.value, x.2)

/-- The book answers a call that runs alone. -/
def BookOp.answer (b : FriendBook) : BookOp → Except Exn Answer × FriendBook
  | call op => answered ((op.task P me).run b)
  | revoke peer => answered ((Island.revoke peer).run b)
  | friend peer => (.ok (Answer.value ((b.friends.get peer).getD .undefined)), b)
  | isFriend peer => (.ok (Answer.value (.bool (b.friends.has peer))), b)
  | friendByWg0 addr => ((Island.friendByWg0 me addr b).map Answer.value, b)
  | verifyKeyResolver => ((Island.verifyKeyResolver P b).map Answer.keys, b)
  | listFriends => (.ok (Answer.value (Island.listFriends b)), b)
  | listPending => ((Island.listPending b).map Answer.value, b)
  | listOffered => (.ok (Answer.value (Island.listOffered b)), b)

end Island
end VpnPi
