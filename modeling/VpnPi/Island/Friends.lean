import VpnPi.Async.Task
import VpnPi.Island.Canonical
import VpnPi.Js.Double

/-!
# `Island.Friends` — tokens, accepts, revokes, and the `FriendBook` (`core/friends.ts`)

Tokens, accepts and notices arrive as untyped JSON and stay `Value`s throughout, as they do in the source.
The operations of the book are `Task`s: each `await` of the source that lets other requests run is a
suspension. An awaited helper that touches no book (signing, verifying, sealing) is one suspension whatever
it awaits inside.

Randomness is an argument: `random` for the 16 bytes of a nonce, `ephemeral` for the key pair of a sealed
box.
-/

namespace VpnPi
namespace Island

open Js Async Task

/-- What the constructor of `FriendBook` fixes. -/
structure Self where
  id    : Identity
  label : JsString
  wg0   : JsString
  deriving DecidableEq

variable (P : Platform)

/-! ## Canonical signable views (drop the `sig` field) -/

def peerPubJson (p : Value) : Except Exn Value := do
  let ed25519 ← prop p (js "ed25519")
  let x25519 ← prop p (js "x25519")
  let label ← prop p (js "label")
  let wg0 ← prop p (js "wg0")
  pure (.obj [(js "ed25519", ed25519), (js "x25519", x25519), (js "label", label), (js "wg0", wg0)])

def tokenSignable (t : Value) : Except Exn Value := do
  let v ← prop t (js "v")
  let peer ← prop t (js "from") >>= peerPubJson
  let nonce ← prop t (js "nonce")
  let issued ← prop t (js "issued")
  let expires ← prop t (js "expires")
  pure (.obj [(js "v", v), (js "from", peer), (js "nonce", nonce), (js "issued", issued),
    (js "expires", expires)])

def acceptSignable (a : Value) : Except Exn Value := do
  let v ← prop a (js "v")
  let peer ← prop a (js "from") >>= peerPubJson
  let ref ← prop a (js "ref")
  let issued ← prop a (js "issued")
  pure (.obj [(js "v", v), (js "from", peer), (js "ref", ref), (js "issued", issued)])

def revokeSignable (r : Value) : Except Exn Value := do
  let v ← prop r (js "v")
  let peer ← prop r (js "from")
  let target ← prop r (js "target")
  let nonce ← prop r (js "nonce")
  let at_ ← prop r (js "at")
  pure (.obj [(js "v", v), (js "from", peer), (js "target", target), (js "nonce", nonce), (js "at", at_)])

/-- `REVOKE_SKEW_MS`. -/
def revokeSkewMs : Int := 120000

/-! ## Low-level sign/verify -/

def sign (obj : Value) (secretKey : Bytes) : Except Exn JsString := do
  let msg ← canonicalBytes obj
  pure (toB64 P (P.signDetached msg secretKey))

def verify (obj sigB64 pubB64 : Value) : Except Exn Bool := do
  let sig ← fromB64 P sigB64
  let msg ← canonicalBytes obj
  let pub ← fromB64 P pubB64
  orThrow .sodium (P.verifyDetached sig msg pub)

def peerPubOf (me : Self) : Value :=
  .obj [(js "ed25519", .str (toB64 P me.id.edPublic)), (js "x25519", .str (toB64 P me.id.xPublic)),
    (js "label", .str me.label), (js "wg0", .str me.wg0)]

/-- `Date.parse(text) < now.getTime()`; `NaN` is less than nothing. -/
def isBefore (d : Option Instant) (now : Instant) : Bool :=
  match d with
  | some d => d.ms < now.ms
  | none => false

/-! ## Token / accept construction + verification -/

def makeToken (me : Self) (ttlSeconds : ℚ) (random : Bytes) (now : Instant) : Except Exn Value := do
  let expires ← orThrow .rangeError (now.addSeconds ttlSeconds)
  let body := [(js "v", .num Number.one), (js "from", peerPubOf P me), (js "nonce", .str (toB64 P random)),
    (js "issued", .str (P.toISOString now)), (js "expires", .str (P.toISOString expires))]
  let signable ← tokenSignable (.obj body)
  let sig ← sign P signable me.id.edSecret
  pure (.obj (body ++ [(js "sig", .str sig)]))

/-- Returns `t.from`. -/
def verifyToken (t : Value) (now : Instant) : Except Exn Value := do
  let v ← prop t (js "v")
  failIf (v ≠ .num Number.one) (.friend (js "unsupported token version"))
  let signable ← tokenSignable t
  let sig ← prop t (js "sig")
  let peer ← prop t (js "from")
  let pub ← prop peer (js "ed25519")
  let good ← verify P signable sig pub
  failIf (!good) (.friend (js "bad token signature"))
  let expires ← prop t (js "expires") >>= dateParse P
  failIf (isBefore expires now) (.friend (js "token expired"))
  pure peer

/-- The signed accept of `makeAccept`, before it is sealed. -/
def acceptOf (me : Self) (ref : Value) (now : Instant) : Except Exn Value := do
  let body := [(js "v", .num Number.one), (js "from", peerPubOf P me), (js "ref", ref),
    (js "issued", .str (P.toISOString now))]
  let signable ← acceptSignable (.obj body)
  let sig ← sign P signable me.id.edSecret
  pure (.obj (body ++ [(js "sig", .str sig)]))

def makeAccept (me : Self) (token : Value) (ephemeral : Bytes) (now : Instant) : Except Exn JsString := do
  let ref ← prop token (js "nonce")
  let accept ← acceptOf P me ref now
  let peer ← prop token (js "from")
  let x25519 ← prop peer (js "x25519") >>= fromB64 P
  let blob ← orThrow .sodium (P.boxSeal ephemeral (utf8Encode (stringify accept)) x25519)
  pure (toB64 P blob)

/-- The bytes a blob opens to. -/
def openBlob (me : Self) (blob : JsString) : Except Exn Bytes := do
  let sealed ← fromB64 P (.str blob)
  orThrow .sodium (P.boxSealOpen sealed me.id.xPublic me.id.xPrivate)

def openAccept (me : Self) (blob : JsString) : Except Exn Value := do
  let inner ← (openBlob P me blob).mapError fun _ => .friend (js "cannot open accept (not sealed to us)")
  let accept ← orThrow (.friend (js "malformed accept")) (parse P.toEngine (utf8Decode inner))
  let v ← prop accept (js "v")
  failIf (v ≠ .num Number.one) (.friend (js "unsupported accept version"))
  let signable ← acceptSignable accept
  let sig ← prop accept (js "sig")
  let peer ← prop accept (js "from")
  let pub ← prop peer (js "ed25519")
  let good ← verify P signable sig pub
  failIf (!good) (.friend (js "bad accept signature"))
  pure accept

/-! ## The per-node state machine + store -/

structure FriendBook where
  offered  : OrdMap JsString Value
  pending  : OrdMap JsString Value
  friends  : OrdMap JsString Value
  consumed : List Value

/-- `new FriendBook(..)`. -/
def FriendBook.empty : FriendBook := ⟨.empty, .empty, .empty, []⟩

/-- `{ token, received }`. -/
def pendingEntry (token : Value) (received : Instant) : Value :=
  .obj [(js "token", token), (js "received", .str (P.toISOString received))]

/-- A `FriendRecord` in state `"friends"`. -/
def friendRecord (peer nonce : Value) (since : Instant) : Value :=
  .obj [(js "peer", peer), (js "state", .str (js "friends")), (js "nonce", nonce),
    (js "since", .str (P.toISOString since))]

/-- `Set.prototype.has`. Arrays and objects compare by reference, and no value an operation looks up is the
    very object an earlier one stored: request bodies are parsed afresh. -/
def setHas (s : List Value) (v : Value) : Bool := v.isPrimitive && decide (v ∈ s)

/-- `Set.prototype.add`. When two overlapping accepts of one pending entry add its nonce and the nonce is a list or an
    object, it stands here twice and in the set once; neither is ever found again. -/
def setAdd (s : List Value) (v : Value) : List Value := if setHas s v then s else s ++ [v]

/-- `Map.prototype.get` on a map whose keys are strings. -/
def getKey (m : OrdMap JsString Value) : Value → Option Value
  | .str k => m.get k
  | _ => none

/-- A string used as a map key. `verify` has decoded it, so nothing else gets here. -/
def strKey : Value → Except Exn JsString
  | .str k => .ok k
  | _ => .error .typeError

def selfEd (me : Self) : JsString := toB64 P me.id.edPublic

/-- Giver: mint a token and record it as offered. -/
def issueToken (me : Self) (ttlSeconds : ℚ) (random : Bytes) (now : Instant) :
    Task FriendBook Exn Value := do
  let token ← awaiting (makeToken P me ttlSeconds random now)
  modify fun b => { b with offered := b.offered.set (toB64 P random) token }
  pure token

/-- Receiver: verify an incoming token and record it as a pending request. -/
def receive (me : Self) (token : Value) (now : Instant) : Task FriendBook Exn Value := do
  let peer ← awaiting (verifyToken P token now)
  let b ← get
  let nonce ← ofExcept (prop token (js "nonce"))
  throwIf (setHas b.consumed nonce) (.friend (js "token already used"))
  let ed ← ofExcept (prop peer (js "ed25519"))
  yield
  throwIf (ed = .str (selfEd P me)) (.friend (js "cannot friend yourself"))
  let key ← ofExcept (strKey ed)
  modify fun b => { b with pending := b.pending.set key (pendingEntry P token now) }
  pure peer

/-- Receiver: accept a pending request; returns the accept blob for the giver. -/
def accept (me : Self) (giverEd25519 : JsString) (ephemeral : Bytes) (now : Instant) :
    Task FriendBook Exn Value := do
  let b ← get
  let p ← ofExcept (orThrow (.friend (js "no pending request from that peer")) (b.pending.get giverEd25519))
  let token ← ofExcept (prop p (js "token"))
  let expires ← ofExcept (prop token (js "expires") >>= dateParse P)
  throwIf (isBefore expires now) (.friend (js "token expired"))
  let blob ← awaiting (makeAccept P me token ephemeral now)
  let nonce ← ofExcept (prop token (js "nonce"))
  let peer ← ofExcept (prop token (js "from"))
  modify fun b => { b with
    pending := b.pending.delete giverEd25519
    consumed := setAdd b.consumed nonce
    friends := b.friends.set giverEd25519 (friendRecord P peer nonce now) }
  pure (.str blob)

/-- Giver: confirm an accept blob. -/
def confirm (me : Self) (blobB64 : JsString) (now : Instant) : Task FriendBook Exn Value := do
  let accept ← awaiting (openAccept P me blobB64)
  let b ← get
  let ref ← ofExcept (prop accept (js "ref"))
  let offer ← ofExcept (orThrow (.friend (js "accept does not match any open offer")) (getKey b.offered ref))
  throwIf (setHas b.consumed ref) (.friend (js "offer already consumed"))
  let expires ← ofExcept (prop offer (js "expires") >>= dateParse P)
  throwIf (isBefore expires now) (.friend (js "offer expired"))
  let peer ← ofExcept (prop accept (js "from"))
  let ed ← ofExcept (prop peer (js "ed25519"))
  let nonce ← ofExcept (strKey ref)
  let key ← ofExcept (strKey ed)
  let rec_ := friendRecord P peer ref now
  modify fun b => { b with
    offered := b.offered.delete nonce
    consumed := setAdd b.consumed ref
    friends := b.friends.set key rec_ }
  pure rec_

/-- One-sided, immediate; says whether there was such a friend. -/
def revoke (peerEd25519 : JsString) : Task FriendBook Exn Value := do
  let b ← get
  modify fun b => { b with friends := b.friends.delete peerEd25519 }
  pure (.bool (b.friends.has peerEd25519))

/-- The signed notice of `issueRevoke`. -/
def makeRevoke (me : Self) (peerEd25519 : JsString) (random : Bytes) (now : Instant) :
    Except Exn Value := do
  let body := [(js "v", .num Number.one), (js "from", .str (selfEd P me)), (js "target", .str peerEd25519),
    (js "nonce", .str (toB64 P random)), (js "at", .str (P.toISOString now))]
  let signable ← revokeSignable (.obj body)
  let sig ← sign P signable me.id.edSecret
  pure (.obj (body ++ [(js "sig", .str sig)]))

/-- Initiator: end a friendship and mint the notice that lets the peer drop us too; `null` when there was
    no such friend. -/
def issueRevoke (me : Self) (peerEd25519 : JsString) (random : Bytes) (now : Instant) :
    Task FriendBook Exn Value := do
  let b ← get
  match b.friends.get peerEd25519 with
  | none => pure .null
  | some rec_ => do
      let notice ← awaiting (makeRevoke P me peerEd25519 random now)
      modify fun b => { b with friends := b.friends.delete peerEd25519 }
      let wg0 ← ofExcept (prop rec_ (js "peer") >>= fun peer => prop peer (js "wg0"))
      pure (.obj [(js "notice", notice), (js "wg0", wg0)])

/-- The shape test of `receiveRevoke`. -/
def isRevoke (n : Value) : Bool :=
  decide (n.prop (js "v") = some (.num Number.one)) &&
    [js "from", js "target", js "nonce", js "at", js "sig"].all fun k => (n.prop k).any Value.isStr

/-- `verify(revokeSignable(n), n.sig, rec.peer.ed25519)`. -/
def verifyRevoke (n rec_ : Value) : Except Exn Bool := do
  let signable ← revokeSignable n
  let sig ← prop n (js "sig")
  let stored ← prop rec_ (js "peer")
  let pub ← prop stored (js "ed25519")
  verify P signable sig pub

/-- Recipient: verify an inbound notice against the stored friend key and drop that friendship. -/
def receiveRevoke (me : Self) (n : Value) (_now : Instant) : Task FriendBook Exn Value := do
  throwIf (!isRevoke n) (.friend (js "malformed revoke"))
  let target ← ofExcept (prop n (js "target"))
  yield
  throwIf (target ≠ .str (selfEd P me)) (.friend (js "revoke not addressed to this node"))
  let b ← get
  let peer ← ofExcept (prop n (js "from") >>= strKey)
  let rec_ ← ofExcept (orThrow (.friend (js "not a friend")) (b.friends.get peer))
  let nonce ← ofExcept (prop n (js "nonce"))
  throwIf (setHas b.consumed nonce) (.friend (js "revoke already used"))
  let good ← awaiting (verifyRevoke P n rec_)
  throwIf (!good) (.friend (js "bad revoke signature"))
  let sent ← ofExcept (prop n (js "at") >>= dateParse P)
  let at_ ← ofExcept (orThrow (.friend (js "malformed revoke")) sent)
  let since ← ofExcept (prop rec_ (js "since") >>= dateParse P)
  throwIf (since.any fun d => at_.ms < d.ms - revokeSkewMs) (.friend (js "stale revoke"))
  modify fun b => { b with consumed := setAdd b.consumed nonce, friends := b.friends.delete peer }
  pure rec_

/-! ## Saving and loading -/

def FriendBook.toJSON (b : FriendBook) : Value :=
  .obj [(js "offered", .obj b.offered.entries), (js "pending", .obj b.pending.entries),
    (js "friends", .obj b.friends.entries), (js "consumed", .arr b.consumed)]

/-- `v ?? fallback`. -/
def orElse (v fallback : Value) : Value := if v.isNullish then fallback else v

/-- `Object.entries`, of what is not `null` or `undefined`. -/
def objectEntries : Value → List (JsString × Value)
  | .obj es => es
  | .arr xs => xs.zipIdx.map fun e => (js (toString e.2), e.1)
  | .str s => s.zipIdx.map fun e => (js (toString e.2), .str [e.1])
  | _ => []

/-- `new Map(Object.entries(v))`. -/
def mapOf (v : Value) : OrdMap JsString Value := .ofEntries (objectEntries v)

/-- `new Set(v)`, for an array (which is what a saved book holds). -/
def setOf : Value → Except Exn (List Value)
  | .arr xs => .ok (xs.foldl setAdd [])
  | _ => .error .typeError

def FriendBook.fromJSON (data : Value) : Except Exn FriendBook := do
  let offered ← prop data (js "offered")
  let pending ← prop data (js "pending")
  let friends ← prop data (js "friends")
  let consumed ← prop data (js "consumed")
  let seen ← setOf (orElse consumed (.arr []))
  pure ⟨mapOf (orElse offered (.obj [])), mapOf (orElse pending (.obj [])),
    mapOf (orElse friends (.obj [])), seen⟩

/-- `persist` writes `JSON.stringify(book)` to a UTF-8 file, the next boot reads it back. -/
def FriendBook.reload (b : FriendBook) : Except Exn FriendBook := do
  let data ← orThrow (.error (js "malformed friends.json"))
    (parse P.toEngine (utf8Decode (utf8Encode (stringify b.toJSON))))
  FriendBook.fromJSON data

end Island
end VpnPi
