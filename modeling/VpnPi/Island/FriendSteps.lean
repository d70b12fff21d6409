import VpnPi.Async.Pool
import VpnPi.Island.Signables

/-!
# `Island.FriendSteps` — what a call on a book can do

A call on a `FriendBook` reads, suspends, and changes the book in its last segment only. `Stage` lists what
can be left of a call after each of its suspensions, with what its checks have established so far; `Commit`
lists how a last segment can change the book. `stage_of_rest` and `Stage.done` say that there is nothing
else, and `run_cases` is the special case of a call that runs alone. Every invariant of the book is
derived from `Commit`.
-/

namespace VpnPi
namespace Island

open Js Async Task Pool

variable (P : Platform) (me : Self)

/-! ## Calls -/

inductive Call where
  | issueToken (ttlSeconds : ℚ) (random : Bytes) (now : Instant)
  | receive (token : Value) (now : Instant)
  | accept (giver : JsString) (ephemeral : Bytes) (now : Instant)
  | confirm (blob : JsString) (now : Instant)
  | revoke (peer : JsString)
  | issueRevoke (peer : JsString) (random : Bytes) (now : Instant)
  | receiveRevoke (notice : Value) (now : Instant)

def Call.task : Call → Task FriendBook Exn Value
  | issueToken ttlSeconds random now => Island.issueToken P me ttlSeconds random now
  | receive token now => Island.receive P me token now
  | accept giver ephemeral now => Island.accept P me giver ephemeral now
  | confirm blob now => Island.confirm P me blob now
  | revoke peer => Island.revoke peer
  | issueRevoke peer random now => Island.issueRevoke P me peer random now
  | receiveRevoke notice now => Island.receiveRevoke P me notice now

/-! ## What is left of a call -/

def issueMinted (random : Bytes) (token : Value) : Task FriendBook Exn Value := do
  modify fun b => { b with offered := b.offered.set (toB64 P random) token }
  pure token

def receiveUnused (token : Value) (now : Instant) (peer ed : Value) : Task FriendBook Exn Value := do
  throwIf (ed = .str (selfEd P me)) (.friend (js "cannot friend yourself"))
  let key ← ofExcept (strKey ed)
  modify fun b => { b with pending := b.pending.set key (pendingEntry P token now) }
  pure peer

def receiveVerified (token : Value) (now : Instant) (peer : Value) : Task FriendBook Exn Value := do
  let b ← get
  let nonce ← ofExcept (prop token (js "nonce"))
  throwIf (setHas b.consumed nonce) (.friend (js "token already used"))
  let ed ← ofExcept (prop peer (js "ed25519"))
  yield
  receiveUnused P me token now peer ed

def acceptSealed (giver : JsString) (token : Value) (now : Instant) (blob : JsString) :
    Task FriendBook Exn Value := do
  let nonce ← ofExcept (prop token (js "nonce"))
  let peer ← ofExcept (prop token (js "from"))
  modify fun b => { b with
    pending := b.pending.delete giver
    consumed := setAdd b.consumed nonce
    friends := b.friends.set giver (friendRecord P peer nonce now) }
  pure (.str blob)

def confirmOpened (now : Instant) (accept : Value) : Task FriendBook Exn Value := do
  let b ← get
  let ref ← ofExcept (prop accept (js "ref"))
  let offer ← ofExcept (orThrow (.friend (js "accept does not match any open offer")) (getKey b.offered ref))
  throwIf (setHas b.consumed ref) (.friend (js "offer already consumed"))
  let expires ← ofExcept (prop offer (js "expires") >>= dateParse P)
  throwIf (isBefore expires now) (.friend (js "offer expired"))
  let peer ← ofExcept (prop accept (js "from"))
  let ed ← ofExcept (prop peer (js "ed25519"))
  let nonce ← ofExcept (strKey ref)
  let key ← ofExcept (strKey ed)
  modify fun b => { b with
    offered := b.offered.delete nonce
    consumed := setAdd b.consumed ref
    friends := b.friends.set key (friendRecord P peer ref now) }
  pure (friendRecord P peer ref now)

def issueRevokeSigned (peer : JsString) (rec_ notice : Value) : Task FriendBook Exn Value := do
  modify fun b => { b with friends := b.friends.delete peer }
  let wg0 ← ofExcept (prop rec_ (js "peer") >>= fun peer => prop peer (js "wg0"))
  pure (.obj [(js "notice", notice), (js "wg0", wg0)])

def receiveRevokeVerified (n nonce rec_ : Value) (peer : JsString) (good : Bool) :
    Task FriendBook Exn Value := do
  throwIf (!good) (.friend (js "bad revoke signature"))
  let sent ← ofExcept (prop n (js "at") >>= dateParse P)
  let at_ ← ofExcept (orThrow (.friend (js "malformed revoke")) sent)
  let since ← ofExcept (prop rec_ (js "since") >>= dateParse P)
  throwIf (since.any fun d => at_.ms < d.ms - revokeSkewMs) (.friend (js "stale revoke"))
  modify fun b => { b with consumed := setAdd b.consumed nonce, friends := b.friends.delete peer }
  pure rec_

def receiveRevokeAddressed (n target : Value) : Task FriendBook Exn Value := do
  throwIf (target ≠ .str (selfEd P me)) (.friend (js "revoke not addressed to this node"))
  let b ← get
  let peer ← ofExcept (prop n (js "from") >>= strKey)
  let rec_ ← ofExcept (orThrow (.friend (js "not a friend")) (b.friends.get peer))
  let nonce ← ofExcept (prop n (js "nonce"))
  throwIf (setHas b.consumed nonce) (.friend (js "revoke already used"))
  let good ← awaiting (verifyRevoke P n rec_)
  receiveRevokeVerified P n nonce rec_ peer good

/-- What can be left of a call, the book `seen` being the one its last segment began in. -/
inductive Stage : Call → FriendBook → Task FriendBook Exn Value → Prop
  | start (c : Call) (seen : FriendBook) : Stage c seen (c.task P me)
  | issueMinted (ttlSeconds : ℚ) (random : Bytes) (now : Instant) (seen : FriendBook) :
      Stage (.issueToken ttlSeconds random now) seen
        (ofExcept (makeToken P me ttlSeconds random now) >>= issueMinted P random)
  | receiveVerified (token : Value) (now : Instant) (seen : FriendBook) :
      Stage (.receive token now) seen
        (ofExcept (verifyToken P token now) >>= receiveVerified P me token now)
  | receiveUnused {token peer nonce ed : Value} {now : Instant} {seen : FriendBook}
      (verified : verifyToken P token now = .ok peer) (hnonce : prop token (js "nonce") = .ok nonce)
      (unused : ¬setHas seen.consumed nonce = true) (hed : prop peer (js "ed25519") = .ok ed) :
      Stage (.receive token now) seen (receiveUnused P me token now peer ed)
  | acceptSealed {giver : JsString} {ephemeral : Bytes} {p token : Value} {now : Instant}
      {seen : FriendBook} (hp : seen.pending.get giver = some p)
      (htoken : prop p (js "token") = .ok token) (fresh : NotExpired P token now) :
      Stage (.accept giver ephemeral now) seen
        (ofExcept (makeAccept P me token ephemeral now) >>= acceptSealed P giver token now)
  | confirmOpened (blob : JsString) (now : Instant) (seen : FriendBook) :
      Stage (.confirm blob now) seen (ofExcept (openAccept P me blob) >>= confirmOpened P now)
  | issueRevokeSigned {peer : JsString} {random : Bytes} {rec_ : Value} {now : Instant}
      {seen : FriendBook} (hrec : seen.friends.get peer = some rec_) :
      Stage (.issueRevoke peer random now) seen
        (ofExcept (makeRevoke P me peer random now) >>= issueRevokeSigned peer rec_)
  | receiveRevokeAddressed {n target : Value} {now : Instant} {seen : FriendBook}
      (shape : isRevoke n = true) (htarget : prop n (js "target") = .ok target) :
      Stage (.receiveRevoke n now) seen (receiveRevokeAddressed P me n target)
  | receiveRevokeVerified {n nonce rec_ : Value} {peer : JsString} {now : Instant} {seen : FriendBook}
      (shape : isRevoke n = true) (htarget : prop n (js "target") = .ok (.str (selfEd P me)))
      (hpeer : (prop n (js "from") >>= strKey) = .ok peer) (hrec : seen.friends.get peer = some rec_)
      (hnonce : prop n (js "nonce") = .ok nonce) (unused : ¬setHas seen.consumed nonce = true) :
      Stage (.receiveRevoke n now) seen
        (ofExcept (verifyRevoke P n rec_) >>= receiveRevokeVerified P n nonce rec_ peer)

variable {P me}

/-- A segment that suspends leaves the book alone and moves the call to its next stage. -/
theorem Stage.suspend {c : Call} {seen b b' : FriendBook} {x y : Task FriendBook Exn Value}
    (h : Stage P me c seen x) (hs : x.segment b = (.suspended y, b')) :
    b' = b ∧ Stage P me c b y := by
  -- a throw ends the call, so of the ways through a segment the one with no throw is left
  cases h with
  | start c seen =>
      cases c with
      | issueToken ttlSeconds random now => cases hs; exact ⟨rfl, .issueMinted ..⟩
      | receive token now => cases hs; exact ⟨rfl, .receiveVerified ..⟩
      | accept giver ephemeral now =>
          obtain ⟨_, ⟨⟩, _⟩ | ⟨p, hp, hs⟩ := segment_ofExcept_cases hs
          obtain ⟨_, ⟨⟩, _⟩ | ⟨token, htoken, hs⟩ := segment_ofExcept_cases hs
          obtain ⟨_, ⟨⟩, _⟩ | ⟨d, hd, hs⟩ := segment_ofExcept_cases hs
          obtain ⟨_, ⟨⟩, _⟩ | ⟨hnot, hs⟩ := segment_throwIf_cases hs
          cases hs
          exact ⟨rfl, .acceptSealed (orThrow_ok.mp hp) htoken ⟨d, hd, Bool.eq_false_iff.mpr hnot⟩⟩
      | confirm blob now => cases hs; exact ⟨rfl, .confirmOpened ..⟩
      | revoke peer => cases hs
      | issueRevoke peer random now =>
          rw [Call.task, Island.issueRevoke, segment_get_bind] at hs
          rcases hrec : b.friends.get peer with _ | rec_
          · rw [hrec] at hs; cases hs
          · rw [hrec] at hs; cases hs
            exact ⟨rfl, .issueRevokeSigned hrec⟩
      | receiveRevoke n now =>
          obtain ⟨_, ⟨⟩, _⟩ | ⟨hshape, hs⟩ := segment_throwIf_cases hs
          obtain ⟨_, ⟨⟩, _⟩ | ⟨target, htarget, hs⟩ := segment_ofExcept_cases hs
          cases hs
          exact ⟨rfl, .receiveRevokeAddressed (by simpa using hshape) htarget⟩
  | issueMinted ttlSeconds random now seen =>
      obtain ⟨_, ⟨⟩, _⟩ | ⟨token, _, hs⟩ := segment_ofExcept_cases hs
      cases hs
  | receiveVerified token now seen =>
      obtain ⟨_, ⟨⟩, _⟩ | ⟨peer, hv, hs⟩ := segment_ofExcept_cases hs
      obtain ⟨_, ⟨⟩, _⟩ | ⟨nonce, hnonce, hs⟩ := segment_ofExcept_cases hs
      obtain ⟨_, ⟨⟩, _⟩ | ⟨unused, hs⟩ := segment_throwIf_cases hs
      obtain ⟨_, ⟨⟩, _⟩ | ⟨ed, hed, hs⟩ := segment_ofExcept_cases hs
      cases hs
      exact ⟨rfl, .receiveUnused hv hnonce unused hed⟩
  | receiveUnused verified hnonce unused hed =>
      obtain ⟨_, ⟨⟩, _⟩ | ⟨_, hs⟩ := segment_throwIf_cases hs
      obtain ⟨_, ⟨⟩, _⟩ | ⟨key, _, hs⟩ := segment_ofExcept_cases hs
      cases hs
  | acceptSealed hp htoken fresh =>
      obtain ⟨_, ⟨⟩, _⟩ | ⟨blob, _, hs⟩ := segment_ofExcept_cases hs
      obtain ⟨_, ⟨⟩, _⟩ | ⟨nonce, _, hs⟩ := segment_ofExcept_cases hs
      obtain ⟨_, ⟨⟩, _⟩ | ⟨peer, _, hs⟩ := segment_ofExcept_cases hs
      cases hs
  | confirmOpened blob now seen =>
      obtain ⟨_, ⟨⟩, _⟩ | ⟨accept, _, hs⟩ := segment_ofExcept_cases hs
      obtain ⟨_, ⟨⟩, _⟩ | ⟨ref, _, hs⟩ := segment_ofExcept_cases hs
      obtain ⟨_, ⟨⟩, _⟩ | ⟨offer, _, hs⟩ := segment_ofExcept_cases hs
      obtain ⟨_, ⟨⟩, _⟩ | ⟨_, hs⟩ := segment_throwIf_cases hs
      obtain ⟨_, ⟨⟩, _⟩ | ⟨expires, _, hs⟩ := segment_ofExcept_cases hs
      obtain ⟨_, ⟨⟩, _⟩ | ⟨_, hs⟩ := segment_throwIf_cases hs
      obtain ⟨_, ⟨⟩, _⟩ | ⟨peer, _, hs⟩ := segment_ofExcept_cases hs
      obtain ⟨_, ⟨⟩, _⟩ | ⟨ed, _, hs⟩ := segment_ofExcept_cases hs
      obtain ⟨_, ⟨⟩, _⟩ | ⟨nonce, _, hs⟩ := segment_ofExcept_cases hs
      obtain ⟨_, ⟨⟩, _⟩ | ⟨key, _, hs⟩ := segment_ofExcept_cases hs
      cases hs
  | issueRevokeSigned hrec =>
      obtain ⟨_, ⟨⟩, _⟩ | ⟨notice, _, hs⟩ := segment_ofExcept_cases hs
      obtain ⟨_, ⟨⟩, _⟩ | ⟨wg0, _, hs⟩ := segment_ofExcept_cases hs
      cases hs
  | receiveRevokeAddressed shape htarget =>
      obtain ⟨_, ⟨⟩, _⟩ | ⟨hself, hs⟩ := segment_throwIf_cases hs
      obtain ⟨_, ⟨⟩, _⟩ | ⟨peer, hpeer, hs⟩ := segment_ofExcept_cases hs
      obtain ⟨_, ⟨⟩, _⟩ | ⟨rec_, hrec, hs⟩ := segment_ofExcept_cases hs
      obtain ⟨_, ⟨⟩, _⟩ | ⟨nonce, hnonce, hs⟩ := segment_ofExcept_cases hs
      obtain ⟨_, ⟨⟩, _⟩ | ⟨unused, hs⟩ := segment_throwIf_cases hs
      cases hs
      obtain rfl := Classical.not_not.mp hself
      exact ⟨rfl, .receiveRevokeVerified shape htarget hpeer (orThrow_ok.mp hrec) hnonce unused⟩
  | receiveRevokeVerified shape htarget hpeer hrec hnonce unused =>
      obtain ⟨_, ⟨⟩, _⟩ | ⟨good, _, hs⟩ := segment_ofExcept_cases hs
      obtain ⟨_, ⟨⟩, _⟩ | ⟨_, hs⟩ := segment_throwIf_cases hs
      obtain ⟨_, ⟨⟩, _⟩ | ⟨sent, _, hs⟩ := segment_ofExcept_cases hs
      obtain ⟨_, ⟨⟩, _⟩ | ⟨at_, _, hs⟩ := segment_ofExcept_cases hs
      obtain ⟨_, ⟨⟩, _⟩ | ⟨since, _, hs⟩ := segment_ofExcept_cases hs
      obtain ⟨_, ⟨⟩, _⟩ | ⟨_, hs⟩ := segment_throwIf_cases hs
      cases hs

theorem stage_of_rest {c : Call} {seen : FriendBook} {x : Task FriendBook Exn Value}
    (h : Rest (Call.task P me) c seen x) : Stage P me c seen x := by
  induction h with
  | start s => exact .start c s
  | next h hs ih => exact (ih.suspend hs).2

theorem reads : ReadsOnly (Call.task P me) := fun h hs => ((stage_of_rest h).suspend hs).1

/-! ## What a call does to the book -/

variable (P me)

/-- The last segment of a call that does not throw: it began in `b` after the one before it began in
    `seen`, returned `r` and left the book `b'`. -/
inductive Commit : Call → FriendBook → FriendBook → Except Exn Value → FriendBook → Prop
  | issueToken {ttlSeconds : ℚ} {random : Bytes} {now : Instant} {token : Value} {seen b : FriendBook}
      (minted : makeToken P me ttlSeconds random now = .ok token) :
      Commit (.issueToken ttlSeconds random now) seen b (.ok token)
        { b with offered := b.offered.set (toB64 P random) token }
  | receive {token peer nonce : Value} {key : JsString} {now : Instant} {seen b : FriendBook}
      (verified : verifyToken P token now = .ok peer) (hnonce : prop token (js "nonce") = .ok nonce)
      (unused : ¬setHas seen.consumed nonce = true) (hkey : prop peer (js "ed25519") = .ok (.str key))
      (other : key ≠ selfEd P me) :
      Commit (.receive token now) seen b (.ok peer)
        { b with pending := b.pending.set key (pendingEntry P token now) }
  | accept {giver blob : JsString} {ephemeral : Bytes} {p token nonce peer : Value} {now : Instant}
      {seen b : FriendBook} (hp : seen.pending.get giver = some p)
      (htoken : prop p (js "token") = .ok token) (fresh : NotExpired P token now)
      (sealed : makeAccept P me token ephemeral now = .ok blob)
      (hnonce : prop token (js "nonce") = .ok nonce) (hpeer : prop token (js "from") = .ok peer) :
      Commit (.accept giver ephemeral now) seen b (.ok (.str blob))
        { b with
          pending := b.pending.delete giver
          consumed := setAdd b.consumed nonce
          friends := b.friends.set giver (friendRecord P peer nonce now) }
  | confirm {blob ref key : JsString} {accept offer peer : Value} {now : Instant} {seen b : FriendBook}
      (opened : openAccept P me blob = .ok accept) (href : prop accept (js "ref") = .ok (.str ref))
      (hoffer : b.offered.get ref = some offer) (unused : ¬setHas b.consumed (.str ref) = true)
      (fresh : NotExpired P offer now) (hpeer : prop accept (js "from") = .ok peer)
      (hkey : prop peer (js "ed25519") = .ok (.str key)) :
      Commit (.confirm blob now) seen b (.ok (friendRecord P peer (.str ref) now))
        { b with
          offered := b.offered.delete ref
          consumed := setAdd b.consumed (.str ref)
          friends := b.friends.set key (friendRecord P peer (.str ref) now) }
  | revoke (peer : JsString) (seen b : FriendBook) :
      Commit (.revoke peer) seen b (.ok (.bool (b.friends.has peer)))
        { b with friends := b.friends.delete peer }
  | issueRevokeNone {peer : JsString} {random : Bytes} {now : Instant} {seen b : FriendBook}
      (hrec : b.friends.get peer = none) : Commit (.issueRevoke peer random now) seen b (.ok .null) b
  | issueRevoke {peer : JsString} {random : Bytes} {now : Instant} {rec_ notice : Value}
      {seen b : FriendBook} (hrec : seen.friends.get peer = some rec_)
      (signed : makeRevoke P me peer random now = .ok notice) :
      Commit (.issueRevoke peer random now) seen b
        (match (prop rec_ (js "peer") >>= fun peer => prop peer (js "wg0")) with
          | .ok wg0 => .ok (.obj [(js "notice", notice), (js "wg0", wg0)])
          | .error e => .error e)
        { b with friends := b.friends.delete peer }
  | receiveRevoke {n nonce rec_ : Value} {peer : JsString} {now at_ : Instant} {since : Option Instant}
      {seen b : FriendBook} (shape : isRevoke n = true)
      (htarget : prop n (js "target") = .ok (.str (selfEd P me)))
      (hpeer : (prop n (js "from") >>= strKey) = .ok peer) (hrec : seen.friends.get peer = some rec_)
      (hnonce : prop n (js "nonce") = .ok nonce) (unused : ¬setHas seen.consumed nonce = true)
      (verified : verifyRevoke P n rec_ = .ok true)
      (hat : (prop n (js "at") >>= dateParse P) = .ok (some at_))
      (hsince : (prop rec_ (js "since") >>= dateParse P) = .ok since)
      (current : ∀ d ∈ since, d.ms - revokeSkewMs ≤ at_.ms) :
      Commit (.receiveRevoke n now) seen b (.ok rec_)
        { b with consumed := setAdd b.consumed nonce, friends := b.friends.delete peer }

variable {P me}

theorem strKey_ok {v : Value} {k : JsString} : strKey v = .ok k ↔ v = .str k := by
  cases v with
  | str s => exact ⟨fun h => congrArg _ (Except.ok.inj h), fun h => congrArg _ (Value.str.inj h)⟩
  | _ =>
      constructor
      · intro h; cases h
      · intro h; cases h

/-- **What a last segment can do**: throw and leave the book alone, or commit. -/
theorem Stage.done {c : Call} {seen b b' : FriendBook} {x : Task FriendBook Exn Value}
    {r : Except Exn Value} (h : Stage P me c seen x) (hs : x.segment b = (.done r, b')) :
    (∃ e, r = .error e ∧ b' = b) ∨ Commit P me c seen b r b' := by
  have throws : ∀ {e : Exn}, Outcome.done (σ := FriendBook) r = .done (.error e) → b' = b →
      (∃ e, r = .error e ∧ b' = b) ∨ Commit P me c seen b r b' := by
    intro e he hb
    cases he
    exact Or.inl ⟨e, rfl, hb⟩
  -- each check of the segment throws, or is passed and goes into the commit
  cases h with
  | start c seen =>
      cases c with
      | issueToken ttlSeconds random now => cases hs
      | receive token now => cases hs
      | accept giver ephemeral now =>
          obtain ⟨_, he, hb⟩ | ⟨p, _, hs⟩ := segment_ofExcept_cases hs
          · exact throws he hb
          obtain ⟨_, he, hb⟩ | ⟨token, _, hs⟩ := segment_ofExcept_cases hs
          · exact throws he hb
          obtain ⟨_, he, hb⟩ | ⟨d, _, hs⟩ := segment_ofExcept_cases hs
          · exact throws he hb
          obtain ⟨_, he, hb⟩ | ⟨_, hs⟩ := segment_throwIf_cases hs
          · exact throws he hb
          cases hs
      | confirm blob now => cases hs
      | revoke peer => cases hs; exact Or.inr (.revoke ..)
      | issueRevoke peer random now =>
          rw [Call.task, Island.issueRevoke, segment_get_bind] at hs
          rcases hrec : b.friends.get peer with _ | rec_
          · rw [hrec] at hs; cases hs
            exact Or.inr (.issueRevokeNone hrec)
          · rw [hrec] at hs; cases hs
      | receiveRevoke n now =>
          obtain ⟨_, he, hb⟩ | ⟨_, hs⟩ := segment_throwIf_cases hs
          · exact throws he hb
          obtain ⟨_, he, hb⟩ | ⟨target, _, hs⟩ := segment_ofExcept_cases hs
          · exact throws he hb
          cases hs
  | issueMinted ttlSeconds random now seen =>
      obtain ⟨_, he, hb⟩ | ⟨token, minted, hs⟩ := segment_ofExcept_cases hs
      · exact throws he hb
      cases hs
      exact Or.inr (.issueToken minted)
  | receiveVerified token now seen =>
      obtain ⟨_, he, hb⟩ | ⟨peer, _, hs⟩ := segment_ofExcept_cases hs
      · exact throws he hb
      obtain ⟨_, he, hb⟩ | ⟨nonce, _, hs⟩ := segment_ofExcept_cases hs
      · exact throws he hb
      obtain ⟨_, he, hb⟩ | ⟨_, hs⟩ := segment_throwIf_cases hs
      · exact throws he hb
      obtain ⟨_, he, hb⟩ | ⟨ed, _, hs⟩ := segment_ofExcept_cases hs
      · exact throws he hb
      cases hs
  | receiveUnused verified hnonce unused hed =>
      obtain ⟨_, he, hb⟩ | ⟨hother, hs⟩ := segment_throwIf_cases hs
      · exact throws he hb
      obtain ⟨_, he, hb⟩ | ⟨key, hkey, hs⟩ := segment_ofExcept_cases hs
      · exact throws he hb
      cases hs
      obtain rfl := strKey_ok.mp hkey
      exact Or.inr (.receive verified hnonce unused hed fun h => hother (congrArg _ h))
  | acceptSealed hp htoken fresh =>
      obtain ⟨_, he, hb⟩ | ⟨blob, sealed, hs⟩ := segment_ofExcept_cases hs
      · exact throws he hb
      obtain ⟨_, he, hb⟩ | ⟨nonce, hnonce, hs⟩ := segment_ofExcept_cases hs
      · exact throws he hb
      obtain ⟨_, he, hb⟩ | ⟨peer, hpeer, hs⟩ := segment_ofExcept_cases hs
      · exact throws he hb
      cases hs
      exact Or.inr (.accept hp htoken fresh sealed hnonce hpeer)
  | confirmOpened blob now seen =>
      obtain ⟨_, he, hb⟩ | ⟨accept, opened, hs⟩ := segment_ofExcept_cases hs
      · exact throws he hb
      obtain ⟨_, he, hb⟩ | ⟨ref, href, hs⟩ := segment_ofExcept_cases hs
      · exact throws he hb
      obtain ⟨_, he, hb⟩ | ⟨offer, hoffer, hs⟩ := segment_ofExcept_cases hs
      · exact throws he hb
      obtain ⟨_, he, hb⟩ | ⟨unused, hs⟩ := segment_throwIf_cases hs
      · exact throws he hb
      obtain ⟨_, he, hb⟩ | ⟨expires, hexp, hs⟩ := segment_ofExcept_cases hs
      · exact throws he hb
      obtain ⟨_, he, hb⟩ | ⟨hnot, hs⟩ := segment_throwIf_cases hs
      · exact throws he hb
      obtain ⟨_, he, hb⟩ | ⟨peer, hpeer, hs⟩ := segment_ofExcept_cases hs
      · exact throws he hb
      obtain ⟨_, he, hb⟩ | ⟨ed, hed, hs⟩ := segment_ofExcept_cases hs
      · exact throws he hb
      obtain ⟨_, he, hb⟩ | ⟨nonce, hnonce, hs⟩ := segment_ofExcept_cases hs
      · exact throws he hb
      obtain ⟨_, he, hb⟩ | ⟨key, hkey, hs⟩ := segment_ofExcept_cases hs
      · exact throws he hb
      cases hs
      obtain rfl := strKey_ok.mp hnonce
      obtain rfl := strKey_ok.mp hkey
      exact Or.inr (.confirm opened href (orThrow_ok.mp hoffer) unused
        ⟨expires, hexp, Bool.eq_false_iff.mpr hnot⟩ hpeer hed)
  | @issueRevokeSigned peer random rec_ now seen hrec =>
      obtain ⟨_, he, hb⟩ | ⟨notice, signed, hs⟩ := segment_ofExcept_cases hs
      · exact throws he hb
      have hc := Commit.issueRevoke (b := b) hrec signed
      rw [Island.issueRevokeSigned, segment_modify_bind, segment_ofExcept_bind] at hs
      cases hw : (prop rec_ (js "peer") >>= fun peer => prop peer (js "wg0")) with
      | ok wg0 => rw [hw] at hs hc; cases hs; exact Or.inr hc
      | error e => rw [hw] at hs hc; cases hs; exact Or.inr hc
  | receiveRevokeAddressed shape htarget =>
      obtain ⟨_, he, hb⟩ | ⟨_, hs⟩ := segment_throwIf_cases hs
      · exact throws he hb
      obtain ⟨_, he, hb⟩ | ⟨peer, _, hs⟩ := segment_ofExcept_cases hs
      · exact throws he hb
      obtain ⟨_, he, hb⟩ | ⟨rec_, _, hs⟩ := segment_ofExcept_cases hs
      · exact throws he hb
      obtain ⟨_, he, hb⟩ | ⟨nonce, _, hs⟩ := segment_ofExcept_cases hs
      · exact throws he hb
      obtain ⟨_, he, hb⟩ | ⟨_, hs⟩ := segment_throwIf_cases hs
      · exact throws he hb
      cases hs
  | receiveRevokeVerified shape htarget hpeer hrec hnonce unused =>
      obtain ⟨_, he, hb⟩ | ⟨good, verified, hs⟩ := segment_ofExcept_cases hs
      · exact throws he hb
      obtain ⟨_, he, hb⟩ | ⟨hgood, hs⟩ := segment_throwIf_cases hs
      · exact throws he hb
      obtain ⟨_, he, hb⟩ | ⟨sent, hsent, hs⟩ := segment_ofExcept_cases hs
      · exact throws he hb
      obtain ⟨_, he, hb⟩ | ⟨at_, hat, hs⟩ := segment_ofExcept_cases hs
      · exact throws he hb
      obtain ⟨_, he, hb⟩ | ⟨since, hsince, hs⟩ := segment_ofExcept_cases hs
      · exact throws he hb
      obtain ⟨_, he, hb⟩ | ⟨hcur, hs⟩ := segment_throwIf_cases hs
      · exact throws he hb
      cases hs
      obtain rfl := orThrow_ok.mp hat
      obtain rfl : good = true := by simpa using hgood
      refine Or.inr (.receiveRevoke shape htarget hpeer hrec hnonce unused verified hsent hsince ?_)
      intro d hd
      obtain rfl := Option.mem_def.mp hd
      simpa using hcur

/-- A call that runs alone throws without effect or commits on the book it began in. -/
theorem run_cases {c : Call} {b b' : FriendBook} {r : Except Exn Value}
    (h : (c.task P me).run b = (r, b')) :
    (∃ e, r = .error e ∧ b' = b) ∨ Commit P me c b b r b' := by
  obtain ⟨x, hrest, hs⟩ := run_last reads h
  exact (stage_of_rest hrest).done hs

/-- The converse: what a commit asks for is enough for a call that runs alone. -/
theorem Commit.run {c : Call} {b b' : FriendBook} {r : Except Exn Value} (h : Commit P me c b b r b') :
    (c.task P me).run b = (r, b') := by
  cases h with
  | issueToken minted => exact run_ofExcept_ok minted
  | receive verified hnonce unused hkey other =>
      refine (run_ofExcept_ok verified).trans ?_
      refine (run_ofExcept_ok hnonce).trans ?_
      refine (run_throwIf_neg unused).trans ?_
      refine (run_ofExcept_ok hkey).trans ?_
      exact run_throwIf_neg fun h => other (Value.str.inj h)
  | accept hp htoken fresh sealed hnonce hpeer =>
      -- the checks in the order of the source, each passed
      obtain ⟨d, hd, hbefore⟩ := fresh
      refine (run_ofExcept_ok (orThrow_ok.mpr hp)).trans ?_
      refine (run_ofExcept_ok htoken).trans ?_
      refine (run_ofExcept_ok hd).trans ?_
      refine (run_throwIf_neg (Bool.eq_false_iff.mp hbefore)).trans ?_
      refine (run_ofExcept_ok sealed).trans ?_
      refine (run_ofExcept_ok hnonce).trans ?_
      exact run_ofExcept_ok hpeer
  | confirm opened href hoffer unused fresh hpeer hkey =>
      obtain ⟨d, hd, hbefore⟩ := fresh
      refine (run_ofExcept_ok opened).trans ?_
      refine (run_ofExcept_ok href).trans ?_
      refine (run_ofExcept_ok (orThrow_ok.mpr hoffer)).trans ?_
      refine (run_throwIf_neg unused).trans ?_
      refine (run_ofExcept_ok hd).trans ?_
      refine (run_throwIf_neg (Bool.eq_false_iff.mp hbefore)).trans ?_
      refine (run_ofExcept_ok hpeer).trans ?_
      exact run_ofExcept_ok hkey
  | revoke peer => rfl
  | issueRevokeNone hrec => rw [Call.task, Island.issueRevoke, run_get_bind, hrec]; rfl
  | @issueRevoke peer random now rec_ notice _ _ hrec signed =>
      rw [Call.task, Island.issueRevoke, run_get_bind, hrec]
      refine (run_ofExcept_ok signed).trans ?_
      rw [run_modify_bind, run_ofExcept_bind]
      cases prop rec_ (js "peer") >>= fun peer => prop peer (js "wg0") <;> rfl
  | receiveRevoke shape htarget hpeer hrec hnonce unused verified hat hsince current =>
      refine (run_throwIf_neg (by rw [shape]; decide)).trans ?_
      refine (run_ofExcept_ok htarget).trans ?_
      refine (run_throwIf_neg (not_not.mpr rfl)).trans ?_
      refine (run_ofExcept_ok hpeer).trans ?_
      refine (run_ofExcept_ok (orThrow_ok.mpr hrec)).trans ?_
      refine (run_ofExcept_ok hnonce).trans ?_
      refine (run_throwIf_neg unused).trans ?_
      refine (run_ofExcept_ok verified).trans ?_
      refine (run_throwIf_neg (by decide)).trans ?_
      refine (run_ofExcept_ok hat).trans ?_
      refine (run_ofExcept_ok (orThrow_ok.mpr rfl)).trans ?_
      refine (run_ofExcept_ok hsince).trans ?_
      refine run_throwIf_neg fun hstale => ?_
      obtain ⟨d, hd, hlt⟩ := (Option.any_eq_true _ _).mp hstale
      exact absurd (of_decide_eq_true hlt) (not_lt.mpr (current d hd))

end Island
end VpnPi
