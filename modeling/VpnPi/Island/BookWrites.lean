import VpnPi.Island.PeerKeys

/-!
# `Island.BookWrites` — a call that fails writes nothing

`accept` and `confirm` change several maps, and read parts of the token or of the accept between one write and the next.
Here they are write for write as the source has them; what is read in between has been read before, by the checks
that passed, so nothing can throw after the first write (`acceptWrites_run`, `confirmWrites_run`). `issueRevoke` reads
the peer's address after its write, which every stored record has (`Keyed`).
-/

namespace VpnPi
namespace Island

open Js Async Task

variable (P : Platform) (me : Self)

/-! ## The operations, write for write -/

/-- `Map.prototype.delete` on a map whose keys are strings. -/
def deleteKey (m : OrdMap JsString Value) : Value → OrdMap JsString Value
  | .str k => m.delete k
  | _ => m

def acceptWrites (giverEd25519 : JsString) (ephemeral : Bytes) (now : Instant) : Task FriendBook Exn Value := do
  let b ← get
  let p ← ofExcept (orThrow (.friend (js "no pending request from that peer")) (b.pending.get giverEd25519))
  let token ← ofExcept (prop p (js "token"))
  let expires ← ofExcept (prop token (js "expires") >>= dateParse P)
  throwIf (isBefore expires now) (.friend (js "token expired"))
  let blob ← awaiting (makeAccept P me token ephemeral now)
  modify fun b => { b with pending := b.pending.delete giverEd25519 }
  let nonce ← ofExcept (prop token (js "nonce"))
  modify fun b => { b with consumed := setAdd b.consumed nonce }
  let peer ← ofExcept (prop token (js "from"))
  modify fun b => { b with friends := b.friends.set giverEd25519 (friendRecord P peer nonce now) }
  pure (.str blob)

def confirmWrites (blobB64 : JsString) (now : Instant) : Task FriendBook Exn Value := do
  let accept ← awaiting (openAccept P me blobB64)
  let b ← get
  let ref ← ofExcept (prop accept (js "ref"))
  let offer ← ofExcept (orThrow (.friend (js "accept does not match any open offer")) (getKey b.offered ref))
  throwIf (setHas b.consumed ref) (.friend (js "offer already consumed"))
  let expires ← ofExcept (prop offer (js "expires") >>= dateParse P)
  throwIf (isBefore expires now) (.friend (js "offer expired"))
  modify fun b => { b with offered := deleteKey b.offered ref }
  modify fun b => { b with consumed := setAdd b.consumed ref }
  let peer ← ofExcept (prop accept (js "from"))
  let rec_ := friendRecord P peer ref now
  let ed ← ofExcept (prop peer (js "ed25519"))
  let key ← ofExcept (strKey ed)
  modify fun b => { b with friends := b.friends.set key rec_ }
  pure rec_

/-- A call of the friending interface. A `ttlSeconds` that is `NaN` or infinite (`none`) makes an invalid date. -/
inductive FriendOp where
  | issueToken (ttlSeconds : Option ℚ) (random : Bytes) (now : Instant)
  | receive (token : Value) (now : Instant)
  | accept (giver : JsString) (ephemeral : Bytes) (now : Instant)
  | confirm (blob : JsString) (now : Instant)
  | issueRevoke (peer : JsString) (random : Bytes) (now : Instant)
  | receiveRevoke (notice : Value) (now : Instant)

def FriendOp.task : FriendOp → Task FriendBook Exn Value
  | issueToken none _ _ => awaiting (.error .rangeError)
  | issueToken (some ttlSeconds) random now => Island.issueToken P me ttlSeconds random now
  | receive token now => Island.receive P me token now
  | accept giver ephemeral now => acceptWrites P me giver ephemeral now
  | confirm blob now => confirmWrites P me blob now
  | issueRevoke peer random now => Island.issueRevoke P me peer random now
  | receiveRevoke notice now => Island.receiveRevoke P me notice now

/-- The call threw, or returned `null`. -/
def Failed (r : Except Exn Value) : Prop := (∃ e, r = .error e) ∨ r = .ok .null

variable {P me}

/-! ## Nothing throws between two writes -/

theorem run_ofExcept_congr {α β : Type} {x : Except Exn α} {f g : α → Task FriendBook Exn β} {b : FriendBook}
    (h : ∀ a, x = .ok a → (f a).run b = (g a).run b) : (ofExcept x >>= f).run b = (ofExcept x >>= g).run b := by
  cases x with
  | ok a => exact h a rfl
  | error e => rfl

theorem run_throwIf_congr {β : Type} {c : Prop} [Decidable c] {e : Exn} {f g : Unit → Task FriendBook Exn β} {b : FriendBook}
    (h : (f ()).run b = (g ()).run b) : (throwIf c e >>= f).run b = (throwIf c e >>= g).run b := by
  rw [run_throwIf_bind, run_throwIf_bind, h]

theorem acceptWrites_run (giver : JsString) (ephemeral : Bytes) (now : Instant) (b : FriendBook) :
    (acceptWrites P me giver ephemeral now).run b = (accept P me giver ephemeral now).run b := by
  refine run_ofExcept_congr fun p _ => run_ofExcept_congr fun token _ => run_ofExcept_congr fun d _ => ?_
  refine run_throwIf_congr (run_ofExcept_congr fun blob hblob => ?_)
  -- what is read after the first write, `makeAccept` has read
  obtain ⟨nonce, _, peer, _, _, hnonce, _, hpeer, _⟩ := makeAccept_ok hblob
  exact ((run_ofExcept_ok hnonce).trans (run_ofExcept_ok hpeer)).trans
    ((run_ofExcept_ok hnonce).trans (run_ofExcept_ok hpeer)).symm

theorem getKey_ok {m : OrdMap JsString Value} {k v : Value} (h : getKey m k = some v) : ∃ s, k = .str s := by
  cases k with
  | str s => exact ⟨s, rfl⟩
  | _ => cases h

theorem confirmWrites_run (blob : JsString) (now : Instant) (b : FriendBook) :
    (confirmWrites P me blob now).run b = (confirm P me blob now).run b := by
  refine run_ofExcept_congr fun accept haccept => run_ofExcept_congr fun ref _ => ?_
  refine run_ofExcept_congr fun offer hoffer => run_throwIf_congr (run_ofExcept_congr fun d _ => ?_)
  refine run_throwIf_congr ?_
  -- the key has verified the accept, and the nonce is that of an offer
  obtain ⟨_, _, _, peer, pub, _, _, hpeer, hpub, hverified⟩ := openAccept_ok haccept
  obtain ⟨_, _, pk, _, _, hpk, _⟩ := hverified.ok
  obtain ⟨key, rfl, _⟩ := fromB64_ok.mp hpk
  obtain ⟨nonce, rfl⟩ := getKey_ok (orThrow_ok.mp hoffer)
  have hstr : ∀ s, strKey (.str s) = .ok s := fun _ => strKey_ok.mpr rfl
  refine ((run_ofExcept_ok hpeer).trans ((run_ofExcept_ok hpub).trans (run_ofExcept_ok (hstr key)))).trans ?_
  refine ((run_ofExcept_ok hpeer).trans ((run_ofExcept_ok hpub).trans ?_)).symm
  exact (run_ofExcept_ok (hstr nonce)).trans (run_ofExcept_ok (hstr key))

/-! ## What fails -/

/-- **A commit does not fail**, unless it is of an `issueRevoke` that found no friend. -/
theorem Commit.failed {c : Call} {b b' : FriendBook} {r : Except Exn Value} (h : Commit P me c b b r b')
    (hb : Keyed P b) (hfailed : Failed r) : b' = b := by
  have hok : ∀ {v : Value}, v ≠ .null → ¬Failed (.ok v) := by
    rintro v hv (⟨e, he⟩ | hnull)
    · cases he
    · exact hv (Except.ok.inj hnull)
  cases h with
  | issueToken minted =>
      obtain ⟨_, _, _, _, rfl⟩ := makeToken_ok minted
      exact absurd hfailed (hok fun h => by cases h)
  | receive verified hnonce unused hkey other =>
      refine absurd hfailed (hok ?_)
      rintro rfl
      cases hkey
  | accept => exact absurd hfailed (hok fun h => by cases h)
  | confirm => exact absurd hfailed (hok fun h => by cases h)
  | revoke => exact absurd hfailed (hok fun h => by cases h)
  | issueRevokeNone => rfl
  | @issueRevoke peer _ _ rec_ notice _ _ hrec signed =>
      obtain ⟨stored, hstored, hown⟩ := hb.friends peer rec_ hrec
      have hwg0 : ∃ wg0, (prop rec_ (js "peer") >>= fun peer => prop peer (js "wg0")) = .ok wg0 := by
        have hread : ∃ wg0, prop stored (js "wg0") = .ok wg0 := by
          have hkey := hown.own
          cases stored with
          | undefined => cases hkey
          | null => cases hkey
          | _ => exact ⟨_, rfl⟩
        obtain ⟨wg0, hread⟩ := hread
        exact ⟨wg0, bind_ok.mpr ⟨stored, hstored, hread⟩⟩
      obtain ⟨wg0, hwg0⟩ := hwg0
      rw [hwg0] at hfailed
      exact absurd hfailed (hok fun h => by cases h)
  | receiveRevoke shape htarget hpeer hrec =>
      obtain ⟨stored, hstored, _⟩ := hb.friends _ _ hrec
      refine absurd hfailed (hok ?_)
      rintro rfl
      cases hstored

theorem FriendOp.failed {op : FriendOp} {b b' : FriendBook} {r : Except Exn Value} (hb : Keyed P b)
    (h : (op.task P me).run b = (r, b')) (hfailed : Failed r) : b' = b := by
  have hcall : ∀ {c : Call}, (c.task P me).run b = (r, b') → b' = b := fun h => by
    rcases run_cases h with ⟨_, _, rfl⟩ | hc
    · rfl
    · exact hc.failed hb hfailed
  cases op with
  | issueToken ttlSeconds random now =>
      cases ttlSeconds with
      | none => exact (congrArg Prod.snd h).symm
      | some ttlSeconds => exact hcall (c := .issueToken ttlSeconds random now) h
  | receive token now => exact hcall (c := .receive token now) h
  | accept giver ephemeral now => exact hcall (c := .accept giver ephemeral now) ((acceptWrites_run ..).symm.trans h)
  | confirm blob now => exact hcall (c := .confirm blob now) ((confirmWrites_run ..).symm.trans h)
  | issueRevoke peer random now => exact hcall (c := .issueRevoke peer random now) h
  | receiveRevoke notice now => exact hcall (c := .receiveRevoke notice now) h

/-- **A call that throws or returns `null` changes nothing**, whatever it was given, in every book that calls and restarts
    have led to. -/
theorem failed_op_keeps (P : Platform) (me : Self) {tr : List (LifeEvent P)} {p : BookPool P}
    (run : Run (LifeStep P me) ⟨.empty, []⟩ tr p) (op : FriendOp) {r : Except Exn Value} {b' : FriendBook}
    (h : (op.task P me).run p.state = (r, b')) (hfailed : Failed r) : b' = p.state :=
  FriendOp.failed (lifeInv_of_run run).book.keyed h hfailed

namespace Symbolic

/-- A token that is shown again after it was accepted is refused, and nothing changes. -/
theorem replay_keeps : ∃ tr b, Run (LifeStep canonical (node 2)) ⟨.empty, []⟩ tr ⟨b, []⟩ ∧
    b.friends.has (js "01") = true ∧
    ((FriendOp.receive (spelled (js "01") (js "07")) epoch).task canonical (node 2)).run b
      = (.error (.friend (js "token already used")), b) := by
  obtain ⟨tr, b, run, _, hfriends, hconsumed⟩ := spelled_reached
  refine ⟨tr, b, run, by rw [hfriends]; decide, ?_⟩
  have hused : setHas b.consumed (.str (js "07")) = true := by
    rw [hconsumed]
    decide
  have hnonce : prop (spelled (js "01") (js "07")) (js "nonce") = .ok (.str (js "07")) := rfl
  have hthrows : (((FriendOp.receive (spelled (js "01") (js "07")) epoch).task canonical (node 2)).run b).1
      = .error (.friend (js "token already used")) := by
    show ((Island.receive canonical (node 2) (spelled (js "01") (js "07")) epoch).run b).1 = _
    rw [Island.receive, run_awaiting, run_ofExcept_ok spelled_verified, run_get_bind, run_ofExcept_ok hnonce,
      run_throwIf_bind, if_pos hused]
  exact Prod.ext hthrows (failed_op_keeps canonical (node 2) run _ (Prod.eta _).symm (.inl ⟨_, hthrows⟩))

end Symbolic

end Island
end VpnPi
