import VpnPi.Island.Handshake
import VpnPi.Island.SingleUse

/-!
# `Island.Expiry` — how far the expiry of a token reaches

`verifyToken`, `accept` and `confirm` each refuse what `Date.parse(expires) < now` calls expired, and `NaN` is less
than nothing: an `expires` that names no instant passes all three checks for ever. `expiry_bounds_iff` says that
this is the only way past the expiry.

* `Expiring` — what a book may hold: an `expires` that prints as itself and names an instant;
* `BookStep.expiring` — every step keeps it, unless it receives a token without one.
-/

namespace VpnPi
namespace Island

open Js Async Value

variable {P : Platform} {me : Self}

/-! ## The expiry of a token -/

/-- The field `expires` denotes an instant. -/
def DenotesInstant (P : Platform) (t : Value) : Prop :=
  ∃ d, (prop t (js "expires") >>= dateParse P) = .ok (some d)

/-- It denotes an instant that is not before `now`. -/
def ValidAt (P : Platform) (t : Value) (now : Instant) : Prop :=
  ∃ d, (prop t (js "expires") >>= dateParse P) = .ok (some d) ∧ now.ms ≤ d.ms

/-- `Date.parse(t.expires)` is `NaN`. -/
def Undated (P : Platform) (t : Value) : Prop := (prop t (js "expires") >>= dateParse P) = .ok none

/-- What the expiry promises of one event: what becomes pending has one, and what becomes a friendship comes from
    a token that is still valid. -/
def BookEvent.Bounded (P : Platform) (me : Self) : BookEvent → Prop
  | .call (.receive t _) _ (.ok _) => DenotesInstant P t
  | .call (.accept giver _ now) before (.ok _) => ∃ t, PendingToken before giver t ∧ ValidAt P t now
  | .call (.confirm blob now) before (.ok _) => ∃ accept ref offer, openAccept P me blob = .ok accept ∧
      prop accept (js "ref") = .ok (.str ref) ∧ before.offered.get ref = some offer ∧ ValidAt P offer now
  | _ => True

/-- The promise, over a whole run that ends in `b`. -/
def ExpiryBounds (P : Platform) (me : Self) (tr : List BookEvent) (b : FriendBook) : Prop :=
  (∀ e ∈ tr, e.Bounded P me) ∧ ∀ giver t, PendingToken b giver t → DenotesInstant P t

/-- `receive` has nothing else against the token: the version and the signature are right, the nonce is unused, and it
    is not the node's own. -/
structure Receivable (P : Platform) (me : Self) (b : FriendBook) (t : Value) : Prop where
  version : prop t (js "v") = .ok (.num Number.one)
  signed  : ∃ view sig peer key nonce, tokenSignable t = .ok view ∧ prop t (js "sig") = .ok sig ∧
    prop t (js "from") = .ok peer ∧ prop peer (js "ed25519") = .ok (.str key) ∧
    verify P view sig (.str key) = .ok true ∧ prop t (js "nonce") = .ok nonce ∧
    ¬setHas b.consumed nonce = true ∧ key ≠ selfEd P me

theorem ValidAt.denotes {t : Value} {now : Instant} (h : ValidAt P t now) : DenotesInstant P t :=
  h.imp fun _ hd => hd.1

theorem NotExpired.validAt {t : Value} {now : Instant} (h : NotExpired P t now) (hd : DenotesInstant P t) :
    ValidAt P t now := by
  obtain ⟨d, hparse⟩ := hd
  obtain ⟨d', hparse', hnot⟩ := h
  obtain rfl := Except.ok.inj (hparse'.symm.trans hparse)
  exact ⟨d, hparse, Int.not_lt.mp (of_decide_eq_false hnot)⟩

/-! ## What a book holds -/

/-- An `expires` that survives a save, and denotes an instant. -/
def Expiring (P : Platform) (t : Value) : Prop :=
  ∃ e d, prop t (js "expires") = .ok e ∧ Plain e ∧ dateParse P e = .ok (some d)

theorem Expiring.denotes {t : Value} (h : Expiring P t) : DenotesInstant P t := by
  obtain ⟨e, d, he, _, hd⟩ := h
  exact ⟨d, bind_ok.mpr ⟨e, he, hd⟩⟩

theorem Expiring.jsonView {t : Value} (h : Expiring P t) : Expiring P (jsonView t) := by
  obtain ⟨e, d, he, hplain, hd⟩ := h
  exact ⟨e, d, prop_jsonView_plain he hplain, hplain, hd⟩

/-- What a token has signed of its expiry prints as itself. -/
theorem expiring_of_verified {t peer : Value} {now : Instant} (h : verifyToken P t now = .ok peer)
    (hd : DenotesInstant P t) : Expiring P t := by
  obtain ⟨_, _, view, sig, pub, hview, _, _, hverified⟩ := verifyToken_ok h
  obtain ⟨_, _, _, _, _, expires, _, _, _, _, _, hexpires, rfl⟩ := tokenSignable_ok hview
  obtain ⟨d, hd⟩ := hd
  obtain ⟨e, he, hparse⟩ := bind_ok.mp hd
  obtain rfl := Except.ok.inj (he.symm.trans hexpires)
  have hplain := plainFields_iff.mp hverified.plain (js "expires", e) (by simp)
  exact ⟨e, d, he, hplain, hparse⟩

theorem expiring_of_minted (hdates : ∀ d, Dated P d) {ttlSeconds : ℚ} {random : Bytes} {now : Instant} {token : Value}
    (h : makeToken P me ttlSeconds random now = .ok token) : Expiring P token := by
  obtain ⟨expires, m, _, _, rfl⟩ := makeToken_ok h
  exact ⟨.str (P.toISOString expires), expires, rfl, trivial, congrArg Except.ok (hdates expires)⟩

/-- Every offer and every pending request has an expiry. -/
structure BookExpiring (P : Platform) (b : FriendBook) : Prop where
  offered : ∀ ref offer, b.offered.get ref = some offer → Expiring P offer
  pending : ∀ giver p, b.pending.get giver = some p →
    ∃ t, prop p (js "token") = .ok t ∧ t ≠ .undefined ∧ Expiring P t

theorem BookExpiring.empty : BookExpiring P .empty := ⟨nofun, nofun⟩

theorem BookExpiring.token {b : FriendBook} (h : BookExpiring P b) {giver : JsString} {t : Value}
    (ht : PendingToken b giver t) : Expiring P t := by
  obtain ⟨p, hp, htoken⟩ := ht
  obtain ⟨t', htoken', _, hexpiring⟩ := h.pending giver p hp
  obtain rfl := Except.ok.inj (htoken.symm.trans htoken')
  exact hexpiring

theorem BookExpiring.reloaded {b : FriendBook} (h : BookExpiring P b) : BookExpiring P b.reloaded where
  offered := by
    intro ref offer hget
    obtain ⟨o, ho, rfl⟩ := OrdMap.get_mapVal_eq_some.mp hget
    exact (h.offered ref o ho).jsonView
  pending := by
    intro giver p hget
    obtain ⟨q, hq, rfl⟩ := OrdMap.get_mapVal_eq_some.mp hget
    obtain ⟨t, ht, hne, hexpiring⟩ := h.pending giver q hq
    exact ⟨Js.jsonView t, prop_jsonView ht hne, plain_ne_undefined (jsonView_plain t), hexpiring.jsonView⟩

/-! ## What a call can do past the expiry -/

/-- `verifyToken`, both ways. -/
theorem verifyToken_iff {t peer : Value} {now : Instant} : verifyToken P t now = .ok peer ↔
    prop t (js "v") = .ok (.num Number.one) ∧ prop t (js "from") = .ok peer ∧ NotExpired P t now ∧
      ∃ view sig pub, tokenSignable t = .ok view ∧ prop t (js "sig") = .ok sig ∧ prop peer (js "ed25519") = .ok pub ∧
        verify P view sig pub = .ok true := by
  constructor
  · intro h
    obtain ⟨v, hv, h⟩ := bind_ok.mp h
    obtain ⟨_, hone, h⟩ := bind_ok.mp h
    obtain ⟨view, hview, h⟩ := bind_ok.mp h
    obtain ⟨sig, hsig, h⟩ := bind_ok.mp h
    obtain ⟨peer', hpeer, h⟩ := bind_ok.mp h
    obtain ⟨pub, hpub, h⟩ := bind_ok.mp h
    obtain ⟨good, hgood, h⟩ := bind_ok.mp h
    obtain ⟨_, hg, h⟩ := bind_ok.mp h
    obtain ⟨expires, hexp, h⟩ := bind_ok.mp h
    obtain ⟨_, hnot, h⟩ := bind_ok.mp h
    obtain rfl := Except.ok.inj h
    obtain rfl : good = true := by simpa using failIf_ok.mp hg
    obtain rfl : v = .num Number.one := Classical.not_not.mp (failIf_ok.mp hone)
    exact ⟨hv, hpeer, ⟨expires, hexp, Bool.eq_false_iff.mpr (failIf_ok.mp hnot)⟩, view, sig, pub, hview, hsig, hpub, hgood⟩
  · rintro ⟨hv, hpeer, ⟨expires, hexp, hnot⟩, view, sig, pub, hview, hsig, hpub, hgood⟩
    refine bind_ok.mpr ⟨_, hv, bind_ok.mpr ⟨(), failIf_ok.mpr (not_not_intro rfl), ?_⟩⟩
    refine bind_ok.mpr ⟨view, hview, bind_ok.mpr ⟨sig, hsig, bind_ok.mpr ⟨peer, hpeer, bind_ok.mpr ⟨pub, hpub, ?_⟩⟩⟩⟩
    refine bind_ok.mpr ⟨true, hgood, bind_ok.mpr ⟨(), failIf_ok.mpr Bool.false_ne_true, ?_⟩⟩
    exact bind_ok.mpr ⟨expires, hexp, bind_ok.mpr ⟨(), failIf_ok.mpr (Bool.eq_false_iff.mp hnot), rfl⟩⟩

/-- What `receive` has taken was receivable. -/
theorem receivable_of_commit {t peer nonce : Value} {key : JsString} {now : Instant} {b : FriendBook}
    (verified : verifyToken P t now = .ok peer) (hnonce : prop t (js "nonce") = .ok nonce)
    (unused : ¬setHas b.consumed nonce = true) (hkey : prop peer (js "ed25519") = .ok (.str key))
    (other : key ≠ selfEd P me) : Receivable P me b t := by
  obtain ⟨hv, hpeer, _, view, sig, pub, hview, hsig, hpub, hgood⟩ := verifyToken_iff.mp verified
  obtain rfl := Except.ok.inj (hkey.symm.trans hpub)
  exact ⟨hv, view, sig, peer, key, nonce, hview, hsig, hpeer, hkey, hgood, hnonce, unused, other⟩

/-- **`NaN` passes**: at every time, a receivable token without an instant becomes pending. -/
theorem Receivable.received {b b' : FriendBook} {t : Value} {now : Instant} {r : Except Exn Value}
    (h : Receivable P me b t) (hundated : Undated P t) (hrun : ((Call.receive t now).task P me).run b = (r, b')) :
    ∃ peer, r = .ok peer := by
  obtain ⟨hv, view, sig, peer, key, nonce, hview, hsig, hpeer, hkey, hgood, hnonce, unused, other⟩ := h
  have verified : verifyToken P t now = .ok peer :=
    verifyToken_iff.mpr ⟨hv, hpeer, ⟨none, hundated, rfl⟩, view, sig, .str key, hview, hsig, hkey, hgood⟩
  have commit : Commit P me (.receive t now) b b (.ok peer) _ := .receive verified hnonce unused hkey other
  exact ⟨peer, (Prod.mk.inj (hrun.symm.trans commit.run)).1⟩

theorem DenotesInstant.of_notExpired {t : Value} {now : Instant} (h : NotExpired P t now) (hdated : ¬Undated P t) :
    DenotesInstant P t := by
  obtain ⟨d, hd, _⟩ := h
  cases d with
  | none => exact absurd hd hdated
  | some d => exact ⟨d, hd⟩

/-- A step receives no token that denotes no instant. -/
def NoneUndated (P : Platform) (me : Self) (e : BookEvent) : Prop :=
  ∀ t now before r, e = .call (.receive t now) before r → Receivable P me before t → ¬Undated P t

/-- **One step** keeps the expiries of the book, and stays within them. -/
theorem BookStep.expiring (hdates : ∀ d, Dated P d) {b b' : FriendBook} {e : BookEvent} (h : BookStep P me b e b')
    (hwf : BookWF P.toEngine b) (hb : BookExpiring P b) (hdated : NoneUndated P me e) :
    e.Bounded P me ∧ BookExpiring P b' := by
  cases h with
  | reload hload =>
      rw [reload_eq hwf] at hload
      obtain rfl := Except.ok.inj hload
      exact ⟨trivial, hb.reloaded⟩
  | @call c _ _ r wf hrun =>
      rcases run_cases hrun with ⟨_, rfl, rfl⟩ | hc
      · -- the call threw
        cases c <;> exact ⟨trivial, hb⟩
      cases hc with
      | issueToken minted =>
          refine ⟨trivial, { hb with offered := fun ref offer hget => ?_ }⟩
          rw [OrdMap.get_set] at hget
          split at hget
          · obtain rfl := Option.some.inj hget
            exact expiring_of_minted hdates minted
          · exact hb.offered ref offer hget
      | @receive t peer nonce key now _ _ verified hnonce unused hkey other =>
          have hdenotes : DenotesInstant P t := .of_notExpired (verifyToken_ok verified).2.1
            (hdated _ _ _ _ rfl (receivable_of_commit verified hnonce unused hkey other))
          refine ⟨hdenotes, { hb with pending := fun giver p hget => ?_ }⟩
          rw [OrdMap.get_set] at hget
          split at hget
          · obtain rfl := Option.some.inj hget
            have hdefined : t ≠ .undefined := by
              rintro rfl
              cases (verifyToken_iff.mp verified).1
            exact ⟨t, rfl, hdefined, expiring_of_verified verified hdenotes⟩
          · exact hb.pending giver p hget
      | accept hp htoken fresh sealed hnonce hpeer =>
          -- the token was checked when it was received, and its date again now
          have hpending : PendingToken b _ _ := ⟨_, hp, htoken⟩
          refine ⟨⟨_, hpending, fresh.validAt (hb.token hpending).denotes⟩, { hb with pending := fun giver p hget => ?_ }⟩
          exact hb.pending giver p (OrdMap.get_of_get_delete hget)
      | confirm opened href hoffer unused fresh hpeer hkey =>
          refine ⟨⟨_, _, _, opened, href, hoffer, fresh.validAt (hb.offered _ _ hoffer).denotes⟩,
            { hb with offered := fun ref offer hget => ?_ }⟩
          exact hb.offered ref offer (OrdMap.get_of_get_delete hget)
      | revoke peer => exact ⟨trivial, ⟨hb.offered, hb.pending⟩⟩
      | issueRevokeNone hrec => exact ⟨trivial, hb⟩
      | issueRevoke hrec signed => exact ⟨trivial, ⟨hb.offered, hb.pending⟩⟩
      | receiveRevoke => exact ⟨trivial, ⟨hb.offered, hb.pending⟩⟩

/-- Over a run. -/
theorem expiring_of_run (hdates : ∀ d, Dated P d) {tr : List BookEvent} {b : FriendBook}
    (run : Run (BookStep P me) .empty tr b) (hdated : ∀ e ∈ tr, NoneUndated P me e) :
    (∀ e ∈ tr, e.Bounded P me) ∧ BookExpiring P b := by
  induction run with
  | nil => exact ⟨fun _ he => absurd he List.not_mem_nil, .empty⟩
  | snoc run h ih =>
      obtain ⟨hinit, hlast⟩ := List.forall_mem_append.mp hdated
      obtain ⟨hbounded, hb⟩ := ih hinit
      obtain ⟨hstep, hb'⟩ := h.expiring hdates (bookWF_of_run run) hb (hlast _ (List.mem_singleton_self _))
      exact ⟨List.forall_mem_append.mpr ⟨hbounded, List.forall_mem_singleton.mpr hstep⟩, hb'⟩

/-- **The expiry bounds the whole handshake** in a run exactly if `receive` is never given a token that it has nothing
    else against and whose `expires` denotes no instant. -/
theorem expiry_bounds_iff (hdates : ∀ d, Dated P d) {tr : List BookEvent} {b : FriendBook}
    (run : Run (BookStep P me) .empty tr b) :
    ExpiryBounds P me tr b ↔ ∀ t now before r, .call (.receive t now) before r ∈ tr →
      Receivable P me before t → ¬Undated P t := by
  constructor
  · rintro ⟨hbounded, _⟩ t now before r hmem hreceivable hundated
    obtain ⟨pre, post, rfl⟩ := List.append_of_mem hmem
    obtain ⟨_, _, _, hstep⟩ := run.split
    cases hstep with
    | call _ hrun =>
        obtain ⟨peer, rfl⟩ := hreceivable.received hundated hrun
        obtain ⟨d, hd⟩ : DenotesInstant P t := hbounded _ hmem
        cases hundated.symm.trans hd
  · intro hdated
    obtain ⟨hbounded, hb⟩ := expiring_of_run hdates run fun e he t now before r heq => hdated t now before r (heq ▸ he)
    exact ⟨hbounded, fun giver t ht => (hb.token ht).denotes⟩

/-! ## An invite with and without an expiry -/

open Symbolic

/-- The signed view of an invite that expires `never`. -/
def undatedView : Value :=
  .obj [(js "v", .num Number.one), (js "from", peerPubOf dated (node 1)), (js "nonce", .str (toHex [7])),
    (js "issued", .str (isoText epoch)), (js "expires", .str (js "never"))]

def undatedInvite : Value := withSig undatedView (((sign dated undatedView [1]).toOption).getD [])

theorem undatedInvite_wf : undatedInvite.WF dated.toEngine :=
  ⟨show [js "v", js "from", js "nonce", js "issued", js "expires", js "sig"].Nodup by decide, one_wf _, peerPubOf_wf _ _,
    trivial, trivial, trivial, trivial, trivial⟩

theorem undatedInvite_undated : Undated dated undatedInvite :=
  congrArg Except.ok (show parseText (js "never") = none by decide)

theorem dated_codec : Codec dated := codec

theorem dated_keys (n : UInt8) : KeyPairs dated (identity n) := ⟨(keyPairs n).verifies, (keyPairs n).opens⟩

/-- Node 2 when the token of node 1 has become pending. -/
def pendingOf (t : Value) : FriendBook :=
  { FriendBook.empty with pending := FriendBook.empty.pending.set (toHex [1]) (pendingEntry dated t epoch) }

/-- Node 2 when it has accepted it. -/
def acceptedOf (t : Value) (now : Instant) : FriendBook :=
  { pendingOf t with
    pending := (pendingOf t).pending.delete (toHex [1])
    consumed := setAdd (pendingOf t).consumed (.str (toHex [7]))
    friends := (pendingOf t).friends.set (toHex [1])
      (friendRecord dated (peerPubOf dated (node 1)) (.str (toHex [7])) now) }

/-- Received at the epoch, and accepted at `now`. -/
theorem run_accepted {t : Value} {now : Instant} {blob : JsString} (wf : t.WF dated.toEngine)
    (verified : verifyToken dated t epoch = .ok (peerPubOf dated (node 1)))
    (hnonce : prop t (js "nonce") = .ok (.str (toHex [7]))) (fresh : NotExpired dated t now)
    (sealed : makeAccept dated (node 2) t [] now = .ok blob) : Run (BookStep dated (node 2)) .empty
      [.call (.receive t epoch) .empty (.ok (peerPubOf dated (node 1))),
        .call (.accept (toHex [1]) [] now) (pendingOf t) (.ok (.str blob))] (acceptedOf t now) := by
  have received : Commit dated (node 2) (.receive t epoch) .empty .empty (.ok (peerPubOf dated (node 1))) (pendingOf t) :=
    .receive verified hnonce (by decide) rfl (by decide)
  have hpending : (pendingOf t).pending.get (toHex [1]) = some (pendingEntry dated t epoch) := OrdMap.get_set_self ..
  have accepted : Commit dated (node 2) (.accept (toHex [1]) [] now) (pendingOf t) (pendingOf t) (.ok (.str blob))
      (acceptedOf t now) := .accept hpending rfl fresh sealed hnonce (verifyToken_ok verified).1
  exact run_commit (run_commit .nil received wf) accepted trivial

theorem acceptedOf_friend (t : Value) (now : Instant) : ((acceptedOf t now).friends.get (toHex [1])).isSome :=
  congrArg Option.isSome (OrdMap.get_set_self ..)

/-- The last instant there is. -/
def doomsday : Instant := ⟨8640000000000000, by decide⟩

/-- The invite that never expires is accepted at the end of time. -/
theorem undated_accepted : ∃ tr b, Run (BookStep dated (node 2)) .empty tr b ∧ ¬ExpiryBounds dated (node 2) tr b ∧
    (b.friends.get (toHex [1])).isSome := by
  have hnonce : prop undatedInvite (js "nonce") = .ok (.str (toHex [7])) := rfl
  have hpeer : prop undatedInvite (js "from") = .ok (peerPubOf dated (node 1)) := rfl
  obtain ⟨blob, sealed⟩ := makeAccept_mints dated_codec (node 2) [] doomsday hnonce hpeer fun _ => rfl
  have run := run_accepted undatedInvite_wf (by decide +kernel) hnonce ⟨none, undatedInvite_undated, rfl⟩ sealed
  refine ⟨_, _, run, ?_, acceptedOf_friend ..⟩
  rintro ⟨hbounded, _⟩
  obtain ⟨d, hd⟩ : DenotesInstant dated undatedInvite := hbounded _ (List.mem_cons_self ..)
  cases undatedInvite_undated.symm.trans hd

/-- Node 1's own invite, which expires after a minute, is accepted in time. -/
theorem invite_bounded : ∃ tr b, Run (BookStep dated (node 2)) .empty tr b ∧ ExpiryBounds dated (node 2) tr b ∧
    (b.friends.get (toHex [1])).isSome := by
  have minted : makeToken dated (node 1) 60 [7] epoch = .ok (invite 1 [7]) := by decide +kernel
  have verified : verifyToken dated (invite 1 [7]) epoch = .ok (peerPubOf dated (node 1)) :=
    token_verifies dated_codec (dated_keys 1) minted minute_expires (dated_round _) (by decide)
  have hexpires : (prop (invite 1 [7]) (js "expires") >>= dateParse dated) = .ok (some ⟨60000, by decide⟩) := by
    obtain ⟨expires, _, hexpires, _, h⟩ := makeToken_ok minted
    obtain rfl := Option.some.inj (minute_expires.symm.trans hexpires)
    rw [h]
    exact congrArg Except.ok (dated_round _)
  obtain ⟨blob, sealed⟩ := makeAccept_mints dated_codec (node 2) [] epoch invite_nonce (makeToken_from minted) fun _ => rfl
  have run := run_accepted (makeToken_wf minted) verified invite_nonce ⟨_, hexpires, rfl⟩ sealed
  refine ⟨_, _, run, (expiry_bounds_iff dated_round run).mpr ?_, acceptedOf_friend ..⟩
  intro t now before r hmem _ hundated
  simp only [List.mem_cons, List.not_mem_nil, or_false, BookEvent.call.injEq, Call.receive.injEq] at hmem
  obtain ⟨⟨rfl, _⟩, _⟩ | ⟨hcall, _⟩ := hmem
  · cases hexpires.symm.trans hundated
  · cases hcall

end Island
end VpnPi
