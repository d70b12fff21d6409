import VpnPi.Island.BookRuns
import VpnPi.Island.Symbolic

/-!
# `Island.NoForgery` — every friendship was signed for

`Signed pk msg` says that the holder of `pk` has signed `msg`; `Unforgeable` is the assumption that a
signature which verifies was made by the holder. Under it, every record of every book a run reaches comes
from one of the two halves of a handshake (`friendship_signed`): the accept of a pending token its giver
signed, or the confirm of an accept its peer signed that names a nonce this book issued and had not used.

The four maps are coupled, so they are carried through the run together (`Provenance`): pending requests
by their signatures, offers by the call that issued them, spent nonces by the confirms that spent them,
friends by one of the two origins.
-/

namespace VpnPi
namespace Island

open Js Async

/-! ## The statement -/

/-- A signature verifies only if the key's holder signed the message. -/
def Unforgeable (P : Platform) (Signed : Bytes → Bytes → Prop) : Prop :=
  ∀ sig msg pk, P.verifyDetached sig msg pk = some true → Signed pk msg

/-- The holder of the key with base64 text `K` signed the canonical bytes of `view`. -/
def SignedContent (P : Platform) (Signed : Bytes → Bytes → Prop) (K : JsString) (view : Value) : Prop :=
  ∃ pk msg, fromB64 P (.str K) = .ok pk ∧ canonicalBytes view = .ok msg ∧ Signed pk msg

/-- `K`'s holder signed the whole of the token `t`, which names `K` as its giver. -/
structure SignedToken (P : Platform) (Signed : Bytes → Bytes → Prop) (K : JsString) (t peer : Value) :
    Prop where
  sender : prop t (js "from") = .ok peer
  key    : prop peer (js "ed25519") = .ok (.str K)
  signed : ∃ view, tokenSignable t = .ok view ∧ SignedContent P Signed K view

/-- `K`'s holder signed the whole of the accept `a`, which names `K` as its author and `ref` as the nonce
    it accepts. -/
structure SignedAccept (P : Platform) (Signed : Bytes → Bytes → Prop) (K ref : JsString) (a peer : Value) :
    Prop where
  sender : prop a (js "from") = .ok peer
  key    : prop peer (js "ed25519") = .ok (.str K)
  ref    : prop a (js "ref") = .ok (.str ref)
  signed : ∃ view, acceptSignable a = .ok view ∧ SignedContent P Signed K view

/-- The record holds the nonce, and a peer whose four fields are those of `peer`. -/
structure Records (record peer nonce : Value) : Prop where
  nonce : prop record (js "nonce") = .ok nonce
  peer  : ∃ stored, prop record (js "peer") = .ok stored ∧
    ∀ k ∈ [js "ed25519", js "x25519", js "label", js "wg0"], prop stored k = prop peer k

/-- A call of `issueToken` in the run returned a token with this nonce. -/
def Issued (tr : List BookEvent) (nonce : JsString) : Prop :=
  ∃ ttlSeconds random now before token,
    BookEvent.call (.issueToken ttlSeconds random now) before (.ok token) ∈ tr ∧
      prop token (js "nonce") = .ok (.str nonce)

/-- A call of `confirm` in the run returned for an accept that names this nonce. -/
def Confirmed (P : Platform) (me : Self) (tr : List BookEvent) (nonce : JsString) : Prop :=
  ∃ blob now before r a, BookEvent.call (.confirm blob now) before (.ok r) ∈ tr ∧
    openAccept P me blob = .ok a ∧ prop a (js "ref") = .ok (.str nonce)

/-- The record was made by the accept of a pending token that `K`'s holder signed. -/
def CreatedByAccept (P : Platform) (Signed : Bytes → Bytes → Prop) (tr : List BookEvent) (K : JsString)
    (record : Value) : Prop :=
  ∃ pre post ephemeral now before blob t peer nonce,
    tr = pre ++ .call (.accept K ephemeral now) before (.ok blob) :: post ∧
      (∃ p, before.pending.get K = some p ∧ prop p (js "token") = .ok t) ∧
      SignedToken P Signed K t peer ∧ prop t (js "nonce") = .ok nonce ∧ Records record peer nonce

/-- The record was made by the confirm of an accept that `K`'s holder signed, for a nonce the book had
    issued and no earlier confirm had used. -/
def CreatedByConfirm (P : Platform) (me : Self) (Signed : Bytes → Bytes → Prop) (tr : List BookEvent)
    (K : JsString) (record : Value) : Prop :=
  ∃ pre post blob now before r a peer ref,
    tr = pre ++ .call (.confirm blob now) before (.ok r) :: post ∧ openAccept P me blob = .ok a ∧
      SignedAccept P Signed K ref a peer ∧ Records record peer (.str ref) ∧
      Issued pre ref ∧ ¬Confirmed P me pre ref

variable {P : Platform} {me : Self} {Signed : Bytes → Bytes → Prop}

/-! ## Signatures -/

theorem Verified.signedContent (hu : Unforgeable P Signed) {view sig : Value} {K : JsString}
    (h : Verified P view sig (.str K)) : SignedContent P Signed K view := by
  obtain ⟨s, m, pk, _, hm, hpk, hv⟩ := h.ok
  exact ⟨pk, m, hpk, hm, hu s m pk hv⟩

theorem SignedContent.plain {K : JsString} {view : Value} (h : SignedContent P Signed K view) :
    Plain view := by
  obtain ⟨_, _, _, hm, _⟩ := h
  exact canonicalBytes_plain hm

theorem signedToken_of_verifyToken (hu : Unforgeable P Signed) {t peer : Value} {K : JsString}
    {now : Instant} (h : verifyToken P t now = .ok peer) (hkey : prop peer (js "ed25519") = .ok (.str K)) :
    SignedToken P Signed K t peer := by
  obtain ⟨hpeer, _, view, sig, pub, hview, _, hpub, hv⟩ := verifyToken_ok h
  obtain rfl := Except.ok.inj (hkey.symm.trans hpub)
  exact ⟨hpeer, hkey, view, hview, hv.signedContent hu⟩

theorem signedAccept_of_openAccept (hu : Unforgeable P Signed) {blob K ref : JsString} {a peer : Value}
    (h : openAccept P me blob = .ok a) (hpeer : prop a (js "from") = .ok peer)
    (hkey : prop peer (js "ed25519") = .ok (.str K)) (href : prop a (js "ref") = .ok (.str ref)) :
    SignedAccept P Signed K ref a peer := by
  obtain ⟨_, view, sig, peer', pub, hview, _, hpeer', hpub, hv⟩ := openAccept_ok h
  obtain rfl := Except.ok.inj (hpeer.symm.trans hpeer')
  obtain rfl := Except.ok.inj (hkey.symm.trans hpub)
  exact ⟨hpeer, hkey, href, view, hview, hv.signedContent hu⟩

/-! ## Signed content survives a save -/

/-- A plain property of a value is one of its printed form. -/
theorem prop_ne_undefined {v w : Value} {k k' : JsString} {u : Value} (h : prop v k = .ok w)
    (hw : prop w k' = .ok u) : w ≠ .undefined := by
  rintro rfl
  cases hw

theorem SignedToken.view {K : JsString} {t peer : Value} (h : SignedToken P Signed K t peer) :
    SignedToken P Signed K (jsonView t) (jsonView peer) := by
  obtain ⟨view, hview, hsigned⟩ := h.signed
  have hplain := hsigned.plain
  obtain ⟨_, peer', pub, _, _, _, h1, h2, h3, h4, h5, h6, rfl⟩ := tokenSignable_ok hview
  obtain rfl := Except.ok.inj (h.sender.symm.trans h2)
  have hf : PlainFields _ := hplain
  have hpeer := prop_jsonView h.sender (prop_ne_undefined h.sender h.key)
  refine ⟨hpeer, prop_jsonView_plain h.key trivial, _, ?_, hsigned⟩
  rw [tokenSignable, prop_jsonView_plain h1 hf.1, hpeer, prop_jsonView_plain h4 hf.2.2.1,
    prop_jsonView_plain h5 hf.2.2.2.1, prop_jsonView_plain h6 hf.2.2.2.2.1]
  show (peerPubJson (jsonView peer) >>= _) = _
  rw [peerPubJson_view h3 hf.2.1]
  rfl

theorem Records.friendRecord {peer nonce : Value} (since : Instant) :
    Records (friendRecord P peer nonce since) peer nonce :=
  ⟨rfl, peer, rfl, fun _ _ => rfl⟩

/-- A record whose four peer fields print survives a save with them. -/
theorem Records.view {record peer nonce pub : Value} (h : Records record peer nonce)
    (hn : Plain nonce) (hpub : peerPubJson peer = .ok pub) (hp : Plain pub) :
    Records (jsonView record) peer nonce := by
  obtain ⟨stored, hstored, hfields⟩ := h.peer
  obtain ⟨_, _, _, _, h1, h2, h3, h4, rfl⟩ := peerPubJson_ok hpub
  have hf : PlainFields _ := hp
  have hne : stored ≠ .undefined :=
    prop_ne_undefined hstored ((hfields (js "ed25519") (by simp)).trans h1)
  refine ⟨prop_jsonView_plain h.nonce hn, _, prop_jsonView hstored hne, ?_⟩
  intro k hk
  have hfield := hfields k hk
  simp only [List.mem_cons, List.not_mem_nil, or_false] at hk
  rcases hk with rfl | rfl | rfl | rfl
  · rw [h1] at hfield ⊢; exact prop_jsonView_plain hfield hf.1
  · rw [h2] at hfield ⊢; exact prop_jsonView_plain hfield hf.2.1
  · rw [h3] at hfield ⊢; exact prop_jsonView_plain hfield hf.2.2.1
  · rw [h4] at hfield ⊢; exact prop_jsonView_plain hfield hf.2.2.2.1

theorem CreatedByAccept.view {tr : List BookEvent} {K : JsString} {record : Value}
    (h : CreatedByAccept P Signed tr K record) : CreatedByAccept P Signed tr K (jsonView record) := by
  obtain ⟨pre, post, ephemeral, now, before, blob, t, peer, nonce, htr, hp, hsigned, hnonce, hrec⟩ := h
  refine ⟨pre, post, ephemeral, now, before, blob, t, peer, nonce, htr, hp, hsigned, hnonce, ?_⟩
  obtain ⟨view, hview, hcontent⟩ := hsigned.signed
  have hplain := hcontent.plain
  obtain ⟨_, _, pub, _, _, _, _, h2, h3, h4, _, _, rfl⟩ := tokenSignable_ok hview
  obtain rfl := Except.ok.inj (hsigned.sender.symm.trans h2)
  obtain rfl := Except.ok.inj (hnonce.symm.trans h4)
  have hf : PlainFields _ := hplain
  exact hrec.view hf.2.2.1 h3 hf.2.1

theorem CreatedByConfirm.view {tr : List BookEvent} {K : JsString} {record : Value}
    (h : CreatedByConfirm P me Signed tr K record) :
    CreatedByConfirm P me Signed tr K (jsonView record) := by
  obtain ⟨pre, post, blob, now, before, r, a, peer, ref, htr, hopen, hsigned, hrec, hissued, hnew⟩ := h
  refine ⟨pre, post, blob, now, before, r, a, peer, ref, htr, hopen, hsigned, ?_, hissued, hnew⟩
  obtain ⟨view, hview, hcontent⟩ := hsigned.signed
  have hplain := hcontent.plain
  obtain ⟨_, _, pub, _, _, _, h2, h3, _, _, rfl⟩ := acceptSignable_ok hview
  obtain rfl := Except.ok.inj (hsigned.sender.symm.trans h2)
  have hf : PlainFields _ := hplain
  exact hrec.view trivial h3 hf.2.1

/-! ## A longer run keeps its origins -/

theorem Issued.append {tr : List BookEvent} {nonce : JsString} (h : Issued tr nonce) (e : BookEvent) :
    Issued (tr ++ [e]) nonce := by
  obtain ⟨ttlSeconds, random, now, before, token, hmem, hn⟩ := h
  exact ⟨ttlSeconds, random, now, before, token, List.mem_append_left _ hmem, hn⟩

theorem CreatedByAccept.append {tr : List BookEvent} {K : JsString} {record : Value}
    (h : CreatedByAccept P Signed tr K record) (e : BookEvent) :
    CreatedByAccept P Signed (tr ++ [e]) K record := by
  obtain ⟨pre, post, ephemeral, now, before, blob, t, peer, nonce, rfl, h⟩ := h
  exact ⟨pre, post ++ [e], ephemeral, now, before, blob, t, peer, nonce, List.append_assoc .., h⟩

theorem CreatedByConfirm.append {tr : List BookEvent} {K : JsString} {record : Value}
    (h : CreatedByConfirm P me Signed tr K record) (e : BookEvent) :
    CreatedByConfirm P me Signed (tr ++ [e]) K record := by
  obtain ⟨pre, post, blob, now, before, r, a, peer, ref, rfl, h⟩ := h
  exact ⟨pre, post ++ [e], blob, now, before, r, a, peer, ref, List.append_assoc .., h⟩

/-! ## The invariant -/

/-- Where everything in the four maps comes from. -/
structure Provenance (P : Platform) (me : Self) (Signed : Bytes → Bytes → Prop) (tr : List BookEvent)
    (b : FriendBook) : Prop where
  offered  : ∀ nonce offer, b.offered.get nonce = some offer → Issued tr nonce
  pending  : ∀ K p, b.pending.get K = some p → ∃ t peer, prop p (js "token") = .ok t ∧
    SignedToken P Signed K t peer
  consumed : ∀ nonce, Confirmed P me tr nonce → .str nonce ∈ b.consumed
  friends  : ∀ K record, b.friends.get K = some record →
    CreatedByAccept P Signed tr K record ∨ CreatedByConfirm P me Signed tr K record

/-- A confirm that returned. -/
def BookEvent.IsConfirm : BookEvent → Prop
  | call (.confirm ..) _ (.ok _) => True
  | _ => False

theorem not_isConfirm_error (c : Call) (b : FriendBook) (e : Exn) :
    ¬(BookEvent.call c b (.error e)).IsConfirm := by
  cases c <;> exact id

theorem Confirmed.of_append {tr : List BookEvent} {e : BookEvent} {nonce : JsString}
    (h : Confirmed P me (tr ++ [e]) nonce)
    (he : ¬e.IsConfirm) : Confirmed P me tr nonce := by
  obtain ⟨blob, now, before, r, a, hmem, h⟩ := h
  rcases List.mem_append.mp hmem with hold | hnew
  · exact ⟨blob, now, before, r, a, hold, h⟩
  · rw [← List.mem_singleton.mp hnew] at he
    exact absurd trivial he

/-- An event that adds nothing to the maps but may remove from them, or add spent nonces. -/
theorem Provenance.shrink {tr : List BookEvent} {e : BookEvent} {b : FriendBook} (b' : FriendBook)
    (h : Provenance P me Signed tr b)
    (he : ¬e.IsConfirm)
    (hoffered : ∀ k v, b'.offered.get k = some v → b.offered.get k = some v)
    (hpending : ∀ k v, b'.pending.get k = some v → b.pending.get k = some v)
    (hconsumed : ∀ v ∈ b.consumed, v ∈ b'.consumed)
    (hfriends : ∀ k v, b'.friends.get k = some v → b.friends.get k = some v) :
    Provenance P me Signed (tr ++ [e]) b' where
  offered := fun nonce offer ho => (h.offered nonce offer (hoffered _ _ ho)).append e
  pending := fun K p hp => h.pending K p (hpending _ _ hp)
  consumed := fun nonce hc => hconsumed _ (h.consumed nonce (hc.of_append he))
  friends := fun K record hr => (h.friends K record (hfriends _ _ hr)).imp (·.append e) (·.append e)

theorem Provenance.throw {tr : List BookEvent} {c : Call} {b : FriendBook} {e : Exn}
    (h : Provenance P me Signed tr b) : Provenance P me Signed (tr ++ [.call c b (.error e)]) b :=
  h.shrink _ (not_isConfirm_error c b e) (fun _ _ => id) (fun _ _ => id) (fun _ => id) (fun _ _ => id)

/-- **One commit.** -/
theorem Provenance.commit (hu : Unforgeable P Signed) {tr : List BookEvent} {c : Call}
    {b b' : FriendBook} {r : Except Exn Value} (h : Provenance P me Signed tr b)
    (hc : Commit P me c b b r b') : Provenance P me Signed (tr ++ [.call c b r]) b' := by
  cases hc with
  | @issueToken ttlSeconds random now token _ _ minted =>
      have hkept := h.shrink b (e := .call (.issueToken ttlSeconds random now) b (.ok token))
        id (fun _ _ => id) (fun _ _ => id) (fun _ => id) (fun _ _ => id)
      refine { hkept with offered := fun nonce offer ho => ?_ }
      rw [OrdMap.get_set] at ho
      split at ho
      · next hn =>
          -- the offer is the token of this very call
          refine ⟨ttlSeconds, random, now, b, token, by simp, ?_⟩
          obtain ⟨expires, m, _, _, rfl⟩ := makeToken_ok minted
          rw [hn]; rfl
      · exact hkept.offered nonce offer ho
  | @receive token peer nonce key now _ _ verified hnonce unused hkey other =>
      have hkept := h.shrink b (e := .call (.receive token now) b (.ok peer))
        id (fun _ _ => id) (fun _ _ => id) (fun _ => id) (fun _ _ => id)
      refine { hkept with pending := fun K p hp => ?_ }
      rw [OrdMap.get_set] at hp
      split at hp
      · next hk =>
          cases hp
          exact ⟨token, peer, rfl, hk ▸ signedToken_of_verifyToken hu verified hkey⟩
      · exact hkept.pending K p hp
  | @accept giver blob ephemeral p token nonce peer now _ _ hp htoken fresh sealed hnonce hpeer =>
      have hkept := h.shrink { b with pending := b.pending.delete giver, consumed := setAdd b.consumed nonce }
        (e := .call (.accept giver ephemeral now) b (.ok (.str blob))) id
        (fun _ _ => id) (fun _ _ => OrdMap.get_of_get_delete) (fun _ => mem_setAdd_of_mem nonce)
        (fun _ _ => id)
      refine { hkept with friends := fun K record hr => ?_ }
      rw [OrdMap.get_set] at hr
      split at hr
      · next hk =>
          cases hr
          subst hk
          -- the pending request was signed by its giver
          obtain ⟨t, peer', htoken', hsigned⟩ := h.pending K p hp
          obtain rfl := Except.ok.inj (htoken.symm.trans htoken')
          obtain rfl := Except.ok.inj (hpeer.symm.trans hsigned.sender)
          exact Or.inl ⟨tr, [], ephemeral, now, b, _, token, peer, nonce, rfl, ⟨p, hp, htoken⟩, hsigned,
            hnonce, .friendRecord now⟩
      · exact hkept.friends K record hr
  | @confirm blob ref key a offer peer now _ _ opened href hoffer unused fresh hpeer hkey =>
      -- an earlier confirm would have spent the nonce
      have hnew : ¬Confirmed P me tr ref := fun hc => unused (setHas_iff.mpr ⟨rfl, h.consumed ref hc⟩)
      constructor
      · exact fun nonce o ho => (h.offered nonce o (OrdMap.get_of_get_delete ho)).append _
      · exact h.pending
      · rintro nonce ⟨blob', now', before, r', a', hmem, hopen, href'⟩
        rcases List.mem_append.mp hmem with hold | hlast
        · exact mem_setAdd_of_mem _ (h.consumed nonce ⟨blob', now', before, r', a', hold, hopen, href'⟩)
        · cases List.mem_singleton.mp hlast
          obtain rfl := Except.ok.inj (opened.symm.trans hopen)
          obtain rfl := Value.str.inj (Except.ok.inj (href.symm.trans href'))
          exact mem_setAdd_self _ _
      · intro K record hr
        rw [OrdMap.get_set] at hr
        split at hr
        · next hk =>
            cases hr
            subst hk
            exact Or.inr ⟨tr, [], blob, now, b, _, a, peer, ref, rfl, opened,
              signedAccept_of_openAccept hu opened hpeer hkey href, .friendRecord now,
              h.offered ref offer hoffer, hnew⟩
        · exact (h.friends K record hr).imp (·.append _) (·.append _)
  | revoke peer =>
      -- the other calls only take friends away and spend nonces
      exact h.shrink _ id (fun _ _ => id) (fun _ _ => id) (fun _ => id)
        (fun _ _ => OrdMap.get_of_get_delete)
  | issueRevokeNone hrec =>
      exact h.shrink _ id (fun _ _ => id) (fun _ _ => id) (fun _ => id) (fun _ _ => id)
  | issueRevoke hrec signed =>
      exact h.shrink _ id (fun _ _ => id) (fun _ _ => id) (fun _ => id)
        (fun _ _ => OrdMap.get_of_get_delete)
  | receiveRevoke shape htarget hpeer hrec hnonce unused verified hat hsince current =>
      exact h.shrink _ id (fun _ _ => id) (fun _ _ => id) (fun _ => mem_setAdd_of_mem _)
        (fun _ _ => OrdMap.get_of_get_delete)

/-- A save and a reload. -/
theorem Provenance.reload {tr : List BookEvent} {b : FriendBook} (h : Provenance P me Signed tr b) :
    Provenance P me Signed (tr ++ [.reload]) b.reloaded where
  offered := by
    intro nonce offer ho
    obtain ⟨o, ho', rfl⟩ := OrdMap.get_mapVal_eq_some.mp ho
    exact (h.offered nonce o ho').append _
  pending := by
    intro K p hp
    obtain ⟨p, hp', rfl⟩ := OrdMap.get_mapVal_eq_some.mp hp
    obtain ⟨t, peer, htoken, hsigned⟩ := h.pending K p hp'
    have hne := prop_ne_undefined htoken hsigned.sender
    exact ⟨jsonView t, jsonView peer, prop_jsonView htoken hne, hsigned.view⟩
  consumed := by
    intro nonce hc
    exact mem_foldl_setAdd.mpr (Or.inr (h.consumed nonce (hc.of_append id)))
  friends := by
    intro K record hr
    obtain ⟨record, hr', rfl⟩ := OrdMap.get_mapVal_eq_some.mp hr
    exact (h.friends K record hr').imp (fun hc => (hc.append _).view) (fun hc => (hc.append _).view)

theorem provenance_of_run (hu : Unforgeable P Signed) {tr : List BookEvent} {b : FriendBook}
    (run : Run (BookStep P me) .empty tr b) : Provenance P me Signed tr b := by
  have hnone : ∀ (k : JsString) (v : Value), ¬(OrdMap.empty : OrdMap JsString Value).get k = some v := nofun
  refine run.invariant (I := Provenance P me Signed) ⟨fun k v h => absurd h (hnone k v),
    fun k v h => absurd h (hnone k v), ?_, fun k v h => absurd h (hnone k v)⟩ ?_
  · rintro nonce ⟨_, _, _, _, _, hmem, _⟩
    exact absurd hmem List.not_mem_nil
  · intro tr b e b' hrun ih hstep
    cases hstep with
    | call wf hcall =>
        rcases run_cases hcall with ⟨_, rfl, rfl⟩ | hc
        · exact ih.throw
        · exact ih.commit hu hc
    | reload hload =>
        rw [reload_eq (bookWF_of_run hrun)] at hload
        obtain rfl := Except.ok.inj hload
        exact ih.reload

/-- **No forged friendship.** -/
theorem friendship_signed (P : Platform) (me : Self) (Signed : Bytes → Bytes → Prop)
    (hu : Unforgeable P Signed) (tr : List BookEvent) (b : FriendBook)
    (run : Run (BookStep P me) .empty tr b) (K : JsString) (record : Value)
    (hfriend : b.friends.get K = some record) :
    CreatedByAccept P Signed tr K record ∨ CreatedByConfirm P me Signed tr K record :=
  (provenance_of_run hu run).friends K record hfriend

open Symbolic

/-- The bytes node 1 signs in its token. -/
def inviteBytes : Bytes := ((tokenSignable (invite 1 [7]) >>= canonicalBytes).toOption).getD []

/-- One key has signed one message. -/
def SignedInvite (pk msg : Bytes) : Prop := pk = [1] ∧ msg = inviteBytes

instance (pk msg : Bytes) : Decidable (SignedInvite pk msg) := inferInstanceAs (Decidable (_ ∧ _))

/-- A platform on which no other signature verifies. -/
def onlyInvite : Platform :=
  { platform with
    verifyDetached := fun sig msg pk =>
      (platform.verifyDetached sig msg pk).map fun ok => ok && decide (SignedInvite pk msg) }

theorem onlyInvite_unforgeable : Unforgeable onlyInvite SignedInvite := by
  intro sig msg pk h
  obtain ⟨ok, _, hok⟩ := Option.map_eq_some_iff.mp h
  rw [Bool.and_eq_true] at hok
  exact of_decide_eq_true hok.2

theorem onlyInvite_received : Commit onlyInvite (node 2) (.receive (invite 1 [7]) epoch) .empty .empty
    (.ok (peerPubOf onlyInvite (node 1))) requested := by
  have verified : verifyToken onlyInvite (invite 1 [7]) epoch = .ok (peerPubOf onlyInvite (node 1)) := by
    decide +kernel
  exact .receive verified invite_nonce (by decide) rfl (by decide)

theorem onlyInvite_accepted : Commit onlyInvite (node 2) (.accept (toHex [1]) [] epoch) requested requested
    (.ok (.str reply)) befriended := by
  obtain ⟨hpeer, hfresh, _⟩ := verifyToken_ok invite_verified
  have sealed : makeAccept onlyInvite (node 2) (invite 1 [7]) [] epoch = .ok reply := by decide +kernel
  exact .accept requested_pending rfl hfresh sealed invite_nonce hpeer

/-- Node 2 accepts node 1's token where nothing but that token has been signed: node 1 signed for the friendship.
    The token of another node is refused. -/
theorem befriended_signed :
    ∃ (tr : List BookEvent) (record : Value), Run (BookStep onlyInvite (node 2)) .empty tr befriended ∧
      befriended.friends.get (toHex [1]) = some record ∧
      (CreatedByAccept onlyInvite SignedInvite tr (toHex [1]) record ∨
        CreatedByConfirm onlyInvite (node 2) SignedInvite tr (toHex [1]) record) ∧
      (verifyToken onlyInvite (invite 3 [9]) epoch).isOk = false := by
  have wf : (Call.receive (invite 1 [7]) epoch).WF onlyInvite.toEngine := invite_wf
  have wf' : (Call.accept (toHex [1]) [] epoch).WF onlyInvite.toEngine := trivial
  have run : Run (BookStep onlyInvite (node 2)) .empty _ befriended :=
    (Run.nil.snoc (.of_commit wf onlyInvite_received)).snoc (.of_commit wf' onlyInvite_accepted)
  have signed := friendship_signed onlyInvite (node 2) SignedInvite onlyInvite_unforgeable _ befriended run
    (toHex [1]) _ rfl
  exact ⟨_, _, run, rfl, signed, by decide +kernel⟩

end Island
end VpnPi
