import VpnPi.Island.Revocation

/-!
# `Island.Era` — a notice of an earlier friendship

`since` of a record is the time of the call that made it, through every later call and every restart
(`since_of_run`). A notice that was minted more than the clock skew before that is refused
(`old_notice_refused`); within the skew it is accepted, though the friendship it was meant for is over
(`Symbolic.young_notice_accepted`).
-/

namespace VpnPi
namespace Island

open Js Async

/-- The key a record is for. -/
def recordKey (rec_ : Value) : Option Value := (rec_.prop (js "peer")).bind fun peer => peer.prop (js "ed25519")

/-- The time at which an event makes `K` a friend. -/
def BookEvent.befriends (K : JsString) : BookEvent → Option Instant
  | call (.accept giver _ now) _ (.ok _) => if giver = K then some now else none
  | call (.confirm _ now) _ (.ok rec_) => if recordKey rec_ = some (.str K) then some now else none
  | _ => none

/-- The time of the last event that made `K` a friend. -/
def befriendedAt (K : JsString) (tr : List BookEvent) : Option Instant :=
  (tr.filterMap (BookEvent.befriends K)).getLast?

theorem befriendedAt_snoc_none {K : JsString} {tr : List BookEvent} {e : BookEvent}
    (h : e.befriends K = none) : befriendedAt K (tr ++ [e]) = befriendedAt K tr := by
  unfold befriendedAt
  rw [List.filterMap_append, List.filterMap_cons, h, List.filterMap_nil, List.append_nil]

theorem befriendedAt_snoc_some {K : JsString} {tr : List BookEvent} {e : BookEvent} {c : Instant}
    (h : e.befriends K = some c) : befriendedAt K (tr ++ [e]) = some c := by
  unfold befriendedAt
  rw [List.filterMap_append, List.filterMap_cons, h, List.filterMap_nil, List.getLast?_concat]

variable {P : Platform} {me : Self}

/-- The record of `K`, if there is one, says when it was made. -/
def SinceMade (P : Platform) (K : JsString) (tr : List BookEvent) (b : FriendBook) : Prop :=
  ∀ rec_, b.friends.get K = some rec_ → ∃ c, befriendedAt K tr = some c ∧
    prop rec_ (js "since") = .ok (.str (P.toISOString c))

/-- An event that makes nobody a friend, and after which the record of `K` is what it was or is gone. -/
theorem SinceMade.keep {K : JsString} {tr : List BookEvent} {b b' : FriendBook} {e : BookEvent}
    (h : SinceMade P K tr b) (he : e.befriends K = none)
    (hfriends : ∀ rec_, b'.friends.get K = some rec_ → b.friends.get K = some rec_) :
    SinceMade P K (tr ++ [e]) b' := by
  intro rec_ hrec
  rw [befriendedAt_snoc_none he]
  exact h rec_ (hfriends rec_ hrec)

theorem befriends_error (K : JsString) (c : Call) (b : FriendBook) (e : Exn) :
    (BookEvent.call c b (.error e)).befriends K = none := by
  cases c <;> rfl

theorem SinceMade.commit {K : JsString} {tr : List BookEvent} {c : Call} {b b' : FriendBook}
    {r : Except Exn Value} (h : SinceMade P K tr b) (hc : Commit P me c b b r b') :
    SinceMade P K (tr ++ [.call c b r]) b' := by
  cases hc with
  | issueToken => exact h.keep rfl fun _ => id
  | receive => exact h.keep rfl fun _ => id
  | @accept giver _ _ _ _ _ _ now =>
      by_cases hK : giver = K
      · subst hK
        intro rec_ hrec
        rw [OrdMap.get_set_self] at hrec
        obtain rfl := Option.some.inj hrec
        exact ⟨now, befriendedAt_snoc_some (if_pos rfl), rfl⟩
      · refine h.keep (if_neg hK) fun rec_ hrec => ?_
        rw [OrdMap.get_set_ne (Ne.symm hK)] at hrec
        exact hrec
  | @confirm _ ref key _ _ peer now _ _ _ _ _ _ _ _ hkey =>
      -- the confirm returns the record, which names the friend it has made
      have hrecord : recordKey (friendRecord P peer (.str ref) now) = some (.str key) := prop_ok.mp hkey
      by_cases hK : key = K
      · subst hK
        intro rec_ hrec
        rw [OrdMap.get_set_self] at hrec
        obtain rfl := Option.some.inj hrec
        exact ⟨now, befriendedAt_snoc_some (if_pos hrecord), rfl⟩
      · refine h.keep (if_neg fun hsame => ?_) fun rec_ hrec => ?_
        · rw [hrecord] at hsame
          exact hK (Value.str.inj (Option.some.inj hsame))
        · rw [OrdMap.get_set_ne (Ne.symm hK)] at hrec
          exact hrec
  | revoke => exact h.keep rfl fun _ => OrdMap.get_of_get_delete
  | issueRevokeNone => exact h.keep rfl fun _ => id
  | issueRevoke => exact h.keep rfl fun _ => OrdMap.get_of_get_delete
  | receiveRevoke => exact h.keep rfl fun _ => OrdMap.get_of_get_delete

theorem SinceMade.step {K : JsString} {tr : List BookEvent} {b b' : FriendBook} {e : BookEvent}
    (hb : BookWF P.toEngine b) (h : SinceMade P K tr b) (hs : BookStep P me b e b') :
    SinceMade P K (tr ++ [e]) b' := by
  cases hs with
  | call wf hrun =>
      rcases run_cases hrun with ⟨e, rfl, rfl⟩ | hc
      · exact h.keep (befriends_error ..) fun _ => id
      · exact h.commit hc
  | reload hload =>
      rw [reload_eq hb] at hload
      obtain rfl := Except.ok.inj hload
      intro rec_ hrec
      obtain ⟨old, hold, rfl⟩ := OrdMap.get_mapVal_eq_some.mp hrec
      obtain ⟨c, hc, hsince⟩ := h old hold
      rw [befriendedAt_snoc_none rfl]
      exact ⟨c, hc, prop_jsonView_plain hsince trivial⟩

/-- **`since` is the time of the call that made the record.** -/
theorem since_of_run {K : JsString} {tr : List BookEvent} {b : FriendBook} (run : Run (BookStep P me) .empty tr b) :
    SinceMade P K tr b := by
  refine run.invariant (I := fun tr b => SinceMade P K tr b) ?_ ?_
  · intro rec_ hrec
    cases hrec
  · exact fun tr b e b' run ih hs => ih.step (bookWF_of_run run) hs

/-- A call of `issueRevoke` for `K` in the run returned this notice. -/
def Minted (tr : List BookEvent) (K : JsString) (notice : Value) (now : Instant) : Prop :=
  ∃ random before reply, BookEvent.call (.issueRevoke K random now) before (.ok reply) ∈ tr ∧
    prop reply (js "notice") = .ok notice

theorem view_of_minted {K : JsString} {tr : List BookEvent} {b : FriendBook} {notice : Value} {now : Instant}
    (run : Run (BookStep P me) .empty tr b) (h : Minted tr K notice now) :
    ∃ random, revokeSignable notice = .ok (revokeView P me K random now) := by
  obtain ⟨random, before, reply, hmem, hnotice⟩ := h
  obtain ⟨pre, post, rfl⟩ := List.mem_iff_append.mp hmem
  obtain ⟨s₁, s₂, _, hs⟩ := run.split
  cases hs with
  | call _ hrun =>
      obtain ⟨m, _, rfl⟩ := makeRevoke_ok (issueRevoke_minted hrun hnotice).1
      exact ⟨random, rfl⟩

/-- **An old notice is refused.** What `other` has minted is refused by the node that has made `other` a friend
    later than the clock skew after that, whatever the two have been through. -/
theorem old_notice_refused (P : Platform) (me other : Self) {trA trB : List BookEvent} {a b : FriendBook}
    (runA : Run (BookStep P other) .empty trA a) (runB : Run (BookStep P me) .empty trB b)
    {notice n : Value} {mintedAt made : Instant} (minted : Minted trA (selfEd P me) notice mintedAt)
    (same : revokeSignable n = revokeSignable notice) (hmade : befriendedAt (selfEd P other) trB = some made)
    (old : mintedAt.ms < made.ms - revokeSkewMs) (dated : Dated P mintedAt) (dated' : Dated P made) (now : Instant) :
    ∃ e, (receiveRevoke P me n now).run b = (.error e, b) := by
  obtain ⟨random, hview⟩ := view_of_minted runA minted
  rw [hview] at same
  obtain ⟨_, from_, _, _, at_, _, hfrom, _, _, hat, heq⟩ := revokeSignable_ok same
  obtain ⟨rfl, rfl⟩ : .str (selfEd P other) = from_ ∧ .str (P.toISOString mintedAt) = at_ := by
    simp only [revokeView, Value.obj.injEq, List.cons.injEq, Prod.mk.injEq] at heq
    exact ⟨heq.2.1.2, heq.2.2.2.2.1.2⟩
  rcases hrun : (receiveRevoke P me n now).run b with ⟨r, b'⟩
  rcases run_cases (c := .receiveRevoke n now) hrun with ⟨e, rfl, rfl⟩ | hc
  · exact ⟨e, rfl⟩
  · exfalso
    cases hc with
    | receiveRevoke _ _ hpeer hrec _ _ _ hat' hsince current =>
        rw [hfrom] at hpeer
        obtain rfl := Except.ok.inj hpeer
        obtain ⟨c, hc, hsince'⟩ := since_of_run runB _ hrec
        obtain rfl : made = c := Option.some.inj (hmade.symm.trans hc)
        rw [hsince'] at hsince
        rw [hat] at hat'
        obtain rfl := Except.ok.inj (hsince.symm.trans (congrArg Except.ok dated'))
        obtain rfl := Option.some.inj (Except.ok.inj (hat'.symm.trans (congrArg Except.ok dated)))
        have := current made rfl
        omega

/-! ## A notice within the skew -/

namespace Symbolic

def soon : Instant := ⟨1, by decide⟩

def later : Instant := ⟨180000, by decide⟩

/-- Node 1 after node 2's accept. -/
def confirmed : FriendBook :=
  { offering with
    offered := offering.offered.delete (toHex [7])
    consumed := setAdd offering.consumed (.str (toHex [7]))
    friends := offering.friends.set (toHex [2])
      (friendRecord platform (peerPubOf platform (node 2)) (.str (toHex [7])) epoch) }

/-- The notice with which node 1 ends its friendship with node 2. -/
def dismissal : Value := ((makeRevoke platform (node 1) (toHex [2]) [8] epoch).toOption).getD .undefined

theorem dismissal_minted : makeRevoke platform (node 1) (toHex [2]) [8] epoch = .ok dismissal :=
  eq_ok_getD _ (makeRevoke_mints ..)

/-- A second token of node 1, good for ten minutes. -/
def inviteAgain : Value := ((makeToken platform (node 1) 600 [9] epoch).toOption).getD .undefined

theorem again_expires : epoch.addSeconds 600 = some ⟨600000, by decide⟩ :=
  @Instant.addSeconds_intCast epoch 600 (by norm_num [abs_lt]) (by norm_num [epoch, abs_lt])

theorem inviteAgain_minted : makeToken platform (node 1) 600 [9] epoch = .ok inviteAgain :=
  eq_ok_getD _ (makeToken_mints _ _ again_expires)

theorem inviteAgain_nonce : prop inviteAgain (js "nonce") = .ok (.str (toHex [9])) := makeToken_nonce inviteAgain_minted

theorem inviteAgain_verified {d : Instant} (h : d.ms ≤ 600000) :
    verifyToken platform inviteAgain d = .ok (peerPubOf platform (node 1)) :=
  token_verifies codec (keyPairs 1) inviteAgain_minted again_expires (firstDay_dated ⟨by decide, by decide⟩) h

/-- Node 2 after receiving it. -/
def requestedAgain : FriendBook :=
  { befriended with
    pending := befriended.pending.set (toHex [1]) (pendingEntry platform inviteAgain epoch) }

/-- Node 2 after accepting it at a given time. -/
def befriendedAgain (d : Instant) : FriendBook :=
  { requestedAgain with
    pending := requestedAgain.pending.delete (toHex [1])
    consumed := setAdd requestedAgain.consumed (.str (toHex [9]))
    friends := requestedAgain.friends.set (toHex [1])
      (friendRecord platform (peerPubOf platform (node 1)) (.str (toHex [9])) d) }

theorem reply_confirmed : Commit platform (node 1) (.confirm reply epoch) offering offering
    (.ok (friendRecord platform (peerPubOf platform (node 2)) (.str (toHex [7])) epoch)) confirmed := by
  obtain ⟨accept, opened, href, hpeer⟩ :=
    accept_opens codec (keyPairs 1) (keyPairs 2) invite_sealed (verifyToken_ok invite_verified).1 invite_nonce
  exact .confirm opened href rfl (by decide) (verifyToken_ok invite_verified).2.1 hpeer rfl

/-- Node 1 befriends node 2, ends the friendship, and offers another token. -/
theorem dismissal_run : ∃ tr a, Run (BookStep platform (node 1)) .empty tr a ∧
    Minted tr (selfEd platform (node 2)) dismissal epoch := by
  have hissue : Commit platform (node 1) (.issueToken 60 [7] epoch) .empty .empty (.ok (invite 1 [7])) offering :=
    .issueToken (invite_minted 1 [7])
  have hrec : confirmed.friends.get (toHex [2])
      = some (friendRecord platform (peerPubOf platform (node 2)) (.str (toHex [7])) epoch) := rfl
  have hrevoke : Commit platform (node 1) (.issueRevoke (toHex [2]) [8] epoch) confirmed confirmed
      (.ok (.obj [(js "notice", dismissal), (js "wg0", .str (node 2).wg0)])) _ := .issueRevoke hrec dismissal_minted
  have run := run_commit (run_commit (run_commit (run_commit .nil hissue trivial) reply_confirmed trivial) hrevoke
    trivial) (.issueToken inviteAgain_minted) trivial
  refine ⟨_, _, run, [8], confirmed, .obj [(js "notice", dismissal), (js "wg0", .str (node 2).wg0)], ?_, rfl⟩
  exact List.mem_append_left _ (List.mem_append_right _ (List.mem_singleton_self _))

/-- Node 2 befriends node 1 at the epoch, and again at `d`. -/
theorem befriendedAgain_run {d : Instant} {blob : JsString} (fresh : NotExpired platform inviteAgain d)
    (sealed : makeAccept platform (node 2) inviteAgain [] d = .ok blob) :
    ∃ tr, Run (BookStep platform (node 2)) .empty tr (befriendedAgain d) ∧
      befriendedAt (selfEd platform (node 1)) tr = some d := by
  have hverified := inviteAgain_verified (d := epoch) (by decide)
  have hreceive : Commit platform (node 2) (.receive inviteAgain epoch) befriended befriended
      (.ok (peerPubOf platform (node 1))) requestedAgain :=
    .receive hverified inviteAgain_nonce (by decide) rfl (by decide)
  have hpending : requestedAgain.pending.get (toHex [1]) = some (pendingEntry platform inviteAgain epoch) := rfl
  have haccept : Commit platform (node 2) (.accept (toHex [1]) [] d) requestedAgain requestedAgain
      (.ok (.str blob)) (befriendedAgain d) :=
    .accept hpending rfl fresh sealed inviteAgain_nonce (verifyToken_ok hverified).1
  have run := run_commit (run_commit (run_commit (run_commit .nil invite_received invite_wf) invite_accepted trivial)
    hreceive (makeToken_wf inviteAgain_minted)) haccept trivial
  refine ⟨_, run, befriendedAt_snoc_some ?_⟩
  show (if toHex [1] = toHex [1] then some d else none) = some d
  exact if_pos rfl

theorem again_fresh (d : Instant) (h : d.ms ≤ 600000) : NotExpired platform inviteAgain d :=
  (verifyToken_ok (inviteAgain_verified h)).2.1

theorem dismissal_received {d : Instant} (dated : Dated platform d) (h : d.ms - revokeSkewMs ≤ epoch.ms) :
    ∃ rec_ b', (receiveRevoke platform (node 2) dismissal d).run (befriendedAgain d) = (.ok rec_, b') := by
  have hrec : (befriendedAgain d).friends.get (toHex [1])
      = some (friendRecord platform (peerPubOf platform (node 1)) (.str (toHex [9])) d) := OrdMap.get_set_self _ _ _
  have hverified := notice_verifies codec (keyPairs 1) dismissal_minted
    (show prop (friendRecord platform (peerPubOf platform (node 1)) (.str (toHex [9])) d) (js "peer") = .ok _ from rfl) rfl
  have hsince : (prop (friendRecord platform (peerPubOf platform (node 1)) (.str (toHex [9])) d) (js "since")
      >>= dateParse platform) = .ok (some d) := congrArg Except.ok dated
  have hat : dateParse platform (.str (platform.toISOString epoch)) = .ok (some epoch) := congrArg Except.ok epoch_dated
  obtain ⟨m, -, hdismissal⟩ := makeRevoke_ok dismissal_minted
  rw [hdismissal] at hverified ⊢
  have hcommit : Commit platform (node 2) (.receiveRevoke _ d) (befriendedAgain d) (befriendedAgain d) _ _ :=
    .receiveRevoke rfl rfl rfl hrec rfl
      (show ¬setHas (setAdd befriended.consumed (.str (toHex [9]))) (.str (toHex [8])) = true by decide)
      hverified hat hsince fun _ hd => Option.some.inj hd ▸ h
  exact ⟨_, _, hcommit.run⟩

/-- What node 2 answers at a given time. -/
def replyAgain (d : Instant) : JsString := ((makeAccept platform (node 2) inviteAgain [] d).toOption).getD []

theorem replyAgain_sealed (d : Instant) : makeAccept platform (node 2) inviteAgain [] d = .ok (replyAgain d) :=
  eq_ok_getD _ (makeAccept_mints codec (node 2) [] d inviteAgain_nonce (makeToken_from inviteAgain_minted)
    fun _ => rfl)

/-- The notice of the epoch comes a millisecond after node 2 has made node 1 a friend again. -/
theorem young_notice_accepted : ∃ trA a trB b made rec_ b', Run (BookStep platform (node 1)) .empty trA a ∧
    Run (BookStep platform (node 2)) .empty trB b ∧ Minted trA (selfEd platform (node 2)) dismissal epoch ∧
    befriendedAt (selfEd platform (node 1)) trB = some made ∧ epoch.ms < made.ms ∧
    (receiveRevoke platform (node 2) dismissal made).run b = (.ok rec_, b') := by
  obtain ⟨trA, a, runA, minted⟩ := dismissal_run
  obtain ⟨trB, runB, hmade⟩ := befriendedAgain_run (again_fresh soon (by decide)) (replyAgain_sealed soon)
  obtain ⟨rec_, b', h⟩ := @dismissal_received soon (firstDay_dated ⟨by decide, by decide⟩) (by decide)
  exact ⟨trA, a, trB, _, soon, rec_, b', runA, runB, minted, hmade, by decide, h⟩

/-- Three minutes after the epoch the notice is refused. -/
theorem dismissal_outdated : ∃ b, b.friends.has (toHex [1]) = true ∧
    ∃ e, (receiveRevoke platform (node 2) dismissal later).run b = (.error e, b) := by
  obtain ⟨trA, a, runA, minted⟩ := dismissal_run
  obtain ⟨trB, runB, hmade⟩ := befriendedAgain_run (again_fresh later (by decide)) (replyAgain_sealed later)
  refine ⟨befriendedAgain later, rfl, ?_⟩
  exact old_notice_refused platform (node 2) (node 1) runA runB minted rfl hmade (by decide)
    epoch_dated (firstDay_dated ⟨by decide, by decide⟩) later

end Symbolic

end Island
end VpnPi
