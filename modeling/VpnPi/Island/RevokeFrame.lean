import VpnPi.Island.Era

/-!
# `Island.RevokeFrame` — what an accepted notice leaves alone

`receiveRevoke` deletes one friend record and adds the nonce of the notice to the set of spent nonces, which tokens,
accepts and notices share. So the notice of one friend, who chooses that nonce, is felt by the others exactly when
one of their own messages carries it (`revoke_frame_iff`).

* `Without` — the book after the notice, against the book without it;
* `Commit.transfer` — a call on another identity does the same in both, unless it looks the nonce up.
-/

namespace VpnPi
namespace Island

open Js Async

/-! ## Calls on other identities -/

section

variable (P : Platform) (me : Self)

/-- The call is not about the peer with the key `K`. -/
def Call.Other (K : JsString) : Call → Prop
  | issueToken .. => True
  | receive token _ => ∀ peer, prop token (js "from") = .ok peer → prop peer (js "ed25519") ≠ .ok (.str K)
  | accept giver _ _ => giver ≠ K
  | confirm blob _ => ∀ accept peer, openAccept P me blob = .ok accept → prop accept (js "from") = .ok peer →
      prop peer (js "ed25519") ≠ .ok (.str K)
  | revoke peer => peer ≠ K
  | issueRevoke peer _ _ => peer ≠ K
  | receiveRevoke notice _ => prop notice (js "from") ≠ .ok (.str K)

/-- The call looks `v` up among the spent nonces. -/
def Call.LooksUp (v : Value) : Call → Prop
  | receive token _ => prop token (js "nonce") = .ok v
  | confirm blob _ => ∃ accept, openAccept P me blob = .ok accept ∧ prop accept (js "ref") = .ok v
  | receiveRevoke notice _ => prop notice (js "nonce") = .ok v
  | _ => False

/-- The book after a call that runs alone. -/
def bookAfter (c : Call) (b : FriendBook) : FriendBook := ((c.task P me).run b).2

/-- The calls one after another, from the book without the notice and from the book with it: what succeeds in the
    first succeeds in the second and the other way round, with the same result and the same records of everybody
    but `K`. -/
def Unharmed (K : JsString) : FriendBook → FriendBook → List Call → Prop
  | _, _, [] => True
  | b, b', c :: cs =>
      (∀ v, ((c.task P me).run b).1 = .ok v ↔ ((c.task P me).run b').1 = .ok v) ∧
      (∀ k ≠ K, (bookAfter P me c b').friends.get k = (bookAfter P me c b).friends.get k) ∧
      Unharmed K (bookAfter P me c b) (bookAfter P me c b') cs

/-- Some call looks `N` up and would have succeeded. -/
def NonceReused (N : JsString) : FriendBook → List Call → Prop
  | _, [] => False
  | b, c :: cs => (c.LooksUp P me (.str N) ∧ ∃ v, ((c.task P me).run b).1 = .ok v) ∨ NonceReused N (bookAfter P me c b) cs

end

/-! ## With and without the notice -/

/-- The book `b'` is `b` after a notice of `K` with the nonce `N`. -/
structure Without (K N : JsString) (b b' : FriendBook) : Prop where
  offered  : b'.offered = b.offered
  pending  : b'.pending = b.pending
  friends  : b'.friends = b.friends.delete K
  consumed : ∀ v, setHas b'.consumed v = true ↔ setHas b.consumed v = true ∨ v = .str N

variable {P : Platform} {me : Self} {K N : JsString} {b b' t t' : FriendBook} {c : Call} {r : Except Exn Value}

theorem setHas_setAdd (s : List Value) (v w : Value) :
    setHas (setAdd s v) w = true ↔ setHas s w = true ∨ w.isPrimitive = true ∧ w = v := by
  rw [setHas_iff, setHas_iff]
  constructor
  · rintro ⟨hw, hmem⟩
    exact (mem_setAdd hmem).imp (⟨hw, ·⟩) (⟨hw, ·⟩)
  · rintro (⟨hw, hmem⟩ | ⟨hw, rfl⟩)
    · exact ⟨hw, mem_setAdd_of_mem v hmem⟩
    · exact ⟨hw, mem_setAdd_self s w⟩

namespace Without

theorem friend (h : Without K N b b') {k : JsString} (hk : k ≠ K) : b'.friends.get k = b.friends.get k := by
  rw [h.friends, OrdMap.get_delete_ne hk]

theorem spend (h : Without K N b b') (v w : Value) :
    setHas (setAdd b'.consumed v) w = true ↔ setHas (setAdd b.consumed v) w = true ∨ w = .str N := by
  rw [setHas_setAdd, setHas_setAdd, h.consumed]
  exact or_right_comm

/-- The same change on both sides. -/
theorem setFriend (h : Without K N b b') {k : JsString} (hk : k ≠ K) (v : Value) :
    b'.friends.set k v = (b.friends.set k v).delete K := by
  rw [h.friends, OrdMap.delete_set hk]

theorem deleteFriend (h : Without K N b b') (k : JsString) :
    b'.friends.delete k = (b.friends.delete k).delete K := by
  rw [h.friends, OrdMap.delete_delete]

end Without

/-- **What a call on another identity does**, it does to every book with the same offers, requests and other friends
    in which what it looks up is unused as well. -/
theorem Commit.transfer (hc : Commit P me c b b r t) (hother : c.Other P me K) (hoffered : b'.offered = b.offered)
    (hpending : b'.pending = b.pending) (hfriends : ∀ k ≠ K, b'.friends.get k = b.friends.get k)
    (hunused : ∀ v, c.LooksUp P me v → ¬setHas b.consumed v = true → ¬setHas b'.consumed v = true) :
    ∃ f : FriendBook → FriendBook, t = f b ∧ Commit P me c b' b' r (f b') ∧
      ∀ {x x'}, Without K N x x' → Without K N (f x) (f x') := by
  -- each commit is one update of the book, guarded by lookups that the two books answer alike
  cases hc with
  | issueToken minted =>
      refine ⟨fun x => { x with offered := x.offered.set _ _ }, rfl, .issueToken minted, fun h => { h with offered := ?_ }⟩
      exact congrArg (OrdMap.set · _ _) h.offered
  | receive verified hnonce unused hkey other =>
      refine ⟨fun x => { x with pending := x.pending.set _ _ }, rfl,
        .receive verified hnonce (hunused _ hnonce unused) hkey other, fun h => { h with pending := ?_ }⟩
      exact congrArg (OrdMap.set · _ _) h.pending
  | accept hp htoken fresh sealed hnonce hpeer =>
      refine ⟨fun x => { x with pending := x.pending.delete _, consumed := setAdd x.consumed _, friends := x.friends.set _ _ },
        rfl, .accept (hpending ▸ hp) htoken fresh sealed hnonce hpeer, fun h => ?_⟩
      exact ⟨h.offered, congrArg (OrdMap.delete · _) h.pending, h.setFriend hother _, fun w => h.spend _ w⟩
  | confirm opened href hoffer unused fresh hpeer hkey =>
      have hk := hother _ _ opened hpeer
      refine ⟨fun x => { x with
          offered := x.offered.delete _, consumed := setAdd x.consumed _, friends := x.friends.set _ _ }, rfl,
        .confirm opened href (hoffered ▸ hoffer) (hunused _ ⟨_, opened, href⟩ unused) fresh hpeer hkey, fun h => ?_⟩
      exact ⟨congrArg (OrdMap.delete · _) h.offered, h.pending, h.setFriend (fun heq => hk (heq ▸ hkey)) _, fun w => h.spend _ w⟩
  | revoke peer =>
      have hsame : b'.friends.has peer = b.friends.has peer := congrArg Option.isSome (hfriends peer hother)
      refine ⟨fun x => { x with friends := x.friends.delete peer }, rfl, ?_, fun h => { h with friends := h.deleteFriend peer }⟩
      rw [← hsame]
      exact .revoke peer b' b'
  | issueRevokeNone hrec =>
      exact ⟨id, rfl, .issueRevokeNone ((hfriends _ hother).trans hrec), id⟩
  | issueRevoke hrec signed =>
      exact ⟨fun x => { x with friends := x.friends.delete _ }, rfl, .issueRevoke ((hfriends _ hother).trans hrec) signed,
        fun h => { h with friends := h.deleteFriend _ }⟩
  | receiveRevoke shape htarget hpeer hrec hnonce unused verified hat hsince current =>
      obtain ⟨from_, hfrom, hkey⟩ := bind_ok.mp hpeer
      obtain rfl := strKey_ok.mp hkey
      have hk := (hfriends _ fun heq => hother (heq ▸ hfrom)).trans hrec
      refine ⟨fun x => { x with consumed := setAdd x.consumed _, friends := x.friends.delete _ }, rfl,
        .receiveRevoke shape htarget hpeer hk hnonce (hunused _ hnonce unused) verified hat hsince current, fun h => ?_⟩
      exact ⟨h.offered, h.pending, h.deleteFriend _, fun w => h.spend _ w⟩

/-- What looks a nonce up and commits, succeeds. -/
theorem Commit.ok_of_looksUp {v : Value} (hc : Commit P me c b b r t) (h : c.LooksUp P me v) : ∃ w, r = .ok w := by
  cases hc with
  | receive => exact ⟨_, rfl⟩
  | confirm => exact ⟨_, rfl⟩
  | receiveRevoke => exact ⟨_, rfl⟩
  | _ => exact h.elim

/-- A spent nonce is refused. -/
theorem Commit.unspent {v : Value} (hc : Commit P me c b b r t) (h : c.LooksUp P me v) : ¬setHas b.consumed v = true := by
  cases hc with
  | receive verified hnonce unused hkey other =>
      obtain rfl := Except.ok.inj (hnonce.symm.trans h)
      exact unused
  | confirm opened href hoffer unused fresh hpeer hkey =>
      obtain ⟨accept, hopened, hv⟩ := h
      obtain rfl := Except.ok.inj (opened.symm.trans hopened)
      obtain rfl := Except.ok.inj (href.symm.trans hv)
      exact unused
  | receiveRevoke shape htarget hpeer hrec hnonce unused verified hat hsince current =>
      obtain rfl := Except.ok.inj (hnonce.symm.trans h)
      exact unused
  | _ => exact h.elim

/-- **One call, on both sides**: unless it looks the nonce up and would have succeeded. -/
theorem Without.call (h : Without K N b b') (hother : c.Other P me K)
    (hquiet : ¬(c.LooksUp P me (.str N) ∧ ∃ v, ((c.task P me).run b).1 = .ok v)) :
    (∀ v, ((c.task P me).run b).1 = .ok v ↔ ((c.task P me).run b').1 = .ok v) ∧
      Without K N (bookAfter P me c b) (bookAfter P me c b') := by
  have hrun : (c.task P me).run b = (((c.task P me).run b).1, bookAfter P me c b) := rfl
  have hrun' : (c.task P me).run b' = (((c.task P me).run b').1, bookAfter P me c b') := rfl
  rcases run_cases hrun with ⟨e, he, hb⟩ | hc
  · rcases run_cases hrun' with ⟨e', he', hb'⟩ | hc'
    · -- both throw, and neither changes its book
      rw [hb, hb', he, he']
      exact ⟨fun v => iff_of_false (fun hv => by cases hv) (fun hv => by cases hv), h⟩
    · -- with fewer friends and more spent nonces, nothing succeeds that did not
      obtain ⟨f, hf, hcommit, hkeeps⟩ := hc'.transfer hother h.offered.symm h.pending.symm (fun k hk => (h.friend hk).symm)
        fun v _ hnot hspent => hnot ((h.consumed v).mpr (.inl hspent))
      have hafter : bookAfter P me c b = f b := congrArg Prod.snd hcommit.run
      rw [hcommit.run, hafter, hf]
      exact ⟨fun v => Iff.rfl, hkeeps h⟩
  · have hnot : ¬c.LooksUp P me (.str N) := fun hlooks => hquiet ⟨hlooks, hc.ok_of_looksUp hlooks⟩
    obtain ⟨f, hf, hcommit, hkeeps⟩ := hc.transfer hother h.offered h.pending (fun k hk => h.friend hk)
      fun v hlooks hunused hspent => by
        rcases (h.consumed v).mp hspent with hspent | rfl
        · exact hunused hspent
        · exact hnot hlooks
    have hafter : bookAfter P me c b' = f b' := congrArg Prod.snd hcommit.run
    rw [hcommit.run, hafter, hf]
    exact ⟨fun v => Iff.rfl, hkeeps h⟩

/-- The call that carries the nonce of the notice, refused for it. -/
theorem Without.refused (h : Without K N b b') (hlooks : c.LooksUp P me (.str N)) (v : Value) :
    ((c.task P me).run b').1 ≠ .ok v := by
  intro hok
  have hrun' : (c.task P me).run b' = (((c.task P me).run b').1, bookAfter P me c b') := rfl
  rcases run_cases hrun' with ⟨e, he, _⟩ | hc
  · cases hok.symm.trans he
  · exact hc.unspent hlooks ((h.consumed _).mpr (.inr rfl))

/-- **Any number of calls** on other identities. -/
theorem Without.unharmed_iff {cs : List Call} (h : Without K N b b') (hothers : ∀ c ∈ cs, c.Other P me K) :
    Unharmed P me K b b' cs ↔ ¬NonceReused P me N b cs := by
  induction cs generalizing b b' with
  | nil => exact ⟨fun _ hreused => hreused, fun _ => trivial⟩
  | cons c cs ih =>
      obtain ⟨hother, hothers⟩ := List.forall_mem_cons.mp hothers
      constructor
      · rintro ⟨hsame, _, hrest⟩ (⟨hlooks, v, hok⟩ | hreused)
        · exact h.refused hlooks v ((hsame v).mp hok)
        · by_cases hquiet : c.LooksUp P me (.str N) ∧ ∃ v, ((c.task P me).run b).1 = .ok v
          · obtain ⟨hlooks, v, hok⟩ := hquiet
            exact h.refused hlooks v ((hsame v).mp hok)
          · exact (ih (h.call hother hquiet).2 hothers).mp hrest hreused
      · intro hnot
        have hquiet : ¬(c.LooksUp P me (.str N) ∧ ∃ v, ((c.task P me).run b).1 = .ok v) := fun hq => hnot (.inl hq)
        obtain ⟨hsame, hafter⟩ := h.call hother hquiet
        exact ⟨hsame, fun k hk => hafter.friend hk, (ih hafter hothers).mpr fun hreused => hnot (.inr hreused)⟩

/-- An accepted notice removes one friend record, and spends its nonce. -/
theorem without_of_notice {n rec_ : Value} {now : Instant} (hrun : ((Call.receiveRevoke n now).task P me).run b = (.ok rec_, b'))
    (hfrom : prop n (js "from") = .ok (.str K)) (hnonce : prop n (js "nonce") = .ok (.str N)) :
    Without K N b b' := by
  rcases run_cases hrun with ⟨_, he, _⟩ | hc
  · cases he
  · cases hc with
    | receiveRevoke shape htarget hpeer hrec hnonce' unused verified hat hsince current =>
        obtain ⟨from_, hfrom', hkey⟩ := bind_ok.mp hpeer
        obtain rfl := Except.ok.inj (hfrom.symm.trans hfrom')
        obtain rfl := Value.str.inj (strKey_ok.mp hkey)
        obtain rfl := Except.ok.inj (hnonce.symm.trans hnonce')
        refine ⟨rfl, rfl, rfl, fun v => ?_⟩
        rw [setHas_setAdd]
        exact or_congr_right ⟨fun hv => hv.2, fun hv => ⟨hv ▸ rfl, hv⟩⟩

/-- **A notice destroys only its own relationship** exactly as long as none of the others' messages that would have
    succeeded carries its nonce. -/
theorem revoke_frame_iff {n rec_ : Value} {now : Instant}
    (hrun : ((Call.receiveRevoke n now).task P me).run b = (.ok rec_, b'))
    (hfrom : prop n (js "from") = .ok (.str K)) (hnonce : prop n (js "nonce") = .ok (.str N)) (cs : List Call)
    (hothers : ∀ c ∈ cs, c.Other P me K) :
    (b'.offered = b.offered ∧ b'.pending = b.pending ∧ b'.friends = b.friends.delete K ∧ Unharmed P me K b b' cs) ↔
      ¬NonceReused P me N b cs := by
  have h := without_of_notice hrun hfrom hnonce
  rw [← h.unharmed_iff hothers]
  exact ⟨fun hall => hall.2.2.2, fun hunharmed => ⟨h.offered, h.pending, h.friends, hunharmed⟩⟩

/-! ## Two notices of node 1 -/

namespace Symbolic

/-- The notice of node 1 with a nonce of its choice. -/
def notice (random : Bytes) : Value := ((makeRevoke platform (node 1) (toHex [2]) random epoch).toOption).getD .undefined

theorem notice_minted (random : Bytes) :
    makeRevoke platform (node 1) (toHex [2]) random epoch = .ok (notice random) := eq_ok_getD _ (makeRevoke_mints ..)

/-- Node 2 without its friend. -/
def parted (random : Bytes) : FriendBook :=
  { befriended with
    friends := befriended.friends.delete (toHex [1])
    consumed := setAdd befriended.consumed (.str (toHex random)) }

/-- The token of node 3 that node 2 is about to receive. -/
def thirdParty : Call := .receive (invite 3 [9]) epoch

theorem thirdParty_other : ∀ c ∈ [thirdParty], c.Other platform (node 2) (toHex [1]) := by
  intro c hc
  obtain rfl := List.mem_singleton.mp hc
  intro peer hpeer
  obtain rfl := Except.ok.inj ((makeToken_from (invite_minted 3 [9])).symm.trans hpeer)
  decide

theorem thirdParty_received : ((thirdParty.task platform (node 2)).run befriended).1
    = .ok (peerPubOf platform (node 3)) := by
  have hcommit : Commit platform (node 2) thirdParty befriended befriended (.ok (peerPubOf platform (node 3))) _ :=
    .receive (invite_verifies 3 [9]) (makeToken_nonce (invite_minted 3 [9])) (by decide) rfl (by decide)
  rw [hcommit.run]

/-- Node 2 accepts the notice, whatever its nonce is, if it is unspent. -/
theorem notice_received {random : Bytes}
    (unused : ¬setHas befriended.consumed (.str (toHex random)) = true) :
    ((Call.receiveRevoke (notice random) epoch).task platform (node 2)).run befriended
      = (.ok (friendRecord platform (peerPubOf platform (node 1)) (.str (toHex [7])) epoch), parted random) := by
  have hrec : befriended.friends.get (toHex [1])
      = some (friendRecord platform (peerPubOf platform (node 1)) (.str (toHex [7])) epoch) := OrdMap.get_set_self _ _ _
  have verified := notice_verifies codec (keyPairs 1) (notice_minted random)
    (show prop (friendRecord platform (peerPubOf platform (node 1)) (.str (toHex [7])) epoch) (js "peer") = .ok _ from rfl) rfl
  obtain ⟨m, -, hnotice⟩ := makeRevoke_ok (notice_minted random)
  rw [hnotice] at verified ⊢
  have hdate : dateParse platform (.str (platform.toISOString epoch)) = .ok (some epoch) := congrArg Except.ok epoch_dated
  have hcurrent : ∀ d, some epoch = some d → d.ms - revokeSkewMs ≤ epoch.ms := fun d hd => by
    cases hd
    decide
  have hcommit : Commit platform (node 2) (.receiveRevoke _ epoch) befriended befriended _ _ :=
    .receiveRevoke rfl rfl rfl hrec rfl unused verified hdate hdate hcurrent
  exact hcommit.run

/-- The first of them leaves node 2's request to node 3 alone. -/
theorem notice_contained : (parted [8]).friends = befriended.friends.delete (toHex [1]) ∧
    Unharmed platform (node 2) (toHex [1]) befriended (parted [8]) [thirdParty] := by
  have hrun := notice_received (show ¬setHas befriended.consumed (.str (toHex [8])) = true by decide)
  obtain ⟨_, _, hfriends, hunharmed⟩ := (revoke_frame_iff hrun (makeRevoke_from (notice_minted [8]))
      (makeRevoke_nonce (notice_minted [8])) [thirdParty] thirdParty_other).mpr fun hreused => by
    rcases hreused with ⟨hlooks, _⟩ | hreused
    · cases (makeToken_nonce (invite_minted 3 [9])).symm.trans hlooks
    · exact hreused
  exact ⟨hfriends, hunharmed⟩

/-- The second one carries the nonce of node 3's token, which node 2 then refuses. -/
theorem notice_harms : ∃ tr, Run (BookStep platform (node 2)) .empty tr befriended ∧
    (∃ rec_, ((Call.receiveRevoke (notice [9]) epoch).task platform (node 2)).run befriended = (.ok rec_, parted [9])) ∧
    (∃ v, ((thirdParty.task platform (node 2)).run befriended).1 = .ok v) ∧
    ∀ v, ((thirdParty.task platform (node 2)).run (parted [9])).1 ≠ .ok v := by
  have hrun := notice_received (show ¬setHas befriended.consumed (.str (toHex [9])) = true by decide)
  have hspent := without_of_notice hrun (makeRevoke_from (notice_minted [9])) (makeRevoke_nonce (notice_minted [9]))
  have hlooks : thirdParty.LooksUp platform (node 2) (.str (toHex [9])) := makeToken_nonce (invite_minted 3 [9])
  have run := run_commit (run_commit .nil invite_received invite_wf) invite_accepted trivial
  exact ⟨_, run, ⟨_, hrun⟩, ⟨_, thirdParty_received⟩, hspent.refused hlooks⟩

end Symbolic

end Island
end VpnPi
