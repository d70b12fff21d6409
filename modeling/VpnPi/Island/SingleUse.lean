import VpnPi.Island.BookRuns
import VpnPi.Island.Symbolic

/-!
# `Island.SingleUse` — how often a token can be used

`accept` adds the token's nonce to the set of spent nonces and `receive` looks it up there. Nothing leaves
the set (`BookStep.consumed_mono`), so a token whose nonce the set can find again is used once. The set
finds a string, a number, a boolean or `null`; it does not find an array or an object, since every request
parses a new one. `singleUse_iff` says that this is the whole story: a token with such a nonce passes every
check a second time.
-/

namespace VpnPi
namespace Island

open Js Async

/-- The pending request of `giver` carries the token `t`. -/
def PendingToken (b : FriendBook) (giver : JsString) (t : Value) : Prop :=
  ∃ p, b.pending.get giver = some p ∧ prop p (js "token") = .ok t

/-- Once a run has accepted `t`, it refuses whatever is JSON-equal to it. -/
def SingleUse (P : Platform) (me : Self) (t : Value) : Prop :=
  ∀ (tr pre mid post : List BookEvent) (b before before' : FriendBook) (giver : JsString)
    (ephemeral : Bytes) (now now' : Instant) (blob t' : Value) (r : Except Exn Value),
    Run (BookStep P me) .empty tr b →
    tr = pre ++ .call (.accept giver ephemeral now) before (.ok blob) :: mid ++
      .call (.receive t' now') before' r :: post →
    PendingToken before giver t → JsonEq t t' → ∃ e, r = .error e

/-- The node can receive and accept `t` at some time. -/
structure Acceptable (P : Platform) (me : Self) (t : Value) : Prop where
  wf : t.WF P.toEngine
  ok : ∃ peer key nonce now ephemeral blob, verifyToken P t now = .ok peer ∧
    prop peer (js "ed25519") = .ok (.str key) ∧ key ≠ selfEd P me ∧ prop t (js "nonce") = .ok nonce ∧
    makeAccept P me t ephemeral now = .ok blob

variable {P : Platform} {me : Self}

/-! ## Spent nonces stay spent -/

theorem Commit.consumed_mono {c : Call} {seen b b' : FriendBook} {r : Except Exn Value} {v : Value}
    (h : Commit P me c seen b r b') (hv : v ∈ b.consumed) : v ∈ b'.consumed := by
  cases h with
  | accept => exact mem_setAdd_of_mem _ hv
  | confirm => exact mem_setAdd_of_mem _ hv
  | receiveRevoke => exact mem_setAdd_of_mem _ hv
  | _ => exact hv

theorem BookStep.consumed_mono {b b' : FriendBook} {e : BookEvent} {v : Value}
    (h : BookStep P me b e b') (hb : BookWF P.toEngine b) (hv : v ∈ b.consumed) : v ∈ b'.consumed := by
  cases h with
  | call wf hrun =>
      rcases run_cases hrun with ⟨_, _, rfl⟩ | hc
      · exact hv
      · exact hc.consumed_mono hv
  | reload hload =>
      rw [reload_eq hb] at hload
      obtain rfl := Except.ok.inj hload
      exact mem_foldl_setAdd.mpr (Or.inr hv)

/-- The run has accepted a token with nonce `n`. -/
def Spent (tr : List BookEvent) (n : Value) : Prop :=
  ∃ (giver : JsString) (ephemeral : Bytes) (now : Instant) (before : FriendBook) (blob t : Value),
    BookEvent.call (.accept giver ephemeral now) before (.ok blob) ∈ tr ∧ PendingToken before giver t ∧
      prop t (js "nonce") = .ok n

theorem mem_consumed_of_spent {tr : List BookEvent} {b : FriendBook} {n : Value}
    (run : Run (BookStep P me) .empty tr b) (h : Spent tr n) : n ∈ b.consumed := by
  refine run.invariant (I := fun tr b => ∀ n, Spent tr n → n ∈ b.consumed) ?_ ?_ n h
  · rintro n ⟨_, _, _, _, _, _, hmem, _⟩
    exact absurd hmem List.not_mem_nil
  · rintro tr b e b' hrun ih hstep n ⟨giver, ephemeral, now, before, blob, t, hmem, hp, hn⟩
    rcases List.mem_append.mp hmem with hold | hnew
    · have hspent : Spent tr n := ⟨giver, ephemeral, now, before, blob, t, hold, hp, hn⟩
      exact hstep.consumed_mono (bookWF_of_run hrun) (ih n hspent)
    · -- the last event is the accept itself, and its commit adds the nonce
      obtain rfl := List.mem_singleton.mp hnew
      cases hstep with
      | call wf hrun' =>
          rcases run_cases hrun' with ⟨_, he, _⟩ | hc
          · cases he
          · cases hc with
            | accept hp' htoken' fresh sealed hnonce hpeer =>
                obtain ⟨p, hp, htoken⟩ := hp
                obtain rfl := Option.some.inj (hp.symm.trans hp')
                obtain rfl := Except.ok.inj (htoken.symm.trans htoken')
                obtain rfl := Except.ok.inj (hn.symm.trans hnonce)
                exact mem_setAdd_self _ _

/-- A spent primitive nonce is refused. -/
theorem receive_spent {b b' : FriendBook} {t n : Value} {now : Instant} {r : Except Exn Value}
    (h : ((Call.receive t now).task P me).run b = (r, b')) (hn : prop t (js "nonce") = .ok n)
    (hprim : n.isPrimitive = true) (hmem : n ∈ b.consumed) : ∃ e, r = .error e := by
  rcases run_cases h with ⟨e, he, _⟩ | hc
  · exact ⟨e, he⟩
  · cases hc with
    | receive verified hnonce unused hkey other =>
        obtain rfl := Except.ok.inj (hn.symm.trans hnonce)
        exact absurd (setHas_iff.mpr ⟨hprim, hmem⟩) unused

theorem JsonEq.nonce {E : Engine} {t t' n n' : Value} (h : JsonEq t t') (ht : t.WF E) (ht' : t'.WF E)
    (hn : prop t (js "nonce") = .ok n) (hn' : prop t' (js "nonce") = .ok n')
    (hprim : n.isPrimitive = true) : n' = n := eq_of_sortKeys_primitive hprim (h.field ht ht' hn hn')

/-! ## The two directions -/

/-- A token with a primitive nonce is used once. -/
theorem singleUse_of_primitive {t : Value}
    (hprim : ∀ n, prop t (js "nonce") = .ok n → n.isPrimitive = true) : SingleUse P me t := by
  intro tr pre mid post b before before' giver ephemeral now now' blob t' r run htr hp heq
  subst htr
  obtain ⟨b₁, b₂, hrun, hstep⟩ := run.split
  cases hstep with
  | call wf hreceive =>
      rcases run_cases hreceive with ⟨e, he, _⟩ | hc
      · exact ⟨e, he⟩
      · cases hc with
        | receive verified hnonce unused hkey other =>
            -- the accept put the nonce of `t` into the book that this call finds
            obtain ⟨b₃, b₄, hrun', haccept⟩ := hrun.split
            cases haccept with
            | call _ haccept =>
                rcases run_cases haccept with ⟨_, he, _⟩ | hc'
                · cases he
                · cases hc' with
                  | accept hp' htoken' fresh sealed hn hpeer =>
                      have htok : PendingToken before giver t := hp
                      obtain ⟨p, hp, htoken⟩ := hp
                      obtain rfl := Option.some.inj (hp.symm.trans hp')
                      obtain rfl := Except.ok.inj (htoken.symm.trans htoken')
                      have htw : t.WF P.toEngine :=
                        prop_wf ((bookWF_of_run hrun').pending _ _ hp).1 htoken
                      have hspent := mem_consumed_of_spent hrun
                        ⟨giver, ephemeral, now, before, _, t, List.mem_append_right _
                          (List.mem_cons_self ..), htok, hn⟩
                      obtain rfl := heq.nonce htw wf hn hnonce (hprim _ hn)
                      exact receive_spent hreceive hnonce (hprim _ hn) hspent

/-- A token whose nonce is an array or an object is received again right after it was accepted. -/
theorem not_singleUse {t n : Value} (h : Acceptable P me t) (hn : prop t (js "nonce") = .ok n)
    (hprim : n.isPrimitive = false) : ¬SingleUse P me t := by
  intro hsingle
  obtain ⟨peer, key, nonce, now, ephemeral, blob, hv, hkey, hother, hnonce, hsealed⟩ := h.ok
  obtain rfl := Except.ok.inj (hn.symm.trans hnonce)
  obtain ⟨hpeer, hfresh, _⟩ := verifyToken_ok hv
  have unused : ∀ s : List Value, ¬setHas s n = true := by
    intro s hs
    rw [(setHas_iff.mp hs).1] at hprim
    cases hprim
  -- receive, accept, receive again
  have received : ∀ b : FriendBook, BookStep P me b (.call (.receive t now) b (.ok peer))
      { b with pending := b.pending.set key (pendingEntry P t now) } :=
    fun b => .of_commit h.wf (.receive hv hnonce (unused _) hkey hother)
  have accepted : ∀ b : FriendBook, b.pending.get key = some (pendingEntry P t now) →
      BookStep P me b (.call (.accept key ephemeral now) b (.ok (.str blob)))
        { b with
          pending := b.pending.delete key
          consumed := setAdd b.consumed n
          friends := b.friends.set key (friendRecord P peer n now) } :=
    fun b hp => .of_commit trivial (.accept hp rfl hfresh hsealed hnonce hpeer)
  have hp : (FriendBook.empty.pending.set key (pendingEntry P t now)).get key
      = some (pendingEntry P t now) := OrdMap.get_set_self ..
  have run := ((Run.nil.snoc (received .empty)).snoc (accepted _ hp)).snoc (received _)
  obtain ⟨e, he⟩ := hsingle _ [_] [] [] _ _ _ key ephemeral now now (.str blob) t _ run rfl
    ⟨_, hp, rfl⟩ rfl
  cases he

/-- **Single use.** A token that the node can accept is used once exactly when its nonce is a primitive:
    a string, a number, a boolean or `null`. -/
theorem singleUse_iff (P : Platform) (me : Self) (t : Value) (h : Acceptable P me t) :
    SingleUse P me t ↔ ∀ n, prop t (js "nonce") = .ok n → n.isPrimitive = true := by
  constructor
  · intro hsingle n hn
    by_contra hprim
    exact not_singleUse h hn (Bool.eq_false_iff.mpr hprim) hsingle
  · exact singleUse_of_primitive

open Symbolic

theorem invite_acceptable : Acceptable platform (node 2) (invite 1 [7]) where
  wf := invite_wf
  ok := ⟨peerPubOf platform (node 1), toHex [1], .str (toHex [7]), epoch, [], reply, invite_verified, rfl,
    by decide, invite_nonce, invite_sealed⟩

theorem singleUse_invite : SingleUse platform (node 2) (invite 1 [7]) := by
  refine (singleUse_iff platform (node 2) (invite 1 [7]) invite_acceptable).mpr fun n hn => ?_
  rw [invite_nonce] at hn
  obtain rfl := Except.ok.inj hn
  rfl

/-- Node 1's token with the nonce `[]`, signed like any other. -/
def arrayInvite : Value :=
  withSig (.obj [(js "v", .num Number.one), (js "from", peerPubOf platform (node 1)), (js "nonce", .arr []),
      (js "issued", .str (isoString epoch)), (js "expires", .str (isoString ⟨60000, by decide⟩))])
    (toHex ([1] ++ utf8Encode (js
      "\x7b\"expires\":\"1970-01-01T00:01:00.000Z\",\"from\":\x7b\"ed25519\":\"01\",\"label\":\"node\",\"wg0\":\"10.42.0.1\",\"x25519\":\"65\"\x7d,\"issued\":\"1970-01-01T00:00:00.000Z\",\"nonce\":[],\"v\":1\x7d")))

theorem arrayInvite_replayed : ¬SingleUse platform (node 2) arrayInvite := by
  refine not_singleUse (n := .arr []) ⟨?_, ?_⟩ (by decide +kernel) rfl
  · exact ⟨show [js "v", js "from", js "nonce", js "issued", js "expires", js "sig"].Nodup by decide,
      one_wf _, peerPubOf_wf _ _, trivial, trivial, trivial, trivial, trivial⟩
  · exact ⟨peerPubOf platform (node 1), toHex [1], .arr [], epoch, [],
      ((makeAccept platform (node 2) arrayInvite [] epoch).toOption).getD [], by decide +kernel, rfl,
      by decide, by decide +kernel, by decide +kernel⟩

end Island
end VpnPi
