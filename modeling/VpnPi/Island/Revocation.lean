import VpnPi.Island.Handshake
import VpnPi.Island.Symbolic

/-!
# `Island.Revocation` — how a friendship ends on both sides

The receiver of a token accepts it and later ends the friendship; the accept and the notice travel to the giver
on their own. `mutual_removal_iff` says when the giver ends without the friendship, too: if the accept comes
first and is confirmed no later than the clock skew after the notice was minted. A notice that comes first finds
no friend and is dropped.
-/

namespace VpnPi
namespace Island

open Js Async

variable {P : Platform} {giver receiver : Self}

theorem setHas_setAdd_ne {s : List Value} {v w : Value} (h : w ≠ v) : setHas (setAdd s v) w = setHas s w := by
  refine Bool.eq_iff_iff.mpr ?_
  rw [setHas_iff, setHas_iff]
  exact and_congr_right fun _ => ⟨fun hw => (mem_setAdd hw).resolve_right h, mem_setAdd_of_mem v⟩

/-- What `issueRevoke` returns with a notice. -/
theorem issueRevoke_minted {me : Self} {K : JsString} {random : Bytes} {now : Instant} {b b' : FriendBook}
    {reply notice : Value} (run : ((Call.issueRevoke K random now).task P me).run b = (.ok reply, b'))
    (hnotice : prop reply (js "notice") = .ok notice) :
    makeRevoke P me K random now = .ok notice ∧ b' = { b with friends := b.friends.delete K } := by
  rcases run_cases run with ⟨_, h, _⟩ | h
  · cases h
  · generalize hreply : Except.ok reply = r at h
    cases h with
    | issueRevokeNone =>
        obtain rfl := Except.ok.inj hreply
        cases hnotice
    | issueRevoke _ signed =>
        refine ⟨?_, rfl⟩
        rw [signed]
        split at hreply
        · obtain rfl := Except.ok.inj hreply
          exact hnotice
        · cases hreply

/-! ## The two messages -/

/-- Whatever else a book goes through: the entries of one friendship stay as they are. -/
structure Elsewhere (key : JsString) (nonces : List JsString) (b b' : FriendBook) : Prop where
  offered  : ∀ n ∈ nonces, b'.offered.get n = b.offered.get n
  pending  : b'.pending.get key = b.pending.get key
  friends  : b'.friends.get key = b.friends.get key
  consumed : ∀ n ∈ nonces, setHas b'.consumed (.str n) = setHas b.consumed (.str n)

theorem Elsewhere.refl (key : JsString) (nonces : List JsString) (b : FriendBook) : Elsewhere key nonces b b :=
  ⟨fun _ _ => rfl, rfl, rfl, fun _ _ => rfl⟩

/-- A token is issued, received and accepted, and the receiver ends the friendship. -/
structure Parting (P : Platform) (giver receiver : Self) where
  ttlSeconds : ℚ
  random       : Bytes
  revokeRandom : Bytes
  ephemeral    : Bytes
  issuedAt   : Instant
  receivedAt : Instant
  acceptedAt : Instant
  revokedAt  : Instant
  token  : Value
  peer   : Value
  blob   : JsString
  notice : Value
  wg0    : Value
  a₀ : FriendBook
  a₁ : FriendBook
  b₀ : FriendBook
  b₁ : FriendBook
  b₂ : FriendBook
  b₃ : FriendBook
  b₄ : FriendBook
  b₅ : FriendBook
  issued   : (issueToken P giver ttlSeconds random issuedAt).run a₀ = (.ok token, a₁)
  /-- Nonces are new. -/
  fresh    : ∀ n ∈ [toB64 P random, toB64 P revokeRandom], setHas a₀.consumed (.str n) = false
  distinct : toB64 P random ≠ toB64 P revokeRandom
  received : (receive P receiver token receivedAt).run b₀ = (.ok peer, b₁)
  waiting  : Elsewhere (selfEd P giver) [] b₁ b₂
  accepted : (accept P receiver (selfEd P giver) ephemeral acceptedAt).run b₂ = (.ok (.str blob), b₃)
  friends  : Elsewhere (selfEd P giver) [] b₃ b₄
  revoked  : (issueRevoke P receiver (selfEd P giver) revokeRandom revokedAt).run b₄
    = (.ok (.obj [(js "notice", notice), (js "wg0", wg0)]), b₅)

namespace Parting

inductive Order where
  | acceptFirst
  | noticeFirst
  deriving DecidableEq

variable (p : Parting P giver receiver)

def nonces : List JsString := [toB64 P p.random, toB64 P p.revokeRandom]

/-- The two calls, in the order in which the messages come. -/
def calls (confirmedAt notifiedAt : Instant) : Order → Call × Call
  | .acceptFirst => (.confirm p.blob confirmedAt, .receiveRevoke p.notice notifiedAt)
  | .noticeFirst => (.receiveRevoke p.notice notifiedAt, .confirm p.blob confirmedAt)

/-- The giver gets each of the two messages once, the token being good when the accept comes. -/
structure Arrivals where
  order : Order
  confirmedAt : Instant
  notifiedAt  : Instant
  a₂ : FriendBook
  a₃ : FriendBook
  a₄ : FriendBook
  a₅ : FriendBook
  b  : FriendBook
  r₁ : Except Exn Value
  r₂ : Except Exn Value
  unexpired : NotExpired P p.token confirmedAt
  before : Elsewhere (selfEd P receiver) p.nonces p.a₁ a₂
  first  : ((p.calls confirmedAt notifiedAt order).1.task P giver).run a₂ = (r₁, a₃)
  meanwhile : Elsewhere (selfEd P receiver) p.nonces a₃ a₄
  second : ((p.calls confirmedAt notifiedAt order).2.task P giver).run a₄ = (r₂, a₅)
  after  : Elsewhere (selfEd P giver) [] p.b₅ b

/-- Neither book lists the other. -/
def Arrivals.MutualRemoval {p : Parting P giver receiver} (x : p.Arrivals) : Prop :=
  x.a₅.friends.get (selfEd P receiver) = none ∧ x.b.friends.get (selfEd P giver) = none

/-! ## What the two nodes have made -/

theorem token_minted : makeToken P giver p.ttlSeconds p.random p.issuedAt = .ok p.token ∧
    p.a₁ = { p.a₀ with offered := p.a₀.offered.set (toB64 P p.random) p.token } := by
  rcases run_cases (c := .issueToken p.ttlSeconds p.random p.issuedAt) p.issued with ⟨_, h, _⟩ | h
  · cases h
  · generalize p.a₁ = a₁ at h ⊢
    cases h with
    | issueToken minted => exact ⟨minted, rfl⟩

theorem token_from : prop p.token (js "from") = .ok (peerPubOf P giver) := by
  obtain ⟨_, _, _, _, htoken⟩ := makeToken_ok p.token_minted.1
  rw [htoken]
  rfl

theorem token_nonce : prop p.token (js "nonce") = .ok (.str (toB64 P p.random)) := by
  obtain ⟨_, _, _, _, htoken⟩ := makeToken_ok p.token_minted.1
  rw [htoken]
  rfl

theorem token_pending : p.b₂.pending.get (selfEd P giver) = some (pendingEntry P p.token p.receivedAt) := by
  rw [p.waiting.pending]
  rcases run_cases (c := .receive p.token p.receivedAt) p.received with ⟨_, h, _⟩ | h
  · cases h
  · have hfrom := p.token_from
    generalize p.b₁ = b₁ at h ⊢
    generalize p.peer = peer at h
    cases h with
    | receive verified _ _ hkey _ =>
        obtain rfl := Except.ok.inj (hfrom.symm.trans (verifyToken_ok verified).1)
        obtain rfl := Value.str.inj (Except.ok.inj hkey)
        exact OrdMap.get_set_self _ _ _

theorem accept_sealed : makeAccept P receiver p.token p.ephemeral p.acceptedAt = .ok p.blob ∧
    ∃ rec_, p.b₄.friends.get (selfEd P giver) = some rec_ := by
  rw [p.friends.friends]
  rcases run_cases (c := .accept (selfEd P giver) p.ephemeral p.acceptedAt) p.accepted with ⟨_, h, _⟩ | h
  · cases h
  · have hpending := p.token_pending
    generalize p.b₃ = b₃ at h ⊢
    cases h with
    | accept hp htoken _ sealed _ _ =>
        rw [hpending] at hp
        obtain rfl := Option.some.inj hp
        obtain rfl := Except.ok.inj htoken
        exact ⟨sealed, _, OrdMap.get_set_self _ _ _⟩

theorem notice_minted : makeRevoke P receiver (selfEd P giver) p.revokeRandom p.revokedAt = .ok p.notice ∧
    p.b₅.friends.get (selfEd P giver) = none := by
  obtain ⟨minted, hb⟩ := issueRevoke_minted p.revoked rfl
  rw [hb]
  exact ⟨minted, OrdMap.get_delete_self _ _⟩

/-! ## What the giver does with them -/

variable {p}

/-- The giver's book has the token on offer and its nonce unused. -/
structure Offering (p : Parting P giver receiver) (a : FriendBook) : Prop where
  offered : a.offered.get (toB64 P p.random) = some p.token
  fresh   : setHas a.consumed (.str (toB64 P p.random)) = false

theorem offering_issued : Offering p p.a₁ := by
  rw [p.token_minted.2]
  exact ⟨OrdMap.get_set_self _ _ _, p.fresh _ (List.mem_cons_self ..)⟩

theorem Offering.elsewhere {a a' : FriendBook} (h : Offering p a)
    (he : Elsewhere (selfEd P receiver) p.nonces a a') : Offering p a' where
  offered := (he.offered _ (List.mem_cons_self ..)).trans h.offered
  fresh := (he.consumed _ (List.mem_cons_self ..)).trans h.fresh

/-- **The accept is confirmed** while the token is on offer. -/
theorem Offering.confirm (codec : Codec P) (mine : KeyPairs P giver.id) (theirs : KeyPairs P receiver.id)
    {a a' : FriendBook} {now : Instant} {r : Except Exn Value} (h : Offering p a)
    (unexpired : NotExpired P p.token now) (run : ((Call.confirm p.blob now).task P giver).run a = (r, a')) :
    a'.friends.get (selfEd P receiver)
        = some (friendRecord P (peerPubOf P receiver) (.str (toB64 P p.random)) now) ∧
      a'.consumed = setAdd a.consumed (.str (toB64 P p.random)) := by
  obtain ⟨accept, opened, href, hpeer⟩ := accept_opens codec mine theirs p.accept_sealed.1 p.token_from p.token_nonce
  have hcommit : Commit P giver (.confirm p.blob now) a a _ _ :=
    .confirm opened href h.offered (Bool.eq_false_iff.mp h.fresh) unexpired hpeer rfl
  obtain rfl := (Prod.mk.inj (run.symm.trans hcommit.run)).2
  exact ⟨OrdMap.get_set_self _ _ _, rfl⟩

/-- A notice takes no offer away. -/
theorem Offering.notice {a a' : FriendBook} {now : Instant} {r : Except Exn Value} (h : Offering p a)
    (run : ((Call.receiveRevoke p.notice now).task P giver).run a = (r, a')) : Offering p a' := by
  rcases run_cases run with ⟨_, _, rfl⟩ | hcommit
  · exact h
  · obtain ⟨_, _, hnotice⟩ := makeRevoke_ok p.notice_minted.1
    cases hcommit with
    | @receiveRevoke _ nonce _ _ _ _ _ _ _ _ _ _ _ hnonce =>
        rw [hnotice] at hnonce
        obtain rfl : .str (toB64 P p.revokeRandom) = nonce := Except.ok.inj hnonce
        exact ⟨h.offered, (setHas_setAdd_ne fun hsame => p.distinct (Value.str.inj hsame)).trans h.fresh⟩

/-- **When the notice is accepted**, its signer being a friend since the given time. -/
theorem notice_drops_iff (codec : Codec P) (theirs : KeyPairs P receiver.id) {a a' : FriendBook}
    {since now : Instant} {nonce : Value} {r : Except Exn Value} (dated : Dated P p.revokedAt)
    (dated' : Dated P since)
    (hrec : a.friends.get (selfEd P receiver) = some (friendRecord P (peerPubOf P receiver) nonce since))
    (fresh : setHas a.consumed (.str (toB64 P p.revokeRandom)) = false)
    (run : ((Call.receiveRevoke p.notice now).task P giver).run a = (r, a')) :
    a'.friends.get (selfEd P receiver) = none ↔ since.ms - revokeSkewMs ≤ p.revokedAt.ms := by
  have minted := p.notice_minted.1
  obtain ⟨m, _, hnotice⟩ := makeRevoke_ok minted
  have hat : (prop p.notice (js "at") >>= dateParse P) = .ok (some p.revokedAt) := by
    rw [hnotice]
    exact congrArg Except.ok dated
  have hsince : (prop (friendRecord P (peerPubOf P receiver) nonce since) (js "since") >>= dateParse P)
      = .ok (some since) := congrArg Except.ok dated'
  constructor
  · intro hgone
    rcases run_cases run with ⟨_, _, rfl⟩ | hcommit
    · rw [hrec] at hgone
      cases hgone
    · -- the commit has compared the two dates
      cases hcommit with
      | @receiveRevoke _ _ rec_ peer _ at_ _ _ _ _ _ hpeer hrec' _ _ _ hat' hsince' current =>
          rw [hnotice] at hpeer
          obtain rfl : selfEd P receiver = peer := Except.ok.inj hpeer
          obtain rfl := Option.some.inj (hrec.symm.trans hrec')
          obtain rfl := Option.some.inj (Except.ok.inj (hat.symm.trans hat'))
          obtain rfl := Except.ok.inj (hsince.symm.trans hsince')
          exact current since rfl
  · intro hle
    obtain ⟨r', a'', hcommit, hgone⟩ : ∃ r' a'', Commit P giver (.receiveRevoke p.notice now) a a r' a'' ∧
        a''.friends.get (selfEd P receiver) = none := by
      refine ⟨_, _, .receiveRevoke ?_ ?_ ?_ hrec ?_ (Bool.eq_false_iff.mp fresh)
        (notice_verifies codec theirs minted rfl rfl) hat hsince ?_, OrdMap.get_delete_self _ _⟩
      · rw [hnotice]; rfl
      · rw [hnotice]; rfl
      · rw [hnotice]; rfl
      · rw [hnotice]; rfl
      · intro d hd
        obtain rfl := Option.some.inj hd
        exact hle
    rw [(Prod.mk.inj (run.symm.trans hcommit.run)).2]
    exact hgone

/-- **A notice that comes first** does not stop the accept from making its signer a friend. -/
theorem noticeFirst_listed (codec : Codec P) (mine : KeyPairs P giver.id) (theirs : KeyPairs P receiver.id)
    (x : p.Arrivals) (h : x.order = .noticeFirst) : ∃ rec_, x.a₅.friends.get (selfEd P receiver) = some rec_ := by
  obtain ⟨_, confirmedAt, notifiedAt, a₂, a₃, a₄, a₅, b, r₁, r₂, unexpired, before, first, meanwhile, second, _⟩ := x
  obtain rfl : _ = Order.noticeFirst := h
  have hoffer := ((offering_issued.elsewhere before).notice first).elsewhere meanwhile
  exact ⟨_, (hoffer.confirm codec mine theirs unexpired second).1⟩

/-- **A notice that comes second** drops the record of the accept if it is not too old for it. -/
theorem acceptFirst_dropped_iff (codec : Codec P) (mine : KeyPairs P giver.id) (theirs : KeyPairs P receiver.id)
    (x : p.Arrivals) (dated : Dated P p.revokedAt) (dated' : Dated P x.confirmedAt) (h : x.order = .acceptFirst) :
    x.a₅.friends.get (selfEd P receiver) = none ↔ x.confirmedAt.ms - revokeSkewMs ≤ p.revokedAt.ms := by
  obtain ⟨_, confirmedAt, notifiedAt, a₂, a₃, a₄, a₅, b, r₁, r₂, unexpired, before, first, meanwhile, second, _⟩ := x
  obtain rfl : _ = Order.acceptFirst := h
  obtain ⟨hrec, hused⟩ := (offering_issued.elsewhere before).confirm codec mine theirs unexpired first
  have hmem : toB64 P p.revokeRandom ∈ p.nonces := List.mem_cons_of_mem _ (List.mem_singleton_self _)
  have hfresh : setHas a₄.consumed (.str (toB64 P p.revokeRandom)) = false := by
    rw [meanwhile.consumed _ hmem, hused, setHas_setAdd_ne fun hsame => p.distinct (Value.str.inj hsame).symm,
      before.consumed _ hmem, p.token_minted.2]
    exact p.fresh _ hmem
  exact notice_drops_iff codec theirs dated dated' (meanwhile.friends.trans hrec) hfresh second

end Parting

open Parting in
/-- **When the friendship ends on both sides**: exactly if the accept comes first, and the notice was minted no
    earlier than the clock skew before its confirmation. -/
theorem mutual_removal_iff (codec : Codec P) (mine : KeyPairs P giver.id) (theirs : KeyPairs P receiver.id)
    (p : Parting P giver receiver) (x : p.Arrivals) (dated : Dated P p.revokedAt) (dated' : Dated P x.confirmedAt) :
    x.MutualRemoval ↔ x.order = .acceptFirst ∧ x.confirmedAt.ms - revokeSkewMs ≤ p.revokedAt.ms := by
  have hb : x.b.friends.get (selfEd P giver) = none := x.after.friends.trans p.notice_minted.2
  cases horder : x.order with
  | acceptFirst =>
      have hdrop := acceptFirst_dropped_iff codec mine theirs x dated dated' horder
      exact ⟨fun h => ⟨rfl, hdrop.mp h.1⟩, fun h => ⟨hdrop.mpr h.2, hb⟩⟩
  | noticeFirst =>
      obtain ⟨rec_, hrec⟩ := noticeFirst_listed codec mine theirs x horder
      constructor
      · intro h
        exact absurd (hrec.symm.trans h.1) nofun
      · intro h
        cases h.1

/-! ## A notice that comes first -/

namespace Symbolic

/-- Node 1 with its token on offer. -/
def offering : FriendBook :=
  { FriendBook.empty with offered := FriendBook.empty.offered.set (toHex [7]) (invite 1 [7]) }

/-- The notice with which node 2 ends its friendship with node 1. -/
def farewell : Value := ((makeRevoke platform (node 2) (toHex [1]) [8] epoch).toOption).getD .undefined

theorem farewell_minted : makeRevoke platform (node 2) (toHex [1]) [8] epoch = .ok farewell :=
  eq_ok_getD _ (makeRevoke_mints ..)

theorem befriended_listed : befriended.friends.get (toHex [1])
    = some (friendRecord platform (peerPubOf platform (node 1)) (.str (toHex [7])) epoch) := rfl

/-- Node 2 accepts node 1's token and ends the friendship, all at the epoch. -/
def parting : Parting platform (node 1) (node 2) where
  ttlSeconds := 60
  random := [7]
  revokeRandom := [8]
  ephemeral := []
  issuedAt := epoch
  receivedAt := epoch
  acceptedAt := epoch
  revokedAt := epoch
  token := invite 1 [7]
  peer := peerPubOf platform (node 1)
  blob := reply
  notice := farewell
  wg0 := .str (node 1).wg0
  a₀ := .empty
  a₁ := offering
  b₀ := .empty
  b₁ := requested
  b₂ := requested
  b₃ := befriended
  b₄ := befriended
  b₅ := { befriended with friends := befriended.friends.delete (toHex [1]) }
  issued := (Commit.issueToken (P := platform) (b := .empty) (by decide +kernel)).run
  fresh := by decide
  distinct := by decide
  received := invite_received.run
  waiting := .refl ..
  accepted := invite_accepted.run
  friends := .refl ..
  revoked := (Commit.issueRevoke (P := platform) (b := befriended) befriended_listed farewell_minted).run

/-- The two messages reach node 1 at the epoch, too. -/
def arrivals (order : Parting.Order) : parting.Arrivals where
  order := order
  confirmedAt := epoch
  notifiedAt := epoch
  a₂ := offering
  a₃ := (((parting.calls epoch epoch order).1.task platform (node 1)).run offering).2
  a₄ := (((parting.calls epoch epoch order).1.task platform (node 1)).run offering).2
  a₅ := (((parting.calls epoch epoch order).2.task platform (node 1)).run
    (((parting.calls epoch epoch order).1.task platform (node 1)).run offering).2).2
  b := parting.b₅
  r₁ := (((parting.calls epoch epoch order).1.task platform (node 1)).run offering).1
  r₂ := (((parting.calls epoch epoch order).2.task platform (node 1)).run
    (((parting.calls epoch epoch order).1.task platform (node 1)).run offering).2).1
  unexpired := (verifyToken_ok invite_verified).2.1
  before := .refl ..
  first := rfl
  meanwhile := .refl ..
  second := rfl
  after := .refl ..

/-- All of it happens at the epoch, and the notice comes first: node 1 ends with node 2 as a friend. -/
theorem notice_overtakes : ∃ (p : Parting platform (node 1) (node 2)) (x : p.Arrivals),
    (∀ d ∈ [p.issuedAt, p.receivedAt, p.acceptedAt, p.revokedAt, x.confirmedAt, x.notifiedAt], d = epoch) ∧
      ¬x.MutualRemoval := by
  refine ⟨parting, arrivals .noticeFirst, by simp [parting, arrivals], fun h => ?_⟩
  obtain ⟨rec_, hrec⟩ := Parting.noticeFirst_listed codec (keyPairs 1) (keyPairs 2) (arrivals .noticeFirst) rfl
  exact absurd (hrec.symm.trans h.1) nofun

theorem accept_first_removed : (arrivals .acceptFirst).MutualRemoval :=
  (mutual_removal_iff codec (keyPairs 1) (keyPairs 2) parting (arrivals .acceptFirst) epoch_dated epoch_dated).mpr
    ⟨rfl, show epoch.ms - revokeSkewMs ≤ epoch.ms by decide⟩

end Symbolic

end Island
end VpnPi
