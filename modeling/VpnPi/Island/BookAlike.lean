import VpnPi.Async.Related
import VpnPi.Island.BookQueries

/-!
# `Island.BookAlike` — two books that print alike

What a save loses of a stored value is what `JSON.stringify` does not print of it, and a peer can put such a thing into the
parts of a token that nobody signs. `BookPlain` says that the parts a call reads print as they are, and every commit keeps
it; so two books that print alike (`SameText`) answer every call alike (`FriendOp.alike`, and the lemmas on reading).
-/

namespace VpnPi
namespace Island

open Js Async Task

variable {P : Platform} {me : Self}

/-! ## Values that print alike -/

/-- `JSON.stringify` prints the same. -/
def Alike (v w : Value) : Prop := jsonView v = jsonView w

theorem Alike.prop_eq {v v' w w' : Value} {k : JsString} (h : Alike v v') (hw : prop v k = .ok w) (hw' : prop v' k = .ok w')
    (hplain : Plain w) (hplain' : Plain w') : w = w' := by
  have hread := prop_jsonView_plain hw hplain
  rw [h, prop_jsonView_plain hw' hplain'] at hread
  exact (Except.ok.inj hread).symm

theorem Alike.prop {v v' w w' : Value} {k : JsString} (h : Alike v v') (hw : prop v k = .ok w) (hw' : prop v' k = .ok w')
    (hne : w ≠ .undefined) (hne' : w' ≠ .undefined) : Alike w w' := by
  have hread := prop_jsonView hw hne
  rw [h, prop_jsonView hw' hne'] at hread
  exact (Except.ok.inj hread).symm

/-- Objects with the same keys and alike values are alike. -/
theorem alike_obj {es fs : List (JsString × Value)}
    (h : List.Forall₂ (fun e f => e.1 = f.1 ∧ e.2 ≠ .undefined ∧ f.2 ≠ .undefined ∧ Alike e.2 f.2) es fs) :
    Alike (.obj es) (.obj fs) := by
  have hfields : jsonViewFields es = jsonViewFields fs := by
    induction h with
    | nil => rfl
    | @cons e f es fs hef _ ih =>
        obtain ⟨k, v⟩ := e
        obtain ⟨k', v'⟩ := f
        obtain ⟨hk, hv, hv', halike⟩ := hef
        rw [jsonViewFields, jsonViewFields, if_neg hv, if_neg hv', ih, show k = k' from hk, show jsonView v = jsonView v' from halike]
  show Value.obj (jsonViewFields es) = .obj (jsonViewFields fs)
  rw [hfields]

theorem alike_arr {xs ys : List Value} (h : List.Forall₂ Alike xs ys) : Alike (.arr xs) (.arr ys) := by
  have hlist : jsonViewList xs = jsonViewList ys := by
    induction h with
    | nil => rfl
    | @cons x y xs ys hxy _ ih => rw [jsonViewList, jsonViewList, ih, show jsonView x = jsonView y from hxy]
  show Value.arr (jsonViewList xs) = .arr (jsonViewList ys)
  rw [hlist]

/-! ## What a book holds is readable -/

/-- The signed fields of a peer are there, and print as they are. -/
def PlainPeer (peer : Value) : Prop := ∃ view, peerPubJson peer = .ok view ∧ Plain view

def PlainToken (token : Value) : Prop := ∃ view, tokenSignable token = .ok view ∧ Plain view

def peerKeys : List JsString := [js "ed25519", js "x25519", js "label", js "wg0"]

theorem PlainPeer.field {peer : Value} (h : PlainPeer peer) : ∀ k ∈ peerKeys, ∃ w, prop peer k = .ok w ∧ Plain w := by
  obtain ⟨_, hview, hplain⟩ := h
  obtain ⟨ed25519, x25519, label, wg0, h1, h2, h3, h4, rfl⟩ := peerPubJson_ok hview
  obtain ⟨p1, p2, p3, p4, _⟩ := hplain
  simp only [peerKeys, List.forall_mem_cons, List.not_mem_nil, false_implies, implies_true, and_true]
  exact ⟨⟨_, h1, p1⟩, ⟨_, h2, p2⟩, ⟨_, h3, p3⟩, ⟨_, h4, p4⟩⟩

theorem PlainPeer.ne_undefined {peer : Value} (h : PlainPeer peer) : peer ≠ .undefined := by
  rintro rfl
  obtain ⟨w, hw, _⟩ := h.field (js "ed25519") (List.mem_cons_self ..)
  cases hw

/-- Alike peers have the same signed fields. -/
theorem PlainPeer.prop_eq {peer peer' : Value} (h : PlainPeer peer) (h' : PlainPeer peer') (halike : Alike peer peer')
    {k : JsString} (hk : k ∈ peerKeys) : prop peer k = prop peer' k := by
  obtain ⟨w, hw, hplain⟩ := h.field k hk
  obtain ⟨w', hw', hplain'⟩ := h'.field k hk
  rw [hw, hw', halike.prop_eq hw hw' hplain hplain']

theorem PlainPeer.view {peer : Value} (h : PlainPeer peer) : PlainPeer (jsonView peer) := by
  obtain ⟨view, hview, hplain⟩ := h
  exact ⟨view, peerPubJson_view hview hplain, hplain⟩

theorem PlainToken.peer {token : Value} (h : PlainToken token) : ∃ peer, prop token (js "from") = .ok peer ∧ PlainPeer peer := by
  obtain ⟨_, hview, hplain⟩ := h
  obtain ⟨_, peer, pub, _, _, _, _, hpeer, hpub, _, _, _, rfl⟩ := tokenSignable_ok hview
  exact ⟨peer, hpeer, pub, hpub, hplain.2.1⟩

theorem PlainToken.nonce {token : Value} (h : PlainToken token) : ∃ nonce, prop token (js "nonce") = .ok nonce ∧ Plain nonce := by
  obtain ⟨_, hview, hplain⟩ := h
  obtain ⟨_, _, _, nonce, _, _, _, _, _, hnonce, _, _, rfl⟩ := tokenSignable_ok hview
  exact ⟨nonce, hnonce, hplain.2.2.1⟩

theorem PlainToken.expires {token : Value} (h : PlainToken token) :
    ∃ expires, prop token (js "expires") = .ok expires ∧ Plain expires := by
  obtain ⟨_, hview, hplain⟩ := h
  obtain ⟨_, _, _, _, _, expires, _, _, _, _, _, hexpires, rfl⟩ := tokenSignable_ok hview
  exact ⟨expires, hexpires, hplain.2.2.2.2.1⟩

theorem PlainToken.view {token : Value} (h : PlainToken token) : PlainToken (jsonView token) := by
  obtain ⟨_, hview, hplain⟩ := h
  obtain ⟨v, peer, pub, nonce, issued, expires, h1, h2, hpub, h3, h4, h5, rfl⟩ := tokenSignable_ok hview
  obtain ⟨p1, p2, p3, p4, p5, _⟩ := id hplain
  have hpeer := prop_jsonView h2 (PlainPeer.ne_undefined ⟨pub, hpub, p2⟩)
  refine ⟨_, ?_, hplain⟩
  rw [tokenSignable, prop_jsonView_plain h1 p1, hpeer, prop_jsonView_plain h3 p3, prop_jsonView_plain h4 p4,
    prop_jsonView_plain h5 p5]
  show (peerPubJson (jsonView peer) >>= fun pub => _) = _
  rw [peerPubJson_view hpub p2]
  rfl

theorem PlainToken.ne_undefined {token : Value} (h : PlainToken token) : token ≠ .undefined := by
  rintro rfl
  obtain ⟨peer, hpeer, _⟩ := h.peer
  cases hpeer

/-! ## What a book holds -/

structure PlainEntry (p : Value) : Prop where
  token    : ∃ token, prop p (js "token") = .ok token ∧ PlainToken token
  received : ∃ received, prop p (js "received") = .ok (.str received)

structure PlainRecord (r : Value) : Prop where
  peer  : ∃ peer, prop r (js "peer") = .ok peer ∧ PlainPeer peer
  since : ∃ since, prop r (js "since") = .ok (.str since)

/-- Every part that a call reads is there, and prints as it is. -/
structure BookPlain (b : FriendBook) : Prop where
  offered : ∀ K t, b.offered.get K = some t → ∃ expires, prop t (js "expires") = .ok (.str expires)
  pending : ∀ K p, b.pending.get K = some p → PlainEntry p
  friends : ∀ K r, b.friends.get K = some r → PlainRecord r

theorem BookPlain.empty : BookPlain .empty := ⟨nofun, nofun, nofun⟩

theorem friendRecord_plain {peer nonce : Value} {since : Instant} (h : PlainPeer peer) :
    PlainRecord (friendRecord P peer nonce since) := ⟨⟨peer, rfl, h⟩, ⟨_, rfl⟩⟩

theorem plainPeer_of_openAccept {blob : JsString} {a peer : Value} (h : openAccept P me blob = .ok a)
    (hpeer : prop a (js "from") = .ok peer) : PlainPeer peer := by
  obtain ⟨_, _, _, _, _, hview, _, _, _, hverified⟩ := openAccept_ok h
  have hplain := hverified.plain
  obtain ⟨_, peer', pub, _, _, _, hpeer', hpub, _, _, rfl⟩ := acceptSignable_ok hview
  obtain rfl := Except.ok.inj (hpeer.symm.trans hpeer')
  exact ⟨pub, hpub, hplain.2.1⟩

theorem plainToken_of_verifyToken {t peer : Value} {now : Instant} (h : verifyToken P t now = .ok peer) : PlainToken t := by
  obtain ⟨_, _, view, _, _, hview, _, _, hverified⟩ := verifyToken_ok h
  exact ⟨view, hview, hverified.plain⟩

/-- **A commit keeps a book readable.** -/
theorem Commit.bookPlain {c : Call} {seen b b' : FriendBook} {r : Except Exn Value} (h : Commit P me c seen b r b')
    (hseen : BookPlain seen) (hb : BookPlain b) : BookPlain b' := by
  cases h with
  | issueToken minted =>
      refine { hb with offered := OrdMap.forall_set hb.offered ?_ }
      obtain ⟨_, _, _, _, rfl⟩ := makeToken_ok minted
      exact ⟨_, rfl⟩
  | receive verified hnonce unused hkey other =>
      refine { hb with pending := OrdMap.forall_set hb.pending ?_ }
      exact ⟨⟨_, rfl, plainToken_of_verifyToken verified⟩, ⟨_, rfl⟩⟩
  | accept hp htoken fresh sealed hnonce hpeer =>
      refine { hb with pending := OrdMap.forall_delete hb.pending, friends := OrdMap.forall_set hb.friends (friendRecord_plain ?_) }
      obtain ⟨token, htoken', hplain⟩ := (hseen.pending _ _ hp).token
      obtain rfl := Except.ok.inj (htoken.symm.trans htoken')
      obtain ⟨peer, hpeer', hsigned⟩ := hplain.peer
      obtain rfl := Except.ok.inj (hpeer.symm.trans hpeer')
      exact hsigned
  | confirm opened href hoffer unused fresh hpeer hkey =>
      exact { hb with
        offered := OrdMap.forall_delete hb.offered
        friends := OrdMap.forall_set hb.friends (friendRecord_plain (plainPeer_of_openAccept opened hpeer)) }
  | revoke peer => exact { hb with friends := OrdMap.forall_delete hb.friends }
  | issueRevokeNone hrec => exact hb
  | issueRevoke hrec signed => exact { hb with friends := OrdMap.forall_delete hb.friends }
  | receiveRevoke shape htarget hpeer hrec hnonce unused verified hat hsince current =>
      exact { hb with friends := OrdMap.forall_delete hb.friends }

theorem BookPlain.reloaded {b : FriendBook} (h : BookPlain b) : BookPlain b.reloaded := by
  refine ⟨fun K t hget => ?_, fun K p hget => ?_, fun K r hget => ?_⟩
  · obtain ⟨t₀, ht₀, rfl⟩ := OrdMap.get_mapVal_eq_some.mp hget
    obtain ⟨expires, hexpires⟩ := h.offered K t₀ ht₀
    exact ⟨expires, prop_jsonView_plain hexpires trivial⟩
  · obtain ⟨p₀, hp₀, rfl⟩ := OrdMap.get_mapVal_eq_some.mp hget
    obtain ⟨⟨token, htoken, hplain⟩, received, hreceived⟩ := h.pending K p₀ hp₀
    exact ⟨⟨_, prop_jsonView htoken hplain.ne_undefined, hplain.view⟩, received, prop_jsonView_plain hreceived trivial⟩
  · obtain ⟨r₀, hr₀, rfl⟩ := OrdMap.get_mapVal_eq_some.mp hget
    obtain ⟨⟨peer, hpeer, hplain⟩, since, hsince⟩ := h.friends K r₀ hr₀
    exact ⟨⟨_, prop_jsonView hpeer hplain.ne_undefined, hplain.view⟩, since, prop_jsonView_plain hsince trivial⟩

/-! ## Two books that print alike -/

structure SameText (b b' : FriendBook) : Prop where
  offered  : b.offered.mapVal jsonView = b'.offered.mapVal jsonView
  pending  : b.pending.mapVal jsonView = b'.pending.mapVal jsonView
  friends  : b.friends.mapVal jsonView = b'.friends.mapVal jsonView
  consumed : b.consumed = b'.consumed

theorem alike_get {m m' : OrdMap JsString Value} (h : m.mapVal jsonView = m'.mapVal jsonView) (K : JsString) :
    (m.get K).map jsonView = (m'.get K).map jsonView := by
  rw [← OrdMap.get_mapVal, ← OrdMap.get_mapVal, h]

/-- Both books have the key, with alike values, or neither has it. -/
theorem matched_get {m m' : OrdMap JsString Value} (h : m.mapVal jsonView = m'.mapVal jsonView) (K : JsString) (e : Exn) :
    Matched Alike (orThrow e (m.get K)) (orThrow e (m'.get K)) := by
  have hget := alike_get h K
  cases hm : m.get K with
  | none =>
      rw [hm] at hget
      rw [Option.map_eq_none_iff.mp hget.symm]
      exact .error e
  | some v =>
      rw [hm] at hget
      obtain ⟨v', hv', heq⟩ := Option.map_eq_some_iff.mp hget.symm
      rw [hv']
      exact .ok heq.symm

theorem same_has {m m' : OrdMap JsString Value} (h : m.mapVal jsonView = m'.mapVal jsonView) (K : JsString) :
    m.has K = m'.has K := by
  have hget := congrArg Option.isSome (alike_get h K)
  rwa [Option.isSome_map, Option.isSome_map] at hget

theorem same_set {m m' : OrdMap JsString Value} (h : m.mapVal jsonView = m'.mapVal jsonView) (K : JsString) {v v' : Value}
    (hv : Alike v v') : (m.set K v).mapVal jsonView = (m'.set K v').mapVal jsonView := by
  rw [OrdMap.mapVal_set, OrdMap.mapVal_set, h, show jsonView v = jsonView v' from hv]

theorem same_delete {m m' : OrdMap JsString Value} (h : m.mapVal jsonView = m'.mapVal jsonView) (K : JsString) :
    (m.delete K).mapVal jsonView = (m'.delete K).mapVal jsonView := by
  rw [OrdMap.mapVal_delete, OrdMap.mapVal_delete, h]

theorem friendRecord_alike {peer peer' nonce : Value} {since : Instant} (h : Alike peer peer') (hpeer : PlainPeer peer)
    (hpeer' : PlainPeer peer') (hnonce : Plain nonce) :
    Alike (friendRecord P peer nonce since) (friendRecord P peer' nonce since) :=
  alike_obj (.cons ⟨rfl, hpeer.ne_undefined, hpeer'.ne_undefined, h⟩ (.cons ⟨rfl, nofun, nofun, rfl⟩
    (.cons ⟨rfl, plain_ne_undefined hnonce, plain_ne_undefined hnonce, rfl⟩ (.cons ⟨rfl, nofun, nofun, rfl⟩ .nil))))

/-! ## Call by call -/

/-- Both are `undefined`, or `JSON.stringify` prints them the same. -/
structure SameAnswer (v w : Value) : Prop where
  alike   : Alike v w
  missing : v = .undefined ↔ w = .undefined

theorem SameAnswer.refl (v : Value) : SameAnswer v v := ⟨rfl, Iff.rfl⟩

theorem SameAnswer.arr {xs ys : List Value} (h : List.Forall₂ Alike xs ys) : SameAnswer (.arr xs) (.arr ys) := by
  refine ⟨alike_arr h, ?_, ?_⟩
  · intro hx
    cases hx
  · intro hy
    cases hy

/-- A call treats the two books alike. -/
def TreatedAlike (x : Task FriendBook Exn Value) (b b' : FriendBook) : Prop := Related SameText SameAnswer x b x b'

theorem issueToken_alike (ttlSeconds : ℚ) (random : Bytes) (now : Instant) {b b' : FriendBook} (h : SameText b b') :
    TreatedAlike (issueToken P me ttlSeconds random now) b b' := by
  refine .awaiting_eq h rfl fun token _ => .modify_bind (.pure (.refl _) ?_)
  exact { h with offered := same_set h.offered _ rfl }

theorem receive_alike (token : Value) (now : Instant) {b b' : FriendBook} (h : SameText b b') :
    TreatedAlike (receive P me token now) b b' := by
  refine .awaiting_eq h rfl fun peer _ => .get_bind (.ofExcept_eq h rfl fun nonce _ => ?_)
  refine .throwIf_bind h (by rw [h.consumed]) (.ofExcept_eq h rfl fun ed _ => .yield_bind ?_)
  refine .throwIf_bind h Iff.rfl (.ofExcept_eq h rfl fun key _ => .modify_bind (.pure (.refl _) ?_))
  exact { h with pending := same_set h.pending _ rfl }

/-- What `makeAccept` reads of a token, two alike tokens have in common. -/
theorem makeAccept_eq {token token' : Value} (ht : PlainToken token) (ht' : PlainToken token') (halike : Alike token token')
    (ephemeral : Bytes) (now : Instant) : makeAccept P me token ephemeral now = makeAccept P me token' ephemeral now := by
  obtain ⟨nonce, hnonce, hplain⟩ := ht.nonce
  obtain ⟨nonce', hnonce', hplain'⟩ := ht'.nonce
  obtain rfl := halike.prop_eq hnonce hnonce' hplain hplain'
  obtain ⟨peer, hpeer, hsigned⟩ := ht.peer
  obtain ⟨peer', hpeer', hsigned'⟩ := ht'.peer
  have hx := hsigned.prop_eq hsigned' (halike.prop hpeer hpeer' hsigned.ne_undefined hsigned'.ne_undefined)
    (show js "x25519" ∈ peerKeys by decide)
  have hkey : (prop token (js "from") >>= fun peer => prop peer (js "x25519"))
      = prop token' (js "from") >>= fun peer => prop peer (js "x25519") := by
    rw [hpeer, hpeer']
    exact hx
  simp only [makeAccept, hnonce, hnonce', hpeer, hpeer']
  show (acceptOf P me nonce now >>= fun accept => prop peer (js "x25519") >>= fromB64 P >>= _) = _
  rw [hx]
  rfl

theorem accept_alike (giver : JsString) (ephemeral : Bytes) (now : Instant) {b b' : FriendBook} (h : SameText b b')
    (hb : BookPlain b) (hb' : BookPlain b') : TreatedAlike (accept P me giver ephemeral now) b b' := by
  refine .get_bind (.ofExcept_bind h (matched_get h.pending giver _) fun p p' hp hp' hpp => ?_)
  obtain ⟨token, htoken, ht⟩ := (hb.pending _ _ (orThrow_ok.mp hp)).token
  obtain ⟨token', htoken', ht'⟩ := (hb'.pending _ _ (orThrow_ok.mp hp')).token
  have htt := hpp.prop htoken htoken' ht.ne_undefined ht'.ne_undefined
  obtain ⟨expires, hexpires, hplain⟩ := ht.expires
  obtain ⟨expires', hexpires', hplain'⟩ := ht'.expires
  obtain rfl := htt.prop_eq hexpires hexpires' hplain hplain'
  obtain ⟨nonce, hnonce, hnplain⟩ := ht.nonce
  obtain ⟨nonce', hnonce', hnplain'⟩ := ht'.nonce
  obtain rfl := htt.prop_eq hnonce hnonce' hnplain hnplain'
  obtain ⟨peer, hpeer, hsigned⟩ := ht.peer
  obtain ⟨peer', hpeer', hsigned'⟩ := ht'.peer
  have hpeers := htt.prop hpeer hpeer' hsigned.ne_undefined hsigned'.ne_undefined
  refine .ofExcept_ok htoken htoken' (.ofExcept_eq h (by rw [hexpires, hexpires']) fun d _ => ?_)
  refine .throwIf_bind h Iff.rfl (.awaiting_eq h (makeAccept_eq ht ht' htt ephemeral now) fun blob _ => ?_)
  refine .ofExcept_ok hnonce hnonce' (.ofExcept_ok hpeer hpeer' (.modify_bind (.pure (.refl _) ?_)))
  exact { h with
    pending := same_delete h.pending giver
    consumed := by rw [h.consumed]
    friends := same_set h.friends giver (friendRecord_alike hpeers hsigned hsigned' hnplain) }

theorem matched_getKey {m m' : OrdMap JsString Value} (h : m.mapVal jsonView = m'.mapVal jsonView) (K : Value) (e : Exn) :
    Matched Alike (orThrow e (getKey m K)) (orThrow e (getKey m' K)) := by
  cases K with
  | str K => exact matched_get h K e
  | _ => exact .error e

theorem getKey_some {m : OrdMap JsString Value} {K v : Value} (h : getKey m K = some v) : ∃ k, m.get k = some v := by
  cases K with
  | str k => exact ⟨k, h⟩
  | _ => cases h

theorem confirm_alike (blob : JsString) (now : Instant) {b b' : FriendBook} (h : SameText b b') (hb : BookPlain b)
    (hb' : BookPlain b') : TreatedAlike (confirm P me blob now) b b' := by
  refine .awaiting_eq h rfl fun accept _ => .get_bind (.ofExcept_eq h rfl fun ref _ => ?_)
  refine .ofExcept_bind h (matched_getKey h.offered ref _) fun offer offer' ho ho' hoo => ?_
  obtain ⟨k, hk⟩ := getKey_some (orThrow_ok.mp ho)
  obtain ⟨k', hk'⟩ := getKey_some (orThrow_ok.mp ho')
  obtain ⟨expires, hexpires⟩ := hb.offered k offer hk
  obtain ⟨expires', hexpires'⟩ := hb'.offered k' offer' hk'
  have hee := hoo.prop_eq hexpires hexpires' trivial trivial
  refine .throwIf_bind h (by rw [h.consumed]) (.ofExcept_eq h (by rw [hexpires, hexpires', hee]) fun d _ => ?_)
  refine .throwIf_bind h Iff.rfl (.ofExcept_eq h rfl fun peer _ => .ofExcept_eq h rfl fun ed _ => ?_)
  refine .ofExcept_eq h rfl fun nonce _ => .ofExcept_eq h rfl fun key _ => .modify_bind (.pure (.refl _) ?_)
  exact ⟨same_delete h.offered nonce, h.pending, same_set h.friends key rfl, by rw [h.consumed]⟩

theorem revoke_alike (peer : JsString) {b b' : FriendBook} (h : SameText b b') : TreatedAlike (revoke peer) b b' := by
  refine .get_bind (.modify_bind (.pure ?_ ?_))
  · rw [same_has h.friends]
    exact .refl _
  · exact { h with friends := same_delete h.friends peer }

/-- A stored peer. -/
theorem PlainRecord.peers {r r' : Value} (hr : PlainRecord r) (hr' : PlainRecord r') (halike : Alike r r') :
    ∃ peer peer', prop r (js "peer") = .ok peer ∧ prop r' (js "peer") = .ok peer' ∧ Alike peer peer' ∧
      ∀ k ∈ peerKeys, prop peer k = prop peer' k := by
  obtain ⟨peer, hpeer, hplain⟩ := hr.peer
  obtain ⟨peer', hpeer', hplain'⟩ := hr'.peer
  have hpp := halike.prop hpeer hpeer' hplain.ne_undefined hplain'.ne_undefined
  exact ⟨peer, peer', hpeer, hpeer', hpp, fun k hk => hplain.prop_eq hplain' hpp hk⟩

theorem PlainRecord.ne_undefined {r : Value} (h : PlainRecord r) : r ≠ .undefined := by
  rintro rfl
  obtain ⟨peer, hpeer, _⟩ := h.peer
  cases hpeer

theorem issueRevoke_alike (peer : JsString) (random : Bytes) (now : Instant) {b b' : FriendBook} (h : SameText b b')
    (hb : BookPlain b) (hb' : BookPlain b') : TreatedAlike (issueRevoke P me peer random now) b b' := by
  refine .get_bind ?_
  have hget := matched_get h.friends peer .typeError
  cases hr : b.friends.get peer with
  | none =>
      cases hr' : b'.friends.get peer with
      | none => exact .pure (.refl _) h
      | some r' =>
          rw [hr, hr'] at hget
          cases hget
  | some r =>
      cases hr' : b'.friends.get peer with
      | none =>
          rw [hr, hr'] at hget
          cases hget
      | some r' =>
          rw [hr, hr'] at hget
          obtain ⟨halike⟩ := hget
          obtain ⟨p, p', hp, hp', -, hfields⟩ := (hb.friends peer r hr).peers (hb'.friends peer r' hr') halike
          have hwg0 := hfields (js "wg0") (by decide)
          refine .awaiting_eq h rfl fun notice _ => .modify_bind ?_
          refine .ofExcept_eq { h with friends := same_delete h.friends peer } ?_ fun wg0 _ => .pure (.refl _) ?_
          · rw [hp, hp']
            exact hwg0
          · exact { h with friends := same_delete h.friends peer }

theorem verifyRevoke_eq {n r r' : Value} (hr : PlainRecord r) (hr' : PlainRecord r') (halike : Alike r r') :
    verifyRevoke P n r = verifyRevoke P n r' := by
  obtain ⟨p, p', hp, hp', -, hfields⟩ := hr.peers hr' halike
  simp only [verifyRevoke, hp, hp']
  show (revokeSignable n >>= fun signable => prop n (js "sig") >>= fun sig => prop p (js "ed25519") >>= _) = _
  rw [hfields (js "ed25519") (by decide)]
  rfl

theorem receiveRevoke_alike (n : Value) (now : Instant) {b b' : FriendBook} (h : SameText b b') (hb : BookPlain b)
    (hb' : BookPlain b') : TreatedAlike (receiveRevoke P me n now) b b' := by
  refine .throwIf_bind h Iff.rfl (.ofExcept_eq h rfl fun target _ => .yield_bind (.throwIf_bind h Iff.rfl ?_))
  refine .get_bind (.ofExcept_eq h rfl fun peer _ => ?_)
  refine .ofExcept_bind h (matched_get h.friends peer _) fun r r' hget hget' hrr => ?_
  have hr := hb.friends _ _ (orThrow_ok.mp hget)
  have hr' := hb'.friends _ _ (orThrow_ok.mp hget')
  obtain ⟨since, hsince⟩ := hr.since
  obtain ⟨since', hsince'⟩ := hr'.since
  have hss := hrr.prop_eq hsince hsince' trivial trivial
  refine .ofExcept_eq h rfl fun nonce _ => .throwIf_bind h (by rw [h.consumed]) ?_
  refine .awaiting_eq h (verifyRevoke_eq hr hr' hrr) fun good _ => .throwIf_bind h Iff.rfl ?_
  refine .ofExcept_eq h rfl fun sent _ => .ofExcept_eq h rfl fun at_ _ => ?_
  refine .ofExcept_eq h (by rw [hsince, hsince', hss]) fun d _ => .throwIf_bind h Iff.rfl (.modify_bind (.pure ?_ ?_))
  · exact ⟨hrr, iff_of_false hr.ne_undefined hr'.ne_undefined⟩
  · exact { h with friends := same_delete h.friends peer, consumed := by rw [h.consumed] }

/-- **Every call** treats alike two books that print alike. -/
theorem FriendOp.alike (op : FriendOp) {b b' : FriendBook} (h : SameText b b') (hb : BookPlain b) (hb' : BookPlain b') :
    TreatedAlike (op.task P me) b b' := by
  cases op with
  | issueToken ttlSeconds random now =>
      cases ttlSeconds with
      | none => exact ⟨.error _, h⟩
      | some ttlSeconds => exact issueToken_alike ttlSeconds random now h
  | receive token now => exact receive_alike token now h
  | accept giver ephemeral now =>
      exact .of_run (acceptWrites_run ..) (acceptWrites_run ..) (accept_alike giver ephemeral now h hb hb')
  | confirm blob now => exact .of_run (confirmWrites_run ..) (confirmWrites_run ..) (confirm_alike blob now h hb hb')
  | issueRevoke peer random now => exact issueRevoke_alike peer random now h hb hb'
  | receiveRevoke notice now => exact receiveRevoke_alike notice now h hb hb'

/-! ## Reading -/

theorem forall₂_of_map_eq {α β : Type} {f : α → β} {I : α → Prop} {xs ys : List α} (h : xs.map f = ys.map f)
    (hx : ∀ x ∈ xs, I x) (hy : ∀ y ∈ ys, I y) : List.Forall₂ (fun x y => I x ∧ I y ∧ f x = f y) xs ys := by
  induction xs generalizing ys with
  | nil =>
      obtain rfl := List.map_eq_nil_iff.mp h.symm
      exact .nil
  | cons x xs ih =>
      cases ys with
      | nil => cases h
      | cons y ys =>
          obtain ⟨hxy, htail⟩ := List.cons.inj h
          obtain ⟨hix, hixs⟩ := List.forall_mem_cons.mp hx
          obtain ⟨hiy, hiys⟩ := List.forall_mem_cons.mp hy
          exact .cons ⟨hix, hiy, hxy⟩ (ih htail hixs hiys)

theorem forall_values {m : OrdMap JsString Value} {I : Value → Prop} (h : ∀ K v, m.get K = some v → I v) :
    ∀ v ∈ m.values, I v := by
  intro v hv
  obtain ⟨e, he, rfl⟩ := List.mem_map.mp hv
  exact h e.1 e.2 (OrdMap.mem_entries_iff.mp he)

/-- The values of alike maps, in order, with what holds of all of them. -/
theorem values_alike {m m' : OrdMap JsString Value} {I : Value → Prop} (h : m.mapVal jsonView = m'.mapVal jsonView)
    (hm : ∀ K v, m.get K = some v → I v) (hm' : ∀ K v, m'.get K = some v → I v) :
    List.Forall₂ (fun v w => I v ∧ I w ∧ Alike v w) m.values m'.values := by
  have hsnd := congrArg (List.map Prod.snd) (congrArg OrdMap.entries h)
  refine forall₂_of_map_eq ?_ (forall_values hm) (forall_values hm')
  simpa only [OrdMap.mapVal, OrdMap.values, List.map_map, Function.comp_def] using hsnd

theorem SameAnswer.listed {m m' : OrdMap JsString Value} (h : m.mapVal jsonView = m'.mapVal jsonView) :
    SameAnswer (.arr m.values) (.arr m'.values) := by
  refine .arr ?_
  exact (values_alike (I := fun _ => True) h (fun _ _ _ => trivial) fun _ _ _ => trivial).imp fun _ _ hvw => hvw.2.2

theorem obj_of_prop {v w : Value} {k : JsString} (h : prop v k = .ok w) (hw : w ≠ .undefined) : ∃ es, v = .obj es := by
  cases v with
  | obj es => exact ⟨es, rfl⟩
  | undefined => cases h
  | null => cases h
  | bool b => cases h; exact absurd rfl hw
  | num x => cases h; exact absurd rfl hw
  | str s => cases h; exact absurd rfl hw
  | arr xs => cases h; exact absurd rfl hw

theorem PlainRecord.truthy {r : Value} (h : PlainRecord r) : r.truthy = true := by
  obtain ⟨since, hsince⟩ := h.since
  obtain ⟨es, rfl⟩ := obj_of_prop hsince (plain_ne_undefined trivial)
  rfl

/-- What the loop of `friendByWg0` has found in each of the two books. -/
inductive Found : Value → Value → Prop
  | none : Found .undefined .undefined
  | record {r r' : Value} (hr : PlainRecord r) (hr' : PlainRecord r') (halike : Alike r r') : Found r r'

theorem Found.same {v w : Value} (h : Found v w) : SameAnswer v w ∧ v.truthy = w.truthy := by
  cases h with
  | none => exact ⟨.refl _, rfl⟩
  | record hr hr' halike =>
      exact ⟨⟨halike, iff_of_false hr.ne_undefined hr'.ne_undefined⟩, hr.truthy.trans hr'.truthy.symm⟩

theorem findWg0_alike (ip : JsString) {rs rs' : List Value}
    (h : List.Forall₂ (fun r r' => PlainRecord r ∧ PlainRecord r' ∧ Alike r r') rs rs') {found found' : Value}
    (hf : Found found found') :
    Matched SameAnswer (findWg0 ip rs found) (findWg0 ip rs' found') := by
  induction h generalizing found found' with
  | nil => exact .ok hf.same.1
  | @cons r r' rs rs' hrr hrs ih =>
      obtain ⟨hr, hr', halike⟩ := hrr
      obtain ⟨p, p', hp, hp', -, hfields⟩ := hr.peers hr' halike
      have hwg0 : (prop r (js "peer") >>= fun peer => prop peer (js "wg0"))
          = prop r' (js "peer") >>= fun peer => prop peer (js "wg0") := by
        rw [hp, hp']
        exact hfields (js "wg0") (by decide)
      rw [findWg0, findWg0, hwg0]
      refine (Matched.refl (R := Eq) (fun _ => rfl) _).bind fun wg0 wg0' hsame => ?_
      subst hsame
      by_cases hip : wg0 ≠ .str ip
      · rw [if_pos hip, if_pos hip]
        exact ih hf
      · rw [if_neg hip, if_neg hip, hf.same.2]
        cases found'.truthy with
        | true => exact .ok (.refl _)
        | false => exact ih (.record hr hr' halike)

theorem friendByWg0_alike (addr : JsString) {b b' : FriendBook} (h : SameText b b') (hb : BookPlain b) (hb' : BookPlain b') :
    Matched SameAnswer (friendByWg0 me addr b) (friendByWg0 me addr b') := by
  unfold friendByWg0
  split
  · exact .ok (.refl _)
  · split
    · exact .ok (.refl _)
    · exact findWg0_alike _ (values_alike h.friends hb.friends hb'.friends) .none

theorem foldlM_congr {α β ε : Type} {f : β → α → Except ε β} {R : α → α → Prop} (hf : ∀ acc x y, R x y → f acc x = f acc y)
    {xs ys : List α} (h : List.Forall₂ R xs ys) (acc : β) : xs.foldlM f acc = ys.foldlM f acc := by
  induction h generalizing acc with
  | nil => rfl
  | cons hxy _ ih =>
      rw [List.foldlM_cons, List.foldlM_cons, hf acc _ _ hxy]
      exact bind_congr fun acc' => ih acc'

theorem verifyKeyResolver_eq {b b' : FriendBook} (h : SameText b b') (hb : BookPlain b) (hb' : BookPlain b') :
    verifyKeyResolver P b = verifyKeyResolver P b' := by
  unfold verifyKeyResolver
  rw [foldlM_congr (fun acc r r' hrr => ?_) (values_alike h.friends hb.friends hb'.friends) _]
  obtain ⟨hr, hr', halike⟩ := hrr
  obtain ⟨p, p', hp, hp', -, hfields⟩ := hr.peers hr' halike
  have hed : (prop r (js "peer") >>= fun peer => prop peer (js "ed25519"))
      = prop r' (js "peer") >>= fun peer => prop peer (js "ed25519") := by
    rw [hp, hp']
    exact hfields (js "ed25519") (by decide)
  rw [hed]

theorem pendingRow_alike {p p' : Value} (hp : PlainEntry p) (hp' : PlainEntry p') (halike : Alike p p') :
    Matched Alike (pendingRow p) (pendingRow p') := by
  obtain ⟨token, htoken, ht⟩ := hp.token
  obtain ⟨token', htoken', ht'⟩ := hp'.token
  have htt := halike.prop htoken htoken' ht.ne_undefined ht'.ne_undefined
  obtain ⟨peer, hpeer, hsigned⟩ := ht.peer
  obtain ⟨peer', hpeer', hsigned'⟩ := ht'.peer
  have hpp := htt.prop hpeer hpeer' hsigned.ne_undefined hsigned'.ne_undefined
  obtain ⟨received, hreceived⟩ := hp.received
  obtain ⟨received', hreceived'⟩ := hp'.received
  have hrr := halike.prop_eq hreceived hreceived' trivial trivial
  rw [pendingRow, pendingRow, htoken, htoken', hreceived, hreceived', hrr]
  show Matched Alike (prop token (js "from") >>= _) (prop token' (js "from") >>= _)
  rw [hpeer, hpeer']
  refine .ok (alike_obj (.cons ⟨rfl, hsigned.ne_undefined, hsigned'.ne_undefined, hpp⟩ (.cons ⟨rfl, nofun, nofun, rfl⟩ .nil)))

theorem pendingRows_alike {ps ps' : List Value}
    (h : List.Forall₂ (fun p p' => PlainEntry p ∧ PlainEntry p' ∧ Alike p p') ps ps') :
    Matched (List.Forall₂ Alike) (pendingRows ps) (pendingRows ps') := by
  induction h with
  | nil => exact .ok .nil
  | cons hpp _ ih =>
      obtain ⟨hp, hp', halike⟩ := hpp
      refine (pendingRow_alike hp hp' halike).bind fun row row' hrow => ih.bind fun rows rows' hrows => ?_
      exact .ok (.cons hrow hrows)

theorem listPending_alike {b b' : FriendBook} (h : SameText b b') (hb : BookPlain b) (hb' : BookPlain b') :
    Matched SameAnswer (listPending b) (listPending b') :=
  (pendingRows_alike (values_alike h.pending hb.pending hb'.pending)).map fun _ _ => .arr

end Island
end VpnPi
