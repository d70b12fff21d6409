import VpnPi.Async.Service
import VpnPi.Island.BookAlike
import VpnPi.Island.Persist
import VpnPi.Js.Trim

/-!
# `Island.BookRestart` — what a restart changes for the calls after it

The maps of a book are saved as objects, whose properties come in an order of their own: texts of array indices first. No
key of a reachable book is one (`LongKeys`), so a restart keeps the order of every map and gives the book `reloaded`. Of the
values it keeps what `JSON.stringify` prints, and no call can tell (`restart_alike`).
-/

namespace VpnPi
namespace Island

open Js Async Task Pool

variable {P : Platform} {me : Self}

/-! ## Saving and loading, with the order of properties -/

/-- The maps as `Object.fromEntries` orders them. -/
def FriendBook.ordered (b : FriendBook) : FriendBook := ⟨ownOrder b.offered, ownOrder b.pending, ownOrder b.friends, b.consumed⟩

/-- `fromJSON(JSON.parse(JSON.stringify(book)))`. -/
def FriendBook.restart (P : Platform) (b : FriendBook) : Except Exn FriendBook :=
  (b.ordered.reload P).map FriendBook.ordered

/-- Documented of libsodium: public keys have 32 bytes, and base64 has no fewer characters than bytes. -/
structure KeyLengths (P : Platform) : Prop where
  verify : ∀ sig msg pub good, P.verifyDetached sig msg pub = some good → pub.length = 32
  decode : ∀ text raw, P.fromBase64 text = some raw → raw.length ≤ text.length
  encode : ∀ raw, raw.length ≤ (P.toBase64 raw).length

theorem length_of_arrayIndex {k : JsString} {n : Nat} (h : arrayIndex k = some n) : k.length ≤ 10 := by
  unfold arrayIndex at h
  split at h
  · next hk =>
      have hle := length_natText_le (show digitsValue k < 10000000000 by omega)
      rwa [hk.1] at hle
  · cases h

theorem ownOrder_eq {α : Type} {m : OrdMap JsString α} (h : ∀ K v, m.get K = some v → 10 < K.length) : ownOrder m = m := by
  refine OrdMap.ext (propertyOrder_of_ordered (List.forall_mem_nil _) (fun e he => ?_) .nil)
  have hlong := h e.1 e.2 (OrdMap.mem_entries_iff.mp he)
  cases hindex : arrayIndex e.1 with
  | none => rfl
  | some n => exact absurd (length_of_arrayIndex hindex) (by omega)

/-- Every key is too long for an array index. -/
structure LongKeys (b : FriendBook) : Prop where
  offered : ∀ K v, b.offered.get K = some v → 10 < K.length
  pending : ∀ K v, b.pending.get K = some v → 10 < K.length
  friends : ∀ K v, b.friends.get K = some v → 10 < K.length

theorem LongKeys.ordered {b : FriendBook} (h : LongKeys b) : b.ordered = b := by
  rw [FriendBook.ordered, ownOrder_eq h.offered, ownOrder_eq h.pending, ownOrder_eq h.friends]

theorem long_mapVal {m : OrdMap JsString Value} {f : Value → Value} (h : ∀ K v, m.get K = some v → 10 < K.length) :
    ∀ K v, (m.mapVal f).get K = some v → 10 < K.length := by
  intro K v hget
  obtain ⟨u, hu, _⟩ := OrdMap.get_mapVal_eq_some.mp hget
  exact h K u hu

theorem LongKeys.reloaded {b : FriendBook} (h : LongKeys b) : LongKeys b.reloaded :=
  ⟨long_mapVal h.offered, long_mapVal h.pending, long_mapVal h.friends⟩

/-- The text of a key that has verified something. -/
theorem Verified.long (lengths : KeyLengths P) {view sig : Value} {K : JsString} (h : Verified P view sig (.str K)) :
    10 < K.length := by
  obtain ⟨_, _, pk, _, _, hpk, hverify⟩ := h.ok
  obtain ⟨_, hK, hdecode⟩ := fromB64_ok.mp hpk
  obtain rfl := Value.str.inj hK
  have h32 := lengths.verify _ _ _ _ hverify
  have htext := lengths.decode _ _ hdecode
  have htrim : (trim K).length ≤ K.length := (trim_sublist K).length_le
  omega

/-- The nonce that a call draws has the 16 bytes of `randombytes_buf(16)`. -/
def Call.Drawn : Call → Prop
  | .issueToken _ random _ => random.length = 16
  | .issueRevoke _ random _ => random.length = 16
  | _ => True

theorem Commit.longKeys (lengths : KeyLengths P) {c : Call} {seen b b' : FriendBook} {r : Except Exn Value}
    (h : Commit P me c seen b r b') (drawn : c.Drawn) (hseen : LongKeys seen) (hb : LongKeys b) : LongKeys b' := by
  cases h with
  | @issueToken _ random =>
      refine { hb with offered := OrdMap.forall_set hb.offered ?_ }
      have h16 : random.length = 16 := drawn
      have htext := lengths.encode random
      show 10 < (P.toBase64 random).length
      omega
  | receive verified hnonce unused hkey other =>
      refine { hb with pending := OrdMap.forall_set hb.pending ?_ }
      obtain ⟨_, _, _, _, _, _, _, hpub, hverified⟩ := verifyToken_ok verified
      obtain rfl := Except.ok.inj (hkey.symm.trans hpub)
      exact hverified.long lengths
  | accept hp htoken fresh sealed hnonce hpeer =>
      have hlong := hseen.pending _ _ hp
      exact { hb with
        pending := OrdMap.forall_delete hb.pending
        friends := OrdMap.forall_set hb.friends hlong }
  | confirm opened href hoffer unused fresh hpeer hkey =>
      obtain ⟨_, _, _, _, _, _, _, hpeer', hpub, hverified⟩ := openAccept_ok opened
      obtain rfl := Except.ok.inj (hpeer.symm.trans hpeer')
      obtain rfl := Except.ok.inj (hkey.symm.trans hpub)
      exact { hb with
        offered := OrdMap.forall_delete hb.offered
        friends := OrdMap.forall_set hb.friends (hverified.long lengths) }
  | revoke peer => exact { hb with friends := OrdMap.forall_delete hb.friends }
  | issueRevokeNone hrec => exact hb
  | issueRevoke hrec signed => exact { hb with friends := OrdMap.forall_delete hb.friends }
  | receiveRevoke shape htarget hpeer hrec hnonce unused verified hat hsince current =>
      exact { hb with friends := OrdMap.forall_delete hb.friends }

/-! ## Every book of a run -/

/-- What a book has to be for a restart to give it back as far as it prints. -/
structure Restorable (P : Platform) (b : FriendBook) : Prop where
  wf       : BookWF P.toEngine b
  plain    : BookPlain b
  keys     : LongKeys b
  consumed : SetLike b.consumed

theorem Restorable.empty : Restorable P .empty := ⟨.empty, .empty, ⟨nofun, nofun, nofun⟩, rfl⟩

theorem Commit.setLike {c : Call} {seen b b' : FriendBook} {r : Except Exn Value} (h : Commit P me c seen b r b')
    (hb : SetLike b.consumed) : SetLike b'.consumed := by
  cases h with
  | issueToken minted => exact hb
  | receive verified hnonce unused hkey other => exact hb
  | accept hp htoken fresh sealed hnonce hpeer => exact hb.setAdd _
  | confirm opened href hoffer unused fresh hpeer hkey => exact hb.setAdd _
  | revoke peer => exact hb
  | issueRevokeNone hrec => exact hb
  | issueRevoke hrec signed => exact hb
  | receiveRevoke shape htarget hpeer hrec hnonce unused verified hat hsince current => exact hb.setAdd _

theorem Restorable.commit (lengths : KeyLengths P) {c : BookCall P} {seen b b' : FriendBook} {r : Except Exn Value}
    (h : Commit P me c.1 seen b r b') (drawn : c.1.Drawn) (hseen : Restorable P seen) (hb : Restorable P b) :
    Restorable P b' where
  wf := h.wf c.2 hseen.wf hb.wf
  plain := h.bookPlain hseen.plain hb.plain
  keys := h.longKeys lengths drawn hseen.keys hb.keys
  consumed := h.setLike hb.consumed

theorem Restorable.reloaded {b : FriendBook} (h : Restorable P b) : Restorable P b.reloaded := by
  refine ⟨reloaded_wf h.wf, h.plain.reloaded, h.keys.reloaded, ?_⟩
  show SetLike (b.consumed.foldl setAdd [])
  rw [h.consumed]
  exact h.consumed

/-- Every call that a run starts draws its nonce with the length it has in the source. -/
def LifeEvent.Drawn (e : LifeEvent P) : Prop := e.Starts fun c => c.1.Drawn

theorem restorable_of_run (lengths : KeyLengths P) {tr : List (LifeEvent P)} {p : BookPool P}
    (run : Run (LifeStep P me) ⟨.empty, []⟩ tr p) (drawn : ∀ e ∈ tr, e.Drawn) : Restorable P p.state := by
  refine (life_holds .empty (fun c seen b r b' hc hdrawn hseen hb => .commit lengths hc hdrawn hseen hb) ?_ run drawn).state
  intro b b' hload hb
  rw [reload_eq hb.wf] at hload
  exact Except.ok.inj hload ▸ hb.reloaded

/-- **A restart** gives the book as it was printed, every map in its order. -/
theorem Restorable.restart {b : FriendBook} (h : Restorable P b) : b.restart P = .ok b.reloaded := by
  rw [FriendBook.restart, h.keys.ordered, reload_eq h.wf]
  show Except.ok b.reloaded.ordered = _
  rw [h.keys.reloaded.ordered]

theorem mapVal_jsonView_idem (m : OrdMap JsString Value) : (m.mapVal jsonView).mapVal jsonView = m.mapVal jsonView := by
  refine OrdMap.ext ?_
  show (m.entries.map _).map _ = m.entries.map _
  rw [List.map_map]
  refine List.map_congr_left fun e _ => ?_
  show (e.1, jsonView (jsonView e.2)) = (e.1, jsonView e.2)
  rw [jsonView_of_plain _ (jsonView_plain e.2)]

theorem Restorable.sameText {b : FriendBook} (h : Restorable P b) : SameText b b.reloaded where
  offered := (mapVal_jsonView_idem _).symm
  pending := (mapVal_jsonView_idem _).symm
  friends := (mapVal_jsonView_idem _).symm
  consumed := h.consumed.symm

/-! ## When the book comes back as it was -/

/-- Every stored value prints as it is. -/
structure Printable (b : FriendBook) : Prop where
  offered : ∀ K v, b.offered.get K = some v → Plain v
  pending : ∀ K v, b.pending.get K = some v → Plain v
  friends : ∀ K v, b.friends.get K = some v → Plain v

theorem mapVal_jsonView_eq_iff {m : OrdMap JsString Value} :
    m.mapVal jsonView = m ↔ ∀ K v, m.get K = some v → Plain v := by
  constructor
  · intro heq K v hget
    rw [← heq] at hget
    obtain ⟨u, _, rfl⟩ := OrdMap.get_mapVal_eq_some.mp hget
    exact jsonView_plain u
  · intro h
    refine OrdMap.ext ?_
    have hsame : m.entries.map (fun e => (e.1, jsonView e.2)) = m.entries.map id := by
      refine List.map_congr_left fun e he => ?_
      show (e.1, jsonView e.2) = e
      rw [jsonView_of_plain _ (h e.1 e.2 (OrdMap.mem_entries_iff.mp he))]
    exact hsame.trans (List.map_id _)

theorem Restorable.reloaded_eq_iff {b : FriendBook} (h : Restorable P b) : b.reloaded = b ↔ Printable b := by
  constructor
  · intro heq
    have hoffered := congrArg FriendBook.offered heq
    have hpending := congrArg FriendBook.pending heq
    have hfriends := congrArg FriendBook.friends heq
    exact ⟨mapVal_jsonView_eq_iff.mp hoffered, mapVal_jsonView_eq_iff.mp hpending, mapVal_jsonView_eq_iff.mp hfriends⟩
  · intro hp
    rw [FriendBook.reloaded, mapVal_jsonView_eq_iff.mpr hp.offered, mapVal_jsonView_eq_iff.mpr hp.pending,
      mapVal_jsonView_eq_iff.mpr hp.friends, show b.consumed.foldl setAdd [] = b.consumed from h.consumed]

/-! ## Call after call -/

/-- The book and the later calls on it, each running alone. -/
def bookService (P : Platform) (me : Self) : Service FriendBook BookOp (Except Exn Answer) := fun b op => op.answer P me b

/-- The same key resolver, or values that print the same. -/
inductive Answer.Same : Answer → Answer → Prop
  | value {v w : Value} (h : SameAnswer v w) : Same (.value v) (.value w)
  | keys (keyFor : VerifyKeyFor) : Same (.keys keyFor) (.keys keyFor)

/-- What two books can be told apart by is what `JSON.stringify` does not print. -/
structure Twins (b b' : FriendBook) : Prop where
  same  : SameText b b'
  left  : BookPlain b
  right : BookPlain b'

theorem friend_alike (peer : JsString) {b b' : FriendBook} (h : Twins b b') :
    SameAnswer ((b.friends.get peer).getD .undefined) ((b'.friends.get peer).getD .undefined) := by
  have hget := matched_get h.same.friends peer .typeError
  cases hr : b.friends.get peer <;> cases hr' : b'.friends.get peer <;> rw [hr, hr'] at hget
  · exact .refl _
  · cases hget
  · cases hget
  · obtain ⟨halike⟩ := hget
    exact ⟨halike, iff_of_false (h.left.friends peer _ hr).ne_undefined (h.right.friends peer _ hr').ne_undefined⟩

/-- A call that runs alone keeps what `BookPlain` says. -/
theorem BookPlain.call {c : Call} {b : FriendBook} (h : BookPlain b) : BookPlain ((c.task P me).run b).2 := by
  rcases run_cases (Prod.eta ((c.task P me).run b)).symm with ⟨_, _, hsame⟩ | hc
  · rw [hsame]
    exact h
  · exact hc.bookPlain h h

variable (P me) in
/-- Every call runs as one of `Call` or throws at once. -/
theorem FriendOp.run_eq (op : FriendOp) (b : FriendBook) :
    ((op.task P me).run b).2 = b ∨ ∃ c : Call, ((op.task P me).run b).2 = ((c.task P me).run b).2 := by
  cases op with
  | issueToken ttlSeconds random now =>
      cases ttlSeconds with
      | none => exact .inl rfl
      | some ttlSeconds => exact .inr ⟨.issueToken ttlSeconds random now, rfl⟩
  | receive token now => exact .inr ⟨.receive token now, rfl⟩
  | accept giver ephemeral now => exact .inr ⟨.accept giver ephemeral now, congrArg Prod.snd (acceptWrites_run ..)⟩
  | confirm blob now => exact .inr ⟨.confirm blob now, congrArg Prod.snd (confirmWrites_run ..)⟩
  | issueRevoke peer random now => exact .inr ⟨.issueRevoke peer random now, rfl⟩
  | receiveRevoke notice now => exact .inr ⟨.receiveRevoke notice now, rfl⟩

theorem BookPlain.answer {b : FriendBook} (h : BookPlain b) (op : BookOp) : BookPlain (op.answer P me b).2 := by
  cases op with
  | call op =>
      rcases op.run_eq P me b with hsame | ⟨c, hc⟩
      · exact hsame.symm ▸ h
      · exact hc.symm ▸ h.call
  | revoke peer => exact @BookPlain.call P me (.revoke peer) b h
  | _ => exact h

/-- **One call** on each of two such books. -/
theorem Twins.answer {b b' : FriendBook} (h : Twins b b') (op : BookOp) :
    Matched Answer.Same (op.answer P me b).1 (op.answer P me b').1 ∧ Twins (op.answer P me b).2 (op.answer P me b').2 := by
  have kept : SameText (op.answer P me b).2 (op.answer P me b').2 →
      Twins (op.answer P me b).2 (op.answer P me b').2 := fun hsame => ⟨hsame, h.left.answer op, h.right.answer op⟩
  cases op with
  | call op =>
      have htreated : TreatedAlike (op.task P me) b b' := op.alike h.same h.left h.right
      exact ⟨htreated.result.map fun _ _ => .value, kept htreated.state⟩
  | revoke peer =>
      have htreated := revoke_alike peer h.same
      exact ⟨htreated.result.map fun _ _ => .value, kept htreated.state⟩
  | friend peer => exact ⟨.ok (.value (friend_alike peer h)), h⟩
  | isFriend peer =>
      refine ⟨?_, h⟩
      show Matched _ (.ok (Answer.value (.bool (b.friends.has peer)))) (.ok (Answer.value (.bool (b'.friends.has peer))))
      rw [same_has h.same.friends]
      exact .ok (.value (.refl _))
  | friendByWg0 addr => exact ⟨(friendByWg0_alike addr h.same h.left h.right).map fun _ _ => .value, h⟩
  | verifyKeyResolver =>
      refine ⟨?_, h⟩
      show Matched _ ((verifyKeyResolver P b).map Answer.keys) ((verifyKeyResolver P b').map Answer.keys)
      rw [verifyKeyResolver_eq h.same h.left h.right]
      refine (Matched.refl (R := Eq) (fun _ => rfl) _).map fun keyFor keyFor' hsame => ?_
      subst hsame
      exact .keys keyFor
  | listFriends => exact ⟨.ok (.value (.listed h.same.friends)), h⟩
  | listPending => exact ⟨(listPending_alike h.same h.left h.right).map fun _ _ => .value, h⟩
  | listOffered => exact ⟨.ok (.value (.listed h.same.offered)), h⟩

/-- **A restart is invisible as far as answers print**: the book that any calls and restarts have led to and the one that is
    loaded of it answer all later calls with the same errors, and with values that print the same. They are one book exactly
    if every stored value prints as it is. -/
theorem restart_alike (P : Platform) (me : Self) (lengths : KeyLengths P) {tr : List (LifeEvent P)} {p : BookPool P}
    (run : Run (LifeStep P me) ⟨.empty, []⟩ tr p) (drawn : ∀ e ∈ tr, e.Drawn) :
    ∃ b, p.state.restart P = .ok b ∧
      (∀ ops, List.Forall₂ (Matched Answer.Same) (replies (bookService P me) p.state ops) (replies (bookService P me) b ops)) ∧
      (b = p.state ↔ Printable p.state) := by
  have hbook := restorable_of_run lengths run drawn
  have twins : Twins p.state p.state.reloaded := ⟨hbook.sameText, hbook.plain, hbook.plain.reloaded⟩
  exact ⟨_, hbook.restart, replies_related (fun _ _ op h => h.answer op) twins, hbook.reloaded_eq_iff⟩

/-! ## What a restart does change -/

namespace Symbolic

/-- `JSON.parse("1e999")` is `Infinity`. -/
def overflow (lit : JsString) : Number := if lit = js "1e999" then .infinite false else toNumber lit

/-- The platform with public keys of 32 bytes. -/
def large : Platform :=
  { platform with
    toNumber := overflow
    toNumber_text := by
      intro lit t i h
      unfold overflow at h
      split at h
      · cases h
      · next hne =>
          unfold toNumber at h
          split at h
          · next hlit =>
              cases h
              refine ⟨hlit, ?_⟩
              rw [overflow, if_neg hne, toNumber, if_pos hlit]
          · cases h
    toNumber_int := by
      intro n hlo hhi
      have hne : intText n ≠ js "1e999" := by
        intro heq
        have hdigits := intText_integral n
        rw [heq] at hdigits
        exact absurd hdigits (by decide)
      rw [overflow, if_neg hne]
      exact platform.toNumber_int hlo hhi
    verifyDetached := fun sig msg pk => if pk.length = 32 then some (sig = pk ++ msg) else none }

theorem length_toHex (bs : Bytes) : (toHex bs).length = 2 * bs.length := by
  induction bs with
  | nil => rfl
  | cons b bs ih =>
      rw [toHex, List.length_cons, List.length_cons, ih, List.length_cons]
      omega

theorem length_of_fromHex (s : JsString) : ∀ bs, fromHex s = some bs → 2 * bs.length = s.length := by
  fun_induction fromHex s with
  | case1 =>
      rintro bs ⟨⟩
      rfl
  | case2 => nofun
  | case3 a b s x y bs hs ha hb ih =>
      rintro bs' ⟨⟩
      have hlen := ih bs hs
      rw [List.length_cons, List.length_cons, List.length_cons]
      omega
  | case4 => nofun

theorem large_lengths : KeyLengths large where
  verify := by
    intro sig msg pub good h
    by_contra hne
    have hnone : large.verifyDetached sig msg pub = none := if_neg hne
    rw [hnone] at h
    cases h
  decode := by
    intro text raw h
    have hlen := length_of_fromHex text raw h
    omega
  encode := by
    intro raw
    show raw.length ≤ (toHex raw).length
    rw [length_toHex]
    omega

/-- A key of 32 equal bytes. -/
def keyBytes (n : UInt8) : Bytes := List.replicate 32 n

def signedPeer : List (JsString × Value) :=
  [(js "ed25519", .str (toHex (keyBytes 1))), (js "x25519", .str (toHex (keyBytes 101))), (js "label", .str (js "node")),
    (js "wg0", .str (js "10.42.0.1"))]

/-- The peer with one more field, `"extra": 1e999`, that its signature does not cover. -/
def spilledPeer : Value := .obj (signedPeer ++ [(js "extra", .num (.infinite false))])

def tokenOf (peer : Value) : List (JsString × Value) :=
  [(js "v", .num Number.one), (js "from", peer), (js "nonce", .str (toHex (List.replicate 16 7))),
    (js "issued", .str (isoString epoch)), (js "expires", .str (isoString ⟨60000, spelled_expires⟩))]

def spilled : Value :=
  .obj (tokenOf spilledPeer ++ [(js "sig", .str ((sign large (.obj (tokenOf (.obj signedPeer))) (keyBytes 1)).toOption.getD []))])

theorem spilled_wf : spilled.WF large.toEngine :=
  ⟨show [js "v", js "from", js "nonce", js "issued", js "expires", js "sig"].Nodup by decide, one_wf large,
    ⟨show [js "ed25519", js "x25519", js "label", js "wg0", js "extra"].Nodup by decide, trivial, trivial, trivial, trivial,
      trivial, trivial⟩, trivial, trivial, trivial, trivial, trivial⟩

theorem spilled_verified : verifyToken large spilled epoch = .ok spilledPeer := by
  decide +kernel

/-- The book that has received it. -/
def spilledBook : FriendBook :=
  { FriendBook.empty with
    pending := FriendBook.empty.pending.set (toHex (keyBytes 1)) (pendingEntry large spilled epoch) }

theorem spilled_reached : ∃ tr, Run (LifeStep large (node 2)) ⟨.empty, []⟩ tr ⟨spilledBook, []⟩ ∧ ∀ e ∈ tr, e.Drawn := by
  have received : Commit large (node 2) (.receive spilled epoch) .empty .empty (.ok spilledPeer) spilledBook :=
    .receive spilled_verified rfl (by decide) rfl (by decide)
  let c : BookCall large := ⟨.receive spilled epoch, spilled_wf⟩
  have hrun : (BookCall.task large (node 2) c).run .empty = (.ok spilledPeer, spilledBook) := received.run
  obtain ⟨ls, hls, run⟩ := run_alone_trace requests_read hrun
  refine ⟨_, lift_pool .nil run, ?_⟩
  rw [List.nil_append, List.forall_mem_map]
  intro l hl
  rcases List.mem_append.mp hl with hl | hl
  · rcases hls l hl with rfl | rfl <;> trivial
  · rw [List.mem_singleton.mp hl]
    trivial

theorem spilled_alike : ∃ tr p, Run (LifeStep large (node 2)) ⟨.empty, []⟩ tr p ∧ p.state.pending.has (toHex (keyBytes 1)) = true ∧
    ∃ b, p.state.restart large = .ok b ∧
      (∀ ops, List.Forall₂ (Matched Answer.Same) (replies (bookService large (node 2)) p.state ops)
        (replies (bookService large (node 2)) b ops)) ∧
      (b = p.state ↔ Printable p.state) := by
  obtain ⟨tr, run, drawn⟩ := spilled_reached
  exact ⟨tr, _, run, by decide, restart_alike large (node 2) large_lengths run drawn⟩

/-- The pending request is listed with `Infinity` before a restart, and with `null` after it. -/
theorem spilled_changes : ∃ tr p b, Run (LifeStep large (node 2)) ⟨.empty, []⟩ tr p ∧ p.state.restart large = .ok b ∧
    replies (bookService large (node 2)) p.state [.listPending] ≠ replies (bookService large (node 2)) b [.listPending] := by
  obtain ⟨tr, run, drawn⟩ := spilled_reached
  refine ⟨tr, _, _, run, (restorable_of_run large_lengths run drawn).restart, fun hsame => ?_⟩
  have hlisted := List.head_eq_of_cons_eq hsame
  cases hlisted

end Symbolic

end Island
end VpnPi
