import VpnPi.Island.Domains
import VpnPi.Island.Era
import VpnPi.Island.Persist

/-!
# `Island.Thread` — from one daemon's log to the other's (`core/messages.ts`, `main.ts`)

* `resolver_exact` — in every state of a daemon's book the inbox's key lookup succeeds, and knows the friends and nobody
  else, if no other call comes between the lookup's own awaits.
* `posted_delivered` — what `POST /api/messages` seals for a friend, the friend's inbox takes in as it was written, and
  refuses when it comes again at once.
* `log_is_newest` — after any requests and restarts a log is the last 500 of what was appended to it, in order.
-/

namespace VpnPi
namespace Island

open Js Value Async Task MessageBook

variable {P : Platform} {me other : Self}

/-! ## The keys that an inbox knows -/

/-- One record of the resolver's loop. -/
def resolverStep (P : Platform) (keys : OrdMap JsString Bytes) (rec_ : Value) : Except Exn (OrdMap JsString Bytes) := do
  let ed ← prop rec_ (js "peer") >>= fun peer => prop peer (js "ed25519")
  let raw ← fromB64 P ed
  let key ← strKey ed
  pure (keys.set key raw)

theorem verifyKeyResolver_eq_foldlM (b : FriendBook) :
    verifyKeyResolver P b = (b.friends.values.foldlM (resolverStep P) OrdMap.empty).map OrdMap.get := by
  show (b.friends.values.foldlM (resolverStep P) OrdMap.empty >>= fun keys => pure keys.get) = _
  cases b.friends.values.foldlM (resolverStep P) OrdMap.empty <;> rfl

/-- What a loop over records finds, if it comes to an end, is what the texts decode to. -/
theorem resolver_decoded {recs : List Value} {keys keys' : OrdMap JsString Bytes}
    (h : recs.foldlM (resolverStep P) keys = .ok keys') (hkeys : ∀ K pk, keys.get K = some pk → fromB64 P (.str K) = .ok pk) :
    ∀ K pk, keys'.get K = some pk → fromB64 P (.str K) = .ok pk := by
  induction recs generalizing keys with
  | nil =>
      obtain rfl := Except.ok.inj h
      exact hkeys
  | cons rec_ recs ih =>
      rw [List.foldlM_cons] at h
      obtain ⟨keys₁, hstep, h⟩ := bind_ok.mp h
      obtain ⟨ed, _, hstep⟩ := bind_ok.mp hstep
      obtain ⟨raw, hraw, hstep⟩ := bind_ok.mp hstep
      obtain ⟨key, hkey, hstep⟩ := bind_ok.mp hstep
      obtain rfl := Except.ok.inj hstep
      obtain rfl := strKey_ok.mp hkey
      refine ih h fun K pk hget => ?_
      rw [OrdMap.get_set] at hget
      split at hget
      · next heq =>
          obtain rfl := Option.some.inj hget
          rw [heq]
          exact hraw
      · exact hkeys K pk hget

theorem resolverStep_keyed (keys : OrdMap JsString Bytes) {K : JsString} {rec_ peer : Value}
    (hpeer : prop rec_ (js "peer") = .ok peer) (hkey : KeyOf P K peer) :
    ∃ raw, fromB64 P (.str K) = .ok raw ∧ resolverStep P keys rec_ = .ok (keys.set K raw) := by
  obtain ⟨hown, raw, hraw⟩ := hkey
  refine ⟨raw, hraw, bind_ok.mpr ⟨.str K, bind_ok.mpr ⟨peer, hpeer, hown⟩, ?_⟩⟩
  exact bind_ok.mpr ⟨raw, hraw, bind_ok.mpr ⟨K, rfl, rfl⟩⟩

/-- The loop over records that stand under their peers' texts. -/
theorem resolver_fold {es : List (JsString × Value)}
    (h : ∀ e ∈ es, ∃ peer, prop e.2 (js "peer") = .ok peer ∧ KeyOf P e.1 peer) (keys : OrdMap JsString Bytes) :
    ∃ keys', (es.map Prod.snd).foldlM (resolverStep P) keys = .ok keys' ∧
      ∀ K, keys'.get K = if K ∈ es.map Prod.fst then (fromB64 P (.str K)).toOption else keys.get K := by
  induction es generalizing keys with
  | nil => exact ⟨keys, rfl, fun K => by simp⟩
  | cons e es ih =>
      obtain ⟨⟨peer, hpeer, hkey⟩, hes⟩ := List.forall_mem_cons.mp h
      obtain ⟨raw, hraw, hstep⟩ := resolverStep_keyed keys hpeer hkey
      obtain ⟨keys', hfold, hget⟩ := ih hes (keys.set e.1 raw)
      refine ⟨keys', ?_, fun K => ?_⟩
      · rw [List.map_cons, List.foldlM_cons, hstep]
        exact hfold
      · rw [hget, OrdMap.get_set, List.map_cons]
        by_cases hmem : K ∈ es.map Prod.fst
        · rw [if_pos hmem, if_pos (List.mem_cons_of_mem _ hmem)]
        · rw [if_neg hmem]
          by_cases hK : K = e.1
          · subst hK
            simp [hraw, Except.toOption]
          · rw [if_neg hK, if_neg fun h => (List.mem_cons.mp h).elim hK hmem]

/-- **The resolver** of a book that keeps every friend under the peer's own text. -/
theorem resolver_keyed {b : FriendBook} (h : Keyed P b) : ∃ verify, verifyKeyResolver P b = .ok verify ∧
    ∀ K pk, verify K = some pk ↔ b.friends.has K = true ∧ fromB64 P (.str K) = .ok pk := by
  have hentries : ∀ e ∈ b.friends.entries, ∃ peer, prop e.2 (js "peer") = .ok peer ∧ KeyOf P e.1 peer :=
    fun e he => h.friends e.1 e.2 (OrdMap.mem_entries_iff.mp he)
  obtain ⟨keys, hfold, hget⟩ := resolver_fold hentries .empty
  refine ⟨keys.get, ?_, fun K pk => ?_⟩
  · rw [verifyKeyResolver_eq_foldlM]
    exact congrArg (Except.map OrdMap.get) hfold
  · have hmem : K ∈ b.friends.entries.map Prod.fst ↔ b.friends.has K = true := by
      rw [OrdMap.has, Option.isSome_iff_exists]
      exact OrdMap.mem_keys_iff
    rw [hget]
    by_cases hK : b.friends.has K = true
    · rw [if_pos (hmem.mpr hK)]
      cases fromB64 P (.str K) <;> simp [hK, Except.toOption]
    · rw [if_neg fun h => hK (hmem.mp h)]
      simp [hK]

/-- **The inbox knows the friends.** In whatever state calls, interleaved at their awaits, and restarts have left a daemon's
    book, a `verifyKeyResolver` that no other call interrupts succeeds, and its lookup finds for a text the key that the text
    decodes to, if it is a friend's, and nothing else. -/
theorem resolver_exact (P : Platform) (me : Self) {tr : List (LifeEvent P)} {p : BookPool P}
    (run : Run (LifeStep P me) ⟨.empty, []⟩ tr p) : ∃ verify, verifyKeyResolver P p.state = .ok verify ∧
      ∀ K pk, verify K = some pk ↔ p.state.friends.has K = true ∧ fromB64 P (.str K) = .ok pk :=
  resolver_keyed (lifeInv_of_run run).book.keyed

/-! ## A message on its way -/

theorem messageView_wf (self : Identity) {to_ : Value} (h : to_.WF P.toEngine) (text uuid : JsString) (now : Instant) :
    (messageView P self to_ text uuid now).WF P.toEngine :=
  ⟨show [js "typ", js "id", js "node", js "to", js "body", js "ts"].Nodup by decide, trivial, trivial, trivial, h,
    trivial, trivial, trivial⟩

variable (P me other) in
/-- What `me` signs to `other`. -/
abbrev viewTo (text uuid : JsString) (now : Instant) : Value := messageView P me.id (.str (selfEd P other)) text uuid now

theorem viewTo_wf (text uuid : JsString) (now : Instant) : (viewTo P me other text uuid now).WF P.toEngine :=
  messageView_wf me.id (show (Value.str (selfEd P other)).WF P.toEngine from trivial) text uuid now

theorem prop_sorted {text uuid : JsString} {now : Instant} {k s : JsString}
    (h : prop (viewTo P me other text uuid now) k = .ok (.str s)) :
    prop (sortKeys (viewTo P me other text uuid now)) k = .ok (.str s) := prop_sortKeys (viewTo_wf text uuid now) h

/-- The record of a friend that has the keys of `other`. -/
structure HasKeys (P : Platform) (other : Self) (recipient : Value) : Prop where
  ed : prop recipient (js "ed25519") = .ok (.str (selfEd P other))
  x  : prop recipient (js "x25519") = .ok (.str (toB64 P other.id.xPublic))

theorem sealMessage_ok (codec : Codec P) {recipient : Value} (hkeys : HasKeys P other recipient) {text uuid blob : JsString}
    {ephemeral : Bytes} {now : Instant} (h : sealMessage P me.id recipient text uuid ephemeral now = .ok blob) :
    ∃ raw, sealSign P (viewTo P me other text uuid now) me.id.edSecret other.id.xPublic ephemeral = .ok raw ∧
      blob = toB64 P raw := by
  obtain ⟨ed, hed, h⟩ := bind_ok.mp h
  obtain rfl := Except.ok.inj (hkeys.ed.symm.trans hed)
  obtain ⟨x, hx, h⟩ := bind_ok.mp h
  obtain ⟨x', hx', hx⟩ := bind_ok.mp hx
  obtain rfl := Except.ok.inj (hkeys.x.symm.trans hx')
  obtain rfl := Except.ok.inj ((codec.fromB64 _).symm.trans hx)
  obtain ⟨raw, hraw, h⟩ := bind_ok.mp h
  exact ⟨raw, hraw, (Except.ok.inj h).symm⟩

/-- **What is sealed for a node** opens there as a message to it, if the sender's key is known. -/
theorem sealed_opens (codec : Codec P) (decode : ∀ raw, P.fromBase64 (P.toBase64 raw) = some raw) (mine : KeyPairs P me.id)
    (theirs : KeyPairs P other.id) {recipient : Value} (hkeys : HasKeys P other recipient) {text uuid blob : JsString}
    {ephemeral : Bytes} {now : Instant} (hseal : sealMessage P me.id recipient text uuid ephemeral now = .ok blob)
    {verify : VerifyKeyFor} (hverify : verify (selfEd P me) = some me.id.edPublic) :
    messagePayload P other.id blob verify = .ok (sortKeys (viewTo P me other text uuid now)) := by
  obtain ⟨raw, hraw, rfl⟩ := sealMessage_ok codec hkeys hseal
  have hopen : openVerify P raw other.id.xPublic other.id.xPrivate verify
      = .ok (sortKeys (viewTo P me other text uuid now)) :=
    openVerify_sealSign (viewTo_wf text uuid now) hraw (fun inner h => theirs.opens ephemeral inner raw h)
      (fun msg => decode _) rfl hverify mine.verifies
  refine bind_ok.mpr ⟨raw, codec.fromB64 raw, bind_ok.mpr ⟨_, hopen, ?_⟩⟩
  refine bind_ok.mpr ⟨.str (js "message"), prop_sorted rfl, bind_ok.mpr ⟨(), failIf_ok.mpr (by simp), ?_⟩⟩
  refine bind_ok.mpr ⟨.str (selfEd P other), prop_sorted rfl, bind_ok.mpr ⟨(), failIf_ok.mpr ?_, rfl⟩⟩
  exact not_not_intro rfl

/-- It opens as nothing else, and not under a key that its signature does not verify under. -/
theorem opens_as_sealed (codec : Codec P) (decode : ∀ raw, P.fromBase64 (P.toBase64 raw) = some raw)
    (theirs : KeyPairs P other.id) {recipient payload : Value} (hkeys : HasKeys P other recipient) {text uuid blob : JsString}
    {ephemeral : Bytes} {now : Instant} (hseal : sealMessage P me.id recipient text uuid ephemeral now = .ok blob)
    {verify : VerifyKeyFor} (h : messagePayload P other.id blob verify = .ok payload) :
    payload = sortKeys (viewTo P me other text uuid now) ∧ ∃ key bytes, verify (selfEd P me) = some key ∧
      canonicalBytes (viewTo P me other text uuid now) = .ok bytes ∧
      P.verifyDetached (P.signDetached bytes me.id.edSecret) bytes key = some true := by
  obtain ⟨raw, hraw, hblob⟩ := sealMessage_ok codec hkeys hseal
  obtain ⟨bytes, inner, hbytes, hinner, hbox⟩ := sealSign_ok hraw
  obtain ⟨raw', hraw', h⟩ := bind_ok.mp h
  obtain rfl := Except.ok.inj ((hblob ▸ codec.fromB64 raw).symm.trans hraw')
  obtain ⟨payload', hopen, h⟩ := bind_ok.mp h
  obtain ⟨_, _, h⟩ := bind_ok.mp h
  obtain ⟨_, _, h⟩ := bind_ok.mp h
  obtain ⟨_, _, h⟩ := bind_ok.mp h
  obtain ⟨_, _, h⟩ := bind_ok.mp h
  obtain rfl := Except.ok.inj h
  obtain ⟨inner', hinner', hopen⟩ := bind_ok.mp hopen
  obtain rfl := Option.some.inj ((theirs.opens ephemeral inner raw hbox).symm.trans (orThrow_ok.mp hinner'))
  obtain ⟨⟨payload', sig, node⟩, hcontents, hopen⟩ := bind_ok.mp hopen
  have hsealed : sealedContents P inner = .ok (sortKeys (viewTo P me other text uuid now),
      P.signDetached bytes me.id.edSecret, selfEd P me) :=
    sealedContents_canonicalBytes (viewTo_wf text uuid now) hinner (decode _) rfl
  obtain ⟨rfl, rfl, rfl⟩ : sortKeys (viewTo P me other text uuid now) = payload' ∧
      P.signDetached bytes me.id.edSecret = sig ∧ selfEd P me = node := by
    simpa using Except.ok.inj (hsealed.symm.trans (mapError_ok.mp hcontents))
  obtain ⟨key, hkey, hopen⟩ := bind_ok.mp hopen
  obtain ⟨msg, hmsg, hopen⟩ := bind_ok.mp hopen
  obtain rfl := Except.ok.inj (hbytes.symm.trans ((canonicalBytes_sortKeys _).symm.trans hmsg))
  obtain ⟨good, hgood, hopen⟩ := bind_ok.mp hopen
  obtain ⟨_, hfail, hopen⟩ := bind_ok.mp hopen
  obtain rfl := Except.ok.inj hopen
  obtain rfl : good = true := by simpa using failIf_ok.mp hfail
  exact ⟨rfl, key, bytes, orThrow_ok.mp hkey, hbytes, orThrow_ok.mp hgood⟩

theorem sorted_fresh {text uuid : JsString} {now arrival : Instant} (hdated : Dated P now)
    (hfresh : arrival.ms - now.ms ≤ maxMsgAgeMs ∧ -maxMsgSkewMs ≤ arrival.ms - now.ms) :
    freshTime P (sortKeys (viewTo P me other text uuid now)) arrival = .ok now := by
  refine bind_ok.mpr ⟨some now, bind_ok.mpr ⟨.str (P.toISOString now), prop_sorted rfl, ?_⟩, ?_⟩
  · exact congrArg Except.ok hdated
  · refine bind_ok.mpr ⟨now, rfl, bind_ok.mpr ⟨(), failIf_ok.mpr ?_, rfl⟩⟩
    omega

theorem sorted_id {text uuid : JsString} {now : Instant} (h : uuid ≠ []) :
    messageId (sortKeys (viewTo P me other text uuid now)) = .ok uuid := by
  refine bind_ok.mpr ⟨.str uuid, prop_sorted rfl, ?_⟩
  exact bind_ok.mpr ⟨(), failIf_ok.mpr h, rfl⟩

theorem sorted_message (text uuid : JsString) (now : Instant) :
    messageOf (sortKeys (viewTo P me other text uuid now))
      = .ok ⟨some uuid, selfEd P me, selfEd P other, text, P.toISOString now⟩ := by
  refine bind_ok.mpr ⟨.str uuid, prop_sorted rfl, ?_⟩
  refine bind_ok.mpr ⟨_, bind_ok.mpr ⟨.str (selfEd P me), prop_sorted rfl, rfl⟩, ?_⟩
  refine bind_ok.mpr ⟨_, bind_ok.mpr ⟨.str (selfEd P other), prop_sorted rfl, rfl⟩, ?_⟩
  refine bind_ok.mpr ⟨_, bind_ok.mpr ⟨.str text, prop_sorted rfl, rfl⟩, ?_⟩
  exact bind_ok.mpr ⟨_, bind_ok.mpr ⟨.str (P.toISOString now), prop_sorted rfl, rfl⟩, rfl⟩

/-- What `send` has sealed when it answers. -/
theorem send_sealed {m m' : Memory} {K text uuid blob : JsString} {ephemeral : Bytes} {now at_ : Instant}
    (h : (send P me K text uuid ephemeral now at_).run m = (.ok (.str blob), m')) : ∃ friend recipient,
      m.book.friends.get K = some friend ∧ prop friend (js "peer") = .ok recipient ∧
      sealMessage P me.id recipient text uuid ephemeral now = .ok blob := by
  rw [send, run_get_bind] at h
  obtain ⟨friend, hfriend, h⟩ := run_ofExcept_bind_ok h
  obtain ⟨recipient, hpeer, h⟩ := run_ofExcept_bind_ok h
  obtain ⟨blob', hseal, h⟩ := run_ofExcept_bind_ok h
  rw [run_get_bind] at h
  obtain ⟨msgs, _, h⟩ := run_ofExcept_bind_ok h
  rw [run_modify_bind, run_pure] at h
  cases h
  exact ⟨friend, recipient, orThrow_ok.mp hfriend, hpeer, hseal⟩

/-- The log of a peer: none is the empty one. -/
def MessageBook.log (b : MessageBook) (K : JsString) : Value := (b.logs.get K).getD (.arr [])

theorem MessageBook.append_log {b : MessageBook} {K : JsString} {log : List Value} (h : b.log K = .arr log) (v : Value) :
    b.append K v = .ok { b with logs := b.logs.set K (.arr (newest maxPerPeer (log ++ [v]))) } := by
  have hlog : orElse ((b.logs.get K).getD .undefined) (.arr []) = .arr log := by
    unfold MessageBook.log at h
    cases hget : b.logs.get K with
    | none =>
        rw [hget] at h
        exact h
    | some w =>
        rw [hget] at h
        obtain rfl : w = .arr log := h
        rfl
  unfold MessageBook.append
  rw [hlog]
  rfl

/-- A message that opens, is fresh and new is taken in. -/
theorem receiveMessage_run {mem : Memory} {body payload : Value} {now ts : Instant} (mark : Instant) {blob id : JsString}
    {verify : VerifyKeyFor} {msg : Message} {entries : List Value} (hverify : verifyKeyResolver P mem.book = .ok verify)
    (hbody : (prop body (js "blob") >>= stringOf) = .ok blob) (hpayload : messagePayload P me.id blob verify = .ok payload)
    (hfresh : freshTime P payload now = .ok ts) (hid : messageId payload = .ok id)
    (hnew : ¬mem.msgs.seen.has id = true) (hmsg : messageOf payload = .ok msg) (hlog : mem.msgs.log msg.from_ = .arr entries) :
    ∃ mem', (receiveMessage P me body now mark).run mem = (.ok (.bool true), mem') ∧ mem'.book = mem.book ∧
      mem'.spent = mem.spent ∧ mem'.msgs.seen.has id = true ∧ mem'.msgs.logs = mem.msgs.logs.set msg.from_
        (.arr (newest maxPerPeer (entries ++ [storedMessage (js "in") msg.from_ msg.to_ msg.body msg.ts]))) := by
  have hmark : mem.msgs.markSeen id ts mark = (true, ⟨mem.msgs.logs,
      (evict (prune mem.msgs.seen mark)).set id (.num (.ofInt ts.ms))⟩) := if_neg hnew
  refine ⟨{ mem with msgs := ⟨mem.msgs.logs.set msg.from_ (.arr (newest maxPerPeer (entries ++
    [storedMessage (js "in") msg.from_ msg.to_ msg.body msg.ts]))), (evict (prune mem.msgs.seen mark)).set id
      (.num (.ofInt ts.ms))⟩ }, ?_, rfl, rfl, ?_, rfl⟩
  · rw [receiveMessage, run_get_bind, run_awaiting_bind, hverify]
    dsimp only
    rw [run_ofExcept_ok hbody, run_awaiting_bind, hpayload]
    dsimp only
    rw [run_ofExcept_ok hfresh, run_ofExcept_ok hid, run_get_bind, hmark, run_throwIf_neg (by simp), run_modify_bind,
      hmark, run_ofExcept_ok hmsg, run_yield_bind, run_get_bind]
    have hlog' : log ⟨mem.msgs.logs, (evict (prune mem.msgs.seen mark)).set id (.num (.ofInt ts.ms))⟩ msg.from_ = .arr entries :=
      hlog
    dsimp only
    rw [run_ofExcept_ok (append_log hlog' _)]
    rfl
  · rw [OrdMap.has, OrdMap.get_set_self]
    rfl

/-! ## A log -/

theorem newest_eq_drop {α : Type} (limit : Nat) (xs : List α) : newest limit xs = xs.drop (xs.length - limit) := by
  induction xs with
  | nil => simp [newest]
  | cons x xs ih =>
      rw [newest]
      split
      · next h =>
          rw [List.length_cons] at h ⊢
          rw [ih, Nat.succ_sub (Nat.le_of_lt_succ h), List.drop_succ_cons]
      · next h => rw [Nat.sub_eq_zero_of_le (Nat.le_of_not_lt h), List.drop_zero]

/-- What an earlier pass dropped, a later one would have. -/
theorem newest_newest {α : Type} (limit : Nat) (xs ys : List α) :
    newest limit (newest limit xs ++ ys) = newest limit (xs ++ ys) := by
  simp only [newest_eq_drop, List.length_append, List.length_drop]
  by_cases h : xs.length ≤ limit
  · rw [Nat.sub_eq_zero_of_le h, List.drop_zero, Nat.sub_zero]
  · have hlen : (xs.drop (xs.length - limit)).length = limit := by
      rw [List.length_drop]
      omega
    rw [List.drop_append, List.drop_append, List.drop_drop, hlen]
    congr 2 <;> omega

/-- What an event appends, and to which log. -/
def MessageEvent.appends (P : Platform) (me : Self) : MessageEvent → Option (JsString × Value)
  | .inbound _ (.ok m) => some (m.from_, storedMessage (js "in") m.from_ m.to_ m.body m.ts)
  | .inbound _ (.error _) => none
  | .sent peer text now => some (peer, storedMessage (js "out") (selfEd P me) peer text (P.toISOString now))
  | .reload => none

/-- Everything that was appended to the log of `K`. -/
def appended (P : Platform) (me : Self) (K : JsString) (tr : List MessageEvent) : List Value :=
  tr.filterMap fun e => (e.appends P me).bind fun a => if a.1 = K then some a.2 else none

/-- The last 500 of these, or no log. -/
def Newest (b : MessageBook) (K : JsString) (vs : List Value) : Prop :=
  b.logs.get K = if vs = [] then none else some (.arr (newest maxPerPeer vs))

theorem Newest.log {b : MessageBook} {K : JsString} {vs : List Value} (h : Newest b K vs) :
    b.log K = .arr (newest maxPerPeer vs) := by
  unfold MessageBook.log
  rw [h]
  split
  · next hvs => rw [hvs]; rfl
  · rfl

theorem Newest.append {b b' : MessageBook} {K K' : JsString} {v : Value} {vs ws : List Value} (h : Newest b K vs)
    (hK : Newest b K' ws) (happend : b.append K v = .ok b') : Newest b' K' (if K = K' then vs ++ [v] else ws) := by
  rw [append_log h.log] at happend
  obtain rfl := Except.ok.inj happend
  show (b.logs.set K _).get K' = _
  by_cases hKK' : K = K'
  · subst hKK'
    rw [OrdMap.get_set_self, if_pos rfl, if_neg (by simp), newest_newest]
  · rw [OrdMap.get_set_ne (Ne.symm hKK'), if_neg hKK']
    exact hK

theorem markSeen_logs (b : MessageBook) (id : JsString) (ts mark : Instant) : (b.markSeen id ts mark).2.logs = b.logs := by
  unfold markSeen
  split <;> rfl

theorem jsonViewList_self {xs : List Value} (h : ∀ x ∈ xs, jsonView x = x) : jsonViewList xs = xs := by
  induction xs with
  | nil => rfl
  | cons x xs ih =>
      obtain ⟨hx, hxs⟩ := List.forall_mem_cons.mp h
      rw [jsonViewList, hx, ih hxs]

/-- The entries of a log come back from a file as they were. -/
theorem Newest.reloaded {b : MessageBook} {K : JsString} {vs : List Value} (h : Newest b K vs)
    (hplain : ∀ v ∈ vs, jsonView v = v) : Newest b.reloaded K vs := by
  show ((ownOrder b.logs).mapVal jsonView).get K = _
  rw [OrdMap.get_mapVal, get_ownOrder, h]
  split
  · rfl
  · show some (Value.arr (jsonViewList _)) = _
    rw [jsonViewList_self fun v hv => hplain v ((newest_suffix _ _).subset hv)]

theorem appends_plain {e : MessageEvent} {a : JsString × Value} (h : e.appends P me = some a) :
    a.2.WF P.toEngine ∧ jsonView a.2 = a.2 := by
  cases e with
  | inbound q r =>
      cases r with
      | ok m => cases h; exact ⟨storedMessage_wf .., rfl⟩
      | error e => cases h
  | sent peer text now => cases h; exact ⟨storedMessage_wf .., rfl⟩
  | reload => cases h

theorem appended_plain {K : JsString} {tr : List MessageEvent} : ∀ v ∈ appended P me K tr, jsonView v = v := by
  intro v hv
  obtain ⟨e, _, he⟩ := List.mem_filterMap.mp hv
  obtain ⟨a, ha, hv⟩ := Option.bind_eq_some_iff.mp he
  split at hv
  · cases hv
    exact (appends_plain ha).2
  · cases hv

theorem appended_snoc (K : JsString) (tr : List MessageEvent) (e : MessageEvent) :
    appended P me K (tr ++ [e]) = appended P me K tr ++
      (((e.appends P me).bind fun a => if a.1 = K then some a.2 else none).toList) := by
  rw [appended, List.filterMap_append]
  cases h : (e.appends P me).bind fun a => if a.1 = K then some a.2 else none <;> simp [appended, h]

/-- One event: the entry goes to the end of its log, and the other logs stay as they are. -/
theorem MessageStep.newest {b b' : MessageBook} {e : MessageEvent} {tr : List MessageEvent} (h : MessageStep P me b e b')
    (hwf : MessageBookWF P.toEngine b) (hb : ∀ K, Newest b K (appended P me K tr)) :
    MessageBookWF P.toEngine b' ∧ ∀ K, Newest b' K (appended P me K (tr ++ [e])) := by
  -- an event appends nothing, or one entry to one log
  have quiet {b'' : MessageBook} (hlogs : b''.logs = b.logs) {e : MessageEvent} (he : e.appends P me = none) (K : JsString) :
      Newest b'' K (appended P me K (tr ++ [e])) := by
    rw [appended_snoc, he, Option.bind_none, Option.toList_none, List.append_nil, Newest, hlogs]
    exact hb K
  have grown {b₁ b'' : MessageBook} (hlogs : b₁.logs = b.logs) {e : MessageEvent} {a : JsString × Value}
      (he : e.appends P me = some a) (happend : b₁.append a.1 a.2 = .ok b'') (K : JsString) :
      Newest b'' K (appended P me K (tr ++ [e])) := by
    have hb₁ : ∀ K, Newest b₁ K (appended P me K tr) := by
      intro K
      rw [Newest, hlogs]
      exact hb K
    have hnext := (hb₁ a.1).append (hb₁ K) happend
    rw [appended_snoc, he]
    by_cases hK : a.1 = K
    · subst hK
      simpa using hnext
    · simpa [hK] using hnext
  cases h with
  | inbound q =>
      rcases @inbound_cases P me q b with ⟨e, heq⟩ | ⟨g, -, -, ⟨e, heq⟩ | ⟨m, b', -, happend, heq⟩⟩ <;> rw [heq]
      · exact ⟨hwf, quiet rfl rfl⟩
      · exact ⟨markSeen_wf hwf .., quiet (markSeen_logs ..) rfl⟩
      · obtain ⟨hseen, hgrown⟩ := append_ok happend
        have hwf₁ := markSeen_wf hwf g.id g.ts q.mark
        exact ⟨⟨hgrown hwf₁.logs (storedMessage_wf ..), hseen ▸ hwf₁.seen⟩, grown (markSeen_logs ..) rfl happend⟩
  | sent happend =>
      obtain ⟨hseen, hlogs⟩ := append_ok happend
      exact ⟨⟨hlogs hwf.logs (storedMessage_wf ..), hseen ▸ hwf.seen⟩, grown rfl rfl happend⟩
  | reload hload =>
      rw [MessageBook.reload_eq hwf] at hload
      obtain rfl := Except.ok.inj hload
      refine ⟨hwf.reloaded, fun K => ?_⟩
      rw [appended_snoc]
      simpa [MessageEvent.appends] using (hb K).reloaded appended_plain

theorem newest_of_run {tr : List MessageEvent} {b : MessageBook} (run : Run (MessageStep P me) .empty tr b) :
    MessageBookWF P.toEngine b ∧ ∀ K, Newest b K (appended P me K tr) := by
  have h0 : MessageBookWF P.toEngine .empty ∧ ∀ K, Newest .empty K (appended P me K []) :=
    ⟨⟨.empty, .empty⟩, fun K => rfl⟩
  exact run.invariant (I := fun tr b => MessageBookWF P.toEngine b ∧ ∀ K, Newest b K (appended P me K tr)) h0
    fun tr b e b' _ ih h => h.newest ih.1 ih.2

/-- **A log** holds, after any deliveries, messages sent and restarts, the last 500 entries of those that were appended to it,
    in their order; there is no log where nothing was appended. -/
theorem log_is_newest (P : Platform) (me : Self) {tr : List MessageEvent} {b : MessageBook}
    (run : Run (MessageStep P me) .empty tr b) (K : JsString) :
    b.logs.get K = if appended P me K tr = [] then none
      else some (.arr ((appended P me K tr).drop ((appended P me K tr).length - maxPerPeer))) := by
  rw [← newest_eq_drop]
  exact (newest_of_run run).2 K

/-! ## Delivery -/

/-- A message whose id is known is refused, at any time, and changes nothing. -/
theorem receiveMessage_known {mem : Memory} {body payload : Value} {blob id : JsString} {verify : VerifyKeyFor}
    (hverify : verifyKeyResolver P mem.book = .ok verify) (hbody : (prop body (js "blob") >>= stringOf) = .ok blob)
    (hpayload : messagePayload P me.id blob verify = .ok payload) (hid : messageId payload = .ok id)
    (hknown : mem.msgs.seen.has id = true) (now mark : Instant) :
    ∃ e, (receiveMessage P me body now mark).run mem = (.error e, mem) := by
  rw [receiveMessage, run_get_bind, run_awaiting_bind, hverify]
  dsimp only
  rw [run_ofExcept_ok hbody, run_awaiting_bind, hpayload]
  dsimp only
  cases hfresh : freshTime P payload now with
  | error e => exact ⟨e, rfl⟩
  | ok ts =>
      have hmark : mem.msgs.markSeen id ts mark = (false, mem.msgs) := if_pos hknown
      refine ⟨duplicateId, ?_⟩
      rw [run_ofExcept_ok rfl, run_ofExcept_ok hid, run_get_bind, hmark, run_throwIf_bind, if_pos (by simp)]

/-- What a node seals for another one that knows it is taken in there, and refused while nothing else has been taken in. -/
theorem sealed_received (codec : Codec P) (decode : ∀ raw, P.fromBase64 (P.toBase64 raw) = some raw) (mine : KeyPairs P me.id)
    (theirs : KeyPairs P other.id) {recipient : Value} (hkeys : HasKeys P other recipient) {text uuid blob : JsString}
    {ephemeral : Bytes} {now : Instant} (hseal : sealMessage P me.id recipient text uuid ephemeral now = .ok blob)
    {mem : Memory} (hbook : Keyed P mem.book) (hknown : mem.book.friends.has (selfEd P me) = true) {body : Value}
    {arrival : Instant} (mark : Instant) (hbody : (prop body (js "blob") >>= stringOf) = .ok blob) (hdated : Dated P now)
    (hfresh : arrival.ms - now.ms ≤ maxMsgAgeMs ∧ -maxMsgSkewMs ≤ arrival.ms - now.ms) (huuid : uuid ≠ [])
    (hnew : ¬mem.msgs.seen.has uuid = true) {entries : List Value} (hlog : mem.msgs.log (selfEd P me) = .arr entries) :
    ∃ mem', (receiveMessage P other body arrival mark).run mem = (.ok (.bool true), mem') ∧ mem'.book = mem.book ∧
      mem'.spent = mem.spent ∧ mem'.msgs.logs = mem.msgs.logs.set (selfEd P me) (.arr (newest maxPerPeer (entries ++
        [storedMessage (js "in") (selfEd P me) (selfEd P other) text (P.toISOString now)]))) ∧
      ∀ arrival' mark', ∃ e, (receiveMessage P other body arrival' mark').run mem' = (.error e, mem') := by
  obtain ⟨verify, hverify, hfinds⟩ := resolver_keyed hbook
  have hkey : verify (selfEd P me) = some me.id.edPublic := (hfinds _ _).mpr ⟨hknown, codec.fromB64 _⟩
  have hpayload := sealed_opens codec decode mine theirs hkeys hseal hkey
  obtain ⟨mem', hrun, hbook', hspent', hseen, hset⟩ := receiveMessage_run mark hverify hbody hpayload
    (sorted_fresh hdated hfresh) (sorted_id huuid) hnew (sorted_message text uuid now) hlog
  refine ⟨mem', hrun, hbook', hspent', hset, fun arrival' mark' => ?_⟩
  rw [← hbook'] at hverify
  exact receiveMessage_known hverify hbody hpayload (sorted_id huuid) hseen arrival' mark'

/-- **Delivery.** What `POST /api/messages` has sealed for a friend whose keys it has, is taken in at the friend's inbox if the
    friend knows the sender, and the message is fresh and its id unused: the log of the sender gets the text and the time at
    which it was sealed, and the other logs stay. The same body is refused as long as nothing else has been taken in, and
    changes nothing. -/
theorem posted_delivered (P : Platform) {me other : Self} (codec : Codec P)
    (decode : ∀ raw, P.fromBase64 (P.toBase64 raw) = some raw) (mine : KeyPairs P me.id) (theirs : KeyPairs P other.id)
    {m m' : Memory} {K text uuid blob : JsString} {friend recipient : Value} {ephemeral : Bytes} {now at_ : Instant}
    (hfriend : m.book.friends.get K = some friend) (hrecipient : prop friend (js "peer") = .ok recipient)
    (hkeys : HasKeys P other recipient)
    (hsent : (send P me K text uuid ephemeral now at_).run m = (.ok (.str blob), m'))
    {mem : Memory} {running : List (Slot (BookCall P) FriendBook Exn Value)} {books : List (LifeEvent P)}
    {messages : List MessageEvent} (hbook : Run (LifeStep P other) ⟨.empty, []⟩ books ⟨mem.book, running⟩)
    (hmsgs : Run (MessageStep P other) .empty messages mem.msgs) (hknown : mem.book.friends.has (selfEd P me) = true)
    {body : Value} {arrival mark : Instant} (hbody : (prop body (js "blob") >>= stringOf) = .ok blob) (hdated : Dated P now)
    (hfresh : arrival.ms - now.ms ≤ maxMsgAgeMs ∧ -maxMsgSkewMs ≤ arrival.ms - now.ms) (huuid : uuid ≠ [])
    (hnew : ¬mem.msgs.seen.has uuid = true) :
    ∃ mem', (receiveMessage P other body arrival mark).run mem = (.ok (.bool true), mem') ∧
      mem'.book = mem.book ∧ mem'.spent = mem.spent ∧
      (∀ L, mem'.msgs.log L = .arr (newest maxPerPeer (if selfEd P me = L then appended P other L messages ++
        [storedMessage (js "in") (selfEd P me) (selfEd P other) text (P.toISOString now)] else appended P other L messages))) ∧
      ∀ arrival' mark', ∃ e, (receiveMessage P other body arrival' mark').run mem' = (.error e, mem') := by
  obtain ⟨friend', recipient', hfriend', hrecipient', hseal⟩ := send_sealed hsent
  obtain rfl := Option.some.inj (hfriend.symm.trans hfriend')
  obtain rfl := Except.ok.inj (hrecipient.symm.trans hrecipient')
  obtain ⟨_, hlogs⟩ := newest_of_run hmsgs
  obtain ⟨mem', hrun, hbook', hspent', hset, hrefused⟩ := sealed_received codec decode mine theirs hkeys hseal
    (lifeInv_of_run hbook).book.keyed hknown mark hbody hdated hfresh huuid hnew (hlogs (selfEd P me)).log
  refine ⟨mem', hrun, hbook', hspent', fun L => ?_, hrefused⟩
  have happend := append_log (hlogs (selfEd P me)).log
    (storedMessage (js "in") (selfEd P me) (selfEd P other) text (P.toISOString now))
  have hnext := ((hlogs (selfEd P me)).append (hlogs L) happend).log
  unfold MessageBook.log at hnext ⊢
  rw [hset, hnext]
  by_cases hL : selfEd P me = L
  · subst hL
    simp
  · simp [hL]

namespace Symbolic

/-- Node 2 befriends node 1. -/
theorem befriended_life : ∃ tr, Run (LifeStep platform (node 2)) ⟨.empty, []⟩ tr ⟨befriended, []⟩ := by
  obtain ⟨tr, run⟩ := life_alone .nil (show Call.WF _ (.receive _ _) from invite_wf) invite_received
  exact life_alone run (show Call.WF _ (.accept ..) from trivial) invite_accepted

theorem befriended_resolver : ∃ tr p, Run (LifeStep platform (node 2)) ⟨.empty, []⟩ tr p ∧
    p.state.friends.has (toHex [1]) = true ∧ ∃ verify, verifyKeyResolver platform p.state = .ok verify ∧
      ∀ K pk, verify K = some pk ↔ p.state.friends.has K = true ∧ fromB64 platform (.str K) = .ok pk := by
  obtain ⟨tr, run⟩ := befriended_life
  exact ⟨tr, _, run, rfl, resolver_exact platform (node 2) run⟩

/-- An answer of node 2. -/
def answering : MessageEvent := .sent (toHex [1]) (js "yo") epoch

/-- What it leaves in the log. -/
def replied : Value := storedMessage (js "out") (selfEd platform (node 2)) (toHex [1]) (js "yo") (platform.toISOString epoch)

/-- What the letter leaves there. -/
def heardLetter : Value := storedMessage (js "in") (toHex [1]) (toHex [2]) (js "hi") (isoString epoch)

/-- A letter, a restart, `n` answers and another restart. -/
def chat (n : Nat) : List MessageEvent :=
  .inbound (delivered (natText 7)) (.ok (message (natText 7))) :: .reload :: (List.replicate n answering ++ [.reload])

/-- Node 2 can answer as often as it likes. -/
theorem answered_often {tr : List MessageEvent} {b : MessageBook}
    (run : Run (MessageStep platform (node 2)) .empty tr b) (n : Nat) :
    ∃ b', Run (MessageStep platform (node 2)) .empty (tr ++ List.replicate n answering) b' := by
  induction n with
  | zero => exact ⟨b, by rwa [List.replicate_zero, List.append_nil]⟩
  | succ n ih =>
      obtain ⟨b', run'⟩ := ih
      have happend := append_log ((newest_of_run run').2 (toHex [1])).log replied
      rw [List.replicate_succ', ← List.append_assoc]
      exact ⟨_, run'.snoc (.sent happend)⟩

theorem chat_run (n : Nat) : ∃ b, Run (MessageStep platform (node 2)) .empty (chat n) b := by
  obtain ⟨b₁, hletter, _⟩ := letter_heard (⟨rfl, [], rfl⟩ : Heard [] .empty) (natText_ne_nil 7) List.not_mem_nil
  have heard := (@Run.nil _ _ (MessageStep platform (node 2)) .empty).snoc hletter
  have restarted := heard.snoc (.reload (MessageBook.reload_eq (newest_of_run heard).1))
  obtain ⟨b₂, answers⟩ := answered_often restarted n
  have run := answers.snoc (.reload (MessageBook.reload_eq (newest_of_run answers).1))
  simp only [List.nil_append, List.cons_append] at run
  exact ⟨_, run⟩

theorem chat_appended (n : Nat) :
    appended platform (node 2) (toHex [1]) (chat n) = heardLetter :: List.replicate n replied ∧
    appended platform (node 2) (toHex [3]) (chat n) = [] := by
  have hmine : (answering.appends platform (node 2)).bind (fun a => if a.1 = toHex [1] then some a.2 else none) = some replied :=
    rfl
  have hother : (answering.appends platform (node 2)).bind (fun a => if a.1 = toHex [3] then some a.2 else none) = none := rfl
  constructor
  · have hanswers : appended platform (node 2) (toHex [1]) (List.replicate n answering) = List.replicate n replied :=
      List.filterMap_replicate_of_some hmine
    show heardLetter :: appended platform (node 2) (toHex [1]) (List.replicate n answering ++ [.reload]) = _
    rw [appended_snoc, hanswers]
    exact congrArg _ (List.append_nil _)
  · have hanswers : appended platform (node 2) (toHex [3]) (List.replicate n answering) = [] :=
      List.filterMap_replicate_of_none hother
    show appended platform (node 2) (toHex [3]) (List.replicate n answering ++ [.reload]) = _
    rw [appended_snoc, hanswers]
    rfl

/-- Of a letter, 501 answers and two restarts the log keeps the last 500 answers, and there is no other log. -/
theorem answers_logged : ∃ b, Run (MessageStep platform (node 2)) .empty (chat 501) b ∧
    b.logs.get (toHex [1]) = some (.arr (List.replicate 500 replied)) ∧ b.logs.get (toHex [3]) = none := by
  obtain ⟨b, run⟩ := chat_run 501
  obtain ⟨hmine, hother⟩ := chat_appended 501
  refine ⟨b, run, ?_, ?_⟩
  · rw [log_is_newest platform (node 2) run (toHex [1]), hmine, if_neg (List.cons_ne_nil _ _), List.length_cons,
      List.length_replicate]
    show some (Value.arr ((heardLetter :: List.replicate 501 replied).drop (1 + 1))) = _
    rw [List.drop_succ_cons, List.drop_replicate]
  · rw [log_is_newest platform (node 2) run (toHex [3]), hother, if_pos rfl]

/-- Node 1 writes to node 2. -/
theorem hi_sent : ∃ blob m', (send platform (node 1) (toHex [2]) (js "hi") (natText 7) [] epoch epoch).run
    (Memory.fresh.setBook confirmed) = (.ok (.str blob), m') := ⟨_, _, rfl⟩

theorem hi_delivered : ∃ blob m' mem', (send platform (node 1) (toHex [2]) (js "hi") (natText 7) [] epoch epoch).run
    (Memory.fresh.setBook confirmed) = (.ok (.str blob), m') ∧
    (receiveMessage platform (node 2) (.obj [(js "blob", .str blob)]) epoch epoch).run (Memory.fresh.setBook befriended)
      = (.ok (.bool true), mem') ∧
    mem'.msgs.log (toHex [1]) = .arr [storedMessage (js "in") (toHex [1]) (toHex [2]) (js "hi") (isoString epoch)] := by
  obtain ⟨blob, m', hsent⟩ := hi_sent
  obtain ⟨tr, hbook⟩ := befriended_life
  have hmsgs : Run (MessageStep platform (node 2)) .empty [] (Memory.fresh.setBook befriended).msgs := .nil
  have hbody : (prop (.obj [(js "blob", .str blob)]) (js "blob") >>= stringOf) = .ok blob := rfl
  have hfresh : epoch.ms - epoch.ms ≤ maxMsgAgeMs ∧ -maxMsgSkewMs ≤ epoch.ms - epoch.ms := by decide
  have hnew : ¬(Memory.fresh.setBook befriended).msgs.seen.has (natText 7) = true := by
    intro h
    cases h
  obtain ⟨mem', hrun, _, _, hlogs, _⟩ := posted_delivered platform codec fromHex_toHex (keyPairs 1) (keyPairs 2)
    (OrdMap.get_set_self ..) rfl ⟨rfl, rfl⟩ hsent hbook hmsgs rfl hbody epoch_dated hfresh (natText_ne_nil 7) hnew
  exact ⟨blob, m', mem', hsent, hrun, hlogs (toHex [1])⟩

end Symbolic

end Island
end VpnPi
