import VpnPi.Async.Saving
import VpnPi.Island.CanaryRoute
import VpnPi.Island.PeerKeys
import VpnPi.Island.Replay

/-!
# `Island.Persist` — the state files under concurrent requests (`main.ts`)

Every route that changes the daemon's state ends with `ctx.persist()`, which writes the three state files one after
another from what is in memory at each write. Nothing orders the saves of two requests, so the writes of one file
can overlap, and one of an older text can be the last to take effect.

* `durable_iff` — once every request has completed, a restart gives back what is in memory exactly if the last write
  of each file to take effect has the text of the last one that was called.
* `receiving_durable`, `friend_lost` — a friend is accepted while the request that brought it is still being saved: it is
  kept if the writes take effect in the order of their calls, and is gone after a restart if they do not.
-/

namespace VpnPi
namespace Island

open Js Value Async Task

/-! ## Memory and files -/

/-- What the daemon saves of what it has in memory. -/
structure Memory where
  book  : FriendBook
  msgs  : MessageBook
  /-- The spent canary nonces of the gate. -/
  spent : OrdMap JsString Number

inductive DataFile where
  /-- `friends.json`. -/
  | friends
  /-- `messages.json`. -/
  | messages
  /-- `gate.json`. -/
  | gate
  deriving DecidableEq

def Memory.fresh : Memory := ⟨.empty, .empty, .empty⟩

/-- The text that `persist` writes. -/
def Memory.render : DataFile → Memory → Bytes
  | .friends, m => utf8Encode (stringify m.book.toJSON)
  | .messages, m => utf8Encode (stringify m.msgs.toJSON)
  | .gate, m => Gate.saved { consumed := m.spent }

variable (P : Platform)

def loadBook : Option Bytes → Except Exn FriendBook
  | none => .ok .empty
  | some file => do
      let data ← orThrow (.error (js "malformed friends.json")) (parse P.toEngine (utf8Decode file))
      FriendBook.fromJSON data

def loadMessages : Option Bytes → Except Exn MessageBook
  | none => .ok .empty
  | some file => do
      let data ← orThrow (.error (js "malformed messages.json")) (parse P.toEngine (utf8Decode file))
      MessageBook.fromJSON data

/-- What a boot loads. -/
def Memory.boot (disk : DataFile → Option Bytes) : Except Exn Memory := do
  let book ← loadBook P (disk .friends)
  let msgs ← loadMessages P (disk .messages)
  pure ⟨book, msgs, (Gate.boot P (disk .gate)).consumed⟩

def stateFiles : Saving.Format Memory DataFile Bytes where
  order := [.friends, .messages, .gate]
  save := Memory.render
  fresh := .fresh
  boot := fun disk => (Memory.boot P disk).toOption

/-! ## The routes, up to `await ctx.persist()` -/

inductive Handler where
  /-- The routes that call an operation of the friend book: `token`, `receive`, `accept`, `confirm`, `add`, `request`,
      `accept-inbound`, the two `DELETE`s and `revoke-inbound`. -/
  | friends (c : BookCall P)
  /-- `POST /api/messages`. -/
  | send (peer text uuid : JsString) (ephemeral : Bytes) (now at_ : Instant)
  /-- `POST /api/messages/inbound`. -/
  | inbound (body : Value) (now mark : Instant)
  /-- `POST /admin/canary`; `outcome` is what the LLM, the lock and the helper come to. -/
  | canary (blob : JsString) (at_ now : Instant) (outcome : Except Exn Value)

variable (me : Self) (ctx : Ctx)

def send (peer text uuid : JsString) (ephemeral : Bytes) (now at_ : Instant) : Task Memory Exn Value := do
  let m ← get
  let friend ← ofExcept (orThrow (.friend (js "not a friend")) (m.book.friends.get peer))
  let recipient ← ofExcept (prop friend (js "peer"))
  let blob ← awaiting (sealMessage P me.id recipient text uuid ephemeral now)
  let m ← get
  let out := storedMessage (js "out") (selfEd P me) peer text (P.toISOString at_)
  let msgs ← ofExcept (m.msgs.append peer out)
  modify fun m => { m with msgs := msgs }
  pure (.str blob)

def receiveMessage (body : Value) (now mark : Instant) : Task Memory Exn Value := do
  let m ← get
  let verify ← awaiting (verifyKeyResolver P m.book)
  let blob ← ofExcept (prop body (js "blob") >>= stringOf)
  let payload ← awaiting (messagePayload P me.id blob verify)
  let ts ← ofExcept (freshTime P payload now)
  let id ← ofExcept (messageId payload)
  let m ← get
  throwIf (¬(m.msgs.markSeen id ts mark).1) duplicateId
  modify fun m => { m with msgs := (m.msgs.markSeen id ts mark).2 }
  let msg ← ofExcept (messageOf payload)
  yield
  let m ← get
  let msgs ← ofExcept (m.msgs.append msg.from_ (storedMessage (js "in") msg.from_ msg.to_ msg.body msg.ts))
  modify fun m => { m with msgs := msgs }
  pure (.bool true)

/-- The gate with these spent nonces, as far as `open` looks at it before it asks the LLM. -/
def Memory.gate (m : Memory) : Gate := { consumed := m.spent }

def openGate (blob : JsString) (at_ now : Instant) (outcome : Except Exn Value) : Task Memory Exn Value := do
  let canary ← awaiting (verifyCanary P ctx.identity blob ctx.adminVerify ctx.canaryKeyword ctx.canaryFreshnessS at_)
  let m ← get
  modify fun m => { m with spent := (m.gate.openStart ctx.gate canary now).2.consumed }
  let _ ← ofExcept (m.gate.openStart ctx.gate canary now).1
  awaiting outcome

def Memory.setBook (b : FriendBook) (m : Memory) : Memory := { m with book := b }

def Handler.task : Handler P → Task Memory Exn Value
  | friends c => (c.task P me).zoom Memory.book Memory.setBook
  | send peer text uuid ephemeral now at_ => Island.send P me peer text uuid ephemeral now at_
  | inbound body now mark => receiveMessage P me body now mark
  | canary blob at_ now outcome => openGate P ctx blob at_ now outcome

/-- `issueRevoke` of no friend is answered with 404 and not saved; `revoke` alone is no route. -/
def Handler.saves : Handler P → Value → Bool
  | friends ⟨.issueRevoke .., _⟩, v => decide (v ≠ .null)
  | friends ⟨.revoke .., _⟩, _ => false
  | _, _ => true

def handlers : Saving.Calls (Handler P) Memory Exn Value := ⟨Handler.task P me ctx, Handler.saves P⟩

variable {P me ctx}

/-! ## Well-formed memory -/

/-- A list as a `Set` holds it. -/
def SetLike (s : List Value) : Prop := s.foldl setAdd [] = s

structure MemoryWF (P : Platform) (m : Memory) : Prop where
  book     : BookWF P.toEngine m.book
  consumed : SetLike m.book.consumed
  msgs     : MessageBookWF P.toEngine m.msgs
  spent    : Gate.NumbersWF P m.spent
  finite   : ∀ k x, m.spent.get k = some x → Gate.isFinite x = true

/-- The part of it that the operations of the friend book see. -/
def BookGood (P : Platform) (b : FriendBook) : Prop := BookWF P.toEngine b ∧ SetLike b.consumed

theorem SetLike.setAdd {s : List Value} (h : SetLike s) (v : Value) : SetLike (setAdd s v) := by
  by_cases hv : setHas s v = true
  · rw [Island.setAdd, if_pos hv]
    exact h
  · have hadd : Island.setAdd s v = s ++ [v] := if_neg hv
    rw [SetLike, hadd, List.foldl_append, h]
    exact hadd

theorem Call.keeps {c : Call} (hc : c.WF P.toEngine) : (c.task P me).Keeps (BookGood P) := by
  -- along each body only the last write matters; what it stores comes from checks before it
  cases c with
  | issueToken ttlSeconds random now =>
      refine keeps_awaiting_bind fun token minted => keeps_modify_bind (fun b hb => ?_) trivial
      exact ⟨{ hb.1 with offered := hb.1.offered.set (makeToken_stored minted) }, hb.2⟩
  | receive token now =>
      refine keeps_awaiting_bind fun peer _ => keeps_get_bind fun b _ => keeps_ofExcept_bind fun nonce _ =>
        keeps_throwIf_bind fun _ => keeps_ofExcept_bind fun ed _ => keeps_yield_bind <| keeps_throwIf_bind fun _ =>
        keeps_ofExcept_bind fun key _ => keeps_modify_bind (fun b hb => ?_) trivial
      exact ⟨{ hb.1 with pending := hb.1.pending.set (pendingEntry_stored hc) }, hb.2⟩
  | accept giver ephemeral now =>
      refine keeps_get_bind fun b₀ hb₀ => keeps_ofExcept_bind fun p hp => keeps_ofExcept_bind fun token htoken =>
        keeps_ofExcept_bind fun _ _ => keeps_throwIf_bind fun _ => keeps_awaiting_bind fun blob sealed =>
        keeps_ofExcept_bind fun nonce hnonce => keeps_ofExcept_bind fun peer hpeer =>
        keeps_modify_bind (fun b hb => ?_) trivial
      have htw := prop_wf (hb₀.1.pending _ _ (orThrow_ok.mp hp)).1 htoken
      have hnw := prop_wf htw hnonce
      refine ⟨{ hb.1 with
        pending := hb.1.pending.delete
        consumed := consumed_setAdd hb.1.consumed ⟨hnw, makeAccept_nonce_plain sealed hnonce⟩
        friends := hb.1.friends.set (friendRecord_stored (prop_wf htw hpeer) hnw) }, hb.2.setAdd nonce⟩
  | confirm blob now =>
      refine keeps_awaiting_bind fun accept opened => keeps_get_bind fun b₀ _ => keeps_ofExcept_bind fun ref href =>
        keeps_ofExcept_bind fun offer _ => keeps_throwIf_bind fun _ => keeps_ofExcept_bind fun _ _ =>
        keeps_throwIf_bind fun _ => keeps_ofExcept_bind fun peer hpeer => keeps_ofExcept_bind fun ed _ =>
        keeps_ofExcept_bind fun nonce hnonce => keeps_ofExcept_bind fun key _ =>
        keeps_modify_bind (fun b hb => ?_) trivial
      have haw := openAccept_wf opened
      obtain rfl := strKey_ok.mp hnonce
      exact ⟨{ hb.1 with
        offered := hb.1.offered.delete
        consumed := consumed_setAdd hb.1.consumed ⟨trivial, trivial⟩
        friends := hb.1.friends.set (friendRecord_stored (prop_wf haw hpeer) (prop_wf haw href)) }, hb.2.setAdd _⟩
  | revoke peer =>
      refine keeps_get_bind fun b₀ _ => keeps_modify_bind (fun b hb => ?_) trivial
      exact ⟨{ hb.1 with friends := hb.1.friends.delete }, hb.2⟩
  | issueRevoke peer random now =>
      refine keeps_get_bind fun b₀ _ => ?_
      cases b₀.friends.get peer with
      | none => trivial
      | some rec_ =>
          refine keeps_awaiting_bind fun notice _ => keeps_modify_bind (fun b hb => ?_) ?_
          · exact ⟨{ hb.1 with friends := hb.1.friends.delete }, hb.2⟩
          · exact keeps_ofExcept_bind fun _ _ => trivial
  | receiveRevoke n now =>
      refine keeps_throwIf_bind fun shape => keeps_ofExcept_bind fun target _ => keeps_yield_bind <|
        keeps_throwIf_bind fun _ => keeps_get_bind fun b₀ _ => keeps_ofExcept_bind fun peer _ =>
        keeps_ofExcept_bind fun rec_ _ => keeps_ofExcept_bind fun nonce hnonce => keeps_throwIf_bind fun _ =>
        keeps_awaiting_bind fun good _ => keeps_throwIf_bind fun _ => keeps_ofExcept_bind fun sent _ =>
        keeps_ofExcept_bind fun at_ _ => keeps_ofExcept_bind fun since _ => keeps_throwIf_bind fun _ =>
        keeps_modify_bind (fun b hb => ?_) trivial
      obtain ⟨s, rfl⟩ := isRevoke_nonce (by simpa using shape) hnonce
      exact ⟨{ hb.1 with
        consumed := consumed_setAdd hb.1.consumed ⟨trivial, trivial⟩
        friends := hb.1.friends.delete }, hb.2.setAdd _⟩

theorem send_keeps {peer text uuid : JsString} {ephemeral : Bytes} {now at_ : Instant} :
    (send P me peer text uuid ephemeral now at_).Keeps (MemoryWF P) := by
  refine keeps_get_bind fun _ _ => keeps_ofExcept_bind fun friend _ => keeps_ofExcept_bind fun recipient _ =>
    keeps_awaiting_bind fun blob _ => keeps_get_bind fun m hm => keeps_ofExcept_bind fun msgs happend =>
    keeps_modify_bind (fun m' hm' => ?_) trivial
  obtain ⟨hseen, hlogs⟩ := append_ok happend
  exact { hm' with msgs := ⟨hlogs hm.msgs.logs (storedMessage_wf ..), hseen ▸ hm.msgs.seen⟩ }

theorem receiveMessage_keeps {body : Value} {now mark : Instant} :
    (receiveMessage P me body now mark).Keeps (MemoryWF P) := by
  refine keeps_get_bind fun _ _ => keeps_awaiting_bind fun verify _ => keeps_ofExcept_bind fun blob _ =>
    keeps_awaiting_bind fun payload _ => keeps_ofExcept_bind fun ts _ => keeps_ofExcept_bind fun id _ =>
    keeps_get_bind fun m hm => keeps_throwIf_bind fun _ => keeps_modify_bind (fun m' hm' => ?_) ?_
  · exact { hm' with msgs := markSeen_wf hm'.msgs id ts mark }
  · refine keeps_ofExcept_bind fun msg _ => keeps_yield_bind <| keeps_get_bind fun m₁ hm₁ =>
      keeps_ofExcept_bind fun msgs happend => keeps_modify_bind (fun m' hm' => ?_) trivial
    obtain ⟨hseen, hlogs⟩ := append_ok happend
    exact { hm' with msgs := ⟨hlogs hm₁.msgs.logs (storedMessage_wf ..), hseen ▸ hm₁.msgs.seen⟩ }

/-- What `open` leaves of the spent nonces: some of them, and perhaps the one of this canary. -/
theorem openStart_spent {cfg : GateConfig} {m : Memory} (hm : MemoryWF P m) (canary : Canary) (now : Instant) :
    MemoryWF P { m with spent := (m.gate.openStart cfg canary now).2.consumed } := by
  have hpruned : Gate.NumbersWF P (m.gate.prune cfg now).consumed := Gate.NumbersWF.prune hm.spent now
  have hfinite : ∀ k x, (m.gate.prune cfg now).consumed.get k = some x → Gate.isFinite x = true :=
    fun k x h => hm.finite k x (OrdMap.get_filter.mp h).1
  unfold Gate.openStart
  dsimp only
  split
  · exact { hm with spent := hpruned, finite := hfinite }
  · refine { hm with spent := hpruned.set (Gate.ofInt_wf P now), finite := fun k x h => ?_ }
    rw [OrdMap.get_set] at h
    split at h
    · obtain rfl := Option.some.inj h
      rfl
    · exact hfinite k x h

theorem openGate_keeps {blob : JsString} {at_ now : Instant} {outcome : Except Exn Value} :
    (openGate P ctx blob at_ now outcome).Keeps (MemoryWF P) := by
  refine keeps_awaiting_bind fun canary _ => keeps_get_bind fun m _ =>
    keeps_modify_bind (fun m' hm' => openStart_spent hm' canary now) ?_
  refine keeps_ofExcept_bind fun _ _ => ?_
  cases outcome <;> trivial

theorem Handler.keeps (h : Handler P) : (h.task P me ctx).Keeps (MemoryWF P) := by
  cases h with
  | friends c =>
      refine (Call.keeps c.2).zoom (fun m hm => ⟨hm.book, hm.consumed⟩) fun m b hm hb => ?_
      exact { hm with book := hb.1, consumed := hb.2 }
  | send peer text uuid ephemeral now at_ => exact send_keeps
  | inbound body now mark => exact receiveMessage_keeps
  | canary blob at_ now outcome => exact openGate_keeps

/-! ## Loading what was saved -/

theorem loadBook_saved {b : FriendBook} (h : BookWF P.toEngine b) :
    loadBook P (some (utf8Encode (stringify b.toJSON))) = .ok b.reloaded := reload_eq h

theorem stringify_reloaded {b : FriendBook} (h : BookWF P.toEngine b) (hset : SetLike b.consumed) :
    stringify b.reloaded.toJSON = stringify b.toJSON := by
  rw [stringify, stringify, (reloaded_wf h).jsonView_toJSON, h.jsonView_toJSON]
  show render quoteBody (.obj [(_, jsonView (.obj (b.offered.mapVal jsonView).entries)),
    (_, jsonView (.obj (b.pending.mapVal jsonView).entries)), (_, jsonView (.obj (b.friends.mapVal jsonView).entries)),
    (_, .arr (b.consumed.foldl setAdd []))]) = _
  rw [jsonView_mapVal h.offered, jsonView_mapVal h.pending, jsonView_mapVal h.friends, hset]

theorem loadMessages_saved {b : MessageBook} (h : MessageBookWF P.toEngine b) :
    loadMessages P (some (utf8Encode (stringify b.toJSON))) = .ok b.reloaded := MessageBook.reload_eq h

theorem stringify_messages_reloaded {E : Engine} {b : MessageBook} (h : MessageBookWF E b) :
    stringify b.reloaded.toJSON = stringify b.toJSON := by
  rw [stringify, stringify, MessageBook.jsonView_toJSON, MessageBook.jsonView_toJSON]
  show render quoteBody (.obj [(_, jsonView (.obj (ownOrder ((ownOrder b.logs).mapVal jsonView)).entries)),
    (_, jsonView (.obj (ownOrder ((ownOrder b.seen).mapVal jsonView)).entries))]) = _
  rw [ownOrder_mapVal, ownOrder_mapVal, jsonView_mapVal h.logs.ownOrder, jsonView_mapVal h.seen.ownOrder]

theorem boot_spent {m : Memory} (h : MemoryWF P m) : (Gate.boot P (some m.gate.saved)).consumed = m.spent := by
  rw [Gate.boot_saved (g := m.gate) h.spent]
  refine OrdMap.ext (List.filter_eq_self.mpr fun e he => ?_)
  exact h.finite e.1 e.2 (OrdMap.mem_entries_iff.mp he)

theorem MemoryWF.fresh (P : Platform) : MemoryWF P .fresh where
  book := .empty
  consumed := rfl
  msgs := ⟨.empty, .empty⟩
  spent := .empty P
  finite := fun k x h => by cases h

/-- **A boot** from files that were saved of well-formed states, each perhaps of another one or missing. -/
theorem boot_saved {disk : DataFile → Option Bytes}
    (h : ∀ f, disk f = none ∨ ∃ m, MemoryWF P m ∧ disk f = some (m.render f)) :
    ∃ m, Memory.boot P disk = .ok m ∧ MemoryWF P m ∧
      ∀ f, m.render f = (disk f).getD (Memory.fresh.render f) := by
  -- one file at a time, since each may be of another state
  obtain ⟨book, hbook, hbwf, hbset, hbtext⟩ : ∃ b, loadBook P (disk .friends) = .ok b ∧ BookWF P.toEngine b ∧
      SetLike b.consumed ∧ utf8Encode (stringify b.toJSON) = (disk .friends).getD (Memory.fresh.render .friends) := by
    rcases h .friends with hnone | ⟨m, hm, hsome⟩
    · rw [hnone]
      exact ⟨.empty, rfl, .empty, rfl, rfl⟩
    · rw [hsome]
      refine ⟨_, loadBook_saved hm.book, reloaded_wf hm.book, ?_, ?_⟩
      · show SetLike (m.book.consumed.foldl setAdd [])
        rw [hm.consumed]
        exact hm.consumed
      · rw [stringify_reloaded hm.book hm.consumed]
        rfl
  obtain ⟨msgs, hmsgs, hmwf, hmtext⟩ : ∃ b, loadMessages P (disk .messages) = .ok b ∧ MessageBookWF P.toEngine b ∧
      utf8Encode (stringify b.toJSON) = (disk .messages).getD (Memory.fresh.render .messages) := by
    rcases h .messages with hnone | ⟨m, hm, hsome⟩
    · rw [hnone]
      exact ⟨.empty, rfl, ⟨.empty, .empty⟩, rfl⟩
    · rw [hsome]
      refine ⟨_, loadMessages_saved hm.msgs, hm.msgs.reloaded, ?_⟩
      rw [stringify_messages_reloaded hm.msgs]
      rfl
  obtain ⟨spent, hspent, hnum, hfin, hgtext⟩ : ∃ spent, (Gate.boot P (disk .gate)).consumed = spent ∧
      Gate.NumbersWF P spent ∧ (∀ k x, spent.get k = some x → Gate.isFinite x = true) ∧
      Gate.saved { consumed := spent } = (disk .gate).getD (Memory.fresh.render .gate) := by
    rcases h .gate with hnone | ⟨m, hm, hsome⟩
    · rw [hnone]
      exact ⟨.empty, rfl, .empty P, fun k x h => (by cases h), rfl⟩
    · rw [hsome]
      exact ⟨m.spent, boot_spent hm, hm.spent, hm.finite, rfl⟩
  refine ⟨⟨book, msgs, spent⟩, ?_, ⟨hbwf, hbset, hmwf, hnum, hfin⟩, fun f => ?_⟩
  · exact bind_ok.mpr ⟨book, hbook, bind_ok.mpr ⟨msgs, hmsgs, by rw [hspent]; rfl⟩⟩
  · cases f with
    | friends => exact hbtext
    | messages => exact hmtext
    | gate => exact hgtext

theorem lawful (P : Platform) (me : Self) (ctx : Ctx) :
    Saving.Lawful (stateFiles P) (handlers P me ctx) (MemoryWF P) where
  order := by
    intro f
    cases f with
    | friends => exact List.mem_cons_self ..
    | messages => exact List.mem_cons_of_mem _ (List.mem_cons_self ..)
    | gate => exact List.mem_cons_of_mem _ (List.mem_cons_of_mem _ (List.mem_cons_self ..))
  fresh := .fresh P
  keeps := Handler.keeps
  boot := by
    intro disk h
    obtain ⟨m, hboot, hm, hsave⟩ := boot_saved h
    exact ⟨m, congrArg Except.toOption hboot, hm, hsave⟩

/-! ## When a restart gives back what is in memory -/

/-- The same books and the same spent nonces, as far as JSON tells: of a value that is stored the loaded book has
    what `JSON.stringify` prints of it, and of the order of a map what `Object.fromEntries` keeps. -/
structure SameState (m m' : Memory) : Prop where
  offered  : m.book.offered.mapVal jsonView = m'.book.offered.mapVal jsonView
  pending  : m.book.pending.mapVal jsonView = m'.book.pending.mapVal jsonView
  friends  : m.book.friends.mapVal jsonView = m'.book.friends.mapVal jsonView
  consumed : m.book.consumed = m'.book.consumed
  logs     : (ownOrder m.msgs.logs).mapVal jsonView = (ownOrder m'.msgs.logs).mapVal jsonView
  seen     : (ownOrder m.msgs.seen).mapVal jsonView = (ownOrder m'.msgs.seen).mapVal jsonView
  spent    : m.spent = m'.spent

/-- No friend is lost and none comes back. -/
theorem SameState.friend_iff {m m' : Memory} (h : SameState m m') (K : JsString) :
    (∃ r, m.book.friends.get K = some r) ↔ ∃ r, m'.book.friends.get K = some r := by
  have hget := congrArg (fun f => (f.get K).isSome) h.friends
  simp only [OrdMap.get_mapVal, Option.isSome_map] at hget
  rw [← Option.isSome_iff_exists, ← Option.isSome_iff_exists, hget]

theorem obj_view_iff {E : Engine} {m m' : OrdMap JsString Value} (h : MapWF E m) (h' : MapWF E m') :
    jsonView (.obj m.entries) = jsonView (.obj m'.entries) ↔ m.mapVal jsonView = m'.mapVal jsonView := by
  rw [jsonView, jsonView, jsonViewFields_eq_map fun e he => (h.mem e he).2,
    jsonViewFields_eq_map fun e he => (h'.mem e he).2, Value.obj.injEq]
  exact ⟨fun he => OrdMap.ext he, fun he => congrArg OrdMap.entries he⟩

theorem stringify_inj {E : Engine} {v w : Value} (hv : v.WF E) (hw : w.WF E) :
    utf8Encode (stringify v) = utf8Encode (stringify w) ↔ jsonView v = jsonView w := by
  constructor
  · intro h
    have hparse := parse_utf8 hv
    rw [h, parse_utf8 hw] at hparse
    exact (Option.some.inj hparse).symm
  · intro h
    rw [stringify, h, stringify]

/-- **Two states are the same exactly if they are saved the same.** -/
theorem sameState_iff {m m' : Memory} (h : MemoryWF P m) (h' : MemoryWF P m') :
    SameState m m' ↔ ∀ f, m.render f = m'.render f := by
  have hbook : m.render .friends = m'.render .friends ↔ (m.book.offered.mapVal jsonView = m'.book.offered.mapVal jsonView ∧
      m.book.pending.mapVal jsonView = m'.book.pending.mapVal jsonView ∧
      m.book.friends.mapVal jsonView = m'.book.friends.mapVal jsonView ∧ m.book.consumed = m'.book.consumed) := by
    rw [← obj_view_iff h.book.offered h'.book.offered, ← obj_view_iff h.book.pending h'.book.pending,
      ← obj_view_iff h.book.friends h'.book.friends]
    refine (stringify_inj h.book.toJSON_wf h'.book.toJSON_wf).trans ?_
    rw [h.book.jsonView_toJSON, h'.book.jsonView_toJSON]
    simp only [Value.obj.injEq, List.cons.injEq, Prod.mk.injEq, true_and, and_true, Value.arr.injEq]
  have hmsgs : m.render .messages = m'.render .messages ↔
      (ownOrder m.msgs.logs).mapVal jsonView = (ownOrder m'.msgs.logs).mapVal jsonView ∧
      (ownOrder m.msgs.seen).mapVal jsonView = (ownOrder m'.msgs.seen).mapVal jsonView := by
    rw [← obj_view_iff h.msgs.logs.ownOrder h'.msgs.logs.ownOrder,
      ← obj_view_iff h.msgs.seen.ownOrder h'.msgs.seen.ownOrder]
    refine (stringify_inj h.msgs.toJSON_wf h'.msgs.toJSON_wf).trans ?_
    rw [MessageBook.jsonView_toJSON, MessageBook.jsonView_toJSON]
    simp only [Value.obj.injEq, List.cons.injEq, Prod.mk.injEq, true_and, and_true]
  have hgate : m.render .gate = m'.render .gate ↔ m.spent = m'.spent := by
    constructor
    · intro htext
      rw [← boot_spent h, ← boot_spent h']
      exact congrArg (fun file => (Gate.boot P (some file)).consumed) htext
    · intro hspent
      show Gate.saved { consumed := m.spent } = Gate.saved { consumed := m'.spent }
      rw [hspent]
  constructor
  · intro hs f
    cases f with
    | friends => exact hbook.mpr ⟨hs.offered, hs.pending, hs.friends, hs.consumed⟩
    | messages => exact hmsgs.mpr ⟨hs.logs, hs.seen⟩
    | gate => exact hgate.mpr hs.spent
  · intro hf
    obtain ⟨h1, h2, h3, h4⟩ := hbook.mp (hf .friends)
    obtain ⟨h5, h6⟩ := hmsgs.mp (hf .messages)
    exact ⟨h1, h2, h3, h4, h5, h6, hgate.mp (hf .gate)⟩

abbrev DaemonState (P : Platform) : Type := Saving.State (Handler P) Memory DataFile Bytes Exn Value

/-- A restart would give back what is in memory. -/
def Restores (s : DaemonState P) : Prop :=
  ∃ m, Memory.boot P (fun f => (s.files f).content) = .ok m ∧ SameState m s.mem

theorem restores_iff {s : DaemonState P} (hs : Saving.Sound (stateFiles P) (MemoryWF P) s) :
    Restores s ↔ Saving.Durable (stateFiles P) s := by
  obtain ⟨m, hboot, hm, _⟩ := boot_saved fun f => (hs.files f).content
  have hload : (stateFiles P).boot (fun f => (s.files f).content) = some m := congrArg Except.toOption hboot
  constructor
  · rintro ⟨m', hboot', hsame⟩
    obtain rfl := Except.ok.inj (hboot.symm.trans hboot')
    exact ⟨m, hload, (sameState_iff hm hs.mem).mp hsame⟩
  · rintro ⟨m', hload', hsave⟩
    obtain rfl := Option.some.inj (hload.symm.trans hload')
    exact ⟨m, hboot, (sameState_iff hm hs.mem).mpr hsave⟩

/-- **State files at rest.** When every request has completed, a restart gives back what is in memory exactly if each
    file has the text of the last write of it that was called; and so it is if overlapping writes of one file take
    effect in the order of their calls. -/
theorem durable_iff (P : Platform) (me : Self) (ctx : Ctx) (tr : List (Saving.Label (Handler P) DataFile Bytes))
    (s : DaemonState P) (run : Run (Saving.Step (stateFiles P) (handlers P me ctx)) (stateFiles P).init tr s)
    (idle : s.running = []) :
    (Restores s ↔ Saving.LastCalled s) ∧
      (Run (Where (Saving.Step (stateFiles P) (handlers P me ctx)) Saving.InOrder) (stateFiles P).init tr s →
        Restores s) := by
  have hsound := Saving.sound_of_run (lawful P me ctx) run
  have hiff := (restores_iff hsound).trans (Saving.idle_iff (lawful P me ctx) run idle)
  exact ⟨hiff, fun ordered => hiff.mpr (Saving.in_order (lawful P me ctx) ordered idle)⟩

/-! ## A friend that a restart loses -/

/-- A commit of the friend book, as a request that goes on to save. -/
theorem friends_run {c : BookCall P} {m : Memory} {b' : FriendBook} {v : Value}
    (h : Commit P me c.1 m.book m.book (.ok v) b') :
    ((handlers P me ctx).task (.friends c)).run m = (.ok v, m.setBook b') := by
  have hrun : (BookCall.task P me c).run m.book = (.ok v, b') := h.run
  have hzoom := @run_zoom FriendBook Memory Exn Value Memory.book Memory.setBook (BookCall.task P me c) m
    (fun _ _ => rfl) (fun _ _ _ => rfl) fun _ => rfl
  rw [hrun] at hzoom
  exact hzoom

namespace Symbolic

/-- Node 2 with no admin. -/
theorem freshness_pos : (0 : ℚ) < 120 := by norm_num

theorem duration_pos : (0 : ℚ) < 900 := by norm_num

def context : Ctx := ⟨identity 2, fun _ => none, js "open", ⟨120, freshness_pos⟩, ⟨900, duration_pos⟩⟩

/-- Node 2 receives node 1's token. -/
def receiving : Handler platform := .friends ⟨.receive (invite 1 [7]) epoch, invite_wf⟩

/-- Node 2 accepts node 1's request. -/
def accepting : Handler platform := .friends ⟨.accept (toHex [1]) [] epoch, trivial⟩

theorem receiving_run : ((handlers platform (node 2) context).task receiving).run .fresh
    = (.ok (peerPubOf platform (node 1)), Memory.fresh.setBook requested) := friends_run invite_received

theorem accepting_run :
    ((handlers platform (node 2) context).task accepting).run (Memory.fresh.setBook requested)
    = (.ok (.str reply), Memory.fresh.setBook befriended) := friends_run invite_accepted

/-- Node 1's request comes in, its first write is called, and the request is accepted while that write is under way. -/
theorem overlapping {ok : DaemonState platform → Saving.Label (Handler platform) DataFile Bytes → Prop}
    (hok : Saving.Admits ok) : ∃ tr tr' fs w,
    Run (Where (Saving.Step (stateFiles platform) (handlers platform (node 2) context)) ok) (stateFiles platform).init
        ([] ++ .start receiving :: tr ++ [.call receiving .friends] ++ .start accepting :: tr')
        ⟨Memory.fresh.setBook befriended, fs,
          [(accepting, .saving (stateFiles platform).order), (receiving, .writing .friends w [.messages, .gate])]⟩ ∧
      Saving.Counted fs ∧ (fs .friends).landed < w.number ∧ w.number ≤ (fs .friends).called ∧
      w.text = (Memory.fresh.setBook requested).render .friends ∧ MemoryWF platform (Memory.fresh.setBook requested) := by
  have hinit : Run (Where (Saving.Step (stateFiles platform) (handlers platform (node 2) context)) ok)
    (stateFiles platform).init [] (stateFiles platform).init := .nil
  obtain ⟨tr, received⟩ := Saving.work_alone hok (c := receiving) hinit receiving_run rfl
  have called := received.snoc ⟨.call _ _ receiving DataFile.friends [.messages, .gate] [] [],
    hok.quiet _ _ fun _ _ _ h => by cases h⟩
  obtain ⟨tr', accepted⟩ := Saving.work_alone hok (c := accepting) called accepting_run rfl
  have hwf := (Saving.sound_of_run (lawful platform (node 2) context) received.of_where).mem
  have hcounted : Saving.Counted ((stateFiles platform).found (fun _ => none) (stateFiles platform).fresh) := .found _ _ _
  refine ⟨tr, tr', _, _, accepted, hcounted.call _ _, ?_, ?_, rfl, hwf⟩
  · rw [Function.update_self]
    exact Nat.lt_succ_of_le (hcounted .friends)
  · rw [Function.update_self]
    exact le_rfl

/-- That write takes effect before the next one is called, and a restart finds the friend. -/
theorem receiving_durable : ∃ pre post s,
    Run (Where (Saving.Step (stateFiles platform) (handlers platform (node 2) context)) Saving.InOrder)
        (stateFiles platform).init (pre ++ .start accepting :: post) s ∧
      .start receiving ∈ pre ∧ .done receiving ∈ post ∧ s.mem = Memory.fresh.setBook befriended ∧ s.running = [] ∧
      Restores s := by
  obtain ⟨tr, tr', fs, w, accepted, hfs, hlater, hnumber, _⟩ := overlapping Saving.admits_inOrder
  have landed := accepted.snoc ⟨.land _ fs receiving DataFile.friends w [.messages, .gate] [(accepting, _)] [],
    .inl hlater⟩
  obtain ⟨tr₁, fs₁, saved, hfs₁, _⟩ := Saving.save_alone (l := []) Saving.admits_inOrder (hfs.land hnumber) landed
  obtain ⟨tr₂, fs₂, done, _⟩ := Saving.save_alone (l := []) (r := []) Saving.admits_inOrder hfs₁ saved
  have htrace : [] ++ .start receiving :: tr ++ [.call receiving .friends] ++ .start accepting :: tr'
        ++ [.land receiving .friends w] ++ tr₁ ++ [.done accepting] ++ tr₂ ++ [.done receiving]
      = (.start receiving :: tr ++ [.call receiving .friends]) ++
        .start accepting :: (tr' ++ .land receiving .friends w :: tr₁ ++ .done accepting :: tr₂ ++ [.done receiving]) := by
    simp
  rw [htrace] at done
  refine ⟨_, _, _, done, ?_, ?_, rfl, rfl, (durable_iff platform (node 2) context _ _ done.of_where rfl).2 done⟩
  · simp
  · simp

/-- It takes effect after the write of the accept. -/
theorem friend_lost : ∃ tr s,
    Run (Saving.Step (stateFiles platform) (handlers platform (node 2) context)) (stateFiles platform).init tr s ∧
      s.running = [] ∧ ¬Restores s := by
  obtain ⟨_, _, fs₀, w, accepted, hfs₀, _, hnumber, htext, hwf⟩ := overlapping Saving.admits_all
  obtain ⟨_, fs, saved, hfs, hcalled, _⟩ := Saving.save_alone (l := []) Saving.admits_all hfs₀ accepted
  have landed := saved.snoc ⟨.land _ fs receiving DataFile.friends w [.messages, .gate] [] [], trivial⟩
  have hstill : w.number ≤ (fs .friends).called := hnumber.trans (hcalled .friends)
  obtain ⟨_, fs', done, _, _, hother⟩ := Saving.save_alone (l := []) Saving.admits_all (hfs.land hstill) landed
  refine ⟨_, _, done.of_where, rfl, ?_⟩
  rintro ⟨m, hboot, hsame⟩
  have hfile : (fs' .friends).content = some ((Memory.fresh.setBook requested).render .friends) := by
    rw [hother .friends (by decide), Function.update_self, ← htext]
    rfl
  -- the file has the book before the accept
  obtain ⟨book, hbook, hboot⟩ := bind_ok.mp hboot
  obtain ⟨msgs, _, hboot⟩ := bind_ok.mp hboot
  obtain rfl := Except.ok.inj hboot
  have hload : loadBook platform (fs' .friends).content = .ok requested.reloaded := by
    rw [hfile]
    exact loadBook_saved hwf.book
  obtain rfl := Except.ok.inj (hbook.symm.trans hload)
  obtain ⟨r, hr⟩ := (hsame.friend_iff (toHex [1])).mpr ⟨_, OrdMap.get_set_self ..⟩
  cases hr

end Symbolic

end Island
end VpnPi
