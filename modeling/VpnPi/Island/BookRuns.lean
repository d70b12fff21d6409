import VpnPi.Island.FriendSteps

/-!
# `Island.BookRuns` — one book over a daemon's lifetime, restarts included

`BookStep` runs one call at a time to its end, or saves the book and loads it back. What a save loses is what
`JSON.stringify` does not print, and a book built by the operations holds nothing of the kind where it
matters: `reload_eq` computes the reloaded book, and `BookWF` is the invariant that makes it apply.
-/

namespace VpnPi
namespace Island

open Js Async Task Value

variable (P : Platform) (me : Self)

/-! ## Runs -/

/-- The request bodies are JSON values. -/
def Call.WF (E : Engine) : Call → Prop
  | receive token _ => token.WF E
  | receiveRevoke notice _ => notice.WF E
  | _ => True

inductive BookEvent where
  | call (c : Call) (before : FriendBook) (r : Except Exn Value)
  | reload

inductive BookStep : FriendBook → BookEvent → FriendBook → Prop
  | call {c : Call} {b b' : FriendBook} {r : Except Exn Value} (wf : c.WF P.toEngine)
      (h : (c.task P me).run b = (r, b')) : BookStep b (.call c b r) b'
  | reload {b b' : FriendBook} (h : b.reload P = .ok b') : BookStep b .reload b'

variable {P me}

theorem BookStep.of_commit {c : Call} {b b' : FriendBook} {r : Except Exn Value}
    (wf : c.WF P.toEngine) (h : Commit P me c b b r b') : BookStep P me b (.call c b r) b' :=
  .call wf h.run

theorem run_commit {tr : List BookEvent} {c : Call} {b b' : FriendBook} {r : Except Exn Value}
    (run : Run (BookStep P me) .empty tr b) (h : Commit P me c b b r b') (wf : c.WF P.toEngine) :
    Run (BookStep P me) .empty (tr ++ [.call c b r]) b' := run.snoc (.of_commit wf h)

/-! ## What a save preserves -/

theorem lookup_jsonViewFields {es : List (JsString × Value)} {k : JsString} {w : Value}
    (h : es.lookup k = some w) (hne : w ≠ .undefined) :
    (jsonViewFields es).lookup k = some (jsonView w) := by
  induction es with
  | nil => cases h
  | cons e es ih =>
      obtain ⟨k', v⟩ := e
      rw [OrdMap.lookup_cons_if] at h
      rw [jsonViewFields]
      split at h
      · next hk =>
          cases h
          rw [if_neg hne, OrdMap.lookup_cons_if, if_pos hk]
      · next hk =>
          split
          · exact ih h
          · rw [OrdMap.lookup_cons_if, if_neg hk]
            exact ih h

/-- A property that prints is still there. -/
theorem prop_jsonView {v w : Value} {k : JsString} (h : prop v k = .ok w) (hne : w ≠ .undefined) :
    prop (jsonView v) k = .ok (jsonView w) := by
  rw [prop_ok] at h ⊢
  cases v with
  | undefined => cases h
  | null => cases h
  | obj es =>
      have hget : (es.lookup k).getD .undefined = w := Option.some.inj h
      cases hl : es.lookup k with
      | none => rw [hl] at hget; exact absurd hget.symm hne
      | some u =>
          rw [hl] at hget
          obtain rfl : u = w := hget
          show some (((jsonViewFields es).lookup k).getD .undefined) = _
          rw [lookup_jsonViewFields hl hne]
          rfl
  | bool b => cases h; exact absurd rfl hne
  | num x => cases h; exact absurd rfl hne
  | str s => cases h; exact absurd rfl hne
  | arr xs => cases h; exact absurd rfl hne

theorem plain_ne_undefined {v : Value} (h : Plain v) : v ≠ .undefined := by
  rintro rfl
  exact h

/-- A property that prints as itself survives as it is. -/
theorem prop_jsonView_plain {v w : Value} {k : JsString} (h : prop v k = .ok w) (hw : Plain w) :
    prop (jsonView v) k = .ok w := by
  rw [prop_jsonView h (plain_ne_undefined hw), jsonView_of_plain w hw]

/-- The signed fields of a peer print as they are. -/
theorem peerPubJson_view {p view : Value} (h : peerPubJson p = .ok view) (hp : Plain view) :
    peerPubJson (jsonView p) = .ok view := by
  obtain ⟨_, _, _, _, h1, h2, h3, h4, rfl⟩ := peerPubJson_ok h
  have hf : PlainFields _ := hp
  rw [peerPubJson, prop_jsonView_plain h1 hf.1, prop_jsonView_plain h2 hf.2.1,
    prop_jsonView_plain h3 hf.2.2.1, prop_jsonView_plain h4 hf.2.2.2.1]
  rfl

/-! ## Well-formed books -/

/-- A value a map of the book may hold: the engine's, and not `undefined`. -/
def Stored (E : Engine) (v : Value) : Prop := v.WF E ∧ v ≠ .undefined

/-- Every value in a map. -/
def MapWF (E : Engine) (m : OrdMap JsString Value) : Prop := ∀ k v, m.get k = some v → Stored E v

structure BookWF (E : Engine) (b : FriendBook) : Prop where
  offered  : MapWF E b.offered
  pending  : MapWF E b.pending
  friends  : MapWF E b.friends
  consumed : ∀ v ∈ b.consumed, v.WF E ∧ Plain v

variable {E : Engine}

theorem MapWF.empty : MapWF E .empty := nofun

theorem MapWF.set {m : OrdMap JsString Value} {k : JsString} {v : Value} (h : MapWF E m)
    (hv : Stored E v) : MapWF E (m.set k v) := by
  intro k' v' hget
  rw [OrdMap.get_set] at hget
  split at hget
  · cases hget; exact hv
  · exact h k' v' hget

theorem MapWF.delete {m : OrdMap JsString Value} {k : JsString} (h : MapWF E m) :
    MapWF E (m.delete k) := fun k' v' hget => h k' v' (OrdMap.get_of_get_delete hget)

theorem MapWF.mapVal {m : OrdMap JsString Value} (h : MapWF E m) : MapWF E (m.mapVal jsonView) := by
  intro k v hget
  rw [OrdMap.get_mapVal] at hget
  obtain ⟨u, hu, rfl⟩ := Option.map_eq_some_iff.mp hget
  exact ⟨WF.jsonView u (h k u hu).1, plain_ne_undefined (jsonView_plain u)⟩

theorem BookWF.empty : BookWF E .empty := ⟨.empty, .empty, .empty, nofun⟩

theorem mem_setAdd {s : List Value} {v w : Value} : w ∈ setAdd s v → w ∈ s ∨ w = v := by
  intro h
  unfold setAdd at h
  split at h
  · exact Or.inl h
  · exact (List.mem_append.mp h).imp id List.mem_singleton.mp

theorem setHas_iff {s : List Value} {v : Value} : setHas s v = true ↔ v.isPrimitive = true ∧ v ∈ s := by
  rw [setHas, Bool.and_eq_true, decide_eq_true_eq]

theorem mem_setAdd_self (s : List Value) (v : Value) : v ∈ setAdd s v := by
  unfold setAdd
  split
  · next h => exact (setHas_iff.mp h).2
  · exact List.mem_append_right _ (List.mem_singleton_self v)

theorem mem_setAdd_of_mem {s : List Value} {w : Value} (v : Value) (h : w ∈ s) : w ∈ setAdd s v := by
  unfold setAdd
  split
  · exact h
  · exact List.mem_append_left _ h

theorem mem_foldl_setAdd {xs s : List Value} {w : Value} :
    w ∈ xs.foldl setAdd s ↔ w ∈ s ∨ w ∈ xs := by
  induction xs generalizing s with
  | nil => simp
  | cons x xs ih =>
      rw [List.foldl_cons, ih, List.mem_cons]
      constructor
      · rintro (h | h)
        · rcases mem_setAdd h with h | rfl
          · exact Or.inl h
          · exact Or.inr (Or.inl rfl)
        · exact Or.inr (Or.inr h)
      · rintro (h | rfl | h)
        · exact Or.inl (mem_setAdd_of_mem x h)
        · exact Or.inl (mem_setAdd_self s w)
        · exact Or.inr h

/-! ## What the operations store is well formed -/

theorem pendingEntry_stored {token : Value} {now : Instant} (h : token.WF P.toEngine) :
    Stored P.toEngine (pendingEntry P token now) :=
  ⟨⟨show [js "token", js "received"].Nodup by decide, h, trivial, trivial⟩, nofun⟩

theorem friendRecord_stored {peer nonce : Value} {since : Instant} (hp : peer.WF P.toEngine)
    (hn : nonce.WF P.toEngine) : Stored P.toEngine (friendRecord P peer nonce since) :=
  ⟨⟨show [js "peer", js "state", js "nonce", js "since"].Nodup by decide, hp, trivial, hn, trivial,
    trivial⟩, nofun⟩

theorem makeToken_stored {ttlSeconds : ℚ} {random : Bytes} {now : Instant} {token : Value}
    (h : makeToken P me ttlSeconds random now = .ok token) : Stored P.toEngine token := by
  refine ⟨makeToken_wf h, ?_⟩
  obtain ⟨expires, m, _, _, rfl⟩ := makeToken_ok h
  exact nofun

theorem openAccept_wf {blob : JsString} {a : Value} (h : openAccept P me blob = .ok a) :
    a.WF P.toEngine := by
  obtain ⟨⟨inner, _, hparse⟩, _⟩ := openAccept_ok h
  exact parse_wf hparse

/-- The nonce of a notice is a string. -/
theorem isRevoke_nonce {n nonce : Value} (h : isRevoke n = true) (hn : prop n (js "nonce") = .ok nonce) :
    ∃ s, nonce = .str s := by
  have hall := (Bool.and_eq_true_iff.mp h).2
  have hstr := List.all_eq_true.mp hall (js "nonce") (by decide)
  rw [prop_ok.mp hn] at hstr
  cases nonce with
  | str s => exact ⟨s, rfl⟩
  | _ => cases hstr

theorem consumed_setAdd {s : List Value} {v : Value} (h : ∀ w ∈ s, w.WF E ∧ Plain w)
    (hv : v.WF E ∧ Plain v) : ∀ w ∈ setAdd s v, w.WF E ∧ Plain w := by
  intro w hw
  rcases mem_setAdd hw with hw | rfl
  · exact h w hw
  · exact hv

/-- **A commit keeps the book well formed.** -/
theorem Commit.wf {c : Call} {seen b b' : FriendBook} {r : Except Exn Value}
    (h : Commit P me c seen b r b') (hc : c.WF P.toEngine) (hseen : BookWF P.toEngine seen)
    (hb : BookWF P.toEngine b) : BookWF P.toEngine b' := by
  cases h with
  | issueToken minted => exact { hb with offered := hb.offered.set (makeToken_stored minted) }
  | receive verified hnonce unused hkey other =>
      exact { hb with pending := hb.pending.set (pendingEntry_stored hc) }
  | accept hp htoken fresh sealed hnonce hpeer =>
      have htw := prop_wf (hseen.pending _ _ hp).1 htoken
      have hnw := prop_wf htw hnonce
      exact { hb with
        pending := hb.pending.delete
        consumed := consumed_setAdd hb.consumed ⟨hnw, makeAccept_nonce_plain sealed hnonce⟩
        friends := hb.friends.set (friendRecord_stored (prop_wf htw hpeer) hnw) }
  | confirm opened href hoffer unused fresh hpeer hkey =>
      have haw := openAccept_wf opened
      exact { hb with
        offered := hb.offered.delete
        consumed := consumed_setAdd hb.consumed ⟨trivial, trivial⟩
        friends := hb.friends.set (friendRecord_stored (prop_wf haw hpeer) (prop_wf haw href)) }
  | revoke peer => exact { hb with friends := hb.friends.delete }
  | issueRevokeNone hrec => exact hb
  | issueRevoke hrec signed => exact { hb with friends := hb.friends.delete }
  | receiveRevoke shape htarget hpeer hrec hnonce unused verified hat hsince current =>
      obtain ⟨s, rfl⟩ := isRevoke_nonce shape hnonce
      exact { hb with
        consumed := consumed_setAdd hb.consumed ⟨trivial, trivial⟩
        friends := hb.friends.delete }

/-! ## Reloading -/

/-- What the saved file holds of a book. -/
def FriendBook.reloaded (b : FriendBook) : FriendBook :=
  ⟨b.offered.mapVal jsonView, b.pending.mapVal jsonView, b.friends.mapVal jsonView,
    b.consumed.foldl setAdd []⟩

theorem jsonViewFields_eq_map {es : List (JsString × Value)} (h : ∀ e ∈ es, e.2 ≠ .undefined) :
    jsonViewFields es = es.map fun e => (e.1, jsonView e.2) := by
  induction es with
  | nil => rfl
  | cons e es ih =>
      obtain ⟨he, hes⟩ := List.forall_mem_cons.mp h
      rw [jsonViewFields, if_neg he, ih hes, List.map_cons]

theorem jsonViewList_eq_self {xs : List Value} (h : ∀ x ∈ xs, Plain x) : jsonViewList xs = xs := by
  induction xs with
  | nil => rfl
  | cons x xs ih =>
      obtain ⟨hx, hxs⟩ := List.forall_mem_cons.mp h
      rw [jsonViewList, jsonView_of_plain x hx, ih hxs]

theorem wfList_iff {xs : List Value} : WFList E xs ↔ ∀ x ∈ xs, WF E x := by
  induction xs with
  | nil => simp [WFList]
  | cons x xs ih => rw [WFList, ih, List.forall_mem_cons]

theorem MapWF.mem {m : OrdMap JsString Value} (h : MapWF E m) : ∀ e ∈ m.entries, Stored E e.2 :=
  fun e he => h e.1 e.2 (OrdMap.mem_entries_iff.mp he)

theorem MapWF.obj_wf {m : OrdMap JsString Value} (h : MapWF E m) : WF E (.obj m.entries) :=
  ⟨m.nodup, wfFields_iff.mpr fun e he => (h.mem e he).1⟩

theorem BookWF.toJSON_wf {b : FriendBook} (h : BookWF E b) : WF E b.toJSON :=
  ⟨show [js "offered", js "pending", js "friends", js "consumed"].Nodup by decide, h.offered.obj_wf,
    h.pending.obj_wf, h.friends.obj_wf, wfList_iff.mpr fun v hv => (h.consumed v hv).1, trivial⟩

theorem mapOf_view {m : OrdMap JsString Value} (h : MapWF E m) :
    mapOf (orElse (jsonView (.obj m.entries)) (.obj [])) = m.mapVal jsonView := by
  show OrdMap.ofEntries (jsonViewFields m.entries) = _
  rw [jsonViewFields_eq_map fun e he => (h.mem e he).2]
  exact OrdMap.ofEntries_entries (m.mapVal jsonView)

theorem BookWF.jsonView_toJSON {b : FriendBook} (h : BookWF E b) :
    jsonView b.toJSON = .obj [(js "offered", jsonView (.obj b.offered.entries)),
      (js "pending", jsonView (.obj b.pending.entries)), (js "friends", jsonView (.obj b.friends.entries)),
      (js "consumed", .arr b.consumed)] := by
  rw [FriendBook.toJSON, jsonView, jsonViewFields_eq_map]
  · rw [List.map_cons, List.map_cons, List.map_cons, List.map_cons, List.map_nil]
    rw [show jsonView (.arr b.consumed) = .arr b.consumed by
      rw [jsonView, jsonViewList_eq_self fun v hv => (h.consumed v hv).2]]
  · intro e he
    simp only [List.mem_cons, List.not_mem_nil, or_false] at he
    rcases he with rfl | rfl | rfl | rfl <;> exact nofun

/-- **A well-formed book reloads**, to what `JSON.stringify` printed of it. -/
theorem reload_eq {b : FriendBook} (h : BookWF P.toEngine b) : b.reload P = .ok b.reloaded := by
  rw [FriendBook.reload, parse_utf8 h.toJSON_wf, h.jsonView_toJSON]
  show Except.ok (FriendBook.mk (mapOf (orElse (jsonView (.obj b.offered.entries)) (.obj [])))
    (mapOf (orElse (jsonView (.obj b.pending.entries)) (.obj [])))
    (mapOf (orElse (jsonView (.obj b.friends.entries)) (.obj []))) _) = _
  rw [mapOf_view h.offered, mapOf_view h.pending, mapOf_view h.friends]
  rfl

/-- Saving twice prints the same. -/
theorem jsonView_mapVal {m : OrdMap JsString Value} (h : MapWF E m) :
    jsonView (.obj (m.mapVal jsonView).entries) = jsonView (.obj m.entries) := by
  rw [jsonView, jsonView, jsonViewFields_eq_map fun e he => (h.mapVal.mem e he).2,
    jsonViewFields_eq_map fun e he => (h.mem e he).2]
  show Value.obj ((m.entries.map fun e => (e.1, jsonView e.2)).map fun e => (e.1, jsonView e.2)) = _
  rw [List.map_map]
  refine congrArg Value.obj (List.map_congr_left fun e _ => ?_)
  show (e.1, jsonView (jsonView e.2)) = (e.1, jsonView e.2)
  rw [jsonView_of_plain _ (jsonView_plain e.2)]

theorem reloaded_wf {b : FriendBook} (h : BookWF E b) : BookWF E b.reloaded where
  offered := h.offered.mapVal
  pending := h.pending.mapVal
  friends := h.friends.mapVal
  consumed := fun v hv => h.consumed v ((mem_foldl_setAdd.mp hv).resolve_left List.not_mem_nil)

/-! ## Every book of a run is well formed -/

theorem BookStep.wf {b b' : FriendBook} {e : BookEvent} (h : BookStep P me b e b')
    (hb : BookWF P.toEngine b) : BookWF P.toEngine b' := by
  cases h with
  | call wf hrun =>
      rcases run_cases hrun with ⟨_, _, rfl⟩ | hc
      · exact hb
      · exact hc.wf wf hb hb
  | reload hload =>
      rw [reload_eq hb] at hload
      obtain rfl := Except.ok.inj hload
      exact reloaded_wf hb

theorem bookWF_of_run {tr : List BookEvent} {b : FriendBook} (run : Run (BookStep P me) .empty tr b) :
    BookWF P.toEngine b :=
  run.invariant (I := fun _ b => BookWF P.toEngine b) .empty fun _ _ _ _ _ ih h => h.wf ih

end Island
end VpnPi
