import VpnPi.Island.BookRuns
import VpnPi.Island.Symbolic

/-!
# `Island.PeerKeys` — how many records one identity key can have

The maps of a book compare key texts, `verify` compares what the texts decode to, and `fromB64` trims first. So
two texts can name one key, and a book may hold a friend under each (`spaced_record_kept`). `OneRecord` is the
intended invariant and `NewSpelling` what keeps it: the text a friend is stored under differs from the node's own
and from every other stored text even after trimming (`one_record_iff`).

The runs interleave calls at their suspensions, and a restart may come between any two segments.
-/

namespace VpnPi
namespace Island

open Js Async Pool

variable (P : Platform) (me : Self)

/-! ## A daemon's book, calls interleaved and restarts included -/

/-- A call whose request body is a JSON value. -/
def BookCall : Type := {c : Call // c.WF P.toEngine}

def BookCall.task (c : BookCall P) : Task FriendBook Exn Value := c.1.task P me

abbrev BookPool : Type := Pool (BookCall P) FriendBook Exn Value

inductive LifeEvent where
  | call (l : Label (BookCall P) FriendBook Exn Value)
  | reload

/-- A restart loads what was saved of the book, and the calls under way are gone. -/
inductive LifeStep : BookPool P → LifeEvent P → BookPool P → Prop
  | call {p p' : BookPool P} {l : Label (BookCall P) FriendBook Exn Value}
      (h : Step (BookCall.task P me) p l p') : LifeStep p (.call l) p'
  | reload {b b' : FriendBook} (running : List (Slot (BookCall P) FriendBook Exn Value))
      (h : b.reload P = .ok b') : LifeStep ⟨b, running⟩ .reload ⟨b', []⟩

variable {P me}

theorem rest_val {c : BookCall P} {seen : FriendBook} {x : Task FriendBook Exn Value}
    (h : Rest (BookCall.task P me) c seen x) : Rest (Call.task P me) c.1 seen x := by
  induction h with
  | start s => exact .start s
  | next _ hs ih => exact .next ih hs

theorem requests_read : ReadsOnly (BookCall.task P me) := fun h hs => reads (rest_val h) hs

theorem lift_pool {p₀ p q : BookPool P} {tr : List (LifeEvent P)}
    {tr' : List (Label (BookCall P) FriendBook Exn Value)} (run : Run (LifeStep P me) p₀ tr p)
    (run' : Run (Step (BookCall.task P me)) p tr' q) : Run (LifeStep P me) p₀ (tr ++ tr'.map .call) q := by
  induction run' with
  | nil => rwa [List.map_nil, List.append_nil]
  | snoc _ h ih =>
      rw [List.map_append, ← List.append_assoc]
      exact ih.snoc (.call h)

/-- A call may run alone: it starts, is suspended and finishes. -/
theorem life_called {c : Call} {p₀ : BookPool P} {b b' : FriendBook} {r : Except Exn Value} {tr : List (LifeEvent P)}
    (run : Run (LifeStep P me) p₀ tr ⟨b, []⟩) (wf : c.WF P.toEngine) (h : Commit P me c b b r b') :
    ∃ ls : List (Label (BookCall P) FriendBook Exn Value), (∀ l ∈ ls, l = .start ⟨c, wf⟩ ∨ l = .suspend ⟨c, wf⟩) ∧
      Run (LifeStep P me) p₀ (tr ++ (ls ++ [(.finish ⟨c, wf⟩ b b r : Label (BookCall P) FriendBook Exn Value)]).map .call) ⟨b', []⟩ := by
  have hrun : (BookCall.task P me ⟨c, wf⟩).run b = (r, b') := h.run
  obtain ⟨ls, hls, alone⟩ := run_alone_trace requests_read hrun
  exact ⟨ls, hls, lift_pool run alone⟩

theorem life_alone {c : Call} {b b' : FriendBook} {r : Except Exn Value} {tr : List (LifeEvent P)}
    (run : Run (LifeStep P me) ⟨.empty, []⟩ tr ⟨b, []⟩) (wf : c.WF P.toEngine) (h : Commit P me c b b r b') :
    ∃ tr', Run (LifeStep P me) ⟨.empty, []⟩ tr' ⟨b', []⟩ := by
  obtain ⟨_, _, run'⟩ := life_called run wf h
  exact ⟨_, run'⟩

/-- What holds of the calls that are started. -/
def LifeEvent.Starts (Q : BookCall P → Prop) : LifeEvent P → Prop
  | .call l => l.Starts Q
  | .reload => True

/-- An invariant of the book that commits and restarts keep. -/
theorem LifeStep.holds {Q : BookCall P → Prop} {I : FriendBook → Prop}
    (hcommit : ∀ c seen b r b', Commit P me c.1 seen b r b' → Q c → I seen → I b → I b')
    (hreload : ∀ b b', b.reload P = .ok b' → I b → I b') {p p' : BookPool P} {e : LifeEvent P} (h : LifeStep P me p e p')
    (hstart : e.Starts Q) (hp : Holds (BookCall.task P me) Q I p) : Holds (BookCall.task P me) Q I p' := by
  cases h with
  | reload running hload => exact ⟨hreload _ _ hload hp.state, List.forall_mem_nil _⟩
  | call h =>
      refine h.holds (fun c seen b b' x o _ hrest hq hseen hb hs => ?_) hstart hp
      have hstage := stage_of_rest (rest_val hrest)
      cases o with
      | suspended y =>
          obtain ⟨rfl, _⟩ := hstage.suspend hs
          exact hb
      | done r =>
          rcases hstage.done hs with ⟨_, _, rfl⟩ | hc
          · exact hb
          · exact hcommit c seen b r b' hc hq hseen hb

theorem life_holds {Q : BookCall P → Prop} {I : FriendBook → Prop} (h0 : I .empty)
    (hcommit : ∀ c seen b r b', Commit P me c.1 seen b r b' → Q c → I seen → I b → I b')
    (hreload : ∀ b b', b.reload P = .ok b' → I b → I b') {tr : List (LifeEvent P)} {p : BookPool P}
    (run : Run (LifeStep P me) ⟨.empty, []⟩ tr p) (hstarts : ∀ e ∈ tr, e.Starts Q) :
    Holds (BookCall.task P me) Q I p := by
  refine run.invariant (I := fun tr p => (∀ e ∈ tr, e.Starts Q) → Holds (BookCall.task P me) Q I p) ?_ ?_ hstarts
  · exact fun _ => ⟨h0, List.forall_mem_nil _⟩
  · intro tr p e p' _ ih h hall
    obtain ⟨htr, he⟩ := List.forall_mem_append.mp hall
    exact h.holds hcommit hreload (he e (List.mem_singleton_self e)) (ih htr)

/-! ## The keys of a book -/

/-- `K` is the text of a key, and the peer's own text for it. -/
structure KeyOf (P : Platform) (K : JsString) (peer : Value) : Prop where
  own     : prop peer (js "ed25519") = .ok (.str K)
  decodes : ∃ pk, fromB64 P (.str K) = .ok pk

/-- Every entry of the two maps stands under its peer's own text. -/
structure Keyed (P : Platform) (b : FriendBook) : Prop where
  pending : ∀ K p, b.pending.get K = some p → ∃ token peer, prop p (js "token") = .ok token ∧
    prop token (js "from") = .ok peer ∧ KeyOf P K peer
  friends : ∀ K rec_, b.friends.get K = some rec_ → ∃ peer, prop rec_ (js "peer") = .ok peer ∧ KeyOf P K peer

theorem Keyed.empty : Keyed P .empty where
  pending := fun K p h => by cases h
  friends := fun K rec_ h => by cases h

theorem KeyOf.of_verified {view sig peer : Value} {K : JsString} (hkey : prop peer (js "ed25519") = .ok (.str K))
    (h : Verified P view sig (.str K)) : KeyOf P K peer := by
  obtain ⟨_, _, pk, _, _, hpk, _⟩ := h.ok
  exact ⟨hkey, pk, hpk⟩

theorem keyOf_of_verifyToken {token peer : Value} {now : Instant} {K : JsString}
    (h : verifyToken P token now = .ok peer) (hkey : prop peer (js "ed25519") = .ok (.str K)) : KeyOf P K peer := by
  obtain ⟨_, _, view, sig, pub, _, _, hpub, hv⟩ := verifyToken_ok h
  obtain rfl := Except.ok.inj (hkey.symm.trans hpub)
  exact .of_verified hkey hv

theorem keyOf_of_openAccept {blob K : JsString} {a peer : Value} (h : openAccept P me blob = .ok a)
    (hpeer : prop a (js "from") = .ok peer) (hkey : prop peer (js "ed25519") = .ok (.str K)) : KeyOf P K peer := by
  obtain ⟨_, view, sig, peer', pub, _, _, hpeer', hpub, hv⟩ := openAccept_ok h
  obtain rfl := Except.ok.inj (hpeer.symm.trans hpeer')
  obtain rfl := Except.ok.inj (hkey.symm.trans hpub)
  exact .of_verified hkey hv

theorem KeyOf.view {K : JsString} {peer : Value} (h : KeyOf P K peer) : KeyOf P K (jsonView peer) :=
  ⟨prop_jsonView_plain h.own trivial, h.decodes⟩

theorem Keyed.delete {b : FriendBook} (h : Keyed P b) (K : JsString) :
    ∀ K' rec_, (b.friends.delete K).get K' = some rec_ → ∃ peer, prop rec_ (js "peer") = .ok peer ∧ KeyOf P K' peer :=
  fun K' rec_ hget => h.friends K' rec_ (OrdMap.get_of_get_delete hget)

theorem Keyed.set {b : FriendBook} (h : Keyed P b) {K : JsString} {peer nonce : Value} {now : Instant}
    (hk : KeyOf P K peer) : ∀ K' rec_, (b.friends.set K (friendRecord P peer nonce now)).get K' = some rec_ →
      ∃ peer, prop rec_ (js "peer") = .ok peer ∧ KeyOf P K' peer := by
  intro K' rec_ hget
  rw [OrdMap.get_set] at hget
  split at hget
  · next heq =>
      obtain rfl := Option.some.inj hget
      rw [heq]
      exact ⟨peer, rfl, hk⟩
  · exact h.friends K' rec_ hget

/-- The giver of a pending request is keyed by its own text. -/
theorem Keyed.giver {b : FriendBook} (h : Keyed P b) {K : JsString} {p token peer : Value}
    (hp : b.pending.get K = some p) (htoken : prop p (js "token") = .ok token)
    (hpeer : prop token (js "from") = .ok peer) : KeyOf P K peer := by
  obtain ⟨token', peer', htoken', hpeer', hk⟩ := h.pending K p hp
  obtain rfl := Except.ok.inj (htoken.symm.trans htoken')
  obtain rfl := Except.ok.inj (hpeer.symm.trans hpeer')
  exact hk

theorem Commit.keyed {c : Call} {seen b b' : FriendBook} {r : Except Exn Value} (h : Commit P me c seen b r b')
    (hseen : Keyed P seen) (hb : Keyed P b) : Keyed P b' := by
  cases h with
  | issueToken minted => exact ⟨hb.pending, hb.friends⟩
  | @receive token peer nonce key now _ _ verified hnonce unused hkey other =>
      refine ⟨fun K p hget => ?_, hb.friends⟩
      rw [OrdMap.get_set] at hget
      split at hget
      · next heq =>
          obtain rfl := Option.some.inj hget
          rw [heq]
          exact ⟨token, peer, rfl, (verifyToken_ok verified).1, keyOf_of_verifyToken verified hkey⟩
      · exact hb.pending K p hget
  | accept hp htoken fresh sealed hnonce hpeer =>
      refine ⟨fun K p hget => hb.pending K p (OrdMap.get_of_get_delete hget), ?_⟩
      exact hb.set (hseen.giver hp htoken hpeer)
  | confirm opened href hoffer unused fresh hpeer hkey =>
      exact ⟨hb.pending, hb.set (keyOf_of_openAccept opened hpeer hkey)⟩
  | revoke peer => exact ⟨hb.pending, hb.delete peer⟩
  | issueRevokeNone hrec => exact hb
  | issueRevoke hrec signed => exact ⟨hb.pending, hb.delete _⟩
  | receiveRevoke shape htarget hpeer hrec hnonce unused verified hat hsince current => exact ⟨hb.pending, hb.delete _⟩

theorem Keyed.reloaded {b : FriendBook} (h : Keyed P b) : Keyed P b.reloaded := by
  refine ⟨fun K p hget => ?_, fun K rec_ hget => ?_⟩
  · obtain ⟨p₀, hp₀, rfl⟩ := OrdMap.get_mapVal_eq_some.mp hget
    obtain ⟨token, peer, htoken, hpeer, hk⟩ := h.pending K p₀ hp₀
    have htoken' := prop_jsonView htoken fun he => by rw [he] at hpeer; cases hpeer
    have hpeer' := prop_jsonView hpeer fun he => by have hown := hk.own; rw [he] at hown; cases hown
    exact ⟨jsonView token, jsonView peer, htoken', hpeer', hk.view⟩
  · obtain ⟨rec₀, hrec₀, rfl⟩ := OrdMap.get_mapVal_eq_some.mp hget
    obtain ⟨peer, hpeer, hk⟩ := h.friends K rec₀ hrec₀
    have hpeer' := prop_jsonView hpeer fun he => by have hown := hk.own; rw [he] at hown; cases hown
    exact ⟨jsonView peer, hpeer', hk.view⟩

/-! ## Every book of a run, and every book a call has read -/

structure Held (P : Platform) (b : FriendBook) : Prop where
  wf    : BookWF P.toEngine b
  keyed : Keyed P b

structure LifeInv (P : Platform) (me : Self) (p : BookPool P) : Prop where
  book  : Held P p.state
  calls : ∀ e ∈ p.running, Rest (BookCall.task P me) e.call e.seen e.rest ∧ Held P e.seen

theorem Held.empty : Held P .empty := ⟨.empty, .empty⟩

theorem Held.reloaded {b : FriendBook} (h : Held P b) : Held P b.reloaded := ⟨reloaded_wf h.wf, h.keyed.reloaded⟩

theorem Held.commit {c : BookCall P} {seen b b' : FriendBook} {r : Except Exn Value}
    (h : Commit P me c.1 seen b r b') (hseen : Held P seen) (hb : Held P b) : Held P b' :=
  ⟨h.wf c.2 hseen.wf hb.wf, h.keyed hseen.keyed hb.keyed⟩

variable (me) in
/-- What a step does to the book: nothing, the commit of one call, or a reload. -/
inductive BookEffect (b : FriendBook) : LifeEvent P → FriendBook → Prop
  | start (c : BookCall P) : BookEffect b (.call (.start c)) b
  | suspend (c : BookCall P) : BookEffect b (.call (.suspend c)) b
  | throw (c : BookCall P) (seen : FriendBook) (e : Exn) : BookEffect b (.call (.finish c seen b (.error e))) b
  | commit {c : BookCall P} {seen b' : FriendBook} {r : Except Exn Value} (hseen : Held P seen)
      (h : Commit P me c.1 seen b r b') : BookEffect b (.call (.finish c seen b r)) b'
  | reload : BookEffect b .reload b.reloaded

theorem LifeStep.effect {p p' : BookPool P} {e : LifeEvent P} (h : LifeStep P me p e p') (hp : LifeInv P me p) :
    BookEffect me p.state e p'.state := by
  cases h with
  | reload running hload =>
      rw [reload_eq hp.book.wf] at hload
      obtain rfl := Except.ok.inj hload
      exact .reload
  | call h =>
      cases h with
      | start s l c => exact .start c
      | suspend l r h =>
          obtain ⟨hrest, _⟩ := hp.calls _ (List.mem_append_right _ (List.mem_cons_self ..))
          obtain rfl := requests_read hrest h
          exact .suspend _
      | finish l r h =>
          obtain ⟨hrest, hseen⟩ := hp.calls _ (List.mem_append_right _ (List.mem_cons_self ..))
          rcases (stage_of_rest (rest_val hrest)).done h with ⟨_, rfl, rfl⟩ | hc
          · exact .throw ..
          · exact .commit hseen hc

theorem LifeStep.inv {p p' : BookPool P} {e : LifeEvent P} (h : LifeStep P me p e p') (hp : LifeInv P me p) :
    LifeInv P me p' := by
  have hstart : e.Starts fun _ => True := by
    cases e with
    | reload => trivial
    | call l => exact l.starts_true
  have hbefore : Holds (BookCall.task P me) (fun _ => True) (Held P) p :=
    ⟨hp.book, fun e he => ⟨(hp.calls e he).1, trivial, (hp.calls e he).2⟩⟩
  have hafter := h.holds (fun c seen b r b' hc _ hseen hb => .commit hc hseen hb) ?_ hstart hbefore
  · exact ⟨hafter.state, fun e he => ⟨(hafter.calls e he).1, (hafter.calls e he).2.2⟩⟩
  · intro b b' hload hb
    rw [reload_eq hb.wf] at hload
    exact Except.ok.inj hload ▸ hb.reloaded

theorem lifeInv_of_run {tr : List (LifeEvent P)} {p : BookPool P} (run : Run (LifeStep P me) ⟨.empty, []⟩ tr p) :
    LifeInv P me p := by
  refine run.invariant (I := fun _ p => LifeInv P me p) ⟨.empty, ?_⟩ fun _ _ _ _ _ ih h => h.inv ih
  intro e he
  cases he

/-! ## One record for each key -/

/-- Documented of libsodium's codec: it decodes what it encoded, and no other spelling of it. -/
structure StrictBase64 (P : Platform) : Prop where
  decode : ∀ raw, P.fromBase64 (P.toBase64 raw) = some raw
  strict : ∀ text raw, P.fromBase64 text = some raw → text = P.toBase64 raw

variable (P me) in
structure OneRecord (b : FriendBook) : Prop where
  /-- Every friend stands under the text its own record holds. -/
  own     : ∀ K rec_, b.friends.get K = some rec_ →
    ∃ peer, prop rec_ (js "peer") = .ok peer ∧ prop peer (js "ed25519") = .ok (.str K)
  /-- No two texts decode to one key. -/
  single  : ∀ K K' rec_ rec' pk, b.friends.get K = some rec_ → b.friends.get K' = some rec' →
    fromB64 P (.str K) = .ok pk → fromB64 P (.str K') = .ok pk → K = K'
  /-- The node is no friend of itself. -/
  other   : ∀ K rec_, b.friends.get K = some rec_ → fromB64 P (.str K) ≠ .ok me.id.edPublic
  /-- `revoke` leaves no record of the key. -/
  revoked : ∀ K rec_ pk r b', b.friends.get K = some rec_ → fromB64 P (.str K) = .ok pk →
    ((Call.revoke K).task P me).run b = (r, b') →
    ∀ K' rec', b'.friends.get K' = some rec' → fromB64 P (.str K') ≠ .ok pk

/-- The text under which a call stores a friend. -/
inductive Befriends (P : Platform) (me : Self) : Call → JsString → Prop
  | accept (K : JsString) (ephemeral : Bytes) (now : Instant) : Befriends P me (.accept K ephemeral now) K
  | confirm {blob K : JsString} {a peer : Value} (now : Instant) (opened : openAccept P me blob = .ok a)
      (hpeer : prop a (js "from") = .ok peer) (hkey : prop peer (js "ed25519") = .ok (.str K)) :
      Befriends P me (.confirm blob now) K

theorem Befriends.unique {c : Call} {K K' : JsString} (h : Befriends P me c K) (h' : Befriends P me c K') :
    K = K' := by
  cases h with
  | accept => cases h'; rfl
  | confirm now opened hpeer hkey =>
      cases h' with
      | confirm _ opened' hpeer' hkey' =>
          obtain rfl := Except.ok.inj (opened.symm.trans opened')
          obtain rfl := Except.ok.inj (hpeer.symm.trans hpeer')
          exact Value.str.inj (Except.ok.inj (hkey.symm.trans hkey'))

/-- Trimmed, the text is neither the node's own nor that of a friend stored under another text. -/
structure NewSpelling (P : Platform) (me : Self) (b : FriendBook) (K : JsString) : Prop where
  other  : trim K ≠ selfEd P me
  single : ∀ K' rec_, b.friends.get K' = some rec_ → trim K' = trim K → K' = K

/-- The condition on a step: a call that returns stores no friend under another spelling of a key. -/
def LifeEvent.Spelled (me : Self) : LifeEvent P → Prop
  | .call (.finish c _ b (.ok _)) => ∀ K, Befriends P me c.1 K → NewSpelling P me b K
  | _ => True

/-- Trimmed texts tell keys apart. -/
theorem StrictBase64.trim_eq_iff (hB : StrictBase64 P) {K K' : JsString} {pk : Bytes}
    (h : fromB64 P (.str K) = .ok pk) : fromB64 P (.str K') = .ok pk ↔ trim K' = trim K := by
  obtain ⟨_, hK, hpk⟩ := fromB64_ok.mp h
  obtain rfl := Value.str.inj hK
  constructor
  · intro h'
    obtain ⟨_, hK', hpk'⟩ := fromB64_ok.mp h'
    obtain rfl := Value.str.inj hK'
    rw [hB.strict _ _ hpk, hB.strict _ _ hpk']
  · intro ht
    exact fromB64_ok.mpr ⟨K', rfl, by rw [ht]; exact hpk⟩

theorem StrictBase64.self_iff (hB : StrictBase64 P) {K : JsString} :
    fromB64 P (.str K) = .ok me.id.edPublic ↔ trim K = selfEd P me := by
  constructor
  · intro h
    obtain ⟨_, hK, hpk⟩ := fromB64_ok.mp h
    obtain rfl := Value.str.inj hK
    exact hB.strict _ _ hpk
  · intro ht
    exact fromB64_ok.mpr ⟨K, rfl, by rw [ht]; exact hB.decode _⟩

/-- The invariant in terms of the texts. -/
structure Spellings (P : Platform) (me : Self) (b : FriendBook) : Prop where
  single : ∀ K K' rec_ rec', b.friends.get K = some rec_ → b.friends.get K' = some rec' → trim K = trim K' → K = K'
  other  : ∀ K rec_, b.friends.get K = some rec_ → trim K ≠ selfEd P me

theorem oneRecord_iff (hB : StrictBase64 P) {b : FriendBook} (hb : Keyed P b) :
    OneRecord P me b ↔ Spellings P me b := by
  constructor
  · intro h
    refine ⟨fun K K' rec_ rec' hK hK' ht => ?_, fun K rec_ hK ht => ?_⟩
    · obtain ⟨_, _, _, pk, hpk⟩ := hb.friends K rec_ hK
      exact h.single K K' rec_ rec' pk hK hK' hpk ((hB.trim_eq_iff hpk).mpr ht.symm)
    · exact h.other K rec_ hK (hB.self_iff.mpr ht)
  · intro h
    have single : ∀ K K' rec_ rec' pk, b.friends.get K = some rec_ → b.friends.get K' = some rec' →
        fromB64 P (.str K) = .ok pk → fromB64 P (.str K') = .ok pk → K = K' :=
      fun K K' rec_ rec' pk hK hK' hpk hpk' => h.single K K' rec_ rec' hK hK' ((hB.trim_eq_iff hpk).mp hpk').symm
    refine ⟨fun K rec_ hK => ?_, single, fun K rec_ hK hself => h.other K rec_ hK (hB.self_iff.mp hself), ?_⟩
    · obtain ⟨peer, hpeer, hk⟩ := hb.friends K rec_ hK
      exact ⟨peer, hpeer, hk.own⟩
    · intro K rec_ pk r b' hK hpk hrun K' rec' hK' hpk'
      cases hrun
      -- what is left after the delete was there before, under another text
      have hne : K' ≠ K := fun heq => by rw [heq, OrdMap.get_delete_self] at hK'; cases hK'
      exact hne (single K' K rec' rec_ pk (OrdMap.get_of_get_delete hK') hK hpk' hpk)

theorem Spellings.empty : Spellings P me .empty where
  single := fun K K' rec_ rec' hK => by cases hK
  other := fun K rec_ hK => by cases hK

theorem Spellings.of_friends {b b' : FriendBook} (h : Spellings P me b)
    (hsub : ∀ K rec_, b'.friends.get K = some rec_ → ∃ rec', b.friends.get K = some rec') : Spellings P me b' := by
  refine ⟨fun K K' rec_ rec' hK hK' ht => ?_, fun K rec_ hK => ?_⟩
  · obtain ⟨_, h1⟩ := hsub K rec_ hK
    obtain ⟨_, h2⟩ := hsub K' rec' hK'
    exact h.single K K' _ _ h1 h2 ht
  · obtain ⟨_, h1⟩ := hsub K rec_ hK
    exact h.other K _ h1

/-- **Storing a friend keeps the invariant exactly when the spelling is new.** -/
theorem spellings_set_iff {b b' : FriendBook} {K : JsString} {record : Value} (hb : Spellings P me b)
    (hfriends : b'.friends = b.friends.set K record) : Spellings P me b' ↔ NewSpelling P me b K := by
  have hset : b'.friends.get K = some record := by rw [hfriends, OrdMap.get_set_self]
  have hold : ∀ K', K' ≠ K → b'.friends.get K' = b.friends.get K' := fun K' hne => by
    rw [hfriends, OrdMap.get_set_ne hne]
  constructor
  · intro h
    refine ⟨h.other K record hset, fun K' rec_ hK' ht => ?_⟩
    by_contra hne
    exact hne (h.single K' K rec_ record ((hold K' hne).trans hK') hset ht)
  · intro h
    refine ⟨fun K₁ K₂ rec₁ rec₂ h₁ h₂ ht => ?_, fun K₁ rec₁ h₁ => ?_⟩
    · by_cases e₁ : K₁ = K <;> by_cases e₂ : K₂ = K
      · rw [e₁, e₂]
      · rw [hold K₂ e₂] at h₂
        exact absurd (h.single K₂ rec₂ h₂ (ht.symm.trans (congrArg trim e₁))) e₂
      · rw [hold K₁ e₁] at h₁
        exact absurd (h.single K₁ rec₁ h₁ (ht.trans (congrArg trim e₂))) e₁
      · rw [hold K₁ e₁] at h₁
        rw [hold K₂ e₂] at h₂
        exact hb.single K₁ K₂ rec₁ rec₂ h₁ h₂ ht
    · by_cases e₁ : K₁ = K
      · rw [e₁]
        exact h.other
      · rw [hold K₁ e₁] at h₁
        exact hb.other K₁ rec₁ h₁

/-- What a commit does to the friends: it stores one, or removes some. -/
theorem Commit.friends_cases {c : Call} {seen b b' : FriendBook} {r : Except Exn Value}
    (h : Commit P me c seen b r b') :
    (∃ K record v, Befriends P me c K ∧ r = .ok v ∧ b'.friends = b.friends.set K record) ∨
      (∀ K, ¬Befriends P me c K) ∧ ∀ K rec_, b'.friends.get K = some rec_ → b.friends.get K = some rec_ := by
  cases h with
  | issueToken minted => exact .inr ⟨fun K h => (by cases h), fun _ _ h => h⟩
  | receive verified hnonce unused hkey other => exact .inr ⟨fun K h => (by cases h), fun _ _ h => h⟩
  | accept hp htoken fresh sealed hnonce hpeer => exact .inl ⟨_, _, _, .accept .., rfl, rfl⟩
  | confirm opened href hoffer unused fresh hpeer hkey =>
      exact .inl ⟨_, _, _, .confirm _ opened hpeer hkey, rfl, rfl⟩
  | revoke peer => exact .inr ⟨fun K h => (by cases h), fun _ _ h => OrdMap.get_of_get_delete h⟩
  | issueRevokeNone hrec => exact .inr ⟨fun K h => (by cases h), fun _ _ h => h⟩
  | issueRevoke hrec signed => exact .inr ⟨fun K h => (by cases h), fun _ _ h => OrdMap.get_of_get_delete h⟩
  | receiveRevoke shape htarget hpeer hrec hnonce unused verified hat hsince current =>
      exact .inr ⟨fun K h => (by cases h), fun _ _ h => OrdMap.get_of_get_delete h⟩

/-- **One step**: the invariant survives exactly the steps that meet the condition. -/
theorem BookEffect.spellings_iff {b b' : FriendBook} {e : LifeEvent P} (h : BookEffect me b e b')
    (hb : Spellings P me b) : Spellings P me b' ↔ e.Spelled me := by
  cases h with
  | start c => exact ⟨fun _ => trivial, fun _ => hb⟩
  | suspend c => exact ⟨fun _ => trivial, fun _ => hb⟩
  | throw c seen e => exact ⟨fun _ => trivial, fun _ => hb⟩
  | reload =>
      refine ⟨fun _ => trivial, fun _ => hb.of_friends fun K rec_ hget => ?_⟩
      obtain ⟨rec₀, hrec₀, _⟩ := OrdMap.get_mapVal_eq_some.mp hget
      exact ⟨rec₀, hrec₀⟩
  | @commit c seen _ r hseen h =>
      rcases h.friends_cases with ⟨K, record, v, hK, rfl, hfriends⟩ | ⟨hnone, hsub⟩
      · rw [spellings_set_iff hb hfriends]
        exact ⟨fun hnew K' hK' => hK'.unique hK ▸ hnew, fun hspelled => hspelled K hK⟩
      · refine ⟨fun _ => ?_, fun _ => hb.of_friends fun K rec_ hget => ⟨rec_, hsub K rec_ hget⟩⟩
        cases r with
        | ok v => exact fun K hK => absurd hK (hnone K)
        | error e => trivial

/-- **Runs.** Along a run every book has one record for each key exactly when every step meets the condition. -/
theorem one_record_iff (P : Platform) (me : Self) (hB : StrictBase64 P) (tr : List (LifeEvent P)) (p : BookPool P)
    (run : Run (LifeStep P me) ⟨.empty, []⟩ tr p) :
    (∀ pre q, pre <+: tr → Run (LifeStep P me) ⟨.empty, []⟩ pre q → OneRecord P me q.state) ↔
      ∀ e ∈ tr, e.Spelled me := by
  constructor
  · intro h e he
    obtain ⟨pre, post, rfl⟩ := List.append_of_mem he
    obtain ⟨q, q', hq, hstep⟩ := run.split
    have hinv := lifeInv_of_run hq
    -- the invariant before the step and after it leaves no other spelling for what is stored
    have before := (oneRecord_iff hB hinv.book.keyed).mp (h pre q (List.prefix_append ..) hq)
    have hpre : pre ++ [e] <+: pre ++ e :: post := ⟨post, by rw [List.append_assoc, List.singleton_append]⟩
    have after := (oneRecord_iff hB (hstep.inv hinv).book.keyed).mp (h _ q' hpre (hq.snoc hstep))
    exact ((hstep.effect hinv).spellings_iff before).mp after
  · intro h pre q hpre hq
    have hspelled : ∀ e ∈ pre, e.Spelled me := fun e he => h e (hpre.subset he)
    refine (oneRecord_iff hB (lifeInv_of_run hq).book.keyed).mpr ?_
    refine hq.invariant (I := fun tr q => (∀ e ∈ tr, e.Spelled me) → Spellings P me q.state) ?_ ?_ hspelled
    · intro _
      exact .empty
    · intro tr q e q' hq ih hstep hall
      have before := ih fun e' he' => hall e' (List.mem_append_left _ he')
      exact ((hstep.effect (lifeInv_of_run hq)).spellings_iff before).mpr
        (hall e (List.mem_append_right _ (List.mem_singleton_self e)))

/-! ## Keys without white space -/

/-- Every friend stands under a trimmed text. -/
def TrimmedKeys (b : FriendBook) : Prop := ∀ K rec_, b.friends.get K = some rec_ → trim K = K

/-- The step stores friends under trimmed texts only, and not under the node's own. -/
def LifeEvent.Trimmed (me : Self) : LifeEvent P → Prop
  | .call (.finish c _ _ (.ok _)) => ∀ K, Befriends P me c.1 K → trim K = K ∧ K ≠ selfEd P me
  | _ => True

/-- Among trimmed texts, a trimmed one is always a new spelling. -/
theorem TrimmedKeys.newSpelling {b : FriendBook} (h : TrimmedKeys b) {K : JsString} (hK : trim K = K)
    (hne : K ≠ selfEd P me) : NewSpelling P me b K := by
  refine ⟨by rw [hK]; exact hne, fun K' rec_ hget ht => ?_⟩
  rw [← h K' rec_ hget, ht, hK]

theorem BookEffect.trimmed {b b' : FriendBook} {e : LifeEvent P} (h : BookEffect me b e b') (hb : TrimmedKeys b)
    (he : e.Trimmed me) : e.Spelled me ∧ TrimmedKeys b' := by
  cases h with
  | start c => exact ⟨trivial, hb⟩
  | suspend c => exact ⟨trivial, hb⟩
  | throw c seen e => exact ⟨trivial, hb⟩
  | reload =>
      refine ⟨trivial, fun K rec_ hget => ?_⟩
      obtain ⟨rec₀, hrec₀, _⟩ := OrdMap.get_mapVal_eq_some.mp hget
      exact hb K rec₀ hrec₀
  | @commit c seen _ r hseen h =>
      rcases h.friends_cases with ⟨K, record, v, hK, rfl, hfriends⟩ | ⟨hnone, hsub⟩
      · refine ⟨fun K' hK' => hb.newSpelling (he K' hK').1 (he K' hK').2, fun K' rec_ hget => ?_⟩
        rw [hfriends, OrdMap.get_set] at hget
        split at hget
        · next heq =>
            rw [heq]
            exact (he K hK).1
        · exact hb K' rec_ hget
      · refine ⟨?_, fun K rec_ hget => hb K rec_ (hsub K rec_ hget)⟩
        cases r with
        | ok v => exact fun K hK => absurd hK (hnone K)
        | error e => trivial

/-- **Without white space in key texts there is one record for each key.** -/
theorem one_record_of_trimmed (hB : StrictBase64 P) {tr : List (LifeEvent P)} {p : BookPool P}
    (run : Run (LifeStep P me) ⟨.empty, []⟩ tr p) (h : ∀ e ∈ tr, e.Trimmed me) : OneRecord P me p.state := by
  have key : Spellings P me p.state ∧ TrimmedKeys p.state := by
    refine run.invariant (I := fun tr p => (∀ e ∈ tr, e.Trimmed me) → Spellings P me p.state ∧ TrimmedKeys p.state)
      ?_ ?_ h
    · intro _
      exact ⟨.empty, fun K rec_ hK => by cases hK⟩
    · intro tr q e q' hq ih hstep hall
      obtain ⟨hs, ht⟩ := ih fun e' he' => hall e' (List.mem_append_left _ he')
      have heffect := hstep.effect (lifeInv_of_run hq)
      obtain ⟨hspelled, ht'⟩ := heffect.trimmed ht (hall e (List.mem_append_right _ (List.mem_singleton_self e)))
      exact ⟨(heffect.spellings_iff hs).mpr hspelled, ht'⟩
  exact (oneRecord_iff hB (lifeInv_of_run run).book.keyed).mpr key.1

namespace Symbolic

/-! ## Two spellings -/

/-- The same platform, with hexadecimal digits in lower case only. -/
def canonical : Platform :=
  { platform with fromBase64 := fun text => (fromHex text).filter fun raw => decide (toHex raw = text) }

theorem canonical_base64 : StrictBase64 canonical where
  decode := by
    intro raw
    show (fromHex (toHex raw)).filter _ = _
    rw [fromHex_toHex, Option.filter_some]
    exact if_pos (decide_eq_true rfl)
  strict := by
    intro text raw h
    exact (of_decide_eq_true (Option.filter_eq_some_iff.mp h).2).symm

/-- The holder of the key `01`, under the given text of it. -/
def spelledPeer (key : JsString) : Value :=
  .obj [(js "ed25519", .str key), (js "x25519", .str (toHex [101])), (js "label", .str (js "node")),
    (js "wg0", .str (js "10.42.0.1"))]

theorem spelled_expires : (-8640000000000000 : Int) ≤ 60000 ∧ (60000 : Int) ≤ 8640000000000000 := by decide

/-- What that holder signs in a token. -/
def spelledBody (key random : JsString) : List (JsString × Value) :=
  [(js "v", .num Number.one), (js "from", spelledPeer key), (js "nonce", .str random),
    (js "issued", .str (isoString epoch)), (js "expires", .str (isoString ⟨60000, spelled_expires⟩))]

def spelled (key random : JsString) : Value :=
  .obj (spelledBody key random ++ [(js "sig", .str ((sign canonical (.obj (spelledBody key random)) [1]).toOption.getD []))])

theorem spelled_wf (key random : JsString) : (spelled key random).WF canonical.toEngine :=
  ⟨show [js "v", js "from", js "nonce", js "issued", js "expires", js "sig"].Nodup by decide,
    one_wf platform, ⟨show [js "ed25519", js "x25519", js "label", js "wg0"].Nodup by decide, trivial, trivial, trivial,
      trivial, trivial⟩, trivial, trivial, trivial, trivial, trivial⟩

theorem spelled_verified : verifyToken canonical (spelled (js "01") (js "07")) epoch = .ok (spelledPeer (js "01")) := by
  decide +kernel

theorem spaced_verified : verifyToken canonical (spelled (js " 01") (js "08")) epoch = .ok (spelledPeer (js " 01")) := by
  decide +kernel

/-- The steps of a call that runs alone meet the condition if its end does. -/
theorem called_spelled {c : BookCall canonical} {b : FriendBook} {r : Except Exn Value}
    {ls : List (Label (BookCall canonical) FriendBook Exn Value)} (hls : ∀ l ∈ ls, l = .start c ∨ l = .suspend c)
    (h : LifeEvent.Spelled (node 2) (P := canonical) (.call (.finish c b b r))) :
    ∀ e ∈ (ls ++ [Label.finish c b b r]).map LifeEvent.call, e.Spelled (node 2) := by
  intro e he
  obtain ⟨l, hl, rfl⟩ := List.mem_map.mp he
  rcases List.mem_append.mp hl with hl | hl
  · rcases hls l hl with rfl | rfl <;> trivial
  · rwa [List.mem_singleton.mp hl]

/-- A node that receives a token and accepts it. -/
theorem befriends {tr : List (LifeEvent canonical)} {b : FriendBook} {token peer nonce : Value} {key blob : JsString}
    (run : Run (LifeStep canonical (node 2)) ⟨.empty, []⟩ tr ⟨b, []⟩) (wf : token.WF canonical.toEngine)
    (verified : verifyToken canonical token epoch = .ok peer) (hnonce : prop token (js "nonce") = .ok nonce)
    (hkey : prop peer (js "ed25519") = .ok (.str key)) (unused : ¬setHas b.consumed nonce = true)
    (other : key ≠ selfEd canonical (node 2)) (sealed : makeAccept canonical (node 2) token [] epoch = .ok blob) :
    ∃ more b', Run (LifeStep canonical (node 2)) ⟨.empty, []⟩ (tr ++ more) ⟨b', []⟩ ∧
      (NewSpelling canonical (node 2) b key → ∀ e ∈ more, e.Spelled (node 2)) ∧
      b'.friends = b.friends.set key (friendRecord canonical peer nonce epoch) ∧
      b'.consumed = setAdd b.consumed nonce := by
  obtain ⟨hpeer, fresh, _⟩ := verifyToken_ok verified
  have received : Commit canonical (node 2) (.receive token epoch) b b _ _ :=
    .receive verified hnonce unused hkey other
  obtain ⟨ls, hls, run'⟩ := life_called run (show Call.WF _ (.receive token epoch) from wf) received
  have hp := OrdMap.get_set_self b.pending key (pendingEntry canonical token epoch)
  have htoken : prop (pendingEntry canonical token epoch) (js "token") = .ok token := rfl
  let b₁ : FriendBook := { b with pending := b.pending.set key (pendingEntry canonical token epoch) }
  have accepted : Commit canonical (node 2) (.accept key [] epoch) b₁ b₁ _ _ :=
    .accept hp htoken fresh sealed hnonce hpeer
  obtain ⟨ls', hls', run''⟩ := life_called run' (show Call.WF _ (.accept key [] epoch) from trivial) accepted
  rw [List.append_assoc] at run''
  refine ⟨_, _, run'', fun hnew => List.forall_mem_append.mpr ⟨?_, ?_⟩, rfl, rfl⟩
  · refine called_spelled hls fun K hK => ?_
    cases hK
  · refine called_spelled hls' fun K hK => ?_
    cases hK
    exact ⟨hnew.other, hnew.single⟩

theorem spelled_sealed : ∃ blob, makeAccept canonical (node 2) (spelled (js "01") (js "07")) [] epoch = .ok blob :=
  ⟨_, show makeAccept canonical (node 2) (spelled (js "01") (js "07")) [] epoch = .ok (((makeAccept canonical (node 2)
    (spelled (js "01") (js "07")) [] epoch).toOption).getD []) by decide +kernel⟩

theorem spaced_sealed : ∃ blob, makeAccept canonical (node 2) (spelled (js " 01") (js "08")) [] epoch = .ok blob :=
  ⟨_, show makeAccept canonical (node 2) (spelled (js " 01") (js "08")) [] epoch = .ok (((makeAccept canonical (node 2)
    (spelled (js " 01") (js "08")) [] epoch).toOption).getD []) by decide +kernel⟩

/-- The token of node 3, the second friend. -/
theorem third_wf : (invite 3 [9]).WF canonical.toEngine :=
  makeToken_wf (show makeToken canonical (node 3) 60 [9] epoch = .ok (invite 3 [9]) by decide +kernel)

theorem third_nonce : prop (invite 3 [9]) (js "nonce") = .ok (.str (js "09")) := by
  decide +kernel

theorem third_verified : verifyToken canonical (invite 3 [9]) epoch = .ok (peerPubOf canonical (node 3)) := by
  decide +kernel

theorem third_sealed : ∃ blob, makeAccept canonical (node 2) (invite 3 [9]) [] epoch = .ok blob :=
  ⟨_, show makeAccept canonical (node 2) (invite 3 [9]) [] epoch = .ok (((makeAccept canonical (node 2)
    (invite 3 [9]) [] epoch).toOption).getD []) by decide +kernel⟩

/-- The book of a node that has befriended the holder of `01`. -/
theorem spelled_reached : ∃ tr b, Run (LifeStep canonical (node 2)) ⟨.empty, []⟩ tr ⟨b, []⟩ ∧
    (∀ e ∈ tr, e.Spelled (node 2)) ∧
    b.friends = FriendBook.empty.friends.set (js "01")
      (friendRecord canonical (spelledPeer (js "01")) (.str (js "07")) epoch) ∧ b.consumed = [.str (js "07")] := by
  obtain ⟨blob, sealed⟩ := spelled_sealed
  obtain ⟨more, b', run, hspelled, hfriends, hconsumed⟩ := befriends .nil (spelled_wf (js "01") (js "07"))
    spelled_verified rfl rfl (by decide) (by decide) sealed
  refine ⟨_, b', run, hspelled ⟨by decide, fun K rec_ hget => ?_⟩, hfriends, hconsumed⟩
  cases hget

/-- Nodes 1 and 3 are befriended one after the other. The condition holds of that run, and of every book along it
    the invariant. -/
theorem spelled_one_record : ∃ tr p, Run (LifeStep canonical (node 2)) ⟨.empty, []⟩ tr p ∧
    p.state.friends.has (js "01") = true ∧ p.state.friends.has (js "03") = true ∧
    (∀ e ∈ tr, e.Spelled (node 2)) ∧
    ∀ pre q, pre <+: tr → Run (LifeStep canonical (node 2)) ⟨.empty, []⟩ pre q →
      OneRecord canonical (node 2) q.state := by
  obtain ⟨tr, b, run, hspelled, hfriends, hconsumed⟩ := spelled_reached
  obtain ⟨blob, sealed⟩ := third_sealed
  have unused : ¬setHas b.consumed (.str (js "09")) = true := by
    rw [hconsumed]
    decide
  obtain ⟨more, b', run', hmore, hfriends', _⟩ := befriends run third_wf third_verified third_nonce rfl
    unused (by decide) sealed
  have hnew : NewSpelling canonical (node 2) b (js "03") := by
    refine ⟨by decide, fun K rec_ hget ht => ?_⟩
    rw [hfriends, OrdMap.get_set] at hget
    split at hget
    · next heq =>
        rw [heq] at ht
        exact absurd ht (by decide)
    · cases hget
  have hall : ∀ e ∈ tr ++ more, e.Spelled (node 2) := List.forall_mem_append.mpr ⟨hspelled, hmore hnew⟩
  refine ⟨_, ⟨b', []⟩, run', ?_, ?_, hall, ?_⟩
  · rw [hfriends', hfriends]
    decide
  · rw [hfriends', hfriends]
    decide
  · exact (one_record_iff canonical (node 2) canonical_base64 _ _ run').mpr hall

/-- The holder of `01` invites node 2 twice, once with a blank before its key. Both friends stay, and revoking
    one leaves the other. -/
theorem spaced_record_kept : ∃ tr p, Run (LifeStep canonical (node 2)) ⟨.empty, []⟩ tr p ∧
    ¬OneRecord canonical (node 2) p.state := by
  obtain ⟨tr, b, run, _, hfriends, hconsumed⟩ := spelled_reached
  obtain ⟨blob, sealed⟩ := spaced_sealed
  have unused : ¬setHas b.consumed (.str (js "08")) = true := by
    rw [hconsumed]
    decide
  have hnonce : prop (spelled (js " 01") (js "08")) (js "nonce") = .ok (.str (js "08")) := rfl
  obtain ⟨more, b', run', _, hfriends', _⟩ := befriends run (spelled_wf (js " 01") (js "08")) spaced_verified hnonce
    rfl unused (by decide) sealed
  refine ⟨_, ⟨b', []⟩, run', fun h => ?_⟩
  have hspaced : b'.friends.get (js " 01")
      = some (friendRecord canonical (spelledPeer (js " 01")) (.str (js "08")) epoch) := by
    rw [hfriends', OrdMap.get_set_self]
  have hplain : b'.friends.get (js "01")
      = some (friendRecord canonical (spelledPeer (js "01")) (.str (js "07")) epoch) := by
    rw [hfriends', OrdMap.get_set_ne (by decide), hfriends, OrdMap.get_set_self]
  have heq := h.single _ _ _ _ [1] hplain hspaced (by decide) (by decide)
  exact absurd heq (by decide)

end Symbolic

end Island
end VpnPi
