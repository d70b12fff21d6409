import VpnPi.Async.Family
import VpnPi.Island.Domains
import VpnPi.Island.Handshake
import VpnPi.Island.PeerKeys

/-!
# `Island.Network` — many nodes, and an attacker between them

Every honest node has a book and runs its calls, interleaved at their suspensions; the bodies that the calls are given may
come from anyone. `Feasible` says what an attacker cannot do: sign for an honest node, open a box that is sealed to one, or
know a nonce before it is drawn.

* `accepted_by_confirmed` — under that, when a node confirms the accept of an honest node, that node has accepted a pending
  token that carries the confirmed nonce.
* `agreement_of_ownNonces` — that token is the confirming node's own if no honest node accepts, under the nonce of another
  one's token, a token from somebody else.

Nothing in the code sees to the second: an accept is signed over the nonce, not over the node whose token it answers
(`nonce_stolen`).
-/

namespace VpnPi
namespace Island
namespace Network

open Js Async Pool Value

variable (P : Platform) {ι : Type} [DecidableEq ι] (nodes : ι → Self)

/-- What happens at one of the nodes. -/
abbrev Event (ι : Type) : Type := ι × Label (BookCall P) FriendBook Exn Value

/-- One node starts, suspends or finishes a call. -/
def NetStep : (ι → BookPool P) → Event P ι → (ι → BookPool P) → Prop :=
  Each fun n => Step (BookCall.task P (nodes n))

/-- Every book is new. -/
def fresh : ι → BookPool P := fun _ => ⟨.empty, []⟩

/-! ## Calls that have returned -/

/-- Node `n` has issued the token, with the nonce. -/
inductive Issues : Event P ι → ι → JsString → Value → Prop
  | mk {n : ι} {c : BookCall P} {seen before : FriendBook} {token : Value} {ttlSeconds : ℚ} {random : Bytes} {now : Instant}
      (hc : c.1 = .issueToken ttlSeconds random now) : Issues (n, .finish c seen before (.ok token)) n (toB64 P random) token

/-- Node `n` has received the token. -/
inductive Receives : Event P ι → ι → Value → Instant → Prop
  | mk {n : ι} {c : BookCall P} {seen before : FriendBook} {token peer : Value} {now : Instant}
      (hc : c.1 = .receive token now) : Receives (n, .finish c seen before (.ok peer)) n token now

/-- Node `n` has accepted the pending token, with the given blob. -/
inductive Accepts : Event P ι → ι → Value → Value → Instant → Prop
  | mk {n : ι} {c : BookCall P} {seen before : FriendBook} {blob p token : Value} {giver : JsString} {ephemeral : Bytes}
      {now : Instant} (hc : c.1 = .accept giver ephemeral now) (hp : seen.pending.get giver = some p)
      (htoken : prop p (js "token") = .ok token) : Accepts (n, .finish c seen before (.ok blob)) n blob token now

/-- Node `n` has confirmed the blob, and made the record. -/
inductive Confirms : Event P ι → ι → JsString → Value → Prop
  | mk {n : ι} {c : BookCall P} {seen before : FriendBook} {blob : JsString} {now : Instant} {record : Value}
      (hc : c.1 = .confirm blob now) : Confirms (n, .finish c seen before (.ok record)) n blob record

/-- Node `n` has minted the notice. -/
inductive Revokes : Event P ι → ι → Value → Prop
  | mk {n : ι} {c : BookCall P} {seen before : FriendBook} {peer : JsString} {random : Bytes} {now : Instant}
      {ended notice : Value} (hc : c.1 = .issueRevoke peer random now) (hnotice : prop ended (js "notice") = .ok notice) :
      Revokes (n, .finish c seen before (.ok ended)) n notice

/-! ## The attacker -/

/-- What node `n` has signed and given out. -/
inductive SignedBy (pre : List (Event P ι)) (n : ι) : Kind → Value → Prop
  | token {e : Event P ι} {nonce : JsString} {token view : Value} (he : e ∈ pre) (h : Issues P e n nonce token)
      (hview : tokenSignable token = .ok view) : SignedBy pre n .token view
  | accept {e : Event P ι} {blob token ref : Value} {now : Instant} (he : e ∈ pre) (h : Accepts P e n blob token now)
      (href : prop token (js "nonce") = .ok ref) : SignedBy pre n .accept (acceptView P (nodes n) ref now)
  | revoke {e : Event P ι} {notice view : Value} (he : e ∈ pre) (h : Revokes P e n notice)
      (hview : revokeSignable notice = .ok view) : SignedBy pre n .revoke view

/-- The key that a value names, as bytes. -/
def NamesKey (v : Value) (pk : Bytes) : Prop :=
  ∃ peer pub, prop v (js "from") = .ok peer ∧ prop peer (js "ed25519") = .ok pub ∧ fromB64 P pub = .ok pk

/-- The signatures that a returned call has verified: under which key, and over what. -/
inductive Checks : Event P ι → Bytes → Value → Prop
  | receive {e : Event P ι} {n : ι} {token view : Value} {now : Instant} {pk : Bytes} (h : Receives P e n token now)
      (hkey : NamesKey P token pk) (hview : tokenSignable token = .ok view) : Checks e pk view
  | confirm {e : Event P ι} {n : ι} {blob : JsString} {record accept view : Value} {pk : Bytes}
      (h : Confirms P e n blob record) (opened : openAccept P (nodes n) blob = .ok accept) (hkey : NamesKey P accept pk)
      (hview : acceptSignable accept = .ok view) : Checks e pk view

/-- The nonce has been in a token. -/
def Seen (pre : List (Event P ι)) (nonce : JsString) : Prop :=
  ∃ e ∈ pre, ∃ n, (∃ token, Issues P e n nonce token) ∨
    ∃ token now, Receives P e n token now ∧ prop token (js "nonce") = .ok (.str nonce)

/-- **What the attacker cannot do.** Otherwise it gives the nodes whatever bodies it likes. -/
structure Feasible (pre : List (Event P ι)) (e : Event P ι) : Prop where
  /-- Signatures are unforgeable: what verifies under a node's key, the node has signed. -/
  unforged : ∀ pk view, Checks P nodes e pk view → ∀ n, (nodes n).id.edPublic = pk →
    ∃ k w, SignedBy P nodes pre n k w ∧ canonicalBytes w = canonicalBytes view
  /-- Boxes open for the addressed key only: a node's accept comes in the box that the node has sealed, or the box was
      sealed to a key of the attacker's. -/
  boxed : ∀ n blob record accept view m, Confirms P e n blob record → openAccept P (nodes n) blob = .ok accept →
    acceptSignable accept = .ok view → NamesKey P accept (nodes m).id.edPublic →
    ∃ e' ∈ pre, ∃ sealed token ref now, Accepts P e' m sealed token now ∧ prop token (js "nonce") = .ok ref ∧
      canonicalBytes (acceptView P (nodes m) ref now) = canonicalBytes view ∧
      (sealed = .str blob ∨ ∀ peer pk, prop token (js "from") = .ok peer →
        (prop peer (js "x25519") >>= fromB64 P) = .ok pk → ∀ i, (nodes i).id.xPublic ≠ pk)
  /-- Nonces are fresh. -/
  unseen : ∀ n nonce token, Issues P e n nonce token → ¬Seen P pre nonce

/-! ## Agreement -/

/-- Node `m` has accepted a pending token with this nonce that carries both keys of node `n`. -/
def AcceptedFrom (pre : List (Event P ι)) (m n : ι) (nonce : JsString) : Prop :=
  ∃ e ∈ pre, ∃ blob token now peer, Accepts P e m blob token now ∧ prop token (js "nonce") = .ok (.str nonce) ∧
    prop token (js "from") = .ok peer ∧ prop peer (js "ed25519") = .ok (.str (toB64 P (nodes n).id.edPublic)) ∧
    prop peer (js "x25519") = .ok (.str (toB64 P (nodes n).id.xPublic))

/-- Whenever node `n` confirms, and records the key of node `m` under a nonce, node `m` has accepted node `n`'s token. -/
def Agreement (tr : List (Event P ι)) : Prop :=
  Always (fun pre e => ∀ n m blob record peer pub nonce, Confirms P e n blob record → prop record (js "peer") = .ok peer →
    prop peer (js "ed25519") = .ok pub → fromB64 P pub = .ok (nodes m).id.edPublic →
    prop record (js "nonce") = .ok (.str nonce) → AcceptedFrom P nodes pre m n nonce) tr

/-- A node that accepts a token with a nonce that node `n` has issued accepts a token from node `n`'s key. -/
def OwnNonce (pre : List (Event P ι)) (e : Event P ι) : Prop :=
  ∀ m blob token now nonce, Accepts P e m blob token now → prop token (js "nonce") = .ok (.str nonce) →
    ∀ n, (∃ e' ∈ pre, ∃ issued, Issues P e' n nonce issued) → NamesKey P token (nodes n).id.edPublic

variable {P nodes}

/-! ## Where the entries of a book come from -/

/-- Every offer has been issued, and every pending token received. -/
structure Origin (P : Platform) (tr : List (Event P ι)) (n : ι) (b : FriendBook) : Prop where
  offered : ∀ nonce t, b.offered.get nonce = some t → ∃ e ∈ tr, Issues P e n nonce t
  pending : ∀ K p, b.pending.get K = some p → ∃ token, prop p (js "token") = .ok token ∧ token.WF P.toEngine ∧
    ∃ e ∈ tr, ∃ now peer, Receives P e n token now ∧ verifyToken P token now = .ok peer

omit [DecidableEq ι] in
theorem Origin.empty (tr : List (Event P ι)) (n : ι) : Origin P tr n .empty := by
  refine ⟨fun nonce t h => ?_, fun K p h => ?_⟩
  · cases h
  · cases h

omit [DecidableEq ι] in
theorem Origin.longer {tr : List (Event P ι)} {n : ι} {b : FriendBook} (h : Origin P tr n b) (e : Event P ι) :
    Origin P (tr ++ [e]) n b := by
  refine ⟨fun nonce t hget => ?_, fun K p hget => ?_⟩
  · obtain ⟨e', he', hissues⟩ := h.offered nonce t hget
    exact ⟨e', List.mem_append_left _ he', hissues⟩
  · obtain ⟨token, htoken, hwf, e', he', hreceives⟩ := h.pending K p hget
    exact ⟨token, htoken, hwf, e', List.mem_append_left _ he', hreceives⟩

omit [DecidableEq ι] in
/-- **A commit keeps the origins**, its own event being one of them. -/
theorem Origin.commit {tr : List (Event P ι)} {n : ι} {me : Self} {c : BookCall P} {seen b b' : FriendBook}
    {r : Except Exn Value} (h : Commit P me c.1 seen b r b') (hb : Origin P tr n b) (hmem : (n, .finish c seen b r) ∈ tr) :
    Origin P tr n b' := by
  obtain ⟨c, hc⟩ := c
  cases h with
  | issueToken minted => exact { hb with offered := OrdMap.forall_set hb.offered ⟨_, hmem, .mk rfl⟩ }
  | receive verified hnonce unused hkey other =>
      exact { hb with pending := OrdMap.forall_set hb.pending ⟨_, rfl, hc, _, hmem, _, _, .mk rfl, verified⟩ }
  | accept hp htoken fresh sealed hnonce hpeer => exact { hb with pending := OrdMap.forall_delete hb.pending }
  | confirm opened href hoffer unused fresh hpeer hkey => exact { hb with offered := OrdMap.forall_delete hb.offered }
  | revoke peer => exact { hb with }
  | issueRevokeNone hrec => exact hb
  | issueRevoke hrec signed => exact { hb with }
  | receiveRevoke shape htarget hpeer hrec hnonce unused verified hat hsince current => exact { hb with }

theorem origins {tr : List (Event P ι)} {w : ι → BookPool P} (run : Run (NetStep P nodes) (fresh P) tr w) (n : ι) :
    Holds (BookCall.task P (nodes n)) (fun _ => True) (Origin P tr n) (w n) := by
  refine run.members (I := fun tr n p => Holds (BookCall.task P (nodes n)) (fun _ => True) (Origin P tr n) p) ?_ ?_ ?_ n
  · exact fun n => ⟨.empty [] n, List.forall_mem_nil _⟩
  · exact fun tr e n p hp => hp.imp fun b hb => hb.longer e
  · intro tr n p l p' hp hstep
    refine hstep.holds (fun c seen b b' x o hlabel hrest _ _ hb hs => ?_) l.starts_true (hp.imp fun b hb => hb.longer (n, l))
    have hstage := stage_of_rest (rest_val hrest)
    cases o with
    | suspended y =>
        obtain ⟨rfl, _⟩ := hstage.suspend hs
        exact hb
    | done r =>
        rcases hstage.done hs with ⟨_, _, rfl⟩ | hc
        · exact hb
        · refine .commit hc hb (List.mem_append_right _ (List.mem_singleton.mpr ?_))
          rw [hlabel r rfl]

/-- **What a call that has returned did.** -/
theorem returned {pre post : List (Event P ι)} {w : ι → BookPool P} {n : ι} {c : BookCall P} {seen before : FriendBook}
    {v : Value} (run : Run (NetStep P nodes) (fresh P) (pre ++ (n, .finish c seen before (.ok v)) :: post) w) :
    ∃ b, Commit P (nodes n) c.1 seen before (.ok v) b ∧ Origin P pre n seen ∧ Origin P pre n before := by
  obtain ⟨w₁, w₂, run₁, hstep⟩ := run.split
  have horigins := origins run₁ n
  cases hstep with
  | step h =>
      obtain ⟨hstate, x, hslot, hseg⟩ := h.finish_inv
      obtain ⟨hrest, _, hseen⟩ := horigins.calls _ hslot
      rcases (stage_of_rest (rest_val hrest)).done hseg with ⟨_, he, _⟩ | hc
      · cases he
      · exact ⟨_, hc, hseen, hstate ▸ horigins.state⟩

/-! ## What each of the calls has done -/

section Calls

variable {pre post : List (Event P ι)} {e : Event P ι} {w : ι → BookPool P} {n : ι}

theorem Issues.made {nonce : JsString} {token : Value} (run : Run (NetStep P nodes) (fresh P) (pre ++ e :: post) w)
    (h : Issues P e n nonce token) : ∃ ttlSeconds random now, nonce = toB64 P random ∧
      makeToken P (nodes n) ttlSeconds random now = .ok token := by
  cases h with
  | mk hc =>
      obtain ⟨b, hcommit, _⟩ := returned run
      rw [hc] at hcommit
      cases hcommit with
      | issueToken minted => exact ⟨_, _, _, rfl, minted⟩

theorem Accepts.sealed {blob token : Value} {now : Instant}
    (run : Run (NetStep P nodes) (fresh P) (pre ++ e :: post) w) (h : Accepts P e n blob token now) :
    (∃ ephemeral text, blob = .str text ∧ makeAccept P (nodes n) token ephemeral now = .ok text) ∧ token.WF P.toEngine ∧
      ∃ e' ∈ pre, ∃ at_ peer, Receives P e' n token at_ ∧ verifyToken P token at_ = .ok peer := by
  cases h with
  | mk hc hp htoken =>
      obtain ⟨b, hcommit, horigin, _⟩ := returned run
      obtain ⟨token', htoken', hwf, hreceived⟩ := horigin.pending _ _ hp
      obtain rfl := Except.ok.inj (htoken.symm.trans htoken')
      rw [hc] at hcommit
      cases hcommit with
      | accept hp' htoken' fresh sealed hnonce hpeer =>
          obtain rfl := Option.some.inj (hp.symm.trans hp')
          obtain rfl := Except.ok.inj (htoken.symm.trans htoken')
          exact ⟨⟨_, _, rfl, sealed⟩, hwf, hreceived⟩

theorem Confirms.opened {blob : JsString} {record : Value} (run : Run (NetStep P nodes) (fresh P) (pre ++ e :: post) w)
    (h : Confirms P e n blob record) : ∃ accept ref peer now, openAccept P (nodes n) blob = .ok accept ∧
      prop accept (js "ref") = .ok (.str ref) ∧ prop accept (js "from") = .ok peer ∧
      record = friendRecord P peer (.str ref) now ∧ ∃ e' ∈ pre, ∃ token, Issues P e' n ref token := by
  cases h with
  | mk hc =>
      obtain ⟨b, hcommit, _, horigin⟩ := returned run
      rw [hc] at hcommit
      cases hcommit with
      | confirm opened href hoffer unused fresh hpeer hkey =>
          obtain ⟨e', he', hissues⟩ := horigin.offered _ _ hoffer
          exact ⟨_, _, _, _, opened, href, hpeer, rfl, e', he', _, hissues⟩

theorem Revokes.made {notice : Value} (run : Run (NetStep P nodes) (fresh P) (pre ++ e :: post) w)
    (h : Revokes P e n notice) : ∃ peer random now, makeRevoke P (nodes n) peer random now = .ok notice := by
  cases h with
  | @mk _ _ _ _ _ _ _ ended _ hc hnotice =>
      obtain ⟨b, hcommit, _⟩ := returned run
      rw [hc] at hcommit
      generalize hr : (Except.ok ended : Except Exn Value) = r at hcommit
      cases hcommit with
      | issueRevokeNone =>
          obtain rfl := Except.ok.inj hr
          cases hnotice
      | issueRevoke hrec signed =>
          split at hr
          · obtain rfl := Except.ok.inj hr
            obtain rfl := Except.ok.inj hnotice
            exact ⟨_, _, _, signed⟩
          · cases hr

end Calls

/-- **What a node has signed**, one of the signing functions has. -/
theorem SignedBy.signs {tr : List (Event P ι)} {w : ι → BookPool P} (run : Run (NetStep P nodes) (fresh P) tr w) {n : ι}
    {k : Kind} {view : Value} (h : SignedBy P nodes tr n k view) : Signs P (nodes n).id.edPublic k view := by
  cases h with
  | token he hissues hview =>
      obtain ⟨pre, post, rfl⟩ := List.append_of_mem he
      obtain ⟨_, _, _, _, made⟩ := hissues.made run
      exact .token made hview
  | accept he haccepts href =>
      obtain ⟨pre, post, rfl⟩ := List.append_of_mem he
      obtain ⟨⟨ephemeral, text, _, made⟩, hwf, _⟩ := haccepts.sealed run
      obtain ⟨ref', a, _, _, _, href', ha, _⟩ := makeAccept_ok made
      obtain rfl := Except.ok.inj (href.symm.trans href')
      obtain ⟨m, _, rfl⟩ := acceptOf_ok ha
      exact .accept hwf made href ha rfl
  | revoke he hrevokes hview =>
      obtain ⟨pre, post, rfl⟩ := List.append_of_mem he
      obtain ⟨_, _, _, made⟩ := hrevokes.made run
      exact .revoke made hview

/-- **What verifies under a node's key**, the node has signed as the kind it is taken for. -/
theorem Feasible.signed {pre : List (Event P ι)} {e : Event P ι} {w : ι → BookPool P} {n : ι} {k : Kind} {view : Value}
    {m : Bytes} (hf : Feasible P nodes pre e) (run : Run (NetStep P nodes) (fresh P) pre w)
    (h : Checks P nodes e (nodes n).id.edPublic view) (hshape : k.Shaped view) (hwf : view.WF P.toEngine)
    (hbytes : canonicalBytes view = .ok m) : ∃ w, SignedBy P nodes pre n k w ∧ w.WF P.toEngine ∧ JsonEq w view := by
  obtain ⟨k', w, hsigned, heq⟩ := hf.unforged _ view h n rfl
  have hsigns := hsigned.signs run
  have hjson : JsonEq w view := canonicalBytes_inj hsigns.wf hwf (heq.trans hbytes) hbytes
  obtain rfl := hsigns.shaped.eq hshape hjson
  exact ⟨w, hsigned, hsigns.wf, hjson⟩

/-! ## Only returns count -/

variable {pre post : List (Event P ι)} {e : Event P ι} {w : ι → BookPool P} {n m : ι}

section Returns

omit [DecidableEq ι]

variable {pre' : List (Event P ι)}

theorem Issues.isReturn {nonce : JsString} {token : Value} (h : Issues P e n nonce token) : isReturn e = true := by
  cases h
  rfl

theorem Receives.isReturn {token : Value} {now : Instant} (h : Receives P e n token now) : isReturn e = true := by
  cases h
  rfl

theorem Accepts.isReturn {blob token : Value} {now : Instant} (h : Accepts P e n blob token now) : isReturn e = true := by
  cases h
  rfl

theorem Confirms.isReturn {blob : JsString} {record : Value} (h : Confirms P e n blob record) : isReturn e = true := by
  cases h
  rfl

theorem Revokes.isReturn {notice : Value} (h : Revokes P e n notice) : isReturn e = true := by
  cases h
  rfl

theorem Checks.isReturn {pk : Bytes} {view : Value} (h : Checks P nodes e pk view) : isReturn e = true := by
  cases h with
  | receive h => exact h.isReturn
  | confirm h => exact h.isReturn

/-- The two have the same returns. -/
def SameReturns (pre pre' : List (Event P ι)) : Prop := ∀ e, isReturn e = true → (e ∈ pre ↔ e ∈ pre')

theorem sameReturns_filter (pre : List (Event P ι)) : SameReturns (pre.filter isReturn) pre :=
  fun _ he => ⟨List.mem_of_mem_filter, fun h => List.mem_filter.mpr ⟨h, he⟩⟩

theorem SameReturns.symm (h : SameReturns pre pre') : SameReturns pre' pre := fun e he => (h e he).symm

theorem SignedBy.congr {k : Kind} {view : Value} (hsame : SameReturns pre pre') (h : SignedBy P nodes pre n k view) :
    SignedBy P nodes pre' n k view := by
  cases h with
  | token he h hview => exact .token ((hsame _ h.isReturn).mp he) h hview
  | accept he h href => exact .accept ((hsame _ h.isReturn).mp he) h href
  | revoke he h hview => exact .revoke ((hsame _ h.isReturn).mp he) h hview

theorem Seen.congr {nonce : JsString} (hsame : SameReturns pre pre') (h : Seen P pre nonce) : Seen P pre' nonce := by
  obtain ⟨e, he, n, ⟨token, h⟩ | ⟨token, now, h, hnonce⟩⟩ := h
  · exact ⟨e, (hsame e h.isReturn).mp he, n, .inl ⟨token, h⟩⟩
  · exact ⟨e, (hsame e h.isReturn).mp he, n, .inr ⟨token, now, h, hnonce⟩⟩

theorem Feasible.congr (hsame : SameReturns pre pre') (h : Feasible P nodes pre e) : Feasible P nodes pre' e where
  unforged := by
    intro pk view hchecks n hn
    obtain ⟨k, w, hsigned, heq⟩ := h.unforged pk view hchecks n hn
    exact ⟨k, w, hsigned.congr hsame, heq⟩
  boxed := by
    intro n blob record accept view m hconfirms hopened hview hkey
    obtain ⟨e', he', sealed, token, ref, now, haccepts, h⟩ := h.boxed n blob record accept view m hconfirms hopened hview hkey
    exact ⟨e', (hsame e' haccepts.isReturn).mp he', sealed, token, ref, now, haccepts, h⟩
  unseen := fun n nonce token hissues hseen => h.unseen n nonce token hissues (hseen.congr hsame.symm)

theorem OwnNonce.congr (hsame : SameReturns pre pre') (h : OwnNonce P nodes pre e) : OwnNonce P nodes pre' e := by
  rintro m blob token now nonce haccepts hnonce n ⟨e', he', issued, hissues⟩
  exact h m blob token now nonce haccepts hnonce n ⟨e', (hsame e' hissues.isReturn).mpr he', issued, hissues⟩

theorem AcceptedFrom.congr {nonce : JsString} (hsame : SameReturns pre pre') (h : AcceptedFrom P nodes pre m n nonce) :
    AcceptedFrom P nodes pre' m n nonce := by
  obtain ⟨e', he', blob, token, now, peer, haccepts, h⟩ := h
  exact ⟨e', (hsame e' haccepts.isReturn).mp he', blob, token, now, peer, haccepts, h⟩

/-- A property of the returns holds along the trace if it does along the returns. -/
theorem always_returns {Q : List (Event P ι) → Event P ι → Prop} {tr : List (Event P ι)}
    (hreturns : ∀ pre e, (isReturn e = true → Q pre e) → Q pre e)
    (hcongr : ∀ {pre pre' e}, SameReturns pre pre' → Q pre e → Q pre' e) : Always Q (tr.filter isReturn) ↔ Always Q tr := by
  refine always_filter (fun pre e he => hreturns pre e fun h => ?_) fun pre e => ?_
  · rw [h] at he
    cases he
  · exact ⟨hcongr (sameReturns_filter pre), hcongr (sameReturns_filter pre).symm⟩

theorem feasible_returns {tr : List (Event P ι)} :
    Always (Feasible P nodes) (tr.filter isReturn) ↔ Always (Feasible P nodes) tr := by
  refine always_returns (fun pre e h => ⟨?_, ?_, ?_⟩) Feasible.congr
  · exact fun pk view hchecks => (h hchecks.isReturn).unforged pk view hchecks
  · exact fun n blob record accept view m hconfirms => (h hconfirms.isReturn).boxed n blob record accept view m hconfirms
  · exact fun n nonce token hissues => (h hissues.isReturn).unseen n nonce token hissues

theorem ownNonce_returns {tr : List (Event P ι)} :
    Always (OwnNonce P nodes) (tr.filter isReturn) ↔ Always (OwnNonce P nodes) tr :=
  always_returns (fun _ _ h m blob token now nonce haccepts => h haccepts.isReturn m blob token now nonce haccepts)
    OwnNonce.congr

theorem agreement_returns {tr : List (Event P ι)} : Agreement P nodes (tr.filter isReturn) ↔ Agreement P nodes tr := by
  refine always_returns (fun pre e h n m blob record peer pub nonce hconfirms => ?_) fun hsame h => ?_
  · exact h hconfirms.isReturn n m blob record peer pub nonce hconfirms
  · intro n m blob record peer pub nonce hconfirms hpeer hpub hkey hnonce
    exact (h n m blob record peer pub nonce hconfirms hpeer hpub hkey hnonce).congr hsame

end Returns

/-! ## What is feasible -/

section Calls

omit [DecidableEq ι]

variable {c : BookCall P} {seen before : FriendBook} {r : Except Exn Value}

theorem Checks.call {pk : Bytes} {view : Value} (h : Checks P nodes (n, .finish c seen before r) pk view) :
    (∃ token now, c.1 = .receive token now) ∨ ∃ blob now, c.1 = .confirm blob now := by
  cases h with
  | receive h =>
      obtain ⟨hc⟩ := h
      exact .inl ⟨_, _, hc⟩
  | confirm h =>
      obtain ⟨hc⟩ := h
      exact .inr ⟨_, _, hc⟩

theorem Confirms.call {blob : JsString} {record : Value} (h : Confirms P (n, .finish c seen before r) m blob record) :
    m = n ∧ ∃ now, c.1 = .confirm blob now := by
  obtain ⟨hc⟩ := h
  exact ⟨rfl, _, hc⟩

theorem Issues.call {nonce : JsString} {token : Value} (h : Issues P (n, .finish c seen before r) m nonce token) :
    ∃ ttlSeconds random now, c.1 = .issueToken ttlSeconds random now ∧ nonce = toB64 P random := by
  obtain ⟨hc⟩ := h
  exact ⟨_, _, _, hc, rfl⟩

theorem Accepts.call {blob token : Value} {now : Instant} (h : Accepts P (n, .finish c seen before r) m blob token now) :
    m = n ∧ r = .ok blob ∧ ∃ giver ephemeral p, c.1 = .accept giver ephemeral now ∧ seen.pending.get giver = some p ∧
      prop p (js "token") = .ok token := by
  obtain ⟨hc, hp, htoken⟩ := h
  exact ⟨rfl, rfl, _, _, _, hc, hp, htoken⟩

theorem feasible_issue {ttlSeconds : ℚ} {random : Bytes} {now : Instant} (hc : c.1 = .issueToken ttlSeconds random now)
    (h : ¬Seen P pre (toB64 P random)) : Feasible P nodes pre (n, .finish c seen before r) where
  unforged := by
    intro pk view hchecks
    rcases hchecks.call with ⟨_, _, hc'⟩ | ⟨_, _, hc'⟩ <;> cases hc.symm.trans hc'
  boxed := by
    intro n blob record accept view m hconfirms
    obtain ⟨_, _, hc'⟩ := hconfirms.call
    cases hc.symm.trans hc'
  unseen := by
    intro n nonce token hissues
    obtain ⟨_, _, _, hc', rfl⟩ := hissues.call
    cases hc.symm.trans hc'
    exact h

theorem feasible_accept {giver : JsString} {ephemeral : Bytes} {now : Instant} (hc : c.1 = .accept giver ephemeral now) :
    Feasible P nodes pre (n, .finish c seen before r) where
  unforged := by
    intro pk view hchecks
    rcases hchecks.call with ⟨_, _, hc'⟩ | ⟨_, _, hc'⟩ <;> cases hc.symm.trans hc'
  boxed := by
    intro n blob record accept view m hconfirms
    obtain ⟨_, _, hc'⟩ := hconfirms.call
    cases hc.symm.trans hc'
  unseen := by
    intro n nonce token hissues
    obtain ⟨_, _, _, hc', _⟩ := hissues.call
    cases hc.symm.trans hc'

theorem feasible_receive {token : Value} {now : Instant} (hc : c.1 = .receive token now)
    (h : ∀ view n, tokenSignable token = .ok view → NamesKey P token (nodes n).id.edPublic →
      ∃ k w, SignedBy P nodes pre n k w ∧ canonicalBytes w = canonicalBytes view) :
    Feasible P nodes pre (n, .finish c seen before r) where
  unforged := by
    rintro pk view hchecks n rfl
    cases hchecks with
    | receive hreceives hkey hview =>
        obtain ⟨hc'⟩ := hreceives
        cases hc.symm.trans hc'
        exact h view n hview hkey
    | confirm hconfirms =>
        obtain ⟨_, _, hc'⟩ := hconfirms.call
        cases hc.symm.trans hc'
  boxed := by
    intro n blob record accept view m hconfirms
    obtain ⟨_, _, hc'⟩ := hconfirms.call
    cases hc.symm.trans hc'
  unseen := by
    intro n nonce token hissues
    obtain ⟨_, _, _, hc', _⟩ := hissues.call
    cases hc.symm.trans hc'

theorem feasible_confirm {blob : JsString} {now : Instant} {accept : Value} (hc : c.1 = .confirm blob now)
    (opened : openAccept P (nodes n) blob = .ok accept)
    (h : ∀ view m, acceptSignable accept = .ok view → NamesKey P accept (nodes m).id.edPublic →
      ∃ e ∈ pre, ∃ sealed token ref now, Accepts P e m sealed token now ∧ prop token (js "nonce") = .ok ref ∧
        canonicalBytes (acceptView P (nodes m) ref now) = canonicalBytes view ∧
        (sealed = .str blob ∨ ∀ peer pk, prop token (js "from") = .ok peer →
          (prop peer (js "x25519") >>= fromB64 P) = .ok pk → ∀ i, (nodes i).id.xPublic ≠ pk)) :
    Feasible P nodes pre (n, .finish c seen before r) where
  unforged := by
    rintro pk view hchecks m rfl
    cases hchecks with
    | receive hreceives =>
        obtain ⟨hc'⟩ := hreceives
        cases hc.symm.trans hc'
    | confirm hconfirms opened' hkey hview =>
        obtain ⟨rfl, _, hc'⟩ := hconfirms.call
        cases hc.symm.trans hc'
        obtain rfl := Except.ok.inj (opened.symm.trans opened')
        obtain ⟨e, he, sealed, token, ref, now, haccepts, href, hbytes, _⟩ := h view m hview hkey
        exact ⟨.accept, _, .accept he haccepts href, hbytes⟩
  boxed := by
    intro n' blob' record accept' view m hconfirms opened' hview hkey
    obtain ⟨rfl, _, hc'⟩ := hconfirms.call
    cases hc.symm.trans hc'
    obtain rfl := Except.ok.inj (opened.symm.trans opened')
    exact h view m hview hkey
  unseen := by
    intro n nonce token hissues
    obtain ⟨_, _, _, hc', _⟩ := hissues.call
    cases hc.symm.trans hc'

end Calls

/-! ## Agreement, if nonces keep to their tokens -/

/-- **A confirmed accept** answers a token that the confirming node has issued, and its signer has accepted one with the
    nonce: the accept names no more. -/
theorem accepted_by_confirmed {blob nonce : JsString} {record peer pub : Value}
    (run : Run (NetStep P nodes) (fresh P) (pre ++ e :: post) w) (hf : Feasible P nodes pre e)
    (h : Confirms P e n blob record) (hpeer : prop record (js "peer") = .ok peer)
    (hpub : prop peer (js "ed25519") = .ok pub) (hkey : fromB64 P pub = .ok (nodes m).id.edPublic)
    (hnonce : prop record (js "nonce") = .ok (.str nonce)) : (∃ e' ∈ pre, ∃ token, Issues P e' n nonce token) ∧
      ∃ e' ∈ pre, ∃ sealed token now, Accepts P e' m sealed token now ∧ prop token (js "nonce") = .ok (.str nonce) := by
  obtain ⟨accept, ref, peer', now, opened, href, hfrom, rfl, hissued⟩ := h.opened run
  obtain rfl : peer' = peer := Except.ok.inj hpeer
  obtain rfl : ref = nonce := Value.str.inj (Except.ok.inj hnonce)
  refine ⟨hissued, ?_⟩
  obtain ⟨_, view, _, _, _, hview, _, _, _, hverified⟩ := openAccept_ok opened
  obtain ⟨_, _, _, _, hbytes, _⟩ := hverified.ok
  have hwf : view.WF P.toEngine := acceptSignable_wf (openAccept_wf opened) hview
  obtain ⟨w₁, _, run₁, _⟩ := run.split
  obtain ⟨signed, hsigned, hswf, hjson⟩ := hf.signed run₁ (.confirm h opened ⟨_, _, hfrom, hpub, hkey⟩ hview)
    (acceptSignable_shaped hview) hwf hbytes
  cases hsigned with
  | @accept e' sealed token ref' now' he' haccepts href' =>
      have hview_ref : prop view (js "ref") = .ok (.str ref) := by
        obtain ⟨_, _, _, _, _, _, _, _, href'', _, rfl⟩ := acceptSignable_ok hview
        obtain rfl := Except.ok.inj (href.symm.trans href'')
        rfl
      obtain rfl : ref' = .str ref := JsonEq.eq_str (Eq.symm (hjson.field hswf hwf rfl hview_ref))
      exact ⟨e', he', sealed, token, now', haccepts, href'⟩

/-- **A token under a node's key** carries both of the node's keys as the node writes them. -/
theorem own_keys {token peer : Value} {now : Instant} (run : Run (NetStep P nodes) (fresh P) (pre ++ e :: post) w)
    (hf : Feasible P nodes pre e) (h : Receives P e m token now) (hverify : verifyToken P token now = .ok peer)
    (hwf : token.WF P.toEngine) (hkey : NamesKey P token (nodes n).id.edPublic) :
    prop token (js "from") = .ok peer ∧ prop peer (js "ed25519") = .ok (.str (toB64 P (nodes n).id.edPublic)) ∧
      prop peer (js "x25519") = .ok (.str (toB64 P (nodes n).id.xPublic)) := by
  obtain ⟨hfrom, _, view, _, _, hview, _, _, hverified⟩ := verifyToken_ok hverify
  obtain ⟨_, _, _, _, hbytes, _⟩ := hverified.ok
  have hvwf : view.WF P.toEngine := tokenSignable_wf hwf hview
  obtain ⟨w₁, _, run₁, _⟩ := run.split
  obtain ⟨signed, hsigned, hswf, hjson⟩ := hf.signed run₁ (.receive h hkey hview) (tokenSignable_shaped hview) hvwf hbytes
  cases hsigned with
  | token he hissues hsview =>
      obtain ⟨pre', post', rfl⟩ := List.append_of_mem he
      obtain ⟨_, _, _, _, made⟩ := hissues.made run₁
      obtain ⟨_, _, _, _, rfl⟩ := makeToken_ok made
      obtain rfl := Except.ok.inj hsview
      obtain ⟨_, peer', pub, _, _, _, _, hfrom', hpub, _, _, _, rfl⟩ := tokenSignable_ok hview
      obtain rfl := Except.ok.inj (hfrom.symm.trans hfrom')
      obtain ⟨ed25519, x25519, _, _, hed, hx, _, _, rfl⟩ := peerPubJson_ok hpub
      -- field by field, the view is the one that the node has signed
      have hpeer := hjson.field (k := js "from") hswf hvwf rfl rfl
      have hpwf := peerPubJson_wf (prop_wf hwf hfrom) hpub
      have hed' := hpeer.field (k := js "ed25519") (peerPubOf_wf P (nodes n)) hpwf rfl rfl
      have hx' := hpeer.field (k := js "x25519") (peerPubOf_wf P (nodes n)) hpwf rfl rfl
      obtain rfl := hed'.eq_str
      obtain rfl := hx'.eq_str
      exact ⟨hfrom, hed, hx⟩

omit [DecidableEq ι] in
theorem Issues.not_accepts {nonce : JsString} {issued blob token : Value} {now : Instant} (h : Issues P e n nonce issued) :
    ¬Accepts P e m blob token now := by
  intro h'
  cases h with
  | mk hc =>
      cases h' with
      | mk hc' => cases hc.symm.trans hc'

/-- A nonce that is accepted was issued before, or never is: it has been seen. -/
theorem issued_before {mid : List (Event P ι)} {nonce : JsString} {blob token issued : Value} {now : Instant}
    {e' : Event P ι} (run : Run (NetStep P nodes) (fresh P) (pre ++ e :: mid) w)
    (hf : Always (Feasible P nodes) (pre ++ e :: mid)) (h : Accepts P e m blob token now)
    (hnonce : prop token (js "nonce") = .ok (.str nonce)) (hmem : e' ∈ pre ++ e :: mid) (hissues : Issues P e' n nonce issued) :
    e' ∈ pre := by
  rcases List.mem_append.mp hmem with hpre | hlater
  · exact hpre
  · rcases List.mem_cons.mp hlater with rfl | hmid
    · exact absurd h hissues.not_accepts
    · obtain ⟨_, _, e₃, he₃, at_, _, hreceives, _⟩ := h.sealed run
      obtain ⟨mid₁, mid₂, rfl⟩ := List.append_of_mem hmid
      refine absurd ⟨e₃, ?_, m, .inr ⟨token, at_, hreceives, hnonce⟩⟩
        ((hf (pre ++ e :: mid₁) e' mid₂ (by simp)).unseen n nonce issued hissues)
      exact List.mem_append_left _ he₃

/-- **Agreement.** If no honest node accepts, under a nonce that another one has issued, a token from somebody else, then a
    node that confirms the accept of an honest node gave that node the token. -/
theorem agreement_of_ownNonces (P : Platform) (nodes : ι → Self) {tr : List (Event P ι)} {w : ι → BookPool P}
    (run : Run (NetStep P nodes) (fresh P) tr w) (hf : Always (Feasible P nodes) tr) (hown : Always (OwnNonce P nodes) tr) :
    Agreement P nodes tr := by
  intro pre e post htr n m blob record peer pub nonce hconfirms hpeer hpub hkey hnonce
  subst htr
  obtain ⟨⟨e₁, he₁, issued, hissues⟩, e₂, he₂, sealed, token, now, haccepts, htoken⟩ :=
    accepted_by_confirmed run (hf _ _ _ rfl) hconfirms hpeer hpub hkey hnonce
  obtain ⟨w₁, _, run₁, _⟩ := run.split
  have hf₁ : Always (Feasible P nodes) pre := hf.take
  obtain ⟨pre₂, mid, rfl⟩ := List.append_of_mem he₂
  have hbefore : e₁ ∈ pre₂ := issued_before run₁ hf₁ haccepts htoken he₁ hissues
  have hnames : NamesKey P token (nodes n).id.edPublic :=
    hown _ _ _ (List.append_assoc ..) m sealed token now nonce haccepts htoken n ⟨e₁, hbefore, issued, hissues⟩
  obtain ⟨_, hwf, e₃, he₃, at_, peer₃, hreceives, hverify⟩ := haccepts.sealed run₁
  obtain ⟨w₂, _, run₂, _⟩ := run₁.split
  obtain ⟨pre₃, mid₃, rfl⟩ := List.append_of_mem he₃
  have hkeys := own_keys run₂ (hf₁.take _ _ _ rfl) hreceives hverify hwf hnames
  exact ⟨e₂, he₂, sealed, token, now, peer₃, haccepts, htoken, hkeys⟩

end Network

namespace Symbolic

open Js Async Network Value

/-- Two nodes, 1 and 2. -/
def couple : Bool → Self
  | true => node 1
  | false => node 2

/-- What node 2 answers to the token of node `g` with the nonce. -/
def replyTo (g : UInt8) : JsString := ((makeAccept platform (node 2) (invite g [7]) [] epoch).toOption).getD []

/-- What node 3 makes of an answer to it: it opens the box, and seals what is in it to node 1. -/
def resealed : JsString :=
  match openBlob platform (node 3) (replyTo 3) with
  | .ok inner => toB64 platform ((platform.boxSeal [] inner (node 1).id.xPublic).getD [])
  | .error _ => []

theorem resealed_reply : resealed = replyTo 1 := by decide +kernel

def receivedFrom (g : UInt8) : FriendBook :=
  { FriendBook.empty with
    pending := FriendBook.empty.pending.set (toHex [g]) (pendingEntry platform (invite g [7]) epoch) }

def issuedOne : FriendBook :=
  { FriendBook.empty with offered := FriendBook.empty.offered.set (toHex [7]) (invite 1 [7]) }

theorem invite_wf_of (n : UInt8) (random : Bytes) : (invite n random).WF platform.toEngine :=
  makeToken_wf (invite_minted n random)

/-- Node 1 gives its token, node 2 accepts the token of node `g` with the nonce, and node 1 confirms the blob. -/
def exchange (g : UInt8) (blob : JsString) : List (Event platform Bool) :=
  [(true, .finish ⟨.issueToken 60 [7] epoch, trivial⟩ .empty .empty (.ok (invite 1 [7]))),
    (false, .finish ⟨.receive (invite g [7]) epoch, invite_wf_of g [7]⟩ .empty .empty (.ok (peerPubOf platform (node g)))),
    (false, .finish ⟨.accept (toHex [g]) [] epoch, trivial⟩ (receivedFrom g) (receivedFrom g) (.ok (.str (replyTo g)))),
    (true, .finish ⟨.confirm blob epoch, trivial⟩ issuedOne issuedOne
      (.ok (friendRecord platform (peerPubOf platform (node 2)) (.str (toHex [7])) epoch)))]

theorem replyTo_sealed (g : UInt8) : makeAccept platform (node 2) (invite g [7]) [] epoch = .ok (replyTo g) :=
  eq_ok_getD _ (makeAccept_mints codec (node 2) [] epoch (makeToken_nonce (invite_minted g [7]))
    (makeToken_from (invite_minted g [7])) fun _ => rfl)

/-- What node 1 finds in it. -/
def answer : Value := ((openAccept platform (node 1) (replyTo 1)).toOption).getD .undefined

theorem reply_opened : openAccept platform (node 1) (replyTo 1) = .ok answer := by
  decide +kernel

theorem answer_view : ∃ view, acceptSignable answer = .ok view ∧
    canonicalBytes view = canonicalBytes (acceptView platform (node 2) (.str (toHex [7])) epoch) := by
  refine ⟨((acceptSignable answer).toOption).getD .undefined, ?_, ?_⟩ <;> decide +kernel

theorem answer_fields : prop answer (js "ref") = .ok (.str (toHex [7])) ∧
    prop answer (js "from") = .ok (peerPubOf platform (node 2)) := by
  obtain ⟨a, opened, href, hfrom⟩ := accept_opens codec (keyPairs 1) (keyPairs 2) (replyTo_sealed 1)
    (makeToken_from (invite_minted 1 [7])) (makeToken_nonce (invite_minted 1 [7]))
  obtain rfl := Except.ok.inj (reply_opened.symm.trans opened)
  exact ⟨href, hfrom⟩

theorem exchange_made (g : UInt8) (hg : toHex [g] ≠ toHex [2]) :
    ∃ books, InTurn (fun n => BookCall.task platform (couple n)) (fun _ => .empty) (exchange g (replyTo 1)) books := by
  have minted := invite_minted g [7]
  have issued : Commit platform (node 1) (.issueToken 60 [7] epoch) .empty .empty (.ok (invite 1 [7])) issuedOne :=
    .issueToken (invite_minted 1 [7])
  have received : Commit platform (node 2) (.receive (invite g [7]) epoch) .empty .empty
      (.ok (peerPubOf platform (node g))) (receivedFrom g) :=
    .receive (invite_verifies g [7]) (makeToken_nonce minted) (by decide) rfl hg
  have hpending : (receivedFrom g).pending.get (toHex [g]) = some (pendingEntry platform (invite g [7]) epoch) :=
    OrdMap.get_set_self ..
  have accepted (b : FriendBook) :=
    Commit.accept (b := b) hpending rfl (verifyToken_ok (invite_verifies g [7])).2.1 (replyTo_sealed g)
      (makeToken_nonce minted) (makeToken_from minted)
  have hoffer : issuedOne.offered.get (toHex [7]) = some (invite 1 [7]) := OrdMap.get_set_self ..
  have confirmed (seen : FriendBook) : Commit platform (node 1) (.confirm (replyTo 1) epoch) seen issuedOne _ _ :=
    .confirm reply_opened answer_fields.1 hoffer (by decide) (verifyToken_ok (invite_verifies 1 [7])).2.1
      answer_fields.2 rfl
  exact ⟨_, (((InTurn.nil.call (n := true) issued.run).call (n := false) received.run).call (n := false)
    (accepted _).run).call (n := true) (confirmed _).run⟩

theorem node_key {n : UInt8} {v : Value} {pk : Bytes} (hfrom : prop v (js "from") = .ok (peerPubOf platform (node n)))
    (h : NamesKey platform v pk) : pk = [n] := by
  obtain ⟨peer, pub, hpeer, hpub, hkey⟩ := h
  obtain rfl := Except.ok.inj (hfrom.symm.trans hpeer)
  obtain rfl := Except.ok.inj hpub
  exact Except.ok.inj (hkey.symm.trans (codec.fromB64 [n]))

/-- Node 3 has keys of its own, and opens what is sealed to it: an attacker can do no less. -/
theorem exchange_feasible {g : UInt8} (hg : g = 1 ∨ g = 3) :
    Always (Feasible platform couple) (exchange g (replyTo 1)) := by
  have hfrom : prop (invite g [7]) (js "from") = .ok (peerPubOf platform (node g)) := makeToken_from (invite_minted g [7])
  refine (((always_nil.snoc ?_).snoc ?_).snoc ?_).snoc ?_
  · refine feasible_issue rfl ?_
    rintro ⟨e, he, _⟩
    cases he
  · refine feasible_receive rfl fun view n hview hkey => ?_
    have hn := node_key hfrom hkey
    rcases hg with rfl | rfl
    · cases n with
      | true => exact ⟨.token, view, .token (List.mem_singleton_self _) (.mk rfl) hview, rfl⟩
      | false => exact absurd hn (by decide)
    · cases n <;> exact absurd hn (by decide)
  · exact feasible_accept rfl
  · refine feasible_confirm rfl reply_opened fun view m hview hkey => ?_
    have hm := node_key answer_fields.2 hkey
    obtain ⟨view', hview', hbytes⟩ := answer_view
    obtain rfl := Except.ok.inj (hview.symm.trans hview')
    cases m with
    | true => exact absurd hm (by decide)
    | false =>
        refine ⟨_, List.mem_append_right _ (List.mem_singleton_self _), _, _, _, _,
          .mk rfl (OrdMap.get_set_self ..) rfl, makeToken_nonce (invite_minted g [7]), hbytes.symm, ?_⟩
        rcases hg with rfl | rfl
        · exact .inl rfl
        · refine .inr fun peer pk hpeer hpk i => ?_
          obtain rfl := Except.ok.inj (hfrom.symm.trans hpeer)
          obtain rfl := Except.ok.inj (hpk.symm.trans (codec.fromB64 [103]))
          cases i <;> decide

/-- The only token that node 2 accepts. -/
theorem exchange_accepts {g : UInt8} {blob : JsString} {e : Event platform Bool} {m : Bool} {sealed token : Value}
    {now : Instant} (he : e ∈ exchange g blob) (h : Accepts platform e m sealed token now) : token = invite g [7] := by
  rcases List.mem_cons.mp he with rfl | he
  · obtain ⟨_, _, _, _, _, hc, _⟩ := h.call
    cases hc
  rcases List.mem_cons.mp he with rfl | he
  · obtain ⟨_, _, _, _, _, hc, _⟩ := h.call
    cases hc
  rcases List.mem_cons.mp he with rfl | he
  · obtain ⟨_, _, _, _, _, hc, hp, htoken⟩ := h.call
    cases hc
    obtain rfl := Option.some.inj (hp.symm.trans (OrdMap.get_set_self ..))
    exact (Except.ok.inj htoken).symm
  · obtain rfl := List.mem_singleton.mp he
    obtain ⟨_, _, _, _, _, hc, _⟩ := h.call
    cases hc

theorem exchange_issues {g : UInt8} {blob nonce : JsString} {e : Event platform Bool} {n : Bool} {token : Value}
    (he : e ∈ exchange g blob) (h : Issues platform e n nonce token) : n = true := by
  rcases List.mem_cons.mp he with rfl | he
  · cases h
    rfl
  rcases List.mem_cons.mp he with rfl | he
  · obtain ⟨_, _, _, hc, _⟩ := h.call
    cases hc
  rcases List.mem_cons.mp he with rfl | he
  · obtain ⟨_, _, _, hc, _⟩ := h.call
    cases hc
  · obtain rfl := List.mem_singleton.mp he
    obtain ⟨_, _, _, hc, _⟩ := h.call
    cases hc

theorem exchange_ownNonce : Always (OwnNonce platform couple) (exchange 1 (replyTo 1)) := by
  intro pre e post htr m sealed token now nonce haccepts hnonce n ⟨e', he', issued, hissues⟩
  have he : e ∈ exchange 1 (replyTo 1) := htr ▸ List.mem_append_right _ (List.mem_cons_self ..)
  have he' : e' ∈ exchange 1 (replyTo 1) := htr ▸ List.mem_append_left _ he'
  obtain rfl := exchange_accepts he haccepts
  obtain rfl := exchange_issues he' hissues
  exact ⟨_, _, makeToken_from (invite_minted 1 [7]), rfl, codec.fromB64 [1]⟩

theorem exchange_agreed : ∃ tr w, Run (NetStep platform couple) (fresh platform) tr w ∧
    Always (Feasible platform couple) tr ∧ Always (OwnNonce platform couple) tr ∧
    tr.filter isReturn = exchange 1 (replyTo 1) ∧ Agreement platform couple tr := by
  obtain ⟨books, made⟩ := exchange_made 1 (by decide)
  obtain ⟨tr, run, htr⟩ := made.run fun _ => requests_read
  have hf : Always (Feasible platform couple) tr := feasible_returns.mp (htr ▸ exchange_feasible (.inl rfl))
  have hown : Always (OwnNonce platform couple) tr := ownNonce_returns.mp (htr ▸ exchange_ownNonce)
  exact ⟨tr, _, run, hf, hown, htr, agreement_of_ownNonces platform couple run hf hown⟩

/-- Node 3 has put node 1's nonce into a token of its own. Node 2 befriends node 3, and node 1 records node 2. -/
theorem nonce_stolen : ∃ tr w, Run (NetStep platform couple) (fresh platform) tr w ∧
    Always (Feasible platform couple) tr ∧ tr.filter isReturn = exchange 3 resealed ∧ ¬Agreement platform couple tr := by
  rw [resealed_reply]
  obtain ⟨books, made⟩ := exchange_made 3 (by decide)
  obtain ⟨tr, run, htr⟩ := made.run fun _ => requests_read
  refine ⟨tr, _, run, feasible_returns.mp (htr ▸ exchange_feasible (.inr rfl)), htr, fun h => ?_⟩
  rw [← agreement_returns, htr] at h
  obtain ⟨e, he, _, token, _, peer, haccepts, _, hpeer, hed, _⟩ := h [_, _, _] _ [] rfl true false (replyTo 1) _ _ _
    (toHex [7]) (.mk rfl) rfl rfl (codec.fromB64 [2]) rfl
  have hmem : e ∈ exchange 3 (replyTo 1) := List.mem_append_left [_] he
  obtain rfl := exchange_accepts hmem haccepts
  obtain rfl := Except.ok.inj ((makeToken_from (invite_minted 3 [7])).symm.trans hpeer)
  exact absurd hed (by decide)

end Symbolic

end Island
end VpnPi
