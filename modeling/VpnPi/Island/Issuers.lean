import VpnPi.Island.Network

/-!
# `Island.Issuers` — whose token an honest node has accepted

What an honest node records of another one goes back to the tokens that both have seen.

* `accepted_as_issued` — a token that is accepted under a node's key is one that the node has issued, field by field.
* `own_or_stranger` — when a node confirms the accept of another one, the token that was accepted is its own, or is signed
  by somebody who is none of the nodes: no honest third party is ever taken for it.
-/

namespace VpnPi
namespace Island
namespace Network

open Js Async Pool Value

variable {P : Platform} {ι : Type} [DecidableEq ι] {nodes : ι → Self}

/-- The two tokens agree in every field that is text. -/
structure SameInvite (issued token : Value) : Prop where
  fields : ∀ k ∈ [js "nonce", js "issued", js "expires"], prop token k = prop issued k
  sender : ∀ k ∈ [js "ed25519", js "x25519", js "label", js "wg0"],
    (prop token (js "from") >>= fun peer => prop peer k) = (prop issued (js "from") >>= fun peer => prop peer k)

/-- The token carries both keys of the node. -/
def Carries (P : Platform) (me : Self) (token : Value) : Prop :=
  ∃ peer, prop token (js "from") = .ok peer ∧ prop peer (js "ed25519") = .ok (.str (toB64 P me.id.edPublic)) ∧
    prop peer (js "x25519") = .ok (.str (toB64 P me.id.xPublic))

variable {pre post : List (Event P ι)} {e : Event P ι} {w : ι → BookPool P} {n m : ι}

/-- **A view with text in it** has the same text in every view that is equal as JSON. -/
theorem text_field {a b u : Value} {k s : JsString} (h : JsonEq a b) (ha : a.WF P.toEngine) (hb : b.WF P.toEngine)
    (hs : prop a k = .ok (.str s)) (hu : prop b k = .ok u) : u = .str s :=
  (h.field ha hb hs hu).eq_str

/-- What verifies as a node's token has been issued by the node. -/
theorem issued_of_received {token peer : Value} {now : Instant} (run : Run (NetStep P nodes) (fresh P) (pre ++ e :: post) w)
    (hf : Feasible P nodes pre e) (h : Receives P e m token now) (hverify : verifyToken P token now = .ok peer)
    (hwf : token.WF P.toEngine) (hkey : NamesKey P token (nodes n).id.edPublic) :
    ∃ e' ∈ pre, ∃ nonce issued, Issues P e' n nonce issued ∧ prop token (js "nonce") = .ok (.str nonce) ∧
      SameInvite issued token ∧ Carries P (nodes n) token := by
  obtain ⟨hfrom, _, view, _, _, hview, _, _, hverified⟩ := verifyToken_ok hverify
  obtain ⟨_, _, _, _, hbytes, _⟩ := hverified.ok
  have hvwf : view.WF P.toEngine := tokenSignable_wf hwf hview
  obtain ⟨w₁, _, run₁, _⟩ := run.split
  obtain ⟨signed, hsigned, hswf, hjson⟩ := hf.signed run₁ (.receive h hkey hview) (tokenSignable_shaped hview) hvwf hbytes
  cases hsigned with
  | @token e' _ issued _ he hissues hsview =>
      obtain ⟨pre', post', rfl⟩ := List.append_of_mem he
      obtain ⟨_, _, _, rfl, made⟩ := hissues.made run₁
      obtain ⟨_, _, _, _, rfl⟩ := makeToken_ok made
      obtain rfl := Except.ok.inj hsview
      obtain ⟨_, peer', pub, nonce, issuedAt, expires, _, hfrom', hpub, hnonce, hissued, hexpires, rfl⟩ := tokenSignable_ok hview
      obtain rfl := Except.ok.inj (hfrom.symm.trans hfrom')
      obtain ⟨ed25519, x25519, label, wg0, hed, hx, hlabel, hwg0, rfl⟩ := peerPubJson_ok hpub
      -- the fields of the token itself
      obtain rfl := text_field (k := js "nonce") hjson hswf hvwf rfl rfl
      obtain rfl := text_field (k := js "issued") hjson hswf hvwf rfl rfl
      obtain rfl := text_field (k := js "expires") hjson hswf hvwf rfl rfl
      -- the fields of its sender
      have hpeer := hjson.field (k := js "from") hswf hvwf rfl rfl
      have hpwf := peerPubJson_wf (prop_wf hwf hfrom) hpub
      obtain rfl := text_field (k := js "ed25519") hpeer (peerPubOf_wf P (nodes n)) hpwf rfl rfl
      obtain rfl := text_field (k := js "x25519") hpeer (peerPubOf_wf P (nodes n)) hpwf rfl rfl
      obtain rfl := text_field (k := js "label") hpeer (peerPubOf_wf P (nodes n)) hpwf rfl rfl
      obtain rfl := text_field (k := js "wg0") hpeer (peerPubOf_wf P (nodes n)) hpwf rfl rfl
      refine ⟨_, he, _, _, hissues, hnonce, ⟨?_, ?_⟩, peer, hfrom, hed, hx⟩
      · simp only [List.forall_mem_cons]
        exact ⟨hnonce, hissued, hexpires, List.forall_mem_nil _⟩
      · rw [hfrom]
        simp only [List.forall_mem_cons]
        exact ⟨hed, hx, hlabel, hwg0, List.forall_mem_nil _⟩

theorem issued_of_accepted {sealed token : Value} {now : Instant} (run : Run (NetStep P nodes) (fresh P) (pre ++ e :: post) w)
    (hf : Always (Feasible P nodes) pre) (h : Accepts P e m sealed token now)
    (hkey : NamesKey P token (nodes n).id.edPublic) :
    ∃ e' ∈ pre, ∃ nonce issued, Issues P e' n nonce issued ∧ prop token (js "nonce") = .ok (.str nonce) ∧
      SameInvite issued token ∧ Carries P (nodes n) token := by
  obtain ⟨_, hwf, e₁, he₁, at_, peer, hreceives, hverify⟩ := h.sealed run
  obtain ⟨w₁, _, run₁, _⟩ := run.split
  obtain ⟨pre₁, mid, rfl⟩ := List.append_of_mem he₁
  obtain ⟨e', he', hissued⟩ := issued_of_received run₁ (hf _ _ _ rfl) hreceives hverify hwf hkey
  exact ⟨e', List.mem_append_left _ he', hissued⟩

/-- A token that is accepted under the key of a node is one that the node has issued. -/
def AsIssued (P : Platform) (nodes : ι → Self) (pre : List (Event P ι)) (e : Event P ι) : Prop :=
  ∀ m n sealed token now, Accepts P e m sealed token now → NamesKey P token (nodes n).id.edPublic →
    ∃ e' ∈ pre, ∃ nonce issued, Issues P e' n nonce issued ∧ prop token (js "nonce") = .ok (.str nonce) ∧
      SameInvite issued token

/-- **What is accepted under a node's key** the node has issued, in every run and whatever an attacker posts. -/
theorem accepted_as_issued (P : Platform) (nodes : ι → Self) {tr : List (Event P ι)} {w : ι → BookPool P}
    (run : Run (NetStep P nodes) (fresh P) tr w) (hf : Always (Feasible P nodes) tr) : Always (AsIssued P nodes) tr := by
  intro pre e post htr m n sealed token now haccepts hkey
  subst htr
  obtain ⟨e', he', nonce, issued, hissues, hnonce, hsame, _⟩ := issued_of_accepted run hf.take haccepts hkey
  exact ⟨e', he', nonce, issued, hissues, hnonce, hsame⟩

/-! ## One issuer for a nonce -/

omit [DecidableEq ι] in
theorem Issues.node {nonce : JsString} {issued : Value} (h : Issues P e n nonce issued) : e.1 = n := by
  cases h
  rfl

omit [DecidableEq ι] in
/-- A nonce is issued once. -/
theorem issuer_unique {tr : List (Event P ι)} {e e' : Event P ι} {nonce : JsString} {issued issued' : Value}
    (hf : Always (Feasible P nodes) tr) (he : e ∈ tr) (he' : e' ∈ tr) (h : Issues P e n nonce issued)
    (h' : Issues P e' m nonce issued') : n = m := by
  obtain ⟨pre, post, rfl⟩ := List.append_of_mem he
  rcases List.mem_append.mp he' with hbefore | hafter
  · exact absurd ⟨e', hbefore, m, .inl ⟨issued', h'⟩⟩ ((hf _ _ _ rfl).unseen n nonce issued h)
  · rcases List.mem_cons.mp hafter with rfl | hafter
    · exact h.node.symm.trans h'.node
    · obtain ⟨mid, rest, rfl⟩ := List.append_of_mem hafter
      refine absurd ⟨e, ?_, n, .inl ⟨issued, h⟩⟩ ((hf (pre ++ e :: mid) e' rest (by simp)).unseen m nonce issued' h')
      exact List.mem_append_right _ (List.mem_cons_self ..)

/-- When node `n` confirms, and records the key of node `m` under a nonce, node `m` has accepted a token with the nonce:
    node `n`'s, or that of somebody who is none of the nodes. -/
def OwnOrStranger (P : Platform) (nodes : ι → Self) (pre : List (Event P ι)) (e : Event P ι) : Prop :=
  ∀ n m blob record peer pub nonce, Confirms P e n blob record → prop record (js "peer") = .ok peer →
    prop peer (js "ed25519") = .ok pub → fromB64 P pub = .ok (nodes m).id.edPublic →
    prop record (js "nonce") = .ok (.str nonce) → ∃ e' ∈ pre, ∃ sealed token now, Accepts P e' m sealed token now ∧
      prop token (js "nonce") = .ok (.str nonce) ∧
      (Carries P (nodes n) token ∨ ∀ i, ¬NamesKey P token (nodes i).id.edPublic)

/-- **Its own token, or a stranger's**: no node is taken for another one. -/
theorem own_or_stranger (P : Platform) (nodes : ι → Self) {tr : List (Event P ι)} {w : ι → BookPool P}
    (run : Run (NetStep P nodes) (fresh P) tr w) (hf : Always (Feasible P nodes) tr) :
    Always (OwnOrStranger P nodes) tr := by
  intro pre e post htr n m blob record peer pub nonce hconfirms hpeer hpub hkey hnonce
  subst htr
  obtain ⟨⟨e₁, he₁, issued, hissues⟩, e₂, he₂, sealed, token, now, haccepts, htoken⟩ :=
    accepted_by_confirmed run (hf _ _ _ rfl) hconfirms hpeer hpub hkey hnonce
  refine ⟨e₂, he₂, sealed, token, now, haccepts, htoken, ?_⟩
  by_cases hstranger : ∀ i, ¬NamesKey P token (nodes i).id.edPublic
  · exact .inr hstranger
  · obtain ⟨i, hi⟩ := not_forall_not.mp hstranger
    obtain ⟨w₁, _, run₁, _⟩ := run.split
    obtain ⟨pre₂, mid, rfl⟩ := List.append_of_mem he₂
    obtain ⟨e₃, he₃, nonce', issued', hissues', hnonce', _, hcarries⟩ :=
      issued_of_accepted run₁ hf.take.take haccepts hi
    obtain rfl : nonce' = nonce := Value.str.inj (Except.ok.inj (hnonce'.symm.trans htoken))
    -- the nonce is fresh, so its two issuers are one
    obtain rfl : i = n := issuer_unique hf.take (List.mem_append_left _ he₃) he₁ hissues' hissues
    exact .inl hcarries

end Network

namespace Symbolic

open Js Async Network Value

theorem exchange_as_issued : ∃ tr w, Run (NetStep platform couple) (fresh platform) tr w ∧
    Always (Feasible platform couple) tr ∧ tr.filter isReturn = exchange 1 (replyTo 1) ∧
    Always (AsIssued platform couple) tr := by
  obtain ⟨books, made⟩ := exchange_made 1 (by decide)
  obtain ⟨tr, run, htr⟩ := made.run fun _ => requests_read
  have hf : Always (Feasible platform couple) tr := feasible_returns.mp (htr ▸ exchange_feasible (.inl rfl))
  exact ⟨tr, _, run, hf, htr, accepted_as_issued platform couple run hf⟩

/-- Node 2 has accepted node 3's token: that of a stranger. -/
theorem stranger_confirmed : ∃ tr w, Run (NetStep platform couple) (fresh platform) tr w ∧
    Always (Feasible platform couple) tr ∧ tr.filter isReturn = exchange 3 (replyTo 1) ∧
    Always (OwnOrStranger platform couple) tr := by
  obtain ⟨books, made⟩ := exchange_made 3 (by decide)
  obtain ⟨tr, run, htr⟩ := made.run fun _ => requests_read
  have hf : Always (Feasible platform couple) tr := feasible_returns.mp (htr ▸ exchange_feasible (.inr rfl))
  exact ⟨tr, _, run, hf, htr, own_or_stranger platform couple run hf⟩

end Symbolic

end Island
end VpnPi
