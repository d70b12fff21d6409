import VpnPi.Async.Evidence
import VpnPi.Island.Era
import VpnPi.Island.Network

/-!
# `Island.Removal` — who can end a friendship (`core/friends.ts`)

Many nodes, each with a book whose calls interleave and which is saved and read back, and notices that may come from anyone.
A signature that verifies under a node's key is one that the node has made (`Unforged`).

* `ended_by_either` — when a node has lost a friend who is another one of the nodes, one of the two has ended the friendship:
  the node by `revoke` or `issueRevoke`, or the friend by an `issueRevoke` of the node's key that has returned a notice.
-/

namespace VpnPi
namespace Island
namespace Removal

open Js Async Pool Value

variable (P : Platform) {ι : Type} [DecidableEq ι] (nodes : ι → Self)

/-- What happens at one of the nodes. -/
abbrev Event (ι : Type) : Type := ι × LifeEvent P

/-- One node starts, suspends or finishes a call, or restarts. -/
def LivesStep : (ι → BookPool P) → Event P ι → (ι → BookPool P) → Prop := Each fun n => LifeStep P (nodes n)

/-- Every book is new. -/
def unused : ι → BookPool P := fun _ => ⟨.empty, []⟩

/-- An `issueRevoke` of node `n` has returned a notice that ends the friendship with the key. -/
inductive Mints : Event P ι → ι → JsString → Bytes → Instant → Prop
  | mk {n : ι} {c : BookCall P} {seen before : FriendBook} {notice wg0 : Value} {K : JsString} {random : Bytes} {now : Instant}
      (hc : c.1 = .issueRevoke K random now) (minted : makeRevoke P (nodes n) K random now = .ok notice) :
      Mints (n, .call (.finish c seen before (.ok (.obj [(js "notice", notice), (js "wg0", wg0)])))) n K random now

/-- A call of node `n`'s operator has ended the friendship with the key. -/
inductive Ends : Event P ι → ι → JsString → Prop
  | revoke {n : ι} {c : BookCall P} {seen before : FriendBook} {K : JsString} (hc : c.1 = .revoke K) :
      Ends (n, .call (.finish c seen before (.ok (.bool true)))) n K
  | issueRevoke {e : Event P ι} {n : ι} {K : JsString} {random : Bytes} {now : Instant}
      (minted : Mints P nodes e n K random now) : Ends e n K

/-- Node `n` has signed the bytes of this value: as a notice that it has returned, or ever as something else. -/
def HasSigned (pre : List (Event P ι)) (n : ι) (v : Value) : Prop :=
  (∃ k w, k ≠ .revoke ∧ Signs P (nodes n).id.edPublic k w ∧ canonicalBytes w = canonicalBytes v) ∨
    ∃ e ∈ pre, ∃ K random now, Mints P nodes e n K random now ∧
      canonicalBytes (revokeView P (nodes n) K random now) = canonicalBytes v

/-- **Signatures are unforgeable.** Of a node's signatures, a notice has one that was made. -/
def Unforged (pre : List (Event P ι)) (e : Event P ι) : Prop :=
  ∀ n c seen before r notice now, e = (n, .call (.finish c seen before r)) → c.1 = .receiveRevoke notice now →
    ∀ view sig pub m, revokeSignable notice = .ok view → prop notice (js "sig") = .ok sig → Verified P view sig pub →
      fromB64 P pub = .ok (nodes m).id.edPublic → HasSigned P nodes pre m view

variable {P nodes} {pre : List (Event P ι)} {n m : ι} {K : JsString}

/-! ## What a step takes away -/

/-- A peer's record has every property, if only `undefined`. -/
theorem peer_prop {peer : Value} (h : KeyOf P K peer) (k : JsString) : ∃ v, prop peer k = .ok v := by
  have hown := prop_ok.mp h.own
  cases peer with
  | undefined => cases hown
  | null => cases hown
  | _ => exact ⟨_, rfl⟩

/-- **What takes a friend away**: a call of the operator's, or a notice that verifies under the key of the record. -/
theorem Commit.removes {me : Self} {c : BookCall P} {seen b b' : FriendBook} {r : Except Exn Value}
    (h : Commit P me c.1 seen b r b') (hseen : Keyed P seen) (hhad : b.friends.has K = true)
    (hgone : b'.friends.has K = false) : (c.1 = .revoke K ∧ r = .ok (.bool true)) ∨
      (∃ random now notice wg0, c.1 = .issueRevoke K random now ∧ makeRevoke P me K random now = .ok notice ∧
        r = .ok (.obj [(js "notice", notice), (js "wg0", wg0)])) ∨
      ∃ notice now view sig, c.1 = .receiveRevoke notice now ∧ revokeSignable notice = .ok view ∧
        prop notice (js "sig") = .ok sig ∧ prop view (js "target") = .ok (.str (selfEd P me)) ∧
        Verified P view sig (.str K) := by
  have kept {friends : OrdMap JsString Value} {L : JsString} {v : Value} (hhad : friends.has K = true)
      (hgone : (friends.set L v).has K = false) : False := by
    rw [OrdMap.has, OrdMap.get_set] at hgone
    split at hgone
    · cases hgone
    · exact Bool.false_ne_true (hgone.symm.trans hhad)
  have deleted {friends : OrdMap JsString Value} {L : JsString} (hhad : friends.has K = true)
      (hgone : (friends.delete L).has K = false) : L = K := by
    by_contra hne
    rw [OrdMap.has, OrdMap.get_delete_ne (Ne.symm hne)] at hgone
    exact Bool.false_ne_true (hgone.symm.trans hhad)
  generalize hcall : c.1 = call at h
  -- the calls that store a friend keep `K`; of those that delete one, `K` is the one deleted
  cases h with
  | issueToken minted => exact absurd (hhad.symm.trans hgone) Bool.false_ne_true.symm
  | receive verified hnonce unused hkey other => exact absurd (hhad.symm.trans hgone) Bool.false_ne_true.symm
  | accept hp htoken fresh sealed hnonce hpeer => exact (kept hhad hgone).elim
  | confirm opened href hoffer unused fresh hpeer hkey => exact (kept hhad hgone).elim
  | revoke peer =>
      obtain rfl := deleted hhad hgone
      exact .inl ⟨rfl, by rw [hhad]⟩
  | issueRevokeNone hrec => exact absurd (hhad.symm.trans hgone) Bool.false_ne_true.symm
  | @issueRevoke _ _ _ rec_ _ _ _ hrec signed =>
      obtain rfl := deleted hhad hgone
      obtain ⟨peer, hpeer, hkey⟩ := hseen.friends _ _ hrec
      obtain ⟨wg0, hwg0⟩ := peer_prop hkey (js "wg0")
      refine .inr (.inl ⟨_, _, _, wg0, rfl, signed, ?_⟩)
      have hboth : (prop rec_ (js "peer") >>= fun peer => prop peer (js "wg0")) = .ok wg0 := bind_ok.mpr ⟨peer, hpeer, hwg0⟩
      rw [hboth]
  | receiveRevoke shape htarget hpeer hrec hnonce unused verified hat hsince current =>
      obtain rfl := deleted hhad hgone
      obtain ⟨peer, hstored, hkey⟩ := hseen.friends _ _ hrec
      obtain ⟨view, hview, hverify⟩ := bind_ok.mp verified
      obtain ⟨sig, hsig, hverify⟩ := bind_ok.mp hverify
      obtain ⟨stored, hstored', hverify⟩ := bind_ok.mp hverify
      obtain rfl := Except.ok.inj (hstored.symm.trans hstored')
      obtain ⟨pub, hpub, hverify⟩ := bind_ok.mp hverify
      obtain rfl := Except.ok.inj (hkey.own.symm.trans hpub)
      refine .inr (.inr ⟨_, _, view, sig, rfl, hview, hsig, ?_, verify_true hverify⟩)
      obtain ⟨_, _, target, _, _, _, _, htarget', _, _, rfl⟩ := revokeSignable_ok hview
      obtain rfl := Except.ok.inj (htarget.symm.trans htarget')
      rfl

theorem lives_inv {tr : List (Event P ι)} {w : ι → BookPool P} (run : Run (LivesStep P nodes) (unused P) tr w) :
    ∀ n, LifeInv P (nodes n) (w n) := by
  refine run.members (I := fun _ n p => LifeInv P (nodes n) p) (fun n => ⟨.empty, ?_⟩) (fun _ _ _ _ h => h)
    fun _ _ _ _ _ ih h => h.inv ih
  intro e he
  cases he

omit [DecidableEq ι] in
theorem revokeView_wf (me : Self) (random : Bytes) (now : Instant) : (revokeView P me K random now).WF P.toEngine :=
  ⟨show [js "v", js "from", js "target", js "nonce", js "at"].Nodup by decide, one_wf P, trivial, trivial, trivial, trivial,
    trivial⟩

omit [DecidableEq ι] in
/-- A node that has signed what verifies as a notice has minted one for the target. -/
theorem HasSigned.minted {view : Value} {target : JsString} (h : HasSigned P nodes pre m view)
    (hview : ∃ notice, notice.WF P.toEngine ∧ revokeSignable notice = .ok view) (hbytes : ∃ bytes, canonicalBytes view = .ok bytes)
    (htarget : prop view (js "target") = .ok (.str target)) : ∃ e ∈ pre, ∃ random now, Mints P nodes e m target random now := by
  obtain ⟨notice, hwf, hview⟩ := hview
  obtain ⟨bytes, hbytes⟩ := hbytes
  have hvwf : view.WF P.toEngine := revokeSignable_wf hwf hview
  rcases h with ⟨k, w, hk, hsigns, heq⟩ | ⟨e, he, L, random, now, hminted, heq⟩
  · -- nothing else that is signed has the fields of a notice
    have hjson : JsonEq w view := canonicalBytes_inj hsigns.wf hvwf (heq.trans hbytes) hbytes
    exact absurd (hsigns.shaped.eq (revokeSignable_shaped hview) hjson) hk
  · have hrwf : (revokeView P (nodes m) L random now).WF P.toEngine := revokeView_wf (nodes m) random now
    have hjson : JsonEq (revokeView P (nodes m) L random now) view :=
      canonicalBytes_inj hrwf hvwf (heq.trans hbytes) hbytes
    have hsame := hjson.field (k := js "target") hrwf hvwf rfl htarget
    obtain rfl := Value.str.inj hsame.eq_str
    exact ⟨e, he, random, now, hminted⟩

/-- **One step**: a node that loses a friend who is one of the nodes has ended the friendship just now, or the friend has
    minted a notice before. -/
theorem step_ended {w w' : ι → BookPool P} {e : Event P ι} (hinv : ∀ n, LifeInv P (nodes n) (w n))
    (hstep : LivesStep P nodes w e w') (hunforged : Unforged P nodes pre e)
    (hkey : fromB64 P (.str K) = .ok (nodes m).id.edPublic) (hhad : (w n).state.friends.has K = true)
    (hgone : (w' n).state.friends.has K = false) :
    Ends P nodes e n K ∨ ∃ e' ∈ pre, ∃ random now, Mints P nodes e' m (selfEd P (nodes n)) random now := by
  cases hstep with
  | @step k l p h =>
      by_cases hk : n = k
      · subst hk
        rw [Function.update_self] at hgone
        have heffect := h.effect (hinv n)
        generalize (w n).state = b at heffect hhad
        generalize p.state = b' at heffect hgone
        cases heffect with
        | start c => exact absurd (hhad.symm.trans hgone) Bool.false_ne_true.symm
        | suspend c => exact absurd (hhad.symm.trans hgone) Bool.false_ne_true.symm
        | throw c seen e => exact absurd (hhad.symm.trans hgone) Bool.false_ne_true.symm
        | reload =>
            have hsame : (b.friends.mapVal jsonView).has K = b.friends.has K := by
              rw [OrdMap.has, OrdMap.get_mapVal, Option.isSome_map]
              rfl
            exact absurd (hhad.symm.trans (hsame.symm.trans hgone)) Bool.false_ne_true.symm
        | commit hseen hc =>
            rcases Commit.removes hc hseen.keyed hhad hgone with ⟨hcall, rfl⟩ | ⟨_, _, _, _, hcall, minted, rfl⟩ |
              ⟨notice, now, view, sig, hcall, hview, hsig, htarget, hverified⟩
            · exact .inl (.revoke hcall)
            · exact .inl (.issueRevoke (.mk hcall minted))
            · -- the notice verifies under the key of node `m`, so that node has signed it
              have hsigned := hunforged n _ _ _ _ notice now rfl hcall view sig (.str K) m hview hsig hverified hkey
              obtain ⟨_, bytes, _, _, hbytes, _⟩ := hverified.ok
              have hwf := Subtype.property ‹BookCall P›
              rw [hcall] at hwf
              exact .inr (hsigned.minted ⟨notice, hwf, hview⟩ ⟨bytes, hbytes⟩ htarget)
      · rw [Function.update_of_ne hk] at hgone
        exact absurd (hhad.symm.trans hgone) Bool.false_ne_true.symm

/-- **A friendship between two nodes is ended by one of them.** If a node has had a friend with the key of another node, and
    has it no more, then it has ended the friendship itself meanwhile, or the other one has, at some time, minted a notice
    that ends its friendship with the node: no notice that anyone else makes up takes a friend away. -/
theorem ended_by_either (P : Platform) (nodes : ι → Self) {pre more : List (Event P ι)} {w w' : ι → BookPool P}
    (run : Run (LivesStep P nodes) (unused P) pre w) (later : Run (LivesStep P nodes) w more w')
    (hunforged : Always (Unforged P nodes) (pre ++ more)) {n m : ι} {K : JsString}
    (hkey : fromB64 P (.str K) = .ok (nodes m).id.edPublic) (hhad : (w n).state.friends.has K = true)
    (hgone : (w' n).state.friends.has K = false) :
    (∃ e ∈ more, Ends P nodes e n K) ∨
      ∃ e ∈ pre ++ more, ∃ random now, Mints P nodes e m (selfEd P (nodes n)) random now := by
  induction later with
  | nil => exact absurd (hhad.symm.trans hgone) Bool.false_ne_true.symm
  | @snoc more w₁ w₂ e later hstep ih =>
      have hall := hunforged
      rw [← List.append_assoc] at hall ⊢
      cases hstill : (w₁ n).state.friends.has K with
      | true =>
          rcases step_ended (lives_inv (run.trans later)) hstep hall.last hkey hstill hgone with hends | ⟨e', he', hminted⟩
          · exact .inl ⟨e, List.mem_append_right _ (List.mem_singleton_self e), hends⟩
          · exact .inr ⟨e', List.mem_append_left _ he', hminted⟩
      | false =>
          rcases ih hall.init hstill with ⟨e', he', hends⟩ | ⟨e', he', hminted⟩
          · exact .inl ⟨e', List.mem_append_left _ he', hends⟩
          · exact .inr ⟨e', List.mem_append_left _ he', hminted⟩

/-! ## One call, with nothing else going on -/

omit [DecidableEq ι] in
/-- Only what `receiveRevoke` has taken can be forged. -/
theorem unforged_other {n : ι} {c : BookCall P} {seen before : FriendBook} {r : Except Exn Value}
    (h : ∀ notice now, c.1 ≠ .receiveRevoke notice now) : Unforged P nodes pre (n, .call (.finish c seen before r)) := by
  intro _ _ _ _ _ notice now heq hc
  cases heq
  exact absurd hc (h notice now)

/-- The call starts, waits where it awaits, and finishes. -/
theorem run_called (n : ι) (c : Call) (wf : c.WF P.toEngine) {s₀ w : ι → BookPool P} {tr : List (Event P ι)}
    {b b' : FriendBook} {r : Except Exn Value} (run : Run (LivesStep P nodes) s₀ tr w) (hw : w n = ⟨b, []⟩)
    (h : Commit P (nodes n) c b b r b') : ∃ ls : List (Label (BookCall P) FriendBook Exn Value), ∃ w',
      (∀ l ∈ ls, l = .start ⟨c, wf⟩ ∨ l = .suspend ⟨c, wf⟩) ∧
      Run (LivesStep P nodes) s₀ (tr ++ (ls.map (fun l => (n, .call l)) ++ [(n, .call (.finish ⟨c, wf⟩ b b r))])) w' ∧
      w' n = ⟨b', []⟩ ∧ ∀ k, k ≠ n → w' k = w k := by
  have here : Run (LifeStep P (nodes n)) (w n) [] ⟨b, []⟩ := by
    rw [hw]
    exact .nil
  obtain ⟨ls, hls, life⟩ := life_called here wf h
  have run' := run.member life
  rw [List.nil_append, List.map_map, List.map_append] at run'
  exact ⟨ls, _, hls, run', Function.update_self .., fun k hk => Function.update_of_ne hk ..⟩

theorem called (n : ι) (c : Call) (wf : c.WF P.toEngine) {s₀ w : ι → BookPool P} {tr : List (Event P ι)}
    {b b' : FriendBook} {r : Except Exn Value} (run : Run (LivesStep P nodes) s₀ tr w) (hw : w n = ⟨b, []⟩)
    (h : Commit P (nodes n) c b b r b') (halways : Always (Unforged P nodes) (pre ++ tr))
    (hfinish : ∀ more, Unforged P nodes (pre ++ (tr ++ more)) (n, .call (.finish ⟨c, wf⟩ b b r))) :
    ∃ more w', Run (LivesStep P nodes) s₀ (tr ++ (more ++ [(n, .call (.finish ⟨c, wf⟩ b b r))])) w' ∧ w' n = ⟨b', []⟩ ∧
      (∀ k, k ≠ n → w' k = w k) ∧
      Always (Unforged P nodes) (pre ++ (tr ++ (more ++ [(n, .call (.finish ⟨c, wf⟩ b b r))]))) := by
  obtain ⟨ls, w', hls, run', hat, hother⟩ := run_called n c wf run hw h
  refine ⟨_, w', run', hat, hother, ?_⟩
  have quiet : ∀ ls : List (Label (BookCall P) FriendBook Exn Value), (∀ l ∈ ls, l = .start ⟨c, wf⟩ ∨ l = .suspend ⟨c, wf⟩) →
      Always (Unforged P nodes) (pre ++ (tr ++ ls.map fun l => (n, .call l))) := by
    intro ls
    induction ls using List.reverseRecOn with
    | nil =>
        intro _
        rwa [List.map_nil, List.append_nil]
    | append_singleton ls l ih =>
        intro hls
        obtain ⟨hinit, hlast⟩ := List.forall_mem_append.mp hls
        rw [List.map_append, ← List.append_assoc, ← List.append_assoc, List.append_assoc pre]
        refine (ih hinit).snoc ?_
        intro _ _ _ _ _ _ _ heq
        rcases hlast l (List.mem_singleton_self l) with rfl | rfl <;> cases heq
  have hlast := (quiet ls hls).snoc (hfinish _)
  rw [List.append_assoc, List.append_assoc] at hlast
  exact hlast

end Removal

namespace Symbolic

open Js Async Pool Removal Value

/-- What node 1's notice says. -/
theorem dismissal_view : ∃ view, revokeSignable dismissal = .ok view ∧
    canonicalBytes view = canonicalBytes (revokeView platform (node 1) (toHex [2]) [8] epoch) := by
  refine ⟨((revokeSignable dismissal).toOption).getD .undefined, ?_, ?_⟩ <;> decide +kernel

/-- The notice carries a signature of node 1's and of nobody else's. -/
theorem dismissal_signed {pre : List (Removal.Event platform Bool)} {seen before : FriendBook} {wg0 : Value}
    {wf : Call.WF platform.toEngine (.issueRevoke (toHex [2]) [8] epoch)}
    (hmem : (true, .call (.finish ⟨.issueRevoke (toHex [2]) [8] epoch, wf⟩ seen before
      (.ok (.obj [(js "notice", dismissal), (js "wg0", wg0)])))) ∈ pre) {view sig pub : Value}
    {m : Bool} (hview : revokeSignable dismissal = .ok view) (hsig : prop dismissal (js "sig") = .ok sig)
    (hverified : Verified platform view sig pub) (hkey : fromB64 platform pub = .ok (couple m).id.edPublic) :
    Removal.HasSigned platform couple pre m view := by
  obtain ⟨view', hview', hbytes⟩ := dismissal_view
  obtain rfl := Except.ok.inj (hview.symm.trans hview')
  cases m with
  | true => exact .inr ⟨_, hmem, _, _, _, .mk rfl dismissal_minted, hbytes.symm⟩
  | false =>
      obtain ⟨bytes, -, hdismissal⟩ := makeRevoke_ok dismissal_minted
      obtain ⟨s, msg, pk, hs, hmsg, hpk, hverify⟩ := hverified.ok
      obtain rfl := Except.ok.inj (hkey.symm.trans hpk)
      rw [hdismissal] at hsig
      obtain rfl : .str (toB64 platform (platform.signDetached bytes (node 1).id.edSecret)) = sig := Except.ok.inj hsig
      obtain rfl : platform.signDetached bytes (node 1).id.edSecret = s := Except.ok.inj ((codec.fromB64 _).symm.trans hs)
      have hsame : decide ([1] ++ bytes = [2] ++ msg) = true := Option.some.inj hverify
      simp at hsame

theorem dismissal_unforged {pre : List (Removal.Event platform Bool)} {seen before seen' before' : FriendBook} {wg0 : Value}
    {r' : Except Exn Value} {wf : Call.WF platform.toEngine (.issueRevoke (toHex [2]) [8] epoch)}
    {wf' : Call.WF platform.toEngine (.receiveRevoke dismissal epoch)}
    (hmem : (true, .call (.finish ⟨.issueRevoke (toHex [2]) [8] epoch, wf⟩ seen before
      (.ok (.obj [(js "notice", dismissal), (js "wg0", wg0)])))) ∈ pre) :
    Removal.Unforged platform couple pre
      (false, .call (.finish ⟨.receiveRevoke dismissal epoch, wf'⟩ seen' before' r')) := by
  intro n c seen₁ before₁ r₁ notice now heq hc view sig pub m hview hsig hverified hkey
  cases heq
  cases hc
  exact dismissal_signed hmem hview hsig hverified hkey

/-- Node 1's notice ends node 2's friendship of the same time. -/
theorem dismissed : ∃ b', Commit platform (node 2) (.receiveRevoke dismissal epoch) befriended befriended
    (.ok (friendRecord platform (peerPubOf platform (node 1)) (.str (toHex [7])) epoch)) b' ∧
      b'.friends.has (toHex [1]) = false := by
  have hverified := notice_verifies codec (keyPairs 1) dismissal_minted
    (show prop (friendRecord platform (peerPubOf platform (node 1)) (.str (toHex [7])) epoch) (js "peer") = .ok _ from rfl) rfl
  obtain ⟨m, -, hdismissal⟩ := makeRevoke_ok dismissal_minted
  rw [hdismissal] at hverified ⊢
  refine ⟨_, .receiveRevoke rfl rfl rfl befriended_listed rfl ?_ hverified (congrArg Except.ok epoch_dated)
    (congrArg Except.ok epoch_dated) ?_, ?_⟩
  · exact show ¬setHas befriended.consumed (.str (toHex [8])) = true by decide
  · intro d hd
    obtain rfl := Option.some.inj hd
    decide
  · show ((befriended.friends.delete (toHex [1])).get (toHex [1])).isSome = false
    rw [OrdMap.get_delete_self]
    rfl

/-- Two nodes become friends; node 1 ends it, and node 2 has heard of it. -/
theorem dismissed_by_friend : ∃ pre more w w', Run (LivesStep platform couple) (unused platform) pre w ∧
    Run (LivesStep platform couple) w more w' ∧ (w false).state.friends.has (toHex [1]) = true ∧
    (w' false).state.friends.has (toHex [1]) = false ∧
    ((∃ e ∈ more, Ends platform couple e false (toHex [1])) ∨
      ∃ e ∈ pre ++ more, ∃ random now, Mints platform couple e true (selfEd platform (node 2)) random now) := by
  -- node 1 invites, node 2 receives and accepts, node 1 confirms
  have issued : Commit platform (node 1) (.issueToken 60 [7] epoch) .empty .empty (.ok (invite 1 [7])) offering :=
    .issueToken (invite_minted 1 [7])
  have quiet (n : Bool) {c : Call} {wf : c.WF platform.toEngine} {seen before : FriendBook} {r : Except Exn Value}
      (h : ∀ notice now, c ≠ .receiveRevoke notice now) (pre tr more : List (Removal.Event platform Bool)) :
      Unforged platform couple (pre ++ (tr ++ more)) (n, .call (.finish ⟨c, wf⟩ seen before r)) := unforged_other h
  have fresh : Run (LivesStep platform couple) (unused platform) [] (unused platform) := .nil
  obtain ⟨_, w₁, run₁, at₁, still₁, ok₁⟩ := called true (.issueToken 60 [7] epoch) trivial fresh rfl issued always_nil
    (quiet true (fun _ _ h => by cases h) [] [])
  have new₁ : w₁ false = ⟨.empty, []⟩ := by
    rw [still₁ false Bool.false_ne_true]
    rfl
  obtain ⟨_, w₂, run₂, at₂, still₂, ok₂⟩ := called false (.receive (invite 1 [7]) epoch) invite_wf run₁ new₁ invite_received
    ok₁ (quiet false (fun _ _ h => by cases h) [] _)
  obtain ⟨_, w₃, run₃, at₃, still₃, ok₃⟩ := called false (.accept (toHex [1]) [] epoch) trivial run₂ at₂ invite_accepted ok₂
    (quiet false (fun _ _ h => by cases h) [] _)
  have offer₃ : w₃ true = ⟨offering, []⟩ := by rw [still₃ true Bool.false_ne_true.symm, still₂ true Bool.false_ne_true.symm, at₁]
  obtain ⟨_, w₄, run₄, at₄, still₄, ok₄⟩ := called true (.confirm reply epoch) trivial run₃ offer₃ reply_confirmed ok₃
    (quiet true (fun _ _ h => by cases h) [] _)
  have friends₄ : w₄ false = ⟨befriended, []⟩ := by rw [still₄ false Bool.false_ne_true, at₃]
  have hrec : confirmed.friends.get (toHex [2])
      = some (friendRecord platform (peerPubOf platform (node 2)) (.str (toHex [7])) epoch) := OrdMap.get_set_self ..
  -- node 1 dismisses its friend, and node 2 receives the notice
  have ended : Commit platform (node 1) (.issueRevoke (toHex [2]) [8] epoch) confirmed confirmed
      (.ok (.obj [(js "notice", dismissal), (js "wg0", .str (node 2).wg0)])) _ := .issueRevoke hrec dismissal_minted
  have stay : Run (LivesStep platform couple) w₄ [] w₄ := .nil
  rw [← List.append_nil ([] ++ _)] at ok₄
  obtain ⟨_, w₅, run₅, at₅, still₅, ok₅⟩ := called true (.issueRevoke (toHex [2]) [8] epoch) trivial stay at₄ ended
    ok₄ (quiet true (fun _ _ h => by cases h) _ [])
  have friends₅ : w₅ false = ⟨befriended, []⟩ := by rw [still₅ false Bool.false_ne_true, friends₄]
  obtain ⟨b', dropped, hgone⟩ := dismissed
  obtain ⟨_, w₆, run₆, at₆, _, ok₆⟩ := called false (.receiveRevoke dismissal epoch) (makeRevoke_wf dismissal_minted) run₅
    friends₅ dropped ok₅ fun more => dismissal_unforged
      (List.mem_append_right _ (List.mem_append_left more
        (List.mem_append_right _ (List.mem_append_right _ (List.mem_singleton_self _)))))
  have hhad : (w₄ false).state.friends.has (toHex [1]) = true := by
    rw [friends₄]
    rfl
  have hlost : (w₆ false).state.friends.has (toHex [1]) = false := by
    rw [at₆]
    exact hgone
  have hkey : fromB64 platform (.str (toHex [1])) = .ok (couple true).id.edPublic := fromB64_toHex [1]
  exact ⟨_, _, w₄, w₆, run₄, run₆, hhad, hlost, ended_by_either platform couple run₄ run₆ ok₆ hkey hhad hlost⟩

end Symbolic
end Island
end VpnPi
