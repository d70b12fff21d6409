import VpnPi.Island.FriendSteps
import VpnPi.Island.Symbolic

/-!
# `Island.BookLinear` — concurrent calls on one book

Between its check and its last segment a call trusts what it read. `Undisturbed` says that it still may: the
entry the check was about is what it was. An undisturbed call does in its last segment what the whole call
would do there (`Stage.run_eq`), so a run whose calls all finish undisturbed is linearizable in the order of
completion (`linearizable_of_undisturbed`).

Nothing in the code keeps calls undisturbed. Two `accept`s of one pending request, started together, both
return a sealed accept (`accept_twice`); one after the other, the second throws.
-/

namespace VpnPi
namespace Island

open Js Async Task Pool

/-- The operations that may run concurrently. -/
def Call.IsConcurrent : Call → Prop
  | receive .. | accept .. | confirm .. | issueRevoke .. | receiveRevoke .. => True
  | issueToken .. | revoke .. => False

/-- What `c` checked in `seen` is unchanged in `b`: the spent nonce of `receive`, the pending request of
    `accept`, the friend of `issueRevoke`, the friend and the spent nonce of `receiveRevoke`. `confirm`
    checks and acts in one segment. -/
def Undisturbed (c : Call) (seen b : FriendBook) : Prop :=
  match c with
  | .receive token _ => ∀ nonce, prop token (js "nonce") = .ok nonce →
      setHas b.consumed nonce = setHas seen.consumed nonce
  | .accept giver _ _ => b.pending.get giver = seen.pending.get giver
  | .issueRevoke peer _ _ => b.friends.get peer = seen.friends.get peer
  | .receiveRevoke n _ =>
      (∀ peer, (prop n (js "from") >>= strKey) = .ok peer → b.friends.get peer = seen.friends.get peer) ∧
        ∀ nonce, prop n (js "nonce") = .ok nonce → setHas b.consumed nonce = setHas seen.consumed nonce
  | .confirm .. | .issueToken .. | .revoke .. => True

variable {P : Platform} {me : Self}

/-! ## An undisturbed call is atomic -/

/-- **What is left of an undisturbed call does what the whole call would do.** -/
theorem Stage.run_eq {c : Call} {seen b : FriendBook} {x : Task FriendBook Exn Value}
    (h : Stage P me c seen x) (hu : Undisturbed c seen b) : (c.task P me).run b = x.run b := by
  -- what an earlier segment has checked is checked again in `b`, with the same answer if nobody disturbed it
  cases h with
  | start c seen => rfl
  | issueMinted ttlSeconds random now seen => exact run_awaiting ..
  | receiveVerified token now seen => exact run_awaiting ..
  | @receiveUnused token peer nonce ed now seen verified hnonce unused hed =>
      -- the check made in `seen` gives the same answer in `b`
      have hc : ¬setHas b.consumed nonce = true := by rw [hu nonce hnonce]; exact unused
      refine (run_ofExcept_ok verified).trans ?_
      refine (run_ofExcept_ok hnonce).trans ?_
      refine (run_throwIf_neg hc).trans ?_
      exact run_ofExcept_ok hed
  | @acceptSealed giver ephemeral p token now seen hp htoken fresh =>
      obtain ⟨d, hd, hbefore⟩ := fresh
      have hb : b.pending.get giver = some p := hu.trans hp
      refine (run_ofExcept_ok (orThrow_ok.mpr hb)).trans ?_
      refine (run_ofExcept_ok htoken).trans ?_
      refine (run_ofExcept_ok hd).trans ?_
      exact run_throwIf_neg (Bool.eq_false_iff.mp hbefore)
  | confirmOpened blob now seen => exact run_awaiting ..
  | @issueRevokeSigned peer random rec_ now seen hrec =>
      have hb : b.friends.get peer = some rec_ := hu.trans hrec
      rw [Call.task, Island.issueRevoke, run_get_bind, hb]
      exact run_awaiting ..
  | @receiveRevokeAddressed n target now seen shape htarget =>
      refine (run_throwIf_neg (by rw [shape]; decide)).trans ?_
      exact run_ofExcept_ok htarget
  | @receiveRevokeVerified n nonce rec_ peer now seen shape htarget hpeer hrec hnonce unused =>
      have hb : b.friends.get peer = some rec_ := (hu.1 peer hpeer).trans hrec
      have hc : ¬setHas b.consumed nonce = true := by rw [hu.2 nonce hnonce]; exact unused
      refine (run_throwIf_neg (by rw [shape]; decide)).trans ?_
      refine (run_ofExcept_ok htarget).trans ?_
      refine (run_throwIf_neg (not_not.mpr rfl)).trans ?_
      refine (run_ofExcept_ok hpeer).trans ?_
      refine (run_ofExcept_ok (orThrow_ok.mpr hb)).trans ?_
      refine (run_ofExcept_ok hnonce).trans ?_
      exact run_throwIf_neg hc

/-- **Linearizability.** In every run, from any book and with any calls, whose calls finish undisturbed, the
    results and the final maps are those of running the calls one after another. -/
theorem linearizable_of_undisturbed (P : Platform) (me : Self) (b₀ b : FriendBook)
    (tr : List (Label Call FriendBook Exn Value))
    (run : Run (Step (Call.task P me)) ⟨b₀, []⟩ tr ⟨b, []⟩)
    (undisturbed : ∀ c seen before r, Label.finish c seen before r ∈ tr → Undisturbed c seen before) :
    Linearizable (Call.task P me) b₀ tr b := by
  refine linearizable run reads ?_
  rintro pre l post rfl
  cases l with
  | start c => trivial
  | suspend c => trivial
  | finish c seen before r =>
      intro x s' hrest hs
      have hu := undisturbed c seen before r (List.mem_append_right _ (List.mem_cons_self ..))
      rw [(stage_of_rest hrest).run_eq hu]
      exact run_of_done hs

/-! ## Two accepts of one request -/

/-- The books a run of calls leaves behind. -/
def Reachable (P : Platform) (me : Self) (b : FriendBook) : Prop :=
  ∃ tr, Run (Step (Call.task P me)) ⟨.empty, []⟩ tr ⟨b, []⟩

theorem accept_suspends (me : Self) {giver : JsString} {p token : Value} {now : Instant} {b : FriendBook}
    (ephemeral : Bytes) (hp : b.pending.get giver = some p) (htoken : prop p (js "token") = .ok token)
    (fresh : NotExpired P token now) :
    ((Call.accept giver ephemeral now).task P me).segment b
      = (.suspended (ofExcept (makeAccept P me token ephemeral now) >>= acceptSealed P giver token now), b) := by
  obtain ⟨d, hd, hbefore⟩ := fresh
  refine (segment_ofExcept_ok (orThrow_ok.mpr hp)).trans ?_
  refine (segment_ofExcept_ok htoken).trans ?_
  refine (segment_ofExcept_ok hd).trans ?_
  exact segment_throwIf_neg (Bool.eq_false_iff.mp hbefore)

theorem acceptSealed_done {blob : JsString} {ephemeral : Bytes} {token nonce peer : Value}
    {now : Instant} (giver : JsString) (b : FriendBook) (sealed : makeAccept P me token ephemeral now = .ok blob)
    (hnonce : prop token (js "nonce") = .ok nonce) (hpeer : prop token (js "from") = .ok peer) :
    (ofExcept (makeAccept P me token ephemeral now) >>= acceptSealed P giver token now).segment b
      = (.done (.ok (.str blob)),
        { b with
          pending := b.pending.delete giver
          consumed := setAdd b.consumed nonce
          friends := b.friends.set giver (friendRecord P peer nonce now) }) := by
  refine (segment_ofExcept_ok sealed).trans ?_
  refine (segment_ofExcept_ok hnonce).trans ?_
  exact segment_ofExcept_ok hpeer

/-- An accept that returns takes the pending request with it. -/
theorem accept_takes {giver : JsString} {ephemeral : Bytes} {now : Instant} {v : Value}
    {b b' : FriendBook} (h : ((Call.accept giver ephemeral now).task P me).run b = (.ok v, b')) :
    (∃ p, b.pending.get giver = some p) ∧ b'.pending.get giver = none := by
  rcases run_cases h with ⟨e, he, _⟩ | hc
  · cases he
  · cases hc with
    | accept hp htoken fresh sealed hnonce hpeer => exact ⟨⟨_, hp⟩, OrdMap.get_delete_self ..⟩

/-- Two accepts of one giver cannot both return in a sequential run. -/
theorem not_linearizable_of_accepts {giver : JsString} (c₁ c₂ : Bytes × Instant) {v₁ v₂ : Value}
    {b₀ b : FriendBook} {tr : List (Label Call FriendBook Exn Value)}
    (hfin : finished tr = [(.accept giver c₁.1 c₁.2, .ok v₁), (.accept giver c₂.1 c₂.2, .ok v₂)]) :
    ¬Linearizable (Call.task P me) b₀ tr b := by
  rintro ⟨order, _, hperm, hseq⟩
  have hform : ∀ e ∈ order, ∃ (c : Bytes × Instant) (v : Value), e = (.accept giver c.1 c.2, .ok v) := by
    intro e he
    have hmem := hperm.mem_iff.mp he
    rw [hfin, List.mem_cons, List.mem_singleton] at hmem
    rcases hmem with rfl | rfl
    · exact ⟨c₁, v₁, rfl⟩
    · exact ⟨c₂, v₂, rfl⟩
  obtain ⟨x, y, rfl⟩ : ∃ x y, order = [x, y] := by
    rw [hfin] at hperm
    exact List.length_eq_two.mp hperm.length_eq
  obtain ⟨c, v, rfl⟩ := hform x (List.mem_cons_self ..)
  obtain ⟨c', v', rfl⟩ := hform y (List.mem_cons_of_mem _ (List.mem_cons_self ..))
  obtain ⟨s₂, hseq, hy⟩ := SeqRun.of_concat (h := [_]) hseq
  obtain ⟨s₁, _, hx⟩ := SeqRun.of_concat (h := []) hseq
  -- the first accept leaves nothing for the second
  obtain ⟨p, hp⟩ := (accept_takes hy).1
  have hnone := (accept_takes hx).2
  rw [hp] at hnone
  cases hnone

/-- **The race.** From any book with a pending request that can be accepted, two accepts started together
    both return, and no sequential order explains that. -/
theorem accept_race {giver blob : JsString} {ephemeral : Bytes} {p token nonce peer : Value}
    {now : Instant} {b₀ : FriendBook} (hp : b₀.pending.get giver = some p)
    (htoken : prop p (js "token") = .ok token) (fresh : NotExpired P token now)
    (sealed : makeAccept P me token ephemeral now = .ok blob)
    (hnonce : prop token (js "nonce") = .ok nonce) (hpeer : prop token (js "from") = .ok peer) :
    ∃ tr b, Run (Step (Call.task P me)) ⟨b₀, []⟩ tr ⟨b, []⟩ ∧
      (∀ c ∈ started tr, c.IsConcurrent) ∧ ¬Linearizable (Call.task P me) b₀ tr b := by
  have hsusp := accept_suspends me ephemeral hp htoken fresh
  have r0 : Run (Step (Call.task P me)) ⟨b₀, []⟩ [] ⟨b₀, []⟩ := .nil
  have r1 := r0.snoc (.start b₀ [] (.accept giver ephemeral now))
  have r2 := r1.snoc (.start b₀ _ (.accept giver ephemeral now))
  -- both have read the pending request before either deletes it
  have r3 := r2.snoc (.suspend [] _ hsusp)
  have r4 := r3.snoc (.suspend [_] [] hsusp)
  have r5 := r4.snoc (.finish [] _ (acceptSealed_done giver b₀ sealed hnonce hpeer))
  have r6 := r5.snoc (.finish [] [] (acceptSealed_done giver _ sealed hnonce hpeer))
  refine ⟨_, _, r6, ?_, ?_⟩
  · intro c hc
    have hc' : c = .accept giver ephemeral now := by simpa [started] using hc
    rw [hc']
    trivial
  · exact not_linearizable_of_accepts (ephemeral, now) (ephemeral, now) rfl

open Symbolic

theorem requested_reachable : Reachable platform (node 2) requested :=
  run_alone reads .nil invite_received.run

/-- The race on a book that a run reaches: two accepts of node 1's request on node 2. -/
theorem accept_race_reachable :
    ∃ (b₀ b : FriendBook) (tr : List (Label Call FriendBook Exn Value)),
      Reachable platform (node 2) b₀ ∧ Run (Step (Call.task platform (node 2))) ⟨b₀, []⟩ tr ⟨b, []⟩ ∧
        (∀ c ∈ started tr, c.IsConcurrent) ∧
        ¬Linearizable (Call.task platform (node 2)) b₀ tr b := by
  obtain ⟨hpeer, hfresh, _⟩ := verifyToken_ok invite_verified
  obtain ⟨tr, b, hrun, hcalls, hlin⟩ :=
    accept_race requested_pending rfl hfresh invite_sealed invite_nonce hpeer
  exact ⟨requested, b, tr, requested_reachable, hrun, hcalls, hlin⟩

/-- An accept and a reply that does not open, interleaved on that book: neither disturbs the other. -/
theorem accept_with_bad_reply_linearizable :
    ∃ (b : FriendBook) (tr : List (Label Call FriendBook Exn Value)),
      started tr = [.accept (toHex [1]) [] epoch, .confirm [] epoch] ∧
        Linearizable (Call.task platform (node 2)) requested tr b := by
  obtain ⟨hpeer, hfresh, _⟩ := verifyToken_ok invite_verified
  have hsusp := accept_suspends (node 2) [] requested_pending rfl hfresh
  have hdone := acceptSealed_done (toHex [1]) requested invite_sealed invite_nonce hpeer
  have hopen : openAccept platform (node 2) []
      = .error (.friend (js "cannot open accept (not sealed to us)")) := by decide +kernel
  have hfail : (ofExcept (openAccept platform (node 2) []) >>= confirmOpened platform epoch).segment
      requested = (.done (.error (.friend (js "cannot open accept (not sealed to us)"))), requested) := by
    rw [hopen]; rfl
  have r0 : Run (Step (Call.task platform (node 2))) ⟨requested, []⟩ [] ⟨requested, []⟩ := .nil
  have r1 := r0.snoc (.start requested [] (.accept (toHex [1]) [] epoch))
  have r2 := r1.snoc (.suspend [] [] hsusp)
  have r3 := r2.snoc (.start requested _ (.confirm [] epoch))
  have r4 := r3.snoc (.suspend [] _ (y := ofExcept (openAccept platform (node 2) []) >>=
    confirmOpened platform epoch) rfl)
  have r5 := r4.snoc (.finish [] _ hfail)
  have r6 := r5.snoc (.finish [] [] hdone)
  refine ⟨_, _, ?_, linearizable_of_undisturbed platform (node 2) requested _ _ r6 ?_⟩
  · rfl
  · intro c seen before r hmem
    simp only [List.nil_append, List.cons_append, List.mem_cons, reduceCtorEq, false_or,
      Label.finish.injEq, List.not_mem_nil, or_false] at hmem
    rcases hmem with ⟨rfl, rfl, rfl, _⟩ | ⟨rfl, rfl, rfl, _⟩
    · trivial
    · rfl

end Island
end VpnPi
