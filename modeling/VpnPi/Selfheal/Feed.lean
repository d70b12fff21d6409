import VpnPi.Selfheal.Loop

/-!
# `Selfheal.Feed` — the event log and the current state of a peer

A consumer of the event log takes the last event of a key for its state, and a key without events for `ok`.
The log keeps this promise as long as the peers stay (`Shows` is an invariant of the memo); a peer that leaves
has `gone` for its last event. When such a peer comes back healthy, `Alert.diff` takes it for a peer that was
`ok` all along and emits nothing, so its last event still says `gone`.

* `FeedCurrent` — after a tick, the log determines the state of every peer in it.
* `feed_current_iff` — it does after every tick of a run exactly if no peer ever comes back healthy.
-/

namespace VpnPi
namespace Selfheal

open Js Async

/-! ## The log of a run -/

/-- The last event emitted for a key. -/
def lastEvent (tr : List Tick) (k : JsString) : Option Event :=
  ((tr.flatMap fun t => eventsOf t.out).filter fun e => e.peer = k).getLast?

/-- What the last event of a key, if there is one, says of its state. -/
def Shows : Option Event → State → Prop
  | none, s => s = .ok
  | some e, s => e.to_ = s

/-- The log determines the state of every peer of the tick `t` that ends the run `tr ++ [t]`. -/
def FeedCurrent (tr : List Tick) (t : Tick) : Prop :=
  ∀ s ∈ t.statuses, Shows (lastEvent (tr ++ [t]) s.peer) s.state

/-- The keys a tick read. -/
def Tick.keys (t : Tick) : List JsString :=
  match t.read with
  | .ok peers => peers.map PeerState.publicKey
  | .error _ => []

/-- The keys of the last successful read. -/
def lastKeys (tr : List Tick) : List JsString :=
  tr.foldl (fun keys t => if t.read.isOk then t.keys else keys) []

/-- Some tick read the key. -/
def Seen (tr : List Tick) (k : JsString) : Prop := ∃ t ∈ tr, k ∈ t.keys

/-- The handshake is recent enough for `ok` and `restored`. -/
def Healthy (cfg : Config) (now : Time) (p : PeerState) : Prop :=
  p.staleness now < cfg.degradedAfter ∧ p.staleness now < cfg.staleAfter

/-- A peer that was read before, but not by the last successful read, is read again, and is healthy. -/
def ReturnsHealthy (cfg : Config) (tr : List Tick) (t : Tick) : Prop :=
  ∃ peers p, t.read = .ok peers ∧ p ∈ peers ∧ Seen tr p.publicKey ∧ p.publicKey ∉ lastKeys tr ∧
    Healthy cfg t.now.time p

theorem lastEvent_snoc (tr : List Tick) (t : Tick) (k : JsString) :
    lastEvent (tr ++ [t]) k
      = ((eventsOf t.out).filter fun e => e.peer = k).getLast?.or (lastEvent tr k) := by
  unfold lastEvent
  rw [List.flatMap_append, List.filter_append, List.getLast?_append, List.flatMap_cons, List.flatMap_nil,
    List.append_nil]

theorem lastKeys_snoc (tr : List Tick) (t : Tick) :
    lastKeys (tr ++ [t]) = if t.read.isOk then t.keys else lastKeys tr := by
  unfold lastKeys
  rw [List.foldl_append]
  rfl

theorem seen_snoc {tr : List Tick} {t : Tick} {k : JsString} :
    Seen (tr ++ [t]) k ↔ Seen tr k ∨ k ∈ t.keys := by
  unfold Seen
  constructor
  · rintro ⟨t', ht, hk⟩
    rcases List.mem_append.mp ht with h | h
    · exact Or.inl ⟨t', h, hk⟩
    · exact Or.inr (List.mem_singleton.mp h ▸ hk)
  · rintro (⟨t', ht, hk⟩ | hk)
    · exact ⟨t', List.mem_append_left _ ht, hk⟩
    · exact ⟨t, by simp, hk⟩

/-! ## One tick, one key -/

variable {f : Flags} {st st' : LoopState} {t : Tick} {peers : List PeerState}

theorem eventsOf_feed (now : Time) (peers : List PeerState) (cfg : Config) (c : Bool) (events : List Event)
    {other : List Output} (h : ∀ o ∈ other, o.IsOther) :
    eventsOf ((if c then observe now peers cfg else []) ++ events.map (.transition now) ++ other) = events := by
  have hobserved : eventsOf (if c then observe now peers cfg else []) = [] := by
    cases c with
    | true => simp [observe, eventsOf]
    | false => rfl
  have hevents : eventsOf (events.map (.transition now)) = events := by
    unfold eventsOf
    rw [List.filterMap_map]
    exact List.filterMap_some
  rw [eventsOf_append, eventsOf_append, eventsOf_other h, hobserved, hevents, List.append_nil]
  rfl

theorem stateBefore_statesOf (memo : Memo) (k : JsString) :
    stateBefore (statesOf memo) k = (memo.at_ k).state := by
  unfold stateBefore statesOf Memo.at_
  rw [OrdMap.get_mapVal]
  cases memo.get k with
  | none => rfl
  | some m => rfl

/-- The memo after a tick holds the peers of its read and nothing else. -/
theorem memo_step {now : Time} {prev : Memo} {cfg : Config} (hnd : (peers.map PeerState.publicKey).Nodup)
    {k : JsString} {m : PeerMemo} :
    (Heal.step now peers prev cfg).2.get k = some m ↔
      ∃ p ∈ peers, p.publicKey = k ∧ memoOf now prev cfg p = m := by
  have hnd' : ((peers.map fun p => (p.publicKey, memoOf now prev cfg p)).map Prod.fst).Nodup := by
    rw [List.map_map]
    exact hnd
  show (OrdMap.ofEntries _).get k = some m ↔ _
  rw [OrdMap.get_ofEntries hnd', List.mem_map]
  simp only [Prod.mk.injEq]

/-- **One tick, one key**: a peer that is there has a new memo, and an event if its state changed; a peer
    that is not there has no memo, and an event if it had one. -/
theorem Advance.key (h : Advance f st t peers st') (hnd : (peers.map PeerState.publicKey).Nodup) (k : JsString) :
    (∃ p ∈ peers, p.publicKey = k ∧ st'.memo.get k = some (memoOf t.now.time st.memo f.cfg p) ∧
      (eventsOf t.out).filter (fun e => e.peer = k)
        = if (st.memo.at_ k).state ≠ (memoOf t.now.time st.memo f.cfg p).state
          then [changeEvent (statesOf st.memo) t.now.time (statusOf t.now.time st.memo f.cfg p)] else []) ∨
    (k ∉ peers.map PeerState.publicKey ∧ st'.memo.get k = none ∧
      (eventsOf t.out).filter (fun e => e.peer = k)
        = if (st.memo.get k).isSome then [goneEvent (statesOf st.memo) t.now.time k] else []) := by
  obtain ⟨other, hother, hout⟩ := h.out
  have hevents : eventsOf t.out = (Alert.diff (statesOf st.memo) t.statuses t.now.time).1 := by
    rw [hout]
    exact eventsOf_feed _ _ _ _ _ hother
  have hkeys : t.statuses.map PeerStatus.peer = peers.map PeerState.publicKey := by
    rw [h.statuses, List.map_map]
    rfl
  have hmemo : ∀ m, st'.memo.get k = some m ↔
      ∃ p ∈ peers, p.publicKey = k ∧ memoOf t.now.time st.memo f.cfg p = m := by
    intro m
    rw [h.memo, memo_step hnd]
  rw [hevents]
  have hdiff := @filter_diff (statesOf st.memo) t.statuses t.now.time (hkeys ▸ hnd) k
  rcases hdiff with ⟨s, hs, hk, hfilter⟩ | ⟨hk, hfilter⟩
  · -- `Diff` compares the key's status with its state before
    rw [h.statuses] at hs
    obtain ⟨p, hp, rfl⟩ := List.mem_map.mp hs
    refine Or.inl ⟨p, hp, hk, (hmemo _).mpr ⟨p, hp, hk, rfl⟩, ?_⟩
    rw [hfilter, stateBefore_statesOf]
    rfl
  · rw [hkeys] at hk
    refine Or.inr ⟨hk, ?_, ?_⟩
    · rw [Option.eq_none_iff_forall_not_mem]
      intro m hm
      obtain ⟨p, hp, rfl, _⟩ := (hmemo m).mp hm
      exact hk (List.mem_map_of_mem hp)
    · rw [hfilter, statesOf, OrdMap.get_mapVal, Option.isSome_map]

/-! ## Invariants -/

/-- What holds of the log and the memo after any run. -/
structure LogInv (tr : List Tick) (st : LoopState) : Prop where
  keys   : ∀ k, (st.memo.get k).isSome ↔ k ∈ lastKeys tr
  read   : ∀ k ∈ lastKeys tr, Seen tr k
  /-- A peer that left is `gone`. -/
  gone   : ∀ k, k ∉ lastKeys tr → Seen tr k → Shows (lastEvent tr k) .gone
  unseen : ∀ k, ¬Seen tr k → lastEvent tr k = none

/-- The log agrees with the memo. -/
def Current (tr : List Tick) (st : LoopState) : Prop :=
  ∀ k m, st.memo.get k = some m → Shows (lastEvent tr k) m.state

theorem keys_of_read (h : t.read = .ok peers) : t.keys = peers.map PeerState.publicKey := by
  unfold Tick.keys
  rw [h]

theorem lastKeys_of_read (tr : List Tick) (h : t.read = .ok peers) :
    lastKeys (tr ++ [t]) = peers.map PeerState.publicKey := by
  rw [lastKeys_snoc, keys_of_read h, h]
  rfl

theorem lastEvent_of_nil {tr : List Tick} {k : JsString}
    (h : (eventsOf t.out).filter (fun e => e.peer = k) = []) :
    lastEvent (tr ++ [t]) k = lastEvent tr k := by
  rw [lastEvent_snoc, h]
  rfl

theorem lastEvent_of_singleton {tr : List Tick} {k : JsString} {e : Event}
    (h : (eventsOf t.out).filter (fun e => e.peer = k) = [e]) :
    lastEvent (tr ++ [t]) k = some e := by
  rw [lastEvent_snoc, h]
  rfl

/-- A tick that could not read leaves no trace. -/
theorem failed_frame (tr : List Tick) {err : JsString} (hread : t.read = .error err)
    (hother : ∀ o ∈ t.out, o.IsOther) :
    lastKeys (tr ++ [t]) = lastKeys tr ∧ (∀ k, Seen (tr ++ [t]) k ↔ Seen tr k) ∧
      ∀ k, lastEvent (tr ++ [t]) k = lastEvent tr k := by
  have hkeys : t.keys = [] := by
    unfold Tick.keys
    rw [hread]
  refine ⟨?_, fun k => ?_, fun k => ?_⟩
  · rw [lastKeys_snoc, hread]
    rfl
  · rw [seen_snoc, hkeys]
    simp
  · refine lastEvent_of_nil ?_
    rw [eventsOf_other hother]
    rfl

theorem Step.logInv {tr : List Tick} (h : Step f st t st') (hd : t.Distinct) (hi : LogInv tr st) :
    LogInv (tr ++ [t]) st' := by
  rcases h.failed_or_read with ⟨⟨err, hread⟩, _, rfl, _, hother⟩ | ⟨peers, hread, ha⟩
  · -- a failed read reports nothing
    obtain ⟨hkeys, hseen, hlast⟩ := failed_frame tr hread hother
    refine ⟨?_, ?_, ?_, ?_⟩
    · rw [hkeys]; exact hi.keys
    · intro k hk
      rw [hkeys] at hk
      exact (hseen k).mpr (hi.read k hk)
    · intro k hk hs
      rw [hkeys] at hk
      rw [hlast]
      exact hi.gone k hk ((hseen k).mp hs)
    · intro k hs
      rw [hlast]
      exact hi.unseen k fun h => hs ((hseen k).mpr h)
  · have hlast := lastKeys_of_read tr hread
    have hkeys := keys_of_read hread
    refine ⟨?_, ?_, ?_, ?_⟩
    · intro k
      rw [hlast]
      rcases ha.key (hd peers hread) k with ⟨p, hp, rfl, hm, _⟩ | ⟨hk, hm, _⟩
      · rw [hm]
        exact ⟨fun _ => List.mem_map_of_mem hp, fun _ => rfl⟩
      · rw [hm]
        exact ⟨nofun, fun h => absurd h hk⟩
    · intro k hk
      rw [hlast, ← hkeys] at hk
      exact seen_snoc.mpr (Or.inr hk)
    · intro k hk hs
      rw [hlast] at hk
      rcases ha.key (hd peers hread) k with ⟨p, hp, rfl, _⟩ | ⟨_, _, hfilter⟩
      · exact absurd (List.mem_map_of_mem hp) hk
      · rw [seen_snoc, hkeys] at hs
        have hs := hs.resolve_right hk
        -- absent now: either it leaves with this tick, or it had left before
        by_cases hold : (st.memo.get k).isSome
        · rw [if_pos hold] at hfilter
          rw [lastEvent_of_singleton hfilter]
          rfl
        · rw [if_neg hold] at hfilter
          rw [lastEvent_of_nil hfilter]
          exact hi.gone k (fun h => hold ((hi.keys k).mpr h)) hs
    · intro k hs
      rw [seen_snoc, not_or, hkeys] at hs
      rcases ha.key (hd peers hread) k with ⟨p, hp, rfl, _⟩ | ⟨_, _, hfilter⟩
      · exact absurd (List.mem_map_of_mem hp) hs.2
      · have hold : ¬(st.memo.get k).isSome := fun h => hs.1 (hi.read k ((hi.keys k).mp h))
        rw [if_neg hold] at hfilter
        rw [lastEvent_of_nil hfilter]
        exact hi.unseen k hs.1

theorem logInv_of_run {tr : List Tick} (run : Run (Step f) .empty tr st) (hd : ∀ t ∈ tr, t.Distinct) :
    LogInv tr st := by
  refine run.invariant (I := fun tr st => (∀ t ∈ tr, t.Distinct) → LogInv tr st) ?_ ?_ hd
  · intro _
    refine ⟨?_, ?_, ?_, ?_⟩
    · simp [LoopState.empty, lastKeys]
    · simp [lastKeys]
    · rintro k _ ⟨t, ht, _⟩
      cases ht
    · intro k _
      rfl
  · intro tr st t st' _ ih h hd
    exact h.logInv (hd t (by simp)) (ih fun t ht => hd t (List.mem_append_left _ ht))

/-- A peer the memo does not know is `ok` if it is healthy, and not otherwise. -/
theorem memoOf_new {now : Time} {prev : Memo} {cfg : Config} {p : PeerState}
    (h : prev.get p.publicKey = none) : (memoOf now prev cfg p).state = .ok ↔ Healthy cfg now p := by
  have hprev : (prev.at_ p.publicKey).state = .ok := by
    unfold Memo.at_
    rw [h]
    rfl
  unfold Healthy memoOf
  rcases stepPeer_state p (prev.at_ p.publicKey) with ⟨hdeg, hs⟩ | ⟨_, hst, hs⟩ | ⟨hdeg, hst, hs⟩
  · rw [hs]
    exact ⟨nofun, fun h => absurd hdeg (Int.not_le.mpr h.1)⟩
  · rw [hs]
    exact ⟨nofun, fun h => absurd hst (Int.not_le.mpr h.2)⟩
  · rcases hs with ⟨hs, _⟩ | ⟨_, hs⟩
    · exact ⟨fun _ => ⟨hdeg, hst⟩, fun _ => hs⟩
    · rw [hprev] at hs
      simp at hs

/-! ## The log is current -/

theorem Step.current {tr : List Tick} (h : Step f st t st') (hd : t.Distinct) (hi : LogInv tr st)
    (hc : Current tr st) (hstay : ¬ReturnsHealthy f.cfg tr t) : Current (tr ++ [t]) st' := by
  rcases h.failed_or_read with ⟨⟨err, hread⟩, _, rfl, _, hother⟩ | ⟨peers, hread, ha⟩
  · intro k m hm
    rw [(failed_frame tr hread hother).2.2]
    exact hc k m hm
  · intro k m hm
    rcases ha.key (hd peers hread) k with ⟨p, hp, rfl, hm', hfilter⟩ | ⟨_, hm', _⟩
    · obtain rfl := Option.some.inj (hm'.symm.trans hm)
      by_cases hsame : (st.memo.at_ p.publicKey).state = (memoOf t.now.time st.memo f.cfg p).state
      · rw [if_neg (fun h => h hsame)] at hfilter
        rw [lastEvent_of_nil hfilter, ← hsame]
        cases hold : st.memo.get p.publicKey with
        | some m =>
            have hstate : (st.memo.at_ p.publicKey).state = m.state := by rw [Memo.at_, hold]; rfl
            rw [hstate]
            exact hc _ m hold
        | none =>
            -- a peer without a memo that is `ok` now has never been read: otherwise it would have come back
            have hok : (st.memo.at_ p.publicKey).state = .ok := by rw [Memo.at_, hold]; rfl
            have hnew : p.publicKey ∉ lastKeys tr := fun h => by
              have := (hi.keys _).mpr h
              rw [hold] at this
              cases this
            have hunseen : ¬Seen tr p.publicKey := fun hs =>
              hstay ⟨peers, p, hread, hp, hs, hnew, (memoOf_new hold).mp (hsame.symm.trans hok)⟩
            rw [hi.unseen _ hunseen, hok]
            rfl
      · rw [if_pos hsame] at hfilter
        rw [lastEvent_of_singleton hfilter]
        rfl
    · cases hm'.symm.trans hm

theorem current_of_run {tr : List Tick} (run : Run (Step f) .empty tr st) (hd : ∀ t ∈ tr, t.Distinct)
    (hstay : Always (fun pre t => ¬ReturnsHealthy f.cfg pre t) tr) : Current tr st := by
  refine run.invariant (I := fun tr st => (∀ t ∈ tr, t.Distinct) →
    Always (fun pre t => ¬ReturnsHealthy f.cfg pre t) tr → Current tr st) ?_ ?_ hd hstay
  · intro _ _ k m hm
    cases hm
  · intro tr st t st' run ih h hd hstay
    have hd' : ∀ t ∈ tr, t.Distinct := fun t ht => hd t (List.mem_append_left _ ht)
    exact h.current (hd t (by simp)) (logInv_of_run run hd') (ih hd' hstay.init) hstay.last

/-- A healthy peer that comes back leaves the log at `gone`. -/
theorem Step.not_feedCurrent {tr : List Tick} (h : Step f st t st') (hd : t.Distinct) (hi : LogInv tr st)
    (hback : ReturnsHealthy f.cfg tr t) : ¬FeedCurrent tr t := by
  obtain ⟨peers, p, hread, hp, hseen, hnew, hhealthy⟩ := hback
  intro hfeed
  rcases h.failed_or_read with ⟨⟨err, herr⟩, _⟩ | ⟨peers', hread', ha⟩
  · cases herr.symm.trans hread
  · obtain rfl := Except.ok.inj (hread'.symm.trans hread)
    have hold : st.memo.get p.publicKey = none := by
      rw [← Option.not_isSome_iff_eq_none, hi.keys]
      exact hnew
    have hok := (memoOf_new hold).mpr hhealthy
    have hstatus := hfeed (statusOf t.now.time st.memo f.cfg p) (ha.statuses ▸ List.mem_map_of_mem hp)
    rcases ha.key (hd _ hread) p.publicKey with ⟨p', hp', hkey, _, hfilter⟩ | ⟨hk, _⟩
    · obtain rfl : p' = p := List.inj_on_of_nodup_map (hd _ hread) hp' hp hkey
      -- a peer without a memo counts as `ok`, so no change is logged
      have hsame : (st.memo.at_ p'.publicKey).state = (memoOf t.now.time st.memo f.cfg p').state := by
        rw [hok, Memo.at_, hold]
        rfl
      rw [if_neg (fun h => h hsame)] at hfilter
      have hgone := hi.gone _ hnew hseen
      rw [← lastEvent_of_nil hfilter] at hgone
      change Shows (lastEvent (tr ++ [t]) p'.publicKey) (memoOf t.now.time st.memo f.cfg p').state at hstatus
      rw [hok] at hstatus
      cases hlast : lastEvent (tr ++ [t]) p'.publicKey with
      | none => rw [hlast] at hgone; cases hgone
      | some e =>
          rw [hlast] at hgone hstatus
          cases hgone.symm.trans hstatus
    · exact hk (List.mem_map_of_mem hp)

/-- **When the log determines the state of every peer.** After every tick of a run the last event of each peer
    in it, or the lack of one, tells its state, exactly if no peer comes back healthy. -/
theorem feed_current_iff (f : Flags) {tr : List Tick} {st : LoopState} (run : Run (Step f) .empty tr st)
    (hd : ∀ t ∈ tr, t.Distinct) :
    Always FeedCurrent tr ↔ Always (fun pre t => ¬ReturnsHealthy f.cfg pre t) tr := by
  constructor
  · intro hfeed pre t post htr hback
    subst htr
    obtain ⟨s₁, s₂, hpre, hstep⟩ := run.split
    have hi := logInv_of_run hpre fun t ht => hd t (List.mem_append_left _ ht)
    exact hstep.not_feedCurrent (hd t (by simp)) hi hback (hfeed pre t post rfl)
  · intro hstay pre t post htr
    subst htr
    obtain ⟨s₁, s₂, hpre, hstep⟩ := run.split
    rw [List.append_cons] at hd hstay
    have hd' := (List.forall_mem_append.mp hd).1
    have hcur := current_of_run (hpre.snoc hstep) hd' hstay.take
    intro s hs
    rcases hstep.failed_or_read with ⟨_, hnil, _⟩ | ⟨peers, hread, ha⟩
    · rw [hnil] at hs
      cases hs
    · rw [ha.statuses] at hs
      obtain ⟨p, hp, rfl⟩ := List.mem_map.mp hs
      refine hcur _ _ ?_
      rw [ha.memo]
      exact (memo_step (hd' t (by simp) peers hread)).mpr ⟨p, hp, rfl, rfl⟩

/-! ## A peer that comes back -/

theorem sirius_healthy : Healthy spoke.cfg noon.time sirius := by
  unfold Healthy
  decide

/-- `sirius` is there, is removed, and is there again. -/
def absence : List (Reading × Except JsString (List PeerState)) := [(noon, .ok [sirius]), (noon, .ok [])]

theorem absence_distinct : ∀ t ∈ (ticks spoke quiet absence .empty).1, t.Distinct := by
  refine ticks_distinct fun i hi peers hread => ?_
  rcases List.mem_cons.mp hi with rfl | hi
  · cases hread
    exact List.nodup_singleton _
  · obtain rfl := List.mem_singleton.mp hi
    cases hread
    exact List.nodup_nil

/-- The log still says `gone` of a peer that is back and healthy. -/
theorem peer_returns : ∃ tr t st, Run (Step spoke) .empty (tr ++ [t]) st ∧
    (∀ t' ∈ tr ++ [t], t'.Distinct) ∧ ¬FeedCurrent tr t := by
  have run := run_of_ticks spoke quiet absence
  have hback : Step spoke _ _ _ := .mk noon (.ok [sirius]) quiet (ticks spoke quiet absence .empty).2
  have hd : ∀ t : Tick, t.read = .ok [sirius] → t.Distinct :=
    fun t h => distinct_of_read h (List.nodup_singleton _)
  refine ⟨_, _, _, run.snoc hback, ?_, hback.not_feedCurrent (hd _ rfl) (logInv_of_run run absence_distinct) ?_⟩
  · intro t ht
    rcases List.mem_append.mp ht with h | h
    · exact absence_distinct t h
    · rw [List.mem_singleton.mp h]
      exact hd _ rfl
  · refine ⟨[sirius], sirius, rfl, List.mem_cons_self .., ?_, ?_, sirius_healthy⟩
    · exact ⟨_, List.mem_cons_self .., List.mem_cons_self ..⟩
    · exact List.not_mem_nil

/-- As long as `sirius` does not come back, the log is current. -/
theorem absence_current : Always FeedCurrent (ticks spoke quiet absence .empty).1 := by
  refine (feed_current_iff spoke (run_of_ticks spoke quiet absence) absence_distinct).mpr ?_
  rintro pre t post htr ⟨peers, p, hread, hp, ⟨t', ht', hk⟩, _⟩
  rcases pre with _ | ⟨t₁, _ | ⟨t₂, pre⟩⟩
  · cases ht'
  · obtain ⟨_, rfl, _⟩ : _ = t₁ ∧ _ = t ∧ [] = post := by simpa [absence, ticks] using htr
    cases hread
    cases hp
  · exact absurd (congrArg List.length htr) (by simp [absence, ticks])

end Selfheal
end VpnPi
