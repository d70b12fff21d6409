import VpnPi.Island.Symbolic
import VpnPi.Selfheal.Journal

/-!
# `Selfheal.Roster` — the roster against the daemon

The roster of `readDaemon` has the last sighting of every label (`readDaemon_run`). A tick leaves sightings of
the peers it read, under their addresses, and of the peers that vanished, under their short keys
(`Advance.label`); the snapshot line of a peer comes before its transition.

* `roster_agrees_iff` — with snapshot lines on, the roster says of every peer what the memo says, except of a
  peer that goes on being held in `restored`: its snapshot line says `ok`, and no transition follows.
* `roster_clean_iff` — the entry of a peer that vanished stays, except where another peer took its address and
  was reported at once: the `gone` line goes under the short key.
-/

namespace VpnPi
namespace Selfheal

open Js Async Island

/-! ## The memo of a run -/

/-- The memo after the ticks of a run: their readings determine it. -/
def memoAfter (f : Flags) (tr : List Tick) : Memo :=
  tr.foldl (fun memo t =>
    match t.read with
    | .ok peers => (Heal.step t.now.time peers memo f.cfg).2
    | .error _ => memo) .empty

theorem memoAfter_snoc (f : Flags) (tr : List Tick) (t : Tick) :
    memoAfter f (tr ++ [t])
      = match t.read with
        | .ok peers => (Heal.step t.now.time peers (memoAfter f tr) f.cfg).2
        | .error _ => memoAfter f tr := by
  unfold memoAfter
  rw [List.foldl_append]
  rfl

variable {f : Flags} {st st' : LoopState} {t : Tick} {tr : List Tick} {peers : List PeerState}

theorem memo_of_run (run : Run (Step f) .empty tr st) : st.memo = memoAfter f tr := by
  refine run.invariant (I := fun tr st => st.memo = memoAfter f tr) rfl ?_
  intro tr st t st' _ ih h
  rw [memoAfter_snoc]
  rcases h.failed_or_read with ⟨⟨err, hread⟩, _, rfl, _⟩ | ⟨peers, hread, ha⟩
  · rw [hread]
    exact ih
  · rw [hread, ha.memo, ih]

/-! ## The sightings of a tick -/

def snapshotSighting (now : Time) (cfg : Config) (p : PeerState) : Sighting :=
  ⟨p.publicKey, peerLabel p.name p.tunnelIP p.publicKey, snapshotStatus now cfg p⟩

def eventSighting (e : Event) : Sighting := ⟨e.peer, peerLabel e.name e.tunnelIP e.peer, e.to_⟩

theorem sightingsOf_other {out : List Output} (h : ∀ o ∈ out, o.IsOther) : sightingsOf out = [] := by
  refine List.filterMap_eq_nil_iff.mpr fun o ho => ?_
  cases o with
  | log line => rfl
  | reassert peer ep => rfl
  | snapshot now p status => exact (h _ ho).elim
  | transition now e => exact (h _ ho).elim

/-- What a transition says of a peer that is there. -/
def changeSighting (now : Time) (memo : Memo) (cfg : Config) (p : PeerState) : Sighting :=
  ⟨p.publicKey, peerLabel p.name p.tunnelIP p.publicKey, (memoOf now memo cfg p).state⟩

def goneSighting (key : JsString) : Sighting := ⟨key, peerLabel [] [] key, .gone⟩

/-- The tick finds the peer in another state than the last read did. -/
def Changed (now : Time) (memo : Memo) (cfg : Config) (p : PeerState) : Prop :=
  (memo.at_ p.publicKey).state ≠ (memoOf now memo cfg p).state

instance (now : Time) (memo : Memo) (cfg : Config) : DecidablePred (Changed now memo cfg) :=
  fun _ => inferInstanceAs (Decidable (_ ≠ _))

theorem changes_sightings (now : Time) (memo : Memo) (cfg : Config) (peers : List PeerState) :
    (changes (statesOf memo) (peers.map (statusOf now memo cfg)) now).map eventSighting
      = (peers.filter fun p => Changed now memo cfg p).map (changeSighting now memo cfg) := by
  unfold changes
  rw [List.filter_map, List.map_map, List.map_map]
  refine congrArg (List.map _) (List.filter_congr fun p _ => ?_)
  show decide (stateBefore (statesOf memo) p.publicKey ≠ _) = _
  rw [stateBefore_statesOf]
  rfl

/-- **The sightings of a tick**: the snapshot lines, the changes, the peers that vanished. -/
theorem Advance.sightings (h : Advance f st t peers st') :
    sightingsOf t.out = (if f.snapshot then peers.map (snapshotSighting t.now.time f.cfg) else [])
      ++ (peers.filter fun p => Changed t.now.time st.memo f.cfg p).map (changeSighting t.now.time st.memo f.cfg)
      ++ (goneKeys (statesOf st.memo) (Alert.diff (statesOf st.memo) t.statuses t.now.time).2).map
        goneSighting := by
  obtain ⟨other, hother, hout⟩ := h.out
  have hevents : ∀ events : List Event,
      sightingsOf (events.map (.transition t.now.time)) = events.map eventSighting := by
    intro events
    unfold sightingsOf
    rw [List.filterMap_map]
    exact congrFun List.filterMap_eq_map' _
  have hobserved : sightingsOf (if f.snapshot then observe t.now.time peers f.cfg else [])
      = if f.snapshot then peers.map (snapshotSighting t.now.time f.cfg) else [] := by
    cases f.snapshot with
    | false => rfl
    | true =>
        show (peers.map _).filterMap Output.sighting = peers.map _
        rw [List.filterMap_map]
        exact congrFun List.filterMap_eq_map' _
  have happend : ∀ o o' : List Output, sightingsOf (o ++ o') = sightingsOf o ++ sightingsOf o' :=
    fun _ _ => List.filterMap_append ..
  have hchanges := changes_sightings t.now.time st.memo f.cfg peers
  rw [← h.statuses] at hchanges
  rw [hout, happend, happend, sightingsOf_other hother, List.append_nil, hobserved, hevents]
  show _ ++ (changes _ _ _ ++ _).map eventSighting = _
  rw [List.map_append, List.map_map, hchanges, List.append_assoc]
  rfl

/-! ## Labels -/

/-- What the kernel says of a peer of the read. -/
theorem Tick.Kernel.peer (hk : t.Kernel) (hread : t.read = .ok peers) {p : PeerState} (hp : p ∈ peers) :
    p.publicKey.length = 44 ∧ IsAscii p.tunnelIP ∧ p.tunnelIP ≠ [] ∧
      peerLabel p.name p.tunnelIP p.publicKey = p.tunnelIP := by
  obtain ⟨ps, rfl⟩ := hk.mapped peers hread
  obtain ⟨hname, hlength, hascii⟩ := mem_mapPeers hp
  have haddr := hk.nonempty _ hread p hp
  exact ⟨hlength, hascii, haddr, peerLabel_address hname haddr⟩

/-- The keys the memo knows are keys the kernel reported. -/
theorem memo_key (run : Run (Step f) .empty tr st) (hk : ∀ t ∈ tr, t.Kernel) {k : JsString} {m : PeerMemo}
    (hm : st.memo.get k = some m) : k.length = 44 := by
  have hi := logInv_of_run run fun t ht => (hk t ht).keys
  obtain ⟨t, ht, hkey⟩ := hi.read k ((hi.keys k).mp (by rw [hm]; rfl))
  unfold Tick.keys at hkey
  split at hkey
  · next peers hread =>
      obtain ⟨p, hp, rfl⟩ := List.mem_map.mp hkey
      exact ((hk t ht).peer hread hp).1
  · cases hkey

/-- The sightings of a tick under an address, of those that a part of the peers leaves. -/
theorem filter_address {g : PeerState → Sighting} (hg : ∀ p ∈ peers, (g p).label = p.tunnelIP)
    (hnd : (peers.map PeerState.tunnelIP).Nodup) (c : PeerState → Bool) {p : PeerState} (hp : p ∈ peers) :
    ((peers.filter c).map g).filter (fun s => s.label = p.tunnelIP) = if c p then [g p] else [] := by
  have hlabel : (peers.filter c).filter ((fun s => decide (s.label = p.tunnelIP)) ∘ g)
      = (peers.filter c).filter fun q => q.tunnelIP = p.tunnelIP := by
    refine List.filter_congr fun q hq => ?_
    show decide ((g q).label = _) = _
    rw [hg q (List.mem_filter.mp hq).1]
  rw [List.filter_map, hlabel, List.filter_comm, filter_key_self PeerState.tunnelIP hnd hp]
  cases hc : c p with
  | true => simp [hc]
  | false => simp [hc]

/-- **The sightings of a tick under the address of a peer**: its snapshot line, then its change. -/
theorem Advance.under_address (h : Advance f st t peers st') (hk : t.Kernel) (hread : t.read = .ok peers)
    (hmemo : ∀ k m, st.memo.get k = some m → k.length = 44) {p : PeerState} (hp : p ∈ peers) :
    (sightingsOf t.out).filter (fun s => s.label = p.tunnelIP)
      = (if f.snapshot then [snapshotSighting t.now.time f.cfg p] else [])
        ++ if Changed t.now.time st.memo f.cfg p then [changeSighting t.now.time st.memo f.cfg p] else [] := by
  have haddrs := hk.addrs peers hread
  have hlabel : ∀ q ∈ peers, peerLabel q.name q.tunnelIP q.publicKey = q.tunnelIP :=
    fun q hq => (hk.peer hread hq).2.2.2
  have hsnapshots : (if f.snapshot then peers.map (snapshotSighting t.now.time f.cfg) else []).filter
        (fun s => s.label = p.tunnelIP)
      = if f.snapshot then [snapshotSighting t.now.time f.cfg p] else [] := by
    cases f.snapshot with
    | false => rfl
    | true =>
        have hall := filter_address (g := snapshotSighting t.now.time f.cfg) hlabel haddrs (fun _ => true) hp
        rw [List.filter_true] at hall
        exact hall
  have hchanges := filter_address (g := changeSighting t.now.time st.memo f.cfg) hlabel haddrs
    (fun q => Changed t.now.time st.memo f.cfg q) hp
  have hgone : ((goneKeys (statesOf st.memo) (Alert.diff (statesOf st.memo) t.statuses t.now.time).2).map
      goneSighting).filter (fun s => s.label = p.tunnelIP) = [] := by
    rw [List.filter_eq_nil_iff]
    intro s hs hlabel
    obtain ⟨k, hk', rfl⟩ := List.mem_map.mp hs
    have hold := (List.mem_filter.mp ((List.perm_insertionSort ..).mem_iff.mp hk')).1
    obtain ⟨m, hm⟩ := OrdMap.mem_keys_iff.mp hold
    obtain ⟨m', hm', _⟩ := OrdMap.get_mapVal_eq_some.mp hm
    have hascii := (hk.peer hread hp).2.1
    rw [← of_decide_eq_true hlabel] at hascii
    exact shortKey_not_ascii (hmemo k m' hm') hascii
  rw [h.sightings, List.filter_append, List.filter_append, hsnapshots, hchanges, hgone, List.append_nil]
  simp only [decide_eq_true_eq]

/-- **Whose sightings a tick leaves**: of a peer it read and reports, under its address; or of a peer that
    vanished, under no address. -/
theorem Advance.label (h : Advance f st t peers st') (hk : t.Kernel) (hread : t.read = .ok peers)
    (hmemo : ∀ k m, st.memo.get k = some m → k.length = 44) {s : Sighting} (hs : s ∈ sightingsOf t.out) :
    (∃ p ∈ peers, s.key = p.publicKey ∧ s.label = p.tunnelIP) ∨ s.state = .gone ∧ ¬IsAscii s.label := by
  rw [h.sightings, List.mem_append, List.mem_append] at hs
  rcases hs with (hs | hs) | hs
  · split at hs
    · obtain ⟨p, hp, rfl⟩ := List.mem_map.mp hs
      exact Or.inl ⟨p, hp, rfl, (hk.peer hread hp).2.2.2⟩
    · cases hs
  · obtain ⟨p, hp, rfl⟩ := List.mem_map.mp hs
    have hp := (List.mem_filter.mp hp).1
    exact Or.inl ⟨p, hp, rfl, (hk.peer hread hp).2.2.2⟩
  · obtain ⟨k, hk', rfl⟩ := List.mem_map.mp hs
    have hold := (List.mem_filter.mp ((List.perm_insertionSort ..).mem_iff.mp hk')).1
    obtain ⟨m, hm⟩ := OrdMap.mem_keys_iff.mp hold
    obtain ⟨m', hm', _⟩ := OrdMap.get_mapVal_eq_some.mp hm
    exact Or.inr ⟨rfl, shortKey_not_ascii (hmemo k m' hm')⟩

theorem lastSighting_snoc (tr : List Tick) (t : Tick) (label : JsString) :
    lastSighting (tr ++ [t]) label
      = ((sightingsOf t.out).filter fun s => s.label = label).getLast?.or (lastSighting tr label) := by
  unfold lastSighting
  rw [List.flatMap_append, List.filter_append, List.getLast?_append, List.flatMap_cons, List.flatMap_nil,
    List.append_nil]

/-! ## With snapshot lines -/

variable {E : Engine}

/-- The roster gives every peer of the tick `t`, which ends the run `tr`, the state the memo holds for it. -/
def RosterAgrees (J : Journal E) (tr : List Tick) (t : Tick) (memo : Memo) : Prop :=
  ∃ roster, readDaemon E (J.text tr) = .ok roster ∧ ∀ peers, t.read = .ok peers → ∀ p ∈ peers,
    rosterState roster (peerLabel p.name p.tunnelIP p.publicKey) = some (memo.at_ p.publicKey).state.text

/-- The tick goes on holding a healthy peer in `restored`. -/
def Holds (f : Flags) (memo : Memo) (t : Tick) (p : PeerState) : Prop :=
  Healthy f.cfg t.now.time p ∧ (memo.at_ p.publicKey).state = .restored ∧
    t.now.time.sub (memo.at_ p.publicKey).restoredSince < f.cfg.restoredHold

theorem State.text_inj {s s' : State} (h : s.text = s'.text) : s = s' := by
  cases s <;> cases s' <;> first | rfl | exact absurd h (by decide)

/-- The snapshot line goes by the age alone. -/
theorem snapshotStatus_eq (now : Time) (cfg : Config) (p : PeerState) :
    snapshotStatus now cfg p = if cfg.degradedAfter ≤ p.staleness now then .degraded
      else if cfg.staleAfter ≤ p.staleness now then .stale else .ok := by
  unfold snapshotStatus PeerState.staleness
  cases hzero : p.lastHandshake.isZero with
  | true =>
      have hrange : cfg.degradedAfter ≤ maxStaleness := cfg.range
      rw [if_pos (Or.inl rfl), if_pos rfl, if_pos hrange]
  | false =>
      simp only [Bool.false_eq_true, false_or, if_false]

/-- The snapshot line and the memo disagree on a peer exactly if the memo has it `restored`. -/
theorem snapshotStatus_eq_stepPeer {now : Time} {cfg : Config} {p : PeerState} {prev : PeerMemo} :
    snapshotStatus now cfg p = (stepPeer now p prev cfg).state ↔ (stepPeer now p prev cfg).state ≠ .restored := by
  rw [snapshotStatus_eq]
  rcases stepPeer_state p prev with ⟨hdeg, hs⟩ | ⟨hdeg, hst, hs⟩ | ⟨hdeg, hst, ⟨hs, _⟩ | ⟨hs, _⟩⟩
  · rw [hs, if_pos hdeg]
    simp
  · rw [hs, if_neg (Int.not_le.mpr hdeg), if_pos hst]
    simp
  · rw [hs, if_neg (Int.not_le.mpr hdeg), if_neg (Int.not_le.mpr hst)]
    simp
  · rw [hs, if_neg (Int.not_le.mpr hdeg), if_neg (Int.not_le.mpr hst)]
    simp

/-- A peer stays `restored` exactly if the tick goes on holding it. -/
theorem holds_iff {memo : Memo} {p : PeerState} :
    Holds f memo t p ↔
      ¬Changed t.now.time memo f.cfg p ∧ (memoOf t.now.time memo f.cfg p).state = .restored := by
  unfold Holds Changed Healthy
  rw [not_not]
  constructor
  · rintro ⟨⟨hdeg, hst⟩, hprev, hheld⟩
    have hstep : (memoOf t.now.time memo f.cfg p).state = .restored := by
      unfold memoOf stepPeer
      simp only [if_neg (Int.not_le.mpr hdeg), if_neg (Int.not_le.mpr hst), hprev, if_neg (Int.not_le.mpr hheld)]
    exact ⟨hprev.trans hstep.symm, hstep⟩
  · rintro ⟨hsame, hstep⟩
    have hprev := hsame.trans hstep
    rcases @stepPeer_state t.now.time f.cfg p (memo.at_ p.publicKey) with
      ⟨_, hs⟩ | ⟨_, _, hs⟩ | ⟨hdeg, hst, _⟩
    · cases hs.symm.trans hstep
    · cases hs.symm.trans hstep
    · refine ⟨⟨hdeg, hst⟩, hprev, Int.not_le.mp fun hover => ?_⟩
      unfold memoOf stepPeer at hstep
      simp only [if_neg (Int.not_le.mpr hdeg), if_neg (Int.not_le.mpr hst), hprev, if_pos hover] at hstep
      cases hstep

/-- **One peer of the tick**: with snapshot lines on, its entry is what the memo says unless it is held. -/
theorem rosterState_iff {roster : List DaemonPeer} (run : Run (Step f) .empty (tr ++ [t]) st)
    (hk : ∀ t' ∈ tr ++ [t], t'.Kernel) (hsnapshot : f.snapshot = true) (hread : t.read = .ok peers)
    (hlast : ∀ label, label ≠ [] →
      rosterState roster label = (lastSighting (tr ++ [t]) label).map fun s => s.state.text)
    {p : PeerState} (hp : p ∈ peers) :
    rosterState roster (peerLabel p.name p.tunnelIP p.publicKey) = some (st.memo.at_ p.publicKey).state.text ↔
      ¬Holds f (memoAfter f tr) t p := by
  obtain ⟨st₁, run₁, hstep⟩ := run.of_concat
  have hk₁ := (List.forall_mem_append.mp hk).1
  have hkt := hk t (by simp)
  rcases hstep.failed_or_read with ⟨⟨err, herr⟩, _⟩ | ⟨peers', hread', ha⟩
  · cases herr.symm.trans hread
  obtain rfl := Except.ok.inj (hread'.symm.trans hread)
  obtain ⟨_, _, haddr, hlabel⟩ := hkt.peer hread hp
  have hmemo : st.memo.at_ p.publicKey = memoOf t.now.time st₁.memo f.cfg p := by
    rw [Memo.at_, ha.memo, (memo_step (hkt.keys _ hread)).mpr ⟨p, hp, rfl, rfl⟩]
    rfl
  rw [hlabel, hlast _ haddr, lastSighting_snoc,
    ha.under_address hkt hread (fun k m => memo_key run₁ hk₁) hp, hsnapshot, hmemo, holds_iff,
    ← memo_of_run run₁]
  by_cases hchanged : Changed t.now.time st₁.memo f.cfg p
  · rw [if_pos hchanged]
    simp [hchanged, changeSighting]
  · rw [if_neg hchanged]
    have hsame : snapshotStatus t.now.time f.cfg p = (memoOf t.now.time st₁.memo f.cfg p).state ↔
        (memoOf t.now.time st₁.memo f.cfg p).state ≠ .restored := snapshotStatus_eq_stepPeer
    simp only [if_true, List.append_nil, List.getLast?_singleton, Option.some_or, Option.map_some,
      Option.some.injEq, snapshotSighting, hchanged, not_false_eq_true, true_and]
    exact ⟨fun h => hsame.mp (State.text_inj h), fun h => congrArg State.text (hsame.mpr h)⟩

/-- **When the roster has the daemon's own classification.** With snapshot lines on, the roster after a tick
    gives every peer of it the state in the memo exactly if the tick goes on holding none of them in
    `restored`. -/
theorem roster_agrees_iff (J : Journal E) (f : Flags) (hsnapshot : f.snapshot = true) {tr : List Tick} {t : Tick}
    {st : LoopState} (run : Run (Step f) .empty (tr ++ [t]) st) (hk : ∀ t' ∈ tr ++ [t], t'.Kernel) :
    RosterAgrees J (tr ++ [t]) t st.memo ↔
      ∀ peers, t.read = .ok peers → ∀ p ∈ peers, ¬Holds f (memoAfter f tr) t p := by
  obtain ⟨roster, hroster, hlast⟩ := readDaemon_run J run
  constructor
  · rintro ⟨roster', hroster', hagrees⟩ peers hread p hp
    obtain rfl := Except.ok.inj (hroster.symm.trans hroster')
    exact (rosterState_iff run hk hsnapshot hread hlast hp).mp (hagrees peers hread p hp)
  · intro hholds
    refine ⟨roster, hroster, fun peers hread p hp => ?_⟩
    exact (rosterState_iff run hk hsnapshot hread hlast hp).mpr (hholds peers hread p hp)

/-! ## Peers that vanished -/

/-- What the roster still says of a peer that the last successful read no longer has is `gone`: an entry is a
    peer's if the last sighting under its label was. -/
def RosterClean (J : Journal E) (tr : List Tick) : Prop :=
  ∃ roster, readDaemon E (J.text tr) = .ok roster ∧ ∀ label s, lastSighting tr label = some s →
    s.key ∉ lastKeys tr → rosterState roster label = some State.gone.text

/-- The tick logs a line of the peer. -/
def Reported (f : Flags) (memo : Memo) (t : Tick) (p : PeerState) : Prop :=
  f.snapshot = true ∨ Changed t.now.time memo f.cfg p

/-- The read of the tick lacks a peer that has an entry other than `gone`, and the tick reports no peer with
    the address of that entry. -/
def Orphans (f : Flags) (tr : List Tick) (t : Tick) : Prop :=
  ∃ peers s, t.read = .ok peers ∧ lastSighting tr s.label = some s ∧ s.state ≠ .gone ∧
    s.key ∉ peers.map PeerState.publicKey ∧
    ∀ p ∈ peers, p.tunnelIP = s.label → ¬Reported f (memoAfter f tr) t p

/-- Every last sighting is of a peer that is there, or says `gone`. -/
def Sound (tr : List Tick) : Prop :=
  ∀ label s, lastSighting tr label = some s → s.state ≠ .gone → s.key ∈ lastKeys tr

theorem lastSighting_label {label : JsString} {s : Sighting} (h : lastSighting tr label = some s) :
    s.label = label ∧ ∃ t ∈ tr, s ∈ sightingsOf t.out := by
  obtain ⟨hmem, hlabel⟩ := List.mem_filter.mp (List.mem_of_getLast? h)
  obtain ⟨t, ht, hs⟩ := List.mem_flatMap.mp hmem
  exact ⟨of_decide_eq_true hlabel, t, ht, hs⟩

theorem Step.sightings_failed {err : JsString} (h : Step f st t st') (hread : t.read = .error err) :
    sightingsOf t.out = [] := by
  rcases h.failed_or_read with ⟨_, _, _, _, hother⟩ | ⟨peers, hread', _⟩
  · exact sightingsOf_other hother
  · cases hread.symm.trans hread'

/-- A sighting has a label, and is under an address unless it says `gone`. -/
theorem sighting_label (run : Run (Step f) .empty tr st) (hk : ∀ t ∈ tr, t.Kernel) (ht : t ∈ tr) {s : Sighting}
    (hs : s ∈ sightingsOf t.out) : s.label ≠ [] ∧ (s.state ≠ .gone → IsAscii s.label) := by
  obtain ⟨pre, post, rfl⟩ := List.append_of_mem ht
  obtain ⟨st₁, st₂, run₁, hstep⟩ := run.split
  have hk₁ := (List.forall_mem_append.mp hk).1
  cases hread : t.read with
  | error err =>
      rw [hstep.sightings_failed hread] at hs
      cases hs
  | ok peers =>
      rcases hstep.failed_or_read with ⟨⟨err, herr⟩, _⟩ | ⟨peers', hread', ha⟩
      · cases herr.symm.trans hread
      · rcases ha.label (hk t ht) hread' (fun k m => memo_key run₁ hk₁) hs with ⟨p, hp, _, hlabel⟩ | ⟨hgone, hlabel⟩
        · obtain ⟨_, hascii, haddr, _⟩ := (hk t ht).peer hread' hp
          rw [hlabel]
          exact ⟨haddr, fun _ => hascii⟩
        · refine ⟨fun hnil => hlabel ?_, fun hne => absurd hgone hne⟩
          rw [hnil]
          exact .nil

theorem rosterClean_iff (J : Journal E) (run : Run (Step f) .empty tr st) (hk : ∀ t ∈ tr, t.Kernel) :
    RosterClean J tr ↔ Sound tr := by
  obtain ⟨roster, hroster, hlast⟩ := readDaemon_run J run
  have hstate : ∀ label s, lastSighting tr label = some s → rosterState roster label = some s.state.text := by
    intro label s hs
    obtain ⟨rfl, t, ht, hmem⟩ := lastSighting_label hs
    rw [hlast _ (sighting_label run hk ht hmem).1, hs, Option.map_some]
  constructor
  · rintro ⟨roster', hroster', hclean⟩ label s hs hne
    obtain rfl := Except.ok.inj (hroster.symm.trans hroster')
    by_contra hkey
    have hgone := hclean label s hs hkey
    rw [hstate label s hs] at hgone
    exact hne (State.text_inj (Option.some.inj hgone))
  · intro hsound
    refine ⟨roster, hroster, fun label s hs hkey => ?_⟩
    have hgone : s.state = .gone := by
      by_contra hne
      exact hkey (hsound label s hs hne)
    rw [hstate label s hs, hgone]

/-- **One tick**: the entries stay sound exactly if it orphans none. -/
theorem Step.sound_iff (run : Run (Step f) .empty tr st) (hk : ∀ t' ∈ tr ++ [t], t'.Kernel) (h : Step f st t st')
    (hsound : Sound tr) : Sound (tr ++ [t]) ↔ ¬Orphans f tr t := by
  have hk₁ := (List.forall_mem_append.mp hk).1
  have hkt := hk t (by simp)
  rcases h.failed_or_read with ⟨⟨err, hread⟩, _, _, _, hother⟩ | ⟨peers, hread, ha⟩
  · -- a failed read logs no sighting and moves no peer
    have hsame : ∀ label, lastSighting (tr ++ [t]) label = lastSighting tr label := by
      intro label
      rw [lastSighting_snoc, sightingsOf_other hother]
      rfl
    refine ⟨?_, fun _ label s hs hne => ?_⟩
    · rintro _ ⟨peers, s, hread', _⟩
      cases hread.symm.trans hread'
    · rw [hsame] at hs
      rw [(failed_frame tr hread hother).1]
      exact hsound label s hs hne
  · have hmemo : ∀ k m, st.memo.get k = some m → k.length = 44 := fun k m => memo_key run hk₁
    have hlast := lastKeys_of_read tr hread
    constructor
    · rintro hsound' ⟨peers', s, hread', hs, hne, hkey, hnone⟩
      obtain rfl := Except.ok.inj (hread.symm.trans hread')
      -- no sighting of the tick is under the label of the orphan
      have hfilter : (sightingsOf t.out).filter (fun s' => s'.label = s.label) = [] := by
        by_cases haddr : ∃ p ∈ peers, p.tunnelIP = s.label
        · obtain ⟨p, hp, haddr⟩ := haddr
          have hquiet := hnone p hp haddr
          rw [← memo_of_run run] at hquiet
          unfold Reported at hquiet
          rw [not_or] at hquiet
          rw [← haddr, ha.under_address hkt hread hmemo hp, if_neg hquiet.1, if_neg hquiet.2]
          rfl
        · rw [List.filter_eq_nil_iff]
          intro s' hs' hlabel
          have hlabel := of_decide_eq_true hlabel
          rcases ha.label hkt hread hmemo hs' with ⟨p, hp, _, haddr'⟩ | ⟨_, hascii⟩
          · exact haddr ⟨p, hp, haddr'.symm.trans hlabel⟩
          · obtain ⟨_, t', ht', hmem⟩ := lastSighting_label hs
            rw [hlabel] at hascii
            exact hascii ((sighting_label run hk₁ ht' hmem).2 hne)
      have hstill : lastSighting (tr ++ [t]) s.label = some s := by
        rw [lastSighting_snoc, hfilter, hs]
        rfl
      have := hsound' _ s hstill hne
      rw [hlast] at this
      exact hkey this
    · intro hnone label s hs hne
      rw [hlast]
      rw [lastSighting_snoc] at hs
      -- the entry is of this tick or an older one
      cases hnow : ((sightingsOf t.out).filter fun s => s.label = label).getLast? with
      | some s' =>
          rw [hnow] at hs
          obtain rfl := Option.some.inj hs
          have hmem := (List.mem_filter.mp (List.mem_of_getLast? hnow)).1
          rcases ha.label hkt hread hmemo hmem with ⟨p, hp, hkey, _⟩ | ⟨hgone, _⟩
          · rw [hkey]
            exact List.mem_map_of_mem hp
          · exact absurd hgone hne
      | none =>
          rw [hnow] at hs
          have hs : lastSighting tr label = some s := hs
          obtain ⟨rfl, _⟩ := lastSighting_label hs
          have hfilter := List.getLast?_eq_none_iff.mp hnow
          by_contra hkey
          refine hnone ⟨peers, s, hread, hs, hne, hkey, fun p hp haddr hreported => ?_⟩
          rw [← haddr, ha.under_address hkt hread hmemo hp] at hfilter
          rw [← memo_of_run run] at hreported
          obtain ⟨hsnapshot, hchange⟩ := List.append_eq_nil_iff.mp hfilter
          rcases hreported with hreported | hreported
          · rw [if_pos hreported] at hsnapshot
            cases hsnapshot
          · rw [if_pos hreported] at hchange
            cases hchange

theorem sound_of_run (run : Run (Step f) .empty tr st) (hk : ∀ t ∈ tr, t.Kernel)
    (hnone : Always (fun pre t => ¬Orphans f pre t) tr) : Sound tr := by
  refine run.invariant (I := fun tr _ => (∀ t ∈ tr, t.Kernel) → Always (fun pre t => ¬Orphans f pre t) tr →
    Sound tr) ?_ ?_ hk hnone
  · intro _ _ label s hs
    cases hs
  · intro tr st t st' run ih h hk hnone
    exact (h.sound_iff run hk (ih (List.forall_mem_append.mp hk).1 hnone.init)).mpr hnone.last

/-- **When a removed peer leaves the roster.** After every tick of a run the entries of the peers that are not
    in the last successful read say `gone`, exactly if no tick orphans an entry. -/
theorem roster_clean_iff (J : Journal E) (f : Flags) {tr : List Tick} {st : LoopState}
    (run : Run (Step f) .empty tr st) (hk : ∀ t ∈ tr, t.Kernel) :
    Always (fun pre t => RosterClean J (pre ++ [t])) tr ↔ Always (fun pre t => ¬Orphans f pre t) tr := by
  constructor
  · intro hclean
    -- the first tick that orphans an entry leaves the roster unsound
    refine run.invariant (I := fun tr _ => (∀ t ∈ tr, t.Kernel) →
      Always (fun pre t => RosterClean J (pre ++ [t])) tr → Always (fun pre t => ¬Orphans f pre t) tr)
      ?_ ?_ hk hclean
    · intro _ _ pre t post htr
      exact absurd htr (by simp)
    · intro tr st t st' run ih h hk hclean
      have hk₁ := (List.forall_mem_append.mp hk).1
      have hnone := ih hk₁ hclean.init
      refine hnone.snoc ?_
      exact (h.sound_iff run hk (sound_of_run run hk₁ hnone)).mp
        ((rosterClean_iff J (run.snoc h) hk).mp hclean.last)
  · intro hnone pre t post htr
    subst htr
    obtain ⟨s₁, s₂, run₁, hstep⟩ := run.split
    rw [List.append_cons] at hk hnone
    have hk' := (List.forall_mem_append.mp hk).1
    exact (rosterClean_iff J (run₁.snoc hstep) hk').mpr (sound_of_run (run₁.snoc hstep) hk' hnone.take)

/-! ## A roster that is wrong -/

/-- `sirius`, as the interface has it. -/
def siriusWg : WgPeer where
  publicKey     := ⟨sirius.publicKey, rfl⟩
  allowedIPs    := [⟨⟨sirius.tunnelIP, .of_all (by decide)⟩, true⟩]
  lastHandshake := sirius.lastHandshake
  endpoint      := some sirius.endpoint

/-- A spoke with `--snapshot`. -/
def observer : Flags := { spoke with snapshot := true }

def after (s : Int) : Reading := ⟨noon.wall + s * 1000000000, noon.mono + s * 1000000000⟩

theorem kernel_none {t : Tick} (h : t.read = .ok []) : t.Kernel where
  mapped   := fun peers hread => ⟨[], Except.ok.inj (hread.symm.trans h)⟩
  keys     := distinct_of_read h List.nodup_nil
  addrs    := fun peers hread => by
    obtain rfl := Except.ok.inj (hread.symm.trans h)
    exact List.nodup_nil
  nonempty := fun peers hread => by
    obtain rfl := Except.ok.inj (hread.symm.trans h)
    exact fun _ hp => absurd hp List.not_mem_nil

theorem kernel_singleton {t : Tick} (w : WgPeer) (h : t.read = .ok (mapPeers [w]))
    (haddr : firstAllowedIP w.allowedIPs ≠ []) : t.Kernel where
  mapped   := fun peers hread => ⟨[w], Except.ok.inj (hread.symm.trans h)⟩
  keys     := distinct_of_read h (List.nodup_singleton _)
  addrs    := fun peers hread => by
    obtain rfl := Except.ok.inj (hread.symm.trans h)
    exact List.nodup_singleton _
  nonempty := fun peers hread p hp => by
    obtain rfl := Except.ok.inj (hread.symm.trans h)
    obtain rfl := List.mem_singleton.mp hp
    exact haddr

/-- `sirius` without a handshake, and then, in some of the runs, with one. -/
def first : List (Reading × Except JsString (List PeerState)) :=
  [(noon, .ok (mapPeers [{ siriusWg with lastHandshake := .zero }]))]

def recovery : List (Reading × Except JsString (List PeerState)) :=
  first ++ [(after 10, .ok (mapPeers [siriusWg]))]

/-- A run of which every tick read `sirius`, and one more tick. -/
theorem kernel_snoc {inputs : List (Reading × Except JsString (List PeerState))}
    (h : ∀ i ∈ inputs, ∃ handshake, i.2 = .ok (mapPeers [{ siriusWg with lastHandshake := handshake }]))
    {t : Tick} (ht : t.Kernel) : ∀ t' ∈ (ticks observer quiet inputs .empty).1 ++ [t], t'.Kernel := by
  intro t' ht'
  rcases List.mem_append.mp ht' with ht' | ht'
  · obtain ⟨handshake, hread⟩ := h _ (mem_ticks ht')
    exact kernel_singleton _ hread (show firstAllowedIP siriusWg.allowedIPs ≠ [] by decide)
  · rw [List.mem_singleton.mp ht']
    exact ht

theorem first_reads : ∀ i ∈ first, ∃ handshake,
    i.2 = .ok (mapPeers [{ siriusWg with lastHandshake := handshake }]) := by
  intro i hi
  rw [List.mem_singleton.mp hi]
  exact ⟨_, rfl⟩

theorem recovery_reads : ∀ i ∈ recovery, ∃ handshake,
    i.2 = .ok (mapPeers [{ siriusWg with lastHandshake := handshake }]) := by
  intro i hi
  rcases List.mem_append.mp hi with hi | hi
  · exact first_reads i hi
  · rw [List.mem_singleton.mp hi]
    exact ⟨_, rfl⟩

theorem kernel_sirius {t : Tick} (h : t.read = .ok (mapPeers [siriusWg])) : t.Kernel :=
  kernel_singleton siriusWg h (by decide)

/-- The tick after `sirius` recovered says `ok` of a peer that the memo holds in `restored`. -/
theorem restored_shows_ok : ∃ tr t st, Run (Step observer) .empty (tr ++ [t]) st ∧
    (∀ t' ∈ tr ++ [t], t'.Kernel) ∧ ¬RosterAgrees (jsonJournal Symbolic.platform.toEngine) (tr ++ [t]) t st.memo := by
  have hheld : Step observer _ _ _ := .mk (after 20) (.ok (mapPeers [siriusWg])) quiet
    (ticks observer quiet recovery .empty).2
  have run := (run_of_ticks observer quiet recovery).snoc hheld
  have hk : ∀ t : Tick, t.read = .ok (mapPeers [siriusWg]) → ∀ t' ∈ _ ++ [t], t'.Kernel :=
    fun t h => kernel_snoc recovery_reads (kernel_sirius h)
  refine ⟨_, _, _, run, hk _ rfl, ?_⟩
  rintro ⟨roster, hroster, hagrees⟩
  obtain ⟨roster', hroster', hlast⟩ := readDaemon_run (jsonJournal Symbolic.platform.toEngine) run
  obtain rfl := Except.ok.inj (hroster.symm.trans hroster')
  have hagree := hagrees _ rfl sirius (List.mem_cons_self ..)
  refine (rosterState_iff run (hk _ rfl) rfl rfl hlast (List.mem_cons_self ..)).mp hagree ⟨⟨?_, ?_⟩, ?_, ?_⟩
  · decide +kernel
  · decide +kernel
  · decide +kernel
  · decide +kernel

/-- The tick at which it recovers says `restored`. -/
theorem recovery_agrees : ∃ tr t st, Run (Step observer) .empty (tr ++ [t]) st ∧
    RosterAgrees (jsonJournal Symbolic.platform.toEngine) (tr ++ [t]) t st.memo := by
  have hback : Step observer _ _ _ := .mk (after 10) (.ok (mapPeers [siriusWg])) quiet
    (ticks observer quiet first .empty).2
  have run := (run_of_ticks observer quiet first).snoc hback
  have hk : ∀ t : Tick, t.read = .ok (mapPeers [siriusWg]) → ∀ t' ∈ _ ++ [t], t'.Kernel :=
    fun t h => kernel_snoc first_reads (kernel_sirius h)
  refine ⟨_, _, _, run, (roster_agrees_iff _ observer rfl run (hk _ rfl)).mpr fun peers hread p hp hholds => ?_⟩
  obtain rfl := Except.ok.inj hread
  obtain rfl := List.mem_singleton.mp hp
  exact absurd hholds.2.1 (by decide +kernel)

/-- `sirius` is removed, and its entry still says `degraded`. -/
theorem removed_stays : ∃ tr st, Run (Step observer) .empty tr st ∧ (∀ t ∈ tr, t.Kernel) ∧
    ¬RosterClean (jsonJournal Symbolic.platform.toEngine) tr := by
  have hremoved : Step observer _ _ _ := .mk (after 10) (.ok []) quiet (ticks observer quiet first .empty).2
  have run := (run_of_ticks observer quiet first).snoc hremoved
  have hk : ∀ t : Tick, t.read = .ok [] → ∀ t' ∈ _ ++ [t], t'.Kernel :=
    fun t h => kernel_snoc first_reads (kernel_none h)
  refine ⟨_, _, run, hk _ rfl, fun hclean => ?_⟩
  have hsound := (rosterClean_iff _ run (hk _ rfl)).mp hclean
  exact absurd (hsound sirius.tunnelIP _ rfl (by decide)) List.not_mem_nil

/-- A new machine at the address of `sirius`. -/
def successorWg : WgPeer :=
  { siriusWg with publicKey := ⟨js "c3VjY2Vzc29yLXB1YmxpYy1rZXktb2YtMzItYnl0ZXM=", rfl⟩ }

/-- Where `sirius` is replaced, nothing is orphaned. -/
theorem successor_not_orphans {t : Tick} (h : t.read = .ok (mapPeers [successorWg])) :
    ¬Orphans observer (ticks observer quiet first .empty).1 t := by
  rintro ⟨peers, s, hread, hlast, _, _, hunreported⟩
  obtain rfl := Except.ok.inj (h.symm.trans hread)
  have hlabels : ((ticks observer quiet first .empty).1.flatMap fun t => sightingsOf t.out).all
      (fun s => s.label = sirius.tunnelIP) = true := by decide +kernel
  obtain ⟨_, t', ht', hs⟩ := lastSighting_label hlast
  have hlabel := of_decide_eq_true (List.all_eq_true.mp hlabels s (List.mem_flatMap.mpr ⟨t', ht', hs⟩))
  -- the new machine has a snapshot line under this address
  exact hunreported _ (List.mem_cons_self ..) hlabel.symm (.inl rfl)

theorem first_not_orphans : Always (fun pre t => ¬Orphans observer pre t) (ticks observer quiet first .empty).1 := by
  rintro pre t post htr ⟨peers, s, _, hs, _⟩
  rcases pre with _ | ⟨t₁, pre⟩
  · cases hs
  · exact absurd (congrArg List.length htr) (by simp [first, ticks])

/-- `sirius` is removed and its address given to another machine: the roster is clean. -/
theorem replaced_clean : ∃ tr st, Run (Step observer) .empty tr st ∧ (∀ t ∈ tr, t.Kernel) ∧
    (∃ t ∈ tr, sirius.publicKey ∈ t.keys) ∧ sirius.publicKey ∉ lastKeys tr ∧
    Always (fun pre t => RosterClean (jsonJournal Symbolic.platform.toEngine) (pre ++ [t])) tr := by
  have hreplaced : Step observer _ _ _ := .mk (after 10) (.ok (mapPeers [successorWg])) quiet
    (ticks observer quiet first .empty).2
  have run := (run_of_ticks observer quiet first).snoc hreplaced
  have hk : ∀ t : Tick, t.read = .ok (mapPeers [successorWg]) → ∀ t' ∈ _ ++ [t], t'.Kernel :=
    fun t h => kernel_snoc first_reads (kernel_singleton successorWg h (by decide))
  refine ⟨_, _, run, hk _ rfl, ?_, ?_, (roster_clean_iff _ observer run (hk _ rfl)).mpr ?_⟩
  · decide +kernel
  · decide +kernel
  · exact first_not_orphans.snoc (successor_not_orphans rfl)

end Selfheal
end VpnPi
