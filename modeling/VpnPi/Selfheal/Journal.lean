import VpnPi.Island.Sysinfo
import VpnPi.Selfheal.Feed

/-!
# `Selfheal.Journal` — from the daemon's log to the roster of `readDaemon`

The daemon writes JSON lines, journald wraps each into a JSON entry, and `readDaemon` replays the entries.
`Journal` is what lies between: some rendering of a log line in which `JSON.parse` finds the line again. A
`Sighting` is what a snapshot or transition line says, with the key of the peer it is about;
`readDaemon_run` shows that the roster gives for every label the state of its last sighting.
-/

namespace VpnPi
namespace Selfheal

open Js Async Island

/-! ## `internal/wg/read.go` -/

/-- A public key as text: the base64 form of 32 bytes. -/
structure WgKey where
  text   : JsString
  length : text.length = 44

/-- An address as text: hexadecimal digits, dots and colons. -/
structure IPText where
  text  : JsString
  ascii : IsAscii text

structure IPNet where
  ip   : IPText
  /-- The mask covers the whole address. -/
  host : Bool

structure WgPeer where
  publicKey     : WgKey
  allowedIPs    : List IPNet
  lastHandshake : Time
  endpoint      : Option JsString

def firstAllowedIP (nets : List IPNet) : JsString :=
  match nets.find? IPNet.host with
  | some n => n.ip.text
  | none =>
      match nets with
      | [] => []
      | n :: _ => n.ip.text

def mapPeers (peers : List WgPeer) : List PeerState :=
  peers.map fun p => ⟨p.publicKey.text, [], firstAllowedIP p.allowedIPs, p.lastHandshake, p.endpoint.getD []⟩

/-- The tick read what `Read` returns for peers with distinct keys and distinct, non-empty tunnel addresses. -/
structure Tick.Kernel (t : Tick) : Prop where
  mapped   : ∀ peers, t.read = .ok peers → ∃ ps, peers = mapPeers ps
  keys     : t.Distinct
  addrs    : ∀ peers, t.read = .ok peers → (peers.map PeerState.tunnelIP).Nodup
  nonempty : ∀ peers, t.read = .ok peers → ∀ p ∈ peers, p.tunnelIP ≠ []

theorem firstAllowedIP_ascii (nets : List IPNet) : IsAscii (firstAllowedIP nets) := by
  unfold firstAllowedIP
  split
  · next n _ => exact n.ip.ascii
  · split
    · exact .nil
    · next n _ _ => exact n.ip.ascii

/-- A peer the kernel reports: no name, a key of 44 characters, an ASCII address. -/
theorem mem_mapPeers {ps : List WgPeer} {p : PeerState} (h : p ∈ mapPeers ps) :
    p.name = [] ∧ p.publicKey.length = 44 ∧ IsAscii p.tunnelIP := by
  obtain ⟨q, _, rfl⟩ := List.mem_map.mp h
  exact ⟨rfl, q.publicKey.length, firstAllowedIP_ascii _⟩

theorem peerLabel_address {p : PeerState} (hname : p.name = []) (haddr : p.tunnelIP ≠ []) :
    peerLabel p.name p.tunnelIP p.publicKey = p.tunnelIP := by
  unfold peerLabel
  rw [if_neg (not_not.mpr hname), if_pos haddr]

/-- A `gone` line goes by the short key, which is no address. -/
theorem shortKey_not_ascii {k : JsString} (h : k.length = 44) : ¬IsAscii (peerLabel [] [] k) := by
  have hlabel : peerLabel [] [] k = k.take 8 ++ [0x2026] := by
    show shortKey k = _
    rw [shortKey, if_pos (by omega)]
  intro hascii
  have := hascii 0x2026 (by rw [hlabel]; simp)
  exact absurd this (by decide)

/-! ## Sightings -/

structure Sighting where
  key   : JsString
  label : JsString
  state : State

def Output.sighting : Output → Option Sighting
  | snapshot _ p status => some ⟨p.publicKey, peerLabel p.name p.tunnelIP p.publicKey, status⟩
  | transition _ e => some ⟨e.peer, peerLabel e.name e.tunnelIP e.peer, e.to_⟩
  | log _ | reassert .. => none

def sightingsOf (out : List Output) : List Sighting := out.filterMap Output.sighting

/-- The last sighting under a label. -/
def lastSighting (tr : List Tick) (label : JsString) : Option Sighting :=
  ((tr.flatMap fun t => sightingsOf t.out).filter fun s => s.label = label).getLast?

/-! ## The journal -/

/-- What a JSON object says of a log line: its message and its attributes. -/
def Carries (evt : Value) (l : LogLine) : Prop :=
  evt.prop (js "msg") = some (.str l.msg) ∧
    ∀ k, k ∉ [js "time", js "level", js "msg"] →
      evt.prop k = some (((l.attrs.lookup k).map Value.str).getD .undefined)

/-- How a log line appears in the output of `journalctl -o json`. -/
structure Journal (E : Engine) where
  entry    : LogLine → JsString
  one_line : ∀ l, 0x0a ∉ entry l
  nonblank : ∀ l, trim (entry l) ≠ []
  message  : ∀ l, l.Keyed → ∃ evt, journalMessage E (entry l) = some evt ∧ Carries evt l

/-- The lines of a run. -/
def linesOf (tr : List Tick) : List LogLine := tr.flatMap fun t => t.out.filterMap Output.line

variable {E : Engine}

/-- The whole journal of a run, as `journalctl` prints it. -/
def Journal.text (J : Journal E) (tr : List Tick) : JsString :=
  (linesOf tr).flatMap fun l => J.entry l ++ [0x0a]

/-- The state a line carries, under the label of its peer. -/
def lineState (l : LogLine) : Option JsString :=
  if l.msg = js "state change" then l.attrs.lookup (js "to")
  else if l.msg = js "peer" then l.attrs.lookup (js "status")
  else none

/-- What `readDaemon` takes from a line. -/
def lineEntry (l : LogLine) : Option DaemonPeer :=
  match l.attrs.lookup (js "peer"), lineState l with
  | some peer, some state =>
      if peer = [] ∨ state = [] then none
      else some ⟨.str peer, state, (l.attrs.lookup (js "endpoint")).getD [],
        (l.attrs.lookup (js "handshake_age")).filter (· ≠ [])⟩
  | _, _ => none

theorem evtState_carries {evt : Value} {l : LogLine} (h : Carries evt l) :
    evtState evt = .ok (((lineState l).map Value.str).getD .undefined) := by
  unfold evtState lineState
  rw [prop_ok.mpr h.1]
  show (if Value.str l.msg = .str (js "state change") then _ else _) = _
  by_cases hchange : l.msg = js "state change"
  · rw [if_pos (congrArg _ hchange), if_pos hchange, prop_ok.mpr (h.2 (js "to") (by decide))]
  · rw [if_neg fun hh => hchange (Value.str.inj hh), if_neg hchange]
    by_cases hpeer : l.msg = js "peer"
    · rw [if_pos (congrArg _ hpeer), if_pos hpeer, prop_ok.mpr (h.2 (js "status") (by decide))]
    · rw [if_neg fun hh => hpeer (Value.str.inj hh), if_neg hpeer]
      rfl

/-- `String(evt.endpoint ?? "")`, of an attribute. -/
theorem stringOrEmpty_attr (o : Option JsString) :
    stringOrEmpty ((o.map Value.str).getD .undefined) = .ok (o.getD []) := by
  cases o with
  | none => rfl
  | some s => rfl

/-- `evt.handshake_age ? String(evt.handshake_age) : undefined`, of an attribute. -/
theorem handshakeAgeOf_attr (o : Option JsString) :
    handshakeAgeOf ((o.map Value.str).getD .undefined) = .ok (o.filter (· ≠ [])) := by
  cases o with
  | none => rfl
  | some s =>
      cases s with
      | nil => rfl
      | cons c cs => rfl

theorem replayMessage_carries {evt : Value} {l : LogLine} (h : Carries evt l) (latest : List DaemonPeer) :
    replayMessage latest evt
      = .ok (match lineEntry l with
        | some d => setLatest d latest
        | none => latest) := by
  have hendpoint : (prop evt (js "endpoint") >>= stringOrEmpty)
      = .ok ((l.attrs.lookup (js "endpoint")).getD []) := by
    rw [prop_ok.mpr (h.2 (js "endpoint") (by decide))]
    exact stringOrEmpty_attr _
  have hage : (prop evt (js "handshake_age") >>= handshakeAgeOf)
      = .ok ((l.attrs.lookup (js "handshake_age")).filter (· ≠ [])) := by
    rw [prop_ok.mpr (h.2 (js "handshake_age") (by decide))]
    exact handshakeAgeOf_attr _
  unfold replayMessage lineEntry
  rw [prop_ok.mpr (h.2 (js "peer") (by decide)), evtState_carries h, hendpoint, hage]
  cases l.attrs.lookup (js "peer") with
  | none => rfl
  | some peer =>
      show (if (Value.str peer).truthy then _ else _) = _
      by_cases hp : peer = []
      · rw [hp]
        cases lineState l with
        | none => rfl
        | some state => rfl
      · have htrue : (Value.str peer).truthy = true := decide_eq_true hp
        rw [if_pos htrue]
        cases lineState l with
        | none => rfl
        | some state =>
            show (if (Value.str state).truthy then _ else _) = _
            by_cases hs : state = []
            · rw [hs]
              simp only [or_true, if_true]
              rfl
            · have htrue : (Value.str state).truthy = true := decide_eq_true hs
              rw [if_pos htrue]
              simp only [hp, hs, or_self, if_false]
              rfl

/-! ## What a line says -/

theorem state_text_ne (s : State) : s.text ≠ [] := by
  cases s <;> decide

/-- The entry of a snapshot or transition line is the sighting. -/
theorem lineEntry_sighting {o : Output} {s : Sighting} (h : o.sighting = some s) :
    ∃ l, o.line = some l ∧ l.Keyed ∧
      (s.label = [] ∧ lineEntry l = none ∨
        s.label ≠ [] ∧ ∃ d, lineEntry l = some d ∧ d.peer = .str s.label ∧ d.state = s.state.text) := by
  cases o with
  | log line => cases h
  | reassert peer ep => cases h
  | snapshot now p status =>
      obtain rfl := Option.some.inj h
      refine ⟨_, rfl, ?_, ?_⟩
      · show [js "time", js "level", js "msg", js "peer", js "pubkey", js "endpoint", js "handshake_age",
          js "status"].Nodup
        decide
      · show _ = [] ∧ (if _ = [] ∨ status.text = [] then _ else _) = _ ∨ _
        by_cases hl : peerLabel p.name p.tunnelIP p.publicKey = []
        · exact Or.inl ⟨hl, if_pos (Or.inl hl)⟩
        · exact Or.inr ⟨hl, _, if_neg (not_or.mpr ⟨hl, state_text_ne status⟩), rfl, rfl⟩
  | transition now e =>
      obtain rfl := Option.some.inj h
      refine ⟨_, rfl, ?_, ?_⟩
      · show [js "time", js "level", js "msg", js "event", js "peer", js "pubkey", js "from", js "to",
          js "handshake_age", js "endpoint"].Nodup
        decide
      · show _ = [] ∧ (if _ = [] ∨ e.to_.text = [] then _ else _) = _ ∨ _
        by_cases hl : peerLabel e.name e.tunnelIP e.peer = []
        · exact Or.inl ⟨hl, if_pos (Or.inl hl)⟩
        · exact Or.inr ⟨hl, _, if_neg (not_or.mpr ⟨hl, state_text_ne e.to_⟩), rfl, rfl⟩

theorem lineEntry_other {l : LogLine} (h1 : l.msg ≠ js "peer") (h2 : l.msg ≠ js "state change") :
    lineEntry l = none := by
  unfold lineEntry lineState
  rw [if_neg h2, if_neg h1]
  split
  · next h => cases h
  · rfl

theorem other_line {o : Output} {l : LogLine} (h : o.IsOther) (hl : o.line = some l) :
    l.Keyed ∧ lineEntry l = none := by
  cases o with
  | log line =>
      obtain rfl := Option.some.inj hl
      exact ⟨h.2.2, lineEntry_other h.1 h.2.1⟩
  | reassert peer ep => cases hl
  | snapshot now p status => exact h.elim
  | transition now e => exact h.elim

/-- Every output of a tick is a sighting or says nothing of a peer's state. -/
theorem Step.kinds {f : Flags} {st st' : LoopState} {t : Tick} (h : Step f st t st') :
    ∀ o ∈ t.out, o.IsOther ∨ ∃ s, o.sighting = some s := by
  intro o ho
  rcases h.failed_or_read with ⟨_, _, _, _, hother⟩ | ⟨peers, _, ha⟩
  · exact Or.inl (hother o ho)
  · obtain ⟨other, hother, hout⟩ := ha.out
    rw [hout, List.mem_append, List.mem_append] at ho
    rcases ho with (ho | ho) | ho
    · refine Or.inr ?_
      split at ho
      · obtain ⟨p, _, rfl⟩ := List.mem_map.mp ho
        exact ⟨_, rfl⟩
      · cases ho
    · obtain ⟨e, _, rfl⟩ := List.mem_map.mp ho
      exact Or.inr ⟨_, rfl⟩
    · exact Or.inl (hother o ho)

/-! ## The replay of a run -/

/-- The roster after a line. -/
def replayed (latest : List DaemonPeer) (l : LogLine) : List DaemonPeer :=
  match lineEntry l with
  | some d => setLatest d latest
  | none => latest

theorem replayLine_entry (J : Journal E) {l : LogLine} (h : l.Keyed) (latest : List DaemonPeer) :
    replayLine E latest (J.entry l) = .ok (replayed latest l) := by
  obtain ⟨evt, hevt, hcarries⟩ := J.message l h
  unfold replayLine
  rw [if_neg (J.nonblank l), hevt]
  exact replayMessage_carries hcarries latest

theorem replayLine_entries (J : Journal E) {ls : List LogLine} (h : ∀ l ∈ ls, l.Keyed) (latest : List DaemonPeer) :
    (ls.map J.entry ++ [[]]).foldlM (replayLine E) latest = .ok (ls.foldl replayed latest) := by
  induction ls generalizing latest with
  | nil => rfl
  | cons l ls ih =>
      rw [List.map_cons, List.cons_append, List.foldlM_cons, replayLine_entry J (h l (List.mem_cons_self ..))]
      exact ih (fun l hl => h l (List.mem_cons_of_mem _ hl)) _

/-- The roster after some outputs: the last sighting under a label, or what was there. -/
theorem rosterState_outputs {out : List Output} (h : ∀ o ∈ out, o.IsOther ∨ ∃ s, o.sighting = some s)
    {label : JsString} (hlabel : label ≠ []) (latest : List DaemonPeer) :
    rosterState ((out.filterMap Output.line).foldl replayed latest) label
      = (((sightingsOf out).filter fun s => s.label = label).getLast?.map fun s => s.state.text).or
          (rosterState latest label) := by
  -- the roster varies: each line has replaced the entry of its label
  induction out generalizing latest with
  | nil => rfl
  | cons o out ih =>
      have ih := ih fun o ho => h o (List.mem_cons_of_mem _ ho)
      unfold sightingsOf at ih ⊢
      rcases h o (List.mem_cons_self ..) with hother | ⟨s, hs⟩
      · have hnone : o.sighting = none := by
          cases o with
          | log line => rfl
          | reassert peer ep => rfl
          | snapshot now p status => exact hother.elim
          | transition now e => exact hother.elim
        rw [List.filterMap_cons_none hnone]
        cases hline : o.line with
        | none => rw [List.filterMap_cons_none hline, ih]
        | some l =>
            have hsame : replayed latest l = latest := by rw [replayed, (other_line hother hline).2]
            rw [List.filterMap_cons_some hline, List.foldl_cons, hsame, ih]
      · obtain ⟨l, hline, _, hentry⟩ := lineEntry_sighting hs
        rw [List.filterMap_cons_some hs, List.filterMap_cons_some hline, List.foldl_cons, ih]
        rcases hentry with ⟨hnil, hnone⟩ | ⟨_, d, hd, hpeer, hstate⟩
        · have hne : ¬decide (s.label = label) = true := by
            rw [hnil, decide_eq_true_eq]
            exact Ne.symm hlabel
          rw [List.filter_cons, if_neg hne, replayed, hnone]
        · rw [replayed, hd, rosterState_setLatest d s.label hpeer]
          by_cases hsame : label = s.label
          · rw [if_pos hsame, List.filter_cons, if_pos (decide_eq_true hsame.symm), List.getLast?_cons, hstate]
            cases ((out.filterMap Output.sighting).filter fun s => s.label = label).getLast? with
            | none => rfl
            | some s' => rfl
          · have hne : ¬decide (s.label = label) = true := fun h => hsame (of_decide_eq_true h).symm
            rw [if_neg hsame, List.filter_cons, if_neg hne]

theorem sightings_of_run {f : Flags} {st₀ st : LoopState} {tr : List Tick} (run : Run (Step f) st₀ tr st) :
    ∀ o ∈ tr.flatMap Tick.out, o.IsOther ∨ ∃ s, o.sighting = some s := by
  intro o ho
  obtain ⟨t, ht, hout⟩ := List.mem_flatMap.mp ho
  obtain ⟨pre, post, rfl⟩ := List.append_of_mem ht
  obtain ⟨_, _, _, hstep⟩ := run.split
  exact hstep.kinds o hout

/-- **The roster of a run**: every label has the state of its last sighting. -/
theorem readDaemon_run (J : Journal E) {f : Flags} {st : LoopState} {tr : List Tick}
    (run : Run (Step f) .empty tr st) :
    ∃ roster, readDaemon E (J.text tr) = .ok roster ∧
      ∀ label, label ≠ [] → rosterState roster label = (lastSighting tr label).map fun s => s.state.text := by
  have hkinds := sightings_of_run run
  have hlines : linesOf tr = (tr.flatMap Tick.out).filterMap Output.line := List.filterMap_flatMap.symm
  have hsightings : (tr.flatMap fun t => sightingsOf t.out) = sightingsOf (tr.flatMap Tick.out) :=
    List.filterMap_flatMap.symm
  have hkeyed : ∀ l ∈ linesOf tr, l.Keyed := by
    intro l hl
    rw [hlines] at hl
    obtain ⟨o, ho, hline⟩ := List.mem_filterMap.mp hl
    rcases hkinds o ho with hother | ⟨s, hs⟩
    · exact (other_line hother hline).1
    · obtain ⟨l', hline', hk, _⟩ := lineEntry_sighting hs
      obtain rfl := Option.some.inj (hline'.symm.trans hline)
      exact hk
  refine ⟨(linesOf tr).foldl replayed [], ?_, fun label hlabel => ?_⟩
  · have htext : J.text tr = ((linesOf tr).map J.entry).flatMap fun e => e ++ [0x0a] := by
      rw [List.flatMap_map]
      rfl
    unfold readDaemon
    rw [htext, splitLines_flatMap, replayLine_entries J hkeyed]
    intro e he
    obtain ⟨l, _, rfl⟩ := List.mem_map.mp he
    exact J.one_line l
  · rw [hlines, rosterState_outputs hkinds hlabel, lastSighting, hsightings]
    exact Option.or_none

/-! ## `slog` and `journalctl` -/

def stringFields (es : List (JsString × JsString)) : Value := .obj (es.map fun e => (e.1, .str e.2))

def slogFields (l : LogLine) : Value :=
  stringFields ((js "time", js "2026-07-01T12:00:00Z") :: (js "level", l.level) :: (js "msg", l.msg) :: l.attrs)

/-- What the JSON handler of `slog` prints of a line, without its newline. -/
def slogLine (l : LogLine) : JsString := stringify (slogFields l)

/-- What `journalctl` prints of it. -/
def journalEntry (l : LogLine) : JsString := stringify (stringFields [(js "MESSAGE", slogLine l)])

theorem stringFields_wf {es : List (JsString × JsString)} (h : (es.map Prod.fst).Nodup) :
    (stringFields es).WF E := by
  refine ⟨?_, wfFields_iff.mpr ?_⟩
  · rw [List.map_map]
    exact h
  · intro e he
    obtain ⟨x, _, rfl⟩ := List.mem_map.mp he
    trivial

theorem stringFields_plain (es : List (JsString × JsString)) : Plain (stringFields es) := by
  show PlainFields (es.map fun e => (e.1, Value.str e.2))
  induction es with
  | nil => trivial
  | cons e es ih => exact ⟨trivial, ih⟩

theorem parse_stringFields {es : List (JsString × JsString)} (h : (es.map Prod.fst).Nodup) :
    parse E (stringify (stringFields es)) = some (stringFields es) := by
  rw [parse_stringify (stringFields_wf h), jsonView_of_plain _ (stringFields_plain es)]

theorem prop_stringFields (es : List (JsString × JsString)) (k : JsString) :
    (stringFields es).prop k = some (((es.lookup k).map Value.str).getD .undefined) := by
  show some (((es.map fun e => (e.1, Value.str e.2)).lookup k).getD .undefined) = _
  induction es with
  | nil => rfl
  | cons e es ih =>
      rw [List.map_cons, List.lookup_cons, List.lookup_cons]
      cases k == e.1 with
      | true => rfl
      | false => exact ih

theorem trim_brace (s : JsString) : trim (0x7b :: s) ≠ [] := by
  intro h
  have hstart : trimStart (0x7b :: s) = 0x7b :: s := rfl
  rw [trim, hstart, trimEnd, List.reverse_eq_nil_iff, List.dropWhile_eq_nil_iff] at h
  exact absurd (h 0x7b (by simp)) (by decide)

theorem trim_journalEntry (l : LogLine) : trim (journalEntry l) ≠ [] := by
  unfold journalEntry stringFields stringify
  rw [jsonView, render]
  exact trim_brace _

theorem journalMessage_entry {l : LogLine} (h : l.Keyed) :
    journalMessage E (journalEntry l) = some (slogFields l) := by
  have hone : ([(js "MESSAGE", slogLine l)].map Prod.fst).Nodup := List.nodup_singleton _
  have hmessage : (stringFields [(js "MESSAGE", slogLine l)]).prop (js "MESSAGE") = some (.str (slogLine l)) := by
    rw [prop_stringFields, List.lookup_cons, beq_self_eq_true]
    rfl
  have hline : parse E (slogLine l) = some (slogFields l) := parse_stringFields h
  have hnullish : ¬(Value.str (slogLine l)).isNullish = true := Bool.false_ne_true
  unfold journalMessage journalEntry
  rw [parse_stringFields hone, Option.bind_eq_bind, Option.bind_some, hmessage, Option.bind_eq_bind,
    Option.bind_some, if_neg hnullish, Value.toStr, Option.bind_some, hline]

theorem slogFields_carries (l : LogLine) : Carries (slogFields l) l := by
  unfold slogFields
  refine ⟨?_, fun k hk => ?_⟩
  · rw [prop_stringFields, List.lookup_cons, beq_eq_false_iff_ne.mpr (show js "msg" ≠ js "time" by decide),
      List.lookup_cons, beq_eq_false_iff_ne.mpr (show js "msg" ≠ js "level" by decide), List.lookup_cons,
      beq_self_eq_true]
    rfl
  · simp only [List.mem_cons, List.not_mem_nil, or_false, not_or] at hk
    rw [prop_stringFields, List.lookup_cons, beq_eq_false_iff_ne.mpr hk.1, List.lookup_cons,
      beq_eq_false_iff_ne.mpr hk.2.1, List.lookup_cons, beq_eq_false_iff_ne.mpr hk.2.2]

theorem journalEntry_one_line (E : Engine) (l : LogLine) : 0x0a ∉ journalEntry l := by
  have hone : ([(js "MESSAGE", slogLine l)].map Prod.fst).Nodup := List.nodup_singleton _
  have hprint := stringify_printable (stringFields_wf (E := E) hone)
  intro h
  exact hprint 0x0a h (by decide)

/-- Two JSON texts, one inside the other. -/
def jsonJournal (E : Engine) : Journal E where
  entry    := journalEntry
  one_line := journalEntry_one_line E
  nonblank := trim_journalEntry
  message  := fun l h => ⟨slogFields l, journalMessage_entry h, slogFields_carries l⟩

end Selfheal
end VpnPi
