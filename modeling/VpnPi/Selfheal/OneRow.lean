import VpnPi.Island.LinkRoster
import VpnPi.Js.Trim
import VpnPi.Selfheal.Roster

/-!
# `Selfheal.OneRow` — one peer, one row

The kernel's peers reach a report twice: `wg show` prints them for `readWg`, and the daemon logs them for
`readDaemon`. The first goes by the first entry of the AllowedIPs, the second by the first host route, or by the
key of a peer that has no entry.

`one_row_iff`: a report has one row for each peer exactly if the address the daemon picks for it is the first in
the list of a peer; of disjoint lists that is its own (`covered_iff_first`).
-/

namespace VpnPi
namespace Selfheal

open Js Island

/-! ## The kernel's peers -/

/-- Hexadecimal digits, dots and colons. -/
def isAddressUnit (u : UInt16) : Bool := isDigit u || (0x61 ≤ u && u ≤ 0x66) || u = 0x2e || u = 0x3a

structure AddressText where
  text     : JsString
  units    : ∀ u ∈ text, isAddressUnit u = true
  nonempty : text ≠ []

/-- An address as `net.IP.String` and as `inet_ntop` print it: some IPv6 addresses differ. -/
structure TunnelAddress where
  net : AddressText
  wg  : AddressText

/-- An entry of the AllowedIPs: the first `ones` of `bits` bits are the prefix. -/
structure AllowedIP where
  ip   : TunnelAddress
  ones : Nat
  bits : Nat

/-- A field of a line of the dump. -/
structure DumpField where
  text    : JsString
  no_tab  : 0x09 ∉ text
  no_line : 0x0a ∉ text

structure KernelPeer where
  publicKey    : WgKey
  key_plain    : ∀ u ∈ publicKey.text, isSpace u = false
  presharedKey : DumpField
  endpoint     : Option DumpField
  allowedIPs   : List AllowedIP
  /-- `last_handshake_time`, a `timespec`. -/
  handshakeS   : Nat
  handshakeNs  : Nat
  seconds_lt   : handshakeS < 2 ^ 63
  rxBytes      : Nat
  txBytes      : Nat
  keepalive    : DumpField

/-! ## What `wgctrl` reads -/

/-- Seconds from the zero time to the epoch. -/
def unixEpoch : Int := 62135596800

/-- The zero time of a peer that never handshaked. -/
def timeFromSpec (s ns : Nat) : Time :=
  if s = 0 ∧ ns = 0 then .zero else ⟨(unixEpoch + s) * 1000000000 + ns, none⟩

theorem isAddressUnit_ascii {u : UInt16} (h : isAddressUnit u = true) : u.toNat < 0x7f := by
  unfold isAddressUnit isDigit at h
  simp only [Bool.or_eq_true, Bool.and_eq_true, decide_eq_true_eq, UInt16.le_iff_toNat_le] at h
  rcases h with ((⟨_, h⟩ | ⟨_, h⟩) | rfl) | rfl
  · exact lt_of_le_of_lt h (by decide)
  · exact lt_of_le_of_lt h (by decide)
  · decide
  · decide

theorem AddressText.ascii (a : AddressText) : IsAscii a.text := fun u hu => isAddressUnit_ascii (a.units u hu)

def AllowedIP.net (n : AllowedIP) : IPNet := ⟨⟨n.ip.net.text, n.ip.net.ascii⟩, n.ones = n.bits⟩

def KernelPeer.read (p : KernelPeer) : WgPeer where
  publicKey     := p.publicKey
  allowedIPs    := p.allowedIPs.map AllowedIP.net
  lastHandshake := timeFromSpec p.handshakeS p.handshakeNs
  endpoint      := p.endpoint.map DumpField.text

/-- The tunnel address the daemon goes by. -/
def KernelPeer.tunnelIP (p : KernelPeer) : JsString := firstAllowedIP (p.allowedIPs.map AllowedIP.net)

def KernelPeer.daemonLabel (p : KernelPeer) : JsString := peerLabel [] p.tunnelIP p.publicKey.text

/-- The snapshot lines of some cycles. -/
def snapshotLines (cfg : Config) (peers : List KernelPeer) (cycles : List Time) : List LogLine :=
  cycles.flatMap fun now => (observe now (mapPeers (peers.map KernelPeer.read)) cfg).filterMap Output.line

/-! ## What `wg show <iface> dump` prints -/

def AllowedIP.text (n : AllowedIP) : JsString := n.ip.wg.text ++ 0x2f :: natText n.ones

def allowedText : List AllowedIP → JsString
  | [] => js "(none)"
  | n :: ns => joinOn 0x2c ((n :: ns).map AllowedIP.text)

def KernelPeer.fields (p : KernelPeer) : List JsString :=
  [p.publicKey.text, p.presharedKey.text, (p.endpoint.map DumpField.text).getD (js "(none)"),
    allowedText p.allowedIPs, natText p.handshakeS, natText p.rxBytes, natText p.txBytes, p.keepalive.text]

/-- The line of the interface comes first. -/
structure InterfaceLine where
  text     : JsString
  no_line  : 0x0a ∉ text
  nonblank : trim text ≠ []

def wgDump (line : InterfaceLine) (peers : List KernelPeer) : JsString :=
  (line.text :: peers.map fun p => joinOn 0x09 p.fields).flatMap fun l => l ++ [0x0a]

/-- What comes first in the fourth field, without a prefix length. -/
def KernelPeer.wg0 (p : KernelPeer) : JsString :=
  match p.allowedIPs with
  | [] => js "(none)"
  | n :: _ => n.ip.wg.text

/-! ## Reading the dump -/

theorem digits_no {s : JsString} (h : ∀ u ∈ s, isDigit u = true) {sep : UInt16} (hsep : isDigit sep = false) :
    sep ∉ s := fun hm => by
  rw [h _ hm] at hsep
  cases hsep

theorem AddressText.no (a : AddressText) {sep : UInt16} (hsep : isAddressUnit sep = false) : sep ∉ a.text :=
  fun hm => by
    rw [a.units _ hm] at hsep
    cases hsep

/-- No separator but the slash in an entry. -/
theorem AllowedIP.text_no (n : AllowedIP) {sep : UInt16} (haddr : isAddressUnit sep = false) (hslash : sep ≠ 0x2f) :
    sep ∉ n.text := by
  have hdigit : isDigit sep = false := by
    cases h : isDigit sep with
    | false => rfl
    | true =>
        unfold isAddressUnit at haddr
        rw [h] at haddr
        cases haddr
  intro hm
  rcases List.mem_append.mp hm with hm | hm
  · exact n.ip.wg.no haddr hm
  · rcases List.mem_cons.mp hm with hm | hm
    · exact hslash hm
    · exact digits_no (natText_digits n.ones) hdigit hm

theorem allowedText_no (ns : List AllowedIP) {sep : UInt16} (haddr : isAddressUnit sep = false)
    (hslash : sep ≠ 0x2f) (hcomma : sep ≠ 0x2c) (hnone : sep ∉ js "(none)") : sep ∉ allowedText ns := by
  cases ns with
  | nil => exact hnone
  | cons n ns =>
      intro hm
      rcases mem_joinOn hm with hm | ⟨t, ht, hm⟩
      · exact hcomma hm
      · obtain ⟨m, _, rfl⟩ := List.mem_map.mp ht
        exact m.text_no haddr hslash hm

theorem firstPart_allowedText (p : KernelPeer) : firstPart 0x2f (firstPart 0x2c (allowedText p.allowedIPs)) = p.wg0 := by
  unfold KernelPeer.wg0
  cases p.allowedIPs with
  | nil => rfl
  | cons n ns =>
      have hsplit : splitOn 0x2c (joinOn 0x2c ((n :: ns).map AllowedIP.text)) = (n :: ns).map AllowedIP.text := by
        refine splitOn_joinOn (List.cons_ne_nil _ _) fun t ht => ?_
        obtain ⟨m, _, rfl⟩ := List.mem_map.mp ht
        exact m.text_no (by decide) (by decide)
      have hfirst : firstPart 0x2c (allowedText (n :: ns)) = n.text := by
        show (splitOn 0x2c (joinOn 0x2c ((n :: ns).map AllowedIP.text))).head?.getD [] = _
        rw [hsplit]
        rfl
      rw [hfirst]
      exact firstPart_append (n.ip.wg.no (by decide)) _

theorem KernelPeer.fields_no (p : KernelPeer) {sep : UInt16} (hspace : isSpace sep = true)
    (hdigit : isDigit sep = false) (hallowed : sep ∉ allowedText p.allowedIPs)
    (hfield : ∀ f : DumpField, sep ∉ f.text) (hnone : sep ∉ js "(none)") : ∀ f ∈ p.fields, sep ∉ f := by
  have hkey : sep ∉ p.publicKey.text := fun hm => by
    rw [p.key_plain _ hm] at hspace
    cases hspace
  have hendpoint : sep ∉ (p.endpoint.map DumpField.text).getD (js "(none)") := by
    cases p.endpoint with
    | none => exact hnone
    | some f => exact hfield f
  have hnat : ∀ n : Nat, sep ∉ natText n := fun n => digits_no (natText_digits n) hdigit
  unfold KernelPeer.fields
  simp only [List.forall_mem_cons]
  exact ⟨hkey, hfield _, hendpoint, hallowed, hnat _, hnat _, hnat _, hfield _, fun _ h => absurd h List.not_mem_nil⟩

theorem KernelPeer.line_no_line (p : KernelPeer) : 0x0a ∉ joinOn 0x09 p.fields := by
  intro hm
  rcases mem_joinOn hm with hm | ⟨f, hf, hm⟩
  · exact absurd hm (by decide)
  · have hallowed : 0x0a ∉ allowedText p.allowedIPs :=
      allowedText_no _ (by decide) (by decide) (by decide) (by decide)
    exact p.fields_no (by decide) (by decide) hallowed DumpField.no_line (by decide) f hf hm

theorem KernelPeer.line_nonblank (p : KernelPeer) : trim (joinOn 0x09 p.fields) ≠ [] := by
  have hne : p.publicKey.text ≠ [] := fun hnil => absurd p.publicKey.length (by rw [hnil]; decide)
  obtain ⟨u, hu⟩ := List.exists_mem_of_ne_nil _ hne
  exact trim_ne_nil (List.mem_append_left _ hu) (p.key_plain u hu)

variable (N : Numerals)

theorem readPeer_line (nowS : Int) (p : KernelPeer) :
    ∃ l, readPeer N nowS (joinOn 0x09 p.fields) = some l ∧ l.wg0 = p.wg0 := by
  have hallowed : 0x09 ∉ allowedText p.allowedIPs := allowedText_no _ (by decide) (by decide) (by decide) (by decide)
  have hfields := splitOn_joinOn (show p.fields ≠ [] from List.cons_ne_nil _ _)
    (p.fields_no (by decide) (by decide) hallowed DumpField.no_tab (by decide))
  have hnumber := N.ofText_nat p.handshakeS (lt_trans p.seconds_lt (by norm_num))
  unfold readPeer
  simp only [hfields]
  show ∃ l, (N.ofText (natText p.handshakeS)).map _ = some l ∧ _
  rw [hnumber]
  exact ⟨_, rfl, firstPart_allowedText p⟩

theorem filterMap_readPeer (nowS : Int) (peers : List KernelPeer) :
    ((peers.map fun p => joinOn 0x09 p.fields).filterMap (readPeer N nowS)).map LivePeer.wg0
      = peers.map KernelPeer.wg0 := by
  induction peers with
  | nil => rfl
  | cons p peers ih =>
      obtain ⟨l, hl, hwg0⟩ := readPeer_line N nowS p
      rw [List.map_cons, List.filterMap_cons_some hl, List.map_cons, List.map_cons, ih, hwg0]

/-- **The dump is read peer by peer.** -/
theorem readWg_dump (iface : JsString) (line : InterfaceLine) (peers : List KernelPeer) (now : Instant) :
    (readWg N iface (some (wgDump line peers)) now).peers.map LivePeer.wg0 = peers.map KernelPeer.wg0 := by
  have hlines : splitLines (wgDump line peers) = (line.text :: peers.map fun p => joinOn 0x09 p.fields) ++ [[]] := by
    refine splitLines_flatMap (List.forall_mem_cons.mpr ⟨line.no_line, fun l hl => ?_⟩)
    obtain ⟨p, _, rfl⟩ := List.mem_map.mp hl
    exact p.line_no_line
  have hkept : (peers.map fun p => joinOn 0x09 p.fields).filter (fun l => trim l ≠ [])
      = peers.map fun p => joinOn 0x09 p.fields := by
    refine List.filter_eq_self.mpr fun l hl => decide_eq_true ?_
    obtain ⟨p, _, rfl⟩ := List.mem_map.mp hl
    exact p.line_nonblank
  have hrest : ((splitLines (wgDump line peers)).filter fun l => trim l ≠ [])
      = line.text :: peers.map fun p => joinOn 0x09 p.fields := by
    rw [hlines, List.filter_append, List.filter_cons, if_pos (decide_eq_true line.nonblank), hkept]
    exact List.append_nil _
  show ((((splitLines (wgDump line peers)).filter fun l => trim l ≠ []).drop 1).filterMap _).map _ = _
  rw [hrest]
  exact filterMap_readPeer N _ peers

/-! ## Reading the journal -/

/-- The roster of some lines that all say something of a peer. -/
theorem replayed_rows {ls : List LogLine} {label : LogLine → JsString}
    (h : ∀ l ∈ ls, ∃ d : DaemonRow, lineEntry l = some d.entry ∧ d.peer = label l ∧ d.state ≠ [])
    (rows : List DaemonRow) (hrows : ∀ r ∈ rows, r.state ≠ []) :
    ∃ rows' : List DaemonRow, ls.foldl replayed (rows.map DaemonRow.entry) = rows'.map DaemonRow.entry ∧
      (∀ r ∈ rows', r.state ≠ []) ∧
      ∀ k, k ∈ rows'.map DaemonRow.peer ↔ k ∈ rows.map DaemonRow.peer ∨ k ∈ ls.map label := by
  induction ls generalizing rows with
  | nil => exact ⟨rows, rfl, hrows, fun k => by simp⟩
  | cons l ls ih =>
      obtain ⟨d, hd, hlabel, hstate⟩ := h l (List.mem_cons_self ..)
      obtain ⟨rows₁, hset, hmem, hkeys⟩ := setLatest_entry d rows
      have hrows₁ : ∀ r ∈ rows₁, r.state ≠ [] := fun r hr => (hmem r hr).elim (fun he => he ▸ hstate) (hrows r)
      obtain ⟨rows', hfold, hrows', hkeys'⟩ := ih (fun l hl => h l (List.mem_cons_of_mem _ hl)) rows₁ hrows₁
      refine ⟨rows', ?_, hrows', fun k => ?_⟩
      · rw [List.foldl_cons, replayed, hd, ← hfold, ← hset]
      · rw [hkeys', hkeys, hlabel, List.map_cons, List.mem_cons, or_assoc, or_left_comm]

theorem KernelPeer.daemonLabel_ne (p : KernelPeer) : p.daemonLabel ≠ [] := by
  unfold KernelPeer.daemonLabel peerLabel shortKey
  rw [if_neg (not_not.mpr rfl)]
  split
  · next h => exact h
  · rw [if_pos (by rw [p.publicKey.length]; decide)]
    exact List.append_ne_nil_of_right_ne_nil _ (List.cons_ne_nil _ _)

/-- What the daemon logs of a peer, and the label of a line. -/
def lineLabel (l : LogLine) : JsString := (l.attrs.lookup (js "peer")).getD []

theorem snapshotLines_entry {cfg : Config} {peers : List KernelPeer} {cycles : List Time} {l : LogLine}
    (h : l ∈ snapshotLines cfg peers cycles) : l.Keyed ∧ (∃ p ∈ peers, lineLabel l = p.daemonLabel) ∧
      ∃ d : DaemonRow, lineEntry l = some d.entry ∧ d.peer = lineLabel l ∧ d.state ≠ [] := by
  obtain ⟨now, _, hl⟩ := List.mem_flatMap.mp h
  obtain ⟨o, ho, hl⟩ := List.mem_filterMap.mp hl
  obtain ⟨s, hs, rfl⟩ := List.mem_map.mp ho
  obtain ⟨g, hg, rfl⟩ := List.mem_map.mp hs
  obtain ⟨p, hp, rfl⟩ := List.mem_map.mp hg
  obtain ⟨l', hl', hkeyed, hentry⟩ := lineEntry_sighting (o := .snapshot now _ _) rfl
  obtain rfl := Option.some.inj (hl'.symm.trans hl)
  refine ⟨hkeyed, ⟨p, hp, ?_⟩, ?_⟩
  · obtain rfl := Option.some.inj hl
    rfl
  · rcases hentry with ⟨hnil, _⟩ | ⟨_, d, hd, hpeer, hstate⟩
    · exact absurd hnil p.daemonLabel_ne
    · refine ⟨⟨p.daemonLabel, d.state, d.endpoint, d.handshakeAge⟩, ?_, ?_, ?_⟩
      · rw [hd]
        exact congrArg some (by cases d; cases hpeer; rfl)
      · obtain rfl := Option.some.inj hl
        rfl
      · show d.state ≠ []
        rw [hstate]
        exact state_text_ne _

theorem snapshotLines_label (cfg : Config) {peers : List KernelPeer} (first : Time) (later : List Time)
    {p : KernelPeer} (hp : p ∈ peers) :
    p.daemonLabel ∈ (snapshotLines cfg peers (first :: later)).map lineLabel := by
  obtain ⟨g, hg, hlabel⟩ : ∃ g ∈ mapPeers (peers.map KernelPeer.read),
      peerLabel g.name g.tunnelIP g.publicKey = p.daemonLabel :=
    ⟨_, List.mem_map_of_mem (List.mem_map_of_mem hp), rfl⟩
  refine List.mem_map.mpr ⟨snapshotLine first g (snapshotStatus first cfg g), ?_, hlabel⟩
  refine List.mem_flatMap.mpr ⟨first, List.mem_cons_self .., List.mem_filterMap.mpr ⟨.snapshot first g _, ?_, rfl⟩⟩
  exact List.mem_map_of_mem hg

variable {E : Engine}

/-- **The journal has an entry under the label of each peer**, and no other. -/
theorem readDaemon_snapshots (J : Journal E) (cfg : Config) (peers : List KernelPeer) (first : Time)
    (later : List Time) :
    ∃ daemon : List DaemonRow,
      readDaemon E ((snapshotLines cfg peers (first :: later)).flatMap fun l => J.entry l ++ [0x0a])
        = .ok (daemon.map DaemonRow.entry) ∧
      (∀ d ∈ daemon, d.state ≠ []) ∧
      ∀ k, k ∈ daemon.map DaemonRow.peer ↔ ∃ p ∈ peers, p.daemonLabel = k := by
  have hentry : ∀ l ∈ snapshotLines cfg peers (first :: later),
      ∃ d : DaemonRow, lineEntry l = some d.entry ∧ d.peer = lineLabel l ∧ d.state ≠ [] :=
    fun l hl => (snapshotLines_entry hl).2.2
  obtain ⟨daemon, hfold, hstate, hkeys⟩ :=
    replayed_rows hentry [] (fun _ h => absurd h List.not_mem_nil)
  refine ⟨daemon, ?_, hstate, fun k => ?_⟩
  · have htext : ((snapshotLines cfg peers (first :: later)).flatMap fun l => J.entry l ++ [0x0a])
        = ((snapshotLines cfg peers (first :: later)).map J.entry).flatMap fun e => e ++ [0x0a] := by
      rw [List.flatMap_map]
    have hkeyed : ∀ l ∈ snapshotLines cfg peers (first :: later), l.Keyed := fun l hl => (snapshotLines_entry hl).1
    unfold readDaemon
    rw [htext, splitLines_flatMap, replayLine_entries J hkeyed]
    · exact congrArg _ hfold
    · intro e he
      obtain ⟨l, _, rfl⟩ := List.mem_map.mp he
      exact J.one_line l
  · rw [hkeys, or_iff_right (show k ∉ ([] : List DaemonRow).map _ from List.not_mem_nil)]
    constructor
    · intro hk
      obtain ⟨l, hl, rfl⟩ := List.mem_map.mp hk
      obtain ⟨p, hp, hlabel⟩ := (snapshotLines_entry hl).2.1
      exact ⟨p, hp, hlabel.symm⟩
    · rintro ⟨p, hp, rfl⟩
      exact snapshotLines_label cfg first later hp

/-! ## The report -/

/-- A row that goes by one of the two labels of the peer. -/
def About (e : SecurityEvent) (p : KernelPeer) : Prop := e.subject = p.wg0 ∨ e.subject = p.daemonLabel

/-- The links of the report are the rows of the peers, one for each. -/
def OneRowEach (events : List SecurityEvent) (peers : List KernelPeer) : Prop :=
  ∃ rows : List SecurityEvent, rows.Perm (links events) ∧ List.Forall₂ About rows peers

/-- The address that `firstAllowedIP` picks for the peer comes first in the AllowedIPs of some peer. -/
def Covered (peers : List KernelPeer) (p : KernelPeer) : Prop :=
  ∃ q ∈ peers, ∃ n ∈ q.allowedIPs.head?, n.ip.wg.text = p.tunnelIP

/-- What a report is made from: the dump, and the journal of one or more cycles. -/
structure Readout where
  jails     : List JailStatus
  iface     : JsString
  line      : InterfaceLine
  now       : Instant
  cfg       : Config
  first     : Time
  later     : List Time

/-- The report on the peers: there is one, and it has a row for each. -/
def Reports (J : Journal E) (r : Readout) (peers : List KernelPeer) : Prop :=
  ∃ daemon : List DaemonRow,
    readDaemon E ((snapshotLines r.cfg peers (r.first :: r.later)).flatMap fun l => J.entry l ++ [0x0a])
      = .ok (daemon.map DaemonRow.entry) ∧
    OneRowEach (collectLocal N (fun _ => none) r.jails (readWg N r.iface (some (wgDump r.line peers)) r.now) daemon) peers

theorem KernelPeer.wg0_ne (p : KernelPeer) : p.wg0 ≠ [] := by
  unfold KernelPeer.wg0
  split
  · decide
  · next n _ _ => exact n.ip.wg.nonempty

variable {N}

theorem covers_dump {r : Readout} {peers : List KernelPeer} {label : JsString} (hne : label ≠ []) :
    Covers (readWg N r.iface (some (wgDump r.line peers)) r.now).peers label ↔ ∃ q ∈ peers, q.wg0 = label := by
  have hmap := readWg_dump N r.iface r.line peers r.now
  unfold Covers
  rw [and_iff_right hne, ← List.mem_map, hmap, List.mem_map]

/-- The live rows are the rows of the peers. -/
theorem liveRows_about (r : Readout) (peers : List KernelPeer) (m : OrdMap JsString DaemonRow) :
    List.Forall₂ About
      (liveRows N (fun _ => none) (readWg N r.iface (some (wgDump r.line peers)) r.now).peers m).1 peers := by
  have hmap := readWg_dump N r.iface r.line peers r.now
  have hlabel : ∀ l ∈ (readWg N r.iface (some (wgDump r.line peers)) r.now).peers, l.label = l.wg0 := by
    intro l hl
    have hmem := List.mem_map_of_mem (f := LivePeer.wg0) hl
    rw [hmap] at hmem
    obtain ⟨p, _, hp⟩ := List.mem_map.mp hmem
    exact if_pos (hp ▸ p.wg0_ne)
  have hsubject : (liveRows N (fun _ => none) (readWg N r.iface (some (wgDump r.line peers)) r.now).peers m).1.map
      SecurityEvent.subject = peers.map KernelPeer.wg0 := by
    rw [liveRows_subject, ← hmap]
    exact List.map_congr_left hlabel
  have heq := List.forall₂_eq_eq_eq ▸ hsubject
  rw [List.forall₂_map_left_iff, List.forall₂_map_right_iff] at heq
  exact heq.imp fun _ _ h => .inl h

theorem DaemonRow.entry_injective : Function.Injective DaemonRow.entry := by
  rintro ⟨peer, state, endpoint, age⟩ ⟨peer', state', endpoint', age'⟩ h
  cases h
  rfl

/-- **What the report shows**: one row for each peer, unless the journal has an entry that no address covers. -/
theorem reports_iff (J : Journal E) (r : Readout) (peers : List KernelPeer) :
    Reports N J r peers ↔ ∀ p ∈ peers, ∃ q ∈ peers, q.wg0 = p.daemonLabel := by
  obtain ⟨daemon, hread, hstate, hkeys⟩ := readDaemon_snapshots J r.cfg peers r.first r.later
  have hlinks : links (collectLocal N (fun _ => none) r.jails
      (readWg N r.iface (some (wgDump r.line peers)) r.now) daemon) = _ := collectLocal_links ..
  constructor
  · rintro ⟨daemon', hread', rows, hperm, habout⟩ p hp
    obtain rfl := List.map_injective_iff.mpr DaemonRow.entry_injective (Except.ok.inj (hread.symm.trans hread'))
    have hlength := habout.length_eq
    rw [hperm.length_eq, hlinks, List.length_append, (liveRows_about r peers _).length_eq, Nat.add_eq_left,
      List.length_eq_zero_iff] at hlength
    have hkey := mem_byPeer_keys.mpr ((hkeys p.daemonLabel).mpr ⟨p, hp, rfl⟩)
    obtain ⟨e, he, hlabel⟩ := List.mem_map.mp hkey
    by_contra hnone
    -- an entry that no peer covers has its own row
    have hleft : e ∈ (byPeer daemon).entries.filter fun e =>
        ¬Covers (readWg N r.iface (some (wgDump r.line peers)) r.now).peers e.1 := by
      refine List.mem_filter.mpr ⟨he, decide_eq_true ?_⟩
      rw [hlabel, covers_dump p.daemonLabel_ne]
      exact hnone
    have hsome : (daemonRow (fun _ => none) e.2).isSome := daemonRow_isSome (hstate e.2 (mem_byPeer he))
    obtain ⟨row, hrow⟩ := Option.isSome_iff_exists.mp hsome
    have hmem := List.mem_filterMap.mpr ⟨e.2, List.mem_map_of_mem hleft, hrow⟩
    rw [hlength] at hmem
    cases hmem
  · intro hcovered
    have hleft : ((byPeer daemon).entries.filter fun e =>
        ¬Covers (readWg N r.iface (some (wgDump r.line peers)) r.now).peers e.1) = [] := by
      refine List.filter_eq_nil_iff.mpr fun e he hnot => of_decide_eq_true hnot ?_
      obtain ⟨p, hp, hlabel⟩ := (hkeys e.1).mp (mem_byPeer_keys.mp (List.mem_map_of_mem he))
      rw [← hlabel, covers_dump p.daemonLabel_ne]
      exact hcovered p hp
    rw [hleft, List.map_nil, List.filterMap_nil, List.append_nil] at hlinks
    exact ⟨daemon, hread, _, .of_eq hlinks.symm, liveRows_about r peers (byPeer daemon)⟩

/-! ## Which peers are covered -/

theorem KernelPeer.tunnelIP_cases (p : KernelPeer) :
    p.allowedIPs = [] ∧ p.tunnelIP = [] ∨ ∃ n ∈ p.allowedIPs, p.tunnelIP = n.ip.net.text := by
  unfold KernelPeer.tunnelIP firstAllowedIP
  split
  · next net hfind =>
      obtain ⟨n, hn, rfl⟩ := List.mem_map.mp (List.mem_of_find?_eq_some hfind)
      exact .inr ⟨n, hn, rfl⟩
  · cases p.allowedIPs with
    | nil => exact .inl ⟨rfl, rfl⟩
    | cons n ns => exact .inr ⟨n, List.mem_cons_self .., rfl⟩

theorem KernelPeer.daemonLabel_cases (p : KernelPeer) :
    (∃ a : AddressText, p.tunnelIP = a.text ∧ p.daemonLabel = a.text) ∨
      p.tunnelIP = [] ∧ ¬IsAscii p.daemonLabel := by
  rcases p.tunnelIP_cases with ⟨_, hnil⟩ | ⟨n, _, haddr⟩
  · refine .inr ⟨hnil, ?_⟩
    unfold KernelPeer.daemonLabel
    rw [hnil]
    exact shortKey_not_ascii p.publicKey.length
  · refine .inl ⟨n.ip.net, haddr, ?_⟩
    unfold KernelPeer.daemonLabel peerLabel
    rw [if_neg (not_not.mpr rfl), haddr, if_pos n.ip.net.nonempty]

/-- The row of a peer without entries covers no entry of the journal. -/
theorem covered_iff {peers : List KernelPeer} {p : KernelPeer} :
    (∃ q ∈ peers, q.wg0 = p.daemonLabel) ↔ Covered peers p := by
  refine exists_congr fun q => and_congr_right fun _ => ?_
  unfold KernelPeer.wg0
  rcases p.daemonLabel_cases with ⟨a, htunnel, hlabel⟩ | ⟨htunnel, hlabel⟩
  · rw [htunnel, hlabel]
    cases q.allowedIPs with
    | nil =>
        refine iff_of_false (fun hnone => ?_) fun ⟨n, hn, _⟩ => by cases hn
        have hunit := a.units 0x28 (hnone ▸ List.mem_cons_self ..)
        exact absurd hunit (by decide)
    | cons n ns => exact ⟨fun h => ⟨n, rfl, h⟩, fun ⟨m, hm, h⟩ => Option.some.inj hm ▸ h⟩
  · rw [htunnel]
    cases q.allowedIPs with
    | nil =>
        refine iff_of_false (fun hnone => hlabel ?_) fun ⟨n, hn, _⟩ => by cases hn
        rw [← hnone]
        exact .of_all (by decide)
    | cons n ns =>
        refine iff_of_false (fun h => hlabel ?_) fun ⟨m, _, hnil⟩ => m.ip.wg.nonempty hnil
        rw [← h]
        exact n.ip.wg.ascii

/-- **When a report has one row for each peer.** -/
theorem one_row_iff (N : Numerals) (J : Journal E) (r : Readout) (peers : List KernelPeer) :
    Reports N J r peers ↔ ∀ p ∈ peers, Covered peers p :=
  (reports_iff J r peers).trans (forall₂_congr fun _ _ => covered_iff)

/-- No address of one list is, as text, an address of another. -/
def Disjoint (peers : List KernelPeer) : Prop :=
  ∀ p ∈ peers, ∀ q ∈ peers, p ≠ q → ∀ n ∈ p.allowedIPs, ∀ m ∈ q.allowedIPs, n.ip.net.text ≠ m.ip.wg.text

/-- Of disjoint lists, a peer is covered by its own first entry. -/
theorem covered_iff_first {peers : List KernelPeer} (h : Disjoint peers) {p : KernelPeer} (hp : p ∈ peers) :
    Covered peers p ↔ ∃ n ∈ p.allowedIPs.head?, n.ip.wg.text = p.tunnelIP := by
  constructor
  · rintro ⟨q, hq, n, hn, htext⟩
    by_cases hpq : p = q
    · exact ⟨n, hpq ▸ hn, htext⟩
    · rcases p.tunnelIP_cases with ⟨_, hnil⟩ | ⟨m, hm, haddr⟩
      · exact absurd (htext.trans hnil) n.ip.wg.nonempty
      · exact absurd (htext.trans haddr).symm (h p hp q hq hpq m hm n (List.mem_of_mem_head? hn))
  · rintro ⟨n, hn, htext⟩
    exact ⟨p, hp, n, hn, htext⟩

/-! ## A peer with two rows -/

/-- Decimals only. -/
def decimals : Numerals where
  ofText s := if s.all isDigit then some (roundDouble (digitsValue s)) else none
  toText x := intText ⌊x⌋
  ofText_nat n _ := by
    rw [if_pos (List.all_eq_true.mpr (natText_digits n)), digitsValue_natText]

def AddressText.ofText (text : JsString) (h : text.all isAddressUnit = true) (hne : text ≠ []) : AddressText :=
  ⟨text, List.all_eq_true.mp h, hne⟩

/-- An IPv4 address: both programs print it alike. -/
def TunnelAddress.ofText (a : AddressText) : TunnelAddress := ⟨a, a⟩

/-- `10.42.0.0/24`. -/
def meshNet : AllowedIP := ⟨.ofText (.ofText (js "10.42.0.0") (by decide) (by decide)), 24, 32⟩

/-- `10.42.0.1/32`. -/
def relayRoute : AllowedIP := ⟨.ofText (.ofText (js "10.42.0.1") (by decide) (by decide)), 32, 32⟩

theorem plain_of_all {s : JsString} (h : (s.all fun u => !isSpace u) = true) : ∀ u ∈ s, isSpace u = false :=
  fun u hu => Bool.not_eq_true' _ ▸ List.all_eq_true.mp h u hu

def plainField (text : JsString) (h : (text.all fun u => !isSpace u) = true) : DumpField where
  text    := text
  no_tab  := fun hm => absurd (plain_of_all h _ hm) (by decide)
  no_line := fun hm => absurd (plain_of_all h _ hm) (by decide)

/-- A relay, with the mesh before its own route. -/
def relayPeer : KernelPeer where
  publicKey    := siriusWg.publicKey
  key_plain    := plain_of_all (by decide)
  presharedKey := plainField (js "(none)") (by decide)
  endpoint     := some (plainField (js "203.0.113.7:51820") (by decide))
  allowedIPs   := [meshNet, relayRoute]
  handshakeS   := 1782907200
  handshakeNs  := 0
  seconds_lt   := by decide
  rxBytes      := 184
  txBytes      := 220
  keepalive    := plainField (js "25") (by decide)

def wg0Readout : Readout where
  jails := []
  iface := js "wg0"
  line  := ⟨js "key\tkey\t51820\toff", by decide, by decide⟩
  now   := ⟨1782907210000, by decide⟩
  cfg   := observer.cfg
  first := noon.time
  later := []

/-- The relay is shown as `10.42.0.0` and as `10.42.0.1`. -/
theorem relay_two_rows : ¬∀ peers : List KernelPeer, (peers.map fun p => p.publicKey.text).Nodup → Disjoint peers →
    Reports decimals (jsonJournal Symbolic.platform.toEngine) wg0Readout peers := by
  intro hall
  have hdisjoint : Disjoint [relayPeer] := by
    intro p hp q hq hpq
    exact absurd ((List.mem_singleton.mp hp).trans (List.mem_singleton.mp hq).symm) hpq
  have hreports := hall [relayPeer] (List.nodup_singleton _) hdisjoint
  obtain ⟨q, hq, hlabel⟩ := (reports_iff _ _ _).mp hreports relayPeer (List.mem_cons_self ..)
  rw [List.mem_singleton.mp hq] at hlabel
  exact absurd hlabel (by decide)

end Selfheal
end VpnPi
