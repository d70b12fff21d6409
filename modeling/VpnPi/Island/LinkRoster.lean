import VpnPi.Island.Sysinfo
import VpnPi.Js.Double
import VpnPi.Js.OrdMap
import VpnPi.Js.Split

/-!
# `Island.LinkRoster` — the roster of links in a report (`core/sysinfo.ts`, `core/events.ts`)

`collectLocal` emits one row for each peer of `wg show`, and one for each peer of the self-heal journal that no
row of the first kind has covered; a row covers the journal's peer whose label is its tunnel address.
`collectLocal_links` is that in one equation.
-/

namespace VpnPi
namespace Island

open Js

/-! ## `wg show <iface> dump` -/

/-- Numbers to and from text, as the engine converts them. -/
structure Numerals where
  /-- `Number(text)`, if it is finite. -/
  ofText : JsString → Option ℚ
  /-- `String(x)`. -/
  toText : ℚ → JsString
  /-- A decimal of 64 bits. -/
  ofText_nat : ∀ n : Nat, n < 2 ^ 64 → ofText (natText n) = some (roundDouble n)

/-- `WgPeer`. -/
structure LivePeer where
  wg0           : JsString
  publicKey     : JsString
  handshakeAgeS : Option ℚ
  up            : Bool

structure WgStatus where
  iface : JsString
  peers : List LivePeer

/-- `UP_WINDOW_S`. -/
def upWindowS : ℚ := 180

/-- `handshake > 0 ? Math.max(0, nowS - handshake) : null`. -/
def ageOf (nowS : Int) (handshake : ℚ) : Option ℚ :=
  if 0 < handshake then some (max 0 (roundDouble (nowS - handshake))) else none

/-- One turn of the loop: a line whose handshake is no finite number is skipped. -/
def readPeer (N : Numerals) (nowS : Int) (line : JsString) : Option LivePeer :=
  let f := splitOn 0x09 line
  (N.ofText (f[4]?.getD (js "0"))).map fun handshake =>
    ⟨firstPart 0x2f (firstPart 0x2c (f[3]?.getD [])), f[0]?.getD [], ageOf nowS handshake,
      (ageOf nowS handshake).any (· ≤ upWindowS)⟩

/-- `readWg`, on what the command printed (`none`, if it failed). -/
def readWg (N : Numerals) (iface : JsString) (out : Option JsString) (now : Instant) : WgStatus :=
  match out with
  | none => ⟨iface, []⟩
  | some out => ⟨iface, (((splitLines out).filter fun l => trim l ≠ []).drop 1).filterMap (readPeer N (now.ms / 1000))⟩

/-! ## The rows -/

/-- `STALE_AFTER_S`. -/
def staleAfterS : ℚ := 150

/-- `DEGRADED_AFTER_S`. -/
def degradedAfterS : ℚ := 180

def classifyLink : Option ℚ → JsString
  | none => js "degraded"
  | some age => if degradedAfterS ≤ age then js "degraded" else if staleAfterS ≤ age then js "stale" else js "ok"

/-- What `collectLocal` reads of a `JailStatus`. -/
structure JailStatus where
  jail       : JsString
  banned_ips : List JsString

structure SecurityEvent where
  kind    : JsString
  subject : JsString
  detail  : JsString
  state   : Option JsString
  deriving DecidableEq

/-- A `DaemonPeer` with a text for its peer, as its type has it. -/
structure DaemonRow where
  peer         : JsString
  state        : JsString
  endpoint     : JsString
  handshakeAge : Option JsString

def DaemonRow.entry (d : DaemonRow) : DaemonPeer := ⟨.str d.peer, d.state, d.endpoint, d.handshakeAge⟩

/-- `parts.filter(Boolean).join(" — ")`. -/
def joinDetail (parts : List (Option JsString)) : JsString :=
  match (parts.filterMap id).filter (· ≠ []) with
  | [] => []
  | p :: ps => ps.foldl (fun text part => text ++ [0x20, 0x2014, 0x20] ++ part) p

/-- A new row takes the place of the peer's, or comes last. -/
theorem setLatest_entry (d : DaemonRow) (rows : List DaemonRow) :
    ∃ rows' : List DaemonRow, setLatest d.entry (rows.map DaemonRow.entry) = rows'.map DaemonRow.entry ∧
      (∀ r ∈ rows', r = d ∨ r ∈ rows) ∧
      ∀ k, k ∈ rows'.map DaemonRow.peer ↔ k = d.peer ∨ k ∈ rows.map DaemonRow.peer := by
  induction rows with
  | nil => exact ⟨[d], rfl, fun r hr => .inl (List.mem_singleton.mp hr), fun k => by simp⟩
  | cons e rows ih =>
      rw [List.map_cons, setLatest]
      by_cases he : e.peer = d.peer
      · refine ⟨d :: rows, if_pos ⟨rfl, congrArg Value.str he⟩, fun r hr => ?_, fun k => ?_⟩
        · exact (List.mem_cons.mp hr).imp id (List.mem_cons_of_mem _)
        · rw [List.map_cons, List.mem_cons, List.map_cons, List.mem_cons, he, ← or_assoc, or_self]
      · obtain ⟨rows', hset, hmem, hkeys⟩ := ih
        refine ⟨e :: rows', ?_, fun r hr => ?_, fun k => ?_⟩
        · rw [if_neg fun h => he (Value.str.inj h.2), hset, List.map_cons]
        · rcases List.mem_cons.mp hr with rfl | hr
          · exact .inr (List.mem_cons_self ..)
          · exact (hmem r hr).imp id (List.mem_cons_of_mem _)
        · rw [List.map_cons, List.mem_cons, hkeys, List.map_cons, List.mem_cons]
          exact or_left_comm

variable (N : Numerals) (nameFor : JsString → Option JsString)

/-- `p.wg0 || p.publicKey.slice(0, 12)`. -/
def LivePeer.label (p : LivePeer) : JsString := if p.wg0 ≠ [] then p.wg0 else p.publicKey.take 12

/-- The row of a peer of `wg show`, with what the journal says of it. A name that is empty is a name: `??` and `?:`
    differ on it. -/
def liveRow (p : LivePeer) (d : Option DaemonRow) : SecurityEvent where
  kind := js "link"
  subject := (nameFor p.wg0).getD p.label
  detail := joinDetail [if (nameFor p.wg0).any (· ≠ []) then some p.label else none,
    some (match p.handshakeAgeS with
      | none => js "no handshake yet"
      | some age => N.toText age ++ js "s since handshake"),
    d.map DaemonRow.endpoint]
  state := some (if d.map DaemonRow.state = some (js "restored") ∧ classifyLink p.handshakeAgeS = js "ok" then
    js "restored" else classifyLink p.handshakeAgeS)

/-- The row of a peer of the journal. -/
def daemonRow (d : DaemonRow) : Option SecurityEvent :=
  if d.state = [] then none
  else some {
    kind := js "link"
    subject := (nameFor d.peer).getD d.peer
    detail := joinDetail [if (nameFor d.peer).any (· ≠ []) then some d.peer else none,
      d.handshakeAge.bind fun age =>
        if age = [] then none
        else some (if age = js "never" then js "no handshake yet" else js "handshake " ++ age ++ js " ago"),
      some d.endpoint]
    state := some d.state }

/-- `daemonByPeer.get(p.wg0)` and `daemonByPeer.delete(p.wg0)`, if there is an address. -/
def coverOf (p : LivePeer) (daemonByPeer : OrdMap JsString DaemonRow) : Option DaemonRow × OrdMap JsString DaemonRow :=
  if p.wg0 ≠ [] then (daemonByPeer.get p.wg0, daemonByPeer.delete p.wg0) else (none, daemonByPeer)

/-- The loop over `wg.peers`: the rows, and what is left of the map. -/
def liveRows : List LivePeer → OrdMap JsString DaemonRow → List SecurityEvent × OrdMap JsString DaemonRow
  | [], daemonByPeer => ([], daemonByPeer)
  | p :: ps, daemonByPeer =>
      (liveRow N nameFor p (coverOf p daemonByPeer).1 :: (liveRows ps (coverOf p daemonByPeer).2).1,
        (liveRows ps (coverOf p daemonByPeer).2).2)

def banned (j : JailStatus) : List SecurityEvent :=
  j.banned_ips.map fun ip => ⟨js "fail2ban", ip, js "blocked by " ++ j.jail, none⟩

/-- `new Map(daemon.map((d) => [d.peer, d]))`. -/
def byPeer (daemon : List DaemonRow) : OrdMap JsString DaemonRow := .ofEntries (daemon.map fun d => (d.peer, d))

def collectLocal (jails : List JailStatus) (wg : WgStatus) (daemon : List DaemonRow) : List SecurityEvent :=
  jails.flatMap banned ++ (liveRows N nameFor wg.peers (byPeer daemon)).1
    ++ (liveRows N nameFor wg.peers (byPeer daemon)).2.values.filterMap (daemonRow nameFor)

/-! ## The links of a report -/

/-- The events of kind `link`. -/
def links (events : List SecurityEvent) : List SecurityEvent := events.filter fun e => e.kind = js "link"

/-- A peer of `wg show` covers the entry under its tunnel address. -/
def Covers (ps : List LivePeer) (label : JsString) : Prop := label ≠ [] ∧ ∃ p ∈ ps, p.wg0 = label

instance (ps : List LivePeer) : DecidablePred (Covers ps) := fun _ => inferInstanceAs (Decidable (_ ∧ _))

variable {N nameFor}

theorem Covers.cons_iff {p : LivePeer} {ps : List LivePeer} {label : JsString} :
    Covers (p :: ps) label ↔ label ≠ [] ∧ p.wg0 = label ∨ Covers ps label := by
  unfold Covers
  rw [← and_or_left]
  exact and_congr_right fun _ => by simp only [List.exists_mem_cons_iff]

theorem coverOf_entries (p : LivePeer) (m : OrdMap JsString DaemonRow) :
    (coverOf p m).2.entries = m.entries.filter fun e => ¬(e.1 ≠ [] ∧ p.wg0 = e.1) := by
  unfold coverOf
  by_cases hp : p.wg0 = []
  · rw [if_neg (not_not.mpr hp)]
    refine (List.filter_eq_self.mpr fun e _ => decide_eq_true ?_).symm
    rintro ⟨hne, he⟩
    exact hne (he ▸ hp)
  · rw [if_pos hp]
    refine List.filter_congr fun e _ => decide_eq_decide.mpr ?_
    exact ⟨fun hne h => hne h.2.symm, fun h he => h ⟨he ▸ hp, he.symm⟩⟩

/-- What the loop leaves in the map: the entries that no peer covers. -/
theorem liveRows_left (ps : List LivePeer) (m : OrdMap JsString DaemonRow) :
    (liveRows N nameFor ps m).2.entries = m.entries.filter fun e => ¬Covers ps e.1 := by
  induction ps generalizing m with
  | nil =>
      refine (List.filter_eq_self.mpr fun e _ => decide_eq_true ?_).symm
      rintro ⟨_, p, hp, _⟩
      cases hp
  | cons p ps ih =>
      show (liveRows N nameFor ps (coverOf p m).2).2.entries = _
      rw [ih, coverOf_entries, List.filter_filter]
      refine List.filter_congr fun e _ => ?_
      rw [← Bool.decide_and, decide_eq_decide, Covers.cons_iff, not_or]
      exact and_comm

/-- Every peer of `wg show` has its row, whatever the journal says. -/
theorem liveRows_subject (ps : List LivePeer) (m : OrdMap JsString DaemonRow) :
    (liveRows N nameFor ps m).1.map SecurityEvent.subject = ps.map fun p => (nameFor p.wg0).getD p.label := by
  induction ps generalizing m with
  | nil => rfl
  | cons p ps ih => exact congrArg (List.cons _) (ih _)

theorem liveRows_kind (ps : List LivePeer) (m : OrdMap JsString DaemonRow) :
    ∀ e ∈ (liveRows N nameFor ps m).1, e.kind = js "link" := by
  induction ps generalizing m with
  | nil =>
      intro e he
      cases he
  | cons p ps ih => exact List.forall_mem_cons.mpr ⟨rfl, ih _⟩

theorem daemonRow_isSome {d : DaemonRow} (h : d.state ≠ []) : (daemonRow nameFor d).isSome := by
  unfold daemonRow
  rw [if_neg h]
  rfl

theorem daemonRow_kind {d : DaemonRow} {e : SecurityEvent} (h : daemonRow nameFor d = some e) :
    e.kind = js "link" := by
  unfold daemonRow at h
  split at h
  · cases h
  · obtain rfl := Option.some.inj h
    rfl

theorem links_banned (jails : List JailStatus) : links (jails.flatMap banned) = [] := by
  refine List.filter_eq_nil_iff.mpr fun e he hlink => ?_
  obtain ⟨j, _, he⟩ := List.mem_flatMap.mp he
  obtain ⟨ip, _, rfl⟩ := List.mem_map.mp he
  exact absurd (of_decide_eq_true hlink) (show js "fail2ban" ≠ js "link" by decide)

theorem mem_byPeer_keys {daemon : List DaemonRow} {k : JsString} :
    k ∈ (byPeer daemon).entries.map Prod.fst ↔ k ∈ daemon.map DaemonRow.peer := by
  unfold byPeer
  rw [OrdMap.mem_ofEntries_keys, List.map_map]
  rfl

theorem mem_byPeer {daemon : List DaemonRow} {e : JsString × DaemonRow} (h : e ∈ (byPeer daemon).entries) :
    e.2 ∈ daemon := by
  obtain ⟨d, hd, rfl⟩ := List.mem_map.mp (OrdMap.mem_of_ofEntries h)
  exact hd

/-- **The links of a report**: the peers of `wg show`, and the entries of the journal that none of them covers. -/
theorem collectLocal_links (jails : List JailStatus) (wg : WgStatus) (daemon : List DaemonRow) :
    links (collectLocal N nameFor jails wg daemon)
      = (liveRows N nameFor wg.peers (byPeer daemon)).1
        ++ (((byPeer daemon).entries.filter fun e => ¬Covers wg.peers e.1).map Prod.snd).filterMap (daemonRow nameFor) := by
  have hlive : links (liveRows N nameFor wg.peers (byPeer daemon)).1 = (liveRows N nameFor wg.peers (byPeer daemon)).1 :=
    List.filter_eq_self.mpr fun e he => decide_eq_true (liveRows_kind _ _ e he)
  have hleft : ∀ ds : List DaemonRow, links (ds.filterMap (daemonRow nameFor)) = ds.filterMap (daemonRow nameFor) := by
    refine fun ds => List.filter_eq_self.mpr fun e he => decide_eq_true ?_
    obtain ⟨d, _, hd⟩ := List.mem_filterMap.mp he
    exact daemonRow_kind hd
  unfold collectLocal
  rw [links, List.filter_append, List.filter_append, ← links, ← links, ← links, links_banned, List.nil_append, hlive,
    hleft, OrdMap.values, liveRows_left]

end Island
end VpnPi
