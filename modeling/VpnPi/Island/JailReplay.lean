import Mathlib.Data.List.Sort
import VpnPi.Async.Trace
import VpnPi.Island.Fail2ban
import VpnPi.Island.Symbolic

/-!
# `Island.JailReplay` — the jails that a journal tells of (`core/sysinfo.ts`)

`readFail2ban` folds the action messages of a journal into a map of maps and a map of counters. What it returns is stated
without the fold (`JailsOf`): one entry for each jail, in the order of first occurrence, with the addresses whose last
action in that jail is a ban. The statement determines the list (`JailsOf.unique`), and a line without an action message
has no say. The message of a line is `String(MESSAGE)`, so that a `MESSAGE` that is a list of one text counts as that text
(`listed_counts`).
-/

namespace VpnPi
namespace Island
namespace Fail2ban

open Js RegExp Async

/-! ## The replay -/

/-- `String(JSON.parse(line).MESSAGE ?? "")`; `none` where that throws. -/
def messageOf (E : Engine) (line : JsString) : Option JsString := do
  let entry ← parse E line
  let message ← entry.prop (js "MESSAGE")
  (if message.isNullish then .str [] else message).toStr

/-- A `JailStatus`, all of it. -/
structure JailStatus extends Island.JailStatus where
  currently_banned : Nat
  total_banned     : Nat

/-- The two maps of the loop: jail → ip → isBanned, and jail → bans. -/
structure Replay where
  banned : OrdMap JsString (OrdMap JsString Bool)
  totals : OrdMap JsString Nat

def Replay.start : Replay := ⟨.empty, .empty⟩

def Replay.act (st : Replay) (a : Action) : Replay :=
  let ips := (st.banned.get a.jail).getD .empty
  { banned := st.banned.set a.jail (ips.set a.ip a.ban)
    totals :=
      -- `Restore Ban` replays an old ban
      if a.ban = true ∧ a.restored = false then st.totals.set a.jail ((st.totals.get a.jail).getD 0 + 1) else st.totals }

def Replay.line (E : Engine) (st : Replay) (line : JsString) : Replay :=
  if trim line = [] then st
  else
    match messageOf E line with
    | none => st
    | some msg =>
        match f2bActionRe.exec msg >>= actionOf with
        | none => st
        | some a => st.act a

def statusOf (totals : OrdMap JsString Nat) (e : JsString × OrdMap JsString Bool) : JailStatus where
  jail := e.1
  currently_banned := (e.2.values.filter id).length
  total_banned := (totals.get e.1).getD 0
  banned_ips := ((e.2.entries.filter fun e => e.2).map Prod.fst).insertionSort fun a b => keyLe a b

/-- On what `journalctl` printed, `none` if it could not be run. -/
def readFail2ban (E : Engine) (out : Option JsString) : List JailStatus :=
  match out with
  | none => []
  | some out =>
      if out = [] then []
      else
        let st := (splitLines out).foldl (Replay.line E) .start
        st.banned.entries.map (statusOf st.totals)

/-! ## What a journal says -/

/-- The message of the line is a well-formed action message. -/
def LineAction (E : Engine) (line : JsString) (a : Action) : Prop := ∃ msg, messageOf E line = some msg ∧ ActionMessage msg a

/-- The `MESSAGE` of the line is a string, and a well-formed action message. -/
def StringAction (E : Engine) (line : JsString) (a : Action) : Prop :=
  ∃ entry msg, parse E line = some entry ∧ entry.prop (js "MESSAGE") = some (.str msg) ∧ ActionMessage msg a

/-- The actions of a journal, line by line. -/
inductive JournalActions (E : Engine) : List JsString → List Action → Prop
  | nil : JournalActions E [] []
  | skip {line : JsString} {lines : List JsString} {as : List Action} (h : ∀ a, ¬LineAction E line a)
      (rest : JournalActions E lines as) : JournalActions E (line :: lines) as
  | action {line : JsString} {lines : List JsString} {a : Action} {as : List Action} (h : LineAction E line a)
      (rest : JournalActions E lines as) : JournalActions E (line :: lines) (a :: as)

/-- The lines of what was printed; nothing printed is no line. -/
def journalLines (out : JsString) : List JsString := if out = [] then [] else splitLines out

/-- The last action on an address in a jail. -/
def LastAction (as : List Action) (jail ip : JsString) (a : Action) : Prop :=
  a.jail = jail ∧ a.ip = ip ∧ ∃ pre post, as = pre ++ a :: post ∧ ∀ b ∈ post, ¬(b.jail = jail ∧ b.ip = ip)

/-- A ban that is no replay of an old one. -/
def Action.newBan (jail : JsString) (a : Action) : Bool := decide (a.jail = jail) && a.ban && !a.restored

/-- What the status of a jail says of the actions. -/
structure JailOf (as : List Action) (s : JailStatus) : Prop where
  sorted  : s.banned_ips.Pairwise fun x y => keyLe x y = true
  nodup   : s.banned_ips.Nodup
  banned  : ∀ ip, ip ∈ s.banned_ips ↔ ∃ a, LastAction as s.jail ip a ∧ a.ban = true
  current : s.currently_banned = s.banned_ips.length
  total   : s.total_banned = as.countP (Action.newBan s.jail)

/-- The list has the elements of the other one, in the order of first occurrence. -/
structure FirstSeen (xs keys : List JsString) : Prop where
  seen  : ∀ k, k ∈ keys ↔ k ∈ xs
  order : keys.Pairwise fun k l => xs.idxOf k < xs.idxOf l

/-- One status for each jail. -/
structure JailsOf (as : List Action) (states : List JailStatus) : Prop where
  jails  : FirstSeen (as.map Action.jail) (states.map fun s => s.jail)
  states : ∀ s ∈ states, JailOf as s

/-! ## A line that is no action -/

theorem isSpace_of_isNumUnit {u : UInt16} (h : isNumUnit u = true) : isSpace u = false := by
  simp only [isNumUnit, Bool.or_eq_true, decide_eq_true_eq] at h
  rcases h with ((((h | rfl) | rfl) | rfl) | rfl) | rfl
  · exact isSpace_of_isDigit u h
  all_goals decide

/-- A value does not start with white space that `JSON.parse` does not skip. -/
theorem notSpace_of_readValue {E : Engine} {n : Nat} {s r : JsString} {u : UInt16} {x : Value × JsString}
    (hs : skipSpace s = u :: r) (h : readValue E (n + 1) s = some x) : isSpace u = false := by
  by_contra hspace
  have hu : isSpace u = true := Bool.eq_true_of_not_eq_false hspace
  have hne : ∀ v, isSpace v = false → u ≠ v := fun v hv huv => by rw [huv, hv] at hu; cases hu
  have hnum : isNumUnit u = false := by
    by_contra hnum
    exact hspace (isSpace_of_isNumUnit (Bool.eq_true_of_not_eq_false hnum))
  have htake : (u :: r).takeWhile isNumUnit = [] :=
    List.takeWhile_cons_of_neg (by rw [hnum]; exact Bool.false_ne_true)
  have hread : readNumber E (u :: r) = none := by
    rw [readNumber, htake]
    rfl
  rw [readValue, hs] at h
  dsimp only at h
  rw [if_neg (hne 0x22 (by decide)), if_neg (hne 0x5b (by decide)), if_neg (hne 0x7b (by decide)), if_neg (hne 0x6e (by decide)),
    if_neg (hne 0x74 (by decide)), if_neg (hne 0x66 (by decide)), hread] at h
  cases h

/-- Text that parses is not blank. -/
theorem trim_of_parse {E : Engine} {s : JsString} {v : Value} (h : parse E s = some v) : trim s ≠ [] := by
  cases hread : readValue E (s.length + 1) s with
  | none =>
      rw [parse, hread] at h
      cases h
  | some x =>
      cases hs : skipSpace s with
      | nil =>
          rw [readValue, hs] at hread
          cases hread
      | cons u r =>
          have hu : u ∈ s := (List.dropWhile_suffix isJsonSpace).subset (hs ▸ List.mem_cons_self .. : u ∈ skipSpace s)
          exact trim_ne_nil hu (notSpace_of_readValue hs hread)

/-- The action of a line, executably. -/
def lineAction (E : Engine) (line : JsString) : Option Action :=
  messageOf E line >>= fun msg => f2bActionRe.exec msg >>= actionOf

theorem lineAction_iff {E : Engine} {line : JsString} {a : Action} : lineAction E line = some a ↔ LineAction E line a := by
  rw [lineAction, Option.bind_eq_bind, Option.bind_eq_some_iff]
  exact exists_congr fun msg => and_congr Iff.rfl action_iff

theorem line_eq (E : Engine) (st : Replay) (line : JsString) :
    st.line E line = match lineAction E line with
      | none => st
      | some a => st.act a := by
  unfold Replay.line lineAction
  split
  · next hblank =>
      have hnone : messageOf E line = none := by
        cases hparse : parse E line with
        | none => rw [messageOf, hparse]; rfl
        | some v => exact absurd hblank (trim_of_parse hparse)
      rw [hnone]
      rfl
  · cases messageOf E line with
    | none => rfl
    | some msg => rfl

theorem journalActions_iff {E : Engine} {lines : List JsString} {as : List Action} :
    JournalActions E lines as ↔ as = lines.filterMap (lineAction E) := by
  constructor
  · intro h
    induction h with
    | nil => rfl
    | @skip line _ _ h _ ih =>
        have hnone : lineAction E line = none := Option.eq_none_iff_forall_ne_some.mpr fun a ha => h a (lineAction_iff.mp ha)
        rw [List.filterMap_cons_none hnone, ih]
    | action h _ ih => rw [List.filterMap_cons_some (lineAction_iff.mpr h), ← ih]
  · rintro rfl
    induction lines with
    | nil => exact .nil
    | cons line lines ih =>
        cases h : lineAction E line with
        | none =>
            rw [List.filterMap_cons_none h]
            exact .skip (fun a ha => by rw [lineAction_iff.mpr ha] at h; cases h) ih
        | some a =>
            rw [List.filterMap_cons_some h]
            exact .action (lineAction_iff.mp h) ih

/-- The replay of the actions. -/
def replayed (as : List Action) : Replay := as.foldl Replay.act .start

theorem foldl_line (E : Engine) (lines : List JsString) (st : Replay) :
    lines.foldl (Replay.line E) st = (lines.filterMap (lineAction E)).foldl Replay.act st := by
  induction lines generalizing st with
  | nil => rfl
  | cons line lines ih =>
      rw [List.foldl_cons, ih, line_eq]
      cases h : lineAction E line with
      | none => rw [List.filterMap_cons_none h]
      | some a => rw [List.filterMap_cons_some h, List.foldl_cons]

/-- The statuses of a replay. -/
def Replay.states (st : Replay) : List JailStatus := st.banned.entries.map (statusOf st.totals)

theorem readFail2ban_eq (E : Engine) (out : JsString) :
    readFail2ban E (some out) = (replayed ((journalLines out).filterMap (lineAction E))).states := by
  unfold journalLines
  split
  · next h =>
      rw [readFail2ban, if_pos h]
      rfl
  · next h =>
      rw [readFail2ban, if_neg h, foldl_line]
      rfl

/-! ## One action more -/

theorem FirstSeen.nil : FirstSeen [] [] := ⟨fun _ => Iff.rfl, .nil⟩

theorem FirstSeen.snoc {xs keys : List JsString} (h : FirstSeen xs keys) (x : JsString) :
    FirstSeen (xs ++ [x]) (if x ∈ keys then keys else keys ++ [x]) := by
  have hold : ∀ k ∈ keys, (xs ++ [x]).idxOf k = xs.idxOf k := fun k hk => by
    rw [List.idxOf_append, if_pos ((h.seen k).mp hk)]
  have horder : keys.Pairwise fun k l => (xs ++ [x]).idxOf k < (xs ++ [x]).idxOf l :=
    h.order.imp_of_mem fun hk hl hlt => by rwa [hold _ hk, hold _ hl]
  split
  · next hx =>
      refine ⟨fun k => ?_, horder⟩
      rw [h.seen, List.mem_append, List.mem_singleton]
      exact ⟨Or.inl, fun hk => hk.elim id fun hk => hk ▸ (h.seen x).mp hx⟩
  · next hx =>
      refine ⟨fun k => by rw [List.mem_append, List.mem_append, h.seen], List.pairwise_append.mpr ⟨horder, ?_, ?_⟩⟩
      · exact List.pairwise_singleton ..
      · intro k hk l hl
        obtain rfl := List.mem_singleton.mp hl
        have hnew : l ∉ xs := fun hl => hx ((h.seen l).mpr hl)
        rw [hold k hk, List.idxOf_append, if_neg hnew]
        exact Nat.lt_add_left _ (List.idxOf_lt_length_of_mem ((h.seen k).mp hk))

/-- The last action after one action more: that one, if it is on the address, or the one before. -/
theorem lastAction_snoc {as : List Action} {a b : Action} {jail ip : JsString} :
    LastAction (as ++ [b]) jail ip a ↔
      if b.jail = jail ∧ b.ip = ip then a = b else LastAction as jail ip a := by
  split
  · next hb =>
      constructor
      · rintro ⟨_, _, pre, post, heq, hlater⟩
        rcases concat_split_cons heq with ⟨_, rfl, _⟩ | ⟨post, rfl, _⟩
        · rfl
        · exact absurd hb (hlater b (List.mem_append_right _ (List.mem_singleton_self b)))
      · rintro rfl
        exact ⟨hb.1, hb.2, as, [], rfl, nofun⟩
  · next hb =>
      constructor
      · rintro ⟨hjail, hip, pre, post, heq, hlater⟩
        rcases concat_split_cons heq with ⟨_, rfl, _⟩ | ⟨post, rfl, rfl⟩
        · exact absurd ⟨hjail, hip⟩ hb
        · exact ⟨hjail, hip, pre, post, rfl, fun c hc => hlater c (List.mem_append_left _ hc)⟩
      · rintro ⟨hjail, hip, pre, post, rfl, hlater⟩
        refine ⟨hjail, hip, pre, post ++ [b], by rw [List.append_assoc, List.cons_append], ?_⟩
        exact List.forall_mem_append.mpr ⟨hlater, List.forall_mem_singleton.mpr hb⟩

/-- What the maps hold of the actions so far. -/
structure Replayed (as : List Action) (st : Replay) : Prop where
  jails  : FirstSeen (as.map Action.jail) st.banned.keys
  /-- An address is in the map of its jail with its last action. -/
  banned : ∀ jail ip ban, (∃ ips, st.banned.get jail = some ips ∧ ips.get ip = some ban) ↔
    ∃ a, LastAction as jail ip a ∧ a.ban = ban
  totals : ∀ jail, (st.totals.get jail).getD 0 = as.countP (Action.newBan jail)

theorem Replayed.start : Replayed [] .start := by
  refine ⟨.nil, fun jail ip ban => ⟨?_, ?_⟩, fun jail => rfl⟩
  · rintro ⟨_, hget, _⟩
    cases hget
  · rintro ⟨a, ⟨_, _, pre, post, heq, _⟩, _⟩
    exact absurd heq.symm (List.append_ne_nil_of_right_ne_nil _ (List.cons_ne_nil a post))

theorem Replay.act_banned (st : Replay) (a : Action) (jail ip : JsString) (ban : Bool) :
    (∃ ips, (st.act a).banned.get jail = some ips ∧ ips.get ip = some ban) ↔
      if a.jail = jail ∧ a.ip = ip then a.ban = ban
      else ∃ ips, st.banned.get jail = some ips ∧ ips.get ip = some ban := by
  show (∃ ips, (st.banned.set a.jail _).get jail = some ips ∧ _) ↔ _
  rw [OrdMap.get_set]
  by_cases hjail : jail = a.jail
  · subst hjail
    rw [if_pos rfl]
    simp only [Option.some.injEq, exists_eq_left', true_and]
    rw [OrdMap.get_set]
    by_cases hip : ip = a.ip
    · rw [if_pos hip, if_pos hip.symm, Option.some.injEq]
    · rw [if_neg hip, if_neg fun h => hip h.symm]
      cases st.banned.get a.jail with
      | none => simp
      | some ips => simp
  · rw [if_neg hjail, if_neg fun h => hjail h.1.symm]

theorem Replay.act_totals (st : Replay) (a : Action) (jail : JsString) :
    ((st.act a).totals.get jail).getD 0 = (st.totals.get jail).getD 0 + if a.newBan jail = true then 1 else 0 := by
  show (OrdMap.get (if a.ban = true ∧ a.restored = false then _ else _) jail).getD 0 = _
  have hnew : a.newBan jail = true ↔ a.jail = jail ∧ a.ban = true ∧ a.restored = false := by
    simp [Action.newBan, and_assoc]
  by_cases hban : a.ban = true ∧ a.restored = false
  · rw [if_pos hban, OrdMap.get_set]
    by_cases hjail : jail = a.jail
    · rw [if_pos hjail, if_pos (hnew.mpr ⟨hjail.symm, hban⟩), hjail]
      rfl
    · rw [if_neg hjail, if_neg fun h => hjail (hnew.mp h).1.symm]
      rfl
  · rw [if_neg hban, if_neg fun h => hban (hnew.mp h).2]
    rfl

/-- **One action.** -/
theorem Replayed.act {as : List Action} {st : Replay} (h : Replayed as st) (a : Action) :
    Replayed (as ++ [a]) (st.act a) := by
  refine ⟨?_, fun jail ip ban => ?_, fun jail => ?_⟩
  · rw [List.map_append, List.map_singleton]
    show FirstSeen _ (st.banned.set a.jail _).keys
    rw [OrdMap.keys_set]
    convert h.jails.snoc a.jail
  · rw [Replay.act_banned]
    simp only [lastAction_snoc]
    split
    · simp only [exists_eq_left]
    · exact h.banned jail ip ban
  · rw [List.countP_append, List.countP_singleton, ← h.totals]
    exact st.act_totals a jail

/-- **A run of actions.** -/
theorem replayed_spec (as : List Action) : Replayed as (replayed as) := by
  induction as using List.reverseRecOn with
  | nil => exact .start
  | append_singleton as a ih =>
      rw [replayed, List.foldl_append]
      exact ih.act a

/-! ## What is returned -/

theorem mem_bannedIps {totals : OrdMap JsString Nat} {e : JsString × OrdMap JsString Bool} {ip : JsString} :
    ip ∈ (statusOf totals e).banned_ips ↔ e.2.get ip = some true := by
  show ip ∈ List.insertionSort _ _ ↔ _
  rw [List.mem_insertionSort, List.mem_map, ← OrdMap.mem_entries_iff]
  constructor
  · rintro ⟨⟨k, b⟩, he, rfl⟩
    obtain ⟨hmem, hb⟩ := List.mem_filter.mp he
    obtain rfl : b = true := hb
    exact hmem
  · intro hmem
    exact ⟨(ip, true), List.mem_filter.mpr ⟨hmem, rfl⟩, rfl⟩

/-- The status of a jail that the map holds. -/
theorem Replayed.jailOf {as : List Action} {st : Replay} (h : Replayed as st) {e : JsString × OrdMap JsString Bool}
    (he : e ∈ st.banned.entries) : JailOf as (statusOf st.totals e) := by
  have hget : st.banned.get e.1 = some e.2 := OrdMap.mem_entries_iff.mp he
  refine ⟨?_, ?_, fun ip => ?_, ?_, h.totals e.1⟩
  · have htotal : Std.Total fun x y : JsString => keyLe x y = true := ⟨keyLe_total⟩
    have htrans : IsTrans JsString fun x y => keyLe x y = true := ⟨fun _ _ _ => keyLe_trans⟩
    exact List.pairwise_insertionSort _ _
  · have hnodup : ((e.2.entries.filter fun e => e.2).map Prod.fst).Nodup :=
      e.2.nodup.sublist (List.filter_sublist.map Prod.fst)
    exact (List.perm_insertionSort _ _).nodup_iff.mpr hnodup
  · rw [mem_bannedIps]
    have hbanned := h.banned e.1 ip true
    simp only [hget, Option.some.injEq, exists_eq_left'] at hbanned
    exact hbanned
  · show (e.2.values.filter id).length = (List.insertionSort _ _).length
    rw [List.length_insertionSort, List.length_map, OrdMap.values, List.filter_map, List.length_map]
    rfl

theorem Replayed.jailsOf {as : List Action} {st : Replay} (h : Replayed as st) : JailsOf as st.states := by
  refine ⟨?_, fun s hs => ?_⟩
  · have hkeys : (st.states.map fun s => s.jail) = st.banned.keys := by
      rw [Replay.states, List.map_map]
      rfl
    rw [hkeys]
    exact h.jails
  · obtain ⟨e, he, rfl⟩ := List.mem_map.mp hs
    exact h.jailOf he

/-! ## The statement leaves no choice -/

theorem FirstSeen.unique {xs keys keys' : List JsString} (h : FirstSeen xs keys) (h' : FirstSeen xs keys') : keys = keys' := by
  have hantisymm : Std.Antisymm fun k l : JsString => xs.idxOf k < xs.idxOf l := ⟨fun _ _ hlt hgt => absurd hgt hlt.asymm⟩
  have hirrefl : Std.Irrefl fun k l : JsString => xs.idxOf k < xs.idxOf l := ⟨fun _ => Nat.lt_irrefl _⟩
  exact h.order.eq_of_mem_iff h'.order fun k => (h.seen k).trans (h'.seen k).symm

theorem JailOf.unique {as : List Action} {s s' : JailStatus} (h : JailOf as s) (h' : JailOf as s') (hjail : s.jail = s'.jail) :
    s = s' := by
  have hmem : ∀ ip, ip ∈ s.banned_ips ↔ ip ∈ s'.banned_ips := fun ip => by rw [h.banned, h'.banned, hjail]
  have hips : s.banned_ips = s'.banned_ips :=
    ((List.perm_ext_iff_of_nodup h.nodup h'.nodup).mpr hmem).eq_of_pairwise (fun _ _ _ _ => keyLe_antisymm) h.sorted h'.sorted
  have hcurrent : s.currently_banned = s'.currently_banned := by rw [h.current, h'.current, hips]
  have htotal : s.total_banned = s'.total_banned := by rw [h.total, h'.total, hjail]
  obtain ⟨⟨jail, ips⟩, current, total⟩ := s
  obtain ⟨⟨jail', ips'⟩, current', total'⟩ := s'
  obtain rfl : jail = jail' := hjail
  obtain rfl : ips = ips' := hips
  obtain rfl : current = current' := hcurrent
  obtain rfl : total = total' := htotal
  rfl

theorem eq_of_map_jail {as : List Action} : ∀ {states states' : List JailStatus}, (∀ s ∈ states, JailOf as s) →
    (∀ s ∈ states', JailOf as s) → (states.map fun s => s.jail) = (states'.map fun s => s.jail) → states = states'
  | [], [], _, _, _ => rfl
  | [], _ :: _, _, _, heq => by cases heq
  | _ :: _, [], _, _, heq => by cases heq
  | s :: states, s' :: states', h, h', heq => by
      obtain ⟨hjail, hrest⟩ := List.cons.inj heq
      obtain ⟨hs, hstates⟩ := List.forall_mem_cons.mp h
      obtain ⟨hs', hstates'⟩ := List.forall_mem_cons.mp h'
      rw [hs.unique hs' hjail, eq_of_map_jail hstates hstates' hrest]

/-- The statement determines the list of statuses. -/
theorem JailsOf.unique {as : List Action} {states states' : List JailStatus} (h : JailsOf as states) (h' : JailsOf as states') :
    states = states' := eq_of_map_jail h.states h'.states (h.jails.unique h'.jails)

/-- **The replay computes the declarative state of the jails**, and lines without an action change nothing. -/
theorem fail2ban_replayed (E : Engine) (out : JsString) :
    (∃ as, JournalActions E (journalLines out) as ∧ (∀ as', JournalActions E (journalLines out) as' → as' = as) ∧
      ∀ states, JailsOf as states ↔ states = readFail2ban E (some out)) ∧
    ∀ out' pre lines post, journalLines out = pre ++ lines ++ post → journalLines out' = pre ++ post →
      (∀ line ∈ lines, ∀ a, ¬LineAction E line a) → readFail2ban E (some out) = readFail2ban E (some out') := by
  refine ⟨⟨_, journalActions_iff.mpr rfl, fun _ h => journalActions_iff.mp h, fun states => ?_⟩, ?_⟩
  · rw [readFail2ban_eq]
    have hspec := (replayed_spec ((journalLines out).filterMap (lineAction E))).jailsOf
    exact ⟨fun h => h.unique hspec, fun h => h ▸ hspec⟩
  · intro out' pre lines post hout hout' hinert
    have hnone : lines.filterMap (lineAction E) = [] := by
      refine List.filterMap_eq_nil_iff.mpr fun line hline => ?_
      exact Option.eq_none_iff_forall_ne_some.mpr fun a ha => hinert line hline a (lineAction_iff.mp ha)
    rw [readFail2ban_eq, readFail2ban_eq, hout, hout', List.filterMap_append, List.filterMap_append, hnone, List.append_nil,
      List.filterMap_append]

namespace Symbolic

/-- A line whose `MESSAGE` is a list. -/
def listed : JsString := js "\x7b\"MESSAGE\":[\"[sshd] Ban 1.2.3.4\"]\x7d"

theorem parse_listed : parse Island.Symbolic.platform.toEngine listed =
    some (.obj [(js "MESSAGE", .arr [.str (js "[sshd] Ban 1.2.3.4")])]) := by decide +kernel

/-- **A message that is no string counts**: the line has no well-formed action message in a string, and yet the journal
    has a jail with it and none without it. -/
theorem listed_counts : (∀ a, ¬StringAction Island.Symbolic.platform.toEngine listed a) ∧ journalLines listed = [listed] ∧
    ((readFail2ban Island.Symbolic.platform.toEngine (some listed)).map fun s => (s.jail, s.banned_ips, s.total_banned)) =
      [(js "sshd", [js "1.2.3.4"], 1)] ∧
    journalLines [] = [] ∧ readFail2ban Island.Symbolic.platform.toEngine (some []) = [] := by
  refine ⟨?_, by decide +kernel, by decide +kernel, rfl, rfl⟩
  rintro a ⟨entry, msg, hentry, hmessage, _⟩
  rw [parse_listed] at hentry
  cases hentry
  cases hmessage

end Symbolic

end Fail2ban
end Island
end VpnPi
