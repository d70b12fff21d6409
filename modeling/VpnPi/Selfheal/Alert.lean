import Mathlib.Data.List.Sort
import VpnPi.Selfheal.Heal

/-!
# `Selfheal.Alert` — state transitions (`internal/alert`)

`Alert.diff` compares the states of the previous tick with the current classification. For one key it emits at
most one event, and `filter_diff` says which: a change of state for a peer that is there (a peer without a
previous state counts as `ok`), a `gone` event for a peer that was there and is not.
-/

namespace VpnPi
namespace Selfheal

open Js

structure Event where
  peer          : JsString
  name          : JsString
  tunnelIP      : JsString
  from_         : State
  to_           : State
  lastHandshake : Time
  endpoint      : JsString
  at_           : Time

def Event.recovered (e : Event) : Bool := e.to_ = .ok && e.from_ ≠ .ok

def Event.kind (e : Event) : JsString := if e.recovered then js "recovered" else e.to_.text

/-- The state a peer had; a peer that was not there counts as `ok`. -/
def stateBefore (last : OrdMap JsString State) (key : JsString) : State := (last.get key).getD .ok

def changeEvent (last : OrdMap JsString State) (now : Time) (s : PeerStatus) : Event where
  peer          := s.peer
  name          := s.name
  tunnelIP      := s.tunnelIP
  from_         := stateBefore last s.peer
  to_           := s.state
  lastHandshake := s.lastHandshake
  endpoint      := s.endpoint
  at_           := now

/-- The synthetic event of a peer that vanished: its name, address and endpoint left with it. -/
def goneEvent (last : OrdMap JsString State) (now : Time) (key : JsString) : Event where
  peer          := key
  name          := []
  tunnelIP      := []
  from_         := stateBefore last key
  to_           := .gone
  lastHandshake := .zero
  endpoint      := []
  at_           := now

/-- The peers whose state changed, in input order. -/
def changes (last : OrdMap JsString State) (statuses : List PeerStatus) (now : Time) : List Event :=
  (statuses.filter fun s => stateBefore last s.peer ≠ s.state).map (changeEvent last now)

/-- The peers that vanished, sorted. -/
def goneKeys (last next : OrdMap JsString State) : List JsString :=
  (last.keys.filter fun k => !next.has k).insertionSort fun a b => keyLe a b

def Alert.diff (last : OrdMap JsString State) (statuses : List PeerStatus) (now : Time) :
    List Event × OrdMap JsString State :=
  let next := OrdMap.ofEntries (statuses.map fun s => (s.peer, s.state))
  (changes last statuses now ++ (goneKeys last next).map (goneEvent last now), next)

/-! ## One key -/

section Keyed

variable {α β κ : Type} [DecidableEq κ] (key : α → κ) {l : List α}

theorem filter_key_self (h : (l.map key).Nodup) {x : α} (hx : x ∈ l) :
    l.filter (fun y => key y = key x) = [x] := by
  induction l with
  | nil => cases hx
  | cons y l ih =>
      have hnd := List.nodup_cons.mp h
      rcases List.mem_cons.mp hx with rfl | hx
      · have hrest : l.filter (fun y => key y = key x) = [] := by
          rw [List.filter_eq_nil_iff]
          intro z hz hk
          exact hnd.1 (of_decide_eq_true hk ▸ List.mem_map_of_mem hz)
        rw [List.filter_cons_of_pos (by simp), hrest]
      · have hne : key y ≠ key x := fun hk => hnd.1 (hk ▸ List.mem_map_of_mem hx)
        rw [List.filter_cons_of_neg (by simpa using hne)]
        exact ih hnd.2 hx

theorem filter_key_nil {k : κ} (h : k ∉ l.map key) : l.filter (fun y => key y = k) = [] := by
  rw [List.filter_eq_nil_iff]
  intro y hy hk
  exact h (of_decide_eq_true hk ▸ List.mem_map_of_mem hy)

/-- Filtering by the key commutes with a map that keeps it. -/
theorem filter_map_key {key' : β → κ} {f : α → β} (hf : ∀ x, key' (f x) = key x) (l : List α) (k : κ) :
    (l.map f).filter (fun y => key' y = k) = (l.filter fun x => key x = k).map f := by
  rw [List.filter_map]
  refine congrArg (List.map f) (List.filter_congr fun x _ => ?_)
  simp only [Function.comp_apply, hf]

end Keyed

variable {last : OrdMap JsString State} {statuses : List PeerStatus} {now : Time}

theorem has_next (hnd : (statuses.map PeerStatus.peer).Nodup) (k : JsString) :
    (Alert.diff last statuses now).2.has k = true ↔ k ∈ statuses.map PeerStatus.peer := by
  have hnd' : ((statuses.map fun s => (s.peer, s.state)).map Prod.fst).Nodup := by
    rw [List.map_map]
    exact hnd
  unfold OrdMap.has
  rw [Option.isSome_iff_exists]
  simp only [Alert.diff, OrdMap.get_ofEntries hnd', List.mem_map, Prod.mk.injEq]
  constructor
  · rintro ⟨_, s, hs, hk, _⟩
    exact ⟨s, hs, hk⟩
  · rintro ⟨s, hs, hk⟩
    exact ⟨s.state, s, hs, hk, rfl⟩

theorem mem_goneKeys (hnd : (statuses.map PeerStatus.peer).Nodup) {k : JsString} :
    k ∈ goneKeys last (Alert.diff last statuses now).2 ↔
      (∃ s, last.get k = some s) ∧ k ∉ statuses.map PeerStatus.peer := by
  unfold goneKeys
  rw [List.mem_insertionSort, List.mem_filter, OrdMap.mem_keys_iff, Bool.not_eq_true', Bool.eq_false_iff,
    Ne, has_next hnd]

theorem nodup_goneKeys (next : OrdMap JsString State) : (goneKeys last next).Nodup :=
  (List.perm_insertionSort _ _).nodup_iff.mpr (last.nodup.filter _)

/-- The changes of one key. -/
theorem filter_changes (hnd : (statuses.map PeerStatus.peer).Nodup) {s : PeerStatus} (hs : s ∈ statuses) :
    (changes last statuses now).filter (fun e => e.peer = s.peer)
      = if stateBefore last s.peer ≠ s.state then [changeEvent last now s] else [] := by
  have hpeer : ∀ s, (changeEvent last now s).peer = s.peer := fun _ => rfl
  unfold changes
  rw [filter_map_key PeerStatus.peer hpeer, List.filter_comm, filter_key_self PeerStatus.peer hnd hs]
  by_cases hsame : stateBefore last s.peer = s.state
  · simp [hsame]
  · simp [hsame]

theorem filter_changes_nil {k : JsString} (hk : k ∉ statuses.map PeerStatus.peer) :
    (changes last statuses now).filter (fun e => e.peer = k) = [] := by
  have hpeer : ∀ s, (changeEvent last now s).peer = s.peer := fun _ => rfl
  unfold changes
  rw [filter_map_key PeerStatus.peer hpeer, List.filter_comm, filter_key_nil PeerStatus.peer hk]
  rfl

/-- The `gone` events of one key. -/
theorem filter_gone (hnd : (statuses.map PeerStatus.peer).Nodup) (k : JsString) :
    ((goneKeys last (Alert.diff last statuses now).2).map (goneEvent last now)).filter (fun e => e.peer = k)
      = if (last.get k).isSome ∧ k ∉ statuses.map PeerStatus.peer then [goneEvent last now k] else [] := by
  have hpeer : ∀ k, (goneEvent last now k).peer = id k := fun _ => rfl
  rw [filter_map_key id hpeer]
  by_cases hk : (last.get k).isSome ∧ k ∉ statuses.map PeerStatus.peer
  · have hmem : k ∈ goneKeys last (Alert.diff last statuses now).2 :=
      (mem_goneKeys hnd).mpr ⟨Option.isSome_iff_exists.mp hk.1, hk.2⟩
    have hself : (goneKeys last (Alert.diff last statuses now).2).filter (fun x => id x = k) = [k] :=
      filter_key_self id (by rw [List.map_id]; exact nodup_goneKeys _) hmem
    rw [hself, if_pos hk, List.map_cons, List.map_nil]
  · have hmem : k ∉ goneKeys last (Alert.diff last statuses now).2 := by
      rw [mem_goneKeys hnd, ← Option.isSome_iff_exists]
      exact hk
    have hnil := filter_key_nil id (by rw [List.map_id]; exact hmem)
    rw [hnil, if_neg hk, List.map_nil]

/-- **The events of one key**: a change of state of a peer that is there, or the end of one that was. -/
theorem filter_diff (hnd : (statuses.map PeerStatus.peer).Nodup) (k : JsString) :
    (∃ s ∈ statuses, s.peer = k ∧ (Alert.diff last statuses now).1.filter (fun e => e.peer = k)
        = if stateBefore last k ≠ s.state then [changeEvent last now s] else []) ∨
    (k ∉ statuses.map PeerStatus.peer ∧ (Alert.diff last statuses now).1.filter (fun e => e.peer = k)
        = if (last.get k).isSome then [goneEvent last now k] else []) := by
  have hsplit : (Alert.diff last statuses now).1.filter (fun e => e.peer = k)
      = (changes last statuses now).filter (fun e => e.peer = k)
        ++ ((goneKeys last (Alert.diff last statuses now).2).map (goneEvent last now)).filter
          (fun e => e.peer = k) := List.filter_append ..
  by_cases hk : k ∈ statuses.map PeerStatus.peer
  · obtain ⟨s, hs, rfl⟩ := List.mem_map.mp hk
    refine Or.inl ⟨s, hs, rfl, hsplit.trans ?_⟩
    have hthere : ¬((last.get s.peer).isSome ∧ s.peer ∉ statuses.map PeerStatus.peer) := fun h => h.2 hk
    rw [filter_changes hnd hs, filter_gone hnd, if_neg hthere, List.append_nil]
  · refine Or.inr ⟨hk, hsplit.trans ?_⟩
    rw [filter_changes_nil hk, filter_gone hnd, List.nil_append]
    simp only [hk, not_false_eq_true, and_true]

end Selfheal
end VpnPi
