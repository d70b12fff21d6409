import Mathlib.Data.Finset.Dedup
import Mathlib.Data.Finset.Card
import VpnPi.Js.OrdMap

/-!
# `Async.FirstWins` — merging a log under keys

A log of keyed entries is merged into a map: the first entry under a key stays, whatever comes later
(`get_firsts`). If an entry shares its key with exactly those entries that carry its value, the map has the value
exactly once (`firsts_unique`). A bounded map that evicts its oldest entry is the same as long as the keys fit
(`foldl_keep`).

Generic in keys and values; names nothing of the daemon.
-/

namespace VpnPi
namespace Async

open Js

variable {κ α : Type} [DecidableEq κ]

/-- An entry stays out if its key is taken. -/
def addFirst (m : OrdMap κ α) (e : κ × α) : OrdMap κ α := if m.has e.1 then m else m.set e.1 e.2

/-- The first entry under each key of the log. -/
def firsts (es : List (κ × α)) : OrdMap κ α := es.foldl addFirst .empty

theorem get_addFirst (m : OrdMap κ α) (e : κ × α) (k : κ) :
    (addFirst m e).get k = (m.get k).or (if k = e.1 then some e.2 else none) := by
  unfold addFirst OrdMap.has
  by_cases hk : k = e.1
  · rw [if_pos hk, ← hk]
    cases hget : m.get k with
    | none =>
        rw [if_neg (by simp), OrdMap.get_set_self]
        rfl
    | some v =>
        rw [if_pos (show (some v).isSome = true from rfl), hget]
        rfl
  · rw [if_neg hk, Option.or_none]
    split
    · rfl
    · exact OrdMap.get_set_ne hk

theorem get_foldl_addFirst (es : List (κ × α)) (m : OrdMap κ α) (k : κ) :
    (es.foldl addFirst m).get k = (m.get k).or (es.lookup k) := by
  induction es generalizing m with
  | nil => exact (Option.or_none).symm
  | cons e es ih =>
      rw [List.foldl_cons, ih, get_addFirst, Option.or_assoc, OrdMap.lookup_cons_if]
      split
      · rfl
      · rw [Option.none_or]

/-- **The first entry wins.** -/
theorem get_firsts (es : List (κ × α)) (k : κ) : (firsts es).get k = es.lookup k := get_foldl_addFirst es .empty k

theorem mem_of_lookup {es : List (κ × α)} {k : κ} {v : α} (h : es.lookup k = some v) : (k, v) ∈ es := by
  obtain ⟨pre, post, rfl, _⟩ := List.lookup_eq_some_iff.mp h
  exact List.mem_append_right _ (List.mem_cons_self ..)

/-- **A value that goes with one key** is in the map once. -/
theorem firsts_unique {es : List (κ × α)} {k : κ} {v : α} (hmem : (k, v) ∈ es)
    (h : ∀ e ∈ es, e.1 = k ↔ e.2 = v) : ∃! k', (firsts es).get k' = some v := by
  refine ⟨k, ?_, fun k' hk' => ?_⟩
  · cases hlookup : es.lookup k with
    | none =>
        have := List.lookup_eq_none_iff.mp hlookup _ hmem
        exact absurd this (by simp)
    | some v' =>
        have hv : v' = v := (h _ (mem_of_lookup hlookup)).mp rfl
        rw [← hv]
        exact (get_firsts es k).trans hlookup
  · have hk' := (get_firsts es k').symm.trans hk'
    exact (h _ (mem_of_lookup hk')).mpr rfl

/-! ## A bound on the size -/

/-- `popitem(last=False)`. -/
def evictOldest (m : OrdMap κ α) : OrdMap κ α :=
  ⟨m.entries.tail, m.nodup.sublist ((List.tail_sublist _).map Prod.fst)⟩

/-- Beyond `cap` entries the oldest is evicted. -/
def keep (cap : Nat) (m : OrdMap κ α) (e : κ × α) : OrdMap κ α :=
  if m.has e.1 then m
  else if cap < (m.set e.1 e.2).entries.length then evictOldest (m.set e.1 e.2)
  else m.set e.1 e.2

theorem keys_addFirst (m : OrdMap κ α) (e : κ × α) (k : κ) :
    k ∈ (addFirst m e).entries.map Prod.fst ↔ k ∈ m.entries.map Prod.fst ∨ k = e.1 := by
  unfold addFirst
  split
  · next h =>
      obtain ⟨v, hv⟩ := Option.isSome_iff_exists.mp h
      refine (or_iff_left_of_imp fun hk => ?_).symm
      rw [hk]
      exact OrdMap.mem_keys_iff.mpr ⟨v, hv⟩
  · exact OrdMap.fst_setEntry.trans or_comm

/-- **As long as the keys fit**, nothing is evicted. -/
theorem foldl_keep {cap : Nat} (es : List (κ × α)) (m : OrdMap κ α)
    (h : (m.entries.map Prod.fst ++ es.map Prod.fst).toFinset.card ≤ cap) :
    es.foldl (keep cap) m = es.foldl addFirst m := by
  induction es generalizing m with
  | nil => rfl
  | cons e es ih =>
      have hsub : ((addFirst m e).entries.map Prod.fst ++ es.map Prod.fst).toFinset
          ⊆ (m.entries.map Prod.fst ++ (e :: es).map Prod.fst).toFinset := by
        intro k hk
        simp only [List.mem_toFinset, List.mem_append, keys_addFirst, List.map_cons, List.mem_cons] at hk ⊢
        rcases hk with (hk | hk) | hk
        · exact .inl hk
        · exact .inr (.inl hk)
        · exact .inr (.inr hk)
      have hcard := (Finset.card_le_card hsub).trans h
      have hkeep : keep cap m e = addFirst m e := by
        unfold keep addFirst
        split
        · rfl
        · next hhas =>
            refine if_neg (Nat.not_lt.mpr ?_)
            have hset : addFirst m e = m.set e.1 e.2 := if_neg hhas
            rw [← hset, ← List.length_map (f := Prod.fst), ← List.toFinset_card_of_nodup (addFirst m e).nodup]
            refine (Finset.card_le_card fun k hk => ?_).trans hcard
            rw [List.toFinset_append]
            exact Finset.mem_union_left _ hk
      rw [List.foldl_cons, List.foldl_cons, hkeep]
      exact ih _ hcard

end Async
end VpnPi
