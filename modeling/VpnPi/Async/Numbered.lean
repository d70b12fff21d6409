import Mathlib.Data.List.Basic

/-!
# `Async.Numbered` — an append-only log and its numbers

The entries of a log are numbered from one, in the order in which they were appended. Dropping the oldest `m` entries
is keeping the numbers above `m` (`filter_numbered`); a page of at most `k` entries of what is left carries the
numbers from `m + 1` on (`map_snd_page`).

Generic in the entries; names nothing of the daemon.
-/

namespace VpnPi
namespace Async

variable {α : Type}

/-- Each entry with its number. -/
def numbered (xs : List α) : List (α × Nat) := xs.zipIdx 1

@[simp] theorem length_numbered (xs : List α) : (numbered xs).length = xs.length := List.length_zipIdx

theorem numbered_concat (xs : List α) (x : α) : numbered (xs ++ [x]) = numbered xs ++ [(x, xs.length + 1)] := by
  rw [numbered, List.zipIdx_append, Nat.add_comm]
  rfl

theorem mem_numbered {xs : List α} {x : α} {i : Nat} : (x, i) ∈ numbered xs ↔ 1 ≤ i ∧ xs[i - 1]? = some x := by
  rw [numbered, List.mk_mem_zipIdx_iff_le_and_getElem?_sub]

theorem take_range'_min (a n k : Nat) : (List.range' a n).take k = List.range' a (min k n) := by
  rcases Nat.le_total n k with h | h
  · rw [List.take_range'_of_length_le h, Nat.min_eq_right h]
  · rw [List.take_range'_of_length_ge h, Nat.min_eq_left h]

theorem map_snd_drop (xs : List α) (m : Nat) :
    ((numbered xs).drop m).map Prod.snd = List.range' (m + 1) (xs.length - m) := by
  rw [List.map_drop, numbered, List.zipIdx_map_snd, List.drop_range', Nat.mul_one, Nat.add_comm]

/-- **The numbers above `m`** are those of all but the oldest `m` entries. -/
theorem filter_numbered (xs : List α) (m : Nat) :
    ((numbered xs).filter fun p => m < p.2) = (numbered xs).drop m := by
  have htake : ((numbered xs).take m).filter (fun p => m < p.2) = [] := by
    rw [List.filter_eq_nil_iff]
    intro p hp
    have hmem : p.2 ∈ ((numbered xs).take m).map Prod.snd := List.mem_map_of_mem hp
    rw [List.map_take, numbered, List.zipIdx_map_snd, take_range'_min, List.mem_range'_1] at hmem
    have hle : p.2 ≤ m := by omega
    simpa using hle
  have hdrop : ((numbered xs).drop m).filter (fun p => m < p.2) = (numbered xs).drop m := by
    rw [List.filter_eq_self]
    intro p hp
    have hmem : p.2 ∈ ((numbered xs).drop m).map Prod.snd := List.mem_map_of_mem hp
    rw [map_snd_drop, List.mem_range'_1] at hmem
    exact decide_eq_true hmem.1
  conv_lhs => rw [← List.take_append_drop m (numbered xs)]
  rw [List.filter_append, htake, hdrop, List.nil_append]

/-- Dropping again from what is left. -/
theorem filter_drop_numbered (xs : List α) (m k : Nat) :
    (((numbered xs).drop m).filter fun p => k < p.2) = (numbered xs).drop (max m k) := by
  rw [← filter_numbered, List.filter_filter, ← filter_numbered]
  refine List.filter_congr fun p _ => ?_
  rw [← Bool.decide_and, decide_eq_decide]
  omega

/-- The numbers of a page. -/
theorem map_snd_page (xs : List α) (m k : Nat) :
    (((numbered xs).drop m).take k).map Prod.snd = List.range' (m + 1) (min k (xs.length - m)) := by
  rw [List.map_take, map_snd_drop, take_range'_min]

/-- The oldest entries by their numbers. -/
theorem map_some_take {xs : List α} {k : Nat} (h : k ≤ xs.length) :
    (xs.take k).map some = (List.range' 1 k).map fun i => xs[i - 1]? := by
  refine List.ext_getElem (by simp [h]) fun i hi _ => ?_
  have hlt : i < xs.length := by
    rw [List.length_map, List.length_take] at hi
    omega
  simp [hlt]

end Async
end VpnPi
