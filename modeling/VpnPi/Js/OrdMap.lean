import Mathlib.Data.List.Nodup

/-!
# `Js.OrdMap` — the insertion-ordered `Map`

`Map.prototype.set` overwrites a present key in place and appends a new one, `delete` closes the gap, and
iteration follows insertion order. `OrdMap` keeps the entries as the list an iterator would yield, with the
distinctness of its keys as a field, so a map with two entries for one key cannot be built. Everything the
clients use is stated through `get`; two maps that agree on `get` are the same partial function (`Same`),
whatever their order.

Generic in the key and value types; names nothing of the daemon.
-/

namespace VpnPi
namespace Js

structure OrdMap (κ α : Type) where
  entries : List (κ × α)
  nodup   : (entries.map Prod.fst).Nodup

namespace OrdMap

variable {κ α β : Type} [DecidableEq κ]

/-! ## The operations -/

def empty : OrdMap κ α := ⟨[], by simp⟩

def get (m : OrdMap κ α) (k : κ) : Option α := m.entries.lookup k

def has (m : OrdMap κ α) (k : κ) : Bool := (m.get k).isSome

/-- Overwrite the entry for `k` in place, or append one. -/
def setEntry (k : κ) (v : α) : List (κ × α) → List (κ × α)
  | [] => [(k, v)]
  | e :: es => if e.1 = k then (k, v) :: es else e :: setEntry k v es

theorem fst_setEntry {k : κ} {v : α} {es : List (κ × α)} {k' : κ} :
    k' ∈ (setEntry k v es).map Prod.fst ↔ k' = k ∨ k' ∈ es.map Prod.fst := by
  induction es with
  | nil => simp [setEntry]
  | cons e es ih =>
      by_cases he : e.1 = k
      · rw [setEntry, if_pos he, List.map_cons, List.map_cons, List.mem_cons, List.mem_cons, he]
        exact ⟨fun h => h.elim Or.inl (fun h => Or.inr (Or.inr h)),
          fun h => h.elim Or.inl (fun h => h.elim Or.inl Or.inr)⟩
      · rw [setEntry, if_neg he, List.map_cons, List.map_cons, List.mem_cons, List.mem_cons, ih]
        exact or_left_comm

theorem nodup_setEntry {k : κ} {v : α} {es : List (κ × α)} (h : (es.map Prod.fst).Nodup) :
    ((setEntry k v es).map Prod.fst).Nodup := by
  induction es with
  | nil => simp [setEntry]
  | cons e es ih =>
      have hes := List.nodup_cons.mp h
      by_cases he : e.1 = k
      · rw [setEntry, if_pos he, List.map_cons]
        exact List.nodup_cons.mpr ⟨he ▸ hes.1, hes.2⟩
      · rw [setEntry, if_neg he, List.map_cons]
        refine List.nodup_cons.mpr ⟨?_, ih hes.2⟩
        rw [fst_setEntry]
        exact fun hm => hm.elim he hes.1

def set (m : OrdMap κ α) (k : κ) (v : α) : OrdMap κ α :=
  ⟨setEntry k v m.entries, nodup_setEntry m.nodup⟩

def delete (m : OrdMap κ α) (k : κ) : OrdMap κ α :=
  ⟨m.entries.filter (fun e => e.1 ≠ k), m.nodup.sublist (List.filter_sublist.map Prod.fst)⟩

def keys (m : OrdMap κ α) : List κ := m.entries.map Prod.fst

def values (m : OrdMap κ α) : List α := m.entries.map Prod.snd

/-- `new Map(entries)`: later entries overwrite earlier ones. -/
def ofEntries (es : List (κ × α)) : OrdMap κ α := es.foldl (fun m e => m.set e.1 e.2) empty

def filter (m : OrdMap κ α) (p : κ → α → Bool) : OrdMap κ α :=
  ⟨m.entries.filter (fun e => p e.1 e.2), m.nodup.sublist (List.filter_sublist.map Prod.fst)⟩

/-! ## What `get` sees -/

omit [DecidableEq κ] in
theorem lookup_cons_if [BEq κ] [LawfulBEq κ] [DecidableEq κ] {k : κ} {e : κ × α} {es : List (κ × α)} :
    (e :: es).lookup k = if k = e.1 then some e.2 else es.lookup k := by
  rw [List.lookup_cons]
  by_cases h : k = e.1
  · simp [h]
  · simp [h, beq_false_of_ne h]

@[simp] theorem get_empty (k : κ) : (empty : OrdMap κ α).get k = none := rfl

theorem lookup_setEntry {k k' : κ} {v : α} {es : List (κ × α)} :
    (setEntry k v es).lookup k' = if k' = k then some v else es.lookup k' := by
  induction es with
  | nil => rw [setEntry, lookup_cons_if]
  | cons e es ih =>
      by_cases he : e.1 = k
      · rw [setEntry, if_pos he, lookup_cons_if, lookup_cons_if, he]
        by_cases h : k' = k
        · rw [if_pos h, if_pos h]
        · rw [if_neg h, if_neg h, if_neg h]
      · rw [setEntry, if_neg he, lookup_cons_if, lookup_cons_if, ih]
        by_cases h : k' = e.1
        · have hk : k' ≠ k := fun hh => he (h.symm.trans hh)
          rw [if_pos h, if_neg hk, if_pos h]
        · rw [if_neg h, if_neg h]

theorem get_set {m : OrdMap κ α} {k k' : κ} {v : α} :
    (m.set k v).get k' = if k' = k then some v else m.get k' := lookup_setEntry

@[simp] theorem get_set_self (m : OrdMap κ α) (k : κ) (v : α) : (m.set k v).get k = some v := by
  rw [get_set, if_pos rfl]

theorem get_set_ne {m : OrdMap κ α} {k k' : κ} {v : α} (h : k' ≠ k) :
    (m.set k v).get k' = m.get k' := by
  rw [get_set, if_neg h]

theorem lookup_filter_ne {k k' : κ} {es : List (κ × α)} :
    (es.filter (fun e => e.1 ≠ k)).lookup k' = if k' = k then none else es.lookup k' := by
  induction es with
  | nil => simp
  | cons e es ih =>
      by_cases he : e.1 = k
      · rw [List.filter_cons_of_neg (by simp [he]), ih, lookup_cons_if, he]
        by_cases h : k' = k
        · rw [if_pos h, if_pos h]
        · rw [if_neg h, if_neg h, if_neg h]
      · rw [List.filter_cons_of_pos (by simp [he]), lookup_cons_if, lookup_cons_if, ih]
        by_cases h : k' = e.1
        · have hk : k' ≠ k := fun hh => he (h.symm.trans hh)
          rw [if_pos h, if_neg hk, if_pos h]
        · rw [if_neg h, if_neg h]

theorem get_delete {m : OrdMap κ α} {k k' : κ} :
    (m.delete k).get k' = if k' = k then none else m.get k' := lookup_filter_ne

@[simp] theorem get_delete_self (m : OrdMap κ α) (k : κ) : (m.delete k).get k = none := by
  rw [get_delete, if_pos rfl]

theorem get_delete_ne {m : OrdMap κ α} {k k' : κ} (h : k' ≠ k) :
    (m.delete k).get k' = m.get k' := by
  rw [get_delete, if_neg h]

/-- What a deletion leaves was there before. -/
theorem get_of_get_delete {m : OrdMap κ α} {k k' : κ} {v : α} (h : (m.delete k).get k' = some v) :
    m.get k' = some v := by
  rw [get_delete] at h
  by_cases hk : k' = k
  · rw [if_pos hk] at h; cases h
  · rwa [if_neg hk] at h

/-- What holds of every entry and of a new one. -/
theorem forall_set {m : OrdMap κ α} {I : κ → α → Prop} {k : κ} {v : α} (h : ∀ k v, m.get k = some v → I k v) (hv : I k v) :
    ∀ k' v', (m.set k v).get k' = some v' → I k' v' := by
  intro k' v' hget
  rw [get_set] at hget
  split at hget
  · next hk =>
      obtain rfl := Option.some.inj hget
      rw [hk]
      exact hv
  · exact h k' v' hget

theorem forall_delete {m : OrdMap κ α} {I : κ → α → Prop} {k : κ} (h : ∀ k v, m.get k = some v → I k v) :
    ∀ k' v', (m.delete k).get k' = some v' → I k' v' := fun k' v' hget => h k' v' (get_of_get_delete hget)

omit [DecidableEq κ] in
/-- With distinct keys, looking up is membership. -/
theorem lookup_eq_some_iff [BEq κ] [LawfulBEq κ] {es : List (κ × α)} (hnd : (es.map Prod.fst).Nodup)
    {k : κ} {v : α} : es.lookup k = some v ↔ (k, v) ∈ es := by
  induction es with
  | nil => simp
  | cons e es ih =>
      classical
      have hes := List.nodup_cons.mp hnd
      rw [List.mem_cons, lookup_cons_if, ← ih hes.2]
      by_cases h : k = e.1
      · have hnone : es.lookup k = none := by
          rw [List.lookup_eq_none_iff]
          intro p hp
          have : p.1 ∈ es.map Prod.fst := List.mem_map_of_mem hp
          simpa [h] using fun hh : e.1 = p.1 => hes.1 (hh ▸ this)
        rw [hnone, if_pos h]
        constructor
        · intro hv
          exact Or.inl (Prod.ext h (Option.some.inj hv).symm)
        · rintro (rfl | hh)
          · rfl
          · cases hh
      · have hne : (k, v) ≠ e := fun hh => h (congrArg Prod.fst hh)
        simp [h, hne]

theorem mem_entries_iff {m : OrdMap κ α} {k : κ} {v : α} : (k, v) ∈ m.entries ↔ m.get k = some v :=
  (lookup_eq_some_iff m.nodup).symm

theorem mem_keys_iff {m : OrdMap κ α} {k : κ} : k ∈ m.keys ↔ ∃ v, m.get k = some v := by
  simp only [keys, List.mem_map, ← mem_entries_iff]
  exact ⟨fun ⟨e, he, hk⟩ => ⟨e.2, hk ▸ he⟩, fun ⟨v, hv⟩ => ⟨(k, v), hv, rfl⟩⟩

theorem get_filter {m : OrdMap κ α} {p : κ → α → Bool} {k : κ} {v : α} :
    (m.filter p).get k = some v ↔ m.get k = some v ∧ p k v = true := by
  rw [← mem_entries_iff, ← mem_entries_iff]
  exact List.mem_filter

theorem get_filter_none {m : OrdMap κ α} {p : κ → α → Bool} {k : κ} (h : m.get k = none) :
    (m.filter p).get k = none := by
  rw [Option.eq_none_iff_forall_not_mem]
  intro v hv
  rw [(get_filter.mp hv).1] at h
  cases h

omit [DecidableEq κ] in
/-- Two maps with the same entries in the same order are equal. -/
@[ext] theorem ext {m m' : OrdMap κ α} (h : m.entries = m'.entries) : m = m' := by
  cases m; cases m'; cases h; rfl

/-! ## `new Map(entries)` -/

theorem filter_setEntry {k k' : κ} {v : α} {es : List (κ × α)} (h : k ≠ k') :
    (setEntry k v es).filter (fun e => e.1 ≠ k') = setEntry k v (es.filter fun e => e.1 ≠ k') := by
  induction es with
  | nil => simp [setEntry, h]
  | cons e es ih =>
      by_cases he : e.1 = k
      · have hk : e.1 ≠ k' := fun heq => h (he.symm.trans heq)
        simp [setEntry, he, h]
      · by_cases hk : e.1 = k'
        · rw [setEntry, if_neg he, List.filter_cons_of_neg (by simpa using hk), ih,
            List.filter_cons_of_neg (by simpa using hk)]
        · rw [setEntry, if_neg he, List.filter_cons_of_pos (by simpa using hk), ih,
            List.filter_cons_of_pos (by simpa using hk), setEntry, if_neg he]

/-- Deleting a key and setting another commute, the order of the entries included. -/
theorem delete_set {m : OrdMap κ α} {k k' : κ} {v : α} (h : k ≠ k') :
    (m.set k v).delete k' = (m.delete k').set k v := ext (filter_setEntry h)

theorem delete_delete (m : OrdMap κ α) (k k' : κ) : (m.delete k).delete k' = (m.delete k').delete k :=
  ext (List.filter_comm _ _ _)

theorem setEntry_of_not_mem {k : κ} {v : α} {es : List (κ × α)} (h : k ∉ es.map Prod.fst) :
    setEntry k v es = es ++ [(k, v)] := by
  induction es with
  | nil => rfl
  | cons e es ih =>
      have hne : e.1 ≠ k := fun hh => h (by simp [hh])
      rw [setEntry, if_neg hne, ih (fun hm => h (List.mem_cons_of_mem _ hm)), List.cons_append]

theorem map_fst_setEntry_of_mem {k : κ} {v : α} {es : List (κ × α)} (h : k ∈ es.map Prod.fst) :
    (setEntry k v es).map Prod.fst = es.map Prod.fst := by
  induction es with
  | nil => cases h
  | cons e es ih =>
      by_cases he : e.1 = k
      · rw [setEntry, if_pos he, List.map_cons, List.map_cons, he]
      · have hmem : k ∈ es.map Prod.fst := (List.mem_cons.mp h).resolve_left fun hk => he hk.symm
        rw [setEntry, if_neg he, List.map_cons, List.map_cons, ih hmem]

/-- A key keeps its place, or comes last. -/
theorem keys_set (m : OrdMap κ α) (k : κ) (v : α) :
    (m.set k v).keys = if k ∈ m.keys then m.keys else m.keys ++ [k] := by
  split
  · next h => exact map_fst_setEntry_of_mem h
  · next h =>
      show (setEntry k v m.entries).map Prod.fst = _
      rw [setEntry_of_not_mem h, List.map_append]
      rfl

theorem entries_foldl_set {es : List (κ × α)} :
    ∀ m : OrdMap κ α, (m.entries.map Prod.fst ++ es.map Prod.fst).Nodup →
      (es.foldl (fun m e => m.set e.1 e.2) m).entries = m.entries ++ es := by
  induction es with
  | nil => intro m _; simp
  | cons e es ih =>
      intro m hnd
      have hnot : e.1 ∉ m.entries.map Prod.fst := by
        intro hm
        have := List.nodup_append.mp hnd
        exact this.2.2 e.1 hm e.1 (by simp) rfl
      have hset : (m.set e.1 e.2).entries = m.entries ++ [e] := setEntry_of_not_mem hnot
      rw [List.foldl_cons, ih (m.set e.1 e.2) (by rw [hset]; simpa using hnd), hset]
      simp

/-- Distinct keys survive `new Map` entry for entry. -/
theorem entries_ofEntries {es : List (κ × α)} (h : (es.map Prod.fst).Nodup) :
    (ofEntries es).entries = es := by
  simpa [ofEntries, empty] using entries_foldl_set (empty : OrdMap κ α) (by simpa [empty] using h)

theorem get_ofEntries {es : List (κ × α)} (h : (es.map Prod.fst).Nodup) {k : κ} {v : α} :
    (ofEntries es).get k = some v ↔ (k, v) ∈ es := by
  rw [← mem_entries_iff, entries_ofEntries h]

@[simp] theorem ofEntries_entries (m : OrdMap κ α) : ofEntries m.entries = m :=
  ext (entries_ofEntries m.nodup)

theorem mem_setEntry {k : κ} {v : α} {es : List (κ × α)} {e : κ × α} (h : e ∈ setEntry k v es) :
    e = (k, v) ∨ e ∈ es := by
  induction es with
  | nil => exact .inl (List.mem_singleton.mp h)
  | cons e' es ih =>
      rw [setEntry] at h
      split at h
      · exact (List.mem_cons.mp h).imp id (List.mem_cons_of_mem _)
      · rcases List.mem_cons.mp h with rfl | h
        · exact .inr (List.mem_cons_self ..)
        · exact (ih h).imp id (List.mem_cons_of_mem _)

theorem mem_foldl_set {es : List (κ × α)} (m : OrdMap κ α) :
    (∀ e ∈ (es.foldl (fun m e => m.set e.1 e.2) m).entries, e ∈ m.entries ∨ e ∈ es) ∧
      ∀ k, k ∈ (es.foldl (fun m e => m.set e.1 e.2) m).entries.map Prod.fst ↔
        k ∈ m.entries.map Prod.fst ∨ k ∈ es.map Prod.fst := by
  induction es generalizing m with
  | nil => exact ⟨fun e he => .inl he, fun k => by simp⟩
  | cons e es ih =>
      obtain ⟨hmem, hkeys⟩ := ih (m.set e.1 e.2)
      refine ⟨fun e' he' => ?_, fun k => ?_⟩
      · rcases hmem e' he' with h | h
        · exact (mem_setEntry h).symm.imp id fun (h : e' = e) => h ▸ List.mem_cons_self ..
        · exact .inr (List.mem_cons_of_mem _ h)
      · rw [List.foldl_cons, hkeys, List.map_cons, List.mem_cons, ← or_assoc]
        exact or_congr_left (fst_setEntry.trans or_comm)

/-- `new Map` keeps entries that were given, -/
theorem mem_of_ofEntries {es : List (κ × α)} {e : κ × α} (h : e ∈ (ofEntries es).entries) : e ∈ es :=
  ((mem_foldl_set empty).1 e h).elim (fun h => absurd h List.not_mem_nil) id

/-- one for each key. -/
theorem mem_ofEntries_keys {es : List (κ × α)} {k : κ} :
    k ∈ (ofEntries es).entries.map Prod.fst ↔ k ∈ es.map Prod.fst :=
  ((mem_foldl_set empty).2 k).trans (or_iff_right List.not_mem_nil)

/-- A key with one entry finds its value. -/
theorem get_ofEntries_unique {es : List (κ × α)} {k : κ} {v : α} (hmem : (k, v) ∈ es)
    (hunique : ∀ w, (k, w) ∈ es → w = v) : (ofEntries es).get k = some v := by
  have hkey : k ∈ (ofEntries es).entries.map Prod.fst := mem_ofEntries_keys.mpr (List.mem_map_of_mem hmem)
  obtain ⟨⟨k', w⟩, hw, rfl⟩ := List.mem_map.mp hkey
  obtain rfl := hunique w (mem_of_ofEntries hw)
  exact mem_entries_iff.mp hw

/-! ## Mapping the values -/

def mapVal (f : α → β) (m : OrdMap κ α) : OrdMap κ β :=
  ⟨m.entries.map (fun e => (e.1, f e.2)), by simpa [Function.comp_def] using m.nodup⟩

theorem get_mapVal {f : α → β} {m : OrdMap κ α} {k : κ} : (m.mapVal f).get k = (m.get k).map f := by
  show (m.entries.map (fun e => (e.1, f e.2))).lookup k = (m.entries.lookup k).map f
  induction m.entries with
  | nil => rfl
  | cons e es ih =>
      rw [List.map_cons, lookup_cons_if, lookup_cons_if, ih]
      by_cases h : k = e.1
      · rw [if_pos h, if_pos h, Option.map_some]
      · rw [if_neg h, if_neg h]

theorem get_mapVal_eq_some {f : α → β} {m : OrdMap κ α} {k : κ} {v : β} :
    (m.mapVal f).get k = some v ↔ ∃ u, m.get k = some u ∧ f u = v := by
  rw [get_mapVal, Option.map_eq_some_iff]

theorem map_setEntry (f : α → β) (k : κ) (v : α) (es : List (κ × α)) :
    (setEntry k v es).map (fun e => (e.1, f e.2)) = setEntry k (f v) (es.map fun e => (e.1, f e.2)) := by
  induction es with
  | nil => rfl
  | cons e es ih =>
      by_cases he : e.1 = k
      · rw [setEntry, if_pos he, List.map_cons, List.map_cons, setEntry, if_pos he]
      · rw [setEntry, if_neg he, List.map_cons, List.map_cons, setEntry, if_neg he, ih]

theorem mapVal_set (f : α → β) (m : OrdMap κ α) (k : κ) (v : α) : (m.set k v).mapVal f = (m.mapVal f).set k (f v) :=
  ext (map_setEntry f k v m.entries)

theorem mapVal_delete (f : α → β) (m : OrdMap κ α) (k : κ) : (m.delete k).mapVal f = (m.mapVal f).delete k := by
  refine ext ?_
  show (m.entries.filter _).map _ = (m.entries.map _).filter _
  rw [List.filter_map]
  rfl

end OrdMap
end Js
end VpnPi
