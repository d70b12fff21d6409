import VpnPi.Island.Gate

/-!
# `Island.GateFile` — `gate.json` and the spent nonces

What the map of spent nonces looks like after a question to the LLM (`asked_spent`), and that a gate started
from the file of another one holds the nonces that one held (`boot_saved`).
-/

namespace VpnPi
namespace Island

open Js Value Async

namespace Gate

variable {P : Platform} {cfg : GateConfig}

/-! ## Pruning and consuming -/

/-- What a call of `open` that asks the LLM found and leaves. -/
theorem openStart_ok {g g' : Gate} {c : Canary} {now : Instant} (h : g.openStart cfg c now = (.ok (), g')) :
    (g.prune cfg now).consumed.get c.nonce = none ∧
      g' = { g with consumed := (g.prune cfg now).consumed.set c.nonce (.ofInt now.ms) } := by
  unfold openStart at h
  dsimp only at h
  split at h
  · cases h
  · next hhas =>
      refine ⟨?_, (Prod.mk.inj h).2.symm⟩
      cases hget : (g.prune cfg now).consumed.get c.nonce with
      | none => rfl
      | some x =>
          rw [OrdMap.has, hget] at hhas
          exact absurd rfl hhas

theorem openStart_error {g g' : Gate} {c : Canary} {now : Instant} {e : Exn}
    (h : g.openStart cfg c now = (.error e, g')) : g' = g.prune cfg now := by
  unfold openStart at h
  dsimp only at h
  split at h
  · exact (Prod.mk.inj h).2.symm
  · cases h

/-- The default horizon is an hour. -/
theorem cutoff_hour {now : Instant} (h : cfg.noncePruneSeconds = 3600) :
    cutoff cfg now = ((now.ms - 3600000 : ℤ) : ℚ) := by
  have hv := now.valid
  have hmul : millis (3600 : ℚ) = ((3600000 : ℤ) : ℚ) := by
    rw [millis, ← roundDouble_intCast (n := 3600000) (by norm_num)]
    norm_num
  rw [cutoff, h, hmul, ← Int.cast_sub, roundDouble_intCast]
  rw [abs_lt]
  constructor
  · omega
  · omega

/-- Pruning drops what is more than an hour old. -/
theorem get_prune_ofInt {g : Gate} {now : Instant} {k : JsString} {t : Int}
    (hcfg : cfg.noncePruneSeconds = 3600) (h : g.consumed.get k = some (.ofInt t))
    (ht : now.ms - 3600000 ≤ t) : (g.prune cfg now).consumed.get k = some (.ofInt t) := by
  refine OrdMap.get_filter.mpr ⟨h, ?_⟩
  rw [cutoff_hour hcfg, Bool.not_eq_true', Bool.eq_false_iff]
  intro hlt
  have := Number.lt_ofInt.mp hlt
  have : t < now.ms - 3600000 := by exact_mod_cast this
  omega

/-! ## Numbers -/

/-- Every number in the map is one the engine prints back. -/
def NumbersWF (P : Platform) (m : OrdMap JsString Number) : Prop :=
  ∀ k x, m.get k = some x → NumWF P.toEngine x

theorem ofInt_wf (P : Platform) (now : Instant) : NumWF P.toEngine (.ofInt now.ms) := by
  have hv := now.valid
  exact ⟨isJsonNumber_intText _, P.toNumber_int (by omega) (by omega)⟩

theorem NumbersWF.empty (P : Platform) : NumbersWF P .empty := nofun

theorem NumbersWF.set {m : OrdMap JsString Number} (h : NumbersWF P m) {k : JsString} {x : Number}
    (hx : NumWF P.toEngine x) : NumbersWF P (m.set k x) := by
  intro k' x' hk
  rw [OrdMap.get_set] at hk
  split at hk
  · cases hk; exact hx
  · exact h k' x' hk

theorem NumbersWF.prune {g : Gate} (h : NumbersWF P g.consumed) (now : Instant) :
    NumbersWF P (g.prune cfg now).consumed :=
  fun k x hk => h k x (OrdMap.get_filter.mp hk).1

theorem loadEntries_wf : ∀ (es : List Value) (m : OrdMap JsString Number), Value.WFList P.toEngine es →
    NumbersWF P m → NumbersWF P (loadEntries es m)
  | [], _, _, hm => hm
  | e :: es, m, hes, hm => by
      unfold loadEntries
      split
      · exact hm
      · next heq =>
          cases heq
          exact loadEntries_wf _ _ hes.2 (hm.set hes.1.2.1)
      · next heq =>
          cases heq
          split
          · exact loadEntries_wf _ _ hes.2 hm
          · exact loadEntries_wf _ _ hes.2 hm
          · exact loadEntries_wf _ _ hes.2 hm
          · exact loadEntries_wf _ _ hes.2 hm
          · exact hm

theorem boot_wf (P : Platform) (file : Option Bytes) : NumbersWF P (boot P file).consumed := by
  unfold boot
  split
  · next data hdata =>
      obtain ⟨bytes, _, hparse⟩ := Option.bind_eq_some_iff.mp hdata
      have hwf := parse_wf hparse
      unfold loadConsumed
      split
      · next es hes =>
          have hlist : Value.WFList P.toEngine es := hwf.prop hes
          exact loadEntries_wf es _ hlist (NumbersWF.empty P)
      · exact NumbersWF.empty P
  · exact NumbersWF.empty P

/-! ## The file -/

/-- One element of `consumed`, as saved. -/
def savedEntry (e : JsString × Number) : Value := .arr [.str e.1, .num e.2]

theorem toJSON_wf {g : Gate} (h : NumbersWF P g.consumed) : g.toJSON.WF P.toEngine := by
  have hlist : ∀ es : List (JsString × Number), (∀ e ∈ es, NumWF P.toEngine e.2) →
      Value.WFList P.toEngine (es.map savedEntry) := by
    intro es hes
    induction es with
    | nil => trivial
    | cons e es ih =>
        obtain ⟨he, hes⟩ := List.forall_mem_cons.mp hes
        exact ⟨⟨trivial, he, trivial⟩, ih hes⟩
  have hentries : ∀ e ∈ g.consumed.entries, NumWF P.toEngine e.2 :=
    fun e he => h e.1 e.2 (OrdMap.mem_entries_iff.mp he)
  exact ⟨List.nodup_singleton _, hlist _ hentries, trivial⟩

/-- Infinite numbers are printed as `null`, which the loop skips. -/
def isFinite : Number → Bool
  | .finite _ _ => true
  | .infinite _ => false

theorem loadEntries_saved : ∀ (es : List (JsString × Number)) (m : OrdMap JsString Number),
    loadEntries (jsonViewList (es.map savedEntry)) m =
      (es.filter fun e => isFinite e.2).foldl (fun m e => m.set e.1 e.2) m
  | [], _ => rfl
  | (k, .finite t i) :: es, m => loadEntries_saved es (m.set k (.finite t i))
  | (_, .infinite _) :: es, m => loadEntries_saved es m

/-- **A gate started from a saved file** holds the saved nonces. -/
theorem boot_saved {g : Gate} (h : NumbersWF P g.consumed) :
    (boot P (some g.saved)).consumed = g.consumed.filter fun _ x => isFinite x := by
  have hparse : parse P.toEngine (utf8Decode g.saved) = some (jsonView g.toJSON) := parse_utf8 (toJSON_wf h)
  have hboot : boot P (some g.saved) = loadConsumed (jsonView g.toJSON) {} := by
    unfold boot
    rw [Option.bind_some, hparse]
  have hload : loadConsumed (jsonView g.toJSON) {} =
      { ({} : Gate) with consumed := loadEntries (jsonViewList (g.consumed.entries.map savedEntry)) .empty } :=
    rfl
  rw [hboot, hload]
  refine OrdMap.ext ?_
  show (loadEntries _ _).entries = _
  rw [loadEntries_saved]
  exact OrdMap.entries_ofEntries (g.consumed.filter fun _ x => isFinite x).nodup

theorem get_boot_saved {g : Gate} (h : NumbersWF P g.consumed) {k : JsString} {t : Int}
    (hk : g.consumed.get k = some (.ofInt t)) : (boot P (some g.saved)).consumed.get k = some (.ofInt t) := by
  rw [boot_saved h]
  exact OrdMap.get_filter.mpr ⟨hk, rfl⟩

end Gate

end Island
end VpnPi
