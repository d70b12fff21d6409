import Mathlib.Data.List.DropRight
import VpnPi.Js.Scalar

/-!
# `Js.Trim` — what `trim` and splitting do to text

`trim` gives a string with no white space at either end and leaves such a string alone (`trim_eq_self_iff`). White
space and separators are no surrogates, so cutting a well-formed string at one leaves well-formed pieces
(`wellFormed_append_cons`, `WellFormed.trim`).

Names nothing of the daemon.
-/

namespace VpnPi
namespace Js

/-! ## Trimmed strings -/

/-- No white space at either end. -/
structure Trimmed (s : JsString) : Prop where
  head : ∀ u ∈ s.head?, isSpace u = false
  last : ∀ u ∈ s.getLast?, isSpace u = false

theorem trimEnd_eq (s : JsString) : trimEnd s = s.rdropWhile isSpace := rfl

theorem trimStart_of_head {s : JsString} (h : ∀ u ∈ s.head?, isSpace u = false) : trimStart s = s := by
  cases s with
  | nil => rfl
  | cons u s => exact List.dropWhile_cons_of_neg (by rw [h u rfl]; exact Bool.false_ne_true)

theorem trimEnd_of_last {s : JsString} (h : ∀ u ∈ s.getLast?, isSpace u = false) : trimEnd s = s := by
  rw [trimEnd_eq, List.rdropWhile_eq_self_iff]
  intro hne
  rw [h _ (List.getLast?_eq_some_getLast hne)]
  exact Bool.false_ne_true

theorem trim_of_trimmed {s : JsString} (h : Trimmed s) : trim s = s := by
  rw [trim, trimStart_of_head h.head, trimEnd_of_last h.last]

theorem head_trimStart (s : JsString) : ∀ u ∈ (trimStart s).head?, isSpace u = false := by
  induction s with
  | nil =>
      intro u hu
      cases hu
  | cons a s ih =>
      cases ha : isSpace a with
      | true =>
          rw [trimStart, List.dropWhile_cons_of_pos ha]
          exact ih
      | false =>
          rw [trimStart, List.dropWhile_cons_of_neg (by rw [ha]; exact Bool.false_ne_true)]
          intro u hu
          obtain rfl := Option.some.inj hu
          exact ha

theorem trimmed_trim (s : JsString) : Trimmed (trim s) := by
  refine ⟨fun u hu => ?_, fun u hu => ?_⟩
  · -- what is left of the start is a prefix of it
    obtain ⟨t, ht⟩ := List.rdropWhile_prefix isSpace (trimStart s)
    refine head_trimStart s u ?_
    rw [← ht]
    exact List.mem_head?_append_of_mem_head? hu
  · rw [trim, trimEnd_eq] at hu
    have hne : (trimStart s).rdropWhile isSpace ≠ [] := by
      intro hnil
      rw [hnil] at hu
      cases hu
    have hlast := List.rdropWhile_last_not isSpace (trimStart s) hne
    rw [List.getLast?_eq_some_getLast hne] at hu
    obtain rfl := Option.some.inj hu
    exact Bool.eq_false_iff.mpr hlast

/-- **What `trim` leaves alone.** -/
theorem trim_eq_self_iff {s : JsString} : trim s = s ↔ Trimmed s := by
  constructor
  · intro h
    rw [← h]
    exact trimmed_trim s
  · exact trim_of_trimmed

/-- A string with a unit that is no white space is not blank. -/
theorem trim_ne_nil {s : JsString} {u : UInt16} (hu : u ∈ s) (h : isSpace u = false) : trim s ≠ [] := by
  intro hnil
  have hall : ∀ v ∈ trimStart s, isSpace v = true := by
    rw [trim, trimEnd_eq, List.rdropWhile_eq_nil_iff] at hnil
    exact hnil
  cases hstart : trimStart s with
  | nil =>
      rw [List.dropWhile_eq_nil_iff.mp hstart u hu] at h
      cases h
  | cons v t =>
      have hspace := hall v (hstart ▸ List.mem_cons_self ..)
      rw [head_trimStart s v (by rw [hstart]; rfl)] at hspace
      cases hspace

theorem trim_sublist (s : JsString) : (trim s).Sublist s := by
  have hend : (trim s).Sublist (trimStart s) := (List.rdropWhile_prefix isSpace (trimStart s)).sublist
  exact hend.trans (List.dropWhile_sublist isSpace)

/-! ## Cutting at a unit that is no surrogate -/

def isSurrogate (u : UInt16) : Bool := isHighSurrogate u || isLowSurrogate u

theorem isSurrogate_eq_false {u : UInt16} : isSurrogate u = false ↔ isHighSurrogate u = false ∧ isLowSurrogate u = false :=
  Bool.or_eq_false_iff

theorem wellFormed_cons {u : UInt16} {s : JsString} (hu : isSurrogate u = false) : WellFormed (u :: s) ↔ WellFormed s := by
  have hsplit := isSurrogate_eq_false.mp hu
  constructor
  · intro h
    cases s with
    | nil => trivial
    | cons l s =>
        rw [WellFormed, hsplit.1] at h
        exact h.2
  · exact WellFormed.append (s := [u]) hsplit

/-- **A cut at such a unit** leaves well-formed pieces. -/
theorem wellFormed_append_cons {u : UInt16} (hu : isSurrogate u = false) : ∀ {s t : JsString},
    WellFormed (s ++ u :: t) ↔ WellFormed s ∧ WellFormed t
  | [], t => by
      rw [List.nil_append, wellFormed_cons hu]
      exact ⟨fun h => ⟨trivial, h⟩, fun h => h.2⟩
  | [a], t => by
      have hlow : (isHighSurrogate a && isLowSurrogate u) = false := by
        rw [(isSurrogate_eq_false.mp hu).2, Bool.and_false]
      have hcons : WellFormed (a :: u :: t) ↔ WellFormed [a] ∧ WellFormed (u :: t) := by
        conv_lhs => rw [WellFormed, hlow]
        exact Iff.rfl
      rw [wellFormed_cons hu] at hcons
      exact hcons
  | a :: b :: s, t => by
      rw [List.cons_append, List.cons_append, WellFormed, WellFormed]
      split
      · exact wellFormed_append_cons hu
      · exact (and_congr Iff.rfl (wellFormed_append_cons (s := b :: s) hu)).trans and_assoc.symm

theorem isSpace_not_surrogate {u : UInt16} (h : isSpace u = true) : isSurrogate u = false := by
  have hu : u.toNat ≤ 0x3000 ∨ u.toNat = 0xfeff := by
    simp only [isSpace, Bool.or_eq_true, Bool.and_eq_true, decide_eq_true_eq, UInt16.le_iff_toNat_le,
      ← UInt16.toNat_inj] at h
    have e1 : (0x0d : UInt16).toNat = 0x0d := rfl
    have e2 : (0x20 : UInt16).toNat = 0x20 := rfl
    have e3 : (0xa0 : UInt16).toNat = 0xa0 := rfl
    have e4 : (0x1680 : UInt16).toNat = 0x1680 := rfl
    have e5 : (0x200a : UInt16).toNat = 0x200a := rfl
    have e6 : (0x2028 : UInt16).toNat = 0x2028 := rfl
    have e7 : (0x2029 : UInt16).toNat = 0x2029 := rfl
    have e8 : (0x202f : UInt16).toNat = 0x202f := rfl
    have e9 : (0x205f : UInt16).toNat = 0x205f := rfl
    have e10 : (0x3000 : UInt16).toNat = 0x3000 := rfl
    have e11 : (0xfeff : UInt16).toNat = 0xfeff := rfl
    omega
  have e1 : (0xd800 : UInt16).toNat = 0xd800 := rfl
  have e2 : (0xdbff : UInt16).toNat = 0xdbff := rfl
  have e3 : (0xdc00 : UInt16).toNat = 0xdc00 := rfl
  have e4 : (0xdfff : UInt16).toNat = 0xdfff := rfl
  simp only [isSurrogate, isHighSurrogate, isLowSurrogate, Bool.or_eq_false_iff, Bool.and_eq_false_iff,
    decide_eq_false_iff_not, UInt16.le_iff_toNat_le, e1, e2, e3, e4]
  omega

theorem WellFormed.trimStart {s : JsString} (h : WellFormed s) : WellFormed (trimStart s) := by
  induction s with
  | nil => trivial
  | cons u s ih =>
      cases hu : isSpace u with
      | true =>
          rw [Js.trimStart, List.dropWhile_cons_of_pos hu]
          exact ih ((wellFormed_cons (isSpace_not_surrogate hu)).mp h)
      | false =>
          rw [Js.trimStart, List.dropWhile_cons_of_neg (by rw [hu]; exact Bool.false_ne_true)]
          exact h

theorem WellFormed.trimEnd {s : JsString} (h : WellFormed s) : WellFormed (trimEnd s) := by
  rw [trimEnd_eq]
  induction s using List.reverseRecOn with
  | nil => trivial
  | append_singleton s u ih =>
      cases hu : isSpace u with
      | true =>
          rw [List.rdropWhile_concat_pos _ _ _ hu]
          exact ih ((wellFormed_append_cons (isSpace_not_surrogate hu)).mp h).1
      | false =>
          rw [List.rdropWhile_concat_neg _ _ _ (by rw [hu]; exact Bool.false_ne_true)]
          exact h

theorem WellFormed.trim {s : JsString} (h : WellFormed s) : WellFormed (trim s) := h.trimStart.trimEnd

end Js
end VpnPi
