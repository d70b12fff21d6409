import VpnPi.Js.Text

/-!
# `Js.Split` — fields of a line

`splitOn` is `split` at one code unit and `joinOn` its inverse on fields without the separator
(`splitOn_joinOn`); `firstPart` is `split(..)[0]`.

Names nothing of the daemon.
-/

namespace VpnPi
namespace Js

/-- `s.split(sep)`. -/
def splitOn (sep : UInt16) : JsString → List JsString
  | [] => [[]]
  | u :: s =>
      if u = sep then [] :: splitOn sep s
      else
        match splitOn sep s with
        | [] => [[u]]
        | p :: ps => (u :: p) :: ps

/-- Fields with the separator between them. -/
def joinOn (sep : UInt16) : List JsString → JsString
  | [] => []
  | [p] => p
  | p :: ps => p ++ sep :: joinOn sep ps

/-- `s.split(sep)[0]`. -/
def firstPart (sep : UInt16) (s : JsString) : JsString := (splitOn sep s).head?.getD []

variable {sep : UInt16} {p : JsString}

theorem splitOn_append (h : sep ∉ p) (s : JsString) : splitOn sep (p ++ sep :: s) = p :: splitOn sep s := by
  induction p with
  | nil => rw [List.nil_append, splitOn, if_pos rfl]
  | cons u p ih =>
      have hne : u ≠ sep := fun hu => h (hu ▸ List.mem_cons_self ..)
      rw [List.cons_append, splitOn, if_neg hne, ih fun hm => h (List.mem_cons_of_mem _ hm)]

theorem splitOn_of_not_mem (h : sep ∉ p) : splitOn sep p = [p] := by
  induction p with
  | nil => rfl
  | cons u p ih =>
      have hne : u ≠ sep := fun hu => h (hu ▸ List.mem_cons_self ..)
      rw [splitOn, if_neg hne, ih fun hm => h (List.mem_cons_of_mem _ hm)]

/-- **Joining, then splitting.** -/
theorem splitOn_joinOn {ps : List JsString} (hne : ps ≠ []) (h : ∀ p ∈ ps, sep ∉ p) :
    splitOn sep (joinOn sep ps) = ps := by
  induction ps with
  | nil => exact absurd rfl hne
  | cons p ps ih =>
      obtain ⟨hp, hps⟩ := List.forall_mem_cons.mp h
      cases ps with
      | nil => exact splitOn_of_not_mem hp
      | cons q ps =>
          show splitOn sep (p ++ sep :: joinOn sep (q :: ps)) = _
          rw [splitOn_append hp, ih (List.cons_ne_nil _ _) hps]

theorem firstPart_append (h : sep ∉ p) (s : JsString) : firstPart sep (p ++ sep :: s) = p := by
  rw [firstPart, splitOn_append h]
  rfl

theorem mem_joinOn {ps : List JsString} {u : UInt16} (h : u ∈ joinOn sep ps) : u = sep ∨ ∃ p ∈ ps, u ∈ p := by
  induction ps with
  | nil => cases h
  | cons p ps ih =>
      cases ps with
      | nil => exact .inr ⟨p, List.mem_cons_self .., h⟩
      | cons q ps =>
          rcases List.mem_append.mp h with h | h
          · exact .inr ⟨p, List.mem_cons_self .., h⟩
          · rcases List.mem_cons.mp h with h | h
            · exact .inl h
            · exact (ih h).imp id fun ⟨r, hr, hu⟩ => ⟨r, List.mem_cons_of_mem _ hr, hu⟩

end Js
end VpnPi
