import Mathlib.Data.Int.Log
import Mathlib.Data.Rat.Floor
import VpnPi.Js.Value

/-!
# `Js.Double` — arithmetic on durations

Durations come from configuration as doubles and are multiplied by 1000 before they meet a clock reading.
`roundDouble` is the IEEE 754 rounding of an exact result to 53 significant bits, ties to even. It does not
overflow: a result past the largest double stays a rational that large, and every comparison with a clock
reading and every conversion to a date then decides as it does for `Infinity`. A number itself is read from
the digits it prints as, which compare with an integer as the number does.

Names nothing of the daemon.
-/

namespace VpnPi
namespace Js

/-- The nearest integer, the even one of two equally near. -/
def roundHalfEven (q : ℚ) : ℤ :=
  let f := ⌊q⌋
  if q - f < 1 / 2 then f
  else if 1 / 2 < q - f then f + 1
  else if f % 2 = 0 then f
  else f + 1

theorem roundHalfEven_intCast (n : ℤ) : roundHalfEven n = n := by
  unfold roundHalfEven
  simp only [Int.floor_intCast, sub_self]
  exact if_pos (by norm_num)

/-- The weight of the last of the 53 significant bits. -/
def ulp (q : ℚ) : ℚ := 2 ^ (Int.log 2 |q| - 52)

theorem ulp_pos (q : ℚ) : 0 < ulp q := zpow_pos (by norm_num) _

def roundDouble (q : ℚ) : ℚ := if q = 0 then 0 else roundHalfEven (q / ulp q) * ulp q

/-- Integers below `2 ^ 53` are doubles. -/
theorem roundDouble_intCast {n : ℤ} (h : |n| < 2 ^ 53) : roundDouble n = n := by
  unfold roundDouble
  split
  · next h0 => exact h0.symm
  · next h0 =>
      have hpos : (0 : ℚ) < |(n : ℚ)| := abs_pos.mpr h0
      have hlog : Int.log 2 |(n : ℚ)| < 53 := by
        rw [← Int.lt_zpow_iff_log_lt (by norm_num) hpos, ← Int.cast_abs]
        exact_mod_cast h
      obtain ⟨k, hk⟩ : ∃ k : ℕ, Int.log 2 |(n : ℚ)| - 52 = -k :=
        ⟨(52 - Int.log 2 |(n : ℚ)|).toNat, by omega⟩
      have hulp : ulp n = (2 ^ k)⁻¹ := by rw [ulp, hk, zpow_neg, zpow_natCast]
      have hdiv : (n : ℚ) / ulp n = ((n * 2 ^ k : ℤ) : ℚ) := by
        rw [hulp, div_inv_eq_mul]; push_cast; rfl
      rw [hdiv, roundHalfEven_intCast, ← hdiv, div_mul_cancel₀ _ (ulp_pos _).ne']

/-- `x * 1000` on a double. -/
def millis (seconds : ℚ) : ℚ := roundDouble (seconds * 1000)

/-- The integer part, which `new Date` keeps of its argument. -/
def truncate (q : ℚ) : ℤ := if 0 ≤ q then ⌊q⌋ else ⌈q⌉

/-- `new Date(now.getTime() + seconds * 1000)`; `none` is the invalid date. -/
def Instant.addSeconds (now : Instant) (seconds : ℚ) : Option Instant :=
  Instant.ofMs (truncate (roundDouble (now.ms + millis seconds)))

theorem truncate_intCast (n : ℤ) : truncate n = n := by
  unfold truncate
  rw [Int.floor_intCast, Int.ceil_intCast, ite_self]

/-- Whole seconds add exactly. -/
theorem Instant.addSeconds_intCast {now : Instant} {s : ℤ} (h : |s * 1000| < 2 ^ 53)
    (h' : |now.ms + s * 1000| < 2 ^ 53) :
    now.addSeconds s = Instant.ofMs (now.ms + s * 1000) := by
  have hmul : millis s = ((s * 1000 : ℤ) : ℚ) := by
    rw [millis, ← roundDouble_intCast h]; push_cast; rfl
  have hsum : (now.ms : ℚ) + ((s * 1000 : ℤ) : ℚ) = ((now.ms + s * 1000 : ℤ) : ℚ) := by push_cast; rfl
  rw [Instant.addSeconds, hmul, hsum, roundDouble_intCast h', truncate_intCast]

theorem roundHalfEven_nonneg {q : ℚ} (h : 0 ≤ q) : 0 ≤ roundHalfEven q := by
  have hfloor : 0 ≤ ⌊q⌋ := Int.floor_nonneg.mpr h
  unfold roundHalfEven
  dsimp only
  split_ifs
  all_goals omega

theorem roundDouble_nonneg {q : ℚ} (h : 0 ≤ q) : 0 ≤ roundDouble q := by
  unfold roundDouble
  split
  · exact le_refl 0
  · have hround := roundHalfEven_nonneg (div_nonneg h (ulp_pos q).le)
    exact mul_nonneg (by exact_mod_cast hround) (ulp_pos q).le

/-- Adding to a time since the epoch does not lead before the epoch. -/
theorem Instant.addSeconds_nonneg {now later : Instant} {s : ℚ} (h0 : 0 ≤ now.ms) (hs : 0 ≤ s)
    (h : now.addSeconds s = some later) : 0 ≤ later.ms := by
  have hmillis : 0 ≤ millis s := roundDouble_nonneg (by positivity)
  have hsum : 0 ≤ roundDouble (now.ms + millis s) := roundDouble_nonneg (add_nonneg (by exact_mod_cast h0) hmillis)
  unfold Instant.addSeconds Instant.ofMs at h
  split at h
  · obtain rfl := Option.some.inj h
    show 0 ≤ truncate _
    rw [truncate, if_pos hsum]
    exact Int.floor_nonneg.mpr hsum
  · cases h

/-! ## The value of a number -/

/-- The exponent part of a numeral, if it has one. -/
def exponentValue : JsString → Int
  | [] => 0
  | _ :: s =>
      match s with
      | [] => 0
      | u :: s' =>
          if u = 0x2d then -digitsValue s'
          else if u = 0x2b then digitsValue s'
          else digitsValue s

def unsignedValue (s : JsString) : ℚ :=
  let whole := s.takeWhile isDigit
  match s.dropWhile isDigit with
  | [] => digitsValue whole
  | u :: r =>
      if u = 0x2e then
        let fraction := r.takeWhile isDigit
        (digitsValue whole + digitsValue fraction / 10 ^ fraction.length)
          * 10 ^ exponentValue (r.dropWhile isDigit)
      else digitsValue whole * 10 ^ exponentValue (u :: r)

/-- The number a numeral writes. -/
def numeralValue (s : JsString) : ℚ :=
  match s with
  | [] => 0
  | u :: s' => if u = 0x2d then -unsignedValue s' else unsignedValue s

/-- `x < q`. -/
def Number.lt (x : Number) (q : ℚ) : Bool :=
  match x with
  | .finite t _ => numeralValue t < q
  | .infinite negative => negative

theorem unsignedValue_natText (n : ℕ) : unsignedValue (natText n) = n := by
  have hd := natText_digits n
  have htake : (natText n).takeWhile isDigit = natText n := List.takeWhile_eq_self_iff.mpr hd
  have hdrop : (natText n).dropWhile isDigit = [] := List.dropWhile_eq_nil_iff.mpr hd
  unfold unsignedValue
  simp only [hdrop, htake, digitsValue_natText]

theorem numeralValue_intText (n : ℤ) : numeralValue (intText n) = n := by
  unfold intText
  split
  · next h =>
      show (if (0x2d : UInt16) = 0x2d then -unsignedValue (natText n.natAbs)
        else unsignedValue (0x2d :: natText n.natAbs)) = n
      have habs : (n.natAbs : ℤ) = -n := by omega
      rw [if_pos rfl, unsignedValue_natText, ← Int.cast_natCast, habs, Int.cast_neg, neg_neg]
  · next h =>
      obtain ⟨u, s, hs⟩ := List.exists_cons_of_ne_nil (natText_ne_nil n.natAbs)
      have hu : u ≠ 0x2d := by
        have := natText_digits n.natAbs u (hs ▸ List.mem_cons_self ..)
        rintro rfl
        exact absurd this (by decide)
      have hval : numeralValue (natText n.natAbs) = unsignedValue (natText n.natAbs) := by
        rw [hs, numeralValue]
        exact if_neg hu
      have habs : (n.natAbs : ℤ) = n := by omega
      rw [hval, unsignedValue_natText, ← Int.cast_natCast, habs]

theorem Number.lt_ofInt {n : ℤ} {q : ℚ} : (Number.ofInt n).lt q = true ↔ (n : ℚ) < q := by
  show decide (numeralValue (intText n) < q) = true ↔ _
  rw [numeralValue_intText, decide_eq_true_eq]

end Js
end VpnPi
