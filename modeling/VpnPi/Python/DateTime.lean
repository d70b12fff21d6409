import Mathlib.Algebra.Ring.Nat
import Mathlib.Data.List.Lex
import Mathlib.Order.Lattice
import VpnPi.Python.Json

/-!
# `Python.DateTime` — times in UTC and their ISO texts

`datetime` compares two times in UTC field by field. `isoformat` writes every field with a fixed number of digits, but
leaves out a fraction of zero; what follows the seconds then is the `+` of the offset, which sorts before the point of a
fraction. So the texts sort as the times do (`isoformat_lt_iff`).

Names nothing of the daemon.
-/

namespace VpnPi
namespace Python

/-! ## Fixed numbers of digits -/

/-- `f"{n:0{w}d}"`, for `n < 10 ** w`. -/
def padded : Nat → Nat → Str
  | 0, _ => []
  | w + 1, n => padded w (n / 10) ++ [0x30 + n % 10]

theorem padded_append_lt_iff {w a b : Nat} {x y : Str} (ha : a < 10 ^ w) (hb : b < 10 ^ w) :
    padded w a ++ x < padded w b ++ y ↔ a < b ∨ a = b ∧ x < y := by
  induction w generalizing a b x y with
  | zero =>
      obtain rfl : a = 0 := by simpa using ha
      obtain rfl : b = 0 := by simpa using hb
      simp [padded]
  | succ w ih =>
      rw [Nat.pow_succ] at ha hb
      have ha' : a / 10 < 10 ^ w := Nat.div_lt_of_lt_mul (by omega)
      have hb' : b / 10 < 10 ^ w := Nat.div_lt_of_lt_mul (by omega)
      rw [padded, padded, List.append_assoc, List.append_assoc, ih ha' hb', List.singleton_append, List.singleton_append,
        List.cons_lt_cons_iff]
      by_cases h : x < y
      · simp only [h, and_true]
        omega
      · simp only [h, and_false, or_false]
        omega

/-- One field, and what comes after it and its separator. -/
theorem field_lt_iff {w a b sep : Nat} {x y : Str} {as bs : List Nat} (ha : a < 10 ^ w) (hb : b < 10 ^ w)
    (h : as < bs ↔ x < y) : a :: as < b :: bs ↔ padded w a ++ sep :: x < padded w b ++ sep :: y := by
  rw [padded_append_lt_iff ha hb, List.cons_lt_cons_iff, List.cons_lt_cons_iff, h]
  simp

/-! ## `datetime` -/

/-- A `datetime` with `tzinfo=timezone.utc`. -/
structure DateTime where
  year        : Nat
  month       : Nat
  day         : Nat
  hour        : Nat
  minute      : Nat
  second      : Nat
  microsecond : Nat
  year_le        : year ≤ 9999
  month_le       : month ≤ 12
  day_le         : day ≤ 31
  hour_lt        : hour < 24
  minute_lt      : minute < 60
  second_lt      : second < 60
  microsecond_lt : microsecond < 1000000
  deriving DecidableEq

namespace DateTime

/-- What two times are compared by. -/
def fields (t : DateTime) : List Nat := [t.year, t.month, t.day, t.hour, t.minute, t.second, t.microsecond]

/-- The fraction of a second, and the offset. -/
def fraction (t : DateTime) : Str :=
  (if t.microsecond = 0 then [] else 0x2e :: padded 6 t.microsecond) ++ lit "+00:00"

def isoformat (t : DateTime) : Str :=
  padded 4 t.year ++ 0x2d :: (padded 2 t.month ++ 0x2d :: (padded 2 t.day ++ 0x54 :: (padded 2 t.hour ++ 0x3a ::
    (padded 2 t.minute ++ 0x3a :: (padded 2 t.second ++ t.fraction)))))

theorem fields_inj {t u : DateTime} (h : t.fields = u.fields) : t = u := by
  cases t
  cases u
  simpa [fields] using h

theorem fraction_lt_iff {t u : DateTime} : [t.microsecond] < [u.microsecond] ↔ t.fraction < u.fraction := by
  unfold fraction
  by_cases ht : t.microsecond = 0
  · by_cases hu : u.microsecond = 0
    · simp [ht, hu]
    · -- the offset of the one against the point of the other
      rw [if_pos ht, if_neg hu, List.nil_append, List.cons_append, lit]
      simp [ht, Nat.pos_of_ne_zero hu, List.cons_lt_cons_iff]
  · by_cases hu : u.microsecond = 0
    · rw [if_neg ht, if_pos hu, List.nil_append, List.cons_append, lit]
      simp [hu, List.cons_lt_cons_iff]
    · have hdigits : padded 6 t.microsecond ++ lit "+00:00" < padded 6 u.microsecond ++ lit "+00:00" ↔
          t.microsecond < u.microsecond := by
        rw [padded_append_lt_iff t.microsecond_lt u.microsecond_lt]
        simp
      rw [if_neg ht, if_neg hu, List.cons_append, List.cons_append, List.cons_lt_cons_iff, List.cons_lt_cons_iff, hdigits]
      simp

/-- **The texts sort as the times do.** -/
theorem isoformat_lt_iff {t u : DateTime} : t.isoformat < u.isoformat ↔ t.fields < u.fields := by
  have hyear {t : DateTime} : t.year < 10 ^ 4 := Nat.lt_succ_of_le t.year_le
  have hmonth {t : DateTime} : t.month < 10 ^ 2 := Nat.lt_of_le_of_lt t.month_le (by decide)
  have hday {t : DateTime} : t.day < 10 ^ 2 := Nat.lt_of_le_of_lt t.day_le (by decide)
  have hhour {t : DateTime} : t.hour < 10 ^ 2 := Nat.lt_trans t.hour_lt (by decide)
  have hminute {t : DateTime} : t.minute < 10 ^ 2 := Nat.lt_trans t.minute_lt (by decide)
  have hsecond {t : DateTime} : t.second < 10 ^ 2 := Nat.lt_trans t.second_lt (by decide)
  have hlast : [t.second, t.microsecond] < [u.second, u.microsecond] ↔
      padded 2 t.second ++ t.fraction < padded 2 u.second ++ u.fraction := by
    rw [padded_append_lt_iff hsecond hsecond, List.cons_lt_cons_iff, fraction_lt_iff]
  refine Iff.symm ?_
  apply field_lt_iff hyear hyear
  apply field_lt_iff hmonth hmonth
  apply field_lt_iff hday hday
  apply field_lt_iff hhour hhour
  apply field_lt_iff hminute hminute
  exact hlast

theorem isoformat_inj {t u : DateTime} (h : t.isoformat = u.isoformat) : t = u := by
  apply fields_inj
  apply le_antisymm
  · exact not_lt.mp fun hlt => absurd h.symm (ne_of_lt (isoformat_lt_iff.mpr hlt))
  · exact not_lt.mp fun hlt => absurd h (ne_of_lt (isoformat_lt_iff.mpr hlt))

end DateTime

end Python
end VpnPi
