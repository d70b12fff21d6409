import Mathlib.Data.List.TakeWhile
import VpnPi.Js.Text

/-!
# `Js.Number` — numbers, and the numerals of integers

A number is kept by what the program can see of it: the digits `String(x)` prints (two numbers that print
alike are equal; `-0` prints, and compares, as `0`) and whether `Number.isInteger` holds. `intText` is what
an integer of at most 53 bits prints as; it is a numeral (`isJsonNumber_intText`) whose digits give the
integer back (`digitsValue_natText`).

Names nothing of the daemon.
-/

namespace VpnPi
namespace Js

inductive Number where
  | finite (text : JsString) (isInteger : Bool)
  | infinite (negative : Bool)
  deriving DecidableEq

namespace Number

def isInteger : Number → Bool
  | finite _ i => i
  | infinite _ => false

/-- `String(x)`. -/
def text : Number → JsString
  | finite t _ => t
  | infinite false => js "Infinity"
  | infinite true => js "-Infinity"

def one : Number := finite (js "1") true

end Number

def isDigit (u : UInt16) : Bool := 0x30 ≤ u && u ≤ 0x39

/-- The units a numeral consists of: digits, `+`, `-`, `.`, `e`, `E`. -/
def isNumUnit (u : UInt16) : Bool :=
  isDigit u || u = 0x2b || u = 0x2d || u = 0x2e || u = 0x65 || u = 0x45

/-- An optional exponent, up to the end. -/
def isExponent : JsString → Bool
  | [] => true
  | e :: s =>
      let digits := match s with
        | [] => []
        | u :: s' => if u = 0x2b ∨ u = 0x2d then s' else s
      (e = 0x65 || e = 0x45) && !digits.isEmpty && digits.all isDigit

/-- An optional fraction, then an optional exponent, up to the end. -/
def isFraction : JsString → Bool
  | [] => true
  | u :: s =>
      if u = 0x2e then
        match s with
        | [] => false
        | d :: s' => isDigit d && isExponent (s'.dropWhile isDigit)
      else isExponent (u :: s)

/-- The numeral without its sign: no leading zero before another digit. -/
def isUnsigned : JsString → Bool
  | [] => false
  | u :: s =>
      if u = 0x30 then isFraction s
      else isDigit u && isFraction (s.dropWhile isDigit)

/-- The JSON grammar's `number`. -/
def isJsonNumber (s : JsString) : Bool :=
  s.all isNumUnit &&
    match s with
    | [] => false
    | u :: s' => if u = 0x2d then isUnsigned s' else isUnsigned s

/-! ## Integers -/

def natText (n : Nat) : JsString := (Nat.toDigits 10 n).map fun c => UInt16.ofNat c.toNat

/-- `String(n)`, for an integer of at most 53 bits. -/
def intText (n : Int) : JsString := if n < 0 then 0x2d :: natText n.natAbs else natText n.natAbs

def Number.ofInt (n : Int) : Number := .finite (intText n) true

/-- The number a string of digits writes. -/
def digitsValue (s : JsString) : Nat := s.foldl (fun a u => a * 10 + (u.toNat - 0x30)) 0

/-- The integer a numeral without fraction and exponent denotes. -/
def integerOf : JsString → Int
  | [] => 0
  | u :: s => if u = 0x2d then -(digitsValue s : Int) else digitsValue (u :: s)

theorem natText_ne_nil (n : Nat) : natText n ≠ [] := by
  unfold natText
  simp

/-- A number below ten thousand million has at most ten digits. -/
theorem length_natText_le {n : Nat} (h : n < 10000000000) : (natText n).length ≤ 10 := by
  rw [natText, List.length_map]
  exact (Nat.length_toDigits_le_iff (by decide) (by decide)).mpr h

theorem toNat_of_isDigit {c : Char} (h : c.isDigit = true) : 48 ≤ c.toNat ∧ c.toNat ≤ 57 := by
  simp only [Char.isDigit, Bool.and_eq_true, decide_eq_true_eq] at h
  exact h

theorem toNat_ofNat_digit {c : Char} (h : c.isDigit = true) :
    (UInt16.ofNat c.toNat).toNat = c.toNat := by
  have := (toNat_of_isDigit h).2
  rw [UInt16.toNat_ofNat']
  omega

theorem isDigit_ofNat {c : Char} (h : c.isDigit = true) : isDigit (UInt16.ofNat c.toNat) = true := by
  have hc := toNat_of_isDigit h
  have hn := toNat_ofNat_digit h
  simp only [isDigit, UInt16.le_iff_toNat_le, hn, Bool.and_eq_true, decide_eq_true_eq]
  exact hc

theorem natText_digits (n : Nat) : ∀ u ∈ natText n, isDigit u = true := by
  intro u hu
  obtain ⟨c, hc, rfl⟩ := List.mem_map.mp hu
  exact isDigit_ofNat (Nat.isDigit_of_mem_toDigits (by decide) (by decide) hc)

/-- **Digits back to the integer.** -/
theorem digitsValue_natText (n : Nat) : digitsValue (natText n) = n := by
  have hmap : digitsValue (natText n) = Nat.ofDigitChars 10 (Nat.toDigits 10 n) 0 := by
    rw [digitsValue, natText, List.foldl_map, Nat.ofDigitChars_eq_foldl]
    refine List.foldl_ext _ _ _ (fun a c hc => ?_)
    rw [toNat_ofNat_digit (Nat.isDigit_of_mem_toDigits (by decide) (by decide) hc), Nat.mul_comm]
    rfl
  rw [hmap, Nat.ofDigitChars_ten_toDigits]

theorem integerOf_intText (n : Int) : integerOf (intText n) = n := by
  unfold intText
  split
  · next h =>
      rw [integerOf, if_pos rfl, digitsValue_natText]
      omega
  · next h =>
      obtain ⟨u, s, hs⟩ := List.exists_cons_of_ne_nil (natText_ne_nil n.natAbs)
      have hu : u ≠ 0x2d := by
        rintro rfl
        exact absurd (natText_digits n.natAbs 0x2d (hs ▸ List.mem_cons_self ..)) (by decide)
      rw [hs, integerOf, if_neg hu, ← hs, digitsValue_natText]
      omega

/-- Only zero starts with a zero. -/
theorem natText_head {n : Nat} (h : 0 < n) : ∃ u s, natText n = u :: s ∧ u ≠ 0x30 := by
  induction n using Nat.strongRecOn with
  | ind n ih =>
      by_cases hn : n < 10
      · refine ⟨UInt16.ofNat n.digitChar.toNat, [], ?_, ?_⟩
        · rw [natText, Nat.toDigits_of_lt_base hn]
          rfl
        · rw [Nat.toNat_digitChar_of_lt_ten hn]
          intro hu
          have := congrArg UInt16.toNat hu
          rw [UInt16.toNat_ofNat'] at this
          have h30 : (0x30 : UInt16).toNat = 48 := rfl
          omega
      · obtain ⟨u, s, hs, hu⟩ := ih (n / 10) (by omega) (by omega)
        refine ⟨u, s ++ [UInt16.ofNat (Nat.digitChar (n % 10)).toNat], ?_, hu⟩
        rw [natText, Nat.toDigits_of_base_le (by decide) (by omega), List.map_append]
        show natText (n / 10) ++ _ = _
        rw [hs]
        rfl

theorem isUnsigned_natText (n : Nat) : isUnsigned (natText n) = true := by
  rcases Nat.eq_zero_or_pos n with rfl | hn
  · decide
  · obtain ⟨u, s, hs, hu⟩ := natText_head hn
    have hd := natText_digits n
    rw [hs] at hd ⊢
    have hrest : s.dropWhile isDigit = [] := by
      rw [List.dropWhile_eq_nil_iff]
      exact fun v hv => hd v (List.mem_cons_of_mem _ hv)
    rw [isUnsigned, if_neg hu, hd u (List.mem_cons_self ..), hrest]
    rfl

theorem isNumUnit_of_isDigit {u : UInt16} (h : isDigit u = true) : isNumUnit u = true := by
  unfold isNumUnit
  simp [h]

/-- **An integer prints as a numeral.** -/
theorem isJsonNumber_intText (n : Int) : isJsonNumber (intText n) = true := by
  have hunits : ∀ u ∈ natText n.natAbs, isNumUnit u = true :=
    fun u hu => isNumUnit_of_isDigit (natText_digits _ u hu)
  unfold isJsonNumber intText
  split
  · next h =>
      simp only [List.all_cons, Bool.and_eq_true, List.all_eq_true, if_true]
      exact ⟨⟨by decide, hunits⟩, isUnsigned_natText _⟩
  · next h =>
      obtain ⟨u, s, hs⟩ := List.exists_cons_of_ne_nil (natText_ne_nil n.natAbs)
      have hu : u ≠ 0x2d := by
        have := natText_digits n.natAbs u (hs ▸ List.mem_cons_self ..)
        rintro rfl
        exact absurd this (by decide)
      have hun := isUnsigned_natText n.natAbs
      rw [hs] at hun hunits ⊢
      simp only [Bool.and_eq_true, List.all_eq_true, if_neg hu]
      exact ⟨hunits, hun⟩

end Js
end VpnPi
