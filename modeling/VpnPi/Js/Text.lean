import Mathlib.Data.List.Basic

/-!
# `Js.Text` — JavaScript strings

A JavaScript string is a sequence of UTF-16 code units; nothing forces surrogates to come in pairs, so
`JsString` is a plain list of units and every operation below is defined on all of them. The module holds
what the daemon's string handling rests on: the white space that `String.prototype.trim` and the regular
expression class `\s` share, splitting on it, and the four-digit `\uXXXX` escapes of both JSON printers.

Names nothing of the daemon.
-/

namespace VpnPi
namespace Js

/-- A string: its UTF-16 code units. -/
abbrev JsString := List UInt16

/-- A string literal of the source (all of them are in the Basic Multilingual Plane). -/
def js (s : String) : JsString := s.toList.map fun c => UInt16.ofNat c.toNat

/-- `a <= b` for strings: the order of `Array.prototype.sort`. -/
def keyLe : JsString → JsString → Bool
  | [], _ => true
  | _ :: _, [] => false
  | a :: as, b :: bs => a < b || (a = b && keyLe as bs)

theorem keyLe_total (s t : JsString) : keyLe s t = true ∨ keyLe t s = true := by
  induction s generalizing t with
  | nil => exact .inl rfl
  | cons a s ih =>
      cases t with
      | nil => exact .inr rfl
      | cons b t =>
          simp only [keyLe, Bool.or_eq_true, Bool.and_eq_true, decide_eq_true_eq]
          by_cases hab : a = b
          · subst hab
            exact (ih t).imp (fun h => .inr ⟨rfl, h⟩) fun h => .inr ⟨rfl, h⟩
          · exact (UInt16.lt_or_lt_of_ne hab).imp Or.inl Or.inl

theorem keyLe_trans {s t r : JsString} (h : keyLe s t = true) (h' : keyLe t r = true) : keyLe s r = true := by
  induction s generalizing t r with
  | nil => rfl
  | cons a s ih =>
      cases t with
      | nil => cases h
      | cons b t =>
          cases r with
          | nil => cases h'
          | cons c r =>
              simp only [keyLe, Bool.or_eq_true, Bool.and_eq_true, decide_eq_true_eq] at h h' ⊢
              rcases h with h | ⟨rfl, h⟩
              · rcases h' with h' | ⟨rfl, _⟩
                · exact .inl (UInt16.lt_trans h h')
                · exact .inl h
              · exact h'.imp id (And.imp_right (ih h))

theorem keyLe_antisymm {s t : JsString} (h : keyLe s t = true) (h' : keyLe t s = true) : s = t := by
  induction s generalizing t with
  | nil =>
      cases t with
      | nil => rfl
      | cons b t => cases h'
  | cons a s ih =>
      cases t with
      | nil => cases h
      | cons b t =>
          simp only [keyLe, Bool.or_eq_true, Bool.and_eq_true, decide_eq_true_eq] at h h'
          rcases h with h | ⟨rfl, h⟩
          · rcases h' with h' | ⟨rfl, _⟩
            · exact absurd (UInt16.lt_trans h h') (UInt16.lt_irrefl a)
            · exact absurd h (UInt16.lt_irrefl _)
          · rcases h' with h' | ⟨_, h'⟩
            · exact absurd h' (UInt16.lt_irrefl a)
            · rw [ih h h']

/-! ## White space -/

/-- `WhiteSpace` and `LineTerminator`: what `trim` strips and what `\s` matches. -/
def isSpace (u : UInt16) : Bool :=
  (0x09 ≤ u && u ≤ 0x0d) || u = 0x20 || u = 0xa0 || u = 0x1680 || (0x2000 ≤ u && u ≤ 0x200a)
    || u = 0x2028 || u = 0x2029 || u = 0x202f || u = 0x205f || u = 0x3000 || u = 0xfeff

def trimStart (s : JsString) : JsString := s.dropWhile isSpace

def trimEnd (s : JsString) : JsString := (s.reverse.dropWhile isSpace).reverse

/-- `String.prototype.trim`. -/
def trim (s : JsString) : JsString := trimEnd (trimStart s)

/-- `s.split(/\s+/)[0]`: everything before the first run of white space. -/
def splitSpaceFst (s : JsString) : JsString := s.takeWhile fun u => !isSpace u

/-- `s.split("\n")`. -/
def splitLines : JsString → List JsString
  | [] => [[]]
  | u :: s =>
      if u = 0x0a then [] :: splitLines s
      else
        match splitLines s with
        | [] => [[u]]
        | l :: ls => (u :: l) :: ls

theorem splitLines_append {l : JsString} (h : 0x0a ∉ l) (s : JsString) :
    splitLines (l ++ 0x0a :: s) = l :: splitLines s := by
  induction l with
  | nil => rw [List.nil_append, splitLines, if_pos rfl]
  | cons u l ih =>
      have hne : u ≠ 0x0a := fun hu => h (hu ▸ List.mem_cons_self ..)
      rw [List.cons_append, splitLines, if_neg hne, ih fun hm => h (List.mem_cons_of_mem _ hm)]

/-- Lines that were each ended by a newline. -/
theorem splitLines_flatMap {ls : List JsString} (h : ∀ l ∈ ls, 0x0a ∉ l) :
    splitLines (ls.flatMap fun l => l ++ [0x0a]) = ls ++ [[]] := by
  induction ls with
  | nil => rfl
  | cons l ls ih =>
      rw [List.flatMap_cons, List.append_assoc, List.singleton_append,
        splitLines_append (h l (List.mem_cons_self ..)), ih fun l hl => h l (List.mem_cons_of_mem _ hl)]
      rfl

/-! ## Hexadecimal escapes -/

/-- A lowercase hexadecimal digit. -/
def hexDigit (n : Nat) : UInt16 := if n < 10 then UInt16.ofNat (0x30 + n) else UInt16.ofNat (0x57 + n)

/-- The value of a hexadecimal digit of either case. -/
def hexValue (u : UInt16) : Option Nat :=
  let n := u.toNat
  if 0x30 ≤ n ∧ n ≤ 0x39 then some (n - 0x30)
  else if 0x61 ≤ n ∧ n ≤ 0x66 then some (n - 0x57)
  else if 0x41 ≤ n ∧ n ≤ 0x46 then some (n - 0x37)
  else none

/-- `code.toString(16).padStart(4, "0")`. -/
def hex4 (u : UInt16) : JsString :=
  [hexDigit (u.toNat / 4096), hexDigit (u.toNat / 256 % 16),
    hexDigit (u.toNat / 16 % 16), hexDigit (u.toNat % 16)]

/-- Four hexadecimal digits back to a code unit. -/
def ofHex4 (a b c d : UInt16) : Option UInt16 :=
  match hexValue a, hexValue b, hexValue c, hexValue d with
  | some a, some b, some c, some d => some (UInt16.ofNat (a * 4096 + b * 256 + c * 16 + d))
  | _, _, _, _ => none

theorem hexValue_hexDigit : ∀ n, n < 16 → hexValue (hexDigit n) = some n := by decide

theorem ofHex4_hex4 (u : UInt16) :
    ofHex4 (hexDigit (u.toNat / 4096)) (hexDigit (u.toNat / 256 % 16))
      (hexDigit (u.toNat / 16 % 16)) (hexDigit (u.toNat % 16)) = some u := by
  have hlt : u.toNat < 65536 := u.toNat_lt
  have h1 := hexValue_hexDigit (u.toNat / 4096) (by omega)
  have h2 := hexValue_hexDigit (u.toNat / 256 % 16) (by omega)
  have h3 := hexValue_hexDigit (u.toNat / 16 % 16) (by omega)
  have h4 := hexValue_hexDigit (u.toNat % 16) (by omega)
  simp only [ofHex4, h1, h2, h3, h4]
  rw [show u.toNat / 4096 * 4096 + u.toNat / 256 % 16 * 256 + u.toNat / 16 % 16 * 16 + u.toNat % 16
        = u.toNat by omega]
  rw [UInt16.ofNat_toNat]

end Js
end VpnPi
