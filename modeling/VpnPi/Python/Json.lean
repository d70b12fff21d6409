import Mathlib.Data.List.Sort
import VpnPi.Js.Utf8

/-!
# `Python.Json` — CPython's `json.dumps(v, sort_keys=True, separators=(",", ":"))`

Python text is a sequence of code points, not of UTF-16 units, and a dictionary is sorted by code point.
`ensure_ascii`, the default, escapes everything outside printable ASCII, and what lies beyond the Basic
Multilingual Plane as the two halves of a surrogate pair.

Names nothing of the daemon. Floats are left out.
-/

namespace VpnPi
namespace Python

open Js

/-- A `str`: its code points. -/
abbrev Str := List Nat

/-- An ASCII literal of the source. -/
def lit (s : String) : Str := s.toList.map Char.toNat

inductive Obj where
  | none
  | bool (b : Bool)
  | int (n : Int)
  | str (s : Str)
  | list (xs : List Obj)
  /-- The items of a dictionary, whose keys are distinct. -/
  | dict (items : List (Str × Obj))

/-! ## Strings -/

/-- A lowercase hexadecimal digit. -/
def hexChar (n : Nat) : Nat := if n < 10 then 0x30 + n else 0x57 + n

/-- `"{0:04x}".format(n)`, for `n < 0x10000`. -/
def hex04 (n : Nat) : Str := [hexChar (n / 4096), hexChar (n / 256 % 16), hexChar (n / 16 % 16), hexChar (n % 16)]

/-- One code point, as `py_encode_basestring_ascii` replaces it. -/
def escapePoint (n : Nat) : Str :=
  if n = 0x5c then [0x5c, 0x5c]
  else if n = 0x22 then [0x5c, 0x22]
  else if n = 0x08 then [0x5c, 0x62]
  else if n = 0x0c then [0x5c, 0x66]
  else if n = 0x0a then [0x5c, 0x6e]
  else if n = 0x0d then [0x5c, 0x72]
  else if n = 0x09 then [0x5c, 0x74]
  else if 0x20 ≤ n ∧ n ≤ 0x7e then [n]
  else if n < 0x10000 then 0x5c :: 0x75 :: hex04 n
  else
    -- the two halves share no bits with the bases they are or-ed with
    0x5c :: 0x75 :: hex04 (0xd800 + (n - 0x10000) / 0x400 % 0x400)
      ++ 0x5c :: 0x75 :: hex04 (0xdc00 + (n - 0x10000) % 0x400)

def encodeBasestringAscii (s : Str) : Str := 0x22 :: s.flatMap escapePoint ++ [0x22]

/-! ## Values -/

/-- `a <= b` for text. -/
def strLe : Str → Str → Bool
  | [], _ => true
  | _ :: _, [] => false
  | a :: as, b :: bs => a < b || (a = b && strLe as bs)

/-- `sorted(dct.items())`: no two keys are equal, so the values never decide. -/
def sortItems {α : Type} (items : List (Str × α)) : List (Str × α) :=
  items.insertionSort fun a b => strLe a.1 b.1

/-- `int.__repr__`. -/
def intRepr (n : Int) : Str :=
  if n < 0 then 0x2d :: (Nat.toDigits 10 n.natAbs).map Char.toNat else (Nat.toDigits 10 n.natAbs).map Char.toNat

mutual
def dumps : Obj → Str
  | .none => lit "null"
  | .bool b => if b then lit "true" else lit "false"
  | .int n => intRepr n
  | .str s => encodeBasestringAscii s
  | .list xs => 0x5b :: [0x2c].intercalate (dumpsList xs) ++ [0x5d]
  | .dict items =>
      0x7b :: [0x2c].intercalate ((sortItems (dumpsItems items)).map fun e => encodeBasestringAscii e.1 ++ 0x3a :: e.2)
        ++ [0x7d]

def dumpsList : List Obj → List Str
  | [] => []
  | x :: xs => dumps x :: dumpsList xs

def dumpsItems : List (Str × Obj) → List (Str × Str)
  | [] => []
  | (k, v) :: items => (k, dumps v) :: dumpsItems items
end

/-- `s.encode("utf-8")`, for text without surrogates. -/
def encodeUtf8 (s : Str) : Bytes := s.flatMap encodePoint

example : dumps (.dict [(lit "z", .list [.int 3, .int (-2)]), (lit "a", .str [0x63, 0xe9, 0x1f600])])
    = lit "\x7b\"a\":\"c\\u00e9\\ud83d\\ude00\",\"z\":[3,-2]\x7d" := by decide +kernel

/-! ## `ensure_ascii` -/

/-- Below `DEL`. -/
def Ascii (s : Str) : Prop := ∀ c ∈ s, c < 0x7f

theorem Ascii.append {s t : Str} (hs : Ascii s) (ht : Ascii t) : Ascii (s ++ t) := List.forall_mem_append.mpr ⟨hs, ht⟩

theorem Ascii.cons {c : Nat} {s : Str} (hc : c < 0x7f) (hs : Ascii s) : Ascii (c :: s) :=
  List.forall_mem_cons.mpr ⟨hc, hs⟩

theorem Ascii.nil : Ascii [] := nofun

theorem Ascii.of_all {s : Str} (h : s.all (fun c => c < 0x7f) = true) : Ascii s :=
  fun c hc => of_decide_eq_true (List.all_eq_true.mp h c hc)

theorem Ascii.intercalate : ∀ {ts : List Str}, (∀ t ∈ ts, Ascii t) → Ascii ([0x2c].intercalate ts)
  | [], _ => .nil
  | [t], h => by
      rw [List.intercalate_singleton]
      exact h t (List.mem_singleton_self t)
  | t :: t' :: ts, h => by
      obtain ⟨ht, hts⟩ := List.forall_mem_cons.mp h
      rw [List.intercalate_cons_cons]
      exact (ht.append (Ascii.cons (by decide) .nil)).append (Ascii.intercalate hts)

theorem hexChar_ascii {n : Nat} (h : n < 16) : hexChar n < 0x7f := by
  unfold hexChar
  split <;> omega

theorem hex04_ascii {n : Nat} (h : n < 0x10000) : Ascii (hex04 n) := by
  refine .cons (hexChar_ascii ?_) (.cons (hexChar_ascii ?_) (.cons (hexChar_ascii ?_) (.cons (hexChar_ascii ?_) .nil)))
  all_goals omega

theorem escapePoint_ascii (n : Nat) : Ascii (escapePoint n) := by
  unfold escapePoint
  -- the short escapes are fixed texts
  iterate 7
    split
    · exact .of_all (by decide)
  split
  · next hprintable => exact .cons (by omega) .nil
  split
  · next hbmp => exact .cons (by decide) (.cons (by decide) (hex04_ascii hbmp))
  · refine Ascii.append (.cons (by decide) (.cons (by decide) (hex04_ascii (by omega)))) ?_
    exact .cons (by decide) (.cons (by decide) (hex04_ascii (by omega)))

theorem encodeBasestringAscii_ascii (s : Str) : Ascii (encodeBasestringAscii s) := by
  refine .cons (by decide) (Ascii.append (fun c hc => ?_) (.cons (by decide) .nil))
  obtain ⟨n, -, hn⟩ := List.mem_flatMap.mp hc
  exact escapePoint_ascii n c hn

theorem intRepr_ascii (n : Int) : Ascii (intRepr n) := by
  have hdigits : Ascii ((Nat.toDigits 10 n.natAbs).map Char.toNat) := by
    intro c hc
    obtain ⟨d, hd, rfl⟩ := List.mem_map.mp hc
    have hrange := toNat_of_isDigit (Nat.isDigit_of_mem_toDigits (by decide) (by decide) hd)
    omega
  unfold intRepr
  split
  · exact .cons (by decide) hdigits
  · exact hdigits

mutual
/-- **Everything printed is ASCII.** -/
theorem dumps_ascii : ∀ v : Obj, Ascii (dumps v)
  | .none => .of_all (by decide)
  | .bool true => .of_all (by decide)
  | .bool false => .of_all (by decide)
  | .int n => intRepr_ascii n
  | .str s => encodeBasestringAscii_ascii s
  | .list xs => .cons (by decide) ((Ascii.intercalate (dumpsList_ascii xs)).append (.cons (by decide) .nil))
  | .dict items => by
      refine .cons (by decide) ((Ascii.intercalate fun t ht => ?_).append (.cons (by decide) .nil))
      obtain ⟨e, he, rfl⟩ := List.mem_map.mp ht
      have hvalue := dumpsItems_ascii items e ((List.mem_insertionSort _).mp he)
      exact (encodeBasestringAscii_ascii e.1).append (.cons (by decide) hvalue)

theorem dumpsList_ascii : ∀ xs : List Obj, ∀ t ∈ dumpsList xs, Ascii t
  | [] => nofun
  | x :: xs => List.forall_mem_cons.mpr ⟨dumps_ascii x, dumpsList_ascii xs⟩

theorem dumpsItems_ascii : ∀ items : List (Str × Obj), ∀ e ∈ dumpsItems items, Ascii e.2
  | [] => nofun
  | (_, v) :: items => List.forall_mem_cons.mpr ⟨dumps_ascii v, dumpsItems_ascii items⟩
end

end Python
end VpnPi
