import VpnPi.Island.Canonical
import VpnPi.Python.Json

/-!
# `Island.PythonSigner` — the same bytes as the Python signer (`app/ids_crypto.py`)

`core/canonical.ts` prints from UTF-16 units what `json.dumps` prints from code points. On values both languages
have (`Portable`) the two texts are one:

* `encodeString_eq` — unit by unit, a pair of surrogates at a time, for well-formed text;
* `sortItems_eq` — keys without surrogates sort alike in both orders;
* `canonicalBytes_eq_python` — the signed bytes are equal, at any depth.
-/

namespace VpnPi
namespace Island

open Js

/-! ## `_canonical` -/

/-- `_canonical(payload)`. -/
def pyCanonical (payload : Python.Obj) : Bytes := Python.encodeUtf8 (Python.dumps payload)

/-! ## One value in both languages -/

/-- `Number.isSafeInteger`. -/
def SafeInteger (n : Int) : Prop := -9007199254740991 ≤ n ∧ n ≤ 9007199254740991

def NoSurrogates (s : JsString) : Prop := ∀ u ∈ s, isHighSurrogate u = false ∧ isLowSurrogate u = false

mutual
/-- Numbers are safe integers, text is well formed, and keys are without surrogates. -/
def Portable : Value → Prop
  | .undefined => False
  | .null | .bool _ => True
  | .num x => ∃ n, SafeInteger n ∧ x = .ofInt n
  | .str s => WellFormed s
  | .arr xs => PortableList xs
  | .obj es => (es.map Prod.fst).Nodup ∧ PortableFields es

def PortableList : List Value → Prop
  | [] => True
  | x :: xs => Portable x ∧ PortableList xs

def PortableFields : List (JsString × Value) → Prop
  | [] => True
  | (k, v) :: es => NoSurrogates k ∧ Portable v ∧ PortableFields es
end

mutual
/-- What `json.loads` makes of the value. -/
def toPython : Value → Python.Obj
  | .undefined | .null => .none
  | .bool b => .bool b
  | .num x => .int (integerOf x.text)
  | .str s => .str (codePoints s)
  | .arr xs => .list (toPythonList xs)
  | .obj es => .dict (toPythonFields es)

def toPythonList : List Value → List Python.Obj
  | [] => []
  | x :: xs => toPython x :: toPythonList xs

def toPythonFields : List (JsString × Value) → List (Python.Str × Python.Obj)
  | [] => []
  | (k, v) :: es => (codePoints k, toPython v) :: toPythonFields es
end

/-! ## Text -/

/-- The units of an ASCII text of Python. -/
def units (s : Python.Str) : JsString := s.map UInt16.ofNat

@[simp] theorem units_append (s t : Python.Str) : units (s ++ t) = units s ++ units t := List.map_append

@[simp] theorem units_cons (n : Nat) (s : Python.Str) : units (n :: s) = UInt16.ofNat n :: units s := rfl

@[simp] theorem units_nil : units [] = [] := rfl

theorem ofNat_hexChar (n : Nat) : UInt16.ofNat (Python.hexChar n) = hexDigit n := by
  unfold Python.hexChar hexDigit
  split
  · rfl
  · rfl

theorem units_hex04 {n : Nat} {u : UInt16} (h : u.toNat = n) : units (Python.hex04 n) = hex4 u := by
  subst h
  simp only [Python.hex04, hex4, units_cons, units_nil, ofNat_hexChar]

/-- A unit is escaped as the code point of its number. -/
theorem encodeUnit_eq_escapePoint (u : UInt16) : encodeUnit u = units (Python.escapePoint u.toNat) := by
  have hnat : ∀ {c : UInt16}, u ≠ c → u.toNat ≠ c.toNat := fun hne heq => hne (UInt16.toNat_inj.mp heq)
  -- the short escapes are the same in both tables
  by_cases h1 : u = 0x22
  · subst h1; rfl
  by_cases h2 : u = 0x5c
  · subst h2; rfl
  by_cases h3 : u = 0x08
  · subst h3; rfl
  by_cases h4 : u = 0x09
  · subst h4; rfl
  by_cases h5 : u = 0x0a
  · subst h5; rfl
  by_cases h6 : u = 0x0c
  · subst h6; rfl
  by_cases h7 : u = 0x0d
  · subst h7; rfl
  unfold encodeUnit Python.escapePoint
  have n1 : ¬u.toNat = 0x22 := hnat h1
  have n2 : ¬u.toNat = 0x5c := hnat h2
  have n3 : ¬u.toNat = 0x08 := hnat h3
  have n4 : ¬u.toNat = 0x09 := hnat h4
  have n5 : ¬u.toNat = 0x0a := hnat h5
  have n6 : ¬u.toNat = 0x0c := hnat h6
  have n7 : ¬u.toNat = 0x0d := hnat h7
  rw [if_neg h1, if_neg h2, if_neg h3, if_neg h4, if_neg h5, if_neg h6, if_neg h7, if_neg n2, if_neg n1, if_neg n3,
    if_neg n6, if_neg n5, if_neg n7, if_neg n4]
  have hprintable : (u < 0x20 || 0x7f ≤ u) = true ↔ ¬(0x20 ≤ u.toNat ∧ u.toNat ≤ 0x7e) := by
    rw [Bool.or_eq_true, decide_eq_true_eq, decide_eq_true_eq, UInt16.lt_iff_toNat_lt, UInt16.le_iff_toNat_le]
    show u.toNat < 32 ∨ 127 ≤ u.toNat ↔ _
    omega
  by_cases hp : 0x20 ≤ u.toNat ∧ u.toNat ≤ 0x7e
  · rw [if_pos hp, if_neg (mt hprintable.mp (not_not_intro hp)), units_cons, units_nil, UInt16.ofNat_toNat]
  · rw [if_neg hp, if_pos (hprintable.mpr hp), if_pos u.toNat_lt, units_cons, units_cons, units_hex04 rfl]
    rfl

/-- A pair of surrogates is escaped half by half, as the code point it stands for. -/
theorem encodeUnit_pair {u l : UInt16} (h : (isHighSurrogate u && isLowSurrogate l) = true) :
    encodeUnit u ++ encodeUnit l
      = units (Python.escapePoint (0x10000 + (u.toNat - 0xd800) * 0x400 + (l.toNat - 0xdc00))) := by
  have hrange : (0xd800 ≤ u.toNat ∧ u.toNat ≤ 0xdbff) ∧ 0xdc00 ≤ l.toNat ∧ l.toNat ≤ 0xdfff := by
    simp only [isHighSurrogate, isLowSurrogate, Bool.and_eq_true, decide_eq_true_eq, UInt16.le_iff_toNat_le] at h
    exact h
  obtain ⟨⟨hu, hu'⟩, hl, hl'⟩ := hrange
  have hescape : ∀ c : UInt16, 0xd800 ≤ c.toNat → encodeUnit c = 0x5c :: 0x75 :: hex4 c := by
    intro c hc
    rw [encodeUnit_eq_escapePoint]
    unfold Python.escapePoint
    simp only [if_neg (show ¬c.toNat = 0x5c by omega), if_neg (show ¬c.toNat = 0x22 by omega),
      if_neg (show ¬c.toNat = 0x08 by omega), if_neg (show ¬c.toNat = 0x0c by omega),
      if_neg (show ¬c.toNat = 0x0a by omega), if_neg (show ¬c.toNat = 0x0d by omega),
      if_neg (show ¬c.toNat = 0x09 by omega), if_neg (show ¬(0x20 ≤ c.toNat ∧ c.toNat ≤ 0x7e) by omega),
      if_pos c.toNat_lt, units_cons, units_hex04 rfl]
    rfl
  generalize hn : 0x10000 + (u.toNat - 0xd800) * 0x400 + (l.toNat - 0xdc00) = n
  have hhigh : u.toNat = 0xd800 + (n - 0x10000) / 0x400 % 0x400 := by omega
  have hlow : l.toNat = 0xdc00 + (n - 0x10000) % 0x400 := by omega
  rw [hescape u hu, hescape l (by omega)]
  unfold Python.escapePoint
  simp only [if_neg (show ¬n = 0x5c by omega), if_neg (show ¬n = 0x22 by omega), if_neg (show ¬n = 0x08 by omega),
    if_neg (show ¬n = 0x0c by omega), if_neg (show ¬n = 0x0a by omega), if_neg (show ¬n = 0x0d by omega),
    if_neg (show ¬n = 0x09 by omega), if_neg (show ¬(0x20 ≤ n ∧ n ≤ 0x7e) by omega),
    if_neg (show ¬n < 0x10000 by omega), units_cons, units_append, units_hex04 hhigh, units_hex04 hlow, List.cons_append]
  rfl

theorem encodeBody_eq : ∀ {s : JsString}, WellFormed s → encodeBody s = units ((codePoints s).flatMap Python.escapePoint)
  | [], _ => rfl
  | [u], h => by
      have hunit : ¬(isHighSurrogate u || isLowSurrogate u) = true := by rw [h.1, h.2]; decide
      rw [codePoints, if_neg hunit]
      simp [encodeBody, encodeUnit_eq_escapePoint]
  | u :: l :: s, h => by
      rw [WellFormed] at h
      rw [codePoints]
      by_cases hpair : (isHighSurrogate u && isLowSurrogate l) = true
      · rw [if_pos hpair] at h
        have ih := encodeBody_eq h
        rw [encodeBody] at ih
        rw [if_pos hpair, List.flatMap_cons, units_append, ← encodeUnit_pair hpair, ← ih]
        simp [encodeBody]
      · rw [if_neg hpair] at h
        have ih := encodeBody_eq (s := l :: s) h.2
        have hunit : ¬(isHighSurrogate u || isLowSurrogate u) = true := by rw [h.1.1, h.1.2]; decide
        rw [encodeBody] at ih
        rw [if_neg hpair, if_neg hunit, List.flatMap_cons, units_append, ← encodeUnit_eq_escapePoint, ← ih]
        simp [encodeBody]

/-- **Well-formed text prints alike.** -/
theorem encodeString_eq {s : JsString} (h : WellFormed s) :
    encodeString s = units (Python.encodeBasestringAscii (codePoints s)) := by
  rw [encodeString, encodeBody_eq h, Python.encodeBasestringAscii]
  simp [units]

/-! ## Keys -/

theorem NoSurrogates.codePoints_eq : ∀ {s : JsString}, NoSurrogates s → codePoints s = s.map UInt16.toNat
  | [], _ => rfl
  | [u], h => by
      obtain ⟨hhigh, hlow⟩ := h u (List.mem_singleton_self u)
      rw [codePoints, hhigh, hlow]
      rfl
  | u :: l :: s, h => by
      obtain ⟨hhigh, hlow⟩ := h u (List.mem_cons_self ..)
      have hrest : NoSurrogates (l :: s) := fun c hc => h c (List.mem_cons_of_mem _ hc)
      rw [codePoints, hhigh, hlow, hrest.codePoints_eq]
      rfl

theorem NoSurrogates.wellFormed : ∀ {s : JsString}, NoSurrogates s → WellFormed s
  | [], _ => trivial
  | [u], h => h u (List.mem_singleton_self u)
  | u :: l :: s, h => by
      have hu := h u (List.mem_cons_self ..)
      have hrest : NoSurrogates (l :: s) := fun c hc => h c (List.mem_cons_of_mem _ hc)
      rw [WellFormed, hu.1]
      exact ⟨⟨rfl, hu.2⟩, hrest.wellFormed⟩

/-- By units or by code points: one order. -/
theorem keyLe_eq_strLe (s t : JsString) : keyLe s t = Python.strLe (s.map UInt16.toNat) (t.map UInt16.toNat) := by
  induction s generalizing t with
  | nil => rfl
  | cons a s ih =>
      cases t with
      | nil => rfl
      | cons b t =>
          have hlt : decide (a < b) = decide (a.toNat < b.toNat) := decide_eq_decide.mpr UInt16.lt_iff_toNat_lt
          have heq : decide (a = b) = decide (a.toNat = b.toNat) := decide_eq_decide.mpr UInt16.toNat_inj.symm
          rw [keyLe, List.map_cons, List.map_cons, Python.strLe, ih, hlt, heq]

/-- **Fields come in the same order** on both sides. -/
theorem sortItems_eq {α : Type} {es : List (JsString × α)} (h : ∀ e ∈ es, NoSurrogates e.1) :
    Python.sortItems (es.map fun e => (codePoints e.1, e.2)) = (sortFields es).map fun e => (codePoints e.1, e.2) := by
  refine (List.map_insertionSort _ _ _ es fun a ha b hb => ?_).symm
  rw [(h a ha).codePoints_eq, (h b hb).codePoints_eq, keyLe_eq_strLe]

/-! ## Values -/

theorem joinComma_units : ∀ ts : List Python.Str, joinComma (ts.map units) = units ([0x2c].intercalate ts)
  | [] => rfl
  | [t] => by simp [joinComma]
  | t :: t' :: ts => by
      have ih := joinComma_units (t' :: ts)
      rw [List.map_cons] at ih
      rw [List.map_cons, List.map_cons, joinComma, ih, List.intercalate_cons_cons, units_append, units_append,
        List.append_assoc]
      rfl

/-- A safe integer prints as in Python. -/
theorem intText_eq (n : Int) : intText n = units (Python.intRepr n) := by
  have hdigits : natText n.natAbs = units ((Nat.toDigits 10 n.natAbs).map Char.toNat) := by
    rw [natText, units, List.map_map]
    rfl
  unfold intText Python.intRepr
  split
  · rw [hdigits]
    rfl
  · exact hdigits

theorem toPythonFields_eq_map (es : List (JsString × Value)) :
    toPythonFields es = es.map fun e => (codePoints e.1, toPython e.2) := by
  induction es with
  | nil => rfl
  | cons e es ih => rw [toPythonFields, ih, List.map_cons]

theorem dumpsItems_eq_map (items : List (Python.Str × Python.Obj)) :
    Python.dumpsItems items = items.map fun e => (e.1, Python.dumps e.2) := by
  induction items with
  | nil => rfl
  | cons e items ih => rw [Python.dumpsItems, ih, List.map_cons]

/-- The fields with the text of their values. -/
def printedFields (es : List (JsString × Value)) : List (JsString × Python.Str) :=
  es.map fun e => (e.1, Python.dumps (toPython e.2))

theorem printedFields_keys {es : List (JsString × Value)} (h : PortableFields es) :
    ∀ e ∈ printedFields es, NoSurrogates e.1 := by
  induction es with
  | nil => exact nofun
  | cons e es ih => exact List.forall_mem_cons.mpr ⟨h.1, ih h.2.2⟩

mutual
/-- The text of `canonicalize` is the text of `dumps`. -/
theorem canonicalize_eq_dumps : ∀ v : Value, Portable v → canonicalize v = .ok (units (Python.dumps (toPython v)))
  | .undefined, h => h.elim
  | .null, _ => rfl
  | .bool true, _ => rfl
  | .bool false, _ => rfl
  | .num x, h => by
      obtain ⟨n, -, rfl⟩ := h
      show Except.ok (intText n) = .ok (units (Python.intRepr (integerOf (intText n))))
      rw [integerOf_intText, intText_eq]
  | .str s, h => congrArg Except.ok (encodeString_eq h)
  | .arr xs, h => by
      rw [canonicalize, encode, encodeList_eq_dumps xs h, sequence_map_ok units]
      show Except.ok (0x5b :: joinComma _ ++ [0x5d]) = .ok (units (0x5b :: _ ++ [0x5d]))
      rw [joinComma_units, units_append, units_cons]
      rfl
  | .obj es, h => by
      obtain ⟨-, h⟩ := h
      have hkeys := printedFields_keys h
      have hpython : Python.sortItems (Python.dumpsItems (toPythonFields es))
          = (sortFields (printedFields es)).map fun e => (codePoints e.1, e.2) := by
        rw [dumpsItems_eq_map, toPythonFields_eq_map, ← sortItems_eq hkeys, printedFields, List.map_map, List.map_map]
        rfl
      have hsource : (sortFields (encodeFields es)).map (fun e => e.2.map fun t => encodeString e.1 ++ 0x3a :: t)
          = ((sortFields (printedFields es)).map fun e =>
              Python.encodeBasestringAscii (codePoints e.1) ++ 0x3a :: e.2).map fun t => .ok (units t) := by
        rw [encodeFields_eq_dumps es h, sortFields_map fun t => Except.ok (units t), List.map_map, List.map_map]
        refine List.map_congr_left fun e he => ?_
        have hkey := encodeString_eq (hkeys e (mem_sortFields.mp he)).wellFormed
        simp [Except.map, hkey]
      rw [canonicalize, encode, hsource, sequence_map_ok units]
      show Except.ok (0x7b :: joinComma _ ++ [0x7d]) = .ok (units (0x7b :: _ ++ [0x7d]))
      rw [joinComma_units, hpython, List.map_map, units_append, units_cons]
      rfl

theorem encodeList_eq_dumps : ∀ xs : List Value, PortableList xs →
    encodeList xs = (Python.dumpsList (toPythonList xs)).map fun t => .ok (units t)
  | [], _ => rfl
  | x :: xs, h => by
      have hx := canonicalize_eq_dumps x h.1
      rw [canonicalize] at hx
      rw [encodeList, hx, encodeList_eq_dumps xs h.2]
      rfl

theorem encodeFields_eq_dumps : ∀ es : List (JsString × Value), PortableFields es →
    encodeFields es = (printedFields es).map fun e => (e.1, .ok (units e.2))
  | [], _ => rfl
  | (k, v) :: es, h => by
      have hv := canonicalize_eq_dumps v h.2.1
      rw [canonicalize] at hv
      rw [encodeFields, hv, encodeFields_eq_dumps es h.2.2]
      rfl
end

/-! ## Bytes -/

/-- **Byte-identity with the Python signer**: the bytes that one side signs are those that the other verifies. -/
theorem canonicalBytes_eq_python (v : Value) (h : Portable v) : canonicalBytes v = .ok (pyCanonical (toPython v)) := by
  have hascii := Python.dumps_ascii (toPython v)
  have hunits : (units (Python.dumps (toPython v))).map UInt16.toNat = Python.dumps (toPython v) := by
    rw [units, List.map_map]
    refine (List.map_congr_left fun c hc => ?_).trans (List.map_id _)
    have hlt := hascii c hc
    show (UInt16.ofNat c).toNat = c
    rw [UInt16.toNat_ofNat']
    omega
  have hpoints : codePoints (units (Python.dumps (toPython v))) = Python.dumps (toPython v) := by
    rw [NoSurrogates.codePoints_eq, hunits]
    intro u hu
    obtain ⟨c, hc, rfl⟩ := List.mem_map.mp hu
    apply notSurrogate_of_ascii
    have hlt := hascii c hc
    rw [UInt16.toNat_ofNat']
    omega
  rw [canonicalBytes, canonicalize_eq_dumps v h]
  show Except.ok ((codePoints _).flatMap encodePoint) = _
  rw [hpoints]
  rfl

/-- A payload with an astral character, `DEL`, and keys out of order. -/
def payload : Value :=
  .obj [(js "seq", .arr [.num (.ofInt 3), .num (.ofInt (-2))]), (js "msg", .str [0xe9, 0x7f, 0xd83d, 0xde00, 0x2f])]

theorem payload_portable : Portable payload := by
  refine ⟨by decide, ?_, ⟨⟨3, ?_, rfl⟩, ⟨-2, ?_, rfl⟩, trivial⟩, ?_, ?_, trivial⟩
  · exact fun u hu => notSurrogate_of_ascii (IsAscii.of_all (s := js "seq") (by decide) u hu)
  · unfold SafeInteger; decide
  · unfold SafeInteger; decide
  · exact fun u hu => notSurrogate_of_ascii (IsAscii.of_all (s := js "msg") (by decide) u hu)
  · exact ⟨⟨rfl, rfl⟩, ⟨rfl, rfl⟩, rfl, rfl⟩

theorem payload_signed_alike : canonicalBytes payload
    = .ok (Python.encodeUtf8 (Python.lit "\x7b\"msg\":\"\\u00e9\\u007f\\ud83d\\ude00/\",\"seq\":[3,-2]\x7d")) := by
  have htext : Python.dumps (toPython payload)
      = Python.lit "\x7b\"msg\":\"\\u00e9\\u007f\\ud83d\\ude00/\",\"seq\":[3,-2]\x7d" := by decide +kernel
  rw [canonicalBytes_eq_python payload payload_portable, pyCanonical, htext]

end Island
end VpnPi
