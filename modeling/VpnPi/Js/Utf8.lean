import VpnPi.Js.JsonRoundTrip

/-!
# `Js.Utf8` — `TextEncoder` and `TextDecoder`

`utf8Encode` replaces a lone surrogate by U+FFFD and is otherwise UTF-8. `utf8Decode` is the lenient decoder
of the web platform: a malformed sequence becomes one U+FFFD for its longest valid prefix, the byte that
broke it is read again as a first byte, and a leading byte order mark is dropped. On text without lone
surrogates and without a byte order mark the decoder inverts the encoder (`utf8Decode_utf8Encode`).

Names nothing of the daemon.
-/

namespace VpnPi
namespace Js

abbrev Bytes := List UInt8

/-! ## Code points -/

/-- The scalar values of a string; a lone surrogate reads as U+FFFD. -/
def codePoints : JsString → List Nat
  | [] => []
  | [u] => [if isHighSurrogate u || isLowSurrogate u then 0xfffd else u.toNat]
  | u :: l :: s =>
      if isHighSurrogate u && isLowSurrogate l then
        (0x10000 + (u.toNat - 0xd800) * 0x400 + (l.toNat - 0xdc00)) :: codePoints s
      else (if isHighSurrogate u || isLowSurrogate u then 0xfffd else u.toNat) :: codePoints (l :: s)

def unitsOf (n : Nat) : JsString :=
  if n < 0x10000 then [UInt16.ofNat n]
  else [UInt16.ofNat (0xd800 + (n - 0x10000) / 0x400), UInt16.ofNat (0xdc00 + (n - 0x10000) % 0x400)]

/-! ## Encoding -/

def encodePoint (n : Nat) : Bytes :=
  if n < 0x80 then [UInt8.ofNat n]
  else if n < 0x800 then [UInt8.ofNat (0xc0 + n / 0x40), UInt8.ofNat (0x80 + n % 0x40)]
  else if n < 0x10000 then
    [UInt8.ofNat (0xe0 + n / 0x1000), UInt8.ofNat (0x80 + n / 0x40 % 0x40), UInt8.ofNat (0x80 + n % 0x40)]
  else
    [UInt8.ofNat (0xf0 + n / 0x40000), UInt8.ofNat (0x80 + n / 0x1000 % 0x40),
      UInt8.ofNat (0x80 + n / 0x40 % 0x40), UInt8.ofNat (0x80 + n % 0x40)]

/-- `new TextEncoder().encode(s)`. -/
def utf8Encode (s : JsString) : Bytes := (codePoints s).flatMap encodePoint

/-! ## Decoding -/

/-- The decoder between two bytes: how many continuation bytes it still needs, the value so far, and the
    range the next byte must lie in. -/
structure DecodeState where
  needed : Nat
  value  : Nat
  lower  : Nat
  upper  : Nat
  deriving DecidableEq

def DecodeState.start : DecodeState := ⟨0, 0, 0x80, 0xbf⟩

/-- Read a first byte: the scalar values it completes, and the state after it. -/
def firstByte (b : Nat) : List Nat × DecodeState :=
  if b < 0x80 then ([b], .start)
  else if 0xc2 ≤ b ∧ b ≤ 0xdf then ([], ⟨1, b - 0xc0, 0x80, 0xbf⟩)
  else if 0xe0 ≤ b ∧ b ≤ 0xef then
    ([], ⟨2, b - 0xe0, if b = 0xe0 then 0xa0 else 0x80, if b = 0xed then 0x9f else 0xbf⟩)
  else if 0xf0 ≤ b ∧ b ≤ 0xf4 then
    ([], ⟨3, b - 0xf0, if b = 0xf0 then 0x90 else 0x80, if b = 0xf4 then 0x8f else 0xbf⟩)
  else ([0xfffd], .start)

def decodeFrom (st : DecodeState) : Bytes → List Nat
  | [] => if st.needed = 0 then [] else [0xfffd]
  | b :: bs =>
      if st.needed = 0 then
        (firstByte b.toNat).1 ++ decodeFrom (firstByte b.toNat).2 bs
      else if st.lower ≤ b.toNat ∧ b.toNat ≤ st.upper then
        if st.needed = 1 then (st.value * 0x40 + (b.toNat - 0x80)) :: decodeFrom .start bs
        else decodeFrom ⟨st.needed - 1, st.value * 0x40 + (b.toNat - 0x80), 0x80, 0xbf⟩ bs
      else 0xfffd :: (firstByte b.toNat).1 ++ decodeFrom (firstByte b.toNat).2 bs

/-- `new TextDecoder().decode(bytes)`. -/
def utf8Decode (bs : Bytes) : JsString :=
  match decodeFrom .start bs with
  | 0xfeff :: ns => ns.flatMap unitsOf
  | ns => ns.flatMap unitsOf

/-! ## The round trip -/

/-- A Unicode scalar value. -/
def IsScalar (n : Nat) : Prop := n < 0xd800 ∨ (0xe000 ≤ n ∧ n < 0x110000)

theorem toNat_ofNat8 {n : Nat} (h : n < 256) : (UInt8.ofNat n).toNat = n := by
  rw [UInt8.toNat_ofNat']; exact Nat.mod_eq_of_lt h

/-- A continuation byte in the middle of a sequence. -/
theorem decodeFrom_cont {k v lo hi c : Nat} {bs : Bytes} (h1 : lo ≤ 0x80 + c) (h2 : 0x80 + c ≤ hi)
    (hc : c < 0x40) :
    decodeFrom ⟨k + 2, v, lo, hi⟩ (UInt8.ofNat (0x80 + c) :: bs)
      = decodeFrom ⟨k + 1, v * 0x40 + c, 0x80, 0xbf⟩ bs := by
  have hb : (UInt8.ofNat (0x80 + c)).toNat = 0x80 + c := toNat_ofNat8 (by omega)
  rw [decodeFrom, if_neg (by show k + 2 ≠ 0; omega), if_pos (by rw [hb]; exact ⟨h1, h2⟩),
    if_neg (by show k + 2 ≠ 1; omega), hb]
  show decodeFrom ⟨k + 2 - 1, v * 0x40 + (0x80 + c - 0x80), _, _⟩ bs = _
  rw [show 0x80 + c - 0x80 = c by omega, show k + 2 - 1 = k + 1 by omega]

/-- The last continuation byte. -/
theorem decodeFrom_last {v lo hi c : Nat} {bs : Bytes} (h1 : lo ≤ 0x80 + c) (h2 : 0x80 + c ≤ hi)
    (hc : c < 0x40) :
    decodeFrom ⟨1, v, lo, hi⟩ (UInt8.ofNat (0x80 + c) :: bs) = (v * 0x40 + c) :: decodeFrom .start bs := by
  have hb : (UInt8.ofNat (0x80 + c)).toNat = 0x80 + c := toNat_ofNat8 (by omega)
  rw [decodeFrom, if_neg (by show (1 : Nat) ≠ 0; decide), if_pos (by rw [hb]; exact ⟨h1, h2⟩), if_pos rfl,
    hb]
  show (v * 0x40 + (0x80 + c - 0x80)) :: _ = _
  rw [show 0x80 + c - 0x80 = c by omega]

theorem decodeFrom_first {b : Nat} {bs : Bytes} (h : b < 256) :
    decodeFrom .start (UInt8.ofNat b :: bs) = (firstByte b).1 ++ decodeFrom (firstByte b).2 bs := by
  rw [decodeFrom, if_pos (show DecodeState.start.needed = 0 from rfl), toNat_ofNat8 h]

theorem decodeFrom_encodePoint {n : Nat} (h : IsScalar n) (bs : Bytes) :
    decodeFrom .start (encodePoint n ++ bs) = n :: decodeFrom .start bs := by
  have hn : n < 0x110000 := by rcases h with h | h <;> omega
  unfold encodePoint
  split
  · next h1 =>
      rw [List.singleton_append, decodeFrom_first (by omega), firstByte, if_pos h1]; rfl
  split
  · next h1 h2 =>
      rw [List.cons_append, List.singleton_append, decodeFrom_first (by omega), firstByte,
        if_neg (by omega), if_pos (by omega)]
      show decodeFrom ⟨1, 0xc0 + n / 0x40 - 0xc0, 0x80, 0xbf⟩ _ = _
      rw [decodeFrom_last (by omega) (by omega) (by omega)]
      congr 1; omega
  split
  · next h1 h2 h3 =>
      rw [List.cons_append, List.cons_append, List.singleton_append, decodeFrom_first (by omega),
        firstByte, if_neg (by omega), if_neg (by omega), if_pos (by omega)]
      show decodeFrom ⟨0 + 2, 0xe0 + n / 0x1000 - 0xe0, _, _⟩ _ = _
      have hlo : (if 0xe0 + n / 0x1000 = 0xe0 then 0xa0 else 0x80) ≤ 0x80 + n / 0x40 % 0x40 := by
        split <;> omega
      -- the narrower bounds keep out overlong forms and surrogates, neither of which a scalar has
      have hhi : 0x80 + n / 0x40 % 0x40 ≤ (if 0xe0 + n / 0x1000 = 0xed then 0x9f else 0xbf) := by
        rcases h with h | h <;> split <;> omega
      rw [decodeFrom_cont hlo hhi (by omega), decodeFrom_last (by omega) (by omega) (by omega)]
      congr 1; omega
  · next h1 h2 h3 =>
      rw [List.cons_append, List.cons_append, List.cons_append, List.singleton_append,
        decodeFrom_first (by omega), firstByte, if_neg (by omega), if_neg (by omega), if_neg (by omega),
        if_pos (by omega)]
      show decodeFrom ⟨1 + 2, 0xf0 + n / 0x40000 - 0xf0, _, _⟩ _ = _
      have hlo : (if 0xf0 + n / 0x40000 = 0xf0 then 0x90 else 0x80) ≤ 0x80 + n / 0x1000 % 0x40 := by
        split <;> omega
      have hhi : 0x80 + n / 0x1000 % 0x40 ≤ (if 0xf0 + n / 0x40000 = 0xf4 then 0x8f else 0xbf) := by
        split <;> omega
      rw [decodeFrom_cont hlo hhi (by omega)]
      show decodeFrom ⟨0 + 2, _, _, _⟩ _ = _
      rw [decodeFrom_cont (by omega) (by omega) (by omega),
        decodeFrom_last (by omega) (by omega) (by omega)]
      congr 1; omega

theorem decodeFrom_flatMap {ns : List Nat} (h : ∀ n ∈ ns, IsScalar n) :
    decodeFrom .start (ns.flatMap encodePoint) = ns := by
  induction ns with
  | nil => rfl
  | cons n ns ih =>
      rw [List.flatMap_cons, decodeFrom_encodePoint (h n (List.mem_cons_self ..)),
        ih fun m hm => h m (List.mem_cons_of_mem _ hm)]

/-- No surrogate outside a pair. -/
def WellFormed : JsString → Prop
  | [] => True
  | [u] => isHighSurrogate u = false ∧ isLowSurrogate u = false
  | u :: l :: s =>
      if isHighSurrogate u && isLowSurrogate l then WellFormed s
      else (isHighSurrogate u = false ∧ isLowSurrogate u = false) ∧ WellFormed (l :: s)

theorem scalar_unit {u : UInt16} (h : isHighSurrogate u = false ∧ isLowSurrogate u = false) :
    IsScalar u.toNat ∧ unitsOf u.toNat = [u] := by
  obtain ⟨h1, h2⟩ := h
  have hlt : u.toNat < 65536 := u.toNat_lt
  simp only [isHighSurrogate, isLowSurrogate, Bool.and_eq_false_iff, decide_eq_false_iff_not,
    UInt16.le_iff_toNat_le, Nat.not_le] at h1 h2
  have e1 : (0xd800 : UInt16).toNat = 0xd800 := rfl
  have e2 : (0xdbff : UInt16).toNat = 0xdbff := rfl
  have e3 : (0xdc00 : UInt16).toNat = 0xdc00 := rfl
  have e4 : (0xdfff : UInt16).toNat = 0xdfff := rfl
  rw [e1, e2] at h1; rw [e3, e4] at h2
  refine ⟨by unfold IsScalar; omega, ?_⟩
  rw [unitsOf, if_pos (by omega), UInt16.ofNat_toNat]

theorem scalar_pair {u l : UInt16} (h : (isHighSurrogate u && isLowSurrogate l) = true) :
    IsScalar (0x10000 + (u.toNat - 0xd800) * 0x400 + (l.toNat - 0xdc00)) ∧
      unitsOf (0x10000 + (u.toNat - 0xd800) * 0x400 + (l.toNat - 0xdc00)) = [u, l] := by
  simp only [isHighSurrogate, isLowSurrogate, Bool.and_eq_true, decide_eq_true_eq,
    UInt16.le_iff_toNat_le] at h
  have e1 : (0xd800 : UInt16).toNat = 0xd800 := rfl
  have e2 : (0xdbff : UInt16).toNat = 0xdbff := rfl
  have e3 : (0xdc00 : UInt16).toNat = 0xdc00 := rfl
  have e4 : (0xdfff : UInt16).toNat = 0xdfff := rfl
  rw [e1, e2, e3, e4] at h
  refine ⟨by unfold IsScalar; omega, ?_⟩
  have hu : 0xd800 + (0x10000 + (u.toNat - 0xd800) * 0x400 + (l.toNat - 0xdc00) - 0x10000) / 0x400
      = u.toNat := by omega
  have hl : 0xdc00 + (0x10000 + (u.toNat - 0xd800) * 0x400 + (l.toNat - 0xdc00) - 0x10000) % 0x400
      = l.toNat := by omega
  rw [unitsOf, if_neg (by omega), hu, hl, UInt16.ofNat_toNat, UInt16.ofNat_toNat]

theorem codePoints_wellFormed : ∀ s : JsString, WellFormed s →
    (∀ n ∈ codePoints s, IsScalar n) ∧ (codePoints s).flatMap unitsOf = s
  | [], _ => ⟨nofun, rfl⟩
  | [u], h => by
      obtain ⟨hs, hu⟩ := scalar_unit h
      have hx : ¬(isHighSurrogate u || isLowSurrogate u) = true := by rw [h.1, h.2]; decide
      rw [codePoints, if_neg hx]
      refine ⟨fun n hn => List.mem_singleton.mp hn ▸ hs, ?_⟩
      rw [List.flatMap_cons, hu]; rfl
  | u :: l :: s, h => by
      rw [WellFormed] at h
      rw [codePoints]
      by_cases hp : (isHighSurrogate u && isLowSurrogate l) = true
      · rw [if_pos hp] at h
        obtain ⟨ihs, ihu⟩ := codePoints_wellFormed s h
        obtain ⟨hs, hu⟩ := scalar_pair hp
        rw [if_pos hp, List.flatMap_cons, hu, ihu]
        exact ⟨List.forall_mem_cons.mpr ⟨hs, ihs⟩, rfl⟩
      · rw [if_neg hp] at h
        obtain ⟨ihs, ihu⟩ := codePoints_wellFormed (l :: s) h.2
        obtain ⟨hs, hu⟩ := scalar_unit h.1
        have hx : ¬(isHighSurrogate u || isLowSurrogate u) = true := by rw [h.1.1, h.1.2]; decide
        rw [if_neg hp, if_neg hx, List.flatMap_cons, hu, ihu]
        exact ⟨List.forall_mem_cons.mpr ⟨hs, ihs⟩, rfl⟩

/-- **The decoder inverts the encoder** on text without lone surrogates and byte order mark. -/
theorem utf8Decode_utf8Encode {s : JsString} (h : WellFormed s) (hb : s.head? ≠ some 0xfeff) :
    utf8Decode (utf8Encode s) = s := by
  obtain ⟨hs, hu⟩ := codePoints_wellFormed s h
  rw [utf8Decode, utf8Encode, decodeFrom_flatMap hs]
  split
  · next ns heq =>
      rw [heq, List.flatMap_cons] at hu
      refine absurd ?_ hb
      rw [← hu]; rfl
  · exact hu

/-! ## ASCII -/

/-- Below `0x7f`: one byte of UTF-8. -/
def IsAscii (s : JsString) : Prop := ∀ u ∈ s, u.toNat < 0x7f

theorem IsAscii.append {s t : JsString} (hs : IsAscii s) (ht : IsAscii t) : IsAscii (s ++ t) :=
  fun u hu => (List.mem_append.mp hu).elim (hs u) (ht u)

theorem IsAscii.cons {u : UInt16} {s : JsString} (hu : u.toNat < 0x7f) (hs : IsAscii s) :
    IsAscii (u :: s) := List.forall_mem_cons.mpr ⟨hu, hs⟩

theorem IsAscii.nil : IsAscii [] := nofun

theorem IsAscii.of_all {s : JsString} (h : s.all (fun u => u.toNat < 0x7f) = true) : IsAscii s :=
  fun u hu => of_decide_eq_true (List.all_eq_true.mp h u hu)

theorem hexDigit_ascii : ∀ n, n < 16 → (hexDigit n).toNat < 0x7f := by decide

theorem hex4_ascii (u : UInt16) : IsAscii (hex4 u) := by
  have hlt : u.toNat < 65536 := u.toNat_lt
  refine IsAscii.cons (hexDigit_ascii _ (by omega)) (IsAscii.cons (hexDigit_ascii _ (by omega)) ?_)
  exact IsAscii.cons (hexDigit_ascii _ (by omega)) (IsAscii.cons (hexDigit_ascii _ (by omega)) .nil)

theorem shortEscape_ascii {u e : UInt16} (h : shortEscape u = some e) : e.toNat < 0x7f := by
  have hu := (unescape_shortEscape h).1
  by_contra hge
  have hne : ∀ c : UInt16, c.toNat < 0x7f → e ≠ c := fun c hc he => hge (he ▸ hc)
  simp [unescape, hne] at hu

theorem numUnit_ascii {u : UInt16} (h : isNumUnit u = true) : u.toNat < 0x7f := by
  by_contra hge
  have hne : ∀ c : UInt16, c.toNat < 0x7f → u ≠ c := fun c hc he => hge (he ▸ hc)
  have hd : isDigit u = false := by
    rw [isDigit, Bool.and_eq_false_iff]
    refine Or.inr (decide_eq_false fun hle => hge ?_)
    exact Nat.lt_of_le_of_lt (UInt16.le_iff_toNat_le.mp hle) (by decide)
  simp [isNumUnit, hd, hne] at h

theorem notSurrogate_of_ascii {u : UInt16} (h : u.toNat < 0x7f) :
    isHighSurrogate u = false ∧ isLowSurrogate u = false := by
  have h1 : ¬(0xd800 : UInt16) ≤ u := fun hle =>
    absurd (Nat.lt_of_le_of_lt (UInt16.le_iff_toNat_le.mp hle) h) (by decide)
  have h2 : ¬(0xdc00 : UInt16) ≤ u := fun hle =>
    absurd (Nat.lt_of_le_of_lt (UInt16.le_iff_toNat_le.mp hle) h) (by decide)
  simp [isHighSurrogate, isLowSurrogate, h1, h2]

theorem IsAscii.wellFormed : ∀ {s : JsString}, IsAscii s → WellFormed s
  | [], _ => trivial
  | [u], h => notSurrogate_of_ascii (h u (List.mem_cons_self ..))
  | u :: l :: s, h => by
      have hu := notSurrogate_of_ascii (h u (List.mem_cons_self ..))
      have hrest : IsAscii (l :: s) := fun c hc => h c (List.mem_cons_of_mem _ hc)
      rw [WellFormed, hu.1]
      exact ⟨⟨rfl, hu.2⟩, hrest.wellFormed⟩

/-- ASCII text is read back from its bytes. -/
theorem IsAscii.decode {s : JsString} (h : IsAscii s) : utf8Decode (utf8Encode s) = s := by
  refine utf8Decode_utf8Encode h.wellFormed fun hb => ?_
  have hmem : (0xfeff : UInt16) ∈ s := List.mem_of_mem_head? hb
  exact absurd (h _ hmem) (by decide)

/-! ## Printed JSON is well formed -/

theorem WellFormed.append : ∀ {s t : JsString}, WellFormed s → WellFormed t → WellFormed (s ++ t)
  | [], _, _, ht => ht
  | [u], [], hs, _ => hs
  | [u], l :: t, hs, ht => by
      have hu : isHighSurrogate u = false ∧ isLowSurrogate u = false := hs
      show WellFormed (u :: l :: t)
      rw [WellFormed, hu.1]
      exact ⟨⟨rfl, hu.2⟩, ht⟩
  | u :: l :: s, t, hs, ht => by
      show WellFormed (u :: l :: (s ++ t))
      rw [WellFormed] at hs ⊢
      split at hs
      · next hpair => rw [if_pos hpair]; exact hs.append ht
      · next hpair =>
          rw [if_neg hpair]
          exact ⟨hs.1, WellFormed.append (s := l :: s) hs.2 ht⟩

theorem WellFormed.cons_ascii {u : UInt16} {s : JsString} (hu : u.toNat < 0x7f) (hs : WellFormed s) :
    WellFormed (u :: s) := WellFormed.append (s := [u]) (notSurrogate_of_ascii hu) hs

theorem wellFormed_quoteBody : ∀ s : JsString, WellFormed (quoteBody s)
  | [] => trivial
  | u :: s => by
      rw [quoteBody, quoteFrom, if_neg (by decide)]
      cases he : shortEscape u with
      | some e =>
          exact .cons_ascii (by decide) (.cons_ascii (shortEscape_ascii he) (wellFormed_quoteBody s))
      | none =>
          show WellFormed (if _ then _ else if _ then _ else _)
          split
          · next hpair =>
              -- the unit starts a pair, so the next one is printed raw behind it
              obtain ⟨hu, hl⟩ := Bool.and_eq_true_iff.mp hpair
              cases s with
              | nil => cases hl
              | cons l s =>
                  have hlow : isLowSurrogate l = true := hl
                  show WellFormed (u :: l :: quoteBody s)
                  rw [WellFormed, hu, hlow]
                  exact wellFormed_quoteBody s
          split
          · refine .cons_ascii (by decide) (.cons_ascii (by decide) ?_)
            exact (hex4_ascii u).wellFormed.append (wellFormed_quoteBody s)
          · next hraw =>
              simp only [Bool.or_eq_true, not_or, Bool.not_eq_true] at hraw
              exact WellFormed.append (s := [u]) ⟨hraw.1.2, hraw.2⟩ (wellFormed_quoteBody s)

variable {E : Engine}

mutual
theorem wellFormed_render : ∀ v : Value, v.WF E → Plain v → WellFormed (render quoteBody v)
  | .undefined, _, hp => hp.elim
  | .null, _, _ => (IsAscii.of_all (by decide)).wellFormed
  | .bool true, _, _ => (IsAscii.of_all (by decide)).wellFormed
  | .bool false, _, _ => (IsAscii.of_all (by decide)).wellFormed
  | .num (.infinite _), _, hp => hp.elim
  | .num (.finite t i), hw, _ => IsAscii.wellFormed fun u hu => numUnit_ascii (all_numUnit hw.1 u hu)
  | .str s, _, _ =>
      .cons_ascii (by decide) ((wellFormed_quoteBody s).append (.cons_ascii (by decide) trivial))
  | .arr xs, hw, hp =>
      .cons_ascii (by decide) ((wellFormed_renderList xs hw hp).append (.cons_ascii (by decide) trivial))
  | .obj es, hw, hp =>
      .cons_ascii (by decide) ((wellFormed_renderFields es hw.2 hp).append (.cons_ascii (by decide) trivial))

theorem wellFormed_renderList : ∀ xs : List Value, Value.WFList E xs → PlainList xs →
    WellFormed (renderList quoteBody xs)
  | [], _, _ => trivial
  | x :: xs, hw, hp => by
      refine (wellFormed_render x hw.1 hp.1).append ?_
      split
      · trivial
      · exact .cons_ascii (by decide) (wellFormed_renderList xs hw.2 hp.2)

theorem wellFormed_renderFields : ∀ es : List (JsString × Value), Value.WFFields E es →
    PlainFields es → WellFormed (renderFields quoteBody es)
  | [], _, _ => trivial
  | (k, v) :: es, hw, hp => by
      rw [renderFields]
      refine (WellFormed.append (.cons_ascii (by decide) (wellFormed_quoteBody k)) ?_).append ?_
      · exact .cons_ascii (by decide) (.cons_ascii (by decide) (wellFormed_render v hw.1 hp.1))
      · split
        · trivial
        · exact .cons_ascii (by decide) (wellFormed_renderFields es hw.2 hp.2)
end

/-- **A value survives the trip through UTF-8 bytes** as `JSON.stringify` saw it. -/
theorem parse_utf8 {v : Value} (h : v.WF E) :
    parse E (utf8Decode (utf8Encode (stringify v))) = some (jsonView v) := by
  have hw := WF.jsonView v h
  have hp := jsonView_plain v
  obtain ⟨u, s, hus, _, _, hbom⟩ := render_head (q := quoteBody) hw hp
  rw [stringify, utf8Decode_utf8Encode (wellFormed_render _ hw hp), ← stringify, parse_stringify h]
  rw [hus]
  exact fun hb => hbom (Option.some.inj hb)

end Js
end VpnPi
