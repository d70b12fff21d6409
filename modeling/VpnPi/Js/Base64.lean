import VpnPi.Js.Trim
import VpnPi.Js.Utf8

/-!
# `Js.Base64` — base64 in the URL-safe alphabet, without padding

Bytes are cut into groups of six bits (`sextets`), and each is written as one symbol. The decoder is strict: it takes no
character outside the alphabet, no length that leaves a lone symbol, and no symbol with bits behind the last byte
(`bytesOf`). So every byte string has one text, and every text that decodes is the text of what it decodes to.
-/

namespace VpnPi
namespace Js

/-! ## Groups of six bits -/

def sextets : Bytes → List Nat
  | [] => []
  | [a] => [a.toNat / 4, a.toNat % 4 * 16]
  | [a, b] => [a.toNat / 4, a.toNat % 4 * 16 + b.toNat / 16, b.toNat % 16 * 4]
  | a :: b :: c :: bs =>
      a.toNat / 4 :: (a.toNat % 4 * 16 + b.toNat / 16) :: (b.toNat % 16 * 4 + c.toNat / 64) :: c.toNat % 64 :: sextets bs

def bytesOf : List Nat → Option Bytes
  | [] => some []
  | [_] => none
  | [p, q] => if q % 16 = 0 then some [UInt8.ofNat (p * 4 + q / 16)] else none
  | [p, q, r] =>
      if r % 4 = 0 then some [UInt8.ofNat (p * 4 + q / 16), UInt8.ofNat (q % 16 * 16 + r / 4)] else none
  | p :: q :: r :: s :: ns =>
      (bytesOf ns).map fun bs =>
        UInt8.ofNat (p * 4 + q / 16) :: UInt8.ofNat (q % 16 * 16 + r / 4) :: UInt8.ofNat (r % 4 * 64 + s) :: bs

theorem sextets_lt (bs : Bytes) : ∀ n ∈ sextets bs, n < 64 := by
  induction bs using sextets.induct with
  | case1 => intro n hn; cases hn
  | case2 a =>
      have ha : a.toNat < 256 := a.toNat_lt
      simp only [sextets, List.forall_mem_cons]
      exact ⟨by omega, by omega, fun _ h => (by cases h)⟩
  | case3 a b =>
      have ha : a.toNat < 256 := a.toNat_lt
      have hb : b.toNat < 256 := b.toNat_lt
      simp only [sextets, List.forall_mem_cons]
      exact ⟨by omega, by omega, by omega, fun _ h => (by cases h)⟩
  | case4 a b c bs ih =>
      have ha : a.toNat < 256 := a.toNat_lt
      have hb : b.toNat < 256 := b.toNat_lt
      have hc : c.toNat < 256 := c.toNat_lt
      simp only [sextets, List.forall_mem_cons]
      exact ⟨by omega, by omega, by omega, by omega, ih⟩

/-- The byte is known by its value. -/
theorem ofNat_eq {n : Nat} {a : UInt8} (h : n = a.toNat) : UInt8.ofNat n = a := by
  rw [h, UInt8.ofNat_toNat]

theorem bytesOf_sextets (bs : Bytes) : bytesOf (sextets bs) = some bs := by
  induction bs using sextets.induct with
  | case1 => rfl
  | case2 a =>
      have ha : UInt8.ofNat (a.toNat / 4 * 4 + a.toNat % 4 * 16 / 16) = a := ofNat_eq (by omega)
      rw [sextets, bytesOf, if_pos (by omega), ha]
  | case3 a b =>
      have hlt : b.toNat < 256 := b.toNat_lt
      have ha : UInt8.ofNat (a.toNat / 4 * 4 + (a.toNat % 4 * 16 + b.toNat / 16) / 16) = a := ofNat_eq (by omega)
      have hb : UInt8.ofNat ((a.toNat % 4 * 16 + b.toNat / 16) % 16 * 16 + b.toNat % 16 * 4 / 4) = b := ofNat_eq (by omega)
      rw [sextets, bytesOf, if_pos (by omega), ha, hb]
  | case4 a b c bs ih =>
      have hlt : b.toNat < 256 := b.toNat_lt
      have hlt' : c.toNat < 256 := c.toNat_lt
      have ha : UInt8.ofNat (a.toNat / 4 * 4 + (a.toNat % 4 * 16 + b.toNat / 16) / 16) = a := ofNat_eq (by omega)
      have hb : UInt8.ofNat ((a.toNat % 4 * 16 + b.toNat / 16) % 16 * 16 + (b.toNat % 16 * 4 + c.toNat / 64) / 4) = b :=
        ofNat_eq (by omega)
      have hc : UInt8.ofNat ((b.toNat % 16 * 4 + c.toNat / 64) % 4 * 64 + c.toNat % 64) = c := ofNat_eq (by omega)
      rw [sextets, bytesOf, ih, Option.map_some, ha, hb, hc]

theorem sextets_bytesOf {ns : List Nat} {bs : Bytes} (hlt : ∀ n ∈ ns, n < 64) (h : bytesOf ns = some bs) :
    sextets bs = ns := by
  -- by the groups of four that `bytesOf` takes off, and the two short ones at the end
  induction ns using bytesOf.induct generalizing bs with
  | case1 => cases h; rfl
  | case2 => cases h
  | case3 p q hq =>
      simp only [List.forall_mem_cons] at hlt
      obtain ⟨hp, hq', _⟩ := hlt
      rw [bytesOf, if_pos hq] at h
      obtain rfl := Option.some.inj h
      rw [sextets, toNat_ofNat8 (by omega)]
      congr 1
      · omega
      congr 1
      omega
  | case4 p q hq =>
      rw [bytesOf, if_neg hq] at h
      cases h
  | case5 p q r hr =>
      simp only [List.forall_mem_cons] at hlt
      obtain ⟨hp, hq, hr', _⟩ := hlt
      rw [bytesOf, if_pos hr] at h
      obtain rfl := Option.some.inj h
      rw [sextets, toNat_ofNat8 (by omega), toNat_ofNat8 (by omega)]
      congr 1
      · omega
      congr 1
      · omega
      congr 1
      omega
  | case6 p q r hr =>
      rw [bytesOf, if_neg hr] at h
      cases h
  | case7 p q r s ns ih =>
      simp only [List.forall_mem_cons] at hlt
      obtain ⟨hp, hq, hr, hs, hns⟩ := hlt
      rw [bytesOf] at h
      obtain ⟨bs, hbs, rfl⟩ := Option.map_eq_some_iff.mp h
      rw [sextets, toNat_ofNat8 (by omega), toNat_ofNat8 (by omega), toNat_ofNat8 (by omega), ih hns hbs]
      congr 1
      · omega
      congr 1
      · omega
      congr 1
      · omega
      congr 1
      omega

/-! ## Symbols -/

def symbol (n : Nat) : UInt16 :=
  if n < 26 then UInt16.ofNat (0x41 + n)
  else if n < 52 then UInt16.ofNat (0x61 + (n - 26))
  else if n < 62 then UInt16.ofNat (0x30 + (n - 52))
  else if n = 62 then 0x2d
  else 0x5f

def symbolValue (u : UInt16) : Option Nat :=
  let n := u.toNat
  if 0x41 ≤ n ∧ n ≤ 0x5a then some (n - 0x41)
  else if 0x61 ≤ n ∧ n ≤ 0x7a then some (n - 0x61 + 26)
  else if 0x30 ≤ n ∧ n ≤ 0x39 then some (n - 0x30 + 52)
  else if n = 0x2d then some 62
  else if n = 0x5f then some 63
  else none

theorem symbolValue_symbol : ∀ n, n < 64 → symbolValue (symbol n) = some n := by decide

theorem isSpace_symbol : ∀ n, n < 64 → isSpace (symbol n) = false := by decide

theorem symbol_symbolValue {u : UInt16} {n : Nat} (h : symbolValue u = some n) : n < 64 ∧ symbol n = u := by
  simp only [symbolValue] at h
  unfold symbol
  split at h
  · next hu =>
      obtain rfl := Option.some.inj h
      refine ⟨by omega, ?_⟩
      rw [if_pos (by omega), show 0x41 + (u.toNat - 0x41) = u.toNat by omega, UInt16.ofNat_toNat]
  split at h
  · next hu =>
      obtain rfl := Option.some.inj h
      refine ⟨by omega, ?_⟩
      rw [if_neg (by omega), if_pos (by omega), show 0x61 + (u.toNat - 0x61 + 26 - 26) = u.toNat by omega,
        UInt16.ofNat_toNat]
  split at h
  · next hu =>
      obtain rfl := Option.some.inj h
      refine ⟨by omega, ?_⟩
      rw [if_neg (by omega), if_neg (by omega), if_pos (by omega),
        show 0x30 + (u.toNat - 0x30 + 52 - 52) = u.toNat by omega, UInt16.ofNat_toNat]
  split at h
  · next hu =>
      obtain rfl := Option.some.inj h
      exact ⟨by omega, UInt16.toNat_inj.mp hu.symm⟩
  split at h
  · next hu =>
      obtain rfl := Option.some.inj h
      exact ⟨by omega, UInt16.toNat_inj.mp hu.symm⟩
  · cases h

/-- The values of all symbols of a text. -/
def symbolValues : JsString → Option (List Nat)
  | [] => some []
  | u :: s =>
      match symbolValue u, symbolValues s with
      | some n, some ns => some (n :: ns)
      | _, _ => none

theorem symbolValues_map {ns : List Nat} (h : ∀ n ∈ ns, n < 64) : symbolValues (ns.map symbol) = some ns := by
  induction ns with
  | nil => rfl
  | cons n ns ih =>
      obtain ⟨hn, hns⟩ := List.forall_mem_cons.mp h
      simp only [List.map_cons, symbolValues, symbolValue_symbol n hn, ih hns]

theorem map_symbolValues {s : JsString} {ns : List Nat} (h : symbolValues s = some ns) :
    (∀ n ∈ ns, n < 64) ∧ ns.map symbol = s := by
  induction s generalizing ns with
  | nil => cases h; exact ⟨fun _ h => (by cases h), rfl⟩
  | cons u s ih =>
      unfold symbolValues at h
      split at h
      · next n ns' hn hns =>
          obtain rfl := Option.some.inj h
          obtain ⟨hlt, hmap⟩ := ih hns
          obtain ⟨hn64, hu⟩ := symbol_symbolValue hn
          exact ⟨List.forall_mem_cons.mpr ⟨hn64, hlt⟩, by rw [List.map_cons, hu, hmap]⟩
      · cases h

/-! ## The codec -/

def base64UrlEncode (bs : Bytes) : JsString := (sextets bs).map symbol

def base64UrlDecode (s : JsString) : Option Bytes := (symbolValues s).bind bytesOf

theorem base64UrlDecode_encode (bs : Bytes) : base64UrlDecode (base64UrlEncode bs) = some bs := by
  rw [base64UrlDecode, base64UrlEncode, symbolValues_map (sextets_lt bs), Option.bind_some, bytesOf_sextets]

theorem base64UrlEncode_decode {s : JsString} {bs : Bytes} (h : base64UrlDecode s = some bs) : base64UrlEncode bs = s := by
  obtain ⟨ns, hns, hbs⟩ := Option.bind_eq_some_iff.mp h
  obtain ⟨hlt, hmap⟩ := map_symbolValues hns
  rw [base64UrlEncode, sextets_bytesOf hlt hbs, hmap]

theorem base64UrlEncode_notSpace (bs : Bytes) : ∀ u ∈ base64UrlEncode bs, isSpace u = false := by
  intro u hu
  obtain ⟨n, hn, rfl⟩ := List.mem_map.mp hu
  exact isSpace_symbol n (sextets_lt bs n hn)

example : base64UrlEncode [0x4d, 0x61, 0xff, 0xfe] = js "TWH__g" := by decide

end Js
end VpnPi
