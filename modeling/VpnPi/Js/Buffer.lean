import Mathlib.Algebra.Ring.Int.Defs
import Mathlib.Algebra.Ring.Nat
import Mathlib.Data.List.Induction
import VpnPi.Js.Utf8

/-!
# `Js.Buffer` — `Uint8Array` and `DataView`

A buffer is the list of its bytes. `subarray` clamps its bounds, `set` and the accessors of a view throw when they
leave the buffer (`none`), and a view reads and writes big-endian integers.

A buffer is read as consecutive subarrays (`subarray_append`), and written field by field into place (`setAt_mid`).
Names nothing of the daemon.
-/

namespace VpnPi
namespace Js

/-! ## The operations -/

/-- `buf.subarray(a, b)`. -/
def subarray (buf : Bytes) (a b : Nat) : Bytes := (buf.take b).drop a

/-- `buf.set(src, o)`. -/
def setAt (buf : Bytes) (o : Nat) (src : Bytes) : Option Bytes :=
  if o + src.length ≤ buf.length then some (buf.take o ++ (src ++ buf.drop (o + src.length))) else none

/-- The last `k` digits of `n` to the base 256. -/
def bigEndian : Nat → Nat → Bytes
  | 0, _ => []
  | k + 1, n => bigEndian k (n / 256) ++ [UInt8.ofNat n]

def bigEndianValue (bs : Bytes) : Nat := bs.foldl (fun n b => n * 256 + b.toNat) 0

/-- The eight bytes that `view.setBigUint64(o, n)` writes. -/
def bigUint64 (n : Int) : Bytes := bigEndian 8 (n % 2 ^ 64).toNat

/-- `view.getBigUint64(o)`. -/
def getBigUint64 (buf : Bytes) (o : Nat) : Option Nat :=
  if o + 8 ≤ buf.length then some (bigEndianValue (subarray buf o (o + 8))) else none

/-! ## Subarrays -/

variable {buf pre mid old src post : Bytes} {a b m o : Nat}

theorem length_subarray (buf : Bytes) (a b : Nat) : (subarray buf a b).length = min b buf.length - a := by
  rw [subarray, List.length_drop, List.length_take]

theorem length_subarray_of_le (hb : b ≤ buf.length) : (subarray buf a b).length = b - a := by
  rw [length_subarray, Nat.min_eq_left hb]

theorem subarray_append (ham : a ≤ m) (hmb : m ≤ b) : subarray buf a m ++ subarray buf m b = subarray buf a b := by
  unfold subarray
  have htake : buf.take m = (buf.take b).take m := by rw [List.take_take, Nat.min_eq_left hmb]
  rw [htake]
  rcases Nat.le_total m (buf.take b).length with hm | hm
  · have hlen : ((buf.take b).take m).length = m := List.length_take_of_le hm
    conv_rhs => rw [← List.take_append_drop m (buf.take b)]
    rw [List.drop_append_of_le_length (by rw [hlen]; exact ham)]
  · rw [List.take_of_length_le hm, List.drop_eq_nil_of_le hm, List.append_nil]

theorem subarray_all (buf : Bytes) : subarray buf 0 buf.length = buf := by
  rw [subarray, List.take_length, List.drop_zero]

theorem subarray_one {u : UInt8} (h : buf[a]? = some u) : subarray buf a (a + 1) = [u] := by
  obtain ⟨hlt, hu⟩ := List.getElem?_eq_some_iff.mp h
  rw [subarray, List.take_succ_eq_append_getElem hlt, hu]
  have hlen : (buf.take a).length = a := List.length_take_of_le (Nat.le_of_lt hlt)
  rw [List.drop_append_of_le_length (Nat.le_of_eq hlen.symm), List.drop_eq_nil_of_le (Nat.le_of_eq hlen), List.nil_append]

theorem subarray_skip (h : pre.length = m) (a b : Nat) : subarray (pre ++ post) (m + a) (m + b) = subarray post a b := by
  subst h
  rw [subarray, List.take_length_add_append, List.drop_length_add_append, subarray]

theorem subarray_head (h : mid.length = m) : subarray (mid ++ post) 0 m = mid := by
  subst h
  rw [subarray, List.take_left, List.drop_zero]

theorem subarray_left (h : b ≤ pre.length) : subarray (pre ++ post) a b = subarray pre a b := by
  rw [subarray, List.take_append_of_le_length h, subarray]

theorem getElem?_skip (h : pre.length = m) (a : Nat) : (pre ++ post)[m + a]? = post[a]? := by
  subst h
  rw [List.getElem?_append_right (Nat.le_add_right _ _), Nat.add_sub_cancel_left]

/-! ## Writing -/

theorem setAt_mid (ho : pre.length = o) (hlen : old.length = src.length) :
    setAt (pre ++ (old ++ post)) o src = some (pre ++ (src ++ post)) := by
  subst ho
  have hfits : pre.length + src.length ≤ (pre ++ (old ++ post)).length := by
    rw [List.length_append, List.length_append]
    omega
  have hdrop : (pre ++ (old ++ post)).drop (pre.length + src.length) = post := by
    rw [← hlen, ← List.length_append, ← List.append_assoc, List.drop_left]
  rw [setAt, if_pos hfits, List.take_left, hdrop]

theorem length_setAt {buf' : Bytes} (h : setAt buf o src = some buf') : buf'.length = buf.length := by
  unfold setAt at h
  split at h
  · next hle =>
      obtain rfl := Option.some.inj h
      rw [List.length_append, List.length_append, List.length_take, List.length_drop]
      omega
  · cases h

theorem set_mid {u v : UInt8} (ho : pre.length = o) : (pre ++ ([u] ++ post)).set o v = pre ++ ([v] ++ post) := by
  subst ho
  rw [List.set_append_right _ _ (Nat.le_refl _), Nat.sub_self]
  rfl

/-! ## Big-endian integers -/

theorem length_bigEndian (k n : Nat) : (bigEndian k n).length = k := by
  induction k generalizing n with
  | zero => rfl
  | succ k ih => rw [bigEndian, List.length_append, ih]; rfl

theorem bigEndianValue_concat (bs : Bytes) (b : UInt8) : bigEndianValue (bs ++ [b]) = bigEndianValue bs * 256 + b.toNat := by
  rw [bigEndianValue, List.foldl_append]
  rfl

theorem bigEndianValue_bigEndian (k n : Nat) : bigEndianValue (bigEndian k n) = n % 256 ^ k := by
  induction k generalizing n with
  | zero => rw [Nat.pow_zero, Nat.mod_one]; rfl
  | succ k ih =>
      have hlast : (UInt8.ofNat n).toNat = n % 256 := UInt8.toNat_ofNat'
      rw [bigEndian, bigEndianValue_concat, ih, hlast, Nat.pow_succ', Nat.mod_mul]
      omega

theorem bigEndian_bigEndianValue (bs : Bytes) : bigEndian bs.length (bigEndianValue bs) = bs := by
  induction bs using List.reverseRecOn with
  | nil => rfl
  | append_singleton bs b ih =>
      have hlt : b.toNat < 256 := b.toNat_lt
      have hdiv : (bigEndianValue bs * 256 + b.toNat) / 256 = bigEndianValue bs := by omega
      have hlast : UInt8.ofNat (bigEndianValue bs * 256 + b.toNat) = b := by
        apply UInt8.toNat_inj.mp
        rw [UInt8.toNat_ofNat']
        omega
      rw [List.length_append, bigEndianValue_concat]
      show bigEndian bs.length _ ++ [_] = _
      rw [hdiv, ih, hlast]

theorem length_bigUint64 (n : Int) : (bigUint64 n).length = 8 := length_bigEndian _ _

theorem bigEndianValue_bigUint64 {n : Int} (h0 : 0 ≤ n) (h : n < 2 ^ 64) : (bigEndianValue (bigUint64 n) : Int) = n := by
  rw [bigUint64, bigEndianValue_bigEndian]
  omega

theorem bigUint64_bigEndianValue {bs : Bytes} (h : bs.length = 8) : bigUint64 (bigEndianValue bs) = bs := by
  have hlt : bigEndianValue bs < 2 ^ 64 := by
    have hvalue := bigEndianValue_bigEndian bs.length (bigEndianValue bs)
    rw [bigEndian_bigEndianValue, h] at hvalue
    omega
  have hmod : ((bigEndianValue bs : Int) % 2 ^ 64).toNat = bigEndianValue bs := by omega
  rw [bigUint64, hmod, ← h, bigEndian_bigEndianValue]

end Js
end VpnPi
