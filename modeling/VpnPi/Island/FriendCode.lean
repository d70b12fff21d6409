import VpnPi.Island.Handshake
import VpnPi.Js.Base64
import VpnPi.Js.Buffer
import VpnPi.Js.Scalar
import VpnPi.Js.Trim

/-!
# `Island.FriendCode` — compact friend codes (`core/friendcode.ts`)

An invite code is a friend token packed into bytes: fields of fixed length, then two texts with a length byte in front
of each. `packed` is the layout. What the encoder writes is a packing (`encodeInvite_packed`), and what the decoder
returns is read off the subarrays at fixed places, cut short where the buffer ends (`decodeInvite_ok`).

* `invite_round_trip_iff` — a token survives unless one of its texts begins with a byte order mark, which
  `TextDecoder` drops;
* `invite_complete_iff` — an accepted code is the code of its token exactly if it is `Complete`.
-/

namespace VpnPi
namespace Island

open Js

/-! ## The model -/

/-- `to_base64` and `from_base64` for `URLSAFE_NO_PADDING`: one text for every byte string, and no white space. -/
structure UrlBase64 where
  encode        : Bytes → JsString
  decode        : JsString → Option Bytes
  decode_encode : ∀ bs, decode (encode bs) = some bs
  encode_decode : ∀ {s bs}, decode s = some bs → encode bs = s
  notSpace      : ∀ bs, ∀ u ∈ encode bs, isSpace u = false

structure PeerPub where
  ed25519 : JsString
  x25519  : JsString
  label   : JsString
  wg0     : JsString
  deriving DecidableEq

/-- Its `v` is 1. -/
structure FriendToken where
  from_   : PeerPub
  nonce   : JsString
  issued  : JsString
  expires : JsString
  sig     : JsString
  deriving DecidableEq

def PeerPub.value (p : PeerPub) : Value :=
  .obj [(js "ed25519", .str p.ed25519), (js "x25519", .str p.x25519), (js "label", .str p.label), (js "wg0", .str p.wg0)]

def FriendToken.value (t : FriendToken) : Value :=
  .obj [(js "v", .num Number.one), (js "from", t.from_.value), (js "nonce", .str t.nonce), (js "issued", .str t.issued),
    (js "expires", .str t.expires), (js "sig", .str t.sig)]

def invitePrefix : JsString := js "island-invite1"

def inviteVersion : UInt8 := 1

variable (P : Platform) (U : UrlBase64)

/-- `buf.set(src, o)`. -/
def bufSet (buf : Bytes) (o : Nat) (src : Bytes) : Except Exn Bytes := orThrow .rangeError (setAt buf o src)

/-- `BigInt(Date.parse(text))`; there is none for `NaN`. -/
def dateBigInt (text : JsString) : Except Exn Int := (orThrow .rangeError (P.dateParse text)).map Instant.ms

def encodeInvite (t : FriendToken) : Except Exn JsString := do
  let ed ← orThrow .sodium (P.fromBase64 t.from_.ed25519)
  let x ← orThrow .sodium (P.fromBase64 t.from_.x25519)
  let nonce ← orThrow .sodium (P.fromBase64 t.nonce)
  let sig ← orThrow .sodium (P.fromBase64 t.sig)
  let label := utf8Encode t.from_.label
  let wg0 := utf8Encode t.from_.wg0
  failIf (255 < label.length ∨ 255 < wg0.length) (.error (js "label/wg0 too long for an invite"))
  let buf := List.replicate (1 + 32 + 32 + 16 + 8 + 8 + 64 + 1 + label.length + 1 + wg0.length) 0
  let buf := buf.set 0 inviteVersion
  let buf ← bufSet buf 1 ed
  let buf ← bufSet buf 33 x
  let buf ← bufSet buf 65 nonce
  let issued ← dateBigInt P t.issued
  let buf ← bufSet buf 81 (bigUint64 issued)
  let expires ← dateBigInt P t.expires
  let buf ← bufSet buf 89 (bigUint64 expires)
  let buf ← bufSet buf 97 sig
  let buf := buf.set 161 (UInt8.ofNat label.length)
  let buf ← bufSet buf 162 label
  let buf := buf.set (162 + label.length) (UInt8.ofNat wg0.length)
  let buf ← bufSet buf (163 + label.length) wg0
  pure (invitePrefix ++ U.encode buf)

/-- A length byte at `o` and the text it announces, with the offset behind them. Without the byte the offset becomes
    `NaN` (`none`), and the text is empty. -/
def readText (buf : Bytes) (o : Option Nat) : JsString × Option Nat :=
  match o with
  | none => (utf8Decode [], none)
  | some o =>
      match buf[o]? with
      | none => (utf8Decode [], none)
      | some len => (utf8Decode (subarray buf (o + 1) (o + 1 + len.toNat)), some (o + 1 + len.toNat))

/-- `Number(view.getBigUint64(o))`, exact wherever it makes a valid date. -/
def readMs (buf : Bytes) (o : Nat) : Except Exn Int := (orThrow .rangeError (getBigUint64 buf o)).map Int.ofNat

def decodeInvite (code : JsString) : Except Exn FriendToken := do
  failIf (!invitePrefix.isPrefixOf code) (.error (js "not an island invite code"))
  let buf ← orThrow .sodium (U.decode (trim (code.drop invitePrefix.length)))
  failIf (buf[0]? ≠ some inviteVersion) (.error (js "unsupported invite version"))
  let ed := subarray buf 1 33
  let x := subarray buf 33 65
  let nonce := subarray buf 65 81
  let issued ← readMs buf 81
  let expires ← readMs buf 89
  let sig := subarray buf 97 161
  let (label, o) := readText buf (some 161)
  let (wg0, _) := readText buf o
  let issued ← toISOString P issued
  let expires ← toISOString P expires
  pure ⟨⟨P.toBase64 ed, P.toBase64 x, label, wg0⟩, P.toBase64 nonce, issued, expires, P.toBase64 sig⟩

/-! ## The layout -/

/-- The fields of a packed token. -/
structure Fields where
  ed      : Bytes
  x       : Bytes
  nonce   : Bytes
  issued  : Instant
  expires : Instant
  sig     : Bytes
  label   : Bytes
  wg0     : Bytes

/-- The lengths the layout has room for, and the times it can hold. -/
structure Fields.Fit (f : Fields) : Prop where
  ed      : f.ed.length = 32
  x       : f.x.length = 32
  nonce   : f.nonce.length = 16
  issued  : 0 ≤ f.issued.ms
  expires : 0 ≤ f.expires.ms
  sig     : f.sig.length = 64
  label   : f.label.length ≤ 255
  wg0     : f.wg0.length ≤ 255

/-- The fields of fixed length. -/
def header (f : Fields) : Bytes :=
  [inviteVersion] ++ (f.ed ++ (f.x ++ (f.nonce ++ (bigUint64 f.issued.ms ++ (bigUint64 f.expires.ms ++ f.sig)))))

/-- All fields. -/
def packed (f : Fields) : Bytes :=
  header f ++ ([UInt8.ofNat f.label.length] ++ (f.label ++ ([UInt8.ofNat f.wg0.length] ++ f.wg0)))

/-- The token whose texts decode from the fields. -/
def Fields.token (f : Fields) : FriendToken :=
  ⟨⟨P.toBase64 f.ed, P.toBase64 f.x, utf8Decode f.label, utf8Decode f.wg0⟩, P.toBase64 f.nonce, P.toISOString f.issued,
    P.toISOString f.expires, P.toBase64 f.sig⟩

variable {P U} {f : Fields}

theorem length_header (h : f.Fit) : (header f).length = 161 := by
  simp only [header, List.length_append, List.length_singleton, h.ed, h.x, h.nonce, h.sig, length_bigUint64]

theorem length_packed (h : f.Fit) : (packed f).length = 163 + f.label.length + f.wg0.length := by
  simp only [packed, List.length_append, List.length_singleton, length_header h]
  omega

/-- The fields stand at their places in the buffer, and nothing else is in it. -/
structure Reads (b : Bytes) (f : Fields) : Prop where
  version  : b[0]? = some inviteVersion
  ed       : subarray b 1 33 = f.ed
  x        : subarray b 33 65 = f.x
  nonce    : subarray b 65 81 = f.nonce
  issued   : subarray b 81 89 = bigUint64 f.issued.ms
  expires  : subarray b 89 97 = bigUint64 f.expires.ms
  sig      : subarray b 97 161 = f.sig
  labelLen : b[161]? = some (UInt8.ofNat f.label.length)
  label    : subarray b 162 (162 + f.label.length) = f.label
  wg0Len   : b[162 + f.label.length]? = some (UInt8.ofNat f.wg0.length)
  wg0      : subarray b (163 + f.label.length) b.length = f.wg0
  length   : b.length = 163 + f.label.length + f.wg0.length

theorem reads_packed (h : f.Fit) : Reads (packed f) f := by
  have hlen := length_packed h
  have hheader := length_header h
  have hversion : [inviteVersion].length = 1 := rfl
  have hlabel : [UInt8.ofNat f.label.length].length = 1 := rfl
  have hwg0 : [UInt8.ofNat f.wg0.length].length = 1 := rfl
  have hissued := length_bigUint64 f.issued.ms
  have hexpires := length_bigUint64 f.expires.ms
  have hfixed : ∀ {a b}, b ≤ 161 → subarray (packed f) a b = subarray (header f) a b := fun hle =>
    subarray_left (hheader ▸ hle)
  -- each offset is the sum of the lengths in front of it
  refine ⟨rfl, ?_, ?_, ?_, ?_, ?_, ?_, ?_, ?_, ?_, ?_, hlen⟩
  · rw [hfixed (by decide)]
    show subarray (header f) (1 + 0) (1 + 32) = f.ed
    rw [header, subarray_skip hversion, subarray_head h.ed]
  · rw [hfixed (by decide)]
    show subarray (header f) (1 + (32 + 0)) (1 + (32 + 32)) = f.x
    rw [header, subarray_skip hversion, subarray_skip h.ed, subarray_head h.x]
  · rw [hfixed (by decide)]
    show subarray (header f) (1 + (32 + (32 + 0))) (1 + (32 + (32 + 16))) = f.nonce
    rw [header, subarray_skip hversion, subarray_skip h.ed, subarray_skip h.x, subarray_head h.nonce]
  · rw [hfixed (by decide)]
    show subarray (header f) (1 + (32 + (32 + (16 + 0)))) (1 + (32 + (32 + (16 + 8)))) = _
    rw [header, subarray_skip hversion, subarray_skip h.ed, subarray_skip h.x, subarray_skip h.nonce, subarray_head hissued]
  · rw [hfixed (by decide)]
    show subarray (header f) (1 + (32 + (32 + (16 + (8 + 0))))) (1 + (32 + (32 + (16 + (8 + 8))))) = _
    rw [header, subarray_skip hversion, subarray_skip h.ed, subarray_skip h.x, subarray_skip h.nonce,
      subarray_skip hissued, subarray_head hexpires]
  · rw [hfixed (by decide)]
    show subarray (header f) (1 + (32 + (32 + (16 + (8 + (8 + 0)))))) (1 + (32 + (32 + (16 + (8 + (8 + 64)))))) = f.sig
    rw [header, subarray_skip hversion, subarray_skip h.ed, subarray_skip h.x, subarray_skip h.nonce,
      subarray_skip hissued, subarray_skip hexpires, ← h.sig]
    exact subarray_all f.sig
  · show (packed f)[161 + 0]? = _
    rw [packed, getElem?_skip hheader]
    rfl
  · rw [show 162 + f.label.length = 161 + (1 + f.label.length) by omega]
    show subarray (packed f) (161 + (1 + 0)) _ = f.label
    rw [packed, subarray_skip hheader, subarray_skip hlabel, subarray_head rfl]
  · rw [show 162 + f.label.length = 161 + (1 + (f.label.length + 0)) by omega, packed, getElem?_skip hheader,
      getElem?_skip hlabel, getElem?_skip rfl]
    rfl
  · rw [hlen, show 163 + f.label.length + f.wg0.length = 161 + (1 + (f.label.length + (1 + f.wg0.length))) by omega,
      show 163 + f.label.length = 161 + (1 + (f.label.length + (1 + 0))) by omega, packed, subarray_skip hheader,
      subarray_skip hlabel, subarray_skip rfl, subarray_skip hwg0]
    exact subarray_all f.wg0

theorem Reads.packed {b : Bytes} (h : Reads b f) : packed f = b := by
  have hlen := h.length
  have hjoin : ∀ {a m}, a ≤ m → m ≤ b.length → subarray b a m ++ subarray b m b.length = subarray b a b.length :=
    fun ham hm => subarray_append ham hm
  have htexts : [UInt8.ofNat f.label.length] ++ (f.label ++ ([UInt8.ofNat f.wg0.length] ++ f.wg0))
      = subarray b 161 b.length := by
    have htail : [UInt8.ofNat f.wg0.length] ++ f.wg0 = subarray b (162 + f.label.length) b.length := by
      rw [← subarray_one h.wg0Len, show 162 + f.label.length + 1 = 163 + f.label.length by omega]
      conv_lhs => rw [← h.wg0]
      exact hjoin (by omega) (by omega)
    have hlabel : f.label ++ subarray b (162 + f.label.length) b.length = subarray b 162 b.length := by
      conv_lhs => arg 1; rw [← h.label]
      exact hjoin (by omega) (by omega)
    rw [htail, hlabel, ← subarray_one h.labelLen]
    exact hjoin (by omega) (by omega)
  have hfixed : header f = subarray b 0 161 := by
    rw [header, ← subarray_one h.version, ← h.ed, ← h.x, ← h.nonce, ← h.issued, ← h.expires, ← h.sig]
    rw [subarray_append (by omega) (by omega), subarray_append (by omega) (by omega), subarray_append (by omega) (by omega),
      subarray_append (by omega) (by omega), subarray_append (by omega) (by omega), subarray_append (by omega) (by omega)]
  rw [Island.packed, htexts, hfixed, hjoin (by omega) (by omega), subarray_all]

/-! ## What the encoder writes -/

/-- The token has these fields. -/
structure Packs (P : Platform) (t : FriendToken) (f : Fields) : Prop where
  ed      : P.fromBase64 t.from_.ed25519 = some f.ed
  x       : P.fromBase64 t.from_.x25519 = some f.x
  nonce   : P.fromBase64 t.nonce = some f.nonce
  issued  : P.dateParse t.issued = some f.issued
  expires : P.dateParse t.expires = some f.expires
  sig     : P.fromBase64 t.sig = some f.sig
  label   : utf8Encode t.from_.label = f.label
  wg0     : utf8Encode t.from_.wg0 = f.wg0

/-- A field is written over the zeros at its place. -/
theorem bufSet_zeros (pre post : Bytes) {src : Bytes} {n o : Nat} (ho : pre.length = o) (hlen : src.length = n) :
    bufSet (pre ++ (List.replicate n 0 ++ post)) o src = .ok (pre ++ (src ++ post)) :=
  orThrow_ok.mpr (setAt_mid ho (by rw [List.length_replicate, hlen]))

theorem length_bufSet {buf buf' src : Bytes} {o : Nat} (h : bufSet buf o src = .ok buf') : buf'.length = buf.length :=
  length_setAt (orThrow_ok.mp h)

theorem dateBigInt_ok {s : JsString} {n : Int} : dateBigInt P s = .ok n ↔ ∃ d, P.dateParse s = some d ∧ d.ms = n := by
  unfold dateBigInt
  rw [map_ok]
  exact exists_congr fun d => and_congr_left fun _ => orThrow_ok

/-- What is encoded has the length of its texts, and they fit. -/
theorem encodeInvite_ok {t : FriendToken} {c : JsString} (h : encodeInvite P U t = .ok c) :
    (utf8Encode t.from_.label).length ≤ 255 ∧ (utf8Encode t.from_.wg0).length ≤ 255 ∧
    ∃ buf, c = invitePrefix ++ U.encode buf ∧
      buf.length = 163 + (utf8Encode t.from_.label).length + (utf8Encode t.from_.wg0).length := by
  obtain ⟨ed, _, h⟩ := bind_ok.mp h
  obtain ⟨x, _, h⟩ := bind_ok.mp h
  obtain ⟨nonce, _, h⟩ := bind_ok.mp h
  obtain ⟨sig, _, h⟩ := bind_ok.mp h
  obtain ⟨_, hfits, h⟩ := bind_ok.mp h
  obtain ⟨b₁, h₁, h⟩ := bind_ok.mp h
  obtain ⟨b₂, h₂, h⟩ := bind_ok.mp h
  obtain ⟨b₃, h₃, h⟩ := bind_ok.mp h
  obtain ⟨issued, _, h⟩ := bind_ok.mp h
  obtain ⟨b₄, h₄, h⟩ := bind_ok.mp h
  obtain ⟨expires, _, h⟩ := bind_ok.mp h
  obtain ⟨b₅, h₅, h⟩ := bind_ok.mp h
  obtain ⟨b₆, h₆, h⟩ := bind_ok.mp h
  obtain ⟨b₇, h₇, h⟩ := bind_ok.mp h
  obtain ⟨b₈, h₈, h⟩ := bind_ok.mp h
  obtain ⟨hlabel, hwg0⟩ := not_or.mp (failIf_ok.mp hfits)
  refine ⟨Nat.le_of_not_lt hlabel, Nat.le_of_not_lt hwg0, b₈, (Except.ok.inj h).symm, ?_⟩
  rw [length_bufSet h₈, List.length_set, length_bufSet h₇, List.length_set, length_bufSet h₆, length_bufSet h₅,
    length_bufSet h₄, length_bufSet h₃, length_bufSet h₂, length_bufSet h₁, List.length_set, List.length_replicate]
  omega

/-- **The encoder writes the packing** of the fields. -/
theorem encodeInvite_packed {t : FriendToken} (h : Packs P t f) (hfit : f.Fit) :
    encodeInvite P U t = .ok (invitePrefix ++ U.encode (packed f)) := by
  have hfits : ¬(255 < (utf8Encode t.from_.label).length ∨ 255 < (utf8Encode t.from_.wg0).length) := by
    rw [h.label, h.wg0]
    exact not_or.mpr ⟨Nat.not_lt.mpr hfit.label, Nat.not_lt.mpr hfit.wg0⟩
  have hissued := length_bigUint64 f.issued.ms
  have hexpires := length_bigUint64 f.expires.ms
  have hzeros : List.replicate (1 + 32 + 32 + 16 + 8 + 8 + 64 + 1 + f.label.length + 1 + f.wg0.length) (0 : UInt8)
      = [0] ++ (List.replicate 32 0 ++ (List.replicate 32 0 ++ (List.replicate 16 0 ++ (List.replicate 8 0 ++
        (List.replicate 8 0 ++ (List.replicate 64 0 ++ ([0] ++ (List.replicate f.label.length 0 ++
          ([0] ++ (List.replicate f.wg0.length 0 ++ [])))))))))) := by
    simp only [List.replicate_add, List.append_assoc, List.append_nil]
    rfl
  -- one write after another, each over its own zeros
  refine bind_ok.mpr ⟨_, orThrow_ok.mpr h.ed, bind_ok.mpr ⟨_, orThrow_ok.mpr h.x, ?_⟩⟩
  refine bind_ok.mpr ⟨_, orThrow_ok.mpr h.nonce, bind_ok.mpr ⟨_, orThrow_ok.mpr h.sig, ?_⟩⟩
  refine bind_ok.mpr ⟨(), failIf_ok.mpr hfits, ?_⟩
  rw [h.label, h.wg0, hzeros]
  refine bind_ok.mpr ⟨_, bufSet_zeros [inviteVersion] _ rfl hfit.ed, ?_⟩
  rw [← List.append_assoc [inviteVersion] f.ed]
  refine bind_ok.mpr ⟨_, bufSet_zeros _ _ (by simp only [List.length_append, List.length_singleton, hfit.ed]) hfit.x, ?_⟩
  rw [← List.append_assoc ([inviteVersion] ++ f.ed) f.x]
  refine bind_ok.mpr ⟨_, bufSet_zeros _ _ (by simp only [List.length_append, List.length_singleton, hfit.ed, hfit.x])
    hfit.nonce, ?_⟩
  rw [← List.append_assoc ([inviteVersion] ++ f.ed ++ f.x) f.nonce]
  refine bind_ok.mpr ⟨_, dateBigInt_ok.mpr ⟨_, h.issued, rfl⟩, ?_⟩
  refine bind_ok.mpr ⟨_, bufSet_zeros _ _ (by simp only [List.length_append, List.length_singleton, hfit.ed, hfit.x,
    hfit.nonce]) hissued, ?_⟩
  rw [← List.append_assoc ([inviteVersion] ++ f.ed ++ f.x ++ f.nonce) (bigUint64 f.issued.ms)]
  refine bind_ok.mpr ⟨_, dateBigInt_ok.mpr ⟨_, h.expires, rfl⟩, ?_⟩
  refine bind_ok.mpr ⟨_, bufSet_zeros _ _ (by simp only [List.length_append, List.length_singleton, hfit.ed, hfit.x,
    hfit.nonce, hissued]) hexpires, ?_⟩
  rw [← List.append_assoc ([inviteVersion] ++ f.ed ++ f.x ++ f.nonce ++ bigUint64 f.issued.ms)]
  refine bind_ok.mpr ⟨_, bufSet_zeros _ _ (by simp only [List.length_append, List.length_singleton, hfit.ed, hfit.x,
    hfit.nonce, hissued, hexpires]) hfit.sig, ?_⟩
  have hheader : [inviteVersion] ++ f.ed ++ f.x ++ f.nonce ++ bigUint64 f.issued.ms ++ bigUint64 f.expires.ms ++ f.sig
      = header f := by simp only [header, List.append_assoc]
  rw [← List.append_assoc _ f.sig, hheader, set_mid (length_header hfit)]
  have hheader' := length_header hfit
  rw [← List.append_assoc (header f)]
  refine bind_ok.mpr ⟨_, bufSet_zeros _ _ (by simp only [List.length_append, List.length_singleton, hheader']) rfl, ?_⟩
  rw [← List.append_assoc _ f.label, set_mid (by simp only [List.length_append, List.length_singleton, hheader']),
    ← List.append_assoc _ [UInt8.ofNat f.wg0.length]]
  refine bind_ok.mpr ⟨_, bufSet_zeros _ _ ?_ rfl, ?_⟩
  · simp only [List.length_append, List.length_singleton, hheader']
    omega
  · simp only [packed, List.append_assoc, List.append_nil]
    rfl

/-! ## What the decoder reads -/

theorem readMs_ok {buf : Bytes} {o : Nat} {n : Int} (h : readMs buf o = .ok n) :
    o + 8 ≤ buf.length ∧ n = bigEndianValue (subarray buf o (o + 8)) := by
  obtain ⟨m, hm, rfl⟩ := map_ok.mp h
  have hm := orThrow_ok.mp hm
  unfold getBigUint64 at hm
  split at hm
  · next hle => exact ⟨hle, congrArg Int.ofNat (Option.some.inj hm).symm⟩
  · cases hm

theorem toISOString_ok {ms : Int} {s : JsString} (h : toISOString P ms = .ok s) :
    ∃ d, d.ms = ms ∧ s = P.toISOString d := by
  unfold toISOString at h
  split at h
  · next d hd =>
      refine ⟨d, ?_, (Except.ok.inj h).symm⟩
      unfold Instant.ofMs at hd
      split at hd
      · exact (congrArg Instant.ms (Option.some.inj hd)).symm
      · cases hd
  · cases h

/-- The token that is read from a buffer, once its times have been. -/
def readToken (P : Platform) (b : Bytes) (issued expires : Instant) : FriendToken :=
  ⟨⟨P.toBase64 (subarray b 1 33), P.toBase64 (subarray b 33 65), (readText b (some 161)).1,
    (readText b (readText b (some 161)).2).1⟩, P.toBase64 (subarray b 65 81), P.toISOString issued, P.toISOString expires,
    P.toBase64 (subarray b 97 161)⟩

/-- **What is decoded**: the fields at the fixed places, cut short where the buffer ends, and the texts behind them. -/
theorem decodeInvite_ok {c : JsString} {t : FriendToken} (h : decodeInvite P U c = .ok t) :
    invitePrefix.isPrefixOf c = true ∧ ∃ b issued expires, U.decode (trim (c.drop invitePrefix.length)) = some b ∧
      b[0]? = some inviteVersion ∧ 97 ≤ b.length ∧ bigUint64 issued.ms = subarray b 81 89 ∧
      bigUint64 expires.ms = subarray b 89 97 ∧ 0 ≤ issued.ms ∧ 0 ≤ expires.ms ∧
      t = readToken P b issued expires := by
  obtain ⟨_, hprefix, h⟩ := bind_ok.mp h
  obtain ⟨b, hb, h⟩ := bind_ok.mp h
  obtain ⟨_, hversion, h⟩ := bind_ok.mp h
  obtain ⟨n, hn, h⟩ := bind_ok.mp h
  obtain ⟨m, hm, h⟩ := bind_ok.mp h
  obtain ⟨issued, hissued, h⟩ := bind_ok.mp h
  obtain ⟨expires, hexpires, h⟩ := bind_ok.mp h
  obtain ⟨_, rfl⟩ := readMs_ok hn
  obtain ⟨hlen, rfl⟩ := readMs_ok hm
  obtain ⟨d, hd, rfl⟩ := toISOString_ok hissued
  obtain ⟨e, he, rfl⟩ := toISOString_ok hexpires
  have h8 : ∀ {o}, o + 8 ≤ b.length → (subarray b o (o + 8)).length = 8 := fun hle => by
    rw [length_subarray_of_le hle, Nat.add_sub_cancel_left]
  refine ⟨by simpa using failIf_ok.mp hprefix, b, d, e, orThrow_ok.mp hb, by simpa using failIf_ok.mp hversion, hlen, ?_, ?_,
    by omega, by omega, (Except.ok.inj h).symm⟩
  · rw [hd]
    exact bigUint64_bigEndianValue (h8 (by omega))
  · rw [he]
    exact bigUint64_bigEndianValue (h8 hlen)

theorem readText_some {b : Bytes} {o : Nat} {len : UInt8} (h : b[o]? = some len) :
    readText b (some o) = (utf8Decode (subarray b (o + 1) (o + 1 + len.toNat)), some (o + 1 + len.toNat)) := by
  unfold readText
  simp only [h]

/-- A length byte holds the length. -/
theorem toNat_length {bs : Bytes} (h : bs.length ≤ 255) : (UInt8.ofNat bs.length).toNat = bs.length :=
  toNat_ofNat8 (Nat.lt_succ_of_le h)

/-- The texts of a buffer that holds the fields. -/
theorem Reads.texts {b : Bytes} (h : Reads b f) (hfit : f.Fit) : (readText b (some 161)).1 = utf8Decode f.label ∧
    (readText b (readText b (some 161)).2).1 = utf8Decode f.wg0 := by
  have hlabel := readText_some h.labelLen
  rw [toNat_length hfit.label, h.label] at hlabel
  have hwg0 := readText_some h.wg0Len
  have hend : 162 + f.label.length + 1 + f.wg0.length = b.length := by
    rw [h.length]
    omega
  rw [toNat_length hfit.wg0, hend, show 162 + f.label.length + 1 = 163 + f.label.length by omega, h.wg0] at hwg0
  rw [hlabel]
  exact ⟨rfl, congrArg Prod.fst hwg0⟩

theorem readMs_of {b : Bytes} {o : Nat} {d : Instant} (hle : o + 8 ≤ b.length)
    (h : subarray b o (o + 8) = bigUint64 d.ms) (h0 : 0 ≤ d.ms) : readMs b o = .ok d.ms := by
  have hvalid := d.valid
  refine map_ok.mpr ⟨bigEndianValue (bigUint64 d.ms), orThrow_ok.mpr ?_, bigEndianValue_bigUint64 h0 (by omega)⟩
  rw [getBigUint64, if_pos hle, h]

theorem toISOString_ms (P : Platform) (d : Instant) : toISOString P d.ms = .ok (P.toISOString d) := by
  unfold toISOString
  rw [Symbolic.ofMs_ms]

theorem UrlBase64.trim_encode (U : UrlBase64) (b : Bytes) : trim (U.encode b) = U.encode b :=
  trim_of_trimmed ⟨fun u hu => U.notSpace b u (List.mem_of_mem_head? hu),
    fun u hu => U.notSpace b u (List.mem_of_getLast? hu)⟩

theorem UrlBase64.encode_inj (U : UrlBase64) {a b : Bytes} (h : U.encode a = U.encode b) : a = b :=
  Option.some.inj ((U.decode_encode a).symm.trans ((congrArg U.decode h).trans (U.decode_encode b)))

/-- The code of a buffer is read back as the buffer. -/
theorem decode_code (b : Bytes) :
    U.decode (trim ((invitePrefix ++ U.encode b).drop invitePrefix.length)) = some b := by
  rw [List.drop_left, U.trim_encode, U.decode_encode]

/-- A code is decoded once the version and the times of its buffer are good. -/
theorem decodeInvite_of {b : Bytes} {issued expires : Instant} (hversion : b[0]? = some inviteVersion)
    (hissued : readMs b 81 = .ok issued.ms) (hexpires : readMs b 89 = .ok expires.ms) :
    decodeInvite P U (invitePrefix ++ U.encode b) = .ok (readToken P b issued expires) := by
  have hprefix : ¬(!invitePrefix.isPrefixOf (invitePrefix ++ U.encode b)) = true := by
    rw [List.isPrefixOf_iff_prefix.mpr (List.prefix_append ..)]
    exact Bool.false_ne_true
  refine bind_ok.mpr ⟨(), failIf_ok.mpr hprefix, bind_ok.mpr ⟨_, orThrow_ok.mpr (decode_code b), ?_⟩⟩
  refine bind_ok.mpr ⟨(), failIf_ok.mpr (not_not_intro hversion), bind_ok.mpr ⟨_, hissued, bind_ok.mpr ⟨_, hexpires, ?_⟩⟩⟩
  exact bind_ok.mpr ⟨_, toISOString_ms P issued, bind_ok.mpr ⟨_, toISOString_ms P expires, rfl⟩⟩

/-- **The decoder reads a packing back.** -/
theorem decodeInvite_packed (hfit : f.Fit) :
    decodeInvite P U (invitePrefix ++ U.encode (packed f)) = .ok (f.token P) := by
  have h := reads_packed hfit
  have hlen := h.length
  obtain ⟨hlabel, hwg0⟩ := h.texts hfit
  rw [decodeInvite_of h.version (readMs_of (by omega) h.issued hfit.issued) (readMs_of (by omega) h.expires hfit.expires)]
  rw [readToken, Fields.token, ← hlabel, ← hwg0, h.ed, h.x, h.nonce, h.sig]

/-! ## Minted tokens -/

/-- `decodeInvite(encodeInvite(t))` is `t`, and what verifies of the one verifies of the other. -/
def RoundTrips (P : Platform) (U : UrlBase64) (t : FriendToken) : Prop :=
  ∃ code t', encodeInvite P U t = .ok code ∧ decodeInvite P U code = .ok t' ∧ t' = t ∧
    ∀ now, verifyToken P t'.value now = verifyToken P t.value now

/-- A packed token comes back as the token of its fields. -/
theorem roundTrips_iff {t : FriendToken} (hpacks : Packs P t f) (hfit : f.Fit) : RoundTrips P U t ↔ f.token P = t := by
  have hencode := encodeInvite_packed (U := U) hpacks hfit
  have hdecode := decodeInvite_packed (P := P) (U := U) hfit
  constructor
  · rintro ⟨code, t', hcode, ht', rfl, _⟩
    obtain rfl := Except.ok.inj (hencode.symm.trans hcode)
    exact Except.ok.inj (hdecode.symm.trans ht')
  · intro htoken
    rw [htoken] at hdecode
    exact ⟨_, _, hencode, hdecode, rfl, fun _ => rfl⟩

/-- The fields of a minted token. -/
def mintedFields (me : Self) (random : Bytes) (now expires : Instant) (sig : Bytes) : Fields :=
  ⟨me.id.edPublic, me.id.xPublic, random, now, expires, sig, utf8Encode me.label, utf8Encode me.wg0⟩

def mintedToken (P : Platform) (me : Self) (random : Bytes) (now expires : Instant) (sig : Bytes) : FriendToken :=
  ⟨⟨P.toBase64 me.id.edPublic, P.toBase64 me.id.xPublic, me.label, me.wg0⟩, P.toBase64 random, P.toISOString now,
    P.toISOString expires, P.toBase64 sig⟩

theorem packs_minted (hbase64 : ∀ raw, P.fromBase64 (P.toBase64 raw) = some raw) (hdates : ∀ d, Dated P d) (me : Self)
    (random : Bytes) (now expires : Instant) (sig : Bytes) :
    Packs P (mintedToken P me random now expires sig) (mintedFields me random now expires sig) :=
  ⟨hbase64 _, hbase64 _, hbase64 _, hdates now, hdates expires, hbase64 _, rfl, rfl⟩

/-- Only the texts are decoded from what they were encoded to. -/
theorem mintedFields_token {me : Self} {random : Bytes} {now expires : Instant} {sig : Bytes} :
    (mintedFields me random now expires sig).token P = mintedToken P me random now expires sig ↔
      utf8Decode (utf8Encode me.label) = me.label ∧ utf8Decode (utf8Encode me.wg0) = me.wg0 := by
  constructor
  · intro heq
    exact ⟨congrArg (fun t : FriendToken => t.from_.label) heq, congrArg (fun t : FriendToken => t.from_.wg0) heq⟩
  · rintro ⟨hlabel, hwg0⟩
    show (⟨⟨_, _, utf8Decode (utf8Encode me.label), utf8Decode (utf8Encode me.wg0)⟩, _, _, _, _⟩ : FriendToken) = _
    rw [hlabel, hwg0]
    rfl

/-- **When an invite code round-trips**: unless the label or the address begins with a byte order mark. -/
theorem invite_round_trip_iff (P : Platform) (U : UrlBase64) (hbase64 : ∀ raw, P.fromBase64 (P.toBase64 raw) = some raw)
    (hdates : ∀ d, Dated P d) (hsigs : ∀ msg sk, (P.signDetached msg sk).length = 64) {me : Self} {ttlSeconds : ℚ}
    {random : Bytes} {now : Instant} {v : Value} (hed : me.id.edPublic.length = 32) (hx : me.id.xPublic.length = 32)
    (hrandom : random.length = 16) (hlabel : WellFormed me.label) (hwg0 : WellFormed me.wg0)
    (hlabelLen : (utf8Encode me.label).length ≤ 255) (hwg0Len : (utf8Encode me.wg0).length ≤ 255)
    (hnow : 0 ≤ now.ms) (httl : 0 ≤ ttlSeconds) (minted : makeToken P me ttlSeconds random now = .ok v) :
    ∃ t : FriendToken, v = t.value ∧
      (RoundTrips P U t ↔ me.label.head? ≠ some 0xfeff ∧ me.wg0.head? ≠ some 0xfeff) := by
  obtain ⟨expires, m, hexpires, _, rfl⟩ := makeToken_ok minted
  refine ⟨mintedToken P me random now expires (P.signDetached m me.id.edSecret), rfl, ?_⟩
  have hfit : (mintedFields me random now expires (P.signDetached m me.id.edSecret)).Fit :=
    ⟨hed, hx, hrandom, hnow, Instant.addSeconds_nonneg hnow httl hexpires, hsigs _ _, hlabelLen, hwg0Len⟩
  rw [roundTrips_iff (packs_minted hbase64 hdates ..) hfit, mintedFields_token]
  rw [utf8Decode_utf8Encode_iff hlabel, utf8Decode_utf8Encode_iff hwg0]

namespace Symbolic

/-- The URL-safe alphabet. -/
def base64Url : UrlBase64 where
  encode        := base64UrlEncode
  decode        := base64UrlDecode
  decode_encode := base64UrlDecode_encode
  encode_decode := base64UrlEncode_decode
  notSpace      := base64UrlEncode_notSpace

/-- The numbers of the key and of the message, in 64 bytes. -/
def signature (msg key : Bytes) : Bytes := bigEndian 32 (bigEndianValue key) ++ bigEndian 32 (bigEndianValue msg)

/-- The platform with keys of 32 bytes. -/
def sized : Platform :=
  { dated with
    signDetached := signature
    verifyDetached := fun sig msg pk => if pk.length = 32 then some (sig = signature msg pk) else none }

def key : Bytes := List.replicate 32 7

def nonce : Bytes := List.replicate 16 9

/-- The owner of the key, under this label. -/
def labelled (label : JsString) : Self := ⟨⟨key, key, key, key⟩, label, js "10.42.0.1"⟩

theorem length_signature (msg key : Bytes) : (signature msg key).length = 64 := by
  rw [signature, List.length_append, length_bigEndian, length_bigEndian]

theorem labelled_fit (label : JsString) (msg : Bytes) (h : (utf8Encode label).length ≤ 255) :
    (mintedFields (labelled label) nonce epoch ⟨60000, by decide⟩ (signature msg key)).Fit :=
  ⟨rfl, rfl, rfl, Int.le_refl 0, show (0 : Int) ≤ 60000 by decide, length_signature _ _, h,
    show (utf8Encode (js "10.42.0.1")).length ≤ 255 by decide⟩

theorem wellFormed_home : WellFormed (js "home") := (IsAscii.of_all (by decide)).wellFormed

/-- An ASCII label. -/
theorem plain_label_kept : ∃ t : FriendToken, makeToken sized (labelled (js "home")) 60 nonce epoch = .ok t.value ∧
    RoundTrips sized base64Url t := by
  obtain ⟨v, minted⟩ := makeToken_mints (P := sized) (labelled (js "home")) nonce minute_expires
  obtain ⟨t, rfl, h⟩ := invite_round_trip_iff sized base64Url fromHex_toHex dated_round length_signature rfl rfl rfl
    wellFormed_home (IsAscii.of_all (by decide)).wellFormed (by decide) (by decide) (by decide) (by norm_num) minted
  exact ⟨t, minted, h.mpr ⟨by decide, by decide⟩⟩

/-- A label with a byte order mark in front: the code is refused by nobody, and its token carries another label. -/
theorem marked_label_lost : ∃ t : FriendToken, WellFormed (0xfeff :: js "home") ∧
    makeToken sized (labelled (0xfeff :: js "home")) 60 nonce epoch = .ok t.value ∧ ¬RoundTrips sized base64Url t := by
  have hwf : WellFormed (0xfeff :: js "home") := (wellFormed_cons (by decide)).mpr wellFormed_home
  obtain ⟨v, minted⟩ := makeToken_mints (P := sized) (labelled (0xfeff :: js "home")) nonce minute_expires
  obtain ⟨expires, m, hexpires, _, rfl⟩ := makeToken_ok minted
  obtain rfl := Option.some.inj (minute_expires.symm.trans hexpires)
  have hpacks := packs_minted (P := sized) fromHex_toHex dated_round (labelled (0xfeff :: js "home")) nonce epoch
    ⟨60000, by decide⟩ (signature m key)
  refine ⟨mintedToken sized (labelled (0xfeff :: js "home")) nonce epoch ⟨60000, by decide⟩ (signature m key), hwf, minted,
    fun h => ?_⟩
  have htoken := (roundTrips_iff hpacks (labelled_fit _ m (by decide))).mp h
  exact absurd rfl ((utf8Decode_utf8Encode_iff hwf).mp (mintedFields_token.mp htoken).1)

end Symbolic

/-! ## Complete codes -/

/-- The bytes are the UTF-8 of a text without byte order mark. -/
def Utf8Text (bs : Bytes) : Prop := ∃ s, WellFormed s ∧ s.head? ≠ some 0xfeff ∧ utf8Encode s = bs

/-- No white space after the prefix, two length bytes that account for every byte of the buffer, and two texts. -/
structure Complete (U : UrlBase64) (c : JsString) : Prop where
  unspaced : trim (c.drop invitePrefix.length) = c.drop invitePrefix.length
  payload  : ∃ b label wg0, U.decode (c.drop invitePrefix.length) = some b ∧ b[161]? = some label ∧
    b[162 + label.toNat]? = some wg0 ∧ b.length = 163 + label.toNat + wg0.toNat ∧
    Utf8Text (subarray b 162 (162 + label.toNat)) ∧ Utf8Text (subarray b (163 + label.toNat) b.length)

theorem Utf8Text.round {bs : Bytes} (h : Utf8Text bs) : utf8Encode (utf8Decode bs) = bs := by
  obtain ⟨s, hs, hmark, rfl⟩ := h
  rw [utf8Decode_utf8Encode hs hmark]

/-- Decoded text whose encoding decodes to it. -/
theorem utf8Text_of_decoded {s : JsString} {bs : Bytes} (hs : s = utf8Decode bs) (h : utf8Decode (utf8Encode s) = s) :
    Utf8Text (utf8Encode s) := by
  have hwf : WellFormed s := hs ▸ wellFormed_utf8Decode bs
  exact ⟨s, hwf, (utf8Decode_utf8Encode_iff hwf).mp h, rfl⟩

/-- What is read as text is decoded from some bytes. -/
theorem readText_decoded (b : Bytes) (o : Option Nat) : ∃ bs, (readText b o).1 = utf8Decode bs := by
  unfold readText
  split
  · exact ⟨[], rfl⟩
  · split
    · exact ⟨[], rfl⟩
    · exact ⟨_, rfl⟩

/-- The fields that stand in a buffer of at least the fixed length, with texts of one's own. -/
def fieldsOf (b : Bytes) (issued expires : Instant) (label wg0 : Bytes) : Fields :=
  ⟨subarray b 1 33, subarray b 33 65, subarray b 65 81, issued, expires, subarray b 97 161, label, wg0⟩

theorem fieldsOf_fit {b label wg0 : Bytes} {issued expires : Instant} (hlen : 161 ≤ b.length) (hissued : 0 ≤ issued.ms)
    (hexpires : 0 ≤ expires.ms) (hlabel : label.length ≤ 255) (hwg0 : wg0.length ≤ 255) :
    (fieldsOf b issued expires label wg0).Fit :=
  ⟨length_subarray_of_le (by omega), length_subarray_of_le (by omega), length_subarray_of_le (by omega), hissued, hexpires,
    length_subarray_of_le hlen, hlabel, hwg0⟩

/-- The token read from a buffer has the fields that stand in it, with its own texts encoded again. -/
theorem packs_readToken (hbase64 : ∀ raw, P.fromBase64 (P.toBase64 raw) = some raw) (hdates : ∀ d, Dated P d) (b : Bytes)
    (issued expires : Instant) :
    Packs P (readToken P b issued expires) (fieldsOf b issued expires
      (utf8Encode (readToken P b issued expires).from_.label) (utf8Encode (readToken P b issued expires).from_.wg0)) :=
  ⟨hbase64 _, hbase64 _, hbase64 _, hdates issued, hdates expires, hbase64 _, rfl, rfl⟩

/-- A buffer that holds fields with texts in them is complete. -/
theorem Reads.complete {b : Bytes} (h : Reads b f) (hfit : f.Fit) (hlabel : Utf8Text f.label) (hwg0 : Utf8Text f.wg0) :
    Complete U (invitePrefix ++ U.encode b) where
  unspaced := by rw [List.drop_left, U.trim_encode]
  payload := by
    refine ⟨b, UInt8.ofNat f.label.length, UInt8.ofNat f.wg0.length, by rw [List.drop_left, U.decode_encode], h.labelLen, ?_⟩
    rw [toNat_length hfit.label, toNat_length hfit.wg0, h.label, h.wg0]
    exact ⟨h.wg0Len, h.length, hlabel, hwg0⟩

/-- The fields of a complete buffer. -/
theorem reads_fieldsOf {b : Bytes} {issued expires : Instant} {label wg0 : UInt8} (hversion : b[0]? = some inviteVersion)
    (hissued : bigUint64 issued.ms = subarray b 81 89) (hexpires : bigUint64 expires.ms = subarray b 89 97)
    (hlabel : b[161]? = some label) (hwg0 : b[162 + label.toNat]? = some wg0)
    (hlength : b.length = 163 + label.toNat + wg0.toNat) :
    Reads b (fieldsOf b issued expires (subarray b 162 (162 + label.toNat)) (subarray b (163 + label.toNat) b.length)) := by
  have hlabelLen : (subarray b 162 (162 + label.toNat)).length = label.toNat := by
    rw [length_subarray_of_le (by omega), Nat.add_sub_cancel_left]
  have hwg0Len : (subarray b (163 + label.toNat) b.length).length = wg0.toNat := by
    rw [length_subarray_of_le (Nat.le_refl _)]
    omega
  refine ⟨hversion, rfl, rfl, rfl, hissued.symm, hexpires.symm, rfl, ?_, ?_, ?_, ?_, ?_⟩
  all_goals dsimp only [fieldsOf]
  · rw [hlabelLen, UInt8.ofNat_toNat]
    exact hlabel
  · rw [hlabelLen]
  · rw [hlabelLen, hwg0Len, UInt8.ofNat_toNat]
    exact hwg0
  · rw [hlabelLen]
  · rw [hlabelLen, hwg0Len]
    exact hlength

/-- **When a decoded code is the code of its token**: exactly if it is complete. -/
theorem invite_complete_iff (P : Platform) (U : UrlBase64) (hbase64 : ∀ raw, P.fromBase64 (P.toBase64 raw) = some raw)
    (hdates : ∀ d, Dated P d) {c : JsString} {t : FriendToken} (h : decodeInvite P U c = .ok t) :
    encodeInvite P U t = .ok c ↔ Complete U c := by
  obtain ⟨hstart, b, issued, expires, hb, hversion, hlen, hissued, hexpires, hissued0, hexpires0, rfl⟩ := decodeInvite_ok h
  obtain ⟨r, rfl⟩ := List.isPrefixOf_iff_prefix.mp hstart
  rw [List.drop_left] at hb
  have hpacks := packs_readToken hbase64 hdates b issued expires
  constructor
  · intro hencode
    obtain ⟨hlabel, hwg0, buf, heq, hbuf⟩ := encodeInvite_ok hencode
    obtain rfl := List.append_cancel_left heq
    -- the buffer written is the buffer read, so it is long enough for every field
    rw [U.trim_encode, U.decode_encode] at hb
    obtain rfl := Option.some.inj hb
    have hfit := fieldsOf_fit (b := buf) (by omega) hissued0 hexpires0 hlabel hwg0
    have hcode := Except.ok.inj ((encodeInvite_packed hpacks hfit).symm.trans hencode)
    have hpacked := U.encode_inj (List.append_cancel_left hcode)
    have hreads := reads_packed hfit
    rw [hpacked] at hreads
    obtain ⟨htext, htext'⟩ := hreads.texts hfit
    obtain ⟨_, hdecoded⟩ := readText_decoded buf (some 161)
    obtain ⟨_, hdecoded'⟩ := readText_decoded buf (readText buf (some 161)).2
    exact hreads.complete hfit (utf8Text_of_decoded hdecoded htext.symm) (utf8Text_of_decoded hdecoded' htext'.symm)
  · rintro ⟨hunspaced, b', label, wg0, hb', hlabel, hwg0, hlength, htext, htext'⟩
    rw [List.drop_left] at hunspaced hb'
    rw [hunspaced] at hb
    obtain rfl := Option.some.inj (hb.symm.trans hb')
    have hlabel255 : label.toNat < 256 := label.toNat_lt
    have hwg0255 : wg0.toNat < 256 := wg0.toNat_lt
    have hread : (readToken P b issued expires).from_.label = utf8Decode (subarray b 162 (162 + label.toNat)) :=
      congrArg Prod.fst (readText_some hlabel)
    have hread' : (readToken P b issued expires).from_.wg0 = utf8Decode (subarray b (163 + label.toNat) b.length) := by
      have hend : (readText b (some 161)).2 = some (162 + label.toNat) := congrArg Prod.snd (readText_some hlabel)
      show (readText b (readText b (some 161)).2).1 = _
      rw [hend, readText_some hwg0, show 162 + label.toNat + 1 = 163 + label.toNat by omega, hlength]
    rw [hread, hread', htext.round, htext'.round] at hpacks
    have hreads := reads_fieldsOf hversion hissued hexpires hlabel hwg0 hlength
    have hfit : (fieldsOf b issued expires (subarray b 162 (162 + label.toNat)) (subarray b (163 + label.toNat) b.length)).Fit :=
      fieldsOf_fit (by omega) hissued0 hexpires0 (by rw [length_subarray]; omega) (by rw [length_subarray]; omega)
    rw [encodeInvite_packed hpacks hfit, hreads.packed, U.encode_decode hb]

namespace Symbolic

/-- A code that ends before the signature. -/
def truncated : Bytes := 1 :: List.replicate 96 0

/-- It is accepted, and the code of its token is another one. -/
theorem truncated_accepted : ∃ t, decodeInvite sized base64Url (invitePrefix ++ base64Url.encode truncated) = .ok t ∧
    encodeInvite sized base64Url t ≠ .ok (invitePrefix ++ base64Url.encode truncated) := by
  have hissued : readMs truncated 81 = .ok epoch.ms := readMs_of (by decide) (by decide) (by decide)
  have hexpires : readMs truncated 89 = .ok epoch.ms := readMs_of (by decide) (by decide) (by decide)
  refine ⟨_, decodeInvite_of rfl hissued hexpires, fun h => ?_⟩
  obtain ⟨_, _, buf, heq, hlen⟩ := encodeInvite_ok h
  have hbuf : truncated = buf := base64Url.encode_inj (List.append_cancel_left heq)
  have hshort : truncated.length = 97 := rfl
  rw [← hbuf] at hlen
  omega

/-- The code of a minted token. -/
theorem minted_complete : ∃ c t, decodeInvite sized base64Url c = .ok t ∧ encodeInvite sized base64Url t = .ok c := by
  have hfit := labelled_fit (js "home") [] (by decide)
  have hdecode := decodeInvite_packed (P := sized) (U := base64Url) hfit
  have hlabel : Utf8Text (utf8Encode (js "home")) := ⟨_, wellFormed_home, by decide, rfl⟩
  have hwg0 : Utf8Text (utf8Encode (js "10.42.0.1")) := ⟨_, (IsAscii.of_all (by decide)).wellFormed, by decide, rfl⟩
  exact ⟨_, _, hdecode, (invite_complete_iff sized base64Url fromHex_toHex dated_round hdecode).mpr
    ((reads_packed hfit).complete hfit hlabel hwg0)⟩

end Symbolic

end Island
end VpnPi
