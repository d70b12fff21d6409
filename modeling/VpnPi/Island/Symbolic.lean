import VpnPi.Island.FriendSteps

/-!
# `Island.Symbolic` — a platform one can compute with

Keys are single bytes, public and secret alike; a signature is its key followed by the message, a sealed
box its recipient followed by the message, so each verifies and opens under that key only. Bytes travel as
hexadecimal digits. Dates are exact on the first day of the epoch, which is all the runs below use.
-/

namespace VpnPi
namespace Island
namespace Symbolic

open Js

/-! ## Hexadecimal text -/

def toHex : Bytes → JsString
  | [] => []
  | b :: bs => hexDigit (b.toNat / 16) :: hexDigit (b.toNat % 16) :: toHex bs

def fromHex : JsString → Option Bytes
  | [] => some []
  | [_] => none
  | a :: b :: s =>
      match hexValue a, hexValue b, fromHex s with
      | some x, some y, some bs => some (UInt8.ofNat (x * 16 + y) :: bs)
      | _, _, _ => none

theorem fromHex_toHex (bs : Bytes) : fromHex (toHex bs) = some bs := by
  induction bs with
  | nil => rfl
  | cons b bs ih =>
      have hlt : b.toNat < 256 := b.toNat_lt
      have h1 := hexValue_hexDigit (b.toNat / 16) (by omega)
      have h2 := hexValue_hexDigit (b.toNat % 16) (by omega)
      simp only [toHex, fromHex, h1, h2, ih]
      rw [show b.toNat / 16 * 16 + b.toNat % 16 = b.toNat by omega, UInt8.ofNat_toNat]

theorem isSpace_hexDigit : ∀ n, n < 16 → isSpace (hexDigit n) = false := by decide

theorem toHex_notSpace (bs : Bytes) : ∀ u ∈ toHex bs, isSpace u = false := by
  induction bs with
  | nil => nofun
  | cons b bs ih =>
      have hlt : b.toNat < 256 := b.toNat_lt
      refine List.forall_mem_cons.mpr ⟨isSpace_hexDigit _ (by omega), ?_⟩
      exact List.forall_mem_cons.mpr ⟨isSpace_hexDigit _ (by omega), ih⟩

theorem dropWhile_none {s : JsString} (h : ∀ u ∈ s, isSpace u = false) : s.dropWhile isSpace = s := by
  cases s with
  | nil => rfl
  | cons u s => rw [List.dropWhile_cons_of_neg (by simp [h u (List.mem_cons_self ..)])]

theorem trim_toHex (bs : Bytes) : trim (toHex bs) = toHex bs := by
  have h := toHex_notSpace bs
  have hr : ∀ u ∈ (toHex bs).reverse, isSpace u = false := fun u hu => h u (List.mem_reverse.mp hu)
  rw [trim, trimStart, trimEnd, dropWhile_none h, dropWhile_none hr, List.reverse_reverse]

/-! ## Dates -/

def digit (n : Int) : UInt16 := UInt16.ofNat (0x30 + (n % 10).toNat)

/-- `1970-01-01Thh:mm:ss.mmmZ`. -/
def isoString (d : Instant) : JsString :=
  js "1970-01-01T" ++
    [digit (d.ms / 36000000), digit (d.ms / 3600000), 0x3a, digit (d.ms / 60000 % 60 / 10),
      digit (d.ms / 60000), 0x3a, digit (d.ms / 1000 % 60 / 10), digit (d.ms / 1000), 0x2e,
      digit (d.ms / 100), digit (d.ms / 10), digit d.ms, 0x5a]

def digitValue (u : UInt16) : Int := u.toNat - 0x30

def parseIso (s : JsString) : Option Instant :=
  match expectPrefix (js "1970-01-01T") s with
  | some [h, h', _, m, m', _, s, s', _, a, b, c, _] =>
      Instant.ofMs (((digitValue h * 10 + digitValue h') * 60 + digitValue m * 10 + digitValue m') * 60000
        + (digitValue s * 10 + digitValue s') * 1000
        + digitValue a * 100 + digitValue b * 10 + digitValue c)
  | _ => none
where
  expectPrefix (p s : JsString) : Option JsString :=
    if p.isPrefixOf s then some (s.drop p.length) else none

def toNumber (lit : JsString) : Number :=
  if isJsonNumber lit then .finite lit (lit.all fun u => isDigit u || u = 0x2d) else .infinite false

theorem intText_integral (n : Int) : ((intText n).all fun u => isDigit u || u = 0x2d) = true := by
  have hd : ((natText n.natAbs).all fun u => isDigit u || u = 0x2d) = true := by
    rw [List.all_eq_true]
    intro u hu
    rw [natText_digits _ u hu, Bool.true_or]
  unfold intText
  split
  · rw [List.all_cons, hd]
    rfl
  · exact hd

/-! ## The platform -/

def platform : Platform where
  toNumber := toNumber
  toNumber_text := by
    intro lit t i h
    unfold toNumber at h
    split at h
    · next hlit => cases h; exact ⟨hlit, if_pos hlit⟩
    · cases h
  toNumber_int := by
    intro n _ _
    rw [toNumber, if_pos (isJsonNumber_intText n), Number.ofInt, intText_integral]
  dateParse := parseIso
  toISOString := isoString
  toBase64 := toHex
  fromBase64 := fromHex
  signDetached := fun msg sk => sk ++ msg
  verifyDetached := fun sig msg pk => if pk.length = 1 then some (sig = pk ++ msg) else none
  boxSeal := fun _ msg pk => if pk.length = 1 then some (pk ++ msg) else none
  boxSealOpen := fun sealed pk sk =>
    if sk = pk ∧ pk.length = 1 ∧ pk.isPrefixOf sealed then some (sealed.drop 1) else none
  genericHash := id

/-- A date outside the first day is written as its milliseconds. -/
def isoText (d : Instant) : JsString :=
  if 0 ≤ d.ms ∧ d.ms < 86400000 then isoString d else 0x40 :: intText d.ms

def parseText : JsString → Option Instant
  | [] => none
  | u :: s => if u = 0x40 then Instant.ofMs (integerOf s) else parseIso (u :: s)

/-- The platform with dates for every instant. -/
def dated : Platform := { platform with dateParse := parseText, toISOString := isoText }

theorem digitValue_digit (n : Int) : digitValue (digit n) = n % 10 := by
  have hlt : 0x30 + (n % 10).toNat < 0x10000 := by omega
  have hnat : (digit n).toNat = 0x30 + (n % 10).toNat := by
    rw [digit, UInt16.toNat_ofNat']
    exact Nat.mod_eq_of_lt hlt
  rw [digitValue, hnat]
  omega

theorem ofMs_ms (d : Instant) : Instant.ofMs d.ms = some d := dif_pos d.valid

theorem parseIso_isoString {d : Instant} (h : 0 ≤ d.ms ∧ d.ms < 86400000) : parseIso (isoString d) = some d := by
  have hms : ((d.ms / 36000000 % 10 * 10 + d.ms / 3600000 % 10) * 60 + d.ms / 60000 % 60 / 10 % 10 * 10
        + d.ms / 60000 % 10) * 60000
      + (d.ms / 1000 % 60 / 10 % 10 * 10 + d.ms / 1000 % 10) * 1000
      + d.ms / 100 % 10 * 100 + d.ms / 10 % 10 * 10 + d.ms % 10 = d.ms := by omega
  show Instant.ofMs (((digitValue (digit _) * 10 + digitValue (digit _)) * 60 + digitValue (digit _) * 10
    + digitValue (digit _)) * 60000 + (digitValue (digit _) * 10 + digitValue (digit _)) * 1000
    + digitValue (digit _) * 100 + digitValue (digit _) * 10 + digitValue (digit _)) = some d
  simp only [digitValue_digit]
  rw [hms, ofMs_ms]

/-- A date survives being written. -/
theorem dated_round (d : Instant) : dated.dateParse (dated.toISOString d) = some d := by
  show parseText (isoText d) = some d
  unfold isoText
  split
  · next h => exact parseIso_isoString h
  · rw [parseText, if_pos rfl, integerOf_intText, ofMs_ms]

/-- The identity with keys `n` and `100 + n`. -/
def identity (n : UInt8) : Identity := ⟨[n], [n], [100 + n], [100 + n]⟩

theorem fromB64_toHex (bs : Bytes) : fromB64 platform (.str (toHex bs)) = .ok bs := by
  show orThrow _ (fromHex (trim (toHex bs))) = _
  rw [trim_toHex, fromHex_toHex]
  rfl

/-! ## A handshake -/

def node (n : UInt8) : Self := ⟨identity n, js "node", js "10.42.0.1"⟩

def epoch : Instant := ⟨0, by decide⟩

/-- The token node `n` mints at the epoch, good for a minute. -/
def invite (n : UInt8) (random : Bytes) : Value :=
  ((makeToken platform (node n) 60 random epoch).toOption).getD .undefined

theorem invite_wf : (invite 1 [7]).WF platform.toEngine :=
  makeToken_wf (show makeToken platform (node 1) 60 [7] epoch = .ok (invite 1 [7]) by decide +kernel)

theorem invite_verified :
    verifyToken platform (invite 1 [7]) epoch = .ok (peerPubOf platform (node 1)) := by
  decide +kernel

theorem invite_nonce : prop (invite 1 [7]) (js "nonce") = .ok (.str (toHex [7])) := by
  decide +kernel

/-- What node 2 answers to node 1's token. -/
def reply : JsString := ((makeAccept platform (node 2) (invite 1 [7]) [] epoch).toOption).getD []

theorem invite_sealed : makeAccept platform (node 2) (invite 1 [7]) [] epoch = .ok reply := by
  decide +kernel

/-- Node 2 after receiving node 1's token. -/
def requested : FriendBook :=
  { FriendBook.empty with
    pending := FriendBook.empty.pending.set (toHex [1]) (pendingEntry platform (invite 1 [7]) epoch) }

theorem requested_pending :
    requested.pending.get (toHex [1]) = some (pendingEntry platform (invite 1 [7]) epoch) := rfl

/-- Node 2 after accepting it. -/
def befriended : FriendBook :=
  { requested with
    pending := requested.pending.delete (toHex [1])
    consumed := setAdd requested.consumed (.str (toHex [7]))
    friends := requested.friends.set (toHex [1])
      (friendRecord platform (peerPubOf platform (node 1)) (.str (toHex [7])) epoch) }

theorem invite_received : Commit platform (node 2) (.receive (invite 1 [7]) epoch) .empty .empty
    (.ok (peerPubOf platform (node 1))) requested :=
  .receive invite_verified invite_nonce (by decide) rfl (by decide)

theorem invite_accepted : Commit platform (node 2) (.accept (toHex [1]) [] epoch) requested requested
    (.ok (.str reply)) befriended := by
  obtain ⟨hpeer, hfresh, _⟩ := verifyToken_ok invite_verified
  exact .accept requested_pending rfl hfresh invite_sealed invite_nonce hpeer

end Symbolic
end Island
end VpnPi
