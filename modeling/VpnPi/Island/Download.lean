import VpnPi.Island.RemoteShare
import VpnPi.Island.ShareRefinement

/-!
# `Island.Download` — a stored file and its `Content-Disposition`

The header of a download carries the name twice: with every unit outside printable ASCII replaced, between quotation
marks, and percent-encoded behind `filename*=`. Whoever reads the second takes only what the grammar of an extended
value allows there (`octets`), and finds the UTF-8 of the name (`octets_starName`).

A name ends where the cut after 160 units has ended it. `SplitsPair` says that the cut falls between the halves of a
surrogate pair; the stored name then is no text, and `encodeURIComponent` throws (`stored_file_downloads_iff`).
-/

namespace VpnPi
namespace Island

open Js Async

/-! ## The reader of `filename*=UTF-8''…` -/

/-- An `attr-char`: what stands for itself in an extended value. -/
def isAttrChar (u : UInt16) : Bool :=
  isDigit u || (0x41 ≤ u && u ≤ 0x5a) || (0x61 ≤ u && u ≤ 0x7a) || [0x21, 0x23, 0x24, 0x26, 0x2b, 0x2d, 0x2e, 0x5e, 0x5f,
    0x60, 0x7c, 0x7e].contains u

/-- The bytes of an extended value; `none` if something stands in it that the grammar does not allow. -/
def octets : JsString → Option Bytes
  | [] => some []
  | 0x25 :: a :: b :: s =>
      match hexValue a, hexValue b, octets s with
      | some x, some y, some bs => some (UInt8.ofNat (x * 16 + y) :: bs)
      | _, _, _ => none
  | u :: s => if isAttrChar u then (octets s).map fun bs => UInt8.ofNat u.toNat :: bs else none

/-- The text of an extended value. -/
def extendedValue (s : JsString) : Option JsString := (octets s).map fun bs => (decodeFrom .start bs).flatMap unitsOf

/-! ## What is claimed of a name and of a download -/

/-- A name that is safe to store, and text. -/
structure SafeName (name : JsString) : Prop where
  ne_nil     : name ≠ []
  not_dot    : name ≠ js "."
  not_dotdot : name ≠ js ".."
  safe       : ∀ u ∈ name, u ≠ 0x2f ∧ u ≠ 0x5c ∧ u ≠ 0x22 ∧ 0x20 ≤ u ∧ u ≠ 0x7f
  length     : name.length ≤ 160
  wellFormed : WellFormed name

/-- The response carries the content, and a header in which the quoted name is printable and the other is the name. -/
structure Downloads (r : Response) (name : JsString) (content : Bytes) : Prop where
  status : r.status = 200
  body   : r.body = content
  header : ∃ quoted star, r.contentDisposition
      = some (js "attachment; filename=\"" ++ quoted ++ js "\"; filename*=UTF-8''" ++ star) ∧
    (∀ u ∈ quoted, 0x20 ≤ u ∧ u ≤ 0x7e ∧ u ≠ 0x22 ∧ u ≠ 0x5c) ∧ extendedValue star = some name

/-! ## Percent-encoding -/

theorem hexValue_hexUpper : ∀ n, n < 16 → hexValue (hexUpper n) = some n := by decide

theorem octets_percent {n : Nat} (h : n < 256) (s : JsString) :
    octets (percent n ++ s) = (octets s).map fun bs => UInt8.ofNat n :: bs := by
  have hhi := hexValue_hexUpper (n / 16) (by omega)
  have hlo := hexValue_hexUpper (n % 16) (by omega)
  show octets (0x25 :: hexUpper (n / 16) :: hexUpper (n % 16) :: s) = _
  rw [octets]
  simp only [hhi, hlo]
  cases octets s with
  | none => rfl
  | some bs =>
      show some _ = some _
      rw [show n / 16 * 16 + n % 16 = n by omega]

theorem octets_attrChar {u : UInt16} (h : isAttrChar u = true) (s : JsString) :
    octets (u :: s) = (octets s).map fun bs => UInt8.ofNat u.toNat :: bs := by
  have hne : u ≠ 0x25 := by
    rintro rfl
    exact absurd h (by decide)
  rw [octets.eq_def]
  split
  · next heq => cases heq
  · next heq => exact absurd (List.head_eq_of_cons_eq heq) hne
  · next heq =>
      obtain ⟨rfl, rfl⟩ := List.cons.inj heq
      rw [if_pos h]

theorem mark_isAttrChar : ((js "-_.!~*'()").all fun u => (js "'()*").contains u || isAttrChar u) = true := by decide

/-- What `encodeURIComponent` leaves and the second replacement too. -/
theorem isAttrChar_of_unreserved {u : UInt16} (h : isUriUnreserved u = true) (hq : (js "'()*").contains u = false) :
    isAttrChar u = true := by
  unfold isUriUnreserved at h
  rcases (Bool.or_eq_true ..).mp h with h | h
  · unfold isAttrChar
    rw [h, Bool.true_or]
  · have hmark := List.all_eq_true.mp mark_isAttrChar u (List.contains_iff_mem.mp h)
    rwa [hq, Bool.false_or] at hmark

/-- The second replacement. -/
def escapeUnit (u : UInt16) : JsString := if (js "'()*").contains u then percent u.toNat else [u]

/-- What becomes of a byte of the name. -/
def starByte (b : UInt8) : JsString :=
  (if isUriUnreserved (UInt16.ofNat b.toNat) then [UInt16.ofNat b.toNat] else percent b.toNat).flatMap escapeUnit

theorem starName_eq {name : JsString} (h : WellFormed name) : starName name = some ((utf8Encode name).flatMap starByte) := by
  rw [starName, encodeURIComponent, if_pos (toWellFormed_of_wellFormed h), Option.map_some]
  exact congrArg some List.flatMap_assoc

theorem hexUpper_not_quote : ∀ n, n < 16 → (js "'()*").contains (hexUpper n) = false := by decide

/-- What is escaped already stays. -/
theorem escape_percent {n : Nat} (h : n < 256) : (percent n).flatMap escapeUnit = percent n := by
  have hhi := hexUpper_not_quote (n / 16) (by omega)
  have hlo := hexUpper_not_quote (n % 16) (by omega)
  simp only [percent, List.flatMap_cons, List.flatMap_nil, escapeUnit, hhi, hlo]
  rfl

theorem octets_starByte (b : UInt8) (s : JsString) : octets (starByte b ++ s) = (octets s).map fun bs => b :: bs := by
  have hlt : b.toNat < 256 := b.toNat_lt
  have hunit : (UInt16.ofNat b.toNat).toNat = b.toNat := by
    rw [UInt16.toNat_ofNat']
    omega
  unfold starByte
  cases hb : isUriUnreserved (UInt16.ofNat b.toNat) with
  | true =>
      rw [if_pos rfl, List.flatMap_singleton, escapeUnit]
      cases hq : (js "'()*").contains (UInt16.ofNat b.toNat) with
      | true => rw [if_pos rfl, hunit, octets_percent hlt, UInt8.ofNat_toNat]
      | false =>
          rw [if_neg Bool.false_ne_true, List.singleton_append, octets_attrChar (isAttrChar_of_unreserved hb hq), hunit,
            UInt8.ofNat_toNat]
  | false => rw [if_neg Bool.false_ne_true, escape_percent hlt, octets_percent hlt, UInt8.ofNat_toNat]

theorem octets_flatMap (bs : Bytes) : octets (bs.flatMap starByte) = some bs := by
  induction bs with
  | nil => rfl
  | cons b bs ih => rw [List.flatMap_cons, octets_starByte, ih, Option.map_some]

/-- **The reader finds the name.** -/
theorem extendedValue_starName {name : JsString} (h : WellFormed name) :
    ∃ star, starName name = some star ∧ extendedValue star = some name := by
  obtain ⟨hscalar, hunits⟩ := codePoints_wellFormed name h
  refine ⟨_, starName_eq h, ?_⟩
  rw [extendedValue, octets_flatMap, Option.map_some, utf8Encode, decodeFrom_flatMap hscalar, hunits]

theorem wellFormed_of_starName {name star : JsString} (h : starName name = some star) : WellFormed name := by
  obtain ⟨s, hs, _⟩ := Option.map_eq_some_iff.mp h
  unfold encodeURIComponent at hs
  split at hs
  · next heq =>
      rw [← heq]
      exact wellFormed_toWellFormed name
  · cases hs

/-! ## The quoted name -/

theorem asciiUnit_printable (u : UInt16) : ∀ v, (if (if 0x20 ≤ u ∧ u ≤ 0x7e then u else 0x5f) = 0x5c ∨
      (if 0x20 ≤ u ∧ u ≤ 0x7e then u else 0x5f) = 0x22 then 0x5f else if 0x20 ≤ u ∧ u ≤ 0x7e then u else 0x5f) = v →
    0x20 ≤ v ∧ v ≤ 0x7e ∧ v ≠ 0x22 ∧ v ≠ 0x5c := by
  rintro v rfl
  by_cases hrange : 0x20 ≤ u ∧ u ≤ 0x7e
  · rw [if_pos hrange]
    by_cases hescape : u = 0x5c ∨ u = 0x22
    · rw [if_pos hescape]
      decide
    · rw [if_neg hescape]
      exact ⟨hrange.1, hrange.2, fun h => hescape (.inr h), fun h => hescape (.inl h)⟩
  · rw [if_neg hrange]
    decide

theorem asciiName_printable (name : JsString) : ∀ u ∈ asciiName name, 0x20 ≤ u ∧ u ≤ 0x7e ∧ u ≠ 0x22 ∧ u ≠ 0x5c := by
  intro v hv
  rw [asciiName, List.map_map] at hv
  obtain ⟨u, _, hu⟩ := List.mem_map.mp hv
  exact asciiUnit_printable u v hu

/-! ## One download -/

/-- A file is downloaded under its name exactly if the name is text. -/
theorem downloads_iff {σ : Type} {vega : FileShare σ} {s : σ} {id : Number} {c : FileContent}
    (h : (vega.get s id).1 = .ok c) : Downloads (downloadRoute vega s id) c.name c.content ↔ WellFormed c.name := by
  constructor
  · intro hdownloads
    cases hcd : contentDisposition c.name with
    | none =>
        have hroute : downloadRoute vega s id = .failed 500 := by simp only [downloadRoute, h, hcd]
        have hstatus := hdownloads.status
        rw [hroute] at hstatus
        exact absurd hstatus (show (500 : Nat) ≠ 200 by decide)
    | some disposition =>
        obtain ⟨star, hstar, _⟩ := Option.map_eq_some_iff.mp hcd
        exact wellFormed_of_starName hstar
  · intro hwf
    obtain ⟨star, hstar, hvalue⟩ := extendedValue_starName hwf
    have hcd : contentDisposition c.name
        = some (js "attachment; filename=\"" ++ asciiName c.name ++ js "\"; filename*=UTF-8''" ++ star) := by
      rw [contentDisposition, hstar, Option.map_some]
    have hroute : downloadRoute vega s id = ⟨200, orOctetStream c.contentType,
        some (js "attachment; filename=\"" ++ asciiName c.name ++ js "\"; filename*=UTF-8''" ++ star), c.content⟩ := by
      simp only [downloadRoute, h, hcd]
    rw [hroute]
    exact ⟨rfl, rfl, _, star, rfl, asciiName_printable _, hvalue⟩

/-! ## The stored name -/

theorem clean_units {s : JsString} (h : Clean s) : ∀ u ∈ s, u ≠ 0x2f ∧ u ≠ 0x5c ∧ u ≠ 0x22 ∧ 0x20 ≤ u ∧ u ≠ 0x7f := by
  intro u hu
  obtain ⟨hseparator, hunsafe⟩ := h u hu
  simp only [isSeparator, Bool.or_eq_false_iff, decide_eq_false_iff_not] at hseparator
  simp only [isUnsafe, Bool.or_eq_false_iff, decide_eq_false_iff_not] at hunsafe
  exact ⟨hseparator.1, hseparator.2, hunsafe.2, UInt16.not_lt.mp hunsafe.1.1, hunsafe.1.2⟩

theorem sanitizeFileName_not_dots (raw : JsString) : sanitizeFileName raw ≠ js "." ∧ sanitizeFileName raw ≠ js ".." := by
  rcases orUnnamed_cases ((cleanName raw).take 160) with h | h
  · rw [sanitizeFileName, h.1]
    exact ⟨h.2.2.1, h.2.2.2⟩
  · rw [sanitizeFileName, h]
    exact ⟨by decide, by decide⟩

theorem safeName_iff {raw : JsString} (h : WellFormed raw) : SafeName (sanitizeFileName raw) ↔ ¬SplitsPair raw := by
  rw [← wellFormed_sanitizeFileName_iff h]
  obtain ⟨hdot, hdots⟩ := sanitizeFileName_not_dots raw
  exact ⟨fun hsafe => hsafe.wellFormed, fun hwf => ⟨sanitizeFileName_ne_nil raw, hdot, hdots,
    clean_units (sanitizeFileName_clean raw), length_sanitizeFileName raw, hwf⟩⟩

/-! ## Files of a share -/

/-- The id has been given to this file: whatever is found under it is the file. -/
def Given (id : Nat) (r : StoredFile) (s : MemoryFileShare) : Prop :=
  id < s.nextId ∧ ∀ r', s.rows.get (.ofInt id) = some r' → r' = r

theorem Given.call {id : Nat} {r : StoredFile} {s : MemoryFileShare} (h : Given id r s) (c : ShareCall) :
    Given id r (s.call c).2 := by
  cases c with
  | list => exact h
  | add name content node contentType modified =>
      show Given id r (s.add name content node contentType modified).2
      unfold MemoryFileShare.add
      split
      · exact h
      · have hne : Number.ofInt id ≠ Number.ofInt s.nextId := fun heq =>
          absurd (Number.ofInt_natCast_inj heq) (Nat.ne_of_lt h.1)
        refine ⟨Nat.lt_succ_of_lt h.1, fun r' hr' => h.2 r' ?_⟩
        rwa [OrdMap.get_set_ne hne] at hr'
  | get id' =>
      show Given id r (s.get id').2
      unfold MemoryFileShare.get
      split <;> exact h
  | remove id' =>
      show Given id r (s.remove id').2
      unfold MemoryFileShare.remove
      split
      · exact h
      · exact ⟨h.1, fun r' hr' => h.2 r' (OrdMap.get_of_get_delete hr')⟩

/-- What an upload adds is given its id. -/
theorem given_of_add {s : MemoryFileShare} {name node modified : JsString} {content : Bytes} {contentType : Option JsString}
    {f : SharedFile} (h : (s.add name content node contentType modified).1 = .ok f) :
    Given f.id ⟨⟨f.id, sanitizeFileName name, content.length, node, modified⟩, contentType, content⟩
      (s.add name content node contentType modified).2 := by
  unfold MemoryFileShare.add at h ⊢
  split at h
  · cases h
  · next hroom =>
      obtain rfl := Except.ok.inj h
      rw [if_neg hroom]
      refine ⟨Nat.lt_succ_self _, fun r' hr' => ?_⟩
      rw [OrdMap.get_set_self] at hr'
      exact (Option.some.inj hr').symm

/-- What is read under the id, after any calls. -/
theorem Given.content {id : Nat} {r : StoredFile} {s : MemoryFileShare} (h : Given id r s) (calls : List ShareCall)
    {c : FileContent} (hget : ((after MemoryFileShare.call s calls).get (.ofInt id)).1 = .ok c) :
    c = ⟨r.name, r.contentType, r.content⟩ := by
  have hafter := after_invariant (I := Given id r) (fun _ c h => h.call c) h calls
  unfold MemoryFileShare.get at hget
  split at hget
  · cases hget
  · next r' hr' =>
      obtain rfl := hafter.2 r' hr'
      exact (Except.ok.inj hget).symm

/-- **When a stored file can be downloaded under its stored name**: unless the cut has split a surrogate pair. The name
    is safe then, and so is the header of the file, as long as it is in the share. -/
theorem stored_file_downloads_iff {raw : JsString} (hraw : WellFormed raw) :
    (SafeName (sanitizeFileName raw) ↔ ¬SplitsPair raw) ∧
    ∀ (maxTotalBytes : Nat) (pre post : List ShareCall) (content : Bytes) (node modified : JsString)
      (contentType : Option JsString) (f : SharedFile) (c : FileContent),
      ((after MemoryFileShare.call (.new maxTotalBytes) pre).add raw content node contentType modified).1 = .ok f →
      ((after MemoryFileShare.call (.new maxTotalBytes) (pre ++ .add raw content node contentType modified :: post)).get
        (.ofInt f.id)).1 = .ok c →
      (Downloads (downloadRoute memoryShare
          (after MemoryFileShare.call (.new maxTotalBytes) (pre ++ .add raw content node contentType modified :: post))
          (.ofInt f.id)) (sanitizeFileName raw) content ↔ ¬SplitsPair raw) := by
  refine ⟨safeName_iff hraw, ?_⟩
  intro maxTotalBytes pre post content node modified contentType f c hadd hget
  have hgiven := given_of_add hadd
  have hc : c = ⟨sanitizeFileName raw, contentType, content⟩ := by
    rw [after_append] at hget
    exact hgiven.content post hget
  subst hc
  rw [← wellFormed_sanitizeFileName_iff hraw]
  exact @downloads_iff _ memoryShare _ _ _ hget

namespace Symbolic

/-- The upload of a file of this name. -/
def uploadOf (name : JsString) : ShareCall := .add name [7] (js "pi") none (js "1970-01-01T00:00:00.000Z")

/-- A name with every character that the header has to escape. -/
def quotingName : JsString := js "a'(b)*\\c%" ++ [0xe9, 0xd83d, 0xde00]

theorem quotingName_wellFormed : WellFormed quotingName := by
  refine (IsAscii.of_all (s := js "a'(b)*\\c%") (by decide)).wellFormed.append ?_
  refine (wellFormed_cons (by decide)).mpr ?_
  rw [WellFormed, if_pos (by decide)]
  trivial

theorem quoting_name_downloads : SafeName (sanitizeFileName quotingName) ∧
    Downloads (downloadRoute memoryShare (after MemoryFileShare.call (.new 100) [uploadOf quotingName]) (.ofInt (1 : Nat)))
      (sanitizeFileName quotingName) [7] := by
  have hkept : ¬SplitsPair quotingName := by
    rintro ⟨u, hu, _⟩
    rw [show (cleanName quotingName)[159]? = none by decide] at hu
    cases hu
  obtain ⟨hsafe, hdownload⟩ := stored_file_downloads_iff quotingName_wellFormed
  exact ⟨hsafe.mpr hkept, (hdownload 100 [] [] [7] (js "pi") (js "1970-01-01T00:00:00.000Z") none _ _ rfl rfl).mpr hkept⟩

/-- 159 letters and an emoji: the cut falls into the emoji. -/
theorem cut_pair_fails : WellFormed cutPairName ∧ ¬SafeName (sanitizeFileName cutPairName) ∧
    ¬Downloads (downloadRoute memoryShare (after MemoryFileShare.call (.new 100) [uploadOf cutPairName]) (.ofInt (1 : Nat)))
      (sanitizeFileName cutPairName) [7] := by
  have hsplit : ¬WellFormed (sanitizeFileName cutPairName) := fun h =>
    (wellFormed_sanitizeFileName_iff cutPairName_wellFormed).mp h ⟨0xd83d, by decide, by decide⟩
  refine ⟨cutPairName_wellFormed, fun h => hsplit h.wellFormed, fun h => hsplit ?_⟩
  exact (@downloads_iff _ memoryShare _ _ ⟨sanitizeFileName cutPairName, none, [7]⟩ rfl).mp h

end Symbolic

end Island
end VpnPi
