import VpnPi.Js.Trim
import VpnPi.Island.Share

/-!
# `Island.FileName` — sanitizing a file name twice (`sanitizeFileName` of `core/share.ts`)

What `sanitizeFileName` returns has no separator, control character or quotation mark (`sanitizeFileName_clean`) and
is not empty. A second pass over it may still change it: the cut after 160 units comes last, and may leave white
space at the end (`CutsAtSpace`), or the first half of a surrogate pair (`SplitsPair`), which neither a form field
nor a text column carries (`sanitizeFileName_toWellFormed_iff`).
-/

namespace VpnPi
namespace Island

open Js

/-! ## What a sanitized name consists of -/

/-- Neither a separator nor unsafe. -/
def Clean (s : JsString) : Prop := ∀ u ∈ s, isSeparator u = false ∧ isUnsafe u = false

theorem clean_of_all {s : JsString} (h : s.all (fun u => !isSeparator u && !isUnsafe u) = true) : Clean s := by
  intro u hu
  have hboth := List.all_eq_true.mp h u hu
  rw [Bool.and_eq_true, Bool.not_eq_true', Bool.not_eq_true'] at hboth
  exact hboth

theorem baseName_eq (raw : JsString) : baseName raw = raw.rtakeWhile fun u => !isSeparator u := rfl

theorem baseName_noSeparator (raw : JsString) : ∀ u ∈ baseName raw, isSeparator u = false := by
  intro u hu
  have hkept : (!isSeparator u) = true := List.mem_rtakeWhile_imp (p := fun u => !isSeparator u) hu
  rwa [Bool.not_eq_true'] at hkept

theorem replaceUnsafe_clean {s : JsString} (h : ∀ u ∈ s, isSeparator u = false) : Clean (replaceUnsafe s) := by
  intro u hu
  obtain ⟨v, hv, rfl⟩ := List.mem_map.mp hu
  cases hunsafe : isUnsafe v with
  | true =>
      rw [if_pos rfl]
      decide
  | false => exact ⟨h v hv, hunsafe⟩

theorem cleanName_clean (raw : JsString) : Clean (cleanName raw) := fun u hu =>
  replaceUnsafe_clean (baseName_noSeparator raw) u ((trim_sublist _).subset hu)

theorem cleanName_trimmed (raw : JsString) : Trimmed (cleanName raw) := trimmed_trim _

theorem orUnnamed_cases (s : JsString) :
    (orUnnamed s = s ∧ s ≠ [] ∧ s ≠ js "." ∧ s ≠ js "..") ∨ orUnnamed s = js "unnamed" := by
  unfold orUnnamed
  split
  · next h => exact .inl ⟨rfl, h⟩
  · exact .inr rfl

/-- A stored name is made of safe units. -/
theorem sanitizeFileName_clean (raw : JsString) : Clean (sanitizeFileName raw) := by
  rcases orUnnamed_cases ((cleanName raw).take 160) with h | h
  · rw [sanitizeFileName, h.1]
    exact fun u hu => cleanName_clean raw u (List.mem_of_mem_take hu)
  · rw [sanitizeFileName, h]
    exact clean_of_all (by decide)

theorem sanitizeFileName_ne_nil (raw : JsString) : sanitizeFileName raw ≠ [] := by
  rcases orUnnamed_cases ((cleanName raw).take 160) with h | h
  · rw [sanitizeFileName, h.1]
    exact h.2.1
  · rw [sanitizeFileName, h]
    decide

/-! ## A second pass -/

theorem cleanName_of_clean {s : JsString} (h : Clean s) : cleanName s = trim s := by
  have hbase : baseName s = s := by
    rw [baseName_eq, List.rtakeWhile_eq_self_iff]
    exact fun u hu => by rw [(h u hu).1]; rfl
  have hsafe : replaceUnsafe s = s := by
    refine (List.map_congr_left fun u hu => ?_).trans (List.map_id s)
    rw [(h u hu).2]
    rfl
  rw [cleanName, hbase, hsafe]

/-- A second pass trims what the cut left. -/
theorem sanitizeFileName_of_clean {s : JsString} (h : Clean s) (hlen : s.length ≤ 160) :
    sanitizeFileName s = orUnnamed (trim s) := by
  have htrim : (trim s).length ≤ 160 := Nat.le_trans (trim_sublist s).length_le hlen
  rw [sanitizeFileName, cleanName_of_clean h, List.take_of_length_le htrim]

/-- A name that the first pass left whole and trimmed passes the second. -/
theorem sanitizeFileName_orUnnamed {s : JsString} (h : Clean s) (hlen : s.length ≤ 160) (htrim : Trimmed s) :
    sanitizeFileName (orUnnamed s) = orUnnamed s := by
  rcases orUnnamed_cases s with heq | heq
  · rw [heq.1, sanitizeFileName_of_clean h hlen, trim_of_trimmed htrim, heq.1]
  · rw [heq]
    decide

/-! ## Well-formed names -/

theorem isSeparator_not_surrogate {u : UInt16} (h : isSeparator u = true) : isSurrogate u = false := by
  rw [isSeparator, Bool.or_eq_true, decide_eq_true_eq, decide_eq_true_eq] at h
  rcases h with rfl | rfl <;> decide

/-- The base name is what follows the last separator, whatever comes after it. -/
theorem wellFormed_baseName_append (raw : JsString) : ∀ {t : JsString}, WellFormed (raw ++ t) →
    WellFormed (baseName raw ++ t) := by
  induction raw using List.reverseRecOn with
  | nil => exact id
  | append_singleton s u ih =>
      intro t h
      rw [List.append_assoc, List.singleton_append] at h
      rw [baseName_eq, List.rtakeWhile_concat]
      cases hu : isSeparator u with
      | true => exact ((wellFormed_append_cons (isSeparator_not_surrogate hu)).mp h).2
      | false =>
          rw [if_pos (by rfl), List.append_assoc, List.singleton_append]
          exact ih h

theorem wellFormed_baseName {raw : JsString} (h : WellFormed raw) : WellFormed (baseName raw) := by
  have happ := wellFormed_baseName_append raw (t := [])
  rw [List.append_nil, List.append_nil] at happ
  exact happ h

theorem isUnsafe_not_surrogate {u : UInt16} (h : isUnsafe u = true) : isSurrogate u = false := by
  have hlt : u.toNat < 0x80 := by
    simp only [isUnsafe, Bool.or_eq_true, decide_eq_true_eq, UInt16.lt_iff_toNat_lt] at h
    rcases h with (h | rfl) | rfl
    · exact Nat.lt_trans h (by decide)
    · decide
    · decide
  have e1 : (0xd800 : UInt16).toNat = 0xd800 := rfl
  have e2 : (0xdc00 : UInt16).toNat = 0xdc00 := rfl
  simp only [isSurrogate, isHighSurrogate, isLowSurrogate, Bool.or_eq_false_iff, Bool.and_eq_false_iff,
    decide_eq_false_iff_not, UInt16.le_iff_toNat_le, e1, e2]
  omega

theorem replaceUnsafe_cons (u : UInt16) (s : JsString) :
    replaceUnsafe (u :: s) = (if isUnsafe u then 0x5f else u) :: replaceUnsafe s := rfl

/-- Unsafe units and what replaces them are no surrogates. -/
theorem wellFormed_replaceUnsafe : ∀ {s : JsString}, WellFormed s → WellFormed (replaceUnsafe s)
  | [], _ => trivial
  | [u], h => by
      rw [replaceUnsafe_cons]
      split
      · exact ⟨by decide, by decide⟩
      · exact h
  | u :: l :: s, h => by
      rw [replaceUnsafe_cons]
      cases hu : isUnsafe u with
      | true =>
          have htail := (wellFormed_cons (isUnsafe_not_surrogate hu)).mp h
          have hmark : isSurrogate 0x5f = false := by decide
          exact (wellFormed_cons hmark).mpr (wellFormed_replaceUnsafe htail)
      | false =>
          rw [WellFormed] at h
          split at h
          · next hpair =>
              have hl : isUnsafe l = false := by
                by_contra hl
                have hlow := (isSurrogate_eq_false.mp (isUnsafe_not_surrogate (Bool.eq_true_of_not_eq_false hl))).2
                rw [hlow, Bool.and_false] at hpair
                cases hpair
              rw [replaceUnsafe_cons, hl]
              show WellFormed (u :: l :: replaceUnsafe s)
              rw [WellFormed, if_pos hpair]
              exact wellFormed_replaceUnsafe h
          · exact (wellFormed_cons (isSurrogate_eq_false.mpr h.1)).mpr (wellFormed_replaceUnsafe h.2)

theorem wellFormed_cleanName {raw : JsString} (h : WellFormed raw) : WellFormed (cleanName raw) :=
  (wellFormed_replaceUnsafe (wellFormed_baseName h)).trim

/-! ## The cut -/

/-- The cut after 160 units leaves white space at the end. -/
def CutsAtSpace (raw : JsString) : Prop := ∃ u, (cleanName raw)[159]? = some u ∧ isSpace u = true

/-- The cut after 160 units falls between the halves of a surrogate pair. -/
def SplitsPair (raw : JsString) : Prop := ∃ u, (cleanName raw)[159]? = some u ∧ isHighSurrogate u = true

theorem wellFormed_js_unnamed : WellFormed (js "unnamed") := (IsAscii.of_all (by decide)).wellFormed

theorem wellFormed_orUnnamed {s : JsString} (h : WellFormed s) : WellFormed (orUnnamed s) := by
  rcases orUnnamed_cases s with heq | heq
  · rw [heq.1]
    exact h
  · rw [heq]
    exact wellFormed_js_unnamed

/-- A name is no longer than the cut, or is what the cut has left. -/
theorem sanitizeFileName_cases (raw : JsString) :
    ((cleanName raw).length ≤ 159 ∧ sanitizeFileName raw = orUnnamed (cleanName raw)) ∨
      ((cleanName raw).take 160).length = 160 ∧ sanitizeFileName raw = (cleanName raw).take 160 := by
  by_cases hlen : (cleanName raw).length ≤ 159
  · refine .inl ⟨hlen, ?_⟩
    rw [sanitizeFileName, List.take_of_length_le (by omega)]
  · have hcut : ((cleanName raw).take 160).length = 160 := by
      rw [List.length_take]
      omega
    refine .inr ⟨hcut, if_pos ⟨?_, ?_, ?_⟩⟩ <;> (intro heq; rw [heq] at hcut; exact absurd hcut (by decide))

theorem length_sanitizeFileName (raw : JsString) : (sanitizeFileName raw).length ≤ 160 := by
  rcases orUnnamed_cases ((cleanName raw).take 160) with h | h
  · rw [sanitizeFileName, h.1]
    exact List.length_take_le _ _
  · rw [sanitizeFileName, h]
    decide

theorem getLast?_take {α : Type} {s : List α} {n : Nat} (h : n < s.length) : (s.take (n + 1)).getLast? = s[n]? := by
  rw [List.take_succ_eq_append_getElem h, List.getLast?_concat, List.getElem?_eq_getElem h]

theorem last_of_cut {s : JsString} (h : (s.take 160).length = 160) : (s.take 160).getLast? = s[159]? := by
  rw [List.length_take] at h
  exact getLast?_take (by omega)

/-- **The stored name is text** unless the cut splits a pair. -/
theorem wellFormed_sanitizeFileName_iff {raw : JsString} (h : WellFormed raw) :
    WellFormed (sanitizeFileName raw) ↔ ¬SplitsPair raw := by
  have hwf := wellFormed_cleanName h
  unfold SplitsPair
  rcases sanitizeFileName_cases raw with ⟨hlen, hname⟩ | ⟨hcut, hname⟩
  · rw [hname, List.getElem?_eq_none hlen]
    refine iff_of_true (wellFormed_orUnnamed hwf) fun hsplit => ?_
    obtain ⟨u, hu, _⟩ := hsplit
    cases hu
  · rw [hname, wellFormed_take_iff 160 hwf, last_of_cut hcut]
    constructor
    · rintro hlast ⟨u, hu, hhigh⟩
      rw [hlast u hu] at hhigh
      cases hhigh
    · intro hsplit u hu
      exact Bool.eq_false_iff.mpr fun hhigh => hsplit ⟨u, hu, hhigh⟩

/-! ## What a form field carries -/

theorem isSpace_surrogate {u : UInt16} (h : isSurrogate u = true) : isSpace u = isSpace 0xfffd := by
  cases hspace : isSpace u with
  | false => rfl
  | true =>
      rw [isSpace_not_surrogate hspace] at h
      cases h

/-- Replacing lone surrogates moves no white space. -/
theorem trimmed_toWellFormed_iff {s : JsString} : Trimmed (toWellFormed s) ↔ Trimmed s := by
  have hmap := map_toWellFormed (f := isSpace) (fun _ hu => isSpace_surrogate hu) s
  have hhead := congrArg List.head? hmap
  have hlast := congrArg List.getLast? hmap
  rw [List.head?_map, List.head?_map] at hhead
  rw [List.getLast?_map, List.getLast?_map] at hlast
  have hopt : ∀ o : Option UInt16, (∀ u ∈ o, isSpace u = false) ↔ ∀ b ∈ o.map isSpace, b = false := by
    intro o
    cases o with
    | none => simp
    | some u => simp
  have hboth : ∀ t : JsString, Trimmed t ↔
      (∀ b ∈ t.head?.map isSpace, b = false) ∧ ∀ b ∈ t.getLast?.map isSpace, b = false := by
    intro t
    rw [← hopt, ← hopt]
    exact ⟨fun h => ⟨h.head, h.last⟩, fun h => ⟨h.1, h.2⟩⟩
  rw [hboth, hboth, hhead, hlast]

theorem clean_toWellFormed {s : JsString} (h : Clean s) : Clean (toWellFormed s) := by
  have hseparator : ∀ u, isSurrogate u = true → isSeparator u = isSeparator 0xfffd := by
    intro u hu
    refine Bool.eq_false_iff.mpr fun hsep => ?_
    rw [isSeparator_not_surrogate hsep] at hu
    cases hu
  have hcontrol : ∀ u, isSurrogate u = true → isUnsafe u = isUnsafe 0xfffd := by
    intro u hu
    refine Bool.eq_false_iff.mpr fun hcontrol => ?_
    rw [isUnsafe_not_surrogate hcontrol] at hu
    cases hu
  have hmap := map_toWellFormed (f := fun u => (isSeparator u, isUnsafe u))
    (fun u hu => Prod.ext (hseparator u hu) (hcontrol u hu)) s
  intro u hu
  have hmem := List.mem_map_of_mem (f := fun u => (isSeparator u, isUnsafe u)) hu
  rw [hmap] at hmem
  obtain ⟨v, hv, heq⟩ := List.mem_map.mp hmem
  rw [← (Prod.mk.inj heq).1, ← (Prod.mk.inj heq).2]
  exact h v hv

/-- **A second pass** over what a form field carries of a stored name changes nothing exactly when the cut has left no
    white space. -/
theorem sanitizeFileName_toWellFormed_iff {raw : JsString} (h : WellFormed raw) :
    sanitizeFileName (toWellFormed (sanitizeFileName raw)) = toWellFormed (sanitizeFileName raw) ↔ ¬CutsAtSpace raw := by
  have hwf := wellFormed_cleanName h
  have htrim := cleanName_trimmed raw
  have hclean := cleanName_clean raw
  unfold CutsAtSpace
  rcases sanitizeFileName_cases raw with ⟨hlen, hname⟩ | ⟨hcut, hname⟩
  · rw [hname, toWellFormed_of_wellFormed (wellFormed_orUnnamed hwf), List.getElem?_eq_none hlen]
    refine iff_of_true (sanitizeFileName_orUnnamed hclean (by omega) htrim) fun hspace => ?_
    obtain ⟨u, hu, _⟩ := hspace
    cases hu
  · have hcleanCut : Clean (toWellFormed ((cleanName raw).take 160)) :=
      clean_toWellFormed fun u hu => hclean u (List.mem_of_mem_take hu)
    have hlength : (toWellFormed ((cleanName raw).take 160)).length = 160 := by rw [length_toWellFormed, hcut]
    have hhead : ∀ u ∈ ((cleanName raw).take 160).head?, isSpace u = false := by
      intro u hu
      rw [List.head?_take, if_neg (by decide)] at hu
      exact htrim.head u hu
    -- a name of 160 units is not `unnamed`
    have hpass : orUnnamed (trim (toWellFormed ((cleanName raw).take 160))) = toWellFormed ((cleanName raw).take 160) ↔
        trim (toWellFormed ((cleanName raw).take 160)) = toWellFormed ((cleanName raw).take 160) := by
      constructor
      · intro heq
        rcases orUnnamed_cases (trim (toWellFormed ((cleanName raw).take 160))) with hkept | hunnamed
        · exact hkept.1.symm.trans heq
        · rw [← heq, hunnamed] at hlength
          exact absurd hlength (by decide)
      · intro heq
        rw [heq]
        refine if_pos ⟨?_, ?_, ?_⟩ <;> (intro hnot; rw [hnot] at hlength; exact absurd hlength (by decide))
    rw [hname, sanitizeFileName_of_clean hcleanCut hlength.le, hpass, trim_eq_self_iff, trimmed_toWellFormed_iff]
    constructor
    · rintro htrimCut ⟨u, hu, hspace⟩
      rw [htrimCut.last u (by rw [last_of_cut hcut]; exact hu)] at hspace
      cases hspace
    · intro hspace
      refine ⟨hhead, fun u hu => Bool.eq_false_iff.mpr fun hu' => hspace ⟨u, ?_, hu'⟩⟩
      rwa [last_of_cut hcut] at hu

/-- **What two passes store** is what one pass stores, for a column that keeps text: exactly when the cut has left no
    white space and, where it splits a pair, the column replaces the half that is left. -/
theorem sanitizeFileName_twice_iff {raw : JsString} (h : WellFormed raw) {column : JsString → JsString}
    (hcolumn : ∀ s, WellFormed s → column s = s) :
    column (sanitizeFileName (toWellFormed (sanitizeFileName raw))) = column (sanitizeFileName raw) ↔
      ¬CutsAtSpace raw ∧
        (SplitsPair raw → column (sanitizeFileName raw) = toWellFormed (sanitizeFileName raw)) := by
  have hsecond := sanitizeFileName_toWellFormed_iff h
  have htext := wellFormed_sanitizeFileName_iff h
  have hcarried := wellFormed_toWellFormed (sanitizeFileName raw)
  by_cases hsplit : SplitsPair raw
  · -- the unit at the cut is a surrogate, and no white space
    have hspace : ¬CutsAtSpace raw := by
      rintro ⟨u, hu, hspace⟩
      obtain ⟨v, hv, hhigh⟩ := hsplit
      obtain rfl := Option.some.inj (hu.symm.trans hv)
      rw [(isSurrogate_eq_false.mp (isSpace_not_surrogate hspace)).1] at hhigh
      cases hhigh
    rw [hsecond.mpr hspace, hcolumn _ hcarried, eq_comm]
    exact ⟨fun heq => ⟨hspace, fun _ => heq⟩, fun hboth => hboth.2 hsplit⟩
  · have hwf := htext.mpr hsplit
    rw [toWellFormed_of_wellFormed hwf] at hsecond ⊢
    rw [hcolumn _ hwf]
    have hsecondKept : column (sanitizeFileName (sanitizeFileName raw)) = sanitizeFileName (sanitizeFileName raw) := by
      refine hcolumn _ ?_
      rw [sanitizeFileName_of_clean (sanitizeFileName_clean raw) (length_sanitizeFileName raw)]
      exact wellFormed_orUnnamed hwf.trim
    rw [hsecondKept, hsecond]
    exact ⟨fun hspace => ⟨hspace, fun hs => absurd hs hsplit⟩, fun hboth => hboth.1⟩

end Island
end VpnPi
