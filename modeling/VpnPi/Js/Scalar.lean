import VpnPi.Js.Utf8

/-!
# `Js.Scalar` — text as a sequence of Unicode scalar values

A database column, a form field or a header carries text as Unicode, not as UTF-16: text without lone surrogates
arrives as it is, and no other text arrives at all. `TextChannel` is such a carrier; the conversion that replaces
each lone surrogate by U+FFFD (`toWellFormed`) is one. What survives a channel is exactly the well-formed text
(`TextChannel.carry_eq_self_iff`), and a string cut between two units stays well formed unless the cut parts a
surrogate pair (`wellFormed_take_iff`).

Names nothing of the daemon.
-/

namespace VpnPi
namespace Js

/-! ## Replacing lone surrogates -/

/-- `String.prototype.toWellFormed`. -/
def toWellFormed (s : JsString) : JsString := (codePoints s).flatMap unitsOf

theorem isScalar_replacement : IsScalar 0xfffd := .inr ⟨by decide, by decide⟩

theorem isScalar_unitOr (u : UInt16) :
    IsScalar (if isHighSurrogate u || isLowSurrogate u then 0xfffd else u.toNat) := by
  split
  · exact isScalar_replacement
  · next h =>
      simp only [Bool.not_eq_true, Bool.or_eq_false_iff] at h
      exact (scalar_unit h).1

theorem isScalar_codePoints : ∀ (s : JsString), ∀ n ∈ codePoints s, IsScalar n
  | [], _, hn => absurd hn List.not_mem_nil
  | [u], n, hn => by
      rw [codePoints, List.mem_singleton] at hn
      exact hn ▸ isScalar_unitOr u
  | u :: l :: s, n, hn => by
      rw [codePoints] at hn
      split at hn
      · next hpair =>
          rcases List.mem_cons.mp hn with heq | hn
          · rw [heq]
            exact (scalar_pair hpair).1
          · exact isScalar_codePoints s n hn
      · rcases List.mem_cons.mp hn with heq | hn
        · rw [heq]
          exact isScalar_unitOr u
        · exact isScalar_codePoints (l :: s) n hn

/-- The units of a scalar value are one unit that is no surrogate, or a pair. -/
theorem wellFormed_unitsOf {n : Nat} (h : IsScalar n) : WellFormed (unitsOf n) := by
  have hn : n < 0x110000 := by rcases h with h | h <;> omega
  have e1 : (0xd800 : UInt16).toNat = 0xd800 := rfl
  have e2 : (0xdbff : UInt16).toNat = 0xdbff := rfl
  have e3 : (0xdc00 : UInt16).toNat = 0xdc00 := rfl
  have e4 : (0xdfff : UInt16).toNat = 0xdfff := rfl
  unfold unitsOf
  split
  · next hlt =>
      have hnat : (UInt16.ofNat n).toNat = n := by
        rw [UInt16.toNat_ofNat']
        omega
      show isHighSurrogate (UInt16.ofNat n) = false ∧ isLowSurrogate (UInt16.ofNat n) = false
      simp only [isHighSurrogate, isLowSurrogate, Bool.and_eq_false_iff, decide_eq_false_iff_not,
        UInt16.le_iff_toNat_le, hnat, e1, e2, e3, e4]
      rcases h with h | h <;> omega
  · next hge =>
      have hhigh : (UInt16.ofNat (0xd800 + (n - 0x10000) / 0x400)).toNat = 0xd800 + (n - 0x10000) / 0x400 := by
        rw [UInt16.toNat_ofNat']
        omega
      have hlow : (UInt16.ofNat (0xdc00 + (n - 0x10000) % 0x400)).toNat = 0xdc00 + (n - 0x10000) % 0x400 := by
        rw [UInt16.toNat_ofNat']
        omega
      have hpair : (isHighSurrogate (UInt16.ofNat (0xd800 + (n - 0x10000) / 0x400))
          && isLowSurrogate (UInt16.ofNat (0xdc00 + (n - 0x10000) % 0x400))) = true := by
        simp only [isHighSurrogate, isLowSurrogate, Bool.and_eq_true, decide_eq_true_eq,
          UInt16.le_iff_toNat_le, hhigh, hlow, e1, e2, e3, e4]
        omega
      rw [WellFormed, if_pos hpair]
      trivial

theorem wellFormed_flatMap_unitsOf {ns : List Nat} (h : ∀ n ∈ ns, IsScalar n) : WellFormed (ns.flatMap unitsOf) := by
  induction ns with
  | nil => trivial
  | cons n ns ih =>
      obtain ⟨hn, hns⟩ := List.forall_mem_cons.mp h
      exact (wellFormed_unitsOf hn).append (ih hns)

theorem wellFormed_toWellFormed (s : JsString) : WellFormed (toWellFormed s) :=
  wellFormed_flatMap_unitsOf (isScalar_codePoints s)

theorem toWellFormed_of_wellFormed {s : JsString} (h : WellFormed s) : toWellFormed s = s :=
  (codePoints_wellFormed s h).2

/-- One unit for one unit. -/
theorem unitsOf_unitOr (u : UInt16) :
    unitsOf (if isHighSurrogate u || isLowSurrogate u then 0xfffd else u.toNat)
      = [if isHighSurrogate u || isLowSurrogate u then 0xfffd else u] := by
  have hu : u.toNat < 0x10000 := u.toNat_lt
  split
  · rfl
  · rw [unitsOf, if_pos hu, UInt16.ofNat_toNat]

/-- **What does not tell surrogates from U+FFFD** sees no difference. -/
theorem map_toWellFormed {α : Type} {f : UInt16 → α}
    (h : ∀ u, (isHighSurrogate u || isLowSurrogate u) = true → f u = f 0xfffd) :
    ∀ s : JsString, (toWellFormed s).map f = s.map f := by
  have hunit : ∀ u, f (if isHighSurrogate u || isLowSurrogate u then 0xfffd else u) = f u := by
    intro u
    split
    · next hsurrogate => exact (h u hsurrogate).symm
    · rfl
  intro s
  -- the recursion of `codePoints`
  induction s using codePoints.induct with
  | case1 => rfl
  | case2 u =>
      rw [toWellFormed, codePoints, List.flatMap_cons, unitsOf_unitOr]
      exact congrArg (fun v => [v]) (hunit u)
  | case3 u l s hpair ih =>
      rw [toWellFormed, codePoints, if_pos hpair, List.flatMap_cons, (scalar_pair hpair).2, List.map_append]
      exact congrArg ([u, l].map f ++ ·) ih
  | case4 u l s hpair ih =>
      rw [toWellFormed, codePoints, if_neg hpair, List.flatMap_cons, unitsOf_unitOr, List.map_append, List.map_singleton,
        hunit]
      exact congrArg (f u :: ·) ih

theorem length_toWellFormed (s : JsString) : (toWellFormed s).length = s.length := by
  have hmap := congrArg List.length (map_toWellFormed (f := fun _ => ()) (fun _ _ => rfl) s)
  rwa [List.length_map, List.length_map] at hmap

/-! ## Channels -/

/-- What carries text as Unicode: `carry s` arrives when `s` is sent. -/
structure TextChannel where
  carry      : JsString → JsString
  keeps      : ∀ {s : JsString}, WellFormed s → carry s = s
  wellFormed : ∀ s : JsString, WellFormed (carry s)

/-- The channel that replaces what it cannot carry. -/
def replacing : TextChannel where
  carry := toWellFormed
  keeps := toWellFormed_of_wellFormed
  wellFormed := wellFormed_toWellFormed

/-- **What arrives as it was sent** is the well-formed text. -/
theorem TextChannel.carry_eq_self_iff (c : TextChannel) {s : JsString} : c.carry s = s ↔ WellFormed s := by
  constructor
  · intro h
    rw [← h]
    exact c.wellFormed s
  · exact c.keeps

/-! ## What a decoder yields -/

/-- From this state the decoder completes scalar values only: `k` bytes are missing, the first of them between `lo`
    and `hi`. -/
def Completes : Nat → Nat → Nat → Nat → Prop
  | 0, _, _, _ => True
  | k + 1, v, lo, hi => ∀ b, lo ≤ b → b ≤ hi →
      (k = 0 → IsScalar (v * 0x40 + (b - 0x80))) ∧ Completes k (v * 0x40 + (b - 0x80)) 0x80 0xbf

theorem completes_one {v lo hi : Nat} (h : ∀ b, lo ≤ b → b ≤ hi → IsScalar (v * 0x40 + (b - 0x80))) :
    Completes 1 v lo hi := fun b hlo hhi => ⟨fun _ => h b hlo hhi, trivial⟩

/-- The first byte of a sequence bounds what it can become. -/
theorem completes_firstByte (b : Nat) : (∀ n ∈ (firstByte b).1, IsScalar n) ∧
    Completes (firstByte b).2.needed (firstByte b).2.value (firstByte b).2.lower (firstByte b).2.upper := by
  unfold firstByte
  split
  · next h => exact ⟨List.forall_mem_singleton.mpr (.inl (by omega)), trivial⟩
  split
  · next h =>
      refine ⟨List.forall_mem_nil _, ?_⟩
      show Completes 1 (b - 0xc0) 0x80 0xbf
      exact completes_one fun c h1 h2 => .inl (by omega)
  split
  · next h =>
      refine ⟨List.forall_mem_nil _, ?_⟩
      show Completes 2 (b - 0xe0) (if b = 0xe0 then 0xa0 else 0x80) (if b = 0xed then 0x9f else 0xbf)
      refine fun c h1 h2 => ⟨nofun, completes_one fun d h3 h4 => ?_⟩
      -- the second byte keeps 0xed below the surrogates
      unfold IsScalar
      split at h1 <;> split at h2 <;> omega
  split
  · next h =>
      refine ⟨List.forall_mem_nil _, ?_⟩
      show Completes 3 (b - 0xf0) (if b = 0xf0 then 0x90 else 0x80) (if b = 0xf4 then 0x8f else 0xbf)
      refine fun c h1 h2 => ⟨nofun, fun d h3 h4 => ⟨nofun, completes_one fun e h5 h6 => .inr ?_⟩⟩
      split at h1 <;> split at h2 <;> omega
  · exact ⟨List.forall_mem_singleton.mpr isScalar_replacement, trivial⟩

theorem isScalar_decodeFrom (bs : Bytes) : ∀ st : DecodeState, Completes st.needed st.value st.lower st.upper →
    ∀ n ∈ decodeFrom st bs, IsScalar n := by
  induction bs with
  | nil =>
      intro st _ n hn
      rw [decodeFrom] at hn
      split at hn
      · cases hn
      · exact List.mem_singleton.mp hn ▸ isScalar_replacement
  | cons b bs ih =>
      intro st h n hn
      obtain ⟨hfirst, hnext⟩ := completes_firstByte b.toNat
      rw [decodeFrom] at hn
      split at hn
      · rcases List.mem_append.mp hn with hn | hn
        · exact hfirst n hn
        · exact ih _ hnext n hn
      split at hn
      · next hneeded hrange =>
          obtain ⟨k, hk⟩ := Nat.exists_eq_succ_of_ne_zero hneeded
          rw [hk] at h
          obtain ⟨hlast, hmore⟩ := h b.toNat hrange.1 hrange.2
          split at hn
          · rcases List.mem_cons.mp hn with heq | hn
            · rw [heq]
              exact hlast (by omega)
            · exact ih .start trivial n hn
          · refine ih _ ?_ n hn
            rw [hk]
            exact hmore
      · rcases List.mem_append.mp hn with hn | hn
        · rcases List.mem_cons.mp hn with heq | hn
          · rw [heq]
            exact isScalar_replacement
          · exact hfirst n hn
        · exact ih _ hnext n hn

theorem utf8Decode_eq (bs : Bytes) : ∃ ns : List Nat, utf8Decode bs = ns.flatMap unitsOf ∧ ∀ n ∈ ns, IsScalar n := by
  have h := isScalar_decodeFrom bs .start trivial
  unfold utf8Decode
  split
  · next ns heq => exact ⟨ns, rfl, fun n hn => h n (heq ▸ List.mem_cons_of_mem _ hn)⟩
  · exact ⟨_, rfl, h⟩

/-- **Decoded text is well formed.** -/
theorem wellFormed_utf8Decode (bs : Bytes) : WellFormed (utf8Decode bs) := by
  obtain ⟨ns, heq, hns⟩ := utf8Decode_eq bs
  rw [heq]
  exact wellFormed_flatMap_unitsOf hns

/-- A byte order mark in front is lost. -/
theorem utf8Decode_utf8Encode_mark {s : JsString} (h : WellFormed (0xfeff :: s)) : utf8Decode (utf8Encode (0xfeff :: s)) = s := by
  obtain ⟨hs, hu⟩ := codePoints_wellFormed _ h
  have hpoints : ∃ ns, codePoints (0xfeff :: s) = 0xfeff :: ns := by
    cases s with
    | nil => exact ⟨[], rfl⟩
    | cons u s =>
        rw [codePoints]
        exact ⟨_, rfl⟩
  obtain ⟨ns, hns⟩ := hpoints
  rw [utf8Decode, utf8Encode, decodeFrom_flatMap hs]
  rw [hns, List.flatMap_cons] at hu
  rw [hns]
  exact List.tail_eq_of_cons_eq hu

/-- **What survives the encoder and the decoder**, of well-formed text. -/
theorem utf8Decode_utf8Encode_iff {s : JsString} (h : WellFormed s) :
    utf8Decode (utf8Encode s) = s ↔ s.head? ≠ some 0xfeff := by
  constructor
  · intro heq hmark
    obtain ⟨t, rfl⟩ := List.head?_eq_some_iff.mp hmark
    rw [utf8Decode_utf8Encode_mark h] at heq
    exact absurd (congrArg List.length heq) (Nat.ne_of_lt (Nat.lt_succ_self _))
  · exact utf8Decode_utf8Encode h

/-! ## Cutting a string -/

/-- A well-formed string does not end in the first half of a pair. -/
theorem WellFormed.getLast : ∀ {s : JsString}, WellFormed s → ∀ u ∈ s.getLast?, isHighSurrogate u = false
  | [], _, u, hu => by cases hu
  | [_], h, u, hu => by
      obtain rfl := Option.some.inj hu
      exact h.1
  | a :: b :: s, h, u, hu => by
      rw [WellFormed] at h
      split at h
      · next hpair =>
          cases s with
          | nil =>
              have hub : b = u := by simpa using hu
              subst hub
              have hb : isLowSurrogate b = true := (Bool.and_eq_true _ _ ▸ hpair).2
              simp only [isHighSurrogate, isLowSurrogate, Bool.and_eq_true, Bool.and_eq_false_iff, decide_eq_true_eq,
                decide_eq_false_iff_not, UInt16.le_iff_toNat_le] at hb ⊢
              have e1 : (0xdbff : UInt16).toNat = 0xdbff := rfl
              have e2 : (0xdc00 : UInt16).toNat = 0xdc00 := rfl
              omega
          | cons c s => exact WellFormed.getLast h u (by simpa using hu)
      · exact WellFormed.getLast h.2 u (by simpa using hu)

/-- **A cut is safe** unless it parts a pair. -/
theorem wellFormed_take_iff : ∀ {s : JsString} (n : Nat), WellFormed s →
    (WellFormed (s.take n) ↔ ∀ u ∈ (s.take n).getLast?, isHighSurrogate u = false)
  | [], n, _ => by
      rw [List.take_nil]
      exact ⟨fun h => h.getLast, fun _ => trivial⟩
  | s, 0, _ => by
      rw [List.take_zero]
      exact ⟨fun h => h.getLast, fun _ => trivial⟩
  | [u], n + 1, h => by
      rw [List.take_succ_cons, List.take_nil]
      exact ⟨fun h => h.getLast, fun _ => h⟩
  | a :: b :: s, 1, h => by
      refine ⟨fun h => h.getLast, fun hlast => ?_⟩
      have ha : isHighSurrogate a = false := hlast a rfl
      rw [WellFormed, ha] at h
      exact ⟨ha, h.1.2⟩
  | a :: b :: s, n + 2, h => by
      refine ⟨fun h => h.getLast, fun hlast => ?_⟩
      rw [List.take_succ_cons, List.take_succ_cons] at hlast ⊢
      rw [WellFormed] at h ⊢
      split at h
      · next hpair =>
          rw [if_pos hpair]
          refine (wellFormed_take_iff n h).mpr fun u hu => hlast u ?_
          cases htake : s.take n with
          | nil => rw [htake] at hu; cases hu
          | cons c t => rw [htake] at hu; simpa using hu
      · next hpair =>
          rw [if_neg hpair]
          refine ⟨h.1, ?_⟩
          have htail := wellFormed_take_iff (n + 1) h.2
          rw [List.take_succ_cons] at htail
          exact htail.mpr fun u hu => hlast u (by simpa using hu)

end Js
end VpnPi
