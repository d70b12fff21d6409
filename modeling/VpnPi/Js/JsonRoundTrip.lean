import VpnPi.Js.Json

/-!
# `Js.JsonRoundTrip` — reading back what was printed

`readValue_render`: for any escaping `q` that `readString` inverts, the reader takes exactly the printed
text of a value off the front of its input and returns that value. Two results carry the clients:

* `parse_stringify` — a save and a reload leave a value as `JSON.stringify` saw it;
* `stringify_printable` — what it prints is one line.

Names nothing of the daemon.
-/

namespace VpnPi
namespace Js

open Value

variable {E : Engine} {q : JsString → JsString}

/-! ## Strings -/

/-- The reader inverts the escaping `q`. -/
def Readable (q : JsString → JsString) : Prop :=
  ∀ s r, readString (q s ++ 0x22 :: r) = some (s, r)

theorem readString_raw {u : UInt16} (h1 : u ≠ 0x22) (h2 : u ≠ 0x5c) (h3 : ¬u < 0x20) (r : JsString) :
    readString (u :: r) = (readString r).map fun p => (u :: p.1, p.2) := by
  rw [readString.eq_def]
  simp only [if_neg h1, if_neg h2, if_neg h3]

theorem readString_hex4 (u : UInt16) (r : JsString) :
    readString (0x5c :: 0x75 :: hex4 u ++ r) = (readString r).map fun p => (u :: p.1, p.2) := by
  show readString (0x5c :: 0x75 :: _ :: _ :: _ :: _ :: r) = _
  rw [readString.eq_def]
  simp only [ofHex4_hex4, if_neg (show (0x5c : UInt16) ≠ 0x22 by decide), if_true]

theorem unescape_shortEscape {u e : UInt16} (h : shortEscape u = some e) :
    unescape e = some u ∧ e ≠ 0x75 := by
  unfold shortEscape at h
  split at h
  · next hu => cases h; subst hu; decide
  split at h
  · next hu => cases h; subst hu; decide
  split at h
  · next hu => cases h; subst hu; decide
  split at h
  · next hu => cases h; subst hu; decide
  split at h
  · next hu => cases h; subst hu; decide
  split at h
  · next hu => cases h; subst hu; decide
  split at h
  · next hu => cases h; subst hu; decide
  · cases h

theorem readString_short {u e : UInt16} (h : shortEscape u = some e) (r : JsString) :
    readString (0x5c :: e :: r) = (readString r).map fun p => (u :: p.1, p.2) := by
  obtain ⟨hu, he⟩ := unescape_shortEscape h
  rw [readString.eq_def]
  simp only [hu, if_neg he, if_neg (show (0x5c : UInt16) ≠ 0x22 by decide), if_true]

theorem shortEscape_none {u : UInt16} (h : shortEscape u = none) : u ≠ 0x22 ∧ u ≠ 0x5c := by
  constructor
  · rintro rfl; exact absurd h (by decide)
  · rintro rfl; exact absurd h (by decide)

theorem surrogate_raw {u : UInt16} (h : isHighSurrogate u = true ∨ isLowSurrogate u = true) :
    u ≠ 0x22 ∧ u ≠ 0x5c ∧ ¬u < 0x20 := by
  have hge : 0xd800 ≤ u.toNat := by
    rcases h with h | h
    · simp only [isHighSurrogate, Bool.and_eq_true, decide_eq_true_eq, UInt16.le_iff_toNat_le] at h
      exact h.1
    · simp only [isLowSurrogate, Bool.and_eq_true, decide_eq_true_eq, UInt16.le_iff_toNat_le] at h
      exact Nat.le_trans (by decide) h.1
  refine ⟨?_, ?_, ?_⟩
  · rintro rfl; exact absurd hge (by decide)
  · rintro rfl; exact absurd hge (by decide)
  · intro hlt
    rw [UInt16.lt_iff_toNat_lt] at hlt
    exact absurd (Nat.lt_of_le_of_lt hge hlt) (by decide)

theorem readString_quoteFrom : ∀ (s : JsString) (paired : Bool) (r : JsString),
    (paired = true → startsLow s = true) →
      readString (quoteFrom paired s ++ 0x22 :: r) = some (s, r) := by
  intro s
  induction s with
  | nil =>
      intro paired r _
      rw [quoteFrom, List.nil_append, readString.eq_def]
      simp only [if_true]
  | cons u s ih =>
      intro paired r hp
      rw [quoteFrom]
      by_cases hpd : paired = true
      · obtain ⟨h1, h2, h3⟩ := surrogate_raw (Or.inr (hp hpd) : _ ∨ isLowSurrogate u = true)
        rw [if_pos hpd, List.cons_append, readString_raw h1 h2 h3, ih false r nofun]
        rfl
      · rw [if_neg hpd]
        cases hs : shortEscape u with
        | some e =>
            show readString (0x5c :: e :: (quoteFrom false s ++ 0x22 :: r)) = _
            rw [readString_short hs, ih false r nofun]
            rfl
        | none =>
            obtain ⟨h1, h2⟩ := shortEscape_none hs
            by_cases hpair : (isHighSurrogate u && startsLow s) = true
            · have hh := (Bool.and_eq_true _ _).mp hpair
              show readString ((if _ then _ else _) ++ _) = _
              rw [if_pos hpair, List.cons_append, readString_raw h1 h2 (surrogate_raw (Or.inl hh.1)).2.2,
                ih true r (fun _ => hh.2)]
              rfl
            · show readString ((if _ then _ else _) ++ _) = _
              rw [if_neg hpair]
              by_cases hx : (u < 0x20 || isHighSurrogate u || isLowSurrogate u) = true
              · rw [if_pos hx, List.append_assoc, readString_hex4, ih false r nofun]
                rfl
              · have hlt : ¬u < 0x20 := fun hlt => hx (by simp [hlt])
                rw [if_neg hx, List.cons_append, readString_raw h1 h2 hlt, ih false r nofun]
                rfl

theorem readable_quoteBody : Readable quoteBody :=
  fun s r => readString_quoteFrom s false r nofun

/-! ## Values that print as themselves -/

mutual
/-- No `undefined` and no infinite number anywhere. -/
def Plain : Value → Prop
  | .undefined | .num (.infinite _) => False
  | .arr xs => PlainList xs
  | .obj es => PlainFields es
  | _ => True

def PlainList : List Value → Prop
  | [] => True
  | x :: xs => Plain x ∧ PlainList xs

def PlainFields : List (JsString × Value) → Prop
  | [] => True
  | (_, v) :: es => Plain v ∧ PlainFields es
end

mutual
theorem jsonView_of_plain : ∀ v : Value, Plain v → jsonView v = v
  | .undefined, h => h.elim
  | .null, _ => rfl
  | .bool _, _ => rfl
  | .num (.finite _ _), _ => rfl
  | .num (.infinite _), h => h.elim
  | .str _, _ => rfl
  | .arr xs, h => by rw [jsonView, jsonViewList_of_plain xs h]
  | .obj es, h => by rw [jsonView, jsonViewFields_of_plain es h]

theorem jsonViewList_of_plain : ∀ xs : List Value, PlainList xs → jsonViewList xs = xs
  | [], _ => rfl
  | x :: xs, h => by rw [jsonViewList, jsonView_of_plain x h.1, jsonViewList_of_plain xs h.2]

theorem jsonViewFields_of_plain : ∀ es : List (JsString × Value), PlainFields es →
    jsonViewFields es = es
  | [], _ => rfl
  | (k, v) :: es, h => by
      have hne : v ≠ .undefined := by rintro rfl; exact h.1
      rw [jsonViewFields, if_neg hne, jsonView_of_plain v h.1, jsonViewFields_of_plain es h.2]
end

/-! ## Tokens -/

theorem skipSpace_cons {u : UInt16} (h : isJsonSpace u = false) (r : JsString) :
    skipSpace (u :: r) = u :: r := by
  rw [skipSpace, List.dropWhile_cons, if_neg (by rw [h]; exact Bool.false_ne_true)]

theorem expect_append (p r : JsString) : expect p (p ++ r) = some r := by
  have hp : p.isPrefixOf (p ++ r) = true := by
    rw [List.isPrefixOf_iff_prefix]; exact List.prefix_append p r
  rw [expect, if_pos hp, List.drop_left]

/-- The text does not go on with a unit that could belong to a numeral. -/
def NoNumHead (r : JsString) : Prop := ∀ u ∈ r.head?, isNumUnit u = false

theorem noNumHead_cons {u : UInt16} {r : JsString} (h : isNumUnit u = false) : NoNumHead (u :: r) := by
  rintro v hv; cases hv; exact h

theorem numUnit_ne {u c : UInt16} (hu : isNumUnit u = true) (hc : isNumUnit c = false) : u ≠ c := by
  rintro rfl; rw [hu] at hc; cases hc

theorem numUnit_not_space {u : UInt16} (hu : isNumUnit u = true) : isJsonSpace u = false := by
  simp only [isJsonSpace, Bool.or_eq_false_iff, decide_eq_false_iff_not]
  exact ⟨⟨⟨numUnit_ne hu (by decide), numUnit_ne hu (by decide)⟩, numUnit_ne hu (by decide)⟩,
    numUnit_ne hu (by decide)⟩

theorem all_numUnit {t : JsString} (h : isJsonNumber t = true) : ∀ u ∈ t, isNumUnit u = true :=
  List.all_eq_true.mp ((Bool.and_eq_true _ _).mp h).1

theorem jsonNumber_cons {t : JsString} (h : isJsonNumber t = true) :
    ∃ u s, t = u :: s ∧ isNumUnit u = true := by
  cases t with
  | nil => exact absurd h (by decide)
  | cons u s => exact ⟨u, s, rfl, all_numUnit h u (List.mem_cons_self ..)⟩

theorem readNumber_append {t r : JsString} (h : isJsonNumber t = true) (hr : NoNumHead r) :
    readNumber E (t ++ r) = some (.num (E.toNumber t), r) := by
  have htake : (t ++ r).takeWhile isNumUnit = t := by
    rw [List.takeWhile_append_of_pos (all_numUnit h)]
    cases r with
    | nil => rw [List.takeWhile_nil, List.append_nil]
    | cons u s => rw [List.takeWhile_cons, if_neg (by rw [hr u rfl]; decide), List.append_nil]
  have hdrop : (t ++ r).dropWhile isNumUnit = r := by
    rw [List.dropWhile_append_of_pos (all_numUnit h)]
    cases r with
    | nil => rfl
    | cons u s => rw [List.dropWhile_cons, if_neg (by rw [hr u rfl]; decide)]
  simp only [readNumber, htake, hdrop, h, if_true]

/-- A printed value starts with neither white space nor a closing bracket. -/
theorem render_head {v : Value} (hw : WF E v) (hp : Plain v) :
    ∃ u s, render q v = u :: s ∧ isJsonSpace u = false ∧ u ≠ 0x5d ∧ u ≠ 0xfeff := by
  cases v with
  | undefined => exact hp.elim
  | null => exact ⟨0x6e, js "ull", by rw [render]; decide, by decide, by decide, by decide⟩
  | bool b =>
      cases b with
      | true => exact ⟨0x74, js "rue", by rw [render]; decide, by decide, by decide, by decide⟩
      | false => exact ⟨0x66, js "alse", by rw [render]; decide, by decide, by decide, by decide⟩
  | num x =>
      cases x with
      | infinite b => exact hp.elim
      | finite t i =>
          obtain ⟨u, s, rfl, hu⟩ := jsonNumber_cons hw.1
          exact ⟨u, s, by rw [render]; rfl, numUnit_not_space hu, numUnit_ne hu (by decide),
            numUnit_ne hu (by decide)⟩
  | str s => exact ⟨0x22, _, by rw [render]; rfl, by decide, by decide, by decide⟩
  | arr xs => exact ⟨0x5b, _, by rw [render]; rfl, by decide, by decide, by decide⟩
  | obj es => exact ⟨0x7b, _, by rw [render]; rfl, by decide, by decide, by decide⟩

/-! ## Fuel -/

mutual
/-- Calls of the reader that a value needs, one below another. -/
def depth : Value → Nat
  | .arr xs => 1 + depthList xs
  | .obj es => 1 + depthFields es
  | _ => 1

def depthList : List Value → Nat
  | [] => 0
  | x :: xs => 1 + depth x + depthList xs

def depthFields : List (JsString × Value) → Nat
  | [] => 0
  | (_, v) :: es => 1 + depth v + depthFields es
end

mutual
theorem depth_le_length : ∀ v : Value, WF E v → Plain v → depth v ≤ (render q v).length
  | .undefined, _, hp => hp.elim
  | .null, _, _ => by show 1 ≤ (render q .null).length; rw [render]; decide
  | .bool true, _, _ => by show 1 ≤ (render q (.bool true)).length; rw [render]; decide
  | .bool false, _, _ => by show 1 ≤ (render q (.bool false)).length; rw [render]; decide
  | .num (.infinite _), _, hp => hp.elim
  | .num (.finite t i), hw, _ => by
      obtain ⟨u, s, rfl, _⟩ := jsonNumber_cons hw.1
      show 1 ≤ (render q (.num (.finite (u :: s) i))).length
      rw [render, Number.text]; simp
  | .str s, _, _ => by show 1 ≤ (render q (.str s)).length; rw [render]; simp
  | .arr xs, hw, hp => by
      have := depthList_le_length xs hw hp
      rw [depth, render]; simp only [List.length_cons, List.length_append, List.length_nil]; omega
  | .obj es, hw, hp => by
      have := depthFields_le_length es hw.2 hp
      rw [depth, render]; simp only [List.length_cons, List.length_append, List.length_nil]; omega

theorem depthList_le_length : ∀ xs : List Value, WFList E xs → PlainList xs →
    depthList xs ≤ (renderList q xs).length + 1
  | [], _, _ => by rw [depthList]; omega
  | x :: xs, hw, hp => by
      have hx := depth_le_length x hw.1 hp.1
      have hxs := depthList_le_length xs hw.2 hp.2
      rw [depthList, renderList]
      cases xs with
      | nil => simp only [depthList, List.isEmpty_nil, if_true, List.append_nil]; omega
      | cons y ys => simp only [List.isEmpty_cons, List.length_append] at hxs ⊢; simp; omega

theorem depthFields_le_length : ∀ es : List (JsString × Value), WFFields E es → PlainFields es →
    depthFields es ≤ (renderFields q es).length + 1
  | [], _, _ => by rw [depthFields]; omega
  | (k, v) :: es, hw, hp => by
      have hv := depth_le_length v hw.1 hp.1
      have hes := depthFields_le_length es hw.2 hp.2
      rw [depthFields, renderFields]
      cases es with
      | nil => simp only [depthFields, List.isEmpty_nil, if_true, List.append_nil]; simp; omega
      | cons f fs => simp only [List.isEmpty_cons, List.length_append] at hes ⊢; simp; omega
end

/-! ## Values -/

/-- A field text starts with the quote of its key. -/
theorem skipSpace_renderFields {k : JsString} {v : Value} {es : List (JsString × Value)} {r : JsString} :
    skipSpace (renderFields q ((k, v) :: es) ++ r) = renderFields q ((k, v) :: es) ++ r := by
  rw [renderFields]
  exact skipSpace_cons (by decide) _

/-! One equation of the reader for each kind of first unit. -/

theorem readValue_quote (n : Nat) (r : JsString) :
    readValue E (n + 1) (0x22 :: r) = (readString r).map fun p => (.str p.1, p.2) := by
  rw [readValue.eq_def]; rfl

theorem readValue_bracket (n : Nat) (r : JsString) :
    readValue E (n + 1) (0x5b :: r) =
      match skipSpace r with
      | 0x5d :: r' => some (.arr [], r')
      | _ => (readElems E n r).map fun p => (.arr p.1, p.2) := by
  rw [readValue.eq_def]; rfl

theorem readValue_brace (n : Nat) (r : JsString) :
    readValue E (n + 1) (0x7b :: r) =
      match skipSpace r with
      | 0x7d :: r' => some (.obj [], r')
      | _ => (readFields E n r).map fun p => (.obj (ownFields p.1), p.2) := by
  rw [readValue.eq_def]; rfl

theorem readValue_numUnit {u : UInt16} (hu : isNumUnit u = true) (n : Nat) (r : JsString) :
    readValue E (n + 1) (u :: r) = readNumber E (u :: r) := by
  rw [readValue.eq_def]
  simp only [skipSpace_cons (numUnit_not_space hu)]
  rw [if_neg (numUnit_ne hu (by decide)), if_neg (numUnit_ne hu (by decide)),
    if_neg (numUnit_ne hu (by decide)), if_neg (numUnit_ne hu (by decide)),
    if_neg (numUnit_ne hu (by decide)), if_neg (numUnit_ne hu (by decide))]

theorem ownFields_of_nodup {es : List (JsString × Value)} (h : (es.map Prod.fst).Nodup) :
    ownFields es = es := OrdMap.entries_ofEntries h

mutual
/-- **The reader takes a printed value off the front of its input.** Induction on the value; the three
    statements differ only in what is printed. -/
theorem readValue_render (hq : Readable q) : ∀ (v : Value) (n : Nat) (r : JsString), WF E v → Plain v →
    depth v ≤ n → NoNumHead r → readValue E n (render q v ++ r) = some (v, r)
  | v, 0, _, _, _, hn, _ => by cases v <;> simp [depth] at hn
  | .undefined, _ + 1, _, _, hp, _, _ => hp.elim
  | .null, n + 1, r, _, _, _, _ => by
      show readValue E (n + 1) (render q .null ++ r) = _
      rw [render, readValue.eq_def]
      show Option.map _ (expect (js "ull") (js "ull" ++ r)) = _
      rw [expect_append]; rfl
  | .bool true, n + 1, r, _, _, _, _ => by
      rw [render, readValue.eq_def]
      show Option.map _ (expect (js "rue") (js "rue" ++ r)) = _
      rw [expect_append]; rfl
  | .bool false, n + 1, r, _, _, _, _ => by
      rw [render, readValue.eq_def]
      show Option.map _ (expect (js "alse") (js "alse" ++ r)) = _
      rw [expect_append]; rfl
  | .num (.infinite _), _ + 1, _, _, hp, _, _ => hp.elim
  | .num (.finite t i), n + 1, r, hw, _, _, hr => by
      have hread := readNumber_append (E := E) hw.1 hr
      obtain ⟨u, s, rfl, hu⟩ := jsonNumber_cons hw.1
      rw [render, Number.text, List.cons_append, readValue_numUnit hu, ← List.cons_append, hread, hw.2]
  | .str s, n + 1, r, _, _, _, _ => by
      rw [render, List.cons_append, List.cons_append, readValue_quote, List.append_assoc,
        List.singleton_append, hq]
      rfl
  | .arr [], n + 1, r, _, _, _, _ => by
      rw [render, renderList, readValue.eq_def]; rfl
  | .arr (x :: xs), n + 1, r, hw, hp, hn, _ => by
      have hd : depthList (x :: xs) ≤ n := by rw [depth] at hn; omega
      obtain ⟨u, s, hus, hsp, hne, _⟩ := render_head (q := q) hw.1 hp.1
      have hskip : skipSpace (renderList q (x :: xs) ++ 0x5d :: r)
          = u :: (s ++ (if xs.isEmpty then [] else 0x2c :: renderList q xs) ++ 0x5d :: r) := by
        rw [renderList, hus, List.cons_append, List.cons_append, skipSpace_cons hsp]
      rw [render, List.cons_append, List.cons_append, readValue_bracket, List.append_assoc,
        List.singleton_append, hskip]
      split
      · next heq => exact absurd (List.cons.inj heq).1 hne
      · rw [readElems_render hq (x :: xs) n r hw hp (by simp) hd]; rfl
  | .obj [], n + 1, r, _, _, _, _ => by
      rw [render, renderFields, readValue.eq_def]; rfl
  | .obj ((k, v) :: es), n + 1, r, hw, hp, hn, _ => by
      have hd : depthFields ((k, v) :: es) ≤ n := by rw [depth] at hn; omega
      rw [render, List.cons_append, List.cons_append, readValue_brace, List.append_assoc,
        List.singleton_append, skipSpace_renderFields]
      split
      · next heq =>
          rw [renderFields] at heq
          exact absurd (List.cons.inj heq).1 (by decide)
      · rw [readFields_render hq ((k, v) :: es) n r hw.2 hp (by simp) hd]
        show some (Value.obj (ownFields _), r) = _
        rw [ownFields_of_nodup hw.1]

theorem readElems_render (hq : Readable q) : ∀ (xs : List Value) (n : Nat) (r : JsString), WFList E xs →
    PlainList xs → xs ≠ [] → depthList xs ≤ n →
    readElems E n (renderList q xs ++ 0x5d :: r) = some (xs, r)
  | [], _, _, _, _, hne, _ => absurd rfl hne
  | x :: xs, 0, _, _, _, _, hn => by rw [depthList] at hn; omega
  | [x], n + 1, r, hw, hp, _, hn => by
      rw [depthList, depthList] at hn
      have hx := readValue_render hq x n (0x5d :: r) hw.1 hp.1 (by omega) (noNumHead_cons (by decide))
      rw [renderList, List.isEmpty_nil, if_pos rfl, List.append_nil, readElems.eq_def]
      simp only [hx]
      rfl
  | x :: y :: ys, n + 1, r, hw, hp, _, hn => by
      rw [depthList] at hn
      have hx := readValue_render hq x n (0x2c :: (renderList q (y :: ys) ++ 0x5d :: r)) hw.1 hp.1
        (by omega) (noNumHead_cons (by decide))
      have hxs := readElems_render hq (y :: ys) n r hw.2 hp.2 (by simp) (by omega)
      rw [renderList, List.isEmpty_cons, if_neg (by decide), List.append_assoc, List.cons_append,
        readElems.eq_def]
      simp only [hx]
      show Option.map _ (readElems E n (renderList q (y :: ys) ++ 0x5d :: r)) = _
      rw [hxs]; rfl

theorem readFields_render (hq : Readable q) : ∀ (es : List (JsString × Value)) (n : Nat) (r : JsString),
    WFFields E es → PlainFields es → es ≠ [] → depthFields es ≤ n →
    readFields E n (renderFields q es ++ 0x7d :: r) = some (es, r)
  | [], _, _, _, _, hne, _ => absurd rfl hne
  | (k, v) :: es, 0, _, _, _, _, hn => by rw [depthFields] at hn; omega
  | [(k, v)], n + 1, r, hw, hp, _, hn => by
      rw [depthFields, depthFields] at hn
      have hv := readValue_render hq v n (0x7d :: r) hw.1 hp.1 (by omega) (noNumHead_cons (by decide))
      have hk := hq k (0x3a :: (render q v ++ 0x7d :: r))
      rw [readFields.eq_def]
      simp only [skipSpace_renderFields]
      rw [renderFields]
      simp only [List.isEmpty_nil, if_true, List.append_nil, List.cons_append, List.append_assoc, hk,
        skipSpace_cons (show isJsonSpace 0x3a = false by decide), hv]
      rfl
  | (k, v) :: (l, w) :: es, n + 1, r, hw, hp, _, hn => by
      rw [depthFields] at hn
      have hv := readValue_render hq v n (0x2c :: (renderFields q ((l, w) :: es) ++ 0x7d :: r)) hw.1 hp.1
        (by omega) (noNumHead_cons (by decide))
      have hes := readFields_render hq ((l, w) :: es) n r hw.2 hp.2 (by simp) (by omega)
      have hk := hq k (0x3a :: (render q v ++ 0x2c :: (renderFields q ((l, w) :: es) ++ 0x7d :: r)))
      rw [readFields.eq_def]
      simp only [skipSpace_renderFields]
      rw [renderFields]
      simp only [List.isEmpty_cons, Bool.false_eq_true, if_false, List.cons_append, List.append_assoc, hk,
        skipSpace_cons (show isJsonSpace 0x3a = false by decide), hv]
      show Option.map _ (readFields E n (renderFields q ((l, w) :: es) ++ 0x7d :: r)) = _
      rw [hes]; rfl
end

/-! ## The view, and the two consequences -/

theorem fst_jsonViewFields_sublist (es : List (JsString × Value)) :
    ((jsonViewFields es).map Prod.fst).Sublist (es.map Prod.fst) := by
  induction es with
  | nil => exact List.Sublist.refl _
  | cons e es ih =>
      rw [jsonViewFields]
      split
      · exact ih.cons _
      · exact ih.cons_cons _

mutual
theorem jsonView_plain : ∀ v : Value, Plain (jsonView v)
  | .undefined | .null | .bool _ | .num (.finite _ _) | .num (.infinite _) | .str _ => trivial
  | .arr xs => jsonViewList_plain xs
  | .obj es => jsonViewFields_plain es

theorem jsonViewList_plain : ∀ xs : List Value, PlainList (jsonViewList xs)
  | [] => trivial
  | x :: xs => ⟨jsonView_plain x, jsonViewList_plain xs⟩

theorem jsonViewFields_plain : ∀ es : List (JsString × Value), PlainFields (jsonViewFields es)
  | [] => trivial
  | (_, v) :: es => by
      rw [jsonViewFields]
      split
      · exact jsonViewFields_plain es
      · exact ⟨jsonView_plain v, jsonViewFields_plain es⟩
end

mutual
theorem WF.jsonView : ∀ v : Value, WF E v → WF E (jsonView v)
  | .undefined, _ | .null, _ | .bool _, _ | .num (.infinite _), _ | .str _, _ => trivial
  | .num (.finite _ _), h => h
  | .arr xs, h => WFList.jsonView xs h
  | .obj es, h => ⟨h.1.sublist (fst_jsonViewFields_sublist es), WFFields.jsonView es h.2⟩

theorem WFList.jsonView : ∀ xs : List Value, WFList E xs → WFList E (jsonViewList xs)
  | [], _ => trivial
  | x :: xs, h => ⟨WF.jsonView x h.1, WFList.jsonView xs h.2⟩

theorem WFFields.jsonView : ∀ es : List (JsString × Value), WFFields E es → WFFields E (jsonViewFields es)
  | [], _ => trivial
  | (_, v) :: es, h => by
      rw [jsonViewFields]
      split
      · exact WFFields.jsonView es h.2
      · exact ⟨WF.jsonView v h.1, WFFields.jsonView es h.2⟩
end

/-- **A save and a reload.** `JSON.parse(JSON.stringify(v))` is the view of `v`. -/
theorem parse_stringify {v : Value} (h : WF E v) : parse E (stringify v) = some (jsonView v) := by
  have hw := WF.jsonView v h
  have hp := jsonView_plain v
  have hread := readValue_render readable_quoteBody (jsonView v)
    ((render quoteBody (jsonView v)).length + 1) [] hw hp
    (Nat.le_succ_of_le (depth_le_length _ hw hp)) nofun
  rw [List.append_nil] at hread
  simp only [parse, stringify, hread]
  rfl

/-! ## Printed text is one line -/

theorem printable_of_all {s : JsString} (h : s.all (fun u => !decide (u < 0x20)) = true) : ∀ u ∈ s, ¬u < 0x20 := by
  intro u hu
  simpa using List.all_eq_true.mp h u hu

theorem hexDigit_printable : ∀ n, n < 16 → ¬hexDigit n < 0x20 := by decide

theorem shortEscape_printable {u e : UInt16} (h : shortEscape u = some e) : ¬e < 0x20 := by
  unfold shortEscape at h
  repeat' split at h
  all_goals first | (cases h; decide) | cases h

theorem quoteFrom_printable : ∀ (s : JsString) (paired : Bool), (paired = true → startsLow s = true) →
    ∀ u ∈ quoteFrom paired s, ¬u < 0x20
  | [], _, _ => nofun
  | u :: s, true, h => by
      have hlow : isLowSurrogate u = true := h rfl
      have hu : ¬u < 0x20 := (surrogate_raw (Or.inr hlow)).2.2
      rw [quoteFrom, if_pos rfl]
      exact List.forall_mem_cons.mpr ⟨hu, quoteFrom_printable s false nofun⟩
  | u :: s, false, _ => by
      have ih := quoteFrom_printable s false nofun
      rw [quoteFrom, if_neg nofun]
      cases he : shortEscape u with
      | some e =>
          refine List.forall_mem_cons.mpr ⟨by decide, ?_⟩
          exact List.forall_mem_cons.mpr ⟨shortEscape_printable he, ih⟩
      | none =>
          dsimp only
          by_cases hpair : (isHighSurrogate u && startsLow s) = true
          · rw [if_pos hpair]
            rw [Bool.and_eq_true] at hpair
            have hu : ¬u < 0x20 := (surrogate_raw (Or.inl hpair.1)).2.2
            exact List.forall_mem_cons.mpr ⟨hu, quoteFrom_printable s true fun _ => hpair.2⟩
          · rw [if_neg hpair]
            by_cases hx : (u < 0x20 || isHighSurrogate u || isLowSurrogate u) = true
            · rw [if_pos hx]
              have hlt : u.toNat < 65536 := u.toNat_lt
              refine List.forall_mem_cons.mpr ⟨by decide, List.forall_mem_cons.mpr ⟨by decide, ?_⟩⟩
              refine List.forall_mem_append.mpr ⟨?_, ih⟩
              simp only [hex4, List.forall_mem_cons]
              exact ⟨hexDigit_printable _ (by omega), hexDigit_printable _ (by omega),
                hexDigit_printable _ (by omega), hexDigit_printable _ (by omega), nofun⟩
            · rw [if_neg hx]
              exact List.forall_mem_cons.mpr ⟨fun hlt => hx (by simp [hlt]), ih⟩

theorem numUnit_printable {u : UInt16} (h : isNumUnit u = true) : ¬u < 0x20 := by
  intro hlt
  have hspace : ∀ n : Nat, n < 0x20 → isNumUnit (UInt16.ofNat n) = false := by decide
  have hu := hspace u.toNat (UInt16.lt_iff_toNat_lt.mp hlt)
  rw [UInt16.ofNat_toNat, h] at hu
  cases hu

mutual
theorem render_printable : ∀ v : Value, WF E v → Plain v → ∀ u ∈ render quoteBody v, ¬u < 0x20
  | .undefined, _, hp => hp.elim
  | .null, _, _ => by rw [render]; exact printable_of_all (by decide)
  | .bool true, _, _ => by rw [render]; exact printable_of_all (by decide)
  | .bool false, _, _ => by rw [render]; exact printable_of_all (by decide)
  | .num (.finite _ _), h, _ => fun u hu => numUnit_printable (all_numUnit h.1 u hu)
  | .num (.infinite _), _, hp => hp.elim
  | .str s, _, _ => by
      rw [render]
      refine List.forall_mem_append.mpr ⟨List.forall_mem_cons.mpr ⟨by decide, ?_⟩, printable_of_all (by decide)⟩
      exact quoteFrom_printable s false nofun
  | .arr xs, h, hp => by
      rw [render]
      exact List.forall_mem_append.mpr
        ⟨List.forall_mem_cons.mpr ⟨by decide, renderList_printable xs h hp⟩, printable_of_all (by decide)⟩
  | .obj es, h, hp => by
      rw [render]
      exact List.forall_mem_append.mpr
        ⟨List.forall_mem_cons.mpr ⟨by decide, renderFields_printable es h.2 hp⟩, printable_of_all (by decide)⟩

theorem renderList_printable : ∀ xs : List Value, WFList E xs → PlainList xs →
    ∀ u ∈ renderList quoteBody xs, ¬u < 0x20
  | [], _, _ => nofun
  | x :: xs, h, hp => by
      rw [renderList]
      refine List.forall_mem_append.mpr ⟨render_printable x h.1 hp.1, ?_⟩
      split
      · nofun
      · exact List.forall_mem_cons.mpr ⟨by decide, renderList_printable xs h.2 hp.2⟩

theorem renderFields_printable : ∀ es : List (JsString × Value), WFFields E es → PlainFields es →
    ∀ u ∈ renderFields quoteBody es, ¬u < 0x20
  | [], _, _ => nofun
  | (k, v) :: es, h, hp => by
      rw [renderFields]
      refine List.forall_mem_append.mpr ⟨List.forall_mem_append.mpr ⟨?_, ?_⟩, ?_⟩
      · exact List.forall_mem_cons.mpr ⟨by decide, quoteFrom_printable k false nofun⟩
      · refine List.forall_mem_cons.mpr ⟨by decide, List.forall_mem_cons.mpr ⟨by decide, ?_⟩⟩
        exact render_printable v h.1 hp.1
      · split
        · nofun
        · exact List.forall_mem_cons.mpr ⟨by decide, renderFields_printable es h.2 hp.2⟩
end

/-- **One line.** Nothing `JSON.stringify` prints is a control character. -/
theorem stringify_printable {v : Value} (h : WF E v) : ∀ u ∈ stringify v, ¬u < 0x20 :=
  render_printable _ (WF.jsonView v h) (jsonView_plain v)

/-! ## What the reader returns is well formed -/

theorem wfFields_iff {es : List (JsString × Value)} : WFFields E es ↔ ∀ e ∈ es, WF E e.2 := by
  induction es with
  | nil => simp [WFFields]
  | cons e es ih => rw [WFFields, ih, List.forall_mem_cons]

theorem mem_setEntry {k : JsString} {v : Value} {es : List (JsString × Value)} {e : JsString × Value}
    (h : e ∈ OrdMap.setEntry k v es) : e = (k, v) ∨ e ∈ es := by
  induction es with
  | nil => exact Or.inl (List.mem_singleton.mp h)
  | cons f es ih =>
      rw [OrdMap.setEntry] at h
      split at h
      · exact (List.mem_cons.mp h).imp id (List.mem_cons_of_mem _)
      · rcases List.mem_cons.mp h with rfl | h'
        · exact Or.inr (List.mem_cons_self ..)
        · exact (ih h').imp id (List.mem_cons_of_mem _)

theorem mem_ownFields {es : List (JsString × Value)} {e : JsString × Value} (h : e ∈ ownFields es) :
    e ∈ es := by
  have key : ∀ (fs : List (JsString × Value)) (m : OrdMap JsString Value),
      e ∈ (fs.foldl (fun m e => m.set e.1 e.2) m).entries → e ∈ m.entries ∨ e ∈ fs := by
    intro fs
    induction fs with
    | nil => exact fun m h => Or.inl h
    | cons f fs ih =>
        intro m h
        rcases ih (m.set f.1 f.2) h with h | h
        · rcases mem_setEntry h with rfl | h
          · exact Or.inr (List.mem_cons_self ..)
          · exact Or.inl h
        · exact Or.inr (List.mem_cons_of_mem _ h)
  exact (key es OrdMap.empty h).resolve_left (List.not_mem_nil)

theorem ownFields_wf {es : List (JsString × Value)} (h : WFFields E es) :
    WF E (.obj (ownFields es)) :=
  ⟨(OrdMap.ofEntries es).nodup, wfFields_iff.mpr fun e he => wfFields_iff.mp h e (mem_ownFields he)⟩

theorem toNumber_wf (t : JsString) : WF E (.num (E.toNumber t)) := by
  show NumWF E (E.toNumber t)
  cases h : E.toNumber t with
  | finite u i => exact E.toNumber_text h
  | infinite b => trivial

theorem map_eq_some_snd {α β : Type} {o : Option (α × JsString)} {f : α × JsString → β × JsString}
    {p : β × JsString} (h : o.map f = some p) : ∃ x, o = some x ∧ f x = p := Option.map_eq_some_iff.mp h

/-- Each of the three readers returns well-formed values; induction on the fuel they share. -/
theorem reader_wf : ∀ n : Nat,
    (∀ s v r, readValue E n s = some (v, r) → WF E v) ∧
    (∀ s vs r, readElems E n s = some (vs, r) → WFList E vs) ∧
    (∀ s es r, readFields E n s = some (es, r) → WFFields E es) := by
  intro n
  induction n with
  | zero => exact ⟨nofun, nofun, nofun⟩
  | succ n ih =>
      obtain ⟨ihv, ihe, ihf⟩ := ih
      refine ⟨?_, ?_, ?_⟩
      · intro s v r h
        -- the first unit tells which reader goes on
        rw [readValue.eq_def] at h
        simp only at h
        split at h
        · cases h
        split at h
        · obtain ⟨x, -, hx⟩ := map_eq_some_snd h; cases hx; trivial
        split at h
        · split at h
          · cases h; trivial
          · obtain ⟨x, hx, hv⟩ := map_eq_some_snd h; cases hv; exact ihe _ _ _ hx
        split at h
        · split at h
          · cases h; exact ⟨List.nodup_nil, trivial⟩
          · obtain ⟨x, hx, hv⟩ := map_eq_some_snd h; cases hv; exact ownFields_wf (ihf _ _ _ hx)
        split at h
        · obtain ⟨x, -, hx⟩ := Option.map_eq_some_iff.mp h; cases hx; trivial
        split at h
        · obtain ⟨x, -, hx⟩ := Option.map_eq_some_iff.mp h; cases hx; trivial
        split at h
        · obtain ⟨x, -, hx⟩ := Option.map_eq_some_iff.mp h; cases hx; trivial
        · unfold readNumber at h
          simp only at h
          split at h
          · cases h; exact toNumber_wf _
          · cases h
      · intro s vs r h
        rw [readElems.eq_def] at h
        simp only at h
        split at h
        · cases h
        next v r' hv =>
          split at h
          · obtain ⟨x, hx, hvs⟩ := map_eq_some_snd h; cases hvs; exact ⟨ihv _ _ _ hv, ihe _ _ _ hx⟩
          · cases h; exact ⟨ihv _ _ _ hv, trivial⟩
          · cases h
      · intro s es r h
        rw [readFields.eq_def] at h
        simp only at h
        split at h
        · split at h
          · cases h
          split at h
          · split at h
            · cases h
            next v r' hv =>
              split at h
              · obtain ⟨x, hx, hvs⟩ := map_eq_some_snd h; cases hvs; exact ⟨ihv _ _ _ hv, ihf _ _ _ hx⟩
              · cases h; exact ⟨ihv _ _ _ hv, trivial⟩
              · cases h
          · cases h
        · cases h

theorem parse_wf {s : JsString} {v : Value} (h : parse E s = some v) : WF E v := by
  unfold parse at h
  split at h
  · next v' r hr =>
      split at h
      · cases h; exact (reader_wf _).1 _ _ _ hr
      · cases h
  · cases h

end Js
end VpnPi
