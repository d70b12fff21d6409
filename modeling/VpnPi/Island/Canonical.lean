import Mathlib.Data.List.Sort
import VpnPi.Island.Platform

/-!
# `Island.Canonical` — the exact bytes that get signed (`core/canonical.ts`)

`canonicalize` prints a value with sorted keys, no white space, and every unit outside printable ASCII
escaped. The facts the protocols rest on:

* `canonicalize_eq_render` — a successful encoding is the generic printer on the key-sorted value;
* `parse_canonicalBytes` — signed bytes parse to the value with its keys sorted;
* `canonicalBytes_inj` — values with the same canonical bytes are equal up to the order of keys.
-/

namespace VpnPi
namespace Island

open Js

/-! ## The encoder -/

/-- One code unit inside a string. -/
def encodeUnit (code : UInt16) : JsString :=
  if code = 0x22 then [0x5c, 0x22]
  else if code = 0x5c then [0x5c, 0x5c]
  else if code = 0x08 then [0x5c, 0x62]
  else if code = 0x09 then [0x5c, 0x74]
  else if code = 0x0a then [0x5c, 0x6e]
  else if code = 0x0c then [0x5c, 0x66]
  else if code = 0x0d then [0x5c, 0x72]
  else if code < 0x20 || 0x7f ≤ code then 0x5c :: 0x75 :: hex4 code
  else [code]

def encodeBody (s : JsString) : JsString := s.flatMap encodeUnit

def encodeString (s : JsString) : JsString := 0x22 :: encodeBody s ++ [0x22]

/-- Fields in the order of their keys. -/
def sortFields {α : Type} (es : List (JsString × α)) : List (JsString × α) :=
  es.insertionSort fun a b => keyLe a.1 b.1

def joinComma : List JsString → JsString
  | [] => []
  | t :: ts => t ++ (if ts.isEmpty then [] else 0x2c :: joinComma ts)

/-- The results in order, or the first exception. -/
def sequence : List (Except Exn JsString) → Except Exn (List JsString)
  | [] => .ok []
  | x :: xs => do
      let t ← x
      let ts ← sequence xs
      pure (t :: ts)

mutual
def encode : Value → Except Exn JsString
  | .null => .ok (js "null")
  | .bool b => .ok (if b then js "true" else js "false")
  | .num x =>
      if x.isInteger then .ok x.text
      else .error (.error (js "canonical: only integers allowed, got " ++ x.text))
  | .str s => .ok (encodeString s)
  | .arr xs => do
      let ts ← sequence (encodeList xs)
      pure (0x5b :: joinComma ts ++ [0x5d])
  | .obj es => do
      let ts ← sequence ((sortFields (encodeFields es)).map fun e =>
        e.2.map fun t => encodeString e.1 ++ 0x3a :: t)
      pure (0x7b :: joinComma ts ++ [0x7d])
  | .undefined => .error (.error (js "canonical: unsupported value of type undefined"))

def encodeList : List Value → List (Except Exn JsString)
  | [] => []
  | x :: xs => encode x :: encodeList xs

def encodeFields : List (JsString × Value) → List (JsString × Except Exn JsString)
  | [] => []
  | (k, v) :: es => (k, encode v) :: encodeFields es
end

def canonicalize (v : Value) : Except Exn JsString := encode v

def canonicalBytes (v : Value) : Except Exn Bytes := (canonicalize v).map utf8Encode

/-! ## Sorted values -/

mutual
/-- The value with the fields of every object in the order of their keys. -/
def sortKeys : Value → Value
  | .arr xs => .arr (sortKeysList xs)
  | .obj es => .obj (sortFields (sortKeysFields es))
  | v => v

def sortKeysList : List Value → List Value
  | [] => []
  | x :: xs => sortKeys x :: sortKeysList xs

def sortKeysFields : List (JsString × Value) → List (JsString × Value)
  | [] => []
  | (k, v) :: es => (k, sortKeys v) :: sortKeysFields es
end

/-- The same JSON value, up to the order of keys. -/
def JsonEq (v w : Value) : Prop := sortKeys v = sortKeys w

@[simp] theorem sortKeys_str (s : JsString) : sortKeys (.str s) = .str s := rfl
@[simp] theorem sortKeys_num (x : Number) : sortKeys (.num x) = .num x := rfl

theorem sortKeysFields_eq (es : List (JsString × Value)) :
    sortKeysFields es = es.map fun e => (e.1, sortKeys e.2) := by
  induction es with
  | nil => rfl
  | cons e es ih => rw [sortKeysFields, ih, List.map_cons]

/-- Sorting looks at keys only. -/
theorem sortFields_map {α β : Type} (f : α → β) (es : List (JsString × α)) :
    sortFields (es.map fun e => (e.1, f e.2)) = (sortFields es).map fun e => (e.1, f e.2) := by
  refine (List.map_insertionSort _ _ _ es ?_).symm
  exact fun a _ b _ => Iff.rfl

theorem fst_sortFields_perm {α : Type} (es : List (JsString × α)) :
    ((sortFields es).map Prod.fst).Perm (es.map Prod.fst) :=
  (List.perm_insertionSort _ es).map Prod.fst

theorem mem_sortFields {α : Type} {es : List (JsString × α)} {e : JsString × α} :
    e ∈ sortFields es ↔ e ∈ es := List.mem_insertionSort _

variable {E : Engine}

mutual
theorem sortKeys_wf : ∀ v : Value, v.WF E → (sortKeys v).WF E
  | .undefined, h | .null, h | .bool _, h | .num _, h | .str _, h => h
  | .arr xs, h => sortKeysList_wf xs h
  | .obj es, h => by
      refine ⟨?_, wfFields_iff.mpr fun e he => ?_⟩
      · have hfst : (sortKeysFields es).map Prod.fst = es.map Prod.fst := by
          rw [sortKeysFields_eq, List.map_map]; rfl
        exact (fst_sortFields_perm _).nodup_iff.mpr (hfst ▸ h.1)
      · exact wfFields_iff.mp (sortKeysFields_wf es h.2) e (mem_sortFields.mp he)

theorem sortKeysList_wf : ∀ xs : List Value, Value.WFList E xs → Value.WFList E (sortKeysList xs)
  | [], _ => trivial
  | x :: xs, h => ⟨sortKeys_wf x h.1, sortKeysList_wf xs h.2⟩

theorem sortKeysFields_wf : ∀ es : List (JsString × Value), Value.WFFields E es →
    Value.WFFields E (sortKeysFields es)
  | [], _ => trivial
  | (_, v) :: es, h => ⟨sortKeys_wf v h.1, sortKeysFields_wf es h.2⟩
end

/-- Sorting the fields does not change what a key finds. -/
theorem lookup_sortKeysFields {es : List (JsString × Value)} (hnd : (es.map Prod.fst).Nodup)
    (k : JsString) : (sortFields (sortKeysFields es)).lookup k = (es.lookup k).map sortKeys := by
  have hfst : (sortKeysFields es).map Prod.fst = es.map Prod.fst := by
    rw [sortKeysFields_eq, List.map_map]; rfl
  have hnd' : ((sortFields (sortKeysFields es)).map Prod.fst).Nodup :=
    (fst_sortFields_perm _).nodup_iff.mpr (hfst ▸ hnd)
  refine Option.ext fun w => ?_
  rw [OrdMap.lookup_eq_some_iff hnd', mem_sortFields, sortKeysFields_eq, List.mem_map,
    Option.map_eq_some_iff]
  constructor
  · rintro ⟨⟨k', v⟩, hmem, heq⟩
    obtain ⟨rfl, rfl⟩ := Prod.mk.inj heq
    exact ⟨v, (OrdMap.lookup_eq_some_iff hnd).mpr hmem, rfl⟩
  · rintro ⟨v, hv, rfl⟩
    exact ⟨(k, v), (OrdMap.lookup_eq_some_iff hnd).mp hv, rfl⟩

theorem prop_sortKeys {v w : Value} {k : JsString} (hv : v.WF E) (h : prop v k = .ok w) :
    prop (sortKeys v) k = .ok (sortKeys w) := by
  rw [prop_ok] at h ⊢
  cases v with
  | undefined => cases h
  | null => cases h
  | obj es =>
      obtain rfl : (es.lookup k).getD .undefined = w := Option.some.inj h
      show some (((sortFields (sortKeysFields es)).lookup k).getD .undefined) = _
      rw [lookup_sortKeysFields hv.1]
      cases es.lookup k <;> rfl
  | bool b => cases h; rfl
  | num x => cases h; rfl
  | str s => cases h; rfl
  | arr xs => cases h; rfl

/-- A primitive is its own sorted form, and no other value has it. -/
theorem eq_of_sortKeys_primitive {v w : Value} (hv : v.isPrimitive = true)
    (h : sortKeys v = sortKeys w) : w = v := by
  cases v with
  | arr xs => cases hv
  | obj es => cases hv
  | _ => cases w with
    | arr xs => cases h
    | obj es => cases h
    | _ => exact h.symm

theorem plainFields_iff {es : List (JsString × Value)} : PlainFields es ↔ ∀ e ∈ es, Plain e.2 := by
  induction es with
  | nil => simp [PlainFields]
  | cons e es ih => rw [PlainFields, ih, List.forall_mem_cons]

theorem JsonEq.field {v w a b : Value} {k : JsString} (h : JsonEq v w) (hv : v.WF E) (hw : w.WF E)
    (ha : prop v k = .ok a) (hb : prop w k = .ok b) : JsonEq a b := by
  have hsorted := prop_sortKeys hv ha
  rw [show sortKeys v = sortKeys w from h, prop_sortKeys hw hb] at hsorted
  exact (Except.ok.inj hsorted).symm

theorem JsonEq.eq_str {s : JsString} {w : Value} (h : JsonEq (.str s) w) : w = .str s :=
  eq_of_sortKeys_primitive rfl h

/-! ## The canonical text is a print of the sorted value -/

theorem sequence_ok {α : Type} {f : α → Except Exn JsString} {xs : List α} {ts : List JsString}
    (h : sequence (xs.map f) = .ok ts) : ∀ x ∈ xs, ∃ t, f x = .ok t := by
  induction xs generalizing ts with
  | nil => exact nofun
  | cons x xs ih =>
      rw [List.map_cons, sequence] at h
      obtain ⟨t, ht, h⟩ := bind_ok.mp h
      obtain ⟨us, hus, _⟩ := bind_ok.mp h
      exact List.forall_mem_cons.mpr ⟨⟨t, ht⟩, ih hus⟩

theorem sequence_map_ok {α : Type} (f : α → JsString) (xs : List α) :
    sequence (xs.map fun x => .ok (f x)) = .ok (xs.map f) := by
  induction xs with
  | nil => rfl
  | cons x xs ih => rw [List.map_cons, sequence, ih]; rfl

theorem mem_encodeFields : ∀ {es : List (JsString × Value)} {e : JsString × Value}, e ∈ es →
    (e.1, encode e.2) ∈ encodeFields es
  | (k, v) :: es, e, h => by
      rw [encodeFields]
      rcases List.mem_cons.mp h with rfl | h
      · exact List.mem_cons_self ..
      · exact List.mem_cons_of_mem _ (mem_encodeFields h)

theorem joinComma_map_render (xs : List Value) :
    joinComma (xs.map (render encodeBody)) = renderList encodeBody xs := by
  induction xs with
  | nil => rfl
  | cons x xs ih =>
      rw [List.map_cons, joinComma, renderList, ih]
      cases xs <;> rfl

/-- One printed field. -/
def renderField (e : JsString × Value) : JsString := encodeString e.1 ++ 0x3a :: render encodeBody e.2

theorem joinComma_map_renderField (es : List (JsString × Value)) :
    joinComma (es.map renderField) = renderFields encodeBody es := by
  induction es with
  | nil => rfl
  | cons e es ih =>
      obtain ⟨k, v⟩ := e
      rw [List.map_cons, joinComma, renderFields, ih]
      have hhead : renderField (k, v)
          = 0x22 :: encodeBody k ++ 0x22 :: 0x3a :: render encodeBody v := by
        simp [renderField, encodeString]
      rw [hhead]
      cases es <;> simp

mutual
/-- **A successful encoding prints the sorted value**, and only `Plain` values have one. -/
theorem canonicalize_eq_render : ∀ (v : Value) (t : JsString), canonicalize v = .ok t →
    t = render encodeBody (sortKeys v) ∧ Plain v
  | .undefined, _, h => nomatch h
  | .null, t, h => ⟨(Except.ok.inj h).symm, trivial⟩
  | .bool b, t, h => by
      obtain rfl := Except.ok.inj h
      cases b <;> exact ⟨rfl, trivial⟩
  | .num (.infinite _), t, h => by
      rw [canonicalize, encode] at h
      cases h
  | .num (.finite u i), t, h => by
      rw [canonicalize, encode] at h
      split at h
      · exact ⟨(Except.ok.inj h).symm, trivial⟩
      · cases h
  | .str s, t, h => ⟨(Except.ok.inj h).symm, trivial⟩
  | .arr xs, t, h => by
      rw [canonicalize, encode] at h
      obtain ⟨ts, hts, h⟩ := bind_ok.mp h
      obtain ⟨rfl, hp⟩ := encodeList_eq_render xs ts hts
      obtain rfl := Except.ok.inj h
      refine ⟨?_, hp⟩
      rw [joinComma_map_render]; rfl
  | .obj es, t, h => by
      rw [canonicalize, encode] at h
      obtain ⟨ts, hts, h⟩ := bind_ok.mp h
      -- every field encoded, so the fields can be replaced by their prints before sorting
      have hok : ∀ e ∈ es, ∃ u, encode e.2 = .ok u := by
        intro e he
        have hmem : (e.1, encode e.2) ∈ sortFields (encodeFields es) :=
          mem_sortFields.mpr (mem_encodeFields he)
        obtain ⟨u, hu⟩ := sequence_ok hts _ hmem
        obtain ⟨w, hw, _⟩ := map_ok.mp hu
        exact ⟨w, hw⟩
      obtain ⟨hprint, hp⟩ := encodeFields_eq_render es hok
      refine ⟨?_, hp⟩
      have hmap : (sortFields (encodeFields es)).map
            (fun e => e.2.map fun t => encodeString e.1 ++ 0x3a :: t)
          = (sortFields (sortKeysFields es)).map fun e => .ok (renderField e) := by
        rw [hprint, sortFields_map fun v => Except.ok (render encodeBody v), List.map_map]; rfl
      rw [hmap, sequence_map_ok] at hts
      obtain rfl := Except.ok.inj hts
      obtain rfl := Except.ok.inj h
      rw [joinComma_map_renderField]; rfl

theorem encodeList_eq_render : ∀ (xs : List Value) (ts : List JsString),
    sequence (encodeList xs) = .ok ts →
      ts = (sortKeysList xs).map (render encodeBody) ∧ PlainList xs
  | [], ts, h => ⟨(Except.ok.inj h).symm, trivial⟩
  | x :: xs, ts, h => by
      rw [encodeList, sequence] at h
      obtain ⟨t, ht, h⟩ := bind_ok.mp h
      obtain ⟨us, hus, h⟩ := bind_ok.mp h
      obtain rfl := Except.ok.inj h
      obtain ⟨rfl, hpx⟩ := canonicalize_eq_render x t ht
      obtain ⟨rfl, hps⟩ := encodeList_eq_render xs us hus
      exact ⟨rfl, hpx, hps⟩

theorem encodeFields_eq_render : ∀ es : List (JsString × Value),
    (∀ e ∈ es, ∃ u, encode e.2 = .ok u) →
      encodeFields es = (sortKeysFields es).map (fun e => (e.1, .ok (render encodeBody e.2)))
        ∧ PlainFields es
  | [], _ => ⟨rfl, trivial⟩
  | (k, v) :: es, h => by
      obtain ⟨⟨u, hu⟩, hes⟩ := List.forall_mem_cons.mp h
      obtain ⟨rfl, hpv⟩ := canonicalize_eq_render v u hu
      obtain ⟨ih, hps⟩ := encodeFields_eq_render es hes
      refine ⟨?_, hpv, hps⟩
      rw [encodeFields, hu, ih]; rfl
end

/-! ## Reading the canonical text -/

/-- The canonical escapes are those of `JSON.stringify`, plus `\uXXXX` for everything outside printable
    ASCII. -/
theorem encodeUnit_eq (u : UInt16) :
    encodeUnit u = match shortEscape u with
      | some e => [0x5c, e]
      | none => if u < 0x20 || 0x7f ≤ u then 0x5c :: 0x75 :: hex4 u else [u] := by
  by_cases h1 : u = 0x22
  · subst h1; rfl
  by_cases h2 : u = 0x5c
  · subst h2; rfl
  by_cases h3 : u = 0x08
  · subst h3; rfl
  by_cases h4 : u = 0x09
  · subst h4; rfl
  by_cases h5 : u = 0x0a
  · subst h5; rfl
  by_cases h6 : u = 0x0c
  · subst h6; rfl
  by_cases h7 : u = 0x0d
  · subst h7; rfl
  · simp only [encodeUnit, shortEscape, h1, h2, h3, h4, h5, h6, h7, if_false]

theorem readString_encodeUnit (u : UInt16) (r : JsString) :
    readString (encodeUnit u ++ r) = (readString r).map fun p => (u :: p.1, p.2) := by
  rw [encodeUnit_eq]
  cases he : shortEscape u with
  | some e => exact readString_short he r
  | none =>
      obtain ⟨hq, hb⟩ := shortEscape_none he
      show readString ((if _ then _ else _) ++ r) = _
      split
      · exact readString_hex4 u r
      · next hraw =>
          refine readString_raw hq hb (fun hlt => hraw ?_) r
          rw [decide_eq_true hlt]; rfl

theorem readable_encodeBody : Readable encodeBody := by
  intro s r
  induction s with
  | nil => show readString (0x22 :: r) = _; rw [readString.eq_def]; rfl
  | cons u s ih =>
      rw [encodeBody, List.flatMap_cons, List.append_assoc, readString_encodeUnit]
      rw [encodeBody] at ih
      rw [ih]; rfl

/-! ## The canonical text is ASCII -/

theorem encodeUnit_ascii (u : UInt16) : IsAscii (encodeUnit u) := by
  rw [encodeUnit_eq]
  cases he : shortEscape u with
  | some e => exact IsAscii.cons (by decide) (IsAscii.cons (shortEscape_ascii he) .nil)
  | none =>
      show IsAscii (if _ then _ else _)
      split
      · exact IsAscii.cons (by decide) (IsAscii.cons (by decide) (hex4_ascii u))
      · next hraw =>
          refine IsAscii.cons ?_ .nil
          by_contra hge
          have hle : (0x7f : UInt16) ≤ u := UInt16.le_iff_toNat_le.mpr (Nat.le_of_not_lt hge)
          exact hraw (by rw [decide_eq_true hle, Bool.or_true])

theorem encodeBody_ascii (s : JsString) : IsAscii (encodeBody s) := by
  intro u hu
  obtain ⟨c, _, hc⟩ := List.mem_flatMap.mp hu
  exact encodeUnit_ascii c u hc

mutual
theorem render_ascii : ∀ v : Value, v.WF E → Plain v → IsAscii (render encodeBody v)
  | .undefined, _, hp => hp.elim
  | .null, _, _ => .of_all (by decide)
  | .bool true, _, _ => .of_all (by decide)
  | .bool false, _, _ => .of_all (by decide)
  | .num (.infinite _), _, hp => hp.elim
  | .num (.finite t i), hw, _ => fun u hu => numUnit_ascii (all_numUnit hw.1 u hu)
  | .str s, _, _ =>
      IsAscii.cons (by decide) ((encodeBody_ascii s).append (IsAscii.cons (by decide) .nil))
  | .arr xs, hw, hp =>
      IsAscii.cons (by decide) ((renderList_ascii xs hw hp).append (IsAscii.cons (by decide) .nil))
  | .obj es, hw, hp =>
      IsAscii.cons (by decide) ((renderFields_ascii es hw.2 hp).append (IsAscii.cons (by decide) .nil))

theorem renderList_ascii : ∀ xs : List Value, Value.WFList E xs → PlainList xs →
    IsAscii (renderList encodeBody xs)
  | [], _, _ => .nil
  | x :: xs, hw, hp => by
      refine (render_ascii x hw.1 hp.1).append ?_
      split
      · exact .nil
      · exact IsAscii.cons (by decide) (renderList_ascii xs hw.2 hp.2)

theorem renderFields_ascii : ∀ es : List (JsString × Value), Value.WFFields E es → PlainFields es →
    IsAscii (renderFields encodeBody es)
  | [], _, _ => .nil
  | (k, v) :: es, hw, hp => by
      rw [renderFields]
      refine (IsAscii.append (IsAscii.cons (by decide) (encodeBody_ascii k)) ?_).append ?_
      · exact IsAscii.cons (by decide) (IsAscii.cons (by decide) (render_ascii v hw.1 hp.1))
      · split
        · exact .nil
        · exact IsAscii.cons (by decide) (renderFields_ascii es hw.2 hp.2)
end

mutual
theorem plain_sortKeys : ∀ {v : Value}, Plain v → Plain (sortKeys v)
  | .undefined, h | .null, h | .bool _, h | .num _, h | .str _, h => h
  | .arr _, h => plainList_sortKeys h
  | .obj _, h => plainFields_iff.mpr fun e he =>
      plainFields_iff.mp (plainFields_sortKeys h) e (mem_sortFields.mp he)

theorem plainList_sortKeys : ∀ {xs : List Value}, PlainList xs → PlainList (sortKeysList xs)
  | [], _ => trivial
  | _ :: _, h => ⟨plain_sortKeys h.1, plainList_sortKeys h.2⟩

theorem plainFields_sortKeys : ∀ {es : List (JsString × Value)}, PlainFields es →
    PlainFields (sortKeysFields es)
  | [], _ => trivial
  | _ :: _, h => ⟨plain_sortKeys h.1, plainFields_sortKeys h.2⟩
end

/-! ## Signed bytes, read back -/

theorem encodeFields_eq_map (es : List (JsString × Value)) :
    encodeFields es = es.map fun e => (e.1, encode e.2) := by
  induction es with
  | nil => rfl
  | cons e es ih => rw [encodeFields, ih, List.map_cons]

theorem sortFields_idem {α : Type} (es : List (JsString × α)) : sortFields (sortFields es) = sortFields es := by
  have : Std.Total fun a b : JsString × α => keyLe a.1 b.1 = true := ⟨fun a b => keyLe_total a.1 b.1⟩
  have : IsTrans (JsString × α) fun a b => keyLe a.1 b.1 = true := ⟨fun _ _ _ => keyLe_trans⟩
  exact (List.pairwise_insertionSort _ es).insertionSort_eq

mutual
/-- The order of the keys is lost in the encoding. -/
theorem encode_sortKeys : ∀ v : Value, encode (sortKeys v) = encode v
  | .undefined | .null | .bool _ | .num _ | .str _ => rfl
  | .arr xs => by
      rw [sortKeys, encode, encodeList_sortKeys xs, encode]
  | .obj es => by
      rw [sortKeys, encode, encodeFields_eq_map, sortFields_map, sortFields_idem, ← sortFields_map,
        ← encodeFields_eq_map, encodeFields_sortKeys es, encode]

theorem encodeList_sortKeys : ∀ xs : List Value, encodeList (sortKeysList xs) = encodeList xs
  | [] => rfl
  | x :: xs => by rw [sortKeysList, encodeList, encode_sortKeys x, encodeList_sortKeys xs, encodeList]

theorem encodeFields_sortKeys : ∀ es : List (JsString × Value),
    encodeFields (sortKeysFields es) = encodeFields es
  | [] => rfl
  | (k, v) :: es => by
      rw [sortKeysFields, encodeFields, encode_sortKeys v, encodeFields_sortKeys es, encodeFields]
end

theorem canonicalBytes_sortKeys (v : Value) : canonicalBytes (sortKeys v) = canonicalBytes v :=
  congrArg (Except.map utf8Encode) (encode_sortKeys v)

/-- **Signed bytes parse** to the value with its keys sorted. -/
theorem parse_canonicalBytes {v : Value} {b : Bytes} (hv : v.WF E) (h : canonicalBytes v = .ok b) :
    parse E (utf8Decode b) = some (sortKeys v) := by
  obtain ⟨t, ht, rfl⟩ := map_ok.mp h
  obtain ⟨rfl, hplain⟩ := canonicalize_eq_render v t ht
  have hw := sortKeys_wf v hv
  have hp := plain_sortKeys hplain
  have hread := readValue_render readable_encodeBody (sortKeys v)
    ((render encodeBody (sortKeys v)).length + 1) [] hw hp
    (Nat.le_succ_of_le (depth_le_length _ hw hp)) nofun
  rw [List.append_nil] at hread
  rw [(render_ascii _ hw hp).decode]
  simp only [parse, hread]
  rfl

/-- **Equal signed bytes, equal contents.** Two values with the same canonical bytes differ only in the
    order of their keys. -/
theorem canonicalBytes_inj {v w : Value} {b : Bytes} (hv : v.WF E) (hw : w.WF E)
    (h1 : canonicalBytes v = .ok b) (h2 : canonicalBytes w = .ok b) : JsonEq v w := by
  have hparse := parse_canonicalBytes hv h1
  rw [parse_canonicalBytes hw h2] at hparse
  exact (Option.some.inj hparse).symm

end Island
end VpnPi
