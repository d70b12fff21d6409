import VpnPi.Island.Canonical
import VpnPi.Island.Symbolic

/-!
# `Island.CanonicalJson` — the canonical text of every JSON value (`core/canonical.ts`)

`IsJson` is the type `Json` of the source, with the numbers on which the encoder is exact: the safe integers.
On such a value the encoder never throws, and what it prints is ASCII and parses to the value again, up to the
order of keys.

## Contents
- **Equality of JSON values.** `JsonEq` does not mind the order of keys (`jsonEq_sortKeys`).
- **Encoding.** `IsJson.canonicalize_ok`, by recursion on the value.
- **Decoding.** `canonicalize_decodes`.
-/

namespace VpnPi
namespace Island

open Js Value

/-! ## Equality of JSON values -/

mutual
/-- Sorting twice is sorting once. -/
theorem sortKeys_idem : ∀ v : Value, sortKeys (sortKeys v) = sortKeys v
  | .undefined | .null | .bool _ | .num _ | .str _ => rfl
  | .arr xs => congrArg Value.arr (sortKeysList_idem xs)
  | .obj es => by
      refine congrArg Value.obj ?_
      rw [sortKeysFields_eq, sortFields_map, sortFields_idem, ← sortFields_map, ← sortKeysFields_eq,
        sortKeysFields_idem es]

theorem sortKeysList_idem : ∀ xs : List Value, sortKeysList (sortKeysList xs) = sortKeysList xs
  | [] => rfl
  | x :: xs => by rw [sortKeysList, sortKeysList, sortKeys_idem x, sortKeysList_idem xs]

theorem sortKeysFields_idem : ∀ es : List (JsString × Value),
    sortKeysFields (sortKeysFields es) = sortKeysFields es
  | [] => rfl
  | (k, v) :: es => by rw [sortKeysFields, sortKeysFields, sortKeys_idem v, sortKeysFields_idem es]
end

theorem jsonEq_sortKeys (v : Value) : JsonEq (sortKeys v) v := sortKeys_idem v

/-! ## The values the encoder is for -/

/-- `Number.MAX_SAFE_INTEGER`. -/
def maxSafeInteger : Int := 9007199254740991

mutual
/-- A value of the source's type `Json` whose numbers are safe integers: no `undefined` anywhere, and one
    property per key. -/
def IsJson : Value → Prop
  | .undefined => False
  | .null | .bool _ | .str _ => True
  | .num x => ∃ n : Int, -maxSafeInteger ≤ n ∧ n ≤ maxSafeInteger ∧ x = .ofInt n
  | .arr xs => IsJsonList xs
  | .obj es => (es.map Prod.fst).Nodup ∧ IsJsonFields es

def IsJsonList : List Value → Prop
  | [] => True
  | x :: xs => IsJson x ∧ IsJsonList xs

def IsJsonFields : List (JsString × Value) → Prop
  | [] => True
  | (_, v) :: es => IsJson v ∧ IsJsonFields es
end

variable (E : Engine)

/-- A safe integer is a number of every engine. -/
theorem numWF_ofInt {n : Int} (hlo : -maxSafeInteger ≤ n) (hhi : n ≤ maxSafeInteger) :
    NumWF E (.ofInt n) := by
  have h1 : -9007199254740992 < n := by unfold maxSafeInteger at hlo; omega
  have h2 : n < 9007199254740992 := by unfold maxSafeInteger at hhi; omega
  exact ⟨isJsonNumber_intText n, E.toNumber_int h1 h2⟩

mutual
theorem IsJson.wf : ∀ {v : Value}, IsJson v → v.WF E
  | .undefined, h => h.elim
  | .null, _ | .bool _, _ | .str _, _ => trivial
  | .num _, ⟨_, hlo, hhi, rfl⟩ => numWF_ofInt E hlo hhi
  | .arr _, h => IsJsonList.wf h
  | .obj _, h => ⟨h.1, IsJsonFields.wf h.2⟩

theorem IsJsonList.wf : ∀ {xs : List Value}, IsJsonList xs → WFList E xs
  | [], _ => trivial
  | _ :: _, h => ⟨IsJson.wf h.1, IsJsonList.wf h.2⟩

theorem IsJsonFields.wf : ∀ {es : List (JsString × Value)}, IsJsonFields es → WFFields E es
  | [], _ => trivial
  | _ :: _, h => ⟨IsJson.wf h.1, IsJsonFields.wf h.2⟩
end

/-! ## The encoder never throws on them -/

theorem sequence_of_ok {rs : List (Except Exn JsString)} (h : ∀ r ∈ rs, ∃ t, r = .ok t) :
    ∃ ts, sequence rs = .ok ts := by
  induction rs with
  | nil => exact ⟨[], rfl⟩
  | cons r rs ih =>
      obtain ⟨⟨t, rfl⟩, hrs⟩ := List.forall_mem_cons.mp h
      obtain ⟨ts, hts⟩ := ih hrs
      exact ⟨t :: ts, bind_ok.mpr ⟨t, rfl, bind_ok.mpr ⟨ts, hts, rfl⟩⟩⟩

mutual
/-- **The encoder is total** on JSON values of safe integers. -/
theorem IsJson.canonicalize_ok : ∀ {v : Value}, IsJson v → ∃ t, encode v = .ok t
  | .undefined, h => h.elim
  | .null, _ | .bool _, _ | .str _, _ => ⟨_, rfl⟩
  | .num _, ⟨_, _, _, rfl⟩ => ⟨_, rfl⟩
  | .arr _, h => by
      obtain ⟨ts, hts⟩ := sequence_of_ok (IsJsonList.encode_ok h)
      rw [encode]
      exact ⟨_, bind_ok.mpr ⟨ts, hts, rfl⟩⟩
  | .obj es, h => by
      have hfields : ∀ r ∈ (sortFields (encodeFields es)).map (fun e => e.2.map fun t => encodeString e.1 ++ 0x3a :: t),
          ∃ t, r = .ok t := by
        intro r hr
        obtain ⟨e, he, rfl⟩ := List.mem_map.mp hr
        obtain ⟨t, ht⟩ := IsJsonFields.encode_ok h.2 e (mem_sortFields.mp he)
        exact ⟨_, map_ok.mpr ⟨t, ht, rfl⟩⟩
      obtain ⟨ts, hts⟩ := sequence_of_ok hfields
      rw [encode]
      exact ⟨_, bind_ok.mpr ⟨ts, hts, rfl⟩⟩

theorem IsJsonList.encode_ok : ∀ {xs : List Value}, IsJsonList xs → ∀ r ∈ encodeList xs, ∃ t, r = .ok t
  | [], _ => fun _ hr => absurd hr List.not_mem_nil
  | _ :: _, h => List.forall_mem_cons.mpr ⟨IsJson.canonicalize_ok h.1, IsJsonList.encode_ok h.2⟩

theorem IsJsonFields.encode_ok : ∀ {es : List (JsString × Value)}, IsJsonFields es →
    ∀ e ∈ encodeFields es, ∃ t, e.2 = .ok t
  | [], _ => fun _ he => absurd he List.not_mem_nil
  | _ :: _, h => List.forall_mem_cons.mpr ⟨IsJson.canonicalize_ok h.1, IsJsonFields.encode_ok h.2⟩
end

/-! ## Decoding -/

/-- `JSON.parse` reads the canonical text as the value with its keys sorted. -/
theorem parse_canonicalize {v : Value} {t : JsString} (hv : v.WF E) (h : canonicalize v = .ok t) :
    parse E t = some (sortKeys v) := by
  have hbytes := parse_canonicalBytes hv (map_ok.mpr ⟨t, h, rfl⟩)
  obtain ⟨rfl, hplain⟩ := canonicalize_eq_render v t h
  rwa [(render_ascii _ (sortKeys_wf v hv) (plain_sortKeys hplain)).decode] at hbytes

/-- **Canonical JSON decodes back.** Every JSON value of safe integers has a canonical text; it is ASCII, it
    parses to the value up to the order of keys, and encoding what it parses to prints it again. So only equal
    values share their canonical bytes. -/
theorem canonicalize_decodes {v : Value} (hv : IsJson v) :
    ∃ t, canonicalize v = .ok t ∧ IsAscii t ∧
      (∃ w, parse E t = some w ∧ JsonEq w v ∧ canonicalize w = .ok t) ∧
      ∀ v', IsJson v' → canonicalBytes v' = canonicalBytes v → JsonEq v' v := by
  obtain ⟨t, ht⟩ := hv.canonicalize_ok
  have hwf := hv.wf E
  obtain ⟨hrender, hplain⟩ := canonicalize_eq_render v t ht
  refine ⟨t, ht, ?_, ⟨sortKeys v, parse_canonicalize E hwf ht, jsonEq_sortKeys v, ?_⟩, ?_⟩
  · rw [hrender]
    exact render_ascii _ (sortKeys_wf v hwf) (plain_sortKeys hplain)
  · exact (encode_sortKeys v).trans ht
  · intro v' hv' hbytes
    have hb : canonicalBytes v = .ok (utf8Encode t) := map_ok.mpr ⟨t, ht, rfl⟩
    exact canonicalBytes_inj (hv'.wf E) hwf (hbytes.trans hb) hb

namespace Symbolic

/-- Keys out of order, a negative number, a quotation mark and a lone surrogate. -/
def nested : Value :=
  .obj [(js "b", .num (.ofInt (-3))), (js "a", .arr [.str [0xd800, 0x22], .null, .obj []])]

theorem nested_isJson : IsJson nested :=
  ⟨by decide, ⟨-3, by decide, by decide, rfl⟩, ⟨trivial, trivial, ⟨List.nodup_nil, trivial⟩, trivial⟩, trivial⟩

/-- It prints as `{"a":["\ud800\"",null,{}],"b":-3}`. -/
theorem nested_decodes : ∃ t, canonicalize nested = .ok t ∧ IsAscii t ∧
    (∃ w, parse platform.toEngine t = some w ∧ JsonEq w nested ∧ canonicalize w = .ok t) ∧
    ∀ v', IsJson v' → canonicalBytes v' = canonicalBytes nested → JsonEq v' nested :=
  canonicalize_decodes platform.toEngine nested_isJson

end Symbolic

end Island
end VpnPi
