import VpnPi.Island.Domains
import VpnPi.Island.RegistryStore
import VpnPi.Island.RemoteShare

/-!
# `Island.Resolve` — from a friend code to a record (`core/friendcode.ts`, `core/registry.ts`)

A friend code is fifty bits of a hash of the key, in Crockford's base32 (`fingerprint_eq_iff`). Whoever resolves one
trusts the registry with nothing: it computes the code of the key it is given, and checks the record's signature.

* `resolved_as_signed` — whatever the registry answers, the keys and the address that `resolve` returns are those that
  the holder of the key has signed into a record;
* `stored_resolves` — a record that an honest registry has stored last under its code resolves to itself.
-/

namespace VpnPi
namespace Island

open Js Async Value

variable (P : Platform)

/-! ## The code of a key -/

/-- `ALPHABET`: Crockford's, without I, L, O and U. -/
def crockford : JsString := js "0123456789ABCDEFGHJKMNPQRSTVWXYZ"

/-- The first 56 bits of the hash, less the low six of them; `crypto_generichash(32, ..)` has 32 bytes. -/
def codeNumber (hash : Bytes) : Nat :=
  ((List.range 7).foldl (fun acc i => acc <<< 8 ||| (hash.getD i 0).toNat) 0) >>> 6

/-- Ten symbols, five bits each. -/
def codeSymbols (acc : Nat) : JsString :=
  (List.range 10).reverse.map fun i => crockford.getD ((acc >>> (i * 5)) &&& 31) 0

def fingerprint (ed25519B64 : JsString) : Except Exn JsString := do
  let key ← orThrow .sodium (P.fromBase64 ed25519B64)
  let out := codeSymbols (codeNumber (P.genericHash key))
  pure (js "ISL-" ++ out.take 5 ++ js "-" ++ out.drop 5)

/-! ## `resolve` -/

/-- What the registry answers to a request, and `fetch` rejects without. -/
structure RegistryAnswer where
  status : Nat
  text   : JsString

/-- `r.ok`. -/
def RegistryAnswer.isOk (r : RegistryAnswer) : Bool := 200 ≤ r.status && r.status < 300

variable (toUpperCase : JsString → JsString)

/-- `code.trim().toUpperCase()`; the engine has the table of upper case letters. -/
def normalCode (code : JsString) : JsString := toUpperCase (trim code)

/-- Resolver side: the resolved key must hash to the code. -/
def assertCodeCommits (record : Value) (code : JsString) : Except Exn Unit := do
  let own ← codeOf (fingerprint P) record
  failIf (own ≠ normalCode toUpperCase code) (.registry (js "registry returned a key that does not match the code"))

/-- `const { sig, ...record } = json`. What is no object has no key, and its fingerprint throws. -/
def splitSig : Value → Except Exn (Value × Value)
  | .obj es => .ok ((es.lookup (js "sig")).getD .undefined, .obj (es.filter fun e => e.1 ≠ js "sig"))
  | _ => .error .typeError

def resolve (fetch : JsString → Option RegistryAnswer) (baseUrl code : JsString) : Except Exn Value := do
  let norm := normalCode toUpperCase code
  let segment ← orThrow (.error (js "URI malformed")) (encodeURIComponent norm)
  let r ← orThrow (.error (js "fetch failed")) (fetch (baseUrl ++ js "/registry/resolve/" ++ segment))
  failIf (r.status = 404) (.registry (js "code not found"))
  failIf (!r.isOk) (.registry (js "resolve failed: " ++ natText r.status))
  let json ← orThrow (.error (js "invalid JSON")) (parse P.toEngine r.text)
  let (sig, record) ← splitSig json
  assertCodeCommits P toUpperCase record norm
  failIf (!(sig.truthy && verifyAnnounce P record sig))
    (.registry (js "registry record fails its self-signature (tampered record?)"))
  pure record

/-! ## The registry's side of it -/

/-- A row as `get` returns it, and `Response.json` prints. -/
def RegistryRow.value (r : RegistryRow) : Value :=
  .obj [(js "ed25519", .str r.ed25519), (js "x25519", .str r.x25519), (js "wg0", .str r.wg0), (js "label", .str r.label),
    (js "sig", .str r.sig)]

/-- `GET /registry/resolve/:code`, with the code as `decodeURIComponent` has it. -/
def resolveRoute (store : RegistryStore JsString) (code : JsString) : RegistryAnswer :=
  match store.get (toUpperCase code) with
  | none => ⟨404, js "code not found"⟩
  | some row => ⟨200, stringify row.value⟩

/-! ## Fifty bits -/

variable {P toUpperCase}

/-- What a code keeps of a hash: six bytes, and two bits of the seventh. -/
def SamePrefix (x y : Bytes) : Prop :=
  (∀ i < 6, x.getD i 0 = y.getD i 0) ∧ (x.getD 6 0).toNat / 64 = (y.getD 6 0).toNat / 64

theorem or_byte (acc : Nat) (b : UInt8) : acc <<< 8 ||| b.toNat = acc * 256 + b.toNat := by
  rw [← Nat.shiftLeft_add_eq_or_of_lt b.toNat_lt, Nat.shiftLeft_eq]

theorem codeNumber_eq (h : Bytes) : codeNumber h =
    ((((((((h.getD 0 0).toNat * 256 + (h.getD 1 0).toNat) * 256 + (h.getD 2 0).toNat) * 256 + (h.getD 3 0).toNat) * 256
      + (h.getD 4 0).toNat) * 256 + (h.getD 5 0).toNat) * 256) + (h.getD 6 0).toNat) / 64 := by
  unfold codeNumber
  rw [Nat.shiftRight_eq_div_pow]
  simp only [or_byte, List.range, List.range.loop, List.foldl]
  simp

theorem codeNumber_lt (h : Bytes) : codeNumber h < 2 ^ 50 := by
  have hb := fun i => (h.getD i 0).toNat_lt
  have := hb 0; have := hb 1; have := hb 2; have := hb 3; have := hb 4; have := hb 5; have := hb 6
  rw [codeNumber_eq]
  omega

theorem byte_cons {m n : Nat} {b c : UInt8} : m * 256 + b.toNat = n * 256 + c.toNat ↔ m = n ∧ b = c := by
  have hb := b.toNat_lt
  have hc := c.toNat_lt
  rw [← UInt8.toNat_inj]
  omega

theorem codeNumber_eq_iff (x y : Bytes) : codeNumber x = codeNumber y ↔ SamePrefix x y := by
  have split (m : Nat) (b : UInt8) : (m * 256 + b.toNat) / 64 = m * 4 + b.toNat / 64 := by omega
  have pairs {m n p q : Nat} (hp : p < 4) (hq : q < 4) : m * 4 + p = n * 4 + q ↔ m = n ∧ p = q := by omega
  have hx := (x.getD 6 0).toNat_lt
  have hy := (y.getD 6 0).toNat_lt
  rw [codeNumber_eq, codeNumber_eq, split, split, pairs (by omega) (by omega), byte_cons, byte_cons, byte_cons, byte_cons,
    byte_cons, UInt8.toNat_inj]
  constructor
  · rintro ⟨⟨⟨⟨⟨⟨h0, h1⟩, h2⟩, h3⟩, h4⟩, h5⟩, h6⟩
    refine ⟨fun i hi => ?_, h6⟩
    match i, hi with
    | 0, _ => exact h0
    | 1, _ => exact h1
    | 2, _ => exact h2
    | 3, _ => exact h3
    | 4, _ => exact h4
    | 5, _ => exact h5
  · rintro ⟨hbytes, hbits⟩
    exact ⟨⟨⟨⟨⟨⟨hbytes 0 (by omega), hbytes 1 (by omega)⟩, hbytes 2 (by omega)⟩, hbytes 3 (by omega)⟩,
      hbytes 4 (by omega)⟩, hbytes 5 (by omega)⟩, hbits⟩

/-! ## The symbols of a code -/

theorem crockford_inj {m n : Nat} (hm : m < 32) (hn : n < 32) (h : crockford.getD m 0 = crockford.getD n 0) : m = n := by
  have hlen : crockford.length = 32 := rfl
  have hnodup : crockford.Nodup := by decide
  rw [List.getD_eq_getElem?_getD, List.getD_eq_getElem?_getD, List.getElem?_eq_getElem (by omega),
    List.getElem?_eq_getElem (by omega), Option.getD_some, Option.getD_some] at h
  exact (List.Nodup.getElem_inj_iff hnodup).mp h

theorem codeSymbols_inj {m n : Nat} (hm : m < 2 ^ 50) (hn : n < 2 ^ 50) (h : codeSymbols m = codeSymbols n) : m = n := by
  have hdigit (k : Nat) : k &&& 31 = k % 32 := Nat.and_two_pow_sub_one_eq_mod k 5
  have key (i : Nat) (hi : i < 10) : m / 2 ^ (i * 5) % 32 = n / 2 ^ (i * 5) % 32 := by
    have hmem : i ∈ (List.range 10).reverse := List.mem_reverse.mpr (List.mem_range.mpr hi)
    have hsym := List.map_inj_left.mp h i hmem
    rw [hdigit, hdigit, Nat.shiftRight_eq_div_pow, Nat.shiftRight_eq_div_pow] at hsym
    exact crockford_inj (Nat.mod_lt _ (by decide)) (Nat.mod_lt _ (by decide)) hsym
  have h0 := key 0 (by omega); have h1 := key 1 (by omega); have h2 := key 2 (by omega); have h3 := key 3 (by omega)
  have h4 := key 4 (by omega); have h5 := key 5 (by omega); have h6 := key 6 (by omega); have h7 := key 7 (by omega)
  have h8 := key 8 (by omega); have h9 := key 9 (by omega)
  norm_num at h0 h1 h2 h3 h4 h5 h6 h7 h8 h9
  omega

theorem fingerprint_ok {key code : JsString} (h : fingerprint P key = .ok code) : ∃ raw, P.fromBase64 key = some raw ∧
    code = js "ISL-" ++ (codeSymbols (codeNumber (P.genericHash raw))).take 5 ++ js "-"
      ++ (codeSymbols (codeNumber (P.genericHash raw))).drop 5 := by
  obtain ⟨raw, hraw, h⟩ := bind_ok.mp h
  exact ⟨raw, orThrow_ok.mp hraw, (Except.ok.inj h).symm⟩

theorem fingerprint_of {key : JsString} {raw : Bytes} (h : P.fromBase64 key = some raw) : fingerprint P key =
    .ok (js "ISL-" ++ (codeSymbols (codeNumber (P.genericHash raw))).take 5 ++ js "-"
      ++ (codeSymbols (codeNumber (P.genericHash raw))).drop 5) := by
  rw [fingerprint, h]
  rfl

/-- **Two keys share a code** exactly if their hashes agree in the first fifty bits. -/
theorem fingerprint_eq_iff (P : Platform) {a b : JsString} {x y : Bytes} (ha : P.fromBase64 a = some x)
    (hb : P.fromBase64 b = some y) :
    fingerprint P a = fingerprint P b ↔ SamePrefix (P.genericHash x) (P.genericHash y) := by
  rw [fingerprint_of ha, fingerprint_of hb, ← codeNumber_eq_iff]
  constructor
  · intro h
    refine codeSymbols_inj (codeNumber_lt _) (codeNumber_lt _) ?_
    obtain ⟨hleft, hright⟩ := List.append_inj (Except.ok.inj h) rfl
    obtain ⟨hhead, _⟩ := List.append_inj hleft rfl
    rw [← List.take_append_drop 5 (codeSymbols (codeNumber (P.genericHash x))), hright,
      List.append_cancel_left hhead, List.take_append_drop]
  · intro h
    rw [h]

/-- The units of a code. -/
def IsCodeUnit (u : UInt16) : Prop := u ∈ crockford ∨ u ∈ js "ISL-"

theorem codeSymbols_units (acc : Nat) : ∀ u ∈ codeSymbols acc, u ∈ crockford := by
  intro u hu
  obtain ⟨i, _, rfl⟩ := List.mem_map.mp hu
  have hlt : (acc >>> (i * 5)) &&& 31 < crockford.length := Nat.lt_of_le_of_lt Nat.and_le_right (by decide)
  rw [List.getD_eq_getElem?_getD, List.getElem?_eq_getElem hlt]
  exact List.getElem_mem hlt

theorem fingerprint_units {key code : JsString} (h : fingerprint P key = .ok code) : ∀ u ∈ code, IsCodeUnit u := by
  obtain ⟨raw, _, rfl⟩ := fingerprint_ok h
  intro u hu
  simp only [List.mem_append] at hu
  rcases hu with ((hu | hu) | hu) | hu
  · exact .inr hu
  · exact .inl (codeSymbols_units _ u (List.mem_of_mem_take hu))
  · exact .inr (List.mem_append_right (js "ISL") hu)
  · exact .inl (codeSymbols_units _ u (List.mem_of_mem_drop hu))

theorem IsCodeUnit.facts {u : UInt16} (h : IsCodeUnit u) : isSpace u = false ∧ u.toNat < 0x7f := by
  have hall : (crockford ++ js "ISL-").all (fun u => !isSpace u && u.toNat < 0x7f) = true := by decide
  have hu := List.all_eq_true.mp hall u (List.mem_append.mpr h)
  simpa using hu

/-- A code is printable and has no space at its ends. -/
theorem fingerprint_normal {key code : JsString} (h : fingerprint P key = .ok code) :
    trim code = code ∧ WellFormed code := by
  have hunits := fingerprint_units h
  refine ⟨trim_of_trimmed ⟨fun u hu => ?_, fun u hu => ?_⟩, IsAscii.wellFormed fun u hu => (hunits u hu).facts.2⟩
  · exact (hunits u (List.mem_of_mem_head? hu)).facts.1
  · exact (hunits u (List.mem_of_mem_getLast? hu)).facts.1

/-! ## What `resolve` returns -/

theorem splitSig_ok {json sig record : Value} (h : splitSig json = .ok (sig, record)) : ∃ es, json = .obj es ∧
    sig = (es.lookup (js "sig")).getD .undefined ∧ record = .obj (es.filter fun e => e.1 ≠ js "sig") := by
  cases json with
  | obj es =>
      obtain ⟨rfl, rfl⟩ := Prod.mk.inj (Except.ok.inj h)
      exact ⟨es, rfl, rfl, rfl⟩
  | _ => cases h

theorem codeOf_ok {record : Value} {code : JsString} (h : codeOf (fingerprint P) record = .ok code) :
    ∃ key, prop record (js "ed25519") = .ok (.str key) ∧ fingerprint P key = .ok code := by
  obtain ⟨v, hv, h⟩ := bind_ok.mp h
  cases v with
  | str key => exact ⟨key, hv, h⟩
  | _ => cases h

/-- A record that has passed both checks of `resolve`. -/
structure Resolved (P : Platform) (code : JsString) (record : Value) : Prop where
  wf      : record.WF P.toEngine
  commits : ∃ key, prop record (js "ed25519") = .ok (.str key) ∧ fingerprint P key = .ok code
  signed  : ∃ sig, verifyAnnounce P record sig = true

theorem resolve_ok {fetch : JsString → Option RegistryAnswer} {baseUrl code : JsString} {record : Value}
    (h : resolve P toUpperCase fetch baseUrl code = .ok record) :
    Resolved P (normalCode toUpperCase (normalCode toUpperCase code)) record := by
  obtain ⟨_, _, h⟩ := bind_ok.mp h
  obtain ⟨r, _, h⟩ := bind_ok.mp h
  obtain ⟨_, _, h⟩ := bind_ok.mp h
  obtain ⟨_, _, h⟩ := bind_ok.mp h
  obtain ⟨json, hjson, h⟩ := bind_ok.mp h
  obtain ⟨⟨sig, record'⟩, hsplit, h⟩ := bind_ok.mp h
  obtain ⟨_, hcommits, h⟩ := bind_ok.mp h
  obtain ⟨_, hsigned, h⟩ := bind_ok.mp h
  obtain rfl : record' = record := Except.ok.inj h
  obtain ⟨es, rfl, _, rfl⟩ := splitSig_ok hsplit
  obtain ⟨own, hown, hcommits⟩ := bind_ok.mp hcommits
  obtain rfl := not_not.mp (failIf_ok.mp hcommits)
  refine ⟨?_, codeOf_ok hown, sig, ?_⟩
  · have hjson : (Value.obj es).WF P.toEngine := parse_wf (orThrow_ok.mp hjson)
    exact ⟨(List.filter_sublist.map _).nodup hjson.1, wfFields_iff.mpr fun e he => wfFields_iff.mp hjson.2 e (List.mem_of_mem_filter he)⟩
  · have hboth := failIf_ok.mp hsigned
    rw [Bool.not_eq_true, Bool.not_eq_false', Bool.and_eq_true] at hboth
    exact hboth.2

theorem verifyAnnounce_view {record sig : Value} (h : verifyAnnounce P record sig = true) :
    ∃ view, recordSignable record = .ok view := by
  unfold verifyAnnounce at h
  dsimp only at h
  split at h
  · next hchecked =>
      obtain ⟨view, hview, _⟩ := bind_ok.mp hchecked
      exact ⟨view, hview⟩
  · cases h

theorem forall_recordFields {Q : JsString → Prop} : (∀ k ∈ Kind.record.fields, Q k) ↔
    Q (js "ed25519") ∧ Q (js "label") ∧ Q (js "wg0") ∧ Q (js "x25519") := by
  simp only [Kind.fields, List.forall_mem_cons]
  exact ⟨fun ⟨h1, h2, h3, h4, _⟩ => ⟨h1, h2, h3, h4⟩, fun ⟨h1, h2, h3, h4⟩ => ⟨h1, h2, h3, h4, List.forall_mem_nil _⟩⟩

/-- The view of a record has its fields. -/
theorem recordSignable_fields {record view : Value} (h : recordSignable record = .ok view) :
    ∀ k ∈ Kind.record.fields, ∃ u, prop record k = .ok u ∧ prop view k = .ok u := by
  obtain ⟨ed25519, label, wg0, x25519, h1, h2, h3, h4, rfl⟩ := recordSignable_ok h
  exact forall_recordFields.mpr ⟨⟨_, h1, rfl⟩, ⟨_, h2, rfl⟩, ⟨_, h3, rfl⟩, ⟨_, h4, rfl⟩⟩

theorem signRecord_strings {id : Identity} {wg0 label sig : JsString} {record : Value}
    (h : signRecord P id wg0 label = .ok (record, sig)) :
    ∀ k ∈ Kind.record.fields, ∃ t, prop record k = .ok (.str t) := by
  rw [signRecord_ok h]
  exact forall_recordFields.mpr ⟨⟨_, rfl⟩, ⟨_, rfl⟩, ⟨_, rfl⟩, ⟨_, rfl⟩⟩

/-- **The registry is trusted with nothing.** If all that was signed with the key was signed by the seven functions, then a
    record is among what was signed that has the fields of the one that `resolve` returns, and the key has the code. -/
theorem resolved_as_signed (P : Platform) (toUpperCase : JsString → JsString) {fetch : JsString → Option RegistryAnswer}
    {baseUrl code : JsString} {record : Value} (h : resolve P toUpperCase fetch baseUrl code = .ok record) (pk : Bytes)
    (hkey : (prop record (js "ed25519") >>= fromB64 P) = .ok pk) (signed : Set (Kind × Value))
    (made : ∀ k w, (k, w) ∈ signed → Signs P pk k w)
    (unforgeable : ∀ sig msg, P.verifyDetached sig msg pk = some true → ∃ k w, (k, w) ∈ signed ∧ canonicalBytes w = .ok msg) :
    ∃ view, (Kind.record, view) ∈ signed ∧ (∀ k ∈ Kind.record.fields, prop record k = prop view k) ∧
      fingerprint P (toB64 P pk) = .ok (normalCode toUpperCase (normalCode toUpperCase code)) ∧
      ∃ id wg0 label announced sig, id.edPublic = pk ∧ signRecord P id wg0 label = .ok (announced, sig) ∧
        recordSignable announced = .ok view ∧ ∀ k ∈ Kind.record.fields, prop record k = prop announced k := by
  obtain ⟨hwf, ⟨key, hed, hcode⟩, sig, hsig⟩ := resolve_ok h
  obtain ⟨view, hview⟩ := verifyAnnounce_view hsig
  obtain ⟨pub, hpub, hverified⟩ := verifyAnnounce_true hsig hview
  obtain ⟨s, msg, hmsg, hverify⟩ := hverified.checked (fromB64_of_bind hkey hpub)
  obtain ⟨k, w, hmem, hbytes⟩ := unforgeable s msg hverify
  have hsigns := made k w hmem
  have hvwf : view.WF P.toEngine := recordSignable_wf hwf hview
  have hjson : JsonEq w view := canonicalBytes_inj hsigns.wf hvwf hbytes hmsg
  obtain rfl := hsigns.shaped.eq (recordSignable_shaped hview) hjson
  have hswf : w.WF P.toEngine := hsigns.wf
  cases hsigns with
  | @record id wg0 label announcedSig announced _ hmade hannounced =>
      -- field by field, what was signed are strings, so the record has the same
      have hfields : ∀ k ∈ Kind.record.fields, prop record k = prop announced k ∧ prop record k = prop w k := by
        intro k hk
        obtain ⟨u, hu, hview_u⟩ := recordSignable_fields hview k hk
        obtain ⟨t, ht⟩ := signRecord_strings hmade k hk
        obtain ⟨u', hu', hview_u'⟩ := recordSignable_fields hannounced k hk
        obtain rfl := Except.ok.inj (ht.symm.trans hu')
        have hsame := hjson.field hswf hvwf hview_u' hview_u
        rw [hu, ht, hview_u', hsame.eq_str]
        exact ⟨rfl, rfl⟩
      refine ⟨w, hmem, fun k hk => (hfields k hk).2, ?_, id, wg0, label, announced, announcedSig, rfl, hmade, hannounced,
        fun k hk => (hfields k hk).1⟩
      have hed' := hed.symm.trans (hfields _ (List.mem_cons_self ..)).1
      rw [signRecord_ok hmade] at hed'
      obtain rfl : key = toB64 P id.edPublic := Value.str.inj (Except.ok.inj hed')
      exact hcode

/-! ## What an honest registry has stored -/

/-- A column that carries text as it is: the announce's four fields and its signature are well-formed text. -/
structure TextAnnounce (a : Announce) : Prop where
  fields : ∀ k ∈ Kind.record.fields, ∃ t, prop a.record k = .ok (.str t) ∧ WellFormed t
  sig    : WellFormed a.sig ∧ a.sig ≠ []

variable {column : TextColumn}

theorem bind_wellFormed {record : Value} {k s t : JsString} (hs : prop record k = .ok (.str s)) (hwf : WellFormed s)
    (h : (prop record k >>= fun v => orThrow .typeError (column.bind v)) = .ok t) : prop record k = .ok (.str t) := by
  obtain ⟨v, hv, h⟩ := bind_ok.mp h
  obtain rfl := Except.ok.inj (hs.symm.trans hv)
  obtain rfl : column.text.carry s = t := Option.some.inj (orThrow_ok.mp h)
  rw [column.text.keeps hwf]
  exact hs

/-- The row has the fields of the announce. -/
theorem TextAnnounce.row {a : Announce} (h : TextAnnounce a) {row : RegistryRow} (hrow : rowOfAnnounce P column a = .ok row) :
    prop a.record (js "ed25519") = .ok (.str row.ed25519) ∧ prop a.record (js "label") = .ok (.str row.label) ∧
      prop a.record (js "wg0") = .ok (.str row.wg0) ∧ prop a.record (js "x25519") = .ok (.str row.x25519) ∧
      row.sig = a.sig := by
  obtain ⟨⟨ed, hed, wed⟩, ⟨label, hlabel, wlabel⟩, ⟨wg0, hwg0, wwg0⟩, ⟨x, hx, wx⟩⟩ := forall_recordFields.mp h.fields
  obtain ⟨ed', hed', hrow⟩ := bind_ok.mp hrow
  obtain ⟨x', hx', hrow⟩ := bind_ok.mp hrow
  obtain ⟨wg0', hwg0', hrow⟩ := bind_ok.mp hrow
  obtain ⟨label', hlabel', hrow⟩ := bind_ok.mp hrow
  obtain rfl := Except.ok.inj hrow
  exact ⟨bind_wellFormed hed wed hed', bind_wellFormed hlabel wlabel hlabel', bind_wellFormed hwg0 wwg0 hwg0',
    bind_wellFormed hx wx hx', column.text.keeps h.sig.1⟩

/-- The record of a row. -/
def RegistryRow.recordValue (r : RegistryRow) : Value :=
  .obj [(js "ed25519", .str r.ed25519), (js "x25519", .str r.x25519), (js "wg0", .str r.wg0), (js "label", .str r.label)]

theorem TextAnnounce.signable {a : Announce} (h : TextAnnounce a) {row : RegistryRow}
    (hrow : rowOfAnnounce P column a = .ok row) : recordSignable row.recordValue = recordSignable a.record := by
  obtain ⟨hed, hlabel, hwg0, hx, _⟩ := h.row hrow
  rw [recordSignable, recordSignable, hed, hlabel, hwg0, hx]
  rfl

theorem TextAnnounce.verified {a : Announce} (h : TextAnnounce a) {row : RegistryRow}
    (hrow : rowOfAnnounce P column a = .ok row) (hverify : verifyAnnounce P a.record (.str a.sig) = true) :
    verifyAnnounce P row.recordValue (.str row.sig) = true := by
  obtain ⟨hed, _, _, _, hsig⟩ := h.row hrow
  rw [← hverify]
  have hpub : prop row.recordValue (js "ed25519") = prop a.record (js "ed25519") := by
    rw [hed]
    rfl
  rw [verifyAnnounce, verifyAnnounce, h.signable hrow, hpub, hsig]

/-- **What is stored resolves.** After any announces that carry text, the row under a code is what every node that types
    the code gets from the registry, `decodeURIComponent` undoing what `encodeURIComponent` did. -/
theorem stored_resolves (P : Platform) (column : TextColumn) (toUpperCase : JsString → JsString)
    (hupper : ∀ s, (∀ u ∈ s, IsCodeUnit u) → toUpperCase s = s) (as : List Announce) (htext : ∀ a ∈ as, TextAnnounce a)
    {code : JsString} {row : RegistryRow} (hrow : (storeOf P column (fingerprint P) as).get code = some row)
    {baseUrl typed : JsString} {fetch : JsString → Option RegistryAnswer}
    (hserved : ∀ segment, encodeURIComponent code = some segment →
      fetch (baseUrl ++ js "/registry/resolve/" ++ segment)
        = some (resolveRoute toUpperCase (storeOf P column (fingerprint P) as) code))
    (htyped : normalCode toUpperCase typed = code) :
    resolve P toUpperCase fetch baseUrl typed = .ok row.recordValue := by
  obtain ⟨pre, a, post, rfl, hwrites, _⟩ := get_storeOf.mp hrow
  -- the row is that of an announce which the registry has verified
  have ha : TextAnnounce a := htext a (by simp)
  obtain ⟨hcodeOf, hrowOf⟩ := acceptAnnounce_ok hwrites
  obtain ⟨_, hgood, _⟩ := bind_ok.mp hwrites
  have hverify : verifyAnnounce P a.record (.str a.sig) = true := by simpa using failIf_ok.mp hgood
  obtain ⟨key, hkey, hcode⟩ := codeOf_ok hcodeOf
  obtain ⟨htrim, hwf⟩ := fingerprint_normal hcode
  have hnormal : normalCode toUpperCase code = code := by
    rw [normalCode, htrim]
    exact hupper code (fingerprint_units hcode)
  obtain ⟨segment, hsegment⟩ : ∃ segment, encodeURIComponent code = some segment :=
    ⟨_, if_pos (toWellFormed_of_wellFormed hwf)⟩
  have hanswer : resolveRoute toUpperCase (storeOf P column (fingerprint P) (pre ++ a :: post)) code
      = ⟨200, stringify row.value⟩ := by
    rw [resolveRoute, hupper code (fingerprint_units hcode), hrow]
  have hfetch := hserved segment hsegment
  rw [hanswer] at hfetch
  have hparse : parse P.toEngine (stringify row.value) = some row.value := by
    refine parse_stringify (v := row.value) ⟨?_, trivial, trivial, trivial, trivial, trivial, trivial⟩
    show [js "ed25519", js "x25519", js "wg0", js "label", js "sig"].Nodup
    decide
  have hown : codeOf (fingerprint P) row.recordValue = .ok code := by
    obtain rfl := Value.str.inj (Except.ok.inj (hkey.symm.trans (ha.row hrowOf).1))
    exact hcode
  have hsig : (Value.str row.sig).truthy = true := by
    rw [(ha.row hrowOf).2.2.2.2]
    exact decide_eq_true ha.sig.2
  unfold resolve
  rw [htyped]
  -- the steps of `resolve` in their order, each of which goes through
  refine bind_ok.mpr ⟨segment, orThrow_ok.mpr hsegment, bind_ok.mpr ⟨_, orThrow_ok.mpr hfetch, ?_⟩⟩
  refine bind_ok.mpr ⟨(), failIf_ok.mpr (show ¬200 = 404 by decide), bind_ok.mpr ⟨(), failIf_ok.mpr (by simp [RegistryAnswer.isOk]), ?_⟩⟩
  refine bind_ok.mpr ⟨row.value, orThrow_ok.mpr hparse, bind_ok.mpr ⟨(.str row.sig, row.recordValue), rfl, ?_⟩⟩
  refine bind_ok.mpr ⟨(), bind_ok.mpr ⟨code, hown, failIf_ok.mpr (by simp [hnormal])⟩, ?_⟩
  exact bind_ok.mpr ⟨(), failIf_ok.mpr (by simp [hsig, ha.verified hrowOf hverify]), rfl⟩

namespace Symbolic

/-- The symbols of a code are their own hash here: the codes of nodes 1 and 2 differ, and two keys that differ after the
    fiftieth bit share one. -/
theorem codes_compared : fingerprint platform (toHex [1]) ≠ fingerprint platform (toHex [2]) ∧
    fingerprint platform (toHex [1, 2, 3, 4, 5, 6, 64]) = fingerprint platform (toHex [1, 2, 3, 4, 5, 6, 65, 9]) := by
  refine ⟨fun h => ?_, ?_⟩
  · obtain ⟨hbytes, _⟩ := (fingerprint_eq_iff platform (a := toHex [1]) (b := toHex [2]) (fromHex_toHex [1]) (fromHex_toHex [2])).mp h
    exact absurd (hbytes 0 (by omega)) (by decide)
  · exact (fingerprint_eq_iff platform (a := toHex [1, 2, 3, 4, 5, 6, 64]) (b := toHex [1, 2, 3, 4, 5, 6, 65, 9])
      (fromHex_toHex _) (fromHex_toHex _)).mpr ⟨by decide, by decide⟩

def asciiUpper (s : JsString) : JsString := s.map fun u => if 0x61 ≤ u ∧ u ≤ 0x7a then u - 0x20 else u

theorem asciiUpper_code (s : JsString) (h : ∀ u ∈ s, IsCodeUnit u) : asciiUpper s = s := by
  have hall : (crockford ++ js "ISL-").all (fun u => (if 0x61 ≤ u ∧ u ≤ 0x7a then u - 0x20 else u) = u) = true := by decide
  refine (List.map_congr_left fun u hu => ?_).trans (List.map_id s)
  exact of_decide_eq_true (List.all_eq_true.mp hall u (List.mem_append.mpr (h u hu)))

/-- The record of node 1, and its signature. -/
def listing : Value × JsString := ((signRecord platform (identity 1) (js "10.42.0.1") (js "node")).toOption).getD (.null, [])

def announcement : Announce := ⟨listing.1, listing.2, epoch⟩

def textColumn : TextColumn := ⟨replacing, fun x => x.text⟩

theorem announcement_text : TextAnnounce announcement where
  fields := by
    have hascii (s : JsString) (h : (s.all fun u => u.toNat < 0x7f) = true) : WellFormed s := (IsAscii.of_all h).wellFormed
    refine forall_recordFields.mpr ⟨⟨toHex [1], ?_, hascii _ (by decide)⟩, ⟨js "node", ?_, hascii _ (by decide)⟩,
      ⟨js "10.42.0.1", ?_, hascii _ (by decide)⟩, ⟨toHex [101], ?_, hascii _ (by decide)⟩⟩ <;> decide +kernel
  sig := ⟨(IsAscii.of_all (by decide +kernel)).wellFormed, by decide +kernel⟩

def listed : RegistryRow := ⟨toHex [1], toHex [101], js "10.42.0.1", js "node", listing.2, isoString epoch⟩

theorem listing_stored : (storeOf platform textColumn (fingerprint platform) [announcement]).get (js "ISL-04000-00000")
    = some listed := by
  decide +kernel

theorem listing_resolves : resolve platform asciiUpper
    (fun _ => some (resolveRoute asciiUpper (storeOf platform textColumn (fingerprint platform) [announcement])
      (js "ISL-04000-00000"))) (js "http://10.42.0.1:8788") (js " isl-04000-00000") = .ok listed.recordValue :=
  stored_resolves platform textColumn asciiUpper asciiUpper_code [announcement]
    (List.forall_mem_singleton.mpr announcement_text) listing_stored (fun _ _ => rfl) (by decide +kernel)

def listingView : Value := ((recordSignable listing.1).toOption).getD .null

/-- The platform on which nothing verifies but that record. -/
def listedOnly : Platform :=
  { platform with
    verifyDetached := fun sig msg pk =>
      if pk.length = 1 then some (sig = pk ++ msg && (canonicalBytes listingView).toOption = some msg) else none }

theorem listing_as_signed : ∃ record, resolve listedOnly asciiUpper (fun _ => some ⟨200, stringify listed.value⟩)
      (js "http://10.42.0.1:8788") (js "ISL-04000-00000") = .ok record ∧
    ∃ view, (Kind.record, view) ∈ ({(.record, listingView)} : Set (Kind × Value)) ∧
      (∀ k ∈ Kind.record.fields, prop record k = prop view k) ∧
      fingerprint listedOnly (toB64 listedOnly [1])
        = .ok (normalCode asciiUpper (normalCode asciiUpper (js "ISL-04000-00000"))) ∧
      ∃ id wg0 label announced sig, id.edPublic = [1] ∧ signRecord listedOnly id wg0 label = .ok (announced, sig) ∧
        recordSignable announced = .ok view ∧ ∀ k ∈ Kind.record.fields, prop record k = prop announced k := by
  have hview : recordSignable listing.1 = .ok listingView := by decide +kernel
  have hmade : signRecord listedOnly (identity 1) (js "10.42.0.1") (js "node") = .ok listing := by decide +kernel
  have hresolve : resolve listedOnly asciiUpper (fun _ => some ⟨200, stringify listed.value⟩)
      (js "http://10.42.0.1:8788") (js "ISL-04000-00000") = .ok listed.recordValue := by decide +kernel
  refine ⟨_, hresolve, resolved_as_signed listedOnly asciiUpper hresolve [1] (by decide +kernel)
    {(.record, listingView)} ?_ ?_⟩
  · rintro k w ⟨⟩
    exact Signs.record hmade hview
  · intro sig msg hverify
    have hboth : (decide (sig = [1] ++ msg) && decide ((canonicalBytes listingView).toOption = some msg)) = true :=
      Option.some.inj hverify
    have hmsg := of_decide_eq_true (Bool.and_eq_true _ _ ▸ hboth).2
    refine ⟨.record, listingView, rfl, ?_⟩
    cases hbytes : canonicalBytes listingView with
    | ok b =>
        rw [hbytes] at hmsg
        exact congrArg Except.ok (Option.some.inj hmsg)
    | error e =>
        rw [hbytes] at hmsg
        cases hmsg

end Symbolic

end Island
end VpnPi
