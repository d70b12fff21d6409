import VpnPi.Async.Service
import VpnPi.Js.Scalar
import VpnPi.Island.Registry
import VpnPi.Island.Symbolic

/-!
# `Island.RegistryStore` — who holds a friend code (`registerAnnounce` of `core/registry.ts`)

The registry verifies that a record is signed with its own key, derives the code from the key, and upserts. The
derivation is a parameter: fifty bits of a hash, so two keys may share a code. What the store holds under a code is
the last record accepted for it (`get_after`), whoever's it is. So a code keeps its key exactly when no other key's
record is accepted for it (`codes_kept_iff`), and keeps up with its holder exactly when nobody submits an older
record of the holder's again (`registry_current_iff`).
-/

namespace VpnPi
namespace Island

open Js Async

/-! ## The table -/

/-- A column of type `TEXT NOT NULL`: strings are carried as text, numbers are written out. -/
structure TextColumn where
  text   : TextChannel
  number : Number → JsString

/-- What the column holds of a bound value; `none` where the statement throws: `null` breaks the constraint, a list
    or an object cannot be bound. -/
def TextColumn.bind (column : TextColumn) : Value → Option JsString
  | .str s => some (column.text.carry s)
  | .num x => some (column.number x)
  | .bool b => some (column.number (.ofInt (if b then 1 else 0)))
  | .undefined | .null | .arr _ | .obj _ => none

/-- A row of `registry`, next to its code. -/
structure RegistryRow where
  ed25519   : JsString
  x25519    : JsString
  wg0       : JsString
  label     : JsString
  sig       : JsString
  announced : JsString
  deriving DecidableEq

/-- The record in a row, without the signature and the time. -/
def RegistryRow.record (r : RegistryRow) : JsString × JsString × JsString × JsString :=
  (r.ed25519, r.x25519, r.wg0, r.label)

variable {κ : Type}

/-- The table; `code` is its primary key. -/
abbrev RegistryStore (κ : Type) := OrdMap κ RegistryRow

/-- An announce, with the time it is handled at. -/
structure Announce where
  record : Value
  sig    : JsString
  now    : Instant

variable (P : Platform) (column : TextColumn) (fingerprint : JsString → Except Exn κ)

/-- The values bound by `upsert`. -/
def rowOfAnnounce (a : Announce) : Except Exn RegistryRow := do
  let ed25519 ← prop a.record (js "ed25519") >>= fun v => orThrow .typeError (column.bind v)
  let x25519 ← prop a.record (js "x25519") >>= fun v => orThrow .typeError (column.bind v)
  let wg0 ← prop a.record (js "wg0") >>= fun v => orThrow .typeError (column.bind v)
  let label ← prop a.record (js "label") >>= fun v => orThrow .typeError (column.bind v)
  pure ⟨ed25519, x25519, wg0, label, column.text.carry a.sig, column.text.carry (P.toISOString a.now)⟩

/-- `fingerprint(record.ed25519)`. -/
def codeOf (record : Value) : Except Exn κ := do
  let key ← prop record (js "ed25519")
  match key with
  | .str s => fingerprint s
  | _ => .error .typeError

/-- What an announce that is accepted writes, and under which code. -/
def acceptAnnounce (a : Announce) : Except Exn (κ × RegistryRow) := do
  failIf (!verifyAnnounce P a.record (.str a.sig)) (.registry (js "bad self-signature"))
  let code ← codeOf fingerprint a.record
  let row ← rowOfAnnounce P column a
  pure (code, row)

variable [DecidableEq κ]

/-- `ON CONFLICT(code) DO UPDATE`: the row of the code is replaced. -/
def RegistryStore.upsert (store : RegistryStore κ) (code : κ) (row : RegistryRow) : RegistryStore κ :=
  store.set code row

/-- `registerAnnounce`. -/
def registerAnnounce : Service (RegistryStore κ) Announce (Except Exn κ)
  | store, a =>
      match acceptAnnounce P column fingerprint a with
      | .ok (code, row) => (.ok code, RegistryStore.upsert store code row)
      | .error e => (.error e, store)

/-- A request to `POST /registry/announce`. -/
structure AnnounceRequest where
  body : Body
  now  : Instant

def isObjectType : Value → Bool
  | .arr _ | .obj _ => true
  | _ => false

omit [DecidableEq κ] in
/-- The announce in a request, if it is well formed. -/
def announceOfBody (q : AnnounceRequest) : Except Exn Announce := do
  let body ← readJson P q.body
  let record ← prop body (js "record")
  let sig ← prop body (js "sig")
  match isObjectType record, sig with
  | true, .str sig => pure ⟨record, sig, q.now⟩
  | _, _ => .error (.registry (js "malformed announce"))

/-- `POST /registry/announce`. -/
def postAnnounce : Service (RegistryStore κ) AnnounceRequest (Except Exn κ)
  | store, q =>
      match announceOfBody P q with
      | .ok a => registerAnnounce P column fingerprint store a
      | .error e => (.error e, store)

/-- **A run of requests** is the run of the announces that are well formed. -/
theorem after_postAnnounce (store : RegistryStore κ) (qs : List AnnounceRequest) :
    after (postAnnounce P column fingerprint) store qs
      = after (registerAnnounce P column fingerprint) store (qs.filterMap fun q => (announceOfBody P q).toOption) := by
  induction qs generalizing store with
  | nil => rfl
  | cons q qs ih =>
      rw [after, ih, List.filterMap_cons, postAnnounce]
      cases announceOfBody P q <;> rfl

/-- The store after a sequence of announces. -/
abbrev storeOf (as : List Announce) : RegistryStore κ :=
  after (registerAnnounce P column fingerprint) .empty as

/-! ## What a code holds -/

omit [DecidableEq κ] in
/-- The row an announce writes under the code, if it is accepted for it. -/
def writes (code : κ) (a : Announce) (row : RegistryRow) : Prop :=
  acceptAnnounce P column fingerprint a = .ok (code, row)

variable {P column fingerprint}

/-- **What one announce does** to a code: replaces its row if it is accepted for the code, else nothing. -/
theorem get_storeOf_snoc (as : List Announce) (a : Announce) (code : κ) (row : RegistryRow) :
    (storeOf P column fingerprint (as ++ [a])).get code = some row ↔
      writes P column fingerprint code a row ∨
        (∀ row', ¬writes P column fingerprint code a row') ∧ (storeOf P column fingerprint as).get code = some row := by
  rw [storeOf, after_snoc]
  unfold writes
  cases h : acceptAnnounce P column fingerprint a with
  | error e =>
      have hstep : (registerAnnounce P column fingerprint (storeOf P column fingerprint as) a).2
          = storeOf P column fingerprint as := by
        rw [registerAnnounce, h]
      rw [hstep]
      exact ⟨fun hget => .inr ⟨fun _ hw => (by cases hw), hget⟩, fun hor => hor.elim (fun hw => by cases hw) And.right⟩
  | ok accepted =>
      obtain ⟨code', row'⟩ := accepted
      have hstep : (registerAnnounce P column fingerprint (storeOf P column fingerprint as) a).2
          = OrdMap.set (storeOf P column fingerprint as) code' row' := by
        rw [registerAnnounce, h]
        rfl
      rw [hstep, OrdMap.get_set]
      by_cases hcode : code = code'
      · subst hcode
        rw [if_pos rfl]
        constructor
        · intro hrow
          exact .inl (congrArg (fun r => Except.ok (code, r)) (Option.some.inj hrow))
        · rintro (hw | ⟨hnone, _⟩)
          · exact congrArg some (Prod.mk.inj (Except.ok.inj hw)).2
          · exact absurd rfl (hnone row')
      · rw [if_neg hcode]
        have hother : ∀ r, ¬(Except.ok (code', row') : Except Exn (κ × RegistryRow)) = .ok (code, r) :=
          fun r hw => hcode (Prod.mk.inj (Except.ok.inj hw)).1.symm
        exact ⟨fun hget => .inr ⟨hother, hget⟩, fun hor => hor.elim (fun hw => absurd hw (hother row)) And.right⟩

/-- **The row under a code** is that of the last announce accepted for it. -/
theorem get_storeOf {as : List Announce} {code : κ} {row : RegistryRow} :
    (storeOf P column fingerprint as).get code = some row ↔
      ∃ pre a post, as = pre ++ a :: post ∧ writes P column fingerprint code a row ∧
        ∀ b ∈ post, ∀ row', ¬writes P column fingerprint code b row' := by
  induction as using List.reverseRecOn with
  | nil =>
      refine iff_of_false (fun h => by cases h) ?_
      rintro ⟨pre, a, post, h, _⟩
      exact absurd h (by simp)
  | append_singleton as a ih =>
      rw [get_storeOf_snoc, ih]
      constructor
      · rintro (hw | ⟨hnone, pre, b, post, rfl, hw, hpost⟩)
        · exact ⟨as, a, [], rfl, hw, fun _ hb => absurd hb List.not_mem_nil⟩
        · refine ⟨pre, b, post ++ [a], by rw [List.append_assoc, List.cons_append], hw, fun c hc => ?_⟩
          rcases List.mem_append.mp hc with hc | hc
          · exact hpost c hc
          · exact (List.mem_singleton.mp hc) ▸ hnone
      · rintro ⟨pre, b, post, heq, hw, hpost⟩
        rcases concat_split_cons heq with ⟨rfl, rfl, rfl⟩ | ⟨post', rfl, rfl⟩
        · exact .inl hw
        · refine .inr ⟨hpost a (by simp), pre, b, post', rfl, hw, fun c hc => hpost c ?_⟩
          exact List.mem_append_left _ hc

/-! ## Takeover -/

variable (P column fingerprint)

/-- Codes keep their keys: a code that shows a key shows it ever after, and an announce accepted for a code that
    another key holds does not happen. -/
structure CodesKept (as : List Announce) : Prop where
  kept : ∀ pre mid post, as = pre ++ mid ++ post → ∀ code row,
    (storeOf P column fingerprint pre).get code = some row →
      ∃ row', (storeOf P column fingerprint (pre ++ mid)).get code = some row' ∧ row'.ed25519 = row.ed25519
  rejected : ∀ pre a post, as = pre ++ a :: post → ∀ code row row',
    (storeOf P column fingerprint pre).get code = some row → codeOf fingerprint a.record = .ok code →
      rowOfAnnounce P column a = .ok row' → row'.ed25519 ≠ row.ed25519 →
        (∃ e, (registerAnnounce P column fingerprint (storeOf P column fingerprint pre) a).1 = .error e) ∧
          (registerAnnounce P column fingerprint (storeOf P column fingerprint pre) a).2
            = storeOf P column fingerprint pre

omit [DecidableEq κ] in
/-- No two announces of the sequence are accepted for one code with different keys. -/
def NoCollision (as : List Announce) : Prop :=
  ∀ pre a mid b post, as = pre ++ a :: mid ++ b :: post → ∀ code row row',
    writes P column fingerprint code a row → writes P column fingerprint code b row' → row'.ed25519 = row.ed25519

/-- The same, against what the store holds before each announce. -/
def NoTakeover (as : List Announce) : Prop :=
  ∀ pre b post, as = pre ++ b :: post → ∀ code row row',
    (storeOf P column fingerprint pre).get code = some row → writes P column fingerprint code b row' →
      row'.ed25519 = row.ed25519

variable {P column fingerprint}

omit [DecidableEq κ] in
theorem acceptAnnounce_ok {a : Announce} {code : κ} {row : RegistryRow}
    (h : acceptAnnounce P column fingerprint a = .ok (code, row)) :
    codeOf fingerprint a.record = .ok code ∧ rowOfAnnounce P column a = .ok row := by
  obtain ⟨_, _, h⟩ := bind_ok.mp h
  obtain ⟨code', hcode, h⟩ := bind_ok.mp h
  obtain ⟨row', hrow, h⟩ := bind_ok.mp h
  obtain ⟨rfl, rfl⟩ := Prod.mk.inj (Except.ok.inj h)
  exact ⟨hcode, hrow⟩

/-- An announce that is not accepted changes nothing. -/
theorem registerAnnounce_error {a : Announce} {e : Exn} (h : acceptAnnounce P column fingerprint a = .error e)
    (store : RegistryStore κ) : registerAnnounce P column fingerprint store a = (.error e, store) := by
  rw [registerAnnounce, h]

theorem NoTakeover.init {as : List Announce} {a : Announce} (h : NoTakeover P column fingerprint (as ++ [a])) :
    NoTakeover P column fingerprint as := by
  rintro pre b post rfl
  exact h pre b (post ++ [a]) (by rw [List.append_assoc, List.cons_append])

/-- Without takeovers a code that holds a key goes on holding it. -/
theorem NoTakeover.kept {pre mid : List Announce} (h : NoTakeover P column fingerprint (pre ++ mid)) {code : κ}
    {row : RegistryRow} (hrow : (storeOf P column fingerprint pre).get code = some row) :
    ∃ row', (storeOf P column fingerprint (pre ++ mid)).get code = some row' ∧ row'.ed25519 = row.ed25519 := by
  induction mid using List.reverseRecOn with
  | nil =>
      rw [List.append_nil]
      exact ⟨row, hrow, rfl⟩
  | append_singleton mid a ih =>
      rw [← List.append_assoc] at h ⊢
      obtain ⟨row', hget, hkey⟩ := ih h.init
      by_cases hwrites : ∃ row'', writes P column fingerprint code a row''
      · obtain ⟨row'', hw⟩ := hwrites
        refine ⟨row'', (get_storeOf_snoc _ a code row'').mpr (.inl hw), ?_⟩
        exact (h _ a [] rfl code row' row'' hget hw).trans hkey
      · refine ⟨row', (get_storeOf_snoc _ a code row').mpr (.inr ⟨fun r hw => hwrites ⟨r, hw⟩, hget⟩), hkey⟩

theorem NoCollision.noTakeover {as : List Announce} (h : NoCollision P column fingerprint as) :
    NoTakeover P column fingerprint as := by
  rintro pre b post rfl code row row' hget hw
  -- the row was written by an announce before
  obtain ⟨p, a, q, rfl, hwa, _⟩ := get_storeOf.mp hget
  exact h p a q b post (by rw [List.append_assoc]) code row row' hwa hw

theorem NoTakeover.noCollision {as : List Announce} (h : NoTakeover P column fingerprint as) :
    NoCollision P column fingerprint as := by
  rintro pre a mid b post rfl code row row' hwa hwb
  have hfirst : (storeOf P column fingerprint (pre ++ [a])).get code = some row :=
    (get_storeOf_snoc pre a code row).mpr (.inl hwa)
  have hsplit : pre ++ a :: mid = pre ++ [a] ++ mid := by rw [List.append_assoc, List.singleton_append]
  have hpre : NoTakeover P column fingerprint (pre ++ [a] ++ mid) := by
    rintro p c q hpq
    refine h p c (q ++ b :: post) ?_
    rw [hsplit, hpq, List.append_assoc, List.cons_append]
  obtain ⟨row'', hget, hkey⟩ := hpre.kept hfirst
  rw [← hsplit] at hget
  exact (h (pre ++ a :: mid) b post rfl code row'' row' hget hwb).trans hkey

/-- **A code keeps its key** throughout a sequence of announces exactly when no two of them are accepted for one
    code with different keys. -/
theorem codes_kept_iff (P : Platform) (column : TextColumn) (fingerprint : JsString → Except Exn κ)
    (as : List Announce) : CodesKept P column fingerprint as ↔ NoCollision P column fingerprint as := by
  constructor
  · intro h
    refine NoTakeover.noCollision ?_
    rintro pre b post rfl code row row' hget hw
    have hsplit : pre ++ b :: post = pre ++ [b] ++ post := by rw [List.append_assoc, List.singleton_append]
    obtain ⟨row'', hget', hkey⟩ := h.kept pre [b] post hsplit code row hget
    have hlast := (get_storeOf_snoc pre b code row').mpr (.inl hw)
    obtain rfl := Option.some.inj (hlast.symm.trans hget')
    exact hkey
  · intro h
    have htake := h.noTakeover
    refine ⟨?_, ?_⟩
    · rintro pre mid post rfl code row hget
      refine NoTakeover.kept (fun p b q hpq => htake p b (q ++ post) ?_) hget
      rw [hpq, List.append_assoc, List.cons_append]
    · rintro pre a post rfl code row row' hget hcode hrow hne
      -- an announce of another key for the code has thrown, since it was not accepted
      cases haccept : acceptAnnounce P column fingerprint a with
      | error e =>
          rw [registerAnnounce_error haccept]
          exact ⟨⟨e, rfl⟩, rfl⟩
      | ok accepted =>
          obtain ⟨code', row''⟩ := accepted
          obtain ⟨hcode', hrow'⟩ := acceptAnnounce_ok haccept
          obtain rfl := Except.ok.inj (hcode.symm.trans hcode')
          obtain rfl := Except.ok.inj (hrow.symm.trans hrow')
          exact absurd (htake pre a post rfl code row row' hget haccept) hne

namespace Symbolic

/-- Columns that replace what is no text, and write a number as JavaScript does. -/
def columns : TextColumn := ⟨replacing, Number.text⟩

/-- Node `n` announces its address. -/
def announceOf (n : UInt8) (wg0 : JsString) : Announce :=
  let signed := ((signRecord platform (identity n) wg0 (js "node")).toOption).getD (.undefined, [])
  ⟨signed.1, signed.2, epoch⟩

/-- The row it makes. -/
def announcedRow (a : Announce) : RegistryRow :=
  ((rowOfAnnounce platform columns a).toOption).getD ⟨[], [], [], [], [], []⟩

/-- Two keys with one fingerprint: the second takes the code of the first. -/
theorem code_taken_over : ¬CodesKept platform columns (fun _ => .ok ())
    [announceOf 1 (js "10.42.0.1"), announceOf 2 (js "10.42.0.2")] := by
  intro h
  obtain ⟨row, hget, hkey⟩ := h.kept [announceOf 1 (js "10.42.0.1")] [announceOf 2 (js "10.42.0.2")] [] rfl ()
    (announcedRow (announceOf 1 (js "10.42.0.1"))) (by decide +kernel)
  have hsecond : (storeOf platform columns (fun _ => Except.ok ())
      [announceOf 1 (js "10.42.0.1"), announceOf 2 (js "10.42.0.2")]).get ()
        = some (announcedRow (announceOf 2 (js "10.42.0.2"))) := by decide +kernel
  obtain rfl := Option.some.inj (hsecond.symm.trans hget)
  exact absurd hkey (by decide +kernel)

end Symbolic

/-! ## Rollback -/

/-- Something submitted to the registry: by the holder of the code, or by anybody else. -/
structure Submission where
  own      : Bool
  announce : Announce

/-- The latest announce of the holder. -/
def lastOwn (subs : List Submission) : Option Announce := ((subs.filter Submission.own).getLast?).map Submission.announce

variable (P column fingerprint)

abbrev storeAfterSubs (subs : List Submission) : RegistryStore κ :=
  storeOf P column fingerprint (subs.map Submission.announce)

/-- In every state the code shows the record the holder announced last. -/
def Current (code : κ) (subs : List Submission) : Prop :=
  ∀ pre post, subs = pre ++ post → ∀ r, lastOwn pre = some r → ∀ row, writes P column fingerprint code r row →
    ∃ row', (storeAfterSubs P column fingerprint pre).get code = some row' ∧ row'.record = row.record

omit [DecidableEq κ] in
/-- Whatever others submit that is accepted for the code carries the record the holder announced last. -/
def NoStale (code : κ) (subs : List Submission) : Prop :=
  ∀ pre s post, subs = pre ++ s :: post → s.own = false → ∀ r, lastOwn pre = some r → ∀ row row',
    writes P column fingerprint code r row → writes P column fingerprint code s.announce row' →
      row'.record = row.record

omit [DecidableEq κ] in
/-- The holder's own announces are accepted for the code. -/
def OwnAccepted (code : κ) (subs : List Submission) : Prop :=
  ∀ s ∈ subs, s.own = true → ∃ row, writes P column fingerprint code s.announce row

variable {P column fingerprint}

theorem lastOwn_snoc (subs : List Submission) (s : Submission) :
    lastOwn (subs ++ [s]) = if s.own then some s.announce else lastOwn subs := by
  unfold lastOwn
  rw [List.filter_append]
  cases hown : s.own with
  | true => rw [List.filter_cons_of_pos hown, List.filter_nil, List.getLast?_concat]; rfl
  | false =>
      rw [List.filter_cons_of_neg (by rw [hown]; exact Bool.false_ne_true), List.filter_nil, List.append_nil]
      rfl

theorem get_storeAfterSubs_snoc (subs : List Submission) (s : Submission) (code : κ) (row : RegistryRow) :
    (storeAfterSubs P column fingerprint (subs ++ [s])).get code = some row ↔
      writes P column fingerprint code s.announce row ∨
        (∀ row', ¬writes P column fingerprint code s.announce row') ∧
          (storeAfterSubs P column fingerprint subs).get code = some row := by
  rw [storeAfterSubs, List.map_append]
  exact get_storeOf_snoc _ _ code row

/-- **The registry keeps up with the holder** of a code, in every state of a run, exactly when nothing that others
    submit under the code carries another record than the holder's last. -/
theorem registry_current_iff (P : Platform) (column : TextColumn) (fingerprint : JsString → Except Exn κ) (code : κ)
    {subs : List Submission} (hown : OwnAccepted P column fingerprint code subs) :
    Current P column fingerprint code subs ↔ NoStale P column fingerprint code subs := by
  constructor
  · rintro h pre s post rfl hother r hlast row row' hw hw'
    have hsplit : pre ++ s :: post = pre ++ [s] ++ post := by rw [List.append_assoc, List.singleton_append]
    have hlast' : lastOwn (pre ++ [s]) = some r := by rw [lastOwn_snoc, hother]; exact hlast
    obtain ⟨row'', hget, hrecord⟩ := h (pre ++ [s]) post hsplit r hlast' row hw
    have hput := (get_storeAfterSubs_snoc pre s code row').mpr (.inl hw')
    obtain rfl := Option.some.inj (hput.symm.trans hget)
    exact hrecord
  · intro h pre post hsplit
    induction pre using List.reverseRecOn generalizing post with
    | nil =>
        intro r hlast
        cases hlast
    | append_singleton pre s ih =>
        rw [List.append_assoc, List.singleton_append] at hsplit
        intro r hlast row hw
        rw [lastOwn_snoc] at hlast
        cases hs : s.own with
        | true =>
            rw [hs, if_pos rfl] at hlast
            obtain rfl := Option.some.inj hlast
            exact ⟨row, (get_storeAfterSubs_snoc pre s code row).mpr (.inl hw), rfl⟩
        | false =>
            rw [hs, if_neg Bool.false_ne_true] at hlast
            obtain ⟨row', hget, hrecord⟩ := ih (s :: post) hsplit r hlast row hw
            -- what somebody else submits carries the same record or is not written
            by_cases hwrites : ∃ row'', writes P column fingerprint code s.announce row''
            · obtain ⟨row'', hw''⟩ := hwrites
              refine ⟨row'', (get_storeAfterSubs_snoc pre s code row'').mpr (.inl hw''), ?_⟩
              exact h pre s post hsplit hs r hlast row row'' hw hw''
            · exact ⟨row', (get_storeAfterSubs_snoc pre s code row').mpr (.inr ⟨fun r hr => hwrites ⟨r, hr⟩, hget⟩),
                hrecord⟩

namespace Symbolic

/-- Node 1 announces its address, then a new one. -/
def moved : List Submission :=
  [⟨true, announceOf 1 (js "10.42.0.1")⟩, ⟨true, announceOf 1 (js "10.42.0.9")⟩]

/-- Somebody submits the first announce again: the code shows the old address. -/
theorem old_record_restored : ¬Current platform columns (fun key => .ok key) (toHex [1])
    (moved ++ [⟨false, announceOf 1 (js "10.42.0.1")⟩]) := by
  intro h
  obtain ⟨row, hget, hrecord⟩ := h _ [] (List.append_nil _).symm (announceOf 1 (js "10.42.0.9")) rfl
    (announcedRow (announceOf 1 (js "10.42.0.9")))
    (show acceptAnnounce platform columns (fun key => Except.ok key) (announceOf 1 (js "10.42.0.9")) = _ by
      decide +kernel)
  have hold : (storeAfterSubs platform columns (fun key => Except.ok key)
      (moved ++ [⟨false, announceOf 1 (js "10.42.0.1")⟩])).get (toHex [1])
        = some (announcedRow (announceOf 1 (js "10.42.0.1"))) := by decide +kernel
  obtain rfl := Option.some.inj (hold.symm.trans hget)
  exact absurd hrecord (by decide +kernel)

theorem own_accepted (wg0 : JsString)
    (h : acceptAnnounce platform columns (fun key => Except.ok key) (announceOf 1 wg0)
      = .ok (toHex [1], announcedRow (announceOf 1 wg0))) :
    ∃ row, writes platform columns (fun key => Except.ok key) (toHex [1]) (announceOf 1 wg0) row := ⟨_, h⟩

/-- The same run with the second announce submitted again. -/
def repeated : List Submission := moved ++ [⟨false, announceOf 1 (js "10.42.0.9")⟩]

theorem repeated_accepted : OwnAccepted platform columns (fun key => .ok key) (toHex [1]) repeated := by
  intro s hs _
  rcases List.mem_cons.mp hs with rfl | hs
  · exact own_accepted _ (by decide +kernel)
  · rcases List.mem_cons.mp hs with rfl | hs
    · exact own_accepted _ (by decide +kernel)
    · obtain rfl := List.mem_singleton.mp hs
      exact own_accepted _ (by decide +kernel)

/-- The only announce of somebody else carries what the holder announced last. -/
theorem repeated_noStale : NoStale platform columns (fun key => .ok key) (toHex [1]) repeated := by
  intro pre s post hsplit hother r hlast row row' hw hw'
  rcases List.eq_nil_or_concat post with rfl | ⟨post, s', rfl⟩
  · obtain ⟨rfl, hs⟩ := List.append_inj' hsplit rfl
    obtain rfl := List.cons.inj hs |>.1
    obtain rfl := Option.some.inj hlast
    obtain ⟨_, rfl⟩ := Prod.mk.inj (Except.ok.inj (hw.symm.trans hw'))
    rfl
  · -- an earlier one is the holder's own
    rw [List.concat_eq_append, ← List.cons_append, ← List.append_assoc] at hsplit
    obtain ⟨hmoved, _⟩ := List.append_inj' hsplit rfl
    have hmem : s ∈ moved := by
      rw [hmoved]
      exact List.mem_append_right _ (List.mem_cons_self ..)
    rcases List.mem_cons.mp hmem with rfl | hmem
    · cases hother
    · obtain rfl := List.mem_singleton.mp hmem
      cases hother

/-- The condition holds of that run, and the code shows the new address in every state of it. -/
theorem new_record_kept : NoStale platform columns (fun key => .ok key) (toHex [1]) repeated ∧
    Current platform columns (fun key => .ok key) (toHex [1]) repeated ∧
    ((storeAfterSubs platform columns (fun key => .ok key) repeated).get (toHex [1])).map (·.wg0)
      = some (js "10.42.0.9") := by
  refine ⟨repeated_noStale, ?_, by decide +kernel⟩
  exact (registry_current_iff platform columns (fun key => .ok key) (toHex [1]) repeated_accepted).mpr repeated_noStale

end Symbolic

end Island
end VpnPi
