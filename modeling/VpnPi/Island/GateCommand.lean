import VpnPi.Island.CanaryRoute
import VpnPi.Island.Domains
import VpnPi.Island.Handshake
import VpnPi.Js.Trim

/-!
# `Island.GateCommand` — who opens the gate (`core/canary.ts`, `core/gate.ts`, `main.ts`)

The admin app mints a canary of the reason that its operator gives, and posts it to the gate node.

* `command_accepted_iff` — the gate node takes the command for what it says exactly if its keyword is one word and the two
  clocks are within the freshness window of each other.
* `opened_by_admin` — whatever anyone posts, the helper opens the gate only for a canary that an admin has minted with the
  keyword, that was fresh when it arrived, and that the LLM has approved.
-/

namespace VpnPi
namespace Island

open Js Async Value

/-! ## The command -/

variable (P : Platform)

/-- `POST /api/gate/open`, up to the blob that goes to the gate node. -/
def gateCommand (admin : Identity) (keyword targetX25519 : JsString) (text : Value) (random ephemeral : Bytes)
    (now : Instant) : Except Exn JsString := do
  let text ← stringOrEmpty text
  let reason := trim text
  failIf (reason.length < 3) (.friend (js "a reason is required to open the gate — Llama evaluates it"))
  makeCanary P admin keyword (keyword ++ js " " ++ reason) targetX25519 random ephemeral now

/-- What a canary says that was minted so. -/
def mintedCanary (admin : Identity) (keyword text : JsString) (random : Bytes) (now : Instant) : Canary :=
  ⟨toB64 P admin.edPublic, keyword, text, toB64 P random, P.toISOString now⟩

/-- A keyword that can stand as the first token of a text. -/
def OneWord (keyword : JsString) : Prop := keyword ≠ [] ∧ ∀ u ∈ keyword, isSpace u = false

variable {P}

theorem canaryView_wf (admin : Identity) (keyword text : JsString) (random : Bytes) (now : Instant) :
    (canaryView P admin keyword text random now).WF P.toEngine :=
  ⟨show [js "node", js "keyword", js "text", js "nonce", js "issued"].Nodup by decide, trivial, trivial, trivial, trivial,
    trivial, trivial⟩

/-! ## The first token -/

theorem oneWord_of_first {s keyword : JsString} (h : splitSpaceFst s = keyword) (hne : keyword ≠ []) : OneWord keyword := by
  refine ⟨hne, fun u hu => ?_⟩
  rw [← h] at hu
  have hkept := List.mem_takeWhile_imp hu
  simpa using hkept

theorem splitSpaceFst_ne_nil {s : JsString} (h : Trimmed s) (hne : s ≠ []) : splitSpaceFst s ≠ [] := by
  cases s with
  | nil => exact absurd rfl hne
  | cons u s =>
      have hu : isSpace u = false := h.head u rfl
      rw [splitSpaceFst, List.takeWhile_cons_of_pos (by rw [hu]; rfl)]
      exact nofun

/-- **The first token** of a command is its keyword exactly if that is one word. -/
theorem first_token_iff {keyword reason : JsString} (hreason : Trimmed reason) (hne : reason ≠ []) :
    splitSpaceFst (trim (keyword ++ js " " ++ reason)) = keyword ↔ OneWord keyword := by
  constructor
  · intro h
    apply oneWord_of_first h
    rintro rfl
    refine splitSpaceFst_ne_nil (trimmed_trim _) (trim_ne_nil (u := reason.head hne) ?_ ?_) h
    · exact List.mem_append_right _ (List.head_mem hne)
    · exact hreason.head _ (List.head?_eq_some_head hne)
  · rintro ⟨hne', hword⟩
    have htrimmed : Trimmed (keyword ++ js " " ++ reason) := by
      constructor
      · intro u hu
        rw [List.append_assoc, List.head?_append_of_ne_nil _ hne'] at hu
        exact hword u (List.mem_of_mem_head? hu)
      · intro u hu
        rw [List.getLast?_append_of_ne_nil _ hne] at hu
        exact hreason.last u hu
    rw [trim_of_trimmed htrimmed, splitSpaceFst, List.append_assoc,
      List.takeWhile_append_of_pos fun v hv => by rw [hword v hv]; rfl]
    exact List.append_nil keyword

/-! ## A command on its way -/

/-- `verifyCanary`, check by check. -/
theorem verifyCanary_ok {vega : Identity} {blob keyword : JsString} {keyFor : VerifyKeyFor} {freshness : Seconds}
    {now : Instant} {c : Canary} (h : verifyCanary P vega blob keyFor keyword freshness now = .ok c) :
    ∃ payload issued, canaryPayload P vega blob keyFor = .ok payload ∧
      (prop payload (js "text") >>= stringOrEmpty) = .ok c.text ∧
      (prop payload (js "keyword") >>= stringOrEmpty) = .ok keyword ∧ c.keyword = keyword ∧
      splitSpaceFst (trim c.text) = keyword ∧ (prop payload (js "issued") >>= dateParse P) = .ok (some issued) ∧
      ¬millis freshness.val < (|now.ms - issued.ms| : Int) ∧ (prop payload (js "node") >>= stringOf) = .ok c.admin ∧
      (prop payload (js "nonce") >>= stringOf) = .ok c.nonce ∧ (prop payload (js "issued") >>= stringOf) = .ok c.issued := by
  obtain ⟨payload, hpayload, h⟩ := bind_ok.mp h
  obtain ⟨text, htext, h⟩ := bind_ok.mp h
  obtain ⟨kw, hkw, h⟩ := bind_ok.mp h
  obtain ⟨_, hfirst, h⟩ := bind_ok.mp h
  obtain ⟨parsed, hparsed, h⟩ := bind_ok.mp h
  obtain ⟨issued, hissued, h⟩ := bind_ok.mp h
  obtain ⟨_, hfresh, h⟩ := bind_ok.mp h
  obtain ⟨admin, hadmin, h⟩ := bind_ok.mp h
  obtain ⟨nonce, hnonce, h⟩ := bind_ok.mp h
  obtain ⟨issuedText, hissuedText, h⟩ := bind_ok.mp h
  obtain rfl := Except.ok.inj h
  obtain ⟨hkeyword, htoken⟩ := not_or.mp (failIf_ok.mp hfirst)
  obtain rfl := not_not.mp hkeyword
  obtain rfl := orThrow_ok.mp hissued
  exact ⟨payload, issued, hpayload, htext, hkw, rfl, not_not.mp htoken, hparsed, failIf_ok.mp hfresh, hadmin, hnonce,
    hissuedText⟩

/-- What an admin has minted for a gate node opens there. -/
theorem minted_opens (codec : Codec P) (decode : ∀ raw, P.fromBase64 (P.toBase64 raw) = some raw) {admin vega : Identity}
    (mine : KeyPairs P admin) (theirs : KeyPairs P vega) {keyword text target blob : JsString} {random ephemeral : Bytes}
    {now : Instant} (htarget : fromB64 P (.str target) = .ok vega.xPublic)
    (made : makeCanary P admin keyword text target random ephemeral now = .ok blob) {adminVerify : VerifyKeyFor}
    (hadmin : adminVerify (toB64 P admin.edPublic) = some admin.edPublic) :
    canaryPayload P vega blob adminVerify = .ok (sortKeys (canaryView P admin keyword text random now)) := by
  obtain ⟨x, hx, made⟩ := bind_ok.mp made
  obtain rfl := Except.ok.inj (htarget.symm.trans hx)
  obtain ⟨raw, hraw, made⟩ := bind_ok.mp made
  obtain rfl := Except.ok.inj made
  refine bind_ok.mpr ⟨raw, codec.fromB64 raw, ?_⟩
  apply openVerify_sealSign (canaryView_wf admin keyword text random now) hraw
  · exact fun inner h => theirs.opens ephemeral inner raw h
  · exact fun msg => decode _
  · rfl
  · exact hadmin
  · exact mine.verifies

/-- **A command is taken for what it says**: the gate node accepts it exactly if it expects the same keyword, the keyword is
    one word, and the time of issue is within the freshness window; and then reads what the admin app has put in. -/
theorem command_accepted_iff (codec : Codec P) (decode : ∀ raw, P.fromBase64 (P.toBase64 raw) = some raw)
    {admin vega : Identity} (mine : KeyPairs P admin) (theirs : KeyPairs P vega) {keyword expected target blob : JsString}
    {text : Value} {random ephemeral : Bytes} {issued now : Instant} (hdated : Dated P issued)
    (htarget : fromB64 P (.str target) = .ok vega.xPublic)
    (hcommand : gateCommand P admin keyword target text random ephemeral issued = .ok blob) {adminVerify : VerifyKeyFor}
    (hadmin : adminVerify (toB64 P admin.edPublic) = some admin.edPublic) {freshness : Seconds} {c : Canary} :
    verifyCanary P vega blob adminVerify expected freshness now = .ok c ↔
      expected = keyword ∧ OneWord keyword ∧ |now.ms - issued.ms| ≤ freshness.windowMs ∧
        ∃ given, stringOrEmpty text = .ok given ∧
          c = mintedCanary P admin keyword (keyword ++ js " " ++ trim given) random issued := by
  obtain ⟨given, hgiven, hcommand⟩ := bind_ok.mp hcommand
  obtain ⟨_, hlong, hcommand⟩ := bind_ok.mp hcommand
  have hne : trim given ≠ [] := by
    -- a text of blanks is too short, so the keyword is the first of several words
    intro hnil
    have hshort := failIf_ok.mp hlong
    rw [hnil] at hshort
    exact hshort (by decide)
  have hopen := minted_opens codec decode mine theirs htarget hcommand hadmin
  have field {k s : JsString} (h : prop (canaryView P admin keyword (keyword ++ js " " ++ trim given) random issued) k
      = .ok (.str s)) : prop (sortKeys (canaryView P admin keyword (keyword ++ js " " ++ trim given) random issued)) k
      = .ok (.str s) := prop_sortKeys (canaryView_wf ..) h
  have hwindow : |now.ms - issued.ms| ≤ freshness.windowMs ↔ ¬millis freshness.val < (|now.ms - issued.ms| : Int) := by
    rw [not_lt]
    exact Int.le_floor
  have hdate : dateParse P (.str (P.toISOString issued)) = .ok (some issued) := congrArg Except.ok hdated
  rw [hwindow]
  constructor
  · intro h
    obtain ⟨payload, issued', hpayload, htext, hkw, hkeyword, hfirst, hparsed, hfresh, hnode, hnonce, hissued⟩ :=
      verifyCanary_ok h
    obtain rfl := Except.ok.inj (hopen.symm.trans hpayload)
    -- what is opened is the view that was sealed, so each check is one of its fields
    rw [field rfl] at htext hkw hparsed hnode hnonce hissued
    obtain rfl : keyword = expected := Except.ok.inj hkw
    have htext : keyword ++ js " " ++ trim given = c.text := Except.ok.inj htext
    obtain rfl : issued = issued' := Option.some.inj (Except.ok.inj (hdate.symm.trans hparsed))
    rw [← htext, first_token_iff (trimmed_trim given) hne] at hfirst
    refine ⟨rfl, hfirst, hfresh, given, hgiven, ?_⟩
    obtain ⟨admin', keyword', text', nonce', issued''⟩ := c
    obtain rfl : toB64 P admin.edPublic = admin' := Except.ok.inj hnode
    obtain rfl : toB64 P random = nonce' := Except.ok.inj hnonce
    obtain rfl : P.toISOString issued = issued'' := Except.ok.inj hissued
    obtain rfl : keyword ++ js " " ++ trim given = text' := htext
    obtain rfl : keyword' = keyword := hkeyword
    rfl
  · rintro ⟨rfl, hword, hfresh, given', hgiven', rfl⟩
    obtain rfl := Except.ok.inj (hgiven.symm.trans hgiven')
    refine bind_ok.mpr ⟨_, hopen, bind_ok.mpr ⟨_, bind_ok.mpr ⟨_, field rfl, rfl⟩, ?_⟩⟩
    refine bind_ok.mpr ⟨_, bind_ok.mpr ⟨_, field rfl, rfl⟩, bind_ok.mpr ⟨(), failIf_ok.mpr ?_, ?_⟩⟩
    · refine not_or.mpr ⟨not_not.mpr rfl, not_not.mpr ?_⟩
      exact (first_token_iff (trimmed_trim given) hne).mpr hword
    · refine bind_ok.mpr ⟨_, bind_ok.mpr ⟨_, field rfl, hdate⟩, bind_ok.mpr ⟨issued, rfl, ?_⟩⟩
      refine bind_ok.mpr ⟨(), failIf_ok.mpr hfresh, bind_ok.mpr ⟨_, bind_ok.mpr ⟨_, field rfl, rfl⟩, ?_⟩⟩
      exact bind_ok.mpr ⟨_, bind_ok.mpr ⟨_, field rfl, rfl⟩, bind_ok.mpr ⟨_, bind_ok.mpr ⟨_, field rfl, rfl⟩, rfl⟩⟩

/-! ## Admins and a gate node -/

namespace Command

open Daemon

variable (P : Platform) {ι : Type} (admins : ι → Identity) (ctx : Ctx)

inductive Event (ι : Type) where
  /-- An admin mints a canary. -/
  | minted (a : ι) (keyword text : JsString) (random : Bytes) (now : Instant)
  | gate (e : Daemon.Event)

/-- An admin mints, or the gate node takes a step. -/
inductive Step : Daemon → Event ι → Daemon → Prop
  | minted (d : Daemon) {a : ι} {keyword text target blob : JsString} {random ephemeral : Bytes} {now : Instant}
      (made : makeCanary P (admins a) keyword text target random ephemeral now = .ok blob) :
      Step d (.minted a keyword text random now) d
  | gate {d d' : Daemon} {e : Daemon.Event} (h : Daemon.Step P ctx d e d') : Step d (.gate e) d'

/-- An admin has signed the bytes of this value: as a canary before, or ever as something else. -/
def HasSigned (pre : List (Event ι)) (a : ι) (v : Value) : Prop :=
  (∃ k w, k ≠ .canary ∧ Signs P (admins a).edPublic k w ∧ canonicalBytes w = canonicalBytes v) ∨
    ∃ keyword text random now, .minted a keyword text random now ∈ pre ∧
      canonicalBytes (canaryView P (admins a) keyword text random now) = canonicalBytes v

/-- **Signatures are unforgeable**, and the keys of the allowlist are the admins'. -/
def Unforged (pre : List (Event ι)) (e : Event ι) : Prop :=
  ∀ q, e = .gate (.verified q) → ∀ payload node key, canaryPayload P ctx.identity q.blob ctx.adminVerify = .ok payload →
    prop payload (js "node") = .ok (.str node) → ctx.adminVerify node = some key →
      ∃ a, (admins a).edPublic = key ∧ HasSigned P admins pre a payload

/-- An admin has minted this canary with the keyword, and it was fresh when it arrived. -/
def Commanded (tr : List (Event ι)) (c : Canary) : Prop :=
  ∃ a text random issued, .minted a ctx.canaryKeyword text random issued ∈ tr ∧
    c = mintedCanary P (admins a) ctx.canaryKeyword text random issued ∧
    splitSpaceFst (trim text) = ctx.canaryKeyword ∧
    ∃ q parsed, q.canary = c ∧ .gate (.verified q) ∈ tr ∧ P.dateParse c.issued = some parsed ∧
      |q.at_.ms - parsed.ms| ≤ ctx.canaryFreshnessS.windowMs

/-- The LLM has approved the canary with this reason. -/
def Approved (tr : List (Event ι)) (c : Canary) (now : Instant) (reason : JsString) : Prop :=
  ∃ decision : LlamaDecision, .gate (.gate (.answered c now decision)) ∈ tr ∧ decision.approve = true ∧
    decision.reason = reason

/-- **What the gate node has under way** has come so far. -/
structure Inv (tr : List (Event ι)) (d : Daemon) : Prop where
  verified : ∀ q ∈ d.verified, Commanded P admins ctx tr q.canary
  deciding : ∀ c now, (c, now) ∈ d.run.deciding → Commanded P admins ctx tr c
  queued   : ∀ c now reason, .opening c now reason ∈ d.run.gate.lock.waiting ∨
    .opening c now reason ∈ d.run.gate.lock.running → Commanded P admins ctx tr c ∧ Approved tr c now reason

variable {P admins ctx} {tr pre : List (Event ι)} {d d' : Daemon}

theorem Commanded.later {c : Canary} (h : Commanded P admins ctx tr c) (e : Event ι) : Commanded P admins ctx (tr ++ [e]) c := by
  obtain ⟨a, text, random, issued, hminted, hc, hfirst, q, parsed, hq, hverified, hfresh⟩ := h
  exact ⟨a, text, random, issued, List.mem_append_left _ hminted, hc, hfirst, q, parsed, hq,
    List.mem_append_left _ hverified, hfresh⟩

theorem Approved.later {c : Canary} {now : Instant} {reason : JsString} (h : Approved tr c now reason) (e : Event ι) :
    Approved (tr ++ [e]) c now reason := by
  obtain ⟨decision, hmem, h⟩ := h
  exact ⟨decision, List.mem_append_left _ hmem, h⟩

theorem Inv.later (h : Inv P admins ctx tr d) (e : Event ι) : Inv P admins ctx (tr ++ [e]) d := by
  refine ⟨fun q hq => (h.verified q hq).later e, fun c now hc => (h.deciding c now hc).later e, ?_⟩
  intro c now reason hs
  obtain ⟨hcommanded, happroved⟩ := h.queued c now reason hs
  exact ⟨hcommanded.later e, happroved.later e⟩

/-- **What verifies was minted** as a canary. -/
theorem commanded_of_verified (hundefined : P.dateParse (js "undefined") = none) {q : Request} (hq : Genuine P ctx q)
    (h : Unforged P admins ctx tr (.gate (.verified q))) : Commanded P admins ctx (tr ++ [.gate (.verified q)]) q.canary := by
  obtain ⟨payload, issued, hpayload, htext, hkw, hkeyword, hfirst, hparsed, hfresh, hnode, hnonce, hissued⟩ :=
    verifyCanary_ok hq
  obtain ⟨raw, _, hopen⟩ := bind_ok.mp hpayload
  obtain ⟨hwf, node, key, _, bytes, hnode', hkey, hbytes, _⟩ := openVerify_ok hopen
  obtain ⟨a, rfl, hsigned⟩ := h q rfl payload node key hpayload hnode' hkey
  rcases hsigned with ⟨k, w, hk, hsigns, heq⟩ | ⟨keyword, text, random, now, hminted, heq⟩
  · -- nothing else that an admin signs has the fields of a canary
    have hjson : JsonEq w payload := canonicalBytes_inj hsigns.wf hwf (heq.trans hbytes) hbytes
    have haccepted : Accepted P (admins a).edPublic .canary payload := .canary hq hpayload hnode' hkey
    exact absurd (haccepted.kind_eq hundefined hsigns.shaped hsigns.wf hjson) hk
  · have hview := canaryView_wf (P := P) (admins a) keyword text random now
    have hjson : JsonEq (canaryView P (admins a) keyword text random now) payload :=
      canonicalBytes_inj hview hwf (heq.trans hbytes) hbytes
    -- the payload has the fields that were minted
    have field {α : Type} {k s : JsString} {f : Value → Except Exn α} {x : α}
        (hown : prop (canaryView P (admins a) keyword text random now) k = .ok (.str s))
        (hx : (prop payload k >>= f) = .ok x) : f (.str s) = .ok x := by
      obtain ⟨v, hv, hx⟩ := bind_ok.mp hx
      rwa [(hjson.field hview hwf hown hv).eq_str] at hx
    have htext : text = q.canary.text := Except.ok.inj (field rfl htext)
    obtain rfl : keyword = ctx.canaryKeyword := Except.ok.inj (field rfl hkw)
    have hadmin : toB64 P (admins a).edPublic = q.canary.admin := Except.ok.inj (field rfl hnode)
    have hnonce : toB64 P random = q.canary.nonce := Except.ok.inj (field rfl hnonce)
    have hissued : P.toISOString now = q.canary.issued := Except.ok.inj (field rfl hissued)
    have hparsed : dateParse P (.str (P.toISOString now)) = .ok (some issued) := field rfl hparsed
    refine ⟨a, text, random, now, List.mem_append_left _ hminted, ?_, ?_, q, issued, rfl, ?_, ?_, ?_⟩
    · generalize q.canary = c at hadmin hkeyword htext hnonce hissued
      obtain ⟨admin', keyword', text', nonce', issued'⟩ := c
      obtain rfl : toB64 P (admins a).edPublic = admin' := hadmin
      obtain rfl : keyword' = ctx.canaryKeyword := hkeyword
      obtain rfl : text = text' := htext
      obtain rfl : toB64 P random = nonce' := hnonce
      obtain rfl : P.toISOString now = issued' := hissued
      rfl
    · rw [htext]
      exact hfirst
    · exact List.mem_append_right _ (List.mem_singleton_self _)
    · rw [← hissued]
      exact Except.ok.inj hparsed
    · exact Int.le_floor.mpr (not_lt.mp hfresh)

/-! ## What the gate has under way -/

/-- The section waits for the lock or has it. -/
def Pending (c : Chain Section) (s : Section) : Prop := s ∈ c.waiting ∨ s ∈ c.running

theorem pending_enqueue {c : Chain Section} {s job : Section} (h : Pending (c.enqueue job) s) : Pending c s ∨ s = job := by
  rw [Pending, Chain.waiting_enqueue, Chain.running_enqueue, List.mem_append, List.mem_singleton] at h
  rcases h with (h | h) | h
  · exact .inl (.inl h)
  · exact .inr h
  · exact .inl (.inr h)

theorem pending_starts {c c' : Chain Section} {s job : Section} (h : Chain.Starts job c c') (hs : Pending c' s) :
    Pending c s := by
  cases h with
  | first post =>
      simp only [Pending, Chain.waiting, Chain.running, List.mem_cons] at hs ⊢
      tauto
  | next pre post =>
      simp only [Pending, Chain.waiting_append, Chain.running_append, Chain.waiting, Chain.running, List.mem_append,
        List.mem_cons] at hs ⊢
      tauto

theorem pending_settles {c c' : Chain Section} {s job : Section} (h : Chain.Settles job c c') (hs : Pending c' s) :
    Pending c s := by
  cases h with
  | mk pre post =>
      simp only [Pending, Chain.waiting_append, Chain.running_append, Chain.waiting, Chain.running, List.mem_append,
        List.mem_cons] at hs ⊢
      tauto

theorem mem_running_settles {c c' : Chain Section} {job : Section} (h : Chain.Settles job c c') : job ∈ c.running := by
  cases h with
  | mk pre post => simp [Chain.running]

/-- A new section that opens is one that the LLM has just approved. -/
theorem pending_step {cfg : GateConfig} {w w' : GateRun} {l : GateEvent} (h : Gate.Step P cfg w l w') {c : Canary}
    {now : Instant} {reason : JsString} (hs : Pending w'.gate.lock (.opening c now reason)) :
    Pending w.gate.lock (.opening c now reason) ∨ (c, now) ∈ w.deciding ∧
      ∃ decision : LlamaDecision, l = .answered c now decision ∧ decision.approve = true ∧ decision.reason = reason := by
  cases h with
  | asked h =>
      obtain ⟨_, rfl⟩ := Gate.openStart_frame h
      exact .inl hs
  | refused h =>
      obtain ⟨_, rfl⟩ := Gate.openStart_frame h
      exact .inl hs
  | answered g l r c' now' decision =>
      unfold Gate.answered at hs
      split at hs
      · next happrove =>
          rcases pending_enqueue hs with hs | heq
          · exact .inl hs
          · obtain ⟨rfl, rfl, rfl⟩ := Section.opening.inj heq
            exact .inr ⟨List.mem_append_right _ (List.mem_cons_self ..), decision, rfl, happrove, rfl⟩
      · exact .inl hs
  | close g ds reason' now' =>
      rcases pending_enqueue hs with hs | heq
      · exact .inl hs
      · cases heq
  | fire ds ht now' =>
      rcases pending_enqueue hs with hs | heq
      · exact .inl hs
      · cases heq
  | enter ds h => exact .inl (pending_starts h hs)
  | exit ds h exec clock => exact .inl (pending_settles h hs)

theorem deciding_step {cfg : GateConfig} {w w' : GateRun} {l : GateEvent} (h : Gate.Step P cfg w l w') {c : Canary}
    {now : Instant} (hc : (c, now) ∈ w'.deciding) : (c, now) ∈ w.deciding ∨ l = .asked c now := by
  cases h with
  | @asked g g' ds c' now' h =>
      rcases List.mem_append.mp hc with hc | hc
      · exact .inl hc
      · obtain ⟨rfl, rfl⟩ := Prod.mk.inj (List.mem_singleton.mp hc)
        exact .inr rfl
  | refused h => exact .inl hc
  | answered g l r c' now' decision =>
      rcases List.mem_append.mp hc with hc | hc
      · exact .inl (List.mem_append_left _ hc)
      · exact .inl (List.mem_append_right _ (List.mem_cons_of_mem _ hc))
  | close g ds reason now' => exact .inl hc
  | fire ds ht now' => exact .inl hc
  | enter ds h => exact .inl hc
  | exit ds h exec clock => exact .inl hc

theorem mem_split {α : Type} {l r : List α} {x y : α} (h : y ∈ l ++ r) : y ∈ l ++ x :: r := by
  rcases List.mem_append.mp h with h | h
  · exact List.mem_append_left _ h
  · exact List.mem_append_right _ (List.mem_cons_of_mem _ h)

theorem inv_booted (file : Option Bytes) (clock : Int) : Inv P admins ctx [] (booted P file clock) := by
  obtain ⟨consumed, hboot⟩ := Gate.boot_frame P file
  refine ⟨List.forall_mem_nil _, fun _ _ h => absurd h List.not_mem_nil, fun c now reason h => ?_⟩
  rw [booted, hboot] at h
  exact absurd h (by simp [Chain.waiting, Chain.running])

/-- **One step**, of an admin or of the gate node. -/
theorem Step.inv (hundefined : P.dateParse (js "undefined") = none) {e : Event ι} (h : Step P admins ctx d e d')
    (hi : Inv P admins ctx tr d) (hunforged : Unforged P admins ctx tr e) : Inv P admins ctx (tr ++ [e]) d' := by
  have hlater := hi.later e
  cases h with
  | minted made => exact hlater
  | @gate _ e h =>
      cases h with
      | @verified blob now c hq hclock =>
          refine ⟨fun q hmem => ?_, hlater.deciding, hlater.queued⟩
          rcases List.mem_append.mp hmem with hmem | hmem
          · exact hlater.verified q hmem
          · obtain rfl := List.mem_singleton.mp hmem
            exact commanded_of_verified hundefined hq hunforged
      | @asked w l r q now hq h hclock =>
          have hmem : q ∈ d.verified := hq ▸ List.mem_append_right _ (List.mem_cons_self ..)
          refine ⟨fun q' hq' => hlater.verified q' (hq ▸ mem_split hq'), fun c now' hc => ?_, fun c now' reason hs => ?_⟩
          · rcases deciding_step h hc with hc | heq
            · exact hlater.deciding c now' hc
            · obtain ⟨rfl, rfl⟩ := GateEvent.asked.inj heq
              exact hlater.verified q hmem
          · rcases pending_step h hs with hs | ⟨_, _, heq, _⟩
            · exact hlater.queued c now' reason hs
            · cases heq
      | @refused w l r q now hq h hclock =>
          refine ⟨fun q' hq' => hlater.verified q' (hq ▸ mem_split hq'), fun c now' hc => ?_, fun c now' reason hs => ?_⟩
          · rcases deciding_step h hc with hc | heq
            · exact hlater.deciding c now' hc
            · cases heq
          · rcases pending_step h hs with hs | ⟨_, _, heq, _⟩
            · exact hlater.queued c now' reason hs
            · cases heq
      | @gate w l h hl =>
          refine ⟨hlater.verified, fun c now hc => ?_, fun c now reason hs => ?_⟩
          · rcases deciding_step h hc with hc | heq
            · exact hlater.deciding c now hc
            · exact absurd heq (hl.1 c now)
          · rcases pending_step h hs with hs | ⟨hc, decision, rfl, happrove, hreason⟩
            · exact hlater.queued c now reason hs
            · exact ⟨hlater.deciding c now hc, decision, List.mem_append_right _ (List.mem_singleton_self _), happrove,
                hreason⟩
      | persisted => exact ⟨hlater.verified, hlater.deciding, hlater.queued⟩
      | saved => exact ⟨hlater.verified, hlater.deciding, hlater.queued⟩
      | restart =>
          have hnew : Inv P admins ctx [] (booted P d.file d.clock) := inv_booted d.file d.clock
          refine ⟨List.forall_mem_nil _, fun _ _ h => absurd h List.not_mem_nil, fun c now reason h => ?_⟩
          -- nothing has been minted in the empty trace, so nothing is queued
          obtain ⟨hcommanded, _⟩ := hnew.queued c now reason h
          obtain ⟨_, _, _, _, hminted, _⟩ := hcommanded
          exact absurd hminted List.not_mem_nil

/-- **The gate opens for an admin only.** Whenever the helper has opened the gate, an admin had minted the canary with the
    keyword, at its head the keyword, the canary had arrived within the freshness window of its time of issue, and the LLM
    had approved it; whatever else was posted, replayed or forged, and whenever the gate node was restarted. -/
theorem opened_by_admin (P : Platform) (admins : ι → Identity) (ctx : Ctx) (hundefined : P.dateParse (js "undefined") = none)
    {file : Option Bytes} {clock : Int} {pre post : List (Event ι)} {c : Canary} {now at_ : Instant} {reason : JsString}
    {d : Daemon} (run : Run (Step P admins ctx) (booted P file clock)
      (pre ++ .gate (.gate (.exit (.opening c now reason) (.ok ()) at_)) :: post) d)
    (hunforged : Always (Unforged P admins ctx) pre) : Commanded P admins ctx pre c ∧ Approved pre c now reason := by
  obtain ⟨d₁, d₂, run₁, hstep⟩ := run.split
  have hi : Inv P admins ctx pre d₁ := by
    clear hstep run
    induction run₁ with
    | nil => exact inv_booted file clock
    | snoc run h ih => exact h.inv hundefined (ih hunforged.init) hunforged.last
  cases hstep with
  | gate h =>
      cases h with
      | gate h hl =>
          generalize hrun : d₁.run = w at h
          cases h with
          | exit ds hsettles exec clock =>
              apply hi.queued c now reason
              rw [hrun]
              exact .inr (mem_running_settles hsettles)

end Command

namespace Symbolic

open Daemon Command

/-- The admin's one-click open, at one second past the epoch. -/
theorem green_command : gateCommand platform (identity 9) (js "GREEN18") (toHex [101]) (.str (js " open egress")) [7] []
    ⟨1000, by decide⟩ = .ok greenBlob := by decide +kernel

/-- Two minutes later the gate node still takes it. -/
theorem green_accepted : verifyCanary platform (identity 1) greenBlob (gateNode twoMinutes).adminVerify (js "GREEN18")
    twoMinutes ⟨121000, by decide⟩ = .ok greenCanary := by
  have hdated : Dated platform ⟨1000, by decide⟩ := firstDay_dated ⟨by decide, by decide⟩
  apply (command_accepted_iff codec fromHex_toHex (keyPairs 9) (keyPairs 1) hdated (fromB64_toHex [101]) green_command rfl).mpr
  have hword : OneWord (js "GREEN18") := by
    refine ⟨by decide, ?_⟩
    have hall : (js "GREEN18").all (fun u => !isSpace u) = true := by decide
    simpa using hall
  exact ⟨rfl, hword, by decide +kernel, js " open egress", rfl, rfl⟩

theorem green_minted : makeCanary platform (identity 9) (js "GREEN18") (js "GREEN18 open egress") (toHex [101]) [7] []
    ⟨1000, by decide⟩ = .ok greenBlob := by decide +kernel

theorem internal_answered (c : Canary) (now : Instant) (d : LlamaDecision) : Internal (.answered c now d) := by
  constructor <;> intro _ _ h <;> cases h

theorem internal_enter (s : Section) : Internal (.enter s) := by
  constructor <;> intro _ _ h <;> cases h

theorem internal_exit (s : Section) (exec : Except Exn Unit) (clock : Instant) : Internal (.exit s exec clock) := by
  constructor <;> intro _ _ h <;> cases h

/-- The canary that arrives was minted, and nothing else has been signed. -/
theorem green_unforged (pre : List (Command.Event Unit))
    (hminted : .minted () (js "GREEN18") (js "GREEN18 open egress") [7] ⟨1000, by decide⟩ ∈ pre) :
    Command.Unforged platform (fun _ => identity 9) (gateNode twoMinutes) pre (.gate (.verified greenRequest)) := by
  rintro q heq payload node key hpayload hnode hkey
  cases heq
  have hopen : canaryPayload platform (identity 1) greenBlob (gateNode twoMinutes).adminVerify = .ok
      (sortKeys (canaryView platform (identity 9) (js "GREEN18") (js "GREEN18 open egress") [7] ⟨1000, by decide⟩)) :=
    minted_opens codec fromHex_toHex (keyPairs 9) (keyPairs 1) (fromB64_toHex [101]) green_minted rfl
  obtain rfl := Except.ok.inj (hopen.symm.trans hpayload)
  have hown := prop_sortKeys (canaryView_wf (P := platform) (identity 9) (js "GREEN18") (js "GREEN18 open egress") [7]
    ⟨1000, by decide⟩) (show prop _ (js "node") = .ok (.str (toHex [9])) from rfl)
  obtain rfl := Value.str.inj (Except.ok.inj (hown.symm.trans hnode))
  refine ⟨(), Option.some.inj hkey, .inr ⟨_, _, _, _, hminted, ?_⟩⟩
  exact (canonicalBytes_sortKeys _).symm

/-- The admin mints, the gate node verifies and asks, the LLM approves, and the helper opens. -/
theorem green_opened : ∃ pre d,
    Run (Command.Step platform (fun _ : Unit => identity 9) (gateNode twoMinutes)) (booted platform none 1000)
        (pre ++ [.gate (.gate (.exit (.opening greenCanary ⟨1000, by decide⟩ (js "fine")) (.ok ()) ⟨1000, by decide⟩))]) d ∧
      Always (Command.Unforged platform (fun _ => identity 9) (gateNode twoMinutes)) pre ∧
      Command.Commanded platform (fun _ : Unit => identity 9) (gateNode twoMinutes) pre greenCanary ∧
      Command.Approved pre greenCanary ⟨1000, by decide⟩ (js "fine") := by
  have booted : Run (Command.Step platform (fun _ : Unit => identity 9) (gateNode twoMinutes)) (booted platform none 1000) []
      _ := .nil
  have minted := booted.snoc (.minted _ (a := ()) green_minted)
  have verified := minted.snoc (.gate (.verified _ greenRequest_genuine le_rfl))
  have asked := verified.snoc (.gate (@Daemon.Step.asked platform (gateNode twoMinutes) _ _ [] [] greenRequest
    ⟨1000, by decide⟩ rfl (.asked (Gate.openStart_of_pruned (OrdMap.get_filter_none rfl))) le_rfl))
  have answered := asked.snoc (.gate (.gate _ (.answered _ [] [] greenCanary ⟨1000, by decide⟩ ⟨true, js "fine"⟩)
    (internal_answered ..)))
  have entered := answered.snoc (.gate (.gate _ (.enter [] (.first [])) (internal_enter _)))
  have opened := entered.snoc (.gate (.gate _ (.exit [] (.mk [] []) (.ok ()) ⟨1000, by decide⟩) (internal_exit ..)))
  have hundefined : platform.dateParse (js "undefined") = none := by decide +kernel
  have quiet {pre : List (Command.Event Unit)} {e : Command.Event Unit} (h : ∀ q, e ≠ .gate (.verified q)) :
      Command.Unforged platform (fun _ => identity 9) (gateNode twoMinutes) pre e := fun q heq => absurd heq (h q)
  have hverified := (always_nil.snoc (quiet fun q h => by cases h)).snoc (green_unforged _ (List.mem_singleton_self _))
  have hasked := hverified.snoc (quiet (e := .gate (.asked greenRequest ⟨1000, by decide⟩)) fun q h => by cases h)
  have hanswered := hasked.snoc (quiet (e := .gate (.gate (.answered greenCanary ⟨1000, by decide⟩ ⟨true, js "fine"⟩)))
    fun q h => by cases h)
  have hentered := hanswered.snoc (quiet
    (e := .gate (.gate (.enter (.opening greenCanary ⟨1000, by decide⟩ (js "fine"))))) fun q h => by cases h)
  exact ⟨_, _, opened, hentered, opened_by_admin platform _ _ hundefined opened hentered⟩

end Symbolic

end Island
end VpnPi
