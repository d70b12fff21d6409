import VpnPi.Async.Evidence
import VpnPi.Island.Network
import VpnPi.Island.Thread

/-!
# `Island.Inbox` — what stands in a thread was sent (`core/messages.ts`, `main.ts`)

Many daemons, each with its books, its state files and any number of requests under way, and bodies that may come from
anyone. A signature that verifies under a daemon's key is one that the daemon has made (`Unforged`); everything else is
open: replays, restarts from files that were overtaken, writes that land in any order.

* `inbox_authentic` — every incoming entry in a daemon's log of another daemon is a message that the other one has sealed
  for it before, with the same text and the same time.
-/

namespace VpnPi
namespace Island
namespace Inbox

open Js Value Async Task

variable (P : Platform) {ι : Type} [DecidableEq ι] (nodes : ι → Self) (ctx : ι → Ctx)

/-- What happens at one of the daemons, with its memory before. -/
abbrev Event (ι : Type) : Type := ι × (Memory × Saving.Label (Handler P) DataFile Bytes)

/-- One daemon takes a step: a request starts, gets on or is answered, a write is called or lands, or it restarts. -/
def IslandStep : (ι → DaemonState P) → Event P ι → (ι → DaemonState P) → Prop :=
  Each fun n => Seen Saving.State.mem (Saving.Step (stateFiles P) (handlers P (nodes n) (ctx n)))

/-- No file is there yet. -/
def deployed : ι → DaemonState P := fun _ => (stateFiles P).init

/-- Daemon `m` signs a message to the key with this text: `POST /api/messages` has found the friend, and seals. -/
inductive Seals : Event P ι → ι → Value → JsString → JsString → Instant → Prop
  | mk {m : ι} {mem : Memory} {peer text uuid : JsString} {ephemeral : Bytes} {now at_ : Instant} {friend recipient to_ : Value}
      (hfriend : mem.book.friends.get peer = some friend) (hpeer : prop friend (js "peer") = .ok recipient)
      (hto : prop recipient (js "ed25519") = .ok to_) :
      Seals (m, mem, .suspend (.send peer text uuid ephemeral now at_)) m to_ text uuid now

/-- Daemon `m` has signed the bytes of this value: as a message before, or ever as something else. -/
def HasSigned (pre : List (Event P ι)) (m : ι) (v : Value) : Prop :=
  (∃ k w, k ≠ .message ∧ Signs P (nodes m).id.edPublic k w ∧ canonicalBytes w = canonicalBytes v) ∨
    ∃ e ∈ pre, ∃ to_ text uuid now, Seals P e m to_ text uuid now ∧
      canonicalBytes (messageView P (nodes m).id to_ text uuid now) = canonicalBytes v

/-- **Signatures are unforgeable.** Of a daemon's signatures, a body that is posted to an inbox has one that was made. -/
def Unforged (pre : List (Event P ι)) (e : Event P ι) : Prop :=
  ∀ n mem body now mark, e = (n, mem, .start (.inbound body now mark)) →
    ∀ blob verify payload node m, (prop body (js "blob") >>= stringOf) = .ok blob →
      messagePayload P (nodes n).id blob verify = .ok payload → prop payload (js "node") = .ok (.str node) →
      verify node = some (nodes m).id.edPublic → HasSigned P nodes pre m payload

/-- The message that an incoming entry of daemon `n` shows has been sealed for it by the daemon with the key. -/
def Sent (tr : List (Event P ι)) (n : ι) (K text ts : JsString) : Prop :=
  ∀ m, fromB64 P (.str K) = .ok (nodes m).id.edPublic → K = selfEd P (nodes m) ∧
    ∃ e ∈ tr, ∃ uuid now, Seals P e m (.str (selfEd P (nodes n))) text uuid now ∧ ts = P.toISOString now

/-- What daemon `n` may hold in its log of `K`. -/
inductive Entry (tr : List (Event P ι)) (n : ι) (K : JsString) : Value → Prop
  | sent (text ts : JsString) : Entry tr n K (storedMessage (js "out") (selfEd P (nodes n)) K text ts)
  | received {text ts : JsString} (h : Sent P nodes tr n K text ts) :
      Entry tr n K (storedMessage (js "in") K (selfEd P (nodes n)) text ts)

/-- Every log is a list of such entries. -/
def Logs (tr : List (Event P ι)) (n : ι) (b : MessageBook) : Prop :=
  ∀ K v, b.logs.get K = some v → ∃ log, v = .arr log ∧ ∀ x ∈ log, Entry P nodes tr n K x

structure Good (n : ι) (tr : List (Event P ι)) (m : Memory) : Prop where
  wf   : MemoryWF P m
  logs : Logs P nodes tr n m.msgs

variable {P nodes ctx} {tr : List (Event P ι)} {n : ι}

/-! ## A longer trace -/

omit [DecidableEq ι] in
theorem HasSigned.longer {m : ι} {v : Value} (h : HasSigned P nodes tr m v) (more : List (Event P ι)) :
    HasSigned P nodes (tr ++ more) m v := by
  rcases h with h | ⟨e, he, h⟩
  · exact .inl h
  · exact .inr ⟨e, List.mem_append_left _ he, h⟩

omit [DecidableEq ι] in
theorem Sent.longer {K text ts : JsString} (h : Sent P nodes tr n K text ts) (more : List (Event P ι)) :
    Sent P nodes (tr ++ more) n K text ts := by
  intro m hm
  obtain ⟨hK, e, he, hsealed⟩ := h m hm
  exact ⟨hK, e, List.mem_append_left _ he, hsealed⟩

omit [DecidableEq ι] in
theorem Entry.longer {K : JsString} {v : Value} (h : Entry P nodes tr n K v) (more : List (Event P ι)) :
    Entry P nodes (tr ++ more) n K v := by
  cases h with
  | sent text ts => exact .sent text ts
  | received h => exact .received (h.longer more)

omit [DecidableEq ι] in
theorem Good.longer {m : Memory} (h : Good P nodes n tr m) (e : Event P ι) : Good P nodes n (tr ++ [e]) m := by
  refine ⟨h.wf, fun K v hget => ?_⟩
  obtain ⟨log, hlog, hentries⟩ := h.logs K v hget
  exact ⟨log, hlog, fun x hx => (hentries x hx).longer [e]⟩

/-! ## What the handlers do to the logs -/

omit [DecidableEq ι] in
theorem Logs.append {b b' : MessageBook} {K : JsString} {v : Value} (h : Logs P nodes tr n b)
    (hv : Entry P nodes tr n K v) (happend : b.append K v = .ok b') : Logs P nodes tr n b' := by
  unfold MessageBook.append at happend
  split at happend
  · next log hlog =>
      obtain rfl := Except.ok.inj happend
      have hold : ∀ x ∈ log, Entry P nodes tr n K x := by
        cases hget : b.logs.get K with
        | none =>
            rw [hget] at hlog
            obtain rfl : [] = log := Value.arr.inj hlog
            exact List.forall_mem_nil _
        | some w =>
            obtain ⟨log', rfl, hentries⟩ := h K w hget
            rw [hget] at hlog
            obtain rfl : log' = log := Value.arr.inj hlog
            exact hentries
      intro K' w hget
      rw [OrdMap.get_set] at hget
      split at hget
      · next hK =>
          obtain rfl := Option.some.inj hget
          refine ⟨_, rfl, fun x hx => ?_⟩
          rw [hK]
          rcases List.mem_append.mp ((MessageBook.newest_suffix _ _).subset hx) with hx | hx
          · exact hold x hx
          · rw [List.mem_singleton.mp hx]
            exact hv
      · exact h K' w hget
  · cases happend

omit [DecidableEq ι] in
theorem Good.appended {m₀ m : Memory} {b : MessageBook} {K dir from_ to_ text ts : JsString} (h₀ : Good P nodes n tr m₀)
    (h : Good P nodes n tr m) (hv : Entry P nodes tr n K (storedMessage dir from_ to_ text ts))
    (happend : m₀.msgs.append K (storedMessage dir from_ to_ text ts) = .ok b) :
    Good P nodes n tr { m with msgs := b } := by
  obtain ⟨hseen, hlogs⟩ := append_ok happend
  refine ⟨{ h.wf with msgs := ⟨hlogs h₀.wf.msgs.logs (storedMessage_wf ..), ?_⟩ }, h₀.logs.append hv happend⟩
  rw [hseen]
  exact h₀.wf.msgs.seen

omit [DecidableEq ι] in
theorem send_good {peer text uuid : JsString} {ephemeral : Bytes} {now at_ : Instant} :
    (send P (nodes n) peer text uuid ephemeral now at_).Keeps (Good P nodes n tr) :=
  keeps_get_bind fun _ _ => keeps_ofExcept_bind fun _ _ => keeps_ofExcept_bind fun _ _ =>
    keeps_awaiting_bind fun _ _ => keeps_get_bind fun _ hm => keeps_ofExcept_bind fun _ happend =>
    keeps_modify_bind (fun _ hm' => hm.appended hm' (.sent text (P.toISOString at_)) happend) trivial

/-! ## What an inbox takes -/

/-- A key that the resolver finds is the one that the text decodes to. -/
theorem resolved_key {book : FriendBook} {verify : VerifyKeyFor} (h : verifyKeyResolver P book = .ok verify) {K : JsString}
    {pk : Bytes} (hK : verify K = some pk) : fromB64 P (.str K) = .ok pk := by
  obtain ⟨keys, hkeys, h⟩ := bind_ok.mp h
  obtain rfl := Except.ok.inj h
  exact resolver_decoded hkeys (fun K pk hget => by cases hget) K pk hK

/-- A message that opens is addressed to the node, from the node it names. -/
theorem messageOf_payload {self : Identity} {blob : JsString} {verify : VerifyKeyFor} {payload : Value} {msg : Message}
    (h : messagePayload P self blob verify = .ok payload) (hmsg : messageOf payload = .ok msg) :
    payload.WF P.toEngine ∧ (∃ pk, prop payload (js "node") = .ok (.str msg.from_) ∧ verify msg.from_ = some pk) ∧
      prop payload (js "to") = .ok (.str (toB64 P self.edPublic)) ∧ msg.to_ = toB64 P self.edPublic ∧
      (prop payload (js "body") >>= stringOf) = .ok msg.body ∧ (prop payload (js "ts") >>= stringOf) = .ok msg.ts := by
  obtain ⟨box, _, h⟩ := bind_ok.mp h
  obtain ⟨payload', hopen, h⟩ := bind_ok.mp h
  obtain ⟨_, _, h⟩ := bind_ok.mp h
  obtain ⟨_, _, h⟩ := bind_ok.mp h
  obtain ⟨to_, hto, h⟩ := bind_ok.mp h
  obtain ⟨_, hown, h⟩ := bind_ok.mp h
  obtain rfl := Except.ok.inj h
  obtain rfl := not_not.mp (failIf_ok.mp hown)
  obtain ⟨hwf, node, key, _, _, hnode, hkey, _⟩ := openVerify_ok hopen
  obtain ⟨_, _, hmsg⟩ := bind_ok.mp hmsg
  obtain ⟨from_, hfrom, hmsg⟩ := bind_ok.mp hmsg
  obtain ⟨to', hto', hmsg⟩ := bind_ok.mp hmsg
  obtain ⟨body, hbody, hmsg⟩ := bind_ok.mp hmsg
  obtain ⟨ts, hts, hmsg⟩ := bind_ok.mp hmsg
  obtain rfl := Except.ok.inj hmsg
  rw [hnode] at hfrom
  rw [hto] at hto'
  obtain rfl : node = from_ := Except.ok.inj hfrom
  obtain rfl : toB64 P self.edPublic = to' := Except.ok.inj hto'
  exact ⟨hwf, ⟨key, hnode, hkey⟩, hto, rfl, hbody, hts⟩

/-- The texts of two values that are equal as JSON. -/
theorem same_text {a b u : Value} {k s t : JsString} (h : JsonEq a b) (ha : a.WF P.toEngine) (hb : b.WF P.toEngine)
    (hs : prop a k = .ok (.str s)) (hu : prop b k = .ok u) (ht : stringOf u = .ok t) : t = s := by
  obtain rfl := (h.field ha hb hs hu).eq_str
  exact (Except.ok.inj ht).symm

omit [DecidableEq ι] in
/-- What a daemon seals is addressed by a JSON value, if its memory is well-formed. -/
theorem Seals.wf {e : Event P ι} {m : ι} {to_ : Value} {text uuid : JsString} {now : Instant}
    (h : Seals P e m to_ text uuid now) (hmem : MemoryWF P e.2.1) : to_.WF P.toEngine := by
  cases h with
  | mk hfriend hpeer hto => exact prop_wf (prop_wf (hmem.book.friends _ _ hfriend).1 hpeer) hto

omit [DecidableEq ι] in
/-- **A payload that a daemon has signed** and that an inbox takes, the daemon has sealed for it. -/
theorem HasSigned.sent {m : ι} {payload : Value} {self : Identity} {blob : JsString} {verify : VerifyKeyFor} {msg : Message}
    (h : HasSigned P nodes tr m payload) (hpast : ∀ e ∈ tr, MemoryWF P e.2.1)
    (hpayload : messagePayload P self blob verify = .ok payload) (hmsg : messageOf payload = .ok msg) :
    msg.from_ = selfEd P (nodes m) ∧ ∃ e ∈ tr, ∃ uuid now,
      Seals P e m (.str (toB64 P self.edPublic)) msg.body uuid now ∧ msg.ts = P.toISOString now := by
  obtain ⟨hwf, ⟨_, hnode, _⟩, hto, _, hbody, hts⟩ := messageOf_payload hpayload hmsg
  have hplain : ∃ bytes, canonicalBytes payload = .ok bytes := by
    obtain ⟨⟨box, hopen⟩, _⟩ := messagePayload_ok hpayload
    obtain ⟨_, _, _, _, bytes, _, _, hbytes, _⟩ := openVerify_ok hopen
    exact ⟨bytes, hbytes⟩
  obtain ⟨bytes, hbytes⟩ := hplain
  rcases h with ⟨k, w, hk, hsigns, heq⟩ | ⟨e, he, to_, text, uuid, now, hseals, heq⟩
  · -- of the seven kinds only a message is tagged
    have hjson : JsonEq w payload := canonicalBytes_inj hsigns.wf hwf (heq.trans hbytes) hbytes
    have htyp := hsigns.shaped.mem_fields hsigns.wf hwf hjson (messagePayload_ok hpayload).2 (str_ne_undefined _)
    exfalso
    revert htyp hk
    cases k <;> decide
  · have hvwf := messageView_wf (nodes m).id (hseals.wf (hpast e he)) text uuid now
    have hjson : JsonEq (messageView P (nodes m).id to_ text uuid now) payload :=
      canonicalBytes_inj hvwf hwf (heq.trans hbytes) hbytes
    obtain ⟨b, hb, hbody⟩ := bind_ok.mp hbody
    obtain ⟨t, ht, hts⟩ := bind_ok.mp hts
    obtain rfl : msg.body = text := same_text (k := js "body") hjson hvwf hwf rfl hb hbody
    have hts' : msg.ts = P.toISOString now := same_text (k := js "ts") hjson hvwf hwf rfl ht hts
    have hfrom : msg.from_ = selfEd P (nodes m) := same_text (k := js "node") hjson hvwf hwf rfl hnode rfl
    have hto' := hjson.field (k := js "to") hvwf hwf rfl hto
    obtain rfl := JsonEq.eq_str (Eq.symm hto')
    exact ⟨hfrom, e, he, uuid, now, hseals, hts'⟩

omit [DecidableEq ι] in
/-- **The inbox** takes nothing but what was sent, if the body it is posted carries no forged signature. -/
theorem receiveMessage_good {pre more : List (Event P ι)} {mem : Memory} {body : Value} {now mark : Instant}
    (hbody : Unforged P nodes pre (n, mem, .start (.inbound body now mark))) (hpast : ∀ e ∈ pre, MemoryWF P e.2.1) :
    (receiveMessage P (nodes n) body now mark).Keeps (Good P nodes n (pre ++ more)) := by
  refine keeps_get_bind fun m₀ _ => keeps_awaiting_bind fun verify hverify => keeps_ofExcept_bind fun blob hblob =>
    keeps_awaiting_bind fun payload hpayload => keeps_ofExcept_bind fun ts _ => keeps_ofExcept_bind fun id _ =>
    keeps_get_bind fun m₁ _ => keeps_throwIf_bind fun _ => keeps_modify_bind (fun m' hm' => ?_) ?_
  · refine ⟨{ hm'.wf with msgs := markSeen_wf hm'.wf.msgs id ts mark }, ?_⟩
    have hlogs : (m'.msgs.markSeen id ts mark).2.logs = m'.msgs.logs := by
      unfold MessageBook.markSeen
      split <;> rfl
    intro K v hget
    rw [hlogs] at hget
    exact hm'.logs K v hget
  · refine keeps_ofExcept_bind fun msg hmsg => keeps_yield_bind <| keeps_get_bind fun m₂ hm₂ =>
      keeps_ofExcept_bind fun b happend => keeps_modify_bind (fun m' hm' => hm₂.appended hm' ?_ happend) trivial
    obtain ⟨_, ⟨pk, hnode, hkey⟩, _, hto, _⟩ := messageOf_payload hpayload hmsg
    rw [hto]
    refine .received fun m hm => ?_
    obtain rfl : pk = (nodes m).id.edPublic := Except.ok.inj ((resolved_key hverify hkey).symm.trans hm)
    have hsigned := hbody n mem body now mark rfl blob verify payload msg.from_ m hblob hpayload hnode hkey
    obtain ⟨hfrom, e, he, hsealed⟩ := hsigned.sent hpast hpayload hmsg
    exact ⟨hfrom, e, List.mem_append_left _ he, hsealed⟩

omit [DecidableEq ι] in
/-- Every other request leaves the logs to what it may say of itself. -/
theorem Handler.good (h : Handler P) (hother : ∀ body now mark, h ≠ .inbound body now mark) :
    (h.task P (nodes n) (ctx n)).Keeps (Good P nodes n tr) := by
  cases h with
  | friends c =>
      refine (Call.keeps c.2).zoom (fun m hm => ⟨hm.wf.book, hm.wf.consumed⟩) fun m b hm hb => ?_
      exact ⟨{ hm.wf with book := hb.1, consumed := hb.2 }, hm.logs⟩
  | send peer text uuid ephemeral now at_ => exact send_good
  | inbound body now mark => exact absurd rfl (hother body now mark)
  | canary blob at_ now outcome =>
      refine keeps_awaiting_bind fun canary _ => keeps_get_bind fun m _ =>
        keeps_modify_bind (fun m' hm' => ⟨openStart_spent hm'.wf canary now, hm'.logs⟩) ?_
      refine keeps_ofExcept_bind fun _ _ => ?_
      cases outcome <;> trivial

/-! ## Files -/

omit [DecidableEq ι] in
theorem Entry.plain {K : JsString} {v : Value} (h : Entry P nodes tr n K v) : jsonView v = v := by
  cases h with
  | sent text ts => rfl
  | received h => rfl

omit [DecidableEq ι] in
/-- A log that was saved loads as it is. -/
theorem Logs.reloaded {b : MessageBook} (h : Logs P nodes tr n b) : Logs P nodes tr n b.reloaded := by
  intro K v hget
  have hget' : ((ownOrder b.logs).mapVal jsonView).get K = some v := hget
  obtain ⟨u, hu, rfl⟩ := OrdMap.get_mapVal_eq_some.mp hget'
  rw [get_ownOrder] at hu
  obtain ⟨log, rfl, hentries⟩ := h K u hu
  refine ⟨log, ?_, hentries⟩
  show Value.arr (jsonViewList log) = _
  rw [jsonViewList_self fun x hx => (hentries x hx).plain]

omit [DecidableEq ι] in
theorem boot_good {content : DataFile → Option Bytes} {m : Memory}
    (hcontent : Saving.Genuine (stateFiles P) (Good P nodes n tr) content) (h : (stateFiles P).boot content = some m) :
    Good P nodes n tr m := by
  have hwf : ∀ f, content f = none ∨ ∃ m, MemoryWF P m ∧ content f = some (m.render f) := by
    intro f
    cases hf : content f with
    | none => exact .inl rfl
    | some text =>
        obtain ⟨m, hm, rfl⟩ := hcontent f text hf
        exact .inr ⟨m, hm.wf, rfl⟩
  obtain ⟨m', hboot, hmwf, _⟩ := boot_saved hwf
  have hsame : (Memory.boot P content).toOption = some m := h
  rw [hboot] at hsame
  obtain rfl := Option.some.inj hsame
  refine ⟨hmwf, ?_⟩
  obtain ⟨book, _, hboot⟩ := bind_ok.mp hboot
  obtain ⟨msgs, hmsgs, hboot⟩ := bind_ok.mp hboot
  obtain rfl := Except.ok.inj hboot
  cases hf : content .messages with
  | none =>
      rw [hf] at hmsgs
      obtain rfl := Except.ok.inj hmsgs
      intro K v hget
      cases hget
  | some text =>
      obtain ⟨m', hm', htext⟩ := hcontent .messages text hf
      have hload := loadMessages_saved hm'.wf.msgs
      have hload' : loadMessages P (content .messages) = .ok m'.msgs.reloaded := by
        rw [hf, htext]
        exact hload
      obtain rfl := Except.ok.inj (hmsgs.symm.trans hload')
      exact hm'.logs.reloaded

/-! ## Runs -/

theorem wf_of_run {s : ι → DaemonState P} (run : Run (IslandStep P nodes ctx) (deployed P) tr s) :
    ∀ e ∈ tr, MemoryWF P e.2.1 := by
  intro e he
  obtain ⟨pre, post, rfl⟩ := List.append_of_mem he
  obtain ⟨n, mem, l⟩ := e
  obtain ⟨s₁, s₂, run₁, hstep⟩ := run.split_member
  have hsound : ∀ n, Saving.Sound (stateFiles P) (MemoryWF P) (s₁ n) := by
    refine run₁.members (I := fun _ n s => Saving.Sound (stateFiles P) (MemoryWF P) s) ?_ (fun _ _ _ _ h => h) ?_
    · exact fun n => .init (lawful P (nodes n) (ctx n))
    · intro tr n s l s' hs h
      cases h with
      | step h => exact h.sound (lawful P (nodes n) (ctx n)) hs
  cases hstep with
  | step h => exact (hsound n).mem

theorem backed_of_run {s : ι → DaemonState P} (run : Run (IslandStep P nodes ctx) (deployed P) tr s)
    (hunforged : Always (Unforged P nodes) tr) : ∀ n, Saving.Backed (stateFiles P) (Good P nodes n) tr (s n) := by
  have hinv := run.members_along (I := fun tr n s => Always (Unforged P nodes) tr →
    Saving.Backed (stateFiles P) (Good P nodes n) tr s) ?_ ?_ ?_
  · exact fun n => hinv n hunforged
  · intro n _
    refine ⟨⟨.fresh P, fun K v h => ?_⟩, fun f text h => ?_, fun e he => ?_⟩
    · cases h
    · cases h
    · cases he
  · intro tr e n s ih halways
    exact (ih halways.init).longer (fun _ e _ h => h.longer e) e
  · intro tr s n l s' hrun ih h halways
    obtain ⟨mem, l⟩ := l
    have hpast := wf_of_run hrun
    cases h with
    | step h =>
        refine (h.backed (fun _ e _ h => h.longer e) (fun _ _ => boot_good) (fun c hc more => ?_)
          (ih halways.init)).longer (fun _ e _ h => h.longer e) _
        by_cases hinbound : ∃ body now mark, c = .inbound body now mark
        · obtain ⟨body, now, mark, rfl⟩ := hinbound
          have hbody := halways.last
          rw [hc] at hbody
          exact receiveMessage_good hbody hpast
        · exact Handler.good c fun body now mark heq => hinbound ⟨body, now, mark, heq⟩

/-! ## One request, with nothing else going on -/

omit [DecidableEq ι] in
theorem Unforged.longer {mem mem' : Memory} {c : Handler P} (h : Unforged P nodes tr (n, mem, .start c))
    (more : List (Event P ι)) : Unforged P nodes (tr ++ more) (n, mem', .start c) := by
  intro n' mem₀ body now mark heq blob verify payload node m hblob hpayload hnode hkey
  cases heq
  exact (h n mem body now mark rfl blob verify payload node m hblob hpayload hnode hkey).longer more

omit [DecidableEq ι] in
/-- The labels of one request are unforged if its start is. -/
theorem unforged_labels {mem : Memory} {c : Handler P} {more : List (Event P ι)} (halways : Always (Unforged P nodes) tr)
    (h : Unforged P nodes tr (n, mem, .start c))
    (hmore : ∀ e ∈ more, e.1 = n ∧ (e.2.2 = .start c ∨ e.2.2 = .suspend c ∨ e.2.2 = .returned c)) :
    Always (Unforged P nodes) (tr ++ more) := by
  induction more using List.reverseRecOn with
  | nil => rwa [List.append_nil]
  | append_singleton more e ih =>
      rw [← List.append_assoc]
      refine (ih fun e he => hmore e (List.mem_append_left _ he)).snoc ?_
      obtain ⟨rfl, hlabel⟩ := hmore e (List.mem_append_right _ (List.mem_singleton_self e))
      obtain ⟨n, mem', l⟩ := e
      rcases hlabel with rfl | rfl | rfl
      · exact h.longer more
      · intro _ _ _ _ _ heq
        cases heq
      · intro _ _ _ _ _ heq
        cases heq

/-- A request that comes to its save, at a daemon that does nothing else meanwhile. -/
theorem handled {s : ι → DaemonState P} (run : Run (IslandStep P nodes ctx) (deployed P) tr s)
    (halways : Always (Unforged P nodes) tr) {c : Handler P} {a : Value} {m' : Memory}
    (hrun : (c.task P (nodes n) (ctx n)).run (s n).mem = (.ok a, m')) (hsaves : c.saves P a = true)
    (hstart : Unforged P nodes tr (n, (s n).mem, .start c)) :
    ∃ more s', Run (IslandStep P nodes ctx) (deployed P) (tr ++ more) s' ∧ Always (Unforged P nodes) (tr ++ more) ∧
      (s' n).mem = m' ∧ ∀ k, k ≠ n → s' k = s k := by
  obtain ⟨ls, hls, worked⟩ : ∃ ls, (∀ e ∈ ls, e = .start c ∨ e = .suspend c ∨ e = .returned c) ∧
      Run (Saving.Step (stateFiles P) (handlers P (nodes n) (ctx n))) (s n) ls
        ⟨m', (s n).files, (c, .saving (stateFiles P).order) :: (s n).running⟩ := Saving.work_labelled hrun hsaves
  obtain ⟨ls', seen, rfl⟩ := Run.seen Saving.State.mem worked
  refine ⟨_, _, run.member (n := n) seen, unforged_labels halways hstart fun e he => ?_, ?_, fun k hk => ?_⟩
  · obtain ⟨l, hl, rfl⟩ := List.mem_map.mp he
    exact ⟨rfl, hls l.2 (List.mem_map_of_mem hl)⟩
  · rw [Function.update_self]
  · rw [Function.update_of_ne hk]

/-- A message that is sent, with nothing else going on at the daemon. -/
theorem sent_alone {s : ι → DaemonState P} (run : Run (IslandStep P nodes ctx) (deployed P) tr s)
    (halways : Always (Unforged P nodes) tr) {K text uuid blob : JsString} {ephemeral : Bytes} {now at_ : Instant}
    {friend recipient to_ : Value} {m' : Memory} (hfriend : (s n).mem.book.friends.get K = some friend)
    (hpeer : prop friend (js "peer") = .ok recipient) (hto : prop recipient (js "ed25519") = .ok to_)
    (hrun : (send P (nodes n) K text uuid ephemeral now at_).run (s n).mem = (.ok (.str blob), m')) :
    ∃ more s', Run (IslandStep P nodes ctx) (deployed P) (tr ++ more) s' ∧ Always (Unforged P nodes) (tr ++ more) ∧
      (s' n).mem = m' ∧ (∀ k, k ≠ n → s' k = s k) ∧ ∃ e ∈ more, Seals P e n to_ text uuid now := by
  have hfriend' : orThrow (.friend (js "not a friend")) ((s n).mem.book.friends.get K) = .ok friend := orThrow_ok.mpr hfriend
  -- two segments: up to `sealMessage`, and from there to the answer
  have hfirst : ∃ rest, (send P (nodes n) K text uuid ephemeral now at_).segment (s n).mem = (.suspended rest, (s n).mem) ∧
      rest.segment (s n).mem = (.done (.ok (.str blob)), m') := by
    rw [send, run_get_bind, run_ofExcept_ok hfriend', run_ofExcept_ok hpeer] at hrun
    apply Exists.intro
    apply And.intro
    · rw [send, segment_get_bind, segment_ofExcept_ok hfriend', segment_ofExcept_ok hpeer, segment_awaiting_bind]
    · obtain ⟨blob', hseal, hrun⟩ := run_ofExcept_bind_ok hrun
      rw [run_get_bind] at hrun
      obtain ⟨msgs, happend, hrun⟩ := run_ofExcept_bind_ok hrun
      rw [segment_ofExcept_ok hseal, segment_get_bind, segment_ofExcept_ok happend, segment_modify_bind, segment_pure]
      rw [run_modify_bind, run_pure] at hrun
      cases hrun
      rfl
  obtain ⟨rest, hsuspend, hreturn⟩ := hfirst
  -- a name for the request, so that its fields are not unfolded below
  obtain ⟨c, hc⟩ : ∃ c : Handler P, c = .send K text uuid ephemeral now at_ := ⟨_, rfl⟩
  have htask : (handlers P (nodes n) (ctx n)).task c = send P (nodes n) K text uuid ephemeral now at_ := by
    rw [hc]
    rfl
  have hsaves : (handlers P (nodes n) (ctx n)).saves c (.str blob) = true := by
    rw [hc]
    rfl
  have hstart : Saving.Step (stateFiles P) (handlers P (nodes n) (ctx n)) (s n) (.start c)
      ⟨(s n).mem, (s n).files, (c, .working (send P (nodes n) K text uuid ephemeral now at_)) :: (s n).running⟩ := by
    rw [← htask]
    exact .start (s n).mem (s n).files (s n).running c
  have hsealing : Saving.Step (stateFiles P) (handlers P (nodes n) (ctx n))
      ⟨(s n).mem, (s n).files, (c, .working (send P (nodes n) K text uuid ephemeral now at_)) :: (s n).running⟩ (.suspend c)
      ⟨(s n).mem, (s n).files, (c, .working rest) :: (s n).running⟩ := .suspend (s n).files c [] (s n).running hsuspend
  have hanswer : Saving.Step (stateFiles P) (handlers P (nodes n) (ctx n))
      ⟨(s n).mem, (s n).files, (c, .working rest) :: (s n).running⟩ (.returned c)
      ⟨m', (s n).files, (c, .saving (stateFiles P).order) :: (s n).running⟩ :=
    .returned (s n).files [] (s n).running hreturn hsaves
  have work : Run (Seen Saving.State.mem (Saving.Step (stateFiles P) (handlers P (nodes n) (ctx n)))) (s n)
      [((s n).mem, .start c), ((s n).mem, .suspend c), ((s n).mem, .returned c)]
      ⟨m', (s n).files, (c, .saving (stateFiles P).order) :: (s n).running⟩ := by
    have started := Run.nil.snoc (@Seen.step _ _ _ Saving.State.mem _ _ _ _ hstart)
    have sealing := started.snoc (Seen.step hsealing)
    exact sealing.snoc (Seen.step hanswer)
  have hunforged : Unforged P nodes tr (n, (s n).mem, .start c) := by
    intro _ _ _ _ _ heq
    rw [hc] at heq
    cases heq
  refine ⟨_, _, run.member work, unforged_labels halways hunforged ?_, ?_, ?_, (n, (s n).mem, .suspend c), ?_, ?_⟩
  · simp
  · rw [Function.update_self]
  · intro k hk
    rw [Function.update_of_ne hk]
  · simp
  · rw [hc]
    exact .mk hfriend hpeer hto

/-- **A thread is authentic.** Every incoming entry of a daemon's log under another daemon's key is a message that the
    other one has sealed for it: with this text, at this time, for this daemon's key. -/
theorem inbox_authentic (P : Platform) (nodes : ι → Self) (ctx : ι → Ctx) {tr : List (Event P ι)} {s : ι → DaemonState P}
    (run : Run (IslandStep P nodes ctx) (deployed P) tr s) (hunforged : Always (Unforged P nodes) tr) {n m : ι} {K : JsString}
    {log : List Value} (hlog : (s n).mem.msgs.logs.get K = some (.arr log))
    (hkey : fromB64 P (.str K) = .ok (nodes m).id.edPublic) {x : Value} (hx : x ∈ log)
    (hin : prop x (js "dir") = .ok (.str (js "in"))) :
    ∃ e ∈ tr, ∃ text uuid now, Seals P e m (.str (selfEd P (nodes n))) text uuid now ∧
      x = storedMessage (js "in") (selfEd P (nodes m)) (selfEd P (nodes n)) text (P.toISOString now) := by
  obtain ⟨log', hlog', hentries⟩ := (backed_of_run run hunforged n).mem.logs K _ hlog
  obtain rfl := Value.arr.inj hlog'
  cases hentries x hx with
  | sent text ts =>
      have hdir : js "out" = js "in" := Value.str.inj (Except.ok.inj hin)
      exact absurd hdir (by decide)
  | received h =>
      obtain ⟨rfl, e, he, uuid, now, hseals, rfl⟩ := h m hkey
      exact ⟨e, he, _, uuid, now, hseals, rfl⟩

end Inbox

namespace Symbolic

open Js Value Async Task MessageBook Inbox

/-- Node 2's daemon keeps its context; node 1's is the same without an admin. -/
def contexts : Bool → Ctx := fun _ => context

/-- A request that calls no inbox carries no forged signature. -/
theorem quiet_unforged {pre : List (Inbox.Event platform Bool)} {n : Bool} {mem : Memory} {c : BookCall platform} :
    Unforged platform couple pre (n, mem, .start (.friends c)) := by
  intro _ _ _ _ _ heq
  cases heq

/-- A commit of one of the books, as a request with nothing else going on. -/
theorem book_handled {tr : List (Inbox.Event platform Bool)} {s : Bool → DaemonState platform}
    (run : Run (IslandStep platform couple contexts) (deployed platform) tr s)
    (halways : Always (Unforged platform couple) tr) {n : Bool} {m : Memory} (hm : (s n).mem = m) {c : BookCall platform}
    {b' : FriendBook} {v : Value} (h : Commit platform (couple n) c.1 m.book m.book (.ok v) b')
    (hsaves : (Handler.friends c).saves platform v = true) :
    ∃ tr' s', Run (IslandStep platform couple contexts) (deployed platform) tr' s' ∧
      Always (Unforged platform couple) tr' ∧ (s' n).mem = m.setBook b' ∧ ∀ k, k ≠ n → s' k = s k := by
  subst hm
  have hrun : ((Handler.friends c).task platform (couple n) (contexts n)).run (s n).mem = (.ok v, (s n).mem.setBook b') :=
    @friends_run platform (couple n) (contexts n) c (s n).mem b' v h
  obtain ⟨more, s', run', halways', hmem, hothers⟩ := handled run halways hrun hsaves quiet_unforged
  exact ⟨_, s', run', halways', hmem, hothers⟩

/-- Two daemons that are friends. -/
theorem friends_daemons : ∃ tr s, Run (IslandStep platform couple contexts) (deployed platform) tr s ∧
    Always (Unforged platform couple) tr ∧ (s true).mem = Memory.fresh.setBook confirmed ∧
    (s false).mem = Memory.fresh.setBook befriended := by
  have hissue : Commit platform (node 1) (.issueToken 60 [7] epoch) .empty .empty (.ok (invite 1 [7])) offering :=
    .issueToken (invite_minted 1 [7])
  obtain ⟨_, s₁, run₁, ok₁, issued, still₁⟩ := book_handled .nil always_nil (n := true) rfl
    (c := ⟨.issueToken 60 [7] epoch, trivial⟩) hissue rfl
  have fresh₁ : (s₁ false).mem = .fresh := by rw [still₁ false Bool.false_ne_true]; rfl
  obtain ⟨_, s₂, run₂, ok₂, received, still₂⟩ := book_handled run₁ ok₁ (n := false) fresh₁
    (c := ⟨.receive (invite 1 [7]) epoch, invite_wf⟩) invite_received rfl
  obtain ⟨_, s₃, run₃, ok₃, accepted, still₃⟩ := book_handled run₂ ok₂ (n := false) received
    (c := ⟨.accept (toHex [1]) [] epoch, trivial⟩) invite_accepted rfl
  have issued₃ : (s₃ true).mem = Memory.fresh.setBook offering := by
    rw [still₃ true Bool.false_ne_true.symm, still₂ true Bool.false_ne_true.symm, issued]
    rfl
  obtain ⟨tr, s₄, run₄, ok₄, confirmed₄, still₄⟩ := book_handled run₃ ok₃ (n := true) issued₃
    (c := ⟨.confirm reply epoch, trivial⟩) reply_confirmed rfl
  refine ⟨tr, s₄, run₄, ok₄, confirmed₄, ?_⟩
  rw [still₄ false Bool.false_ne_true, accepted]
  rfl

/-- Of the two daemons' signatures the body carries the one that node 1 has made. -/
theorem hi_unforged {blob : JsString} {tr : List (Inbox.Event platform Bool)} {mem : Memory}
    (hseal : sealMessage platform (node 1).id (peerPubOf platform (node 2)) (js "hi") (natText 7) [] epoch = .ok blob)
    (hseals : ∃ e ∈ tr, Seals platform e true (.str (selfEd platform (node 2))) (js "hi") (natText 7) epoch) :
    Unforged platform couple tr (false, mem, .start (.inbound (.obj [(js "blob", .str blob)]) epoch epoch)) := by
  intro n mem' body now mark heq blob' verify payload K m hblob hpayload hnode hkey
  cases heq
  obtain rfl : blob = blob' := Except.ok.inj hblob
  obtain ⟨rfl, key, bytes, hfinds, hbytes, hverified⟩ :=
    opens_as_sealed codec fromHex_toHex (keyPairs 2) (⟨rfl, rfl⟩ : HasKeys platform (node 2) _) hseal hpayload
  obtain rfl : selfEd platform (node 1) = K :=
    Value.str.inj (Except.ok.inj ((prop_sorted rfl).symm.trans hnode))
  obtain rfl : (couple m).id.edPublic = key := Option.some.inj (hkey.symm.trans hfinds)
  cases m with
  | false =>
      -- a signature of node 1 does not verify under node 2's key
      have hsig : decide ([1] ++ bytes = [2] ++ bytes) = true := Option.some.inj hverified
      simp at hsig
  | true =>
      obtain ⟨e, he, hseals⟩ := hseals
      exact .inr ⟨e, he, _, _, _, _, hseals, (canonicalBytes_sortKeys _).symm⟩

/-- Node 1 writes to node 2, and node 2 has the message in its log. -/
theorem hi_authentic : ∃ tr s log x, Run (IslandStep platform couple contexts) (deployed platform) tr s ∧
    Always (Unforged platform couple) tr ∧ (s false).mem.msgs.logs.get (toHex [1]) = some (.arr log) ∧ x ∈ log ∧
    ∃ e ∈ tr, ∃ text uuid now, Seals platform e true (.str (selfEd platform (node 2))) text uuid now ∧
      x = storedMessage (js "in") (toHex [1]) (toHex [2]) text (isoString now) := by
  obtain ⟨tr, s, run, halways, hone, htwo⟩ := friends_daemons
  obtain ⟨blob, m', hsent⟩ := hi_sent
  have hsent' : (send platform (couple true) (toHex [2]) (js "hi") (natText 7) [] epoch epoch).run (s true).mem
      = (.ok (.str blob), m') := by
    rw [hone]
    exact hsent
  have hfriend : (s true).mem.book.friends.get (toHex [2])
      = some (friendRecord platform (peerPubOf platform (node 2)) (.str (toHex [7])) epoch) := by
    rw [hone]
    exact OrdMap.get_set_self ..
  obtain ⟨more, s₁, run₁, ok₁, _, still, hseals⟩ := sent_alone run halways hfriend rfl rfl hsent'
  obtain ⟨friend, recipient, hfriend', hrecipient, hseal⟩ := send_sealed hsent'
  obtain rfl := Option.some.inj (hfriend.symm.trans hfriend')
  obtain rfl := Except.ok.inj hrecipient
  have htwo₁ : (s₁ false).mem = Memory.fresh.setBook befriended := by rw [still false Bool.false_ne_true, htwo]
  have hbook : Keyed platform (Memory.fresh.setBook befriended).book := by
    obtain ⟨_, life⟩ := befriended_life
    exact (lifeInv_of_run life).book.keyed
  have hnew : ¬(Memory.fresh.setBook befriended).msgs.seen.has (natText 7) = true := by
    intro h
    cases h
  have hfresh : epoch.ms - epoch.ms ≤ maxMsgAgeMs ∧ -maxMsgSkewMs ≤ epoch.ms - epoch.ms := by decide
  obtain ⟨mem', hreceived, _, _, hlogs, _⟩ := sealed_received codec fromHex_toHex (keyPairs 1) (keyPairs 2)
    (⟨rfl, rfl⟩ : HasKeys platform (node 2) _) hseal hbook rfl epoch
    (show (prop (.obj [(js "blob", .str blob)]) (js "blob") >>= stringOf) = .ok blob from rfl) epoch_dated hfresh
    (natText_ne_nil 7) hnew rfl
  have hrun : ((Handler.inbound (.obj [(js "blob", .str blob)]) epoch epoch).task platform (couple false)
      (contexts false)).run (s₁ false).mem = (.ok (.bool true), mem') := by
    rw [htwo₁]
    exact hreceived
  have hsealed : ∃ e ∈ tr ++ more, Seals platform e true (.str (selfEd platform (node 2))) (js "hi") (natText 7) epoch := by
    obtain ⟨e, he, hseals⟩ := hseals
    exact ⟨e, List.mem_append_right _ he, hseals⟩
  obtain ⟨more', s₂, run₂, ok₂, hmem, _⟩ := handled run₁ ok₁ hrun rfl (hi_unforged hseal hsealed)
  have hlog : (s₂ false).mem.msgs.logs.get (toHex [1]) = some (.arr (newest maxPerPeer
      ([] ++ [storedMessage (js "in") (toHex [1]) (toHex [2]) (js "hi") (isoString epoch)]))) := by
    rw [hmem, hlogs]
    exact OrdMap.get_set_self ..
  refine ⟨_, s₂, _, _, run₂, ok₂, hlog, List.mem_singleton_self _, ?_⟩
  exact inbox_authentic platform couple contexts run₂ ok₂ (n := false) (m := true) hlog (fromB64_toHex [1])
    (List.mem_singleton_self _) rfl

end Symbolic
end Island
end VpnPi
