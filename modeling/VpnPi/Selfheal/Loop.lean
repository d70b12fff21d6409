import VpnPi.Async.Trace
import VpnPi.Selfheal.Alert

/-!
# `Selfheal.Loop` — the daemon's tick (`cmd/wg-selfheal/main.go`)

`tick` is one cycle: read, prune, snapshot, classify, cache, emit transitions, remediate. What it does to the
world is a list of `Output`s: the lines it logs and the calls of `ReassertEndpoint`, in order. The interface
is an argument: what `Read` returned, and how each re-assert ends.

`Step` is the tick as a step relation, labelled with what happened in it; `Step.failed_or_read` says
everything such a step can do.
-/

namespace VpnPi
namespace Selfheal

open Js Async

/-! ## Log lines -/

structure LogLine where
  level : JsString
  msg   : JsString
  attrs : List (JsString × JsString)

/-- Eight bytes and an ellipsis. -/
def shortKey (k : JsString) : JsString := if 8 < k.length then k.take 8 ++ [0x2026] else k

def peerLabel (name tunnelIP pubKey : JsString) : JsString :=
  if name ≠ [] then name else if tunnelIP ≠ [] then tunnelIP else shortKey pubKey

def ageLabel (now handshake : Time) : JsString :=
  if handshake.isZero then js "never" else (now.sub handshake).roundSecond.text

inductive Output where
  | log (line : LogLine)
  /-- `log.Info("peer", ..)` of `observe`. -/
  | snapshot (now : Time) (p : PeerState) (status : State)
  /-- `log.Info("state change", ..)`. -/
  | transition (now : Time) (e : Event)
  /-- A call of `ReassertEndpoint`. -/
  | reassert (publicKey endpoint : JsString)

def snapshotLine (now : Time) (p : PeerState) (status : State) : LogLine where
  level := js "INFO"
  msg   := js "peer"
  attrs := [(js "peer", peerLabel p.name p.tunnelIP p.publicKey), (js "pubkey", shortKey p.publicKey),
    (js "endpoint", p.endpoint), (js "handshake_age", ageLabel now p.lastHandshake),
    (js "status", status.text)]

def transitionLine (now : Time) (e : Event) : LogLine where
  level := js "INFO"
  msg   := js "state change"
  attrs := [(js "event", e.kind), (js "peer", peerLabel e.name e.tunnelIP e.peer),
    (js "pubkey", shortKey e.peer), (js "from", e.from_.text), (js "to", e.to_.text),
    (js "handshake_age", ageLabel now e.lastHandshake), (js "endpoint", e.endpoint)]

/-- The line an output leaves in the log. -/
def Output.line : Output → Option LogLine
  | log line => some line
  | snapshot now p status => some (snapshotLine now p status)
  | transition now e => some (transitionLine now e)
  | reassert .. => none

/-! ## The loop state -/

structure LoopState where
  memo          : Memo
  endpointCache : OrdMap JsString JsString
  history       : List ActionRecord

def LoopState.empty : LoopState := ⟨.empty, .empty, []⟩

structure Flags where
  role     : Role
  cfg      : Config
  dryRun   : Bool
  snapshot : Bool

/-- Stateless: no `restored`. -/
def snapshotStatus (now : Time) (cfg : Config) (p : PeerState) : State :=
  if p.lastHandshake.isZero ∨ cfg.degradedAfter ≤ now.sub p.lastHandshake then .degraded
  else if cfg.staleAfter ≤ now.sub p.lastHandshake then .stale
  else .ok

def observe (now : Time) (peers : List PeerState) (cfg : Config) : List Output :=
  peers.map fun p => .snapshot now p (snapshotStatus now cfg p)

def cacheHealthy (cache : OrdMap JsString JsString) (statuses : List PeerStatus) : OrdMap JsString JsString :=
  statuses.foldl (fun cache s =>
    if (s.state = .ok ∨ s.state = .restored) ∧ s.endpoint ≠ [] then cache.set s.peer s.endpoint else cache)
    cache

def pruneCache (cache : OrdMap JsString JsString) (statuses : List PeerStatus) : OrdMap JsString JsString :=
  cache.filter fun k _ => (statuses.map PeerStatus.peer).contains k

def pruneHistory (history : List ActionRecord) (cutoff : Time) : List ActionRecord :=
  history.filter fun r => r.at_.after cutoff

/-! ## One action -/

/-- How a call of `ReassertEndpoint` ends: the text of its error, if any. -/
abbrev Asserter := JsString → JsString → Option JsString

def remediate (reassertEndpoint : Asserter) (dryRun : Bool) (now : Time) (a : Action) (st : LoopState) :
    List Output × LoopState :=
  let who := peerLabel a.name a.ip a.peer
  match a.kind with
  | .reResolve =>
      match st.endpointCache.get a.peer with
      -- logged at Debug, which the handler drops
      | none => ([], st)
      | some ep =>
          let attrs := [(js "peer", who), (js "endpoint", ep)]
          if dryRun then ([.log ⟨js "INFO", js "would re-assert endpoint", attrs⟩], st)
          else
            let st := { st with history := st.history ++ [⟨a.peer, .reResolve, now⟩] }
            match reassertEndpoint a.peer ep with
            | some err =>
                ([.reassert a.peer ep, .log ⟨js "ERROR", js "re-assert failed", attrs ++ [(js "err", err)]⟩], st)
            | none =>
                ([.reassert a.peer ep,
                  .log ⟨js "INFO", js "re-asserted endpoint", attrs ++ [(js "reason", a.reason)]⟩], st)
  | .alert => ([], st)
  | .bounceInterface =>
      ([.log ⟨js "WARN", js "interface bounce requested but not wired (privilege gap)", [(js "peer", who)]⟩], st)

def remediateAll (reassertEndpoint : Asserter) (dryRun : Bool) (now : Time) :
    List Action → LoopState → List Output × LoopState
  | [], st => ([], st)
  | a :: as, st =>
      let r := remediate reassertEndpoint dryRun now a st
      let rest := remediateAll reassertEndpoint dryRun now as r.2
      (r.1 ++ rest.1, rest.2)

/-! ## One tick -/

def tick (f : Flags) (reading : Reading) (read : Except JsString (List PeerState)) (reassertEndpoint : Asserter)
    (st : LoopState) : List Output × LoopState :=
  let now := reading.time
  match read with
  | .error err => ([.log ⟨js "WARN", js "read failed", [(js "err", err)]⟩], st)
  | .ok peers =>
      let history := pruneHistory st.history (now.add (-f.cfg.window))
      let observed := if f.snapshot then observe now peers f.cfg else []
      let (statuses, nextMemo) := Heal.step now peers st.memo f.cfg
      let cache := cacheHealthy (pruneCache st.endpointCache statuses) statuses
      let events := (Alert.diff (statesOf st.memo) statuses now).1
      let remedied := remediateAll reassertEndpoint f.dryRun now (Heal.decide now f.role peers history f.cfg)
        ⟨nextMemo, cache, history⟩
      (observed ++ events.map (.transition now) ++ remedied.1, remedied.2)

/-- A tick that has run: what it read, how it classified the peers, and what it did. -/
structure Tick where
  now      : Reading
  read     : Except JsString (List PeerState)
  statuses : List PeerStatus
  out      : List Output

def classify (f : Flags) (st : LoopState) (reading : Reading) :
    Except JsString (List PeerState) → List PeerStatus
  | .error _ => []
  | .ok peers => (Heal.step reading.time peers st.memo f.cfg).1

inductive Step (f : Flags) : LoopState → Tick → LoopState → Prop
  | mk (now : Reading) (read : Except JsString (List PeerState)) (reassertEndpoint : Asserter) (st : LoopState) :
      Step f st ⟨now, read, classify f st now read, (tick f now read reassertEndpoint st).1⟩
        (tick f now read reassertEndpoint st).2

/-- The ticks that a sequence of readings leads to, with the state after them. -/
def ticks (f : Flags) (reassertEndpoint : Asserter) :
    List (Reading × Except JsString (List PeerState)) → LoopState → List Tick × LoopState
  | [], st => ([], st)
  | (now, read) :: rest, st =>
      let r := tick f now read reassertEndpoint st
      let more := ticks f reassertEndpoint rest r.2
      (⟨now, read, classify f st now read, r.1⟩ :: more.1, more.2)

theorem run_ticks {f : Flags} (reassertEndpoint : Asserter) {st₀ : LoopState}
    (inputs : List (Reading × Except JsString (List PeerState))) :
    ∀ {tr : List Tick} {st : LoopState}, Run (Step f) st₀ tr st →
      Run (Step f) st₀ (tr ++ (ticks f reassertEndpoint inputs st).1) (ticks f reassertEndpoint inputs st).2 := by
  induction inputs with
  | nil =>
      intro tr st run
      rw [ticks, List.append_nil]
      exact run
  | cons input rest ih =>
      intro tr st run
      have h := ih (run.snoc (.mk input.1 input.2 reassertEndpoint st))
      rw [List.append_assoc, List.singleton_append] at h
      exact h

theorem run_of_ticks (f : Flags) (reassertEndpoint : Asserter)
    (inputs : List (Reading × Except JsString (List PeerState))) :
    Run (Step f) .empty (ticks f reassertEndpoint inputs .empty).1 (ticks f reassertEndpoint inputs .empty).2 :=
  run_ticks reassertEndpoint inputs .nil

/-- The public keys of a snapshot are distinct. -/
def Tick.Distinct (t : Tick) : Prop := ∀ peers, t.read = .ok peers → (peers.map PeerState.publicKey).Nodup

/-- The transitions among the outputs. -/
def eventsOf (out : List Output) : List Event :=
  out.filterMap fun
    | .transition _ e => some e
    | _ => none

/-- The calls of `ReassertEndpoint` among the outputs: peer and endpoint. -/
def callsOf (out : List Output) : List (JsString × JsString) :=
  out.filterMap fun
    | .reassert peer ep => some (peer, ep)
    | _ => none

/-! ## What a tick can do -/

/-- The calls that a list of actions leads to. -/
def attempts (cache : OrdMap JsString JsString) (dryRun : Bool) (actions : List Action) :
    List (JsString × JsString) :=
  actions.filterMap fun a =>
    if a.kind = .reResolve ∧ dryRun = false then (cache.get a.peer).map (a.peer, ·) else none

/-- No attribute of the line has the name of another one, or of what the handler adds. -/
def LogLine.Keyed (l : LogLine) : Prop :=
  (js "time" :: js "level" :: js "msg" :: l.attrs.map Prod.fst).Nodup

/-- An output that says nothing of a peer's state. -/
def Output.IsOther : Output → Prop
  | log line => line.msg ≠ js "peer" ∧ line.msg ≠ js "state change" ∧ line.Keyed
  | reassert .. => True
  | snapshot .. | transition .. => False

theorem callsOf_append (o o' : List Output) : callsOf (o ++ o') = callsOf o ++ callsOf o' :=
  List.filterMap_append ..

theorem eventsOf_append (o o' : List Output) : eventsOf (o ++ o') = eventsOf o ++ eventsOf o' :=
  List.filterMap_append ..

/-- Snapshot and transition lines call nothing. -/
theorem callsOf_feed (now : Time) (peers : List PeerState) (status : PeerState → State) (c : Bool)
    (events : List Event) (out : List Output) :
    callsOf ((if c then peers.map fun p => .snapshot now p (status p) else [])
      ++ events.map (.transition now) ++ out) = callsOf out := by
  have hevents : callsOf (events.map (.transition now)) = [] := by
    simp [callsOf]
  have hobserved : callsOf (if c then peers.map fun p => .snapshot now p (status p) else []) = [] := by
    cases c with
    | true => simp [callsOf]
    | false => rfl
  rw [callsOf_append, callsOf_append, hevents, hobserved]
  rfl

theorem eventsOf_other {out : List Output} (h : ∀ o ∈ out, o.IsOther) : eventsOf out = [] := by
  refine List.filterMap_eq_nil_iff.mpr fun o ho => ?_
  cases o with
  | transition now e => exact (h _ ho).elim
  | _ => rfl

section Remedy

variable (reassertEndpoint : Asserter) (dryRun : Bool) (now : Time)

theorem remediate_other (a : Action) (st : LoopState) :
    ∀ o ∈ (remediate reassertEndpoint dryRun now a st).1, o.IsOther := by
  have hcall : ∀ peer ep line, Output.IsOther (.log line) →
      ∀ o ∈ [Output.reassert peer ep, .log line], o.IsOther := by
    intro peer ep line hline o ho
    rcases List.mem_cons.mp ho with rfl | ho
    · trivial
    · rw [List.mem_singleton.mp ho]
      exact hline
  -- no line of a remedy has the message of a sighting
  unfold remediate
  cases hkind : a.kind with
  | reResolve =>
      cases hget : st.endpointCache.get a.peer with
      | none => exact fun o ho => absurd ho List.not_mem_nil
      | some ep =>
          cases dryRun with
          | true =>
              intro o ho
              rw [List.mem_singleton.mp ho]
              exact ⟨show js "would re-assert endpoint" ≠ _ by decide,
                show js "would re-assert endpoint" ≠ _ by decide,
                show [js "time", js "level", js "msg", js "peer", js "endpoint"].Nodup by decide⟩
          | false =>
              simp only [Bool.false_eq_true, if_false]
              cases hres : reassertEndpoint a.peer ep with
              | none =>
                  exact hcall _ _ _ ⟨show js "re-asserted endpoint" ≠ _ by decide,
                    show js "re-asserted endpoint" ≠ _ by decide,
                    show [js "time", js "level", js "msg", js "peer", js "endpoint", js "reason"].Nodup by decide⟩
              | some err =>
                  exact hcall _ _ _ ⟨show js "re-assert failed" ≠ _ by decide,
                    show js "re-assert failed" ≠ _ by decide,
                    show [js "time", js "level", js "msg", js "peer", js "endpoint", js "err"].Nodup by decide⟩
  | alert => exact fun o ho => absurd ho List.not_mem_nil
  | bounceInterface =>
      intro o ho
      rw [List.mem_singleton.mp ho]
      exact ⟨show js "interface bounce requested but not wired (privilege gap)" ≠ _ by decide,
        show js "interface bounce requested but not wired (privilege gap)" ≠ _ by decide,
        show [js "time", js "level", js "msg", js "peer"].Nodup by decide⟩

theorem remediate_calls (a : Action) (st : LoopState) :
    let r := remediate reassertEndpoint dryRun now a st
    callsOf r.1 = attempts st.endpointCache dryRun [a] ∧
      r.2 = { st with history := st.history ++ (callsOf r.1).map fun c => ⟨c.1, .reResolve, now⟩ } := by
  obtain ⟨memo, cache, history⟩ := st
  unfold remediate attempts
  cases hkind : a.kind with
  | reResolve =>
      cases hget : cache.get a.peer with
      | none => simp [hkind, hget, callsOf]
      | some ep =>
          cases dryRun with
          | true => simp [callsOf]
          | false =>
              cases hres : reassertEndpoint a.peer ep with
              | none => simp [hkind, hget, hres, callsOf]
              | some err => simp [hkind, hget, hres, callsOf]
  | alert => simp [hkind, callsOf]
  | bounceInterface => simp [hkind, callsOf]

theorem remediateAll_spec (actions : List Action) (st : LoopState) :
    let r := remediateAll reassertEndpoint dryRun now actions st
    callsOf r.1 = attempts st.endpointCache dryRun actions ∧ (∀ o ∈ r.1, o.IsOther) ∧
      r.2 = { st with history := st.history ++ (callsOf r.1).map fun c => ⟨c.1, .reResolve, now⟩ } := by
  induction actions generalizing st with
  | nil => exact ⟨rfl, fun _ h => absurd h List.not_mem_nil, by simp [remediateAll, callsOf]⟩
  | cons a as ih =>
      have hother := remediate_other reassertEndpoint dryRun now a st
      obtain ⟨hcalls, hst⟩ := remediate_calls reassertEndpoint dryRun now a st
      obtain ⟨hcalls', hother', hst'⟩ := ih (remediate reassertEndpoint dryRun now a st).2
      have hcache : (remediate reassertEndpoint dryRun now a st).2.endpointCache = st.endpointCache := by
        rw [hst]
      refine ⟨?_, ?_, ?_⟩
      · show callsOf (_ ++ _) = _
        rw [callsOf_append, hcalls, hcalls', hcache]
        exact (List.filterMap_append ..).symm
      · intro o ho
        exact (List.mem_append.mp ho).elim (hother o) (hother' o)
      · show (remediateAll _ _ _ as _).2 = { st with history := st.history ++ (callsOf (_ ++ _)).map _ }
        rw [hst', callsOf_append, List.map_append, ← List.append_assoc, hst]

end Remedy

/-- A tick whose read succeeded. -/
structure Advance (f : Flags) (st : LoopState) (t : Tick) (peers : List PeerState) (st' : LoopState) : Prop where
  statuses : t.statuses = peers.map (statusOf t.now.time st.memo f.cfg)
  memo     : st'.memo = (Heal.step t.now.time peers st.memo f.cfg).2
  cache    : st'.endpointCache = cacheHealthy (pruneCache st.endpointCache t.statuses) t.statuses
  calls    : callsOf t.out = attempts st'.endpointCache f.dryRun (Heal.decide t.now.time f.role peers
    (pruneHistory st.history (t.now.time.add (-f.cfg.window))) f.cfg)
  history  : st'.history = pruneHistory st.history (t.now.time.add (-f.cfg.window))
    ++ (callsOf t.out).map fun c => ⟨c.1, .reResolve, t.now.time⟩
  out      : ∃ other, (∀ o ∈ other, o.IsOther) ∧ t.out =
    (if f.snapshot then observe t.now.time peers f.cfg else [])
      ++ (Alert.diff (statesOf st.memo) t.statuses t.now.time).1.map (.transition t.now.time) ++ other

/-- **What a tick can do**: fail to read and change nothing, or advance. -/
theorem Step.failed_or_read {f : Flags} {st st' : LoopState} {t : Tick} (h : Step f st t st') :
    ((∃ err, t.read = .error err) ∧ t.statuses = [] ∧ st' = st ∧ callsOf t.out = [] ∧
      ∀ o ∈ t.out, o.IsOther) ∨
    ∃ peers, t.read = .ok peers ∧ Advance f st t peers st' := by
  cases h with
  | mk now read reassertEndpoint =>
      cases read with
      | error err =>
          refine Or.inl ⟨⟨err, rfl⟩, rfl, rfl, rfl, fun o ho => ?_⟩
          obtain rfl := List.mem_singleton.mp ho
          exact ⟨show js "read failed" ≠ _ by decide, show js "read failed" ≠ _ by decide,
            show [js "time", js "level", js "msg", js "err"].Nodup by decide⟩
      | ok peers =>
          -- the remedies add to the history and change nothing else of the state
          obtain ⟨hcalls, hother, hst⟩ := remediateAll_spec reassertEndpoint f.dryRun now.time
            (Heal.decide now.time f.role peers (pruneHistory st.history (now.time.add (-f.cfg.window))) f.cfg)
            ⟨(Heal.step now.time peers st.memo f.cfg).2, cacheHealthy (pruneCache st.endpointCache
              (Heal.step now.time peers st.memo f.cfg).1) (Heal.step now.time peers st.memo f.cfg).1,
              pruneHistory st.history (now.time.add (-f.cfg.window))⟩
          refine Or.inr ⟨peers, rfl, rfl, ?_, ?_, ?_, ?_, _, hother, rfl⟩
          · exact congrArg LoopState.memo hst
          · exact congrArg LoopState.endpointCache hst
          · refine (callsOf_feed ..).trans (hcalls.trans ?_)
            exact congrArg (attempts · _ _) (congrArg LoopState.endpointCache hst).symm
          · refine (congrArg LoopState.history hst).trans ?_
            exact congrArg (fun calls : List (JsString × JsString) =>
              pruneHistory st.history (now.time.add (-f.cfg.window))
                ++ calls.map fun c => ⟨c.1, .reResolve, now.time⟩) (callsOf_feed ..).symm

/-! ## The calls of a tick -/

theorem decidePeer_peer (now : Time) (role : Role) (p : PeerState) (history : List ActionRecord) (cfg : Config) :
    (decidePeer now role p history cfg).peer = p.publicKey := by
  simp only [decidePeer]
  split
  · rfl
  · split
    · rfl
    · rfl

/-- An attempt is decided only below the limit of the breaker. -/
theorem decidePeer_reResolve {now : Time} {role : Role} {p : PeerState} {history : List ActionRecord}
    {cfg : Config} (h : (decidePeer now role p history cfg).kind = .reResolve) :
    countRecent history p.publicKey .reResolve now cfg.window < cfg.maxReResolve := by
  simp only [decidePeer] at h
  split at h
  · next hlt => exact hlt
  · split at h
    · cases h
    · cases h

variable {f : Flags} {st st' : LoopState} {t : Tick} {peers : List PeerState}

/-- **What a call says**: the peer was read, its attempts in the window are below the limit, and the endpoint
    is the cached one. -/
theorem Advance.mem_calls (h : Advance f st t peers st') {key ep : JsString}
    (hc : (key, ep) ∈ callsOf t.out) : ∃ p ∈ peers, p.publicKey = key ∧ st'.endpointCache.get key = some ep ∧
      countRecent (pruneHistory st.history (t.now.time.add (-f.cfg.window))) key .reResolve t.now.time
        f.cfg.window < f.cfg.maxReResolve := by
  rw [h.calls] at hc
  obtain ⟨a, ha, hcall⟩ := List.mem_filterMap.mp hc
  obtain ⟨p, hp, rfl⟩ := List.mem_map.mp ha
  rw [decidePeer_peer] at hcall
  split at hcall
  · next hkind =>
      obtain ⟨ep', hget, heq⟩ := Option.map_eq_some_iff.mp hcall
      cases heq
      exact ⟨p, (List.mem_filter.mp hp).1, rfl, hget, decidePeer_reResolve hkind.1⟩
  · cases hcall

/-- The calls go to peers of the read, each at most once. -/
theorem Advance.calls_sublist (h : Advance f st t peers st') :
    ((callsOf t.out).map Prod.fst).Sublist (peers.map PeerState.publicKey) := by
  have hactions : ∀ actions : List Action,
      ((attempts st'.endpointCache f.dryRun actions).map Prod.fst).Sublist (actions.map Action.peer) := by
    intro actions
    unfold attempts
    induction actions with
    | nil => exact .slnil
    | cons a as ih =>
        rw [List.filterMap_cons]
        split
        · exact ih.cons _
        · next c hc =>
            have hpeer : c.1 = a.peer := by
              split at hc
              · obtain ⟨ep, _, rfl⟩ := Option.map_eq_some_iff.mp hc
                rfl
              · cases hc
            rw [List.map_cons, List.map_cons, hpeer]
            exact ih.cons_cons _
  rw [h.calls]
  refine (hactions _).trans ?_
  unfold Heal.decide
  rw [List.map_map]
  have hpeer : Action.peer ∘ (fun p => decidePeer t.now.time f.role p
      (pruneHistory st.history (t.now.time.add (-f.cfg.window))) f.cfg) = PeerState.publicKey :=
    funext fun p => decidePeer_peer ..
  rw [hpeer]
  exact List.filter_sublist.map _

/-! ## A spoke -/

/-- A spoke as it is installed. -/
def spoke : Flags := ⟨.spoke, { defaultConfig with maxBounce := 0 }, false, false⟩

def noon : Reading := ⟨63900000000000000000, 60000000000⟩

/-- A peer with a handshake just now. -/
def sirius : PeerState :=
  ⟨js "c2lyaXVzLXB1YmxpYy1rZXktb2YtMzItYnl0ZXMtISE=", [], js "10.42.0.5", ⟨noon.wall, none⟩,
    js "203.0.113.9:51820"⟩

def quiet : Asserter := fun _ _ => none

/-- `sirius` handshakes at noon and never again; the daemon reads it every 30 s from the third minute on. -/
def outage : List (Reading × Except JsString (List PeerState)) :=
  [0, 180, 210, 240, 270].map fun s =>
    (⟨noon.wall + s * 1000000000, noon.mono + s * 1000000000⟩, .ok [sirius])

theorem distinct_of_read (h : t.read = .ok peers) (hnd : (peers.map PeerState.publicKey).Nodup) :
    t.Distinct := by
  intro peers' hread
  obtain rfl := Except.ok.inj (h.symm.trans hread)
  exact hnd

theorem mem_ticks {reassertEndpoint : Asserter} {inputs : List (Reading × Except JsString (List PeerState))}
    {st : LoopState} {t : Tick} (h : t ∈ (ticks f reassertEndpoint inputs st).1) :
    (t.now, t.read) ∈ inputs := by
  induction inputs generalizing st with
  | nil => cases h
  | cons input rest ih =>
      rcases List.mem_cons.mp h with rfl | h
      · exact List.mem_cons_self ..
      · exact List.mem_cons_of_mem _ (ih h)

theorem ticks_distinct {reassertEndpoint : Asserter} {inputs : List (Reading × Except JsString (List PeerState))}
    {st : LoopState} (h : ∀ i ∈ inputs, ∀ peers, i.2 = .ok peers → (peers.map PeerState.publicKey).Nodup) :
    ∀ t ∈ (ticks f reassertEndpoint inputs st).1, t.Distinct :=
  fun _ ht peers hread => h _ (mem_ticks ht) peers hread

end Selfheal
end VpnPi
