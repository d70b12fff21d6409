import VpnPi.Async.Lock
import VpnPi.Async.Trace
import VpnPi.Island.Canary
import VpnPi.Js.OrdMap

/-!
# `Island.Gate` — the internet gate (`core/gate.ts`)

`Gate` holds the fields of the class. Each piece of `open` and `close` between two `await`s is a function on
it: `openStart` up to the question to the LLM, `answered` after it, `enter` when the lock lets the critical
section in, up to the call of the helper, and `exit` with what the helper did. `Gate.Step` interleaves the
pieces of any number of calls with the timer.
-/

namespace VpnPi
namespace Island

open Js Async

/-! ## The state -/

inductive Mode where
  | island
  | internet
  deriving DecidableEq

structure GateState where
  state    : Mode
  closesAt : Option JsString
  deriving DecidableEq

inductive GateAction where
  | opened
  | closed
  | deny
  deriving DecidableEq

structure GateLogEntry where
  at_    : JsString
  action : GateAction
  admin  : Option JsString
  reason : Option JsString

structure LlamaDecision where
  approve : Bool
  reason  : JsString

/-- A pending `setTimeout`, with the time it was armed at. -/
structure Timer where
  delayMs : ℚ
  reason  : JsString
  armed   : Instant

/-- The closures that `open` and `close` hand to `locked`, with what they capture. -/
inductive Section where
  | opening (canary : Canary) (now : Instant) (reason : JsString)
  | closing (reason : JsString) (now : Instant)

structure GateConfig where
  ttlSeconds        : Seconds
  noncePruneSeconds : ℚ := 3600

structure Gate where
  state           : GateState := ⟨.island, none⟩
  log             : List GateLogEntry := []
  /-- Spent canary nonce → consumed-at ms. -/
  consumed        : OrdMap JsString Number := .empty
  timer           : Option Timer := none
  /-- The sections `locked` has queued. -/
  lock            : Chain Section := []
  recloseAttempts : Nat := 0

structure OpenResult where
  opened : Bool
  state  : GateState
  reason : JsString

/-- What a section resolves to. -/
inductive Reply where
  | opened (r : OpenResult)
  | closed (s : GateState)

namespace Gate

variable (P : Platform) (cfg : GateConfig)

/-! ## `open` and `close`, piece by piece -/

def scheduleReclose (delayMs : ℚ) (reason : JsString) (clock : Instant) (g : Gate) : Gate :=
  { g with timer := some ⟨delayMs, reason, clock⟩ }

/-- `now.getTime() - this.noncePruneSeconds * 1000`. -/
def cutoff (now : Instant) : ℚ := roundDouble (now.ms - millis cfg.noncePruneSeconds)

def prune (now : Instant) (g : Gate) : Gate :=
  { g with consumed := g.consumed.filter fun _ consumedAt => !consumedAt.lt (cutoff cfg now) }

/-- `open`, up to the question to the LLM. -/
def openStart (canary : Canary) (now : Instant) (g : Gate) : Except Exn Unit × Gate :=
  let g := g.prune cfg now
  if g.consumed.has canary.nonce then (.error (.canary (js "canary already used")), g)
  else (.ok (), { g with consumed := g.consumed.set canary.nonce (.ofInt now.ms) })

/-- `open`, once the LLM has answered: a result, or a section in the queue. -/
def answered (canary : Canary) (now : Instant) (decision : LlamaDecision) (g : Gate) :
    Option OpenResult × Gate :=
  if decision.approve then
    (none, { g with lock := g.lock.enqueue (.opening canary now decision.reason) })
  else
    let entry := ⟨P.toISOString now, .deny, some canary.admin, some decision.reason⟩
    let g := { g with log := g.log ++ [entry] }
    (some ⟨false, g.state, decision.reason⟩, g)

/-- `close`. -/
def close (reason : JsString) (now : Instant) (g : Gate) : Gate :=
  { g with lock := g.lock.enqueue (.closing reason now) }

/-- The critical section, up to the call of the helper. -/
def enter (s : Section) (g : Gate) : Gate :=
  match s with
  | .opening _ _ _ => { g with timer := none }
  | .closing _ _ => g

/-- The critical section of `open`, from the helper's result on. -/
def openExit (canary : Canary) (now : Instant) (reason : JsString) (exec : Except Exn Unit) (clock : Instant)
    (g : Gate) : Except Exn Reply × Gate :=
  match exec with
  | .error e =>
      (.error e, if g.state.state = .internet then
        g.scheduleReclose 0 (js "reclose after failed re-open") clock else g)
  | .ok () =>
      let g := { g with recloseAttempts := 0 }
      match now.addSeconds cfg.ttlSeconds.val with
      | none => (.error .rangeError, g)
      | some closesAt =>
          let g := { g with state := ⟨.internet, some (P.toISOString closesAt)⟩ }
          let g := g.scheduleReclose (millis cfg.ttlSeconds.val) (js "auto-reclose (ttl)") clock
          let entry := ⟨P.toISOString now, .opened, some canary.admin, some reason⟩
          let g := { g with log := g.log ++ [entry] }
          (.ok (.opened ⟨true, g.state, reason⟩), g)

/-- The delay before the next attempt, after `attempts` failures: `Math.min(1000 * 2 ** attempts, 60_000)`. -/
def retryDelay (attempts : Nat) : Nat := min (1000 * 2 ^ attempts) 60000

/-- The critical section of `close`, from the helper's result on. -/
def closeExit (reason : JsString) (now : Instant) (exec : Except Exn Unit) (clock : Instant) (g : Gate) :
    Except Exn Reply × Gate :=
  match exec with
  | .error e =>
      let g := { g with recloseAttempts := g.recloseAttempts + 1 }
      (.error e, g.scheduleReclose (retryDelay g.recloseAttempts) reason clock)
  | .ok () =>
      let entry := ⟨P.toISOString now, .closed, none, some reason⟩
      let g := { g with
        timer := none
        recloseAttempts := 0
        state := ⟨.island, none⟩
        log := g.log ++ [entry] }
      (.ok (.closed g.state), g)

def exit (s : Section) (exec : Except Exn Unit) (clock : Instant) (g : Gate) : Except Exn Reply × Gate :=
  match s with
  | .opening canary now reason => openExit P cfg canary now reason exec clock g
  | .closing reason now => closeExit P reason now exec clock g

/-! ## Saving and loading -/

/-- `toJSON`. -/
def toJSON (g : Gate) : Value :=
  .obj [(js "consumed", .arr (g.consumed.entries.map fun e => .arr [.str e.1, .num e.2]))]

/-- The loop of `loadConsumed`. What is not iterable throws, and keeps what was loaded before. -/
def loadEntries : List Value → OrdMap JsString Number → OrdMap JsString Number
  | [], m => m
  | .arr (.str nonce :: .num at_ :: _) :: es, m => loadEntries es (m.set nonce at_)
  | e :: es, m =>
      match e with
      | .undefined | .null | .arr _ | .str _ => loadEntries es m
      | _ => m

def loadConsumed (data : Value) (g : Gate) : Gate :=
  match data.prop (js "consumed") with
  | some (.arr es) => { g with consumed := loadEntries es g.consumed }
  | _ => g

/-- What `persist` writes to `gate.json`. -/
def saved (g : Gate) : Bytes := utf8Encode (stringify g.toJSON)

/-- The gate of a new process, from `gate.json` if there is one; a corrupt file is ignored. -/
def boot (file : Option Bytes) : Gate :=
  match file.bind fun bytes => parse P.toEngine (utf8Decode bytes) with
  | some data => loadConsumed data {}
  | none => {}

end Gate

/-! ## Runs -/

/-- A gate, and the calls of `open` that wait for the LLM. -/
structure GateRun where
  gate     : Gate
  deciding : List (Canary × Instant) := []

inductive GateEvent where
  /-- `open` has consumed the nonce and asks the LLM. -/
  | asked (canary : Canary) (now : Instant)
  /-- `open` has found the nonce spent. -/
  | refused (canary : Canary) (now : Instant)
  | answered (canary : Canary) (now : Instant) (decision : LlamaDecision)
  | close (reason : JsString) (now : Instant)
  /-- The reclose timer fires. -/
  | fire (now : Instant)
  /-- The lock lets a section in, which calls the helper. -/
  | enter (s : Section)
  /-- The helper has ended, and with it the section. -/
  | exit (s : Section) (exec : Except Exn Unit) (clock : Instant)

inductive Gate.Step (P : Platform) (cfg : GateConfig) : GateRun → GateEvent → GateRun → Prop
  | asked {g g' : Gate} {ds : List (Canary × Instant)} {c : Canary} {now : Instant}
      (h : g.openStart cfg c now = (.ok (), g')) :
      Step P cfg ⟨g, ds⟩ (.asked c now) ⟨g', ds ++ [(c, now)]⟩
  | refused {g g' : Gate} {ds : List (Canary × Instant)} {c : Canary} {now : Instant} {e : Exn}
      (h : g.openStart cfg c now = (.error e, g')) : Step P cfg ⟨g, ds⟩ (.refused c now) ⟨g', ds⟩
  | answered (g : Gate) (l r : List (Canary × Instant)) (c : Canary) (now : Instant) (d : LlamaDecision) :
      Step P cfg ⟨g, l ++ (c, now) :: r⟩ (.answered c now d) ⟨(g.answered P c now d).2, l ++ r⟩
  | close (g : Gate) (ds : List (Canary × Instant)) (reason : JsString) (now : Instant) :
      Step P cfg ⟨g, ds⟩ (.close reason now) ⟨g.close reason now, ds⟩
  | fire {g : Gate} {t : Timer} (ds : List (Canary × Instant)) (h : g.timer = some t) (now : Instant) :
      Step P cfg ⟨g, ds⟩ (.fire now) ⟨{ g with timer := none }.close t.reason now, ds⟩
  | enter {g : Gate} {lock : Chain Section} {s : Section} (ds : List (Canary × Instant))
      (h : Chain.Starts s g.lock lock) :
      Step P cfg ⟨g, ds⟩ (.enter s) ⟨{ g.enter s with lock := lock }, ds⟩
  | exit {g : Gate} {lock : Chain Section} {s : Section} (ds : List (Canary × Instant))
      (h : Chain.Settles s g.lock lock) (exec : Except Exn Unit) (clock : Instant) :
      Step P cfg ⟨g, ds⟩ (.exit s exec clock) ⟨{ (g.exit P cfg s exec clock).2 with lock := lock }, ds⟩

end Island
end VpnPi
