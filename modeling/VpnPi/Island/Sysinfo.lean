import VpnPi.Island.Platform

/-!
# `Island.Sysinfo` — replaying the self-heal journal (`core/sysinfo.ts`)

`readDaemon` turns what `journalctl -o json` prints into the current state of every peer: the message of an
entry is itself a JSON line of the daemon, and the last line of a peer that carries a state wins. A line that
does not parse is skipped; a message that is `null` or no object makes the whole replay throw only if it is
`null` (`evt.peer` is read outside the `try`).
-/

namespace VpnPi
namespace Island

open Js

structure DaemonPeer where
  peer         : Value
  state        : JsString
  endpoint     : JsString
  handshakeAge : Option JsString

/-- `JSON.parse(String(JSON.parse(line).MESSAGE ?? ""))`, where any exception means: next line. -/
def journalMessage (E : Engine) (line : JsString) : Option Value := do
  let entry ← parse E line
  let message ← entry.prop (js "MESSAGE")
  let text ← (if message.isNullish then .str [] else message).toStr
  parse E text

/-- `latest.set(d.peer, ..)`: in place for a key that is there. A peer that is an array or an object is a
    fresh reference, which no earlier key equals. -/
def setLatest (d : DaemonPeer) : List DaemonPeer → List DaemonPeer
  | [] => [d]
  | e :: es => if d.peer.isPrimitive ∧ e.peer = d.peer then d :: es else e :: setLatest d es

/-- The state a message carries: `to` on a transition, `status` on a snapshot line. -/
def evtState (evt : Value) : Except Exn Value := do
  let msg ← prop evt (js "msg")
  if msg = .str (js "state change") then prop evt (js "to")
  else if msg = .str (js "peer") then prop evt (js "status")
  else pure .undefined

def handshakeAgeOf (age : Value) : Except Exn (Option JsString) :=
  if age.truthy then (stringOf age).map some else pure none

/-- One turn of the loop, after the line has been parsed. -/
def replayMessage (latest : List DaemonPeer) (evt : Value) : Except Exn (List DaemonPeer) := do
  let peer ← prop evt (js "peer")
  if peer.truthy then
    let state ← evtState evt
    if state.truthy then
      let stateText ← stringOf state
      let endpoint ← prop evt (js "endpoint") >>= stringOrEmpty
      let handshakeAge ← prop evt (js "handshake_age") >>= handshakeAgeOf
      pure (setLatest ⟨peer, stateText, endpoint, handshakeAge⟩ latest)
    else pure latest
  else pure latest

def replayLine (E : Engine) (latest : List DaemonPeer) (line : JsString) : Except Exn (List DaemonPeer) :=
  if trim line = [] then pure latest
  else
    match journalMessage E line with
    | none => pure latest
    | some evt => replayMessage latest evt

/-- `readDaemon`, on what `journalctl` printed (nothing, if it could not be run). -/
def readDaemon (E : Engine) (out : JsString) : Except Exn (List DaemonPeer) :=
  (splitLines out).foldlM (replayLine E) []

/-- The state of a peer in the roster. -/
def rosterState (roster : List DaemonPeer) (peer : JsString) : Option JsString :=
  (roster.find? fun d => d.peer = .str peer).map DaemonPeer.state

theorem rosterState_setLatest (d : DaemonPeer) (label : JsString) (hd : d.peer = .str label)
    (roster : List DaemonPeer) (peer : JsString) :
    rosterState (setLatest d roster) peer = if peer = label then some d.state else rosterState roster peer := by
  unfold rosterState
  induction roster with
  | nil =>
      by_cases h : peer = label
      · simp [setLatest, hd, h]
      · simp [setLatest, hd, h, Ne.symm h]
  | cons e es ih =>
      rw [setLatest, hd]
      by_cases he : e.peer = .str label
      · rw [if_pos ⟨rfl, he⟩, List.find?_cons, List.find?_cons, hd, he]
        by_cases h : peer = label
        · simp [h]
        · simp [h, Ne.symm h]
      · rw [if_neg fun h => he h.2, List.find?_cons, List.find?_cons]
        by_cases hp : e.peer = .str peer
        · have hne : peer ≠ label := fun h => he (h ▸ hp)
          simp [hp, hne]
        · simp only [hp, decide_false]
          exact ih

end Island
end VpnPi
