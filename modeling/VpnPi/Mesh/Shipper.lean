import Mathlib.Data.List.Sort

/-!
# `Mesh.Shipper` — the node's half of the mesh (`app/models.py`, `app/ids_shipper.py`)

A node reads its feed, leaves out the events it has shipped, and posts the others to the hub, oldest first. A
number is consumed when the hub acknowledges a post; the counter and the shipped ids go to the state file at the end
of the cycle.
-/

namespace VpnPi
namespace Mesh

/-! ## `app/models.py` -/

inductive IdsSource where
  | usb | login | auth | reboot
  deriving DecidableEq

inductive IdsSeverity where
  | info | warn | crit
  deriving DecidableEq

/-- A `datetime`: microseconds on the clock, and its offset from UTC unless it is naive. -/
structure DateTime where
  wall   : Int
  offset : Option Int
  deriving DecidableEq

/-- What two aware, or two naive, times are compared by. -/
def DateTime.instant (t : DateTime) : Int := t.wall - t.offset.getD 0

def DateTime.isAware (t : DateTime) : Bool := t.offset.isSome

structure IdsEvent where
  id       : String
  at_      : DateTime
  node     : Option String
  source   : IdsSource
  severity : IdsSeverity
  subject  : String
  message  : String
  deriving DecidableEq

/-! ## `Shipper` -/

/-- The counter, and the ids of what was shipped, which are also the contents of the state file. `_seen` is the set
    of these ids. -/
structure Shipper where
  seq   : Int
  order : List String
  deriving DecidableEq

/-- `_load_state`, on what the file holds, if it is there. -/
def Shipper.load (file : Option Shipper) : Shipper := file.getD ⟨0, []⟩

/-- `events.sort(key=lambda e: e.at)`, which raises when it meets a naive and an aware time. -/
def sortByAt (events : List IdsEvent) : Option (List IdsEvent) :=
  if events.all (·.at_.isAware) ∨ events.all (!·.at_.isAware) then
    some (events.insertionSort fun a b => a.at_.instant ≤ b.at_.instant)
  else none

/-- What a cycle ships of the events that it read. -/
def Shipper.unsent (s : Shipper) (events : List IdsEvent) : Option (List IdsEvent) :=
  sortByAt (events.filter fun e => !s.order.contains e.id)

/-- A post was acknowledged. -/
def Shipper.consume (s : Shipper) (e : IdsEvent) : Shipper := ⟨s.seq + 1, s.order ++ [e.id]⟩

/-- `order[-cap:]`, which for `cap = 0` is all of it. -/
def lastIds (cap : Nat) (order : List String) : List String :=
  if cap = 0 then order else order.drop (order.length - cap)

/-- `_bound_seen`. -/
def Shipper.boundSeen (s : Shipper) (window : Nat) : Shipper :=
  if window * 2 < s.order.length then { s with order := lastIds (window * 2) s.order } else s

end Mesh
end VpnPi
