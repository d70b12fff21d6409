import VpnPi.Js.Number

/-!
# `Selfheal.Time` — the Go clock (`time`)

A `Time` counts nanoseconds from the zero time, and carries a monotonic reading when it came from `time.Now`
(or from `Add` on such a time). Two times that both carry one are compared by it, others by the wall clock;
`sub` saturates at the ends of the 64-bit `Duration`.

Names nothing of the daemon.
-/

namespace VpnPi
namespace Selfheal

open Js

/-- Nanoseconds. -/
abbrev Duration := Int

def maxDuration : Duration := 9223372036854775807

def minDuration : Duration := -9223372036854775808

def second : Duration := 1000000000

structure Time where
  wall : Int
  mono : Option Int
  deriving DecidableEq

namespace Time

/-- `time.Time{}`. -/
def zero : Time := ⟨0, none⟩

def isZero (t : Time) : Bool := t.wall = 0

/-- The distance between two readings, and whether the first is the later one, go by the monotonic clock if
    both have it. -/
def readings (t u : Time) : Int × Int :=
  match t.mono, u.mono with
  | some a, some b => (a, b)
  | _, _ => (t.wall, u.wall)

def sub (t u : Time) : Duration :=
  max minDuration (min maxDuration ((readings t u).1 - (readings t u).2))

def add (t : Time) (d : Duration) : Time := ⟨t.wall + d, t.mono.map (· + d)⟩

def after (t u : Time) : Bool := (readings t u).2 < (readings t u).1

end Time

/-- What `time.Now` reads. -/
structure Reading where
  wall : Int
  mono : Int

def Reading.time (r : Reading) : Time := ⟨r.wall, some r.mono⟩

theorem after_add_neg {r s : Reading} {w : Duration} :
    r.time.after (s.time.add (-w)) = decide (s.mono - w < r.mono) := by
  show decide (s.mono + -w < r.mono) = _
  rw [← Int.sub_eq_add_neg]

/-! ## Rendering a duration -/

/-- `Round(time.Second)`: halves go away from zero, and what overflows stays at the end of the range. -/
def Duration.roundSecond (d : Duration) : Duration :=
  if d < 0 then
    let r := (-d) % second
    if r + r < second then d + r else max minDuration (d - second + r)
  else
    let r := d % second
    if r + r < second then d - r else min maxDuration (d + second - r)

/-- The fraction of a second, without trailing zeros. -/
def fractionText (nanos : Nat) : JsString :=
  if nanos = 0 then []
  else
    let digits := natText nanos
    let padded := List.replicate (9 - digits.length) 0x30 ++ digits
    0x2e :: (padded.reverse.dropWhile (· = 0x30)).reverse

/-- `Duration.String`, of a duration that is zero or at least a second. -/
def Duration.text (d : Duration) : JsString :=
  let nanos := d.natAbs
  let secs := nanos / 1000000000
  (if d < 0 then js "-" else [])
    ++ (if 3600 ≤ secs then natText (secs / 3600) ++ js "h" else [])
    ++ (if 60 ≤ secs then natText (secs / 60 % 60) ++ js "m" else [])
    ++ natText (secs % 60) ++ fractionText (nanos % 1000000000) ++ js "s"

example : Duration.text (Duration.roundSecond 89600000000) = js "1m30s" := by decide +kernel

end Selfheal
end VpnPi
