/-!
Time as sessions see it: nanoseconds since the start for timers, and the wall clock, in
milliseconds, for everything that a server hears about.
-/

namespace LiveTree

abbrev Nanos := Nat

namespace Nanos

def ofMillis (ms : Nat) : Nanos := ms * 1000000

def toMillis (t : Nanos) : Nat := t / 1000000

end Nanos

structure Clock where
  /-- What the wall clock showed at the start, in milliseconds. -/
  wallAtStart : Nat
  elapsed : Nanos
deriving DecidableEq, Repr

namespace Clock

def lastMilli : Nat := Nat.pow 2 64 - 1

def startingAt (wall : Nat) : Clock := ⟨wall, 0⟩

def wall (c : Clock) : Nat := c.wallAtStart + Nanos.toMillis c.elapsed

/-- True when the wall clock has run past its last millisecond. It does not come back from there. -/
def isOver (c : Clock) : Bool := decide (lastMilli < c.wall)

def advance (c : Clock) (t : Nanos) : Clock := { c with elapsed := c.elapsed + t }

def moveTo (c : Clock) (time : Nanos) : Clock := { c with elapsed := max c.elapsed time }

end Clock

end LiveTree
