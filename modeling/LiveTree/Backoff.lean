import LiveTree.Clock
import LiveTree.Double.Basic

/-!
How long to wait before the next attempt to connect: a delay that grows by a factor with every
failure, up to a limit. The arithmetic is that of binary64 numbers of seconds.
-/

namespace LiveTree

structure Backoff where
  initial : Nanos := Nanos.ofMillis 1000
  limit : Nanos := Nanos.ofMillis 30000
  multiplier : Double := Double.ofNat 2
  /-- The share of the jitter that an attempt takes, from zero to one. Without a draw there is no
  jitter. -/
  draw : Option (Nat → Double) := none

namespace Backoff

def nanosInSecond : Nat := 1000000000

def seconds (t : Nanos) : Double :=
  (Double.ofNat (t / nanosInSecond)).addPositive
    (Double.ofRatio false (t % nanosInSecond) nanosInSecond)

def ofSeconds (d : Double) : Nanos := Double.roundRatio (d.units * nanosInSecond) Double.unitsInOne

def maxExponent : Nat := Nat.pow 2 31 - 1

/-- The seconds to wait after so many failures, before jitter. What is not a number gives way to the
limit. -/
def growth (b : Backoff) (attempt : Nat) : Double :=
  ((seconds b.initial).mul (b.multiplier.power (min attempt maxExponent))).minimum (seconds b.limit)

def jittered (delay share : Double) : Double :=
  delay.addPositive ((delay.mul (Double.ofRatio false 1 4)).mul share)

/-- The delay after so many failures. With a factor below zero it can be negative: then there is
none. -/
def delay? (b : Backoff) (attempt : Nat) : Option Nanos :=
  let delay := b.growth attempt
  if delay.negative && !delay.isZero then none
  else match b.draw with
    | none => some (ofSeconds delay)
    | some draw => some (ofSeconds (jittered delay (draw attempt)))

end Backoff

end LiveTree
