/-!
Binary64 numbers, kept as bit patterns. Every finite one is a whole multiple of the least positive
one, so exact statements about them are statements about natural numbers: `units` counts the
multiples, and `nearestMagnitude` goes back, to nearest with ties to even. Nothing here depends on
the machine's own floating point.
-/

namespace LiveTree

/-- A binary64 number: from the top, one sign bit, eleven exponent bits and 52 fraction bits. -/
structure Double where
  bits : UInt64
deriving DecidableEq, Inhabited

namespace Double

def negative (d : Double) : Bool := decide (Nat.pow 2 63 ≤ d.bits.toNat)

/-- The pattern without its sign bit. Patterns of finite numbers are in the order of their sizes. -/
def magnitude (d : Double) : Nat := d.bits.toNat % Nat.pow 2 63

def ofParts (negative : Bool) (magnitude : Nat) : Double :=
  ⟨UInt64.ofNat ((if negative then Nat.pow 2 63 else 0) + magnitude)⟩

def infiniteMagnitude : Nat := 2047 * Nat.pow 2 52

def isFinite (d : Double) : Bool := decide (d.magnitude < infiniteMagnitude)

def isNaN (d : Double) : Bool := decide (infiniteMagnitude < d.magnitude)

def isZero (d : Double) : Bool := decide (d.magnitude = 0)

def zero : Double := ⟨0⟩

def infinity (negative : Bool) : Double := ofParts negative infiniteMagnitude

def nan : Double := ⟨0x7ff8000000000000⟩

/-- How many units of `2 ^ -1074` a finite magnitude stands for. One past the last finite magnitude
the formula goes on to `2 ^ 1024`, which is what rounding compares with there. -/
def unitsOf (magnitude : Nat) : Nat :=
  if magnitude < Nat.pow 2 52 then magnitude
  else (Nat.pow 2 52 + magnitude % Nat.pow 2 52) * Nat.pow 2 (magnitude / Nat.pow 2 52 - 1)

def units (d : Double) : Nat := unitsOf d.magnitude

def unitsInOne : Nat := Nat.pow 2 1074

/-- A quotient to the nearest natural number; a half goes to the even neighbour. -/
def roundRatio (num den : Nat) : Nat :=
  let quotient := num / den
  let twice := 2 * (num % den)
  if twice < den then quotient
  else if den < twice then quotient + 1
  else quotient + quotient % 2

/-- The magnitude nearest to `num / den` units, ties to even, infinite when too large. A fraction
that rounds up to `2 ^ 53` carries into the exponent by itself. -/
def nearestMagnitude (num den : Nat) : Nat :=
  let shift := (num / den).log2 - 52
  min infiniteMagnitude (shift * Nat.pow 2 52 + roundRatio num (den * Nat.pow 2 shift))

def ofRatio (negative : Bool) (num den : Nat) : Double :=
  ofParts negative (nearestMagnitude (num * unitsInOne) den)

def ofNat (n : Nat) : Double := ofRatio false n 1

def ofInt (n : Int) : Double := ofRatio (decide (n < 0)) n.natAbs 1

def isWhole (d : Double) : Bool := d.isFinite && decide (d.units % unitsInOne = 0)

def wholePart (d : Double) : Nat := d.units / unitsInOne

/-- Equality of numbers: zero equals its negative, and what is not a number equals nothing. -/
def sameNumber (a b : Double) : Bool :=
  !a.isNaN && !b.isNaN && (a == b || (a.isZero && b.isZero))

def below (a b : Double) : Bool :=
  if a.isNaN || b.isNaN then false
  else match a.negative, b.negative with
    | false, false => decide (a.magnitude < b.magnitude)
    | true, true => decide (b.magnitude < a.magnitude)
    | true, false => !(a.isZero && b.isZero)
    | false, true => false

def minimum (a b : Double) : Double :=
  if a.isNaN then b else if b.isNaN then a else if b.below a then b else a

def mul (a b : Double) : Double :=
  let sign := a.negative != b.negative
  if a.isNaN || b.isNaN then nan
  else if a.isFinite && b.isFinite then
    ofParts sign (nearestMagnitude (a.units * b.units) unitsInOne)
  else if a.isZero || b.isZero then nan
  else infinity sign

def div (a b : Double) : Double :=
  let sign := a.negative != b.negative
  if a.isNaN || b.isNaN then nan
  else if a.isFinite && b.isFinite then
    if !b.isZero then ofParts sign (nearestMagnitude (a.units * unitsInOne) b.units)
    else if a.isZero then nan
    else infinity sign
  else if b.isFinite then infinity sign
  else if a.isFinite then ofParts sign 0
  else nan

/-- The sum of two numbers that are finite and not negative. -/
def addPositive (a b : Double) : Double := ofParts false (nearestMagnitude (a.units + b.units) 1)

/-- The `n`-th power by squaring: one rounded product for each digit one of `n` and one for each
step to the next digit. -/
def powerFrom (product base : Double) : Nat → Nat → Double
  | 0, _ => product
  | fuel + 1, n =>
    let product := if n % 2 = 1 then product.mul base else product
    if n / 2 = 0 then product else powerFrom product (base.mul base) fuel (n / 2)

def power (base : Double) (n : Nat) : Double := powerFrom (ofNat 1) base (n.log2 + 1) n

end Double

end LiveTree
