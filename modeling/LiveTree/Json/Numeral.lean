import LiveTree.Decimal.Basic
import LiveTree.Text

/-!
The numerals of strict JSON text, and the binary64 number that each is read as. The digits are taken
into a significand of 64 bits as long as they fit. The significand is rounded to binary64, and then
multiplied or divided by a rounded power of ten. With two roundings or more, the number that comes out
need not be the one nearest to the numeral.
-/

namespace LiveTree.Json

structure Numeral where
  whole : List Char
  fraction : List Char
  power : Int
deriving DecidableEq

def readDigits (cs : List Char) : Option (List Char × List Char) :=
  let digits := cs.takeWhile Char.isDigit
  if digits.isEmpty then none else some (digits, cs.dropWhile Char.isDigit)

/-- The digits before the point. A leading zero stands alone. -/
def readWhole : List Char → Option (List Char × List Char)
  | '0' :: rest => some (['0'], rest)
  | cs => readDigits cs

def readFraction : List Char → Option (List Char × List Char)
  | '.' :: rest => readDigits rest
  | cs => some ([], cs)

def readSignedDigits : List Char → Option (Int × List Char)
  | '-' :: rest => (readDigits rest).map fun (ds, rest) => (-(Text.ofDigits ds : Int), rest)
  | '+' :: rest => (readDigits rest).map fun (ds, rest) => ((Text.ofDigits ds : Int), rest)
  | cs => (readDigits cs).map fun (ds, rest) => ((Text.ofDigits ds : Int), rest)

def readPower : List Char → Option (Int × List Char)
  | 'e' :: rest => readSignedDigits rest
  | 'E' :: rest => readSignedDigits rest
  | cs => some (0, cs)

def readNumeral (cs : List Char) : Option (Numeral × List Char) := do
  let (whole, rest) ← readWhole cs
  let (fraction, rest) ← readFraction rest
  let (power, rest) ← readPower rest
  return (⟨whole, fraction, power⟩, rest)

/-- Takes digits into a number up to the first one with which it would need more than 64 bits. The
second part is what is left of them. -/
def takeDigits : Nat → List Char → Nat × List Char
  | n, [] => (n, [])
  | n, c :: cs =>
    let next := 10 * n + (c.toNat - '0'.toNat)
    if next < Nat.pow 2 64 then takeDigits next cs else (n, c :: cs)

namespace Numeral

/-- The numeral with a significand of 64 bits. Digits that do not fit count as zeros before the
point, and not at all after it. -/
def clipped (n : Numeral) : Decimal :=
  let (significand, zeros) := takeDigits 0 n.whole
  let (significand, dropped) := takeDigits significand n.fraction
  ⟨significand, n.power + zeros.length - (n.fraction.length - dropped.length : Nat)⟩

def maxTens : Nat := 308

def tens (k : Nat) : Double := Double.ofNat (Nat.pow 10 k)

/-- Divides by the greatest power of ten, as often as told or until nothing is left. -/
def divideByMax : Nat → Double → Double
  | 0, d => d
  | k + 1, d => if d.isZero then d else divideByMax k (d.div (tens maxTens))

def shift (d : Double) (power : Int) : Double :=
  let k := power.natAbs
  if power < 0 then
    let steps := (k - 1) / maxTens
    (divideByMax steps d).div (tens (k - maxTens * steps))
  else if k ≤ maxTens then d.mul (tens k)
  else if d.isZero then d
  else Double.infinity false

def rounded (n : Numeral) : Double := shift (Double.ofNat n.clipped.digits) n.clipped.exponent

end Numeral

/-- A number without its sign. One that would be infinite is refused. -/
def readMagnitude (cs : List Char) : Option (Nat × List Char) := do
  let (numeral, rest) ← readNumeral cs
  if numeral.rounded.isFinite then some (numeral.rounded.magnitude, rest) else none

def readNumber : List Char → Option (Double × List Char)
  | '-' :: rest => (readMagnitude rest).map fun (m, rest) => (Double.ofParts true m, rest)
  | cs => (readMagnitude cs).map fun (m, rest) => (Double.ofParts false m, rest)

end LiveTree.Json
