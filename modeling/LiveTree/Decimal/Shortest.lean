import LiveTree.Decimal.Basic

/-!
The shortest numeral that reads back as a given binary64 number. For one digit, two digits and so
on the number's two neighbours on the decimal grid are tried; the first grid with a neighbour that
reads back wins, and of two such neighbours the nearer. The exact expansion stands at the end of
the search, so the answer always reads back.
-/

namespace LiveTree.Decimal

/-- Which neighbour is taken when the number lies half-way between two. -/
inductive Tie where
  | even
  | up
deriving DecidableEq

def Tie.goesUp : Tie → Nat → Bool
  | .even, lower => lower % 2 == 1
  | .up, _ => true

def length (n : Nat) : Nat := (Nat.toDigits 10 n).length

/-- The `k` with `10 ^ (k - 1) ≤ units * 2 ^ -1074 < 10 ^ k`, for a positive count of units. -/
def scale (units : Nat) : Int :=
  length (units * Nat.pow 10 reach / Double.unitsInOne) - (reach : Int)

/-- The neighbours of a number on the grid of the multiples of `10 ^ exponent`: first the one that
is to be preferred, then the other. -/
def neighbours (tie : Tie) (units : Nat) (exponent : Int) : List Decimal :=
  let num := units * Nat.pow 10 (-exponent).toNat
  let den := Double.unitsInOne * Nat.pow 10 exponent.toNat
  let lower := num / den
  let twice := 2 * (num % den)
  let up := decide (den < twice) || (decide (den = twice) && tie.goesUp lower)
  if up then [⟨lower + 1, exponent⟩, ⟨lower, exponent⟩]
  else [⟨lower, exponent⟩, ⟨lower + 1, exponent⟩]

def withLength (tie : Tie) (magnitude count : Nat) : Option Decimal :=
  let units := Double.unitsOf magnitude
  (neighbours tie units (scale units - count)).find? fun d => d.nearest = magnitude

/-- The number itself, digit for digit: a unit is `5 ^ 1074` times a power of ten. -/
def exact (magnitude : Nat) : Decimal := ⟨Double.unitsOf magnitude * Nat.pow 5 1074, -1074⟩

/-- The shortest numeral of a finite magnitude. Seventeen digits always suffice. -/
def shortest (tie : Tie) (magnitude : Nat) : Decimal :=
  if magnitude = 0 then ⟨0, 0⟩
  else
    let found := (List.range 17).findSome? fun n => withLength tie magnitude (n + 1)
    strip 17 (found.getD (exact magnitude))

end LiveTree.Decimal
