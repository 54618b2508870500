import LiveTree.Double.Basic

/-!
Decimal numerals and the binary64 number nearest to each.
-/

namespace LiveTree

/-- The number `digits * 10 ^ exponent`. -/
structure Decimal where
  digits : Nat
  exponent : Int
deriving DecidableEq, Inhabited

namespace Decimal

def numerator (d : Decimal) : Nat := d.digits * Nat.pow 10 d.exponent.toNat

def denominator (d : Decimal) : Nat := Nat.pow 10 (-d.exponent).toNat

/-- Beyond this power of ten a number is infinite, and below its inverse it is zero. -/
def reach : Nat := 400

/-- The magnitude nearest to the numeral. Far outside the range of finite numbers the answer is
known without the power of ten. -/
def nearest (d : Decimal) : Nat :=
  if d.digits = 0 then 0
  else if (reach : Int) < d.exponent then Double.infiniteMagnitude
  else if d.exponent + (d.digits.log2 + 1) < -(reach : Int) then 0
  else Double.nearestMagnitude (d.numerator * Double.unitsInOne) d.denominator

def strip : Nat → Decimal → Decimal
  | 0, d => d
  | fuel + 1, d =>
    if d.digits ≠ 0 ∧ d.digits % 10 = 0 then strip fuel ⟨d.digits / 10, d.exponent + 1⟩ else d

end Decimal

end LiveTree
