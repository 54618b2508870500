import LiveTree.Decimal.Shortest

/-!
How a numeral is written: by position or with an exponent, and what marks a whole number.
-/

namespace LiveTree.Decimal

/-- The choices of a written form. `positional` is asked for the exponent that the numeral has with
one digit before the point. -/
structure Layout where
  positional : Int → Bool
  wholeMark : List Char
  tie : Tie

def zeros (n : Nat) : List Char := List.replicate n '0'

def text (n : Nat) : List Char := Nat.toDigits 10 n

def writePositional (layout : Layout) (d : Decimal) : List Char :=
  let ds := text d.digits
  let point := ds.length + d.exponent
  if 0 ≤ d.exponent then ds ++ zeros d.exponent.toNat ++ layout.wholeMark
  else if 0 < point then ds.take point.toNat ++ '.' :: ds.drop point.toNat
  else '0' :: '.' :: (zeros (-point).toNat ++ ds)

/-- A point stands only before further digits, and the exponent always has its sign. -/
def writeScientific (d : Decimal) : List Char :=
  let ds := text d.digits
  let power := ds.length + d.exponent - 1
  let fraction := if ds.length ≤ 1 then [] else '.' :: ds.drop 1
  ds.take 1 ++ fraction ++ 'e' :: (if power < 0 then '-' else '+') :: text power.natAbs

def write (layout : Layout) (d : Decimal) : List Char :=
  if layout.positional ((text d.digits).length + d.exponent - 1) then writePositional layout d
  else writeScientific d

end LiveTree.Decimal

namespace LiveTree.Double

def write (layout : Decimal.Layout) (d : Double) : List Char :=
  (if d.negative then ['-'] else [])
    ++ Decimal.write layout (Decimal.shortest layout.tie d.magnitude)

end LiveTree.Double
