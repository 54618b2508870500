import LiveTree.Decimal.Layout
import LiveTree.Value.Basic

/-!
Values as compact JSON text. Whole numbers that binary64 counts one by one are written as integers;
what is not finite is written as null.
-/

namespace LiveTree.Json

/-- The numeral has a point or an exponent. It is positional while the exponent is between -5
and 15. -/
def layout : Decimal.Layout := ⟨fun power => decide (-5 ≤ power ∧ power ≤ 15), ['.', '0'], .even⟩

/-- The largest number below which no whole number is skipped. -/
def maxExact : Nat := Nat.pow 2 53 - 1

def writeNumber (d : Double) : List Char :=
  if d.isWhole && decide (d.wholePart ≤ maxExact) then
    (if d.negative && !d.isZero then ['-'] else []) ++ Decimal.text d.wholePart
  else if d.isFinite then d.write layout
  else ['n', 'u', 'l', 'l']

def escape (c : Char) : List Char :=
  if c = '"' then ['\\', '"']
  else if c = '\\' then ['\\', '\\']
  else if c = '\x08' then ['\\', 'b']
  else if c = '\x0c' then ['\\', 'f']
  else if c = '\n' then ['\\', 'n']
  else if c = '\r' then ['\\', 'r']
  else if c = '\t' then ['\\', 't']
  else if c.toNat < 32 then
    ['\\', 'u', '0', '0', Nat.digitChar (c.toNat / 16), Nat.digitChar (c.toNat % 16)]
  else [c]

def writeText (s : String) : List Char := '"' :: s.toList.flatMap escape ++ ['"']

def separated : List (List Char) → List Char
  | [] => []
  | [part] => part
  | part :: rest => part ++ ',' :: separated rest

def writeField (field : String × List Char) : List Char := writeText field.1 ++ ':' :: field.2

mutual

def write : Value → List Char
  | .null => ['n', 'u', 'l', 'l']
  | .bool true => ['t', 'r', 'u', 'e']
  | .bool false => ['f', 'a', 'l', 's', 'e']
  | .number n => writeNumber n
  | .text s => writeText s
  | .array items => '[' :: separated (writeItems items) ++ [']']
  | .object pairs =>
    '\x7b' :: separated ((Fields.settle (writePairs pairs)).map writeField) ++ ['\x7d']

def writeItems : List Value → List (List Char)
  | [] => []
  | v :: rest => write v :: writeItems rest

def writePairs : List (String × Value) → List (String × List Char)
  | [] => []
  | (k, v) :: rest => (k, write v) :: writePairs rest

end

end LiveTree.Json

namespace LiveTree.Value

def toJson (v : Value) : String := String.ofList (Json.write v)

end LiveTree.Value
