import LiveTree.Double.Width
import LiveTree.Text
import LiveTree.Value.Basic

/-!
Values as CBOR: definite lengths with the shortest header, and every number as the narrowest float
that keeps all its bits.
-/

namespace LiveTree.Cbor

/-- The first byte of an item and its argument, in as few bytes as it needs. -/
def writeHead (major argument : Nat) : Bytes :=
  let first (info : Nat) := UInt8.ofNat (32 * major + info)
  if argument < 24 then [first argument]
  else if argument < Nat.pow 2 8 then first 24 :: Bytes.ofNat 1 argument
  else if argument < Nat.pow 2 16 then first 25 :: Bytes.ofNat 2 argument
  else if argument < Nat.pow 2 32 then first 26 :: Bytes.ofNat 4 argument
  else first 27 :: Bytes.ofNat 8 argument

def writeNumber (d : Double) : Bytes :=
  match Double.half.narrow? d with
  | some pattern => 0xf9 :: Bytes.ofNat 2 pattern
  | none => match Double.single.narrow? d with
    | some pattern => 0xfa :: Bytes.ofNat 4 pattern
    | none => 0xfb :: Bytes.ofNat 8 d.bits.toNat

def writeText (s : String) : Bytes :=
  let bs := Bytes.ofText s
  writeHead 3 bs.length ++ bs

mutual

def write : Value → Bytes
  | .null => [0xf6]
  | .bool false => [0xf4]
  | .bool true => [0xf5]
  | .number n => writeNumber n
  | .text s => writeText s
  | .array items => writeHead 4 items.length ++ writeItems items
  | .object pairs => writeHead 5 pairs.length ++ writePairs pairs

def writeItems : List Value → Bytes
  | [] => []
  | v :: rest => write v ++ writeItems rest

def writePairs : List (String × Value) → Bytes
  | [] => []
  | (k, v) :: rest => writeText k ++ (write v ++ writePairs rest)

end

end LiveTree.Cbor

namespace LiveTree.Value

def toCbor (v : Value) : Bytes := Cbor.write v

end LiveTree.Value
