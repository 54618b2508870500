/-!
Texts and the numbers and bytes they stand for: whole numbers from digits, text in quotation marks as
diagnostics show it, and byte strings with their text, their big-endian number and their hexadecimal.
-/

namespace LiveTree

namespace Text

def ofDigits (ds : List Char) : Nat := ds.foldl (fun n d => 10 * n + (d.toNat - '0'.toNat)) 0

def natural? (cs : List Char) : Option Nat :=
  if cs.isEmpty || !cs.all Char.isDigit then none else some (ofDigits cs)

/-- A position in a list: digits after an optional plus sign, below `2 ^ 64`. -/
def index? (s : String) : Option Nat :=
  let digits := match s.toList with
    | '+' :: cs => cs
    | cs => cs
  (natural? digits).filter (· < Nat.pow 2 64)

def hexDigit? (c : Char) : Option Nat :=
  if '0' ≤ c ∧ c ≤ '9' then some (c.toNat - 48)
  else if 'a' ≤ c ∧ c ≤ 'f' then some (c.toNat - 87)
  else if 'A' ≤ c ∧ c ≤ 'F' then some (c.toNat - 55)
  else none

/-- The control characters are the first 32 code points, and those from 127 to 159. -/
def isControl (c : Char) : Bool := c.toNat < 32 || (127 ≤ c.toNat && c.toNat < 160)

def quotedChar (c : Char) : List Char :=
  if c = '"' then ['\\', '"']
  else if c = '\\' then ['\\', '\\']
  else if c = '\x00' then ['\\', '0']
  else if c = '\t' then ['\\', 't']
  else if c = '\r' then ['\\', 'r']
  else if c = '\n' then ['\\', 'n']
  else if isControl c then ['\\', 'u', '\x7b'] ++ Nat.toDigits 16 c.toNat ++ ['\x7d']
  else [c]

def quoted (s : String) : String :=
  String.ofList ('"' :: s.toList.flatMap quotedChar ++ ['"'])

end Text

abbrev Bytes := List UInt8

namespace Bytes

/-- The number that bytes stand for, the first one the heaviest. -/
def toNat (bs : Bytes) : Nat := bs.foldl (fun n b => n * 256 + b.toNat) 0

def ofNat (count n : Nat) : Bytes :=
  (List.range count).reverse.map fun i => UInt8.ofNat (n / Nat.pow 256 i)

theorem length_ofNat (count n : Nat) : (ofNat count n).length = count := by
  simp [ofNat]

def ofText (s : String) : Bytes := s.toUTF8.data.toList

def toText? (bs : Bytes) : Option String := String.fromUTF8? ⟨bs.toArray⟩

def hexDigits (b : UInt8) : List Char :=
  [Nat.digitChar (b.toNat / 16), Nat.digitChar (b.toNat % 16)]

def toHex (bs : Bytes) : List Char := bs.flatMap hexDigits

def ofHex? : List Char → Option Bytes
  | [] => some []
  | high :: low :: rest => do
    let h ← Text.hexDigit? high
    let l ← Text.hexDigit? low
    let bs ← ofHex? rest
    return UInt8.ofNat (16 * h + l) :: bs
  | [_] => none

end Bytes

end LiveTree
