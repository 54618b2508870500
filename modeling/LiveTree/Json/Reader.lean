import LiveTree.Json.Numeral
import LiveTree.Value.Basic

/-!
Strict JSON text as values. Each reader takes the characters from its place on and gives the rest
after what it has read. A container is read with one level less for its members, so the depth
bounds the recursion; the loops over members run at most once per character.
-/

namespace LiveTree.Json

def isBlank (c : Char) : Bool := c = ' ' || c = '\t' || c = '\n' || c = '\r'

def skipBlank (cs : List Char) : List Char := cs.dropWhile isBlank

def readUnit : List Char → Option (Nat × List Char)
  | a :: b :: c :: d :: rest => do
    let high := (← Text.hexDigit? a) * 16 + (← Text.hexDigit? b)
    let low := (← Text.hexDigit? c) * 16 + (← Text.hexDigit? d)
    return (high * 256 + low, rest)
  | _ => none

/-- The character after `\u`. A high surrogate needs its low partner in a second escape. -/
def readUnicode (cs : List Char) : Option (Char × List Char) := do
  let (high, rest) ← readUnit cs
  if 0xd800 ≤ high ∧ high < 0xdc00 then
    match rest with
    | '\\' :: 'u' :: rest => do
      let (low, rest) ← readUnit rest
      if 0xdc00 ≤ low ∧ low < 0xe000 then
        some (Char.ofNat (0x10000 + (high - 0xd800) * 1024 + (low - 0xdc00)), rest)
      else none
    | _ => none
  else if 0xdc00 ≤ high ∧ high < 0xe000 then none
  else some (Char.ofNat high, rest)

def readEscape : List Char → Option (Char × List Char)
  | '"' :: rest => some ('"', rest)
  | '\\' :: rest => some ('\\', rest)
  | '/' :: rest => some ('/', rest)
  | 'b' :: rest => some ('\x08', rest)
  | 'f' :: rest => some ('\x0c', rest)
  | 'n' :: rest => some ('\n', rest)
  | 'r' :: rest => some ('\r', rest)
  | 't' :: rest => some ('\t', rest)
  | 'u' :: rest => readUnicode rest
  | _ => none

/-- Text up to its closing quote, for a text of fewer than `fuel` characters. -/
def readText : Nat → List Char → Option (List Char × List Char)
  | 0, _ => none
  | _ + 1, [] => none
  | _ + 1, '"' :: rest => some ([], rest)
  | fuel + 1, '\\' :: rest => do
    let (c, rest) ← readEscape rest
    let (cs, rest) ← readText fuel rest
    return (c :: cs, rest)
  | fuel + 1, c :: rest =>
    if c.toNat < 32 then none
    else do
      let (cs, rest) ← readText fuel rest
      return (c :: cs, rest)

section Members

variable (read : List Char → Option (Value × List Char))

def readItems : Nat → List Char → Option (List Value × List Char)
  | 0, _ => none
  | fuel + 1, cs => do
    let (v, rest) ← read cs
    match skipBlank rest with
    | ']' :: rest => some ([v], rest)
    | ',' :: rest => do
      let (vs, rest) ← readItems fuel rest
      return (v :: vs, rest)
    | _ => none

def readPair (cs : List Char) : Option ((String × Value) × List Char) :=
  match skipBlank cs with
  | '"' :: rest => do
    let (key, rest) ← readText (rest.length + 1) rest
    match skipBlank rest with
    | ':' :: rest => do
      let (v, rest) ← read rest
      return ((String.ofList key, v), rest)
    | _ => none
  | _ => none

def readPairs : Nat → List Char → Option (List (String × Value) × List Char)
  | 0, _ => none
  | fuel + 1, cs => do
    let (p, rest) ← readPair read cs
    match skipBlank rest with
    | '\x7d' :: rest => some ([p], rest)
    | ',' :: rest => do
      let (ps, rest) ← readPairs fuel rest
      return (p :: ps, rest)
    | _ => none

def readArray (cs : List Char) : Option (Value × List Char) :=
  match skipBlank cs with
  | ']' :: rest => some (.array [], rest)
  | rest => (readItems read (rest.length + 1) rest).map fun (vs, rest) => (.array vs, rest)

def readObject (cs : List Char) : Option (Value × List Char) :=
  match skipBlank cs with
  | '\x7d' :: rest => some (.object [], rest)
  | rest =>
    (readPairs read (rest.length + 1) rest).map fun (ps, rest) => (.object (Fields.settle ps), rest)

end Members

def readScalar : List Char → Option (Value × List Char)
  | 'n' :: 'u' :: 'l' :: 'l' :: rest => some (.null, rest)
  | 't' :: 'r' :: 'u' :: 'e' :: rest => some (.bool true, rest)
  | 'f' :: 'a' :: 'l' :: 's' :: 'e' :: rest => some (.bool false, rest)
  | '"' :: rest =>
    (readText (rest.length + 1) rest).map fun (s, rest) => (.text (String.ofList s), rest)
  | cs => (readNumber cs).map fun (n, rest) => (.number n, rest)

/-- A value with at most `depth` containers inside one another. -/
def readValue : Nat → List Char → Option (Value × List Char)
  | depth, cs =>
    match skipBlank cs with
    | '[' :: rest =>
      match depth with
      | 0 => none
      | depth + 1 => readArray (readValue depth) rest
    | '\x7b' :: rest =>
      match depth with
      | 0 => none
      | depth + 1 => readObject (readValue depth) rest
    | rest => readScalar rest

def maxDepth : Nat := 127

def read? (s : String) : Option Value := do
  let (v, rest) ← readValue maxDepth s.toList
  if (skipBlank rest).isEmpty then some v else none

end LiveTree.Json
