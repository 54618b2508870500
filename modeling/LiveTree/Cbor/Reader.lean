import LiveTree.Double.Width
import LiveTree.Text
import LiveTree.Value.Basic

/-!
CBOR items, and the values that they stand for. One item is read and what follows it is left alone.
An item is read as a whole before any part of it is turned into a value, so bytes that break the
format are always the first complaint.
-/

namespace LiveTree.Cbor

/-- What the first bytes of an item say. A length is absent when the parts run up to a stop. -/
inductive Head where
  | unsigned (n : Nat)
  | negative (n : Nat)
  | bytes (length : Option Nat)
  | text (length : Option Nat)
  | array (length : Option Nat)
  | map (length : Option Nat)
  | tag (n : Nat)
  | simple (n : Nat)
  | float (n : Double)
  | stop

def readBytes (count : Nat) (bs : Bytes) : Option (Bytes × Bytes) :=
  if count ≤ bs.length then some (bs.take count, bs.drop count) else none

def readNat (count : Nat) (bs : Bytes) : Option (Nat × Bytes) :=
  (readBytes count bs).map fun (front, rest) => (Bytes.toNat front, rest)

def readArgument (info : Nat) (bs : Bytes) : Option (Nat × Bytes) :=
  if info < 24 then some (info, bs)
  else if info = 24 then readNat 1 bs
  else if info = 25 then readNat 2 bs
  else if info = 26 then readNat 4 bs
  else if info = 27 then readNat 8 bs
  else none

def readLength (info : Nat) (bs : Bytes) : Option (Option Nat × Bytes) :=
  if info = 31 then some (none, bs)
  else (readArgument info bs).map fun (n, rest) => (some n, rest)

def readSpecial (info : Nat) (bs : Bytes) : Option (Head × Bytes) :=
  if info = 25 then (readNat 2 bs).map fun (n, rest) => (.float (Double.half.widen n), rest)
  else if info = 26 then (readNat 4 bs).map fun (n, rest) => (.float (Double.single.widen n), rest)
  else if info = 27 then (readNat 8 bs).map fun (n, rest) => (.float ⟨UInt64.ofNat n⟩, rest)
  else if info = 31 then some (.stop, bs)
  else (readArgument info bs).map fun (n, rest) => (.simple n, rest)

def readHead : Bytes → Option (Head × Bytes)
  | [] => none
  | first :: rest =>
    let info := first.toNat % 32
    match first.toNat / 32 with
    | 0 => (readArgument info rest).map fun (n, rest) => (.unsigned n, rest)
    | 1 => (readArgument info rest).map fun (n, rest) => (.negative n, rest)
    | 2 => (readLength info rest).map fun (n, rest) => (.bytes n, rest)
    | 3 => (readLength info rest).map fun (n, rest) => (.text n, rest)
    | 4 => (readLength info rest).map fun (n, rest) => (.array n, rest)
    | 5 => (readLength info rest).map fun (n, rest) => (.map n, rest)
    | 6 => (readArgument info rest).map fun (n, rest) => (.tag n, rest)
    | _ => readSpecial info rest

/-- An item of the format, as far as values care: whole numbers are already numbers, and of a tag
only its presence is kept. -/
inductive Item where
  | null
  | bool (b : Bool)
  | number (n : Double)
  | text (s : String)
  | bytes (bs : Bytes)
  | array (items : List Item)
  | map (pairs : List (Item × Item))
  | tagged (item : Item)

/-- The chunks of a string of open length, up to its stop. Chunks may stand in groups that are open
themselves; `level` counts those. -/
def readChunks (length? : Head → Option (Option Nat)) :
    Nat → Nat → Bytes → Option (List Bytes × Bytes)
  | 0, _, _ => none
  | fuel + 1, level, bs => do
    let (head, rest) ← readHead bs
    match head with
    | .stop =>
      match level with
      | 0 => some ([], rest)
      | level + 1 => readChunks length? fuel level rest
    | head =>
      match ← length? head with
      | none => readChunks length? fuel (level + 1) rest
      | some count => do
        let (chunk, rest) ← readBytes count rest
        let (chunks, rest) ← readChunks length? fuel level rest
        return (chunk :: chunks, rest)

def Head.bytesLength? : Head → Option (Option Nat)
  | .bytes length => some length
  | _ => none

def Head.textLength? : Head → Option (Option Nat)
  | .text length => some length
  | _ => none

def readParts (length? : Head → Option (Option Nat)) (length : Option Nat) (bs : Bytes) :
    Option (List Bytes × Bytes) :=
  match length with
  | some count => (readBytes count bs).map fun (part, rest) => ([part], rest)
  | none => readChunks length? (bs.length + 1) 0 bs

/-- A text, every part of which must be well-formed by itself. -/
def readText (length : Option Nat) (bs : Bytes) : Option (Item × Bytes) := do
  let (parts, rest) ← readParts Head.textLength? length bs
  let texts ← parts.mapM Bytes.toText?
  return (.text (String.join texts), rest)

/-- The length of the byte string of a large number, and what follows its head. Such a string stands
right behind the tag 2 or 3, and its length is known and at most 16. -/
def readLargeLength (tag : Nat) (bs : Bytes) : Option (Nat × Bytes) :=
  match tag, readHead bs with
  | 2, some (.bytes (some length), rest) | 3, some (.bytes (some length), rest) =>
    if length ≤ 16 then some (length, rest) else none
  | _, _ => none

/-- The item of a large number, which counts up from zero behind the tag 2 and down from -1 behind
the tag 3. What 64 bits cannot count stays a tagged string; what counts down has to fit 128 bits
with its sign. -/
def largeNumber? (tag : Nat) (content : Bytes) : Option Item :=
  let n := Bytes.toNat content
  if tag = 3 ∧ Nat.pow 2 127 ≤ n then none
  else if Nat.pow 2 64 ≤ n then some (.tagged (.bytes content))
  else if tag = 3 then some (.number (Double.ofInt (-1 - n)))
  else some (.number (Double.ofNat n))

def readSimple (n : Nat) (bs : Bytes) : Option (Item × Bytes) :=
  if n = 20 then some (.bool false, bs)
  else if n = 21 then some (.bool true, bs)
  else if n = 22 ∨ n = 23 then some (.null, bs)
  else none

section Members

variable {α : Type} (read : Bytes → Option (α × Bytes))

def readMany : Nat → Bytes → Option (List α × Bytes)
  | 0, bs => some ([], bs)
  | count + 1, bs => do
    let (a, rest) ← read bs
    let (as, rest) ← readMany count rest
    return (a :: as, rest)

def readOpen : Nat → Bytes → Option (List α × Bytes)
  | 0, _ => none
  | fuel + 1, bs =>
    match readHead bs with
    | some (.stop, rest) => some ([], rest)
    | _ => do
      let (a, rest) ← read bs
      let (as, rest) ← readOpen fuel rest
      return (a :: as, rest)

def readMembers (length : Option Nat) (bs : Bytes) : Option (List α × Bytes) :=
  match length with
  | some count => readMany read count bs
  | none => readOpen read (bs.length + 1) bs

end Members

def readPair (read : Bytes → Option (Item × Bytes)) (bs : Bytes) :
    Option ((Item × Item) × Bytes) := do
  let (key, rest) ← read bs
  let (value, rest) ← read rest
  return ((key, value), rest)

/-- An item with at most `depth` containers and tags inside one another, where the tag of a large
number does not count. -/
def readItem (depth : Nat) (bs : Bytes) : Option (Item × Bytes) :=
  match readHead bs with
  | none => none
  | some (head, rest) =>
    match head with
    | .unsigned n => some (.number (Double.ofNat n), rest)
    | .negative n => some (.number (Double.ofInt (-1 - n)), rest)
    | .bytes length =>
      (readParts Head.bytesLength? length rest).map fun (parts, rest) =>
        (.bytes parts.flatten, rest)
    | .text length => readText length rest
    | .simple n => readSimple n rest
    | .float n => some (.number n, rest)
    | .stop => none
    | .array length =>
      match depth with
      | 0 => none
      | depth + 1 =>
        (readMembers (readItem depth) length rest).map fun (items, rest) => (.array items, rest)
    | .map length =>
      match depth with
      | 0 => none
      | depth + 1 =>
        (readMembers (readPair (readItem depth)) length rest).map
          fun (pairs, rest) => (.map pairs, rest)
    | .tag n =>
      match readLargeLength n rest with
      | some (length, rest) => do
        let (content, rest) ← readBytes length rest
        let item ← largeNumber? n content
        return (item, rest)
      | none =>
        match depth with
        | 0 => none
        | depth + 1 => (readItem depth rest).map fun (item, rest) => (.tagged item, rest)

mutual

def Item.toValue : Item → Except CodecError Value
  | .null => .ok .null
  | .bool b => .ok (.bool b)
  | .number n => .ok (.number n)
  | .text s => .ok (.text s)
  | .bytes _ => .error .byteString
  | .array items => (itemsToValues items).map .array
  | .map pairs => (pairsToFields pairs).map .object
  | .tagged item => item.toValue

def itemsToValues : List Item → Except CodecError (List Value)
  | [] => .ok []
  | item :: rest => do
    let v ← item.toValue
    let vs ← itemsToValues rest
    return v :: vs

/-- Pairs in their order, the key before its value. -/
def pairsToFields : List (Item × Item) → Except CodecError (List (String × Value))
  | [] => .ok []
  | (.text k, item) :: rest => do
    let v ← item.toValue
    let fields ← pairsToFields rest
    return (k, v) :: fields
  | _ :: _ => .error .keyNotText

end

def maxDepth : Nat := 256

def read (bs : Bytes) : Except CodecError Value :=
  match readItem maxDepth bs with
  | none => .error .malformed
  | some (item, _) => item.toValue

end LiveTree.Cbor
