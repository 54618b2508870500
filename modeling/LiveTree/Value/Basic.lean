import LiveTree.Double.Basic
import LiveTree.Text

/-!
Document values, as applications and servers exchange them. Objects are lists of pairs: their order
is kept, and a key may stand twice. Where the pairs are read as fields, a later one replaces the value
of an earlier one with its key, and the earlier position stays.
-/

namespace LiveTree

inductive Value where
  | null
  | bool (b : Bool)
  | number (n : Double)
  | text (s : String)
  | array (items : List Value)
  | object (pairs : List (String × Value))
deriving Inhabited

namespace Value

def isNull : Value → Bool
  | null => true
  | _ => false

def isContainer : Value → Bool
  | array _ => true
  | object _ => true
  | _ => false

def bool? : Value → Option Bool
  | bool b => some b
  | _ => none

def number? : Value → Option Double
  | number n => some n
  | _ => none

def text? : Value → Option String
  | text s => some s
  | _ => none

/-- The first pair of the key, or the item at the position that the key writes. -/
def get? (key : String) : Value → Option Value
  | object pairs => pairs.lookup key
  | array items => (Text.index? key).bind fun i => items[i]?
  | _ => none

def indexed {α : Type} (start : Nat) : List α → List (String × α)
  | [] => []
  | v :: rest => (String.ofList (Nat.toDigits 10 start), v) :: indexed (start + 1) rest

def entries : Value → List (String × Value)
  | object pairs => pairs
  | array items => indexed 0 items
  | _ => []

section Comparison

variable (same : Double → Double → Bool)

mutual

def equalBy : Value → Value → Bool
  | null, null => true
  | bool a, bool b => a == b
  | number a, number b => same a b
  | text a, text b => a == b
  | array a, array b => equalItems a b
  | object a, object b => equalPairs a b
  | _, _ => false

def equalItems : List Value → List Value → Bool
  | [], [] => true
  | a :: as, b :: bs => equalBy a b && equalItems as bs
  | _, _ => false

def equalPairs : List (String × Value) → List (String × Value) → Bool
  | [], [] => true
  | (j, a) :: as, (k, b) :: bs => j == k && equalBy a b && equalPairs as bs
  | _, _ => false

end

end Comparison

/-- Equality that compares numbers as numbers: zero equals its negative. -/
def sameAs (a b : Value) : Bool := equalBy Double.sameNumber a b

def identicalTo (a b : Value) : Bool := equalBy (· == ·) a b

end Value

namespace Fields

variable {α : Type}

def put (key : String) (value : α) : List (String × α) → List (String × α)
  | [] => [(key, value)]
  | (k, v) :: rest => if k = key then (k, value) :: rest else (k, v) :: put key value rest

/-- Each key once, at its first position and with its last value. -/
def settle (pairs : List (String × α)) : List (String × α) :=
  pairs.foldl (fun fields p => put p.1 p.2 fields) []

end Fields

/-- Why input is no value. -/
inductive CodecError where
  | malformed
  | keyNotText
  /-- Byte strings have no counterpart among the values. -/
  | byteString
deriving DecidableEq, Repr

namespace CodecError

def message : CodecError → String
  | malformed => "decoding failed: malformed input"
  | keyNotText => "invalid structure: map key must be text"
  | byteString => "unsupported type: bytes"

end CodecError

end LiveTree
