import LiveTree.Text

/-!
The names between the slashes of a path, and their order: whole numbers first, by value, and all
other names by their text. The order of code points is the order of the encoded bytes.
-/

namespace LiveTree.Segment

/-- Characters that have a meaning of their own to servers. -/
def reserved : List Char := ['.', '#', '$', '[', ']']

def isForbidden (c : Char) : Bool := reserved.contains c || Text.isControl c

def isClean (s : String) : Bool := s.toList.all fun c => !isForbidden c

def isSingle (s : String) : Bool := !s.isEmpty && s.toList.all (· ≠ '/')

def isLegal (s : String) : Bool := isSingle s && isClean s

/-- The number that a name writes, if it fits 64 bits with sign. A minus sign may stand in front, a
plus sign may not. -/
def integer? (s : String) : Option Int :=
  match s.toList with
  | '-' :: cs => ((Text.natural? cs).filter (· ≤ Nat.pow 2 63)).map fun n => -(n : Int)
  | cs => ((Text.natural? cs).filter (· < Nat.pow 2 63)).map fun n => (n : Int)

/-- Numbers of one value are told apart by length and then by text. -/
def compare (a b : String) : Ordering :=
  match integer? a, integer? b with
  | some x, some y =>
    (Ord.compare x y).then ((Ord.compare a.utf8ByteSize b.utf8ByteSize).then (Ord.compare a b))
  | some _, none => .lt
  | none, some _ => .gt
  | none, none => Ord.compare a b

end LiveTree.Segment
