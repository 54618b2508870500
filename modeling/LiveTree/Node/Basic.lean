import LiveTree.Digest.Basic
import LiveTree.OrderedMap.Basic
import LiveTree.Path.Basic
import LiveTree.Value.Basic

/-!
Nodes of a stored tree. An array is stored like an object with the positions as names. Absence is a
node of its own; it is no child of a node that is built from a value.
-/

namespace LiveTree

/-- What is remembered of a node's digest: nothing, or the digest, which may be absent. -/
abbrev Memo := Option (Option Digest)

inductive Node where
  | null
  | bool (b : Bool)
  | number (n : Double) (memo : Memo)
  | text (s : String) (memo : Memo)
  | internal (children : OrderedMap String Node Segment.compare) (memo : Memo)

abbrev Children := OrderedMap String Node Segment.compare

namespace Node

instance : Inhabited Node := ⟨null⟩

/-- True for absence and for a node without children. -/
def isNull : Node → Bool
  | null => true
  | internal children _ => children.isEmpty
  | _ => false

def isInternal : Node → Bool
  | internal _ _ => true
  | _ => false

def bool? : Node → Option Bool
  | bool b => some b
  | _ => none

def number? : Node → Option Double
  | number n _ => some n
  | _ => none

def text? : Node → Option String
  | text s _ => some s
  | _ => none

def children? : Node → Option Children
  | internal children _ => some children
  | _ => none

def childCount (n : Node) : Nat := (n.children?.map (·.size)).getD 0

def child? (n : Node) (key : String) : Option Node := n.children?.bind (·.get? key)

def descend? (n : Node) : List String → Option Node
  | [] => some n
  | s :: rest => (n.child? s).bind fun c => c.descend? rest

def get? (n : Node) (p : Path) : Option Node := n.descend? p.segments

/-- A node over children, which is absent when there are none. -/
def ofChildren (children : Children) : Node :=
  if children.isEmpty then null else internal children none

/-- Adds a child to those that are there, in the place of one with its name. Absent children and
empty names are left out. -/
def addChild (children : Children) (entry : String × Node) : Children :=
  if entry.1.isEmpty || entry.2.isNull then children else children.replace entry.1 entry.2

def ofEntries (entries : List (String × Node)) : Node :=
  ofChildren (entries.foldl addChild OrderedMap.empty)

mutual

def ofValue : Value → Node
  | .null => null
  | .bool b => bool b
  | .number n => number n none
  | .text s => text s none
  | .array items => ofEntries (Value.indexed 0 (ofItems items))
  | .object pairs => ofEntries (ofPairs pairs)

def ofItems : List Value → List Node
  | [] => []
  | v :: rest => ofValue v :: ofItems rest

def ofPairs : List (String × Value) → List (String × Node)
  | [] => []
  | (k, v) :: rest => (k, ofValue v) :: ofPairs rest

end

def isSequence {α : Type} (start : Nat) : List (String × α) → Bool
  | [] => true
  | (k, _) :: rest =>
    k == String.ofList (Nat.toDigits 10 start) && isSequence (start + 1) rest

/-- Pairs as an array when their names are the positions, else as an object. -/
def arrange (pairs : List (String × Value)) : Value :=
  if isSequence 0 pairs then .array (pairs.map Prod.snd) else .object pairs

mutual

def toValue : Node → Value
  | null => .null
  | bool b => .bool b
  | number n _ => .number n
  | text s _ => .text s
  | internal ⟨root, _⟩ _ => arrange (toPairs root)

def toPairs : AvlTree String Node → List (String × Value)
  | .nil => []
  | .node _ l k n r => toPairs l ++ (k, n.toValue) :: toPairs r

end

mutual

/-- The content of a node without its shape: containers are objects, and a node without children is
the same as absence. -/
def outline : Node → Value
  | null => .null
  | bool b => .bool b
  | number n _ => .number n
  | text s _ => .text s
  | internal ⟨root, size⟩ _ => if size = 0 then .null else .object (outlinePairs root)

def outlinePairs : AvlTree String Node → List (String × Value)
  | .nil => []
  | .node _ l k n r => outlinePairs l ++ (k, n.outline) :: outlinePairs r

end

/-- Equality of content. Numbers are compared by their patterns. -/
def sameAs (a b : Node) : Bool := a.outline.identicalTo b.outline

end Node

end LiveTree
