import LiveTree.Node.Hash

/-!
Changes inside a node. Every node on the way to a change forgets its digest, takes children if it
had none, and becomes absent when its last child goes.
-/

namespace LiveTree.Node

def childrenOf (n : Node) : Children := n.children?.getD OrderedMap.empty

def childOf (children : Children) (key : String) : Node := (children.get? key).getD null

def settleChild (children : Children) (key : String) (child : Node) : Children :=
  let children :=
    if children.contains key then children.modify key fun _ => child
    else children.insert key child
  if child.isNull then children.erase key else children

def updateAt (f : Node → Node) : List String → Node → Node
  | [], n => f n
  | s :: rest, n =>
    ofChildren (settleChild n.childrenOf s (updateAt f rest (childOf n.childrenOf s)))

mutual

/-- The node after a value has been merged into it, name by name: a container is merged into the
child, anything else replaces it. What is no container replaces the node. -/
def merge (n : Node) : Value → Node
  | .array items => if items.isEmpty then n else ofChildren (mergeItems n.childrenOf 0 items)
  | .object pairs => if pairs.isEmpty then n else ofChildren (mergePairs n.childrenOf pairs)
  | .null => null
  | .bool b => bool b
  | .number x => number x none
  | .text s => text s none

def mergeItems (children : Children) (start : Nat) : List Value → Children
  | [] => children
  | v :: rest =>
    let key := String.ofList (Nat.toDigits 10 start)
    mergeItems (settleChild children key (merge (childOf children key) v)) (start + 1) rest

/-- Pairs are merged in their order. An empty name is passed over. -/
def mergePairs (children : Children) : List (String × Value) → Children
  | [] => children
  | (k, v) :: rest =>
    mergePairs
      (if k.isEmpty then children else settleChild children k (merge (childOf children k) v)) rest

end

def normal (n : Node) : Node := if n.isNull then null else n

end LiveTree.Node
