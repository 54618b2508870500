import LiveTree.OrderedMap.AvlTree

/-!
Places in the ascending walk through a tree. A cursor holds the nodes that are still to come and
whose left subtrees are done, the next one first, each with its right subtree.
-/

namespace LiveTree

/-- A node whose left subtree is done. -/
structure Cursor.Pending (α β : Type) where
  key : α
  value : β
  right : AvlTree α β

abbrev Cursor (α β : Type) := List (Cursor.Pending α β)

namespace Cursor

variable {α β : Type}

def descend : AvlTree α β → Cursor α β → Cursor α β
  | .nil, stack => stack
  | .node _ l k v r, stack => descend l (⟨k, v, r⟩ :: stack)

def start (t : AvlTree α β) : Cursor α β := descend t []

def seek (cmp : α → α → Ordering) (key : α) : AvlTree α β → Cursor α β → Cursor α β
  | .nil, stack => stack
  | .node _ l k v r, stack =>
    match cmp key k with
    | .lt => seek cmp key l (⟨k, v, r⟩ :: stack)
    | .eq => ⟨k, v, r⟩ :: stack
    | .gt => seek cmp key r stack

def next? : Cursor α β → Option ((α × β) × Cursor α β)
  | [] => none
  | p :: stack => some ((p.key, p.value), descend p.right stack)

def remaining (c : Cursor α β) : Nat := c.foldr (fun p n => p.right.size + 1 + n) 0

def take : Nat → Cursor α β → List (α × β)
  | 0, _ => []
  | count + 1, c =>
    match c.next? with
    | none => []
    | some (entry, c) => entry :: take count c

def toList (c : Cursor α β) : List (α × β) := c.take c.remaining

end Cursor

end LiveTree
