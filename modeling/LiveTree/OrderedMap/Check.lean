import LiveTree.OrderedMap.Basic

/-!
A check of everything that a map relies on: balance, the heights and the size that are kept, and
the order of the keys.
-/

namespace LiveTree

inductive OrderedMap.Flaw where
  | unbalanced (left right : Nat)
  | staleHeight (kept actual : Nat)
  | wrongSize (kept actual : Nat)
  | notAscending
deriving DecidableEq, Repr

namespace OrderedMap

def Flaw.message : Flaw → String
  | unbalanced left right =>
    "unbalanced node: left height " ++ toString left ++ ", right height " ++ toString right
  | staleHeight kept actual =>
    "stale height: cached " ++ toString kept ++ ", actual " ++ toString actual
  | wrongSize kept actual =>
    "len is " ++ toString kept ++ " but tree holds " ++ toString actual ++ " nodes"
  | notAscending => "in-order traversal is not strictly ascending"

variable {α β : Type} {cmp : α → α → Ordering}

/-- The height of a balanced tree whose kept heights are right. -/
def checkTree : AvlTree α β → Except Flaw Nat
  | .nil => .ok 0
  | .node h l _ _ r => do
    let left ← checkTree l
    let right ← checkTree r
    if left + 1 < right ∨ right + 1 < left then throw (.unbalanced left right)
    let actual := 1 + max left right
    if h ≠ actual then throw (.staleHeight h actual)
    return actual

def ascending (cmp : α → α → Ordering) : List α → Bool
  | a :: b :: rest => cmp a b == .lt && ascending cmp (b :: rest)
  | _ => true

def check (m : OrderedMap α β cmp) : Except Flaw Unit := do
  let _ ← checkTree m.root
  if m.root.size ≠ m.size then throw (.wrongSize m.size m.root.size)
  if !ascending cmp m.keys then throw .notAscending

end OrderedMap

end LiveTree
