import LiveTree.OrderedMap.Check

/-!
Trees changed with arithmetic of fixed width. A node keeps its height in a byte, and two heights are
compared by their difference, a word of 16 bits with a sign. A number that does not fit stops the
change.
-/

namespace LiveTree

inductive AvlTree.Overflow where
  | height (levels : Nat)
  | difference (levels : Int)
deriving DecidableEq, Repr

namespace AvlTree.Bounded

variable {α β : Type}

def level (left right : Nat) : Except Overflow Nat :=
  if 1 + max left right < 256 then .ok (1 + max left right)
  else .error (.height (1 + max left right))

def surplus (left right : Nat) : Except Overflow Int :=
  if -32768 ≤ (left - right : Int) ∧ (left - right : Int) < 32768 then .ok (left - right)
  else .error (.difference (left - right))

/-- The least word has no counterpart above zero. -/
def magnitude (difference : Int) : Except Overflow Nat :=
  if difference.natAbs < 32768 then .ok difference.natAbs
  else .error (.difference difference)

def make (l : AvlTree α β) (k : α) (v : β) (r : AvlTree α β) : Except Overflow (AvlTree α β) :=
  return node (← level l.height r.height) l k v r

def rotateRight : AvlTree α β → Except Overflow (AvlTree α β)
  | node _ (node _ a j u b) k v r => do make a j u (← make b k v r)
  | t => return t

def rotateLeft : AvlTree α β → Except Overflow (AvlTree α β)
  | node _ l k v (node _ a j u b) => do make (← make l k v a) j u b
  | t => return t

def turnLeft : AvlTree α β → Except Overflow (AvlTree α β)
  | nil => return nil
  | node h l k v r => do
    if (← surplus l.height r.height) < 0 then rotateLeft (node h l k v r)
    else return node h l k v r

def turnRight : AvlTree α β → Except Overflow (AvlTree α β)
  | nil => return nil
  | node h l k v r => do
    if 0 < (← surplus l.height r.height) then rotateRight (node h l k v r)
    else return node h l k v r

def balance (l : AvlTree α β) (k : α) (v : β) (r : AvlTree α β) :
    Except Overflow (AvlTree α β) := do
  let height ← level l.height r.height
  let more ← surplus l.height r.height
  if 1 < more then rotateRight (node height (← turnLeft l) k v r)
  else if more < -1 then rotateLeft (node height l k v (← turnRight r))
  else return node height l k v r

def takeLeast (l : AvlTree α β) (k : α) (v : β) (r : AvlTree α β) :
    Except Overflow ((α × β) × AvlTree α β) :=
  match l with
  | nil => return ((k, v), r)
  | node _ ll lk lv lr => do
    let (least, rest) ← takeLeast ll lk lv lr
    return (least, ← balance rest k v r)

def join (l r : AvlTree α β) : Except Overflow (AvlTree α β) :=
  match l, r with
  | l, nil => return l
  | nil, r => return r
  | l, node _ rl rk rv rr => do
    let (least, rest) ← takeLeast rl rk rv rr
    balance l least.1 least.2 rest

variable (cmp : α → α → Ordering)

def insert? (key : α) (value : β) : AvlTree α β → Except Overflow (Option (AvlTree α β))
  | nil => return some (node 1 nil key value nil)
  | node _ l k v r =>
    match cmp key k with
    | .lt => do (← insert? key value l).mapM fun l => balance l k v r
    | .eq => return none
    | .gt => do (← insert? key value r).mapM fun r => balance l k v r

def erase (key : α) : AvlTree α β → Except Overflow (AvlTree α β)
  | nil => return nil
  | node _ l k v r =>
    match cmp key k with
    | .lt => do balance (← erase key l) k v r
    | .eq => join l r
    | .gt => do balance l k v (← erase key r)

end AvlTree.Bounded

namespace OrderedMap.Bounded

open AvlTree (Overflow)

variable {α β : Type} {cmp : α → α → Ordering}

def insertNew (m : OrderedMap α β cmp) (key : α) (value : β) :
    Except Overflow (OrderedMap α β cmp × Bool) := do
  match ← AvlTree.Bounded.insert? cmp key value m.root with
  | some root => return (⟨root, m.size + 1⟩, true)
  | none => return (m, false)

def erase (m : OrderedMap α β cmp) (key : α) : Except Overflow (OrderedMap α β cmp) :=
  return ⟨← AvlTree.Bounded.erase cmp key m.root, if m.contains key then m.size - 1 else m.size⟩

def checkTree : AvlTree α β → ExceptT Flaw (Except Overflow) Nat
  | .nil => return 0
  | .node h l _ _ r => do
    let left ← checkTree l
    let right ← checkTree r
    let apart ← AvlTree.Bounded.magnitude (← AvlTree.Bounded.surplus left right)
    if 1 < apart then throw (.unbalanced left right)
    let actual ← AvlTree.Bounded.level left right
    if h ≠ actual then throw (.staleHeight h actual)
    return actual

def check (m : OrderedMap α β cmp) : ExceptT Flaw (Except Overflow) Unit := do
  let _ ← checkTree m.root
  if m.root.size ≠ m.size then throw (.wrongSize m.size m.root.size)
  if !ascending cmp m.keys then throw .notAscending

end OrderedMap.Bounded

end LiveTree
