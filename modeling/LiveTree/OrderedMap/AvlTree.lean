/-!
Height-balanced search trees over a comparison function. Every node keeps its height; a change
restores the balance on the way back to the root. No law of the comparison is used here.
-/

namespace LiveTree

inductive AvlTree (α β : Type) where
  | nil
  | node (height : Nat) (left : AvlTree α β) (key : α) (value : β) (right : AvlTree α β)
deriving Inhabited

namespace AvlTree

variable {α β : Type}

def height : AvlTree α β → Nat
  | nil => 0
  | node h _ _ _ _ => h

def size : AvlTree α β → Nat
  | nil => 0
  | node _ l _ _ r => l.size + 1 + r.size

def toList : AvlTree α β → List (α × β)
  | nil => []
  | node _ l k v r => l.toList ++ (k, v) :: r.toList

inductive Traversal where
  | before
  | between
  | after
deriving DecidableEq

def visit (order : Traversal) : AvlTree α β → List (α × β)
  | nil => []
  | node _ l k v r =>
    match order with
    | .before => (k, v) :: (l.visit order ++ r.visit order)
    | .between => l.visit order ++ (k, v) :: r.visit order
    | .after => l.visit order ++ (r.visit order ++ [(k, v)])

def make (l : AvlTree α β) (k : α) (v : β) (r : AvlTree α β) : AvlTree α β :=
  node (1 + max l.height r.height) l k v r

def rotateRight : AvlTree α β → AvlTree α β
  | node _ (node _ a j u b) k v r => make a j u (make b k v r)
  | t => t

def rotateLeft : AvlTree α β → AvlTree α β
  | node _ l k v (node _ a j u b) => make (make l k v a) j u b
  | t => t

def leansRight : AvlTree α β → Bool
  | nil => false
  | node _ l _ _ r => decide (l.height < r.height)

def leansLeft : AvlTree α β → Bool
  | nil => false
  | node _ l _ _ r => decide (r.height < l.height)

/-- A node over two subtrees whose heights differ by two at most, put back into balance. -/
def balance (l : AvlTree α β) (k : α) (v : β) (r : AvlTree α β) : AvlTree α β :=
  if r.height + 1 < l.height then
    rotateRight (make (if l.leansRight then l.rotateLeft else l) k v r)
  else if l.height + 1 < r.height then
    rotateLeft (make l k v (if r.leansLeft then r.rotateRight else r))
  else make l k v r

def takeLeast (l : AvlTree α β) (k : α) (v : β) (r : AvlTree α β) : (α × β) × AvlTree α β :=
  match l with
  | nil => ((k, v), r)
  | node _ ll lk lv lr =>
    let (least, rest) := takeLeast ll lk lv lr
    (least, balance rest k v r)

/-- Two subtrees without the node that held them together. The least entry on the right takes its
place. -/
def join (l r : AvlTree α β) : AvlTree α β :=
  match l, r with
  | l, nil => l
  | nil, r => r
  | l, node _ rl rk rv rr =>
    let (least, rest) := takeLeast rl rk rv rr
    balance l least.1 least.2 rest

variable (cmp : α → α → Ordering)

def get? (key : α) : AvlTree α β → Option β
  | nil => none
  | node _ l k v r =>
    match cmp key k with
    | .lt => get? key l
    | .eq => some v
    | .gt => get? key r

/-- The tree with a new entry, or nothing when an equal key is there. -/
def insert? (key : α) (value : β) : AvlTree α β → Option (AvlTree α β)
  | nil => some (make nil key value nil)
  | node _ l k v r =>
    match cmp key k with
    | .lt => (insert? key value l).map fun l => balance l k v r
    | .eq => none
    | .gt => (insert? key value r).map fun r => balance l k v r

def erase (key : α) : AvlTree α β → AvlTree α β
  | nil => nil
  | node _ l k v r =>
    match cmp key k with
    | .lt => balance (erase key l) k v r
    | .eq => join l r
    | .gt => balance l k v (erase key r)

def modify (key : α) (f : β → β) : AvlTree α β → AvlTree α β
  | nil => nil
  | node h l k v r =>
    match cmp key k with
    | .lt => node h (modify key f l) k v r
    | .eq => node h l k (f v) r
    | .gt => node h l k v (modify key f r)

def mapValues (f : α → β → β) : AvlTree α β → AvlTree α β
  | nil => nil
  | node h l k v r => node h (mapValues f l) k (f k v) (mapValues f r)

/-- Changes the values one after the other in ascending order of the keys, with something handed on
from each to the next. -/
def mapAccum {σ : Type} (f : α → β → σ → β × σ) : AvlTree α β → σ → AvlTree α β × σ
  | nil, s => (nil, s)
  | node h l k v r, s =>
    let (l, s) := mapAccum f l s
    let (v, s) := f k v s
    let (r, s) := mapAccum f r s
    (node h l k v r, s)

end AvlTree

end LiveTree
