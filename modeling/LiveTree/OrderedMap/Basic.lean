import LiveTree.OrderedMap.Cursor

/-!
Maps kept in the order of a comparison function. Keys that compare equal are one key; inserting a
key that is there changes nothing.
-/

namespace LiveTree

structure OrderedMap (α β : Type) (cmp : α → α → Ordering) where
  root : AvlTree α β
  size : Nat

namespace OrderedMap

variable {α β : Type} {cmp : α → α → Ordering}

def empty : OrderedMap α β cmp := ⟨.nil, 0⟩

instance : Inhabited (OrderedMap α β cmp) := ⟨empty⟩

def isEmpty (m : OrderedMap α β cmp) : Bool := m.size == 0

def height (m : OrderedMap α β cmp) : Nat := m.root.height

def get? (m : OrderedMap α β cmp) (key : α) : Option β := m.root.get? cmp key

def contains (m : OrderedMap α β cmp) (key : α) : Bool := (m.get? key).isSome

def insertNew (m : OrderedMap α β cmp) (key : α) (value : β) : OrderedMap α β cmp × Bool :=
  match m.root.insert? cmp key value with
  | some root => (⟨root, m.size + 1⟩, true)
  | none => (m, false)

def insert (m : OrderedMap α β cmp) (key : α) (value : β) : OrderedMap α β cmp :=
  (m.insertNew key value).1

def erase (m : OrderedMap α β cmp) (key : α) : OrderedMap α β cmp :=
  ⟨m.root.erase cmp key, if m.contains key then m.size - 1 else m.size⟩

def remove (m : OrderedMap α β cmp) (key : α) : OrderedMap α β cmp × Option β :=
  (m.erase key, m.get? key)

/-- The value under a key, after the given one was put there if there was none. -/
def getOrInsert (m : OrderedMap α β cmp) (key : α) (value : β) :
    OrderedMap α β cmp × Option β :=
  (m.insert key value, (m.insert key value).get? key)

def modify (m : OrderedMap α β cmp) (key : α) (f : β → β) : OrderedMap α β cmp :=
  { m with root := m.root.modify cmp key f }

/-- Puts a value under a key, whether or not the key was there. The key that is stored is the
new one. -/
def replace (m : OrderedMap α β cmp) (key : α) (value : β) : OrderedMap α β cmp :=
  (m.erase key).insert key value

def mapValues (m : OrderedMap α β cmp) (f : α → β → β) : OrderedMap α β cmp :=
  { m with root := m.root.mapValues f }

def mapAccum {σ : Type} (m : OrderedMap α β cmp) (f : α → β → σ → β × σ) (s : σ) :
    OrderedMap α β cmp × σ :=
  ({ m with root := (m.root.mapAccum f s).1 }, (m.root.mapAccum f s).2)

def toList (m : OrderedMap α β cmp) : List (α × β) := (Cursor.start m.root).toList

def listFrom (m : OrderedMap α β cmp) (key : α) : List (α × β) :=
  (Cursor.seek cmp key m.root []).toList

def keys (m : OrderedMap α β cmp) : List α := m.toList.map Prod.fst

def values (m : OrderedMap α β cmp) : List β := m.toList.map Prod.snd

def first? (m : OrderedMap α β cmp) : Option (α × β) :=
  (Cursor.start m.root).next?.map Prod.fst

def visit (m : OrderedMap α β cmp) (order : AvlTree.Traversal) : List (α × β) := m.root.visit order

end OrderedMap

end LiveTree
