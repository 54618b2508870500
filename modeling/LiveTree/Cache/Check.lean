import LiveTree.Cache.Basic
import LiveTree.OrderedMap.Check

/-!
A check of what the operations on a cache keep: no node without children, no absent child, names
that may stand in a path, sound maps, and a digest that a rebuilt tree has too.
-/

namespace LiveTree

inductive Cache.Flaw where
  | emptyNode (place : Path)
  | unsoundMap (place : Path) (flaw : OrderedMap.Flaw)
  | unfitName (error : PathError)
  | absentChild (place : Path)
  | staleHash

namespace Cache

def Flaw.message : Flaw → String
  | emptyNode p => "empty internal node at " ++ p.text
  | unsoundMap p flaw => "at " ++ p.text ++ ": " ++ flaw.message
  | unfitName error => error.message
  | absentChild p => "null child at " ++ p.text
  | staleHash => "cached root hash differs from a fresh rebuild"

mutual

def checkNode (p : Path) : Node → Except Flaw Unit
  | .internal ⟨root, size⟩ _ => do
    if size = 0 then throw (.emptyNode p)
    let map : Children := ⟨root, size⟩
    match map.check with
    | .error flaw => throw (.unsoundMap p flaw)
    | .ok () => checkChildren p root
  | _ => .ok ()

def checkChildren (p : Path) : AvlTree String Node → Except Flaw Unit
  | .nil => .ok ()
  | .node _ l k n r => do
    checkChildren p l
    match p.child k with
    | .error e => throw (.unfitName e)
    | .ok q =>
      if n.isNull then throw (.absentChild q)
      checkNode q n
      checkChildren p r

end

def check (c : Cache) : Except Flaw Unit := do
  checkNode Path.root c.root
  if (Node.ofValue c.root.toValue).hash ≠ c.root.hash then throw .staleHash

end Cache

end LiveTree
