import LiveTree.Cbor.Reader
import LiveTree.Cbor.Writer
import LiveTree.Node.Update

/-!
The local copy of a tree, with changes and questions by path, and its snapshots.
-/

namespace LiveTree

structure Cache where
  root : Node

namespace Cache

def empty : Cache := ⟨.null⟩

instance : Inhabited Cache := ⟨empty⟩

def get? (c : Cache) (p : Path) : Option Node := c.root.get? p

def valueAt (c : Cache) (p : Path) : Value := ((c.get? p).map Node.toValue).getD .null

def hashAt (c : Cache) (p : Path) : Option Digest := (c.get? p).bind Node.hash

def rememberAt (c : Cache) (p : Path) : Cache := ⟨c.root.rememberAt p.segments⟩

def putNode (c : Cache) (p : Path) (n : Node) : Cache :=
  ⟨c.root.updateAt (fun _ => n.normal) p.segments⟩

def put (c : Cache) (p : Path) (v : Value) : Cache := c.putNode p (Node.ofValue v)

def merge (c : Cache) (p : Path) (v : Value) : Cache :=
  ⟨c.root.updateAt (fun n => n.merge v) p.segments⟩

def snapshot (c : Cache) : Bytes := c.root.toValue.toCbor

def ofSnapshot (bytes : Bytes) : Except CodecError Cache :=
  (Cbor.read bytes).map fun v => ⟨Node.ofValue v⟩

def sameAs (a b : Cache) : Bool := a.root.sameAs b.root

end Cache

end LiveTree
