import LiveTree.Frame.Request
import LiveTree.OrderedMap.Basic

/-!
The paths that a client wants to hear about. A path whose ancestor is listened to already needs no
listen of its own: it is masked by the ancestor. Since everything below a path follows it directly
in the order of paths, it is read off as the front part of the map from that path on.
-/

namespace LiveTree

inductive ListenStatus where
  /-- A listen is needed and was not sent. -/
  | required
  /-- A listen was sent and is not answered. -/
  | pending
  | active
  /-- The server has refused the listen. -/
  | failed
  /-- The listen of an ancestor is enough. -/
  | masked
deriving DecidableEq, Repr

namespace ListenStatus

def name : ListenStatus → String
  | required => "Required"
  | pending => "Pending"
  | active => "Active"
  | failed => "Failed"
  | masked => "Masked"

def covers : ListenStatus → Bool
  | required => true
  | pending => true
  | active => true
  | _ => false

/-- True when the server may know of the listen. -/
def onWire : ListenStatus → Bool
  | pending => true
  | active => true
  | _ => false

end ListenStatus

structure Listen where
  status : ListenStatus
  refCount : Nat
  /-- The request that was sent last, while its answer counts. -/
  request : Option RequestId
deriving DecidableEq, Repr

structure Listens where
  items : OrderedMap Path Listen Path.compare
  /-- The requests whose answers are to come. -/
  awaited : List (RequestId × Path)
  online : Bool

namespace Listens

def empty : Listens := ⟨OrderedMap.empty, [], false⟩

instance : Inhabited Listens := ⟨empty⟩

def get? (l : Listens) (p : Path) : Option Listen := l.items.get? p

def status? (l : Listens) (p : Path) : Option ListenStatus := (l.get? p).map (·.status)

def coversBelow (l : Listens) (p : Path) : Bool := (l.status? p).any (·.covers)

def isCovered (l : Listens) (p : Path) : Bool := p.ancestors.any l.coversBelow

def below (l : Listens) (p : Path) : List Path :=
  (((l.items.listFrom p).map Prod.fst).takeWhile fun q => p.isPrefixOf q).filter fun q => q != p

def modify (l : Listens) (p : Path) (f : Listen → Listen) : Listens :=
  { l with items := l.items.modify p f }

def setStatus (l : Listens) (p : Path) (status : ListenStatus) : Listens :=
  l.modify p fun i => { i with status := status }

def setRequest (l : Listens) (p : Path) (request : Option RequestId) : Listens :=
  l.modify p fun i => { i with request := request }

def awaits (l : Listens) (id : RequestId) : Bool := l.awaited.any fun a => a.1 == id

def forget (l : Listens) (id : RequestId) : Listens :=
  { l with awaited := l.awaited.filter fun a => a.1 != id }

/-- Forgets everything, without a word to the server. -/
def clear (l : Listens) : Listens := { empty with online := l.online }

/-- What the loss of the connection does to an item: its listen has to be sent again. -/
def lost (i : Listen) : Listen :=
  { i with request := none, status := if i.status.onWire then .required else i.status }

def suspend (l : Listens) : Listens :=
  { items := l.items.mapValues fun _ i => lost i, awaited := [], online := false }

end Listens

end LiveTree
