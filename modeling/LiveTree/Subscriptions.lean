import LiveTree.Cache.Basic

/-!
Subscriptions to changes of a cache. Each one remembers, as digests, what it has reported last: of
the value at its path, or of the children there. A change is reported when the digests differ.
-/

namespace LiveTree

inductive EventKind where
  | value
  | childAdded
  | childChanged
  | childRemoved
deriving DecidableEq, Repr

namespace EventKind

def name : EventKind → String
  | value => "Value"
  | childAdded => "ChildAdded"
  | childChanged => "ChildChanged"
  | childRemoved => "ChildRemoved"

def all : List EventKind := [value, childAdded, childChanged, childRemoved]

def ofName? (name : String) : Option EventKind := all.find? (·.name == name)

end EventKind

structure Event where
  handle : Nat
  kind : EventKind
  path : Path
  key : Option String
  /-- What is there now, of the path or of its child. -/
  value : Value

inductive Baseline where
  | value (digest : Option Digest)
  | children (digests : List (String × Digest))
deriving DecidableEq

namespace Baseline

def childDigests (c : Cache) (p : Path) : List (String × Digest) :=
  match (c.get? p).bind Node.children? with
  | none => []
  | some below => below.toList.filterMap fun e => e.2.hash.map fun d => (e.1, d)

def capture (kind : EventKind) (c : Cache) (p : Path) : Baseline :=
  match kind with
  | .value => value (c.hashAt p)
  | _ => children (childDigests c p)

def changes : List (String × Digest) → List (String × Digest) → List (EventKind × String)
  | [], [] => []
  | (a, _) :: old, [] => (.childRemoved, a) :: changes old []
  | [], (b, _) :: new => (.childAdded, b) :: changes [] new
  | (a, d) :: old, (b, e) :: new =>
    match Segment.compare a b with
    | .lt => (.childRemoved, a) :: changes old ((b, e) :: new)
    | .gt => (.childAdded, b) :: changes ((a, d) :: old) new
    | .eq =>
      if d = e then changes old new else (.childChanged, b) :: changes old new
termination_by old new => old.length + new.length

end Baseline

structure Subscription where
  handle : Nat
  kind : EventKind
  baseline : Baseline

namespace Subscription

def childValue (c : Cache) (p : Path) (key : String) : Value :=
  (((c.get? p).bind fun n => n.child? key).map Node.toValue).getD .null

def childEvent (s : Subscription) (c : Cache) (p : Path) (key : String) : Event :=
  let value := if s.kind = .childRemoved then .null else childValue c p key
  ⟨s.handle, s.kind, p, some key, value⟩

def events (s : Subscription) (c : Cache) (p : Path) : Baseline → Baseline → List Event
  | .value _, .value _ => [⟨s.handle, .value, p, none, c.valueAt p⟩]
  | .children old, .children new =>
    ((Baseline.changes old new).filter fun e => e.1 = s.kind).map fun e => s.childEvent c p e.2
  | _, _ => []

def refresh (c : Cache) (p : Path) (s : Subscription) : Subscription × List Event :=
  let current := Baseline.capture s.kind c p
  if current = s.baseline then (s, [])
  else ({ s with baseline := current }, s.events c p s.baseline current)

end Subscription

structure Subscriptions where
  /-- The subscriptions to each path, the oldest first. No list is empty. -/
  byPath : OrderedMap Path (List Subscription) Path.compare
  handles : List (Nat × Path)
  /-- Handles are numbered from one on and never used twice. -/
  lastHandle : Nat

namespace Subscriptions

def empty : Subscriptions := ⟨OrderedMap.empty, [], 0⟩

instance : Inhabited Subscriptions := ⟨empty⟩

def size (s : Subscriptions) : Nat := s.handles.length

def path? (s : Subscriptions) (handle : Nat) : Option Path := s.handles.lookup handle

def subscribers (s : Subscriptions) (p : Path) : List Subscription := (s.byPath.get? p).getD []

/-- Adds a subscription under the next handle. What is in the cache now is not reported. -/
def subscribe (s : Subscriptions) (p : Path) (kind : EventKind) (c : Cache) : Subscriptions :=
  let handle := s.lastHandle + 1
  let new : Subscription := ⟨handle, kind, Baseline.capture kind c p⟩
  let byPath :=
    if s.byPath.contains p then s.byPath.modify p fun l => l ++ [new]
    else s.byPath.insert p [new]
  ⟨byPath, s.handles ++ [(handle, p)], handle⟩

def remove (s : Subscriptions) (handle : Nat) (p : Path) : Subscriptions :=
  let rest := (s.subscribers p).filter fun x => x.handle != handle
  { s with
    byPath := if rest.isEmpty then s.byPath.erase p else s.byPath.modify p fun _ => rest
    handles := s.handles.filter fun x => x.1 != handle }

def clear (s : Subscriptions) : Subscriptions := { empty with lastHandle := s.lastHandle }

/-- The paths on which a change shows: those above it that have subscriptions, the root first, and
then those from it on downwards. -/
def affected (s : Subscriptions) (changed : Path) : List Path :=
  changed.ancestors.filter s.byPath.contains
    ++ ((s.byPath.listFrom changed).map Prod.fst).takeWhile fun p => changed.isPrefixOf p

def refreshAt (c : Cache) (acc : Subscriptions × List Event) (p : Path) :
    Subscriptions × List Event :=
  let refreshed := (acc.1.subscribers p).map (Subscription.refresh c p)
  ({ acc.1 with byPath := acc.1.byPath.modify p fun _ => refreshed.map Prod.fst },
    acc.2 ++ refreshed.flatMap Prod.snd)

def cacheChanged (s : Subscriptions) (c : Cache) (changed : Path) : Subscriptions × List Event :=
  (s.affected changed).foldl (refreshAt c) (s, [])

end Subscriptions

end LiveTree
