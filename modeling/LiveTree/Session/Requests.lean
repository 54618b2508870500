import LiveTree.Frame.Request
import LiveTree.Session.Error

/-!
The requests of a session that wait: for their answers, or for a connection. Requests whose answers
mean nothing are known by their numbers only.
-/

namespace LiveTree

structure Waiting where
  request : Request
  /-- True when somebody wants to hear how it ends. -/
  observed : Bool

namespace Waiting

def id (w : Waiting) : RequestId := w.request.id

def isAuth (w : Waiting) : Bool := w.request.action == .auth

def place (w : Waiting) : List Waiting → List Waiting
  | [] => [w]
  | x :: rest => if w.id ≤ x.id then w :: x :: rest else x :: place w rest

end Waiting

structure Completion where
  id : RequestId
  outcome : Except SessionError (Option Value)
  observed : Bool

def Waiting.finish (w : Waiting) (outcome : Except SessionError (Option Value)) : Completion :=
  ⟨w.id, outcome, w.observed⟩

def Waiting.cancel (w : Waiting) : Completion := w.finish (.error .cancelled)

structure Requests where
  lastId : RequestId := 0
  /-- The requests that were sent and have no answer yet. -/
  inFlight : List Waiting := []
  /-- The requests that are to be sent, in the order of their numbers. -/
  queued : List Waiting := []
  /-- The requests whose answers are dropped. -/
  untracked : List RequestId := []

namespace Requests

def allocate (r : Requests) : RequestId × Requests :=
  (r.lastId + 1, { r with lastId := r.lastId + 1 })

def allocateUntracked (r : Requests) : RequestId × Requests :=
  (r.lastId + 1, { r with lastId := r.lastId + 1, untracked := (r.lastId + 1) :: r.untracked })

def outstanding (r : Requests) : Nat := r.inFlight.length + r.queued.length

def all (r : Requests) : List Waiting := r.inFlight ++ r.queued

def fly (r : Requests) (w : Waiting) : Requests := { r with inFlight := w.place r.inFlight }

def enqueue (r : Requests) (w : Waiting) : Requests := { r with queued := w.place r.queued }

/-- Takes the loss of the connection: what was sent is to be sent again. -/
def requeue (r : Requests) : Requests :=
  { r with inFlight := [], untracked := [], queued := r.inFlight.foldr Waiting.place r.queued }

def land (r : Requests) (id : RequestId) : Requests :=
  { r with inFlight := r.inFlight.filter fun w => w.id != id }

def isUntracked (r : Requests) (id : RequestId) : Bool := r.untracked.contains id

def forget (r : Requests) (id : RequestId) : Requests :=
  { r with untracked := r.untracked.filter fun x => x != id }

def clear (r : Requests) : Requests := { lastId := r.lastId }

end Requests

end LiveTree
