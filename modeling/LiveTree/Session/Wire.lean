import LiveTree.Link
import LiveTree.Listens.Wire
import LiveTree.Session.Requests

/-!
What a session sends with: the link, the table of requests, and the counters. A request that cannot
be sent is queued; a listen that cannot be sent is lost, and is sent again with the next connection.
-/

namespace LiveTree

structure Stats where
  handshakes : Nat := 0
  reconnects : Nat := 0
  listensSent : Nat := 0
  unlistensSent : Nat := 0
  /-- Puts and merges that were sent, again or for the first time. -/
  writesSent : Nat := 0
  keepalivesSent : Nat := 0
  callbacksFired : Nat := 0
  /-- Answers to requests that nobody knows. -/
  droppedResponses : Nat := 0
  protocolErrors : Nat := 0
deriving DecidableEq, Repr

structure Wire where
  link : Link := {}
  requests : Requests := {}
  stats : Stats := {}

namespace Wire

def send? (w : Wire) (r : Request) : Option Wire :=
  (w.link.send? r).map fun link => { w with link := link }

def countListen (w : Wire) : Wire :=
  { w with stats.listensSent := w.stats.listensSent + 1 }

def countUnlisten (w : Wire) : Wire :=
  { w with stats.unlistensSent := w.stats.unlistensSent + 1 }

def countKeepalive (w : Wire) : Wire :=
  { w with stats.keepalivesSent := w.stats.keepalivesSent + 1 }

def countWrite (w : Wire) (r : Request) : Wire :=
  if r.action.isWrite then { w with stats.writesSent := w.stats.writesSent + 1 } else w

def listen (p : Path) (w : Wire) : RequestId × Wire :=
  let (id, requests) := w.requests.allocate
  let w := { w with requests := requests }
  (id, ((w.send? (.listen id p)).map countListen).getD w)

def unlisten (p : Path) (w : Wire) : Wire :=
  let (id, requests) := w.requests.allocateUntracked
  let w := { w with requests := requests }
  ((w.send? (.unlisten id p)).map countUnlisten).getD w

def sink : Sink Wire := ⟨listen, unlisten⟩

def keepalive (w : Wire) : Wire :=
  let (id, requests) := w.requests.allocateUntracked
  let w := { w with requests := requests }
  ((w.send? (.keepalive id)).map countKeepalive).getD w

/-- Sends a request if there is a connection and the link takes it, else queues it. -/
def dispatch (connected : Bool) (w : Wire) (r : Waiting) : Wire :=
  match if connected then w.send? r.request else none with
  | some w => { w.countWrite r.request with requests := w.requests.fly r }
  | none => { w with requests := w.requests.enqueue r }

def submit (connected : Bool) (w : Wire) (make : RequestId → Request) (observed : Bool) :
    RequestId × Wire :=
  let (id, requests) := w.requests.allocate
  (id, dispatch connected { w with requests := requests } ⟨make id, observed⟩)

end Wire

end LiveTree
