import LiveTree.Server
import LiveTree.Session.Inbound

/-!
A session and a server with the wire between them. Requests wait on the wire until they are pumped;
what the server says is given to the session at once. Both directions go as frames. A frame that
cannot be read ends a pump, and what was to come after it is lost; what the server says by itself
comes as far as the session can read it.
-/

namespace LiveTree

structure Exchange where
  session : Session
  server : Server
  /-- The requests on the wire, the oldest first. -/
  unserved : List Request
  served : List String
  delivered : List String

namespace Exchange

inductive Failure where
  | request (error : FrameError)
  | message (error : SessionError)
deriving DecidableEq, Repr

def new (session : Session) (server : Server) : Exchange := ⟨session, server, [], [], []⟩

def collect (x : Exchange) : Exchange :=
  { x with
    session.wire.link.sent := []
    unserved := x.unserved ++ x.session.link.sent }

def clearLogs (x : Exchange) : Exchange :=
  { x.collect with session := x.collect.session.clearLogs, served := [], delivered := [] }

def deliver (x : Exchange) (m : Message) : Exchange × Except SessionError Unit :=
  let (session, answer) := x.session.receiveFrame m.encode
  ({ x with session := session, delivered := x.delivered ++ [m.encode] }, answer)

/-- Gives messages that nobody has asked for to the session. It goes on after one that it cannot
read, and the first failure is told. -/
def announce (x : Exchange) : List Message → Exchange × Except SessionError Unit
  | [] => (x, .ok ())
  | m :: rest =>
    let (x, first) := x.deliver m
    let (x, later) := x.announce rest
    (x, first.bind fun _ => later)

/-- Gives replies to the session, up to the first one that it cannot read. That one does not count
as delivered. -/
def reply (x : Exchange) : List Message → Exchange × Except SessionError Unit
  | [] => (x, .ok ())
  | m :: rest =>
    match x.deliver m with
    | (x, .ok ()) => x.reply rest
    | (y, .error e) => ({ y with delivered := x.delivered }, .error e)

def serve (x : Exchange) (r : Request) : Exchange × Except Failure Unit :=
  match Request.decode r.encode with
  | .error e => (x, .error (.request e))
  | .ok request =>
    let (server, replies) := x.server.process request
    let (x, answer) :=
      { x with server := server, served := x.served ++ [r.encode] }.reply replies
    (x, answer.mapError .message)

/-- Serves requests, up to the first failure. Those after it are lost. -/
def serveAll (x : Exchange) : List Request → Exchange × Except Failure Unit
  | [] => (x, .ok ())
  | r :: rest =>
    match x.serve r with
    | (x, .ok ()) => x.serveAll rest
    | failed => failed

/-- Takes all requests off the wire and serves them, then those that the session has sent meanwhile,
for so many times. -/
def pumpFor (x : Exchange) : Nat → Exchange × Except Failure Unit
  | 0 => (x, .ok ())
  | fuel + 1 =>
    match x.unserved with
    | [] => (x, .ok ())
    | requests =>
      match { x with unserved := [] }.serveAll requests with
      | (x, .ok ()) => x.collect.pumpFor fuel
      | failed => failed

/-- More than the requests that a pump can meet: those on the wire, and a few for every listen,
whose status changes a few times at most while only answers come. -/
def pumpBound (x : Exchange) : Nat := 8 * (x.unserved.length + x.session.listens.items.size + 1)

def pump (x : Exchange) : Exchange × Except Failure Unit :=
  let x := x.collect
  x.pumpFor x.pumpBound

def handshake (x : Exchange) : Exchange × Except SessionError Unit := x.deliver x.server.greeting

def setValue (x : Exchange) (p : Path) (v : Value) : Exchange × Except SessionError Unit :=
  let (server, messages) := x.server.setValue p v
  { x with server := server }.announce messages

/-- Drops the connection on the server's side. What is on the wire is lost. -/
def drop (x : Exchange) (recoverable : Bool) : Exchange × Except SessionError Unit :=
  let (server, message) := x.server.disconnect recoverable
  { x.collect with server := server, unserved := [] }.deliver message

end Exchange

end LiveTree
