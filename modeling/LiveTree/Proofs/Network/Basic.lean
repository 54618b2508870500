import LiveTree.Server
import LiveTree.Session.Inbound

/-!
# A session and a server, joined by two channels

Both channels keep their order. What the session has sent and the server has not taken yet is the
record of its link; what the server has answered and the session has not taken yet is the inbox. A
turn is one thing that somebody does: a call on the session, a change at the server, one message
taken from the front of a channel, or the loss of the connection, which empties both channels.

Turns come in any order. A cache is restored, and a session torn down, only while not connected.
-/

namespace LiveTree

structure Network where
  session : Session
  server : Server
  /-- What the server has sent and the session has not taken, the oldest first. -/
  inbox : List Message

namespace Network

inductive Turn where
  | watch (p : Path) (kind : EventKind)
  | unwatch (handle : Nat)
  | write (p : Path) (v : Value) (observed : Bool)
  | merge (p : Path) (v : Value) (observed : Bool)
  | push (p : Path) (v : Value) (observed : Bool)
  | restore (snapshot : Bytes)
  | teardown
  | connect
  /-- The session takes the timers that are due. -/
  | tick
  | pass (t : Nanos)
  /-- The server sends the handshake of a connection. -/
  | greet
  /-- The server takes the request at the front. -/
  | serve
  /-- The session takes the message at the front. -/
  | deliver
  | setValue (p : Path) (v : Value)
  /-- From now on the server refuses what lies at and below a path. -/
  | refuse (p : Path)
  /-- The connection is lost, with all that is on its way. -/
  | drop (recoverable : Bool)

/-- The session after its link has sent nothing, or nothing that was not taken. -/
def unsent (s : Session) (requests : List Request) : Session :=
  { s with wire.link.sent := requests }

def serve (x : Network) : Network :=
  match x.session.link.sent with
  | [] => x
  | r :: rest =>
    let (server, replies) := x.server.process r
    ⟨unsent x.session rest, server, x.inbox ++ replies⟩

def deliver (x : Network) : Network :=
  match x.inbox with
  | [] => x
  | m :: rest => ⟨x.session.receive m, x.server, rest⟩

def run (x : Network) : Turn → Network
  | .watch p kind => { x with session := (x.session.watch p kind).1 }
  | .unwatch handle => { x with session := (x.session.unwatch handle).1 }
  | .write p v observed => { x with session := (x.session.write p v observed).1 }
  | .merge p v observed => { x with session := (x.session.merge p v observed).1 }
  | .push p v observed => { x with session := (x.session.push p v observed).1 }
  | .restore snapshot => { x with session := (x.session.restore snapshot).1 }
  | .teardown => { x with session := x.session.teardown }
  | .connect => { x with session := x.session.connect.1 }
  | .tick => { x with session := x.session.tick }
  | .pass t => { x with session := x.session.advance t }
  | .greet => { x with inbox := x.inbox ++ [x.server.greeting] }
  | .serve => x.serve
  | .deliver => x.deliver
  | .setValue p v =>
    let (server, updates) := x.server.setValue p v
    { x with server := server, inbox := x.inbox ++ updates }
  | .refuse p => { x with server := { x.server with refused := x.server.refused ++ [p] } }
  | .drop recoverable =>
    let (server, closed) := x.server.disconnect recoverable
    ⟨(unsent x.session []).receive closed, server, []⟩

def Admits (x : Network) : Turn → Prop
  | .restore _ => x.session.isConnected = false
  | .teardown => x.session.isConnected = false
  | _ => True

def start (config : Config) (clock : Clock) (digits : PushKey.Source) (tokens : List String)
    (time : Nat) : Network :=
  ⟨Session.new config clock digits, { tokens := tokens, time := time }, []⟩

/-- What turns that satisfy a condition lead to. -/
inductive ReachableBy (allowed : Network → Turn → Prop) : Network → Prop where
  | start (config : Config) (clock : Clock) (digits : PushKey.Source) (tokens : List String)
      (time : Nat) : ReachableBy allowed (start config clock digits tokens time)
  | run {x : Network} (t : Turn) (h : allowed x t) :
      ReachableBy allowed x → ReachableBy allowed (x.run t)

abbrev Reachable (x : Network) : Prop := ReachableBy Admits x

/-- Connected, with nothing on its way. -/
structure Quiet (x : Network) : Prop where
  connected : x.session.isConnected = true
  sent : x.session.link.sent = []
  inbox : x.inbox = []

end Network

end LiveTree
