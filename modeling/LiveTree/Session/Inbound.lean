import LiveTree.Session.Basic

/-!
What comes to a session from outside: the frames of the server, and the time.
-/

namespace LiveTree.Session

/-- Sends what is owed to a new connection: the credential, by the requests that wait with it or
else by one of its own, then the listens, then the writes. -/
def resume (s : Session) : Session :=
  let queued := s.wire.requests.queued
  let auths := queued.filter (·.isAuth)
  let wire := { s.wire with requests.queued := [] }
  let wire := match auths, s.credential with
    | [], some credential => (wire.submit true (fun id => Request.auth id credential) false).2
    | _, _ => auths.foldl (Wire.dispatch true) wire
  let (listens, wire) := s.listens.resume Wire.sink wire
  let writes := queued.filter fun w => !w.isAuth
  { s with listens := listens, wire := writes.foldl (Wire.dispatch true) wire }

def handshake (s : Session) (serverTime : Nat) : Session :=
  match s.connection.handshake? s.now s.clock.wall serverTime with
  | none => s
  | some connection =>
    { s with
      connection := connection
      wire.stats.handshakes := s.wire.stats.handshakes + 1 }.resume

def update (s : Session) (kind : UpdateKind) (p : Path) (data : Value) : Session :=
  let cache := match kind with
    | .put => s.cache.put p data
    | .merge => s.cache.merge p data
  { s with cache := cache }.report p

def outcome (status : Status) (data : Option Value) : Except SessionError (Option Value) :=
  match status with
  | .ok => .ok data
  | .rejected status => .error (.rejected status (data.bind Value.text?))

def settle (s : Session) (id : RequestId) (status : Status) (data : Option Value) : Session :=
  if s.wire.requests.isUntracked id then
    { s with wire.requests := s.wire.requests.forget id }
  else match s.wire.requests.inFlight.find? fun w => w.id == id with
    | none => { s with wire.stats.droppedResponses := s.wire.stats.droppedResponses + 1 }
    | some w =>
      { s with
        wire.requests := s.wire.requests.land id
        completions := s.completions ++ [w.finish (outcome status data)] }

def response (s : Session) (id : RequestId) (status : Status) (data : Option Value) : Session :=
  if s.listens.awaits id then
    let (listens, wire) := s.listens.answer Wire.sink s.wire id status.isOk
    { s with listens := listens, wire := wire }
  else s.settle id status data

def receive (s : Session) : Message → Session
  | .handshake serverTime => s.handshake serverTime
  | .update kind p data => s.update kind p data
  | .response id status data => s.response id status data
  | .closed recoverable retryAfter => s.lose recoverable retryAfter

/-- Takes a frame of the server. One that cannot be read is counted. -/
def receiveFrame (s : Session) (frame : String) : Session × Except SessionError Unit :=
  match Message.decode frame with
  | .ok m => (s.receive m, .ok ())
  | .error e =>
    ({ s with wire.stats.protocolErrors := s.wire.stats.protocolErrors + 1 }, .error (.frame e))

def deadline (s : Session) : Option Nanos := s.connection.deadline

def tickKeepalive (s : Session) : Session :=
  if s.connection.keepaliveDue s.now then
    { s with connection := s.connection.takeKeepalive s.now, wire := s.wire.keepalive }
  else s

def tickReconnect (s : Session) : Session :=
  if s.connection.reconnectDue s.now then
    { s with
      connection := s.connection.takeReconnect
      wire.stats.reconnects := s.wire.stats.reconnects + 1 }.connect.1
  else s

def tick (s : Session) : Session := s.tickKeepalive.tickReconnect

def advance (s : Session) (t : Nanos) : Session := { s with clock := s.clock.advance t }

end LiveTree.Session
