import LiveTree.Cache.Basic
import LiveTree.Clock
import LiveTree.Frame.Message
import LiveTree.PushKey
import LiveTree.Session.Wire
import LiveTree.Subscriptions

/-!
A session: the client's side of a synchronised tree. What it reports is kept in its logs, the oldest
first: the requests that were sent in the link, the events of subscriptions, and the ends of
requests.
-/

namespace LiveTree

structure Session where
  config : Config
  clock : Clock
  connection : Connection
  cache : Cache
  listens : Listens
  subscriptions : Subscriptions
  wire : Wire
  pushKeys : PushKey.Generator
  credential : Option String
  events : List Event
  completions : List Completion

namespace Session

def new (config : Config) (clock : Clock) (digits : PushKey.Source) : Session where
  config := config
  clock := clock
  connection := Connection.ofConfig config
  cache := Cache.empty
  listens := Listens.empty
  subscriptions := Subscriptions.empty
  wire := {}
  pushKeys := PushKey.Generator.ofSource digits
  credential := config.credential
  events := []
  completions := []

def phase (s : Session) : Phase := s.connection.phase

def isConnected (s : Session) : Bool := s.phase == .connected

def link (s : Session) : Link := s.wire.link

def stats (s : Session) : Stats := s.wire.stats

def now (s : Session) : Nanos := s.clock.elapsed

/-- The time on the server's wall clock as far as known, in milliseconds of 64 bits. -/
def serverNow (s : Session) : Nat :=
  min Frame.maxUnsigned ((s.clock.wall : Int) + s.connection.offset).toNat

/-- True after something that has no result: a reconnect without a delay, or a time past the last
millisecond. What the session does from there on means nothing. -/
def isBroken (s : Session) : Bool :=
  s.connection.broken || s.clock.isOver || s.pushKeys.isSpent

def clearLogs (s : Session) : Session :=
  { s with wire.link.sent := [], events := [], completions := [] }

/-- Takes the loss of the connection: the listens and the requests that were sent wait for the next
one. -/
def lose (s : Session) (recoverable : Bool) (retryAfter : Option Nanos) : Session :=
  if s.phase = .disconnected then s
  else { s with
    connection := (s.connection.closed s.now recoverable retryAfter).1
    listens := s.listens.suspend
    wire.requests := s.wire.requests.requeue }

/-- Opens the link. An attempt that fails is a lost connection. -/
def connect (s : Session) : Session × Except SessionError Unit :=
  match s.connection.beginConnect? with
  | none => (s, .error (.badTransition s.phase .connecting))
  | some connection =>
    let (link, fault) := s.link.openTo s.config.url
    let s := { s with connection := connection, wire.link := link }
    match fault with
    | none => (s, .ok ())
    | some fault => (s.lose fault.retryable none, .error (.link fault.message fault.retryable))

/-- Closes the link if it is active, and in any case gives up reconnecting. -/
def close (s : Session) : Session × Except SessionError Unit :=
  let closing := { s with connection := s.connection.beginClose }
  if s.phase.isActive then
    let (link, fault) := s.link.close
    let closing := { closing with wire.link := link }
    match fault with
    | none => (closing, .ok ())
    | some fault => (closing.lose false none, .error (.link fault.message fault.retryable))
  else (closing, .ok ())

def watch (s : Session) (p : Path) (kind : EventKind) : Session × Nat :=
  let subscriptions := s.subscriptions.subscribe p kind s.cache
  let (listens, wire) := s.listens.acquire Wire.sink s.wire p
  ({ s with subscriptions := subscriptions, listens := listens, wire := wire },
    subscriptions.lastHandle)

def unwatch (s : Session) (handle : Nat) : Session × Except SessionError Unit :=
  match s.subscriptions.path? handle with
  | none => (s, .error (.unknownHandle handle))
  | some p =>
    let (listens, wire) := s.listens.release Wire.sink s.wire p
    let subscriptions := s.subscriptions.remove handle p
    ({ s with subscriptions := subscriptions, listens := listens, wire := wire }, .ok ())

def report (s : Session) (p : Path) : Session :=
  let (subscriptions, events) := s.subscriptions.cacheChanged s.cache p
  { s with
    subscriptions := subscriptions
    events := s.events ++ events
    wire.stats.callbacksFired := s.wire.stats.callbacksFired + events.length }

def restore (s : Session) (snapshot : Bytes) : Session × Except SessionError Unit :=
  match Cache.ofSnapshot snapshot with
  | .error e => (s, .error (.snapshot e))
  | .ok cache => ({ s with cache := cache }.report Path.root, .ok ())

def submit (s : Session) (make : RequestId → Request) (observed : Bool) :
    Session × Except SessionError RequestId :=
  if s.config.maxPending ≤ s.wire.requests.outstanding then
    (s, .error (.tooManyPending s.config.maxPending))
  else
    let (id, wire) := s.wire.submit s.isConnected make observed
    ({ s with wire := wire }, .ok id)

def write (s : Session) (p : Path) (v : Value) (observed : Bool) :
    Session × Except SessionError RequestId :=
  s.submit (fun id => Request.put id p v) observed

def merge (s : Session) (p : Path) (v : Value) (observed : Bool) :
    Session × Except SessionError RequestId :=
  s.submit (fun id => Request.merge id p v) observed

/-- Writes a value under a new key below a path. The key is used up even if that fails. -/
def push (s : Session) (p : Path) (v : Value) (observed : Bool) :
    Session × Except SessionError (String × RequestId) :=
  let (key, pushKeys) := s.pushKeys.generate s.serverNow
  let s := { s with pushKeys := pushKeys }
  match p.child key with
  | .error e => (s, .error (.path e))
  | .ok child =>
    let (s, answer) := s.write child v observed
    (s, answer.map fun id => (key, id))

/-- Presents a credential, now or with the next connection. It takes the place of those that wait to
be sent. -/
def authenticate (s : Session) (credential : String) (observed : Bool) : Session × RequestId :=
  let queued := s.wire.requests.queued
  let wire :=
    { s.wire with requests.queued := queued.filter fun w => !w.isAuth }
  let (id, wire) := wire.submit s.isConnected (fun id => Request.auth id credential) observed
  ({ s with
    credential := some credential
    wire := wire
    completions := s.completions ++ (queued.filter (·.isAuth)).map Waiting.cancel }, id)

/-- Closes the connection and drops all state. What waits ends without an answer. -/
def teardown (s : Session) : Session :=
  let s := s.close.1
  { s with
    subscriptions := s.subscriptions.clear
    listens := s.listens.clear
    cache := Cache.empty
    wire.requests := s.wire.requests.clear
    completions := s.completions ++ s.wire.requests.all.map Waiting.cancel }

end Session

end LiveTree
