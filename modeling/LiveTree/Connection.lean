import LiveTree.Backoff

/-!
The phases of a connection and its two timers. The keepalive timer runs while the connection stands,
the reconnect timer while it is down and is to come back. A connection comes back by itself only
after it was asked for and lost; closing it, or a loss that is final, ends that.
-/

namespace LiveTree

/-- What a session is told at its start. -/
structure Config where
  url : String := ""
  keepalive : Nanos := Nanos.ofMillis 45000
  backoff : Backoff := {}
  /-- What is presented to the server after every handshake. -/
  credential : Option String := none
  maxPending : Nat := 1024

inductive Phase where
  | disconnected
  /-- The link is open, and the handshake is to come. -/
  | connecting
  | connected
  /-- A close was asked for, and its confirmation is to come. -/
  | disconnecting
deriving DecidableEq, Repr

namespace Phase

def name : Phase → String
  | disconnected => "Disconnected"
  | connecting => "Connecting"
  | connected => "Connected"
  | disconnecting => "Disconnecting"

def isActive : Phase → Bool
  | connecting => true
  | connected => true
  | _ => false

end Phase

structure Connection where
  backoff : Backoff
  interval : Nanos
  phase : Phase := .disconnected
  /-- The failures since the last handshake. -/
  attempts : Nat := 0
  /-- True when a lost connection is to come back. -/
  persistent : Bool := false
  reconnectAt : Option Nanos := none
  keepaliveAt : Option Nanos := none
  offset : Int := 0
  /-- True after a reconnect for which the backoff has no delay. -/
  broken : Bool := false

namespace Connection

def ofConfig (config : Config) : Connection :=
  { backoff := config.backoff, interval := config.keepalive }

def maxLead : Int := 9223372036854775807

/-- How far one clock is ahead of another, as far as 64 bits go. -/
def lead (server wall : Nat) : Int :=
  max (-maxLead - 1) (min maxLead ((server : Int) - (wall : Int)))

def beginConnect? (c : Connection) : Option Connection :=
  if c.phase = .disconnected then
    some { c with phase := .connecting, persistent := true, reconnectAt := none }
  else none

def handshake? (c : Connection) (now : Nanos) (wall server : Nat) : Option Connection :=
  if c.phase = .connecting then
    some { c with
      phase := .connected
      attempts := 0
      offset := lead server wall
      keepaliveAt := some (now + c.interval) }
  else none

def maxAttempts : Nat := Nat.pow 2 32 - 1

def scheduleReconnect (c : Connection) (now delay : Nanos) : Connection :=
  { c with attempts := min (c.attempts + 1) maxAttempts, reconnectAt := some (now + delay) }

/-- Takes the loss of the link. A delay that the server asks for goes before the backoff. The
second part is the delay until the reconnect, if there is to be one. -/
def closed (c : Connection) (now : Nanos) (recoverable : Bool) (retryAfter : Option Nanos) :
    Connection × Option Nanos :=
  let down := { c with phase := .disconnected, keepaliveAt := none }
  if c.phase = .disconnected then (c, none)
  else if c.phase = .disconnecting || !c.persistent then (down, none)
  else if !recoverable then ({ down with persistent := false }, none)
  else match retryAfter.or (c.backoff.delay? c.attempts) with
    | some delay => (down.scheduleReconnect now delay, some delay)
    | none => ({ down with broken := true }, none)

def beginClose (c : Connection) : Connection :=
  { c with
    persistent := false
    reconnectAt := none
    keepaliveAt := none
    phase := if c.phase.isActive then .disconnecting else c.phase }

def isDue (timer : Option Nanos) (now : Nanos) : Bool := timer.any fun t => decide (t ≤ now)

def reconnectDue (c : Connection) (now : Nanos) : Bool :=
  isDue c.reconnectAt now && c.phase == .disconnected

def keepaliveDue (c : Connection) (now : Nanos) : Bool :=
  isDue c.keepaliveAt now && c.phase == .connected

def takeReconnect (c : Connection) : Connection := { c with reconnectAt := none }

def takeKeepalive (c : Connection) (now : Nanos) : Connection :=
  { c with keepaliveAt := some (now + c.interval) }

def deadline (c : Connection) : Option Nanos :=
  match c.reconnectAt, c.keepaliveAt with
  | some a, some b => some (min a b)
  | a, b => a.or b

end Connection

end LiveTree
