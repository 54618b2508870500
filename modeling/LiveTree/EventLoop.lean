import LiveTree.Session.Inbound

/-!
A session that is served by one loop, with a handle for its users. Messages of the server wait in an
inbox. Whatever runs next takes them first, in order; then comes the user's command, and then a
timer that is due. Time passes only while the user sleeps.
-/

namespace LiveTree

inductive Refusal where
  /-- The user has given the handle away. -/
  | noHandle
  | ended
deriving DecidableEq, Repr

structure Ticket where
  id : RequestId
  taken : Bool

inductive TicketState where
  | absent
  | pending
  | done (id : RequestId) (outcome : Except SessionError (Option Value))
  | taken

structure EventLoop where
  session : Session
  inbox : List Message := []
  tickets : List Ticket := []
  ended : Bool := false
  held : Bool := true

namespace EventLoop

/-- Forgets what was sent and reported. The ends of requests are kept for their tickets. -/
def clearLogs (l : EventLoop) : EventLoop :=
  { l with session.wire.link.sent := [], session.events := [] }

def post (l : EventLoop) (m : Message) : EventLoop :=
  if l.ended then l else { l with inbox := l.inbox ++ [m] }

def takeInbox (l : EventLoop) : EventLoop :=
  { l with session := l.inbox.foldl Session.receive l.session, inbox := [] }

def wake (l : EventLoop) : EventLoop :=
  if l.session.deadline.any fun t => decide (t ≤ l.session.now) then
    { l with session := l.session.tick }
  else l

def refusal? (l : EventLoop) : Option Refusal :=
  if !l.held then some .noHandle else if l.ended then some .ended else none

def command {α : Type} (l : EventLoop) (f : Session → Session × α) :
    EventLoop × Except Refusal α :=
  match l.refusal? with
  | some refusal => (l, .error refusal)
  | none =>
    let l := l.takeInbox
    let (session, answer) := f l.session
    ({ l with session := session }.wake, .ok answer)

def ask {α : Type} (l : EventLoop) (f : Session → α) : EventLoop × Except Refusal α :=
  l.command fun s => (s, f s)

def submit {α : Type} (l : EventLoop) (f : Session → Session × Except SessionError α)
    (id : α → RequestId) : EventLoop × Except Refusal (Except SessionError α) :=
  match l.command f with
  | (l, .ok (.ok a)) => ({ l with tickets := l.tickets ++ [⟨id a, false⟩] }, .ok (.ok a))
  | answer => answer

def outcome? (l : EventLoop) (id : RequestId) : Option (Except SessionError (Option Value)) :=
  (l.session.completions.find? fun c => c.id == id).map (·.outcome)

/-- Asks for the end of a request, by the number of its ticket. Nothing runs. -/
def poll (l : EventLoop) (n : Nat) : EventLoop × TicketState :=
  match l.tickets[n]? with
  | none => (l, .absent)
  | some ticket =>
    if ticket.taken then (l, .taken)
    else match l.outcome? ticket.id with
      | none => (l, .pending)
      | some outcome =>
        ({ l with tickets := l.tickets.set n { ticket with taken := true } },
          .done ticket.id outcome)

/-- Lets time pass up to the target, with a stop at every deadline on the way. -/
def sleepUntil (target : Nanos) : Nat → Session → Session
  | 0, s => { s with clock := s.clock.moveTo target }
  | fuel + 1, s =>
    match s.deadline with
    | none => { s with clock := s.clock.moveTo target }
    | some t =>
      if t ≤ target then sleepUntil target fuel { s with clock := s.clock.moveTo t }.tick
      else { s with clock := s.clock.moveTo target }

/-- Sleeps for so many milliseconds. Timers that are set again are set for a millisecond later at
least, and a reconnect comes once, so two stops more than that are enough. -/
def sleep (l : EventLoop) (ms : Nat) : EventLoop :=
  let l := l.takeInbox
  { l with session := sleepUntil (l.session.now + Nanos.ofMillis ms) (ms + 2) l.session }

/-- Ends the loop after what is in the inbox. The session comes back as it is then; the requests
that still wait in it are given up. -/
def finish (l : EventLoop) : EventLoop × Session :=
  let s := l.takeInbox.session
  let dropped := s.completions ++ s.wire.requests.all.map Waiting.cancel
  ({ l with session := { s with completions := dropped }, inbox := [], ended := true }, s)

def shutdown (l : EventLoop) : EventLoop × Except Refusal Session :=
  match l.refusal? with
  | some refusal => (l, .error refusal)
  | none => (l.finish.1, .ok l.finish.2)

/-- Gives the handle away, which ends the loop too. The session comes back unless the loop had ended
already. -/
def abandon (l : EventLoop) : EventLoop × Option Session :=
  if l.ended then ({ l with held := false }, none)
  else ({ l.finish.1 with held := false }, some l.finish.2)

end EventLoop

end LiveTree
