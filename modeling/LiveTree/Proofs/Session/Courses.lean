import LiveTree.Proofs.Session.Traffic

/-!
# The course of a connection

A call does one of a few things to the connection, or nothing: it takes a handshake, keeps the
connection alive, loses it, gives it up, or asks the link to open. The link counts the last of these,
and nothing else.
-/

namespace LiveTree

open Listens

section Wire
variable {w : Wire}

/-- How much an attempt to open adds to the count. One that does not come as far as the link is not
counted. -/
def Link.counted (l : Link) : Nat := if l.openFault.all (·.reached) then 1 else 0

theorem Link.opens_openTo (l : Link) (url : String) :
    (l.openTo url).1.opens = l.opens + l.counted := by
  unfold openTo counted
  cases l.openFault with
  | none => rfl
  | some fault => cases hr : fault.reached <;> simp [hr]

theorem Link.opens_close (l : Link) : l.close.1.opens = l.opens := by
  unfold close
  split <;> rfl

theorem Wire.opens_send (w : Wire) (r : Request) {count : Wire → Wire}
    (still : ∀ w, (count w).link = w.link) :
    (((w.send? r).map count).getD w).link.opens = w.link.opens := by
  unfold send? Link.send?
  split
  · exact (congrArg Link.opens (still _) :)
  · rfl

theorem Wire.opens_keepalive (w : Wire) : w.keepalive.link.opens = w.link.opens :=
  opens_send { w with requests := w.requests.allocateUntracked.2 } _ fun _ => rfl

theorem Wire.opens_dispatch (connected : Bool) (w : Wire) (r : Waiting) :
    (dispatch connected w r).link.opens = w.link.opens := by
  unfold dispatch send? Link.send? countWrite
  cases connected with
  | false => rfl
  | true =>
    cases w.link.isOpen with
    | false => rfl
    | true => simp only [if_true, Option.map_some]; split <;> rfl

theorem Wire.opens_dispatches (rs : List Waiting) (w : Wire) :
    (rs.foldl (dispatch true) w).link.opens = w.link.opens := by
  induction rs generalizing w with
  | nil => rfl
  | cons r rs ih => exact (ih _).trans (opens_dispatch true w r)

theorem Wire.opens_submit (connected : Bool) (w : Wire) (make : RequestId → Request)
    (observed : Bool) : (w.submit connected make observed).2.link.opens = w.link.opens :=
  opens_dispatch connected { w with requests := w.requests.allocate.2 } _

theorem Listens.Action.opens (a : Listens.Action) {l : Listens} (sound : l.items.Sound)
    (w : Wire) : (a.run Wire.sink (l, w)).2.link.opens = w.link.opens := by
  refine Action.wire_rel (R := fun u v : Wire => v.link.opens = u.link.opens) (fun _ => rfl)
    (fun first second => second.trans first) (fun p w => ?_) (fun p w => ?_) a (l, w) sound
  · exact Wire.opens_send { w with requests := w.requests.allocate.2 } _ fun _ => rfl
  · exact Wire.opens_send { w with requests := w.requests.allocateUntracked.2 } _ fun _ => rfl

end Wire

namespace Connection

theorem isDue_iff {timer : Option Nanos} {now : Nanos} :
    isDue timer now = true ↔ ∃ t, timer = some t ∧ t ≤ now := by
  cases timer with
  | none => simp [isDue]
  | some t => simp [isDue]

/-- The connection while the link opens. -/
def begun (c : Connection) : Connection :=
  { c with phase := .connecting, persistent := true, reconnectAt := none }

/-- The connection after the link could not be opened. -/
def failed (c : Connection) (now : Nanos) (fault : LinkFault) : Connection :=
  (c.begun.closed now fault.retryable none).1

/-- The connection after the link could not be closed: it is down at once. -/
def forced (c : Connection) (now : Nanos) : Connection :=
  (c.beginClose.closed now false none).1

theorem begun_up (c : Connection) : c.begun.phase ≠ .disconnected :=
  (nofun : Phase.connecting ≠ .disconnected)

theorem beginClose_up {c : Connection} (active : c.phase.isActive = true) :
    c.beginClose.phase ≠ .disconnected := by
  have closing : c.beginClose.phase = .disconnecting := if_pos active
  rw [closing]
  exact nofun

/-- The connection after a handshake. -/
def greeted (c : Connection) (now : Nanos) (wall server : Nat) : Connection :=
  { c with
    phase := .connected
    attempts := 0
    offset := lead server wall
    keepaliveAt := some (now + c.interval) }

theorem handshake?_eq_some {c d : Connection} {now : Nanos} {wall server : Nat}
    (taken : c.handshake? now wall server = some d) :
    c.phase = .connecting ∧ d = c.greeted now wall server := by
  unfold handshake? at taken
  split at taken
  · exact ⟨‹_›, (Option.some.inj taken).symm⟩
  · cases taken

end Connection

/-- A connection that is lost comes back only if that was asked for and the loss is not final. -/
inductive Connection.Lost (c : Connection) (now : Nanos) (retryAfter : Option Nanos) :
    Bool → Connection → Prop where
  | dropped {recoverable : Bool} (unwanted : c.phase = .disconnecting ∨ c.persistent = false) :
    Lost c now retryAfter recoverable { c with phase := .disconnected, keepaliveAt := none }
  | final (wanted : c.phase ≠ .disconnecting ∧ c.persistent = true) :
    Lost c now retryAfter false
      { c with phase := .disconnected, keepaliveAt := none, persistent := false }
  | scheduled {delay : Nanos} (wanted : c.phase ≠ .disconnecting ∧ c.persistent = true)
      (wait : retryAfter.or (c.backoff.delay? c.attempts) = some delay) :
    Lost c now retryAfter true (Connection.scheduleReconnect
      { c with phase := .disconnected, keepaliveAt := none } now delay)
  | broken (wanted : c.phase ≠ .disconnecting ∧ c.persistent = true)
      (wait : retryAfter.or (c.backoff.delay? c.attempts) = none) :
    Lost c now retryAfter true
      { c with phase := .disconnected, keepaliveAt := none, broken := true }

theorem Connection.lost_closed {c : Connection} (up : c.phase ≠ .disconnected) (now : Nanos)
    (recoverable : Bool) (retryAfter : Option Nanos) :
    c.Lost now retryAfter recoverable (c.closed now recoverable retryAfter).1 := by
  unfold closed
  rw [if_neg up]
  by_cases unwanted : c.phase = .disconnecting ∨ c.persistent = false
  · have quiet : (decide (c.phase = .disconnecting) || !c.persistent) = true := by
      simpa using unwanted
    simp only [quiet, if_true]
    exact .dropped unwanted
  · have wanted : c.phase ≠ .disconnecting ∧ c.persistent = true := by
      simpa using unwanted
    have loud : (decide (c.phase = .disconnecting) || !c.persistent) = false := by
      simp [wanted]
    cases recoverable with
    | false =>
      simp only [loud]
      exact .final wanted
    | true =>
      simp only [loud]
      cases wait : retryAfter.or (c.backoff.delay? c.attempts) with
      | some delay => exact .scheduled wanted wait
      | none => exact .broken wanted wait

theorem Connection.lost_failed (c : Connection) (now : Nanos) (fault : LinkFault) :
    c.begun.Lost now none fault.retryable (c.failed now fault) :=
  lost_closed c.begun_up now fault.retryable none

theorem Connection.lost_forced {c : Connection} (active : c.phase.isActive = true) (now : Nanos) :
    c.beginClose.Lost now none false (c.forced now) :=
  lost_closed (beginClose_up active) now false none

namespace Session

/-- True when a call asks the link to open: by the application while there is no connection, or by
the timer. -/
def opensLink (s : Session) : Call → Bool
  | .connect => s.phase == .disconnected
  | .tick => s.connection.reconnectDue s.now
  | _ => false

/-- Calls that end a connection for good. -/
def Call.closes : Call → Bool
  | .close => true
  | .teardown => true
  | _ => false

/-- What a call does to the connection, and to the count of attempts to open the link. -/
inductive Course (s : Session) (c : Call) (t : Session) : Prop where
  | still (connection : t.connection = s.connection) (opens : t.link.opens = s.link.opens)
      (unopened : s.opensLink c = false) (open_ : c.closes = false)
      (kept : ∀ recoverable retryAfter, c.message? = some (.closed recoverable retryAfter) →
        s.phase = .disconnected)
  | greeted {time : Nat} (message : c.message? = some (.handshake time))
      (taken : s.connection.handshake? s.now s.clock.wall time = some t.connection)
      (opens : t.link.opens = s.link.opens)
  | beat (tick : c = .tick) (due : s.connection.keepaliveDue s.now = true)
      (connection : t.connection = s.connection.takeKeepalive s.now)
      (opens : t.link.opens = s.link.opens)
  | lost {recoverable : Bool} {retryAfter : Option Nanos}
      (message : c.message? = some (.closed recoverable retryAfter)) (up : s.phase ≠ .disconnected)
      (connection : t.connection = (s.connection.closed s.now recoverable retryAfter).1)
      (opens : t.link.opens = s.link.opens)
  | closed (closes : c.closes = true)
      (connection : t.connection = s.connection.beginClose
        ∨ s.phase.isActive = true ∧ t.connection = s.connection.forced s.now)
      (opens : t.link.opens = s.link.opens)
  | opened (opening : s.opensLink c = true) (fault : s.link.openFault = none)
      (connection : t.connection = s.connection.begun) (opens : t.link.opens = s.link.opens + 1)
  | failed {fault : LinkFault} (opening : s.opensLink c = true)
      (faulty : s.link.openFault = some fault)
      (connection : t.connection = s.connection.failed s.now fault)
      (opens : t.link.opens = s.link.opens + s.link.counted)

section Calls
variable {s t : Session} {c : Call}

theorem opensLink_of_message {m : Message} (h : c.message? = some m) : s.opensLink c = false := by
  cases c with
  | connect | tick => cases h
  | _ => rfl

theorem closes_of_message {m : Message} (h : c.message? = some m) : c.closes = false := by
  cases c with
  | close | teardown => cases h
  | _ => rfl

theorem unopened_of_closes (closes : c.closes = true) : s.opensLink c = false := by
  cases c with
  | connect | tick => cases closes
  | _ => rfl

theorem disconnected_of_opensLink (opening : s.opensLink c = true) : s.phase = .disconnected := by
  cases c with
  | connect => exact beq_iff_eq.mp opening
  | tick => exact beq_iff_eq.mp (Bool.and_eq_true_iff.mp opening).2
  | _ => cases opening

theorem Course.calm (connection : t.connection = s.connection)
    (opens : t.link.opens = s.link.opens) (unopened : s.opensLink c = false)
    (open_ : c.closes = false) (silent : c.message? = none) : Course s c t :=
  .still connection opens unopened open_ fun _ _ message => by
    rw [silent] at message
    cases message

theorem Course.heard {m : Message} (connection : t.connection = s.connection)
    (opens : t.link.opens = s.link.opens) (message : c.message? = some m)
    (kept : ∀ recoverable retryAfter, m = .closed recoverable retryAfter →
      s.phase = .disconnected) : Course s c t :=
  .still connection opens (opensLink_of_message message) (closes_of_message message)
    fun _ _ lost => kept _ _ (Option.some.inj (message.symm.trans lost))

theorem connection_lose (up : s.phase ≠ .disconnected) (recoverable : Bool)
    (retryAfter : Option Nanos) : (s.lose recoverable retryAfter).connection
      = (s.connection.closed s.now recoverable retryAfter).1 := by
  rw [lose, if_neg up]

theorem course_opening {u : Session} (opening : s.opensLink c = true)
    (begun : u.connection.beginConnect? = some s.connection.begun) (link : u.link = s.link)
    (clock : u.clock = s.clock) : Course s c u.connect.1 := by
  have counted := Link.opens_openTo s.link u.config.url
  unfold connect
  simp only [begun, link]
  cases hf : s.link.openFault with
  | none =>
    rw [Link.counted, hf] at counted
    simp only [Link.openTo, hf]
    exact .opened opening hf rfl rfl
  | some fault =>
    have tried : (s.link.openTo u.config.url).2 = some fault := by
      rw [Link.openTo, hf]
    simp only [tried]
    refine .failed opening hf ?_ ?_
    · refine (connection_lose ?_ fault.retryable none).trans ?_
      · exact s.connection.begun_up
      · rw [now, clock]
        rfl
    · rw [Session.link, sent_lose]
      exact counted

theorem course_connect (s : Session) : Course s .connect s.connect.1 := by
  by_cases down : s.phase = .disconnected
  · exact course_opening (beq_iff_eq.mpr down) (if_pos down) rfl rfl
  · have refused : s.connection.beginConnect? = none := if_neg down
    rw [connect, refused]
    exact .calm rfl rfl (beq_eq_false_iff_ne.mpr down) rfl rfl

theorem course_close (closes : c.closes = true) : Course s c s.close.1 := by
  unfold close
  dsimp only
  split
  · rename_i active
    split
    · exact .closed closes (.inl rfl) (Link.opens_close s.link)
    · have lost := connection_lose (s := { s with
        connection := s.connection.beginClose, wire.link := s.link.close.1 })
        (Connection.beginClose_up active) false none
      refine .closed closes (.inr ⟨active, lost⟩) ?_
      rw [link, sent_lose]
      exact Link.opens_close s.link
  · exact .closed closes (.inl rfl) rfl

theorem opens_resume (sound : s.listens.items.Sound) : s.resume.link.opens = s.link.opens := by
  have credited : s.credited.link.opens = s.link.opens := by
    rcases s.credited_cases with ⟨credential, _, _, same⟩ | same
    · rw [same]
      exact Wire.opens_submit true _ _ false
    · rw [same]
      exact Wire.opens_dispatches _ _
  have listened := Action.opens .resume sound s.credited
  exact (Wire.opens_dispatches _ _).trans (listened.trans credited)

theorem course_receive (sound : s.listens.items.Sound) {m : Message}
    (message : c.message? = some m) : Course s c (s.receive m) := by
  cases m with
  | handshake time =>
    rw [receive, handshake]
    split
    · exact .heard rfl rfl message nofun
    · rename_i connection taken
      exact .greeted message taken (opens_resume (s := { s with
        connection := connection, wire.stats.handshakes := s.wire.stats.handshakes + 1 }) sound)
  | update kind p v => exact .heard rfl rfl message nofun
  | response id status data =>
    rw [receive, response]
    split
    · exact .heard rfl (Action.opens (.answer id status.isOk) sound s.wire) message nofun
    · unfold settle
      split
      · exact .heard rfl rfl message nofun
      · split <;> exact .heard rfl rfl message nofun
  | closed recoverable retryAfter =>
    rw [receive]
    by_cases up : s.phase = .disconnected
    · have same : s.lose recoverable retryAfter = s := by rw [lose, if_pos up]
      exact .heard (congrArg connection same) (congrArg (·.link.opens) same) message fun _ _ _ => up
    · exact .lost message up (connection_lose up recoverable retryAfter) (by rw [link, sent_lose]; rfl)

theorem tick_idle (keepalive : s.connection.keepaliveDue s.now = false)
    (reconnect : s.connection.reconnectDue s.now = false) : s.tick = s := by
  have same : s.tickKeepalive = s := by rw [tickKeepalive, keepalive, if_neg Bool.false_ne_true]
  rw [tick, same, tickReconnect, reconnect, if_neg Bool.false_ne_true]

theorem reconnectDue_of_keepaliveDue (due : s.connection.keepaliveDue s.now = true) :
    s.connection.reconnectDue s.now = false := by
  have up : s.connection.phase = .connected := beq_iff_eq.mp (Bool.and_eq_true_iff.mp due).2
  rw [Connection.reconnectDue, up]
  exact Bool.and_false _

theorem tick_keepalive (due : s.connection.keepaliveDue s.now = true) : s.tick = { s with
    connection := s.connection.takeKeepalive s.now, wire := s.wire.keepalive } := by
  have other := reconnectDue_of_keepaliveDue due
  have kept : s.tickKeepalive = { s with
      connection := s.connection.takeKeepalive s.now, wire := s.wire.keepalive } := by
    rw [tickKeepalive, due, if_pos rfl]
  have rest : Connection.reconnectDue (s.connection.takeKeepalive s.now) s.now = false := other
  rw [tick, kept, tickReconnect]
  exact if_neg (Bool.eq_false_iff.mp rest)

theorem tick_reconnect (due : s.connection.reconnectDue s.now = true) : s.tick = ({ s with
    connection := s.connection.takeReconnect
    wire.stats.reconnects := s.wire.stats.reconnects + 1 } : Session).connect.1 := by
  have other : s.connection.keepaliveDue s.now = false := by
    cases keepalive : s.connection.keepaliveDue s.now with
    | false => rfl
    | true => rw [reconnectDue_of_keepaliveDue keepalive] at due; cases due
  have same : s.tickKeepalive = s := by rw [tickKeepalive, other, if_neg Bool.false_ne_true]
  rw [tick, same, tickReconnect, due, if_pos rfl]

theorem course_tick (s : Session) : Course s .tick s.tick := by
  cases keepalive : s.connection.keepaliveDue s.now with
  | true =>
    rw [tick_keepalive keepalive]
    exact .beat rfl keepalive rfl (Wire.opens_keepalive _)
  | false =>
    cases reconnect : s.connection.reconnectDue s.now with
    | false =>
      rw [tick_idle keepalive reconnect]
      exact .calm rfl rfl reconnect rfl rfl
    | true =>
      have down : s.connection.phase = .disconnected :=
        beq_iff_eq.mp (Bool.and_eq_true_iff.mp reconnect).2
      rw [tick_reconnect reconnect]
      exact course_opening (u := { s with
        connection := s.connection.takeReconnect
        wire.stats.reconnects := s.wire.stats.reconnects + 1 }) reconnect (if_pos down) rfl rfl

theorem course_submit (unopened : s.opensLink c = false) (open_ : c.closes = false)
    (silent : c.message? = none) {u : Session} (connection : u.connection = s.connection)
    (link : u.link = s.link) (make : RequestId → Request) (observed : Bool) :
    Course s c (u.submit make observed).1 := by
  unfold submit
  split
  · exact .calm connection (congrArg Link.opens link) unopened open_ silent
  · exact .calm connection ((Wire.opens_submit _ _ _ _).trans (congrArg Link.opens link)) unopened
      open_ silent

theorem course_call (h : Ready s) (c : Call) : Course s c (s.call c) := by
  cases c with
  | connect => exact course_connect s
  | close => exact course_close rfl
  | teardown =>
    cases course_close (s := s) (c := .teardown) rfl with
    | closed _ connection opens => exact .closed rfl connection opens
    | still _ _ _ open_ => cases open_
    | greeted message | lost message => cases message
    | beat tick => cases tick
    | opened opening | failed opening => cases opening
  | watch p kind => exact .calm rfl (Action.opens (.acquire p) h.sound s.wire) rfl rfl rfl
  | unwatch handle =>
    rw [call, unwatch]
    split
    · exact .calm rfl rfl rfl rfl rfl
    · exact .calm rfl (Action.opens (.release _) h.sound s.wire) rfl rfl rfl
  | write p v observed => exact course_submit rfl rfl rfl rfl rfl _ observed
  | merge p v observed => exact course_submit rfl rfl rfl rfl rfl _ observed
  | push p v observed =>
    rw [call, push]
    dsimp only
    split
    · exact .calm rfl rfl rfl rfl rfl
    · rename_i child _
      exact course_submit (s := s) (c := .push p v observed)
        (u := { s with pushKeys := (s.pushKeys.generate s.serverNow).2 }) rfl rfl rfl rfl rfl
        (fun id => Request.put id child v) observed
  | authenticate credential observed =>
    refine .calm rfl ?_ rfl rfl rfl
    exact (Wire.opens_submit s.isConnected _ (fun id => Request.auth id credential) observed).trans rfl
  | restore snapshot =>
    rw [call, restore]
    split <;> exact .calm rfl rfl rfl rfl rfl
  | receive m => exact course_receive h.sound rfl
  | frame text =>
    rw [call, receiveFrame]
    cases read : Message.decode text with
    | ok m => exact course_receive h.sound (by rw [Call.message?, read]; rfl)
    | error e => exact .calm rfl rfl rfl rfl (by rw [Call.message?, read]; rfl)
  | tick => exact course_tick s
  | pass t | ask names | faults opening closing | drain => exact .calm rfl rfl rfl rfl rfl

/-- Whoever asks the link to open has a connection that begins, or one that has failed. -/
theorem Course.begun_or_failed (course : Course s c t) (opening : s.opensLink c = true) :
    s.link.openFault = none ∧ t.connection = s.connection.begun
      ∨ ∃ fault, s.link.openFault = some fault ∧ t.connection = s.connection.failed s.now fault := by
  cases course with
  | opened _ fault connection => exact .inl ⟨fault, connection⟩
  | failed _ faulty connection => exact .inr ⟨_, faulty, connection⟩
  | still _ _ unopened => exact nomatch unopened.symm.trans opening
  | greeted message | lost message =>
    exact nomatch (opensLink_of_message message).symm.trans opening
  | beat tick due =>
    rw [tick] at opening
    exact nomatch (reconnectDue_of_keepaliveDue due).symm.trans opening
  | closed closes => exact nomatch (unopened_of_closes closes).symm.trans opening

theorem opens_call (h : Ready s) (c : Call) : (s.call c).link.opens
    = s.link.opens + if s.opensLink c then s.link.counted else 0 := by
  have course := course_call h c
  cases course with
  | still _ opens unopened => rw [unopened]; exact opens
  | greeted message _ opens => rw [opensLink_of_message message]; exact opens
  | beat tick due _ opens =>
    have unopened : s.opensLink c = false := by
      rw [tick]
      exact reconnectDue_of_keepaliveDue due
    rw [unopened]
    exact opens
  | lost message _ _ opens => rw [opensLink_of_message message]; exact opens
  | closed closes _ opens =>
    rw [unopened_of_closes closes]
    exact opens
  | opened opening fault _ opens =>
    rw [opening, if_pos rfl, Link.counted, fault]
    exact opens
  | failed opening faulty _ opens => rw [opening, if_pos rfl]; exact opens

end Calls

end Session

end LiveTree
