import LiveTree.EventLoop
import LiveTree.Proofs.Session.Conservation
import LiveTree.Proofs.Session.Courses

/-!
# Timers are taken

A timer is set only in the phase that takes it. So whoever sleeps until the next deadline, and then
ticks, moves it on: the next one, if there is one, is later.
-/

namespace LiveTree

/-- The keepalive timer is set only on a connection that stands, the reconnect timer only while there
is none. -/
structure Connection.Timed (c : Connection) : Prop where
  keepalive : ∀ t, c.keepaliveAt = some t → c.phase = .connected
  reconnect : ∀ t, c.reconnectAt = some t → c.phase = .disconnected

/-- What a connection was told at its start stays. -/
structure Connection.Configured (c : Connection) (config : Config) : Prop where
  interval : c.interval = config.keepalive
  backoff : c.backoff = config.backoff

namespace Connection
variable {c : Connection}

theorem Timed.keepaliveAt (h : c.Timed) (other : c.phase ≠ .connected) : c.keepaliveAt = none :=
  Option.eq_none_iff_forall_ne_some.mpr fun t set => other (h.keepalive t set)

theorem Timed.reconnectAt (h : c.Timed) (other : c.phase ≠ .disconnected) :
    c.reconnectAt = none :=
  Option.eq_none_iff_forall_ne_some.mpr fun t set => other (h.reconnect t set)

theorem Timed.keepaliveAt_of_down (h : c.Timed) (down : c.phase = .disconnected) :
    c.keepaliveAt = none :=
  h.keepaliveAt (by rw [down]; exact nofun)

theorem Timed.reconnectAt_of_up (h : c.Timed) (up : c.phase = .connected) :
    c.reconnectAt = none :=
  h.reconnectAt (by rw [up]; exact nofun)

theorem deadline_eq_reconnectAt (idle : c.keepaliveAt = none) : c.deadline = c.reconnectAt := by
  unfold deadline
  rw [idle]
  cases c.reconnectAt <;> rfl

theorem deadline_eq_keepaliveAt (idle : c.reconnectAt = none) : c.deadline = c.keepaliveAt := by
  unfold deadline
  rw [idle]
  rfl

theorem keepaliveDue_iff {now : Nanos} : c.keepaliveDue now = true
    ↔ (∃ t, c.keepaliveAt = some t ∧ t ≤ now) ∧ c.phase = .connected := by
  rw [keepaliveDue, Bool.and_eq_true, isDue_iff, beq_iff_eq]

theorem reconnectDue_iff {now : Nanos} : c.reconnectDue now = true
    ↔ (∃ t, c.reconnectAt = some t ∧ t ≤ now) ∧ c.phase = .disconnected := by
  rw [reconnectDue, Bool.and_eq_true, isDue_iff, beq_iff_eq]

/-- The next deadline belongs to the one timer that the phase takes. -/
theorem Timed.deadline_cases (h : c.Timed) : c.deadline = none
    ∨ c.phase = .connected ∧ c.deadline = c.keepaliveAt
    ∨ c.phase = .disconnected ∧ c.deadline = c.reconnectAt := by
  cases reconnect : c.reconnectAt with
  | some r =>
    have down := h.reconnect r reconnect
    have idle := h.keepaliveAt_of_down down
    exact .inr (.inr ⟨down, (deadline_eq_reconnectAt idle).trans reconnect⟩)
  | none =>
    have deadline := deadline_eq_keepaliveAt reconnect
    cases keepalive : c.keepaliveAt with
    | some k => exact .inr (.inl ⟨h.keepalive k keepalive, deadline.trans keepalive⟩)
    | none => exact .inl (deadline.trans keepalive)

theorem Timed.due_of_deadline (h : c.Timed) {t now : Nanos} (deadline : c.deadline = some t)
    (past : t ≤ now) : c.keepaliveDue now = true ∨ c.reconnectDue now = true := by
  rcases h.deadline_cases with none | ⟨up, keepalive⟩ | ⟨down, reconnect⟩
  · exact nomatch none.symm.trans deadline
  · exact .inl (keepaliveDue_iff.mpr ⟨⟨t, keepalive.symm.trans deadline, past⟩, up⟩)
  · exact .inr (reconnectDue_iff.mpr ⟨⟨t, reconnect.symm.trans deadline, past⟩, down⟩)

theorem Timed.idle_of_deadline (h : c.Timed) {now : Nanos}
    (later : ∀ t, c.deadline = some t → now < t) :
    c.keepaliveDue now = false ∧ c.reconnectDue now = false := by
  constructor
  · apply Bool.eq_false_iff.mpr
    intro due
    obtain ⟨⟨t, set, past⟩, up⟩ := keepaliveDue_iff.mp due
    have idle := h.reconnectAt_of_up up
    exact Nat.not_lt_of_le past (later t ((deadline_eq_keepaliveAt idle).trans set))
  · apply Bool.eq_false_iff.mpr
    intro due
    obtain ⟨⟨t, set, past⟩, down⟩ := reconnectDue_iff.mp due
    have idle := h.keepaliveAt_of_down down
    exact Nat.not_lt_of_le past (later t ((deadline_eq_reconnectAt idle).trans set))

section Lost
variable {after : Connection} {now : Nanos} {recoverable : Bool} {retryAfter : Option Nanos}

theorem Lost.timed (lost : c.Lost now retryAfter recoverable after) : after.Timed := by
  cases lost with
  | dropped _ | final _ | scheduled _ _ | broken _ _ => exact ⟨nofun, fun _ _ => rfl⟩

theorem Lost.configured {config : Config} (lost : c.Lost now retryAfter recoverable after)
    (h : c.Configured config) : after.Configured config := by
  cases lost with
  | dropped _ | final _ | scheduled _ _ | broken _ _ => exact ⟨h.interval, h.backoff⟩

theorem Lost.attempts_le (lost : c.Lost now retryAfter recoverable after) :
    after.attempts ≤ c.attempts + 1 := by
  cases lost with
  | dropped _ | final _ | broken _ _ => exact Nat.le_succ _
  | scheduled _ _ => exact Nat.min_le_left _ _

/-- A deadline after a loss is as far off as the server asks, or else the backoff. -/
theorem Lost.wait_of_deadline (lost : c.Lost now retryAfter recoverable after)
    (idle : c.reconnectAt = none) {t : Nanos} (deadline : after.deadline = some t) :
    ∃ delay, retryAfter.or (c.backoff.delay? c.attempts) = some delay ∧ t = now + delay := by
  cases lost with
  | dropped _ | final _ | broken _ _ =>
    rw [deadline_eq_reconnectAt rfl] at deadline
    exact nomatch idle.symm.trans deadline
  | scheduled _ wait =>
    rw [deadline_eq_reconnectAt rfl] at deadline
    exact ⟨_, wait, (Option.some.inj deadline).symm⟩

end Lost

end Connection

namespace Session

/-- The connection is as its configuration and its phase say. -/
structure Timed (s : Session) : Prop where
  timed : s.connection.Timed
  configured : s.connection.Configured s.config

section Steps
variable {s t : Session} {c : Call} {ids : List RequestId}

theorem Timed.connection (h : Timed s) (course : Course s c t) : t.connection.Timed := by
  cases course with
  | still connection => exact connection ▸ h.timed
  | greeted _ taken =>
    obtain ⟨waiting, connection⟩ := Connection.handshake?_eq_some taken
    have idle : s.connection.reconnectAt = none :=
      h.timed.reconnectAt (by rw [waiting]; exact nofun)
    rw [connection]
    exact ⟨fun _ _ => rfl, fun _ set => nomatch idle.symm.trans set⟩
  | beat _ due connection =>
    have up : s.connection.phase = .connected := beq_iff_eq.mp (Bool.and_eq_true_iff.mp due).2
    rw [connection]
    exact ⟨fun _ _ => up, h.timed.reconnect⟩
  | lost _ up connection => exact connection ▸ (Connection.lost_closed up _ _ _).timed
  | closed _ connection =>
    rcases connection with begun | ⟨active, forced⟩
    · rw [begun]
      exact ⟨nofun, nofun⟩
    · rw [forced]
      exact (Connection.lost_forced active s.now).timed
  | opened opening _ connection =>
    have down : s.connection.phase = .disconnected := disconnected_of_opensLink opening
    have idle := h.timed.keepaliveAt_of_down down
    rw [connection]
    exact ⟨fun _ set => (nomatch idle.symm.trans set), nofun⟩
  | failed _ _ connection =>
    rw [connection]
    exact (s.connection.lost_failed s.now _).timed

theorem Timed.configured_step (h : Timed s) (course : Course s c t) :
    t.connection.Configured s.config := by
  cases course with
  | still connection => exact connection ▸ h.configured
  | greeted _ taken =>
    rw [(Connection.handshake?_eq_some taken).2]
    exact ⟨h.configured.interval, h.configured.backoff⟩
  | beat _ _ connection | opened _ _ connection =>
    rw [connection]
    exact ⟨h.configured.interval, h.configured.backoff⟩
  | lost _ up connection =>
    exact connection ▸ (Connection.lost_closed up _ _ _).configured h.configured
  | closed _ connection =>
    have closing : s.connection.beginClose.Configured s.config :=
      ⟨h.configured.interval, h.configured.backoff⟩
    rcases connection with same | ⟨active, forced⟩
    · exact same ▸ closing
    · rw [forced]
      exact (Connection.lost_forced active s.now).configured closing
  | failed _ _ connection =>
    rw [connection]
    exact (s.connection.lost_failed s.now _).configured
      ⟨h.configured.interval, h.configured.backoff⟩

theorem config_call (h : Conserved ids s) (c : Call) : (s.call c).config = s.config := by
  obtain ⟨_, _, _, turnover, _⟩ := turnover_call h.ready h.booked c
  exact turnover.config

theorem Reached.timed (h : Reached ids s) : Timed s := by
  induction h with
  | new config clock digits => exact ⟨⟨nofun, nofun⟩, ⟨rfl, rfl⟩⟩
  | call h c ih =>
    have course := course_call h.conserved.ready c
    exact ⟨ih.connection course, config_call h.conserved c ▸ ih.configured_step course⟩

end Steps

/-- One keepalive leaves, and its timer is set again. Nothing else happens on the wire. -/
structure Beaten (s t : Session) : Prop where
  link : t.link = { s.link with
    sent := s.link.sent ++ [.keepalive (s.wire.requests.lastId + 1)] }
  stats : t.stats = { s.stats with keepalivesSent := s.stats.keepalivesSent + 1 }
  connection : t.connection = { s.connection with
    keepaliveAt := some (s.now + s.config.keepalive) }

/-- One attempt to connect is made, and its timer is taken. Nothing is sent. -/
structure Retried (s t : Session) : Prop where
  opens : t.link.opens = s.link.opens + s.link.counted
  sent : t.link.sent = s.link.sent
  stats : t.stats = { s.stats with reconnects := s.stats.reconnects + 1 }
  phase : t.phase = if s.link.openFault.isNone then .connecting else .disconnected

section Ticks
variable {s : Session} {ids : List RequestId}

theorem Wire.keepalive_open {w : Wire} (h : w.link.isOpen = true) :
    w.keepalive.link = { w.link with sent := w.link.sent ++ [.keepalive (w.requests.lastId + 1)] }
    ∧ w.keepalive.stats = { w.stats with keepalivesSent := w.stats.keepalivesSent + 1 } := by
  unfold Wire.keepalive Wire.send? Link.send?
  dsimp only [Requests.allocateUntracked]
  rw [if_pos h]
  exact ⟨rfl, rfl⟩

theorem stats_connect (s : Session) : s.connect.1.stats = s.stats := by
  unfold connect
  split
  · rfl
  · dsimp only
    split
    · rfl
    · unfold lose
      split <;> rfl

theorem sent_connect (s : Session) : s.connect.1.link.sent = s.link.sent := by
  unfold connect
  split
  · rfl
  · have sent := Network.openTo_sent s.link s.config.url
    dsimp only
    split
    · exact sent
    · rw [link, sent_lose]
      exact sent

theorem beaten_tick (h : Reached ids s) (due : s.connection.keepaliveDue s.now = true) :
    Beaten s s.tick := by
  have up : s.phase = .connected := beq_iff_eq.mp (Bool.and_eq_true_iff.mp due).2
  obtain ⟨link, stats⟩ := Wire.keepalive_open (h.conserved.ready.isOpen (.inr up))
  rw [tick_keepalive due]
  refine ⟨link, stats, ?_⟩
  rw [← h.timed.configured.interval]
  rfl

theorem retried_tick (h : Reached ids s) (due : s.connection.reconnectDue s.now = true) :
    Retried s s.tick := by
  have opens := opens_call h.conserved.ready .tick
  have opening : s.opensLink .tick = true := due
  rw [opening, if_pos rfl] at opens
  refine ⟨opens, ?_, ?_, ?_⟩
  · rw [tick_reconnect due]
    exact sent_connect _
  · rw [tick_reconnect due]
    exact stats_connect _
  · rcases (course_tick s).begun_or_failed opening with ⟨fault, begun⟩ | ⟨fault, faulty, failed⟩
    · rw [phase, begun, fault]
      rfl
    · rw [phase, failed, faulty]
      exact Connection.closed_phase s.connection.begun_up _ _ _

theorem exists_deadline {timer : Option Nanos} {time : Nanos}
    (h : ¬ ∀ t, timer = some t → time < t) : ∃ t, timer = some t ∧ t ≤ time := by
  cases timer with
  | none => exact absurd nofun h
  | some t =>
    refine ⟨t, rfl, Nat.le_of_not_lt fun later => h ?_⟩
    rintro _ ⟨⟩
    exact later

theorem now_lt_of_tick (h : Reached ids s) (keepalive : 0 < s.config.keepalive)
    (delays : ∀ delay, s.config.backoff.delay? s.connection.attempts = some delay → 0 < delay)
    {t : Nanos} (next : s.tick.deadline = some t) : s.now < t := by
  by_cases later : ∀ t, s.connection.deadline = some t → s.now < t
  · obtain ⟨idle, unready⟩ := h.timed.timed.idle_of_deadline later
    rw [tick_idle idle unready] at next
    exact later t next
  · obtain ⟨past, deadline, le⟩ := exists_deadline later
    rcases h.timed.timed.due_of_deadline deadline le with due | due
    · have up := (Connection.keepaliveDue_iff.mp due).2
      have idle := h.timed.timed.reconnectAt_of_up up
      have deadline := Connection.deadline_eq_keepaliveAt (c := { s.connection with
        keepaliveAt := some (s.now + s.config.keepalive) }) idle
      rw [Session.deadline, (beaten_tick h due).connection, deadline] at next
      rw [← Option.some.inj next]
      exact Nat.lt_add_of_pos_right keepalive
    · have opening : s.opensLink .tick = true := due
      have down := (Connection.reconnectDue_iff.mp due).2
      rcases (course_tick s).begun_or_failed opening with ⟨_, begun⟩ | ⟨fault, _, failed⟩
      · have idle := h.timed.timed.keepaliveAt_of_down down
        rw [Session.deadline, begun, Connection.deadline_eq_keepaliveAt rfl] at next
        exact nomatch idle.symm.trans next
      · rw [Session.deadline, failed] at next
        obtain ⟨delay, wait, rfl⟩ :=
          (s.connection.lost_failed s.now fault).wait_of_deadline rfl next
        rw [Option.none_or] at wait
        change s.connection.backoff.delay? s.connection.attempts = some delay at wait
        rw [h.timed.configured.backoff] at wait
        exact Nat.lt_add_of_pos_right (delays delay wait)

end Ticks

section Sleep
variable {s : Session} {ids : List RequestId} {target t : Nanos} {fuel : Nat}

/-- The keepalives have an interval, and so have the attempts to connect, up to a number of them. -/
structure Spaced (config : Config) (attempts : Nat) : Prop where
  keepalive : 0 < config.keepalive
  delays : ∀ n ≤ attempts, ∀ delay, config.backoff.delay? n = some delay → 0 < delay

theorem Spaced.mono {config : Config} {m n : Nat} (h : Spaced config n) (le : m ≤ n) :
    Spaced config m :=
  ⟨h.keepalive, fun k hk => h.delays k (Nat.le_trans hk le)⟩

/-- A session whose clock has moved to a time. -/
def sleepTo (s : Session) (time : Nanos) : Session := { s with clock := s.clock.moveTo time }

theorem sleepTo_eq_call (s : Session) (time : Nanos) :
    s.sleepTo time = s.call (.pass (time - s.now)) := by
  have elapsed : max s.clock.elapsed time = s.clock.elapsed + (time - s.clock.elapsed) := by
    rw [Nat.add_comm, Nat.sub_add_eq_max, Nat.max_comm]
  rw [sleepTo, Clock.moveTo, elapsed]
  rfl

theorem Reached.sleepTo (h : Reached ids s) (time : Nanos) : ∃ ids, Reached ids (s.sleepTo time) :=
  ⟨_, sleepTo_eq_call s time ▸ h.call _⟩

theorem clock_connect (s : Session) : s.connect.1.clock = s.clock := by
  unfold connect
  split
  · rfl
  · dsimp only
    split
    · rfl
    · unfold lose
      split <;> rfl

theorem now_tick (s : Session) : s.tick.now = s.now := by
  have kept : s.tickKeepalive.clock = s.clock := by
    unfold tickKeepalive
    split <;> rfl
  refine congrArg Clock.elapsed (Eq.trans ?_ kept)
  unfold tick tickReconnect
  split
  · exact clock_connect _
  · rfl

theorem attempts_tick (s : Session) : s.tick.connection.attempts ≤ s.connection.attempts + 1 := by
  cases course_tick s with
  | still connection => exact connection ▸ Nat.le_succ _
  | beat _ _ connection | opened _ _ connection =>
    rw [connection]
    exact Nat.le_succ s.connection.attempts
  | failed _ _ connection =>
    rw [connection]
    exact (s.connection.lost_failed s.now _).attempts_le
  | greeted message | lost message => cases message
  | closed closes => cases closes

theorem sleepUntil_of_later (later : ∀ t, s.deadline = some t → target < t) (fuel : Nat) :
    EventLoop.sleepUntil target fuel s = s.sleepTo target := by
  cases fuel with
  | zero => rfl
  | succ fuel =>
    rw [EventLoop.sleepUntil]
    split
    · rfl
    · rename_i t deadline
      rw [if_neg (Nat.not_le_of_lt (later t deadline))]
      rfl

theorem sleepUntil_of_due (deadline : s.deadline = some t) (le : t ≤ target) (fuel : Nat) :
    EventLoop.sleepUntil target (fuel + 1) s
      = EventLoop.sleepUntil target fuel (s.sleepTo t).tick := by
  rw [EventLoop.sleepUntil, deadline]
  exact if_pos le

/-- What a stop leaves: time has come as far as the deadline, and every other one is later. -/
structure Woken (s : Session) (t : Nanos) (w : Session) : Prop where
  reached : ∃ ids, Reached ids w
  now : w.now = max s.now t
  config : w.config = s.config
  attempts : w.connection.attempts ≤ s.connection.attempts + 1
  later : ∀ next, w.deadline = some next → w.now < next

theorem woken_tick (h : Reached ids s) (spaced : Spaced s.config s.connection.attempts)
    (t : Nanos) : Woken s t (s.sleepTo t).tick := by
  obtain ⟨more, slept⟩ := h.sleepTo t
  have now := now_tick (s.sleepTo t)
  refine ⟨⟨_, slept.call .tick⟩, now, config_call slept.conserved .tick, attempts_tick _, ?_⟩
  rw [now]
  intro next
  exact now_lt_of_tick slept spaced.keepalive (spaced.delays _ (Nat.le_refl _))

/-- Time has come as far as the target, and no deadline is left behind. -/
structure Slept (target : Nanos) (s r : Session) : Prop where
  now : r.now = max s.now target
  later : ∀ t, r.deadline = some t → target < t

theorem Slept.of_woken {w r : Session} (h : Slept target w r) (woken : Woken s t w)
    (le : t ≤ target) : Slept target s r where
  now := by rw [h.now, woken.now, Nat.max_assoc, Nat.max_eq_right le]
  later := h.later

/-- While every deadline is to come, every stop on the way takes time. -/
theorem sleepUntil_steady (h : Reached ids s)
    (spaced : Spaced s.config (s.connection.attempts + fuel))
    (later : ∀ t, s.deadline = some t → s.now < t) (room : target ≤ s.now + fuel) :
    Slept target s (EventLoop.sleepUntil target fuel s) := by
  induction fuel generalizing ids s with
  | zero => exact ⟨rfl, fun t deadline => Nat.lt_of_le_of_lt room (later t deadline)⟩
  | succ fuel ih =>
    by_cases waits : ∀ t, s.deadline = some t → target < t
    · rw [sleepUntil_of_later waits]
      exact ⟨rfl, waits⟩
    · obtain ⟨t, deadline, le⟩ := exists_deadline waits
      have next : s.now < t := later t deadline
      have woken := woken_tick h (spaced.mono (Nat.le_add_right _ _)) t
      have now := woken.now.trans (Nat.max_eq_right (Nat.le_of_lt next))
      have attempts := woken.attempts
      have room : target ≤ (s.sleepTo t).tick.now + fuel := by
        rw [now]
        rw [← Nat.succ_add_eq_add_succ] at room
        exact Nat.le_trans room (Nat.add_le_add_right next fuel)
      obtain ⟨more, reached⟩ := woken.reached
      rw [sleepUntil_of_due deadline le]
      exact (ih reached (woken.config ▸ spaced.mono (by omega)) woken.later room).of_woken woken le

/-- One stop more may be for a deadline that has come already. -/
theorem slept_sleepUntil (h : Reached ids s)
    (spaced : Spaced s.config (s.connection.attempts + (fuel + 1)))
    (room : target ≤ s.now + fuel) :
    Slept target s (EventLoop.sleepUntil target (fuel + 1) s) := by
  by_cases waits : ∀ t, s.deadline = some t → target < t
  · rw [sleepUntil_of_later waits]
    exact ⟨rfl, waits⟩
  · obtain ⟨t, deadline, le⟩ := exists_deadline waits
    have woken := woken_tick h (spaced.mono (Nat.le_add_right _ _)) t
    have attempts := woken.attempts
    have room : target ≤ (s.sleepTo t).tick.now + fuel := by
      rw [woken.now]
      exact Nat.le_trans room (Nat.add_le_add_right (Nat.le_max_left _ _) fuel)
    obtain ⟨more, reached⟩ := woken.reached
    rw [sleepUntil_of_due deadline le]
    refine Slept.of_woken (sleepUntil_steady reached ?_ woken.later room) woken le
    exact woken.config ▸ spaced.mono (by omega)

/-- A timer is set only in the phase that takes it. A tick whose deadline has come sends one
keepalive or makes one attempt to connect, and one whose deadline is to come does nothing. What is
left after it is later, as far as the intervals and delays are positive: so a sleep with a stop at
every deadline comes to its end, with at most one stop for every nanosecond and one more. -/
theorem timers_taken (h : Reached ids s) :
    (∀ t, s.connection.keepaliveAt = some t → s.phase = .connected)
    ∧ (∀ t, s.connection.reconnectAt = some t → s.phase = .disconnected)
    ∧ (s.connection.keepaliveAt = none ∨ s.connection.reconnectAt = none)
    ∧ (∀ t, s.deadline = some t → t ≤ s.now →
      s.phase = .connected ∧ Beaten s s.tick ∨ s.phase = .disconnected ∧ Retried s s.tick)
    ∧ ((∀ t, s.deadline = some t → s.now < t) → s.tick = s)
    ∧ (0 < s.config.keepalive →
      (∀ delay, s.config.backoff.delay? s.connection.attempts = some delay → 0 < delay) →
      ∀ t, s.tick.deadline = some t → s.now < t)
    ∧ ∀ target fuel, target ≤ s.now + fuel →
      Spaced s.config (s.connection.attempts + (fuel + 1)) →
      Slept target s (EventLoop.sleepUntil target (fuel + 1) s) := by
  have timed := h.timed.timed
  refine ⟨timed.keepalive, timed.reconnect, ?_, fun t deadline past => ?_, fun later => ?_,
    now_lt_of_tick h, fun target fuel room spaced => slept_sleepUntil h spaced room⟩
  · by_cases up : s.connection.phase = .connected
    · exact .inr (timed.reconnectAt_of_up up)
    · exact .inl (timed.keepaliveAt up)
  · rcases timed.due_of_deadline deadline past with due | due
    · exact .inl ⟨(Connection.keepaliveDue_iff.mp due).2, beaten_tick h due⟩
    · exact .inr ⟨(Connection.reconnectDue_iff.mp due).2, retried_tick h due⟩
  · obtain ⟨idle, unready⟩ := timed.idle_of_deadline later
    exact tick_idle idle unready

end Sleep

/-- Nothing answers, and an attempt to connect follows another, after two nanoseconds and then after
four. -/
def restless : Session :=
  [Call.faults (some LinkFault.refused) none, .connect].foldl call
    (new { backoff := { initial := 2, limit := 4 } } (.startingAt 0) ⟨fun _ => Fin.last 63, 0⟩)

/-- The first of them falls into a sleep of five nanoseconds. -/
theorem restless_taken : restless.tick = restless
    ∧ Retried (restless.call (.pass 2)) (restless.call (.pass 2)).tick
    ∧ Slept 5 restless (EventLoop.sleepUntil 5 6 restless)
    ∧ (EventLoop.sleepUntil 5 6 restless).stats.reconnects = 1 := by
  obtain ⟨ids, h⟩ : ∃ ids, Reached ([] ++ ids) restless := (Reached.new _ _ _).calls _
  have deadline : restless.deadline = some 2 := by decide +kernel
  have delays : ∀ n ≤ 7, (restless.config.backoff.delay? n).all (0 < ·) = true := by
    decide +kernel
  obtain ⟨_, _, _, _, waits, _, sleeps⟩ := timers_taken h
  obtain ⟨_, _, _, due, _⟩ := timers_taken (h.call (.pass 2))
  refine ⟨waits fun t next => ?_, ?_, sleeps 5 5 (by decide +kernel) ⟨by decide, ?_⟩, ?_⟩
  · rw [← Option.some.inj (deadline.symm.trans next)]
    decide +kernel
  · have later : (restless.call (.pass 2)).deadline = some 2 := by decide +kernel
    rcases due 2 later (by decide +kernel) with ⟨up, _⟩ | ⟨_, retried⟩
    · exact absurd up (by decide +kernel)
    · exact retried
  · intro n le delay wait
    have within : n ≤ 7 := Nat.le_trans le (by decide +kernel)
    have positive := delays n within
    rw [wait] at positive
    exact of_decide_eq_true positive
  · decide +kernel

end Session

end LiveTree
