import LiveTree.Proofs.Session.Courses

/-!
# Only what was asked for is opened again

The link is opened when the application asks for a connection, and by the reconnect timer. A deadline
of that timer was set when the connection was lost and was to come back, or could not be opened and
was worth another attempt. What ends a connection for good takes the deadline with it, and no message
that comes later sets another.
-/

namespace LiveTree

/-- Only the application opens the link again. -/
structure Connection.GivenUp (c : Connection) : Prop where
  persistent : c.persistent = false
  reconnectAt : c.reconnectAt = none

theorem Connection.givenUp_beginClose (c : Connection) : c.beginClose.GivenUp := ⟨rfl, rfl⟩

theorem Connection.Lost.givenUp {c after : Connection} {now : Nanos} {recoverable : Bool}
    {retryAfter : Option Nanos} (lost : c.Lost now retryAfter recoverable after) (g : c.GivenUp) :
    after.GivenUp := by
  cases lost with
  | dropped _ => exact ⟨g.persistent, g.reconnectAt⟩
  | final wanted | scheduled wanted _ | broken wanted _ =>
    exact absurd (wanted.2.symm.trans g.persistent) nofun

theorem Connection.givenUp_forced {c : Connection} (active : c.phase.isActive = true)
    (now : Nanos) : (c.forced now).GivenUp :=
  (Connection.lost_forced active now).givenUp c.givenUp_beginClose

namespace Session

/-- A call, and the session it is made on. -/
structure Moment where
  before : Session
  call : Call

/-- What was done with a session since it was new, the latest first. -/
inductive Ran : List Moment → Session → Prop where
  | new (config : Config) (clock : Clock) (digits : PushKey.Source) :
    Ran [] (new config clock digits)
  | call {past : List Moment} {s : Session} (h : Ran past s) (c : Call) :
    Ran (⟨s, c⟩ :: past) (s.call c)

theorem Ran.reached {past : List Moment} {s : Session} (h : Ran past s) : ∃ ids, Reached ids s := by
  induction h with
  | new config clock digits => exact ⟨[], .new config clock digits⟩
  | call _ c ih =>
    obtain ⟨ids, reached⟩ := ih
    exact ⟨_, reached.call c⟩

theorem Ran.calls {past : List Moment} {s : Session} (h : Ran past s) (calls : List Call) :
    ∃ more, Ran (more ++ past) (calls.foldl Session.call s) := by
  induction calls generalizing past s with
  | nil => exact ⟨[], h⟩
  | cons c calls ih =>
    obtain ⟨more, h⟩ := ih (h.call c)
    exact ⟨more ++ [⟨s, c⟩], (List.append_cons more _ past) ▸ h⟩

namespace Moment

/-- The application asks for a connection, while there is none. -/
def Asks (m : Moment) : Prop := m.call = .connect ∧ m.before.phase = .disconnected

/-- The link is asked to open. -/
def Opens (m : Moment) : Prop := m.before.opensLink m.call = true

/-- There is a connection no longer, or it could not be opened: whether that may be tried again, and
how long the server asks to wait. -/
inductive Loses (m : Moment) : Bool → Option Nanos → Prop where
  | told {recoverable : Bool} {retryAfter : Option Nanos}
      (message : m.call.message? = some (.closed recoverable retryAfter))
      (up : m.before.phase ≠ .disconnected) : Loses m recoverable retryAfter
  | unopened {fault : LinkFault} (opening : m.Opens)
      (faulty : m.before.link.openFault = some fault) : Loses m fault.retryable none

/-- The connection ends for good: it is closed, or the loss is final. -/
def Quits (m : Moment) : Prop := m.call.closes = true ∨ ∃ retryAfter, m.Loses false retryAfter

/-- A loss that is not final, of a connection that nobody has closed, sets a deadline: after the delay
the server asks for, or else that of the backoff. -/
def Sets (m : Moment) (deadline : Nanos) : Prop :=
  m.before.phase ≠ .disconnecting ∧ ∃ retryAfter delay, m.Loses true retryAfter
    ∧ retryAfter.or (m.before.connection.backoff.delay? m.before.connection.attempts) = some delay
    ∧ deadline = m.before.now + delay

end Moment

/-- The application has asked for a connection, and since then nothing has ended it for good. -/
def Wanted : List Moment → Prop
  | [] => False
  | m :: past => ¬ m.Quits ∧ (m.Asks ∨ Wanted past)

/-- A deadline was set, and since then the link was not asked to open and nothing has ended the
connection for good. -/
def Awaited (deadline : Nanos) : List Moment → Prop
  | [] => False
  | m :: past => m.Sets deadline ∨ ¬ m.Opens ∧ ¬ m.Quits ∧ Awaited deadline past

/-- A connection comes back only as it was asked for, at a deadline that was set for it. -/
structure Followed (past : List Moment) (c : Connection) : Prop where
  closing : c.phase = .disconnecting → c.persistent = false
  wanted : c.persistent = true → Wanted past
  down : ∀ t, c.reconnectAt = some t → c.phase = .disconnected ∧ c.persistent = true
  awaited : ∀ t, c.reconnectAt = some t → Awaited t past

section Steps
variable {s t : Session} {c : Call} {past : List Moment}

theorem Moment.not_opens_of_message {m : Message} (message : c.message? = some m) :
    ¬ Moment.Opens ⟨s, c⟩ :=
  Bool.eq_false_iff.mp (opensLink_of_message message)

theorem Moment.not_quits (unopened : s.opensLink c = false) (open_ : c.closes = false)
    (kept : ∀ retryAfter, c.message? = some (.closed false retryAfter) →
      s.phase = .disconnected) : ¬ Moment.Quits ⟨s, c⟩ := by
  rintro (closes | ⟨retryAfter, lost⟩)
  · exact Bool.eq_false_iff.mp open_ closes
  · generalize final : false = recoverable at lost
    cases lost with
    | told message up => exact up (kept _ (final ▸ message))
    | unopened opening _ => exact Bool.eq_false_iff.mp unopened opening

theorem Moment.not_quits_of_opens (opening : s.opensLink c = true)
    (retryable : ∀ fault, s.link.openFault = some fault → fault.retryable = true) :
    ¬ Moment.Quits ⟨s, c⟩ := by
  rintro (closes | ⟨retryAfter, lost⟩)
  · cases c with
    | close | teardown => cases opening
    | _ => cases closes
  · generalize final : false = recoverable at lost
    cases lost with
    | told message _ => exact Moment.not_opens_of_message message opening
    | unopened _ faulty => exact Bool.false_ne_true (final.trans (retryable _ faulty))

theorem Followed.asked (f : Followed past s.connection) (opening : s.opensLink c = true) :
    Moment.Asks ⟨s, c⟩ ∨ Wanted past := by
  cases c with
  | connect => exact .inl ⟨rfl, beq_iff_eq.mp opening⟩
  | tick =>
    obtain ⟨due, _⟩ := Bool.and_eq_true_iff.mp opening
    obtain ⟨t, set, _⟩ := Connection.isDue_iff.mp due
    exact .inr (f.wanted (f.down t set).2)
  | _ => cases opening

/-- A call that neither ends nor opens anything leaves everything as it was followed. -/
theorem Followed.pass (f : Followed past s.connection) (unopened : ¬ Moment.Opens ⟨s, c⟩)
    (open_ : ¬ Moment.Quits ⟨s, c⟩) : Followed (⟨s, c⟩ :: past) s.connection where
  closing := f.closing
  wanted persistent := ⟨open_, .inr (f.wanted persistent)⟩
  down := f.down
  awaited t set := .inr ⟨unopened, open_, f.awaited t set⟩

theorem Followed.dropped {connection : Connection} (g : connection.GivenUp) :
    Followed past connection where
  closing _ := g.persistent
  wanted wanted := nomatch wanted.symm.trans g.persistent
  down _ set := nomatch set.symm.trans g.reconnectAt
  awaited _ set := nomatch set.symm.trans g.reconnectAt

theorem Followed.handshake (f : Followed past s.connection) {wall time : Nat}
    {connection : Connection} (taken : s.connection.handshake? s.now wall time = some connection)
    (unopened : ¬ Moment.Opens ⟨s, c⟩) (open_ : ¬ Moment.Quits ⟨s, c⟩) :
    Followed (⟨s, c⟩ :: past) connection := by
  obtain ⟨waiting, rfl⟩ := Connection.handshake?_eq_some taken
  have idle : ∀ t, s.connection.reconnectAt ≠ some t := fun t set => by
    cases waiting.symm.trans (f.down t set).1
  exact ⟨nofun, (f.pass unopened open_).wanted, fun t set => absurd set (idle t),
    fun t set => absurd set (idle t)⟩

theorem Followed.beat (f : Followed past s.connection)
    (due : s.connection.keepaliveDue s.now = true) :
    Followed (⟨s, .tick⟩ :: past) (s.connection.takeKeepalive s.now) := by
  have unopened : s.opensLink .tick = false := reconnectDue_of_keepaliveDue due
  have passed := f.pass (Bool.eq_false_iff.mp unopened) (Moment.not_quits unopened rfl nofun)
  exact ⟨passed.closing, passed.wanted, passed.down, passed.awaited⟩

theorem Followed.lose (f : Followed past s.connection) {recoverable : Bool}
    {retryAfter : Option Nanos} (message : c.message? = some (.closed recoverable retryAfter))
    (up : s.phase ≠ .disconnected) : Followed (⟨s, c⟩ :: past)
      (s.connection.closed s.now recoverable retryAfter).1 := by
  have idle : s.connection.reconnectAt = none :=
    Option.eq_none_iff_forall_ne_some.mpr fun t set => up (f.down t set).1
  have open_ (final : recoverable = true) : ¬ Moment.Quits ⟨s, c⟩ := by
    refine Moment.not_quits (opensLink_of_message message) (closes_of_message message) ?_
    rintro _ again
    rw [final] at message
    cases message.symm.trans again
  have closed := Connection.lost_closed up s.now recoverable retryAfter
  generalize (s.connection.closed s.now recoverable retryAfter).1 = after at closed ⊢
  cases closed with
  | dropped unwanted => exact .dropped ⟨unwanted.elim f.closing id, idle⟩
  | final wanted => exact .dropped ⟨rfl, idle⟩
  | scheduled wanted wait =>
    refine ⟨nofun, fun _ => ⟨open_ rfl, .inr (f.wanted wanted.2)⟩, fun _ _ => ⟨rfl, wanted.2⟩, ?_⟩
    rintro t ⟨⟩
    exact .inl ⟨wanted.1, retryAfter, _, .told message up, wait, rfl⟩
  | broken wanted wait =>
    refine ⟨nofun, fun _ => ⟨open_ rfl, .inr (f.wanted wanted.2)⟩, fun t set => ?_, fun t set => ?_⟩
    · exact (nomatch idle.symm.trans set)
    · exact (nomatch idle.symm.trans set)

theorem Followed.opened (f : Followed past s.connection) (opening : s.opensLink c = true)
    (fault : s.link.openFault = none) : Followed (⟨s, c⟩ :: past) s.connection.begun := by
  have open_ := Moment.not_quits_of_opens opening fun _ faulty => nomatch fault.symm.trans faulty
  exact ⟨nofun, fun _ => ⟨open_, f.asked opening⟩, nofun, nofun⟩

theorem opensLink_eq_false (g : s.connection.GivenUp) (other : c ≠ .connect) :
    s.opensLink c = false := by
  cases c with
  | connect => exact absurd rfl other
  | tick =>
    rw [opensLink, Connection.reconnectDue, g.reconnectAt]
    rfl
  | _ => rfl

theorem Followed.failed (f : Followed past s.connection) (opening : s.opensLink c = true)
    {fault : LinkFault} (faulty : s.link.openFault = some fault) :
    Followed (⟨s, c⟩ :: past) (s.connection.failed s.now fault) := by
  have open_ (again : true = fault.retryable) : ¬ Moment.Quits ⟨s, c⟩ := by
    refine Moment.not_quits_of_opens opening fun other same => ?_
    rw [← Option.some.inj (faulty.symm.trans same)]
    exact again.symm
  have lost : Moment.Loses ⟨s, c⟩ fault.retryable none := .unopened opening faulty
  have down : s.phase ≠ .disconnecting := by
    rw [disconnected_of_opensLink opening]
    exact nofun
  have failed := s.connection.lost_failed s.now fault
  generalize s.connection.failed s.now fault = after at failed ⊢
  generalize fault.retryable = retryable at failed lost open_
  cases failed with
  | dropped unwanted => exact .dropped ⟨unwanted.elim nofun id, rfl⟩
  | final wanted => exact .dropped ⟨rfl, rfl⟩
  | scheduled wanted wait =>
    refine ⟨nofun, fun _ => ⟨open_ rfl, f.asked opening⟩, fun _ _ => ⟨rfl, rfl⟩, ?_⟩
    rintro t ⟨⟩
    exact .inl ⟨down, none, _, lost, wait, rfl⟩
  | broken wanted wait => exact ⟨nofun, fun _ => ⟨open_ rfl, f.asked opening⟩, nofun, nofun⟩

theorem givenUp_of_closed {connection : Connection} (closed : connection = s.connection.beginClose
    ∨ s.phase.isActive = true ∧ connection = s.connection.forced s.now) : connection.GivenUp := by
  rcases closed with begun | ⟨active, forced⟩
  · rw [begun]
    exact s.connection.givenUp_beginClose
  · rw [forced]
    exact Connection.givenUp_forced active s.now

theorem Followed.step (f : Followed past s.connection) (course : Course s c t) :
    Followed (⟨s, c⟩ :: past) t.connection := by
  cases course with
  | still connection _ unopened open_ kept =>
    rw [connection]
    exact f.pass (Bool.eq_false_iff.mp unopened) (Moment.not_quits unopened open_ (kept false))
  | greeted message taken _ =>
    have unopened := opensLink_of_message (s := s) message
    have kept : ∀ retryAfter, c.message? = some (.closed false retryAfter) →
        s.phase = .disconnected := fun _ lost => nomatch message.symm.trans lost
    exact f.handshake taken (Bool.eq_false_iff.mp unopened)
      (Moment.not_quits unopened (closes_of_message message) kept)
  | beat tick due connection _ =>
    rw [tick, connection]
    exact f.beat due
  | lost message up connection _ =>
    rw [connection]
    exact f.lose message up
  | closed closes connection _ =>
    exact .dropped (givenUp_of_closed connection)
  | opened opening fault connection _ =>
    rw [connection]
    exact f.opened opening fault
  | failed opening faulty connection _ =>
    rw [connection]
    exact f.failed opening faulty

theorem Ran.followed (h : Ran past s) : Followed past s.connection := by
  induction h with
  | new config clock digits => exact .dropped ⟨rfl, rfl⟩
  | call run c ih =>
    obtain ⟨ids, reached⟩ := run.reached
    exact ih.step (course_call reached.conserved.ready c)

theorem Course.givenUp (course : Course s c t) (closes : c.closes = true) :
    t.connection.GivenUp ∧ t.link.opens = s.link.opens := by
  have unopened := unopened_of_closes (s := s) closes
  cases course with
  | closed _ connection opens => exact ⟨givenUp_of_closed connection, opens⟩
  | still _ _ _ open_ => exact nomatch open_.symm.trans closes
  | greeted message | lost message => exact nomatch (closes_of_message message).symm.trans closes
  | beat tick =>
    rw [tick] at closes
    cases closes
  | opened opening | failed opening => exact nomatch unopened.symm.trans opening

/-- A connection that was given up stays so until the application asks for another. -/
theorem givenUp_call (ready : Ready s) (g : s.connection.GivenUp) (other : c ≠ .connect) :
    (s.call c).connection.GivenUp ∧ (s.call c).link.opens = s.link.opens := by
  have course := course_call ready c
  have unopened := opensLink_eq_false g other
  generalize s.call c = t at course ⊢
  cases course with
  | still connection opens => exact ⟨connection ▸ g, opens⟩
  | greeted _ taken opens =>
    rw [(Connection.handshake?_eq_some taken).2]
    exact ⟨⟨g.persistent, g.reconnectAt⟩, opens⟩
  | beat _ _ connection opens => exact ⟨connection ▸ ⟨g.persistent, g.reconnectAt⟩, opens⟩
  | lost _ up connection opens =>
    exact ⟨connection ▸ (Connection.lost_closed up _ _ _).givenUp g, opens⟩
  | closed _ connection opens => exact ⟨givenUp_of_closed connection, opens⟩
  | opened opening | failed opening => exact absurd (unopened.symm.trans opening) nofun

theorem givenUp_calls {ids : List RequestId} (h : Reached ids s) (g : s.connection.GivenUp)
    {calls : List Call} (others : .connect ∉ calls) :
    (calls.foldl call s).connection.GivenUp ∧ (calls.foldl call s).link.opens = s.link.opens := by
  induction calls generalizing ids s with
  | nil => exact ⟨g, rfl⟩
  | cons c calls ih =>
    rw [List.mem_cons, not_or] at others
    obtain ⟨g, opens⟩ := givenUp_call h.conserved.ready g (Ne.symm others.1)
    obtain ⟨g', opens'⟩ := ih (h.call c) g others.2
    exact ⟨g', opens'.trans opens⟩

end Steps

section Runs
variable {s : Session} {past : List Moment}

/-- The link opens when the application asks for a connection, or when a deadline has come that a
loss has set and nothing has taken back; then the application has asked for the connection, and
nothing has ended it for good since. After a close, whatever else comes, only the application opens
the link. -/
theorem opened_as_asked (run : Ran past s) (c : Call) :
    (s.call c).link.opens = s.link.opens + (if s.opensLink c then s.link.counted else 0)
    ∧ (s.opensLink c = true →
      c = .connect ∨ c = .tick ∧ Wanted past ∧ ∃ t ≤ s.now, Awaited t past)
    ∧ (c.closes = true → ∀ calls : List Call, .connect ∉ calls →
      (calls.foldl call (s.call c)).link.opens = s.link.opens
      ∧ ∀ next, (calls.foldl call (s.call c)).opensLink next = true → next = .connect) := by
  obtain ⟨ids, reached⟩ := run.reached
  refine ⟨opens_call reached.conserved.ready c, fun opening => ?_, fun closes calls others => ?_⟩
  · cases c with
    | connect => exact .inl rfl
    | tick =>
      have followed := run.followed
      obtain ⟨t, set, le⟩ := Connection.isDue_iff.mp (Bool.and_eq_true_iff.mp opening).1
      have persistent := (followed.down t set).2
      exact .inr ⟨rfl, followed.wanted persistent, t, le, followed.awaited t set⟩
    | _ => cases opening
  · obtain ⟨g, opens⟩ := (course_call reached.conserved.ready c).givenUp closes
    obtain ⟨g, same⟩ := givenUp_calls (reached.call c) g others
    refine ⟨same.trans opens, fun next opening => ?_⟩
    by_contra other
    exact nomatch (opensLink_eq_false g other).symm.trans opening

end Runs

/-- A connection is lost before its handshake, and the deadline has come that the server asked for. -/
def retrying : Session :=
  [Call.connect, .receive (.closed true (some 5)), .pass 5].foldl call blank

/-- The tick opens the link a second time. After a close nothing does, whatever the server says. -/
theorem retrying_opened : (∃ past, Ran past retrying ∧ Wanted past ∧ ∃ t ≤ 5, Awaited t past)
    ∧ (retrying.call .tick).link.opens = 2
    ∧ ([Call.receive (.closed true none), .receive (.handshake 0), .tick].foldl call
      (retrying.call .close)).link.opens = 1 := by
  obtain ⟨past, run⟩ : ∃ past, Ran (past ++ []) retrying := (Ran.new _ _ _).calls _
  have due : retrying.opensLink .tick = true := by decide +kernel
  have opens : retrying.link.opens = 1 := by decide +kernel
  obtain ⟨counted, asked, _⟩ := opened_as_asked run .tick
  obtain ⟨_, _, ended⟩ := opened_as_asked run .close
  refine ⟨⟨_, run, ?_⟩, ?_, ?_⟩
  · rcases asked due with connect | ⟨_, wanted, awaited⟩
    · cases connect
    · exact ⟨wanted, awaited⟩
  · rw [counted, due, opens]
    rfl
  · rw [(ended rfl _ (by simp)).1, opens]

end Session

end LiveTree
