import LiveTree.Proofs.Session.Resending

/-!
# Which credential a new connection is told last

A new connection is sent the authentications that wait, in the order in which they were made, or else
one of its own. The last of them carries the current credential unless the latest authentication has
been answered while an older one, with another credential, was still without an answer: then the
older one waits alone and nothing is sent for the newer.
-/

namespace LiveTree.Session

open List

/-- What an application has presented last: the number of the request that was made for it, which is
zero while there is none, and the credential. -/
structure Badge where
  number : RequestId
  credential : Option String

def Badge.after (badge : Badge) (s : Session) : Call → Badge
  | .authenticate credential observed =>
    ⟨(s.authenticate credential observed).2, some credential⟩
  | _ => badge

/-- A session after calls, with what was presented last on the way. -/
inductive Badged : Badge → Session → Prop where
  | new (config : Config) (clock : Clock) (digits : PushKey.Source) :
    Badged ⟨0, config.credential⟩ (new config clock digits)
  | call {badge : Badge} {s : Session} (h : Badged badge s) (c : Call) :
    Badged (badge.after s c) (s.call c)

/-- The last authentication among frames. -/
def lastAuth (frames : List Request) : Option Request :=
  (frames.filter fun r => r.action == .auth).getLast?

/-- The newest authentication that is queued is older than the latest, and has another credential. -/
def Overtaken (badge : Badge) (s : Session) : Prop :=
  ∃ r, (s.wire.requests.queued.filter (·.isAuth)).getLast? = some r
    ∧ r.id < badge.number ∧ r.request.credential ≠ badge.credential

/-- The credential is the one that was presented last, and so is that of each request which is no
older. -/
structure Worn (badge : Badge) (s : Session) : Prop where
  credential : s.credential = badge.credential
  numbered : badge.number ≤ s.wire.requests.lastId
  placed : badge.number = 0 ∨ badge.number ∈ s.places
  own : ∀ r ∈ s.wire.requests.all, r.id = badge.number → r.isAuth = true
  current : ∀ r ∈ s.wire.requests.all, r.isAuth = true → badge.number ≤ r.id →
    r.request.credential = badge.credential

variable {badge : Badge} {s t : Session} {c : Call}

theorem Badged.run (h : Badged badge s) : ∃ log, Run log s := by
  induction h with
  | new config clock digits => exact ⟨_, .new config clock digits⟩
  | call _ c ih =>
    obtain ⟨log, run⟩ := ih
    exact ⟨_, run.call c⟩

theorem Badged.calls (h : Badged badge s) (calls : List Call) :
    ∃ badge, Badged badge (calls.foldl Session.call s) := by
  induction calls generalizing badge s with
  | nil => exact ⟨badge, h⟩
  | cons c calls ih => exact ih (h.call c)

theorem credential_lose (s : Session) (recoverable : Bool) (retryAfter : Option Nanos) :
    (s.lose recoverable retryAfter).credential = s.credential := by
  unfold lose
  split <;> rfl

theorem credential_connect (s : Session) : s.connect.1.credential = s.credential := by
  unfold connect
  split
  · rfl
  · dsimp only
    split
    · rfl
    · exact credential_lose _ _ _

theorem credential_close (s : Session) : s.close.1.credential = s.credential := by
  unfold close
  dsimp only
  split
  · split
    · rfl
    · exact credential_lose _ _ _
  · rfl

theorem credential_submit (s : Session) (make : RequestId → Request) (observed : Bool) :
    (s.submit make observed).1.credential = s.credential := by
  unfold submit
  split <;> rfl

theorem credential_receive (s : Session) (m : Message) :
    (s.receive m).credential = s.credential := by
  cases m with
  | handshake time =>
    rw [receive, handshake]
    split <;> rfl
  | update kind p v => rfl
  | response id status data =>
    rw [receive, response]
    split
    · rfl
    · unfold settle
      split
      · rfl
      · split <;> rfl
  | closed recoverable retryAfter => exact credential_lose _ _ _

theorem credential_call (s : Session) (c : Call) (known : s.credential = badge.credential) :
    (s.call c).credential = (badge.after s c).credential := by
  cases c with
  | authenticate credential observed => rfl
  | connect => exact (credential_connect s).trans known
  | close => exact (credential_close s).trans known
  | unwatch handle =>
    rw [call, unwatch]
    split <;> exact known
  | write p v observed => exact (credential_submit s _ observed).trans known
  | merge p v observed => exact (credential_submit s _ observed).trans known
  | push p v observed =>
    rw [call, push]
    dsimp only
    split
    · exact known
    · exact (credential_submit _ _ observed).trans known
  | restore snapshot =>
    rw [call, restore]
    split <;> exact known
  | teardown => exact (credential_close s).trans known
  | receive m => exact (credential_receive s m).trans known
  | frame text =>
    rw [call, receiveFrame]
    split
    · exact (credential_receive s _).trans known
    · exact known
  | tick =>
    have kept : s.tickKeepalive.credential = s.credential := by
      unfold tickKeepalive
      split <;> rfl
    rw [call, tick, tickReconnect]
    split
    · exact (credential_connect _).trans (kept.trans known)
    · exact kept.trans known
  | watch p kind | pass t | ask names | faults opening closing | drain => exact known

/-- An authentication is the latest from then on, under a number that comes back; other calls leave
the latest as it is. -/
theorem badge_after (badge : Badge) (s : Session) (c : Call) :
    badge.after s c = badge
      ∨ ((badge.after s c).number ∈ s.issued c ∧ s.submitted c = none) := by
  cases c with
  | authenticate credential observed => exact Or.inr ⟨rfl, rfl⟩
  | _ => exact Or.inl rfl

theorem Submits.auth {added : Option Waiting} (h : Submits s c added)
    (quiet : s.submitted c = none) : ∀ r ∈ added, r.isAuth = true := by
  rintro r rfl
  have write := h.write
  rw [quiet, Option.map_some, Option.filter_some] at write
  split at write
  · cases write
  · rename_i other
    exact beq_iff_eq.mpr (h.presents r rfl (Bool.eq_false_iff.mpr other)).action

theorem Worn.call (h : Worn badge s) (ready : Ready s) (b : Booked s) (c : Call) :
    Worn (badge.after s c) (s.call c) := by
  obtain ⟨added, ended, completed, turnover, _, submits, _⟩ := turnover_call ready b c
  have credential := credential_call s c h.credential
  have waits : ∀ r ∈ (s.call c).wire.requests.all, r ∈ added ∨ r ∈ s.wire.requests.all := by
    intro r hr
    have mem := turnover.tables.mem_iff.mp (List.mem_append_left _ hr)
    exact (List.mem_append.mp mem).imp_left Option.mem_toList.mp
  have handed : ∀ r ∈ s.wire.requests.all, r.id ≤ s.wire.requests.lastId := fun r hr =>
    b.numbered _ (List.mem_append_right _ (List.mem_map_of_mem hr))
  have new : ∀ r ∈ added, r.isAuth = true →
      r.request.credential = (badge.after s c).credential := by
    intro r hr auth
    have other : r.request.action.isWrite = false := by
      rw [beq_iff_eq.mp auth]
      rfl
    exact (submits.presents r hr other).credential.trans credential
  rcases badge_after badge s c with same | ⟨issued, quiet⟩
  · rw [same] at credential new ⊢
    refine ⟨credential, Nat.le_trans h.numbered turnover.lastId, ?_, fun r hr id => ?_,
      fun r hr auth le => ?_⟩
    · refine h.placed.imp_right fun old => ?_
      exact turnover.places.mem_iff.mpr (List.mem_append_right _ old)
    · rcases waits r hr with hr | hr
      · have above := Nat.lt_of_le_of_lt h.numbered (turnover.fresh r hr).1
        exact absurd id (Nat.ne_of_gt above)
      · exact h.own r hr id
    · exact (waits r hr).elim (new r · auth) (h.current r · auth le)
  · obtain ⟨w, hw, id⟩ := submits.issued _ issued
    have above := (turnover.fresh w hw).1
    rw [id] at above
    refine ⟨credential, id ▸ (turnover.fresh w hw).2, Or.inr ?_, fun r hr same => ?_,
      fun r hr auth le => ?_⟩
    · rw [turnover.places.mem_iff, ← id]
      exact List.mem_append_left _ (List.mem_map_of_mem (Option.mem_toList.mpr hw))
    · rcases waits r hr with hr | hr
      · exact submits.auth quiet r hr
      · exact absurd same (Nat.ne_of_lt (Nat.lt_of_le_of_lt (handed r hr) above))
    · rcases waits r hr with hr | hr
      · exact new r hr auth
      · exact absurd le (Nat.not_le_of_lt (Nat.lt_of_le_of_lt (handed r hr) above))

theorem Badged.worn (h : Badged badge s) : Worn badge s := by
  induction h with
  | new config clock digits => exact ⟨rfl, Nat.le_refl _, Or.inl rfl, nofun, nofun⟩
  | call h c ih =>
    obtain ⟨log, run⟩ := h.run
    exact ih.call run.recorded.ready run.recorded.booked c

theorem lastAuth_append_of_none {frames rest : List Request}
    (other : ∀ r ∈ rest, r.action ≠ .auth) : lastAuth (frames ++ rest) = lastAuth frames := by
  have none : rest.filter (fun r => r.action == .auth) = [] :=
    List.filter_eq_nil_iff.mpr fun r hr => by simpa using other r hr
  rw [lastAuth, List.filter_append, none, List.append_nil, lastAuth]

theorem lastAuth_presented (s : Session) : lastAuth s.presented = s.presented.getLast? := by
  have auth : ∀ r ∈ s.presented, (r.action == .auth) = true := by
    intro r hr
    unfold presented at hr
    split at hr
    · rw [List.mem_singleton.mp hr]
      rfl
    · obtain ⟨w, hw, rfl⟩ := List.mem_map.mp hr
      exact (List.mem_filter.mp hw).2
  rw [lastAuth, List.filter_eq_self.mpr auth]

/-- The last of what a handshake sends to present a credential is the last of what is presented. -/
theorem Recorded.lastAuth_frames {log : Log} (h : Recorded log s) (up : s.phase = .connecting)
    {time : Nat} (message : c.message? = some (.handshake time)) :
    lastAuth (s.frames c) = s.presented.getLast? := by
  obtain ⟨listens, _, sent⟩ := sent_handshake h.ready up time
  have frames : s.frames c
      = s.presented ++ listens.map (fun e => Request.listen e.1 e.2) ++ s.owed := by
    rw [Session.frames, call_of_message message, receive, link, link, sent, List.drop_left]
  have writes : ∀ r ∈ s.owed, r.action ≠ .auth := by
    intro r hr auth
    rw [← writesOf_owed h.only] at hr
    have write := (List.mem_filter.mp hr).2
    rw [auth] at write
    cases write
  have asks : ∀ r ∈ listens.map (fun e => Request.listen e.1 e.2), r.action ≠ .auth := by
    intro r hr
    obtain ⟨e, _, rfl⟩ := List.mem_map.mp hr
    have other : Action.listen ≠ Action.auth := by decide
    exact other
  rw [frames, lastAuth_append_of_none writes, lastAuth_append_of_none asks, lastAuth_presented]

/-- What is presented last is the newest authentication that is queued, or else a new one. -/
theorem presented_getLast {credential : String} (set : s.credential = some credential) :
    s.presented.getLast? = some
      (match (s.wire.requests.queued.filter (·.isAuth)).getLast? with
        | none => Request.auth (s.wire.requests.lastId + 1) credential
        | some r => r.request) := by
  unfold presented
  rw [set]
  cases s.wire.requests.queued.filter (·.isAuth) with
  | nil => rfl
  | cons a auths => rw [List.getLast?_map, List.getLast?_cons, Option.map_some]

theorem Filed.le_newest (f : Filed s) {r x : Waiting}
    (newest : (s.wire.requests.queued.filter (·.isAuth)).getLast? = some r)
    (mem : x ∈ s.wire.requests.queued) (auth : x.isAuth = true) : x.id ≤ r.id := by
  have ordered := f.ordered.filter (·.isAuth)
  have mem : x ∈ s.wire.requests.queued.filter (·.isAuth) := List.mem_filter.mpr ⟨mem, auth⟩
  obtain ⟨older, split⟩ := List.getLast?_eq_some_iff.mp newest
  rw [split] at ordered mem
  rcases List.mem_append.mp mem with old | last
  · exact Nat.le_of_lt ((List.pairwise_append.mp ordered).2.2 x old r List.mem_cons_self)
  · exact Nat.le_of_eq (congrArg Waiting.id (List.mem_singleton.mp last))

/-- A credential is overtaken only when its own request has ended. -/
theorem Worn.ended (h : Worn badge s) (f : Filed s) (up : s.phase = .connecting)
    (overtaken : Overtaken badge s) : badge.number ∈ s.completions.map (·.id) := by
  obtain ⟨r, newest, older, _⟩ := overtaken
  have place := h.placed.resolve_left (Nat.ne_of_gt (Nat.zero_lt_of_lt older))
  refine (List.mem_append.mp place).resolve_right fun waits => ?_
  obtain ⟨w, hw, id⟩ := List.mem_map.mp waits
  have auth := h.own w hw id
  have idle := f.idle (Or.inr up)
  rw [Requests.all, idle, List.nil_append] at hw
  have le := f.le_newest newest hw auth
  rw [id] at le
  exact Nat.not_le_of_lt older le

/-- In every run, a handshake that is waited for presents the current credential last, unless that
was overtaken; and then its own request has ended. -/
theorem presented_unless_overtaken {credential : String} {time : Nat} (h : Badged badge s)
    (up : s.phase = .connecting) (set : badge.credential = some credential)
    (message : c.message? = some (.handshake time)) :
    (∃ newest, lastAuth (s.frames c) = some newest
      ∧ (newest.credential = some credential ↔ ¬ Overtaken badge s))
    ∧ (Overtaken badge s → badge.number ∈ s.completions.map (·.id)) := by
  obtain ⟨log, run⟩ := h.run
  have recorded := run.recorded
  have worn := h.worn
  refine ⟨⟨_, (recorded.lastAuth_frames up message).trans
    (presented_getLast (worn.credential.trans set)), ?_⟩, worn.ended recorded.filed up⟩
  cases newest : (s.wire.requests.queued.filter (·.isAuth)).getLast? with
  | none =>
    refine iff_of_true rfl ?_
    rintro ⟨r, last, _⟩
    rw [newest] at last
    cases last
  | some r =>
    have mem := List.mem_filter.mp (List.mem_of_getLast? newest)
    dsimp only
    rw [← set]
    constructor
    · rintro same ⟨x, last, _, other⟩
      rw [newest] at last
      obtain rfl := Option.some.inj last
      exact other same
    · intro free
      by_contra other
      refine free ⟨r, newest, Nat.lt_of_not_le fun le => other ?_, other⟩
      exact worn.current r (List.mem_append_right _ mem.1) mem.2 le

/-- A credential was presented, and a newer one before the first was answered; after the answer to
the newer one the connection was lost, and another is asked for. -/
def renewed : Session :=
  [Call.connect, .receive (.handshake 0), .authenticate "first" false,
    .authenticate "second" false, .receive (.ok 2), .receive (.closed true none), .drain,
    .connect].foldl call blank

theorem badged_renewed : Badged ⟨2, some "second"⟩ renewed :=
  ((((((((Badged.new {} (.startingAt 0) _).call .connect).call (.receive (.handshake 0))).call
    (.authenticate "first" false)).call (.authenticate "second" false)).call
    (.receive (.ok 2))).call (.receive (.closed true none))).call .drain).call .connect

theorem renewed_presented_unless_overtaken : Badged ⟨2, some "second"⟩ renewed
    ∧ renewed.phase = .connecting
    ∧ ∃ newest, lastAuth (renewed.frames (.receive (.handshake 0))) = some newest
      ∧ (newest.credential = some "second" ↔ ¬ Overtaken ⟨2, some "second"⟩ renewed) := by
  have waits : renewed.phase = .connecting := by decide +kernel
  exact ⟨badged_renewed, waits,
    (presented_unless_overtaken badged_renewed waits rfl rfl).1⟩

/-- The current credential is not always the last to be presented. -/
theorem older_presented_last : ¬ ∀ (badge : Badge) (s : Session) (time : Nat) (credential : String),
    Badged badge s → s.phase = .connecting → badge.credential = some credential →
    ∃ newest, lastAuth (s.frames (.receive (.handshake time))) = some newest
      ∧ newest.credential = some credential := by
  intro all
  have waits : renewed.phase = .connecting := by decide +kernel
  obtain ⟨newest, last, current⟩ := all _ renewed 0 "second" badged_renewed waits rfl
  have first : (lastAuth (renewed.frames (.receive (.handshake 0)))).map (·.credential)
      = some (some "first") := by decide +kernel
  rw [last, Option.map_some, current] at first
  exact absurd first (by decide)

end LiveTree.Session
