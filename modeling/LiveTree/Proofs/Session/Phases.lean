import LiveTree.Proofs.Network.Lifecycle
import LiveTree.Proofs.Session.Calls

/-!
# The phases of a session

A connection is asked for only while there is none, and stands only after a handshake that was waited
for. Every other change of the phase goes down.
-/

namespace LiveTree.Session

section Handshake
variable {s : Session}

/-- A session that waits for the handshake takes it, and then sends what is owed. -/
theorem exists_greeted (up : s.phase = .connecting) (time : Nat) :
    ∃ greeted : Session, s.handshake time = greeted.resume ∧ greeted.phase = .connected
      ∧ greeted.wire.link = s.wire.link ∧ greeted.wire.requests = s.wire.requests
      ∧ greeted.listens = s.listens ∧ greeted.credential = s.credential := by
  have waits : s.connection.phase = .connecting := up
  unfold handshake Connection.handshake?
  rw [if_pos waits]
  exact ⟨_, rfl, rfl, rfl, rfl, rfl, rfl⟩

theorem phase_handshake (up : s.phase = .connecting) (time : Nat) :
    (s.handshake time).phase = .connected := by
  obtain ⟨greeted, same, phase, _⟩ := exists_greeted up time
  rw [same]
  exact phase

theorem handshake_of_ne (h : s.phase ≠ .connecting) (time : Nat) : s.handshake time = s := by
  have down : ¬ s.connection.phase = .connecting := h
  unfold handshake Connection.handshake?
  rw [if_neg down]

end Handshake

/-- How a call changes the phase. -/
inductive Shift (c : Call) : Phase → Phase → Prop
  | stay (p : Phase) : Shift c p p
  | lost (p : Phase) : Shift c p .disconnected
  | closed (p : Phase) : Shift c p .disconnecting
  | opened : Shift c .disconnected .connecting
  | greeted {time : Nat} (message : c.message? = some (.handshake time)) :
    Shift c .connecting .connected

section Phases
variable {s : Session} {c : Call}

theorem shift_connect (s : Session) (c : Call) : Shift c s.phase s.connect.1.phase := by
  unfold connect
  split
  · exact .stay _
  · rename_i connection hc
    obtain ⟨down, asked⟩ := Connection.phase_beginConnect hc
    dsimp only
    split
    · change Shift c s.connection.phase connection.phase
      rw [down, asked]
      exact .opened
    · rw [phase_lose]
      exact .lost _

theorem shift_close (s : Session) (c : Call) : Shift c s.phase s.close.1.phase := by
  unfold close
  dsimp only
  split
  · rename_i active
    split
    · change Shift c s.phase s.connection.beginClose.phase
      have phase : s.connection.beginClose.phase = .disconnecting := if_pos active
      rw [phase]
      exact .closed _
    · rw [phase_lose]
      exact .lost _
  · rename_i active
    change Shift c s.phase s.connection.beginClose.phase
    have phase : s.connection.beginClose.phase = s.phase := if_neg active
    rw [phase]
    exact .stay _

theorem phase_submit (s : Session) (make : RequestId → Request) (observed : Bool) :
    (s.submit make observed).1.phase = s.phase := by
  unfold submit
  split <;> rfl

theorem shift_receive (s : Session) {m : Message} (message : c.message? = some m) :
    Shift c s.phase (s.receive m).phase := by
  cases m with
  | handshake time =>
    rw [receive]
    by_cases up : s.phase = .connecting
    · rw [phase_handshake up, up]
      exact .greeted message
    · rw [handshake_of_ne up]
      exact .stay _
  | update kind p v => exact .stay _
  | response id status data =>
    have same : (s.response id status data).phase = s.phase := by
      unfold response settle
      split
      · rfl
      · split
        · rfl
        · split <;> rfl
    rw [receive, same]
    exact .stay _
  | closed recoverable retryAfter =>
    rw [receive, phase_lose]
    exact .lost _

theorem shift_call (s : Session) (c : Call) : Shift c s.phase (s.call c).phase := by
  have same : ∀ {t : Session}, t.phase = s.phase → Shift c s.phase t.phase := by
    intro t h
    rw [h]
    exact .stay _
  cases c with
  | connect => exact shift_connect s _
  | close => exact shift_close s _
  | unwatch handle =>
    refine same ?_
    rw [call, unwatch]
    split <;> rfl
  | write p v observed => exact same (s.phase_submit (Request.put · p v) observed)
  | merge p v observed => exact same (s.phase_submit (Request.merge · p v) observed)
  | push p v observed =>
    refine same ?_
    rw [call, push]
    dsimp only
    split
    · rfl
    · exact phase_submit _ _ observed
  | restore snapshot =>
    refine same ?_
    rw [call, restore]
    split <;> rfl
  | teardown => exact shift_close s _
  | receive m => exact shift_receive s rfl
  | frame text =>
    rw [call, receiveFrame]
    cases read : Message.decode text with
    | ok m => exact shift_receive s (by rw [Call.message?, read]; rfl)
    | error e => exact .stay _
  | tick =>
    have kept : s.tickKeepalive.phase = s.phase := by
      unfold tickKeepalive
      split <;> rfl
    rw [call, tick, ← kept, tickReconnect]
    split
    · exact (shift_connect { s.tickKeepalive with
        connection := s.tickKeepalive.connection.takeReconnect
        wire.stats.reconnects := s.tickKeepalive.wire.stats.reconnects + 1 } _ :)
    · exact .stay _
  | watch p kind | authenticate credential observed | pass t | ask names
  | faults opening closing | drain => exact .stay _

end Phases

end LiveTree.Session
