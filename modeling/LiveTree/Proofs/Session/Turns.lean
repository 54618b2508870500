import LiveTree.Proofs.Session.Phases

/-!
# Turns of a session

Every call is made of a few turns, each of which changes the phase, the listens and what is on the
wire in one way. Only watching, unwatching and the end of a session change the references to listens
as well. So what each turn keeps, every other call keeps.
-/

namespace LiveTree.Session

open Listens Relation

/-- What the turns of a session do to its phase, its listens and what is on the wire. -/
inductive Turn (s t : Session) : Prop where
  /-- Requests are sent only while connected. -/
  | calm (phase : t.phase = s.phase) (listens : t.listens = s.listens)
      (quiet : s.phase ≠ .connected → t.wire.requests.inFlight ⊆ s.wire.requests.inFlight
        ∧ t.wire.requests.untracked ⊆ s.wire.requests.untracked)
  | answered (id : RequestId) (ok : Bool) (phase : t.phase = s.phase)
      (run : (t.listens, t.wire) = (Listens.Action.answer id ok).run Wire.sink (s.listens, s.wire))
  | lost (phase : t.phase = .disconnected) (listens : t.listens = s.listens.suspend)
      (requests : t.wire.requests = s.wire.requests.requeue)
  | opened (before : s.phase = .disconnected) (after : t.phase = .connecting)
      (listens : t.listens = s.listens) (requests : t.wire.requests = s.wire.requests)
  | closing (before : s.phase.isActive = true) (after : t.phase = .disconnecting)
      (listens : t.listens = s.listens) (requests : t.wire.requests = s.wire.requests)
  | greeted (after : t.phase = .connected) (w : Wire)
      (run : t.listens = (Listens.Action.resume.run Wire.sink (s.listens, w)).1)

abbrev Turns : Session → Session → Prop := ReflTransGen Turn

/-- Calls that change the references to listens. -/
def Call.refers : Call → Bool
  | .watch _ _ => true
  | .unwatch _ => true
  | .teardown => true
  | _ => false

section Turns
variable {s t : Session} {c : Call}

theorem Turn.same (phase : t.phase = s.phase) (listens : t.listens = s.listens)
    (requests : t.wire.requests = s.wire.requests) : Turn s t :=
  .calm phase listens fun _ =>
    ⟨requests ▸ List.Subset.refl _, requests ▸ List.Subset.refl _⟩

theorem turns_lose (s : Session) (recoverable : Bool) (retryAfter : Option Nanos) :
    Turns s (s.lose recoverable retryAfter) := by
  have phase := s.phase_lose recoverable retryAfter
  unfold lose at phase ⊢
  split
  · exact .refl
  · rename_i up
    rw [if_neg up] at phase
    exact .single (.lost phase rfl rfl)

theorem turns_connect (s : Session) : Turns s s.connect.1 := by
  unfold connect
  split
  · exact .refl
  · rename_i connection hc
    obtain ⟨before, after⟩ := Connection.phase_beginConnect hc
    have opened : Turn s { s with
        connection := connection, wire.link := (s.link.openTo s.config.url).1 } :=
      .opened before after rfl rfl
    dsimp only
    split
    · exact .single opened
    · exact (turns_lose _ _ _).head opened

theorem turns_close (s : Session) : Turns s s.close.1 := by
  unfold close
  dsimp only
  split
  · rename_i active
    have after : s.connection.beginClose.phase = .disconnecting := if_pos active
    have closing : Turn s { s with
        connection := s.connection.beginClose, wire.link := s.link.close.1 } :=
      .closing active after rfl rfl
    split
    · exact .single closing
    · exact (turns_lose _ _ _).head closing
  · rename_i inactive
    have same : s.connection.beginClose.phase = s.phase := if_neg inactive
    exact .single (.same same rfl rfl)

theorem turn_submit (s : Session) (make : RequestId → Request) (observed : Bool) :
    Turn s (s.submit make observed).1 := by
  unfold submit
  split
  · exact .same rfl rfl rfl
  · refine .calm rfl rfl fun down => ?_
    have unconnected : s.isConnected = false := beq_eq_false_iff_ne.mpr down
    rw [unconnected]
    exact ⟨List.Subset.refl _, List.Subset.refl _⟩

theorem turn_authenticate (s : Session) (credential : String) (observed : Bool) :
    Turn s (s.authenticate credential observed).1 := by
  refine .calm rfl rfl fun down => ?_
  have unconnected : s.isConnected = false := beq_eq_false_iff_ne.mpr down
  rw [authenticate, unconnected]
  exact ⟨List.Subset.refl _, List.Subset.refl _⟩

theorem turn_handshake (s : Session) (time : Nat) : Turn s (s.handshake time) := by
  by_cases up : s.phase = .connecting
  · have phase := phase_handshake up time
    unfold handshake at phase ⊢
    split
    · exact .same rfl rfl rfl
    · rename_i connection hc
      rw [hc] at phase
      exact .greeted phase _ rfl
  · rw [handshake_of_ne up]
    exact .same rfl rfl rfl

theorem turn_response (s : Session) (id : RequestId) (status : Status) (data : Option Value) :
    Turn s (s.response id status data) := by
  unfold response
  split
  · exact .answered id status.isOk rfl rfl
  · unfold settle
    split
    · exact .calm rfl rfl fun _ => ⟨List.Subset.refl _, List.filter_subset_self _⟩
    · split
      · exact .same rfl rfl rfl
      · exact .calm rfl rfl fun _ => ⟨List.filter_subset_self _, List.Subset.refl _⟩

theorem turns_receive (s : Session) (m : Message) : Turns s (s.receive m) := by
  cases m with
  | handshake time => exact .single (turn_handshake s time)
  | update kind p v => exact .single (.same rfl rfl rfl)
  | response id status data => exact .single (turn_response s id status data)
  | closed recoverable retryAfter => exact turns_lose s recoverable retryAfter

theorem turns_tick (s : Session) : Turns s s.tick := by
  have kept : Turn s s.tickKeepalive := by
    unfold tickKeepalive
    split
    · rename_i due
      have up : s.phase = .connected := beq_iff_eq.mp (Bool.and_eq_true_iff.mp due).2
      exact .calm rfl rfl fun down => absurd up down
    · exact .same rfl rfl rfl
  unfold tick tickReconnect
  split
  · have taken : Turn s.tickKeepalive { s.tickKeepalive with
        connection := s.tickKeepalive.connection.takeReconnect
        wire.stats.reconnects := s.tickKeepalive.wire.stats.reconnects + 1 } := .same rfl rfl rfl
    exact ((turns_connect _).head taken).head kept
  · exact .single kept

/-- Every call is made of turns, unless it changes the references. -/
theorem turns_call (s : Session) (plain : c.refers = false) : Turns s (s.call c) := by
  cases c with
  | watch p kind | unwatch handle | teardown => cases plain
  | connect => exact turns_connect s
  | close => exact turns_close s
  | write p v observed => exact .single (turn_submit s _ observed)
  | merge p v observed => exact .single (turn_submit s _ observed)
  | push p v observed =>
    rw [call, push]
    dsimp only
    split
    · exact .single (.same rfl rfl rfl)
    · have keyed : Turn s { s with pushKeys := (s.pushKeys.generate s.serverNow).2 } :=
        .same rfl rfl rfl
      exact .head keyed (.single (turn_submit _ _ observed))
  | authenticate credential observed => exact .single (turn_authenticate s credential observed)
  | restore snapshot =>
    rw [call, restore]
    split <;> exact .single (.same rfl rfl rfl)
  | receive m => exact turns_receive s m
  | frame text =>
    rw [call, receiveFrame]
    split
    · exact turns_receive s _
    · exact .single (.same rfl rfl rfl)
  | tick => exact turns_tick s
  | pass t | ask names | faults opening closing | drain => exact .single (.same rfl rfl rfl)

end Turns

end LiveTree.Session
