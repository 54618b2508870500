import LiveTree.Proofs.Session.Phases
import LiveTree.Proofs.Session.Traffic

/-!
# What leaves in a call

A handshake sends the credential, the listens and the whole queue of writes; a write that is
submitted while connected leaves at once; nothing else sends a write. The queue stays in the order of
the numbers, and nothing is in flight until a connection stands.
-/

namespace LiveTree

open Listens

namespace Session

/-- The queue is in the order of the numbers, and nothing is in flight before a connection stands. -/
structure Filed (s : Session) : Prop where
  ordered : s.wire.requests.queued.Pairwise fun a b => a.id < b.id
  idle : s.phase = .disconnected ∨ s.phase = .connecting → s.wire.requests.inFlight = []

theorem Filed.of_phase {s : Session} {p : Phase}
    (ordered : s.wire.requests.queued.Pairwise fun a b => a.id < b.id) (phase : s.phase = p)
    (up : ¬ (p = .disconnected ∨ p = .connecting)) : Filed s :=
  ⟨ordered, fun down => absurd (phase ▸ down) up⟩

/-- Writes have left on the way to a session whose queue is in order. -/
structure Flow (s t : Session) (writes : List Request) : Prop where
  writes : s.wire.Writes t.wire writes
  filed : Filed t

theorem Booked.distinct {s : Session} (b : Booked s) :
    (s.wire.requests.all.map (·.id)).Nodup := (List.nodup_append.mp b.once).2.1

section Calls
variable {s t : Session} {writes : List Request}

theorem Filed.same (f : Filed s) (phase : t.phase = s.phase)
    (inFlight : ∀ r ∈ t.wire.requests.inFlight, r ∈ s.wire.requests.inFlight)
    (queued : t.wire.requests.queued = s.wire.requests.queued) : Filed t where
  ordered := by
    rw [queued]
    exact f.ordered
  idle down := by
    rw [phase] at down
    rw [f.idle down] at inFlight
    exact List.eq_nil_iff_forall_not_mem.mpr fun r hr => List.not_mem_nil (inFlight r hr)

theorem Filed.flow (f : Filed s) (phase : t.phase = s.phase)
    (inFlight : ∀ r ∈ t.wire.requests.inFlight, r ∈ s.wire.requests.inFlight)
    (queued : t.wire.requests.queued = s.wire.requests.queued)
    (sent : t.wire.link.sent = s.wire.link.sent) : Flow s t [] :=
  ⟨.of_link sent, f.same phase inFlight queued⟩

theorem Flow.lose (h : Flow s t writes) (distinct : (t.wire.requests.all.map (·.id)).Nodup)
    (recoverable : Bool) (retryAfter : Option Nanos) :
    Flow s (t.lose recoverable retryAfter) writes := by
  unfold Session.lose
  split
  · exact h
  · exact ⟨h.writes.still rfl, Waiting.ordered_foldr_place h.filed.ordered distinct, fun _ => rfl⟩

theorem Flow.connect (h : Flow s t writes) (distinct : (t.wire.requests.all.map (·.id)).Nodup) :
    Flow s t.connect.1 writes := by
  unfold Session.connect
  split
  · exact h
  · rename_i connection hc
    have idle := h.filed.idle (Or.inl (Connection.phase_beginConnect hc).1)
    have tried : Flow s { t with
        connection := connection, wire.link := (t.link.openTo t.config.url).1 } writes :=
      ⟨h.writes.still (Network.openTo_sent _ _), h.filed.ordered, fun _ => idle⟩
    dsimp only
    split
    · exact tried
    · exact tried.lose distinct _ _

theorem flow_close (f : Filed s) (b : Booked s) : Flow s s.close.1 [] := by
  unfold close
  dsimp only
  split
  · rename_i active
    have phase : s.connection.beginClose.phase = .disconnecting := if_pos active
    have closing : Flow s { s with
        connection := s.connection.beginClose, wire.link := s.link.close.1 } [] :=
      ⟨.of_link (Link.sent_close _), .of_phase f.ordered phase (by decide)⟩
    split
    · exact closing
    · exact closing.lose b.distinct _ _
  · rename_i active
    have phase : s.connection.beginClose.phase = s.phase := if_neg active
    exact f.flow phase (fun _ hr => hr) rfl rfl

theorem flow_act (h : Ready s) (f : Filed s) (a : Listens.Action) (phase : t.phase = s.phase)
    (run : (t.listens, t.wire) = a.run Wire.sink (s.listens, s.wire)) : Flow s t [] := by
  have grown := (@Listens.Action.grown (s.listens, s.wire) a h.sound).1
  have writes := a.writes (s.listens, s.wire) h.sound
  rw [← run] at grown writes
  exact ⟨writes, f.same phase (fun r hr => grown.kept.inFlight ▸ hr) grown.kept.queued⟩

theorem flow_tick (f : Filed s) (b : Booked s) : Flow s s.tick [] := by
  have kept : Flow s s.tickKeepalive []
      ∧ (s.tickKeepalive.wire.requests.all.map (·.id)).Nodup := by
    unfold tickKeepalive
    split
    · have grown := (grown_keepalive s.listens s.wire).kept
      refine ⟨⟨s.wire.writes_keepalive, f.same rfl (fun r hr => ?_) grown.queued⟩, ?_⟩
      · exact (grown.inFlight ▸ hr :)
      · exact (grown.all ▸ b.distinct :)
    · exact ⟨⟨.of_link rfl, f⟩, b.distinct⟩
  unfold tick tickReconnect
  split
  · have started : Flow s { s.tickKeepalive with
        connection := s.tickKeepalive.connection.takeReconnect
        wire.stats.reconnects := s.tickKeepalive.wire.stats.reconnects + 1 } [] :=
      ⟨kept.1.writes.still rfl, kept.1.filed.same rfl (fun _ hr => hr) rfl⟩
    exact started.connect kept.2
  · exact kept.1

/-- A request is submitted after some of the queue were given up. It leaves while connected. -/
theorem flow_submit (h : Ready s) (b : Booked s) (f : Filed s) {kept : List Waiting}
    (sub : kept.Sublist s.wire.requests.queued) {make : RequestId → Request}
    (number : ∀ id, (make id).id = id) (observed : Bool)
    (wire : t.wire = (Wire.submit s.isConnected { s.wire with requests.queued := kept } make
      observed).2) (phase : t.phase = s.phase) :
    Flow s t (if s.phase = .connected then writesOf [make (s.wire.requests.lastId + 1)] else []) := by
  let r : Waiting := ⟨make (s.wire.requests.lastId + 1), observed⟩
  have id : r.id = s.wire.requests.lastId + 1 := number _
  have ordered : kept.Pairwise fun a b => a.id < b.id := f.ordered.sublist sub
  split
  · rename_i up
    have connected : s.isConnected = true := beq_iff_eq.mpr up
    have isOpen := h.isOpen (Or.inr up)
    rw [connected] at wire
    refine ⟨⟨[r.request], ?_, rfl⟩, .of_phase ?_ (phase.trans up) (by decide)⟩
    · rw [wire]
      exact Wire.sent_submit (w := { s.wire with requests.queued := kept }) isOpen make observed
    · have took := Wire.took_submit true { s.wire with requests.queued := kept } make observed
      rw [wire, took.queued rfl isOpen]
      exact ordered
  · rename_i down
    have connected : s.isConnected = false := beq_eq_false_iff_ne.mpr down
    rw [connected] at wire
    refine ⟨.of_link (by rw [wire]; rfl), ?_, fun hp => ?_⟩
    · rw [wire]
      refine Waiting.ordered_place (w := r) ordered fun x hx same => ?_
      have old : x.id ≤ s.wire.requests.lastId := b.numbered _ (List.mem_append_right _
        (List.mem_map_of_mem (List.mem_append_right _ (sub.subset hx))))
      rw [same, id] at old
      exact Nat.not_succ_le_self _ old
    · rw [wire]
      exact f.idle (phase ▸ hp)

/-- The frames by which a credential is presented on a new connection. -/
def presented (s : Session) : List Request :=
  match s.wire.requests.queued.filter (·.isAuth), s.credential with
  | [], some credential => [Request.auth (s.wire.requests.lastId + 1) credential]
  | auths, _ => auths.map (·.request)

/-- The frames of the writes that are queued. -/
def owed (s : Session) : List Request :=
  (s.wire.requests.queued.filter fun w => !w.isAuth).map (·.request)

theorem sent_credited (isOpen : s.wire.link.isOpen = true) :
    s.credited.link.sent = s.wire.link.sent ++ s.presented := by
  unfold credited presented
  cases ha : s.wire.requests.queued.filter (·.isAuth) with
  | nil =>
    cases s.credential with
    | none => exact (List.append_nil _).symm
    | some credential =>
      exact Wire.sent_submit (w := { s.wire with requests.queued := [] }) isOpen _ false
  | cons a auths =>
    exact Wire.sent_dispatches (w := { s.wire with requests.queued := [] }) isOpen (a :: auths)

theorem sent_resume (isOpen : s.wire.link.isOpen = true) :
    ∃ listens : List (RequestId × Path), s.resume.listens.awaited = s.listens.awaited ++ listens
      ∧ s.resume.wire.link.sent = s.wire.link.sent
        ++ (s.presented ++ listens.map (fun e => Request.listen e.1 e.2) ++ s.owed) := by
  obtain ⟨added, credited⟩ := exists_credited isOpen
  obtain ⟨⟨listens, awaited, sent⟩, still⟩ := listened_resume s.listens credited.isOpen
  refine ⟨listens, awaited, ?_⟩
  rw [← List.append_assoc, ← List.append_assoc, ← sent_credited isOpen, ← sent]
  exact Wire.sent_dispatches still _

/-- What a new connection is sent: the credential, the listens that are awaited from then on, and
the writes. -/
theorem sent_handshake (h : Ready s) (up : s.phase = .connecting) (time : Nat) :
    ∃ listens : List (RequestId × Path),
      (s.handshake time).listens.awaited = s.listens.awaited ++ listens
      ∧ (s.handshake time).wire.link.sent = s.wire.link.sent
        ++ (s.presented ++ listens.map (fun e => Request.listen e.1 e.2) ++ s.owed) := by
  obtain ⟨greeted, same, _, link, requests, listens, credential⟩ := exists_greeted up time
  have isOpen : greeted.wire.link.isOpen = true := by
    rw [link]
    exact h.isOpen (Or.inl up)
  have sent := sent_resume isOpen
  rw [presented, owed, link, requests, listens, credential, ← same] at sent
  exact sent

theorem writesOf_listens (sent : List (RequestId × Path)) :
    writesOf (sent.map fun e => Request.listen e.1 e.2) = [] := by
  refine List.filter_eq_nil_iff.mpr fun r hr => ?_
  obtain ⟨e, _, rfl⟩ := List.mem_map.mp hr
  exact Bool.false_ne_true

theorem writesOf_presented (s : Session) : writesOf s.presented = [] := by
  refine List.filter_eq_nil_iff.mpr fun r hr => ?_
  have auth : r.action = .auth := by
    unfold presented at hr
    split at hr
    · obtain rfl := List.mem_singleton.mp hr
      rfl
    · obtain ⟨w, hw, rfl⟩ := List.mem_map.mp hr
      exact beq_iff_eq.mp (List.mem_filter.mp hw).2
  rw [auth]
  exact Bool.false_ne_true

/-- What waits is a write or presents a credential. -/
def OnlyWrites (s : Session) : Prop :=
  ∀ r ∈ s.wire.requests.all, r.request.action.isWrite = false → r.isAuth = true

theorem OnlyWrites.owed (h : OnlyWrites s) :
    s.owed = writesOf (s.wire.requests.queued.map (·.request)) := by
  rw [Session.owed, writesOf, List.filter_map]
  refine congrArg (List.map _) (List.filter_congr fun r hr => ?_)
  cases write : r.request.action.isWrite with
  | false =>
    have auth := h r (List.mem_append_right _ hr) write
    simp [auth, write]
  | true =>
    have other : r.isAuth = false := by
      refine beq_eq_false_iff_ne.mpr fun auth => ?_
      rw [auth] at write
      cases write
    simp [other, write]

theorem writesOf_owed (h : OnlyWrites s) : writesOf s.owed = s.owed := by
  rw [h.owed, writesOf, writesOf, List.filter_filter]
  exact List.filter_congr fun _ _ => Bool.and_self _

theorem flow_handshake (h : Ready s) (f : Filed s) (only : OnlyWrites s) (time : Nat) :
    Flow s (s.handshake time) (if s.phase = .connecting then s.owed else []) := by
  by_cases up : s.phase = .connecting
  · rw [if_pos up]
    have connected := phase_handshake up time
    obtain ⟨_, _, _, ready⟩ := turnover_handshake h time
    obtain ⟨listens, _, sent⟩ := sent_handshake h up time
    refine ⟨⟨_, sent, ?_⟩, .of_phase ?_ connected (by decide)⟩
    · rw [writesOf_append, writesOf_append, writesOf_presented, writesOf_listens,
        writesOf_owed only]
      rfl
    · rw [ready.sent connected]
      exact .nil
  · rw [if_neg up, handshake_of_ne up]
    exact f.flow rfl (fun _ hr => hr) rfl rfl

theorem flow_response (h : Ready s) (f : Filed s) (id : RequestId) (status : Status)
    (data : Option Value) : Flow s (s.response id status data) [] := by
  unfold response
  split
  · exact flow_act h f (.answer id status.isOk) rfl rfl
  · unfold settle
    split
    · exact f.flow rfl (fun _ hr => hr) rfl rfl
    · split
      · exact f.flow rfl (fun _ hr => hr) rfl rfl
      · exact f.flow rfl (fun _ hr => (List.mem_filter.mp hr).1) rfl rfl

theorem flow_receive (h : Ready s) (b : Booked s) (f : Filed s) (only : OnlyWrites s)
    (m : Message) : Flow s (s.receive m) (match m with
      | .handshake _ => if s.phase = .connecting then s.owed else []
      | _ => []) := by
  cases m with
  | handshake time => exact flow_handshake h f only time
  | update kind p v => exact f.flow rfl (fun _ hr => hr) rfl rfl
  | response id status data => exact flow_response h f id status data
  | closed recoverable retryAfter =>
    exact Flow.lose ⟨.of_link rfl, f⟩ b.distinct recoverable retryAfter

theorem flow_teardown (f : Filed s) (b : Booked s) : Flow s s.teardown [] := by
  obtain ⟨writes, _⟩ := flow_close f b
  exact ⟨writes.still rfl, .nil, fun _ => rfl⟩

end Calls

/-- The writes that leave in a call. -/
def leaving (s : Session) (c : Call) : List Request :=
  match c.message? with
  | some (.handshake _) => if s.phase = .connecting then s.owed else []
  | _ => if s.phase = .connected then (s.submitted c).toList else []

section Calls
variable {s : Session}

theorem flow_write (h : Ready s) (b : Booked s) (f : Filed s) {make : RequestId → Request}
    (number : ∀ id, (make id).id = id) (write : ∀ id, (make id).action.isWrite = true)
    (observed : Bool) : Flow s (s.submit make observed).1 (if s.phase = .connected
      then ((s.submit make observed).2.toOption.map make).toList else []) := by
  unfold submit
  split
  · refine ⟨?_, f⟩
    split <;> exact .of_link rfl
  · have flow := @flow_submit s { s with wire := (s.wire.submit s.isConnected make observed).2 }
      h b f _ (List.Sublist.refl _) make number observed rfl rfl
    have leaves : writesOf [make (s.wire.requests.lastId + 1)]
        = [make (s.wire.requests.lastId + 1)] :=
      List.filter_cons_of_pos (write _)
    rw [leaves] at flow
    exact flow

theorem flow_call (h : Ready s) (b : Booked s) (f : Filed s) (only : OnlyWrites s) {c : Call}
    (other : c ≠ .drain) : Flow s (s.call c) (s.leaving c) := by
  have quiet : ∀ {t}, Flow s t [] → c.message? = none → s.submitted c = none →
      Flow s t (s.leaving c) := by
    intro t flow message submitted
    have none : s.leaving c = [] := by
      rw [leaving, message, submitted]
      exact ite_self _
    rw [none]
    exact flow
  have received : ∀ {t m}, c.message? = some m → s.submitted c = none →
      Flow s t (match m with
        | .handshake _ => if s.phase = .connecting then s.owed else []
        | _ => []) → Flow s t (s.leaving c) := by
    intro t m message submitted flow
    rw [leaving, message, submitted]
    cases m with
    | handshake time => exact flow
    | _ =>
      rw [Option.toList_none, ite_self]
      exact flow
  cases c with
  | connect => exact quiet (Flow.connect ⟨.of_link rfl, f⟩ b.distinct) rfl rfl
  | close => exact quiet (flow_close f b) rfl rfl
  | watch p kind => exact quiet (flow_act h f (.acquire p) rfl rfl) rfl rfl
  | unwatch handle =>
    refine quiet ?_ rfl rfl
    rw [call, unwatch]
    split
    · exact f.flow rfl (fun _ hr => hr) rfl rfl
    · exact flow_act h f (.release _) rfl rfl
  | write p v observed => exact flow_write h b f (fun _ => rfl) (fun _ => rfl) observed
  | merge p v observed => exact flow_write h b f (fun _ => rfl) (fun _ => rfl) observed
  | push p v observed =>
    rw [call]
    cases hc : p.child (s.pushKeys.generate s.serverNow).1 with
    | error e =>
      have same := push_error hc v observed
      refine quiet ?_ rfl ?_
      · rw [same]
        exact f.flow rfl (fun _ hr => hr) rfl rfl
      · rw [submitted, same]
        rfl
    | ok child =>
      obtain ⟨writes, filed⟩ := @flow_write s.keyed (h.same rfl h.sound rfl rfl)
        ⟨b.once, b.numbered, b.foreign, b.room⟩ (f.same rfl (fun _ hr => hr) rfl)
        (Request.put · child v) (fun _ => rfl) (fun _ => rfl) observed
      rw [push_ok hc, leaving, submitted_push hc]
      exact ⟨writes, filed⟩
  | authenticate credential observed =>
    have flow := @flow_submit s (s.authenticate credential observed).1 h b f _ List.filter_sublist
      (fun id => Request.auth id credential) (fun _ => rfl) observed rfl rfl
    rw [writesOf, List.filter_cons_of_neg Bool.false_ne_true, List.filter_nil, ite_self] at flow
    exact quiet flow rfl rfl
  | restore snapshot =>
    refine quiet ?_ rfl rfl
    rw [call, restore]
    split <;> exact f.flow rfl (fun _ hr => hr) rfl rfl
  | teardown => exact quiet (flow_teardown f b) rfl rfl
  | receive m => exact received rfl rfl (flow_receive h b f only m)
  | frame text =>
    rw [call, receiveFrame]
    cases read : Message.decode text with
    | ok m =>
      exact received (by rw [Call.message?, read]; rfl) rfl (flow_receive h b f only m)
    | error e =>
      refine quiet (f.flow rfl (fun _ hr => hr) rfl rfl) ?_ rfl
      rw [Call.message?, read]
      rfl
  | tick => exact quiet (flow_tick f b) rfl rfl
  | pass t | ask names | faults opening closing =>
    exact quiet (f.flow rfl (fun _ hr => hr) rfl rfl) rfl rfl
  | drain => exact absurd rfl other

end Calls

end Session

end LiveTree
