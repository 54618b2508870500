import LiveTree.Proofs.Network.Lifecycle

/-!
# The session and the server agree on what is listened to

Every turn keeps the joint invariant, so it holds after any turns in any order. In a state without
anything on its way it says that the server listens to the active paths and to no others, and that
every subscription is served: its path is active, or below an active one, or refused.

Nothing is said here about the data.
-/

namespace LiveTree.Network

open Listens

section Turns
variable {x : Network}

theorem ordinary_fanOut (s : Server) (changed : Path) (kind : UpdateKind) (p : Path) (v : Value) :
    ∀ m ∈ s.fanOut changed (.update kind p v), isOrdinary m = true := by
  intro m hm
  rcases List.mem_append.mp hm with hm | hm
  · split at hm
    · rw [List.mem_singleton.mp hm]
      rfl
    · cases hm
  · obtain ⟨_, _, rfl⟩ := List.mem_map.mp hm
    rfl

theorem ordinary_served {s : Server} {r : Request} {after : Server × List Message}
    (h : s.Served r after) : ∀ m ∈ after.2, isOrdinary m = true := by
  cases h with
  | changed kind v =>
    intro m hm
    rcases List.mem_append.mp hm with hm | hm
    · exact ordinary_fanOut _ _ _ _ _ m hm
    · rw [List.mem_singleton.mp hm]
      rfl
  | denied | welcomed =>
    intro m hm
    rw [List.mem_singleton.mp hm]
    rfl
  | listened =>
    intro m hm
    rcases List.mem_cons.mp hm with rfl | hm
    · rfl
    · rw [List.mem_singleton.mp hm]
      rfl
  | unlistened | kept => exact nofun

theorem Joint.phase_of_sent (h : Joint x) {r : Request} {rest : List Request}
    (hs : x.session.link.sent = r :: rest) : x.session.phase = .connected := by
  by_contra hp
  have sent : x.session.link.sent = [] := (h.down hp).sent
  rw [hs] at sent
  cases sent

theorem Joint.serve (h : Joint x) : Joint x.serve := by
  unfold Network.serve
  split
  · exact h
  · rename_i r rest hs
    have phase : x.session.phase = .connected := h.phase_of_sent hs
    have served := x.server.process_served r
    have ht := Tuned.serve (h.up phase) hs h.sound served h.fit.awaiting.listed
    refine ⟨Joint.unsent h.fit rest, served.sound h.sound, ?_, absurd phase, ?_⟩
    · intro m hm
      rcases List.mem_append.mp hm with hm | hm
      · exact h.ordinary m hm
      · exact ordinary_served served m hm
    · intro _
      rw [answers_append]
      exact ht

theorem Joint.deliver (h : Joint x) : Joint x.deliver := by
  unfold Network.deliver
  split
  · exact h
  · rename_i m rest hi
    have h' : Joint ⟨x.session, x.server, m :: rest⟩ := hi ▸ h
    cases m with
    | handshake time => exact h'.handshake
    | update kind p v => exact (h'.taken nofun).same (x.session.same_update kind p v)
    | response id status data => exact h'.response
    | closed recoverable retryAfter => cases h'.ordinary _ List.mem_cons_self

theorem fanOut_empty {s : Server} (h : s.listens = OrderedMap.empty) (p : Path) (m : Message) :
    s.fanOut p m = [] := by
  have keys : s.listens.keys = [] := by rw [h]; rfl
  simp [Server.fanOut, keys]

theorem Joint.setValue (h : Joint x) (p : Path) (v : Value) : Joint (x.run (.setValue p v)) where
  fit := h.fit
  sound := h.sound
  ordinary m hm := by
    rcases List.mem_append.mp hm with hm | hm
    · exact h.ordinary m hm
    · exact ordinary_fanOut _ p .put p v m hm
  down hp := by
    obtain ⟨hl, hs, hi⟩ := h.down hp
    refine ⟨hl, hs, fun m hm => hi m ?_⟩
    have none := @fanOut_empty { x.server with data := x.server.data.put p v } hl p (.put p v)
    rcases List.mem_append.mp hm with hm | hm
    · exact hm
    · change m ∈ Server.fanOut _ p _ at hm
      rw [none] at hm
      cases hm
  up hp := by
    have none := @Server.answers_fanOut { x.server with data := x.server.data.put p v } p .put p v
    have same : answers (x.run (.setValue p v)).inbox = answers x.inbox := by
      apply (answers_append _ _).trans
      exact (congrArg (answers x.inbox ++ ·) none).trans (List.append_nil _)
    rw [same]
    exact h.up hp

theorem Joint.greet (h : Joint x) : Joint (x.run .greet) where
  fit := h.fit
  sound := h.sound
  ordinary m hm := by
    rcases List.mem_append.mp hm with hm | hm
    · exact h.ordinary m hm
    · rw [List.mem_singleton.mp hm]
      rfl
  down hp := by
    obtain ⟨hl, hs, hi⟩ := h.down hp
    refine ⟨hl, hs, ?_⟩
    intro m hm
    rcases List.mem_append.mp hm with hm | hm
    · exact hi m hm
    · exact ⟨_, List.mem_singleton.mp hm⟩
  up hp := by
    have same : answers (x.run .greet).inbox = answers x.inbox :=
      (answers_append _ _).trans (List.append_nil _)
    rw [same]
    exact h.up hp

theorem Joint.tick (h : Joint x) : Joint (x.run .tick) := by
  have kept := Joint.keepalive h
  change Joint ⟨x.session.tickKeepalive.tickReconnect, x.server, x.inbox⟩
  unfold Session.tickReconnect
  split
  · exact Joint.connect (kept.same ⟨rfl, rfl, rfl, rfl, rfl, rfl⟩)
  · exact kept

/-- Every turn that is allowed keeps the session, the server and the channels together. -/
theorem Joint.run (h : Joint x) (t : Turn) (allowed : Admits x t) : Joint (x.run t) := by
  cases t with
  | watch p kind => exact Joint.watch h p kind
  | unwatch handle => exact Joint.unwatch h handle
  | write p v observed => exact Joint.write h p v observed
  | merge p v observed => exact Joint.merge h p v observed
  | push p v observed => exact Joint.push h p v observed
  | restore snapshot => exact Joint.same h (x.session.same_restore snapshot)
  | teardown =>
    apply Joint.teardown h
    intro hp
    rw [Admits, Session.isConnected, hp] at allowed
    cases allowed
  | connect => exact Joint.connect h
  | tick => exact h.tick
  | pass t => exact Joint.same h ⟨rfl, rfl, rfl, rfl, rfl, rfl⟩
  | greet => exact h.greet
  | serve => exact h.serve
  | deliver => exact h.deliver
  | setValue p v => exact h.setValue p v
  | refuse p =>
    refine ⟨h.fit, h.sound, h.ordinary, ?_, h.up⟩
    intro hp
    obtain ⟨hl, hs, hi⟩ := h.down hp
    exact ⟨hl, hs, hi⟩
  | drop recoverable => exact h.drop recoverable

theorem joint_start (config : Config) (clock : Clock) (digits : PushKey.Source)
    (tokens : List String) (time : Nat) : Joint (start config clock digits tokens time) := by
  refine .of_down ?_ nofun ⟨rfl, rfl, nofun⟩
  exact {
    covering := covering_of_none OrderedMap.sound_empty fun _ => rfl
    awaiting := awaiting_of_none rfl (fun _ => rfl) nofun
    apart := nofun
    counted := fun _ => rfl
    distinct := List.nodup_nil
    numbered := nofun
    isOpen := fun hp => by rcases hp with hp | hp <;> cases hp
    online := ⟨nofun, nofun⟩ }

theorem ReachableBy.joint {allowed : Network → Turn → Prop}
    (le : ∀ x t, allowed x t → Admits x t) (h : ReachableBy allowed x) : Joint x := by
  induction h with
  | start config clock digits tokens time => exact joint_start config clock digits tokens time
  | run t ht _ ih => exact ih.run t (le _ t ht)

theorem reachable_foldl (h : Reachable x) {ts : List Turn} (always : ∀ t ∈ ts, ∀ y, Admits y t) :
    Reachable (ts.foldl run x) := by
  induction ts generalizing x with
  | nil => exact h
  | cons t ts ih =>
    obtain ⟨ht, hts⟩ := List.forall_mem_cons.mp always
    exact ih (.run t (ht x) h) hts

end Turns

/-- The session and the server agree on what is listened to, and every subscription is served. -/
structure Agreement (x : Network) : Prop where
  listening : ∀ p, x.server.isListening p = true ↔ x.session.listens.status? p = some .active
  settled : ∀ p, x.session.listens.status? p ≠ some .pending
    ∧ x.session.listens.status? p ≠ some .required
  outermost : ∀ p q, p.Above q → x.session.listens.status? p = some .active →
    x.session.listens.status? q ≠ some .active
  served : ∀ handle p, (handle, p) ∈ x.session.subscriptions.handles →
    x.session.listens.status? p = some .active
      ∨ (x.session.listens.status? p = some .masked
        ∧ ∃ q, q.Above p ∧ x.session.listens.status? q = some .active)
      ∨ x.session.listens.status? p = some .failed

section Quiet
variable {x : Network}

theorem Quiet.phase (q : Quiet x) : x.session.phase = .connected := beq_iff_eq.mp q.connected

theorem Joint.request_none (h : Joint x) (q : Quiet x) (p : Path) :
    x.session.listens.request? p = none := by
  cases hr : x.session.listens.request? p with
  | none => rfl
  | some id =>
    have flying := (h.up q.phase).flight.flying id p (h.fit.awaiting.listed p id hr)
    have sent : (x.session.listens, x.session.wire).2.link.sent = [] := q.sent
    rw [sent, q.inbox] at flying
    cases flying

theorem Joint.settled (h : Joint x) (q : Quiet x) (p : Path) :
    x.session.listens.status? p ≠ some .pending
      ∧ x.session.listens.status? p ≠ some .required := by
  constructor
  · intro hp
    obtain ⟨id, hid⟩ := h.fit.awaiting.pending p hp
    cases (h.request_none q p).symm.trans hid
  · intro hp
    exact List.not_mem_nil (h.fit.covering.online (h.fit.online.mpr q.phase) p hp)

theorem Joint.listening (h : Joint x) (q : Quiet x) (p : Path) :
    x.server.isListening p = true ↔ x.session.listens.status? p = some .active := by
  have none := h.request_none q p
  have sent : (x.session.listens, x.session.wire).2.link.sent = [] := q.sent
  cases (h.up q.phase).tune p with
  | sent hr | answered hr =>
    cases none.symm.trans hr
  | active _ hs on => exact ⟨fun _ => hs, fun _ => on⟩
  | idle _ hs off =>
    rw [sent, held_nil] at off
    refine ⟨?_, fun hp => absurd hp hs⟩
    intro on
    rw [off] at on
    cases on

theorem Joint.masked (h : Joint x) (q : Quiet x) {p : Path}
    (hp : x.session.listens.status? p = some .masked) :
    ∃ a, a.Above p ∧ x.session.listens.status? a = some .active := by
  obtain ⟨a, s, above, ha, hs⟩ :=
    isCovered_iff.mp ((h.fit.covering.masked p hp).resolve_left List.not_mem_nil)
  obtain ⟨pending, required⟩ := h.settled q a
  refine ⟨a, above, ?_⟩
  cases s with
  | active => exact ha
  | pending => exact absurd ha pending
  | required => exact absurd ha required
  | failed | masked => cases hs

theorem Joint.served (h : Joint x) (q : Quiet x) {handle : Nat} {p : Path}
    (mem : (handle, p) ∈ x.session.subscriptions.handles) :
    x.session.listens.status? p = some .active
      ∨ (x.session.listens.status? p = some .masked
        ∧ ∃ q, q.Above p ∧ x.session.listens.status? q = some .active)
      ∨ x.session.listens.status? p = some .failed := by
  have refs : 0 < x.session.listens.refs p := by
    rw [h.fit.counted p]
    exact List.countP_pos_iff.mpr ⟨_, mem, beq_self_eq_true p⟩
  obtain ⟨i, hi⟩ := get?_of_refs refs
  have status := status?_of_get? hi
  obtain ⟨pending, required⟩ := h.settled q p
  cases hs : i.status with
  | active => exact Or.inl (status.trans (congrArg some hs))
  | masked =>
    have masked := status.trans (congrArg some hs)
    exact Or.inr (Or.inl ⟨masked, h.masked q masked⟩)
  | failed => exact Or.inr (Or.inr (status.trans (congrArg some hs)))
  | pending => exact absurd (status.trans (congrArg some hs)) pending
  | required => exact absurd (status.trans (congrArg some hs)) required

/-- Whatever was done and in whatever order: connected and with nothing on its way, the session and
the server agree. -/
theorem agreement_of_quiet (h : Reachable x) (q : Quiet x) : Agreement x := by
  have joint : Joint x := h.joint fun _ _ ha => ha
  refine ⟨joint.listening q, joint.settled q, ?_, ?_⟩
  · intro p r above hp hr
    exact List.not_mem_nil (joint.fit.covering.active p r _ above hp hr rfl)
  · intro handle p mem
    exact joint.served q mem

end Quiet

def origin : Network := start {} (.startingAt 0) ⟨fun _ => ⟨0, by decide⟩, 0⟩ [] 0

/-- A connection is lost while a listen is on its way; the next one listens above it instead. -/
def reunion : List Turn :=
  [.connect, .greet, .deliver, .watch inner .value, .serve, .drop true, .watch outer .value,
    .connect, .greet, .deliver, .serve, .deliver, .deliver]

theorem agreement_of_reunion :
    Agreement (reunion.foldl run origin) ∧ (reunion.foldl run origin).server.listens.keys = [outer]
      ∧ (reunion.foldl run origin).session.listens.status? inner = some .masked := by
  refine ⟨agreement_of_quiet ?_ ⟨?_, ?_, ?_⟩, ?_, ?_⟩
  · apply reachable_foldl (.start _ _ _ _ _)
    simp [reunion, Admits]
  all_goals decide +kernel

end LiveTree.Network
