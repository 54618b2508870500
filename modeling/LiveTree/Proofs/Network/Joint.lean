import LiveTree.Proofs.Network.Bookkeeping

/-!
# The joint invariant of a session and a server

`Fit` is what a session keeps right by itself. While connected, `Joint` adds that every path is in
tune with the server and the channels; while not connected, that the server listens to nothing and
nothing but handshakes is on its way. Most turns leave what the invariant reads as it is.
-/

namespace LiveTree

open Listens Relation

/-- What a session keeps right by itself. -/
structure Session.Fit (s : Session) : Prop where
  covering : Covering [] [] [] s.listens
  awaiting : Awaiting Wire.Issued (s.listens, s.wire)
  apart : Apart (s.listens, s.wire) s.wire.requests.all
  counted : ∀ p, s.listens.refs p = s.subscriptions.handles.countP fun h => h.2 == p
  distinct : (s.subscriptions.handles.map Prod.fst).Nodup
  numbered : ∀ h ∈ s.subscriptions.handles, h.1 ≤ s.subscriptions.lastHandle
  isOpen : s.phase = .connecting ∨ s.phase = .connected → s.wire.link.isOpen = true
  online : s.listens.online = true ↔ s.phase = .connected

/-- Two sessions that agree in all that the invariant reads. -/
structure Session.Same (s t : Session) : Prop where
  phase : t.phase = s.phase
  listens : t.listens = s.listens
  link : t.wire.link = s.wire.link
  requests : t.wire.requests = s.wire.requests
  handles : t.subscriptions.handles = s.subscriptions.handles
  lastHandle : t.subscriptions.lastHandle = s.subscriptions.lastHandle

/-- A wire is read through its link and its numbers only. -/
theorem Listens.Awaiting.wire {l : Listens} {w w' : Wire} (h : Awaiting Wire.Issued (l, w))
    (lastId : w.requests.lastId ≤ w'.requests.lastId) : Awaiting Wire.Issued (l, w') where
  nodup := h.nodup
  issued id p hp := Nat.le_trans (h.issued id p hp) lastId
  listed := h.listed
  pending := h.pending
  waiting := h.waiting
  item := h.item
  offline := h.offline

theorem Session.Fit.same {s t : Session} (h : s.Fit) (e : s.Same t) : t.Fit where
  covering := e.listens ▸ h.covering
  awaiting := by
    rw [e.listens]
    exact h.awaiting.wire (Nat.le_of_eq (by rw [e.requests]))
  apart := by
    rw [e.requests, e.listens]
    exact h.apart.mono (fun _ hr => hr) (fun _ ha => ha) (Nat.le_of_eq (by rw [e.requests]))
  counted p := by
    rw [e.listens, e.handles]
    exact h.counted p
  distinct := e.handles ▸ h.distinct
  numbered := by
    rw [e.handles, e.lastHandle]
    exact h.numbered
  isOpen := by
    rw [e.phase, e.link]
    exact h.isOpen
  online := by
    rw [e.listens, e.phase]
    exact h.online

namespace Network

theorem Tuned.wire {S : Path → Bool} {as : List (RequestId × Bool)} {l : Listens} {w w' : Wire}
    (h : Tuned S as (l, w)) (sent : w'.link.sent = w.link.sent)
    (lastId : w.requests.lastId ≤ w'.requests.lastId) : Tuned S as (l, w') := by
  have up : (l, w').2.link.sent = (l, w).2.link.sent := sent
  refine ⟨⟨?_, ?_, ?_, ?_, h.flight.nested⟩, h.request_pending, h.awaited_request, h.calm, ?_, ?_⟩
  · rw [up]
    exact h.flight.flying
  · intro id hid
    rw [up] at hid
    exact Nat.le_trans (h.flight.issued id hid) lastId
  · rw [up]
    exact h.flight.ordered
  · rw [up]
    exact h.flight.known
  · intro p
    rw [up]
    exact h.tune p
  · rw [up]
    exact h.free

/-- While not connected: the server listens to nothing, and only handshakes are on their way. -/
structure Down (x : Network) : Prop where
  listens : x.server.listens = OrderedMap.empty
  sent : x.session.wire.link.sent = []
  inbox : ∀ m ∈ x.inbox, ∃ t, m = .handshake t

/-- The session, the server and what is on its way go together. -/
structure Joint (x : Network) : Prop where
  fit : x.session.Fit
  sound : x.server.listens.Sound
  ordinary : ∀ m ∈ x.inbox, isOrdinary m = true
  down : x.session.phase ≠ .connected → Down x
  up : x.session.phase = .connected →
    Tuned x.server.isListening (answers x.inbox) (x.session.listens, x.session.wire)

theorem Joint.same {s t : Session} {server : Server} {inbox : List Message}
    (h : Joint ⟨s, server, inbox⟩) (e : s.Same t) : Joint ⟨t, server, inbox⟩ where
  fit := h.fit.same e
  sound := h.sound
  ordinary := h.ordinary
  down hp := by
    obtain ⟨hl, hs, hi⟩ := h.down (e.phase ▸ hp)
    exact ⟨hl, (congrArg Link.sent e.link).trans hs, hi⟩
  up hp := by
    have ht := h.up (e.phase ▸ hp)
    have hl : (Network.mk t server inbox).session.listens = s.listens := e.listens
    rw [hl]
    exact Tuned.wire ht (congrArg Link.sent e.link) (Nat.le_of_eq (by rw [e.requests]))

end Network

namespace Listens

open Network

section Online
variable {S : Path → Bool} {as : List (RequestId × Bool)} {acc mid : Sending Wire} {rest : Rest}

theorem Rest.tuned (h : Tuned S as mid) (sound : mid.1.items.Sound) (online : mid.1.online = true)
    (isOpen : mid.2.link.isOpen = true) (ready : rest.Ready mid.1)
    (old : rest = .resume → ∀ p, mid.1.status? p ≠ some .pending) :
    Tuned S as (rest.run Wire.sink mid) :=
  (moves_tuned (Rest.moves Wire.sink False rest sound ready fun hr _ => old hr) sound online isOpen
    h).1

theorem tuned_acquire (h : Tuned S as acc) (sound : acc.1.items.Sound) (online : acc.1.online = true)
    (isOpen : acc.2.link.isOpen = true) (p : Path) :
    Tuned S as ((Action.acquire p).run Wire.sink acc) := by
  obtain ⟨mid, rest, o, he⟩ := run_opens Wire.sink (.acquire p) acc
  obtain ⟨ht, hw⟩ := Network.Opening.tuned_acquire o sound h
  rw [he]
  exact Rest.tuned ht (o.sound sound) ((o.online nofun nofun).trans online) (hw ▸ isOpen)
    (o.ready sound) fun hr => absurd hr (o.rest_ne_resume nofun)

theorem tuned_release (h : Tuned S as acc) (sound : acc.1.items.Sound) (online : acc.1.online = true)
    (isOpen : acc.2.link.isOpen = true) (p : Path) :
    Tuned S as ((Action.release p).run Wire.sink acc) := by
  obtain ⟨mid, rest, o, he⟩ := run_opens Wire.sink (.release p) acc
  obtain ⟨ht, ho⟩ := Network.Opening.tuned_release o sound online isOpen h
  rw [he]
  exact Rest.tuned ht (o.sound sound) ((o.online nofun nofun).trans online) ho
    (o.ready sound) fun hr => absurd hr (o.rest_ne_resume nofun)

theorem tuned_answer {id : RequestId} {ok : Bool} (h : Tuned S ((id, ok) :: as) acc)
    (ha : Awaiting Wire.Issued acc) (sound : acc.1.items.Sound) (online : acc.1.online = true)
    (isOpen : acc.2.link.isOpen = true) :
    Tuned S as ((Action.answer id ok).run Wire.sink acc) := by
  obtain ⟨mid, rest, o, he⟩ := run_opens Wire.sink (.answer id ok) acc
  obtain ⟨ht, hw⟩ := Network.Opening.tuned_answer o ha h
  rw [he]
  exact Rest.tuned ht (o.sound sound) ((o.online nofun nofun).trans online) (hw ▸ isOpen)
    (o.ready sound) fun hr => absurd hr (o.rest_ne_resume nofun)

/-- A new connection, taken while nothing is listened to and nothing is on its way. -/
theorem tuned_resume (h : Tuned S as acc) (hc : Covering [] [] [] acc.1)
    (isOpen : acc.2.link.isOpen = true) (offline : acc.1.online = false) :
    Tuned S as (Action.resume.run Wire.sink acc) := by
  have ht : Tuned S as ({ acc.1 with online := true }, acc.2) := h.congr rfl fun _ => ⟨rfl, rfl⟩
  apply @Rest.tuned _ _ _ .resume ht hc.sound rfl isOpen rfl
  intro _ p hp
  cases hc.offline offline p _ hp

end Online

section Offline
variable {sink : Sink Wire} {acc acc' mid : Sending Wire} {rest : Rest}

theorem moves_offline {again : Prop} (m : ReflTransGen (Move sink again) acc acc')
    {orphans rivals unsent : List Path} (hc : Covering orphans rivals unsent acc.1)
    (offline : acc.1.online = false) :
    acc'.2 = acc.2 ∧ Covering orphans rivals unsent acc'.1 ∧ acc'.1.online = false := by
  induction m with
  | refl => exact ⟨rfl, hc, offline⟩
  | tail _ m ih =>
    obtain ⟨hw, hc', ho⟩ := ih
    refine ⟨Eq.trans ?_ hw, m.covering hc', ((m.sound hc'.sound).2).trans ho⟩
    cases m with
    | send _ _ _ online => exact absurd (ho.symm.trans online) (by decide)
    | need | yield => rfl
    | mask _ active => cases hc'.offline ho _ _ active

theorem Rest.covering_lists {l : Listens} (h : rest.Covering l) :
    ∃ orphans rivals unsent, Listens.Covering orphans rivals unsent l := by
  cases rest <;> exact ⟨_, _, _, h⟩

theorem Action.keeps_online {a : Action} (ha : (∃ p, a = .acquire p) ∨ ∃ p, a = .release p) :
    a ≠ .suspend ∧ a ≠ .resume := by
  rcases ha with ⟨p, rfl⟩ | ⟨p, rfl⟩ <;> exact ⟨nofun, nofun⟩

theorem offline_run {a : Action} (hc : Covering [] [] [] acc.1) (offline : acc.1.online = false)
    (ha : (∃ p, a = .acquire p) ∨ ∃ p, a = .release p) : (a.run sink acc).2 = acc.2 := by
  obtain ⟨mid, rest, o, he⟩ := run_opens sink a acc
  obtain ⟨_, _, _, hmid⟩ := Rest.covering_lists (o.covering hc)
  have ne := Action.keeps_online ha
  have moves := Rest.moves sink True rest (o.sound hc.sound) (o.ready hc.sound)
    fun _ hn => absurd trivial hn
  rw [he, (moves_offline moves hmid ((o.online ne.1 ne.2).trans offline)).1]
  rcases ha with ⟨p, rfl⟩ | ⟨p, rfl⟩
  · cases o <;> rfl
  · cases o with
    | @close l w _ i =>
      change l.online = false at offline
      rw [offline]
      rfl
    | _ => rfl

end Offline

end Listens

theorem Listens.Action.online {σ : Type} {acc : Sending σ} (sink : Sink σ) {a : Listens.Action}
    (sound : acc.1.items.Sound) (hs : a ≠ .suspend) (hr : a ≠ .resume) :
    (a.run sink acc).1.online = acc.1.online := by
  obtain ⟨mid, rest, o, he⟩ := run_opens sink a acc
  have moves := Rest.moves sink True rest (o.sound sound) (o.ready sound)
    fun _ hn => absurd trivial hn
  rw [he, ← o.online hs hr]
  exact (moves_sound moves (o.sound sound)).2

section Act
variable {s t : Session} {a : Listens.Action} {server : Server} {inbox : List Message}

theorem Session.Fit.act (h : s.Fit) (ne : a ≠ .suspend ∧ a ≠ .resume)
    (done : (t.listens, t.wire) = a.run Wire.sink (s.listens, s.wire)) (phase : t.phase = s.phase)
    (counted : ∀ p, t.listens.refs p = t.subscriptions.handles.countP fun h => h.2 == p)
    (distinct : (t.subscriptions.handles.map Prod.fst).Nodup)
    (numbered : ∀ h ∈ t.subscriptions.handles, h.1 ≤ t.subscriptions.lastHandle) : t.Fit := by
  have sound := h.covering.sound
  have hc := @Action.covering _ (s.listens, s.wire) Wire.sink a h.covering
  have ha := a.awaiting Wire.sink_fresh h.covering h.awaiting
  have hp := @Action.apart (s.listens, s.wire) _ a sound h.apart
  have ho := @Listens.Action.online _ (s.listens, s.wire) Wire.sink a sound ne.1 ne.2
  rw [← done] at hc ha hp ho
  have all : t.wire.requests.all = s.wire.requests.all := hp.2.all
  have isOpen : t.wire.link.isOpen = s.wire.link.isOpen := hp.2.isOpen
  have online : t.listens.online = s.listens.online := ho
  refine ⟨hc, ha, ?_, counted, distinct, numbered, ?_, ?_⟩
  · rw [all]
    exact hp.1
  · rw [phase, isOpen]
    exact h.isOpen
  · rw [online, phase]
    exact h.online

theorem Network.Joint.act (h : Network.Joint ⟨s, server, inbox⟩)
    (ha : (∃ p, a = .acquire p) ∨ ∃ p, a = .release p)
    (done : (t.listens, t.wire) = a.run Wire.sink (s.listens, s.wire)) (phase : t.phase = s.phase)
    (counted : ∀ p, t.listens.refs p = t.subscriptions.handles.countP fun h => h.2 == p)
    (distinct : (t.subscriptions.handles.map Prod.fst).Nodup)
    (numbered : ∀ h ∈ t.subscriptions.handles, h.1 ≤ t.subscriptions.lastHandle) :
    Network.Joint ⟨t, server, inbox⟩ where
  fit := h.fit.act (Action.keeps_online ha) done phase counted distinct numbered
  sound := h.sound
  ordinary := h.ordinary
  down hp := by
    have hp' : s.phase ≠ .connected := phase ▸ hp
    obtain ⟨hl, hs, hi⟩ := h.down hp'
    have offline : s.listens.online = false := by
      cases ho : s.listens.online with
      | false => rfl
      | true => exact absurd (h.fit.online.mp ho) hp'
    have hw : t.wire = s.wire := by
      have := @offline_run Wire.sink (s.listens, s.wire) a h.fit.covering offline ha
      rw [← done] at this
      exact this
    refine ⟨hl, ?_, hi⟩
    change t.wire.link.sent = []
    rw [hw]
    exact hs
  up hp := by
    have hp' : s.phase = .connected := phase ▸ hp
    have online : s.listens.online = true := h.fit.online.mpr hp'
    have isOpen := h.fit.isOpen (Or.inr hp')
    have ht := h.up hp'
    change Tuned server.isListening (answers inbox) (t.listens, t.wire)
    rw [done]
    rcases ha with ⟨p, rfl⟩ | ⟨p, rfl⟩
    · exact tuned_acquire ht h.fit.covering.sound online isOpen p
    · exact tuned_release ht h.fit.covering.sound online isOpen p

end Act

end LiveTree
