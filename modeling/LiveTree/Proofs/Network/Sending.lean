import LiveTree.Proofs.Network.Joint

/-!
# Requests leave a session

A request that is submitted leaves at once while connected, and waits otherwise. A new connection
sends what waits: the credential, then the listens, then the writes. None of that disturbs what the
channels say about a path.
-/

namespace LiveTree

open Listens Relation

theorem Wire.sent_keepalive {w : Wire} (h : w.link.isOpen = true) :
    w.Sent (.keepalive (w.requests.lastId + 1)) w.keepalive := by
  refine ⟨?_, ?_, ?_⟩ <;>
    simp [keepalive, Requests.allocateUntracked, send?, Link.send?, h, countKeepalive,
      Request.keepalive, Request.bare]

theorem Wire.keepalive_all {w : Wire} (h : w.link.isOpen = true) :
    w.keepalive.requests.all = w.requests.all := by
  simp [keepalive, Requests.allocateUntracked, send?, Link.send?, h, countKeepalive, Requests.all]

namespace Wire

variable {w : Wire} {r : Waiting}

theorem dispatch_open (h : w.link.isOpen = true) (r : Waiting) :
    dispatch true w r = { ({ w with
      link := { w.link with sent := w.link.sent ++ [r.request] } } : Wire).countWrite r.request with
        requests := w.requests.fly r } := by
  simp [dispatch, send?, Link.send?, h, countWrite]

theorem dispatch_sent (h : w.link.isOpen = true) (numbered : r.id ≤ w.requests.lastId) :
    w.Sent r.request (dispatch true w r) := by
  rw [dispatch_open h]
  refine ⟨?_, Nat.le_refl _, numbered⟩
  unfold countWrite
  split <;> rfl

theorem dispatch_lastId (connected : Bool) (w : Wire) (r : Waiting) :
    (dispatch connected w r).requests.lastId = w.requests.lastId := by
  unfold dispatch
  split
  · rename_i hs
    cases connected with
    | false => cases hs
    | true =>
      obtain ⟨link, _, rfl⟩ := Option.map_eq_some_iff.mp hs
      rfl
  · rfl

theorem mem_dispatch (connected : Bool) (w : Wire) (r x : Waiting) :
    x ∈ (dispatch connected w r).requests.all ↔ x = r ∨ x ∈ w.requests.all := by
  have fly : ∀ q : Requests, x ∈ (q.fly r).all ↔ x = r ∨ x ∈ q.all := by
    intro q
    rw [Requests.mem_all, Requests.mem_all, Requests.fly, Waiting.mem_place, or_assoc]
  have queue : ∀ q : Requests, x ∈ (q.enqueue r).all ↔ x = r ∨ x ∈ q.all := by
    intro q
    rw [Requests.mem_all, Requests.mem_all, Requests.enqueue, Waiting.mem_place]
    exact or_left_comm
  unfold dispatch
  split
  · rename_i hs
    cases connected with
    | false => cases hs
    | true =>
      obtain ⟨link, _, rfl⟩ := Option.map_eq_some_iff.mp hs
      exact fly _
  · exact queue _

theorem submit_lastId (connected : Bool) (w : Wire) (make : RequestId → Request)
    (observed : Bool) : (w.submit connected make observed).2.requests.lastId
      = w.requests.lastId + 1 :=
  dispatch_lastId _ _ _

def numbered (w : Wire) : Wire :=
  { w with requests := { w.requests with lastId := w.requests.lastId + 1 } }

end Wire

/-- A request that is made under a number, and is not about listens. -/
structure Plain (make : RequestId → Request) : Prop where
  id : ∀ id, (make id).id = id
  action : ∀ id, (make id).action ≠ .listen ∧ (make id).action ≠ .unlisten

theorem Plain.of_action {make : RequestId → Request} {a : Action} (id : ∀ id, (make id).id = id)
    (action : ∀ id, (make id).action = a) (other : a ≠ .listen ∧ a ≠ .unlisten) : Plain make :=
  ⟨id, fun id => (action id).symm ▸ other⟩

namespace Network

/-- The listens and the wire of a connection that stands. -/
structure Standing (S : Path → Bool) (as : List (RequestId × Bool)) (l : Listens) (w : Wire) :
    Prop where
  tuned : Tuned S as (l, w)
  isOpen : w.link.isOpen = true
  awaiting : Awaiting Wire.Issued (l, w)
  apart : Apart (l, w) w.requests.all

section Standing
variable {S : Path → Bool} {as : List (RequestId × Bool)} {l : Listens} {w w' : Wire}
  {r : Waiting} {rs : List Waiting} {make : RequestId → Request}

theorem Apart.dispatch (connected : Bool) (h : Apart (l, w) w.requests.all)
    (hr : Apart (l, w) (r :: rs)) :
    Apart (l, Wire.dispatch connected w r) (Wire.dispatch connected w r).requests.all
      ∧ Apart (l, Wire.dispatch connected w r) rs := by
  have lastId := Nat.le_of_eq (Wire.dispatch_lastId connected w r).symm
  have apart : ∀ {rs' : List Waiting}, Apart (l, w) rs' →
      Apart (l, Wire.dispatch connected w r) rs' :=
    fun ha => ha.mono (fun _ hx => hx) (fun _ hx => hx) lastId
  constructor
  · intro x hx
    rcases (Wire.mem_dispatch connected w r x).mp hx with rfl | hx
    · exact apart hr x List.mem_cons_self
    · exact apart h x hx
  · exact apart fun x hx => hr x (List.mem_cons_of_mem r hx)

theorem Standing.dispatch (h : Standing S as l w) (hr : Apart (l, w) (r :: rs)) :
    Standing S as l (Wire.dispatch true w r) ∧ Apart (l, Wire.dispatch true w r) rs := by
  obtain ⟨numbered, other, action⟩ := hr r List.mem_cons_self
  have hw := Wire.dispatch_sent h.isOpen numbered
  have apart := Apart.dispatch true h.apart hr
  refine ⟨⟨h.tuned.post hw action other, ?_, h.awaiting.wire ?_, apart.1⟩, apart.2⟩
  · rw [hw.link]
    exact h.isOpen
  · exact Nat.le_of_eq (Wire.dispatch_lastId true w r).symm

theorem Standing.dispatches (h : Standing S as l w) {later : List Waiting}
    (hr : Apart (l, w) (rs ++ later)) :
    Standing S as l (rs.foldl (Wire.dispatch true) w)
      ∧ Apart (l, rs.foldl (Wire.dispatch true) w) later := by
  induction rs generalizing w with
  | nil => exact ⟨h, hr⟩
  | cons r rs ih =>
    obtain ⟨h', hr'⟩ := h.dispatch hr
    exact ih h' hr'

theorem apart_next (ha : Awaiting Wire.Issued (l, w)) (plain : Plain make) (observed : Bool) :
    Apart (l, w.numbered) [⟨make (w.requests.lastId + 1), observed⟩] := by
  intro r hr
  rw [List.mem_singleton.mp hr]
  refine ⟨Nat.le_of_eq (plain.id _), ?_, plain.action _⟩
  cases hw : l.awaits (Waiting.id ⟨make (w.requests.lastId + 1), observed⟩) with
  | false => rfl
  | true =>
    obtain ⟨p, hp⟩ := awaits_iff.mp hw
    rw [Waiting.id, plain.id] at hp
    exact absurd (ha.issued _ p hp) (Nat.not_succ_le_self _)

theorem Standing.allocate (h : Standing S as l w) : Standing S as l w.numbered where
  tuned := h.tuned.wire rfl (Nat.le_succ _)
  isOpen := h.isOpen
  awaiting := h.awaiting.wire (Nat.le_succ _)
  apart := h.apart.mono (fun _ hr => hr) (fun _ ha => ha) (Nat.le_succ _)

theorem Standing.submit (h : Standing S as l w) (plain : Plain make) (observed : Bool) :
    Standing S as l (w.submit true make observed).2 :=
  (h.allocate.dispatch (apart_next h.awaiting plain observed)).1

theorem Apart.submit (connected : Bool) (h : Apart (l, w) w.requests.all)
    (ha : Awaiting Wire.Issued (l, w)) (plain : Plain make) (observed : Bool) :
    Apart (l, (w.submit connected make observed).2)
      (w.submit connected make observed).2.requests.all := by
  have h' : Apart (l, w.numbered) w.numbered.requests.all :=
    h.mono (fun _ hr => hr) (fun _ ha => ha) (Nat.le_succ _)
  exact (Apart.dispatch connected h' (apart_next ha plain observed)).1

end Standing

end Network

end LiveTree
