import LiveTree.Proofs.Network.Sending
import LiveTree.Proofs.Subscriptions.Affected

/-!
# Calls on a session

Each call on a session keeps the joint invariant, whether the session is connected or not. What the
channels bring is left to the next module.
-/

namespace LiveTree

open Listens Relation

namespace Subscriptions

theorem filter_handle {handles : List (Nat × Path)} (distinct : (handles.map Prod.fst).Nodup)
    {handle : Nat} {p : Path} (mem : (handle, p) ∈ handles) :
    (handles.filter fun x => x.1 != handle) = handles.erase (handle, p) := by
  rw [distinct.of_map.erase_eq_filter]
  apply List.filter_congr
  intro x hx
  apply Bool.eq_iff_iff.mpr
  rw [bne_iff_ne, bne_iff_ne, not_iff_not]
  constructor
  · intro he
    exact List.inj_on_of_nodup_map distinct hx mem he
  · intro he
    exact congrArg Prod.fst he

variable {s : Subscriptions} {handle : Nat} {p : Path}

theorem countP_subscribe (s : Subscriptions) (p : Path) (kind : EventKind) (c : Cache) (q : Path) :
    ((s.subscribe p kind c).handles.countP fun e => e.2 == q)
      = if q = p then (s.handles.countP fun e => e.2 == q) + 1
        else s.handles.countP fun e => e.2 == q := by
  change (s.handles ++ [(s.lastHandle + 1, p)]).countP _ = _
  rw [List.countP_append, List.countP_singleton]
  by_cases same : q = p
  · rw [if_pos same, if_pos (beq_iff_eq.mpr same.symm)]
  · rw [if_neg same, if_neg (by simpa using Ne.symm same), Nat.add_zero]

theorem countP_remove (distinct : (s.handles.map Prod.fst).Nodup) (mem : (handle, p) ∈ s.handles)
    (q : Path) : ((s.remove handle p).handles.countP fun e => e.2 == q)
      = if q = p then (s.handles.countP fun e => e.2 == q) - 1
        else s.handles.countP fun e => e.2 == q := by
  have handles : (s.remove handle p).handles = s.handles.erase (handle, p) :=
    filter_handle distinct mem
  have count := (List.perm_cons_erase mem).countP_eq fun e => e.2 == q
  rw [List.countP_cons] at count
  rw [handles, count]
  split
  · rename_i same
    rw [if_pos (beq_iff_eq.mpr same.symm), Nat.add_sub_cancel]
  · rename_i other
    rw [if_neg (by simpa using Ne.symm other), Nat.add_zero]

end Subscriptions

namespace Session

theorem same_report (s : Session) (c : Cache) (p : Path) :
    s.Same ({ s with cache := c }.report p) := by
  obtain ⟨handles, lastHandle⟩ := s.subscriptions.handles_cacheChanged c p
  exact ⟨rfl, rfl, rfl, rfl, handles, lastHandle⟩

theorem same_update (s : Session) (kind : UpdateKind) (p : Path) (v : Value) :
    s.Same (s.update kind p v) :=
  s.same_report _ p

theorem same_restore (s : Session) (snapshot : Bytes) : s.Same (s.restore snapshot).1 := by
  unfold restore
  split
  · exact ⟨rfl, rfl, rfl, rfl, rfl, rfl⟩
  · exact s.same_report _ _

end Session

section Wire
variable {s : Session} {server : Server} {inbox : List Message} {w : Wire}

theorem Session.Fit.rewire (h : s.Fit) (lastId : s.wire.requests.lastId ≤ w.requests.lastId)
    (apart : Apart (s.listens, w) w.requests.all) (isOpen : w.link.isOpen = s.wire.link.isOpen) :
    ({ s with wire := w } : Session).Fit where
  covering := h.covering
  awaiting := h.awaiting.wire lastId
  apart := apart
  counted := h.counted
  distinct := h.distinct
  numbered := h.numbered
  isOpen hp := isOpen.trans (h.isOpen hp)
  online := h.online

namespace Network

theorem Joint.rewire (h : Joint ⟨s, server, inbox⟩)
    (lastId : s.wire.requests.lastId ≤ w.requests.lastId)
    (apart : Apart (s.listens, w) w.requests.all) (isOpen : w.link.isOpen = s.wire.link.isOpen)
    (down : s.phase ≠ .connected → w.link.sent = s.wire.link.sent)
    (up : s.phase = .connected → Tuned server.isListening (answers inbox) (s.listens, w)) :
    Joint ⟨{ s with wire := w }, server, inbox⟩ where
  fit := h.fit.rewire lastId apart isOpen
  sound := h.sound
  ordinary := h.ordinary
  down hp := by
    obtain ⟨hl, hs, hi⟩ := h.down hp
    exact ⟨hl, (down hp).trans hs, hi⟩
  up := up

theorem Joint.standing (h : Joint ⟨s, server, inbox⟩) (hp : s.phase = .connected) :
    Standing server.isListening (answers inbox) s.listens s.wire where
  tuned := h.up hp
  isOpen := h.fit.isOpen (Or.inr hp)
  awaiting := h.fit.awaiting
  apart := h.fit.apart

theorem Joint.submit (h : Joint ⟨s, server, inbox⟩) {make : RequestId → Request}
    (plain : Plain make) (observed : Bool) : Joint ⟨(s.submit make observed).1, server, inbox⟩ := by
  unfold Session.submit
  split
  · exact h
  · have lastId := Wire.submit_lastId s.isConnected s.wire make observed
    have apart := Apart.submit s.isConnected h.fit.apart h.fit.awaiting plain observed
    have le : s.wire.requests.lastId
        ≤ (s.wire.submit s.isConnected make observed).2.requests.lastId :=
      lastId ▸ Nat.le_succ _
    cases hc : s.isConnected with
    | true =>
      have hp : s.phase = .connected := beq_iff_eq.mp hc
      have hs := (h.standing hp).submit plain observed
      rw [hc] at apart le
      refine h.rewire le apart ?_ (absurd hp) fun _ => hs.tuned
      exact hs.isOpen.trans (h.fit.isOpen (Or.inr hp)).symm
    | false =>
      have hp : s.phase ≠ .connected := fun hp => by
        rw [Session.isConnected, hp] at hc
        cases hc
      rw [hc] at apart le
      exact h.rewire le apart rfl (fun _ => rfl) fun h => absurd h hp

theorem Joint.write (h : Joint ⟨s, server, inbox⟩) (p : Path) (v : Value) (observed : Bool) :
    Joint ⟨(s.write p v observed).1, server, inbox⟩ := by
  have plain : Plain fun id => Request.put id p v :=
    .of_action (fun _ => rfl) (fun _ => rfl) (by decide)
  exact h.submit plain observed

theorem Joint.merge (h : Joint ⟨s, server, inbox⟩) (p : Path) (v : Value) (observed : Bool) :
    Joint ⟨(s.merge p v observed).1, server, inbox⟩ := by
  have plain : Plain fun id => Request.merge id p v :=
    .of_action (fun _ => rfl) (fun _ => rfl) (by decide)
  exact h.submit plain observed

theorem Joint.push (h : Joint ⟨s, server, inbox⟩) (p : Path) (v : Value) (observed : Bool) :
    Joint ⟨(s.push p v observed).1, server, inbox⟩ := by
  unfold Session.push
  have h' : Joint ⟨{ s with pushKeys := (s.pushKeys.generate s.serverNow).2 }, server, inbox⟩ :=
    h.same ⟨rfl, rfl, rfl, rfl, rfl, rfl⟩
  dsimp only
  split
  · exact h'
  · exact h'.write _ v observed

theorem Joint.keepalive (h : Joint ⟨s, server, inbox⟩) :
    Joint ⟨s.tickKeepalive, server, inbox⟩ := by
  unfold Session.tickKeepalive
  split
  · rename_i due
    have hp : s.phase = .connected := by
      rw [Connection.keepaliveDue, Bool.and_eq_true, beq_iff_eq] at due
      exact due.2
    have isOpen := h.fit.isOpen (Or.inr hp)
    have sent := Wire.sent_keepalive isOpen
    have other : s.listens.awaits (s.wire.requests.lastId + 1) = false := by
      cases ha : s.listens.awaits (s.wire.requests.lastId + 1) with
      | false => rfl
      | true =>
        obtain ⟨p, hp⟩ := awaits_iff.mp ha
        exact absurd (h.fit.awaiting.issued _ p hp) (Nat.not_succ_le_self _)
    have h' : Joint ⟨{ s with wire := s.wire.keepalive }, server, inbox⟩ := by
      refine h.rewire sent.lastId ?_ (by rw [sent.link]) (absurd hp) ?_
      · rw [Wire.keepalive_all isOpen]
        exact h.fit.apart.mono (fun _ hr => hr) (fun _ ha => ha) sent.lastId
      · intro hp
        exact (h.up hp).post sent (by simp [Request.keepalive, Request.bare]) other
    exact h'.same ⟨rfl, rfl, rfl, rfl, rfl, rfl⟩
  · exact h

end Network

end Wire

namespace Network

section References
variable {s : Session} {server : Server} {inbox : List Message}

theorem Joint.watch (h : Joint ⟨s, server, inbox⟩) (p : Path) (kind : EventKind) :
    Joint ⟨(s.watch p kind).1, server, inbox⟩ := by
  refine h.act (Or.inl ⟨p, rfl⟩) rfl rfl (?_) ?_ ?_
  · intro q
    have refs := @Listens.Action.refs _ (s.listens, s.wire) Wire.sink (.acquire p)
      h.fit.covering.sound q
    change ((Listens.Action.acquire p).run Wire.sink (s.listens, s.wire)).1.refs q = _
    exact (refs.trans (by rw [Listens.Action.counts, h.fit.counted q])).trans
      (s.subscriptions.countP_subscribe p kind s.cache q).symm
  · change ((s.subscriptions.handles ++ [(s.subscriptions.lastHandle + 1, p)]).map _).Nodup
    rw [List.map_append, List.map_singleton, List.nodup_append]
    refine ⟨h.fit.distinct, List.nodup_singleton _, ?_⟩
    intro a ha b hb hab
    obtain ⟨x, hx, rfl⟩ := List.mem_map.mp ha
    have := h.fit.numbered x hx
    rw [hab, List.mem_singleton.mp hb] at this
    exact Nat.not_succ_le_self _ this
  · intro x hx
    rcases List.mem_append.mp hx with hx | hx
    · exact Nat.le_succ_of_le (h.fit.numbered x hx)
    · rw [List.mem_singleton.mp hx]
      exact Nat.le_refl _

theorem Joint.unwatch (h : Joint ⟨s, server, inbox⟩) (handle : Nat) :
    Joint ⟨(s.unwatch handle).1, server, inbox⟩ := by
  unfold Session.unwatch
  split
  · exact h
  · rename_i p hp
    have mem : (handle, p) ∈ s.subscriptions.handles := by
      obtain ⟨_, _, he, _⟩ := List.lookup_eq_some_iff.mp hp
      rw [he]
      simp
    have handles : (s.subscriptions.remove handle p).handles
        = s.subscriptions.handles.erase (handle, p) := Subscriptions.filter_handle h.fit.distinct mem
    refine h.act (Or.inr ⟨p, rfl⟩) rfl rfl (?_) ?_ ?_
    · intro q
      have refs := @Listens.Action.refs _ (s.listens, s.wire) Wire.sink (.release p)
        h.fit.covering.sound q
      change ((Listens.Action.release p).run Wire.sink (s.listens, s.wire)).1.refs q = _
      exact (refs.trans (by rw [Listens.Action.counts, h.fit.counted q])).trans
        (Subscriptions.countP_remove h.fit.distinct mem q).symm
    · change ((s.subscriptions.remove handle p).handles.map _).Nodup
      rw [handles]
      exact h.fit.distinct.sublist (List.erase_sublist.map _)
    · intro x hx
      exact h.fit.numbered x (List.mem_filter.mp hx).1

end References

end Network

end LiveTree
