import LiveTree.Proofs.Network.Calls

/-!
# The life of a connection

A connection that is lost takes with it all that is on its way, and all that the server listens to.
A new one starts with nothing and sends again what is owed. In both directions the joint invariant
is kept; so it is when the session is torn down.
-/

namespace LiveTree

open Listens Relation

theorem Connection.phase_beginConnect {c c' : Connection} (h : c.beginConnect? = some c') :
    c.phase = .disconnected ∧ c'.phase = .connecting := by
  unfold beginConnect? at h
  split at h
  · cases h
    exact ⟨‹_›, rfl⟩
  · cases h

theorem Connection.phase_beginClose (c : Connection) :
    c.beginClose.phase = if c.phase.isActive then .disconnecting else c.phase := rfl

theorem Link.sent_close (l : Link) : l.close.1.sent = l.sent := by
  unfold close
  split <;> rfl

theorem Connection.closed_phase {c : Connection} (h : c.phase ≠ .disconnected) (now : Nanos)
    (recoverable : Bool) (retryAfter : Option Nanos) :
    (c.closed now recoverable retryAfter).1.phase = .disconnected := by
  unfold closed
  simp only [if_neg h]
  split
  · rfl
  · split
    · rfl
    · split <;> rfl

section Lose
variable {s t : Session}

theorem Session.Fit.suspended (h : s.Fit) (phase : t.phase = .disconnected)
    (listens : t.listens = s.listens.suspend)
    (requests : t.wire.requests = s.wire.requests.requeue)
    (subscriptions : t.subscriptions = s.subscriptions) : t.Fit where
  covering := by
    rw [listens]
    exact @Action.covering _ (s.listens, s.wire) Wire.sink .suspend h.covering
  awaiting := by
    have ha := Action.awaiting Wire.sink_fresh .suspend h.covering h.awaiting
    rw [listens]
    exact Awaiting.wire ha (Nat.le_of_eq (by rw [requests]; rfl))
  apart := by
    rw [requests, listens]
    refine h.apart.mono (?_) nofun (Nat.le_of_eq (by rw [requests]; rfl))
    intro r hr
    rw [Requests.mem_all, Requests.requeue] at hr
    rcases hr with hr | hr
    · cases hr
    · exact Requests.mem_all.mpr ((Waiting.mem_foldr_place _ _).mp hr)
  counted p := by
    have refs := @Action.refs _ (s.listens, s.wire) Wire.sink .suspend h.covering.sound p
    rw [listens, subscriptions, ← h.counted p]
    exact refs
  distinct := subscriptions ▸ h.distinct
  numbered := subscriptions ▸ h.numbered
  isOpen hp := by
    rw [phase] at hp
    rcases hp with hp | hp <;> cases hp
  online := by
    rw [listens, phase]
    exact ⟨nofun, nofun⟩

theorem Session.phase_lose (s : Session) (recoverable : Bool) (retryAfter : Option Nanos) :
    (s.lose recoverable retryAfter).phase = .disconnected := by
  unfold lose
  split
  · assumption
  · exact Connection.closed_phase ‹_› _ _ _

theorem Session.Fit.lose (h : s.Fit) (recoverable : Bool) (retryAfter : Option Nanos) :
    (s.lose recoverable retryAfter).Fit := by
  have phase := s.phase_lose recoverable retryAfter
  unfold Session.lose at phase ⊢
  split
  · exact h
  · rename_i hp
    rw [if_neg hp] at phase
    exact h.suspended phase rfl rfl rfl

theorem Session.sent_lose (s : Session) (recoverable : Bool) (retryAfter : Option Nanos) :
    (s.lose recoverable retryAfter).wire.link = s.wire.link := by
  unfold lose
  split <;> rfl

end Lose

namespace Network

variable {s : Session} {server : Server} {inbox : List Message}

theorem Joint.unsent (h : s.Fit) (requests : List Request) : (unsent s requests).Fit :=
  h.rewire (Nat.le_refl _) (h.apart.mono (fun _ hr => hr) (fun _ ha => ha) (Nat.le_refl _)) rfl

theorem Joint.of_down {x : Network} (fit : x.session.Fit) (phase : x.session.phase ≠ .connected)
    (down : Down x) : Joint x where
  fit := fit
  sound := down.listens ▸ OrderedMap.sound_empty
  ordinary m hm := by
    obtain ⟨t, rfl⟩ := down.inbox m hm
    rfl
  down _ := down
  up hp := absurd hp phase

theorem Joint.drop {x : Network} (h : Joint x) (recoverable : Bool) :
    Joint (x.run (.drop recoverable)) := by
  have phase := (Network.unsent x.session []).phase_lose recoverable none
  refine .of_down ((Joint.unsent h.fit []).lose _ _) ?_ ⟨rfl, ?_, nofun⟩
  · change ((Network.unsent x.session []).lose recoverable none).phase ≠ _
    rw [phase]
    exact nofun
  · exact congrArg Link.sent ((Network.unsent x.session []).sent_lose recoverable none)

theorem openTo_sent (l : Link) (url : String) : (l.openTo url).1.sent = l.sent := by
  unfold Link.openTo
  split
  · rfl
  · split <;> rfl

theorem openTo_isOpen {l : Link} {url : String} (h : (l.openTo url).2 = none) :
    (l.openTo url).1.isOpen = true := by
  unfold Link.openTo at h ⊢
  split
  · rfl
  · rename_i fault hf
    simp [hf] at h

theorem Joint.connect (h : Joint ⟨s, server, inbox⟩) : Joint ⟨s.connect.1, server, inbox⟩ := by
  unfold Session.connect
  split
  · exact h
  · rename_i connection hc
    unfold Connection.beginConnect? at hc
    split at hc
    · rename_i hd
      cases hc
      obtain ⟨hl, hs, hi⟩ := h.down (by rw [Session.phase, hd]; exact nofun)
      have sent : (s.link.openTo s.config.url).1.sent = [] := (openTo_sent _ _).trans hs
      have offline : s.listens.online ≠ true := fun ho => by
        have := h.fit.online.mp ho
        rw [Session.phase, hd] at this
        cases this
      dsimp only
      split
      · rename_i hf
        refine .of_down ?_ nofun ⟨hl, sent, hi⟩
        exact {
          covering := h.fit.covering
          awaiting := h.fit.awaiting.wire (Nat.le_refl _)
          apart := h.fit.apart.mono (fun _ hr => hr) (fun _ ha => ha) (Nat.le_refl _)
          counted := h.fit.counted
          distinct := h.fit.distinct
          numbered := h.fit.numbered
          isOpen := fun _ => openTo_isOpen hf
          online := ⟨fun ho => absurd ho offline, nofun⟩ }
      · rename_i fault hf
        refine .of_down ?_ ?_ ⟨hl, ?_, hi⟩
        · refine h.fit.suspended (Session.phase_lose _ _ _) ?_ ?_ ?_ <;>
            simp [Session.lose, Session.phase]
        · intro hp
          exact nomatch (Session.phase_lose _ _ _).symm.trans hp
        · exact (congrArg Link.sent (Session.sent_lose _ _ _)).trans sent
    · cases hc

theorem close_inactive (offline : s.listens.online = false) :
    s.close.1.phase.isActive = false ∧ s.close.1.listens.online = false
      ∧ s.close.1.wire.link.sent = s.wire.link.sent := by
  have sent : s.link.close.1.sent = s.wire.link.sent := Link.sent_close _
  unfold Session.close
  split
  · rename_i active
    change s.connection.phase.isActive = true at active
    have phase : s.connection.beginClose.phase = .disconnecting := by
      rw [Connection.phase_beginClose, if_pos active]
    dsimp only
    split
    · exact ⟨by rw [Session.phase, phase]; rfl, offline, sent⟩
    · refine ⟨by rw [Session.phase_lose]; rfl, ?_, ?_⟩
      · unfold Session.lose
        split
        · exact offline
        · rfl
      · exact (congrArg Link.sent (Session.sent_lose _ _ _)).trans sent
  · rename_i active
    change ¬ s.connection.phase.isActive = true at active
    refine ⟨?_, offline, rfl⟩
    have phase : s.connection.beginClose.phase = s.phase := by
      rw [Connection.phase_beginClose, if_neg active, Session.phase]
    rw [Session.phase, phase]
    exact Bool.eq_false_iff.mpr active

theorem Joint.teardown (h : Joint ⟨s, server, inbox⟩) (hp : s.phase ≠ .connected) :
    Joint ⟨s.teardown, server, inbox⟩ := by
  have offline : s.listens.online = false := by
    cases ho : s.listens.online with
    | false => rfl
    | true => exact absurd (h.fit.online.mp ho) hp
  obtain ⟨inactive, offline', sent⟩ := close_inactive offline
  obtain ⟨hl, hs, hi⟩ := h.down hp
  have phase : s.teardown.phase.isActive = false := inactive
  have online : s.teardown.listens.online = false := offline'
  refine .of_down ?_ ?_ ⟨hl, sent.trans hs, hi⟩
  · exact {
      covering := covering_of_none OrderedMap.sound_empty fun _ => rfl
      awaiting := awaiting_of_none rfl (fun _ => rfl) nofun
      apart := nofun
      counted := fun _ => rfl
      distinct := List.nodup_nil
      numbered := nofun
      isOpen := fun hp => by
        rcases hp with hp | hp <;> rw [hp] at phase <;> cases phase
      online := ⟨fun ho => by simp [online] at ho, fun hp => by rw [hp] at phase; cases phase⟩ }
  · intro hp
    change s.teardown.phase = .connected at hp
    rw [hp] at phase
    cases phase

section Resume
variable {S : Path → Bool} {as : List (RequestId × Bool)} {l : Listens} {w : Wire}

theorem tuned_offline (hc : Covering [] [] [] l) (ha : Awaiting Wire.Issued (l, w))
    (offline : l.online = false) (sent : w.link.sent = []) :
    Tuned (fun _ => false) [] (l, w) := by
  have awaited : l.awaited = [] := ha.offline offline
  have request : ∀ p, l.request? p = none := fun p => by
    cases hr : l.request? p with
    | none => rfl
    | some id =>
      have hm : (id, p) ∈ l.awaited := ha.listed p id hr
      rw [awaited] at hm
      cases hm
  have none : ∀ {id p}, (id, p) ∈ l.awaited → False := fun hm => by
    rw [awaited] at hm
    cases hm
  have flying : (l, w).2.link.sent = [] := sent
  refine ⟨⟨fun _ _ hm => (none hm).elim, ?_, ?_, ?_, fun _ _ _ _ hm => (none hm).elim⟩, ?_,
    fun _ _ hm => (none hm).elim, ?_, ?_, ?_⟩
  · rw [flying]
    exact nofun
  · rw [flying]
    exact List.Pairwise.nil
  · rw [flying]
    exact nofun
  · intro p id hr
    change l.request? p = some id at hr
    rw [request p] at hr
    cases hr
  · intro p q _ hp
    cases hc.offline offline p _ hp
  · intro p
    refine .idle (request p) (?_) ?_
    · intro hp
      cases hc.offline offline p _ hp
    · rw [flying]
      rfl
  · rw [flying]
    intro pre r post he
    cases pre <;> cases he

theorem Standing.resume (h : Standing S as l w) (hc : Covering [] [] [] l)
    (offline : l.online = false) {later : List Waiting} (hr : Apart (l, w) later) :
    Standing S as (l.resume Wire.sink w).1 (l.resume Wire.sink w).2
      ∧ Apart (l.resume Wire.sink w) later := by
  have ha := Action.awaiting Wire.sink_fresh .resume hc h.awaiting
  have hk := @Action.apart (l, w) _ .resume hc.sound h.apart
  have all : (l.resume Wire.sink w).2.requests.all = w.requests.all := hk.2.all
  refine ⟨⟨tuned_resume h.tuned hc h.isOpen offline, hk.2.isOpen.trans h.isOpen, ha, ?_⟩, ?_⟩
  · rw [all]
    exact hk.1
  · exact (@Action.apart (l, w) _ .resume hc.sound hr).1

theorem online_resume (sound : l.items.Sound) : (l.resume Wire.sink w).1.online = true := by
  have moves := @Rest.moves _ Wire.sink True .resume ({ l with online := true }, w) sound rfl
    fun _ hn => absurd trivial hn
  exact (moves_sound moves sound).2

theorem standing_resume (hc : Covering [] [] [] s.listens)
    (ha : Awaiting Wire.Issued (s.listens, s.wire))
    (hr : Apart (s.listens, s.wire) s.wire.requests.all) (isOpen : s.wire.link.isOpen = true)
    (offline : s.listens.online = false) (sent : s.wire.link.sent = []) :
    Standing (fun _ => false) [] s.resume.listens s.resume.wire := by
  let queued := s.wire.requests.queued
  let auths := queued.filter (·.isAuth)
  let writes := queued.filter fun w => !w.isAuth
  let emptied : Wire := { s.wire with requests.queued := [] }
  have base : Standing (fun _ => false) [] s.listens emptied := by
    refine ⟨?_, isOpen, ha.wire (Nat.le_refl _), ?_⟩
    · exact tuned_offline hc (ha.wire (Nat.le_refl _)) offline sent
    · refine hr.mono (?_) (fun _ ha => ha) (Nat.le_refl _)
      intro r hr
      rcases Requests.mem_all.mp hr with hr | hr
      · exact Requests.mem_all.mpr (Or.inl hr)
      · cases hr
  have waiting : ∀ {rs : List Waiting}, (∀ r ∈ rs, r ∈ queued) → Apart (s.listens, emptied) rs :=
    fun sub => hr.mono (fun r hr => Requests.mem_all.mpr (Or.inr (sub r hr)))
      (fun _ ha => ha) (Nat.le_refl _)
  have named : ∀ w : Wire, Standing (fun _ => false) [] s.listens w →
      Apart (s.listens, w) writes → Standing (fun _ => false) []
        (s.listens.resume Wire.sink w).1
        (writes.foldl (Wire.dispatch true) (s.listens.resume Wire.sink w).2) := by
    intro w hw hr
    obtain ⟨hw', hr'⟩ := hw.resume hc offline hr
    have all : Apart (s.listens.resume Wire.sink w) (writes ++ []) := by
      rw [List.append_nil]
      exact hr'
    exact (hw'.dispatches all).1
  have both : Apart (s.listens, emptied) (auths ++ writes) := waiting fun r hr => by
    rcases List.mem_append.mp hr with hr | hr <;> exact (List.mem_filter.mp hr).1
  have dispatched := base.dispatches both
  unfold Session.resume
  dsimp only
  split
  · rename_i credential _ _
    have plain : Plain fun id => Request.auth id credential :=
      .of_action (fun _ => rfl) (fun _ => rfl) (by decide)
    apply named _ (base.submit plain false)
    refine Apart.mono (waiting fun r hr => (List.mem_filter.mp hr).1) (fun _ hr => hr)
      (fun _ ha => ha) ?_
    exact Nat.le_of_succ_le (Nat.le_of_eq (Wire.submit_lastId true emptied _ false).symm)
  · exact named _ dispatched.1 dispatched.2

end Resume

theorem joint_resume (hc : Covering [] [] [] s.listens)
    (ha : Awaiting Wire.Issued (s.listens, s.wire))
    (hr : Apart (s.listens, s.wire) s.wire.requests.all)
    (counted : ∀ p, s.listens.refs p = s.subscriptions.handles.countP fun h => h.2 == p)
    (distinct : (s.subscriptions.handles.map Prod.fst).Nodup)
    (numbered : ∀ h ∈ s.subscriptions.handles, h.1 ≤ s.subscriptions.lastHandle)
    (isOpen : s.wire.link.isOpen = true) (offline : s.listens.online = false)
    (phase : s.phase = .connected) (down : Down ⟨s, server, inbox⟩) :
    Joint ⟨s.resume, server, inbox⟩ := by
  obtain ⟨hl, hs, hi⟩ := down
  have standing := standing_resume hc ha hr isOpen offline hs
  obtain ⟨w, hw⟩ : ∃ w, s.resume.listens = (s.listens.resume Wire.sink w).1 := ⟨_, rfl⟩
  have phase' : s.resume.phase = .connected := phase
  have online : s.resume.listens.online = true := hw ▸ online_resume hc.sound
  have quiet : answers inbox = [] := List.filterMap_eq_nil_iff.mpr fun m hm => by
    obtain ⟨t, rfl⟩ := hi m hm
    rfl
  have silent : server.isListening = fun _ => false := by
    funext p
    rw [Server.isListening, hl]
    rfl
  refine ⟨⟨?_, standing.awaiting, standing.apart, ?_, distinct, numbered,
    fun _ => standing.isOpen, fun _ => phase', fun _ => online⟩, hl ▸ OrderedMap.sound_empty,
    ?_, absurd phase', ?_⟩
  · rw [hw]
    exact @Action.covering _ (s.listens, w) Wire.sink .resume hc
  · intro p
    rw [hw]
    exact (@Action.refs _ (s.listens, w) Wire.sink .resume hc.sound p).trans (counted p)
  · intro m hm
    obtain ⟨t, rfl⟩ := hi m hm
    rfl
  · intro _
    change Tuned server.isListening (answers inbox) (s.resume.listens, s.resume.wire)
    rw [quiet, silent]
    exact standing.tuned

theorem Joint.taken {m : Message} (h : Joint ⟨s, server, m :: inbox⟩)
    (other : ∀ id ok, answer? m = some (id, ok) → s.listens.awaits id = false) :
    Joint ⟨s, server, inbox⟩ where
  fit := h.fit
  sound := h.sound
  ordinary x hx := h.ordinary x (List.mem_cons_of_mem m hx)
  down hp := by
    obtain ⟨hl, hs, hi⟩ := h.down hp
    exact ⟨hl, hs, fun x hx => hi x (List.mem_cons_of_mem m hx)⟩
  up hp := by
    have ht := h.up hp
    cases ha : answer? m with
    | none =>
      rw [answers, List.filterMap_cons_none ha] at ht
      exact ht
    | some a =>
      rw [answers, List.filterMap_cons_some ha] at ht
      exact ht.take (other a.1 a.2 ha)

theorem Joint.handshake {time : Nat} (h : Joint ⟨s, server, .handshake time :: inbox⟩) :
    Joint ⟨s.handshake time, server, inbox⟩ := by
  have rest := h.taken nofun
  unfold Session.handshake
  split
  · exact rest
  · rename_i connection hc
    unfold Connection.handshake? at hc
    split at hc
    · rename_i hp
      cases hc
      have phase : s.phase = .connecting := hp
      have ne : s.phase ≠ .connected := by rw [phase]; exact nofun
      obtain ⟨hl, hs, hi⟩ := rest.down ne
      have offline : s.listens.online = false := by
        cases ho : s.listens.online with
        | false => rfl
        | true => exact absurd (h.fit.online.mp ho) ne
      have apart := h.fit.apart.mono (fun _ hr => hr) (fun _ ha => ha) (Nat.le_refl _)
      exact joint_resume h.fit.covering (h.fit.awaiting.wire (Nat.le_refl _)) apart h.fit.counted
        h.fit.distinct h.fit.numbered (h.fit.isOpen (Or.inl phase)) offline rfl ⟨hl, hs, hi⟩
    · cases hc

theorem Joint.settle (h : Joint ⟨s, server, inbox⟩) (id : RequestId) (status : Status)
    (data : Option Value) : Joint ⟨s.settle id status data, server, inbox⟩ := by
  have fewer : ∀ {requests : Requests}, requests.lastId = s.wire.requests.lastId →
      (∀ r ∈ requests.all, r ∈ s.wire.requests.all) →
      Joint ⟨{ s with wire.requests := requests }, server, inbox⟩ := by
    intro requests lastId sub
    have le := Nat.le_of_eq lastId.symm
    exact h.rewire le (h.fit.apart.mono sub (fun _ ha => ha) le) rfl (fun _ => rfl)
      fun hp => (h.up hp).wire rfl le
  unfold Session.settle
  split
  · exact fewer rfl fun _ hr => hr
  · split
    · exact h.same ⟨rfl, rfl, rfl, rfl, rfl, rfl⟩
    · have landed : ∀ r ∈ (s.wire.requests.land id).all, r ∈ s.wire.requests.all := by
        intro r hr
        rcases Requests.mem_all.mp hr with hr | hr
        · exact Requests.mem_all.mpr (Or.inl (List.mem_filter.mp hr).1)
        · exact Requests.mem_all.mpr (Or.inr hr)
      exact (@fewer (s.wire.requests.land id) rfl landed).same ⟨rfl, rfl, rfl, rfl, rfl, rfl⟩

theorem Joint.response {id : RequestId} {status : Status} {data : Option Value}
    (h : Joint ⟨s, server, .response id status data :: inbox⟩) :
    Joint ⟨s.response id status data, server, inbox⟩ := by
  unfold Session.response
  cases awaits : s.listens.awaits id with
  | false =>
    refine Joint.settle (h.taken ?_) id status data
    intro i ok he
    obtain ⟨rfl, _⟩ := Prod.mk.inj (Option.some.inj he)
    exact awaits
  | true =>
    -- only a connected session awaits answers
    have phase : s.phase = .connected := by
      by_contra hp
      obtain ⟨t, ht⟩ := (h.down hp).inbox _ List.mem_cons_self
      cases ht
    have online : s.listens.online = true := h.fit.online.mpr phase
    refine ⟨?_, h.sound, fun m hm => h.ordinary m (List.mem_cons_of_mem _ hm), absurd phase, ?_⟩
    · refine h.fit.act (a := .answer id status.isOk) ⟨nofun, nofun⟩ rfl rfl (?_)
        h.fit.distinct h.fit.numbered
      intro p
      exact (@Action.refs _ (s.listens, s.wire) Wire.sink (.answer id status.isOk)
        h.fit.covering.sound p).trans (h.fit.counted p)
    · exact fun _ => tuned_answer (h.up phase) h.fit.awaiting h.fit.covering.sound online
        (h.fit.isOpen (Or.inr phase))

end Network

end LiveTree
