import LiveTree.Proofs.Network.Lifecycle
import LiveTree.Proofs.Session.Turnover

/-!
# The requests of a session in each call

The loss of a connection moves what is in flight back into the queue, and a new connection sends
what is queued. A write adds a request if there is room. An answer ends the request in flight that
has its number; a credential ends those that wait to be sent; and dropping all state ends all.
-/

namespace LiveTree.Session

open Listens List

/-- How requests end when a message is taken. -/
def endedBy (s : Session) : Message → List Completion
  | .response id status data =>
    (s.wire.requests.inFlight.filter fun w => w.id == id).map
      fun w => w.finish (outcome status data)
  | _ => []

section Calls
variable {s t : Session}

theorem Ready.same (h : Ready s) (phase : t.phase = s.phase) (sound : t.listens.items.Sound)
    (isOpen : t.wire.link.isOpen = s.wire.link.isOpen)
    (queued : t.wire.requests.queued = s.wire.requests.queued) : Ready t where
  sound := sound
  isOpen hp := isOpen.trans (h.isOpen (phase ▸ hp))
  sent hp := queued.trans (h.sent (phase ▸ hp))

theorem Ready.of_inactive (sound : t.listens.items.Sound) (phase : t.phase.isActive = false) :
    Ready t where
  sound := sound
  isOpen hp := by
    rcases hp with hp | hp <;> rw [hp] at phase <;> cases phase
  sent hp := by
    rw [hp] at phase
    cases phase

theorem turnover_lose (moved : Turnover s t none [] []) (sound : t.listens.items.Sound)
    (recoverable : Bool) (retryAfter : Option Nanos) :
    Turnover s (t.lose recoverable retryAfter) none [] []
      ∧ Ready (t.lose recoverable retryAfter) := by
  have phase := t.phase_lose recoverable retryAfter
  unfold lose at phase ⊢
  split
  · rename_i down
    exact ⟨moved, .of_inactive sound (by rw [down]; rfl)⟩
  · rename_i up
    rw [if_neg up] at phase
    refine ⟨moved.after (.still (Waiting.foldr_place_perm _ _) rfl (Nat.le_refl _) nofun rfl), ?_⟩
    exact .of_inactive (sound.mapValues _) (by rw [phase]; rfl)

theorem turnover_connect (moved : Turnover s t none [] []) (h : Ready t) :
    Turnover s t.connect.1 none [] [] ∧ Ready t.connect.1 := by
  unfold connect
  split
  · exact ⟨moved, h⟩
  · rename_i connection hc
    have phase := (Connection.phase_beginConnect hc).2
    dsimp only
    split
    · rename_i opened
      refine ⟨moved.after (.same rfl rfl rfl rfl), h.sound, fun _ => ?_, fun hp => ?_⟩
      · exact Network.openTo_isOpen opened
      · cases phase.symm.trans hp
    · refine turnover_lose (moved.after ?_) ?_ _ _
      · exact .same rfl rfl rfl rfl
      · exact h.sound

theorem turnover_close (h : Ready s) :
    Turnover s s.close.1 none [] [] ∧ Ready s.close.1 ∧ s.close.1.phase.isActive = false := by
  unfold close
  dsimp only
  split
  · rename_i active
    change s.connection.phase.isActive = true at active
    have phase : s.connection.beginClose.phase = .disconnecting := by
      rw [Connection.phase_beginClose, if_pos active]
    split
    · have inactive : s.connection.beginClose.phase.isActive = false := by rw [phase]; rfl
      exact ⟨.same rfl rfl rfl rfl, .of_inactive h.sound inactive, inactive⟩
    · rw [← and_assoc]
      refine ⟨turnover_lose ?_ ?_ _ _, ?_⟩
      · exact .same rfl rfl rfl rfl
      · exact h.sound
      · rw [phase_lose]
        rfl
  · rename_i active
    change ¬ s.connection.phase.isActive = true at active
    have inactive : s.connection.beginClose.phase.isActive = false := by
      rw [Connection.phase_beginClose, if_neg active]
      exact Bool.eq_false_iff.mpr active
    exact ⟨.same rfl rfl rfl rfl, .of_inactive h.sound inactive, inactive⟩

theorem turnover_act (h : Ready s) (a : Listens.Action) (phase : t.phase = s.phase)
    (run : (t.listens, t.wire) = a.run Wire.sink (s.listens, s.wire))
    (completions : t.completions = s.completions) (config : t.config = s.config) :
    Turnover s t none [] [] ∧ Ready t := by
  obtain ⟨grown, sound⟩ := @Listens.Action.grown (s.listens, s.wire) a h.sound
  rw [← run] at grown sound
  exact ⟨.grown grown completions config, h.same phase sound grown.kept.isOpen grown.kept.queued⟩

theorem turnover_report (h : Ready s) (c : Cache) (p : Path) :
    Turnover s ({ s with cache := c }.report p) none [] []
      ∧ Ready ({ s with cache := c }.report p) :=
  ⟨.same rfl rfl rfl rfl, h.same rfl h.sound rfl rfl⟩

theorem turnover_tick (h : Ready s) : Turnover s s.tick none [] [] ∧ Ready s.tick := by
  have kept : Turnover s s.tickKeepalive none [] [] ∧ Ready s.tickKeepalive := by
    unfold tickKeepalive
    split
    · have grown := grown_keepalive s.listens s.wire
      exact ⟨.grown grown rfl rfl, h.same rfl h.sound grown.kept.isOpen grown.kept.queued⟩
    · exact ⟨.same rfl rfl rfl rfl, h⟩
  unfold tick tickReconnect
  split
  · have ready : Ready { s.tickKeepalive with
        connection := s.tickKeepalive.connection.takeReconnect
        wire.stats.reconnects := s.tickKeepalive.wire.stats.reconnects + 1 } :=
      kept.2.same rfl kept.2.sound rfl rfl
    exact turnover_connect (kept.1.after (.same rfl rfl rfl rfl)) ready
  · exact kept

/-- A request is submitted after some of the queue were given up. -/
theorem turnover_submit (h : Ready s) {kept ended : List Waiting}
    (split : (kept ++ ended).Perm s.wire.requests.queued) {make : RequestId → Request}
    (number : ∀ id, (make id).id = id) (observed : Bool)
    (room : (make (s.wire.requests.lastId + 1)).action.isWrite = true →
      s.wire.requests.outstanding < s.config.maxPending)
    (wire : t.wire = (Wire.submit s.isConnected { s.wire with requests.queued := kept } make
      observed).2)
    (listens : t.listens = s.listens) (phase : t.phase = s.phase) (config : t.config = s.config)
    (completions : t.completions = s.completions ++ ended.map Waiting.cancel) :
    Turnover s t (some ⟨make (s.wire.requests.lastId + 1), observed⟩) ended
      (ended.map Waiting.cancel) ∧ Ready t := by
  have took := Wire.took_submit s.isConnected { s.wire with requests.queued := kept } make observed
  rw [← wire] at took
  have lastId : t.wire.requests.lastId = s.wire.requests.lastId + 1 := took.lastId
  have id : Waiting.id ⟨make (s.wire.requests.lastId + 1), observed⟩
      = s.wire.requests.lastId + 1 := number _
  have rest : (s.wire.requests.inFlight ++ kept ++ ended).Perm s.wire.requests.all := by
    rw [List.append_assoc]
    exact split.append_left _
  refine ⟨⟨?_, completions, ?_, ?_, ?_, ?_, config, ?_⟩, listens ▸ h.sound, ?_, ?_⟩
  · exact (took.all.append_right ended).trans (rest.cons _)
  · rw [List.map_map]
    exact .refl _
  · exact Nat.le_of_lt (lastId ▸ Nat.lt_succ_self _)
  · intro r hr
    obtain rfl := Option.mem_some_iff.mp hr
    rw [id, lastId]
    exact ⟨Nat.lt_succ_self _, Nat.le_refl _⟩
  · intro i hi
    rw [LiveTree.foreign, listens, took.untracked] at hi
    exact Or.inl hi
  · intro r hr write
    obtain rfl := Option.mem_some_iff.mp hr
    exact room write
  · intro hp
    exact took.isOpen.trans (h.isOpen (phase ▸ hp))
  · intro hp
    rw [phase] at hp
    have connected : s.isConnected = true := beq_iff_eq.mpr hp
    -- while connected the queue was empty before, so there was nothing to keep
    have none : kept = [] := by
      rw [h.sent hp] at split
      exact (List.append_eq_nil_iff.mp split.eq_nil).1
    exact (took.queued connected (h.isOpen (Or.inr hp))).trans none

/-- The wire of a new connection once the credential was presented. -/
def credited (s : Session) : Wire :=
  let auths := s.wire.requests.queued.filter (·.isAuth)
  let wire := { s.wire with requests.queued := [] }
  match auths, s.credential with
  | [], some credential => (wire.submit true (fun id => Request.auth id credential) false).2
  | _, _ => auths.foldl (Wire.dispatch true) wire

theorem credited_cases (s : Session) :
    (∃ credential, s.wire.requests.queued.filter (·.isAuth) = [] ∧ s.credential = some credential
      ∧ s.credited = (Wire.submit true { s.wire with requests.queued := [] }
        (fun id => Request.auth id credential) false).2)
    ∨ s.credited = (s.wire.requests.queued.filter (·.isAuth)).foldl (Wire.dispatch true)
      { s.wire with requests.queued := [] } := by
  unfold credited
  dsimp only
  split
  · rename_i credential none known
    exact Or.inl ⟨credential, none, known, rfl⟩
  · exact Or.inr rfl

/-- A request that presents the credential which a session has. -/
structure Presents (s : Session) (r : Waiting) : Prop where
  action : r.request.action = .auth
  credential : r.request.credential = s.credential

/-- The queue is empty, and of what it held, the credential is in flight. -/
structure Credited (s : Session) (added : Option Waiting) : Prop where
  tables : s.credited.requests.all ~ added.toList
    ++ (s.wire.requests.queued.filter (·.isAuth) ++ s.wire.requests.inFlight)
  untracked : s.credited.requests.untracked = s.wire.requests.untracked
  lastId : s.wire.requests.lastId ≤ s.credited.requests.lastId
  fresh : ∀ r ∈ added, s.wire.requests.lastId < r.id ∧ r.id ≤ s.credited.requests.lastId
  presents : ∀ r ∈ added, s.Presents r
  isOpen : s.credited.link.isOpen = true
  queued : s.credited.requests.queued = []

theorem exists_credited (isOpen : s.wire.link.isOpen = true) : ∃ added, Credited s added := by
  let emptied : Wire := { s.wire with requests.queued := [] }
  have inFlight : emptied.requests.all = s.wire.requests.inFlight := List.append_nil _
  rcases s.credited_cases with ⟨credential, none, known, same⟩ | same
  · have took := emptied.took_submit true (fun id => Request.auth id credential) false
    rw [← same] at took
    have lastId : s.credited.requests.lastId = s.wire.requests.lastId + 1 := took.lastId
    let r : Waiting := ⟨Request.auth (s.wire.requests.lastId + 1) credential, false⟩
    refine ⟨some r, ?_, took.untracked, ?_, ?_, ?_, took.isOpen.trans isOpen,
      took.queued rfl isOpen⟩
    · rw [none, List.nil_append, ← inFlight]
      exact took.all
    · exact Nat.le_of_lt (lastId ▸ Nat.lt_succ_self _)
    · intro r hr
      obtain rfl := Option.mem_some_iff.mp hr
      rw [lastId]
      exact ⟨Nat.lt_succ_self _, Nat.le_refl _⟩
    · intro r hr
      obtain rfl := Option.mem_some_iff.mp hr
      exact ⟨rfl, known.symm⟩
  · have took := emptied.took_foldl true (s.wire.requests.queued.filter (·.isAuth))
    rw [← same] at took
    refine ⟨Option.none, ?_, took.untracked, Nat.le_of_eq took.lastId.symm, nofun, nofun,
      took.isOpen.trans isOpen, took.queued rfl isOpen⟩
    rw [← inFlight]
    exact took.all

/-- A connection that stands sends all that was queued. -/
theorem turnover_resume (sound : s.listens.items.Sound) (isOpen : s.wire.link.isOpen = true) :
    ∃ added, (∀ r ∈ added, s.resume.Presents r) ∧ Turnover s s.resume added [] []
      ∧ Ready s.resume := by
  obtain ⟨added, h⟩ := exists_credited isOpen
  obtain ⟨grown, sound⟩ := @Listens.Action.grown (s.listens, s.credited) .resume sound
  let auths := s.wire.requests.queued.filter (·.isAuth)
  let writes := s.wire.requests.queued.filter fun w => !w.isAuth
  let listened := (s.listens.resume Wire.sink s.credited).2
  have split : auths ++ writes ~ s.wire.requests.queued := List.filter_append_perm _ _
  have took : Wire.Took true listened s.resume.wire writes := Wire.took_foldl true listened writes
  have same : listened.requests.all = s.credited.requests.all := grown.kept.all
  have isOpen : listened.link.isOpen = true := grown.kept.isOpen.trans h.isOpen
  have lastId : s.credited.requests.lastId ≤ s.resume.wire.requests.lastId :=
    Nat.le_trans grown.kept.lastId (Nat.le_of_eq took.lastId.symm)
  have presents : ∀ r ∈ added, s.resume.Presents r := fun r hr =>
    ⟨(h.presents r hr).action, (h.presents r hr).credential⟩
  refine ⟨added, presents, ⟨?_, (List.append_nil _).symm, .refl _, Nat.le_trans h.lastId lastId, ?_,
    ?_, rfl, ?_⟩, sound, fun _ => took.isOpen.trans isOpen, fun _ => ?_⟩
  · rw [List.append_nil]
    calc s.resume.wire.requests.all
      _ ~ writes ++ listened.requests.all := took.all
      _ = writes ++ s.credited.requests.all := by rw [same]
      _ ~ writes ++ (added.toList ++ (auths ++ s.wire.requests.inFlight)) :=
        h.tables.append_left _
      _ ~ added.toList ++ (auths ++ s.wire.requests.inFlight) ++ writes := List.perm_append_comm
      _ = added.toList ++ (auths ++ s.wire.requests.inFlight ++ writes) := List.append_assoc _ _ _
      _ ~ added.toList ++ (s.wire.requests.inFlight ++ auths ++ writes) :=
        (List.perm_append_comm.append_right _).append_left _
      _ = added.toList ++ (s.wire.requests.inFlight ++ (auths ++ writes)) := by
        rw [List.append_assoc s.wire.requests.inFlight]
      _ ~ added.toList ++ s.wire.requests.all := (split.append_left _).append_left _
  · exact fun r hr => ⟨(h.fresh r hr).1, Nat.le_trans (h.fresh r hr).2 lastId⟩
  · intro id hid
    rw [LiveTree.foreign, took.untracked] at hid
    rcases grown.foreign id hid with hid | ⟨above, below⟩
    · rw [LiveTree.foreign, h.untracked] at hid
      exact Or.inl hid
    · refine Or.inr ⟨Nat.lt_of_le_of_lt h.lastId above, ?_, fun r hr => ?_⟩
      · exact Nat.le_trans below (Nat.le_of_eq took.lastId.symm)
      · exact Nat.ne_of_lt (Nat.lt_of_le_of_lt (h.fresh r hr).2 above)
  · intro r hr write
    rw [(h.presents r hr).action] at write
    cases write
  · exact (took.queued rfl isOpen).trans (grown.kept.queued.trans h.queued)

theorem turnover_handshake (h : Ready s) (time : Nat) :
    ∃ added, (∀ r ∈ added, (s.handshake time).Presents r)
      ∧ Turnover s (s.handshake time) added [] [] ∧ Ready (s.handshake time) := by
  unfold handshake
  split
  · exact ⟨none, nofun, .same rfl rfl rfl rfl, h⟩
  · rename_i connection hc
    have up : s.phase = .connecting := by
      unfold Connection.handshake? at hc
      split at hc
      · assumption
      · cases hc
    let greeted : Session := { s with
      connection := connection
      wire.stats.handshakes := s.wire.stats.handshakes + 1 }
    obtain ⟨added, presents, turnover, ready⟩ :=
      @turnover_resume greeted h.sound (h.isOpen (Or.inl up))
    have moved : Turnover s greeted none [] [] := .same rfl rfl rfl rfl
    exact ⟨added, presents, moved.after turnover, ready⟩

theorem filter_id_eq {ws : List Waiting} (nodup : (ws.map (·.id)).Nodup) {w : Waiting}
    (mem : w ∈ ws) : ws.filter (fun x => x.id == w.id) = [w] := by
  induction ws with
  | nil => cases mem
  | cons x ws ih =>
    obtain ⟨hx, nodup⟩ := List.nodup_cons.mp nodup
    rcases List.mem_cons.mp mem with rfl | mem
    · have rest : ws.filter (fun x => x.id == w.id) = [] :=
        List.filter_eq_nil_iff.mpr fun y hy he =>
          hx (List.mem_map.mpr ⟨y, hy, beq_iff_eq.mp he⟩)
      rw [List.filter_cons, if_pos (beq_self_eq_true _), rest]
    · have ne : ¬ (x.id == w.id) = true := fun he =>
        hx (List.mem_map.mpr ⟨w, mem, (beq_iff_eq.mp he).symm⟩)
      rw [List.filter_cons, if_neg ne, ih nodup mem]

theorem Booked.answered (b : Booked s) {id : RequestId} {w : Waiting}
    (found : (s.wire.requests.inFlight.find? fun w => w.id == id) = some w) :
    s.wire.requests.inFlight.filter (fun w => w.id == id) = [w] := by
  have nodup : (s.wire.requests.inFlight.map (·.id)).Nodup := by
    have all := (List.nodup_append.mp b.once).2.1
    rw [Requests.all, List.map_append] at all
    exact (List.nodup_append.mp all).1
  have number : w.id = id := beq_iff_eq.mp (List.find?_some found :)
  exact number ▸ filter_id_eq nodup (List.mem_of_find?_eq_some found)

theorem Booked.land_perm (b : Booked s) {id : RequestId} {w : Waiting}
    (found : (s.wire.requests.inFlight.find? fun w => w.id == id) = some w) :
    (s.wire.requests.land id).all ++ [w] ~ s.wire.requests.all := by
  have split := List.filter_append_perm (fun w => w.id == id) s.wire.requests.inFlight
  rw [b.answered found] at split
  calc s.wire.requests.inFlight.filter (fun w => w.id != id) ++ s.wire.requests.queued ++ [w]
    _ ~ [w] ++ (s.wire.requests.inFlight.filter (fun w => w.id != id)
        ++ s.wire.requests.queued) := List.perm_append_comm
    _ = [w] ++ s.wire.requests.inFlight.filter (fun w => w.id != id)
        ++ s.wire.requests.queued := (List.append_assoc _ _ _).symm
    _ ~ s.wire.requests.inFlight ++ s.wire.requests.queued := split.append_right _

theorem turnover_response (h : Ready s) (b : Booked s) (id : RequestId) (status : Status)
    (data : Option Value) : ∃ ended, Turnover s (s.response id status data) none ended
      (s.endedBy (.response id status data)) ∧ Ready (s.response id status data) := by
  -- an answer to a listen, or one that is dropped, has the number of no request that waits
  have stray : id ∈ foreign (s.listens, s.wire) → s.endedBy (.response id status data) = [] := by
    intro hid
    rw [endedBy, List.map_eq_nil_iff, List.filter_eq_nil_iff]
    intro r hr
    rw [beq_iff_eq]
    exact (b.foreign id hid).2 r (List.mem_append_left _ hr)
  unfold response
  split
  · rename_i awaited
    refine ⟨[], ?_⟩
    rw [stray (mem_foreign.mpr (Or.inl awaited))]
    exact turnover_act h (.answer id status.isOk) rfl rfl rfl rfl
  · unfold settle
    split
    · rename_i untracked
      have untracked : id ∈ s.wire.requests.untracked := List.contains_iff_mem.mp untracked
      refine ⟨[], ?_⟩
      rw [stray (mem_foreign.mpr (Or.inr untracked))]
      refine ⟨.still (.refl _) rfl (Nat.le_refl _) (fun i hi => Or.inl ?_) rfl,
        h.same rfl h.sound rfl rfl⟩
      rcases List.mem_append.mp hi with hi | hi
      · exact List.mem_append_left _ hi
      · exact List.mem_append_right _ (List.mem_filter.mp hi).1
    · split
      · rename_i absent
        refine ⟨[], ?_⟩
        have none : s.endedBy (.response id status data) = [] := by
          rw [endedBy, List.map_eq_nil_iff, List.filter_eq_nil_iff]
          exact List.find?_eq_none.mp absent
        rw [none]
        exact ⟨.same rfl rfl rfl rfl, h.same rfl h.sound rfl rfl⟩
      · rename_i w found
        refine ⟨[w], ?_⟩
        rw [endedBy, b.answered found]
        exact ⟨.ends (b.land_perm found) rfl (.refl _) (Nat.le_refl _) (fun i hi => Or.inl hi) rfl,
          h.same rfl h.sound rfl rfl⟩

theorem turnover_teardown (h : Ready s) : ∃ ended completed,
    Turnover s s.teardown none ended completed
      ∧ completed ~ s.wire.requests.all.map Waiting.cancel ∧ Ready s.teardown := by
  obtain ⟨closed, _, inactive⟩ := turnover_close h
  have waiting := closed.tables
  rw [List.append_nil] at waiting
  refine ⟨s.close.1.wire.requests.all, s.close.1.wire.requests.all.map Waiting.cancel,
    closed.after (.ends (.refl _) rfl ?_ (Nat.le_refl _) nofun rfl), waiting.map _,
    .of_inactive OrderedMap.sound_empty inactive⟩
  rw [List.map_map]
  exact .refl _

end Calls

end LiveTree.Session
