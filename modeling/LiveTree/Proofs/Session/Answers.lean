import LiveTree.Proofs.Session.Owners

/-!
# Which answers are recognised

While a connection lasts, every call keeps what is ready for the answers to the requests that have
left on it, but for the listens of a path whose last subscription is dropped. So if the server
answers each request once at most, the answers that are counted as unknown are those to such listens,
and no others.
-/

namespace LiveTree.Session

open Listens

/-- A connection that can bring answers. -/
def IsUp (s : Session) : Prop := ¬ (s.phase = .disconnected ∨ s.phase = .connecting)

instance (s : Session) : Decidable s.IsUp := inferInstanceAs (Decidable (¬ _))

/-- The request that a call brings the answer to. -/
def Call.answered? (c : Call) : Option RequestId :=
  match c.message? with
  | some (.response id _ _) => some id
  | _ => none

/-- The path whose last subscription a call drops. -/
def abandons? (s : Session) : Call → Option Path
  | .unwatch handle =>
    (s.subscriptions.path? handle).filter fun p =>
      (s.listens.get? p).any fun i => decide (i.refCount ≤ 1)
  | _ => none

/-- The listens among frames that are for a path. -/
def listensOf (p : Path) (frames : List Request) : List Request :=
  frames.filter fun r => r.action == .listen && r.path == some p

structure Tally where
  /-- The frames that have left on the connection and have no answer. -/
  unanswered : List Request
  /-- The listens whose paths were given up before they were answered. -/
  abandoned : List RequestId
  /-- How many answers to such listens have come. -/
  strays : Nat

/-- An answer is to a frame, other frames leave, and the loss of the connection takes all with it. -/
def Tally.after (tally : Tally) (s : Session) (c : Call) : Tally where
  unanswered :=
    if (s.call c).IsUp then
      tally.unanswered.filter (fun r => decide (c.answered? ≠ some r.id)) ++ s.frames c
    else []
  abandoned :=
    tally.abandoned
      ++ (s.abandons? c).toList.flatMap fun p => (listensOf p tally.unanswered).map (·.id)
  strays :=
    tally.strays + if ∃ id ∈ c.answered?, id ∈ tally.abandoned then 1 else 0

/-- A session after calls other than a teardown, where each answer was to a request that had left on
the connection and had no answer, with a tally of them. -/
inductive Answered : Tally → Session → Prop where
  | new (config : Config) (clock : Clock) (digits : PushKey.Source) :
    Answered ⟨[], [], 0⟩ (new config clock digits)
  | call {tally : Tally} {s : Session} (h : Answered tally s) (c : Call) (other : c ≠ .teardown)
    (asked : ∀ id ∈ c.answered?, ∃ r ∈ tally.unanswered, r.id = id) :
    Answered (tally.after s c) (s.call c)

/-- The requests whose answers a call takes or gives up. -/
def gone (s : Session) (c : Call) (r : Request) : Prop :=
  c.answered? = some r.id ∨ (r.action = .listen ∧ ∃ p ∈ s.abandons? c, r.path = some p)

/-- There is still somebody for every answer, while the connection lasts. -/
structure Upheld (gone : Request → Prop) (s t : Session) : Prop where
  kept : t.IsUp → ∀ r, Owned (s.listens, s.wire) r → gone r ∨ Owned (t.listens, t.wire) r
  left : t.IsUp → ∀ r ∈ t.link.sent.drop s.link.sent.length, Owned (t.listens, t.wire) r
  distinct : Distinct (s.listens, s.wire) → Distinct (t.listens, t.wire)

/-- And no answer was counted as unknown. -/
structure Passage (gone : Request → Prop) (s t : Session) : Prop extends Upheld gone s t where
  dropped : t.stats.droppedResponses = s.stats.droppedResponses

section Calls
variable {gone : Request → Prop} {s t : Session} {c : Call}

theorem Passage.of_passed (h : Passed gone (s.listens, s.wire) (t.listens, t.wire)) :
    Passage gone s t where
  kept _ := h.kept
  left _ := by
    obtain ⟨frames, sent, owned⟩ := h.left
    change ∀ r ∈ t.wire.link.sent.drop s.wire.link.sent.length, _
    rw [sent, List.drop_left]
    exact owned
  distinct := h.distinct
  dropped := h.dropped

theorem Passage.same (listens : t.listens = s.listens)
    (requests : t.wire.requests = s.wire.requests) (sent : t.wire.link.sent = s.wire.link.sent)
    (dropped : t.wire.stats.droppedResponses = s.wire.stats.droppedResponses) :
    Passage gone s t :=
  .of_passed (.same (congrArg _ listens) requests sent dropped)

/-- After what ends in the loss of the connection, nobody has to be left. -/
theorem Passage.of_down (down : ¬ t.IsUp)
    (distinct : Distinct (s.listens, s.wire) → Distinct (t.listens, t.wire))
    (dropped : t.stats.droppedResponses = s.stats.droppedResponses) : Passage gone s t :=
  ⟨⟨fun up => absurd up down, fun up => absurd up down, distinct⟩, dropped⟩

theorem Passage.lose (h : Passage gone s t) (recoverable : Bool) (retryAfter : Option Nanos) :
    Passage gone s (t.lose recoverable retryAfter) := by
  refine .of_down (fun up => up (Or.inl (t.phase_lose recoverable retryAfter))) (fun d => ?_) ?_
  · unfold Session.lose
    split
    · exact h.distinct d
    · exact ⟨List.nodup_nil, nofun⟩
  · unfold Session.lose
    split <;> exact h.dropped

theorem Passage.connect (h : Passage gone s t) : Passage gone s t.connect.1 := by
  unfold Session.connect
  split
  · exact h
  · rename_i connection hc
    have asked := (Connection.phase_beginConnect hc).2
    have tried : Passage gone s { t with
        connection := connection, wire.link := (t.link.openTo t.config.url).1 } :=
      .of_down (fun up => up (Or.inr asked)) (fun d => (h.distinct d).congr rfl rfl) h.dropped
    dsimp only
    split
    · exact tried
    · exact tried.lose _ _

theorem passage_close (s : Session) : Passage gone s s.close.1 := by
  unfold close
  dsimp only
  split
  · have closing : Passage gone s { s with
        connection := s.connection.beginClose, wire.link := s.link.close.1 } :=
      .same rfl rfl (Link.sent_close _) rfl
    split
    · exact closing
    · exact closing.lose _ _
  · exact .same rfl rfl rfl rfl

theorem passage_act (h : Ready s) (a : Listens.Action)
    (run : (t.listens, t.wire) = a.run Wire.sink (s.listens, s.wire)) :
    Passage (a.gives (s.listens, s.wire)) s t := by
  have passed := @Listens.Action.passed (s.listens, s.wire) a h.sound
  rw [← run] at passed
  exact .of_passed passed

theorem passage_submit (s : Session) {make : RequestId → Request}
    (write : ∀ id, (make id).action.isWrite = true) (observed : Bool) :
    Passage gone s (s.submit make observed).1 := by
  have other : ∀ id, (make id).action ≠ .listen := by
    intro id listen
    have write := write id
    rw [listen] at write
    cases write
  unfold submit
  split
  · exact .same rfl rfl rfl rfl
  · exact .of_passed (passed_submit s.isConnected s.listens s.wire make (other _) observed).mono

theorem passage_tick (s : Session) : Passage gone s s.tick := by
  have kept : Passage gone s s.tickKeepalive := by
    unfold tickKeepalive
    split
    · exact .of_passed (passed_keepalive s.listens s.wire).mono
    · exact .same rfl rfl rfl rfl
  unfold tick tickReconnect
  split
  · have started : Passage gone s { s.tickKeepalive with
        connection := s.tickKeepalive.connection.takeReconnect
        wire.stats.reconnects := s.tickKeepalive.wire.stats.reconnects + 1 } :=
      ⟨⟨kept.kept, kept.left, fun d => (kept.distinct d).congr rfl rfl⟩, kept.dropped⟩
    exact started.connect
  · exact kept

theorem OnlyWrites.no_listen (h : OnlyWrites s) {r : Waiting} (mem : r ∈ s.wire.requests.all) :
    r.request.action ≠ .listen := by
  intro listen
  have auth := h r mem (by rw [listen]; rfl)
  rw [Waiting.isAuth, listen] at auth
  cases auth

theorem passed_resume (sound : s.listens.items.Sound) (only : OnlyWrites s) :
    Passed nothing (s.listens, s.wire) (s.resume.listens, s.resume.wire) := by
  have queued : ∀ r ∈ s.wire.requests.queued, r.request.action ≠ .listen := fun r hr =>
    only.no_listen (List.mem_append_right _ hr)
  have emptied : Passed nothing (s.listens, s.wire)
      (s.listens, { s.wire with requests.queued := [] }) :=
    .retabled s.listens s.wire (List.Sublist.refl _) (Nat.le_refl _) fun _ _ owner =>
      Or.inr owner
  have credited : Passed nothing (s.listens, s.wire) (s.listens, s.credited) := by
    rcases s.credited_cases with ⟨credential, _, _, same⟩ | same
    · rw [same]
      have other : Action.auth ≠ Action.listen := by decide
      exact emptied.trans (passed_submit true s.listens _ (Request.auth · credential) other false)
    · rw [same]
      exact emptied.trans (passed_foldl s.listens _ fun r hr => queued r (List.mem_filter.mp hr).1)
  have listened : Passed nothing (s.listens, s.credited)
      (s.listens.resume Wire.sink s.credited) :=
    @Listens.Action.passed (s.listens, s.credited) .resume sound
  exact (credited.trans listened).trans
    (passed_foldl _ _ fun r hr => queued r (List.mem_filter.mp hr).1)

theorem passage_handshake (h : Ready s) (only : OnlyWrites s) (time : Nat) :
    Passage gone s (s.handshake time) := by
  unfold handshake
  split
  · exact .same rfl rfl rfl rfl
  · rename_i connection hc
    let greeted : Session := { s with
      connection := connection
      wire.stats.handshakes := s.wire.stats.handshakes + 1 }
    have counted : Passed nothing (s.listens, s.wire) (greeted.listens, greeted.wire) :=
      .same rfl rfl rfl rfl
    exact .of_passed (counted.trans (@passed_resume greeted h.sound only)).mono

theorem passage_response (h : Ready s) {id : RequestId} (known : id ∈ foreign (s.listens, s.wire)
    ∨ ∃ w ∈ s.wire.requests.inFlight, w.id = id) (status : Status) (data : Option Value) :
    Passage (fun r => r.id = id) s (s.response id status data) := by
  unfold response
  split
  · exact passage_act h (.answer id status.isOk) rfl
  · rename_i unawaited
    unfold settle
    split
    · refine .of_passed (.retabled s.listens s.wire List.filter_sublist (Nat.le_refl _) ?_)
      intro r _ owner
      by_cases same : r.id = id
      · exact Or.inl same
      · refine Or.inr (owner.imp_left fun mem => ?_)
        exact List.mem_filter.mpr ⟨mem, bne_iff_ne.mpr same⟩
    · rename_i tracked
      split
      · rename_i absent
        exfalso
        rcases known with hid | ⟨w, hw, rfl⟩
        · rcases mem_foreign.mp hid with awaited | untracked
          · exact unawaited awaited
          · exact tracked (List.contains_iff_mem.mpr untracked)
        · exact List.find?_eq_none.mp absent w hw (beq_self_eq_true _)
      · refine .of_passed (.retabled s.listens s.wire (List.Sublist.refl _) (Nat.le_refl _) ?_)
        intro r _ owner
        by_cases same : r.id = id
        · exact Or.inl same
        · refine Or.inr (owner.imp_right fun ⟨v, hv, number⟩ => ⟨v, ?_, number⟩)
          exact List.mem_filter.mpr ⟨hv, bne_iff_ne.mpr (number ▸ same)⟩

theorem response_of_unknown {id : RequestId} (unknown : id ∉ foreign (s.listens, s.wire))
    (landed : ∀ w ∈ s.wire.requests.inFlight, w.id ≠ id) (status : Status) (data : Option Value) :
    s.response id status data
      = { s with wire.stats.droppedResponses := s.wire.stats.droppedResponses + 1 } := by
  have unawaited : ¬ s.listens.awaits id = true := fun h => unknown (mem_foreign.mpr (Or.inl h))
  have tracked : ¬ s.wire.requests.isUntracked id = true := fun h =>
    unknown (mem_foreign.mpr (Or.inr (List.contains_iff_mem.mp h)))
  have absent : (s.wire.requests.inFlight.find? fun w => w.id == id) = none :=
    List.find?_eq_none.mpr fun w hw same => landed w hw (beq_iff_eq.mp same)
  rw [response, if_neg unawaited, settle, if_neg tracked, absent]

theorem Passage.mono {more : Request → Prop} (h : Passage gone s t) (sub : ∀ r, gone r → more r) :
    Passage more s t :=
  { h with kept := fun up r hr => (h.kept up r hr).imp_left (sub r) }

theorem passage_receive (h : Ready s) (only : OnlyWrites s) {m : Message}
    (message : c.message? = some m) (known : ∀ id ∈ c.answered?,
      id ∈ foreign (s.listens, s.wire) ∨ ∃ w ∈ s.wire.requests.inFlight, w.id = id) :
    Passage (s.gone c) s (s.receive m) := by
  cases m with
  | handshake time => exact passage_handshake h only time
  | update kind p v => exact .same rfl rfl rfl rfl
  | response id status data =>
    have answered : c.answered? = some id := by rw [Call.answered?, message]
    refine (passage_response h (known id answered) status data).mono fun r same => Or.inl ?_
    rw [answered, same]
  | closed recoverable retryAfter =>
    refine Passage.lose ?_ recoverable retryAfter
    exact .same rfl rfl rfl rfl

/-- Every call leaves somebody for each answer that it does not take or give up. -/
theorem passage_call (h : Ready s) (only : OnlyWrites s) (other : c ≠ .teardown)
    (known : ∀ id ∈ c.answered?, id ∈ foreign (s.listens, s.wire)
      ∨ ∃ w ∈ s.wire.requests.inFlight, w.id = id) :
    Passage (s.gone c) s (s.call c) := by
  have start : ∀ {gone}, Passage gone s s := .same rfl rfl rfl rfl
  cases c with
  | connect => exact start.connect
  | close => exact passage_close s
  | watch p kind => exact (passage_act h (.acquire p) rfl).mono fun _ gone => gone.elim
  | unwatch handle =>
    rw [call, unwatch]
    split
    · exact start
    · rename_i p path
      refine (passage_act h (.release p) rfl).mono fun r gone => ?_
      obtain ⟨listen, same, last⟩ := gone
      refine Or.inr ⟨listen, p, ?_, same⟩
      rw [abandons?, path]
      exact Option.mem_filter_iff.mpr ⟨rfl, last⟩
  | write p v observed => exact passage_submit s (fun _ => rfl) observed
  | merge p v observed => exact passage_submit s (fun _ => rfl) observed
  | push p v observed =>
    rw [call]
    cases hc : p.child (s.pushKeys.generate s.serverNow).1 with
    | error e =>
      rw [push_error hc]
      exact .same rfl rfl rfl rfl
    | ok child =>
      rw [push_ok hc]
      have passage : Passage (s.gone (.push p v observed)) s.keyed (s.keyed.write child v observed).1 :=
        passage_submit s.keyed (fun _ => rfl) observed
      exact ⟨⟨passage.kept, passage.left, passage.distinct⟩, passage.dropped⟩
  | authenticate credential observed =>
    have other : Action.auth ≠ Action.listen := by decide
    have cancelled : Passed nothing (s.listens, s.wire) (s.listens, { s.wire with
        requests.queued := s.wire.requests.queued.filter fun w => !w.isAuth }) :=
      .retabled s.listens s.wire (List.Sublist.refl _) (Nat.le_refl _) fun _ _ owner =>
        Or.inr owner
    have submitted := passed_submit s.isConnected s.listens { s.wire with
      requests.queued := s.wire.requests.queued.filter fun w => !w.isAuth }
      (Request.auth · credential) other observed
    exact .of_passed (cancelled.trans submitted).mono
  | restore snapshot =>
    rw [call, restore]
    split <;> exact .same rfl rfl rfl rfl
  | teardown => exact absurd rfl other
  | receive m => exact passage_receive h only rfl known
  | frame text =>
    rw [call, receiveFrame]
    cases read : Message.decode text with
    | ok m => exact passage_receive h only (by rw [Call.message?, read]; rfl) known
    | error e => exact .same rfl rfl rfl rfl
  | tick => exact passage_tick s
  | drain =>
    refine ⟨⟨start.kept, fun _ => ?_, fun d => d.congr rfl rfl⟩, rfl⟩
    have none : ([] : List Request).drop s.link.sent.length = [] := List.drop_nil
    intro r hr
    exact absurd (none ▸ hr) List.not_mem_nil
  | pass t | ask names | faults opening closing => exact .same rfl rfl rfl rfl

end Calls

/-- A number that was handed out and that nobody knows any more. -/
structure Unknown (s : Session) (id : RequestId) : Prop where
  handed : id ≤ s.wire.requests.lastId
  foreign : id ∉ foreign (s.listens, s.wire)
  tables : ∀ w ∈ s.wire.requests.all, w.id ≠ id

/-- What a tally says about those who take the answers. -/
structure Accounted (tally : Tally) (s : Session) : Prop where
  owned : ∀ r ∈ tally.unanswered, Owned (s.listens, s.wire) r ∨ r.id ∈ tally.abandoned
  unknown : ∀ id ∈ tally.abandoned, s.Unknown id
  distinct : Distinct (s.listens, s.wire)
  dropped : s.stats.droppedResponses = tally.strays

section Runs
variable {tally : Tally} {s t : Session} {c : Call} {added : Option Waiting} {ended : List Waiting}
  {completed : List Completion} {id : RequestId}

theorem Turnover.waits (h : Turnover s t added ended completed) (handed : id ≤ s.wire.requests.lastId)
    (tables : ∀ w ∈ s.wire.requests.all, w.id ≠ id) : ∀ w ∈ t.wire.requests.all, w.id ≠ id := by
  intro w hw
  rcases List.mem_append.mp (h.tables.mem_iff.mp (List.mem_append_left _ hw)) with new | old
  · exact Nat.ne_of_gt (Nat.lt_of_le_of_lt handed (h.fresh w (Option.mem_toList.mp new)).1)
  · exact tables w old

theorem Unknown.turnover (u : s.Unknown id) (h : Turnover s t added ended completed) :
    t.Unknown id where
  handed := Nat.le_trans u.handed h.lastId
  foreign hid := by
    rcases h.foreign id hid with old | ⟨above, _⟩
    · exact u.foreign old
    · exact Nat.not_le_of_lt above u.handed
  tables := h.waits u.handed u.tables

theorem exists_released {p : Path} (given : s.abandons? c = some p) :
    ∃ i, s.listens.get? p = some i ∧ i.refCount ≤ 1 ∧ ((s.call c).listens, (s.call c).wire)
      = (Listens.Action.release p).run Wire.sink (s.listens, s.wire) := by
  cases c with
  | unwatch handle =>
    obtain ⟨path, last⟩ := Option.filter_eq_some_iff.mp given
    cases item : s.listens.get? p with
    | none =>
      rw [item] at last
      cases last
    | some i =>
      rw [item] at last
      refine ⟨i, rfl, of_decide_eq_true last, ?_⟩
      rw [call, unwatch, path]
      rfl
  | _ => cases given

theorem Accounted.abandoned (h : Accounted tally s) (ready : Ready s) (b : Booked s)
    (turnover : Turnover s (s.call c) added ended completed)
    (mem : id ∈ (tally.after s c).abandoned) : (s.call c).Unknown id := by
  rcases List.mem_append.mp mem with old | new
  · exact (h.unknown id old).turnover turnover
  · obtain ⟨p, hp, new⟩ := List.mem_flatMap.mp new
    obtain ⟨r, hr, rfl⟩ := List.mem_map.mp new
    obtain ⟨hr, listen⟩ := List.mem_filter.mp hr
    simp only [Bool.and_eq_true, beq_iff_eq] at listen
    rcases h.owned r hr with (⟨q, same, awaited⟩ | ⟨other, _⟩) | old
    · have path : some q = some p := by
        rw [← listen.2, same]
        rfl
      obtain rfl := Option.some.inj path
      obtain ⟨i, item, last, run⟩ := exists_released (Option.mem_toList.mp hp)
      have known : r.id ∈ foreign (s.listens, s.wire) :=
        List.mem_append_left _ (List.mem_map_of_mem awaited)
      have handed := h.distinct.numbered _ known
      refine ⟨Nat.le_trans handed turnover.lastId, ?_, ?_⟩
      · rw [run]
        exact released ready.sound h.distinct item last awaited
      · exact turnover.waits handed (b.foreign _ known).2
    · exact absurd listen.1 other
    · exact (h.unknown _ old).turnover turnover

theorem Accounted.step (h : Accounted tally s) (ready : Ready s) (b : Booked s)
    (upheld : Upheld (s.gone c) s (s.call c))
    (dropped : (s.call c).stats.droppedResponses = s.stats.droppedResponses
      + if ∃ id ∈ c.answered?, id ∈ tally.abandoned then 1 else 0) :
    Accounted (tally.after s c) (s.call c) := by
  obtain ⟨added, ended, completed, turnover, _⟩ := turnover_call ready b c
  refine ⟨fun r hr => ?_, fun id => h.abandoned ready b turnover, upheld.distinct h.distinct,
    dropped.trans (congrArg (· + _) h.dropped)⟩
  rw [Tally.after] at hr
  split at hr
  · rename_i up
    rcases List.mem_append.mp hr with old | new
    · obtain ⟨hr, unanswered⟩ := List.mem_filter.mp old
      rcases h.owned r hr with owned | abandoned
      · rcases upheld.kept up r owned with (answered | ⟨listen, p, given, path⟩) | owned
        · exact absurd answered (of_decide_eq_true unanswered)
        · refine Or.inr (List.mem_append_right _ (List.mem_flatMap.mpr ⟨p, ?_, ?_⟩))
          · exact Option.mem_toList.mpr given
          · refine List.mem_map_of_mem (List.mem_filter.mpr ⟨hr, ?_⟩)
            simp [listen, path]
        · exact Or.inl owned
      · exact Or.inr (List.mem_append_left _ abandoned)
    · exact Or.inl (upheld.left up r new)
  · cases hr

theorem call_of_answered (answered : c.answered? = some id) :
    ∃ status data, s.call c = s.response id status data := by
  unfold Call.answered? at answered
  split at answered
  · rename_i status data message
    cases answered
    exact ⟨status, data, call_of_message message⟩
  · cases answered

theorem Accounted.call (h : Accounted tally s) (ready : Ready s) (b : Booked s)
    (only : OnlyWrites s) (other : c ≠ .teardown)
    (asked : ∀ id ∈ c.answered?, ∃ r ∈ tally.unanswered, r.id = id) :
    Accounted (tally.after s c) (s.call c) := by
  by_cases stray : ∃ id ∈ c.answered?, id ∈ tally.abandoned
  · obtain ⟨id, answered, abandoned⟩ := id stray
    have unknown := h.unknown id abandoned
    obtain ⟨status, data, same⟩ := @call_of_answered s c id answered
    rw [response_of_unknown unknown.foreign (fun w hw =>
      unknown.tables w (List.mem_append_left _ hw))] at same
    refine h.step ready b ?_ ?_
    · have still : Passage (s.gone c) s s := .same rfl rfl rfl rfl
      rw [same]
      exact ⟨still.kept, still.left, fun d => d.congr rfl rfl⟩
    · rw [if_pos stray, same]
      rfl
  · have passage : Passage (s.gone c) s (s.call c) := by
      refine passage_call ready only other fun id answered => ?_
      obtain ⟨r, hr, rfl⟩ := asked id answered
      rcases h.owned r hr with (⟨p, _, awaited⟩ | ⟨_, owner⟩) | abandoned
      · exact Or.inl (List.mem_append_left _ (List.mem_map_of_mem awaited))
      · exact owner.imp_left (List.mem_append_right _)
      · exact absurd ⟨_, answered, abandoned⟩ stray
    refine h.step ready b passage.toUpheld ?_
    rw [if_neg stray]
    exact passage.dropped

theorem Answered.run (h : Answered tally s) : ∃ log, Run log s := by
  induction h with
  | new config clock digits => exact ⟨_, .new config clock digits⟩
  | call _ c _ _ ih =>
    obtain ⟨log, run⟩ := ih
    exact ⟨_, run.call c⟩

theorem Answered.accounted (h : Answered tally s) : Accounted tally s := by
  induction h with
  | new config clock digits => exact ⟨nofun, nofun, ⟨List.nodup_nil, nofun⟩, rfl⟩
  | call h c other asked ih =>
    obtain ⟨log, run⟩ := h.run
    have recorded := run.recorded
    exact ih.call recorded.ready recorded.booked recorded.only other asked

/-- Only after a path was given up with an unanswered listen can a stray answer come. -/
theorem Answered.strays_of_none (h : Answered tally s) (none : tally.abandoned = []) :
    tally.strays = 0 := by
  induction h with
  | new config clock digits => rfl
  | @call tally s _ c _ _ ih =>
    have before := (List.append_eq_nil_iff.mp none).1
    have quiet : ¬ ∃ id ∈ c.answered?, id ∈ tally.abandoned := by
      rw [before]
      rintro ⟨id, _, hid⟩
      cases hid
    rw [Tally.after, if_neg quiet]
    exact ih before

/-- In every run without a teardown in which each answer is to a request that was sent on the
connection and had no answer, the answers that are counted as unknown are those to listens whose
path was given up before; so there are none as long as no path is given up with its listen
unanswered. -/
theorem only_abandoned_dropped (h : Answered tally s) :
    s.stats.droppedResponses = tally.strays
    ∧ (tally.abandoned = [] → s.stats.droppedResponses = 0) := by
  have dropped := h.accounted.dropped
  exact ⟨dropped, fun none => dropped.trans (h.strays_of_none none)⟩

end Runs

/-- A path is listened to, and is given up before the server has answered. -/
def regretted : Session :=
  [Call.connect, .receive (.handshake 0), .watch Path.root .value, .unwatch 1].foldl call blank

theorem Answered.quiet {tally : Tally} {s : Session} (h : Answered tally s) {c : Call}
    (other : c ≠ .teardown) (none : c.answered? = none) :
    Answered (tally.after s c) (s.call c) :=
  h.call c other fun id hid => absurd (none ▸ hid) (Option.not_mem_none id)

theorem answered_regretted : ∃ tally, Answered tally (regretted.call (.receive (.ok 1)))
    ∧ tally.strays = 1 := by
  have run := ((((Answered.new {} (.startingAt 0) ⟨fun _ => Fin.last 63, 0⟩).quiet
    (c := .connect) nofun rfl).quiet (c := .receive (.handshake 0)) nofun rfl).quiet
    (c := .watch Path.root .value) nofun rfl).quiet (c := .unwatch 1) nofun rfl
  refine ⟨_, run.call (.receive (.ok 1)) nofun fun id hid => ?_, ?_⟩
  · obtain rfl : 1 = id := Option.some.inj hid
    decide +kernel
  · decide +kernel

theorem regretted_dropped : ∃ tally, Answered tally (regretted.call (.receive (.ok 1)))
    ∧ tally.strays = 1
    ∧ (regretted.call (.receive (.ok 1))).stats.droppedResponses = tally.strays := by
  obtain ⟨tally, run, one⟩ := answered_regretted
  exact ⟨tally, run, one, (only_abandoned_dropped run).1⟩

/-- An answer to a request that the session has sent can be counted as unknown. -/
theorem sent_and_unknown : ¬ ∀ (tally : Tally) (s : Session), Answered tally s →
    s.stats.droppedResponses = 0 := by
  intro all
  obtain ⟨tally, run, _⟩ := answered_regretted
  have one : (regretted.call (.receive (.ok 1))).stats.droppedResponses = 1 := by decide +kernel
  exact absurd ((all tally _ run).symm.trans one) (by decide)

end LiveTree.Session
