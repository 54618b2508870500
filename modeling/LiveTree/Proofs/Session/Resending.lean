import LiveTree.Proofs.Session.Flow

/-!
# Writes are sent again, in order

A run is recorded: the writes in the order in which they were submitted, and the frames that have
left on each connection. A new connection is sent exactly the writes without an end, and on every
connection the writes leave in the order in which they were submitted, none of them twice.
-/

namespace LiveTree.Session

open List

structure Log where
  /-- The writes, in the order in which they were submitted. -/
  submitted : List Request
  /-- The frames on each connection, the newest connection first. -/
  connections : List (List Request)

/-- The frames that leave in a call. -/
def frames (s : Session) (c : Call) : List Request :=
  (s.call c).link.sent.drop s.link.sent.length

/-- The connections at the time of a call, which may begin one: it does so when the link takes it. -/
def Log.standing (log : Log) (s : Session) (c : Call) : List (List Request) :=
  if s.phase ≠ .connecting ∧ (s.call c).phase = .connecting then [] :: log.connections
  else log.connections

/-- What is submitted and sent is added to what was, the frames to those on the newest connection. -/
def Log.after (log : Log) (s : Session) (c : Call) : Log where
  submitted := log.submitted ++ (s.submitted c).toList
  connections := ((log.standing s c).headD [] ++ s.frames c) :: (log.standing s c).tail

/-- A session after calls, with the record of what happened on the way. -/
inductive Run : Log → Session → Prop where
  | new (config : Config) (clock : Clock) (digits : PushKey.Source) :
    Run ⟨[], [[]]⟩ (new config clock digits)
  | call {log : Log} {s : Session} (h : Run log s) (c : Call) : Run (log.after s c) (s.call c)

/-- True until a request has ended. -/
def isPending (s : Session) (r : Request) : Bool := !s.completions.any (·.id == r.id)

theorem not_any_id_iff {completed : List Completion} {r : Request} :
    (!completed.any (·.id == r.id)) = true ↔ r.id ∉ completed.map (·.id) := by
  simp

/-- The writes on a connection ascend, and were submitted. -/
structure InOrder (submitted frames : List Request) : Prop where
  ascending : (writesOf frames).Pairwise fun a b => a.id < b.id
  known : ∀ r ∈ writesOf frames, r ∈ submitted

/-- What the record says about the requests that wait and the frames that have left. -/
structure Recorded (log : Log) (s : Session) : Prop where
  ready : Ready s
  booked : Booked s
  filed : Filed s
  only : OnlyWrites s
  waiting : writesOf (s.wire.requests.all.map (·.request)) ~ log.submitted.filter s.isPending
  ordered : log.submitted.Pairwise fun a b => a.id < b.id
  numbered : ∀ r ∈ log.submitted, r.id ≤ s.wire.requests.lastId
  connections : ∀ frames ∈ log.connections, InOrder log.submitted frames
  unsent : s.phase = .connecting → writesOf (log.connections.headD []) = []

variable {log : Log} {s t : Session} {c : Call}

section Waiting
variable {added : Option Waiting} {ended : List Waiting} {completed : List Completion}

/-- What waits after a turnover is what was submitted and has not ended. -/
theorem Turnover.waiting (h : Turnover s t added ended completed) (b : Booked s) (b' : Booked t)
    {submitted : List Request}
    (waiting : writesOf (s.wire.requests.all.map (·.request)) ~ submitted.filter s.isPending) :
    writesOf (t.wire.requests.all.map (·.request))
      ~ (submitted ++ writesOf (added.toList.map (·.request))).filter t.isPending := by
  let stays : Request → Bool := fun r => !completed.any (·.id == r.id)
  let new := writesOf (added.toList.map (·.request))
  have pending : ∀ r, t.isPending r = (s.isPending r && stays r) := by
    intro r
    rw [isPending, h.completions, List.any_append, Bool.not_or]
    rfl
  have stay : ∀ r ∈ writesOf (t.wire.requests.all.map (·.request)), stays r = true := by
    intro r hr
    obtain ⟨w, hw, rfl⟩ := List.mem_map.mp (List.mem_filter.mp hr).1
    have once := (List.nodup_append.mp b'.once).2.2
    refine not_any_id_iff.mpr fun ended => ?_
    have old : w.id ∈ t.completions.map (·.id) := by
      rw [h.completions, List.map_append]
      exact List.mem_append_right _ ended
    exact once _ old _ (List.mem_map_of_mem hw) rfl
  have gone : (writesOf (ended.map (·.request))).filter stays = [] := by
    refine List.filter_eq_nil_iff.mpr fun r hr => ?_
    obtain ⟨w, hw, rfl⟩ := List.mem_map.mp (List.mem_filter.mp hr).1
    have mem : w.id ∈ completed.map (·.id) :=
      h.completed.mem_iff.mpr (List.mem_map_of_mem hw)
    exact fun stays => not_any_id_iff.mp stays mem
  have fresh : ∀ r ∈ new, t.isPending r = stays r := by
    intro r hr
    obtain ⟨w, hw, rfl⟩ := List.mem_map.mp (List.mem_filter.mp hr).1
    have above := (h.fresh w (Option.mem_toList.mp hw)).1
    have open_ : s.isPending w.request = true := not_any_id_iff.mpr fun old =>
      Nat.not_le_of_lt above (b.numbered _ (List.mem_append_left _ old))
    rw [pending, open_, Bool.true_and]
  calc writesOf (t.wire.requests.all.map (·.request))
    _ = (writesOf ((t.wire.requests.all ++ ended).map (·.request))).filter stays := by
      rw [List.map_append, writesOf_append, List.filter_append, gone, List.append_nil,
        List.filter_eq_self.mpr stay]
    _ ~ (writesOf ((added.toList ++ s.wire.requests.all).map (·.request))).filter stays :=
      ((h.tables.map _).filter _).filter _
    _ = new.filter stays ++ (writesOf (s.wire.requests.all.map (·.request))).filter stays := by
      rw [List.map_append, writesOf_append, List.filter_append]
    _ ~ new.filter stays ++ (submitted.filter s.isPending).filter stays :=
      (waiting.filter _).append_left _
    _ ~ (submitted.filter s.isPending).filter stays ++ new.filter stays := List.perm_append_comm
    _ = submitted.filter t.isPending ++ new.filter t.isPending := by
      rw [List.filter_filter, List.filter_congr fresh]
      refine congrArg (· ++ _) (List.filter_congr fun r _ => ?_)
      rw [pending, Bool.and_comm]
    _ = (submitted ++ new).filter t.isPending := (List.filter_append _ _).symm

end Waiting

/-- While a handshake is waited for, the writes that are owed are those without an end. -/
theorem Recorded.owed (h : Recorded log s) (up : s.phase = .connecting) :
    s.owed = log.submitted.filter s.isPending := by
  have all : s.wire.requests.all = s.wire.requests.queued := by
    rw [Requests.all, h.filed.idle (Or.inr up), List.nil_append]
  have same := h.waiting
  rw [all, ← h.only.owed] at same
  have ascending : s.owed.Pairwise fun a b => a.id < b.id :=
    List.pairwise_map.mpr (h.filed.ordered.filter _)
  refine List.Perm.eq_of_pairwise (fun a b _ _ hab hba => ?_) ascending (h.ordered.filter _) same
  exact absurd hba (Nat.lt_asymm hab)

theorem Recorded.frames (h : Recorded log s) (c : Call) :
    (c ≠ .drain → (s.call c).link.sent = s.link.sent ++ s.frames c)
      ∧ writesOf (s.frames c) = s.leaving c ∧ Filed (s.call c) := by
  by_cases drain : c = .drain
  · subst drain
    refine ⟨fun other => absurd rfl other, ?_, ?_⟩
    · have none : s.frames .drain = [] := List.drop_nil
      rw [none, leaving]
      exact (ite_self _).symm
    · exact h.filed.same rfl (fun _ hr => hr) rfl
  · obtain ⟨⟨frames, sent, writes⟩, filed⟩ := flow_call h.ready h.booked h.filed h.only drain
    have same : s.frames c = frames := by
      rw [Session.frames, link, link, sent, List.drop_left]
    rw [same]
    exact ⟨fun _ => sent, writes, filed⟩

theorem leaving_cases (s : Session) (c : Call) : s.leaving c = []
    ∨ (s.phase = .connecting ∧ (s.call c).phase = .connected ∧ s.leaving c = s.owed)
    ∨ (s.phase = .connected ∧ s.leaving c = (s.submitted c).toList) := by
  unfold leaving
  split
  · rename_i time message
    split
    · rename_i up
      refine Or.inr (Or.inl ⟨up, ?_, rfl⟩)
      rw [call_of_message message]
      exact phase_handshake up time
    · exact Or.inl rfl
  · split
    · rename_i up
      exact Or.inr (Or.inr ⟨up, rfl⟩)
    · exact Or.inl rfl

theorem inOrder_nil (submitted : List Request) : InOrder submitted [] := ⟨.nil, nofun⟩

theorem InOrder.mono {submitted more frames : List Request} (h : InOrder submitted frames) :
    InOrder (submitted ++ more) frames :=
  ⟨h.ascending, fun r hr => List.mem_append_left _ (h.known r hr)⟩

theorem InOrder.append {submitted frames more : List Request} (h : InOrder submitted frames)
    (h' : InOrder submitted more)
    (before : ∀ a ∈ writesOf frames, ∀ b ∈ writesOf more, a.id < b.id) :
    InOrder submitted (frames ++ more) where
  ascending := by
    rw [writesOf_append]
    exact List.pairwise_append.mpr ⟨h.ascending, h'.ascending, before⟩
  known r hr := by
    rw [writesOf_append] at hr
    exact (List.mem_append.mp hr).elim (h.known r) (h'.known r)

/-- The connections that stand in a call are in order, and what leaves comes after what has left. -/
theorem Recorded.standing (h : Recorded log s) (c : Call)
    (fresh : ∀ r ∈ (s.submitted c).toList, s.wire.requests.lastId < r.id) :
    (∀ frames ∈ log.standing s c, InOrder log.submitted frames)
    ∧ ∀ a ∈ writesOf ((log.standing s c).headD []), ∀ b ∈ s.leaving c, a.id < b.id := by
  unfold Log.standing
  split
  · exact ⟨List.forall_mem_cons.mpr ⟨inOrder_nil _, h.connections⟩, nofun⟩
  · refine ⟨h.connections, fun a ha b hb => ?_⟩
    rcases s.leaving_cases c with none | ⟨up, _⟩ | ⟨_, new⟩
    · rw [none] at hb
      cases hb
    · rw [h.unsent up] at ha
      cases ha
    · rw [new] at hb
      have old : a ∈ log.submitted := by
        cases hc : log.connections with
        | nil =>
          rw [hc] at ha
          cases ha
        | cons newest older =>
          rw [hc] at ha
          exact (h.connections newest (hc ▸ List.mem_cons_self)).known a ha
      exact Nat.lt_of_le_of_lt (h.numbered a old) (fresh b hb)

theorem Recorded.inOrder_frames (h : Recorded log s) (c : Call) :
    InOrder (log.submitted ++ (s.submitted c).toList) (s.frames c) := by
  obtain ⟨_, writes, _⟩ := h.frames c
  suffices both : (s.leaving c).Pairwise (fun a b => a.id < b.id)
      ∧ ∀ r ∈ s.leaving c, r ∈ log.submitted ++ (s.submitted c).toList from
    ⟨writes.symm ▸ both.1, writes.symm ▸ both.2⟩
  rcases s.leaving_cases c with none | ⟨up, _, owed⟩ | ⟨_, new⟩
  · rw [none]
    exact ⟨.nil, nofun⟩
  · rw [owed, h.owed up]
    exact ⟨h.ordered.filter _, fun r hr => List.mem_append_left _ (List.mem_filter.mp hr).1⟩
  · rw [new]
    refine ⟨?_, fun r hr => List.mem_append_right _ hr⟩
    cases s.submitted c with
    | none => exact .nil
    | some r => exact List.pairwise_singleton _ r

theorem Recorded.unsent_after (h : Recorded log s) (c : Call)
    (up : (s.call c).phase = .connecting) :
    writesOf ((log.standing s c).headD [] ++ s.frames c) = [] := by
  have shift := s.shift_call c
  rw [up] at shift
  obtain ⟨_, writes, _⟩ := h.frames c
  have nothing : s.leaving c = [] := by
    rcases s.leaving_cases c with none | ⟨_, connected, _⟩ | ⟨connected, _⟩
    · exact none
    · rw [up] at connected
      cases connected
    · rw [connected] at shift
      cases shift
  have newest : writesOf ((log.standing s c).headD []) = [] := by
    unfold Log.standing
    split
    · rfl
    · rename_i stands
      exact h.unsent (Decidable.not_not.mp fun other => stands ⟨other, up⟩)
  rw [writesOf_append, newest, writes, nothing]
  rfl

theorem Submits.writes {added : Option Waiting} (h : Submits s c added) :
    writesOf (added.toList.map (·.request)) = (s.submitted c).toList := by
  rw [h.write]
  cases added with
  | none => rfl
  | some r =>
    rw [Option.map_some, Option.filter_some]
    change List.filter _ [r.request] = _
    rw [List.filter_cons]
    split <;> rfl

theorem Recorded.call (h : Recorded log s) (c : Call) :
    Recorded (log.after s c) (s.call c) := by
  obtain ⟨added, ended, completed, turnover, _, submits, ready⟩ := turnover_call h.ready h.booked c
  have booked := turnover.booked h.booked
  have fresh : ∀ r ∈ (s.submitted c).toList, s.wire.requests.lastId < r.id
      ∧ r.id ≤ (s.call c).wire.requests.lastId := by
    intro r hr
    rw [← submits.writes] at hr
    obtain ⟨w, hw, rfl⟩ := List.mem_map.mp (List.mem_filter.mp hr).1
    exact turnover.fresh w (Option.mem_toList.mp hw)
  obtain ⟨standing, before⟩ := h.standing c fun r hr => (fresh r hr).1
  obtain ⟨_, writes, filed⟩ := h.frames c
  refine ⟨ready, booked, filed, fun r hr => ?_, ?_, ?_, fun r hr => ?_, ?_, h.unsent_after c⟩
  · have mem := turnover.tables.mem_iff.mp (List.mem_append_left _ hr)
    rcases List.mem_append.mp mem with new | old
    · exact fun other =>
        beq_iff_eq.mpr (submits.presents r (Option.mem_toList.mp new) other).action
    · exact h.only r old
  · have waiting := turnover.waiting h.booked booked h.waiting
    rw [submits.writes] at waiting
    exact waiting
  · refine List.pairwise_append.mpr ⟨h.ordered, ?_, fun a ha b hb => ?_⟩
    · cases s.submitted c with
      | none => exact .nil
      | some r => exact List.pairwise_singleton _ r
    · exact Nat.lt_of_le_of_lt (h.numbered a ha) (fresh b hb).1
  · rcases List.mem_append.mp hr with old | new
    · exact Nat.le_trans (h.numbered r old) turnover.lastId
    · exact (fresh r new).2
  · have newest : InOrder log.submitted ((log.standing s c).headD []) := by
      cases hs : log.standing s c with
      | nil => exact inOrder_nil _
      | cons newest older => exact standing newest (hs ▸ List.mem_cons_self)
    refine List.forall_mem_cons.mpr ⟨?_, fun frames hf => ?_⟩
    · exact newest.mono.append (h.inOrder_frames c) fun a ha b hb => before a ha b (writes ▸ hb)
    · exact (standing frames (List.mem_of_mem_tail hf)).mono

theorem Run.recorded (h : Run log s) : Recorded log s := by
  induction h with
  | new config clock digits =>
    refine ⟨ready_new config clock digits, booked_new config clock digits,
      ⟨.nil, fun _ => rfl⟩, nofun, .refl _, .nil, nofun, ?_, fun _ => rfl⟩
    exact List.forall_mem_singleton.mpr (inOrder_nil _)
  | call h c ih => exact ih.call c

theorem Run.calls (h : Run log s) (calls : List Call) :
    ∃ log, Run log (calls.foldl Session.call s) := by
  induction calls generalizing log s with
  | nil => exact ⟨log, h⟩
  | cons c calls ih => exact ih (h.call c)

/-- A write was sent and its connection lost; then a watch, a merge and a credential came. -/
def interrupted : Session :=
  [Call.connect, .receive (.handshake 0), .write Path.root .null true,
    .receive (.closed true none), .watch Path.root .value, .merge Path.root .null false,
    .authenticate "secret" false, .drain, .connect].foldl call blank

end LiveTree.Session
