import LiveTree.Proofs.Session.Requests

/-!
# Requests are conserved

A request that was submitted is in exactly one place: in flight, queued, or among those that have
ended. What a call ends is said by the call and the state before it.
-/

namespace LiveTree.Session

open List

/-- How requests end in a call: answered while in flight, or given up when all state is dropped, or
when they present a credential, are not sent and are replaced by another. -/
def ended (s : Session) : Call → List Completion
  | .receive m => s.endedBy m
  | .frame text =>
    match Message.decode text with
    | .ok m => s.endedBy m
    | .error _ => []
  | .teardown => s.wire.requests.all.map Waiting.cancel
  | .authenticate _ _ => (s.wire.requests.queued.filter (·.isAuth)).map Waiting.cancel
  | _ => []

/-- What a call adds is the request whose number came back: the write that was submitted, or else a
credential, which is then the one that the session has. -/
structure Submits (s : Session) (c : Call) (added : Option Waiting) : Prop where
  issued : ∀ id ∈ s.issued c, ∃ r ∈ added, r.id = id
  write : s.submitted c = (added.map (·.request)).filter (·.action.isWrite)
  presents : ∀ r ∈ added, r.request.action.isWrite = false → (s.call c).Presents r

section Calls
variable {s : Session} {c : Call}

theorem submits_write {added : Option Waiting} {answer : Option RequestId}
    {make : RequestId → Request} (number : ∀ id, (make id).id = id)
    (write : ∀ id, (make id).action.isWrite = true) (issued : s.issued c = answer)
    (submitted : s.submitted c = answer.map make)
    (same : added.map (·.request) = answer.map make) : Submits s c added := by
  cases added with
  | none =>
    cases answer with
    | none => exact ⟨issued ▸ nofun, submitted, nofun⟩
    | some id => cases same
  | some r =>
    cases answer with
    | none => cases same
    | some id =>
      have request : r.request = make id := Option.some.inj same
      refine ⟨fun i hi => ⟨r, rfl, ?_⟩, ?_, fun x hx hw => ?_⟩
      · rw [issued] at hi
        rw [Waiting.id, request, number, Option.mem_some_iff.mp hi]
      · rw [submitted, same, Option.map_some, Option.filter_some, if_pos (write id)]
      · rw [← Option.mem_some_iff.mp hx, request, write id] at hw
        cases hw

theorem submits_auth {added : Option Waiting} (issued : ∀ id ∈ s.issued c, ∃ r ∈ added, r.id = id)
    (submitted : s.submitted c = none) (presents : ∀ r ∈ added, (s.call c).Presents r) :
    Submits s c added := by
  refine ⟨issued, ?_, fun r hr _ => presents r hr⟩
  cases added with
  | none => exact submitted
  | some r =>
    have other : r.request.action.isWrite = false := by rw [(presents r rfl).action]; rfl
    rw [submitted, Option.map_some, Option.filter_some, if_neg (by rw [other]; nofun)]

theorem turnover_write (h : Ready s) {make : RequestId → Request} (number : ∀ id, (make id).id = id)
    (observed : Bool) : ∃ added, Turnover s (s.submit make observed).1 added [] []
      ∧ added.map (·.request) = (s.submit make observed).2.toOption.map make
      ∧ Ready (s.submit make observed).1 := by
  unfold submit
  split
  · exact ⟨none, .same rfl rfl rfl rfl, rfl, h⟩
  · rename_i free
    obtain ⟨turnover, ready⟩ := @turnover_submit s
      { s with wire := (s.wire.submit s.isConnected make observed).2 } h _ []
      (List.Perm.of_eq (List.append_nil _)) make number observed (fun _ => Nat.lt_of_not_le free)
      rfl rfl rfl rfl (List.append_nil _).symm
    exact ⟨_, turnover, rfl, ready⟩

/-- A session that has used up a key. -/
def keyed (s : Session) : Session :=
  { s with pushKeys := (s.pushKeys.generate s.serverNow).2 }

section Push
variable {p q : Path}

theorem push_error {e : PathError} (h : p.child (s.pushKeys.generate s.serverNow).1 = .error e)
    (v : Value) (observed : Bool) : s.push p v observed = (s.keyed, .error (.path e)) := by
  simp only [push, keyed]
  rw [h]

theorem push_ok (h : p.child (s.pushKeys.generate s.serverNow).1 = .ok q) (v : Value)
    (observed : Bool) : s.push p v observed = ((s.keyed.write q v observed).1,
      (s.keyed.write q v observed).2.map fun id => ((s.pushKeys.generate s.serverNow).1, id)) := by
  simp only [push, keyed]
  rw [h]

theorem issued_push (h : p.child (s.pushKeys.generate s.serverNow).1 = .ok q) (v : Value)
    (observed : Bool) :
    s.issued (.push p v observed) = (s.keyed.write q v observed).2.toOption := by
  rw [issued, push_ok h]
  cases (s.keyed.write q v observed).2 <;> rfl

theorem submitted_push (h : p.child (s.pushKeys.generate s.serverNow).1 = .ok q) (v : Value)
    (observed : Bool) : s.submitted (.push p v observed)
      = (s.keyed.write q v observed).2.toOption.map fun id => Request.put id q v := by
  rw [submitted, push_ok h]
  cases (s.keyed.write q v observed).2 with
  | error e => rfl
  | ok id =>
    change (p.child (s.pushKeys.generate s.serverNow).1).toOption.map _ = _
    rw [h]
    rfl

end Push

theorem turnover_push (h : Ready s) (p : Path) (v : Value) (observed : Bool) :
    ∃ added, Turnover s (s.push p v observed).1 added [] []
      ∧ Submits s (.push p v observed) added ∧ Ready (s.push p v observed).1 := by
  cases hc : p.child (s.pushKeys.generate s.serverNow).1 with
  | error e =>
    have same := push_error hc v observed
    rw [same]
    refine ⟨none, .same rfl rfl rfl rfl, submits_auth ?_ ?_ nofun, h.same rfl h.sound rfl rfl⟩
    · rw [issued, same]
      nofun
    · rw [submitted, same]
      rfl
  | ok child =>
    have moved : Turnover s s.keyed none [] [] := .same rfl rfl rfl rfl
    obtain ⟨added, turnover, request, ready⟩ := @turnover_write s.keyed (h.same rfl h.sound rfl rfl)
      (Request.put · child v) (fun _ => rfl) observed
    rw [push_ok hc]
    exact ⟨added, moved.after turnover, submits_write (fun _ => rfl) (fun _ => rfl)
      (issued_push hc v observed) (submitted_push hc v observed) request, ready⟩

theorem turnover_receive (h : Ready s) (b : Booked s) (m : Message) : ∃ added ended,
    (∀ r ∈ added, (s.receive m).Presents r)
      ∧ Turnover s (s.receive m) added ended (s.endedBy m) ∧ Ready (s.receive m) := by
  cases m with
  | handshake time =>
    obtain ⟨added, done⟩ := turnover_handshake h time
    exact ⟨added, [], done⟩
  | update kind p v => exact ⟨none, [], nofun, turnover_report h _ p⟩
  | response id status data =>
    obtain ⟨ended, done⟩ := turnover_response h b id status data
    exact ⟨none, ended, nofun, done⟩
  | closed recoverable retryAfter =>
    exact ⟨none, [], nofun, turnover_lose (.same rfl rfl rfl rfl) h.sound recoverable retryAfter⟩

theorem turnover_call (h : Ready s) (b : Booked s) (c : Call) : ∃ added ended completed,
    Turnover s (s.call c) added ended completed ∧ completed ~ s.ended c
      ∧ Submits s c added ∧ Ready (s.call c) := by
  have unissued {c : Call} {added : Option Waiting} (issued : s.issued c = none)
      (submitted : s.submitted c = none) (presents : ∀ r ∈ added, (s.call c).Presents r) :
      Submits s c added :=
    submits_auth (fun id hid => absurd (issued ▸ hid) (Option.not_mem_none id)) submitted presents
  have still : ∀ {t}, Turnover s t none [] [] ∧ Ready t → s.ended c = [] → s.issued c = none →
      s.submitted c = none → ∃ added ended completed, Turnover s t added ended completed
        ∧ completed ~ s.ended c ∧ Submits s c added ∧ Ready t := by
    rintro t ⟨turnover, ready⟩ ended issued submitted
    exact ⟨none, [], [], turnover, .of_eq ended.symm, unissued issued submitted nofun, ready⟩
  cases c with
  | connect => exact still (turnover_connect (.same rfl rfl rfl rfl) h) rfl rfl rfl
  | close => exact still ⟨(turnover_close h).1, (turnover_close h).2.1⟩ rfl rfl rfl
  | watch p kind => exact still (turnover_act h (.acquire p) rfl rfl rfl rfl) rfl rfl rfl
  | unwatch handle =>
    refine still ?_ rfl rfl rfl
    rw [call, unwatch]
    split
    · exact ⟨.same rfl rfl rfl rfl, h⟩
    · exact turnover_act h (.release _) rfl rfl rfl rfl
  | write p v observed =>
    obtain ⟨added, turnover, request, ready⟩ := @turnover_write s h (Request.put · p v)
      (fun _ => rfl) observed
    exact ⟨added, [], [], turnover, .refl _,
      submits_write (fun _ => rfl) (fun _ => rfl) rfl rfl request, ready⟩
  | merge p v observed =>
    obtain ⟨added, turnover, request, ready⟩ := @turnover_write s h (Request.merge · p v)
      (fun _ => rfl) observed
    exact ⟨added, [], [], turnover, .refl _,
      submits_write (fun _ => rfl) (fun _ => rfl) rfl rfl request, ready⟩
  | push p v observed =>
    obtain ⟨added, turnover, submits, ready⟩ := turnover_push h p v observed
    exact ⟨added, [], [], turnover, .refl _, submits, ready⟩
  | authenticate credential observed =>
    obtain ⟨turnover, ready⟩ := @turnover_submit s
      (s.authenticate credential observed).1 h (s.wire.requests.queued.filter fun w => !w.isAuth)
      (s.wire.requests.queued.filter (·.isAuth))
      (List.perm_append_comm.trans (List.filter_append_perm _ _))
      (fun id => Request.auth id credential) (fun _ => rfl) observed
      (fun write => absurd write Bool.false_ne_true) rfl rfl rfl rfl rfl
    refine ⟨_, _, _, turnover, .refl _, submits_auth (fun id hid => ⟨_, rfl, ?_⟩) rfl ?_, ready⟩
    · exact Option.mem_some_iff.mp hid
    · intro r hr
      rw [← Option.mem_some_iff.mp hr]
      exact ⟨rfl, rfl⟩
  | restore snapshot =>
    refine still ?_ rfl rfl rfl
    rw [call, restore]
    split
    · exact ⟨.same rfl rfl rfl rfl, h⟩
    · exact turnover_report h _ _
  | teardown =>
    obtain ⟨ended, completed, turnover, all, ready⟩ := turnover_teardown h
    exact ⟨none, ended, completed, turnover, all, unissued rfl rfl nofun, ready⟩
  | receive m =>
    obtain ⟨added, ended, presents, turnover, ready⟩ := turnover_receive h b m
    exact ⟨added, ended, _, turnover, .refl _, unissued rfl rfl presents, ready⟩
  | frame text =>
    cases read : Message.decode text with
    | ok m =>
      obtain ⟨added, ended, presents, turnover, ready⟩ := turnover_receive h b m
      have same := @call_of_message s (.frame text) m (by rw [Call.message?, read]; rfl)
      rw [same, Session.ended, read]
      exact ⟨added, ended, _, turnover, .refl _, unissued rfl rfl (same ▸ presents), ready⟩
    | error e =>
      simp only [call, receiveFrame, Session.ended, read]
      exact ⟨none, [], [], .same rfl rfl rfl rfl, .refl _, unissued rfl rfl nofun,
        h.same rfl h.sound rfl rfl⟩
  | tick => exact still (turnover_tick h) rfl rfl rfl
  | pass t | ask names | faults opening closing | drain =>
    exact still ⟨.same rfl rfl rfl rfl, h.same rfl h.sound rfl rfl⟩ rfl rfl rfl

end Calls

section Runs
variable {ids : List RequestId} {s : Session}

theorem ready_new (config : Config) (clock : Clock) (digits : PushKey.Source) :
    Ready (new config clock digits) :=
  .of_inactive OrderedMap.sound_empty rfl

theorem booked_new (config : Config) (clock : Clock) (digits : PushKey.Source) :
    Booked (new config clock digits) where
  once := List.nodup_nil
  numbered := nofun
  foreign := nofun
  room := Nat.zero_le _

/-- Every number that came back has its place, and none came back twice. -/
structure Conserved (ids : List RequestId) (s : Session) : Prop where
  ready : Ready s
  booked : Booked s
  placed : ∀ id ∈ ids, id ∈ s.places
  distinct : ids.Nodup

theorem Reached.conserved (h : Reached ids s) : Conserved ids s := by
  induction h with
  | new config clock digits =>
    exact ⟨ready_new config clock digits, booked_new config clock digits, nofun, List.nodup_nil⟩
  | @call ids s h c ih =>
    obtain ⟨added, ended, completed, turnover, _, submits, ready⟩ :=
      turnover_call ih.ready ih.booked c
    have new : ∀ id ∈ (s.issued c).toList, ∃ r ∈ added, r.id = id :=
      fun id hid => submits.issued id (Option.mem_toList.mp hid)
    refine ⟨ready, turnover.booked ih.booked, fun id hid => ?_, ?_⟩
    · rw [turnover.places.mem_iff, List.mem_append]
      rcases List.mem_append.mp hid with hid | hid
      · exact Or.inr (ih.placed id hid)
      · obtain ⟨r, hr, rfl⟩ := new id hid
        exact Or.inl (List.mem_map_of_mem (Option.mem_toList.mpr hr))
    · apply List.nodup_append.mpr
      refine ⟨ih.distinct, ?_, ?_⟩
      · cases s.issued c with
        | none => exact List.nodup_nil
        | some id => exact List.nodup_singleton id
      · rintro id old _ hid rfl
        obtain ⟨r, hr, number⟩ := new id hid
        have handed := ih.booked.numbered id (ih.placed id old)
        exact Nat.not_le_of_lt (turnover.fresh r hr).1 (number ▸ handed)

end Runs

def greeted : Session := [Call.connect, .receive (.handshake 0)].foldl call blank

/-- A write is sent, comes back into the queue with the loss of the connection, and is given up. -/
def givenUp : Session :=
  [Call.receive (.closed true none), .teardown].foldl call
    (greeted.call (.write Path.root .null true))

end LiveTree.Session
