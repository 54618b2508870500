import LiveTree.Proofs.Listens.Log

/-!
# What is known of each path from its last open listen

`Tracking` goes with every operation and every answer, in whatever order the answers come. A path
that is not active was refused or given up last. It is given up in silence when its last reference is
dropped while the path is masked and its listen may be unanswered: no unlisten is sent then.
-/

namespace LiveTree.Listens

open Relation

/-- The request that a path gives up without an unlisten when a reference to it is dropped. -/
def givenUp (l : Listens) (p : Path) : List RequestId :=
  match l.get? p with
  | some i => if 1 < i.refCount || (l.online && i.status.onWire) then [] else i.request.toList
  | none => []

/-- The answers that came, and the requests that were given up in silence. -/
structure Verdicts where
  answers : List (RequestId × Bool)
  abandoned : List RequestId

def Verdicts.after (v : Verdicts) (l : Listens) : Action → Verdicts
  | .answer id ok => { v with answers := v.answers ++ [(id, ok)] }
  | .release p => { v with abandoned := v.abandoned ++ l.givenUp p }
  | _ => v

/-- A path awaits the answer to its last open listen, or is active by it, or its last open listen was
refused or given up. -/
inductive Tracked (v : Verdicts) (window : List Sent) (l : Listens) (p : Path) : Prop where
  | waiting {id : RequestId} (request : l.request? p = some id)
      (last : (openIds p window).getLast? = some id) (unanswered : id ∉ v.answers.map Prod.fst)
      (kept : id ∉ v.abandoned)
  | active {id : RequestId} (request : l.request? p = none) (status : l.status? p = some .active)
      (last : (openIds p window).getLast? = some id) (accepted : (id, true) ∈ v.answers)
      (kept : id ∉ v.abandoned)
  | past (request : l.request? p = none) (status : l.status? p ≠ some .active)
      (last : ∀ id, (openIds p window).getLast? = some id →
        (id, false) ∈ v.answers ∨ id ∈ v.abandoned)

/-- The invariant of what was sent and answered. While offline nothing is known of the paths. -/
structure Tracking (since : Nat) (v : Verdicts) (acc : Sending (List Sent)) : Prop where
  since_le : since ≤ acc.2.length
  one_path : ∀ id p q, .listen id p ∈ acc.2 → .listen id q ∈ acc.2 → p = q
  answered_once : (v.answers.map Prod.fst).Nodup
  answered_sent : ∀ id ∈ v.answers.map Prod.fst, id ∈ requests acc.2
  abandoned_sent : ∀ id ∈ v.abandoned, id ∈ requests acc.2
  tracked : acc.1.online = true → ∀ p, Tracked v (acc.2.drop since) acc.1 p

section Tracking
variable {number : List Sent → Path → RequestId} {since : Nat} {v : Verdicts}
  {acc acc' : Sending (List Sent)} {window : List Sent} {l l' : Listens} {p q : Path}

theorem Tracked.congr (h : Tracked v window l p) {window' : List Sent}
    (request : l'.request? p = l.request? p) (status : l'.status? p = l.status? p)
    (ids : openIds p window' = openIds p window) : Tracked v window' l' p := by
  cases h with
  | waiting hr hl hu hk => exact .waiting (request.trans hr) (ids ▸ hl) hu hk
  | active hr hs hl ha hk => exact .active (request.trans hr) (status.trans hs) (ids ▸ hl) ha hk
  | past hr hs hl => exact .past (request.trans hr) (status ▸ hs) (fun id hid => hl id (ids ▸ hid))

theorem Tracked.inactive (h : Tracked v window l p)
    (request : l'.request? p = l.request? p) (before : l.status? p ≠ some .active)
    (after : l'.status? p ≠ some .active) : Tracked v window l' p := by
  cases h with
  | waiting hr hl hu hk => exact .waiting (request.trans hr) hl hu hk
  | active hr hs hl ha hk => exact absurd hs before
  | past hr hs hl => exact .past (request.trans hr) after hl

theorem Tracked.of_openIds_eq_nil (request : l.request? p = none)
    (status : l.status? p ≠ some .active) (ids : openIds p window = []) : Tracked v window l p := by
  refine .past request status ?_
  intro id hid
  rw [ids] at hid
  cases hid

theorem drop_append (h : since ≤ acc.2.length) (m : Sent) :
    (acc.2 ++ [m]).drop since = acc.2.drop since ++ [m] :=
  List.drop_append_of_le_length h

theorem Tracking.change (h : Tracking since v acc) {l' : Listens}
    (same : l'.online = true → acc.1.online = true)
    (frame : ∀ q, q ≠ p → l'.request? q = acc.1.request? q ∧ l'.status? q = acc.1.status? q)
    (there : Tracked v (acc.2.drop since) acc.1 p → Tracked v (acc.2.drop since) l' p) :
    Tracking since v (l', acc.2) := by
  refine { h with tracked := ?_ }
  intro ho q
  by_cases hqp : q = p
  · subst hqp
    exact there (h.tracked (same ho) q)
  · exact (h.tracked (same ho) q).congr (frame q hqp).1 (frame q hqp).2 rfl

theorem Tracking.unlisten (h : Tracking since v acc) {l' : Listens}
    (same : l'.online = true → acc.1.online = true)
    (frame : ∀ q, q ≠ p → l'.request? q = acc.1.request? q ∧ l'.status? q = acc.1.status? q)
    (request : l'.request? p = none) (status : l'.status? p ≠ some .active) :
    Tracking since v (l', acc.2 ++ [.unlisten p]) where
  since_le := by
    rw [List.length_append]
    exact Nat.le_add_right_of_le h.since_le
  one_path id q r hq hr := by
    apply h.one_path id q r
    · simpa using hq
    · simpa using hr
  answered_once := h.answered_once
  answered_sent id hid := mem_requests_append (h.answered_sent id hid)
  abandoned_sent id hid := mem_requests_append (h.abandoned_sent id hid)
  tracked ho q := by
    rw [drop_append h.since_le]
    by_cases hqp : q = p
    · subst hqp
      exact .of_openIds_eq_nil request status (by rw [openIds_unlisten, if_pos rfl])
    · apply (h.tracked (same ho) q).congr (frame q hqp).1 (frame q hqp).2
      rw [openIds_unlisten, if_neg (Ne.symm hqp)]

theorem Awaiting.request_of_active {issued : List Sent → RequestId → Prop}
    (ha : Awaiting issued acc) (h : acc.1.status? p = some .active) : acc.1.request? p = none := by
  cases hr : acc.1.request? p with
  | none => rfl
  | some id =>
    rcases ha.waiting p id hr with hs | hs <;> rw [h] at hs <;> cases hs

theorem Tracking.send {l : Listens} {log : List Sent} {s : ListenStatus}
    (h : Tracking since v (l, log)) (hn : ∀ log p, number log p ∉ requests log)
    (status : l.status? p = some s) (online : l.online = true) :
    Tracking since v (Listens.send (recorder number) (l, log) p) := by
  have wire : (Listens.send (recorder number) (l, log) p).2
      = log ++ [.listen (number log p) p] := rfl
  refine ⟨?_, ?_, h.answered_once, ?_, ?_, ?_⟩
  · rw [wire, List.length_append]
    exact Nat.le_add_right_of_le h.since_le
  · intro id q r hq hr
    rw [wire, List.mem_append, List.mem_singleton] at hq hr
    rcases hq with hq | hq <;> rcases hr with hr | hr
    · exact h.one_path id q r hq hr
    · obtain ⟨rfl, rfl⟩ := Sent.listen.inj hr
      exact absurd (mem_requests.mpr ⟨q, hq⟩) (hn _ _)
    · obtain ⟨rfl, rfl⟩ := Sent.listen.inj hq
      exact absurd (mem_requests.mpr ⟨r, hr⟩) (hn _ _)
    · rw [(Sent.listen.inj hq).2, (Sent.listen.inj hr).2]
  · intro id hid
    exact mem_requests_append (h.answered_sent id hid)
  · intro id hid
    exact mem_requests_append (h.abandoned_sent id hid)
  · intro _ q
    rw [wire, drop_append h.since_le]
    by_cases hqp : q = p
    · subst hqp
      refine .waiting (request?_send_self (recorder number) (l, log) q status) ?_ ?_ ?_
      · rw [openIds_listen, if_pos rfl, List.getLast?_append]
        rfl
      · intro hid
        exact hn log q (h.answered_sent _ hid)
      · intro hid
        exact hn log q (h.abandoned_sent _ hid)
    · refine (h.tracked online q).congr (request?_send_ne (recorder number) (l, log) p hqp)
        (status?_send_ne (recorder number) (l, log) p hqp) ?_
      rw [openIds_listen, if_neg (Ne.symm hqp)]

theorem Move.tracking {again : Prop} (hn : ∀ log p, number log p ∉ requests log)
    (m : Move (recorder number) again acc acc')
    (ha : Awaiting (fun log id => id ∈ requests log) acc) (h : Tracking since v acc) :
    Tracking since v acc' := by
  cases m with
  | send status want free online => exact h.send hn status online
  | @need l log p status free offline =>
    change l.status? p = some .masked at status
    refine h.change id (fun q hqp => ⟨request?_setStatus l p q _, status?_setStatus_ne hqp⟩)
      fun ht => ht.inactive (request?_setStatus l p p _) ?_ ?_
    · simp [status]
    · simp [status?_setStatus_self status]
  | @mask l log r p s above active status covers =>
    have frame : ∀ q, q ≠ p → (l.setStatus p .masked).request? q = l.request? q
        ∧ (l.setStatus p .masked).status? q = l.status? q :=
      fun q hqp => ⟨request?_setStatus l p q _, status?_setStatus_ne hqp⟩
    have after : (l.setStatus p .masked).status? p ≠ some .active := by
      simp [status?_setStatus_self status]
    split
    · rename_i hs
      subst hs
      exact h.unlisten id frame ((request?_setStatus l p p _).trans (ha.request_of_active status))
        after
    · rename_i hs
      refine h.change id frame fun ht => ht.inactive (request?_setStatus l p p _) ?_ after
      intro he
      exact hs (Option.some.inj (status.symm.trans he))
  | @yield l log p s status want covered =>
    refine h.change id (fun q hqp => ⟨request?_setStatus l p q _, status?_setStatus_ne hqp⟩)
      fun ht => ht.inactive (request?_setStatus l p p _) ?_ ?_
    · intro he
      rcases want with rfl | ⟨_, rfl⟩ <;> cases status.symm.trans he
    · simp [status?_setStatus_self status]

theorem Tracked.answered (h : Tracked v window l p) {id : RequestId} (ok : Bool)
    (other : l.request? p ≠ some id) :
    Tracked { v with answers := v.answers ++ [(id, ok)] } window l p := by
  cases h with
  | @waiting i hr hl hu hk =>
    refine .waiting hr hl ?_ hk
    rw [List.map_append, List.mem_append, List.map_singleton, List.mem_singleton]
    rintro (hi | rfl)
    · exact hu hi
    · exact other hr
  | active hr hs hl ha hk => exact .active hr hs hl (List.mem_append_left _ ha) hk
  | past hr hs hl => exact .past hr hs fun i hi => (hl i hi).imp_left (List.mem_append_left _)

theorem Tracked.abandon (h : Tracked v window l p) {ids : List RequestId}
    (other : ∀ id, (openIds p window).getLast? = some id → id ∉ ids) :
    Tracked { v with abandoned := v.abandoned ++ ids } window l p := by
  have kept : ∀ id, (openIds p window).getLast? = some id → id ∉ v.abandoned →
      id ∉ v.abandoned ++ ids := by
    intro id hl hk hm
    rcases List.mem_append.mp hm with hm | hm
    · exact hk hm
    · exact other id hl hm
  cases h with
  | waiting hr hl hu hk => exact .waiting hr hl hu (kept _ hl hk)
  | active hr hs hl ha hk => exact .active hr hs hl ha (kept _ hl hk)
  | past hr hs hl => exact .past hr hs fun i hi => (hl i hi).imp_right (List.mem_append_left _)

theorem Tracked.of_request (h : Tracked v window l p) {id : RequestId}
    (request : l.request? p = some id) :
    (openIds p window).getLast? = some id ∧ id ∉ v.abandoned := by
  cases h with
  | waiting hr hl hu hk =>
    obtain rfl := Option.some.inj (hr.symm.trans request)
    exact ⟨hl, hk⟩
  | active hr => simp [hr] at request
  | past hr => simp [hr] at request

theorem Tracking.answer (h : Tracking since v acc) {id : RequestId} {ok : Bool}
    (sent : id ∈ requests acc.2) (new : id ∉ v.answers.map Prod.fst)
    (tracked : l'.online = true → ∀ p,
      Tracked { v with answers := v.answers ++ [(id, ok)] } (acc.2.drop since) l' p) :
    Tracking since { v with answers := v.answers ++ [(id, ok)] } (l', acc.2) where
  since_le := h.since_le
  one_path := h.one_path
  answered_once := by
    rw [List.map_append, List.nodup_append]
    refine ⟨h.answered_once, by simp, ?_⟩
    rintro i hi _ hj rfl
    rw [List.map_singleton, List.mem_singleton] at hj
    obtain rfl : i = id := hj
    exact new hi
  answered_sent i hi := by
    rw [List.map_append, List.mem_append, List.map_singleton, List.mem_singleton] at hi
    rcases hi with hi | rfl
    · exact h.answered_sent i hi
    · exact sent
  abandoned_sent := h.abandoned_sent
  tracked := tracked

theorem Tracking.settle (h : Tracking since v acc)
    (ha : Awaiting (fun log id => id ∈ requests log) acc) {id : RequestId} {ok : Bool}
    (listed : acc.1.awaited.lookup id = some p) (request : acc.1.request? p = some id)
    (new : id ∉ v.answers.map Prod.fst) (same : l'.online = acc.1.online)
    (frame : ∀ q, q ≠ p → l'.request? q = acc.1.request? q ∧ l'.status? q = acc.1.status? q)
    (there : (openIds p (acc.2.drop since)).getLast? = some id → id ∉ v.abandoned →
      Tracked { v with answers := v.answers ++ [(id, ok)] } (acc.2.drop since) l' p) :
    Tracking since { v with answers := v.answers ++ [(id, ok)] } (l', acc.2) := by
  apply h.answer (ha.issued id p (mem_of_lookup listed)) new
  intro ho q
  rw [same] at ho
  by_cases hqp : q = p
  · subst hqp
    obtain ⟨hl, hk⟩ := (h.tracked ho q).of_request request
    exact there hl hk
  · have other : acc.1.request? q ≠ some id := fun hq => hqp (ha.request_of_lookup listed hq)
    exact ((h.tracked ho q).answered ok other).congr (frame q hqp).1 (frame q hqp).2 rfl

end Tracking

section Openings
variable {number : List Sent → Path → RequestId} {since : Nat} {v : Verdicts} {log log' : List Sent}
  {l l' : Listens} {rest : Rest}

/-- A path that goes without an unlisten was not active, and what it awaits is given up. -/
theorem Tracking.abandon {p : Path} {i : Listen} (h : Tracking since v (l, log))
    (hs : l.items.Sound) (ha : Awaiting (fun log id => id ∈ requests log) (l, log))
    (hi : l.get? p = some i) (hw : ¬ (l.online && i.status.onWire) = true) :
    Tracking since { v with abandoned := v.abandoned ++ i.request.toList } (l.remove p, log) := by
  have hr : l.request? p = i.request := request?_of_get? hi
  have status : (l.remove p).status? p ≠ some .active := by simp [status?_remove_self hs]
  refine ⟨h.since_le, h.one_path, h.answered_once, h.answered_sent, ?_, ?_⟩
  · intro id hid
    rcases List.mem_append.mp hid with hid | hid
    · exact h.abandoned_sent id hid
    · exact ha.issued id p (ha.listed p id (hr.trans (Option.mem_toList.mp hid)))
  · intro ho q
    by_cases hqp : q = p
    · subst hqp
      refine .past (request?_remove_self hs q) status fun id hid => ?_
      cases h.tracked ho q with
      | waiting hreq hl =>
        obtain rfl := Option.some.inj (hid.symm.trans hl)
        refine Or.inr (List.mem_append_right _ (Option.mem_toList.mpr ?_))
        exact hr.symm.trans hreq
      | active _ hst =>
        rw [status?_of_get? hi, Option.some_inj] at hst
        change l.online = true at ho
        simp [hst, ListenStatus.onWire, ho] at hw
      | past _ _ hl => exact (hl id hid).imp_right (List.mem_append_left _)
    · obtain ⟨request, same⟩ := frame_removed hs hqp
      refine ((h.tracked ho q).abandon fun id hid hm => hqp ?_).congr request same rfl
      have hreq : l.request? p = some id := hr.trans (Option.mem_toList.mp hm)
      have hlast := ((h.tracked ho p).of_request hreq).1
      exact h.one_path id q p
        (List.mem_of_mem_drop (mem_of_openIds (List.mem_of_getLast? hid)))
        (List.mem_of_mem_drop (mem_of_openIds (List.mem_of_getLast? hlast)))

theorem Opening.tracking_release {p : Path}
    (o : Opening (recorder number) (.release p) (l, log) (l', log') rest) (hs : l.items.Sound)
    (ha : Awaiting (fun log id => id ∈ requests log) (l, log)) (h : Tracking since v (l, log)) :
    Tracking since { v with abandoned := v.abandoned ++ l.givenUp p } (l', log') := by
  cases o with
  | stray hp =>
    change l.get? p = none at hp
    simpa [givenUp, hp] using h
  | @drop _ _ _ i hi more =>
    change l.get? p = some i at hi
    have hg : l.givenUp p = [] := by simp [givenUp, hi, more]
    rw [hg, List.append_nil]
    refine { h with tracked := ?_ }
    intro ho q
    exact (h.tracked ho q).congr (request?_count l p q (· - 1)) (status?_count l p q (· - 1)) rfl
  | @close _ _ _ i hi last =>
    change l.get? p = some i at hi
    split
    · rename_i hw
      have hg : l.givenUp p = [] := by simp only [givenUp, hi, hw, Bool.or_true, if_true]
      rw [hg, List.append_nil]
      refine h.unlisten id (fun q hqp => frame_removed hs hqp) (request?_remove_self hs p) ?_
      simp [status?_remove_self hs]
    · rename_i hw
      have hg : l.givenUp p = i.request.toList := by
        simp only [givenUp, hi, Nat.not_lt.mpr last, hw, decide_false, Bool.or_false]
        rfl
      rw [hg]
      exact h.abandon hs ha hi hw

theorem Opening.tracking_answer {id : RequestId} {ok : Bool}
    (o : Opening (recorder number) (.answer id ok) (l, log) (l', log') rest)
    (ha : Awaiting (fun log id => id ∈ requests log) (l, log)) (sent : id ∈ requests log)
    (new : id ∉ v.answers.map Prod.fst) (h : Tracking since v (l, log)) :
    Tracking since { v with answers := v.answers ++ [(id, ok)] } (l', log') := by
  cases o with
  | unknown hn =>
    refine h.answer sent new fun ho q => (h.tracked ho q).answered ok ?_
    intro hq
    have hl := lookup_of_awaited ha.nodup (ha.listed q id hq)
    rw [hn] at hl
    cases hl
  | @stale _ _ _ _ p hl old =>
    apply h.answer sent new
    intro ho q
    have tracked : Tracked v (log.drop since) (l.forget id) q := (h.tracked ho q).congr rfl rfl rfl
    apply tracked.answered ok
    intro hq
    obtain rfl := ha.request_of_lookup hl hq
    exact old hq
  | @accept _ _ _ p hl request pending =>
    refine h.settle ha hl request new rfl (fun q => frame_settled l id p _) ?_
    intro hlast hk
    obtain ⟨hreq, hstat⟩ := settled_self l id pending .active
    exact .active hreq hstat hlast (by simp) hk
  | @refuse _ _ _ p hl request pending =>
    refine h.settle ha hl request new rfl (fun q => frame_settled l id p _) ?_
    intro hlast hk
    obtain ⟨hreq, hstat⟩ := settled_self l id pending .failed
    refine .past hreq ?_ ?_
    · rw [hstat]
      decide
    · intro i hi
      obtain rfl := Option.some.inj (hi.symm.trans hlast)
      exact Or.inl (by simp)
  | @late _ _ _ p hl request masked =>
    change l.status? p = some .masked at masked
    have status : ((l.forget id).setRequest p none).status? p ≠ some .active := by
      rw [status?_setRequest, status?_forget, masked]
      decide
    have hu : Tracking since v ((l.forget id).setRequest p none, log ++ [.unlisten p]) :=
      h.unlisten (fun ho => ho) (fun q => frame_forgotten l id p) (request_settled l id p) status
    refine hu.answer (mem_requests_append sent) new fun ho q =>
      (hu.tracked ho q).answered true ?_
    intro hq
    by_cases hqp : q = p
    · subst hqp
      rw [request_settled] at hq
      cases hq
    · rw [(frame_forgotten l id p hqp).1] at hq
      exact hqp (ha.request_of_lookup hl hq)
  | @lapse _ _ _ _ p s hl request status other quiet =>
    refine h.settle ha hl request new rfl (fun q => frame_forgotten l id p) ?_
    intro hlast hk
    refine .past (request_settled l id p) ?_ ?_
    · rw [status?_setRequest, status?_forget]
      intro he
      have := (ha.request_of_active he).symm.trans request
      cases this
    · intro i hi
      obtain rfl := Option.some.inj (hi.symm.trans hlast)
      have hs : s = .masked := by
        rcases ha.waiting p i request with hp | hm
        · exact absurd (Option.some.inj (status.symm.trans hp)) other
        · exact Option.some.inj (status.symm.trans hm)
      cases ok with
      | true => exact absurd hs (quiet rfl)
      | false => exact Or.inl (by simp)

end Openings

section Moves
variable {number : List Sent → Path → RequestId}

theorem moves_tracking {again : Prop} (hn : ∀ log p, number log p ∉ requests log) {since : Nat}
    {v : Verdicts} {acc acc' : Sending (List Sent)}
    (m : ReflTransGen (Move (recorder number) again) acc acc')
    (ha : Awaiting (fun log id => id ∈ requests log) acc) (h : Tracking since v acc) :
    Tracking since v acc' := by
  induction m with
  | refl => exact h
  | tail ms m ih => exact m.tracking hn (moves_awaiting (recorder_fresh hn) ms ha) ih

end Moves

end LiveTree.Listens
