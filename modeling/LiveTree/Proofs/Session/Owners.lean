import LiveTree.Proofs.Session.Resending

/-!
# Who takes the answers

Whoever sends a request is ready for its answer: the listens know the number and the path of each
listen, and the other numbers are in flight or among those whose answers are dropped. Sending keeps
that, and so do the operations on the listens, but for the listens of a path that is given up.
-/

namespace LiveTree

open Listens Relation

/-- There is somebody to take the answer to a request. -/
def Owned (acc : Sending Wire) (r : Request) : Prop :=
  (∃ p, r = Request.listen r.id p ∧ (r.id, p) ∈ acc.1.awaited)
    ∨ (r.action ≠ .listen ∧ (r.id ∈ acc.2.requests.untracked
      ∨ ∃ w ∈ acc.2.requests.inFlight, w.id = r.id))

/-- No number that is foreign to the tables was handed out twice. -/
structure Distinct (acc : Sending Wire) : Prop where
  nodup : (foreign acc).Nodup
  numbered : ∀ id ∈ foreign acc, id ≤ acc.2.requests.lastId

/-- Frames have left that somebody answers for, and so it is still for all requests but those that
are gone. -/
structure Passed (gone : Request → Prop) (acc acc' : Sending Wire) : Prop where
  kept : ∀ r, Owned acc r → gone r ∨ Owned acc' r
  left : ∃ frames, acc'.2.link.sent = acc.2.link.sent ++ frames ∧ ∀ r ∈ frames, Owned acc' r
  distinct : Distinct acc → Distinct acc'
  dropped : acc'.2.stats.droppedResponses = acc.2.stats.droppedResponses

def nothing (_ : Request) : Prop := False

section Passed
variable {gone : Request → Prop} {acc mid acc' : Sending Wire} {l l' : Listens} {w w' : Wire}

theorem Passed.mono (h : Passed nothing acc acc') : Passed gone acc acc' :=
  { h with kept := fun r hr => Or.inr ((h.kept r hr).resolve_left id) }

theorem Passed.trans (h : Passed gone acc mid) (h' : Passed nothing mid acc') :
    Passed gone acc acc' where
  kept r hr := (h.kept r hr).imp_right fun owned => (h'.kept r owned).resolve_left id
  left := by
    obtain ⟨frames, sent, owned⟩ := h.left
    obtain ⟨frames', sent', owned'⟩ := h'.left
    refine ⟨frames ++ frames', by rw [sent', sent, List.append_assoc], fun r hr => ?_⟩
    rcases List.mem_append.mp hr with hr | hr
    · exact (h'.kept r (owned r hr)).resolve_left id
    · exact owned' r hr
  distinct d := h'.distinct (h.distinct d)
  dropped := h'.dropped.trans h.dropped

theorem Passed.shrunk (sub : l'.awaited.Sublist l.awaited)
    (kept : ∀ e ∈ l.awaited, gone (.listen e.1 e.2) ∨ e ∈ l'.awaited) (w : Wire) :
    Passed gone (l, w) (l', w) where
  kept r hr := by
    rcases hr with ⟨p, same, mem⟩ | other
    · refine (kept _ mem).imp (fun hg => ?_) fun mem => Or.inl ⟨p, same, mem⟩
      rw [same]
      exact hg
    · exact Or.inr (Or.inr other)
  left := ⟨[], (List.append_nil _).symm, nofun⟩
  distinct d :=
    have sub : (foreign (l', w)).Sublist (foreign (l, w)) := (sub.map _).append_right _
    ⟨d.nodup.sublist sub, fun id hid => d.numbered id (sub.subset hid)⟩
  dropped := rfl

theorem Distinct.congr (d : Distinct acc) (awaited : acc'.1.awaited = acc.1.awaited)
    (requests : acc'.2.requests = acc.2.requests) : Distinct acc' := by
  have same : foreign acc' = foreign acc := by rw [foreign, awaited, requests, foreign]
  exact ⟨same ▸ d.nodup, fun id hid => requests ▸ d.numbered id (same ▸ hid)⟩

theorem Passed.same (awaited : acc'.1.awaited = acc.1.awaited)
    (requests : acc'.2.requests = acc.2.requests) (sent : acc'.2.link.sent = acc.2.link.sent)
    (dropped : acc'.2.stats.droppedResponses = acc.2.stats.droppedResponses) :
    Passed gone acc acc' where
  kept r hr := by
    rw [Owned, awaited, requests]
    exact Or.inr hr
  left := ⟨[], sent.trans (List.append_nil _).symm, nofun⟩
  distinct d := d.congr awaited requests
  dropped := dropped

theorem Passed.refl (acc : Sending Wire) : Passed gone acc acc := .same rfl rfl rfl rfl

theorem Wire.sent_or_lost (w : Wire) (r : Request) {count : Wire → Wire}
    (still : ∀ w, (count w).link = w.link) :
    ∃ frames, (((w.send? r).map count).getD w).link.sent = w.link.sent ++ frames
      ∧ ∀ x ∈ frames, x = r := by
  unfold send? Link.send?
  split
  · exact ⟨[r], congrArg Link.sent (still _), fun x hx => List.mem_singleton.mp hx⟩
  · exact ⟨[], (List.append_nil _).symm, nofun⟩

theorem dropped_send (w : Wire) (r : Request) {count : Wire → Wire}
    (still : ∀ w, (count w).stats.droppedResponses = w.stats.droppedResponses) :
    (((w.send? r).map count).getD w).stats.droppedResponses = w.stats.droppedResponses := by
  unfold Wire.send? Link.send?
  split
  · exact still _
  · rfl

theorem passed_send (acc : Sending Wire) (p : Path) :
    Passed nothing acc (send Wire.sink acc p) := by
  obtain ⟨l, w⟩ := acc
  have number : (Wire.sink.listen p w).1 = w.requests.lastId + 1 := Wire.listen_id w p
  have requests := requests_listen w p
  have awaited := send_awaited Wire.sink (l, w) p
  refine ⟨fun r hr => Or.inr ?_, ?_, fun d => ⟨?_, fun id hid => ?_⟩, ?_⟩
  · rcases hr with ⟨q, same, mem⟩ | ⟨other, owner⟩
    · exact Or.inl ⟨q, same, awaited ▸ List.mem_append_left _ mem⟩
    · refine Or.inr ⟨other, ?_⟩
      rw [send_wire, requests]
      exact owner
  · have still : ∀ w, (Wire.countListen w).link = w.link := fun _ => rfl
    obtain ⟨frames, sent, only⟩ := Wire.sent_or_lost { w with requests := w.requests.allocate.2 }
      (.listen (w.requests.lastId + 1) p) still
    refine ⟨frames, sent, fun r hr => Or.inl ⟨p, ?_, ?_⟩⟩
    · rw [only r hr]
      rfl
    · rw [awaited, number, only r hr]
      exact List.mem_append_right _ (List.mem_singleton_self _)
  · -- the new number is larger than all that are foreign
    have fresh : w.requests.lastId + 1 ∉ foreign (l, w) := fun old =>
      Nat.not_succ_le_self _ (d.numbered _ old)
    rw [foreign, awaited, number, send_wire, requests, List.map_append, List.append_assoc]
    exact (List.perm_middle.nodup_iff).mpr (List.nodup_cons.mpr ⟨fresh, d.nodup⟩)
  · rcases (grown_send (l, w) p).foreign id hid with old | ⟨_, le⟩
    · exact Nat.le_trans (d.numbered id old) (Wire.kept_listen w p).lastId
    · exact le
  · exact dropped_send _ _ fun _ => rfl

theorem passed_untracked {l : Listens} {w w' : Wire} {r : Request} (other : r.action ≠ .listen)
    (number : r.id = w.requests.lastId + 1)
    (requests : w'.requests = w.requests.allocateUntracked.2)
    (left : ∃ frames, w'.link.sent = w.link.sent ++ frames ∧ ∀ x ∈ frames, x = r)
    (dropped : w'.stats.droppedResponses = w.stats.droppedResponses) :
    Passed nothing (l, w) (l, w') := by
  refine ⟨fun x hx => Or.inr ?_, ?_, fun d => ⟨?_, fun id hid => ?_⟩, dropped⟩
  · refine hx.imp_right fun ⟨other, owner⟩ => ⟨other, ?_⟩
    rw [requests]
    exact owner.imp_left (List.mem_cons_of_mem _)
  · obtain ⟨frames, sent, only⟩ := left
    refine ⟨frames, sent, fun x hx => Or.inr ?_⟩
    rw [only x hx, requests, number]
    exact ⟨other, Or.inl List.mem_cons_self⟩
  · have fresh : w.requests.lastId + 1 ∉ foreign (l, w) := fun old =>
      Nat.not_succ_le_self _ (d.numbered _ old)
    rw [foreign, requests]
    exact (List.perm_middle.nodup_iff).mpr (List.nodup_cons.mpr ⟨fresh, d.nodup⟩)
  · rw [foreign, requests, List.mem_append, Requests.allocateUntracked, List.mem_cons] at hid
    rw [requests]
    rcases hid with old | rfl | old
    · exact Nat.le_succ_of_le (d.numbered id (List.mem_append_left _ old))
    · exact Nat.le_refl _
    · exact Nat.le_succ_of_le (d.numbered id (List.mem_append_right _ old))

theorem passed_unlisten (l : Listens) (w : Wire) (p : Path) :
    Passed nothing (l, w) (l, Wire.sink.unlisten p w) := by
  let next : Wire := { w with requests := w.requests.allocateUntracked.2 }
  refine passed_untracked (r := .unlisten (w.requests.lastId + 1) p) nofun rfl ?_
    (next.sent_or_lost _ fun _ => rfl) (dropped_send next _ fun _ => rfl)
  unfold Wire.sink Wire.unlisten Wire.send? Link.send?
  cases h : w.link.isOpen <;> simp [Requests.allocateUntracked, Wire.countUnlisten, h]

theorem passed_keepalive (l : Listens) (w : Wire) : Passed nothing (l, w) (l, w.keepalive) := by
  let next : Wire := { w with requests := w.requests.allocateUntracked.2 }
  refine passed_untracked (r := .keepalive (w.requests.lastId + 1)) nofun rfl ?_
    (next.sent_or_lost _ fun _ => rfl) (dropped_send next _ fun _ => rfl)
  unfold Wire.keepalive Wire.send? Link.send?
  cases h : w.link.isOpen <;> simp [Requests.allocateUntracked, Wire.countKeepalive, h]

theorem passed_fly {l : Listens} {w w' : Wire} {r : Waiting} (other : r.request.action ≠ .listen)
    (requests : w'.requests = w.requests.fly r)
    (sent : w'.link.sent = w.link.sent ++ [r.request])
    (dropped : w'.stats.droppedResponses = w.stats.droppedResponses) :
    Passed nothing (l, w) (l, w') := by
  refine ⟨fun x hx => Or.inr ?_, ⟨[r.request], sent, fun x hx => Or.inr ?_⟩, fun d => ?_, dropped⟩
  · refine hx.imp_right fun ⟨other, owner⟩ => ⟨other, ?_⟩
    rw [requests]
    exact owner.imp_right fun ⟨v, hv, id⟩ => ⟨v, Waiting.mem_place.mpr (Or.inr hv), id⟩
  · rw [List.mem_singleton.mp hx, requests]
    exact ⟨other, Or.inr ⟨r, Waiting.mem_place.mpr (Or.inl rfl), rfl⟩⟩
  · have same : foreign (l, w') = foreign (l, w) := by
      rw [foreign, requests]
      rfl
    refine ⟨same ▸ d.nodup, fun id hid => ?_⟩
    rw [requests]
    exact d.numbered id (same ▸ hid)

theorem passed_dispatch (connected : Bool) (l : Listens) (w : Wire) {r : Waiting}
    (other : r.request.action ≠ .listen) :
    Passed nothing (l, w) (l, Wire.dispatch connected w r) := by
  unfold Wire.dispatch
  split
  · rename_i hs
    cases connected with
    | false => cases hs
    | true =>
      obtain ⟨link, hl, rfl⟩ := Option.map_eq_some_iff.mp hs
      have sent : link.sent = w.link.sent ++ [r.request] := by
        unfold Link.send? at hl
        split at hl
        · cases hl
          rfl
        · cases hl
      refine passed_fly other rfl ?_ ?_
      · unfold Wire.countWrite
        split <;> exact sent
      · unfold Wire.countWrite
        split <;> rfl
  · exact ⟨fun x hx => Or.inr hx, ⟨[], (List.append_nil _).symm, nofun⟩,
      fun d => ⟨d.nodup, d.numbered⟩, rfl⟩

theorem passed_foldl (l : Listens) (w : Wire) {rs : List Waiting}
    (other : ∀ r ∈ rs, r.request.action ≠ .listen) :
    Passed nothing (l, w) (l, rs.foldl (Wire.dispatch true) w) := by
  induction rs generalizing w with
  | nil => exact .refl _
  | cons r rs ih =>
    obtain ⟨first, rest⟩ := List.forall_mem_cons.mp other
    exact (passed_dispatch true l w first).trans (ih _ rest)

/-- The tables of requests in flight and of answers that are dropped have lost an answered number,
or the queue has changed. -/
theorem Passed.retabled (l : Listens) (w : Wire) {requests : Requests}
    (untracked : requests.untracked.Sublist w.requests.untracked)
    (lastId : w.requests.lastId ≤ requests.lastId)
    (kept : ∀ r : Request, r.action ≠ .listen → (r.id ∈ w.requests.untracked
      ∨ ∃ v ∈ w.requests.inFlight, v.id = r.id) → gone r ∨ r.id ∈ requests.untracked
        ∨ ∃ v ∈ requests.inFlight, v.id = r.id) :
    Passed gone (l, w) (l, { w with requests := requests }) where
  kept r hr := by
    rcases hr with awaited | ⟨other, owner⟩
    · exact Or.inr (Or.inl awaited)
    · exact (kept r other owner).imp_right fun owner => Or.inr ⟨other, owner⟩
  left := ⟨[], (List.append_nil _).symm, nofun⟩
  distinct d :=
    have sub : (foreign (l, { w with requests := requests })).Sublist (foreign (l, w)) :=
      untracked.append_left _
    ⟨d.nodup.sublist sub, fun id hid => Nat.le_trans (d.numbered id (sub.subset hid)) lastId⟩
  dropped := rfl

theorem passed_submit (connected : Bool) (l : Listens) (w : Wire) (make : RequestId → Request)
    (other : (make (w.requests.lastId + 1)).action ≠ .listen) (observed : Bool) :
    Passed nothing (l, w) (l, (w.submit connected make observed).2) := by
  have numbered : Passed nothing (l, w) (l, { w with requests := w.requests.allocate.2 }) :=
    .retabled l w (List.Sublist.refl _) (Nat.le_succ _) fun _ _ owner => Or.inr owner
  exact numbered.trans (passed_dispatch connected l _ other)

/-- The requests whose answers an operation takes, or gives up. -/
def Listens.Action.gives (acc : Sending Wire) : Listens.Action → Request → Prop
  | .answer id _, r => r.id = id
  | .release p, r =>
    r.action = .listen ∧ r.path = some p ∧ (acc.1.get? p).any (fun i => decide (i.refCount ≤ 1))
  | .suspend, _ => True
  | .clear, _ => True
  | _, _ => False

theorem Listens.Move.passed {again : Prop} (m : Move Wire.sink again acc acc') :
    Passed nothing acc acc' := by
  cases m with
  | send => exact passed_send _ _
  | need | yield => exact .same rfl rfl rfl rfl
  | @mask l w q p s =>
    have status : Passed nothing (l, w) (l.setStatus p .masked, w) := .same rfl rfl rfl rfl
    split
    · exact status.trans (passed_unlisten _ _ _)
    · exact status

theorem Listens.moves_passed {again : Prop} (m : ReflTransGen (Move Wire.sink again) acc acc') :
    Passed nothing acc acc' := by
  induction m with
  | refl => exact .refl _
  | tail _ m ih => exact ih.trans m.passed

theorem passed_forget {id : RequestId} {ok : Bool} (awaited : l'.awaited = (l.forget id).awaited)
    (w : Wire) : Passed (Listens.Action.gives (l, w) (.answer id ok)) (l, w) (l', w) := by
  refine .shrunk ?_ (fun e he => ?_) w
  · rw [awaited]
    exact List.filter_sublist
  · by_cases same : e.1 = id
    · exact Or.inl same
    · rw [awaited]
      exact Or.inr (List.mem_filter.mpr ⟨he, bne_iff_ne.mpr same⟩)

theorem Listens.Opening.passed {a : Listens.Action} {rest : Rest}
    (o : Opening Wire.sink a acc acc' rest) : Passed (a.gives acc) acc acc' := by
  cases o with
  | hold | add | stray | drop | unknown | resume => exact .same rfl rfl rfl rfl
  | @close l w p i h last =>
    have removed : Passed (Listens.Action.gives (l, w) (.release p)) (l, w) (l.remove p, w) := by
      refine .shrunk List.filter_sublist (fun e he => ?_) w
      by_cases same : e.2 = p
      · refine Or.inl ⟨rfl, congrArg some same, ?_⟩
        rw [h]
        exact decide_eq_true last
      · exact Or.inr (List.mem_filter.mpr ⟨he, bne_iff_ne.mpr same⟩)
    split
    · exact removed.trans (passed_unlisten _ _ _)
    · exact removed
  | stale | accept | refuse | lapse =>
    refine passed_forget ?_ _
    rfl
  | @late l w id p =>
    have forgotten : Passed (Listens.Action.gives (l, w) (.answer id true)) (l, w)
        ((l.forget id).setRequest p none, w) := by
      refine passed_forget ?_ w
      rfl
    exact forgotten.trans (passed_unlisten _ _ _)
  | suspend | clear => exact .shrunk (List.nil_sublist _) (fun _ _ => Or.inl trivial) _

theorem Listens.Action.passed (a : Listens.Action) (sound : acc.1.items.Sound) :
    Passed (a.gives acc) acc (a.run Wire.sink acc) := by
  obtain ⟨mid, rest, o, he⟩ := run_opens Wire.sink a acc
  rw [he]
  exact o.passed.trans (moves_passed (Rest.moves Wire.sink True rest (o.sound sound)
    (o.ready sound) fun _ hn => absurd trivial hn))

/-- Nobody takes the answers to the listens of a path whose last reference is dropped. -/
theorem Listens.released {p : Path} {i : Listen} {id : RequestId} (sound : acc.1.items.Sound)
    (distinct : Distinct acc) (item : acc.1.get? p = some i) (last : i.refCount ≤ 1)
    (mem : (id, p) ∈ acc.1.awaited) :
    id ∉ foreign ((Listens.Action.release p).run Wire.sink acc) := by
  obtain ⟨once, _, apart⟩ := List.nodup_append.mp distinct.nodup
  have mem' : id ∈ acc.1.awaited.map Prod.fst := List.mem_map_of_mem mem
  have gone : id ∉ foreign (acc.1.remove p, acc.2) := by
    intro hid
    rcases List.mem_append.mp hid with hid | hid
    · obtain ⟨⟨_, q⟩, hq, rfl⟩ := List.mem_map.mp hid
      obtain ⟨hq, other⟩ := List.mem_filter.mp hq
      exact bne_iff_ne.mp other (eq_of_awaited once hq mem)
    · exact apart id mem' id hid rfl
  obtain ⟨mid, rest, o, he⟩ := run_opens Wire.sink (.release p) acc
  have moves := moves_grown (Rest.moves Wire.sink True rest (o.sound sound) (o.ready sound)
    fun _ hn => absurd trivial hn)
  have closed : Grown (acc.1.remove p, acc.2) mid := by
    cases o with
    | stray none =>
      rw [none] at item
      cases item
    | drop some more =>
      rw [some] at item
      cases item
      exact absurd more (Nat.not_lt_of_le last)
    | close =>
      split
      · exact grown_unlisten (fun _ he => he) _ _
      · exact .refl _
  rw [he]
  intro hid
  rcases (closed.trans moves).foreign id hid with hid | ⟨above, _⟩
  · exact gone hid
  · exact Nat.not_le_of_lt above (distinct.numbered id (List.mem_append_left _ mem'))

end Passed

end LiveTree
