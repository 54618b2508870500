import LiveTree.Proofs.Network.Bookkeeping

/-!
# The numbers of a session

A number is handed out once: to a request that waits, to a listen whose answer is awaited, or to a
request whose answer is dropped. The first kind is kept in two tables, whose order does not matter
here; the other two are foreign to them. Operations on the listens leave the tables alone and make
foreign only numbers that are new; sending puts requests into the tables and does nothing else to
them.
-/

namespace LiveTree

open Listens Relation

theorem Waiting.place_perm (w : Waiting) (ws : List Waiting) : (w.place ws).Perm (w :: ws) := by
  induction ws with
  | nil => exact .refl _
  | cons x ws ih =>
    rw [place]
    split
    · exact .refl _
    · exact (ih.cons x).trans (.swap w x ws)

theorem Waiting.foldr_place_perm (ws vs : List Waiting) :
    (ws.foldr place vs).Perm (ws ++ vs) := by
  induction ws with
  | nil => exact .refl _
  | cons w ws ih => exact (place_perm w _).trans (ih.cons w)

/-- The numbers whose answers do not end a request that waits. -/
def foreign (acc : Sending Wire) : List RequestId :=
  acc.1.awaited.map Prod.fst ++ acc.2.requests.untracked

/-- The tables stay, and what becomes foreign is new. -/
structure Grown (acc acc' : Sending Wire) : Prop where
  kept : acc.2.Kept acc'.2
  foreign : ∀ id ∈ foreign acc', id ∈ foreign acc
    ∨ (acc.2.requests.lastId < id ∧ id ≤ acc'.2.requests.lastId)

section Grown
variable {acc acc' acc'' : Sending Wire} {l : Listens} {w : Wire} {p : Path}

theorem mem_foreign {id : RequestId} :
    id ∈ foreign acc ↔ acc.1.awaits id = true ∨ id ∈ acc.2.requests.untracked := by
  rw [foreign, List.mem_append, List.mem_map, awaits_iff]
  refine or_congr_left ⟨?_, ?_⟩
  · rintro ⟨e, he, rfl⟩
    exact ⟨e.2, he⟩
  · rintro ⟨p, hp⟩
    exact ⟨_, hp, rfl⟩

theorem Grown.refl (acc : Sending Wire) : Grown acc acc := ⟨.refl _, fun _ h => Or.inl h⟩

theorem Grown.trans (h : Grown acc acc') (h' : Grown acc' acc'') : Grown acc acc'' := by
  refine ⟨h.kept.trans h'.kept, fun id hid => ?_⟩
  rcases h'.foreign id hid with hid | ⟨above, below⟩
  · exact (h.foreign id hid).imp_right fun ⟨above, below⟩ =>
      ⟨above, Nat.le_trans below h'.kept.lastId⟩
  · exact Or.inr ⟨Nat.lt_of_le_of_lt h.kept.lastId above, below⟩

theorem Grown.same {l l' : Listens} (awaited : ∀ e ∈ l'.awaited, e ∈ l.awaited) (w : Wire) :
    Grown (l, w) (l', w) := by
  refine ⟨.refl w, fun id hid => Or.inl ?_⟩
  rcases List.mem_append.mp hid with hid | hid
  · obtain ⟨e, he, rfl⟩ := List.mem_map.mp hid
    exact List.mem_append_left _ (List.mem_map_of_mem (awaited e he))
  · exact List.mem_append_right _ hid

theorem requests_listen (w : Wire) (p : Path) :
    (Wire.sink.listen p w).2.requests = { w.requests with lastId := w.requests.lastId + 1 } := by
  unfold Wire.sink Wire.listen Wire.send? Link.send?
  cases h : w.link.isOpen <;> simp [Requests.allocate, Wire.countListen, h]

theorem grown_send (acc : Sending Wire) (p : Path) : Grown acc (send Wire.sink acc p) := by
  obtain ⟨l, w⟩ := acc
  refine ⟨w.kept_listen p, fun id hid => ?_⟩
  rw [foreign, send_awaited, send_wire, requests_listen] at hid
  have number : (Wire.sink.listen p w).1 = w.requests.lastId + 1 := Wire.listen_id w p
  simp only [List.map_append, List.mem_append, List.map_cons, List.map_nil, List.mem_singleton,
    number] at hid
  rcases hid with (hid | rfl) | hid
  · exact Or.inl (List.mem_append_left _ hid)
  · rw [send_wire, requests_listen]
    exact Or.inr ⟨Nat.lt_succ_self _, Nat.le_refl _⟩
  · exact Or.inl (List.mem_append_right _ hid)

/-- A request goes out whose answer is dropped, and no answer is awaited that was not. -/
theorem grown_untracked {l l' : Listens} (awaited : ∀ e ∈ l'.awaited, e ∈ l.awaited) {w w' : Wire}
    (requests : w'.requests = w.requests.allocateUntracked.2)
    (isOpen : w'.link.isOpen = w.link.isOpen) : Grown (l, w) (l', w') := by
  refine ⟨⟨?_, ?_, ?_, isOpen⟩, fun id hid => ?_⟩
  · rw [requests]
    rfl
  · rw [requests]
    rfl
  · rw [requests]
    exact Nat.le_succ _
  · rw [foreign, requests] at hid
    rw [requests]
    rcases List.mem_append.mp hid with hid | hid
    · obtain ⟨e, he, rfl⟩ := List.mem_map.mp hid
      exact Or.inl (List.mem_append_left _ (List.mem_map_of_mem (awaited e he)))
    · rcases List.mem_cons.mp hid with rfl | hid
      · exact Or.inr ⟨Nat.lt_succ_self _, Nat.le_refl _⟩
      · exact Or.inl (List.mem_append_right _ hid)

theorem grown_unlisten {l l' : Listens} (awaited : ∀ e ∈ l'.awaited, e ∈ l.awaited) (w : Wire)
    (p : Path) : Grown (l, w) (l', Wire.sink.unlisten p w) := by
  refine grown_untracked awaited ?_ (w.kept_unlisten p).isOpen
  unfold Wire.sink Wire.unlisten Wire.send? Link.send?
  cases h : w.link.isOpen <;> simp [Requests.allocateUntracked, Wire.countUnlisten, h]

theorem grown_keepalive (l : Listens) (w : Wire) : Grown (l, w) (l, w.keepalive) := by
  have both : w.keepalive.requests = w.requests.allocateUntracked.2
      ∧ w.keepalive.link.isOpen = w.link.isOpen := by
    unfold Wire.keepalive Wire.send? Link.send?
    cases h : w.link.isOpen <;> simp [Requests.allocateUntracked, Wire.countKeepalive, h]
  exact grown_untracked (fun _ he => he) both.1 both.2

theorem Listens.Move.grown {again : Prop} (m : Move Wire.sink again acc acc') : Grown acc acc' := by
  cases m with
  | send => exact grown_send _ _
  | need | yield =>
    refine .same ?_ _
    exact fun _ he => he
  | mask =>
    split
    · refine grown_unlisten ?_ _ _
      exact fun _ he => he
    · refine .same ?_ _
      exact fun _ he => he

theorem Listens.moves_grown {again : Prop} (m : ReflTransGen (Move Wire.sink again) acc acc') :
    Grown acc acc' := by
  induction m with
  | refl => exact .refl _
  | tail _ m ih => exact ih.trans m.grown

theorem Listens.Opening.grown {a : Action} {rest : Rest}
    (o : Opening Wire.sink a acc acc' rest) : Grown acc acc' := by
  have awaited := o.awaited_sub
  cases o with
  | close =>
    split
    · exact grown_unlisten awaited _ _
    · exact .same awaited _
  | late => exact grown_unlisten awaited _ _
  | _ => exact .same awaited _

theorem Listens.Action.grown (a : Action) (sound : acc.1.items.Sound) :
    Grown acc (a.run Wire.sink acc) ∧ (a.run Wire.sink acc).1.items.Sound := by
  obtain ⟨mid, rest, o, he⟩ := run_opens Wire.sink a acc
  rw [he]
  have moves := Rest.moves Wire.sink True rest (o.sound sound) (o.ready sound)
    fun _ hn => absurd trivial hn
  exact ⟨o.grown.trans (moves_grown moves), (moves_sound moves (o.sound sound)).1⟩

end Grown

/-- Requests have come into the tables, into the queue only without a connection. -/
structure Wire.Took (connected : Bool) (w w' : Wire) (rs : List Waiting) : Prop where
  all : w'.requests.all.Perm (rs ++ w.requests.all)
  untracked : w'.requests.untracked = w.requests.untracked
  lastId : w'.requests.lastId = w.requests.lastId
  isOpen : w'.link.isOpen = w.link.isOpen
  queued : connected = true → w.link.isOpen = true → w'.requests.queued = w.requests.queued

theorem Requests.all_fly (r : Requests) (w : Waiting) : (r.fly w).all.Perm (w :: r.all) :=
  (w.place_perm r.inFlight).append_right r.queued

theorem Requests.all_enqueue (r : Requests) (w : Waiting) : (r.enqueue w).all.Perm (w :: r.all) :=
  ((w.place_perm r.queued).append_left r.inFlight).trans List.perm_middle

section Sending
variable {connected : Bool} {w w' w'' : Wire}

theorem Wire.took_dispatch (connected : Bool) (w : Wire) (r : Waiting) :
    Took connected w (dispatch connected w r) [r] := by
  unfold dispatch
  split
  · rename_i hs
    cases connected with
    | false => cases hs
    | true =>
      obtain ⟨link, hl, rfl⟩ := Option.map_eq_some_iff.mp hs
      have isOpen : link.isOpen = w.link.isOpen := by
        unfold Link.send? at hl
        split at hl
        · cases hl
          rfl
        · cases hl
      refine ⟨Requests.all_fly _ _, rfl, rfl, ?_, fun _ _ => rfl⟩
      unfold countWrite
      split <;> exact isOpen
  · rename_i hs
    refine ⟨Requests.all_enqueue _ _, rfl, rfl, rfl, ?_⟩
    rintro rfl isOpen
    simp [send?, Link.send?, isOpen] at hs

theorem Wire.Took.trans {rs rs' : List Waiting} (h : Took connected w w' rs)
    (h' : Took connected w' w'' rs') : Took connected w w'' (rs' ++ rs) where
  all := (h'.all.trans (h.all.append_left rs')).trans (.of_eq (List.append_assoc _ _ _).symm)
  untracked := h'.untracked.trans h.untracked
  lastId := h'.lastId.trans h.lastId
  isOpen := h'.isOpen.trans h.isOpen
  queued hc ho := (h'.queued hc (h.isOpen.trans ho)).trans (h.queued hc ho)

theorem Wire.took_foldl (connected : Bool) (w : Wire) (rs : List Waiting) :
    Took connected w (rs.foldl (dispatch connected) w) rs := by
  induction rs generalizing w with
  | nil => exact ⟨.refl _, rfl, rfl, rfl, fun _ _ => rfl⟩
  | cons r rs ih =>
    have both := (took_dispatch connected w r).trans (ih _)
    refine { both with all := both.all.trans (List.Perm.append_right _ ?_) }
    exact List.perm_append_singleton r rs

theorem Wire.took_submit (connected : Bool) (w : Wire) (make : RequestId → Request)
    (observed : Bool) :
    Took connected { w with requests.lastId := w.requests.lastId + 1 }
      (w.submit connected make observed).2 [⟨make (w.requests.lastId + 1), observed⟩] :=
  took_dispatch connected _ _

end Sending

end LiveTree
