import LiveTree.Proofs.Network.Sending
import LiveTree.Proofs.Session.Conservation

/-!
# What leaves on a wire

Frames only ever come behind those that have left. Operations on the listens and keepalives send no
writes, and a new connection sends a listen for each path whose answer is awaited from then on. A
queue that is in the order of the numbers stays so when requests are put in their places.
-/

namespace LiveTree

open Listens Relation

/-- The writes among frames. -/
def writesOf (frames : List Request) : List Request := frames.filter (·.action.isWrite)

theorem writesOf_append (frames more : List Request) :
    writesOf (frames ++ more) = writesOf frames ++ writesOf more :=
  List.filter_append _ _

/-- Frames have left, and these were the writes among them. -/
def Wire.Writes (w w' : Wire) (writes : List Request) : Prop :=
  ∃ frames, w'.link.sent = w.link.sent ++ frames ∧ writesOf frames = writes

section Wire
variable {u v w w' : Wire}

theorem Wire.Writes.of_link (h : w'.link.sent = w.link.sent) : w.Writes w' [] :=
  ⟨[], h.trans (List.append_nil _).symm, rfl⟩

theorem Wire.Writes.still {writes : List Request} (h : u.Writes v writes)
    (sent : w.link.sent = v.link.sent) : u.Writes w writes := by
  obtain ⟨frames, same, rfl⟩ := h
  exact ⟨frames, sent.trans same, rfl⟩

theorem Wire.Writes.trans {writes more : List Request} (h : u.Writes v writes)
    (h' : v.Writes w more) : u.Writes w (writes ++ more) := by
  obtain ⟨frames, sent, rfl⟩ := h
  obtain ⟨frames', sent', rfl⟩ := h'
  refine ⟨frames ++ frames', ?_, writesOf_append _ _⟩
  rw [sent', sent, List.append_assoc]

theorem Wire.writes_other (w : Wire) {r : Request} (other : r.action.isWrite = false)
    {count : Wire → Wire} (still : ∀ w, (count w).link = w.link) :
    w.Writes (((w.send? r).map count).getD w) [] := by
  unfold send? Link.send?
  split
  · exact ⟨[r], congrArg Link.sent (still _), List.filter_eq_nil_iff.mpr (by simp [other])⟩
  · exact .of_link rfl

theorem Wire.writes_listen (w : Wire) (p : Path) : w.Writes (sink.listen p w).2 [] :=
  writes_other { w with requests := w.requests.allocate.2 } rfl fun _ => rfl

theorem Wire.writes_unlisten (w : Wire) (p : Path) : w.Writes (sink.unlisten p w) [] :=
  writes_other { w with requests := w.requests.allocateUntracked.2 } rfl fun _ => rfl

theorem Wire.writes_keepalive (w : Wire) : w.Writes w.keepalive [] :=
  writes_other { w with requests := w.requests.allocateUntracked.2 } rfl fun _ => rfl

theorem Wire.sent_dispatch (isOpen : w.link.isOpen = true) (r : Waiting) :
    (dispatch true w r).link.sent = w.link.sent ++ [r.request] := by
  rw [dispatch_open isOpen]
  unfold countWrite
  split <;> rfl

theorem Wire.sent_submit (isOpen : w.link.isOpen = true) (make : RequestId → Request)
    (observed : Bool) : (w.submit true make observed).2.link.sent
      = w.link.sent ++ [make (w.requests.lastId + 1)] :=
  sent_dispatch (w := { w with requests := w.requests.allocate.2 }) isOpen _

theorem Wire.sent_dispatches (isOpen : w.link.isOpen = true) (rs : List Waiting) :
    (rs.foldl (dispatch true) w).link.sent = w.link.sent ++ rs.map (·.request) := by
  induction rs generalizing w with
  | nil => exact (List.append_nil _).symm
  | cons r rs ih =>
    have still : (dispatch true w r).link.isOpen = true :=
      (took_dispatch true w r).isOpen.trans isOpen
    rw [List.foldl_cons, ih still, sent_dispatch isOpen, List.append_assoc]
    rfl

end Wire

/-- What holds between wires for a listen and an unlisten holds for operations on the listens. -/
theorem Listens.Action.wire_rel {σ : Type} {sink : Sink σ} {R : σ → σ → Prop}
    (refl : ∀ w, R w w) (trans : ∀ {u v w}, R u v → R v w → R u w)
    (listen : ∀ p w, R w (sink.listen p w).2) (unlisten : ∀ p w, R w (sink.unlisten p w))
    (a : Listens.Action) (acc : Sending σ) (sound : acc.1.items.Sound) :
    R acc.2 (a.run sink acc).2 := by
  obtain ⟨mid, rest, opening, same⟩ := run_opens sink a acc
  have first : R acc.2 mid.2 := by
    cases opening with
    | close =>
      split
      · exact unlisten _ _
      · exact refl _
    | late => exact unlisten _ _
    | _ => exact refl _
  have step : ∀ {x y : Sending σ}, Move sink True x y → R x.2 y.2 := by
    intro x y move
    cases move with
    | send => exact listen _ _
    | need | yield => exact refl _
    | mask =>
      split
      · exact unlisten _ _
      · exact refl _
  have run : ∀ {x y : Sending σ}, ReflTransGen (Move sink True) x y → R x.2 y.2 := by
    intro x y moves
    induction moves with
    | refl => exact refl _
    | tail _ move ih => exact trans ih (step move)
  rw [same]
  exact trans first (run (Rest.moves sink True rest (opening.sound sound) (opening.ready sound)
    fun _ hn => absurd trivial hn))

theorem Listens.Action.writes (a : Listens.Action) (acc : Sending Wire)
    (sound : acc.1.items.Sound) : acc.2.Writes (a.run Wire.sink acc).2 [] := by
  refine @Listens.Action.wire_rel Wire Wire.sink (fun v w => v.Writes w []) ?_ ?_ ?_ ?_ a acc sound
  · exact fun w => .of_link rfl
  · exact fun h h' => h.trans h'
  · exact fun p w => w.writes_listen p
  · exact fun p w => w.writes_unlisten p

/-- Each listen that has left is awaited, and nothing else has left. -/
def Listened (acc acc' : Sending Wire) : Prop :=
  ∃ sent : List (RequestId × Path), acc'.1.awaited = acc.1.awaited ++ sent
    ∧ acc'.2.link.sent = acc.2.link.sent ++ sent.map fun e => Request.listen e.1 e.2

theorem Listened.same {acc acc' : Sending Wire} (awaited : acc'.1.awaited = acc.1.awaited)
    (wire : acc'.2 = acc.2) : Listened acc acc' :=
  ⟨[], awaited.trans (List.append_nil _).symm, by rw [wire]; exact (List.append_nil _).symm⟩

theorem Listened.trans {acc mid acc' : Sending Wire} (h : Listened acc mid)
    (h' : Listened mid acc') : Listened acc acc' := by
  obtain ⟨sent, awaited, frames⟩ := h
  obtain ⟨sent', awaited', frames'⟩ := h'
  refine ⟨sent ++ sent', ?_, ?_⟩
  · rw [awaited', awaited, List.append_assoc]
  · rw [frames', frames, List.append_assoc, List.map_append]

theorem listened_resumeOne {acc : Sending Wire} (isOpen : acc.2.link.isOpen = true) (p : Path) :
    Listened acc (resumeOne Wire.sink acc p)
      ∧ (resumeOne Wire.sink acc p).2.link.isOpen = true := by
  unfold resumeOne
  split
  · split
    · split
      · exact ⟨.same rfl rfl, isOpen⟩
      · refine ⟨⟨[_], send_awaited _ _ _, ?_⟩, ?_⟩
        · rw [send_wire, (Wire.sent_listen isOpen p).link]
          rfl
        · exact (Wire.kept_listen _ _).isOpen.trans isOpen
    · exact ⟨.same rfl rfl, isOpen⟩
  · exact ⟨.same rfl rfl, isOpen⟩

theorem listened_resume (l : Listens) {w : Wire} (isOpen : w.link.isOpen = true) :
    Listened (l, w) (l.resume Wire.sink w)
      ∧ (l.resume Wire.sink w).2.link.isOpen = true := by
  suffices loop : ∀ (paths : List Path) {acc : Sending Wire}, acc.2.link.isOpen = true →
      Listened acc (paths.foldl (resumeOne Wire.sink) acc)
        ∧ (paths.foldl (resumeOne Wire.sink) acc).2.link.isOpen = true by
    obtain ⟨sent, still⟩ := @loop l.items.keys ({ l with online := true }, w) isOpen
    exact ⟨(Listened.same rfl rfl).trans sent, still⟩
  intro paths
  induction paths with
  | nil => exact fun isOpen => ⟨.same rfl rfl, isOpen⟩
  | cons p paths ih =>
    intro acc isOpen
    obtain ⟨first, still⟩ := listened_resumeOne isOpen p
    obtain ⟨rest, still⟩ := ih still
    exact ⟨first.trans rest, still⟩

theorem Waiting.ordered_place {w : Waiting} {ws : List Waiting}
    (h : ws.Pairwise fun a b => a.id < b.id) (new : ∀ x ∈ ws, x.id ≠ w.id) :
    (w.place ws).Pairwise fun a b => a.id < b.id := by
  induction ws with
  | nil => exact List.pairwise_singleton _ _
  | cons x ws ih =>
    obtain ⟨first, rest⟩ := List.pairwise_cons.mp h
    obtain ⟨ne, others⟩ := List.forall_mem_cons.mp new
    rw [place]
    split
    · rename_i le
      have before : w.id < x.id := Nat.lt_of_le_of_ne le ne.symm
      refine List.pairwise_cons.mpr ⟨fun y hy => ?_, h⟩
      rcases List.mem_cons.mp hy with rfl | hy
      · exact before
      · exact Nat.lt_trans before (first y hy)
    · rename_i gt
      refine List.pairwise_cons.mpr ⟨fun y hy => ?_, ih rest others⟩
      rcases mem_place.mp hy with rfl | hy
      · exact Nat.lt_of_not_le gt
      · exact first y hy

theorem Waiting.ordered_foldr_place {rs ws : List Waiting}
    (h : ws.Pairwise fun a b => a.id < b.id) (distinct : ((rs ++ ws).map (·.id)).Nodup) :
    (rs.foldr place ws).Pairwise fun a b => a.id < b.id := by
  induction rs with
  | nil => exact h
  | cons r rs ih =>
    obtain ⟨new, distinct⟩ := List.nodup_cons.mp distinct
    refine ordered_place (ih distinct) fun x hx same => new ?_
    have mem : x ∈ rs ++ ws := List.mem_append.mpr ((mem_foldr_place rs ws).mp hx)
    exact List.mem_map.mpr ⟨x, mem, same⟩

end LiveTree
