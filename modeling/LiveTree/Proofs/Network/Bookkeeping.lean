import LiveTree.Proofs.Network.Steps

/-!
# The books of a session

What a session keeps beside its listens: the references that its subscriptions hold, and the numbers
of the requests that wait, which are never those of listens. Operations on the listens leave the
books in order, and so does sending.
-/

namespace LiveTree

namespace Listens

open Relation

def refs (l : Listens) (p : Path) : Nat := ((l.get? p).map (·.refCount)).getD 0

section Refs
variable {σ : Type} {sink : Sink σ} {acc acc' : Sending σ}

theorem refs_modify (l : Listens) (p q : Path) (f : Listen → Listen)
    (h : ∀ i, (f i).refCount = i.refCount) : (l.modify p f).refs q = l.refs q := by
  simp only [refs, get?_modify]
  split
  · rename_i hqp
    subst hqp
    cases l.get? q with
    | none => rfl
    | some i => simp [h]
  · rfl

theorem refs_setStatus (l : Listens) (p q : Path) (s : ListenStatus) :
    (l.setStatus p s).refs q = l.refs q := refs_modify l p q _ fun _ => rfl

theorem refs_setRequest (l : Listens) (p q : Path) (r : Option RequestId) :
    (l.setRequest p r).refs q = l.refs q := refs_modify l p q _ fun _ => rfl

theorem Move.refs {again : Prop} (m : Move sink again acc acc') (q : Path) :
    acc'.1.refs q = acc.1.refs q := by
  cases m with
  | @send l w p =>
    have h : (Listens.send sink (l, w) p).1.refs q = ((l.setStatus p .pending).setRequest p
        (some (sink.listen p w).1)).refs q := rfl
    rw [h, refs_setRequest, refs_setStatus]
  | need | mask | yield => exact refs_setStatus _ _ _ _

theorem moves_refs {again : Prop} (m : ReflTransGen (Move sink again) acc acc') (q : Path) :
    acc'.1.refs q = acc.1.refs q := by
  induction m with
  | refl => rfl
  | tail _ m ih => exact (m.refs q).trans ih

/-- What an operation does to the references. -/
def Action.counts (a : Action) (l : Listens) (q : Path) : Nat :=
  match a with
  | .acquire p => if q = p then l.refs q + 1 else l.refs q
  | .release p => if q = p then l.refs q - 1 else l.refs q
  | .clear => 0
  | _ => l.refs q

theorem Opening.refs {a : Action} {rest : Rest} (o : Opening sink a acc acc' rest)
    (sound : acc.1.items.Sound) (q : Path) : acc'.1.refs q = a.counts acc.1 q := by
  cases o with
  | @hold l w p hp =>
    obtain ⟨i, hi⟩ := hp
    simp only [Listens.refs, get?_modify, Action.counts]
    split
    · rename_i hqp
      subst hqp
      change l.get? q = some i at hi
      simp [hi]
    · rfl
  | @add l w p hp =>
    simp only [Listens.refs, get?_withNew sound hp, Action.counts]
    split
    · rename_i hqp
      subst hqp
      change l.get? q = none at hp
      simp [hp]
    · rfl
  | @stray l w p hp =>
    simp only [Action.counts]
    split
    · rename_i hqp
      subst hqp
      change l.get? q = none at hp
      simp [Listens.refs, hp]
    · rfl
  | @drop l w p i hp =>
    simp only [Listens.refs, get?_modify, Action.counts]
    split
    · rename_i hqp
      subst hqp
      change l.get? q = some i at hp
      simp [hp]
    · rfl
  | @close l w p i hp last =>
    simp only [Listens.refs, get?_remove sound, Action.counts]
    split
    · rename_i hqp
      subst hqp
      change l.get? q = some i at hp
      simp only [hp, Option.map_some, Option.map_none, Option.getD_some, Option.getD_none]
      omega
    · rfl
  | unknown | stale | resume | clear => rfl
  | accept | refuse =>
    exact (refs_setStatus _ _ _ _).trans (refs_setRequest _ _ _ _)
  | late | lapse => exact refs_setRequest _ _ _ _
  | @suspend l w =>
    simp only [Listens.refs, get?_suspend, Action.counts, Option.map_map]
    rfl

theorem Action.refs (sink : Sink σ) (a : Action) (sound : acc.1.items.Sound) (q : Path) :
    (a.run sink acc).1.refs q = a.counts acc.1 q := by
  obtain ⟨mid, rest, o, he⟩ := run_opens sink a acc
  rw [he, ← o.refs sound q]
  exact moves_refs (Rest.moves sink True rest (o.sound sound) (o.ready sound)
    fun _ hn => absurd trivial hn) q

end Refs

theorem get?_of_refs {l : Listens} {p : Path} (h : 0 < l.refs p) : ∃ i, l.get? p = some i := by
  cases hg : l.get? p with
  | none => simp [refs, hg] at h
  | some i => exact ⟨i, rfl⟩

end Listens

theorem Waiting.mem_place {w x : Waiting} {ws : List Waiting} :
    x ∈ w.place ws ↔ x = w ∨ x ∈ ws := by
  induction ws with
  | nil => simp [Waiting.place]
  | cons y ws ih =>
    rw [Waiting.place]
    split
    · simp
    · rw [List.mem_cons, ih, List.mem_cons]
      exact or_left_comm

theorem Waiting.mem_foldr_place {x : Waiting} (ws vs : List Waiting) :
    x ∈ ws.foldr Waiting.place vs ↔ x ∈ ws ∨ x ∈ vs := by
  induction ws with
  | nil => simp
  | cons w ws ih => rw [List.foldr_cons, mem_place, ih, List.mem_cons, or_assoc]

theorem Requests.mem_all {r : Requests} {x : Waiting} :
    x ∈ r.all ↔ x ∈ r.inFlight ∨ x ∈ r.queued := List.mem_append

/-- Requests that are no listens and have none of their numbers. -/
def Apart (acc : Listens.Sending Wire) (rs : List Waiting) : Prop :=
  ∀ r ∈ rs, r.id ≤ acc.2.requests.lastId ∧ acc.1.awaits r.id = false
    ∧ r.request.action ≠ .listen ∧ r.request.action ≠ .unlisten

section Apart
variable {l l' : Listens} {w w' : Wire} {rs : List Waiting}

theorem Apart.mono (h : Apart (l, w) rs) {rs' : List Waiting} (sub : ∀ r ∈ rs', r ∈ rs)
    (awaited : ∀ a ∈ l'.awaited, a ∈ l.awaited)
    (lastId : w.requests.lastId ≤ w'.requests.lastId) : Apart (l', w') rs' := by
  intro r hr
  obtain ⟨hle, hw, ha⟩ := h r (sub r hr)
  refine ⟨Nat.le_trans hle lastId, ?_, ha⟩
  cases hr' : l'.awaits r.id with
  | false => rfl
  | true =>
    obtain ⟨p, hp⟩ := Listens.awaits_iff.mp hr'
    have : l.awaits r.id = true := Listens.awaits_iff.mpr ⟨p, awaited _ hp⟩
    rw [hw] at this
    cases this

end Apart

/-- What operations on the listens leave of the wire: the requests that wait, and an open link. -/
structure Wire.Kept (w w' : Wire) : Prop where
  inFlight : w'.requests.inFlight = w.requests.inFlight
  queued : w'.requests.queued = w.requests.queued
  lastId : w.requests.lastId ≤ w'.requests.lastId
  isOpen : w'.link.isOpen = w.link.isOpen

theorem Wire.Kept.refl (w : Wire) : w.Kept w := ⟨rfl, rfl, Nat.le_refl _, rfl⟩

theorem Wire.Kept.trans {u v w : Wire} (h : u.Kept v) (h' : v.Kept w) : u.Kept w :=
  ⟨h'.inFlight.trans h.inFlight, h'.queued.trans h.queued, Nat.le_trans h.lastId h'.lastId,
    h'.isOpen.trans h.isOpen⟩

theorem Wire.Kept.all {w w' : Wire} (h : w.Kept w') : w'.requests.all = w.requests.all := by
  rw [Requests.all, Requests.all, h.inFlight, h.queued]

theorem Wire.kept_listen (w : Wire) (p : Path) : w.Kept (sink.listen p w).2 := by
  unfold sink Wire.listen Wire.send? Link.send?
  refine ⟨?_, ?_, ?_, ?_⟩ <;> cases h : w.link.isOpen <;>
    simp [Requests.allocate, countListen, h]

theorem Wire.kept_unlisten (w : Wire) (p : Path) : w.Kept (sink.unlisten p w) := by
  unfold sink Wire.unlisten Wire.send? Link.send?
  refine ⟨?_, ?_, ?_, ?_⟩ <;> cases h : w.link.isOpen <;>
    simp [Requests.allocateUntracked, countUnlisten, h]

/-- The numbers that a wire has given out. -/
def Wire.Issued (w : Wire) (id : RequestId) : Prop := id ≤ w.requests.lastId

theorem Wire.sink_fresh : Wire.sink.Fresh Wire.Issued where
  new p w := Nat.not_succ_le_self _
  recorded p w := by
    have : (Wire.sink.listen p w).2.requests.lastId = w.requests.lastId + 1 := by
      unfold sink Wire.listen Wire.send? Link.send?
      cases h : w.link.isOpen <;> simp [Requests.allocate, countListen, h]
    exact Nat.le_of_eq (this ▸ rfl)
  listen p w id h := Nat.le_trans h (kept_listen w p).lastId
  unlisten p w id h := Nat.le_trans h (kept_unlisten w p).lastId

namespace Listens

open Relation

section Operations
variable {acc acc' : Sending Wire} {rs : List Waiting}

theorem Move.kept {again : Prop} (m : Move Wire.sink again acc acc') : acc.2.Kept acc'.2 := by
  cases m with
  | send => exact Wire.kept_listen _ _
  | need | yield => exact .refl _
  | mask =>
    split
    · exact Wire.kept_unlisten _ _
    · exact .refl _

theorem Opening.kept {a : Action} {rest : Rest} (o : Opening Wire.sink a acc acc' rest) :
    acc.2.Kept acc'.2 := by
  cases o with
  | close =>
    split
    · exact Wire.kept_unlisten _ _
    · exact .refl _
  | late => exact Wire.kept_unlisten _ _
  | _ => exact .refl _

theorem Opening.awaited_sub {a : Action} {rest : Rest} (o : Opening Wire.sink a acc acc' rest) :
    ∀ x ∈ acc'.1.awaited, x ∈ acc.1.awaited := by
  cases o with
  | close | stale | accept | refuse | late | lapse => exact fun x hx => (List.mem_filter.mp hx).1
  | suspend | clear => exact nofun
  | _ => exact fun x hx => hx

theorem Move.apart {again : Prop} (m : Move Wire.sink again acc acc') (h : Apart acc rs) :
    Apart acc' rs := by
  cases m with
  | @send l w p =>
    intro r hr
    obtain ⟨hle, hw, ha⟩ := h r hr
    refine ⟨Nat.le_trans hle (Wire.kept_listen w p).lastId, ?_, ha⟩
    have hne : (w.requests.lastId + 1 == r.id) = false :=
      beq_eq_false_iff_ne.mpr (Nat.ne_of_lt (Nat.lt_succ_of_le hle)).symm
    rw [awaits, send_awaited, List.any_append, ← awaits, hw]
    simp only [List.any_cons, List.any_nil, Wire.listen_id, hne, Bool.or_false]
  | need | yield => exact h
  | mask =>
    refine h.mono (fun _ hr => hr) (fun _ ha => ha) ?_
    split
    · exact (Wire.kept_unlisten _ _).lastId
    · exact Nat.le_refl _

theorem moves_apart {again : Prop} (m : ReflTransGen (Move Wire.sink again) acc acc')
    (h : Apart acc rs) : Apart acc' rs ∧ acc.2.Kept acc'.2 := by
  induction m with
  | refl => exact ⟨h, .refl _⟩
  | tail _ m ih => exact ⟨m.apart ih.1, ih.2.trans m.kept⟩

theorem Action.apart (a : Action) (sound : acc.1.items.Sound) (h : Apart acc rs) :
    Apart (a.run Wire.sink acc) rs ∧ acc.2.Kept (a.run Wire.sink acc).2 := by
  obtain ⟨mid, rest, o, he⟩ := run_opens Wire.sink a acc
  rw [he]
  have hmid : Apart mid rs := h.mono (fun _ hr => hr) o.awaited_sub o.kept.lastId
  have hend := moves_apart (Rest.moves Wire.sink True rest (o.sound sound) (o.ready sound)
    fun _ hn => absurd trivial hn) hmid
  exact ⟨hend.1, o.kept.trans hend.2⟩

end Operations

end Listens

end LiveTree
