import LiveTree.Proofs.Listens.Awaiting
import LiveTree.Proofs.Listens.Covering

/-!
# Coverage in every state that operations lead to

From no listens at all, any operations in any order keep the statuses, the masks and the awaited
requests in step, and a listen goes out only for a path that nothing covers when it is sent. The
sink has to hand out a new request for each listen.

Answers may come for any request, awaited or not, and a connection may be taken while one is there.
-/

namespace LiveTree.Listens

open Relation

variable {σ : Type}

/-- The statuses, the masks and the awaited requests agree. -/
structure Coverage (l : Listens) : Prop where
  /-- What is masked has something above it that is listened to, or is about to be. -/
  masked : ∀ p, l.status? p = some .masked →
    ∃ q s, q.Above p ∧ l.status? q = some s ∧ (s = .required ∨ s = .pending ∨ s = .active)
  /-- What lies below an active path is masked or was refused. -/
  below_active : ∀ p q s, p.Above q → l.status? p = some .active → l.status? q = some s →
    s = .masked ∨ s = .failed
  online : l.online = true → ∀ p, l.status? p ≠ some .required
  offline : l.online = false → (∀ p, l.status? p ≠ some .pending ∧ l.status? p ≠ some .active)
    ∧ (∀ p, l.request? p = none) ∧ l.awaited = []
  /-- A pending path remembers the request whose answer it awaits. -/
  pending : ∀ p, l.status? p = some .pending →
    ∃ id, l.request? p = some id ∧ l.awaited.lookup id = some p
  awaited : ∀ id p, l.awaited.lookup id = some p → ∃ i, l.get? p = some i

inductive Reachable (sink : Sink σ) : Sending σ → Prop where
  | empty (w : σ) : Reachable sink (Listens.empty, w)
  | run {acc : Sending σ} (a : Action) : Reachable sink acc → Reachable sink (a.run sink acc)

/-- A change sends nothing, or an unlisten, or the listen of a path that nothing above it covers. -/
def Guarded (sink : Sink σ) (acc acc' : Sending σ) : Prop :=
  acc'.2 = acc.2 ∨ (∃ p, acc'.2 = sink.unlisten p acc.2)
    ∨ ∃ p, acc.1.isCovered p = false ∧ acc' = send sink acc p

theorem Opening.guarded {sink : Sink σ} {a : Action} {acc mid : Sending σ} {rest : Rest}
    (h : Opening sink a acc mid rest) : Guarded sink acc mid := by
  cases h with
  | @close l w p i =>
    cases l.online && i.status.onWire with
    | true => exact Or.inr (Or.inl ⟨p, rfl⟩)
    | false => exact Or.inl rfl
  | @late l w id p => exact Or.inr (Or.inl ⟨p, rfl⟩)
  | _ => exact Or.inl rfl

theorem Move.guarded {sink : Sink σ} {again : Prop} {acc acc' : Sending σ}
    (h : Move sink again acc acc') : Guarded sink acc acc' := by
  cases h with
  | @send l w p s status want free => exact Or.inr (Or.inr ⟨p, free, rfl⟩)
  | need | yield => exact Or.inl rfl
  | mask =>
    split
    · exact Or.inr (Or.inl ⟨_, rfl⟩)
    · exact Or.inl rfl

theorem coverage_of_invariants {issued : σ → RequestId → Prop} {acc : Sending σ}
    (hc : Covering [] [] [] acc.1) (ha : Awaiting issued acc) : Coverage acc.1 where
  masked p hp := by
    obtain ⟨q, s, hqp, hq, hs⟩ :=
      isCovered_iff.mp ((hc.masked p hp).resolve_left List.not_mem_nil)
    refine ⟨q, s, hqp, hq, ?_⟩
    cases s <;> first | cases hs; done | simp
  below_active p q s hpq hp hq := by
    have hs : s.covers ≠ true := fun hs => List.not_mem_nil (hc.active p q s hpq hp hq hs)
    cases s <;> first | simp; done | exact absurd rfl hs
  online ho p hp := List.not_mem_nil (hc.online ho p hp)
  offline ho := by
    have hawaited : acc.1.awaited = [] := ha.offline ho
    refine ⟨fun p => ⟨?_, ?_⟩, ?_, hawaited⟩
    · intro hp
      cases hc.offline ho p _ hp
    · intro hp
      cases hc.offline ho p _ hp
    · intro p
      apply Option.eq_none_iff_forall_not_mem.mpr
      intro id hid
      have hm := ha.listed p id hid
      rw [hawaited] at hm
      exact List.not_mem_nil hm
  pending p hp := by
    obtain ⟨id, hid⟩ := ha.pending p hp
    exact ⟨id, hid, lookup_of_awaited ha.nodup (ha.listed p id hid)⟩
  awaited id p hp := by
    obtain ⟨s, hs⟩ := ha.item id p (mem_of_lookup hp)
    obtain ⟨i, hi, _⟩ := status?_eq_some.mp hs
    exact ⟨i, hi⟩

section Reached
variable {issued : σ → RequestId → Prop} {sink : Sink σ} {acc : Sending σ}

theorem Action.awaiting (fresh : sink.Fresh issued) (a : Action)
    (hc : Covering [] [] [] acc.1) (ha : Awaiting issued acc) :
    Awaiting issued (a.run sink acc) := by
  obtain ⟨mid, rest, ho, he⟩ := run_opens sink a acc
  rw [he]
  have moves := Rest.moves sink True rest (ho.sound hc.sound) (ho.ready hc.sound)
    fun _ hn => absurd trivial hn
  exact moves_awaiting fresh moves (ho.awaiting fresh hc.sound ha)

theorem Reachable.covering (h : Reachable sink acc) : Covering [] [] [] acc.1 := by
  induction h with
  | empty w => exact covering_of_none OrderedMap.sound_empty fun _ => rfl
  | run a _ ih => exact a.covering sink ih

theorem Reachable.invariants (fresh : sink.Fresh issued) (h : Reachable sink acc) :
    Covering [] [] [] acc.1 ∧ Awaiting issued acc := by
  refine ⟨h.covering, ?_⟩
  induction h with
  | empty w => exact awaiting_of_none rfl (fun _ => rfl) fun p hp => nomatch hp
  | run a h ih => exact a.awaiting fresh h.covering ih

/-- Whatever the operations, their order and the answers: statuses, masks and awaited requests
agree, and each operation is an opening and moves which send listens only for paths that nothing
covers at that moment. -/
theorem coverage_of_reachable (fresh : sink.Fresh issued) (h : Reachable sink acc) :
    Coverage acc.1 ∧ ∀ a, ∃ mid rest, Opening sink a acc mid rest ∧ Guarded sink acc mid
      ∧ ReflTransGen (fun x y => Move sink True x y ∧ Guarded sink x y) mid (a.run sink acc) := by
  obtain ⟨hc, ha⟩ := h.invariants fresh
  refine ⟨coverage_of_invariants hc ha, ?_⟩
  intro a
  obtain ⟨mid, rest, ho, he⟩ := run_opens sink a acc
  refine ⟨mid, rest, ho, ho.guarded, ?_⟩
  rw [he]
  have moves := Rest.moves sink True rest (ho.sound hc.sound) (ho.ready hc.sound)
    fun _ hn => absurd trivial hn
  exact ReflTransGen.mono (fun _ _ m => ⟨m, m.guarded⟩) _ _ moves

end Reached

def counting : Sink Nat where
  listen _ n := (n, n + 1)
  unlisten _ n := n

theorem counting_fresh : counting.Fresh fun n id => id < n where
  new _ n := Nat.lt_irrefl n
  recorded _ n := Nat.lt_succ_self n
  listen _ _ _ h := Nat.lt_succ_of_lt h
  unlisten _ _ _ h := h

def outer : Path := ⟨["a"], by decide, by decide⟩

def inner : Path := ⟨["a", "b"], by decide, by decide⟩

/-- A path and one below it, with the outer one answered and then given up. -/
def handover : List Action :=
  [.resume, .acquire inner, .acquire outer, .answer 1 true, .release outer]

theorem Reachable.foldl {sink : Sink σ} {acc : Sending σ} (h : Reachable sink acc)
    (as : List Action) : Reachable sink (as.foldl (Action.run sink) acc) := by
  induction as generalizing acc with
  | nil => exact h
  | cons a as ih => exact ih (.run a h)

theorem coverage_of_handover :
    Coverage (handover.foldl (Action.run counting) (Listens.empty, 0)).1
      ∧ (handover.foldl (Action.run counting) (Listens.empty, 0)).1.awaited.map Prod.fst = [0, 2] :=
  ⟨(coverage_of_reachable counting_fresh ((Reachable.empty 0).foldl handover)).1, by decide⟩

end LiveTree.Listens
