import LiveTree.Proofs.Listens.Coverage
import LiveTree.Proofs.OrderedMap.Reference
import LiveTree.Proofs.Subscriptions.Baselines

/-!
# What lies below a path is one stretch of every map

A map of paths is walked from a path on for as long as the path is a prefix. However the map came
about, and whether or not the path is in it, the walk meets what lies at and below the path, all of
it and nothing else, in ascending order. So the listens below a path are found completely, and so
are the subscriptions on which a change shows.
-/

namespace LiveTree

section Maps
variable {β : Type} {m : OrderedMap Path β Path.compare} {d : Dictionary Path β}

theorem OrderedMap.Represents.mem_subtree (h : m.Represents d) {p : Path} {e : Path × β} :
    e ∈ m.subtree p ↔ e ∈ d ∧ p.segments <+: e.1.segments := by
  rw [subtree_eq h.sound, List.mem_filter, h.entries.mem_iff, Path.isPrefixOf_iff]

theorem OrderedMap.subtree_ascends (hm : m.Sound) (p : Path) :
    (m.subtree p).Pairwise fun a b => Path.compare a.1 b.1 = .lt := by
  rw [subtree_eq hm]
  exact (entries_ascend hm).filter _

end Maps

theorem Listens.below_ascends {l : Listens} (hl : l.items.Sound) (p : Path) :
    (l.below p).Pairwise fun q r => Path.compare q r = .lt := by
  rw [below_eq hl]
  exact (OrderedMap.keys_ascend hl).filter _

namespace Subscriptions

/-- Subscriptions after any calls, with any handles and any caches. -/
inductive Reachable : Subscriptions → Prop where
  | empty : Reachable empty
  | subscribe {s : Subscriptions} (h : Reachable s) (p : Path) (kind : EventKind) (c : Cache) :
    Reachable (s.subscribe p kind c)
  | remove {s : Subscriptions} (h : Reachable s) (handle : Nat) (p : Path) :
    Reachable (s.remove handle p)
  | clear {s : Subscriptions} (h : Reachable s) : Reachable s.clear
  | cacheChanged {s : Subscriptions} (h : Reachable s) (c : Cache) (p : Path) :
    Reachable (s.cacheChanged c p).1

theorem Reachable.sound {s : Subscriptions} (h : Reachable s) : s.byPath.Sound := by
  induction h with
  | empty => exact OrderedMap.sound_empty
  | subscribe _ p kind c ih => exact sound_subscribe ih p kind c
  | remove _ handle p ih => exact sound_remove ih handle p
  | clear => exact OrderedMap.sound_empty
  | cacheChanged _ c p ih => exact sound_cacheChanged ih c p

end Subscriptions

open OrderedMap (Call ofCalls)

/-- The walk from a path on, for as long as the path is a prefix, meets exactly the entries at and
below the path, in ascending order, since what stands between a path and something below it lies
below it too. The listens below a path are exactly those whose paths lie there, and a change shows
on exactly the subscribed paths above it, at it and below it. -/
theorem subtrees_scanned_exactly :
    (∀ (β : Type) (calls : List (Call Path β)) (p : Path),
      (∀ e, e ∈ (ofCalls Path.compare calls).1.subtree p
        ↔ e ∈ (Dictionary.ofCalls Path.compare calls).1 ∧ p.segments <+: e.1.segments)
      ∧ ((ofCalls Path.compare calls).1.subtree p).Pairwise fun a b => Path.compare a.1 b.1 = .lt)
    ∧ (∀ p q r : Path, Path.compare p q ≠ .gt → Path.compare q r ≠ .gt →
      p.isPrefixOf r = true → p.isPrefixOf q = true)
    ∧ (∀ (σ : Type) (sink : Sink σ) (acc : Listens.Sending σ), Listens.Reachable sink acc → ∀ p,
      (∀ q, q ∈ acc.1.below p ↔ p.Above q ∧ ∃ i, acc.1.get? q = some i)
      ∧ (acc.1.below p).Pairwise fun q r => Path.compare q r = .lt)
    ∧ ∀ s : Subscriptions, s.Reachable → ∀ p,
      (∀ q, q ∈ s.affected p ↔ s.byPath.contains q = true
        ∧ (q.segments <+: p.segments ∨ p.segments <+: q.segments))
      ∧ (s.affected p).Pairwise fun q r => Path.compare q r = .lt := by
  refine ⟨fun β calls p => ?_, fun p q r => Path.isPrefixOf_of_between, ?_, ?_⟩
  · have h := (@OrderedMap.represents_ofCalls _ _ Path.compare _ calls).1
    exact ⟨fun _ => h.mem_subtree, OrderedMap.subtree_ascends h.sound p⟩
  · intro σ sink acc h p
    have sound := h.covering.sound
    exact ⟨fun _ => Listens.mem_below sound, Listens.below_ascends sound p⟩
  · intro s h p
    exact ⟨fun _ => Subscriptions.mem_affected h.sound, Subscriptions.affected_ascend h.sound p⟩

open Listens (outer handover counting)

/-- Whole numbers and other names side by side, below a path that is taken out again. -/
def grove : List (Call Path Nat) :=
  [.insert ⟨["a2"], by decide, by decide⟩ 1, .insert Listens.inner 2,
    .insert ⟨["a", "b", "9223372036854775808"], by decide, by decide⟩ 3,
    .insert ⟨["a", "b", "10", "x"], by decide, by decide⟩ 4,
    .insert ⟨["a", "b", "-0"], by decide, by decide⟩ 5, .insert outer 6,
    .insert ⟨["a", "b", "9"], by decide, by decide⟩ 7,
    .insert ⟨["a", "c"], by decide, by decide⟩ 8, .remove Listens.inner]

theorem grove_scanned :
    ((ofCalls Path.compare grove).1.subtree Listens.inner).map Prod.snd = [5, 7, 4, 3]
    ∧ (∀ e, e ∈ (ofCalls Path.compare grove).1.subtree Listens.inner
      ↔ e ∈ (Dictionary.ofCalls Path.compare grove).1
        ∧ Listens.inner.segments <+: e.1.segments)
    ∧ outer.isPrefixOf outer = true
    ∧ (∀ q, q ∈ (handover.foldl (Listens.Action.run counting) (Listens.empty, 0)).1.below outer
      ↔ outer.Above q ∧ ∃ i, (handover.foldl (Listens.Action.run counting)
        (Listens.empty, 0)).1.get? q = some i)
    ∧ Listens.inner
      ∈ (Subscriptions.empty.subscribe Listens.inner .value Cache.empty).affected outer := by
  obtain ⟨maps, between, listens, subscriptions⟩ := subtrees_scanned_exactly
  refine ⟨by decide +kernel, (maps Nat grove Listens.inner).1, ?_, ?_, ?_⟩
  · exact between outer outer Listens.inner (by decide) (by decide) (by decide)
  · exact (listens Nat counting _ ((Listens.Reachable.empty 0).foldl handover) outer).1
  · have reachable := Subscriptions.Reachable.empty.subscribe Listens.inner .value Cache.empty
    exact ((subscriptions _ reachable outer).1 Listens.inner).mpr ⟨by decide, Or.inr (by decide)⟩

end LiveTree
