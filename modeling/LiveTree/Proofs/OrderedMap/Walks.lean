import LiveTree.Proofs.OrderedMap.Reference

/-!
# Walks meet the entries in order

A walk goes from place to place with nothing but its stack. Read as what is still to come, the
stack loses one entry at each step, its first one. So a walk yields what its first stack reads as:
from the beginning the entries of the map in order, and from a key those that are not less. A walk
that changes the values on its way meets the same entries, and it leaves a map that a change of the
values by key leaves as well.
-/

namespace LiveTree

namespace Cursor

variable {α β : Type} {c : Cursor α β} {e : α × β} {es : List (α × β)}

/-- What is met from a place on, one entry after the other, until nothing is left. -/
inductive Yields : Cursor α β → List (α × β) → Prop where
  | done {c : Cursor α β} (stop : c.next? = none) : Yields c []
  | more {c c' : Cursor α β} {e : α × β} {es : List (α × β)} (next : c.next? = some (e, c'))
      (rest : Yields c' es) : Yields c (e :: es)

theorem next?_eq_none_iff : c.next? = none ↔ c.entries = [] := by
  cases c <;> simp [next?]

theorem entries_eq_cons_iff :
    c.entries = e :: es ↔ ∃ c', c.next? = some (e, c') ∧ c'.entries = es := by
  cases c with
  | nil => simp [next?]
  | cons p c => simp [next?, and_assoc]

theorem yields_iff : c.Yields es ↔ es = c.entries := by
  constructor
  · intro h
    induction h with
    | done stop => exact (next?_eq_none_iff.mp stop).symm
    | more next _ ih => exact (entries_eq_cons_iff.mpr ⟨_, next, ih.symm⟩).symm
  · intro h
    induction es generalizing c with
    | nil => exact .done (next?_eq_none_iff.mpr h.symm)
    | cons e es ih =>
      obtain ⟨c', next, rest⟩ := entries_eq_cons_iff.mp h.symm
      exact .more next (ih rest.symm)

end Cursor

/-- Changes the values of entries in a row, with something handed on from each to the next. -/
def Dictionary.mapAccum {α β σ : Type} (f : α → β → σ → β × σ) :
    Dictionary α β → σ → Dictionary α β × σ
  | [], s => ([], s)
  | (k, v) :: d, s =>
    let (v, s) := f k v s
    let (d, s) := mapAccum f d s
    ((k, v) :: d, s)

section Changes
variable {α β σ : Type} {f : α → β → σ → β × σ}

theorem Dictionary.mapAccum_append (d d' : Dictionary α β) (s : σ) :
    mapAccum f (d ++ d') s = ((mapAccum f d s).1 ++ (mapAccum f d' (mapAccum f d s).2).1,
      (mapAccum f d' (mapAccum f d s).2).2) := by
  induction d generalizing s with
  | nil => rfl
  | cons e d ih => simp [mapAccum, ih]

theorem Dictionary.keys_mapAccum (d : Dictionary α β) (s : σ) :
    (mapAccum f d s).1.map Prod.fst = d.map Prod.fst := by
  induction d generalizing s with
  | nil => rfl
  | cons e d ih => simp [mapAccum, ih]

namespace AvlTree

variable {cmp : α → α → Ordering} {t : AvlTree α β}

theorem visit_between (t : AvlTree α β) : t.visit .between = t.toList := by
  induction t with
  | nil => rfl
  | node h l k v r ihl ihr => rw [visit, toList, ihl, ihr]

theorem toList_mapAccum (t : AvlTree α β) (s : σ) :
    ((t.mapAccum f s).1.toList, (t.mapAccum f s).2) = Dictionary.mapAccum f t.toList s := by
  induction t generalizing s with
  | nil => rfl
  | node h l k v r ihl ihr =>
    simp [mapAccum, toList, Dictionary.mapAccum_append, Dictionary.mapAccum, ← ihl, ← ihr]

theorem Ordered.mapAccum (ht : t.Ordered cmp) (s : σ) : (t.mapAccum f s).1.Ordered cmp := by
  have list : (t.mapAccum f s).1.toList = (Dictionary.mapAccum f t.toList s).1 :=
    congrArg Prod.fst (toList_mapAccum t s)
  rw [ordered_iff_keys, list, Dictionary.keys_mapAccum, ← ordered_iff_keys]
  exact ht

theorem mapAccum_stateless (g : α → β → β) (t : AvlTree α β) (s : σ) :
    t.mapAccum (fun k v s => (g k v, s)) s = (t.mapValues g, s) := by
  induction t generalizing s with
  | nil => rfl
  | node h l k v r ihl ihr => simp [mapAccum, mapValues, ihl, ihr]

/-- A change by key that gives each key the value which the walk gave it is the same change. -/
theorem mapAccum_eq_of_given {g : α → β → β} (t : AvlTree α β) (s : σ)
    (given : ∀ e ∈ (t.mapAccum f s).1.toList, ∀ v, g e.1 v = e.2) :
    (t.mapAccum f s).1 = t.mapValues g := by
  induction t generalizing s with
  | nil => rfl
  | node h l k v r ihl ihr =>
    simp only [mapAccum, toList, List.forall_mem_append, List.forall_mem_cons] at given ⊢
    obtain ⟨left, here, right⟩ := given
    rw [mapValues, ihl s left, ihr _ right, here]

/-- In an ordered tree a key stands once, so what the walk gave it can be looked up afterwards. -/
theorem mapAccum_eq_mapValues [Std.TransCmp cmp] (ht : t.Ordered cmp) (s : σ) :
    (t.mapAccum f s).1 = t.mapValues fun k v => ((t.mapAccum f s).1.get? cmp k).getD v := by
  apply mapAccum_eq_of_given
  intro e he v
  have here : (t.mapAccum f s).1.get? cmp e.1 = some e.2 :=
    (get?_eq_some_iff (ht.mapAccum s)).mpr ⟨e.1, he, Std.ReflCmp.compare_self⟩
  rw [here, Option.getD_some]

end AvlTree

end Changes

namespace OrderedMap

variable {α β : Type} {cmp : α → α → Ordering} {m : OrderedMap α β cmp}

theorem toList_eq_visit (m : OrderedMap α β cmp) : m.toList = m.visit .between :=
  (toList_eq m).trans (AvlTree.visit_between m.root).symm

theorem mapAccum_stateless {σ : Type} (m : OrderedMap α β cmp) (g : α → β → β) (s : σ) :
    m.mapAccum (fun k v s => (g k v, s)) s = (m.mapValues g, s) := by
  rw [mapAccum, AvlTree.mapAccum_stateless, mapValues]

theorem visit_mapAccum {σ : Type} (m : OrderedMap α β cmp) (f : α → β → σ → β × σ) (s : σ) :
    ((m.mapAccum f s).1.visit .between, (m.mapAccum f s).2)
      = Dictionary.mapAccum f (m.visit .between) s := by
  simp only [visit, AvlTree.visit_between]
  exact AvlTree.toList_mapAccum m.root s

variable [Std.TransCmp cmp]

theorem Reachable.mapAccum {σ : Type} (h : m.Reachable) (f : α → β → σ → β × σ) (s : σ) :
    (m.mapAccum f s).1.Reachable := by
  obtain ⟨d, represents⟩ := h.represents
  have by_key : (m.mapAccum f s).1
      = m.mapValues fun k v => ((m.root.mapAccum f s).1.get? cmp k).getD v :=
    congrArg (OrderedMap.mk · m.size)
      (AvlTree.mapAccum_eq_mapValues represents.sound.ordered s)
  rw [by_key]
  exact h.call (.mapValues _)

theorem filter_not_less (key : α) (es : List (α × β)) :
    (es.filter fun e => cmp key e.1 != .gt) = es.filter fun e => cmp e.1 key != .lt := by
  apply List.filter_congr
  intro e _
  rw [Bool.eq_iff_iff, bne_iff_ne, bne_iff_ne, ne_eq, ne_eq, Std.OrientedCmp.gt_iff_lt]

theorem yields_seek (sound : m.Sound) {key : α} {es : List (α × β)} :
    (Cursor.seek cmp key m.root []).Yields es
      ↔ es = m.toList.filter fun e => cmp e.1 key != .lt := by
  rw [Cursor.yields_iff, Cursor.entries_seek sound.ordered, Cursor.entries_nil, List.append_nil,
    filter_not_less, toList_eq]

/-- Whatever the calls were, a walk from the beginning yields the entries in order, each once, and a
walk from a key those of them that are not less, whether or not the key is there. The entries are
visited in the same order by a walk that changes them on its way, and what comes of it is a map
that comes about by calls. -/
theorem walked_in_order (h : m.Reachable) :
    ((m.visit .between).Pairwise fun a b => cmp a.1 b.1 = .lt)
    ∧ (∀ es, (Cursor.start m.root).Yields es ↔ es = m.visit .between)
    ∧ (∀ key es, (Cursor.seek cmp key m.root []).Yields es
      ↔ es = (m.visit .between).filter fun e => cmp e.1 key != .lt)
    ∧ m.toList = m.visit .between
    ∧ (∀ key, m.listFrom key = m.toList.filter fun e => cmp e.1 key != .lt)
    ∧ (∀ (σ : Type) (f : α → β → σ → β × σ) (s : σ),
      ((m.mapAccum f s).1.visit .between, (m.mapAccum f s).2)
        = Dictionary.mapAccum f (m.visit .between) s
      ∧ (m.mapAccum f s).1.Reachable)
    ∧ ∀ (g : α → β → β) (σ : Type) (s : σ),
      m.mapAccum (fun k v s => (g k v, s)) s = (m.mapValues g, s) := by
  obtain ⟨d, represents⟩ := h.represents
  have sound := represents.sound
  have list := toList_eq_visit m
  rw [← list]
  refine ⟨entries_ascend sound, fun es => ?_, fun key es => yields_seek sound, rfl, fun key => ?_,
    fun σ f s => ⟨?_, h.mapAccum f s⟩, fun g σ s => mapAccum_stateless m g s⟩
  · rw [Cursor.yields_iff, Cursor.start, Cursor.entries_descend, Cursor.entries_nil,
      List.append_nil, toList_eq]
  · rw [listFrom_eq sound, filter_not_less]
  · rw [list]
    exact visit_mapAccum m f s

/-- The removal takes out a key with others on both sides. -/
def decades : List (Call Nat String) :=
  [.insert 55 "e", .insert 27 "b", .insert 81 "g", .insert 13 "a", .insert 34 "c", .insert 68 "f",
    .getOrInsert 42 "d", .remove 20]

theorem decades_walked : Std.TransCmp byTens ∧ (ofCalls byTens decades).1.Reachable
    ∧ (Cursor.seek byTens 49 (ofCalls byTens decades).1.root []).Yields
      [(42, "d"), (55, "e"), (68, "f"), (81, "g")]
    ∧ (Cursor.seek byTens 27 (ofCalls byTens decades).1.root []).Yields
      [(34, "c"), (42, "d"), (55, "e"), (68, "f"), (81, "g")]
    ∧ (Cursor.seek byTens 7 (ofCalls byTens decades).1.root []).Yields
      ((ofCalls byTens decades).1.visit .between)
    ∧ (Cursor.seek byTens 90 (ofCalls byTens decades).1.root []).Yields []
    ∧ ((ofCalls byTens decades).1.mapAccum (fun k v met => (v, met ++ [k])) []).2
      = [13, 34, 42, 55, 68, 81] := by
  have lawful : Std.TransCmp byTens := inferInstanceAs (Std.TransCmp (compareOn _))
  have reached : (ofCalls byTens decades).1.Reachable := ⟨decades, rfl⟩
  obtain ⟨_, _, seek, _, _, change, _⟩ := walked_in_order reached
  refine ⟨lawful, reached, (seek 49 _).mpr ?_, (seek 27 _).mpr ?_, (seek 7 _).mpr ?_,
    (seek 90 _).mpr ?_, ?_⟩
  · decide +kernel
  · decide +kernel
  · decide +kernel
  · decide +kernel
  · exact (congrArg Prod.snd (change _ (fun k v met => (v, met ++ [k])) []).1).trans
      (by decide +kernel)

end OrderedMap

end LiveTree
