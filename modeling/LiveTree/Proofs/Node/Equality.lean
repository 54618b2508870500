import LiveTree.Proofs.Node.Content

/-!
# Equal nodes

Tidy nodes are equal in content exactly when they have the same leaves.
-/

namespace LiveTree

namespace Value

mutual

theorem identicalTo_iff : ∀ a b : Value, a.identicalTo b = true ↔ a = b
  | .null, b => by cases b <;> simp [identicalTo, equalBy]
  | .bool a, b => by cases b <;> simp [identicalTo, equalBy]
  | .number a, b => by cases b <;> simp [identicalTo, equalBy]
  | .text a, b => by cases b <;> simp [identicalTo, equalBy]
  | .array as, b => by
    cases b <;> simp only [identicalTo, equalBy, reduceCtorEq, Bool.false_eq_true]
    rw [identicalItems_iff, array.injEq]
  | .object as, b => by
    cases b <;> simp only [identicalTo, equalBy, reduceCtorEq, Bool.false_eq_true]
    rw [identicalPairs_iff, object.injEq]

theorem identicalItems_iff : ∀ as bs : List Value, equalItems (· == ·) as bs = true ↔ as = bs
  | [], bs => by cases bs <;> simp [equalItems]
  | a :: as, bs => by
    cases bs with
    | nil => simp [equalItems]
    | cons b bs =>
      rw [equalItems, Bool.and_eq_true, identicalItems_iff as bs, List.cons.injEq]
      exact and_congr_left' (identicalTo_iff a b)

theorem identicalPairs_iff : ∀ as bs : List (String × Value),
    equalPairs (· == ·) as bs = true ↔ as = bs
  | [], bs => by cases bs <;> simp [equalPairs]
  | (j, a) :: as, bs => by
    cases bs with
    | nil => simp [equalPairs]
    | cons b bs =>
      obtain ⟨k, b⟩ := b
      rw [equalPairs, Bool.and_eq_true, Bool.and_eq_true, identicalPairs_iff as bs,
        List.cons.injEq, Prod.mk.injEq, beq_iff_eq]
      exact and_congr_left' (and_congr_right' (identicalTo_iff a b))

end

end Value

namespace Node

variable {m n : Node} {children others : Children} {kept kept' : Memo}

theorem outlinePairs_eq (t : AvlTree String Node) :
    outlinePairs t = t.toList.map fun e => (e.1, e.2.outline) := by
  induction t with
  | nil => rfl
  | node h l k n r ihl ihr => simp [outlinePairs, AvlTree.toList, ihl, ihr]

theorem outline_of_size (some : children.size ≠ 0) : (internal children kept).outline
    = .object (children.toList.map fun e => (e.1, e.2.outline)) := by
  rw [outline, if_neg some, outlinePairs_eq, OrderedMap.toList_eq]

theorem outline_internal (h : Tidy (internal children kept)) :
    (internal children kept).outline
      = .object (children.toList.map fun e => (e.1, e.2.outline)) := by
  cases h with
  | internal _ sound filled => exact outline_of_size (by simpa [OrderedMap.isEmpty] using filled)

theorem outline_of_atom {v : Value} (h : n.atom? = some v) : n.outline = v := by
  cases n <;> simp_all [atom?, outline]

theorem alike_of_atom {v : Value} (hm : m.atom? = some v) (hn : n.atom? = some v) :
    Alike m n := by
  intro names
  cases m <;> cases hm <;> cases n <;> cases hn <;> cases names <;> rfl

/-- Containers are alike whose children are told apart by what is read off them, and of which the
same is read under every name. -/
theorem alike_internal {γ : Type} {read : Node → γ}
    (get : ∀ key, (children.get? key).map read = (others.get? key).map read)
    (same : ∀ key {m n}, children.get? key = some m → others.get? key = some n → read m = read n →
      Alike m n) : Alike (internal children kept) (internal others kept') := by
  intro names
  cases names with
  | nil => rfl
  | cons s rest =>
    rw [leaf?_cons, leaf?_cons]
    change (childOf children s).leaf? rest = (childOf others s).leaf? rest
    have both := get s
    rw [childOf, childOf]
    cases hc : children.get? s with
    | none =>
      rw [hc] at both
      rw [Option.map_eq_none_iff.mp both.symm]
    | some a =>
      rw [hc] at both
      obtain ⟨b, hb, h⟩ := Option.map_eq_some_iff.mp both.symm
      rw [hb]
      exact same s hc hb h.symm rest

theorem Tidy.alike_of_outline (hm : Tidy m) (hn : Tidy n) (h : m.outline = n.outline) :
    Alike m n := by
  induction hm generalizing n with
  | null | bool b | number x kept | text s kept =>
    intro names
    cases hn with
    | @internal others memo' sound' filled' named' present' below' =>
      have there : Tidy (.internal others memo') :=
        .internal memo' sound' filled' named' present' below'
      rw [outline_internal there] at h
      cases h
    | _ =>
      cases h
      all_goals cases names <;> rfl
  | @internal children kept sound filled named present below ih =>
    have here : Tidy (.internal children kept) := .internal kept sound filled named present below
    rw [outline_internal here] at h
    cases hn with
    | @internal others memo' sound' filled' named' present' below' =>
      have there : Tidy (.internal others memo') :=
        .internal memo' sound' filled' named' present' below'
      rw [outline_internal there, Value.object.injEq] at h
      refine alike_internal (OrderedMap.get?_map_ext sound sound' outline h) ?_
      intro k m n hm hn same
      exact ih k m hm (below' k n hn) same
    | _ => cases h

/-- Equality of content is equality of leaves. -/
theorem Tidy.sameAs_iff (hm : Tidy m) (hn : Tidy n) : m.sameAs n = true ↔ Alike m n := by
  rw [sameAs, Value.identicalTo_iff]
  refine ⟨hm.alike_of_outline hn, ?_⟩
  exact eq_of_alike outline .object
    (fun hm hn => (outline_of_atom hm).trans (outline_of_atom hn).symm)
    outline_internal hm hn

end Node

end LiveTree
