import LiveTree.Proofs.Cache.Digests

/-!
# Puts as changes of a flat map

A cache is read as a map from lists of names to leaves. A put takes out of it every list of names
that is comparable with its path, and puts in the leaves of the new value, each behind the path.
-/

namespace LiveTree.Cache

variable {c d : Cache} {p q : Path} {v : Value}

theorem Tidy.sameAs_iff (hc : c.Tidy) (hd : d.Tidy) :
    c.sameAs d = true ↔ ∀ names, c.leaf? names = d.leaf? names :=
  Node.Tidy.sameAs_iff hc hd

theorem put_root (c : Cache) (p : Path) (v : Value) :
    (c.put p v).root = c.root.updateAt (fun _ => Node.ofValue v) p.segments :=
  take_root c .put p v

/-- The leaves after a put, where the ones before are given. -/
def putLeaves (p : Path) (v : Value) (old : List String → Option Value) :
    List String → Option Value := fun names =>
  if p.segments <+: names then (Node.ofValue v).leaf? (names.drop p.segments.length)
  else if names <+: p.segments then none
  else old names

theorem Tidy.leaf?_put (h : c.Tidy) (p : Path) (v : Value) :
    (c.put p v).leaf? = putLeaves p v c.leaf? := by
  funext names
  rw [leaf?, put_root]
  exact Node.leaf?_updateAt_eq (fun _ => Node.tidy_ofValue v) h p.ne_empty_of_mem names

theorem putLeaves_twice (p : Path) (v : Value) (old : List String → Option Value) :
    putLeaves p v (putLeaves p v old) = putLeaves p v old := by
  funext names
  unfold putLeaves
  split
  · rfl
  · split <;> rfl

theorem Tidy.valueAt_put (h : c.Tidy) (p : Path) (v : Value) :
    (c.put p v).valueAt p = (Node.ofValue v).toValue := by
  rw [valueAt_eq, put_root,
    Node.reach_updateAt (fun _ => Node.tidy_ofValue v) h p.ne_empty_of_mem]

theorem Tidy.valueAt_put_null (h : c.Tidy) (above : q.Above p)
    (leaf : c.leaf? q.segments ≠ none) : (c.put p .null).valueAt q = .null := by
  obtain ⟨x, hx⟩ := Option.ne_none_iff_exists'.mp leaf
  have tidy : (c.put p .null).Tidy := h.take .put p .null
  have gone : ∀ rest, (c.put p .null).leaf? (q.segments ++ rest) = none := by
    intro rest
    rw [h.leaf?_put, putLeaves]
    split
    · exact Node.leaf?_null _
    · split
      · rfl
      · rename_i apart
        refine Node.leaf?_of_comparable hx (Or.inl (List.prefix_append _ rest)) fun he => ?_
        rw [he] at apart
        exact apart above.isPrefix
  have absent : (c.put p .null).root.reach q.segments = .null := by
    refine (Node.Tidy.reach tidy _).eq_null fun rest => ?_
    rw [← Node.leaf?_append]
    exact gone rest
  rw [valueAt_eq, absent]
  rfl

theorem put_is_flat {edits : List Edit} (admissible : ∀ e ∈ edits, e.Admissible) (p : Path)
    (v : Value) :
    (∀ names, ((editAll edits).put p v).leaf? names
      = if p.segments <+: names then (Node.ofValue v).leaf? (names.drop p.segments.length)
        else if names <+: p.segments then none
        else (editAll edits).leaf? names)
    ∧ (∀ others, (∀ e ∈ others, e.Admissible) →
      (((editAll edits).put p v).sameAs (editAll others) = true
        ↔ ∀ names, ((editAll edits).put p v).leaf? names = (editAll others).leaf? names))
    ∧ ((editAll edits).put p v).valueAt p = (Node.ofValue v).toValue
    ∧ (∀ q : Path, ¬ p.segments <+: q.segments → ¬ q.segments <+: p.segments →
      ((editAll edits).put p v).get? q = (editAll edits).get? q)
    ∧ (∀ q : Path, q.Above p → ((editAll edits).put p v).leaf? q.segments = none)
    ∧ (∀ q : Path, q.Above p → (editAll edits).leaf? q.segments ≠ none →
      ((editAll edits).put p .null).valueAt q = .null)
    ∧ (((editAll edits).put p v).put p v).sameAs ((editAll edits).put p v) = true := by
  have tidy := (current_editAll admissible).tidy
  have put : ((editAll edits).put p v).Tidy := tidy.take .put p v
  have again : (((editAll edits).put p v).put p v).Tidy := put.take .put p v
  refine ⟨fun names => congrFun (tidy.leaf?_put p v) names, fun others h => ?_,
    tidy.valueAt_put p v, fun q below above => ?_, fun q above => ?_,
    fun q above leaf => tidy.valueAt_put_null above leaf, ?_⟩
  · exact put.sameAs_iff (current_editAll h).tidy
  · exact tidy.get?_take_apart .put v below above
  · refine leaf?_take_above tidy .put p v above.isPrefix fun he => ?_
    exact above.ne (Path.eq_of_segments he)
  · apply (again.sameAs_iff put).mpr
    intro names
    rw [put.leaf?_put, tidy.leaf?_put, putLeaves_twice]

/-- A leaf with another beside it, and an array elsewhere. -/
def planted (p q : Path) : List Edit :=
  [.put p (.object [("a", .bool true), ("b", .bool false)]), .merge q (.array [.null, .text "y"])]

theorem admissible_planted (p q : Path) : ∀ e ∈ planted p q, e.Admissible := by
  simp [planted, Edit.Admissible]

theorem put_below_leaf : ∃ p q r : Path, (∀ e ∈ planted p q, e.Admissible)
    ∧ (editAll (planted p q)).leaf? ["x", "a"] = some (.bool true)
    ∧ (∀ names, ((editAll (planted p q)).put r .null).leaf? names
      = if ["x", "a", "k"] <+: names then none
        else if names <+: ["x", "a", "k"] then none else (editAll (planted p q)).leaf? names)
    ∧ ((editAll (planted p q)).put r .null).leaf? ["x", "b"] = some (.bool false)
    ∧ ((editAll (planted p q)).put r .null).leaf? ["z", "1"] = some (.text "y") := by
  refine ⟨⟨["x"], by decide, by decide⟩, ⟨["z"], by decide, by decide⟩,
    ⟨["x", "a", "k"], by decide, by decide⟩, admissible_planted _ _, ?_, fun names => ?_, ?_,
    ?_⟩
  · rfl
  · refine ((put_is_flat (admissible_planted _ _) _ .null).1 names).trans ?_
    rw [Node.ofValue, Node.leaf?_null]
  · rfl
  · rfl

end LiveTree.Cache
