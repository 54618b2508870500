import LiveTree.Proofs.Cache.Puts

/-!
# Merges as rows of changes

A merge of a document is the same as taking away the leaf on the way, if there is one, and then
merging or putting its entries one after the other. The single changes collapse what they empty on
their way back, where the merge does so once at its end.
-/

namespace LiveTree.Cache

variable {c d : Cache} {p q : Path} {v : Value} {names : List String}

/-- A put or a merge at the end of names, which a path need not allow. -/
def takeAt (c : Cache) (kind : UpdateKind) (names : List String) (v : Value) : Cache :=
  ⟨c.root.updateAt (kind.apply v) names⟩

theorem takeAt_segments (c : Cache) (kind : UpdateKind) (p : Path) (v : Value) :
    c.takeAt kind p.segments v = c.take kind p v := by
  rw [takeAt, ← take_root]

/-- An entry of a document below the names: a container is merged, anything else is put. An empty
key is passed over. -/
def takeEntry (names : List String) (c : Cache) (e : String × Value) : Cache :=
  if e.1.isEmpty then c
  else c.takeAt (if e.2.isContainer then .merge else .put) (names ++ [e.1]) e.2

theorem takeEntry_child {e : String × Value} (h : p.child e.1 = .ok q) (c : Cache) :
    takeEntry p.segments c e = c.take (if e.2.isContainer then .merge else .put) q e.2 := by
  have below : q.segments = p.segments ++ [e.1] := by
    unfold Path.child at h
    split at h
    · split at h
      · split at h
        · cases h
          rfl
        · cases h
      · cases h
    · cases h
  have name : e.1 ≠ "" :=
    q.ne_empty_of_mem e.1 (below ▸ List.mem_append_right _ List.mem_cons_self)
  rw [takeEntry, if_neg (by simpa using name), ← below, takeAt_segments]

/-- Takes away the leaf at a path, if one stands there. -/
def dropLeaf (c : Cache) (q : Path) : Cache :=
  if (c.leaf? q.segments).isSome then c.put q .null else c

def clearWay (c : Cache) (way : List Path) : Cache := way.foldl dropLeaf c

theorem Tidy.dropLeaf (h : c.Tidy) (q : Path) : (c.dropLeaf q).Tidy := by
  unfold Cache.dropLeaf
  split
  · exact h.take .put q .null
  · exact h

theorem Tidy.leaf?_dropLeaf (h : c.Tidy) (q : Path) (names : List String) :
    (c.dropLeaf q).leaf? names = if names = q.segments then none else c.leaf? names := by
  unfold Cache.dropLeaf
  cases leaf : c.leaf? q.segments with
  | none =>
    rw [Option.isSome_none, if_neg Bool.false_ne_true]
    by_cases same : names = q.segments
    · rw [if_pos same, same, leaf]
    · rw [if_neg same]
  | some x =>
    have alone := @Node.leaf?_of_comparable c.root _ names _ leaf
    rw [Option.isSome_some, if_pos rfl, h.leaf?_put, putLeaves, Node.ofValue, Node.leaf?_null]
    by_cases same : names = q.segments
    · rw [if_pos same, if_pos (same ▸ List.prefix_rfl)]
    · rw [if_neg same]
      split
      · rename_i below
        exact (alone (Or.inl below) same).symm
      · split
        · rename_i above
          exact (alone (Or.inr above) same).symm
        · rfl

theorem Tidy.clearWay (h : c.Tidy) (way : List Path) : (c.clearWay way).Tidy := by
  induction way generalizing c with
  | nil => exact h
  | cons q way ih => exact ih (h.dropLeaf q)

theorem Tidy.leaf?_clearWay (h : c.Tidy) (way : List Path) (names : List String) :
    (c.clearWay way).leaf? names
      = if names ∈ way.map Path.segments then none else c.leaf? names := by
  induction way generalizing c with
  | nil => rfl
  | cons q way ih =>
    have rest := ih (h.dropLeaf q)
    rw [h.leaf?_dropLeaf] at rest
    refine rest.trans ?_
    simp only [List.map_cons, List.mem_cons]
    by_cases same : names = q.segments
    · rw [if_pos same, if_pos (Or.inl same), ite_self]
    · simp only [same, if_false, false_or]

theorem mem_ancestors_segments {p : Path} {names : List String} :
    names ∈ p.ancestors.map Path.segments ↔ names <+: p.segments ∧ names ≠ p.segments := by
  constructor
  · intro h
    obtain ⟨q, hq, rfl⟩ := List.mem_map.mp h
    have above := Path.mem_ancestors.mp hq
    exact ⟨above.isPrefix, fun he => above.ne (Path.eq_of_segments he)⟩
  · rintro ⟨hp, ne⟩
    obtain ⟨q, rfl⟩ := Path.exists_of_isPrefix hp
    exact List.mem_map_of_mem (Path.mem_ancestors.mpr ⟨hp, fun he => ne (by rw [he])⟩)

theorem merge_eq_put (v : Value) (scalar : v.isContainer = false) (c : Cache) (p : Path) :
    c.merge p v = c.put p v := by
  have same : (fun n : Node => n.merge v) = fun _ => (Node.ofValue v).normal := by
    funext n
    rw [(Node.tidy_ofValue v).normal, Node.merge_of_scalar scalar]
  rw [merge, same]
  rfl

theorem Tidy.leaf?_merge_nothing (h : c.Tidy) (container : v.isContainer = true)
    (nothing : v.entries = []) (names : List String) :
    (c.merge p v).leaf? names = (c.clearWay p.ancestors).leaf? names := by
  have same : (fun n : Node => n.merge v) = fun n => n :=
    funext fun n => Node.merge_of_entries_nil container nothing n
  rw [h.leaf?_clearWay, leaf?, merge, same,
    Node.leaf?_updateAt_eq (fun hm => hm) h p.ne_empty_of_mem]
  split
  · rename_i below
    rw [← Node.leaf?_of_isPrefix below, if_neg fun hm => ?_]
    · rfl
    · obtain ⟨above, ne⟩ := mem_ancestors_segments.mp hm
      exact ne (above.eq_of_length_le below.length_le)
  · rename_i below
    have ne : names ≠ p.segments := fun he => below (he ▸ List.prefix_rfl)
    have mem : names ∈ p.ancestors.map Path.segments ↔ names <+: p.segments :=
      mem_ancestors_segments.trans (and_iff_left ne)
    simp only [mem]
    rfl

/-- The place of a merge is opened when the leaves above it and at it are taken away. -/
theorem Tidy.leaf?_opened (h : c.Tidy) (p : Path) (names : List String) :
    (c.root.updateAt Node.opened p.segments).leaf? names
      = (c.clearWay (p.ancestors ++ [p])).leaf? names := by
  have mem : names ∈ (p.ancestors ++ [p]).map Path.segments ↔ names <+: p.segments := by
    rw [List.map_append, List.mem_append, mem_ancestors_segments, List.map_singleton,
      List.mem_singleton]
    constructor
    · rintro (hp | rfl)
      · exact hp.1
      · exact List.prefix_rfl
    · intro hp
      by_cases same : names = p.segments
      · exact Or.inr same
      · exact Or.inl ⟨hp, same⟩
  rw [h.leaf?_clearWay, Node.leaf?_updateAt_eq Node.isOverlay_opened.keep h p.ne_empty_of_mem]
  simp only [mem]
  split
  · rename_i below
    obtain ⟨rest, rfl⟩ := below
    rw [List.drop_left, leaf?, Node.leaf?_append]
    cases rest with
    | nil =>
      rw [if_pos (List.append_nil _ ▸ List.prefix_rfl)]
      exact Node.leaf?_ofChildren_nil _
    | cons s rest =>
      have longer : ¬ p.segments ++ s :: rest <+: p.segments := by
        intro hp
        have short := hp.length_le
        rw [List.length_append, List.length_cons] at short
        omega
      rw [if_neg longer]
      exact Node.leaf?_ofChildren_cons (Node.Tidy.reach h _).family.sound s rest
  · rfl

theorem takeEntry_root (names : List String) (c : Cache) {e : String × Value}
    (name : e.1.isEmpty = false) :
    (takeEntry names c e).root = c.root.updateAt (fun n => Node.mergeEntry n e) names := by
  have same : UpdateKind.apply (if e.2.isContainer then .merge else .put) e.2
      = fun n => n.merge e.2 := by
    funext n
    cases kind : e.2.isContainer with
    | true => rfl
    | false => exact (Node.merge_of_scalar kind n).symm
  rw [takeEntry, name, if_neg Bool.false_ne_true, takeAt, same, Node.updateAt_append]
  rfl

theorem foldl_takeEntry_root (names : List String) (entries : List (String × Value)) (c : Cache) :
    (entries.foldl (takeEntry names) c).root
      = (entries.filter fun e => !e.1.isEmpty).foldl
        (fun n e => n.updateAt (fun m => m.mergeEntry e) names) c.root := by
  induction entries generalizing c with
  | nil => rfl
  | cons e entries ih =>
    rw [List.foldl_cons, ih]
    cases name : e.1.isEmpty with
    | true =>
      have passed : takeEntry names c e = c := by rw [takeEntry, name, if_pos rfl]
      rw [passed, List.filter_cons_of_neg (by simp [name])]
    | false =>
      rw [takeEntry_root names c name, List.filter_cons_of_pos (by simp [name]), List.foldl_cons]

/-- A merge of entries takes them one by one, once the way is clear. -/
theorem Tidy.leaf?_merge_entries (h : c.Tidy) (p : Path) (some : v.entries ≠ [])
    (names : List String) : (c.merge p v).leaf? names
      = (v.entries.foldl (takeEntry p.segments) (c.clearWay (p.ancestors ++ [p]))).leaf? names := by
  let row := v.entries.filter fun e => !e.1.isEmpty
  have lays : ∀ e ∈ row, Node.IsOverlay fun n => Node.mergeEntry n e :=
    fun e he => Node.isOverlay_mergeEntry (Node.named_of_mem_filter e he)
  have named := p.ne_empty_of_mem
  have keep : ∀ {n : Node}, n.Tidy → (row.foldl Node.mergeEntry n.opened).Tidy :=
    fun hn => Node.tidy_foldl lays (Node.isOverlay_opened.keep hn)
  have opened : (c.root.updateAt Node.opened p.segments).Tidy :=
    Node.Tidy.updateAt Node.isOverlay_opened.keep named h
  calc (c.merge p v).leaf? names
      = (c.root.updateAt (fun n => row.foldl Node.mergeEntry n.opened) p.segments).leaf? names := by
        refine Node.Alike.updateAt (fun hn => hn.merge v) keep h h named (fun _ => rfl) ?_ names
        rw [Node.merge_eq_foldl (Node.Tidy.reach h _) some]
        exact fun _ => rfl
    _ = (row.foldl (fun n e => n.updateAt (fun m => m.mergeEntry e) p.segments)
          (c.root.updateAt Node.opened p.segments)).leaf? names :=
        Node.alike_updateAt_foldl lays Node.isOverlay_opened.keep h named names
    _ = (row.foldl (fun n e => n.updateAt (fun m => m.mergeEntry e) p.segments)
          (c.clearWay (p.ancestors ++ [p])).root).leaf? names :=
        Node.alike_foldl (fun e he => (lays e he).updateAt named) opened
          (h.clearWay _) (h.leaf?_opened p) names
    _ = _ := by rw [leaf?, foldl_takeEntry_root]

theorem Tidy.descend?_merge (h : c.Tidy) (p : Path) (container : v.isContainer = true)
    {key : String} (new : key ∉ v.entries.map Prod.fst) :
    (c.merge p v).root.descend? (p.segments ++ [key]) = c.root.descend? (p.segments ++ [key]) := by
  have tidy : (c.merge p v).Tidy := h.take .merge p v
  have same : (c.merge p v).root.reach (p.segments ++ [key])
      = c.root.reach (p.segments ++ [key]) := by
    rw [Node.reach_append, Node.reach_append, merge,
      Node.reach_updateAt (fun hn => hn.merge v) h p.ne_empty_of_mem]
    exact Node.childOf_merge (Node.Tidy.reach h _) container new
  cases hp : p.segments ++ [key] with
  | nil => cases List.append_ne_nil_of_right_ne_nil _ (List.cons_ne_nil key []) hp
  | cons s rest =>
    rw [hp] at same
    rw [Node.Tidy.descend?_cons_eq tidy, Node.Tidy.descend?_cons_eq h, same]

theorem Tidy.leaf?_merge_twice (h : c.Tidy) (p : Path) (v : Value) (names : List String) :
    ((c.merge p v).merge p v).leaf? names = (c.merge p v).leaf? names :=
  ((Node.isOverlay_merge v).updateAt p.ne_empty_of_mem).twice h names

theorem Tidy.foldl_takeEntry (h : c.Tidy) (p : Path) (entries : List (String × Value)) :
    Tidy (entries.foldl (takeEntry p.segments) c) := by
  unfold Tidy
  rw [foldl_takeEntry_root]
  refine Node.tidy_foldl (fun e he => ?_) h
  exact (Node.isOverlay_mergeEntry (Node.named_of_mem_filter e he)).updateAt p.ne_empty_of_mem

theorem merge_is_row {edits : List Edit} (admissible : ∀ e ∈ edits, e.Admissible) (p : Path)
    (v : Value) :
    (v.isContainer = false → (editAll edits).merge p v = (editAll edits).put p v)
    ∧ (v.isContainer = true → v.entries = [] →
      ((editAll edits).merge p v).sameAs ((editAll edits).clearWay p.ancestors) = true)
    ∧ (v.entries ≠ [] → ((editAll edits).merge p v).sameAs
      (v.entries.foldl (takeEntry p.segments) ((editAll edits).clearWay (p.ancestors ++ [p])))
      = true)
    ∧ (∀ c e q, p.child e.1 = .ok q →
      takeEntry p.segments c e = if e.2.isContainer then c.merge q e.2 else c.put q e.2)
    ∧ (v.isContainer = true → ∀ key, key ∉ v.entries.map Prod.fst →
      ((editAll edits).merge p v).root.descend? (p.segments ++ [key])
        = (editAll edits).root.descend? (p.segments ++ [key]))
    ∧ (((editAll edits).merge p v).merge p v).sameAs ((editAll edits).merge p v) = true := by
  have tidy := (current_editAll admissible).tidy
  have merged : ((editAll edits).merge p v).Tidy := tidy.take .merge p v
  have again : (((editAll edits).merge p v).merge p v).Tidy := merged.take .merge p v
  refine ⟨fun scalar => merge_eq_put v scalar _ p, fun container nothing => ?_, fun some => ?_,
    fun c e q h => ?_, fun container key new => tidy.descend?_merge p container new, ?_⟩
  · exact (merged.sameAs_iff (tidy.clearWay _)).mpr (tidy.leaf?_merge_nothing container nothing)
  · exact (merged.sameAs_iff ((tidy.clearWay _).foldl_takeEntry p _)).mpr
      (tidy.leaf?_merge_entries p some)
  · rw [takeEntry_child h]
    cases e.2.isContainer <;> rfl
  · exact (again.sameAs_iff merged).mpr (tidy.leaf?_merge_twice p v)

/-- A document with a key that stands twice, an empty key, an absence and containers. -/
def document : Value :=
  .object [("a", .object [("k", .bool true)]), ("", .bool false), ("a", .object [("l", .text "y")]),
    ("b", .null), ("c", .array [])]

theorem document_below_leaf : ∃ p q : Path, (∀ e ∈ planted p q, e.Admissible)
    ∧ ((editAll (planted p q)).merge p document).sameAs
      (document.entries.foldl (takeEntry p.segments)
        ((editAll (planted p q)).clearWay (p.ancestors ++ [p]))) = true
    ∧ (((editAll (planted p q)).merge p document).leaf? ["x", "a"]).isNone = true
    ∧ (((editAll (planted p q)).merge p document).leaf? ["x", "a", "k"]).bind Value.bool?
      = some true
    ∧ (((editAll (planted p q)).merge p document).leaf? ["x", "a", "l"]).bind Value.text?
      = some "y"
    ∧ (((editAll (planted p q)).merge p document).leaf? ["x", "b"]).isNone = true := by
  have row (p q) := (merge_is_row (admissible_planted p q) p document).2.2.1 (List.cons_ne_nil _ _)
  refine ⟨⟨["x"], by decide, by decide⟩, ⟨["z"], by decide, by decide⟩, admissible_planted _ _,
    row _ _, ?_, ?_, ?_, ?_⟩
  all_goals decide +kernel

end LiveTree.Cache
