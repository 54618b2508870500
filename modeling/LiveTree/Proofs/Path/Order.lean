import LiveTree.Path.Basic
import LiveTree.Proofs.Path.SegmentOrder

/-!
# The order of paths, and what lies above a path

Paths are in the lexicographic order of their segments, so a path stands before all that lies
below it, and what lies below a path stands together. `Above p q` says that `q` lies strictly below
`p`; the ancestors of a path are exactly the paths above it, and any two of them are comparable.
-/

namespace LiveTree.Path

theorem compareSegments_eq : compareSegments = List.compareLex Segment.compare := by
  funext a b
  induction a generalizing b with
  | nil => cases b <;> rfl
  | cons x xs ih =>
    cases b with
    | nil => rfl
    | cons y ys =>
      rw [compareSegments, List.compareLex_cons_cons, ih]

instance : Std.TransCmp compareSegments := by
  rw [compareSegments_eq]
  infer_instance

instance : Std.LawfulEqCmp compareSegments := by
  rw [compareSegments_eq]
  infer_instance

theorem eq_of_segments {p q : Path} (h : p.segments = q.segments) : p = q := by
  cases p
  cases q
  simp_all

theorem compareSegments_self (s : List String) : compareSegments s s = .eq :=
  Std.ReflCmp.compare_self

theorem eq_of_compareSegments {s t : List String} (h : compareSegments s t = .eq) : s = t :=
  Std.LawfulEqCmp.eq_of_compare h

instance : Std.TransCmp compare where
  eq_swap {p q} := @Std.OrientedCmp.eq_swap _ compareSegments _ p.segments q.segments
  isLE_trans {p q r} :=
    @Std.TransCmp.isLE_trans _ compareSegments _ p.segments q.segments r.segments

instance : Std.LawfulEqCmp compare where
  compare_self {p} := compareSegments_self p.segments
  eq_of_compare h := eq_of_segments (eq_of_compareSegments h)

@[simp] theorem compare_eq_eq_iff {p q : Path} : compare p q = .eq ↔ p = q :=
  Std.LawfulEqCmp.compare_eq_iff_eq

/-- The second path lies strictly below the first. -/
def Above (p q : Path) : Prop := p.segments <+: q.segments ∧ p ≠ q

theorem isPrefixOf_iff {p q : Path} : p.isPrefixOf q = true ↔ p.segments <+: q.segments := by
  simp [isPrefixOf]

theorem above_iff_length {p q : Path} :
    p.Above q ↔ p.segments <+: q.segments ∧ p.segments.length < q.segments.length := by
  constructor
  · rintro ⟨hp, hne⟩
    refine ⟨hp, Nat.lt_of_le_of_ne hp.length_le fun he => hne ?_⟩
    exact eq_of_segments (hp.eq_of_length he)
  · rintro ⟨hp, hlt⟩
    refine ⟨hp, ?_⟩
    intro he
    subst he
    omega

theorem isStrictPrefixOf_iff {p q : Path} : p.isStrictPrefixOf q = true ↔ p.Above q := by
  rw [above_iff_length, isStrictPrefixOf, Bool.and_eq_true, isPrefixOf_iff, decide_eq_true_iff,
    and_comm]
  rfl

instance (p q : Path) : Decidable (p.Above q) := decidable_of_iff _ isStrictPrefixOf_iff

theorem Above.isPrefix {p q : Path} (h : p.Above q) : p.segments <+: q.segments := h.1

theorem not_above_self (p : Path) : ¬ p.Above p := fun h => h.2 rfl

theorem Above.ne {p q : Path} (h : p.Above q) : p ≠ q := h.2

theorem Above.trans {p q r : Path} (hpq : p.Above q) (hqr : q.Above r) : p.Above r := by
  rw [above_iff_length] at *
  exact ⟨hpq.1.trans hqr.1, by omega⟩

theorem isPrefix_iff_eq_or_above {p q : Path} :
    p.segments <+: q.segments ↔ p = q ∨ p.Above q := by
  constructor
  · intro h
    by_cases he : p = q
    · exact Or.inl he
    · exact Or.inr ⟨h, he⟩
  · rintro (rfl | h)
    · exact List.prefix_refl _
    · exact h.1

theorem mem_ancestors {p q : Path} : p ∈ q.ancestors ↔ p.Above q := by
  rw [above_iff_length]
  constructor
  · intro h
    obtain ⟨n, hn, rfl⟩ := List.mem_map.mp h
    have hlt : n < q.segments.length := List.mem_range.mp hn
    refine ⟨List.take_prefix _ _, ?_⟩
    simp only [take, List.length_take]
    omega
  · rintro ⟨hp, hlt⟩
    apply List.mem_map.mpr
    refine ⟨p.segments.length, List.mem_range.mpr hlt, eq_of_segments ?_⟩
    exact (List.prefix_iff_eq_take.mp hp).symm

theorem compareSegments_append (s t : List String) (h : t ≠ []) :
    compareSegments s (s ++ t) = .lt := by
  induction s with
  | nil =>
    cases t with
    | nil => exact absurd rfl h
    | cons x xs => rfl
  | cons x xs ih =>
    have hx : Segment.compare x x = .eq := Std.ReflCmp.compare_self
    rw [List.cons_append, compareSegments, hx, ih]
    rfl

theorem Above.compare_lt {p q : Path} (h : p.Above q) : compare p q = .lt := by
  obtain ⟨⟨t, ht⟩, hne⟩ := h
  unfold compare
  rw [← ht]
  apply compareSegments_append
  rintro rfl
  exact hne (eq_of_segments (by simpa using ht))

theorem then_ne_gt {o o' : Ordering} (h : o.then o' ≠ .gt) : o = .lt ∨ (o = .eq ∧ o' ≠ .gt) := by
  cases o <;> simp_all

theorem isPrefix_of_between {s t u : List String} (hst : compareSegments s t ≠ .gt)
    (htu : compareSegments t u ≠ .gt) (hsu : s <+: u) : s <+: t := by
  induction s generalizing t u with
  | nil => exact List.nil_prefix
  | cons x xs ih =>
    obtain ⟨rest, rfl⟩ := hsu
    cases t with
    | nil => exact absurd rfl hst
    | cons y ys =>
      rw [compareSegments] at hst
      rw [List.cons_append, compareSegments] at htu
      rcases then_ne_gt hst with hxy | ⟨hxy, hxs⟩
      · rcases then_ne_gt htu with hyx | ⟨hyx, _⟩
        · exact absurd hyx (Std.OrientedCmp.not_lt_of_lt hxy)
        · rw [Std.OrientedCmp.eq_symm hyx] at hxy
          cases hxy
      · have he : x = y := Std.LawfulEqCmp.eq_of_compare hxy
        subst he
        rcases then_ne_gt htu with hxx | ⟨_, hys⟩
        · rw [hxy] at hxx
          cases hxx
        · exact List.cons_prefix_cons.mpr ⟨rfl, ih hxs hys (List.prefix_append xs rest)⟩

/-- Everything below a path stands together: what stands between the path and something below it
lies below it as well. -/
theorem isPrefixOf_of_between {p q r : Path} (hpq : compare p q ≠ .gt) (hqr : compare q r ≠ .gt)
    (hpr : p.isPrefixOf r = true) : p.isPrefixOf q = true :=
  isPrefixOf_iff.mpr (isPrefix_of_between hpq hqr (isPrefixOf_iff.mp hpr))

end LiveTree.Path
