import LiveTree.Proofs.OrderedMap.Lookup
import LiveTree.Proofs.Path.Order

/-!
# What a map of paths holds below a path

Everything below a path stands together in the order of paths and right behind it. So the front
part of the walk from a path on is exactly what lies below it.
-/

namespace LiveTree

/-- A front part that ends where a downward closed property ends is all that has the property. -/
theorem takeWhile_eq_filter {α : Type} {p : α → Bool} {as : List α}
    (h : as.Pairwise fun a b => p b = true → p a = true) : as.takeWhile p = as.filter p := by
  induction as with
  | nil => rfl
  | cons a as ih =>
    obtain ⟨ha, has⟩ := List.pairwise_cons.mp h
    cases hp : p a with
    | true => simp [hp, ih has]
    | false =>
      have hnone : as.filter p = [] := by
        apply List.filter_eq_nil_iff.mpr
        intro b hb hpb
        simp [ha b hb hpb] at hp
      simp [hp, hnone]

namespace OrderedMap

variable {β : Type}

theorem compare_ne_gt_of_isPrefixOf {p q : Path} (h : p.isPrefixOf q = true) :
    Path.compare p q ≠ .gt := by
  rcases Path.isPrefix_iff_eq_or_above.mp (Path.isPrefixOf_iff.mp h) with rfl | ha
  · rw [Path.compare_eq_eq_iff.mpr rfl]
    decide
  · rw [ha.compare_lt]
    decide

/-- The front part of the walk from a path on, for as long as the path is a prefix. -/
def subtree (m : OrderedMap Path β Path.compare) (p : Path) : List (Path × β) :=
  (m.listFrom p).takeWhile fun e => p.isPrefixOf e.1

theorem subtree_eq {m : OrderedMap Path β Path.compare} (hm : m.Sound) (p : Path) :
    m.subtree p = m.toList.filter fun e => p.isPrefixOf e.1 := by
  have closed : (m.toList.filter fun e => Path.compare p e.1 != .gt).Pairwise fun a b =>
      p.isPrefixOf b.1 = true → p.isPrefixOf a.1 = true := by
    apply List.Pairwise.imp_of_mem _ ((entries_ascend hm).filter _)
    intro a b ha _ hab hpb
    have hpa : Path.compare p a.1 ≠ .gt := by simpa using (List.mem_filter.mp ha).2
    exact Path.isPrefixOf_of_between hpa (by simp [hab]) hpb
  rw [subtree, listFrom_eq hm, takeWhile_eq_filter closed, List.filter_filter]
  apply List.filter_congr
  intro e _
  cases hp : p.isPrefixOf e.1 with
  | false => rfl
  | true => simpa using compare_ne_gt_of_isPrefixOf hp

theorem takeWhile_listFrom {m : OrderedMap Path β Path.compare} (hm : m.Sound) (p : Path) :
    ((m.listFrom p).map Prod.fst).takeWhile (fun q => p.isPrefixOf q)
      = m.keys.filter fun q => p.isPrefixOf q := by
  have entries : ((m.listFrom p).map Prod.fst).takeWhile (fun q => p.isPrefixOf q)
      = (m.subtree p).map Prod.fst := List.takeWhile_map
  rw [entries, subtree_eq hm, keys, List.filter_map]
  rfl

end OrderedMap

end LiveTree
