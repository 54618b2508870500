import LiveTree.Proofs.OrderedMap.Subtree
import LiveTree.Subscriptions

/-!
# What a change of the cache looks at

A change is looked at from the paths above it and from those at and below it, each of them once. So
what becomes of a subscription, and what it reports, can be said path by path.
-/

namespace LiveTree.Subscriptions

variable {s : Subscriptions} {c : Cache} {p q : Path}

theorem affected_eq (sound : s.byPath.Sound) (p : Path) : s.affected p
    = p.ancestors.filter s.byPath.contains ++ s.byPath.keys.filter fun q => p.isPrefixOf q := by
  rw [affected, OrderedMap.takeWhile_listFrom sound]

theorem mem_affected (sound : s.byPath.Sound) : q ∈ s.affected p ↔
    s.byPath.contains q = true ∧ (q.segments <+: p.segments ∨ p.segments <+: q.segments) := by
  rw [affected_eq sound, List.mem_append, List.mem_filter, List.mem_filter, Path.mem_ancestors,
    OrderedMap.mem_keys_iff sound, Path.isPrefixOf_iff]
  constructor
  · rintro (⟨above, there⟩ | ⟨there, below⟩)
    · exact ⟨there, Or.inl above.isPrefix⟩
    · exact ⟨there, Or.inr below⟩
  · rintro ⟨there, above | below⟩
    · rcases Path.isPrefix_iff_eq_or_above.mp above with rfl | above
      · exact Or.inr ⟨there, List.prefix_rfl⟩
      · exact Or.inl ⟨above, there⟩
    · exact Or.inr ⟨there, below⟩

theorem ancestors_ascend (p : Path) :
    p.ancestors.Pairwise fun q r => Path.compare q r = .lt := by
  apply List.pairwise_map.mpr
  apply List.Pairwise.imp_of_mem _ List.pairwise_lt_range
  intro i j _ hj hij
  have hj : j < p.segments.length := List.mem_range.mp hj
  have above : (p.take i).Above (p.take j) := by
    rw [Path.above_iff_length]
    refine ⟨List.take_prefix_take_left (Nat.le_of_lt hij), ?_⟩
    simp only [Path.take, List.length_take]
    omega
  exact above.compare_lt

/-- What is looked at ascends from the root on, so no path comes twice. -/
theorem affected_ascend (sound : s.byPath.Sound) (p : Path) :
    (s.affected p).Pairwise fun q r => Path.compare q r = .lt := by
  rw [affected_eq sound]
  apply List.pairwise_append.mpr
  refine ⟨(ancestors_ascend p).filter _, (OrderedMap.keys_ascend sound).filter _, ?_⟩
  intro q hq r hr
  have above := Path.mem_ancestors.mp (List.mem_filter.mp hq).1
  have below := Path.isPrefixOf_iff.mp (List.mem_filter.mp hr).2
  rcases Path.isPrefix_iff_eq_or_above.mp below with rfl | below
  · exact above.compare_lt
  · exact (above.trans below).compare_lt

theorem affected_nodup (sound : s.byPath.Sound) (p : Path) : (s.affected p).Nodup := by
  apply (affected_ascend sound p).imp
  rintro q r lt rfl
  rw [Path.compare_eq_eq_iff.mpr rfl] at lt
  cases lt

/-- What the subscriptions to a path have to report. -/
def reports (s : Subscriptions) (c : Cache) (p : Path) : List Event :=
  (s.subscribers p).flatMap fun x => (x.refresh c p).2

theorem subscribers_refreshAt (c : Cache) (acc : Subscriptions × List Event) (p q : Path) :
    (refreshAt c acc p).1.subscribers q
      = if q = p then (acc.1.subscribers p).map fun x => (x.refresh c p).1
        else acc.1.subscribers q := by
  simp only [refreshAt, subscribers, OrderedMap.get?_modify]
  split
  · cases acc.1.byPath.get? p with
    | none => rfl
    | some l => simp
  · rfl

theorem subscribers_outside {paths : List Path} (c : Cache) (acc : Subscriptions × List Event)
    (outside : q ∉ paths) : (paths.foldl (refreshAt c) acc).1.subscribers q
      = acc.1.subscribers q := by
  induction paths generalizing acc with
  | nil => rfl
  | cons p paths ih =>
    obtain ⟨hq, outside⟩ := not_or.mp (mt List.mem_cons.mpr outside)
    rw [List.foldl_cons, ih _ outside, subscribers_refreshAt, if_neg hq]

theorem subscribers_inside {paths : List Path} (c : Cache) (acc : Subscriptions × List Event)
    (nodup : paths.Nodup) (inside : q ∈ paths) : (paths.foldl (refreshAt c) acc).1.subscribers q
      = (acc.1.subscribers q).map fun x => (x.refresh c q).1 := by
  induction paths generalizing acc with
  | nil => cases inside
  | cons p paths ih =>
    obtain ⟨hp, nodup⟩ := List.nodup_cons.mp nodup
    rw [List.foldl_cons]
    rcases List.mem_cons.mp inside with rfl | inside
    · rw [subscribers_outside c _ hp, subscribers_refreshAt, if_pos rfl]
    · have hq : q ≠ p := fun he => hp (he ▸ inside)
      rw [ih _ nodup inside, subscribers_refreshAt, if_neg hq]

theorem events_foldl {paths : List Path} (c : Cache) (acc : Subscriptions × List Event)
    (nodup : paths.Nodup) :
    (paths.foldl (refreshAt c) acc).2 = acc.2 ++ paths.flatMap (acc.1.reports c) := by
  induction paths generalizing acc with
  | nil => exact (List.append_nil _).symm
  | cons p paths ih =>
    obtain ⟨hp, nodup⟩ := List.nodup_cons.mp nodup
    -- no path comes twice, so what the others report is still to be said of the first state
    have later : ∀ q ∈ paths, (refreshAt c acc p).1.reports c q = acc.1.reports c q := by
      intro q hq
      have hqp : q ≠ p := fun he => hp (he ▸ hq)
      rw [reports, reports, subscribers_refreshAt, if_neg hqp]
    have now : (refreshAt c acc p).2 = acc.2 ++ acc.1.reports c p := by
      rw [refreshAt, reports]
      simp only [List.flatMap_map]
    rw [List.foldl_cons, ih _ nodup, now, List.append_assoc, List.flatMap_cons]
    simp only [List.flatMap_def]
    rw [List.map_congr_left later]

theorem sound_foldl {paths : List Path} (c : Cache) (acc : Subscriptions × List Event)
    (sound : acc.1.byPath.Sound) : (paths.foldl (refreshAt c) acc).1.byPath.Sound := by
  induction paths generalizing acc with
  | nil => exact sound
  | cons p paths ih => exact ih _ (sound.modify p _)

theorem subscribers_cacheChanged (sound : s.byPath.Sound) (c : Cache) (p q : Path) :
    (s.cacheChanged c p).1.subscribers q
      = if q ∈ s.affected p then (s.subscribers q).map fun x => (x.refresh c q).1
        else s.subscribers q := by
  unfold cacheChanged
  split
  · rename_i inside
    exact subscribers_inside c (s, []) (affected_nodup sound p) inside
  · rename_i outside
    exact subscribers_outside c (s, []) outside

theorem events_cacheChanged (sound : s.byPath.Sound) (c : Cache) (p : Path) :
    (s.cacheChanged c p).2 = (s.affected p).flatMap (s.reports c) := by
  rw [cacheChanged, events_foldl c (s, []) (affected_nodup sound p)]
  rfl

theorem sound_cacheChanged (sound : s.byPath.Sound) (c : Cache) (p : Path) :
    (s.cacheChanged c p).1.byPath.Sound :=
  sound_foldl c (s, []) sound

theorem handles_cacheChanged (s : Subscriptions) (c : Cache) (p : Path) :
    (s.cacheChanged c p).1.handles = s.handles
      ∧ (s.cacheChanged c p).1.lastHandle = s.lastHandle := by
  unfold cacheChanged
  generalize s.affected p = paths
  have h : ∀ acc : Subscriptions × List Event,
      (paths.foldl (refreshAt c) acc).1.handles = acc.1.handles
        ∧ (paths.foldl (refreshAt c) acc).1.lastHandle = acc.1.lastHandle := by
    induction paths with
    | nil => exact fun _ => ⟨rfl, rfl⟩
    | cons q paths ih => exact fun acc => ih (refreshAt c acc q)
  exact h (s, [])

end LiveTree.Subscriptions
