import LiveTree.Proofs.Cache.Digests
import LiveTree.Proofs.Subscriptions.Affected
import Mathlib.Data.List.Nodup

/-!
# Baselines follow the cache

A baseline is right when it is what would be captured now. Every subscription has a right baseline,
a handle of its own and its place under its path; subscribing, unsubscribing and looking again after
a change keep that. What is captured depends on content alone, and on none that a change leaves.
-/

namespace LiveTree

namespace Baseline

variable {c d : Cache} {p : Path}

/-- The digests of the children of a node. -/
def digestsOf (n : Node) : List (String × Digest) :=
  n.childrenOf.toList.filterMap fun e => e.2.hash.map fun d => (e.1, d)

theorem childDigests_eq (c : Cache) (p : Path) :
    childDigests c p = digestsOf (c.root.reach p.segments) := by
  rw [childDigests, Cache.get?, Node.get?, ← Node.descend?_getD]
  cases c.root.descend? p.segments with
  | none => rfl
  | some n => cases n <;> rfl

theorem capture_congr (kind : EventKind) (h : c.get? p = d.get? p) :
    capture kind c p = capture kind d p := by
  have value : c.hashAt p = d.hashAt p := by rw [Cache.hashAt, Cache.hashAt, h]
  have children : childDigests c p = childDigests d p := by rw [childDigests, childDigests, h]
  cases kind <;> simp only [capture, value, children]

theorem digestsOf_eq_of_alike {m n : Node} (hm : m.Tidy) (hn : n.Tidy) (honest : m.Honest)
    (honest' : n.Honest) (h : Node.Alike m n) : digestsOf m = digestsOf n := by
  have content : ∀ {n : Node}, n.Tidy → n.Honest → digestsOf n
      = (n.childrenOf.toList.map fun e => (e.1, e.2.contentHash)).filterMap
        fun e => e.2.map fun d => (e.1, d) := by
    intro n hn honest
    rw [List.filterMap_map]
    apply List.filterMap_congr
    intro e he
    have get := (OrderedMap.get?_eq_some_iff hn.family.sound).mpr he
    have same := (honest.all e.1 e.2 get).hash_eq (hn.family.below e.1 e.2 get)
    simp only [Function.comp_apply, same]
  have get : ∀ key, (m.childrenOf.get? key).map Node.contentHash
      = (n.childrenOf.get? key).map Node.contentHash :=
    Node.get?_map_eq hm.family hn.family (fun key names => h (key :: names))
      fun key _ _ hm' hn' alike => (hm.family.below key _ hm').contentHash_eq hn' alike
  rw [content hm honest, content hn honest',
    OrderedMap.toList_map_ext hm.family.sound hn.family.sound _ get]

/-- What is captured is content: it does not depend on which digests are remembered. -/
theorem capture_eq_of_alike (hc : c.Current) (hd : d.Current) (kind : EventKind)
    (h : Node.Alike (c.root.reach p.segments) (d.root.reach p.segments)) :
    capture kind c p = capture kind d p := by
  have tidy := Node.Tidy.reach hc.tidy p.segments
  have tidy' := Node.Tidy.reach hd.tidy p.segments
  have value : c.hashAt p = d.hashAt p := by
    rw [hc.hashAt_eq_contentHash, hd.hashAt_eq_contentHash, tidy.contentHash_eq tidy' h]
  have children : childDigests c p = childDigests d p := by
    rw [childDigests_eq, childDigests_eq]
    exact digestsOf_eq_of_alike tidy tidy' (hc.reach _) (hd.reach _) h
  cases kind <;> simp only [capture, value, children]

theorem capture_ask (h : c.Current) (names : List String) (kind : EventKind) (p : Path) :
    capture kind ⟨c.root.rememberAt names⟩ p = capture kind c p := by
  apply capture_eq_of_alike (h.ask names) h
  intro rest
  rw [← Node.leaf?_append, ← Node.leaf?_append]
  exact Node.alike_rememberAt c.root names _

end Baseline

namespace Subscription

variable {c : Cache} {p : Path} {x : Subscription}

@[simp] theorem refresh_handle (c : Cache) (p : Path) (x : Subscription) :
    (x.refresh c p).1.handle = x.handle := by
  unfold refresh
  dsimp only
  split <;> rfl

@[simp] theorem refresh_kind (c : Cache) (p : Path) (x : Subscription) :
    (x.refresh c p).1.kind = x.kind := by
  unfold refresh
  dsimp only
  split <;> rfl

theorem refresh_baseline (c : Cache) (p : Path) (x : Subscription) :
    (x.refresh c p).1.baseline = Baseline.capture x.kind c p := by
  unfold refresh
  dsimp only
  split
  · rename_i same
    exact same.symm
  · rfl

theorem handle_of_mem_refresh {e : Event} (h : e ∈ (x.refresh c p).2) : e.handle = x.handle := by
  unfold refresh at h
  dsimp only at h
  split at h
  · cases h
  · unfold events at h
    split at h
    · rw [List.mem_singleton.mp h]
    · obtain ⟨_, _, rfl⟩ := List.mem_map.mp h
      rfl
    · cases h

theorem refresh_value (value : x.kind = .value) {digest : Option Digest}
    (known : x.baseline = .value digest) : (x.refresh c p).2
      = if c.hashAt p = digest then [] else [⟨x.handle, .value, p, none, c.valueAt p⟩] := by
  unfold refresh
  rw [value, known]
  simp only [Baseline.capture, Baseline.value.injEq]
  split <;> rfl

end Subscription

namespace Subscriptions

/-- Every subscription stands once under its path, with a handle of its own and a baseline that is
right for a cache. -/
structure Faithful (s : Subscriptions) (c : Cache) : Prop where
  sound : s.byPath.Sound
  listed : ∀ p, (s.subscribers p).map (·.handle)
    = (s.handles.filter fun e => e.2 == p).map Prod.fst
  distinct : (s.handles.map Prod.fst).Nodup
  numbered : ∀ e ∈ s.handles, e.1 ≤ s.lastHandle
  captured : ∀ p, ∀ x ∈ s.subscribers p, x.baseline = Baseline.capture x.kind c p

variable {s : Subscriptions} {c d : Cache} {p q : Path} {x y : Subscription}

theorem faithful_empty (c : Cache) (lastHandle : Nat) :
    Faithful ⟨OrderedMap.empty, [], lastHandle⟩ c where
  sound := OrderedMap.sound_empty
  listed _ := rfl
  distinct := List.nodup_nil
  numbered := nofun
  captured _ := nofun

theorem Faithful.mem_handles (h : s.Faithful c) (hx : x ∈ s.subscribers p) :
    (x.handle, p) ∈ s.handles := by
  have mem : x.handle ∈ (s.handles.filter fun e => e.2 == p).map Prod.fst :=
    h.listed p ▸ List.mem_map_of_mem hx
  obtain ⟨e, he, handle⟩ := List.mem_map.mp mem
  obtain ⟨he, path⟩ := List.mem_filter.mp he
  rw [← handle, ← beq_iff_eq.mp path]
  exact he

theorem Faithful.exists_of_mem (h : s.Faithful c) {handle : Nat} (mem : (handle, p) ∈ s.handles) :
    ∃ x ∈ s.subscribers p, x.handle = handle := by
  apply List.mem_map.mp
  rw [h.listed p]
  exact List.mem_map.mpr ⟨_, List.mem_filter.mpr ⟨mem, beq_self_eq_true p⟩, rfl⟩

theorem Faithful.path_eq (h : s.Faithful c) (hx : x ∈ s.subscribers p) (hy : y ∈ s.subscribers q)
    (same : x.handle = y.handle) : p = q :=
  congrArg Prod.snd
    (List.inj_on_of_nodup_map h.distinct (h.mem_handles hx) (h.mem_handles hy) same)

theorem Faithful.handles_nodup (h : s.Faithful c) (p : Path) :
    ((s.subscribers p).map (·.handle)).Nodup := by
  rw [h.listed p]
  exact h.distinct.sublist (List.filter_sublist.map _)

theorem sound_subscribe (sound : s.byPath.Sound) (p : Path) (kind : EventKind) (c : Cache) :
    (s.subscribe p kind c).byPath.Sound := by
  unfold subscribe
  dsimp only
  split
  · exact sound.modify p _
  · exact sound.insert p _

theorem sound_remove (sound : s.byPath.Sound) (handle : Nat) (p : Path) :
    (s.remove handle p).byPath.Sound := by
  unfold remove
  dsimp only
  split
  · exact sound.erase p
  · exact sound.modify p _

theorem subscribers_subscribe (sound : s.byPath.Sound) (p : Path) (kind : EventKind) (c : Cache)
    (q : Path) : (s.subscribe p kind c).subscribers q = s.subscribers q
      ++ if q = p then [⟨s.lastHandle + 1, kind, Baseline.capture kind c p⟩] else [] := by
  simp only [subscribe, subscribers]
  split
  · rename_i there
    obtain ⟨l, hl⟩ := OrderedMap.contains_iff.mp there
    rw [OrderedMap.get?_modify]
    split
    · rename_i hq
      rw [hq, hl]
      rfl
    · exact (List.append_nil _).symm
  · rename_i absent
    have none := OrderedMap.contains_eq_false_iff.mp (Bool.eq_false_iff.mpr absent)
    rw [OrderedMap.get?_insert sound]
    split
    · rename_i hq
      rw [hq, none]
      rfl
    · exact (List.append_nil _).symm

theorem Faithful.subscribe (h : s.Faithful c) (p : Path) (kind : EventKind) :
    (s.subscribe p kind c).Faithful c where
  sound := sound_subscribe h.sound p kind c
  listed q := by
    rw [subscribers_subscribe h.sound, List.map_append, h.listed q]
    change _ = ((s.handles ++ [(s.lastHandle + 1, p)]).filter _).map Prod.fst
    rw [List.filter_append, List.map_append]
    by_cases hq : q = p
    · simp [hq]
    · simp [hq, Ne.symm hq]
  distinct := by
    change ((s.handles ++ [(s.lastHandle + 1, p)]).map Prod.fst).Nodup
    rw [List.map_append]
    apply List.nodup_append.mpr
    refine ⟨h.distinct, List.nodup_singleton _, ?_⟩
    rintro a ha b hb rfl
    obtain ⟨e, he, rfl⟩ := List.mem_map.mp ha
    have bound := h.numbered e he
    rw [List.mem_singleton.mp hb] at bound
    exact Nat.not_succ_le_self _ bound
  numbered e he := by
    rcases List.mem_append.mp he with he | he
    · exact Nat.le_succ_of_le (h.numbered e he)
    · rw [List.mem_singleton.mp he]
      exact Nat.le_refl _
  captured q x hx := by
    rw [subscribers_subscribe h.sound] at hx
    rcases List.mem_append.mp hx with hx | hx
    · exact h.captured q x hx
    · split at hx
      · rename_i hq
        rw [List.mem_singleton.mp hx, hq]
      · cases hx

theorem subscribers_remove (sound : s.byPath.Sound) (handle : Nat) (p q : Path) :
    (s.remove handle p).subscribers q
      = if q = p then (s.subscribers p).filter fun x => x.handle != handle
        else s.subscribers q := by
  unfold remove
  generalize hr : (s.subscribers p).filter (fun x => x.handle != handle) = rest
  cases empty : rest.isEmpty with
  | true =>
    simp only [empty, if_true, subscribers, OrderedMap.get?_erase sound]
    split
    · exact (List.isEmpty_iff.mp empty).symm
    · rfl
  | false =>
    simp only [empty, Bool.false_eq_true, if_false, subscribers, OrderedMap.get?_modify]
    split
    · cases hp : s.byPath.get? p with
      | none =>
        rw [subscribers, hp] at hr
        simp [← hr] at empty
      | some l => rfl
    · rfl

theorem Faithful.remove (h : s.Faithful c) {handle : Nat} (mem : (handle, p) ∈ s.handles) :
    (s.remove handle p).Faithful c where
  sound := sound_remove h.sound handle p
  listed q := by
    rw [subscribers_remove h.sound]
    change _ = ((s.handles.filter fun e => e.1 != handle).filter _).map Prod.fst
    split
    · rename_i hq
      subst hq
      have keep : ((fun h => h != handle) ∘ fun x : Subscription => x.handle)
          = fun x => x.handle != handle := rfl
      rw [List.filter_comm, ← keep, ← List.filter_map, h.listed q, List.filter_map]
      rfl
    · rename_i hq
      rw [h.listed q, List.filter_filter]
      congr 1
      apply List.filter_congr
      intro e he
      by_cases path : e.2 = q
      · have ne : e.1 ≠ handle := by
          intro same
          have := List.inj_on_of_nodup_map h.distinct he mem same
          exact hq (path.symm.trans (congrArg Prod.snd this))
        simp [path, ne]
      · simp [path]
  distinct := h.distinct.sublist (List.filter_sublist.map _)
  numbered e he := h.numbered e (List.mem_filter.mp he).1
  captured q x hx := by
    rw [subscribers_remove h.sound] at hx
    split at hx
    · rename_i hq
      exact hq ▸ h.captured p x (List.mem_filter.mp hx).1
    · exact h.captured q x hx

theorem Faithful.congr (h : s.Faithful c)
    (same : ∀ kind p, Baseline.capture kind d p = Baseline.capture kind c p) : s.Faithful d :=
  { h with captured := fun p x hx => (h.captured p x hx).trans (same x.kind p).symm }

/-- A change at a path that leaves alone what is captured neither above nor below it. -/
def Beside (c d : Cache) (p : Path) : Prop :=
  ∀ kind q, ¬ p.segments <+: q.segments → ¬ q.segments <+: p.segments →
    Baseline.capture kind d q = Baseline.capture kind c q

theorem Faithful.capture_eq (h : s.Faithful c) (beside : Beside c d p) (hx : x ∈ s.subscribers q)
    (outside : q ∉ s.affected p) (kind : EventKind) :
    Baseline.capture kind d q = Baseline.capture kind c q := by
  have there : s.byPath.contains q = true := by
    unfold subscribers at hx
    cases hq : s.byPath.get? q with
    | none =>
      rw [hq] at hx
      cases hx
    | some l => exact OrderedMap.contains_iff.mpr ⟨l, hq⟩
  apply beside kind q
  · exact fun below => outside ((mem_affected h.sound).mpr ⟨there, Or.inr below⟩)
  · exact fun above => outside ((mem_affected h.sound).mpr ⟨there, Or.inl above⟩)

theorem Faithful.cacheChanged (h : s.Faithful c) (beside : Beside c d p) :
    (s.cacheChanged d p).1.Faithful d := by
  obtain ⟨handles, lastHandle⟩ := s.handles_cacheChanged d p
  refine ⟨sound_cacheChanged h.sound d p, ?_, handles ▸ h.distinct, ?_, ?_⟩
  · intro q
    rw [handles, ← h.listed q, subscribers_cacheChanged h.sound]
    split
    · rw [List.map_map]
      exact List.map_congr_left fun x _ => x.refresh_handle d q
    · rfl
  · rw [handles, lastHandle]
    exact h.numbered
  · intro q x hx
    rw [subscribers_cacheChanged h.sound] at hx
    split at hx
    · obtain ⟨y, _, rfl⟩ := List.mem_map.mp hx
      rw [Subscription.refresh_baseline, Subscription.refresh_kind]
    · rename_i outside
      exact (h.captured q x hx).trans (h.capture_eq beside hx outside x.kind).symm

/-- Of a list in which nothing stands twice, the only entry that gives something gives all. -/
theorem flatMap_eq_of_only {α β : Type} {as : List α} {f : α → List β} {a : α} (nodup : as.Nodup)
    (mem : a ∈ as) (only : ∀ b ∈ as, b ≠ a → f b = []) : as.flatMap f = f a := by
  induction as with
  | nil => cases mem
  | cons b as ih =>
    obtain ⟨hb, nodup⟩ := List.nodup_cons.mp nodup
    obtain ⟨here, later⟩ := List.forall_mem_cons.mp only
    rw [List.flatMap_cons]
    rcases List.mem_cons.mp mem with rfl | mem
    · have rest : as.flatMap f = [] :=
        List.flatMap_eq_nil_iff.mpr fun x hx => later x hx fun he => hb (he ▸ hx)
      rw [rest, List.append_nil]
    · rw [here fun he => hb (he ▸ mem), ih nodup mem later, List.nil_append]

theorem filter_refresh_ne (d : Cache) (q : Path) {handle : Nat} (ne : x.handle ≠ handle) :
    (x.refresh d q).2.filter (fun e => e.handle == handle) = [] := by
  apply List.filter_eq_nil_iff.mpr
  intro e he
  rw [Subscription.handle_of_mem_refresh he]
  simpa using ne

theorem Faithful.filter_reports_ne (h : s.Faithful c) (d : Cache) (hx : x ∈ s.subscribers q)
    {r : Path} (ne : r ≠ q) : (s.reports d r).filter (fun e => e.handle == x.handle) = [] := by
  rw [reports, List.filter_flatMap]
  apply List.flatMap_eq_nil_iff.mpr
  intro y hy
  exact filter_refresh_ne d r fun same => ne (h.path_eq hy hx same)

theorem Faithful.filter_reports (h : s.Faithful c) (d : Cache) (hx : x ∈ s.subscribers q) :
    (s.reports d q).filter (fun e => e.handle == x.handle) = (x.refresh d q).2 := by
  have nodup := h.handles_nodup q
  rw [reports, List.filter_flatMap, flatMap_eq_of_only nodup.of_map hx]
  · apply List.filter_eq_self.mpr
    intro e he
    rw [Subscription.handle_of_mem_refresh he]
    exact beq_self_eq_true _
  · intro y hy ne
    exact filter_refresh_ne d q fun same => ne (List.inj_on_of_nodup_map nodup hy hx same)

/-- A change reports to a subscription what looking at its path again reports. -/
theorem Faithful.filter_events (h : s.Faithful c) (beside : Beside c d p)
    (hx : x ∈ s.subscribers q) :
    (s.cacheChanged d p).2.filter (fun e => e.handle == x.handle) = (x.refresh d q).2 := by
  rw [events_cacheChanged h.sound, List.filter_flatMap]
  by_cases inside : q ∈ s.affected p
  · rw [flatMap_eq_of_only (affected_nodup h.sound p) inside, h.filter_reports d hx]
    exact fun r _ ne => h.filter_reports_ne d hx ne
  · have same : Baseline.capture x.kind d q = x.baseline :=
      (h.capture_eq beside hx inside x.kind).trans (h.captured q x hx).symm
    have silent : (x.refresh d q).2 = [] := by
      unfold Subscription.refresh
      dsimp only
      rw [if_pos same]
    rw [silent]
    apply List.flatMap_eq_nil_iff.mpr
    intro r hr
    exact h.filter_reports_ne d hx fun he => inside (he ▸ hr)

/-- A subscription to a value reports a change if and only if the digest at its path has changed,
and then once, with what is there. -/
theorem Faithful.value_reports (h : s.Faithful c) (beside : Beside c d p)
    (hx : x ∈ s.subscribers q) (value : x.kind = .value) :
    (s.cacheChanged d p).2.filter (fun e => e.handle == x.handle)
      = if d.hashAt q = c.hashAt q then [] else [⟨x.handle, .value, q, none, d.valueAt q⟩] := by
  have known : x.baseline = .value (c.hashAt q) := by
    rw [h.captured q x hx, value, Baseline.capture]
  rw [h.filter_events beside hx, Subscription.refresh_value value known]

end Subscriptions

end LiveTree
