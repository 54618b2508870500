import LiveTree.Cache.Basic
import LiveTree.Frame.Message
import LiveTree.Proofs.Node.Content
import LiveTree.Proofs.Node.Overlay
import LiveTree.Proofs.Path.Order

/-!
# What changes do to a cache

A change at a path decides the leaves there and below, ends all leaves above, and leaves everything
else as it is. From that follows what a row of puts does when the paths come in order: it lets the
last put above or below each place decide.
-/

namespace LiveTree

theorem Path.ne_empty_of_mem (p : Path) : ∀ s ∈ p.segments, s ≠ "" := by
  rintro s hs rfl
  have legal := List.all_eq_true.mp p.legal "" hs
  revert legal
  decide

theorem Path.exists_of_isPrefix {p : Path} {names : List String} (h : names <+: p.segments) :
    ∃ m : Path, m.segments = names :=
  ⟨p.take names.length, (List.prefix_iff_eq_take.mp h).symm⟩

/-- What an update does to the node at its place. -/
def UpdateKind.apply (kind : UpdateKind) (v : Value) (n : Node) : Node :=
  match kind with
  | .put => Node.ofValue v
  | .merge => n.merge v

theorem Node.Tidy.apply {n : Node} (h : n.Tidy) (kind : UpdateKind) (v : Value) :
    (kind.apply v n).Tidy := by
  cases kind with
  | put => exact Node.tidy_ofValue v
  | merge => exact h.merge v

namespace Cache

def take (c : Cache) (kind : UpdateKind) (p : Path) (v : Value) : Cache :=
  match kind with
  | .put => c.put p v
  | .merge => c.merge p v

def Tidy (c : Cache) : Prop := c.root.Tidy

def leaf? (c : Cache) (names : List String) : Option Value := c.root.leaf? names

variable {c d : Cache} {kind : UpdateKind} {p q : Path} {v : Value}

theorem tidy_empty : empty.Tidy := .null

theorem take_root (c : Cache) (kind : UpdateKind) (p : Path) (v : Value) :
    (c.take kind p v).root = c.root.updateAt (kind.apply v) p.segments := by
  cases kind with
  | put =>
    have normal := (Node.tidy_ofValue v).normal
    simp only [take, put, putNode, normal]
    rfl
  | merge => rfl

theorem Tidy.take (h : c.Tidy) (kind : UpdateKind) (p : Path) (v : Value) :
    (c.take kind p v).Tidy := by
  unfold Tidy
  rw [take_root]
  exact Node.Tidy.updateAt (fun hm => hm.apply kind v) p.ne_empty_of_mem h

theorem tidy_ofSnapshot {bytes : Bytes} (h : ofSnapshot bytes = .ok c) : c.Tidy := by
  unfold ofSnapshot at h
  cases hr : Cbor.read bytes with
  | error e => simp [hr, Except.map] at h
  | ok v =>
    simp only [hr, Except.map, Except.ok.injEq] at h
    exact h ▸ Node.tidy_ofValue v

theorem leaf?_take (h : c.Tidy) (kind : UpdateKind) (p : Path) (v : Value) (rest : List String) :
    (c.take kind p v).leaf? (p.segments ++ rest)
      = (kind.apply v (c.root.reach p.segments)).leaf? rest := by
  rw [leaf?, take_root]
  exact Node.leaf?_updateAt (fun hm => hm.apply kind v) h p.ne_empty_of_mem rest

theorem leaf?_take_above (h : c.Tidy) (kind : UpdateKind) (p : Path) (v : Value)
    {names : List String} (above : names <+: p.segments) (ne : names ≠ p.segments) :
    (c.take kind p v).leaf? names = none := by
  rw [leaf?, take_root]
  exact Node.leaf?_updateAt_above (fun hm => hm.apply kind v) h p.ne_empty_of_mem above ne

theorem leaf?_take_apart (h : c.Tidy) (kind : UpdateKind) (p : Path) (v : Value)
    {names : List String} (below : ¬ p.segments <+: names) (above : ¬ names <+: p.segments) :
    (c.take kind p v).leaf? names = c.leaf? names := by
  rw [leaf?, take_root]
  exact Node.leaf?_updateAt_apart (fun hm => hm.apply kind v) h p.ne_empty_of_mem below above

theorem valueAt_eq (c : Cache) (p : Path) : c.valueAt p = (c.root.reach p.segments).toValue := by
  rw [valueAt, get?, Node.get?, ← Node.descend?_getD]
  cases c.root.descend? p.segments <;> rfl

theorem valueAt_eq_iff (hc : c.Tidy) (hd : d.Tidy) : c.valueAt p = d.valueAt p ↔
    ∀ rest, c.leaf? (p.segments ++ rest) = d.leaf? (p.segments ++ rest) := by
  rw [valueAt_eq, valueAt_eq, (Node.Tidy.reach hc _).toValue_eq_iff (Node.Tidy.reach hd _)]
  simp only [Node.Alike, leaf?, Node.leaf?_append]

theorem valueAt_eq_of_isPrefix (hc : c.Tidy) (hd : d.Tidy) (hpq : p.segments <+: q.segments)
    (h : c.valueAt p = d.valueAt p) : c.valueAt q = d.valueAt q := by
  obtain ⟨t, ht⟩ := hpq
  apply (valueAt_eq_iff hc hd).mpr
  intro rest
  rw [← ht, List.append_assoc]
  exact (valueAt_eq_iff hc hd).mp h (t ++ rest)

theorem leaf?_put_valueAt (hc : c.Tidy) (hd : d.Tidy) (rest : List String) :
    (c.take .put p (d.valueAt p)).leaf? (p.segments ++ rest) = d.leaf? (p.segments ++ rest) := by
  rw [leaf?_take hc, valueAt_eq, leaf?, Node.leaf?_append]
  exact (Node.Tidy.reach hd _).alike_ofValue rest

theorem take_agrees (hc : c.Tidy) (hd : d.Tidy) (kind : UpdateKind) (v : Value)
    (hqp : q.segments <+: p.segments) (h : c.valueAt q = d.valueAt q) :
    (c.take kind p v).valueAt q = (d.take kind p v).valueAt q := by
  have leaves := (valueAt_eq_iff hc hd).mp h
  apply (valueAt_eq_iff (hc.take kind p v) (hd.take kind p v)).mpr
  intro rest
  by_cases below : p.segments <+: q.segments ++ rest
  · obtain ⟨t, ht⟩ := below
    obtain ⟨u, hu⟩ := hqp
    have alike : Node.Alike (c.root.reach p.segments) (d.root.reach p.segments) := fun names => by
      have := leaves (u ++ names)
      rw [← List.append_assoc, hu, leaf?, leaf?, Node.leaf?_append, Node.leaf?_append] at this
      exact this
    rw [← ht, leaf?_take hc, leaf?_take hd]
    cases kind with
    | put => rfl
    | merge =>
      exact (Node.isOverlay_merge v).alike (Node.Tidy.reach hc _) (Node.Tidy.reach hd _) alike t
  · by_cases above : q.segments ++ rest <+: p.segments
    · have ne : q.segments ++ rest ≠ p.segments := fun he => below (he ▸ List.prefix_rfl)
      rw [leaf?_take_above hc kind p v above ne, leaf?_take_above hd kind p v above ne]
    · rw [leaf?_take_apart hc kind p v below above, leaf?_take_apart hd kind p v below above]
      exact leaves rest

theorem valueAt_take_apart (hc : c.Tidy) (kind : UpdateKind) (v : Value)
    (below : ¬ p.segments <+: q.segments) (above : ¬ q.segments <+: p.segments) :
    (c.take kind p v).valueAt q = c.valueAt q := by
  apply (valueAt_eq_iff (hc.take kind p v) hc).mpr
  intro rest
  refine leaf?_take_apart hc kind p v (fun h => ?_) fun h => ?_
  · rcases List.prefix_or_prefix_of_prefix h (List.prefix_append q.segments rest) with h | h
    · exact below h
    · exact above h
  · exact above ((List.prefix_append q.segments rest).trans h)

/-- The cache after what stands in another cache was put at some paths. -/
def copy (d : Cache) (ls : List Path) (c : Cache) : Cache :=
  ls.foldl (fun c l => c.take .put l (d.valueAt l)) c

theorem Tidy.copy {ls : List Path} (hc : c.Tidy) (d : Cache) : (d.copy ls c).Tidy := by
  induction ls generalizing c with
  | nil => exact hc
  | cons l ls ih => exact ih (hc.take .put l _)

section Copy
variable {ls : List Path} {names : List String}

theorem leaf?_copy_apart (hc : c.Tidy)
    (apart : ∀ l ∈ ls, ¬ l.segments <+: names ∧ ¬ names <+: l.segments) :
    (d.copy ls c).leaf? names = c.leaf? names := by
  induction ls generalizing c with
  | nil => rfl
  | cons l ls ih =>
    obtain ⟨hl, hls⟩ := List.forall_mem_cons.mp apart
    exact (ih (hc.take .put l _) hls).trans (leaf?_take_apart hc .put l _ hl.1 hl.2)

theorem leaf?_copy_above (hc : c.Tidy) (ascend : ls.Pairwise fun a b => a.compare b = .lt)
    {l : Path} (mem : l ∈ ls) (above : names <+: l.segments) (ne : names ≠ l.segments) :
    (d.copy ls c).leaf? names = none := by
  induction ls generalizing c l with
  | nil => cases mem
  | cons x ls ih =>
    obtain ⟨hx, hls⟩ := List.pairwise_cons.mp ascend
    have hcx := hc.take .put x (d.valueAt x)
    rcases List.mem_cons.mp mem with rfl | mem
    · -- a later put at or above the place would come before this one in order
      have later : ∀ k ∈ ls, ¬ k.segments <+: names := fun k hk hkn => by
        have hkl : k.Above l := by
          refine ⟨hkn.trans above, fun he => ne ?_⟩
          exact above.eq_of_length_le (by rw [← he]; exact hkn.length_le)
        exact Std.OrientedCmp.not_lt_of_lt (hx k hk) hkl.compare_lt
      by_cases more : ∃ k ∈ ls, names <+: k.segments
      · obtain ⟨k, hk, hkn⟩ := more
        exact ih hcx hls hk hkn fun he => later k hk (he ▸ List.prefix_rfl)
      · have apart : ∀ k ∈ ls, ¬ k.segments <+: names ∧ ¬ names <+: k.segments :=
          fun k hk => ⟨later k hk, fun h => more ⟨k, hk, h⟩⟩
        exact (leaf?_copy_apart hcx apart).trans (leaf?_take_above hc .put l _ above ne)
    · exact ih hcx hls mem above ne

theorem leaf?_copy (hc : c.Tidy) (hd : d.Tidy) {l : Path} (mem : l ∈ ls)
    (below : l.segments <+: names) (last : ∀ k ∈ ls, names <+: k.segments → names = k.segments) :
    (d.copy ls c).leaf? names = d.leaf? names := by
  induction ls generalizing c l with
  | nil => cases mem
  | cons x ls ih =>
    obtain ⟨_, last⟩ := List.forall_mem_cons.mp last
    have hcx := hc.take .put x (d.valueAt x)
    by_cases more : ∃ k ∈ ls, k.segments <+: names
    · obtain ⟨k, hk, hkn⟩ := more
      exact ih hcx hk hkn last
    · have apart : ∀ k ∈ ls, ¬ k.segments <+: names ∧ ¬ names <+: k.segments :=
        fun k hk => ⟨fun h => more ⟨k, hk, h⟩,
          fun h => more ⟨k, hk, last k hk h ▸ List.prefix_rfl⟩⟩
      rcases List.mem_cons.mp mem with rfl | mem
      · obtain ⟨rest, rfl⟩ := below
        exact (leaf?_copy_apart hcx apart).trans (leaf?_put_valueAt hc hd rest)
      · exact absurd ⟨l, mem, below⟩ more

/-- Puts in order copy all leaves at a path, but they leave none above another path that is put. -/
theorem leaf?_copy_at (hc : c.Tidy) (hd : d.Tidy)
    (ascend : ls.Pairwise fun a b => a.compare b = .lt)
    (start : q ∈ ls ∨ c.valueAt q = d.valueAt q) (rest : List String) :
    (d.copy ls c).leaf? (q.segments ++ rest)
      = if ∃ l ∈ ls, q.segments ++ rest <+: l.segments ∧ q.segments ++ rest ≠ l.segments then none
        else d.leaf? (q.segments ++ rest) := by
  split
  · rename_i gone
    obtain ⟨l, hl, above, ne⟩ := gone
    exact leaf?_copy_above hc ascend hl above ne
  rename_i kept
  have last : ∀ k ∈ ls, q.segments ++ rest <+: k.segments → q.segments ++ rest = k.segments :=
    fun k hk h => Classical.byContradiction fun ne => kept ⟨k, hk, h, ne⟩
  by_cases there : ∃ l ∈ ls, l.segments <+: q.segments ++ rest
  · obtain ⟨l, hl, below⟩ := there
    exact leaf?_copy hc hd hl below last
  · have apart : ∀ k ∈ ls, ¬ k.segments <+: q.segments ++ rest
        ∧ ¬ q.segments ++ rest <+: k.segments :=
      fun k hk => ⟨fun h => there ⟨k, hk, h⟩,
        fun h => there ⟨k, hk, last k hk h ▸ List.prefix_rfl⟩⟩
    rw [leaf?_copy_apart hc apart]
    rcases start with mem | same
    · exact absurd ⟨q, mem, List.prefix_append _ _⟩ there
    · exact (valueAt_eq_iff hc hd).mp same rest

/-- Puts in order copy what stands at a path unless a leaf is in the way of one further down. -/
theorem valueAt_copy_iff (hc : c.Tidy) (hd : d.Tidy)
    (ascend : ls.Pairwise fun a b => a.compare b = .lt)
    (start : q ∈ ls ∨ c.valueAt q = d.valueAt q) : (d.copy ls c).valueAt q = d.valueAt q ↔
      ∀ l ∈ ls, ∀ m : Path, q.segments <+: m.segments → m.Above l → d.leaf? m.segments = none := by
  rw [valueAt_eq_iff (hc.copy d) hd]
  constructor
  · rintro same l hl m ⟨rest, hm⟩ above
    rw [← hm, ← same rest, hm]
    exact leaf?_copy_above hc ascend hl above.1 fun he => above.2 (Path.eq_of_segments he)
  · intro free rest
    rw [leaf?_copy_at hc hd ascend start]
    split
    · rename_i gone
      obtain ⟨l, hl, above, ne⟩ := gone
      obtain ⟨m, hm⟩ := Path.exists_of_isPrefix above
      rw [← hm]
      refine (free l hl m (hm ▸ List.prefix_append _ _) ⟨hm ▸ above, fun he => ne ?_⟩).symm
      rw [← hm, he]
    · rfl

end Copy

end Cache

end LiveTree
