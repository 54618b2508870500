import LiveTree.Proofs.Node.Identity
import LiveTree.Proofs.Subscriptions.Baselines

/-!
# What has happened to children

Children stand in the order of their names. Two such lists of digests are compared in one go, and
what comes out says of each name, once and in order, what has become of its digest.
-/

namespace LiveTree

/-- The names ascend. -/
def Ascending {β : Type} (l : List (String × β)) : Prop :=
  l.Pairwise fun a b => Segment.compare a.1 b.1 = .lt

section Ascending
variable {β : Type} {l : List (String × β)} {name : String} {x : β}

theorem lookup_of_before (before : ∀ e ∈ l, Segment.compare name e.1 = .lt) :
    l.lookup name = none := by
  refine List.lookup_eq_none_iff.mpr fun e he => bne_iff_ne.mpr fun same => ?_
  have self : Segment.compare name name = .eq := Std.ReflCmp.compare_self
  have less := before e he
  rw [← same, self] at less
  cases less

theorem lookup_cons_of_ne {key : String} (ne : key ≠ name) :
    ((name, x) :: l).lookup key = l.lookup key := by
  rw [List.lookup_cons, beq_false_of_ne ne]

theorem Ascending.before {e : String × β} (h : Ascending (e :: l))
    (less : Segment.compare name e.1 = .lt) : ∀ x ∈ e :: l, Segment.compare name x.1 = .lt := by
  refine List.forall_mem_cons.mpr ⟨less, fun x hx => ?_⟩
  exact Std.TransCmp.lt_trans less ((List.pairwise_cons.mp h).1 x hx)

theorem Ascending.lookup_eq_some_iff (h : Ascending l) :
    l.lookup name = some x ↔ (name, x) ∈ l := by
  induction l with
  | nil => simp
  | cons e l ih =>
    obtain ⟨first, rest⟩ := List.pairwise_cons.mp h
    by_cases here : name = e.1
    · have absent : (name, x) ∉ l := fun mem => by
        have none := lookup_of_before first
        rw [← here, (ih rest).mpr mem] at none
        cases none
      rw [here, List.lookup_cons_self, ← here, List.mem_cons, or_iff_left absent, Prod.ext_iff]
      simp [here, eq_comm]
    · rw [lookup_cons_of_ne here, ih rest, List.mem_cons, Prod.ext_iff]
      simp [here]

end Ascending

namespace Baseline

/-- What has become of a child, by its digests before and after. -/
def fate : Option Digest → Option Digest → Option EventKind
  | none, none => none
  | none, some _ => some .childAdded
  | some _, none => some .childRemoved
  | some d, some e => if d = e then none else some .childChanged

variable {old new : List (String × Digest)} {name key : String} {d e : Digest} {kind : EventKind}

theorem fate_self (d : Option Digest) : fate d d = none := by
  cases d with
  | none => rfl
  | some d => exact if_pos rfl

theorem fate_ne_removed (d : Option Digest) (e : Digest) :
    fate d (some e) ≠ some .childRemoved := by
  cases d with
  | none => nofun
  | some d =>
    rw [fate]
    split <;> nofun

theorem removed_of_fate {d : Option Digest} (h : fate d none = some kind) :
    kind = .childRemoved := by
  cases d with
  | none => cases h
  | some d =>
    cases h
    rfl

theorem fate_cons_old (before : ∀ e ∈ old, Segment.compare name e.1 = .lt)
    (before' : ∀ e ∈ new, Segment.compare name e.1 = .lt) :
    fate (((name, d) :: old).lookup key) (new.lookup key) = some kind
      ↔ (kind, key) = (.childRemoved, name)
        ∨ fate (old.lookup key) (new.lookup key) = some kind := by
  by_cases here : key = name
  · rw [here, List.lookup_cons_self, lookup_of_before before, lookup_of_before before']
    simp [fate, eq_comm]
  · rw [lookup_cons_of_ne here]
    simp [here]

theorem fate_cons_new (before : ∀ e ∈ old, Segment.compare name e.1 = .lt)
    (before' : ∀ e ∈ new, Segment.compare name e.1 = .lt) :
    fate (old.lookup key) (((name, d) :: new).lookup key) = some kind
      ↔ (kind, key) = (.childAdded, name)
        ∨ fate (old.lookup key) (new.lookup key) = some kind := by
  by_cases here : key = name
  · rw [here, List.lookup_cons_self, lookup_of_before before, lookup_of_before before']
    simp [fate, eq_comm]
  · rw [lookup_cons_of_ne here]
    simp [here]

theorem fate_cons_both (before : ∀ e ∈ old, Segment.compare name e.1 = .lt)
    (before' : ∀ e ∈ new, Segment.compare name e.1 = .lt) :
    fate (((name, d) :: old).lookup key) (((name, e) :: new).lookup key) = some kind
      ↔ (d ≠ e ∧ (kind, key) = (.childChanged, name))
        ∨ fate (old.lookup key) (new.lookup key) = some kind := by
  by_cases here : key = name
  · rw [here, List.lookup_cons_self, List.lookup_cons_self, lookup_of_before before,
      lookup_of_before before']
    by_cases same : d = e <;> simp [fate, same, eq_comm]
  · rw [lookup_cons_of_ne here, lookup_cons_of_ne here]
    simp [here]

/-- The comparison says of each name what has happened to its digest. -/
theorem mem_changes_iff (ho : Ascending old) (hn : Ascending new) :
    (kind, key) ∈ changes old new ↔ fate (old.lookup key) (new.lookup key) = some kind := by
  fun_induction changes old new with
  | case1 => simp [fate]
  | case2 a d old ih =>
    obtain ⟨before, ho⟩ := List.pairwise_cons.mp ho
    rw [List.mem_cons, ih ho hn, fate_cons_old before (List.forall_mem_nil _)]
  | case3 b e new ih =>
    obtain ⟨before, hn⟩ := List.pairwise_cons.mp hn
    rw [List.mem_cons, ih ho hn, fate_cons_new (List.forall_mem_nil _) before]
  | case4 a d old b e new less ih =>
    obtain ⟨before, ho⟩ := List.pairwise_cons.mp ho
    rw [List.mem_cons, ih ho hn, fate_cons_old before (hn.before less)]
  | case5 a d old b e new more ih =>
    obtain ⟨before, hn⟩ := List.pairwise_cons.mp hn
    have less : Segment.compare b a = .lt := Std.OrientedCmp.lt_of_gt more
    rw [List.mem_cons, ih ho hn, fate_cons_new (ho.before less) before]
  | case6 a d old b new equal ih =>
    cases Segment.eq_of_compare equal
    obtain ⟨before, ho⟩ := List.pairwise_cons.mp ho
    obtain ⟨before', hn⟩ := List.pairwise_cons.mp hn
    rw [ih ho hn, fate_cons_both before before']
    simp
  | case7 a d old b e new equal other ih =>
    cases Segment.eq_of_compare equal
    obtain ⟨before, ho⟩ := List.pairwise_cons.mp ho
    obtain ⟨before', hn⟩ := List.pairwise_cons.mp hn
    rw [List.mem_cons, ih ho hn, fate_cons_both before before']
    simp [other]

theorem changes_self (l : List (String × Digest)) : changes l l = [] := by
  induction l with
  | nil => rw [changes]
  | cons e l ih =>
    have self : Segment.compare e.1 e.1 = .eq := Std.ReflCmp.compare_self
    rw [changes, self]
    exact (if_pos rfl).trans ih

theorem changes_after (ho : Ascending old) (hn : Ascending new)
    (before : ∀ e ∈ old, Segment.compare name e.1 = .lt)
    (before' : ∀ e ∈ new, Segment.compare name e.1 = .lt) :
    ∀ change ∈ changes old new, Segment.compare name change.2 = .lt := by
  rintro ⟨kind, key⟩ mem
  have happened := (mem_changes_iff ho hn).mp mem
  cases hd : old.lookup key with
  | some d => exact before _ (ho.lookup_eq_some_iff.mp hd)
  | none =>
    cases he : new.lookup key with
    | some e => exact before' _ (hn.lookup_eq_some_iff.mp he)
    | none =>
      rw [hd, he] at happened
      cases happened

/-- The comparison mentions names in order, and so no name twice. -/
theorem changes_ascend (ho : Ascending old) (hn : Ascending new) :
    (changes old new).Pairwise fun a b => Segment.compare a.2 b.2 = .lt := by
  fun_induction changes old new with
  | case1 => exact .nil
  | case2 a d old ih =>
    obtain ⟨before, ho⟩ := List.pairwise_cons.mp ho
    exact .cons (changes_after ho hn before (List.forall_mem_nil _)) (ih ho hn)
  | case3 b e new ih =>
    obtain ⟨before, hn⟩ := List.pairwise_cons.mp hn
    exact .cons (changes_after ho hn (List.forall_mem_nil _) before) (ih ho hn)
  | case4 a d old b e new less ih =>
    obtain ⟨before, ho⟩ := List.pairwise_cons.mp ho
    exact .cons (changes_after ho hn before (hn.before less)) (ih ho hn)
  | case5 a d old b e new more ih =>
    obtain ⟨before, hn⟩ := List.pairwise_cons.mp hn
    have less : Segment.compare b a = .lt := Std.OrientedCmp.lt_of_gt more
    exact .cons (changes_after ho hn (ho.before less) before) (ih ho hn)
  | case6 a d old b new equal ih => exact ih ho.of_cons hn.of_cons
  | case7 a d old b e new equal other ih =>
    cases Segment.eq_of_compare equal
    obtain ⟨before, ho⟩ := List.pairwise_cons.mp ho
    obtain ⟨before', hn⟩ := List.pairwise_cons.mp hn
    exact .cons (changes_after ho hn before before') (ih ho hn)

end Baseline

namespace Cache

/-- The children at a path with their names, in order. -/
def children (c : Cache) (p : Path) : List (String × Node) :=
  (((c.get? p).bind Node.children?).map OrderedMap.toList).getD []

variable {c d : Cache} {p : Path} {key : String}

theorem children_eq (c : Cache) (p : Path) :
    c.children p = (c.root.reach p.segments).childrenOf.toList := by
  rw [children, get?, Node.get?, ← Node.descend?_getD]
  cases c.root.descend? p.segments with
  | none => rfl
  | some n => cases n <;> rfl

theorem childDigests_eq_filterMap (c : Cache) (p : Path) : Baseline.childDigests c p
    = (c.children p).filterMap fun e => e.2.hash.map fun d => (e.1, d) := by
  rw [Baseline.childDigests_eq, children_eq, Baseline.digestsOf]

theorem Tidy.ascending_children (h : c.Tidy) (p : Path) : Ascending (c.children p) := by
  rw [children_eq]
  exact OrderedMap.entries_ascend (Node.Tidy.reach h p.segments).family.sound

theorem Tidy.ascending_childDigests (h : c.Tidy) (p : Path) :
    Ascending (Baseline.childDigests c p) := by
  rw [childDigests_eq_filterMap]
  refine (h.ascending_children p).filterMap _ fun a b less x hx y hy => ?_
  obtain ⟨_, _, rfl⟩ := Option.map_eq_some_iff.mp hx
  obtain ⟨_, _, rfl⟩ := Option.map_eq_some_iff.mp hy
  exact less

theorem Tidy.lookup_children (h : c.Tidy) (p : Path) (key : String) :
    (c.children p).lookup key = (c.get? p).bind fun n => n.child? key := by
  have sound := (Node.Tidy.reach h p.segments).family.sound
  have found : ((c.get? p).bind fun n => n.child? key)
      = (c.root.reach p.segments).childrenOf.get? key := by
    rw [get?, Node.get?, ← Node.descend?_getD]
    cases c.root.descend? p.segments with
    | none => rfl
    | some n => exact n.child?_eq key
  apply Option.ext
  intro n
  rw [(h.ascending_children p).lookup_eq_some_iff, found, OrderedMap.get?_eq_some_iff sound,
    children_eq]

theorem Tidy.childValue_eq (h : c.Tidy) (p : Path) (key : String) :
    Subscription.childValue c p key
      = (((c.children p).lookup key).map Node.toValue).getD .null := by
  rw [h.lookup_children]
  rfl

theorem Tidy.tidy_child (h : c.Tidy) {e : String × Node} (he : e ∈ c.children p) : e.2.Tidy := by
  have family := (Node.Tidy.reach h p.segments).family
  rw [children_eq] at he
  exact family.below e.1 e.2 ((OrderedMap.get?_eq_some_iff family.sound).mpr he)

theorem Current.hash_isSome (h : c.Current) {e : String × Node} (he : e ∈ c.children p) :
    e.2.hash.isSome := by
  have tidy := h.tidy.tidy_child he
  have family := (Node.Tidy.reach h.tidy p.segments).family
  rw [children_eq] at he
  have get := (OrderedMap.get?_eq_some_iff family.sound).mpr he
  rw [((h.reach p.segments).all e.1 e.2 get).hash_eq tidy]
  exact tidy.contentHash_isSome (family.present e.1 e.2 get)

theorem Current.lookup_childDigests (h : c.Current) (p : Path) (key : String) :
    (Baseline.childDigests c p).lookup key = ((c.children p).lookup key).bind Node.hash := by
  rw [childDigests_eq_filterMap]
  have told : ∀ e ∈ c.children p, e.2.hash.isSome := fun e he => h.hash_isSome he
  generalize c.children p = l at told
  induction l with
  | nil => rfl
  | cons e l ih =>
    obtain ⟨first, told⟩ := List.forall_mem_cons.mp told
    obtain ⟨d, hd⟩ := Option.isSome_iff_exists.mp first
    rw [List.filterMap_cons, hd, Option.map_some]
    by_cases here : key = e.1
    · rw [here, List.lookup_cons_self, List.lookup_cons_self, Option.bind_some, hd]
    · rw [lookup_cons_of_ne here, lookup_cons_of_ne here, ih told]

/-- The digest of a child, if it is there. -/
def childHash (c : Cache) (p : Path) (key : String) : Option Digest :=
  ((c.children p).lookup key).bind Node.hash

/-- The comparison of the children at a path says what has become of their digests. -/
theorem Current.mem_changes_iff (hc : c.Current) (hd : d.Current) {kind : EventKind} :
    (kind, key) ∈ Baseline.changes (Baseline.childDigests c p) (Baseline.childDigests d p)
      ↔ Baseline.fate (c.childHash p key) (d.childHash p key) = some kind := by
  rw [Baseline.mem_changes_iff (hc.tidy.ascending_childDigests p)
    (hd.tidy.ascending_childDigests p), hc.lookup_childDigests, hd.lookup_childDigests]
  rfl

theorem childHash_of_none (absent : (c.children p).lookup key = none) :
    c.childHash p key = none := by
  rw [childHash, absent]
  rfl

theorem Current.childHash_of_some (h : c.Current) {n : Node}
    (there : (c.children p).lookup key = some n) :
    ∃ d, n.hash = some d ∧ c.childHash p key = some d := by
  have mem := (h.tidy.ascending_children p).lookup_eq_some_iff.mp there
  obtain ⟨d, hash⟩ := Option.isSome_iff_exists.mp (h.hash_isSome mem)
  refine ⟨d, hash, ?_⟩
  rw [childHash, there]
  exact hash

end Cache

end LiveTree
