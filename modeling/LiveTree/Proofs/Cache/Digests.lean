import LiveTree.Proofs.Cache.Changes
import LiveTree.Proofs.Node.Equality
import LiveTree.Proofs.Node.Upkeep

/-!
# Digests in a cache

Digests are remembered where they were asked for and forgotten along the way to a change. However
changes and questions follow each other, nothing that is remembered is out of date, and a change
forgets nothing beside its way.
-/

namespace LiveTree.Cache

/-- What can be done to a cache. The digest at a path is asked for by its segments; names that are
no segments may be asked for as well. -/
inductive Edit where
  | put (p : Path) (v : Value)
  | merge (p : Path) (v : Value)
  | clear
  | load (snapshot : Bytes)
  | putNode (p : Path) (n : Node)
  | ask (names : List String)

/-- A snapshot that cannot be read leaves the cache as it is. -/
def edit (c : Cache) : Edit → Cache
  | .put p v => c.put p v
  | .merge p v => c.merge p v
  | .clear => empty
  | .load snapshot => (ofSnapshot snapshot).toOption.getD c
  | .putNode p n => c.putNode p n
  | .ask names => ⟨c.root.rememberAt names⟩

def editAll (edits : List Edit) : Cache := edits.foldl edit empty

/-- A node that is put as it is has to be tidy, and what it brings along has to be right. -/
def Edit.Admissible : Edit → Prop
  | .putNode _ n => n.Tidy ∧ n.Honest
  | _ => True

/-- A tidy cache in which nothing that is remembered is out of date. -/
structure Current (c : Cache) : Prop where
  tidy : c.Tidy
  honest : c.root.Honest

variable {c : Cache} {p q : Path} {v : Value} {kind : UpdateKind}

theorem current_empty : empty.Current := ⟨.null, Node.honest_null⟩

theorem current_ofValue (v : Value) : Current ⟨Node.ofValue v⟩ :=
  ⟨Node.tidy_ofValue v, Node.honest_ofValue v⟩

theorem Current.take (h : c.Current) (kind : UpdateKind) (p : Path) (v : Value) :
    (c.take kind p v).Current := by
  refine ⟨h.tidy.take kind p v, ?_⟩
  rw [take_root]
  refine h.honest.updateAt (fun tidy honest => ?_) h.tidy
  cases kind with
  | put => exact Node.honest_ofValue v
  | merge => exact Node.Honest.merge v tidy honest

theorem Current.putNode (h : c.Current) (p : Path) {n : Node} (tidy : n.Tidy) (honest : n.Honest) :
    (c.putNode p n).Current := by
  have normal : n.normal = n := tidy.normal
  unfold Cache.putNode
  rw [normal]
  exact ⟨Node.Tidy.updateAt (fun _ => tidy) p.ne_empty_of_mem h.tidy,
    h.honest.updateAt (fun _ _ => honest) h.tidy⟩

theorem Current.ask (h : c.Current) (names : List String) :
    Current ⟨c.root.rememberAt names⟩ :=
  ⟨Node.Tidy.rememberAt h.tidy names, h.honest.rememberAt h.tidy names⟩

theorem Current.ofSnapshot {snapshot : Bytes} (h : Cache.ofSnapshot snapshot = .ok c) :
    c.Current := by
  unfold Cache.ofSnapshot at h
  cases hr : Cbor.read snapshot with
  | error e => simp [hr, Except.map] at h
  | ok v =>
    simp only [hr, Except.map, Except.ok.injEq] at h
    exact h ▸ current_ofValue v

theorem Current.edit (h : c.Current) {e : Edit} (admissible : e.Admissible) :
    (c.edit e).Current := by
  cases e with
  | put p v => exact h.take .put p v
  | merge p v => exact h.take .merge p v
  | clear => exact current_empty
  | load snapshot =>
    rw [Cache.edit]
    cases hs : Cache.ofSnapshot snapshot with
    | error e => exact h
    | ok d => exact Current.ofSnapshot hs
  | putNode p n => exact h.putNode p admissible.1 admissible.2
  | ask names => exact h.ask names

theorem current_editAll {edits : List Edit} (admissible : ∀ e ∈ edits, e.Admissible) :
    (editAll edits).Current := by
  -- the cache changes along the way, so the run starts from any one that is current
  suffices run : ∀ {c : Cache}, c.Current → (edits.foldl Cache.edit c).Current from
    run current_empty
  induction edits with
  | nil => exact id
  | cons e edits ih =>
    obtain ⟨he, hes⟩ := List.forall_mem_cons.mp admissible
    exact fun h => ih hes (h.edit he)

theorem hashAt_eq (c : Cache) (p : Path) : c.hashAt p = (c.root.reach p.segments).hash := by
  rw [hashAt, get?, Node.get?, ← Node.descend?_getD]
  cases c.root.descend? p.segments <;> rfl

theorem Current.reach (h : c.Current) (names : List String) : (c.root.reach names).Honest := by
  rw [← Node.descend?_getD]
  cases hn : c.root.descend? names with
  | none => exact Node.honest_null
  | some n => exact h.honest.descend hn

theorem Current.hashAt_eq_contentHash (h : c.Current) (p : Path) :
    c.hashAt p = (c.root.reach p.segments).contentHash := by
  rw [hashAt_eq]
  exact (h.reach _).hash_eq (Node.Tidy.reach h.tidy _)

/-- The digest at a path is the one of every node that is built anew with the same leaves. -/
theorem Current.hashAt_eq_of_alike (h : c.Current)
    (alike : Node.Alike (Node.ofValue v) (c.root.reach p.segments)) :
    c.hashAt p = (Node.ofValue v).hash := by
  have tidy := Node.tidy_ofValue v
  rw [h.hashAt_eq_contentHash, (Node.honest_ofValue v).hash_eq tidy]
  exact (tidy.contentHash_eq (Node.Tidy.reach h.tidy _) alike).symm

theorem Tidy.get?_take_apart (h : c.Tidy) (kind : UpdateKind) (v : Value)
    (below : ¬ p.segments <+: q.segments) (above : ¬ q.segments <+: p.segments) :
    (c.take kind p v).get? q = c.get? q := by
  rw [get?, get?, take_root, Node.get?, Node.get?]
  exact Node.descend?_updateAt_apart (fun hm => hm.apply kind v) h p.ne_empty_of_mem below above

theorem digests_current {edits : List Edit} (admissible : ∀ e ∈ edits, e.Admissible) :
    (∀ names n d, (editAll edits).root.descend? names = some n → n.memo = some d →
      d = n.contentHash)
    ∧ (∀ p, (editAll edits).hashAt p = (Node.ofValue ((editAll edits).valueAt p)).hash)
    ∧ (∀ p v, (Node.ofValue v).sameAs (((editAll edits).get? p).getD .null) = true →
      (editAll edits).hashAt p = (Node.ofValue v).hash)
    ∧ ∀ kind p v q, ¬ p.segments <+: q.segments → ¬ q.segments <+: p.segments →
      ((editAll edits).take kind p v).get? q = (editAll edits).get? q := by
  have current := current_editAll admissible
  refine ⟨current.honest, fun p => ?_, fun p v same => ?_, fun kind p v q below above => ?_⟩
  · apply current.hashAt_eq_of_alike
    rw [valueAt_eq]
    exact (Node.Tidy.reach current.tidy _).alike_ofValue
  · apply current.hashAt_eq_of_alike
    rw [get?, Node.get?, Node.descend?_getD] at same
    exact (Node.Tidy.sameAs_iff (Node.tidy_ofValue v) (Node.Tidy.reach current.tidy _)).mp same
  · exact current.tidy.get?_take_apart kind v below above

/-- Digests are asked for before a node with a digest of its own is put beside. -/
def mixed (p q : Path) : List Edit :=
  [.put p (.object [("x", .bool true)]), .ask [], .putNode q (Node.ofValue (.text "y")).remember]

theorem mixed_current : ∃ p q, (∀ e ∈ mixed p q, e.Admissible)
    ∧ (∀ r, (editAll (mixed p q)).hashAt r = (Node.ofValue ((editAll (mixed p q)).valueAt r)).hash)
    ∧ (editAll (mixed p q)).root.isRemembered = false
    ∧ ((editAll (mixed p q)).root.descend? p.segments).map Node.isRemembered = some true
    ∧ ((editAll (mixed p q)).root.descend? q.segments).map Node.isRemembered = some true := by
  have admissible (p q) : ∀ e ∈ mixed p q, e.Admissible := by
    have tidy := Node.tidy_ofValue (.text "y")
    have honest := Node.honest_ofValue (.text "y")
    simpa [mixed, Edit.Admissible] using And.intro tidy.remember (honest.remember tidy)
  refine ⟨⟨["a"], by decide, by decide⟩, ⟨["b"], by decide, by decide⟩, admissible _ _,
    (digests_current (admissible _ _)).2.1, ?_, ?_, ?_⟩
  all_goals decide +kernel

end LiveTree.Cache
