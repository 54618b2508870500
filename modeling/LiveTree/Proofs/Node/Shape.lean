import LiveTree.Proofs.Node.Overlay
import LiveTree.Proofs.Node.Wire
import LiveTree.Proofs.OrderedMap.Balance

/-!
# The shape of nodes

Whatever is done to a node, the maps of children stay balanced all the way down, and a name stands in
it only where the values and the paths that brought it may have it. Which names may stand where is
left open here: a limit on the depth is one such rule, and no rule at all is another.
-/

namespace LiveTree

namespace OrderedMap

variable {α β : Type} {cmp : α → α → Ordering} {m : OrderedMap α β cmp}

theorem balanced_insert (h : m.root.Balanced) (key : α) (x : β) :
    (m.insert key x).root.Balanced := by
  rw [insert, insertNew]
  split
  · exact (AvlTree.raised_insert? h ‹_›).balanced
  · exact h

theorem balanced_erase (h : m.root.Balanced) (key : α) : (m.erase key).root.Balanced :=
  (AvlTree.lowered_erase h).balanced

end OrderedMap

/-- Every name in a value may stand at the depth at which it stands. Empty names do not count, since
nothing is stored under them. -/
inductive Value.Suits (may : Nat → String → Prop) : Nat → Value → Prop where
  | mk {d : Nat} {v : Value} (named : ∀ e ∈ v.entries, e.1 ≠ "" → may d e.1)
      (below : ∀ e ∈ v.entries, Value.Suits may (d + 1) e.2) : Value.Suits may d v

namespace Node

/-- The names on a way may stand where they do. -/
def Way (may : Nat → String → Prop) : Nat → List String → Prop
  | _, [] => True
  | d, s :: rest => may d s ∧ Way may (d + 1) rest

/-- All maps in a node are balanced, and every name may stand at the depth at which it stands. -/
inductive Shaped (may : Nat → String → Prop) : Nat → Node → Prop where
  | leaf {d : Nat} {n : Node} (leaf : n.children? = none) : Shaped may d n
  | internal {d : Nat} {children : Children} (memo : Memo) (balanced : children.root.Balanced)
      (named : ∀ k n, children.get? k = some n → may d k)
      (below : ∀ k n, children.get? k = some n → Shaped may (d + 1) n) :
      Shaped may d (internal children memo)

/-- Children that a shaped node may have. -/
structure ShapedAll (may : Nat → String → Prop) (d : Nat) (children : Children) : Prop where
  balanced : children.root.Balanced
  named : ∀ k n, children.get? k = some n → may d k
  below : ∀ k n, children.get? k = some n → Shaped may (d + 1) n

variable {may : Nat → String → Prop} {d : Nat} {n : Node} {children : Children} {key : String}

theorem shapedAll_empty : ShapedAll may d OrderedMap.empty := ⟨.nil, nofun, nofun⟩

theorem Shaped.all (h : Shaped may d n) : ShapedAll may d n.childrenOf := by
  cases h with
  | internal memo balanced named below => exact ⟨balanced, named, below⟩
  | leaf leaf =>
    rw [childrenOf, leaf]
    exact shapedAll_empty

theorem ShapedAll.node (h : ShapedAll may d children) : Shaped may d (ofChildren children) := by
  unfold ofChildren
  split
  · exact .leaf rfl
  · exact .internal none h.balanced h.named h.below

theorem ShapedAll.childOf (h : ShapedAll may d children) (key : String) :
    Shaped may (d + 1) (childOf children key) := by
  unfold Node.childOf
  cases hg : children.get? key with
  | none => exact .leaf rfl
  | some n => exact h.below key n hg

theorem balanced_settleChild (h : children.root.Balanced) (key : String) (n : Node) :
    (settleChild children key n).root.Balanced := by
  have put : (if children.contains key then children.modify key fun _ => n
      else children.insert key n).root.Balanced := by
    split
    · exact h.modify _
    · exact OrderedMap.balanced_insert h key n
  unfold settleChild
  dsimp only
  split
  · exact OrderedMap.balanced_erase put key
  · exact put

theorem ShapedAll.settle (h : ShapedAll may d children) (sound : children.Sound)
    (name : may d key) (hn : Shaped may (d + 1) n) :
    ShapedAll may d (settleChild children key n) := by
  have split : ∀ {j m}, (settleChild children key n).get? j = some m →
      (j = key ∧ m = n) ∨ children.get? j = some m := by
    intro j m hm
    rw [get?_settleChild sound] at hm
    split at hm
    · split at hm
      · cases hm
      · exact .inl ⟨‹_›, (Option.some.inj hm).symm⟩
    · exact .inr hm
  refine ⟨balanced_settleChild h.balanced key n, fun j m hm => ?_, fun j m hm => ?_⟩
  all_goals rcases split hm with ⟨rfl, rfl⟩ | hm
  · exact name
  · exact h.named j m hm
  · exact hn
  · exact h.below j m hm

theorem ShapedAll.add (h : ShapedAll may d children) (sound : children.Sound)
    {entry : String × Node} (name : entry.1 ≠ "" → may d entry.1)
    (hn : Shaped may (d + 1) entry.2) : ShapedAll may d (addChild children entry) := by
  have split : ∀ {j m}, (addChild children entry).get? j = some m →
      (j = entry.1 ∧ entry.1 ≠ "" ∧ m = entry.2) ∨ children.get? j = some m := by
    intro j m hm
    rw [get?_addChild sound] at hm
    split at hm
    · rename_i same
      exact .inl ⟨same.1, same.2.1, (Option.some.inj hm).symm⟩
    · exact .inr hm
  refine ⟨?_, fun j m hm => ?_, fun j m hm => ?_⟩
  · unfold addChild
    split
    · exact h.balanced
    · exact OrderedMap.balanced_insert (OrderedMap.balanced_erase h.balanced _) _ _
  all_goals rcases split hm with ⟨rfl, some, rfl⟩ | hm
  · exact name some
  · exact h.named j m hm
  · exact hn
  · exact h.below j m hm

theorem ShapedAll.addAll {entries : List (String × Node)} (h : ShapedAll may d children)
    (sound : children.Sound) (names : ∀ e ∈ entries, e.1 ≠ "" → may d e.1)
    (shaped : ∀ e ∈ entries, Shaped may (d + 1) e.2) :
    ShapedAll may d (entries.foldl addChild children) := by
  induction entries generalizing children with
  | nil => exact h
  | cons e entries ih =>
    obtain ⟨name, names⟩ := List.forall_mem_cons.mp names
    obtain ⟨here, shaped⟩ := List.forall_mem_cons.mp shaped
    exact ih (h.add sound name here) (sound_addChild sound e) names shaped

theorem shaped_ofEntries {entries : List (String × Value)}
    (names : ∀ e ∈ entries, e.1 ≠ "" → may d e.1)
    (shaped : ∀ e ∈ entries, Shaped may (d + 1) (ofValue e.2)) :
    Shaped may d (ofEntries (Fields.mapValues ofValue entries)) := by
  refine (shapedAll_empty.addAll OrderedMap.sound_empty ?_ ?_).node
  · exact List.forall_mem_map.mpr names
  · exact List.forall_mem_map.mpr shaped

theorem shaped_ofValue {v : Value} (suits : v.Suits may d) : Shaped may d (ofValue v) := by
  induction v using Value.induction generalizing d with
  | null | bool b | number x | text s => exact .leaf rfl
  | array items ih =>
    cases suits with
    | mk named below =>
      rw [ofValue_array]
      exact shaped_ofEntries named fun e he => ih e.2 (mem_of_mem_indexed he) (below e he)
  | object pairs ih =>
    cases suits with
    | mk named below =>
      rw [ofValue_object]
      exact shaped_ofEntries named fun e he => ih e he (below e he)

theorem ShapedAll.mergePairs {pairs : List (String × Value)}
    (names : ∀ e ∈ pairs, e.1 ≠ "" → may d e.1)
    (merged : ∀ e ∈ pairs, ∀ m, Tidy m → Shaped may (d + 1) m → Shaped may (d + 1) (m.merge e.2))
    (family : Family children) (h : ShapedAll may d children) :
    ShapedAll may d (mergePairs children pairs) := by
  induction pairs generalizing children with
  | nil =>
    rw [Node.mergePairs]
    exact h
  | cons e pairs ih =>
    obtain ⟨k, v⟩ := e
    obtain ⟨name, names⟩ := List.forall_mem_cons.mp names
    obtain ⟨here, merged⟩ := List.forall_mem_cons.mp merged
    rw [Node.mergePairs]
    split
    · exact ih names merged family h
    · rename_i filled
      have some : k ≠ "" := fun he => filled (he ▸ rfl)
      have changed := here _ (family.childOf k) (h.childOf k)
      exact ih names merged (family.settle some (Tidy.merge v (family.childOf k)))
        (h.settle family.sound (name some) changed)

theorem Shaped.merge {v : Value} (suits : v.Suits may d) (tidy : Tidy n) (h : Shaped may d n) :
    Shaped may d (n.merge v) := by
  induction v using Value.induction generalizing d n with
  | null | bool b | number x | text s =>
    rw [Node.merge]
    exact .leaf rfl
  | array items ih =>
    cases suits with
    | mk named below =>
      rw [Node.merge, mergeItems_eq]
      split
      · exact h
      · refine (ShapedAll.mergePairs named (fun e he m tidy hm => ?_) tidy.family h.all).node
        exact ih e.2 (mem_of_mem_indexed he) (below e he) tidy hm
  | object pairs ih =>
    cases suits with
    | mk named below =>
      rw [Node.merge]
      split
      · exact h
      · exact (ShapedAll.mergePairs named (fun e he m tidy hm => ih e he (below e he) tidy hm)
          tidy.family h.all).node

theorem Shaped.updateAt {f : Node → Node} {names : List String}
    (way : Way may d names)
    (keep : ∀ {m}, Tidy m → Shaped may (d + names.length) m → Shaped may (d + names.length) (f m))
    (tidy : Tidy n) (h : Shaped may d n) : Shaped may d (updateAt f names n) := by
  induction names generalizing d n with
  | nil => exact keep tidy h
  | cons s rest ih =>
    have depth : d + (s :: rest).length = d + 1 + rest.length := by
      rw [List.length_cons, Nat.succ_add_eq_add_succ]
    rw [depth] at keep
    have changed := ih way.2 keep (tidy.family.childOf s) (h.all.childOf s)
    exact (h.all.settle tidy.family.sound way.1 changed).node

theorem Shaped.remember (h : Shaped may d n) : Shaped may d n.remember := by
  induction h with
  | @leaf d n leaf =>
    cases n with
    | internal children kept => cases leaf
    | _ => exact .leaf rfl
  | @internal d children kept balanced named below ih =>
    cases kept with
    | some digest => exact .internal _ balanced named below
    | none =>
      have old : ∀ {k m}, (children.mapValues fun _ n => n.remember).get? k = some m →
          ∃ n, children.get? k = some n ∧ n.remember = m := by
        intro k m hm
        rw [OrderedMap.get?_mapValues] at hm
        exact Option.map_eq_some_iff.mp hm
      rw [remember_internal]
      refine .internal _ (balanced.mapValues _) (fun k m hm => ?_) (fun k m hm => ?_)
      · obtain ⟨n, hn, _⟩ := old hm
        exact named k n hn
      · obtain ⟨n, hn, rfl⟩ := old hm
        exact ih k n hn

theorem Shaped.rememberAt (h : Shaped may d n) (names : List String) :
    Shaped may d (n.rememberAt names) := by
  induction names generalizing d n with
  | nil => exact h.remember
  | cons s names ih =>
    cases h with
    | leaf leaf =>
      cases n with
      | internal children kept => cases leaf
      | _ => exact .leaf rfl
    | @internal _ children kept balanced named below =>
      refine .internal _ (balanced.modify _) (fun k m hm => ?_) (fun k m hm => ?_)
      all_goals
        rw [OrderedMap.get?_modify] at hm
        split at hm
      · rename_i same
        obtain ⟨n, hn, _⟩ := Option.map_eq_some_iff.mp hm
        exact named k n (same ▸ hn)
      · exact named k m hm
      · obtain ⟨n, hn, rfl⟩ := Option.map_eq_some_iff.mp hm
        exact ih (below s n hn)
      · exact below k m hm

end Node

end LiveTree
