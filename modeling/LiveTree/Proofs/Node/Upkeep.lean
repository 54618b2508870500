import LiveTree.Proofs.Node.Memo

/-!
# What changes leave of what is remembered

What a change puts in place remembers nothing yet, what is above it forgets, and all the rest is
left as it is. So changes keep nodes honest, and beside a change the very same nodes are found.
-/

namespace LiveTree.Node

variable {m n : Node} {children : Children} {key : String}

/-- Children that are all honest. -/
def AllHonest (children : Children) : Prop := ∀ k n, children.get? k = some n → Honest n

theorem allHonest_empty : AllHonest OrderedMap.empty := nofun

theorem Honest.all (h : Honest n) : AllHonest n.childrenOf := by
  cases n with
  | internal children kept => exact (honest_internal_iff.mp h).2
  | _ => exact allHonest_empty

theorem AllHonest.node (h : AllHonest children) : Honest (ofChildren children) := by
  unfold ofChildren
  split
  · exact honest_null
  · exact honest_internal_iff.mpr ⟨nofun, h⟩

theorem AllHonest.childOf (h : AllHonest children) (key : String) :
    Honest (childOf children key) := by
  unfold Node.childOf
  cases hg : children.get? key with
  | none => exact honest_null
  | some n => exact h key n hg

theorem AllHonest.settle (h : AllHonest children) (sound : children.Sound) (hn : Honest n) :
    AllHonest (settleChild children key n) := by
  intro k m hm
  rw [get?_settleChild sound] at hm
  split at hm
  · split at hm
    · cases hm
    · cases hm
      exact hn
  · exact h k m hm

theorem AllHonest.add (h : AllHonest children) (sound : children.Sound)
    {entry : String × Node} (hn : Honest entry.2) : AllHonest (addChild children entry) := by
  intro k m hm
  rw [get?_addChild sound] at hm
  split at hm
  · cases hm
    exact hn
  · exact h k m hm

theorem AllHonest.addAll {entries : List (String × Node)} (h : AllHonest children)
    (sound : children.Sound) (honest : ∀ e ∈ entries, Honest e.2) :
    AllHonest (entries.foldl addChild children) := by
  induction entries generalizing children with
  | nil => exact h
  | cons e entries ih =>
    obtain ⟨he, hes⟩ := List.forall_mem_cons.mp honest
    exact ih (h.add sound he) (sound_addChild sound e) hes

mutual

theorem honest_ofValue : ∀ v : Value, Honest (ofValue v)
  | .null => honest_null
  | .bool b => honest_leaf rfl nofun
  | .number x => honest_leaf rfl nofun
  | .text s => honest_leaf rfl nofun
  | .array items => by
    rw [ofValue]
    apply (allHonest_empty.addAll OrderedMap.sound_empty _).node
    intro e he
    exact honest_ofItems items e.2 (mem_of_mem_indexed he)
  | .object pairs => by
    rw [ofValue]
    exact (allHonest_empty.addAll OrderedMap.sound_empty (honest_ofPairs pairs)).node

theorem honest_ofItems : ∀ (items : List Value), ∀ n ∈ ofItems items, Honest n
  | [], _, hn => nomatch hn
  | v :: items, n, hn => by
    rcases List.mem_cons.mp hn with rfl | hn
    · exact honest_ofValue v
    · exact honest_ofItems items n hn

theorem honest_ofPairs : ∀ (pairs : List (String × Value)), ∀ e ∈ ofPairs pairs, Honest e.2
  | [], _, he => nomatch he
  | (k, v) :: pairs, e, he => by
    rcases List.mem_cons.mp he with rfl | he
    · exact honest_ofValue v
    · exact honest_ofPairs pairs e he

end

mutual

theorem Honest.merge : ∀ (v : Value) {n : Node}, Tidy n → Honest n → Honest (n.merge v)
  | .null, _, _, _ => by rw [Node.merge]; exact honest_null
  | .bool b, _, _, _ => by rw [Node.merge]; exact honest_leaf rfl nofun
  | .number x, _, _, _ => by rw [Node.merge]; exact honest_leaf rfl nofun
  | .text s, _, _, _ => by rw [Node.merge]; exact honest_leaf rfl nofun
  | .array items, n, tidy, h => by
    rw [Node.merge]
    split
    · exact h
    · exact (AllHonest.mergeItems items 0 tidy.family h.all).node
  | .object pairs, n, tidy, h => by
    rw [Node.merge]
    split
    · exact h
    · exact (AllHonest.mergePairs pairs tidy.family h.all).node

theorem AllHonest.mergeItems : ∀ (items : List Value) (start : Nat) {children : Children},
    Family children → AllHonest children → AllHonest (mergeItems children start items)
  | [], _, _, _, h => by rw [Node.mergeItems]; exact h
  | v :: items, start, children, family, h => by
    have name := position_ne_empty start
    rw [Node.mergeItems]
    exact AllHonest.mergeItems items (start + 1)
      (family.settle name (Tidy.merge v (family.childOf _)))
      (h.settle family.sound (Honest.merge v (family.childOf _) (h.childOf _)))

theorem AllHonest.mergePairs : ∀ (pairs : List (String × Value)) {children : Children},
    Family children → AllHonest children → AllHonest (mergePairs children pairs)
  | [], _, _, h => by rw [Node.mergePairs]; exact h
  | (k, v) :: pairs, children, family, h => by
    rw [Node.mergePairs]
    split
    · exact AllHonest.mergePairs pairs family h
    · rename_i hk
      have name : k ≠ "" := fun he => hk (he ▸ rfl)
      exact AllHonest.mergePairs pairs (family.settle name (Tidy.merge v (family.childOf _)))
        (h.settle family.sound (Honest.merge v (family.childOf _) (h.childOf _)))

end

theorem Honest.updateAt {f : Node → Node} (keep : ∀ {m}, Tidy m → Honest m → Honest (f m))
    {names : List String} (tidy : Tidy n) (h : Honest n) : Honest (updateAt f names n) := by
  induction names generalizing n with
  | nil => exact keep tidy h
  | cons s rest ih =>
    have changed := ih (tidy.family.childOf s) (h.all.childOf s)
    exact (h.all.settle tidy.family.sound changed).node

theorem child?_eq (n : Node) (s : String) : n.child? s = n.childrenOf.get? s := by
  cases n <;> rfl

theorem get?_ofChildren (sound : children.Sound) (s : String) :
    (ofChildren children).childrenOf.get? s = children.get? s := by
  unfold ofChildren
  split
  · rename_i empty
    symm
    apply Option.eq_none_iff_forall_not_mem.mpr
    intro n hn
    have mem := (OrderedMap.get?_eq_some_iff sound).mp hn
    rw [sound.isEmpty_iff.mp empty] at mem
    cases mem
  · rfl

theorem descend?_cons (n : Node) (s : String) {rest : List String} (more : rest ≠ []) :
    n.descend? (s :: rest) = (childOf n.childrenOf s).descend? rest := by
  rw [descend?, child?_eq, childOf]
  cases n.childrenOf.get? s with
  | none =>
    cases rest with
    | nil => exact absurd rfl more
    | cons j rest => rfl
  | some c => rfl

/-- Below its root, a tidy node is gone down into as far as something is there. -/
theorem Tidy.descend?_cons_eq (h : Tidy n) (s : String) (rest : List String) :
    n.descend? (s :: rest)
      = if (n.reach (s :: rest)).isNull then none else some (n.reach (s :: rest)) := by
  induction rest generalizing n s with
  | nil =>
    rw [descend?, child?_eq, Node.reach, Node.reach, Node.childOf]
    cases hg : n.childrenOf.get? s with
    | none => rfl
    | some m =>
      have there : m.isNull = false := by
        apply Bool.eq_false_iff.mpr
        intro hm
        have tidy := h.family.below s m hg
        exact h.family.present s m hg (tidy.isNull_iff.mp hm)
      rw [Option.getD_some, there]
      rfl
  | cons t rest ih =>
    rw [descend?_cons n s (List.cons_ne_nil t rest), ih (h.family.childOf s)]
    rfl

/-- Beside a change, the very same nodes are found, with all that they remember. -/
theorem descend?_updateAt_apart {f : Node → Node} (keep : ∀ {m}, Tidy m → Tidy (f m))
    (h : Tidy n) {names other : List String} (named : ∀ s ∈ names, s ≠ "")
    (below : ¬ names <+: other) (above : ¬ other <+: names) :
    (updateAt f names n).descend? other = n.descend? other := by
  induction names generalizing n other with
  | nil => exact absurd List.nil_prefix below
  | cons s names ih =>
    cases other with
    | nil => exact absurd List.nil_prefix above
    | cons j other =>
      obtain ⟨_, later⟩ := List.forall_mem_cons.mp named
      have changed := Tidy.updateAt keep later (h.family.childOf s)
      have sound := sound_settleChild h.family.sound s (updateAt f names (childOf n.childrenOf s))
      by_cases hj : j = s
      · subst hj
        have below : ¬ names <+: other := fun hp => below (List.cons_prefix_cons.mpr ⟨rfl, hp⟩)
        have above : ¬ other <+: names := fun hp => above (List.cons_prefix_cons.mpr ⟨rfl, hp⟩)
        -- at the child itself a change that empties it would show, but the way goes on below
        have more : other ≠ [] := fun he => above (he ▸ List.nil_prefix)
        rw [descend?_cons _ _ more, descend?_cons _ _ more, updateAt, childOf_ofChildren sound,
          childOf_settleChild h.family.sound changed, if_pos rfl]
        exact ih (h.family.childOf j) later below above
      · rw [descend?, descend?, child?_eq, child?_eq, updateAt, get?_ofChildren sound,
          get?_settleChild h.family.sound, if_neg hj]

end LiveTree.Node
