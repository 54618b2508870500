import LiveTree.Node.Update
import LiveTree.Proofs.OrderedMap.Lookup
import LiveTree.Proofs.Path.SegmentOrder

/-!
# Tidy nodes

All the way down a tidy node, no child is absent, no container is empty and no name is empty. Nodes
that are built from values are tidy, and every change keeps them so. What a value says is not yet
read here; that is left to the leaves.
-/

namespace LiveTree.Node

inductive Tidy : Node → Prop where
  | null : Tidy null
  | bool (b : Bool) : Tidy (bool b)
  | number (x : Double) (memo : Memo) : Tidy (number x memo)
  | text (s : String) (memo : Memo) : Tidy (text s memo)
  | internal {children : Children} (memo : Memo) (sound : children.Sound)
      (filled : children.isEmpty = false)
      (named : ∀ k n, children.get? k = some n → k ≠ "")
      (present : ∀ k n, children.get? k = some n → n ≠ null)
      (below : ∀ k n, children.get? k = some n → Tidy n) : Tidy (internal children memo)

/-- Children that a tidy node may have. -/
structure Family (children : Children) : Prop where
  sound : children.Sound
  named : ∀ k n, children.get? k = some n → k ≠ ""
  present : ∀ k n, children.get? k = some n → n ≠ null
  below : ∀ k n, children.get? k = some n → Tidy n

variable {n : Node} {children : Children} {key : String}

theorem Tidy.isNull_iff (h : Tidy n) : n.isNull = true ↔ n = .null := by
  cases h with
  | null => simp [isNull]
  | internal memo sound filled => simp [isNull, filled]
  | _ => simp [isNull]

theorem family_empty : Family OrderedMap.empty :=
  ⟨OrderedMap.sound_empty, nofun, nofun, nofun⟩

theorem Tidy.family (h : Tidy n) : Family n.childrenOf := by
  cases h with
  | internal memo sound filled named present below => exact ⟨sound, named, present, below⟩
  | _ => exact family_empty

theorem Family.tidy (h : Family children) : Tidy (ofChildren children) := by
  unfold ofChildren
  cases filled : children.isEmpty with
  | true => exact .null
  | false => exact .internal none h.sound filled h.named h.present h.below

theorem Family.childOf (h : Family children) (key : String) : Tidy (childOf children key) := by
  unfold Node.childOf
  cases hg : children.get? key with
  | none => exact .null
  | some n => exact h.below key n hg

theorem Family.set (h : Family children) {changed : Children} (sound : changed.Sound)
    (get : ∀ j, changed.get? j = if j = key then some n else children.get? j) (name : key ≠ "")
    (present : n ≠ null) (tidy : Tidy n) : Family changed := by
  have split : ∀ {j m}, changed.get? j = some m → (j = key ∧ m = n) ∨ children.get? j = some m := by
    intro j m hm
    rw [get j] at hm
    split at hm
    · exact Or.inl ⟨‹_›, (Option.some.inj hm).symm⟩
    · exact Or.inr hm
  refine ⟨sound, fun j m hm => ?_, fun j m hm => ?_, fun j m hm => ?_⟩
  all_goals rcases split hm with ⟨rfl, rfl⟩ | hm
  · exact name
  · exact h.named j m hm
  · exact present
  · exact h.present j m hm
  · exact tidy
  · exact h.below j m hm

theorem sound_putChild (sound : children.Sound) (key : String) (n : Node) :
    (if children.contains key then children.modify key fun _ => n
      else children.insert key n).Sound := by
  split
  · exact sound.modify key _
  · exact sound.insert key n

theorem sound_settleChild (sound : children.Sound) (key : String) (n : Node) :
    (settleChild children key n).Sound := by
  unfold settleChild
  dsimp only
  split
  · exact (sound_putChild sound key n).erase key
  · exact sound_putChild sound key n

theorem get?_settleChild (sound : children.Sound) (key j : String) (n : Node) :
    (settleChild children key n).get? j
      = if j = key then (if n.isNull then none else some n) else children.get? j := by
  have get : ∀ j, (if children.contains key then children.modify key fun _ => n
      else children.insert key n).get? j = if j = key then some n else children.get? j := by
    intro j
    cases hc : children.contains key with
    | true =>
      obtain ⟨m, hm⟩ := OrderedMap.contains_iff.mp hc
      simp [OrderedMap.get?_modify, hm]
    | false =>
      have hm := OrderedMap.contains_eq_false_iff.mp hc
      simp [OrderedMap.get?_insert sound, hm]
  unfold settleChild
  dsimp only
  split
  · rw [OrderedMap.get?_erase (sound_putChild sound key n), get j]
    by_cases hj : j = key <;> simp [hj]
  · exact get j

theorem Family.settle (h : Family children) (name : key ≠ "") (tidy : Tidy n) :
    Family (settleChild children key n) := by
  have sound := sound_settleChild h.sound key n
  cases hn : n.isNull with
  | false =>
    refine h.set sound (?_) name ?_ tidy
    · intro j
      rw [get?_settleChild h.sound, hn]
      simp
    · rintro rfl
      cases hn
  | true =>
    have old : ∀ {j m}, (settleChild children key n).get? j = some m →
        children.get? j = some m := by
      intro j m hm
      rw [get?_settleChild h.sound, hn] at hm
      split at hm
      · cases hm
      · exact hm
    exact ⟨sound, fun j m hm => h.named j m (old hm), fun j m hm => h.present j m (old hm),
      fun j m hm => h.below j m (old hm)⟩

theorem childOf_settleChild (sound : children.Sound) (tidy : Tidy n) (key j : String) :
    childOf (settleChild children key n) j = if j = key then n else childOf children j := by
  unfold childOf
  rw [get?_settleChild sound]
  by_cases hj : j = key
  · cases hn : n.isNull with
    | true => simp [hj, tidy.isNull_iff.mp hn]
    | false => simp [hj]
  · simp [hj]

theorem get?_addChild (sound : children.Sound) (key j : String) (n : Node) :
    (addChild children (key, n)).get? j
      = if j = key ∧ key ≠ "" ∧ n.isNull = false then some n else children.get? j := by
  unfold addChild
  cases he : key.isEmpty || n.isNull with
  | true =>
    rcases Bool.or_eq_true_iff.mp he with he | he
    · simp [String.isEmpty_iff.mp he]
    · simp [he]
  | false =>
    obtain ⟨name, hn⟩ := Bool.or_eq_false_iff.mp he
    have name : key ≠ "" := fun he => by simp [he] at name
    have gone : (children.erase key).get? key = none := by simp [OrderedMap.get?_erase sound]
    simp only [Bool.false_eq_true, if_false, OrderedMap.replace,
      OrderedMap.get?_insert (sound.erase key), gone, OrderedMap.get?_erase sound, hn]
    by_cases hj : j = key <;> simp [hj, name]

theorem sound_addChild (sound : children.Sound) (entry : String × Node) :
    (addChild children entry).Sound := by
  unfold addChild
  split
  · exact sound
  · exact (sound.erase entry.1).insert entry.1 entry.2

theorem Family.add (h : Family children) {entry : String × Node} (tidy : Tidy entry.2) :
    Family (addChild children entry) := by
  obtain ⟨key, n⟩ := entry
  by_cases hc : key ≠ "" ∧ n.isNull = false
  · refine h.set (sound_addChild h.sound _) (?_) hc.1 ?_ tidy
    · intro j
      rw [get?_addChild h.sound]
      simp [hc]
    · rintro rfl
      cases hc.2
  · have old : ∀ {j m}, (addChild children (key, n)).get? j = some m →
        children.get? j = some m := by
      intro j m hm
      rw [get?_addChild h.sound, if_neg fun hj => hc hj.2] at hm
      exact hm
    exact ⟨sound_addChild h.sound _, fun j m hm => h.named j m (old hm),
      fun j m hm => h.present j m (old hm), fun j m hm => h.below j m (old hm)⟩

theorem Family.addAll {entries : List (String × Node)} (h : Family children)
    (tidy : ∀ e ∈ entries, Tidy e.2) : Family (entries.foldl addChild children) := by
  induction entries generalizing children with
  | nil => exact h
  | cons e entries ih =>
    obtain ⟨he, hes⟩ := List.forall_mem_cons.mp tidy
    exact ih (h.add he) hes

theorem mem_of_mem_indexed {α : Type} {xs : List α} {start : Nat} {e : String × α}
    (h : e ∈ Value.indexed start xs) : e.2 ∈ xs := by
  induction xs generalizing start with
  | nil => cases h
  | cons x xs ih =>
    rcases List.mem_cons.mp h with rfl | h
    · exact List.mem_cons_self
    · exact List.mem_cons_of_mem x (ih h)

mutual

theorem tidy_ofValue : ∀ v : Value, Tidy (ofValue v)
  | .null => .null
  | .bool b => .bool b
  | .number x => .number x none
  | .text s => .text s none
  | .array items => by
    rw [ofValue]
    exact (family_empty.addAll fun e he => tidy_ofItems items _ (mem_of_mem_indexed he)).tidy
  | .object pairs => by
    rw [ofValue]
    exact (family_empty.addAll (tidy_ofPairs pairs)).tidy

theorem tidy_ofItems : ∀ (items : List Value), ∀ n ∈ ofItems items, Tidy n
  | [], _, hn => nomatch hn
  | v :: items, n, hn => by
    rcases List.mem_cons.mp hn with rfl | hn
    · exact tidy_ofValue v
    · exact tidy_ofItems items n hn

theorem tidy_ofPairs : ∀ (pairs : List (String × Value)), ∀ e ∈ ofPairs pairs, Tidy e.2
  | [], _, he => nomatch he
  | (k, v) :: pairs, e, he => by
    rcases List.mem_cons.mp he with rfl | he
    · exact tidy_ofValue v
    · exact tidy_ofPairs pairs e he

end

theorem position_ne_empty (i : Nat) : String.ofList (Nat.toDigits 10 i) ≠ "" := by
  intro h
  exact Nat.toDigits_ne_nil (String.ofList_eq_empty_iff.mp h)

mutual

theorem Tidy.merge : ∀ (v : Value) {n : Node}, Tidy n → Tidy (n.merge v)
  | .null, _, _ => by rw [Node.merge]; exact .null
  | .bool b, _, _ => by rw [Node.merge]; exact .bool b
  | .number x, _, _ => by rw [Node.merge]; exact .number x none
  | .text s, _, _ => by rw [Node.merge]; exact .text s none
  | .array items, n, h => by
    rw [Node.merge]
    split
    · exact h
    · exact (Family.mergeItems items 0 h.family).tidy
  | .object pairs, n, h => by
    rw [Node.merge]
    split
    · exact h
    · exact (Family.mergePairs pairs h.family).tidy

theorem Family.mergeItems : ∀ (items : List Value) (start : Nat) {children : Children},
    Family children → Family (mergeItems children start items)
  | [], _, _, h => by rw [Node.mergeItems]; exact h
  | v :: items, start, children, h => by
    rw [Node.mergeItems]
    exact Family.mergeItems items (start + 1)
      (h.settle (position_ne_empty start) (Tidy.merge v (h.childOf _)))

theorem Family.mergePairs : ∀ (pairs : List (String × Value)) {children : Children},
    Family children → Family (mergePairs children pairs)
  | [], _, h => by rw [Node.mergePairs]; exact h
  | (k, v) :: pairs, children, h => by
    rw [Node.mergePairs]
    split
    · exact Family.mergePairs pairs h
    · rename_i hk
      have name : k ≠ "" := fun he => hk (he ▸ rfl)
      exact Family.mergePairs pairs (h.settle name (Tidy.merge v (h.childOf _)))

end

theorem Tidy.normal (h : Tidy n) : n.normal = n := by
  unfold Node.normal
  split
  · rename_i hn
    exact (h.isNull_iff.mp hn).symm
  · rfl

theorem Tidy.updateAt {f : Node → Node} (keep : ∀ {m}, Tidy m → Tidy (f m)) {names : List String}
    (named : ∀ s ∈ names, s ≠ "") (h : Tidy n) : Tidy (updateAt f names n) := by
  induction names generalizing n with
  | nil => exact keep h
  | cons s rest ih =>
    obtain ⟨hs, hrest⟩ := List.forall_mem_cons.mp named
    exact (h.family.settle hs (ih hrest (h.family.childOf s))).tidy

end LiveTree.Node
