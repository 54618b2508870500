import LiveTree.OrderedMap.AvlTree

/-!
# Trees stay balanced

In a balanced tree the two sides of every node differ in height by one at most, and every node keeps
the right height. A change moves the height of a tree by one at most. So on the way back to the root
two sides never come to differ by more than two, and from there a rotation, or two, put them back.
Neither the order of the keys nor any law of the comparison is used.
-/

namespace LiveTree.AvlTree

variable {α β : Type} {h : Nat} {l r t t' : AvlTree α β} {k : α} {v : β}

@[simp] theorem height_nil : (nil : AvlTree α β).height = 0 := rfl

@[simp] theorem height_node (h : Nat) (l : AvlTree α β) (k : α) (v : β) (r : AvlTree α β) :
    (node h l k v r).height = h := rfl

@[simp] theorem height_make (l : AvlTree α β) (k : α) (v : β) (r : AvlTree α β) :
    (make l k v r).height = 1 + max l.height r.height := rfl

/-- Two sides whose heights differ by so much at most. -/
def Near (d : Nat) (l r : AvlTree α β) : Prop := l.height ≤ r.height + d ∧ r.height ≤ l.height + d

inductive Balanced : AvlTree α β → Prop where
  | nil : Balanced nil
  | node {h : Nat} {l r : AvlTree α β} {k : α} {v : β} (height : h = 1 + max l.height r.height)
      (near : Near 1 l r) (left : Balanced l) (right : Balanced r) : Balanced (node h l k v r)

theorem balanced_make (left : Balanced l) (right : Balanced r) (near : Near 1 l r) :
    Balanced (make l k v r) := .node rfl near left right

theorem Near.symm {d : Nat} (near : Near d l r) : Near d r l := And.symm near

/-- What a node is put back to. It is balanced, and as high as its sides make it, or one less where
they differed by more than one. -/
structure Restored (l r t : AvlTree α β) : Prop where
  balanced : Balanced t
  height : t.height = 1 + max l.height r.height ∨ t.height = max l.height r.height ∧ ¬ Near 1 l r

theorem restored_near (left : Balanced l) (right : Balanced r) (near : Near 1 l r) :
    Restored l r (balance l k v r) := by
  have stays : balance l k v r = make l k v r := by
    obtain ⟨hl, hr⟩ := near
    rw [balance, if_neg (by omega), if_neg (by omega)]
  rw [stays]
  exact ⟨balanced_make left right near, .inl rfl⟩

theorem restored_left (left : Balanced l) (right : Balanced r) (deep : l.height = r.height + 2) :
    Restored l r (balance l k v r) := by
  rw [balance, if_pos (by omega)]
  cases left with
  | nil => cases deep
  | @node h a b j u height near ha hb =>
    obtain ⟨hab, hba⟩ := near
    rw [height_node] at deep
    cases hlean : (node h a j u b).leansRight with
    | false =>
      have lean : ¬ a.height < b.height := by simpa [leansRight] using hlean
      have low : Balanced (make b k v r) := balanced_make hb right ⟨by omega, by omega⟩
      rw [if_neg Bool.false_ne_true, make, rotateRight]
      refine ⟨balanced_make ha low ⟨?_, ?_⟩, ?_⟩
      all_goals simp only [Near, height_make, height_node] at *
      all_goals omega
    | true =>
      have lean : a.height < b.height := by simpa [leansRight] using hlean
      cases hb with
      | nil => cases lean
      | @node g c d i w height' near' hc hd =>
        -- the inner side is the higher one, so it is turned outward first
        obtain ⟨hcd, hdc⟩ := near'
        rw [height_node] at lean height hba
        have low : Balanced (make a j u c) := balanced_make ha hc ⟨by omega, by omega⟩
        have high : Balanced (make d k v r) := balanced_make hd right ⟨by omega, by omega⟩
        rw [if_pos rfl, rotateLeft, make, make, rotateRight]
        refine ⟨balanced_make low high ⟨?_, ?_⟩, ?_⟩
        all_goals simp only [Near, height_make, height_node] at *
        all_goals omega

def mirror : AvlTree α β → AvlTree α β
  | nil => nil
  | node h l k v r => node h r.mirror k v l.mirror

@[simp] theorem height_mirror (t : AvlTree α β) : t.mirror.height = t.height := by
  cases t <;> rfl

@[simp] theorem mirror_mirror (t : AvlTree α β) : t.mirror.mirror = t := by
  induction t with
  | nil => rfl
  | node h l k v r ihl ihr => rw [mirror, mirror, ihl, ihr]

theorem mirror_make (l : AvlTree α β) (k : α) (v : β) (r : AvlTree α β) :
    (make l k v r).mirror = make r.mirror k v l.mirror := by
  rw [make, mirror, make, height_mirror, height_mirror, Nat.max_comm]

theorem mirror_rotateRight (t : AvlTree α β) : t.rotateRight.mirror = t.mirror.rotateLeft := by
  cases t with
  | nil => rfl
  | node h l k v r =>
    cases l with
    | nil => rfl
    | node g a j u b => simp [rotateRight, mirror_make, mirror, rotateLeft]

theorem mirror_rotateLeft (t : AvlTree α β) : t.rotateLeft.mirror = t.mirror.rotateRight := by
  have other := mirror_rotateRight t.mirror
  rw [mirror_mirror] at other
  rw [← other, mirror_mirror]

theorem leansRight_mirror (t : AvlTree α β) : t.mirror.leansRight = t.leansLeft := by
  cases t with
  | nil => rfl
  | node h l k v r => simp [mirror, leansRight, leansLeft]

theorem Balanced.mirror (h : Balanced t) : Balanced t.mirror := by
  induction h with
  | nil => exact .nil
  | @node h l r k v height near left right ihl ihr =>
    refine .node ?_ ?_ ihr ihl
    · rw [height_mirror, height_mirror, Nat.max_comm]
      exact height
    · simpa [Near] using And.symm near

theorem mirror_balance (deep : r.height = l.height + 2) :
    (balance l k v r).mirror = balance r.mirror k v l.mirror := by
  have deep' : l.mirror.height + 1 < r.mirror.height := by
    rw [height_mirror, height_mirror]
    omega
  have other : balance r.mirror k v l.mirror
      = rotateRight (make (if r.leansLeft then r.mirror.rotateLeft else r.mirror) k v l.mirror) := by
    rw [balance, if_pos deep', leansRight_mirror]
  rw [other, balance, if_neg (by omega), if_pos (by omega), mirror_rotateLeft, mirror_make,
    apply_ite mirror, mirror_rotateRight]

theorem restored_right (left : Balanced l) (right : Balanced r) (deep : r.height = l.height + 2) :
    Restored l r (balance l k v r) := by
  have deep' : r.mirror.height = l.mirror.height + 2 := by simpa using deep
  have other : Restored r.mirror l.mirror (balance r.mirror k v l.mirror) :=
    restored_left right.mirror left.mirror deep'
  rw [← mirror_balance deep] at other
  have balanced := other.balanced.mirror
  have height := other.height
  simp only [mirror_mirror, height_mirror, Nat.max_comm r.height] at balanced height
  exact ⟨balanced, height.imp_right fun h => ⟨h.1, fun near => h.2 (by simpa [Near] using near.symm)⟩⟩

/-- Two sides that can be put back into balance. -/
structure Mendable (l r : AvlTree α β) : Prop where
  left : Balanced l
  right : Balanced r
  near : Near 2 l r

theorem Mendable.restored (h : Mendable l r) : Restored l r (balance l k v r) := by
  obtain ⟨left, right, hl, hr⟩ := h
  by_cases deep : l.height = r.height + 2
  · exact restored_left left right deep
  · by_cases deep' : r.height = l.height + 2
    · exact restored_right left right deep'
    · exact restored_near left right ⟨by omega, by omega⟩

/-- A balanced tree that came of another one: higher by one at most and not lower if it was raised,
lower by one at most and not higher if not. -/
structure Changed (raised : Bool) (t t' : AvlTree α β) : Prop where
  balanced : Balanced t'
  high : t'.height ≤ t.height + raised.toNat
  low : t.height ≤ t'.height + (!raised).toNat

abbrev Raised (t t' : AvlTree α β) : Prop := Changed true t t'

abbrev Lowered (t t' : AvlTree α β) : Prop := Changed false t t'

section Changes
variable {raised : Bool} {l' r' : AvlTree α β}

theorem Changed.refl (h : Balanced t) : Changed raised t t :=
  ⟨h, Nat.le_add_right _ _, Nat.le_add_right _ _⟩

theorem lowered_of_le (balanced : Balanced t') (high : t'.height ≤ t.height)
    (low : t.height ≤ t'.height + 1) : Lowered t t' := ⟨balanced, high, low⟩

theorem Changed.mendable (left : Changed raised l l') (right : Changed raised r r')
    (near : Near 1 l r) (one : l'.height = l.height ∨ r'.height = r.height) : Mendable l' r' := by
  obtain ⟨hl, highl, lowl⟩ := left
  obtain ⟨hr, highr, lowr⟩ := right
  obtain ⟨hlr, hrl⟩ := near
  have step : raised.toNat + (!raised).toNat = 1 := by cases raised <;> rfl
  rcases one with same | same <;> exact ⟨hl, hr, by omega, by omega⟩

theorem Changed.balance (left : Changed raised l l') (right : Changed raised r r')
    (near : Near 1 l r) (one : l'.height = l.height ∨ r'.height = r.height)
    (height : t.height = 1 + max l.height r.height) : Changed raised t (balance l' k v r') := by
  obtain ⟨balanced, high⟩ : Restored l' r' (AvlTree.balance l' k v r') :=
    (left.mendable right near one).restored
  obtain ⟨_, highl, lowl⟩ := left
  obtain ⟨_, highr, lowr⟩ := right
  unfold Near at near high
  have step : raised.toNat + (!raised).toNat = 1 := by cases raised <;> rfl
  exact ⟨balanced, by omega, by omega⟩

end Changes

section Keys
variable {cmp : α → α → Ordering} {key : α} {x : β}

theorem raised_insert? (ht : Balanced t) (hi : t.insert? cmp key x = some t') : Raised t t' := by
  induction ht generalizing t' with
  | nil =>
    cases hi
    exact ⟨balanced_make .nil .nil ⟨by simp, by simp⟩, Nat.le_refl _, Nat.zero_le _⟩
  | node height near left right ihl ihr =>
    rw [insert?] at hi
    split at hi
    · obtain ⟨l', hl', rfl⟩ := Option.map_eq_some_iff.mp hi
      exact (ihl hl').balance (.refl right) near (.inr rfl) height
    · cases hi
    · obtain ⟨r', hr', rfl⟩ := Option.map_eq_some_iff.mp hi
      exact .balance (.refl left) (ihr hr') near (.inl rfl) height

theorem lowered_takeLeast (left : Balanced l) (right : Balanced r) (near : Near 1 l r)
    (height : t.height = 1 + max l.height r.height) : Lowered t (takeLeast l k v r).2 := by
  induction left generalizing k v r t with
  | nil =>
    change Lowered t r
    rw [height_nil, Nat.zero_max] at height
    exact lowered_of_le right (by omega) (by omega)
  | @node h ll lr lk lv height' near' left' right' ihl _ =>
    have least : Lowered (node h ll lk lv lr) (takeLeast ll lk lv lr).2 := ihl right' near' height'
    exact least.balance (.refl right) near (.inr rfl) height

theorem lowered_join (left : Balanced l) (right : Balanced r) (near : Near 1 l r)
    (height : t.height = 1 + max l.height r.height) : Lowered t (join l r) := by
  obtain ⟨hl, hr⟩ := near
  unfold join
  split
  · rw [height_nil] at hl height
    exact lowered_of_le left (by omega) (by omega)
  · rw [height_nil] at hr height
    exact lowered_of_le right (by omega) (by omega)
  · rename_i h rl rk rv rr _
    cases right with
    | node height' near' left' right' =>
      have least : Lowered (node h rl rk rv rr) (takeLeast rl rk rv rr).2 :=
        lowered_takeLeast left' right' near' height'
      exact .balance (.refl left) least ⟨hl, hr⟩ (.inl rfl) height

theorem lowered_erase (ht : Balanced t) : Lowered t (t.erase cmp key) := by
  induction ht with
  | nil => exact .refl .nil
  | node height near left right ihl ihr =>
    rw [erase]
    split
    · exact ihl.balance (.refl right) near (.inr rfl) height
    · exact lowered_join left right near height
    · exact .balance (.refl left) ihr near (.inl rfl) height

theorem height_modify (f : β → β) (t : AvlTree α β) : (t.modify cmp key f).height = t.height := by
  cases t with
  | nil => rfl
  | node h l k v r =>
    rw [modify]
    split <;> rfl

theorem height_mapValues (f : α → β → β) (t : AvlTree α β) :
    (t.mapValues f).height = t.height := by
  cases t <;> rfl

theorem Balanced.modify (ht : Balanced t) (f : β → β) : Balanced (t.modify cmp key f) := by
  induction ht with
  | nil => exact .nil
  | node height near left right ihl ihr =>
    rw [AvlTree.modify]
    split
    · exact .node (by rwa [height_modify]) (by rwa [Near, height_modify]) ihl right
    · exact .node height near left right
    · exact .node (by rwa [height_modify]) (by rwa [Near, height_modify]) left ihr

theorem Balanced.mapValues (ht : Balanced t) (f : α → β → β) : Balanced (t.mapValues f) := by
  induction ht with
  | nil => exact .nil
  | node height near left right ihl ihr =>
    exact .node (by rwa [height_mapValues, height_mapValues])
      (by rwa [Near, height_mapValues, height_mapValues]) ihl ihr

section Sites
variable (cmp key x)

/-- The sides over which an insertion restores the balance, on its way back to the root. -/
def insertSites : AvlTree α β → List (AvlTree α β × AvlTree α β)
  | nil => []
  | node _ l k _ r =>
    match cmp key k with
    | .lt => l.insertSites ++ ((l.insert? cmp key x).map fun l' => (l', r)).toList
    | .eq => []
    | .gt => r.insertSites ++ ((r.insert? cmp key x).map fun r' => (l, r')).toList

/-- The sides over which the balance is restored when the least entry is taken. -/
def leastSites (l r : AvlTree α β) : List (AvlTree α β × AvlTree α β) :=
  match l with
  | nil => []
  | node _ ll lk lv lr => leastSites ll lr ++ [((takeLeast ll lk lv lr).2, r)]

/-- The sides over which the balance is restored when a node goes from between its sides. -/
def joinSites (l r : AvlTree α β) : List (AvlTree α β × AvlTree α β) :=
  match l, r with
  | _, nil => []
  | nil, _ => []
  | l, node _ rl rk rv rr => leastSites rl rr ++ [(l, (takeLeast rl rk rv rr).2)]

/-- The sides over which a removal restores the balance, on its way back to the root. -/
def eraseSites : AvlTree α β → List (AvlTree α β × AvlTree α β)
  | nil => []
  | node _ l k _ r =>
    match cmp key k with
    | .lt => l.eraseSites ++ [(l.erase cmp key, r)]
    | .eq => joinSites l r
    | .gt => r.eraseSites ++ [(l, r.erase cmp key)]

end Sites

theorem mendable_insertSites (ht : Balanced t) :
    ∀ s ∈ t.insertSites cmp key x, Mendable s.1 s.2 := by
  induction ht with
  | nil => exact nofun
  | @node h l r k v height near left right ihl ihr =>
    rw [insertSites]
    split
    · refine List.forall_mem_append.mpr ⟨ihl, fun s hs => ?_⟩
      obtain ⟨l', hl', rfl⟩ := Option.map_eq_some_iff.mp (Option.mem_toList.mp hs)
      exact (raised_insert? left hl').mendable (.refl right) near (.inr rfl)
    · exact nofun
    · refine List.forall_mem_append.mpr ⟨ihr, fun s hs => ?_⟩
      obtain ⟨r', hr', rfl⟩ := Option.map_eq_some_iff.mp (Option.mem_toList.mp hs)
      exact Changed.mendable (.refl left) (raised_insert? right hr') near (.inl rfl)

theorem mendable_leastSites (left : Balanced l) (right : Balanced r) (near : Near 1 l r) :
    ∀ s ∈ leastSites l r, Mendable s.1 s.2 := by
  induction left generalizing r with
  | nil => exact nofun
  | @node h ll lr lk lv height' near' left' right' ihl _ =>
    refine List.forall_mem_append.mpr ⟨ihl right' near', List.forall_mem_singleton.mpr ?_⟩
    have least : Lowered (node h ll lk lv lr) (takeLeast ll lk lv lr).2 :=
      lowered_takeLeast left' right' near' height'
    exact least.mendable (.refl right) near (.inr rfl)

theorem mendable_joinSites (left : Balanced l) (right : Balanced r) (near : Near 1 l r) :
    ∀ s ∈ joinSites l r, Mendable s.1 s.2 := by
  unfold joinSites
  split
  · exact nofun
  · exact nofun
  · rename_i h rl rk rv rr _
    cases right with
    | node height' near' left' right' =>
      have least : Lowered (node h rl rk rv rr) (takeLeast rl rk rv rr).2 :=
        lowered_takeLeast left' right' near' height'
      refine List.forall_mem_append.mpr ⟨mendable_leastSites left' right' near',
        List.forall_mem_singleton.mpr ?_⟩
      exact Changed.mendable (.refl left) least near (.inl rfl)

theorem mendable_eraseSites (ht : Balanced t) :
    ∀ s ∈ t.eraseSites cmp key, Mendable s.1 s.2 := by
  induction ht with
  | nil => exact nofun
  | node height near left right ihl ihr =>
    rw [eraseSites]
    split
    · refine List.forall_mem_append.mpr ⟨ihl, List.forall_mem_singleton.mpr ?_⟩
      exact (lowered_erase left).mendable (.refl right) near (.inr rfl)
    · exact mendable_joinSites left right near
    · refine List.forall_mem_append.mpr ⟨ihr, List.forall_mem_singleton.mpr ?_⟩
      exact Changed.mendable (.refl left) (lowered_erase right) near (.inl rfl)

end Keys

end LiveTree.AvlTree
