import LiveTree.OrderedMap.Cursor

/-!
# Trees as lists

Every operation on a tree is described by what it does to the entries from left to right. Rotations
leave them alone, so balance plays no part here. In an ordered tree a search splits the entries at
a key: those before it, at most one that compares equal, and those behind it.
-/

namespace LiveTree

namespace AvlTree

variable {α β : Type}

@[simp] theorem toList_make (l : AvlTree α β) (k : α) (v : β) (r : AvlTree α β) :
    (make l k v r).toList = l.toList ++ (k, v) :: r.toList := rfl

@[simp] theorem toList_rotateRight (t : AvlTree α β) : t.rotateRight.toList = t.toList := by
  unfold rotateRight
  split <;> simp [toList]

@[simp] theorem toList_rotateLeft (t : AvlTree α β) : t.rotateLeft.toList = t.toList := by
  unfold rotateLeft
  split <;> simp [toList]

@[simp] theorem toList_balance (l : AvlTree α β) (k : α) (v : β) (r : AvlTree α β) :
    (balance l k v r).toList = l.toList ++ (k, v) :: r.toList := by
  unfold balance
  split
  · split <;> simp
  · split
    · split <;> simp
    · simp

theorem takeLeast_toList (l : AvlTree α β) (k : α) (v : β) (r : AvlTree α β) :
    (takeLeast l k v r).1 :: (takeLeast l k v r).2.toList = l.toList ++ (k, v) :: r.toList := by
  induction l generalizing k v r with
  | nil => rfl
  | node h ll lk lv lr ihl _ =>
    simp only [takeLeast, toList_balance, toList]
    rw [← List.cons_append, ihl]

@[simp] theorem toList_join (l r : AvlTree α β) : (join l r).toList = l.toList ++ r.toList := by
  unfold join
  split
  · simp [toList]
  · simp [toList]
  · rename_i rl rk rv rr _
    simp only [toList_balance, toList]
    rw [← takeLeast_toList rl rk rv rr]

theorem size_eq_length (t : AvlTree α β) : t.size = t.toList.length := by
  induction t with
  | nil => rfl
  | node h l k v r ihl ihr =>
    simp only [size, toList, List.length_append, List.length_cons, ihl, ihr]
    omega

@[simp] theorem size_balance (l : AvlTree α β) (k : α) (v : β) (r : AvlTree α β) :
    (balance l k v r).size = l.size + 1 + r.size := by
  simp only [size_eq_length, toList_balance, List.length_append, List.length_cons]
  omega

@[simp] theorem size_join (l r : AvlTree α β) : (join l r).size = l.size + r.size := by
  simp only [size_eq_length, toList_join, List.length_append]

theorem toList_mapValues (f : α → β → β) (t : AvlTree α β) :
    (t.mapValues f).toList = t.toList.map fun e => (e.1, f e.1 e.2) := by
  induction t with
  | nil => rfl
  | node h l k v r ihl ihr => simp [mapValues, toList, ihl, ihr]

variable (cmp : α → α → Ordering)

theorem keys_modify (key : α) (f : β → β) (t : AvlTree α β) :
    (t.modify cmp key f).toList.map Prod.fst = t.toList.map Prod.fst := by
  induction t with
  | nil => rfl
  | node h l k v r ihl ihr =>
    simp only [modify]
    split <;> simp [toList, ihl, ihr]

theorem size_modify (key : α) (f : β → β) (t : AvlTree α β) :
    (t.modify cmp key f).size = t.size := by
  have h := congrArg List.length (keys_modify cmp key f t)
  simpa only [List.length_map, ← size_eq_length] using h

theorem size_insert? {t t' : AvlTree α β} {key : α} {x : β} (h : t.insert? cmp key x = some t') :
    t'.size = t.size + 1 := by
  induction t generalizing t' with
  | nil =>
    cases h
    rfl
  | node n l k v r ihl ihr =>
    simp only [insert?] at h
    split at h
    · obtain ⟨l', hl', rfl⟩ := Option.map_eq_some_iff.mp h
      simp only [size_balance, size, ihl hl']
      omega
    · cases h
    · obtain ⟨r', hr', rfl⟩ := Option.map_eq_some_iff.mp h
      simp only [size_balance, size, ihr hr']
      omega

theorem size_erase (key : α) (t : AvlTree α β) :
    (t.erase cmp key).size + (if (t.get? cmp key).isSome then 1 else 0) = t.size := by
  induction t with
  | nil => rfl
  | node n l k v r ihl ihr =>
    cases hk : cmp key k with
    | lt =>
      simp only [erase, get?, hk, size_balance, size]
      omega
    | eq =>
      simp only [erase, get?, hk, size_join, size, Option.isSome_some, if_true]
      omega
    | gt =>
      simp only [erase, get?, hk, size_balance, size]
      omega

/-- The keys ascend from left to right. -/
def Ordered (t : AvlTree α β) : Prop := t.toList.Pairwise fun a b => cmp a.1 b.1 = .lt

theorem ordered_iff_keys (t : AvlTree α β) :
    t.Ordered cmp ↔ (t.toList.map Prod.fst).Pairwise fun a b => cmp a b = .lt := by
  rw [List.pairwise_map]
  rfl

theorem ordered_nil : (nil : AvlTree α β).Ordered cmp := List.Pairwise.nil

variable {cmp} in
theorem Ordered.left {h : Nat} {l r : AvlTree α β} {k : α} {v : β}
    (ht : (node h l k v r).Ordered cmp) : l.Ordered cmp :=
  (List.pairwise_append.mp ht).1

variable {cmp} in
theorem Ordered.right {h : Nat} {l r : AvlTree α β} {k : α} {v : β}
    (ht : (node h l k v r).Ordered cmp) : r.Ordered cmp :=
  (List.pairwise_cons.mp (List.pairwise_append.mp ht).2.1).2

variable {cmp} in
theorem Ordered.left_lt {h : Nat} {l r : AvlTree α β} {k : α} {v : β}
    (ht : (node h l k v r).Ordered cmp) : ∀ e ∈ l.toList, cmp e.1 k = .lt :=
  fun e he => (List.pairwise_append.mp ht).2.2 e he (k, v) List.mem_cons_self

variable {cmp} in
theorem Ordered.lt_right {h : Nat} {l r : AvlTree α β} {k : α} {v : β}
    (ht : (node h l k v r).Ordered cmp) : ∀ e ∈ r.toList, cmp k e.1 = .lt :=
  (List.pairwise_cons.mp (List.pairwise_append.mp ht).2.1).1

theorem Ordered.modify {cmp : α → α → Ordering} {t : AvlTree α β} (ht : t.Ordered cmp) (key : α)
    (f : β → β) : (t.modify cmp key f).Ordered cmp := by
  rw [ordered_iff_keys, keys_modify, ← ordered_iff_keys]
  exact ht

theorem Ordered.mapValues {cmp : α → α → Ordering} {t : AvlTree α β} (ht : t.Ordered cmp)
    (f : α → β → β) : (t.mapValues f).Ordered cmp := by
  unfold Ordered
  rw [toList_mapValues, List.pairwise_map]
  exact ht

section Search
variable {cmp} [Std.TransCmp cmp] {key : α} {h : Nat} {l r : AvlTree α β} {k : α} {v : β}

theorem Ordered.right_of_lt (ht : (node h l k v r).Ordered cmp) (hk : cmp key k = .lt) :
    ∀ e ∈ r.toList, cmp key e.1 = .lt :=
  fun e he => Std.TransCmp.lt_trans hk (ht.lt_right e he)

theorem Ordered.right_of_eq (ht : (node h l k v r).Ordered cmp) (hk : cmp key k = .eq) :
    ∀ e ∈ r.toList, cmp key e.1 = .lt :=
  fun e he => Std.TransCmp.lt_of_eq_of_lt hk (ht.lt_right e he)

theorem Ordered.left_of_gt (ht : (node h l k v r).Ordered cmp) (hk : cmp key k = .gt) :
    ∀ e ∈ l.toList, cmp key e.1 = .gt :=
  fun e he => Std.TransCmp.gt_trans hk (Std.OrientedCmp.gt_of_lt (ht.left_lt e he))

theorem Ordered.left_of_eq (ht : (node h l k v r).Ordered cmp) (hk : cmp key k = .eq) :
    ∀ e ∈ l.toList, cmp key e.1 = .gt :=
  fun e he => Std.TransCmp.gt_of_eq_of_gt hk (Std.OrientedCmp.gt_of_lt (ht.left_lt e he))

end Search

theorem insert?_eq_none_iff {t : AvlTree α β} {key : α} {x : β} :
    t.insert? cmp key x = none ↔ (t.get? cmp key).isSome := by
  induction t with
  | nil => simp [insert?, get?]
  | node h l k v r ihl ihr =>
    cases hk : cmp key k with
    | lt => simp [insert?, get?, hk, ihl]
    | eq => simp [insert?, get?, hk]
    | gt => simp [insert?, get?, hk, ihr]

variable {cmp} [Std.TransCmp cmp]

theorem get?_eq_some_iff {t : AvlTree α β} (ht : t.Ordered cmp) {key : α} {x : β} :
    t.get? cmp key = some x ↔ ∃ k, (k, x) ∈ t.toList ∧ cmp key k = .eq := by
  induction t with
  | nil => simp [get?, toList]
  | node h l k v r ihl ihr =>
    simp only [toList, List.mem_append, List.mem_cons, Prod.mk.injEq]
    cases hk : cmp key k with
    | lt =>
      simp only [get?, hk, ihl ht.left]
      constructor
      · rintro ⟨j, hj, he⟩
        exact ⟨j, Or.inl hj, he⟩
      · rintro ⟨j, hj | ⟨rfl, _⟩ | hj, he⟩
        · exact ⟨j, hj, he⟩
        · simp [hk] at he
        · simp [ht.right_of_lt hk _ hj] at he
    | eq =>
      simp only [get?, hk, Option.some.injEq]
      constructor
      · rintro rfl
        exact ⟨k, Or.inr (Or.inl ⟨rfl, rfl⟩), hk⟩
      · rintro ⟨j, hj | ⟨_, rfl⟩ | hj, he⟩
        · simp [ht.left_of_eq hk _ hj] at he
        · rfl
        · simp [ht.right_of_eq hk _ hj] at he
    | gt =>
      simp only [get?, hk, ihr ht.right]
      constructor
      · rintro ⟨j, hj, he⟩
        exact ⟨j, Or.inr (Or.inr hj), he⟩
      · rintro ⟨j, hj | ⟨rfl, _⟩ | hj, he⟩
        · simp [ht.left_of_gt hk _ hj] at he
        · simp [hk] at he
        · exact ⟨j, hj, he⟩

theorem toList_insert? {t t' : AvlTree α β} (ht : t.Ordered cmp) {key : α} {x : β}
    (hi : t.insert? cmp key x = some t') :
    t'.toList = (t.toList.filter fun e => cmp key e.1 == .gt)
      ++ (key, x) :: t.toList.filter fun e => cmp key e.1 == .lt := by
  induction t generalizing t' with
  | nil =>
    cases hi
    rfl
  | node h l k v r ihl ihr =>
    simp only [insert?] at hi
    cases hk : cmp key k with
    | lt =>
      simp only [hk, Option.map_eq_some_iff] at hi
      obtain ⟨l', hl', rfl⟩ := hi
      have hr := ht.right_of_lt hk
      rw [toList_balance, ihl ht.left hl']
      simp only [toList, List.filter_append, List.filter_cons, hk]
      have none_gt : r.toList.filter (fun e => cmp key e.1 == .gt) = [] :=
        List.filter_eq_nil_iff.mpr fun e he => by simp [hr e he]
      have all_lt : r.toList.filter (fun e => cmp key e.1 == .lt) = r.toList :=
        List.filter_eq_self.mpr fun e he => by simp [hr e he]
      simp [none_gt, all_lt]
    | eq => simp [hk] at hi
    | gt =>
      simp only [hk, Option.map_eq_some_iff] at hi
      obtain ⟨r', hr', rfl⟩ := hi
      have hl := ht.left_of_gt hk
      rw [toList_balance, ihr ht.right hr']
      simp only [toList, List.filter_append, List.filter_cons, hk]
      have all_gt : l.toList.filter (fun e => cmp key e.1 == .gt) = l.toList :=
        List.filter_eq_self.mpr fun e he => by simp [hl e he]
      have none_lt : l.toList.filter (fun e => cmp key e.1 == .lt) = [] :=
        List.filter_eq_nil_iff.mpr fun e he => by simp [hl e he]
      simp [all_gt, none_lt]

theorem Ordered.insert? {t t' : AvlTree α β} (ht : t.Ordered cmp) {key : α} {x : β}
    (hi : t.insert? cmp key x = some t') : t'.Ordered cmp := by
  unfold Ordered
  rw [toList_insert? ht hi]
  apply List.pairwise_append.mpr
  have before : ∀ a ∈ t.toList.filter (fun e => cmp key e.1 == .gt), cmp a.1 key = .lt :=
    fun a ha => Std.OrientedCmp.lt_of_gt (by simpa using (List.mem_filter.mp ha).2)
  have behind : ∀ b ∈ t.toList.filter (fun e => cmp key e.1 == .lt), cmp key b.1 = .lt :=
    fun b hb => by simpa using (List.mem_filter.mp hb).2
  refine ⟨ht.filter _, List.pairwise_cons.mpr ⟨behind, ht.filter _⟩, ?_⟩
  intro a ha b hb
  rcases List.mem_cons.mp hb with rfl | hb
  · exact before a ha
  · exact Std.TransCmp.lt_trans (before a ha) (behind b hb)

theorem toList_erase {t : AvlTree α β} (ht : t.Ordered cmp) (key : α) :
    (t.erase cmp key).toList = t.toList.filter fun e => cmp key e.1 != .eq := by
  induction t with
  | nil => rfl
  | node h l k v r ihl ihr =>
    simp only [erase, toList, List.filter_append, List.filter_cons]
    cases hk : cmp key k with
    | lt =>
      have hr : r.toList.filter (fun e => cmp key e.1 != .eq) = r.toList :=
        List.filter_eq_self.mpr fun e he => by simp [ht.right_of_lt hk e he]
      simp [hr, ihl ht.left]
    | eq =>
      have hl : l.toList.filter (fun e => cmp key e.1 != .eq) = l.toList :=
        List.filter_eq_self.mpr fun e he => by simp [ht.left_of_eq hk e he]
      have hr : r.toList.filter (fun e => cmp key e.1 != .eq) = r.toList :=
        List.filter_eq_self.mpr fun e he => by simp [ht.right_of_eq hk e he]
      simp [hl, hr]
    | gt =>
      have hl : l.toList.filter (fun e => cmp key e.1 != .eq) = l.toList :=
        List.filter_eq_self.mpr fun e he => by simp [ht.left_of_gt hk e he]
      simp [hl, ihr ht.right]

theorem toList_modify {t : AvlTree α β} (ht : t.Ordered cmp) (key : α) (f : β → β) :
    (t.modify cmp key f).toList
      = t.toList.map fun e => if cmp key e.1 = .eq then (e.1, f e.2) else e := by
  have same : ∀ es : List (α × β), (∀ e ∈ es, cmp key e.1 ≠ .eq) →
      (es.map fun e => if cmp key e.1 = .eq then (e.1, f e.2) else e) = es := fun _ h =>
    (List.map_congr_left fun e he => if_neg (h e he)).trans (List.map_id _)
  induction t with
  | nil => rfl
  | node h l k v r ihl ihr =>
    simp only [modify, toList, List.map_append, List.map_cons]
    cases hk : cmp key k with
    | lt =>
      have hr := same r.toList fun e he => by simp [ht.right_of_lt hk e he]
      simp [toList, ihl ht.left, hr]
    | eq =>
      have hl := same l.toList fun e he => by simp [ht.left_of_eq hk e he]
      have hr := same r.toList fun e he => by simp [ht.right_of_eq hk e he]
      simp [toList, hl, hr]
    | gt =>
      have hl := same l.toList fun e he => by simp [ht.left_of_gt hk e he]
      simp [toList, ihr ht.right, hl]

theorem Ordered.erase {t : AvlTree α β} (ht : t.Ordered cmp) (key : α) :
    (t.erase cmp key).Ordered cmp := by
  unfold Ordered
  rw [toList_erase ht]
  exact ht.filter _

end AvlTree

namespace Cursor

variable {α β : Type}

/-- The entries that are to come. -/
def entries (c : Cursor α β) : List (α × β) := c.flatMap fun p => (p.key, p.value) :: p.right.toList

@[simp] theorem entries_nil : entries ([] : Cursor α β) = [] := rfl

@[simp] theorem entries_cons (p : Pending α β) (c : Cursor α β) :
    entries (p :: c) = (p.key, p.value) :: (p.right.toList ++ entries c) := by
  simp [entries]

@[simp] theorem entries_descend (t : AvlTree α β) (c : Cursor α β) :
    entries (descend t c) = t.toList ++ entries c := by
  induction t generalizing c with
  | nil => rfl
  | node h l k v r ihl _ => simp [descend, AvlTree.toList, ihl]

theorem remaining_eq_length (c : Cursor α β) : c.remaining = c.entries.length := by
  induction c with
  | nil => rfl
  | cons p c ih =>
    have hc : remaining (p :: c) = p.right.size + 1 + remaining c := rfl
    rw [hc, entries_cons, ih, AvlTree.size_eq_length]
    simp only [List.length_cons, List.length_append]
    omega

theorem take_eq (n : Nat) (c : Cursor α β) : c.take n = c.entries.take n := by
  induction n generalizing c with
  | zero => rfl
  | succ n ih =>
    cases c with
    | nil => rfl
    | cons p c => simp [take, next?, ih]

theorem toList_eq_entries (c : Cursor α β) : c.toList = c.entries := by
  rw [toList, take_eq, remaining_eq_length, List.take_length]

variable {cmp : α → α → Ordering} [Std.TransCmp cmp]

/-- Seeking a key passes over what is less, and nothing else. -/
theorem entries_seek {t : AvlTree α β} (ht : t.Ordered cmp) (key : α) (c : Cursor α β) :
    entries (seek cmp key t c) = (t.toList.filter fun e => cmp key e.1 != .gt) ++ entries c := by
  induction t generalizing c with
  | nil => rfl
  | node h l k v r ihl ihr =>
    simp only [seek, AvlTree.toList, List.filter_append, List.filter_cons]
    cases hk : cmp key k with
    | lt =>
      have hr : r.toList.filter (fun e => cmp key e.1 != .gt) = r.toList :=
        List.filter_eq_self.mpr fun e he => by simp [ht.right_of_lt hk e he]
      simp [hr, ihl ht.left]
    | eq =>
      have hl : l.toList.filter (fun e => cmp key e.1 != .gt) = [] :=
        List.filter_eq_nil_iff.mpr fun e he => by simp [ht.left_of_eq hk e he]
      have hr : r.toList.filter (fun e => cmp key e.1 != .gt) = r.toList :=
        List.filter_eq_self.mpr fun e he => by simp [ht.right_of_eq hk e he]
      simp [hl, hr]
    | gt =>
      have hl : l.toList.filter (fun e => cmp key e.1 != .gt) = [] :=
        List.filter_eq_nil_iff.mpr fun e he => by simp [ht.left_of_gt hk e he]
      simp [hl, ihr ht.right]

end Cursor

end LiveTree
