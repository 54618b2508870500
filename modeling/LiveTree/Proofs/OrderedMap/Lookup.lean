import LiveTree.OrderedMap.Basic
import LiveTree.Proofs.OrderedMap.Listing

/-!
# Maps as finite functions

A sound map has its keys in order and knows how many they are. For a comparison that tells all keys
apart, a map is determined by what is found under each key, and every operation is described by
that. Changes of values alone need no order: a search and a change under the same key take the same
way down.
-/

namespace LiveTree

namespace OrderedMap

variable {α β : Type} {cmp : α → α → Ordering}

/-- The keys ascend, and the size that is kept is right. -/
structure Sound (m : OrderedMap α β cmp) : Prop where
  ordered : m.root.Ordered cmp
  size_eq : m.size = m.root.size

theorem toList_eq (m : OrderedMap α β cmp) : m.toList = m.root.toList := by
  simp [toList, Cursor.start, Cursor.toList_eq_entries]

theorem sound_empty : (empty : OrderedMap α β cmp).Sound := ⟨AvlTree.ordered_nil cmp, rfl⟩

@[simp] theorem toList_empty : (empty : OrderedMap α β cmp).toList = [] := rfl

@[simp] theorem get?_empty (key : α) : (empty : OrderedMap α β cmp).get? key = none := rfl

theorem Sound.isEmpty_iff {m : OrderedMap α β cmp} (hm : m.Sound) :
    m.isEmpty = true ↔ m.toList = [] := by
  rw [isEmpty, hm.size_eq, AvlTree.size_eq_length, toList_eq]
  simp

theorem contains_eq_false_iff {m : OrderedMap α β cmp} {key : α} :
    m.contains key = false ↔ m.get? key = none := by
  simp [contains]

theorem contains_iff {m : OrderedMap α β cmp} {key : α} :
    m.contains key = true ↔ ∃ x, m.get? key = some x := by
  rw [contains, Option.isSome_iff_exists]

theorem Sound.modify {m : OrderedMap α β cmp} (hm : m.Sound) (key : α) (f : β → β) :
    (m.modify key f).Sound :=
  ⟨hm.ordered.modify key f, hm.size_eq.trans (AvlTree.size_modify cmp key f m.root).symm⟩

theorem Sound.mapValues {m : OrderedMap α β cmp} (hm : m.Sound) (f : α → β → β) :
    (m.mapValues f).Sound := by
  refine ⟨hm.ordered.mapValues f, ?_⟩
  rw [AvlTree.size_eq_length]
  simp only [OrderedMap.mapValues, AvlTree.toList_mapValues, List.length_map, hm.size_eq,
    AvlTree.size_eq_length]

theorem insert_of_get?_eq_some {m : OrderedMap α β cmp} {key : α} {x y : β}
    (h : m.get? key = some x) : m.insert key y = m := by
  have hn : m.root.insert? cmp key y = none := by
    rw [AvlTree.insert?_eq_none_iff]
    exact Option.isSome_of_eq_some h
  simp [insert, insertNew, hn]

theorem insertNew_snd (m : OrderedMap α β cmp) (key : α) (x : β) :
    (m.insertNew key x).2 = !m.contains key := by
  have none := @AvlTree.insert?_eq_none_iff _ _ cmp m.root key x
  rw [insertNew, contains, get?]
  cases hi : m.root.insert? cmp key x with
  | none => simp [none.mp hi]
  | some t =>
    have absent : ¬ (m.root.get? cmp key).isSome := fun h => by simp [none.mpr h] at hi
    simpa using absent

theorem keys_ascend {m : OrderedMap α β cmp} (hm : m.Sound) :
    m.keys.Pairwise fun a b => cmp a b = .lt := by
  rw [keys, toList_eq]
  exact (AvlTree.ordered_iff_keys cmp m.root).mp hm.ordered

theorem entries_ascend {m : OrderedMap α β cmp} (hm : m.Sound) :
    m.toList.Pairwise fun a b => cmp a.1 b.1 = .lt := by
  rw [toList_eq]
  exact hm.ordered

section Order
variable [Std.TransCmp cmp]

theorem toList_insert {m : OrderedMap α β cmp} (hm : m.Sound) {key : α} {x : β}
    (h : m.get? key = none) :
    (m.insert key x).toList = (m.toList.filter fun e => cmp key e.1 == .gt)
      ++ (key, x) :: m.toList.filter fun e => cmp key e.1 == .lt := by
  cases hi : m.root.insert? cmp key x with
  | none =>
    rw [AvlTree.insert?_eq_none_iff] at hi
    have hg : m.root.get? cmp key = none := h
    simp [hg] at hi
  | some t =>
    have ht : (m.insert key x).root = t := by simp [insert, insertNew, hi]
    rw [toList_eq, toList_eq, ht]
    exact AvlTree.toList_insert? hm.ordered hi

theorem Sound.insert {m : OrderedMap α β cmp} (hm : m.Sound) (key : α) (x : β) :
    (m.insert key x).Sound := by
  cases hi : m.root.insert? cmp key x with
  | none => simpa [OrderedMap.insert, insertNew, hi] using hm
  | some t =>
    have he : m.insert key x = ⟨t, m.size + 1⟩ := by simp [OrderedMap.insert, insertNew, hi]
    rw [he]
    exact ⟨hm.ordered.insert? hi, by rw [AvlTree.size_insert? cmp hi, hm.size_eq]⟩

theorem Sound.erase {m : OrderedMap α β cmp} (hm : m.Sound) (key : α) : (m.erase key).Sound := by
  refine ⟨hm.ordered.erase key, ?_⟩
  have hsize := AvlTree.size_erase cmp key m.root
  simp only [OrderedMap.erase, contains, get?, hm.size_eq]
  split
  · rename_i hsome
    rw [if_pos hsome] at hsize
    omega
  · rename_i hnone
    rw [if_neg hnone] at hsize
    omega

theorem toList_erase {m : OrderedMap α β cmp} (hm : m.Sound) (key : α) :
    (m.erase key).toList = m.toList.filter fun e => cmp key e.1 != .eq := by
  simp only [toList_eq]
  exact AvlTree.toList_erase hm.ordered key

theorem listFrom_eq {m : OrderedMap α β cmp} (hm : m.Sound) (key : α) :
    m.listFrom key = m.toList.filter fun e => cmp key e.1 != .gt := by
  rw [listFrom, Cursor.toList_eq_entries, Cursor.entries_seek hm.ordered, toList_eq]
  simp

theorem keys_nodup {m : OrderedMap α β cmp} (hm : m.Sound) : m.keys.Nodup := by
  apply (keys_ascend hm).imp
  intro a b hab he
  have hself : cmp b b = .eq := Std.ReflCmp.compare_self
  rw [he, hself] at hab
  cases hab

end Order

section Lawful
variable [Std.TransCmp cmp] [Std.LawfulEqCmp cmp]

theorem get?_eq_some_iff {m : OrderedMap α β cmp} (hm : m.Sound) {key : α} {x : β} :
    m.get? key = some x ↔ (key, x) ∈ m.toList := by
  rw [toList_eq]
  constructor
  · intro h
    obtain ⟨k, hk, he⟩ := (AvlTree.get?_eq_some_iff hm.ordered).mp h
    rwa [Std.LawfulEqCmp.eq_of_compare he]
  · intro h
    exact (AvlTree.get?_eq_some_iff hm.ordered).mpr ⟨key, h, Std.ReflCmp.compare_self⟩

theorem mem_keys_iff {m : OrderedMap α β cmp} (hm : m.Sound) {key : α} :
    key ∈ m.keys ↔ m.contains key = true := by
  rw [contains_iff, keys, List.mem_map]
  constructor
  · rintro ⟨⟨k, x⟩, hk, rfl⟩
    exact ⟨x, (get?_eq_some_iff hm).mpr hk⟩
  · rintro ⟨x, hx⟩
    exact ⟨(key, x), (get?_eq_some_iff hm).mp hx, rfl⟩

theorem get?_insert [DecidableEq α] {m : OrderedMap α β cmp} (hm : m.Sound) (key k : α) (x : β) :
    (m.insert key x).get? k = if k = key then some ((m.get? key).getD x) else m.get? k := by
  cases hg : m.get? key with
  | some y =>
    rw [insert_of_get?_eq_some hg]
    split
    · rename_i he
      rw [he, hg]
      rfl
    · rfl
  | none =>
    have hmem : ∀ y, (k, y) ∈ (m.insert key x).toList
        ↔ (k = key ∧ y = x) ∨ (k ≠ key ∧ (k, y) ∈ m.toList) := by
      intro y
      rw [toList_insert hm hg]
      simp only [List.mem_append, List.mem_cons, List.mem_filter, Prod.mk.injEq, beq_iff_eq]
      constructor
      · rintro (⟨hy, hc⟩ | ⟨rfl, rfl⟩ | ⟨hy, hc⟩)
        · exact Or.inr ⟨fun he => by simp [he, Std.ReflCmp.compare_self] at hc, hy⟩
        · exact Or.inl ⟨rfl, rfl⟩
        · exact Or.inr ⟨fun he => by simp [he, Std.ReflCmp.compare_self] at hc, hy⟩
      · rintro (⟨rfl, rfl⟩ | ⟨hne, hy⟩)
        · exact Or.inr (Or.inl ⟨rfl, rfl⟩)
        · cases hc : cmp key k with
          | lt => exact Or.inr (Or.inr ⟨hy, rfl⟩)
          | eq => exact absurd (Std.LawfulEqCmp.eq_of_compare hc).symm hne
          | gt => exact Or.inl ⟨hy, rfl⟩
    apply Option.ext
    intro y
    rw [get?_eq_some_iff (hm.insert key x), hmem]
    split
    · rename_i he
      simp [he, eq_comm]
    · rename_i he
      simp [he, get?_eq_some_iff hm]

theorem get?_erase [DecidableEq α] {m : OrderedMap α β cmp} (hm : m.Sound) (key k : α) :
    (m.erase key).get? k = if k = key then none else m.get? k := by
  apply Option.ext
  intro y
  rw [get?_eq_some_iff (hm.erase key), toList_erase hm, List.mem_filter]
  split
  · rename_i he
    simp [he, Std.ReflCmp.compare_self]
  · rename_i he
    have hc : cmp key k ≠ .eq := fun h => he (Std.LawfulEqCmp.eq_of_compare h).symm
    simp [hc, get?_eq_some_iff hm]

theorem mem_toList_map {γ : Type} {m : OrderedMap α β cmp} (hm : m.Sound) (f : β → γ) {k : α}
    {y : γ} : (k, y) ∈ m.toList.map (fun e => (e.1, f e.2)) ↔ (m.get? k).map f = some y := by
  rw [List.mem_map, Option.map_eq_some_iff]
  constructor
  · rintro ⟨e, he, hk⟩
    obtain ⟨rfl, rfl⟩ := Prod.mk.inj hk
    exact ⟨e.2, (get?_eq_some_iff hm).mpr he, rfl⟩
  · rintro ⟨x, hx, rfl⟩
    exact ⟨(k, x), (get?_eq_some_iff hm).mp hx, rfl⟩

theorem get?_map_ext {γ : Type} {m n : OrderedMap α β cmp} (hm : m.Sound) (hn : n.Sound)
    (f : β → γ) (h : m.toList.map (fun e => (e.1, f e.2)) = n.toList.map fun e => (e.1, f e.2))
    (k : α) : (m.get? k).map f = (n.get? k).map f := by
  apply Option.ext
  intro y
  rw [← mem_toList_map hm, ← mem_toList_map hn, h]

theorem toList_map_ext {γ : Type} {m n : OrderedMap α β cmp} (hm : m.Sound) (hn : n.Sound)
    (f : β → γ) (h : ∀ k, (m.get? k).map f = (n.get? k).map f) :
    m.toList.map (fun e => (e.1, f e.2)) = n.toList.map fun e => (e.1, f e.2) := by
  have ascend : ∀ {m : OrderedMap α β cmp}, m.Sound →
      (m.toList.map fun e => (e.1, f e.2)).Pairwise fun a b => cmp a.1 b.1 = .lt :=
    fun hm => List.pairwise_map.mpr (entries_ascend hm)
  have nodup : ∀ {m : OrderedMap α β cmp}, m.Sound →
      (m.toList.map fun e => (e.1, f e.2)).Nodup := by
    intro m hm
    apply (ascend hm).imp
    rintro a b hab rfl
    exact absurd hab (Std.OrientedCmp.not_lt_of_lt hab)
  have perm := (List.perm_ext_iff_of_nodup (nodup hm) (nodup hn)).mpr fun ⟨k, y⟩ => by
    rw [mem_toList_map hm, mem_toList_map hn, h]
  refine List.Perm.eq_of_pairwise ?_ (ascend hm) (ascend hn) perm
  intro a b _ _ hab hba
  exact absurd hba (Std.OrientedCmp.not_lt_of_lt hab)

end Lawful

end OrderedMap

section Change
variable {α β : Type} {cmp : α → α → Ordering} [Std.LawfulEqCmp cmp]

theorem AvlTree.get?_mapValues (t : AvlTree α β) (k : α) (f : α → β → β) :
    (t.mapValues f).get? cmp k = (t.get? cmp k).map (f k) := by
  induction t with
  | nil => rfl
  | node h l j v r ihl ihr =>
    cases hj : cmp k j with
    | lt => simp [AvlTree.mapValues, AvlTree.get?, hj, ihl]
    | gt => simp [AvlTree.mapValues, AvlTree.get?, hj, ihr]
    | eq =>
      have he : k = j := Std.LawfulEqCmp.eq_of_compare hj
      subst he
      simp [AvlTree.mapValues, AvlTree.get?, hj]

theorem OrderedMap.get?_mapValues (m : OrderedMap α β cmp) (k : α) (f : α → β → β) :
    (m.mapValues f).get? k = (m.get? k).map (f k) :=
  AvlTree.get?_mapValues m.root k f

variable [DecidableEq α]

theorem AvlTree.get?_modify (t : AvlTree α β) (key k : α) (f : β → β) :
    (t.modify cmp key f).get? cmp k
      = if k = key then (t.get? cmp key).map f else t.get? cmp k := by
  induction t with
  | nil => simp [AvlTree.modify, AvlTree.get?]
  | node h l j v r ihl ihr =>
    by_cases he : k = key
    · subst he
      simp only [if_pos] at ihl ihr ⊢
      cases hk : cmp k j <;> simp [AvlTree.modify, AvlTree.get?, hk, ihl, ihr]
    · simp only [if_neg he] at ihl ihr ⊢
      cases hk : cmp key j with
      | lt => cases hj : cmp k j <;> simp [AvlTree.modify, AvlTree.get?, hk, hj, ihl]
      | gt => cases hj : cmp k j <;> simp [AvlTree.modify, AvlTree.get?, hk, hj, ihr]
      | eq =>
        have hne : cmp k j ≠ .eq := fun hj =>
          he ((Std.LawfulEqCmp.eq_of_compare hj).trans (Std.LawfulEqCmp.eq_of_compare hk).symm)
        cases hj : cmp k j with
        | lt => simp [AvlTree.modify, AvlTree.get?, hk, hj]
        | gt => simp [AvlTree.modify, AvlTree.get?, hk, hj]
        | eq => exact absurd hj hne

theorem OrderedMap.get?_modify (m : OrderedMap α β cmp) (key k : α) (f : β → β) :
    (m.modify key f).get? k = if k = key then (m.get? key).map f else m.get? k :=
  AvlTree.get?_modify m.root key k f

end Change

end LiveTree
