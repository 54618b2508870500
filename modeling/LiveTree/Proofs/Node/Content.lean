import LiveTree.Proofs.Node.Leaves

/-!
# The value of a node says what its leaves say

Two tidy nodes have the same value exactly when they have the same leaves, and a node that is built
from the value of another one has its leaves. So what is sent as a value arrives as it stood.
-/

namespace LiveTree.Node

variable {m n : Node} {children others : Children}

theorem toPairs_eq (t : AvlTree String Node) :
    toPairs t = t.toList.map fun e => (e.1, e.2.toValue) := by
  induction t with
  | nil => rfl
  | node h l k n r ihl ihr => simp [toPairs, AvlTree.toList, ihl, ihr]

theorem toValue_internal (children : Children) (memo : Memo) :
    (internal children memo).toValue
      = arrange (children.toList.map fun e => (e.1, e.2.toValue)) := by
  rw [toValue, toPairs_eq, OrderedMap.toList_eq]

theorem ofPairs_eq (pairs : List (String × Value)) :
    ofPairs pairs = pairs.map fun e => (e.1, ofValue e.2) := by
  induction pairs with
  | nil => rfl
  | cons e pairs ih => simp [ofPairs, ih]

theorem indexed_ofItems {pairs : List (String × Value)} {start : Nat}
    (h : isSequence start pairs = true) :
    Value.indexed start (ofItems (pairs.map Prod.snd)) = ofPairs pairs := by
  induction pairs generalizing start with
  | nil => rfl
  | cons e pairs ih =>
    obtain ⟨k, v⟩ := e
    rw [isSequence, Bool.and_eq_true, beq_iff_eq] at h
    rw [List.map_cons, ofItems, Value.indexed, ofPairs, h.1, ih h.2]

theorem ofValue_arrange (pairs : List (String × Value)) :
    ofValue (arrange pairs) = ofEntries (ofPairs pairs) := by
  unfold arrange
  split
  · rw [ofValue, indexed_ofItems ‹_›]
  · rw [ofValue]

theorem childOf_addChild_of_ne (sound : children.Sound) {k j : String} (ne : j = "" ∨ j ≠ k)
    (n : Node) : childOf (addChild children (k, n)) j = childOf children j := by
  rw [childOf, get?_addChild sound, if_neg, childOf]
  rintro ⟨rfl, name, _⟩
  exact ne.elim name (· rfl)

theorem childOf_addChild_self (sound : children.Sound) {k : String} (name : k ≠ "") (tidy : Tidy n)
    (free : childOf children k = null) : childOf (addChild children (k, n)) k = n := by
  rw [childOf, get?_addChild sound]
  cases hnull : n.isNull with
  | true =>
    rw [if_neg (by simp), tidy.isNull_iff.mp hnull]
    exact free
  | false => rw [if_pos ⟨rfl, name, rfl⟩, Option.getD_some]

/-- Children with names of their own, added where no child of that name is, are there then. One
without a name is left out. -/
theorem childOf_addAll {entries : List (String × Node)} (sound : children.Sound)
    (names : (entries.map Prod.fst).Nodup) (tidy : ∀ e ∈ entries, Tidy e.2)
    (free : ∀ e ∈ entries, childOf children e.1 = null) :
    (∀ e ∈ entries, e.1 ≠ "" → childOf (entries.foldl addChild children) e.1 = e.2)
      ∧ ∀ key, key = "" ∨ key ∉ entries.map Prod.fst →
        childOf (entries.foldl addChild children) key = childOf children key := by
  induction entries generalizing children with
  | nil => exact ⟨nofun, fun _ _ => rfl⟩
  | cons e entries ih =>
    obtain ⟨k, n⟩ := e
    obtain ⟨new, names⟩ := List.nodup_cons.mp names
    obtain ⟨hn, tidy⟩ := List.forall_mem_cons.mp tidy
    obtain ⟨hf, free⟩ := List.forall_mem_cons.mp free
    have later : ∀ e ∈ entries, e.1 ≠ k := by
      intro e he heq
      exact new (List.mem_map.mpr ⟨e, he, heq⟩)
    obtain ⟨ih, ih'⟩ := ih (sound_addChild sound (k, n)) names tidy fun e he =>
      (childOf_addChild_of_ne sound (Or.inr (later e he)) n).trans (free e he)
    refine ⟨List.forall_mem_cons.mpr ⟨fun name => ?_, ih⟩, fun key hkey => ?_⟩
    · exact (ih' k (Or.inr new)).trans (childOf_addChild_self sound name hn hf)
    · have ne : key = "" ∨ key ≠ k := hkey.imp_right fun hk he => hk (he ▸ List.mem_cons_self)
      have rest : key = "" ∨ key ∉ entries.map Prod.fst :=
        hkey.imp_right fun hk mem => hk (List.mem_cons_of_mem k mem)
      exact (ih' key rest).trans (childOf_addChild_of_ne sound ne n)

theorem leaf?_ofEntries_cons {entries : List (String × Node)} (tidy : ∀ e ∈ entries, Tidy e.2)
    (s : String) (rest : List String) : (ofEntries entries).leaf? (s :: rest)
      = (childOf (entries.foldl addChild OrderedMap.empty) s).leaf? rest :=
  leaf?_ofChildren_cons (family_empty.addAll tidy).sound s rest

theorem Tidy.alike_ofValue (h : Tidy n) : Alike (ofValue n.toValue) n := by
  induction h with
  | null | bool b => exact fun _ => rfl
  | number x memo | text s memo =>
    intro names
    cases names <;> rfl
  | @internal children memo sound filled named present below ih =>
    let sent : String × Node → String × Node := fun e => (e.1, ofValue e.2.toValue)
    have keys : (children.toList.map sent).map Prod.fst = children.keys := by
      rw [List.map_map]
      rfl
    have get : ∀ {e}, e ∈ children.toList → children.get? e.1 = some e.2 :=
      fun he => (OrderedMap.get?_eq_some_iff sound).mpr he
    have names : ∀ e ∈ children.toList.map sent, e.1 ≠ "" := by
      intro e he
      obtain ⟨x, hx, rfl⟩ := List.mem_map.mp he
      exact named x.1 x.2 (get hx)
    have tidy : ∀ e ∈ children.toList.map sent, Tidy e.2 := by
      intro e he
      obtain ⟨x, _, rfl⟩ := List.mem_map.mp he
      exact tidy_ofValue _
    have nodup := keys.symm ▸ OrderedMap.keys_nodup sound
    obtain ⟨there, elsewhere⟩ :=
      childOf_addAll OrderedMap.sound_empty nodup tidy fun _ _ => rfl
    rw [toValue_internal, ofValue_arrange, ofPairs_eq, List.map_map]
    intro names
    cases names with
    | nil => exact leaf?_ofChildren_nil _
    | cons s rest =>
      apply (leaf?_ofEntries_cons tidy s rest).trans
      change _ = (childOf children s).leaf? rest
      cases hg : children.get? s with
      | none =>
        have absent : s ∉ children.keys := fun hs => by
          obtain ⟨x, hx⟩ := OrderedMap.contains_iff.mp ((OrderedMap.mem_keys_iff sound).mp hs)
          rw [hg] at hx
          cases hx
        have none : childOf children s = .null := by rw [childOf, hg]; rfl
        rw [elsewhere s (Or.inr (keys ▸ absent)), none]
        rfl
      | some m =>
        have mem : sent (s, m) ∈ children.toList.map sent :=
          List.mem_map_of_mem ((OrderedMap.get?_eq_some_iff sound).mp hg)
        have some : childOf children s = m := by rw [childOf, hg]; rfl
        rw [some]
        refine Eq.trans (congrArg (fun n => leaf? n rest) (there _ mem (names _ mem))) ?_
        exact ih s m hg rest

theorem Tidy.exists_leaf (h : Tidy n) (present : n ≠ .null) : ∃ names v, n.leaf? names = some v := by
  induction h with
  | null => exact absurd rfl present
  | bool b | number x memo | text s memo => exact ⟨[], _, rfl⟩
  | @internal children memo sound filled named some_child below ih =>
    cases hl : children.toList with
    | nil =>
      rw [sound.isEmpty_iff.mpr hl] at filled
      cases filled
    | cons e rest =>
      have hg : children.get? e.1 = some e.2 :=
        (OrderedMap.get?_eq_some_iff sound).mpr (hl ▸ List.mem_cons_self)
      obtain ⟨names, v, hv⟩ := ih e.1 e.2 hg (some_child e.1 e.2 hg)
      refine ⟨e.1 :: names, v, ?_⟩
      rw [leaf?_cons]
      change (childOf children e.1).leaf? names = some v
      rw [childOf, hg]
      exact hv

theorem Tidy.eq_null (h : Tidy n) (none : ∀ names, n.leaf? names = none) : n = .null := by
  by_cases present : n = .null
  · exact present
  · obtain ⟨names, v, hv⟩ := h.exists_leaf present
    rw [none names] at hv
    cases hv

theorem get?_map_eq {γ : Type} {read : Node → γ} (h : Family children) (h' : Family others)
    (alike : ∀ key, Alike (childOf children key) (childOf others key))
    (same : ∀ key {m n}, children.get? key = some m → Tidy n → Alike m n → read m = read n)
    (key : String) : (children.get? key).map read = (others.get? key).map read := by
  have alike := alike key
  unfold childOf at alike
  cases hc : children.get? key with
  | none =>
    cases ho : others.get? key with
    | none => rfl
    | some b =>
      rw [hc, ho] at alike
      refine absurd ((h'.below key b ho).eq_null ?_) (h'.present key b ho)
      intro names
      exact (alike names).symm.trans (leaf?_null names)
  | some a =>
    cases ho : others.get? key with
    | none =>
      rw [hc, ho] at alike
      refine absurd ((h.below key a hc).eq_null ?_) (h.present key a hc)
      intro names
      exact (alike names).trans (leaf?_null names)
    | some b =>
      rw [hc, ho] at alike
      exact congrArg some (same key hc (h'.below key b ho) alike)

/-- What is read off a node by its leaves, and off a container by what is read off its children, is
the same for nodes with the same leaves. -/
theorem eq_of_alike {γ : Type} (read : Node → γ) (gather : List (String × γ) → γ)
    (atom : ∀ {m n v}, m.atom? = some v → n.atom? = some v → read m = read n)
    (whole : ∀ {children memo}, Tidy (internal children memo) →
      read (internal children memo) = gather (children.toList.map fun e => (e.1, read e.2)))
    (hm : Tidy m) (hn : Tidy n) (h : Alike m n) : read m = read n := by
  induction hm generalizing n with
  | null => rw [hn.eq_null fun names => (h names).symm.trans (leaf?_null names)]
  | bool b | number x memo | text s memo => exact atom rfl (h []).symm
  | @internal children memo sound filled named present below ih =>
    have here : Tidy (.internal children memo) := .internal memo sound filled named present below
    cases hn with
    | null => cases here.eq_null fun names => (h names).trans (leaf?_null names)
    | bool b | number x memo | text s memo => cases h []
    | @internal others memo' sound' filled' named' present' below' =>
      have there : Tidy (.internal others memo') :=
        .internal memo' sound' filled' named' present' below'
      have get := get?_map_eq here.family there.family (fun k names => h (k :: names))
        fun k _ _ hc hb alike => ih k _ hc hb alike
      rw [whole here, whole there, OrderedMap.toList_map_ext sound sound' read get]

theorem toValue_of_atom {v : Value} (h : n.atom? = some v) : n.toValue = v := by
  cases n <;> simp_all [atom?, toValue]

theorem Tidy.toValue_eq (hm : Tidy m) (hn : Tidy n) (h : Alike m n) : m.toValue = n.toValue :=
  eq_of_alike toValue arrange
    (fun hm hn => (toValue_of_atom hm).trans (toValue_of_atom hn).symm)
    (fun _ => toValue_internal _ _) hm hn h

theorem Tidy.toValue_eq_iff (hm : Tidy m) (hn : Tidy n) : m.toValue = n.toValue ↔ Alike m n := by
  refine ⟨?_, hm.toValue_eq hn⟩
  intro h names
  rw [← hm.alike_ofValue names, h]
  exact hn.alike_ofValue names

end LiveTree.Node
