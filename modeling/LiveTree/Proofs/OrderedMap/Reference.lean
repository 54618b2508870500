import LiveTree.OrderedMap.Check
import LiveTree.Proofs.OrderedMap.Balance
import LiveTree.Proofs.OrderedMap.Lookup

/-!
# Maps behave like dictionaries

A dictionary is a list of entries in no order that matters. Its keys are only ever asked whether they
compare equal, and of keys that do, one is there at most. Whatever is done to a map from the
beginning on, it gives the answers of a dictionary, holds its entries in ascending order, and passes
its own check.
-/

namespace LiveTree

namespace OrderedMap

variable {α β : Type} {cmp : α → α → Ordering}

theorem checkTree_of_balanced {t : AvlTree α β} (h : t.Balanced) :
    checkTree t = .ok t.height := by
  induction h with
  | nil => rfl
  | @node h l r k v height near left right ihl ihr =>
    obtain ⟨hl, hr⟩ := near
    have flat : ¬ (l.height + 1 < r.height ∨ r.height + 1 < l.height) := by omega
    simp only [checkTree, ihl, ihr, bind, Except.bind, pure, Except.pure, if_neg flat,
      AvlTree.height_node, height, ne_eq, not_true_eq_false, if_false]

theorem ascending_iff [Std.TransCmp cmp] {ks : List α} :
    ascending cmp ks = true ↔ ks.Pairwise fun a b => cmp a b = .lt := by
  induction ks with
  | nil => simp [ascending]
  | cons a ks ih =>
    cases ks with
    | nil => simp [ascending]
    | cons b rest =>
      rw [ascending, Bool.and_eq_true, ih, beq_iff_eq, @List.pairwise_cons _ _ a]
      refine and_congr_left fun sorted => ?_
      constructor
      · intro hab c hc
        rcases List.mem_cons.mp hc with rfl | hc
        · exact hab
        · exact Std.TransCmp.lt_trans hab ((List.pairwise_cons.mp sorted).1 c hc)
      · exact fun h => h b List.mem_cons_self

theorem check_of_sound [Std.TransCmp cmp] {m : OrderedMap α β cmp} (sound : m.Sound)
    (balanced : m.root.Balanced) : m.check = .ok () := by
  have ascend : ascending cmp m.keys = true := ascending_iff.mpr (keys_ascend sound)
  simp [check, checkTree_of_balanced balanced, sound.size_eq, ascend, bind, Except.bind, pure,
    Except.pure]

end OrderedMap

abbrev Dictionary (α β : Type) := List (α × β)

/-- What changes a map. Values may be changed in any way. -/
inductive OrderedMap.Call (α β : Type) where
  | insert (key : α) (x : β)
  | remove (key : α)
  | getOrInsert (key : α) (x : β)
  | modify (key : α) (f : β → β)
  | mapValues (f : α → β → β)
  | clear

/-- What a call gives back: nothing, whether a key was new, or the value that was found. -/
inductive OrderedMap.Outcome (β : Type) where
  | done
  | new (flag : Bool)
  | found (x : Option β)
deriving DecidableEq

namespace Dictionary

open OrderedMap (Call Outcome)

variable {α β : Type} (cmp : α → α → Ordering) (d : Dictionary α β)

/-- The entry whose key compares equal. -/
def lookup? (key : α) : Option (α × β) := d.find? fun e => cmp key e.1 == .eq

/-- An equal key that is there stays, with its value. -/
def insert (key : α) (x : β) : Dictionary α β :=
  if (lookup? cmp d key).isSome then d else (key, x) :: d

def erase (key : α) : Dictionary α β := d.filter fun e => cmp key e.1 != .eq

def modify (key : α) (f : β → β) : Dictionary α β :=
  d.map fun e => if cmp key e.1 = .eq then (e.1, f e.2) else e

def call : Call α β → Dictionary α β × Outcome β
  | .insert key x => (insert cmp d key x, .new (lookup? cmp d key).isNone)
  | .remove key => (erase cmp d key, .found ((lookup? cmp d key).map Prod.snd))
  | .getOrInsert key x =>
    (insert cmp d key x, .found (some (((lookup? cmp d key).map Prod.snd).getD x)))
  | .modify key f => (modify cmp d key f, .found ((lookup? cmp d key).map Prod.snd))
  | .mapValues f => (d.map fun e => (e.1, f e.1 e.2), .done)
  | .clear => ([], .done)

/-- The dictionary after calls, and what they gave back. -/
def ofCalls (calls : List (Call α β)) : Dictionary α β × List (Outcome β) :=
  calls.foldl (fun s c => ((call cmp s.1 c).1, s.2 ++ [(call cmp s.1 c).2])) ([], [])

end Dictionary

namespace OrderedMap

variable {α β : Type} {cmp : α → α → Ordering}

def call (m : OrderedMap α β cmp) : Call α β → OrderedMap α β cmp × Outcome β
  | .insert key x => ((m.insertNew key x).1, .new (m.insertNew key x).2)
  | .remove key => ((m.remove key).1, .found (m.remove key).2)
  | .getOrInsert key x => ((m.getOrInsert key x).1, .found (m.getOrInsert key x).2)
  | .modify key f => (m.modify key f, .found (m.get? key))
  | .mapValues f => (m.mapValues f, .done)
  | .clear => (empty, .done)

/-- The map after calls, and what they gave back. -/
def ofCalls (cmp : α → α → Ordering) (calls : List (Call α β)) :
    OrderedMap α β cmp × List (Outcome β) :=
  calls.foldl (fun s c => ((s.1.call c).1, s.2 ++ [(s.1.call c).2])) (empty, [])

/-- Maps that come about by calls. -/
def Reachable (m : OrderedMap α β cmp) : Prop := ∃ calls, (ofCalls cmp calls).1 = m

/-- The sides over which a call restores the balance of the tree. -/
def sites (m : OrderedMap α β cmp) : Call α β → List (AvlTree α β × AvlTree α β)
  | .insert key x => m.root.insertSites cmp key x
  | .remove key => m.root.eraseSites cmp key
  | .getOrInsert key x => m.root.insertSites cmp key x
  | _ => []

/-- A map in good order, with the entries of a dictionary. -/
structure Represents (m : OrderedMap α β cmp) (d : Dictionary α β) : Prop where
  sound : m.Sound
  balanced : m.root.Balanced
  entries : m.toList.Perm d

variable {m : OrderedMap α β cmp} {d : Dictionary α β} {key : α} {x : β}

theorem represents_empty : Represents (empty : OrderedMap α β cmp) [] :=
  ⟨sound_empty, .nil, .refl _⟩

theorem Represents.mapValues (h : Represents m d) (f : α → β → β) :
    Represents (m.mapValues f) (d.map fun e => (e.1, f e.1 e.2)) := by
  refine ⟨h.sound.mapValues f, h.balanced.mapValues f, ?_⟩
  have list : (m.mapValues f).toList = m.toList.map fun e => (e.1, f e.1 e.2) := by
    rw [toList_eq, toList_eq]
    exact AvlTree.toList_mapValues f m.root
  rw [list]
  exact h.entries.map _

theorem mendable_sites (balanced : m.root.Balanced) (c : Call α β) :
    ∀ s ∈ m.sites c, AvlTree.Mendable s.1 s.2 := by
  cases c with
  | insert key x | getOrInsert key x => exact AvlTree.mendable_insertSites balanced
  | remove key => exact AvlTree.mendable_eraseSites balanced
  | modify key f | mapValues f | clear => exact nofun

theorem ofCalls_concat (calls : List (Call α β)) (c : Call α β) :
    ofCalls cmp (calls ++ [c]) = (((ofCalls cmp calls).1.call c).1,
      (ofCalls cmp calls).2 ++ [((ofCalls cmp calls).1.call c).2]) := by
  rw [ofCalls, List.foldl_append]
  rfl

theorem Reachable.call (h : m.Reachable) (c : Call α β) : (m.call c).1.Reachable := by
  obtain ⟨calls, rfl⟩ := h
  exact ⟨calls ++ [c], by rw [ofCalls_concat]⟩

section Represents
variable [Std.TransCmp cmp]

theorem Represents.get? (h : Represents m d) (key : α) :
    m.get? key = (Dictionary.lookup? cmp d key).map Prod.snd := by
  have found : ∀ {x}, m.get? key = some x ↔ ∃ k, (k, x) ∈ d ∧ cmp key k = .eq := by
    intro x
    rw [OrderedMap.get?, AvlTree.get?_eq_some_iff h.sound.ordered, ← toList_eq]
    simp only [h.entries.mem_iff]
  cases he : Dictionary.lookup? cmp d key with
  | none =>
    apply Option.eq_none_iff_forall_not_mem.mpr
    intro x hx
    obtain ⟨k, hk, heq⟩ := found.mp hx
    have none := List.find?_eq_none.mp he (k, x) hk
    exact none (beq_iff_eq.mpr heq)
  | some e =>
    have heq : cmp key e.1 = .eq := beq_iff_eq.mp (List.find?_some he :)
    exact found.mpr ⟨e.1, List.mem_of_find?_eq_some he, heq⟩

theorem Represents.contains (h : Represents m d) (key : α) :
    m.contains key = (Dictionary.lookup? cmp d key).isSome := by
  rw [OrderedMap.contains, h.get?, Option.isSome_map]

theorem toList_insert_perm {m : OrderedMap α β cmp} (sound : m.Sound) (x : β)
    (absent : m.get? key = none) : (m.insert key x).toList.Perm ((key, x) :: m.toList) := by
  have none : ∀ e ∈ m.toList, cmp key e.1 ≠ .eq := by
    intro e he heq
    have found : m.get? key = some e.2 :=
      (AvlTree.get?_eq_some_iff sound.ordered).mpr ⟨e.1, toList_eq m ▸ he, heq⟩
    rw [absent] at found
    cases found
  have behind : m.toList.filter (fun e => cmp key e.1 == .lt)
      = m.toList.filter fun e => !(cmp key e.1 == .gt) := by
    apply List.filter_congr
    intro e he
    cases hc : cmp key e.1 with
    | lt | gt => rfl
    | eq => exact absurd hc (none e he)
  rw [toList_insert sound absent, behind]
  exact List.perm_middle.trans ((List.filter_append_perm _ _).cons _)

theorem Represents.insert (h : Represents m d) (key : α) (x : β) :
    Represents (m.insert key x) (Dictionary.insert cmp d key x) := by
  rw [Dictionary.insert, ← h.contains]
  cases found : m.get? key with
  | some y =>
    rw [insert_of_get?_eq_some found, if_pos (contains_iff.mpr ⟨y, found⟩)]
    exact h
  | none =>
    rw [if_neg (by simp [contains_eq_false_iff.mpr found])]
    refine ⟨h.sound.insert key x, ?_, (toList_insert_perm h.sound x found).trans (h.entries.cons _)⟩
    rw [OrderedMap.insert, insertNew]
    split
    · exact (AvlTree.raised_insert? h.balanced ‹_›).balanced
    · exact h.balanced

theorem Represents.erase (h : Represents m d) (key : α) :
    Represents (m.erase key) (Dictionary.erase cmp d key) := by
  refine ⟨h.sound.erase key, (AvlTree.lowered_erase h.balanced).balanced, ?_⟩
  rw [toList_erase h.sound]
  exact h.entries.filter _

theorem Represents.modify (h : Represents m d) (key : α) (f : β → β) :
    Represents (m.modify key f) (Dictionary.modify cmp d key f) := by
  refine ⟨h.sound.modify key f, h.balanced.modify f, ?_⟩
  have list : (m.modify key f).toList
      = m.toList.map fun e => if cmp key e.1 = .eq then (e.1, f e.2) else e := by
    rw [toList_eq, toList_eq]
    exact AvlTree.toList_modify h.sound.ordered key f
  rw [list]
  exact h.entries.map _

theorem Represents.get?_insert (h : Represents m d) (key : α) (x : β) :
    (m.insert key x).get? key = some ((m.get? key).getD x) := by
  cases found : m.get? key with
  | some y => rw [insert_of_get?_eq_some found, found, Option.getD_some]
  | none =>
    apply (AvlTree.get?_eq_some_iff (h.sound.insert key x).ordered).mpr
    refine ⟨key, ?_, Std.ReflCmp.compare_self⟩
    rw [← toList_eq, (toList_insert_perm h.sound x found).mem_iff]
    exact List.mem_cons_self

theorem Represents.call (h : Represents m d) (c : Call α β) :
    Represents (m.call c).1 (Dictionary.call cmp d c).1
      ∧ (m.call c).2 = (Dictionary.call cmp d c).2 := by
  cases c with
  | insert key x =>
    refine ⟨h.insert key x, congrArg Outcome.new ?_⟩
    rw [insertNew_snd, h.contains, Option.not_isSome]
  | remove key => exact ⟨h.erase key, congrArg Outcome.found (h.get? key)⟩
  | getOrInsert key x =>
    refine ⟨h.insert key x, congrArg Outcome.found ?_⟩
    rw [getOrInsert, h.get?_insert, h.get?]
  | modify key f => exact ⟨h.modify key f, congrArg Outcome.found (h.get? key)⟩
  | mapValues f => exact ⟨h.mapValues f, rfl⟩
  | clear => exact ⟨represents_empty, rfl⟩

theorem represents_ofCalls (calls : List (Call α β)) :
    Represents (ofCalls cmp calls).1 (Dictionary.ofCalls cmp calls).1
      ∧ (ofCalls cmp calls).2 = (Dictionary.ofCalls cmp calls).2 := by
  -- maps and dictionaries are taken through the calls together, from any that belong together
  suffices run : ∀ (m : OrderedMap α β cmp) d outs, Represents m d →
      let s := calls.foldl (fun s c => ((s.1.call c).1, s.2 ++ [(s.1.call c).2])) (m, outs)
      let t := calls.foldl (fun s c => ((Dictionary.call cmp s.1 c).1,
        s.2 ++ [(Dictionary.call cmp s.1 c).2])) (d, outs)
      Represents s.1 t.1 ∧ s.2 = t.2 from run empty [] [] represents_empty
  induction calls with
  | nil => exact fun m d outs h => ⟨h, rfl⟩
  | cons c calls ih =>
    intro m d outs h
    obtain ⟨next, answer⟩ := h.call c
    simp only [List.foldl_cons]
    rw [answer]
    exact ih _ _ _ next

theorem Reachable.represents (h : m.Reachable) : ∃ d, m.Represents d := by
  obtain ⟨calls, rfl⟩ := h
  exact ⟨_, (represents_ofCalls calls).1⟩

/-- Whatever the calls were, the map passes its check, has given the answers of a dictionary, and
holds the same entries in ascending order. And whatever is called next, the balance is restored
over sides that differ by two at most, to a node that is balanced. -/
theorem behaves_like_dictionary (calls : List (Call α β)) :
    (ofCalls cmp calls).1.check = .ok ()
    ∧ (ofCalls cmp calls).2 = (Dictionary.ofCalls cmp calls).2
    ∧ (∀ key, (ofCalls cmp calls).1.get? key
        = (Dictionary.lookup? cmp (Dictionary.ofCalls cmp calls).1 key).map Prod.snd
      ∧ (ofCalls cmp calls).1.contains key
        = (Dictionary.lookup? cmp (Dictionary.ofCalls cmp calls).1 key).isSome)
    ∧ (ofCalls cmp calls).1.size = (Dictionary.ofCalls cmp calls).1.length
    ∧ (ofCalls cmp calls).1.toList.Perm (Dictionary.ofCalls cmp calls).1
    ∧ ((ofCalls cmp calls).1.toList.Pairwise fun a b => cmp a.1 b.1 = .lt)
    ∧ ∀ c, ∀ s ∈ (ofCalls cmp calls).1.sites c,
      s.1.Near 2 s.2 ∧ ∀ k v, (AvlTree.balance s.1 k v s.2).Balanced := by
  obtain ⟨h, answers⟩ := @represents_ofCalls _ _ cmp _ calls
  refine ⟨check_of_sound h.sound h.balanced, answers, fun key => ⟨h.get? key, h.contains key⟩, ?_,
    h.entries, entries_ascend h.sound, fun c s hs => ?_⟩
  · rw [h.sound.size_eq, AvlTree.size_eq_length, ← toList_eq, h.entries.length_eq]
  · have mendable := mendable_sites h.balanced c s hs
    exact ⟨mendable.near, fun k v => mendable.restored.balanced⟩

end Represents

/-- Numbers by their tens, so that many numbers are one key. -/
def byTens : Nat → Nat → Ordering := compareOn (· / 10)

/-- The insertions turn the tree to the left, and the removal of its root turns it to the right. -/
def turns : List (Call Nat String) :=
  [.insert 15 "a", .insert 27 "b", .insert 18 "c", .insert 31 "d", .getOrInsert 6 "e",
    .insert 3 "f", .modify 29 (· ++ "g"), .remove 35, .remove 20]

theorem turns_like_dictionary : Std.TransCmp byTens
    ∧ (ofCalls byTens turns).1.check = .ok ()
    ∧ (ofCalls byTens turns).2 = (Dictionary.ofCalls byTens turns).2
    ∧ (ofCalls byTens turns).2 = [.new true, .new true, .new false, .new true, .found (some "e"),
      .new false, .found (some "b"), .found (some "d"), .found (some "bg")]
    ∧ (ofCalls byTens turns).1.toList = [(6, "e"), (15, "a")] := by
  have lawful : Std.TransCmp byTens := inferInstanceAs (Std.TransCmp (compareOn _))
  have h := @behaves_like_dictionary _ _ byTens _ turns
  exact ⟨lawful, h.1, h.2.1, by decide +kernel, by decide +kernel⟩

end OrderedMap

end LiveTree
