import Mathlib.Data.List.Induction
import Mathlib.Data.Nat.Fib.Basic
import LiveTree.OrderedMap.Bounded
import LiveTree.Proofs.OrderedMap.Reference

/-!
# Trees stay low

A balanced tree of a given height has the fewest entries when each of its nodes leans, and then the
entries are counted by the Fibonacci numbers. So fewer than `2 ^ 64` entries make at most 91 levels.
A node is higher than what is below it, hence all heights that a change computes fit in a byte as
soon as the highest one does, and a map that is changed with arithmetic of fixed width goes the same
way as one without.
-/

namespace LiveTree

namespace AvlTree

variable {α β : Type} {h : Nat} {l r t : AvlTree α β} {k : α} {v : β}

/-- The number of levels, whatever heights the nodes keep. -/
def depth : AvlTree α β → Nat
  | nil => 0
  | node _ l _ _ r => 1 + max l.depth r.depth

theorem Balanced.depth_eq (ht : Balanced t) : t.depth = t.height := by
  induction ht with
  | nil => rfl
  | node height _ _ _ ihl ihr => rw [depth, ihl, ihr, height_node, height]

/-- The higher side is one level below the node, and the lower one two levels at most. -/
theorem Near.fib_le (near : Near 1 l r) : Nat.fib (1 + max l.height r.height + 2)
    ≤ Nat.fib (l.height + 2) + Nat.fib (r.height + 2) := by
  obtain ⟨hl, hr⟩ := near
  rcases Nat.le_total l.height r.height with low | low
  · have lower : Nat.fib (r.height + 1) ≤ Nat.fib (l.height + 2) := Nat.fib_mono (by omega)
    calc Nat.fib (1 + max l.height r.height + 2)
        = Nat.fib (r.height + 1 + 2) := by rw [Nat.max_eq_right low, Nat.add_comm 1]
      _ = Nat.fib (r.height + 1) + Nat.fib (r.height + 2) := Nat.fib_add_two
      _ ≤ Nat.fib (l.height + 2) + Nat.fib (r.height + 2) := Nat.add_le_add_right lower _
  · have lower : Nat.fib (l.height + 1) ≤ Nat.fib (r.height + 2) := Nat.fib_mono (by omega)
    calc Nat.fib (1 + max l.height r.height + 2)
        = Nat.fib (l.height + 1 + 2) := by rw [Nat.max_eq_left low, Nat.add_comm 1]
      _ = Nat.fib (l.height + 2) + Nat.fib (l.height + 1) := by
        rw [Nat.fib_add_two, Nat.add_comm]
      _ ≤ Nat.fib (l.height + 2) + Nat.fib (r.height + 2) := Nat.add_le_add_left lower _

theorem Balanced.fib_le (ht : Balanced t) : Nat.fib (t.height + 2) ≤ t.size + 1 := by
  induction ht with
  | nil => exact Nat.le_of_eq Nat.fib_two
  | node height near _ _ ihl ihr =>
    have sides := near.fib_le
    rw [height_node, height, size]
    omega

theorem Balanced.height_le (ht : Balanced t) (few : t.size < 2 ^ 64) : t.height ≤ 91 := by
  by_contra high
  have least : Nat.fib 94 ≤ Nat.fib (t.height + 2) := Nat.fib_mono (by omega)
  have many : Nat.fib 94 = 19740274219868223167 := by decide +kernel
  have held := ht.fib_le
  omega

theorem height_rotateRight_le (ht : Balanced t) : t.rotateRight.height ≤ t.height + 1 := by
  unfold rotateRight
  split
  · cases ht with
    | node height _ left _ =>
      cases left with
      | node height' _ _ _ =>
        simp only [height_make, height_node] at *
        omega
  · exact Nat.le_succ _

theorem height_rotateLeft_le (ht : Balanced t) : t.rotateLeft.height ≤ t.height + 1 := by
  have other := height_rotateRight_le ht.mirror
  rwa [← mirror_rotateLeft, height_mirror, height_mirror] at other

@[simp] theorem rotateRight_eq_nil_iff : t.rotateRight = nil ↔ t = nil := by
  unfold rotateRight
  split <;> simp [make]

@[simp] theorem rotateLeft_eq_nil_iff : t.rotateLeft = nil ↔ t = nil := by
  unfold rotateLeft
  split <;> simp [make]

/-- The height that the root keeps plays no part when it is turned. -/
theorem rotateRight_node (hl : l ≠ nil) :
    (node h l k v r).rotateRight = (make l k v r).rotateRight := by
  cases l with
  | nil => exact absurd rfl hl
  | node g a j u b => rfl

theorem rotateLeft_node (hr : r ≠ nil) :
    (node h l k v r).rotateLeft = (make l k v r).rotateLeft := by
  cases r with
  | nil => exact absurd rfl hr
  | node g a j u b => rfl

namespace Bounded

theorem level_eq {left right : Nat} (fits : 1 + max left right < 256) :
    level left right = .ok (1 + max left right) := if_pos fits

theorem surplus_eq {left right : Nat} (hl : left < 256) (hr : right < 256) :
    surplus left right = .ok (left - right : Int) := if_pos (by omega)

theorem make_eq (fits : (AvlTree.make l k v r).height < 256) :
    make l k v r = .ok (AvlTree.make l k v r) := by
  rw [make, level_eq fits]
  rfl

theorem rotateRight_eq (fits : t.rotateRight.height < 256) :
    rotateRight t = .ok t.rotateRight := by
  cases t with
  | nil => rfl
  | node h l k v r =>
    cases l with
    | nil => rfl
    | node g a j u b =>
      have low : (AvlTree.make b k v r).height < 256 := by
        simp only [AvlTree.rotateRight, height_make] at fits ⊢
        omega
      rw [rotateRight, make_eq low]
      exact make_eq fits

theorem rotateLeft_eq (fits : t.rotateLeft.height < 256) :
    rotateLeft t = .ok t.rotateLeft := by
  cases t with
  | nil => rfl
  | node h l k v r =>
    cases r with
    | nil => rfl
    | node g a j u b =>
      have low : (AvlTree.make l k v a).height < 256 := by
        simp only [AvlTree.rotateLeft, height_make] at fits ⊢
        omega
      rw [rotateLeft, make_eq low]
      exact make_eq fits

theorem turnLeft_eq (ht : Balanced t) (low : t.height < 255) :
    turnLeft t = .ok (if t.leansRight then t.rotateLeft else t) := by
  have turned := height_rotateLeft_le ht
  have fits : t.rotateLeft.height < 256 := by omega
  cases ht with
  | nil => rfl
  | @node h l r k v height _ _ _ =>
    rw [height_node] at low
    rw [turnLeft, surplus_eq (by omega) (by omega), leansRight]
    by_cases lean : l.height < r.height
    · rw [if_pos (by simpa using lean), ← rotateLeft_eq fits]
      exact if_pos (by omega)
    · rw [if_neg (by simpa using lean)]
      exact if_neg (by omega)

theorem turnRight_eq (ht : Balanced t) (low : t.height < 255) :
    turnRight t = .ok (if t.leansLeft then t.rotateRight else t) := by
  have turned := height_rotateRight_le ht
  have fits : t.rotateRight.height < 256 := by omega
  cases ht with
  | nil => rfl
  | @node h l r k v height _ _ _ =>
    rw [height_node] at low
    rw [turnRight, surplus_eq (by omega) (by omega), leansLeft]
    by_cases lean : r.height < l.height
    · rw [if_pos (by simpa using lean), ← rotateRight_eq fits]
      exact if_pos (by omega)
    · rw [if_neg (by simpa using lean)]
      exact if_neg (by omega)

theorem balance_eq (h : Mendable l r) (hl : l.height < 255) (hr : r.height < 255) :
    balance l k v r = .ok (AvlTree.balance l k v r) := by
  have restored : Restored l r (AvlTree.balance l k v r) := h.restored
  have high := restored.height
  have fits : (AvlTree.balance l k v r).height < 256 := by omega
  have height : level l.height r.height = .ok (1 + max l.height r.height) := level_eq (by omega)
  have more : surplus l.height r.height = .ok (l.height - r.height : Int) :=
    surplus_eq (by omega) (by omega)
  simp only [balance, height, more, bind, Except.bind]
  unfold AvlTree.balance at fits ⊢
  by_cases deep : r.height + 1 < l.height
  · have some : (if l.leansRight then l.rotateLeft else l) ≠ nil := by
      cases l with
      | nil => cases deep
      | node => split <;> simp
    rw [if_pos deep] at fits ⊢
    rw [← rotateRight_node (h := 1 + max l.height r.height) some] at fits ⊢
    rw [if_pos (by omega), turnLeft_eq h.left hl]
    exact rotateRight_eq fits
  · rw [if_neg deep] at fits ⊢
    rw [if_neg (by omega)]
    by_cases deep' : l.height + 1 < r.height
    · have some : (if r.leansLeft then r.rotateRight else r) ≠ nil := by
        cases r with
        | nil => cases deep'
        | node => split <;> simp
      rw [if_pos deep'] at fits ⊢
      rw [← rotateLeft_node (h := 1 + max l.height r.height) some] at fits ⊢
      rw [if_pos (by omega), turnRight_eq h.right hr]
      exact rotateLeft_eq fits
    · rw [if_neg deep', if_neg (by omega)]
      rfl

/-- A change raises a side by one level at most, so it needs room for one more. -/
theorem balance_changed {raised : Bool} {l' r' : AvlTree α β} (left : Changed raised l l')
    (right : Changed raised r r') (near : Near 1 l r)
    (one : l'.height = l.height ∨ r'.height = r.height) (hl : l.height < 254)
    (hr : r.height < 254) : balance l' k v r' = .ok (AvlTree.balance l' k v r') := by
  have highl := left.high
  have highr := right.high
  have step : raised.toNat ≤ 1 := Bool.toNat_le raised
  exact balance_eq (left.mendable right near one) (by omega) (by omega)

theorem takeLeast_eq (left : Balanced l) (right : Balanced r) (near : Near 1 l r)
    (hl : l.height < 254) (hr : r.height < 254) :
    takeLeast l k v r = .ok (AvlTree.takeLeast l k v r) := by
  induction left generalizing k v r with
  | nil => rfl
  | @node h ll lr lk lv height near' left' right' ihl _ =>
    have least : Lowered (node h ll lk lv lr) (AvlTree.takeLeast ll lk lv lr).2 :=
      lowered_takeLeast left' right' near' height
    have first : takeLeast ll lk lv lr = .ok (AvlTree.takeLeast ll lk lv lr) := by
      rw [height_node] at hl
      exact ihl right' near' (by omega) (by omega)
    simp only [takeLeast, first, AvlTree.takeLeast, bind, Except.bind]
    rw [balance_changed least (.refl right) near (.inr rfl) hl hr]
    rfl

theorem join_eq (left : Balanced l) (right : Balanced r) (near : Near 1 l r)
    (hl : l.height < 254) (hr : r.height < 254) : join l r = .ok (AvlTree.join l r) := by
  cases right with
  | nil => rfl
  | @node h rl rr rk rv height near' left' right' =>
    cases l with
    | nil => rfl
    | node g ll lk lv lr =>
      have least : Lowered (node h rl rk rv rr) (AvlTree.takeLeast rl rk rv rr).2 :=
        lowered_takeLeast left' right' near' height
      have first : takeLeast rl rk rv rr = .ok (AvlTree.takeLeast rl rk rv rr) := by
        rw [height_node] at hr
        exact takeLeast_eq left' right' near' (by omega) (by omega)
      simp only [join, first, AvlTree.join]
      exact balance_changed (.refl left) least near (.inl rfl) hl hr

section Keys
variable {cmp : α → α → Ordering} {key : α} {x : β}

theorem insert?_eq (ht : Balanced t) (low : t.height < 255) :
    insert? cmp key x t = .ok (t.insert? cmp key x) := by
  induction ht with
  | nil => rfl
  | @node h l r k v height near left right ihl ihr =>
    rw [height_node] at low
    have hl : l.height < 254 := by omega
    have hr : r.height < 254 := by omega
    rw [insert?, AvlTree.insert?]
    cases cmp key k with
    | lt =>
      simp only [ihl (by omega), bind, Except.bind]
      cases hi : l.insert? cmp key x with
      | none => rfl
      | some l' =>
        have raised : Raised l l' := raised_insert? left hi
        rw [Option.mapM_some, balance_changed raised (.refl right) near (.inr rfl) hl hr]
        rfl
    | eq => rfl
    | gt =>
      simp only [ihr (by omega), bind, Except.bind]
      cases hi : r.insert? cmp key x with
      | none => rfl
      | some r' =>
        have raised : Raised r r' := raised_insert? right hi
        rw [Option.mapM_some, balance_changed (.refl left) raised near (.inl rfl) hl hr]
        rfl

theorem erase_eq (ht : Balanced t) (low : t.height < 255) :
    erase cmp key t = .ok (t.erase cmp key) := by
  induction ht with
  | nil => rfl
  | @node h l r k v height near left right ihl ihr =>
    rw [height_node] at low
    have hl : l.height < 254 := by omega
    have hr : r.height < 254 := by omega
    rw [erase, AvlTree.erase]
    cases cmp key k with
    | lt =>
      simp only [ihl (by omega)]
      exact balance_changed (lowered_erase left) (.refl right) near (.inr rfl) hl hr
    | eq => exact join_eq left right near hl hr
    | gt =>
      simp only [ihr (by omega)]
      exact balance_changed (.refl left) (lowered_erase right) near (.inl rfl) hl hr

end Keys

end Bounded

end AvlTree

namespace OrderedMap

open AvlTree (Overflow)

variable {α β : Type} {cmp : α → α → Ordering} {m : OrderedMap α β cmp}

namespace Bounded

theorem liftM_ok {γ : Type} (x : γ) :
    (liftM (.ok x : Except Overflow γ) : ExceptT Flaw (Except Overflow) γ) = pure x := rfl

theorem checkTree_eq {t : AvlTree α β} (ht : t.Balanced) (low : t.height < 256) :
    checkTree t = pure t.height := by
  induction ht with
  | nil => rfl
  | @node h l r k v height near left right ihl ihr =>
    rw [AvlTree.height_node] at low ⊢
    obtain ⟨hl, hr⟩ := near
    have more : AvlTree.Bounded.surplus l.height r.height = .ok (l.height - r.height : Int) :=
      AvlTree.Bounded.surplus_eq (by omega) (by omega)
    have apart : AvlTree.Bounded.magnitude (l.height - r.height : Int)
        = .ok (l.height - r.height : Int).natAbs := if_pos (by omega)
    have actual : AvlTree.Bounded.level l.height r.height = .ok h := by
      rw [AvlTree.Bounded.level_eq (by omega), height]
    rw [checkTree, ihl (by omega), ihr (by omega)]
    simp only [pure_bind, more, apart, actual, liftM_ok]
    rw [if_neg (by omega), if_neg (not_not_intro rfl)]

theorem check_eq (balanced : m.root.Balanced) (low : m.height < 256) :
    (check m).run = .ok m.check := by
  rw [check, checkTree_eq balanced low, OrderedMap.check, checkTree_of_balanced balanced]
  simp only [pure_bind]
  split
  · rfl
  · split <;> rfl

theorem insertNew_eq (balanced : m.root.Balanced) (low : m.height < 255) (key : α) (x : β) :
    insertNew m key x = .ok (m.insertNew key x) := by
  rw [insertNew, AvlTree.Bounded.insert?_eq balanced low, OrderedMap.insertNew]
  cases m.root.insert? cmp key x <;> rfl

theorem erase_eq (balanced : m.root.Balanced) (low : m.height < 255) (key : α) :
    erase m key = .ok (m.erase key) := by
  rw [erase, AvlTree.Bounded.erase_eq balanced low]
  rfl

/-- The calls that change no height are what they are without a bound. -/
def call (m : OrderedMap α β cmp) : Call α β → Except Overflow (OrderedMap α β cmp × Outcome β)
  | .insert key x => do
    let (m, new) ← insertNew m key x
    return (m, .new new)
  | .remove key => return (← erase m key, .found (m.get? key))
  | .getOrInsert key x => do
    let (m, _) ← insertNew m key x
    return (m, .found (m.get? key))
  | c => return m.call c

def ofCalls (cmp : α → α → Ordering) (calls : List (Call α β)) :
    Except Overflow (OrderedMap α β cmp × List (Outcome β)) :=
  calls.foldlM (fun s c => do
    let (m, x) ← call s.1 c
    return (m, s.2 ++ [x])) (empty, [])

theorem call_eq (balanced : m.root.Balanced) (low : m.height < 255) (c : Call α β) :
    call m c = .ok (m.call c) := by
  cases c with
  | insert key x | getOrInsert key x =>
    rw [call, insertNew_eq balanced low]
    rfl
  | remove key =>
    rw [call, erase_eq balanced low]
    rfl
  | modify key f | mapValues f | clear => rfl

end Bounded

section Reachable
variable [Std.TransCmp cmp]

theorem Reachable.balanced (h : m.Reachable) : m.root.Balanced := by
  obtain ⟨d, represents⟩ := h.represents
  exact represents.balanced

theorem Reachable.height_le (h : m.Reachable) (few : m.toList.length < 2 ^ 64) :
    m.height ≤ 91 := by
  rw [toList_eq, ← AvlTree.size_eq_length] at few
  exact h.balanced.height_le few

theorem Bounded.call_eq_of_few (h : m.Reachable) (few : m.toList.length < 2 ^ 64) (c : Call α β) :
    Bounded.call m c = .ok (m.call c) := by
  have low := h.height_le few
  exact call_eq h.balanced (by omega) c

theorem Bounded.ofCalls_eq (calls : List (Call α β))
    (few : ∀ made, made <+: calls → (OrderedMap.ofCalls cmp made).1.toList.length < 2 ^ 64) :
    Bounded.ofCalls cmp calls = .ok (OrderedMap.ofCalls cmp calls) := by
  induction calls using List.reverseRecOn with
  | nil => rfl
  | append_singleton calls c ih =>
    have first := ih fun made h => few made (h.trans (List.prefix_append calls [c]))
    have last : Bounded.call (OrderedMap.ofCalls cmp calls).1 c
        = .ok ((OrderedMap.ofCalls cmp calls).1.call c) :=
      call_eq_of_few ⟨calls, rfl⟩ (few calls (List.prefix_append calls [c])) c
    unfold Bounded.ofCalls at first ⊢
    rw [List.foldlM_append, first, ofCalls_concat]
    simp only [bind, Except.bind, List.foldlM_cons, List.foldlM_nil, last]
    rfl

/-- A map that comes about by calls has as many levels as its root says, and the more of them the
more entries. With fewer than `2 ^ 64` entries there are 91 levels at most, and then arithmetic of
fixed width gives the same in the check and in every call. So it does in all calls from the
beginning on, as long as the entries stay that few. -/
theorem heights_stay_low :
    (∀ m : OrderedMap α β cmp, m.Reachable →
      m.root.depth = m.height
      ∧ Nat.fib (m.height + 2) ≤ m.toList.length + 1
      ∧ (m.toList.length < 2 ^ 64 → m.height ≤ 91
        ∧ (Bounded.check m).run = .ok m.check
        ∧ ∀ c, Bounded.call m c = .ok (m.call c)))
    ∧ ∀ calls : List (Call α β),
      (∀ made, made <+: calls → (ofCalls cmp made).1.toList.length < 2 ^ 64) →
      Bounded.ofCalls cmp calls = .ok (ofCalls cmp calls) := by
  refine ⟨fun m h => ⟨h.balanced.depth_eq, ?_, fun few => ?_⟩, Bounded.ofCalls_eq⟩
  · rw [toList_eq, ← AvlTree.size_eq_length]
    exact h.balanced.fib_le
  · have low := h.height_le few
    exact ⟨low, Bounded.check_eq h.balanced (by omega), Bounded.call_eq_of_few h few⟩

end Reachable

/-- Each node has its left side one level higher, so no tree of four levels has fewer entries. -/
def sparse : List (Call Nat String) :=
  [.insert 5 "e", .insert 3 "c", .insert 7 "g", .insert 2 "b", .insert 4 "d", .insert 6 "f",
    .insert 1 "a"]

theorem sparse_stays_low : Std.TransCmp (compare : Nat → Nat → Ordering)
    ∧ (ofCalls compare sparse).1.Reachable
    ∧ (ofCalls compare sparse).1.root.depth = 4
    ∧ (ofCalls compare sparse).1.toList.length = 7 ∧ Nat.fib (4 + 2) = 7 + 1
    ∧ (ofCalls compare sparse).1.height ≤ 91
    ∧ Bounded.call (ofCalls compare sparse).1 (.remove 7)
      = .ok ((ofCalls compare sparse).1.call (.remove 7))
    ∧ (∀ made, made <+: sparse → (ofCalls compare made).1.toList.length < 2 ^ 64)
    ∧ Bounded.ofCalls compare sparse = .ok (ofCalls compare sparse) := by
  have lawful : Std.TransCmp (compare : Nat → Nat → Ordering) := inferInstance
  have reached : (ofCalls compare sparse).1.Reachable := ⟨sparse, rfl⟩
  have length : (ofCalls compare sparse).1.toList.length = 7 := by decide +kernel
  have few : ∀ made, made <+: sparse → (ofCalls compare made).1.toList.length < 2 ^ 64 := by
    have each : ∀ made ∈ sparse.inits, (ofCalls compare made).1.toList.length < 2 ^ 64 := by
      decide +kernel
    exact fun made h => each made ((List.mem_inits made sparse).mpr h)
  obtain ⟨each, all⟩ := @heights_stay_low Nat String compare lawful
  obtain ⟨depth, _, low⟩ := each _ reached
  obtain ⟨height, _, call⟩ := low (by omega)
  exact ⟨lawful, reached, depth.trans (by decide +kernel), length, by decide +kernel, height,
    call (.remove 7), few, all sparse few⟩

end OrderedMap

end LiveTree
