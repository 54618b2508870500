import LiveTree.Proofs.Path.Order
import Mathlib.Algebra.Ring.Int.Defs
import Mathlib.Data.List.Induction

/-!
# The laws of both orders

Names and paths are totally ordered, and a name or path is equal to itself alone. Which names are
whole numbers is said by the digits that write them, apart from how they are read: zeros may stand
in front, a minus sign too, and the value has to fit 64 bits with sign. Whole numbers stand before
all other names, by their values.
-/

namespace LiveTree

namespace Segment

/-- The digits write the number, the heaviest first. Zeros may stand in front. -/
inductive Numeral : List Char → Nat → Prop where
  | digit {d : Nat} (small : d < 10) : Numeral [Nat.digitChar d] d
  | append {cs : List Char} {n d : Nat} (front : Numeral cs n) (small : d < 10) :
      Numeral (cs ++ [Nat.digitChar d]) (10 * n + d)

/-- The name is the number in decimal digits, with or without a minus sign in front. -/
inductive Writes (s : String) : Int → Prop where
  | plain {n : Nat} (digits : Numeral s.toList n) : Writes s n
  | minus {cs : List Char} {n : Nat} (sign : s.toList = '-' :: cs) (digits : Numeral cs n) :
      Writes s (-n)

/-- The name writes a whole number that fits 64 bits with sign. -/
def Whole (s : String) (x : Int) : Prop := Writes s x ∧ -2 ^ 63 ≤ x ∧ x < 2 ^ 63

variable {a b s : String} {cs : List Char} {n : Nat} {x y : Int}

theorem toNat_digitChar {d : Nat} (small : d < 10) :
    (Nat.digitChar d).toNat - '0'.toNat = d := by
  rw [Nat.toNat_digitChar_of_lt_ten small]
  exact Nat.add_sub_cancel_left 48 d

theorem exists_digit {c : Char} (h : c.isDigit = true) : ∃ d, d < 10 ∧ c = Nat.digitChar d := by
  have range : 48 ≤ c.toNat ∧ c.toNat ≤ 57 := Char.isDigit_iff_toNat.mp h
  have small : c.toNat - 48 < 10 := by omega
  refine ⟨c.toNat - 48, small, Char.toNat_inj.mp ?_⟩
  rw [Nat.toNat_digitChar_of_lt_ten small]
  omega

theorem ofDigits_append (cs : List Char) (c : Char) :
    Text.ofDigits (cs ++ [c]) = 10 * Text.ofDigits cs + (c.toNat - '0'.toNat) := by
  rw [Text.ofDigits, List.foldl_append]
  rfl

theorem natural?_eq_some_iff :
    Text.natural? cs = some n ↔ cs ≠ [] ∧ (∀ c ∈ cs, c.isDigit = true) ∧ Text.ofDigits cs = n := by
  simp [Text.natural?, and_assoc]

theorem Numeral.read (h : Numeral cs n) : Text.natural? cs = some n := by
  rw [natural?_eq_some_iff]
  induction h with
  | @digit d small =>
    have digit : (Nat.digitChar d).isDigit = true := by simpa [Nat.isDigit_digitChar] using small
    refine ⟨List.cons_ne_nil _ _, fun c hc => (List.mem_singleton.mp hc) ▸ digit, ?_⟩
    exact (ofDigits_append [] _).trans (by rw [toNat_digitChar small]; exact Nat.zero_add d)
  | @append cs n d front small ih =>
    obtain ⟨_, digits, value⟩ := ih
    have digit : (Nat.digitChar d).isDigit = true := by simpa [Nat.isDigit_digitChar] using small
    refine ⟨List.append_ne_nil_of_right_ne_nil cs (List.cons_ne_nil _ _), ?_, ?_⟩
    · intro c hc
      rcases List.mem_append.mp hc with hc | hc
      · exact digits c hc
      · exact (List.mem_singleton.mp hc) ▸ digit
    · rw [ofDigits_append, value, toNat_digitChar small]

theorem numeral_ofDigits (some : cs ≠ []) (digits : ∀ c ∈ cs, c.isDigit = true) :
    Numeral cs (Text.ofDigits cs) := by
  -- the lightest digit is the last one, so digits are taken off at the end
  induction cs using List.reverseRecOn with
  | nil => exact absurd rfl some
  | append_singleton cs c ih =>
    obtain ⟨d, small, rfl⟩ := exists_digit (digits c (by simp))
    rw [ofDigits_append, toNat_digitChar small]
    by_cases front : cs = []
    · subst front
      simpa [Text.ofDigits] using Numeral.digit small
    · exact .append (ih front fun c hc => digits c (List.mem_append_left _ hc)) small

theorem numeral_iff : Numeral cs n ↔ Text.natural? cs = some n := by
  refine ⟨Numeral.read, fun h => ?_⟩
  obtain ⟨some, digits, rfl⟩ := natural?_eq_some_iff.mp h
  exact numeral_ofDigits some digits

theorem Numeral.head_ne_minus (h : Numeral cs n) (rest : List Char) : cs ≠ '-' :: rest := by
  rintro rfl
  have digit := (natural?_eq_some_iff.mp h.read).2.1 '-' List.mem_cons_self
  cases digit

theorem read_eq_some_iff {fits : Nat → Bool} {f : Int → Int} :
    Option.map f (((Text.natural? cs).filter fits).bind fun n => some (n : Int)) = some x
      ↔ ∃ n, Numeral cs n ∧ fits n = true ∧ f n = x := by
  simp only [Option.map_eq_some_iff, Option.bind_eq_some_iff, Option.filter_eq_some_iff,
    Option.some.injEq, ← numeral_iff]
  constructor
  · rintro ⟨_, ⟨n, ⟨digits, fit⟩, rfl⟩, value⟩
    exact ⟨n, digits, fit, value⟩
  · rintro ⟨n, digits, fit, value⟩
    exact ⟨n, ⟨n, ⟨digits, fit⟩, rfl⟩, value⟩

/-- What is read as a whole number is what writes one that fits. -/
theorem integer?_eq_some_iff : integer? s = some x ↔ Whole s x := by
  have limit : Nat.pow 2 63 = 2 ^ 63 := rfl
  unfold integer?
  split
  · rename_i cs sign
    refine read_eq_some_iff.trans ?_
    simp only [decide_eq_true_eq, limit]
    constructor
    · rintro ⟨n, digits, fits, rfl⟩
      exact ⟨.minus sign digits, by omega, by omega⟩
    · rintro ⟨writes, low, _⟩
      cases writes with
      | plain digits => exact absurd sign (digits.head_ne_minus cs)
      | @minus ds n sign' digits =>
        have same : ds = cs := (List.cons.inj (sign'.symm.trans sign)).2
        exact ⟨n, same ▸ digits, by omega, rfl⟩
  · rename_i unsigned
    refine read_eq_some_iff.trans ?_
    simp only [decide_eq_true_eq, limit]
    constructor
    · rintro ⟨n, digits, fits, rfl⟩
      exact ⟨.plain digits, by omega, by omega⟩
    · rintro ⟨writes, _, high⟩
      cases writes with
      | @plain n digits => exact ⟨n, digits, by omega, rfl⟩
      | minus sign => exact absurd sign (unsigned _)

theorem integer?_eq_none_iff : integer? s = none ↔ ∀ x, ¬ Whole s x := by
  rw [Option.eq_none_iff_forall_not_mem]
  exact forall_congr' fun x => not_congr integer?_eq_some_iff

theorem compare_of_whole (ha : Whole a x) (hb : ∀ y, ¬ Whole b y) : compare a b = .lt := by
  rw [compare, integer?_eq_some_iff.mpr ha, integer?_eq_none_iff.mpr hb]

theorem compare_of_values (ha : Whole a x) (hb : Whole b y) (ne : x ≠ y) :
    compare a b = Ord.compare x y := by
  rw [compare, integer?_eq_some_iff.mpr ha, integer?_eq_some_iff.mpr hb]
  have apart : Ord.compare x y ≠ .eq := fun h => ne (Std.LawfulEqOrd.eq_of_compare h)
  dsimp only
  cases h : Ord.compare x y with
  | lt | gt => rfl
  | eq => exact absurd h apart

end Segment

/-- The laws of a total order in which nothing but the thing itself is equal to it. -/
structure TotalOrder {α : Type} (cmp : α → α → Ordering) : Prop where
  eq_iff : ∀ a b, cmp a b = .eq ↔ a = b
  reverses : ∀ a b, cmp a b = (cmp b a).swap
  lt_trans : ∀ a b c, cmp a b = .lt → cmp b c = .lt → cmp a c = .lt
  le_trans : ∀ a b c, cmp a b ≠ .gt → cmp b c ≠ .gt → cmp a c ≠ .gt

theorem totalOrder_of_lawful {α : Type} (cmp : α → α → Ordering) [Std.TransCmp cmp]
    [Std.LawfulEqCmp cmp] : TotalOrder cmp where
  eq_iff _ _ := Std.LawfulEqCmp.compare_eq_iff_eq
  reverses _ _ := Std.OrientedCmp.eq_swap
  lt_trans _ _ _ := Std.TransCmp.lt_trans
  le_trans a b c hab hbc := by
    have le := Std.TransCmp.isLE_trans (Ordering.isLE_iff_ne_gt.mpr hab)
      (Ordering.isLE_iff_ne_gt.mpr hbc)
    exact Ordering.isLE_iff_ne_gt.mp le

/-- Names and paths are totally ordered. Names that are whole numbers stand before all others and,
where their values differ, by their values; a path stands before all that lies below it. -/
theorem totally_ordered :
    TotalOrder Segment.compare
    ∧ (∀ a b x, Segment.Whole a x → (∀ y, ¬ Segment.Whole b y) → Segment.compare a b = .lt)
    ∧ (∀ a b x y, Segment.Whole a x → Segment.Whole b y → x ≠ y →
      Segment.compare a b = Ord.compare x y)
    ∧ TotalOrder Path.compare
    ∧ ∀ p q : Path, p.isStrictPrefixOf q = true → Path.compare p q = .lt := by
  refine ⟨totalOrder_of_lawful _, ?_, ?_, totalOrder_of_lawful _, ?_⟩
  · exact fun a b x => Segment.compare_of_whole
  · exact fun a b x y => Segment.compare_of_values
  · exact fun p q h => (Path.isStrictPrefixOf_iff.mp h).compare_lt

/-- Around the greatest number that fits, and around zero with a sign and with zeros in front. -/
theorem totally_ordered_at_limits :
    Segment.Whole "09223372036854775807" (2 ^ 63 - 1)
    ∧ (∀ y, ¬ Segment.Whole "9223372036854775808" y)
    ∧ Segment.compare "09223372036854775807" "9223372036854775808" = .lt
    ∧ Segment.Whole "-00" 0 ∧ Segment.Whole "-9223372036854775808" (-2 ^ 63)
    ∧ Segment.compare "-9223372036854775808" "-00" = .lt
    ∧ Segment.compare "0" "-00" = .lt := by
  have greatest : Segment.Whole "09223372036854775807" (2 ^ 63 - 1) :=
    Segment.integer?_eq_some_iff.mp (by decide +kernel)
  have beyond : ∀ y, ¬ Segment.Whole "9223372036854775808" y :=
    Segment.integer?_eq_none_iff.mp (by decide +kernel)
  have least : Segment.Whole "-9223372036854775808" (-2 ^ 63) :=
    Segment.integer?_eq_some_iff.mp (by decide +kernel)
  have zero : Segment.Whole "-00" 0 := Segment.integer?_eq_some_iff.mp (by decide +kernel)
  obtain ⟨names, whole, values, _⟩ := totally_ordered
  have up : Segment.compare "0" "-0" = .lt := by decide +kernel
  have longer : Segment.compare "-0" "-00" = .lt := by decide +kernel
  refine ⟨greatest, beyond, whole _ _ _ greatest beyond, zero, least, ?_, ?_⟩
  · exact (values _ _ _ _ least zero (by decide)).trans (by decide)
  · exact names.lt_trans _ _ _ up longer

end LiveTree
