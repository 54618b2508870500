import LiveTree.Decimal.Shortest
import LiveTree.Proofs.Double.Rounding

/-!
# The shortest numeral reads back

What a numeral rounds to depends only on the number it stands for; the answers that are known without
the power of ten are the same. So trailing zeros may go into the exponent, and since every numeral
that the search tries is checked and the exact one is right, what the search finds reads back.
-/

namespace LiveTree.Decimal

open Double

variable {d : Decimal} {m : Nat}

theorem denominator_pos (d : Decimal) : 0 < d.denominator := Nat.pow_pos (by decide)

theorem two_pow_le_ten_pow {j k : Nat} (h : j ≤ 3 * k) : 2 ^ j ≤ 10 ^ k := by
  refine Nat.le_trans (Nat.pow_le_pow_right (by decide) h) ?_
  rw [Nat.pow_mul]
  exact Nat.pow_le_pow_left (by decide) k

theorem nearestMagnitude_of_exponent_gt (pos : d.digits ≠ 0) (far : (reach : Int) < d.exponent) :
    nearestMagnitude (d.numerator * unitsInOne) d.denominator = infiniteMagnitude := by
  obtain ⟨k, hk, unit⟩ := exists_unitsInOne
  simp only [reach] at far
  have none : (-d.exponent).toNat = 0 := by omega
  have power : 2 ^ (3 * d.exponent.toNat) ≤ 10 ^ d.exponent.toNat :=
    two_pow_le_ten_pow (Nat.le_refl _)
  have enough : 2098 ≤ 3 * d.exponent.toNat + k := by omega
  refine nearestMagnitude_of_large enough ?_
  rw [denominator, none, Nat.pow_eq, Nat.pow_zero, Nat.div_one, unit, Nat.pow_add]
  refine Nat.mul_le_mul_right _ ?_
  exact Nat.le_trans power (Nat.le_mul_of_pos_left _ (Nat.pos_of_ne_zero pos))

theorem nearestMagnitude_of_exponent_lt
    (near : d.exponent + (d.digits.log2 + 1) < -(reach : Int)) :
    nearestMagnitude (d.numerator * unitsInOne) d.denominator = 0 := by
  obtain ⟨k, hk, unit⟩ := exists_unitsInOne
  simp only [reach] at near
  have none : d.exponent.toNat = 0 := by omega
  refine nearestMagnitude_of_small ?_
  calc 2 * (d.numerator * unitsInOne)
    _ = d.digits * 2 ^ (k + 1) := by
      rw [numerator, none, Nat.pow_eq, Nat.pow_zero, Nat.mul_one, unit, Nat.pow_succ,
        Nat.mul_comm 2, Nat.mul_assoc]
    _ < 2 ^ (d.digits.log2 + 1) * 2 ^ (k + 1) :=
      Nat.mul_lt_mul_of_pos_right Nat.lt_log2_self (Nat.two_pow_pos _)
    _ = 2 ^ (d.digits.log2 + 1 + (k + 1)) := (Nat.pow_add _ _ _).symm
    _ ≤ 10 ^ (-d.exponent).toNat := two_pow_le_ten_pow (by omega)

/-- What is known without the power of ten is what rounding gives. -/
theorem nearest_eq (d : Decimal) :
    d.nearest = nearestMagnitude (d.numerator * unitsInOne) d.denominator := by
  unfold nearest
  split
  · rename_i zero
    have small : 2 * (d.numerator * unitsInOne) < d.denominator := by
      rw [numerator, zero, Nat.zero_mul, Nat.zero_mul]
      exact d.denominator_pos
    exact (nearestMagnitude_of_small small).symm
  · rename_i pos
    split
    · exact (nearestMagnitude_of_exponent_gt pos ‹_›).symm
    · split
      · exact (nearestMagnitude_of_exponent_lt ‹_›).symm
      · rfl

theorem nearest_mul (n k : Nat) : nearest ⟨n, k⟩ = nearestMagnitude (n * 10 ^ k * unitsInOne) 1 := by
  have none : (-(k : Int)).toNat = 0 := Int.toNat_of_nonpos (by omega)
  rw [nearest_eq, numerator, denominator, none, Int.toNat_natCast, Nat.pow_eq, Nat.pow_eq,
    Nat.pow_zero]

theorem nearest_div (n k : Nat) :
    nearest ⟨n, -(k : Int)⟩ = nearestMagnitude (n * unitsInOne) (10 ^ k) := by
  have none : (-(k : Int)).toNat = 0 := Int.toNat_of_nonpos (by omega)
  rw [nearest_eq, numerator, denominator, none, Int.neg_neg, Int.toNat_natCast, Nat.pow_eq,
    Nat.pow_eq, Nat.pow_zero, Nat.mul_one]

theorem nearest_natural (n : Nat) : nearest ⟨n, 0⟩ = nearestMagnitude (n * unitsInOne) 1 := by
  have whole := nearest_mul n 0
  rwa [Nat.pow_zero, Nat.mul_one] at whole

/-- Numerals of one number round to one magnitude. -/
theorem nearest_congr {a b : Decimal}
    (same : a.numerator * b.denominator = b.numerator * a.denominator) :
    a.nearest = b.nearest := by
  rw [nearest_eq, nearest_eq]
  refine nearestMagnitude_congr a.denominator_pos b.denominator_pos ?_
  rw [Nat.mul_right_comm, same, Nat.mul_right_comm]

/-- Trailing zeros may stand in the exponent. -/
theorem nearest_shift (digits k : Nat) (e : Int) :
    nearest ⟨digits * 10 ^ k, e⟩ = nearest ⟨digits, e + k⟩ := by
  refine nearest_congr ?_
  simp only [numerator, denominator, Nat.pow_eq]
  rw [Nat.mul_assoc, Nat.mul_assoc, Nat.mul_assoc, ← Nat.pow_add, ← Nat.pow_add, ← Nat.pow_add]
  congr 2
  omega

theorem nearest_strip (fuel : Nat) (d : Decimal) : (strip fuel d).nearest = d.nearest := by
  induction fuel generalizing d with
  | zero => rfl
  | succ fuel ih =>
    rw [strip]
    split
    · rename_i zeros
      obtain ⟨digits, e⟩ := d
      have shift := nearest_shift (digits / 10) 1 e
      rw [Nat.pow_one, Nat.div_mul_cancel (Nat.dvd_of_mod_eq_zero zeros.2)] at shift
      exact (ih _).trans shift.symm
    · rfl

theorem nearest_exact (h : m < infiniteMagnitude) : (exact m).nearest = m := by
  obtain ⟨k, hk, unit⟩ := exists_unitsInOne
  have numerator : (exact m).numerator = unitsOf m * 5 ^ k := by
    unfold exact
    rw [← hk]
    exact Nat.mul_one _
  have denominator : (exact m).denominator = 5 ^ k * 2 ^ k := by
    have places : (-(exact m).exponent).toNat = k := by
      dsimp only [exact]
      omega
    rw [Decimal.denominator, places, ← Nat.mul_pow]
    rfl
  have same : (exact m).numerator * unitsInOne * 1 = unitsOf m * (exact m).denominator := by
    rw [numerator, denominator, unit, Nat.mul_one, Nat.mul_assoc]
  rw [nearest_eq, nearestMagnitude_congr (exact m).denominator_pos Nat.one_pos same,
    nearestMagnitude_unitsOf h]

theorem nearest_withLength {tie : Tie} {count : Nat} (h : withLength tie m count = some d) :
    d.nearest = m := by
  unfold withLength at h
  have reads := List.find?_some h
  exact of_decide_eq_true reads

/-- The shortest numeral of a finite magnitude reads back. -/
theorem nearest_shortest (tie : Tie) (h : m < infiniteMagnitude) : (shortest tie m).nearest = m := by
  unfold shortest
  split
  · rename_i zero
    rw [zero]
    rfl
  · dsimp only
    rw [nearest_strip]
    cases found : (List.range 17).findSome? fun n => withLength tie m (n + 1) with
    | none => exact nearest_exact h
    | some d =>
      obtain ⟨n, _, hd⟩ := List.exists_of_findSome?_eq_some found
      exact nearest_withLength hd

theorem digits_ne_zero_of_nearest (h : d.nearest ≠ 0) : d.digits ≠ 0 := fun zero =>
  h (if_pos zero)

end LiveTree.Decimal
