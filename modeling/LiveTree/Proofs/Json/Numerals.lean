import LiveTree.Decimal.Layout
import LiveTree.Json.Numeral
import LiveTree.Proofs.Decimal.Shortest
import LiveTree.Proofs.Double.Patterns

/-!
# Numerals and what they are rounded to

A numeral is accurate when it is read as the number nearest to it. With up to 53 bits and a small power
of ten every numeral is, for then the significand and the power are exact and their product or quotient
is the one thing that is rounded.
-/

namespace LiveTree

namespace Text

theorem ofDigits_toDigits (n : Nat) : ofDigits (Nat.toDigits 10 n) = n :=
  Nat.ofDigitChars_ten_toDigits

theorem ofDigits_append (ds es : List Char) :
    ofDigits (ds ++ es) = Nat.ofDigitChars 10 es (ofDigits ds) :=
  Nat.ofDigitChars_append 0

theorem ofDigits_append_zeros (ds : List Char) (k : Nat) :
    ofDigits (ds ++ List.replicate k '0') = ofDigits ds * 10 ^ k := by
  rw [ofDigits_append, Nat.ofDigitChars_replicate_zero, Nat.mul_comm]

theorem ofDigits_zeros_append (k : Nat) (ds : List Char) :
    ofDigits (List.replicate k '0' ++ ds) = ofDigits ds := by
  have none : ofDigits (List.replicate k '0') = 0 :=
    Nat.ofDigitChars_replicate_zero.trans (Nat.mul_zero _)
  rw [ofDigits_append, none]
  rfl

theorem le_ofDigitChars (ds : List Char) (n : Nat) : n ≤ Nat.ofDigitChars 10 ds n := by
  induction ds generalizing n with
  | nil => exact Nat.le_refl n
  | cons c ds ih => exact Nat.le_trans (by omega) (ih (10 * n + (c.toNat - '0'.toNat)))

end Text

namespace Json

theorem takeDigits_of_lt {ds : List Char} {n : Nat} (fits : Nat.ofDigitChars 10 ds n < 2 ^ 64) :
    takeDigits n ds = (Nat.ofDigitChars 10 ds n, []) := by
  induction ds generalizing n with
  | nil => rfl
  | cons c ds ih =>
    have next : 10 * n + (c.toNat - '0'.toNat) < 2 ^ 64 :=
      Nat.lt_of_le_of_lt (Text.le_ofDigitChars ds _) fits
    rw [takeDigits, Nat.pow_eq, if_pos next]
    exact ih fits

namespace Numeral

variable {n : Numeral} {k s : Nat} {e : Int}

/-- The number that a numeral stands for. -/
def exact (n : Numeral) : Decimal :=
  ⟨Text.ofDigits (n.whole ++ n.fraction), n.power - n.fraction.length⟩

def Accurate (n : Numeral) : Prop := n.rounded.magnitude = n.exact.nearest

theorem clipped_of_lt (fits : n.exact.digits < 2 ^ 64) : n.clipped = n.exact := by
  obtain ⟨whole, fraction, power⟩ := n
  have all := Text.ofDigits_append whole fraction
  have fits' : Nat.ofDigitChars 10 fraction (Text.ofDigits whole) < 2 ^ 64 := all ▸ fits
  have first : takeDigits 0 whole = (Text.ofDigits whole, []) :=
    takeDigits_of_lt (Nat.lt_of_le_of_lt (Text.le_ofDigitChars fraction _) fits')
  simp only [clipped, exact, first, takeDigits_of_lt fits', all]
  simp

theorem units_tens (hk : k ≤ 22) :
    (tens k).isFinite = true ∧ (tens k).units = 10 ^ k * Double.unitsInOne := by
  have odd : 5 ^ k < 2 ^ 53 :=
    Nat.lt_of_le_of_lt (Nat.pow_le_pow_right (by decide) hk) (by decide)
  have tens_ : 10 ^ k = 5 ^ k * 2 ^ k := Nat.mul_pow 5 2 k
  rw [tens, Nat.pow_eq, tens_]
  exact Double.units_ofNat odd (by omega)

theorem isZero_tens (hk : k ≤ 22) : (tens k).isZero = false := by
  refine Bool.eq_false_iff.mpr fun zero => ?_
  have none : (tens k).units = 0 := Double.unitsOf_eq_zero_iff.mpr (Double.isZero_iff.mp zero)
  rw [(units_tens hk).2] at none
  exact Nat.mul_ne_zero (Nat.ne_of_gt (Nat.pow_pos (by decide)))
    (Nat.ne_of_gt Double.unitsInOne_pos) none

theorem shift_of_nonneg {d : Double} (hk : k ≤ maxTens) : shift d k = d.mul (tens k) := by
  have above : ¬ (k : Int) < 0 := by omega
  simp only [shift, above, if_false, Int.natAbs_natCast, hk, if_true]

theorem shift_of_neg {d : Double} (pos : 0 < k) (hk : k ≤ maxTens) :
    shift d (-(k : Int)) = d.div (tens k) := by
  have below : -(k : Int) < 0 := by omega
  have none : (k - 1) / maxTens = 0 := Nat.div_eq_of_lt (by omega)
  simp only [shift, below, if_true, Int.natAbs_neg, Int.natAbs_natCast, none, divideByMax,
    Nat.mul_zero, Nat.sub_zero]

/-- Exact operands are rounded once. -/
theorem magnitude_shift (hs : s < 2 ^ 53) (he : e.natAbs ≤ 22) :
    (shift (Double.ofNat s) e).magnitude = Decimal.nearest ⟨s, e⟩ := by
  obtain ⟨finite, units⟩ : (Double.ofNat s).isFinite = true
      ∧ (Double.ofNat s).units = s * Double.unitsInOne := by
    simpa using Double.units_ofNat (b := 0) hs (by decide)
  obtain ⟨finite', units'⟩ := units_tens he
  have small : e.natAbs ≤ maxTens := Nat.le_trans he (by decide)
  rcases lt_or_ge e 0 with below | above
  · obtain ⟨k, rfl⟩ := Int.exists_eq_neg_ofNat (Int.le_of_lt below)
    rw [Int.natAbs_neg, Int.natAbs_natCast] at he finite' units' small
    rw [shift_of_neg (by omega) small, Double.div_magnitude finite finite' (isZero_tens he), units,
      units', Decimal.nearest_div, Double.nearestMagnitude_scale _ _ Double.unitsInOne_pos]
  · obtain ⟨k, rfl⟩ := Int.eq_ofNat_of_zero_le above
    rw [Int.natAbs_natCast] at finite' units' small
    have scaled := Double.nearestMagnitude_scale (s * 10 ^ k * Double.unitsInOne) 1
      Double.unitsInOne_pos
    rw [Nat.one_mul, Nat.mul_assoc _ Double.unitsInOne] at scaled
    rw [shift_of_nonneg small, Double.mul_magnitude finite finite', units, units',
      Decimal.nearest_mul, Nat.mul_mul_mul_comm, scaled]

/-- A numeral of up to 53 bits with a small power of ten is accurate. -/
theorem accurate_of_small (hs : n.exact.digits < 2 ^ 53) (he : n.exact.exponent.natAbs ≤ 22) :
    n.Accurate := by
  rw [Accurate, rounded, clipped_of_lt (Nat.lt_trans hs (by decide))]
  exact magnitude_shift hs he

end Numeral

end Json

end LiveTree
