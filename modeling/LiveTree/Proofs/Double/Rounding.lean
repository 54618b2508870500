import Mathlib.Algebra.Order.Ring.Nat
import Mathlib.Tactic.Ring
import LiveTree.Double.Basic

/-!
# Rounding to binary64

The nearest magnitude depends on the quotient only, and goes back from the units of a finite
magnitude to that magnitude. What is less than half a unit rounds to nothing, and what is past the
last finite number is infinite.
-/

namespace LiveTree.Double

variable {num den m n : Nat}

/-- One has a power of two of units. The power is kept closed, for it is large. -/
theorem exists_unitsInOne : ∃ k, k = 1074 ∧ unitsInOne = 2 ^ k := by
  unfold unitsInOne
  generalize 1074 = k
  exact ⟨k, rfl, rfl⟩

theorem unitsInOne_pos : 0 < unitsInOne := by
  obtain ⟨k, _, unit⟩ := exists_unitsInOne
  exact unit ▸ Nat.two_pow_pos k

theorem roundRatio_scale (num den : Nat) {k : Nat} (hk : 0 < k) :
    roundRatio (num * k) (den * k) = roundRatio num den := by
  have below : 2 * (num % den * k) < den * k ↔ 2 * (num % den) < den := by
    rw [← Nat.mul_assoc]
    exact Nat.mul_lt_mul_right hk
  have above : den * k < 2 * (num % den * k) ↔ den < 2 * (num % den) := by
    rw [← Nat.mul_assoc]
    exact Nat.mul_lt_mul_right hk
  simp only [roundRatio, Nat.mul_div_mul_right num den hk, Nat.mul_mod_mul_right, below, above]

theorem roundRatio_mul (q : Nat) (hd : 0 < den) : roundRatio (q * den) den = q := by
  simp [roundRatio, Nat.mul_div_cancel q hd, hd]

theorem div_le_roundRatio (num den : Nat) : num / den ≤ roundRatio num den := by
  unfold roundRatio
  dsimp only
  split
  · exact Nat.le_refl _
  · split
    · exact Nat.le_succ _
    · exact Nat.le_add_right _ _

theorem nearestMagnitude_scale (num den : Nat) {k : Nat} (hk : 0 < k) :
    nearestMagnitude (num * k) (den * k) = nearestMagnitude num den := by
  simp only [nearestMagnitude, Nat.mul_div_mul_right num den hk]
  rw [Nat.mul_right_comm, roundRatio_scale _ _ hk]

theorem nearestMagnitude_congr {num' den' : Nat} (hd : 0 < den) (hd' : 0 < den')
    (same : num * den' = num' * den) : nearestMagnitude num den = nearestMagnitude num' den' := by
  rw [← nearestMagnitude_scale num den hd', ← nearestMagnitude_scale num' den' hd, same,
    Nat.mul_comm den]

theorem nearestMagnitude_le (num den : Nat) : nearestMagnitude num den ≤ infiniteMagnitude :=
  Nat.min_le_left _ _

theorem nearestMagnitude_of_small (small : 2 * num < den) : nearestMagnitude num den = 0 := by
  have less : num < den := by omega
  simp [nearestMagnitude, Nat.div_eq_of_lt less, roundRatio, Nat.mod_eq_of_lt less, small]

theorem nearestMagnitude_of_large {k : Nat} (hk : 2098 ≤ k) (large : 2 ^ k ≤ num / den) :
    nearestMagnitude num den = infiniteMagnitude := by
  have pos : num / den ≠ 0 := Nat.ne_of_gt (Nat.lt_of_lt_of_le (Nat.two_pow_pos _) large)
  have log := (Nat.le_log2 pos).mpr large
  -- the quotient keeps 53 bits when it is shifted
  have bits : 2 ^ 52 ≤ num / (den * Nat.pow 2 ((num / den).log2 - 52)) := by
    rw [← Nat.div_div_eq_div_mul, Nat.pow_eq, Nat.le_div_iff_mul_le (Nat.two_pow_pos _),
      ← Nat.pow_add, Nat.add_sub_of_le (by omega)]
    exact Nat.log2_self_le pos
  have rounded := Nat.le_trans bits (div_le_roundRatio _ _)
  refine Nat.min_eq_left ?_
  calc infiniteMagnitude
    _ = 2046 * Nat.pow 2 52 + 2 ^ 52 := by rfl
    _ ≤ ((num / den).log2 - 52) * Nat.pow 2 52 + _ :=
      Nat.add_le_add (Nat.mul_le_mul_right _ (by omega)) rounded

theorem unitsOf_of_lt (h : m < 2 ^ 52) : unitsOf m = m := if_pos h

theorem unitsOf_normal (e : Nat) {f : Nat} (hf : f < 2 ^ 52) :
    unitsOf ((e + 1) * 2 ^ 52 + f) = (2 ^ 52 + f) * 2 ^ e := by
  have large : ¬ (e + 1) * 2 ^ 52 + f < 2 ^ 52 := by omega
  have fraction : ((e + 1) * 2 ^ 52 + f) % 2 ^ 52 = f := by omega
  have exponent : ((e + 1) * 2 ^ 52 + f) / 2 ^ 52 - 1 = e := by omega
  rw [unitsOf, Nat.pow_eq, if_neg large, fraction, exponent, Nat.pow_eq]

theorem magnitude_cases (m : Nat) :
    m < 2 ^ 52 ∨ ∃ e f, f < 2 ^ 52 ∧ m = (e + 1) * 2 ^ 52 + f := by
  rcases Nat.lt_or_ge m (2 ^ 52) with small | large
  · exact Or.inl small
  · refine Or.inr ⟨m / 2 ^ 52 - 1, m % 2 ^ 52, Nat.mod_lt _ (by decide), ?_⟩
    omega

theorem unitsOf_eq_zero_iff : unitsOf m = 0 ↔ m = 0 := by
  rcases magnitude_cases m with small | ⟨e, f, hf, rfl⟩
  · rw [unitsOf_of_lt small]
  · rw [unitsOf_normal e hf, Nat.mul_eq_zero]
    have power := Nat.two_pow_pos e
    omega

/-- The units of a finite magnitude round to that magnitude. -/
theorem nearestMagnitude_unitsOf (h : m < infiniteMagnitude) :
    nearestMagnitude (unitsOf m) 1 = m := by
  rcases magnitude_cases m with small | ⟨e, f, hf, rfl⟩
  · rw [unitsOf_of_lt small]
    have shift : (m / 1).log2 - 52 = 0 := by
      rcases Nat.eq_zero_or_pos m with rfl | pos
      · rfl
      · have log := (Nat.log2_lt (Nat.ne_of_gt pos)).mpr small
        rw [Nat.div_one]
        omega
    have exact_ := roundRatio_mul m Nat.one_pos
    rw [Nat.mul_one] at exact_
    simp only [nearestMagnitude, shift, Nat.zero_mul, Nat.zero_add, Nat.pow_zero, Nat.mul_one,
      exact_, Nat.pow_eq]
    exact Nat.min_eq_right (Nat.le_of_lt h)
  · rw [unitsOf_normal e hf]
    have nonzero : (2 ^ 52 + f) * 2 ^ e ≠ 0 :=
      Nat.mul_ne_zero (by omega) (Nat.ne_of_gt (Nat.two_pow_pos e))
    have log : ((2 ^ 52 + f) * 2 ^ e).log2 = 52 + e := by
      refine (Nat.log2_eq_iff nonzero).mpr ⟨?_, ?_⟩
      · rw [Nat.pow_add]
        exact Nat.mul_le_mul_right _ (Nat.le_add_right _ _)
      · have double : 2 ^ (52 + e + 1) = 2 ^ 53 * 2 ^ e := by rw [← Nat.pow_add]; ring
        rw [double]
        exact Nat.mul_lt_mul_of_pos_right (by omega) (Nat.two_pow_pos e)
    have shift : ((2 ^ 52 + f) * 2 ^ e / 1).log2 - 52 = e := by
      rw [Nat.div_one, log, Nat.add_sub_cancel_left]
    have exact_ := roundRatio_mul (2 ^ 52 + f) (Nat.two_pow_pos e)
    simp only [nearestMagnitude, shift, Nat.one_mul, Nat.pow_eq, exact_]
    rw [← Nat.add_assoc, ← Nat.succ_mul]
    exact Nat.min_eq_right (Nat.le_of_lt h)

end LiveTree.Double
