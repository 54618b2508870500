import LiveTree.Double.Width
import LiveTree.Proofs.Double.Patterns

/-!
# Narrow patterns of numbers

A number that narrows is found again when its pattern widens, with every bit of it: a finite one
because its units are counted exactly, another one because its payload loses zeros only.
-/

namespace LiveTree.Double

theorem infiniteMagnitude_add : infiniteMagnitude + 2 ^ 52 = 2 ^ 63 := rfl

theorem magnitude_lt (d : Double) : d.magnitude < 2 ^ 63 := Nat.mod_lt _ (by decide)

namespace Width

variable {w : Width} {m n pattern : Nat} {d : Double}

theorem infiniteMagnitude_add_fractions (w : Width) :
    w.infiniteMagnitude + 2 ^ w.fractionBits = w.signWeight := by
  have exponents := Nat.two_pow_pos w.exponentBits
  rw [infiniteMagnitude, signWeight, Nat.pow_eq, Nat.pow_eq, Nat.pow_eq, Nat.sub_mul, Nat.one_mul,
    Nat.pow_add, Nat.mul_comm (2 ^ w.fractionBits)]
  exact Nat.sub_add_cancel (Nat.le_mul_of_pos_left _ exponents)

theorem unitsOf_of_magnitudeOf (h : w.magnitudeOf? n = some m) :
    w.unitsOf m = n ∧ m < w.infiniteMagnitude := by
  simp only [magnitudeOf?, Option.ite_none_right_eq_some, Option.some.injEq, Nat.pow_eq] at h
  obtain ⟨⟨exact_, finite⟩, rfl⟩ := h
  refine ⟨?_, finite⟩
  rcases Nat.lt_or_ge n (2 ^ w.fractionBits) with small | large
  · have shift : n.log2 - w.fractionBits = 0 := by
      rcases Nat.eq_zero_or_pos n with rfl | pos
      · exact Nat.zero_sub _
      · exact Nat.sub_eq_zero_of_le (Nat.le_of_lt ((Nat.log2_lt (Nat.ne_of_gt pos)).mpr small))
    rw [shift, Nat.pow_zero, Nat.div_one, Nat.zero_mul, Nat.zero_add]
    exact if_pos small
  · have pos : n ≠ 0 := Nat.ne_of_gt (Nat.lt_of_lt_of_le (Nat.two_pow_pos _) large)
    have log := (Nat.le_log2 pos).mpr large
    obtain ⟨shift, hs⟩ := Nat.exists_eq_add_of_le log
    rw [hs, Nat.add_sub_cancel_left] at exact_ ⊢
    -- shifted, the units are a fraction with the leading bit that no pattern holds
    have low : 2 ^ w.fractionBits ≤ n / 2 ^ shift := by
      rw [Nat.le_div_iff_mul_le (Nat.two_pow_pos _), ← Nat.pow_add, ← hs]
      exact Nat.log2_self_le pos
    have high : n / 2 ^ shift < 2 ^ w.fractionBits + 2 ^ w.fractionBits := by
      rw [Nat.div_lt_iff_lt_mul (Nat.two_pow_pos _), ← Nat.two_mul, ← Nat.pow_succ', ← Nat.pow_add,
        Nat.succ_add, ← hs]
      exact Nat.lt_log2_self
    obtain ⟨fraction, hf⟩ := Nat.exists_eq_add_of_le low
    have short : fraction < 2 ^ w.fractionBits := by omega
    have normal : shift * 2 ^ w.fractionBits + n / 2 ^ shift
        = fraction + 2 ^ w.fractionBits * (shift + 1) := by
      rw [hf]
      ring
    rw [normal, unitsOf, Nat.pow_eq, Nat.add_mul_mod_self_left, Nat.mod_eq_of_lt short,
      Nat.add_mul_div_left _ _ (Nat.two_pow_pos _), Nat.div_eq_of_lt short, Nat.zero_add,
      Nat.add_sub_cancel, ← hf, Nat.pow_eq, if_neg]
    · exact Nat.div_mul_cancel (Nat.dvd_of_mod_eq_zero exact_)
    · rw [Nat.mul_succ]
      omega

theorem widen_signed (negative : Bool) (h : m < w.signWeight) :
    w.widen ((if negative then w.signWeight else 0) + m) =
      if m < w.infiniteMagnitude then
        ofParts negative (nearestMagnitude (w.unitsOf m * Nat.pow 2 (1074 - w.unitScale)) 1)
      else if m = w.infiniteMagnitude then infinity negative
      else
        let payload := (m - w.infiniteMagnitude) * Nat.pow 2 (52 - w.fractionBits)
        let quiet := if payload < Nat.pow 2 51 then payload + Nat.pow 2 51 else payload
        ofParts negative (Double.infiniteMagnitude + quiet) := by
  have sign : decide (w.signWeight ≤ (if negative then w.signWeight else 0) + m) = negative := by
    cases negative <;> simp [h]
  have magnitude : ((if negative then w.signWeight else 0) + m) % w.signWeight = m := by
    cases negative <;> simp [Nat.mod_eq_of_lt h]
  simp only [widen, sign, magnitude]

theorem signed_lt (negative : Bool) (h : m < w.signWeight) :
    (if negative then w.signWeight else 0) + m < 2 * w.signWeight := by
  split <;> omega

theorem widen_finite (finite : d.isFinite = true) (h : w.narrow? d = some pattern) :
    w.widen pattern = d ∧ pattern < 2 * w.signWeight := by
  simp only [narrow?, finite, if_true, Option.ite_none_right_eq_some, Option.map_eq_some_iff] at h
  obtain ⟨exact_, m, hm, rfl⟩ := h
  obtain ⟨units, inside⟩ := unitsOf_of_magnitudeOf hm
  have short : m < w.signWeight :=
    Nat.lt_of_lt_of_le inside (w.infiniteMagnitude_add_fractions ▸ Nat.le_add_right _ _)
  constructor
  · rw [widen_signed d.negative short, if_pos inside, units,
      Nat.div_mul_cancel (Nat.dvd_of_mod_eq_zero exact_), Double.units,
      nearestMagnitude_unitsOf (isFinite_iff.mp finite)]
    exact ofParts_self d
  · exact signed_lt d.negative short

theorem widen_infinite (fits : w.fractionBits ≤ 52) (infinite : d.isFinite = false)
    (h : w.narrow? d = some pattern) : w.widen pattern = d ∧ pattern < 2 * w.signWeight := by
  simp only [narrow?, infinite, Bool.false_eq_true, if_false, Option.ite_none_right_eq_some,
    Option.some.injEq, Nat.pow_eq] at h
  obtain ⟨⟨exact_, quiet⟩, rfl⟩ := h
  have large : Double.infiniteMagnitude ≤ d.magnitude :=
    Nat.le_of_not_lt (of_decide_eq_false infinite)
  obtain ⟨payload, hp⟩ := Nat.exists_eq_add_of_le large
  have parts := ofParts_self d
  rw [hp] at parts
  rw [hp, Nat.add_sub_cancel_left] at exact_ quiet ⊢
  obtain ⟨kept, rfl⟩ := Nat.dvd_of_mod_eq_zero exact_
  rw [Nat.mul_div_cancel_left _ (Nat.two_pow_pos _), Nat.add_assoc]
  have weight := w.infiniteMagnitude_add_fractions
  -- the zeros that are lost are as many as the formats differ in
  have short : kept < 2 ^ w.fractionBits := by
    have bound := d.magnitude_lt
    rw [hp, ← infiniteMagnitude_add, Nat.add_lt_add_iff_left, ← Nat.sub_add_cancel fits,
      Nat.pow_add, Nat.add_sub_cancel] at bound
    exact Nat.lt_of_mul_lt_mul_left bound
  have below : w.infiniteMagnitude + kept < w.signWeight := by omega
  constructor
  · rw [widen_signed d.negative below, if_neg (Nat.not_lt.mpr (Nat.le_add_right _ _))]
    rcases quiet with none | top
    · have zero := (Nat.mul_eq_zero.mp none).resolve_left (Nat.ne_of_gt (Nat.two_pow_pos _))
      rw [zero, Nat.mul_zero, Nat.add_zero] at parts
      rw [zero, Nat.add_zero, if_pos rfl]
      exact parts
    · have some : kept ≠ 0 := by
        rintro rfl
        simp at top
      rw [if_neg (by omega), Nat.add_sub_cancel_left, Nat.pow_eq, Nat.mul_comm kept]
      dsimp only
      rw [if_neg (Nat.not_lt.mpr top)]
      exact parts
  · exact signed_lt d.negative below

/-- Nothing is lost on the way through a narrower format. -/
theorem widen_narrow (fits : w.fractionBits ≤ 52) (h : w.narrow? d = some pattern) :
    w.widen pattern = d ∧ pattern < 2 * w.signWeight := by
  cases finite : d.isFinite with
  | true => exact widen_finite finite h
  | false => exact widen_infinite fits finite h

end Width

end LiveTree.Double
