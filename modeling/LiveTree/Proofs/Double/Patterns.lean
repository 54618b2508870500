import LiveTree.Proofs.Double.Rounding

/-!
# Patterns of binary64 numbers

A number is its sign and its magnitude. A whole one is known by the natural number it stands for,
and that number rounds to it.
-/

namespace LiveTree.Double

variable {d : Double} {m : Nat}

theorem ofParts_negative (negative : Bool) (h : m < 2 ^ 63) :
    (ofParts negative m).negative = negative := by
  cases negative <;> simp [ofParts, Double.negative] <;> omega

theorem ofParts_magnitude (negative : Bool) (h : m < 2 ^ 63) :
    (ofParts negative m).magnitude = m := by
  cases negative <;> simp [ofParts, magnitude] <;> omega

theorem ofParts_self (d : Double) : ofParts d.negative d.magnitude = d := by
  obtain ⟨bits⟩ := d
  have bound := bits.toNat_lt
  simp only [ofParts, negative, magnitude, Double.mk.injEq, Nat.pow_eq, decide_eq_true_eq]
  apply UInt64.toNat_inj.mp
  rw [UInt64.toNat_ofNat']
  split <;> omega

theorem eq_of_parts {a b : Double} (negative : a.negative = b.negative)
    (magnitude : a.magnitude = b.magnitude) : a = b := by
  rw [← ofParts_self a, ← ofParts_self b, negative, magnitude]

theorem isFinite_iff : d.isFinite = true ↔ d.magnitude < infiniteMagnitude := decide_eq_true_iff

theorem not_isNaN (h : d.isFinite = true) : d.isNaN = false :=
  decide_eq_false (Nat.lt_asymm (isFinite_iff.mp h))

theorem isZero_iff : d.isZero = true ↔ d.magnitude = 0 := decide_eq_true_iff

theorem lt_of_finite (h : m < infiniteMagnitude) : m < 2 ^ 63 := Nat.lt_trans h (by decide)

theorem isFinite_ofParts (negative : Bool) (h : m < infiniteMagnitude) :
    (ofParts negative m).isFinite = true := by
  rw [isFinite_iff, ofParts_magnitude negative (lt_of_finite h)]
  exact h

theorem sameNumber_iff {a b : Double} (ha : a.isFinite = true) (hb : b.isFinite = true) :
    a.sameNumber b = true ↔ a = b ∨ (a.magnitude = 0 ∧ b.magnitude = 0) := by
  simp [sameNumber, not_isNaN ha, not_isNaN hb, isZero_iff]

theorem isFinite_of_isWhole (h : d.isWhole = true) : d.isFinite = true :=
  (Bool.and_eq_true_iff.mp h).1

theorem units_of_isWhole (h : d.isWhole = true) : d.units = d.wholePart * unitsInOne := by
  have exact_ := of_decide_eq_true (Bool.and_eq_true_iff.mp h).2
  exact (Nat.div_mul_cancel (Nat.dvd_of_mod_eq_zero exact_)).symm

theorem nearestMagnitude_wholePart (h : d.isWhole = true) :
    nearestMagnitude (d.wholePart * unitsInOne) 1 = d.magnitude := by
  rw [← units_of_isWhole h]
  exact nearestMagnitude_unitsOf (isFinite_iff.mp (isFinite_of_isWhole h))

theorem isWhole_of_isZero (h : d.isZero = true) : d.isWhole = true ∧ d.wholePart = 0 := by
  have none : d.units = 0 := unitsOf_eq_zero_iff.mpr (isZero_iff.mp h)
  have finite : d.isFinite = true := isFinite_iff.mpr (isZero_iff.mp h ▸ by decide)
  rw [isWhole, wholePart, none, finite, Nat.zero_mod, Nat.zero_div]
  exact ⟨rfl, rfl⟩

theorem ofNat_wholePart (h : d.isWhole = true) :
    ofNat d.wholePart = ofParts false d.magnitude :=
  congrArg (ofParts false) (nearestMagnitude_wholePart h)

theorem isWhole_congr {a b : Double} (h : a.magnitude = b.magnitude) : a.isWhole = b.isWhole := by
  simp only [isWhole, isFinite, units, h]
  rfl

theorem wholePart_congr {a b : Double} (h : a.magnitude = b.magnitude) :
    a.wholePart = b.wholePart := by
  simp only [wholePart, units, h]

/-- A number of up to 53 bits, times a power of two, has a magnitude of its own. -/
theorem exists_magnitude {a b : Nat} (ha : a < 2 ^ 53) (hb : b ≤ 971) :
    ∃ m, m < infiniteMagnitude ∧ unitsOf m = a * 2 ^ b * unitsInOne := by
  by_cases zero : a = 0
  · refine ⟨0, by decide, ?_⟩
    rw [zero, Nat.zero_mul, Nat.zero_mul]
    rfl
  · have log := (Nat.log2_lt zero).mpr ha
    -- the leading one goes to the place of the 53rd bit
    have low : 2 ^ 52 ≤ a * 2 ^ (52 - a.log2) := by
      calc 2 ^ 52
        _ = 2 ^ a.log2 * 2 ^ (52 - a.log2) := by rw [← Nat.pow_add]; congr 1; omega
        _ ≤ a * 2 ^ (52 - a.log2) := Nat.mul_le_mul_right _ (Nat.log2_self_le zero)
    have high : a * 2 ^ (52 - a.log2) < 2 ^ 53 := by
      calc a * 2 ^ (52 - a.log2)
        _ < 2 ^ (a.log2 + 1) * 2 ^ (52 - a.log2) :=
          Nat.mul_lt_mul_of_pos_right Nat.lt_log2_self (Nat.two_pow_pos _)
        _ = 2 ^ 53 := by rw [← Nat.pow_add]; congr 1; omega
    obtain ⟨f, hf⟩ := Nat.exists_eq_add_of_le low
    have fraction : f < 2 ^ 52 := by omega
    refine ⟨(b + a.log2 + 1022 + 1) * 2 ^ 52 + f, ?_, ?_⟩
    · rw [infiniteMagnitude, Nat.pow_eq]
      omega
    · obtain ⟨k, hk, unit⟩ := exists_unitsInOne
      have shift : b + k = 52 - a.log2 + (b + a.log2 + 1022) := by
        clear unit
        omega
      rw [unitsOf_normal _ fraction, ← hf, unit, Nat.mul_assoc, Nat.mul_assoc, ← Nat.pow_add,
        ← Nat.pow_add, shift]

theorem units_ofNat {a b : Nat} (ha : a < 2 ^ 53) (hb : b ≤ 971) :
    (ofNat (a * 2 ^ b)).isFinite = true ∧ (ofNat (a * 2 ^ b)).units = a * 2 ^ b * unitsInOne := by
  obtain ⟨m, finite, exact_⟩ := exists_magnitude ha hb
  have parts : ofNat (a * 2 ^ b) = ofParts false m := by
    rw [ofNat, ofRatio, ← exact_, nearestMagnitude_unitsOf finite]
  rw [parts, units, ofParts_magnitude false (lt_of_finite finite)]
  exact ⟨isFinite_ofParts false finite, exact_⟩

theorem nearestMagnitude_lt (num den : Nat) : nearestMagnitude num den < 2 ^ 63 :=
  Nat.lt_of_le_of_lt (nearestMagnitude_le num den) (by decide)

theorem mul_magnitude {a b : Double} (ha : a.isFinite = true) (hb : b.isFinite = true) :
    (a.mul b).magnitude = nearestMagnitude (a.units * b.units) unitsInOne := by
  simp only [mul, not_isNaN ha, not_isNaN hb, ha, hb, Bool.or_self, Bool.and_self, if_true]
  exact ofParts_magnitude _ (nearestMagnitude_lt _ _)

theorem div_magnitude {a b : Double} (ha : a.isFinite = true) (hb : b.isFinite = true)
    (pos : b.isZero = false) :
    (a.div b).magnitude = nearestMagnitude (a.units * unitsInOne) b.units := by
  simp only [div, not_isNaN ha, not_isNaN hb, ha, hb, pos, Bool.or_self, Bool.and_self,
    Bool.not_false, if_true]
  exact ofParts_magnitude _ (nearestMagnitude_lt _ _)

end LiveTree.Double
