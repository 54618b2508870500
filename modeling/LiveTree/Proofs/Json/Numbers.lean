import LiveTree.Json.Writer
import LiveTree.Proofs.Json.Numerals
import LiveTree.Proofs.Value.Normal

/-!
# Numbers read back

The text of a finite number is a sign and a numeral, and of the numbers the numeral is nearest to the
one it is written for. So the number comes back when its numeral is accurate, as that of a whole number
up to `2 ^ 53 - 1` always is. Then the one thing lost is the sign of zero: a whole number is written by
its digits, and those of zero have no sign.
-/

namespace LiveTree.Json

open Decimal (text zeros)

variable {d : Decimal} {rest ds cs : List Char} {n : Double}

/-- What may follow a value: nothing, a comma or a closing bracket. -/
def Ends (rest : List Char) : Prop := ∀ c, rest.head? = some c → c = ',' ∨ c = ']' ∨ c = '\x7d'

theorem ends_nil : Ends [] := nofun

theorem Ends.of_head {c : Char} (h : c = ',' ∨ c = ']' ∨ c = '\x7d') (rest : List Char) :
    Ends (c :: rest) := by
  rintro _ ⟨⟩
  exact h

/-- The reader gets this from the text, or nothing, whatever follows that may follow a value. -/
def ReadsAs {α : Type} (read : List Char → Option (α × List Char)) (cs : List Char)
    (a : Option α) : Prop :=
  ∀ rest, Ends rest → read (cs ++ rest) = a.map fun a => (a, rest)

/-- Digits stop here. -/
def Stops (rest : List Char) : Prop := ∀ c, rest.head? = some c → c.isDigit = false

theorem Stops.of_head {c : Char} (h : c.isDigit = false) (rest : List Char) : Stops (c :: rest) := by
  rintro _ ⟨⟩
  exact h

theorem Ends.stops (h : Ends rest) : Stops rest := by
  intro c hc
  rcases h c hc with rfl | rfl | rfl <;> rfl

theorem Ends.ne_cons {c : Char} (h : Ends rest) (other : ¬ (c = ',' ∨ c = ']' ∨ c = '\x7d'))
    (cs : List Char) : rest ≠ c :: cs := by
  rintro rfl
  exact other (h c rfl)

/-- One digit or more. -/
structure Digits (ds : List Char) : Prop where
  nonempty : ds ≠ []
  digit : ∀ c ∈ ds, c.isDigit = true

theorem digits_text (n : Nat) : Digits (text n) :=
  ⟨Nat.toDigits_ne_nil, fun _ hc => Nat.isDigit_of_mem_toDigits (by decide) (by decide) hc⟩

theorem Digits.append (h : Digits ds) {es : List Char} (hes : ∀ c ∈ es, c.isDigit = true) :
    Digits (ds ++ es) := by
  refine ⟨List.append_ne_nil_of_left_ne_nil h.nonempty es, fun c hc => ?_⟩
  exact (List.mem_append.mp hc).elim (h.digit c) (hes c)

theorem isDigit_zeros (k : Nat) : ∀ c ∈ zeros k, c.isDigit = true := by
  intro c hc
  rw [(List.mem_replicate.mp hc).2]
  rfl

theorem readDigits_append (h : Digits ds) (stop : Stops rest) :
    readDigits (ds ++ rest) = some (ds, rest) := by
  have both : rest.takeWhile Char.isDigit = [] ∧ rest.dropWhile Char.isDigit = rest := by
    cases rest with
    | nil => exact ⟨rfl, rfl⟩
    | cons c rest => simp [stop c rfl]
  unfold readDigits
  rw [List.takeWhile_append_of_pos h.digit, List.dropWhile_append_of_pos h.digit, both.1, both.2,
    List.append_nil, if_neg (by simpa using h.nonempty)]

theorem Digits.head_append (h : Digits ds) (es : List Char) : (ds ++ es).head? = ds.head? := by
  obtain ⟨c, cs, rfl⟩ := List.exists_cons_of_ne_nil h.nonempty
  rfl

/-- Digits that may stand before the point: none of them is a zero too much. -/
structure Whole (ds : List Char) : Prop extends Digits ds where
  lead : ds.head? = some '0' → ds = ['0']

theorem digits_zero : Digits (zeros 1) := ⟨List.cons_ne_nil '0' [], isDigit_zeros 1⟩

theorem whole_zero : Whole (zeros 1) := ⟨digits_zero, fun _ => rfl⟩

theorem head_text {n : Nat} (pos : n ≠ 0) : (text n).head? ≠ some '0' := by
  induction n using Nat.strongRecOn with
  | ind n ih =>
    rw [text, Nat.toDigits_eq_if (by decide)]
    split
    · intro zero
      exact pos (Nat.digitChar_eq_zero.mp (Option.some.inj zero))
    · change (text (n / 10) ++ _).head? ≠ _
      rw [(digits_text (n / 10)).head_append]
      exact ih (n / 10) (by omega) (by omega)

theorem Digits.whole (h : Digits ds) {n : Nat} (pos : n ≠ 0)
    (same : ds.head? = (text n).head?) : Whole ds :=
  ⟨h, fun zero => absurd (same.symm.trans zero) (head_text pos)⟩

theorem whole_text (n : Nat) : Whole (text n) := by
  by_cases pos : n = 0
  · rw [pos]
    exact whole_zero
  · exact (digits_text n).whole pos rfl

theorem readWhole_append (h : Whole ds) (stop : Stops rest) :
    readWhole (ds ++ rest) = some (ds, rest) := by
  by_cases zero : ds.head? = some '0'
  · rw [h.lead zero]
    rfl
  · rw [readWhole.eq_2]
    · exact readDigits_append h.toDigits stop
    · intro cs start
      obtain ⟨c, ds', rfl⟩ := List.exists_cons_of_ne_nil h.nonempty
      cases start
      exact zero rfl

theorem readFraction_ends (ends : Ends rest) : readFraction rest = some ([], rest) :=
  readFraction.eq_2 rest (ends.ne_cons (by decide))

theorem readPower_ends (ends : Ends rest) : readPower rest = some (0, rest) :=
  readPower.eq_3 rest (ends.ne_cons (by decide)) (ends.ne_cons (by decide))

theorem readPower_text (power : Int) (ends : Ends rest) :
    readPower ('e' :: (if power < 0 then '-' else '+') :: (text power.natAbs ++ rest))
      = some (power, rest) := by
  have digits := readDigits_append (digits_text power.natAbs) ends.stops
  have value : Text.ofDigits (text power.natAbs) = power.natAbs := Text.ofDigits_toDigits _
  rw [readPower]
  split
  · rename_i below
    rw [readSignedDigits, digits, Option.map_some]
    dsimp only
    rw [value, Int.ofNat_natAbs_of_nonpos (Int.le_of_lt below), Int.neg_neg]
  · rename_i above
    rw [readSignedDigits, digits, Option.map_some]
    dsimp only
    rw [value, Int.ofNat_natAbs_of_nonneg (Int.not_lt.mp above)]

theorem readNumeral_of_parts {fraction r s : List Char} {power : Int}
    (hw : readWhole cs = some (ds, r)) (hf : readFraction r = some (fraction, s))
    (hp : readPower s = some (power, rest)) :
    readNumeral cs = some (⟨ds, fraction, power⟩, rest) := by
  simp [readNumeral, hw, hf, hp]

theorem readsAs_whole (h : Whole ds) : ReadsAs readNumeral ds (some ⟨ds, [], 0⟩) := fun _ ends =>
  readNumeral_of_parts (readWhole_append h ends.stops) (readFraction_ends ends) (readPower_ends ends)

theorem readsAs_point {fraction : List Char} (h : Whole ds) (hf : Digits fraction) :
    ReadsAs readNumeral (ds ++ '.' :: fraction) (some ⟨ds, fraction, 0⟩) := by
  intro rest ends
  rw [List.append_assoc, List.cons_append]
  exact readNumeral_of_parts (readWhole_append h (Stops.of_head rfl _))
    (readDigits_append hf ends.stops) (readPower_ends ends)

/-- The text is a numeral, and the numeral is nearest to what the decimal is nearest to. -/
def Writes (cs : List Char) (d : Decimal) : Prop :=
  ∃ numeral : Numeral, numeral.exact.nearest = d.nearest ∧ ReadsAs readNumeral cs (some numeral)

/-- A positional numeral. A whole one gets a zero after its point. -/
theorem writes_positional (pos : d.digits ≠ 0) : Writes (d.writePositional layout) d := by
  obtain ⟨ds, hds⟩ : ∃ ds, ds = text d.digits := ⟨_, rfl⟩
  have digits : Digits ds := hds ▸ digits_text d.digits
  have value : Text.ofDigits ds = d.digits := hds ▸ Text.ofDigits_toDigits d.digits
  unfold Decimal.writePositional
  rw [← hds]
  dsimp only
  split
  · rename_i whole
    have front : Whole (ds ++ zeros d.exponent.toNat) :=
      (digits.append (isDigit_zeros _)).whole pos (hds ▸ digits.head_append _)
    refine ⟨⟨ds ++ zeros d.exponent.toNat, zeros 1, 0⟩, ?_, readsAs_point front digits_zero⟩
    dsimp only [Numeral.exact]
    rw [List.append_assoc, zeros, zeros, List.replicate_append_replicate,
      Text.ofDigits_append_zeros, value, Decimal.nearest_shift, List.length_replicate]
    congr 2
    omega
  · split
    · rename_i fraction point
      obtain ⟨k, hk⟩ : ∃ k, k = ((ds.length : Int) + d.exponent).toNat := ⟨_, rfl⟩
      have front : Whole (ds.take k) := by
        refine Digits.whole ⟨?_, fun c hc => digits.digit c (List.mem_of_mem_take hc)⟩ pos ?_
        · rw [Ne, List.take_eq_nil_iff]
          exact not_or.mpr ⟨by omega, digits.nonempty⟩
        · rw [← hds, List.head?_take, if_neg (by omega)]
      have back : Digits (ds.drop k) := by
        refine ⟨?_, fun c hc => digits.digit c (List.mem_of_mem_drop hc)⟩
        rw [Ne, List.drop_eq_nil_iff]
        omega
      rw [← hk]
      refine ⟨_, ?_, readsAs_point front back⟩
      dsimp only [Numeral.exact]
      rw [List.take_append_drop, value, List.length_drop]
      congr 2
      omega
    · rename_i fraction point
      have back : Digits (zeros (-(ds.length + d.exponent)).toNat ++ ds) := by
        refine ⟨List.append_ne_nil_of_right_ne_nil _ digits.nonempty, fun c hc => ?_⟩
        exact (List.mem_append.mp hc).elim (isDigit_zeros _ c) (digits.digit c)
      refine ⟨_, ?_, readsAs_point whole_zero back⟩
      dsimp only [Numeral.exact]
      rw [zeros, zeros, Text.ofDigits_zeros_append, Text.ofDigits_zeros_append, value,
        List.length_append, List.length_replicate]
      congr 2
      omega

/-- A numeral with an exponent. A digit alone has no point after it. -/
theorem writes_scientific (pos : d.digits ≠ 0) : Writes d.writeScientific d := by
  obtain ⟨ds, hds⟩ : ∃ ds, ds = text d.digits := ⟨_, rfl⟩
  have digits : Digits ds := hds ▸ digits_text d.digits
  have value : Text.ofDigits ds = d.digits := hds ▸ Text.ofDigits_toDigits d.digits
  have lead : ds.head? ≠ some '0' := hds ▸ head_text pos
  unfold Decimal.writeScientific
  rw [← hds]
  dsimp only
  obtain ⟨c, fraction, rfl⟩ := List.exists_cons_of_ne_nil digits.nonempty
  have front : Whole [c] :=
    ⟨⟨List.cons_ne_nil c [], fun c' hc => digits.digit c' (List.mem_singleton.mp hc ▸ .head _)⟩,
      fun zero => absurd zero lead⟩
  refine ⟨⟨[c], fraction, (c :: fraction).length + d.exponent - 1⟩, ?_, fun rest ends => ?_⟩
  · dsimp only [Numeral.exact]
    rw [List.singleton_append, value, List.length_cons]
    congr 2
    omega
  · have power := readPower_text ((c :: fraction).length + d.exponent - 1) ends
    rw [List.append_assoc, List.append_assoc]
    cases fraction with
    | nil =>
      exact readNumeral_of_parts (readWhole_append front (Stops.of_head rfl _)) rfl power
    | cons c' fraction =>
      have more : ¬ (c :: c' :: fraction).length ≤ 1 := by simp
      have back : Digits (c' :: fraction) :=
        ⟨List.cons_ne_nil _ _, fun x hx => digits.digit x (.tail _ hx)⟩
      rw [if_neg more]
      exact readNumeral_of_parts (readWhole_append front (Stops.of_head rfl _))
        (readDigits_append back (Stops.of_head rfl _)) power

theorem writes_write (pos : d.digits ≠ 0) : Writes (d.write layout) d := by
  unfold Decimal.write
  split
  · exact writes_positional pos
  · exact writes_scientific pos

theorem readMagnitude_eq (cs : List Char) : readMagnitude cs = (readNumeral cs).bind fun p =>
    if p.1.rounded.isFinite then some (p.1.rounded.magnitude, p.2) else none := rfl

theorem readMagnitude_finite {m : Nat} (h : readMagnitude cs = some (m, rest)) :
    m < Double.infiniteMagnitude := by
  rw [readMagnitude_eq, Option.bind_eq_some_iff] at h
  obtain ⟨_, _, h⟩ := h
  split at h
  · cases h
    exact Double.isFinite_iff.mp ‹_›
  · cases h

/-- What is read of a numeral, if anything is. -/
def Numeral.magnitude? (numeral : Numeral) : Option Nat :=
  if numeral.rounded.isFinite then some numeral.rounded.magnitude else none

theorem Numeral.magnitude?_eq_some_iff {numeral : Numeral} {m : Nat} : numeral.magnitude? = some m ↔
    m < Double.infiniteMagnitude ∧ numeral.rounded.magnitude = m := by
  rw [magnitude?]
  split
  · rename_i finite
    rw [Option.some.injEq, iff_and_self]
    rintro rfl
    exact Double.isFinite_iff.mp finite
  · rename_i infinite
    refine iff_of_false nofun ?_
    rintro ⟨finite, rfl⟩
    exact infinite (Double.isFinite_iff.mpr finite)

theorem readsAs_magnitude {numeral : Numeral} (reads : ReadsAs readNumeral cs (some numeral)) :
    ReadsAs readMagnitude cs numeral.magnitude? := by
  intro rest ends
  rw [readMagnitude_eq, reads rest ends, Option.map_some, Option.bind_some, Numeral.magnitude?]
  split <;> rfl

theorem head_of_readNumeral {numeral : Numeral} (h : readNumeral cs = some (numeral, rest)) :
    ∃ c cs', cs = c :: cs' ∧ c.isDigit = true := by
  have read : readWhole cs ≠ none := by
    intro none
    simp [readNumeral, none] at h
  cases cs with
  | nil => exact absurd rfl read
  | cons c cs =>
    refine ⟨c, cs, rfl, ?_⟩
    by_contra other
    have no_zero : ∀ cs', c :: cs = '0' :: cs' → False := by
      rintro _ ⟨⟩
      exact other rfl
    rw [readWhole.eq_2 _ no_zero] at read
    simp [readDigits, other] at read

theorem readNumber_signed (negative : Bool) (start : ∃ c cs', cs = c :: cs' ∧ c.isDigit = true) :
    readNumber ((if negative then ['-'] else []) ++ cs)
      = (readMagnitude cs).map fun p => (Double.ofParts negative p.1, p.2) := by
  cases negative with
  | true => rfl
  | false =>
    have no_sign : ∀ cs', cs = '-' :: cs' → False := by
      rintro cs' rfl
      obtain ⟨_, _, ⟨⟩, digit⟩ := start
      cases digit
    exact readNumber.eq_2 cs no_sign

theorem readNumber_finite (h : readNumber cs = some (n, rest)) : n.isFinite = true := by
  unfold readNumber at h
  split at h <;> obtain ⟨⟨m, _⟩, hm, ⟨⟩⟩ := Option.map_eq_some_iff.mp h
  · exact Double.isFinite_ofParts true (readMagnitude_finite hm)
  · exact Double.isFinite_ofParts false (readMagnitude_finite hm)

theorem writeNumber_of_not_finite (h : n.isFinite = false) :
    writeNumber n = ['n', 'u', 'l', 'l'] := by
  simp [writeNumber, Double.isWhole, h]

/-- A whole number that is written by its digits alone. -/
def Small (n : Double) : Prop := n.isWhole = true ∧ n.wholePart ≤ maxExact

/-- The shortest numeral of the number is read as the number nearest to it. -/
def Accurate (n : Double) : Prop :=
  ∃ numeral, readNumeral (Decimal.write layout (Decimal.shortest layout.tie n.magnitude))
    = some (numeral, []) ∧ numeral.Accurate

instance (n : Double) : Decidable (Small n) := inferInstanceAs (Decidable (_ ∧ _))

instance (n : Double) : Decidable (Accurate n) :=
  match h : readNumeral (Decimal.write layout (Decimal.shortest layout.tie n.magnitude)) with
  | some (numeral, []) =>
    decidable_of_iff (numeral.rounded.magnitude = numeral.exact.nearest)
      ⟨fun same => ⟨numeral, h, same⟩, fun ⟨_, read, same⟩ => by cases h.symm.trans read; exact same⟩
  | none => isFalse fun ⟨_, read, _⟩ => nomatch h.symm.trans read
  | some (_, _ :: _) => isFalse fun ⟨_, read, _⟩ => nomatch h.symm.trans read

theorem small_of_isZero (zero : n.isZero = true) : Small n := by
  obtain ⟨whole, none⟩ := Double.isWhole_of_isZero zero
  exact ⟨whole, none ▸ Nat.zero_le _⟩

/-- The text of a finite number is a sign and a numeral, which is nearest to the number. -/
theorem writeNumber_cases (finite : n.isFinite = true) : ∃ negative cs numeral,
    writeNumber n = (if negative then ['-'] else []) ++ cs
      ∧ n.unsignedZero = Double.ofParts negative n.magnitude
      ∧ numeral.exact.nearest = n.magnitude ∧ ReadsAs readNumeral cs (some numeral)
      ∧ (numeral.Accurate ↔ Small n ∨ Accurate n) := by
  have bound := Double.isFinite_iff.mp finite
  unfold writeNumber
  split
  · rename_i exact_
    have small : Small n := by simpa [Small] using exact_
    have value : Text.ofDigits (text n.wholePart ++ []) = n.wholePart := by
      rw [List.append_nil]
      exact Text.ofDigits_toDigits n.wholePart
    refine ⟨_, _, ⟨text n.wholePart, [], 0⟩, rfl, rfl, ?_, readsAs_whole (whole_text _), ?_⟩
    · rw [Numeral.exact, value]
      exact (Decimal.nearest_natural _).trans (Double.nearestMagnitude_wholePart small.1)
    · have below : n.wholePart < 2 ^ 53 := Nat.lt_of_le_of_lt small.2 (by decide)
      exact iff_of_true (Numeral.accurate_of_small (value.trans_lt below) (Nat.zero_le 22))
        (Or.inl small)
  · rename_i inexact
    have large : ¬ Small n := by simpa [Small] using inexact
    have positive : n.isZero = false := Bool.eq_false_iff.mpr fun zero => large (small_of_isZero zero)
    have near := Decimal.nearest_shortest layout.tie bound
    have digits : (Decimal.shortest layout.tie n.magnitude).digits ≠ 0 := by
      refine Decimal.digits_ne_zero_of_nearest ?_
      rw [near]
      exact fun zero => Bool.eq_false_iff.mp positive (Double.isZero_iff.mpr zero)
    obtain ⟨numeral, same, reads⟩ := writes_write digits
    have read := reads [] ends_nil
    rw [List.append_nil] at read
    rw [Double.write, Double.unsignedZero, positive, Bool.not_false, Bool.and_true]
    refine ⟨_, _, numeral, rfl, rfl, same.trans near, reads, ?_⟩
    constructor
    · exact fun accurate => Or.inr ⟨numeral, read, accurate⟩
    · rintro (small | ⟨numeral', read', accurate⟩)
      · exact absurd small large
      · rw [read] at read'
        cases read'
        exact accurate

theorem head_writeNumber (finite : n.isFinite = true) :
    ∃ c cs, writeNumber n = c :: cs ∧ (c = '-' ∨ c.isDigit = true) := by
  obtain ⟨negative, cs, numeral, written, _, _, reads, _⟩ := writeNumber_cases finite
  obtain ⟨c, cs', start, digit⟩ := head_of_readNumeral (reads [] ends_nil)
  rw [List.append_nil] at start
  rw [written, start]
  cases negative with
  | true => exact ⟨'-', c :: cs', rfl, Or.inl rfl⟩
  | false => exact ⟨c, cs', rfl, Or.inr digit⟩

theorem readsAs_signed {numeral : Numeral} (negative : Bool)
    (reads : ReadsAs readNumeral cs (some numeral)) :
    ReadsAs readNumber ((if negative then ['-'] else []) ++ cs)
      (numeral.magnitude?.map (Double.ofParts negative)) := by
  intro rest ends
  rw [List.append_assoc, readNumber_signed negative (head_of_readNumeral (reads rest ends)),
    readsAs_magnitude reads rest ends, Option.map_map, Option.map_map]
  rfl

/-- What the text of a number is read as. -/
def rereadNumber (n : Double) : Option Double := (readNumber (writeNumber n)).map Prod.fst

theorem rereadNumber_of_readsAs {o : Option Double} (reads : ReadsAs readNumber (writeNumber n) o) :
    rereadNumber n = o := by
  have alone := reads [] ends_nil
  rw [List.append_nil] at alone
  rw [rereadNumber, alone, Option.map_map]
  exact Option.map_id'

theorem readsAs_writeNumber (finite : n.isFinite = true) :
    ReadsAs readNumber (writeNumber n) (rereadNumber n) := by
  obtain ⟨negative, cs, numeral, written, _, _, reads, _⟩ := writeNumber_cases finite
  have signed := readsAs_signed negative reads
  rw [← written] at signed
  rwa [rereadNumber_of_readsAs signed]

theorem ofParts_magnitude_inj {negative : Bool} {m k : Nat} (hm : m < Double.infiniteMagnitude)
    (hk : k < Double.infiniteMagnitude) :
    Double.ofParts negative m = Double.ofParts negative k ↔ m = k := by
  refine ⟨fun same => ?_, congrArg _⟩
  have magnitudes := congrArg Double.magnitude same
  rwa [Double.ofParts_magnitude _ (Double.lt_of_finite hm),
    Double.ofParts_magnitude _ (Double.lt_of_finite hk)] at magnitudes

/-- A finite number comes back from its text, but for the sign of zero, exactly when it is small or has
an accurate numeral. -/
theorem rereadNumber_eq_iff (finite : n.isFinite = true) :
    rereadNumber n = some n.unsignedZero ↔ Small n ∨ Accurate n := by
  obtain ⟨negative, cs, numeral, written, sign, near, reads, accurate⟩ := writeNumber_cases finite
  have signed := readsAs_signed negative reads
  have bound := Double.isFinite_iff.mp finite
  rw [← written] at signed
  rw [rereadNumber_of_readsAs signed, sign, Option.map_eq_some_iff, ← accurate, Numeral.Accurate,
    near]
  constructor
  · rintro ⟨m, found, same⟩
    obtain ⟨finite', rounded⟩ := Numeral.magnitude?_eq_some_iff.mp found
    exact rounded.trans ((ofParts_magnitude_inj finite' bound).mp same)
  · exact fun rounded => ⟨_, Numeral.magnitude?_eq_some_iff.mpr ⟨bound, rounded⟩, rfl⟩

/-- Nor does any other number come back as one that equals it as a number. -/
theorem sound_of_sameNumber {d : Double} (finite : n.isFinite = true)
    (back : rereadNumber n = some d) (same : d.sameNumber n = true) : Small n ∨ Accurate n := by
  have finite' : d.isFinite = true := by
    obtain ⟨_, read, rfl⟩ := Option.map_eq_some_iff.mp back
    exact readNumber_finite read
  rcases (Double.sameNumber_iff finite' finite).mp same with rfl | ⟨_, none⟩
  · by_cases zero : d.isZero = true
    · exact Or.inl (small_of_isZero zero)
    · rw [← rereadNumber_eq_iff finite', back,
        Double.unsignedZero_of_positive (Bool.eq_false_iff.mpr zero)]
  · exact Or.inl (small_of_isZero (Double.isZero_iff.mpr none))

end LiveTree.Json
