import LiveTree.Proofs.Digest.Text
import LiveTree.PushKey
import Mathlib.Tactic.Ring

/-!
# Digits and letters

Digits of one length stand for numbers, and compare as these do. The letters of the digits are single
bytes, which ascend with them: so texts of one length compare as the numbers in them.
-/

namespace LiveTree.PushKey

/-- The number that digits stand for, the heaviest first. -/
def number (digits : List (Fin 64)) : Nat := digits.foldl (fun n d => 64 * n + d.val) 0

theorem foldl_number (digits : List (Fin 64)) (n : Nat) :
    digits.foldl (fun n d => 64 * n + d.val) n = n * 64 ^ digits.length + number digits := by
  induction digits generalizing n with
  | nil => simp [number]
  | cons d rest ih =>
    rw [number, List.foldl_cons, List.foldl_cons, ih, ih (64 * 0 + d.val), List.length_cons]
    ring

theorem number_cons (d : Fin 64) (rest : List (Fin 64)) :
    number (d :: rest) = d.val * 64 ^ rest.length + number rest := by
  rw [number, List.foldl_cons, foldl_number, Nat.mul_zero, Nat.zero_add]

theorem number_append (front back : List (Fin 64)) :
    number (front ++ back) = number front * 64 ^ back.length + number back := by
  rw [number, List.foldl_append, foldl_number]
  rfl

theorem number_concat (front : List (Fin 64)) (d : Fin 64) :
    number (front ++ [d]) = 64 * number front + d.val := by
  rw [number, List.foldl_append]
  rfl

theorem number_lt (digits : List (Fin 64)) : number digits < 64 ^ digits.length := by
  induction digits with
  | nil => exact Nat.one_pos
  | cons d rest ih =>
    have bound : d.val * 64 ^ rest.length ≤ 63 * 64 ^ rest.length :=
      Nat.mul_le_mul_right _ (Nat.le_of_lt_succ d.isLt)
    rw [number_cons, List.length_cons, Nat.pow_succ]
    omega

theorem number_timeDigits {time : Nat} (h : time < 64 ^ timeLetters) :
    number (timeDigits time) = time := by
  have digits : ∀ count, number ((List.range count).reverse.map fun i =>
      Fin.ofNat 64 (time / Nat.pow 64 i)) = time % 64 ^ count := by
    intro count
    induction count with
    | zero => exact (Nat.mod_one time).symm
    | succ count ih =>
      rw [List.range_succ, List.reverse_append, List.reverse_singleton, List.singleton_append,
        List.map_cons, number_cons, ih, Nat.mod_pow_succ]
      simp only [List.length_map, List.length_reverse, List.length_range, Fin.ofNat, Nat.pow_eq]
      ring
  rw [timeDigits, digits, Nat.mod_eq_of_lt h]

theorem length_timeDigits (time : Nat) : (timeDigits time).length = timeLetters := by
  simp [timeDigits]

theorem length_increment (digits : List (Fin 64)) :
    (increment digits).1.length = digits.length := by
  induction digits with
  | nil => rfl
  | cons d rest ih =>
    rw [increment]
    split
    · rfl
    · exact congrArg Nat.succ ih

/-- Unless all digits wrap around, the number goes up by one. -/
theorem number_increment {digits : List (Fin 64)} (kept : (increment digits).2 = false) :
    number (increment digits).1.reverse = number digits.reverse + 1 := by
  induction digits with
  | nil => cases kept
  | cons d rest ih =>
    rw [increment] at kept ⊢
    by_cases low : d.val < 63
    · have next : (d + 1).val = d.val + 1 := Nat.mod_eq_of_lt (Nat.succ_lt_succ low)
      rw [if_pos low, List.reverse_cons, List.reverse_cons, number_concat, number_concat, next]
      rfl
    · rw [if_neg low] at kept ⊢
      rw [List.reverse_cons, List.reverse_cons, number_concat, number_concat, ih kept]
      have full := d.isLt
      change 64 * (number rest.reverse + 1) + 0 = _
      omega

theorem idxOf?_letter (d : Fin 64) : alphabet.idxOf? (letter d) = some d.val := by
  revert d
  decide

theorem letter_mem_alphabet (d : Fin 64) : letter d ∈ alphabet := by
  revert d
  decide

/-- The byte of a letter. -/
def letterByte (d : Fin 64) : UInt8 := UInt8.ofNat (letter d).toNat

theorem letterByte_lt_iff (a b : Fin 64) : letterByte a < letterByte b ↔ a < b := by
  revert a b
  decide +kernel

theorem ofText_letter (d : Fin 64) : Bytes.ofText (String.ofList [letter d]) = [letterByte d] := by
  revert d
  decide +kernel

/-- The text of digits. -/
def text (digits : List (Fin 64)) : String := String.ofList (digits.map letter)

theorem ofText_text (digits : List (Fin 64)) :
    Bytes.ofText (text digits) = digits.map letterByte := by
  induction digits with
  | nil => rfl
  | cons d rest ih =>
    have parts : text (d :: rest) = String.ofList [letter d] ++ text rest :=
      @String.ofList_append [letter d] (rest.map letter)
    rw [parts, Bytes.ofText_append, ofText_letter, ih]
    rfl

/-- Texts of one length compare as the numbers in them. -/
theorem text_lt {a b : List (Fin 64)} (length : a.length = b.length) (h : number a < number b) :
    Bytes.ofText (text a) < Bytes.ofText (text b) := by
  rw [ofText_text, ofText_text]
  induction a generalizing b with
  | nil =>
    cases b with
    | nil => exact absurd h (Nat.lt_irrefl _)
    | cons _ _ => cases length
  | cons x rest ih =>
    cases b with
    | nil => cases length
    | cons y rest' =>
      have same : rest.length = rest'.length := Nat.succ.inj length
      rw [number_cons, number_cons, same] at h
      have below := number_lt rest'
      apply List.cons_lt_cons_iff.mpr
      rcases Nat.lt_trichotomy x.val y.val with lt | eq | gt
      · exact .inl ((letterByte_lt_iff x y).mpr lt)
      · have eq : x = y := Fin.ext eq
        refine .inr ⟨congrArg letterByte eq, ih same ?_⟩
        rw [eq] at h
        exact Nat.lt_of_add_lt_add_left h
      · -- a heavier first digit outweighs all that follow
        have heavier : (y.val + 1) * 64 ^ rest'.length ≤ x.val * 64 ^ rest'.length :=
          Nat.mul_le_mul_right _ gt
        rw [Nat.add_mul, Nat.one_mul] at heavier
        omega

end LiveTree.PushKey
