import LiveTree.Digest.Basic
import Mathlib.Logic.Function.Basic

/-!
# Texts of digests

Bytes can be told by each of the texts that are made of them: base64, hexadecimal, and the bytes of
a text the other way round. The text of a digest has twenty-eight letters, and no colon is one of
them.
-/

namespace LiveTree

namespace Bytes

theorem ofText_append (s t : String) : ofText (s ++ t) = ofText s ++ ofText t := by
  simp [ofText, String.toByteArray_append]

theorem ofText_injective : Function.Injective ofText := by
  intro s t h
  apply String.toByteArray_inj.mp
  exact ByteArray.ext (Array.toList_inj.mp h)

theorem ofNat_succ (count n : Nat) :
    ofNat (count + 1) n = UInt8.ofNat (n / Nat.pow 256 count) :: ofNat count n := by
  simp [ofNat, List.range_succ]

theorem mod_eq_of_ofNat {count m n : Nat} (h : ofNat count m = ofNat count n) :
    m % Nat.pow 256 count = n % Nat.pow 256 count := by
  induction count with
  | zero => exact (Nat.mod_one m).trans (Nat.mod_one n).symm
  | succ count ih =>
    rw [ofNat_succ, ofNat_succ, List.cons.injEq] at h
    have head : m / Nat.pow 256 count % 256 = n / Nat.pow 256 count % 256 := by
      simpa using congrArg UInt8.toNat h.1
    change m % (Nat.pow 256 count * 256) = n % (Nat.pow 256 count * 256)
    rw [Nat.mod_mul, Nat.mod_mul, head, ih h.2]

theorem hexDigits_injective : Function.Injective hexDigits := by
  have digits : ∀ m < 16, ∀ n < 16, Nat.digitChar m = Nat.digitChar n → m = n := by decide
  intro a b h
  simp only [hexDigits, List.cons.injEq, and_true] at h
  have ha := a.toNat_lt
  have hb := b.toNat_lt
  have high := digits _ (by omega) _ (by omega) h.1
  have low := digits _ (by omega) _ (by omega) h.2
  apply UInt8.toNat_inj.mp
  omega

theorem toHex_injective : Function.Injective toHex := by
  intro as bs h
  induction as generalizing bs with
  | nil =>
    cases bs with
    | nil => rfl
    | cons b bs => cases h
  | cons a as ih =>
    cases bs with
    | nil => cases h
    | cons b bs =>
      obtain ⟨first, rest⟩ := List.append_inj h rfl
      rw [hexDigits_injective first, ih rest]

end Bytes

namespace Base64

theorem letter_mod (n : Nat) : letter (n % 64) = letter n := by
  rw [letter, letter, Nat.mod_mod]

theorem letter_mem (n : Nat) : letter n ∈ alphabet := by
  have all : ∀ m < 64, letter m ∈ alphabet := by decide +kernel
  rw [← letter_mod]
  exact all _ (Nat.mod_lt n (by decide))

theorem letter_ne {c : Char} (h : c ∉ alphabet) (n : Nat) : letter n ≠ c :=
  fun e => h (e ▸ letter_mem n)

theorem letter_ne_pad (n : Nat) : letter n ≠ '=' := letter_ne (by decide +kernel) n

theorem letter_inj {m n : Nat} (hm : m < 64) (hn : n < 64) (h : letter m = letter n) : m = n := by
  have all : ∀ m < 64, ∀ n < 64, letter m = letter n → m = n := by decide +kernel
  exact all m hm n hn h

theorem length_encode (bs : Bytes) : (encode bs).length = 4 * ((bs.length + 2) / 3) := by
  fun_induction encode bs with
  | case1 | case2 | case3 => simp
  | case4 a b c rest ih =>
    simp only [List.length_cons, ih]
    omega

theorem notMem_encode {c : Char} (h : c ∉ alphabet) (pad : c ≠ '=') (bs : Bytes) :
    c ∉ encode bs := by
  have apart : ∀ n, c ≠ letter n := fun n => (letter_ne h n).symm
  fun_induction encode bs with
  | case1 => exact List.not_mem_nil
  | case2 | case3 => simp [apart, pad]
  | case4 a b c rest ih => simp [apart, ih]

section Group
variable {a b : UInt8} {x y : Nat}

theorem first_inj (h : letter (a.toNat / 4) = letter (b.toNat / 4))
    (h' : letter (a.toNat % 4 * 16 + x) = letter (b.toNat % 4 * 16 + y))
    (hx : x < 16) (hy : y < 16) : a = b ∧ x = y := by
  have ha := a.toNat_lt
  have hb := b.toNat_lt
  have high := letter_inj (by omega) (by omega) h
  have low := letter_inj (by omega) (by omega) h'
  refine ⟨UInt8.toNat_inj.mp ?_, ?_⟩ <;> omega

theorem second_inj (h : a.toNat / 16 = b.toNat / 16)
    (h' : letter (a.toNat % 16 * 4 + x) = letter (b.toNat % 16 * 4 + y))
    (hx : x < 4) (hy : y < 4) : a = b ∧ x = y := by
  have low := letter_inj (by omega) (by omega) h'
  refine ⟨UInt8.toNat_inj.mp ?_, ?_⟩ <;> omega

theorem third_inj (h : a.toNat / 64 = b.toNat / 64)
    (h' : letter (a.toNat % 64) = letter (b.toNat % 64)) : a = b := by
  have low := letter_inj (Nat.mod_lt _ (by decide)) (Nat.mod_lt _ (by decide)) h'
  apply UInt8.toNat_inj.mp
  omega

end Group

/-- The letters tell the bytes, and the padding tells how many there are. -/
theorem encode_injective : Function.Injective encode := by
  have sixteenth (a : UInt8) : a.toNat / 16 < 16 := Nat.div_lt_of_lt_mul a.toNat_lt
  have quarter (a : UInt8) : a.toNat / 64 < 4 := Nat.div_lt_of_lt_mul a.toNat_lt
  have pad (n : Nat) : '=' ≠ letter n := (letter_ne_pad n).symm
  intro as
  fun_induction encode as with
  | case1 =>
    intro bs h
    match bs with
    | [] => rfl
    | [_] | [_, _] | _ :: _ :: _ :: _ => cases h
  | case2 a =>
    intro bs h
    match bs with
    | [] => cases h
    | [a'] =>
      simp only [encode, List.cons.injEq, and_true] at h
      rw [(first_inj h.1 h.2 (by decide : 0 < 16) (by decide : 0 < 16)).1]
    | [_, _] | _ :: _ :: _ :: _ => simp [encode, pad] at h
  | case3 a b =>
    intro bs h
    match bs with
    | [] => cases h
    | [a', b'] =>
      simp only [encode, List.cons.injEq, and_true] at h
      obtain ⟨rfl, hb⟩ := first_inj h.1 h.2.1 (sixteenth b) (sixteenth b')
      rw [(second_inj hb h.2.2 (by decide : 0 < 4) (by decide : 0 < 4)).1]
    | [_] | _ :: _ :: _ :: _ => simp [encode, pad, letter_ne_pad] at h
  | case4 a b c rest ih =>
    intro bs h
    match bs with
    | [] => cases h
    | a' :: b' :: c' :: rest' =>
      simp only [encode, List.cons.injEq] at h
      obtain ⟨h1, h2, h3, h4, h⟩ := h
      obtain ⟨rfl, hb⟩ := first_inj h1 h2 (sixteenth b) (sixteenth b')
      obtain ⟨rfl, hc⟩ := second_inj hb h3 (quarter c) (quarter c')
      rw [third_inj hc h4, ih h]
    | [_] | [_, _] => simp [encode, letter_ne_pad] at h

end Base64

namespace Digest

theorem text_injective : Function.Injective text := by
  rintro ⟨as, _⟩ ⟨bs, _⟩ h
  rw [mk.injEq]
  exact Base64.encode_injective (String.ofList_injective h)

theorem toList_text (d : Digest) : d.text.toList = Base64.encode d.bytes := String.toList_ofList

theorem length_text (d : Digest) : d.text.toList.length = 28 := by
  rw [toList_text, Base64.length_encode, d.length_eq]

theorem colon_notMem_text (d : Digest) : ':' ∉ d.text.toList := by
  rw [toList_text]
  exact Base64.notMem_encode (by decide +kernel) (by decide) _

theorem ofBool_eq (b : Bool) :
    ofBool b = ofMessage (Bytes.ofText (if b then "boolean:true" else "boolean:false")) := by
  cases b <;> decide +kernel

end Digest

end LiveTree
