import LiveTree.Frame.Field
import LiveTree.Proofs.Json.Rereading

/-!
# Fields of frames

What stands in a field comes back from the text of a frame: an unsigned number as long as a binary64
number keeps it, and any other value in its normal form. Whatever is read from a field is of that
kind.
-/

namespace LiveTree.Frame

variable {d : Double} {n : Nat} {v w x : Value} {key : String}

/-- The unsigned number comes back from the binary64 number nearest to it. -/
def Survives (n : Nat) : Prop := unsigned? (Double.ofNat n) = some n

theorem unsigned?_eq_some_iff : unsigned? d = some n ↔
    d.isWhole = true ∧ (d.negative = false ∨ d.isZero = true) ∧ min d.wholePart maxUnsigned = n := by
  simp [unsigned?, and_assoc]

theorem Survives.finite (h : Survives n) : (Double.ofNat n).isFinite = true :=
  Double.isFinite_of_isWhole (unsigned?_eq_some_iff.mp h).1

theorem survives_maxUnsigned : Survives maxUnsigned := by
  unfold Survives
  decide +kernel

theorem ofNat_negative (n : Nat) : (Double.ofNat n).negative = false :=
  Double.ofParts_negative false
    (Nat.lt_of_le_of_lt (Double.nearestMagnitude_le _ _) (by decide))

theorem survives_of_unsigned? (h : unsigned? d = some n) : Survives n := by
  obtain ⟨whole, _, value⟩ := unsigned?_eq_some_iff.mp h
  rcases Nat.le_total d.wholePart maxUnsigned with small | large
  · rw [Nat.min_eq_left small] at value
    subst value
    have parts := Double.ofNat_wholePart whole
    have bound := Double.lt_of_finite (Double.isFinite_iff.mp (Double.isFinite_of_isWhole whole))
    have same : (Double.ofNat d.wholePart).magnitude = d.magnitude := by
      rw [parts, Double.ofParts_magnitude false bound]
    refine unsigned?_eq_some_iff.mpr ⟨(Double.isWhole_congr same).trans whole,
      Or.inl (ofNat_negative _), ?_⟩
    rw [Double.wholePart_congr same, Nat.min_eq_left small]
  · rw [Nat.min_eq_right large] at value
    exact value ▸ survives_maxUnsigned

theorem normal_writeUnsigned (h : Survives n) : (writeUnsigned n).normal = writeUnsigned n := by
  have sign : Double.ofNat n ≠ Double.negativeZero := by
    intro same
    have plus := ofNat_negative n
    rw [same] at plus
    cases plus
  rw [writeUnsigned, Value.normal, if_pos h.finite, Double.unsignedZero_eq_iff.mpr sign]

/-- The numbers of a frame come back from its text: those that binary64 counts one by one, and those
with an accurate numeral. -/
structure Legible (unsigneds : List Nat) (data : Option Value) : Prop where
  unsigned : ∀ n ∈ unsigneds, n ≤ 2 ^ 53 - 1 ∨ Json.Accurate (Double.ofNat n)
  data : ∀ v, data = some v → Json.Legible v

theorem small_ofNat_iff (survives : Survives n) :
    Json.Small (Double.ofNat n) ↔ n ≤ 2 ^ 53 - 1 := by
  obtain ⟨whole, _, value⟩ := unsigned?_eq_some_iff.mp survives
  have exact_ : Json.maxExact = 2 ^ 53 - 1 := rfl
  have below : maxUnsigned = 2 ^ 64 - 1 := rfl
  rw [Json.Small, and_iff_right whole]
  omega

theorem legible_writeUnsigned_iff (survives : Survives n) :
    Json.Legible (writeUnsigned n) ↔ n ≤ 2 ^ 53 - 1 ∨ Json.Accurate (Double.ofNat n) := by
  rw [writeUnsigned, Json.legible_number_iff survives.finite, small_ofNat_iff survives]

/-- What is read as an unsigned number equals the binary64 number it is written as, but for the
greatest, which also stands for all above it. -/
theorem sameNumber_of_unsigned? (h : unsigned? d = some n) (below : n ≠ maxUnsigned) :
    d.sameNumber (Double.ofNat n) = true := by
  obtain ⟨whole, sign, value⟩ := unsigned?_eq_some_iff.mp h
  obtain rfl : d.wholePart = n := by omega
  have finite := Double.isFinite_of_isWhole whole
  have bound := Double.lt_of_finite (Double.isFinite_iff.mp finite)
  have parts := Double.ofNat_wholePart whole
  have magnitude : (Double.ofNat d.wholePart).magnitude = d.magnitude := by
    rw [parts, Double.ofParts_magnitude false bound]
  rw [Double.sameNumber_iff finite (survives_of_unsigned? h).finite, magnitude]
  rcases sign with positive | zero
  · exact Or.inl (Double.eq_of_parts (positive.trans (ofNat_negative _).symm) magnitude.symm)
  · exact Or.inr ⟨Double.isZero_iff.mp zero, Double.isZero_iff.mp zero⟩

theorem ok_bind {ε α β : Type} (a : α) (f : α → Except ε β) : (Except.ok a >>= f) = f a := rfl

theorem bind_eq_ok {ε α β : Type} {x : Except ε α} {f : α → Except ε β} {b : β} :
    x >>= f = .ok b ↔ ∃ a, x = .ok a ∧ f a = .ok b := by
  cases x with
  | error e => exact ⟨nofun, nofun⟩
  | ok a => exact ⟨fun h => ⟨a, rfl, h⟩, fun ⟨_, rfl, h⟩ => h⟩

theorem mem_of_lookup {α : Type} {a : α} {pairs : List (String × α)}
    (h : pairs.lookup key = some a) : (key, a) ∈ pairs := by
  obtain ⟨before, after, rfl, _⟩ := List.lookup_eq_some_iff.mp h
  exact List.mem_append_right before (.head after)

theorem lookup_mapValues {α β : Type} (f : α → β) (pairs : List (String × α)) :
    (Fields.mapValues f pairs).lookup key = (pairs.lookup key).map f := by
  induction pairs with
  | nil => rfl
  | cons p pairs ih =>
    change List.lookup key ((p.1, f p.2) :: Fields.mapValues f pairs) = _
    rw [List.lookup_cons, List.lookup_cons, ih]
    split <;> rfl

theorem get?_normal {pairs : List (String × Value)} (distinct : (pairs.map Prod.fst).Nodup) :
    (Value.object pairs).normal.get? key = (pairs.lookup key).map Value.normal := by
  rw [Value.normal_object, Fields.settle_of_nodup distinct]
  exact lookup_mapValues Value.normal pairs

theorem get?_reread (key : String) {pairs : List (String × Value)}
    (distinct : (pairs.map Prod.fst).Nodup) (back : Json.reread (.object pairs) = some w)
    (found : pairs.lookup key = some x) : w.get? key = Json.reread x := by
  obtain ⟨fields, rfl, members⟩ := Json.reread_object_eq_some_iff.mp back
  rw [Fields.settle_of_nodup distinct] at members
  rw [Value.get?, members.lookup, found, Option.bind_some]

theorem field_regular (name : Text.index? key = none) (regular : v.Regular)
    (h : v.get? key = some x) : x.Regular ∧ x.depth + 1 ≤ v.depth := by
  cases regular with
  | @object pairs distinct members =>
    have mem := mem_of_lookup h
    have below := Value.depth_object_le_iff.mp (Nat.le_refl (Value.object pairs).depth) _ mem
    exact ⟨members _ mem, Nat.succ_le_succ below⟩
  | array members =>
    rw [Value.get?, name] at h
    cases h
  | _ => cases h

theorem textField_of_get? {s name : String} (h : v.get? name = some (.text s)) :
    textField v name = .ok s := by
  rw [textField, h]
  rfl

theorem unsignedField_eq_ok_iff {name : String} : unsignedField v name = .ok n ↔
    ∃ d, v.get? name = some (.number d) ∧ unsigned? d = some n := by
  unfold unsignedField
  constructor
  · intro h
    split at h
    · rename_i m value
      cases h
      obtain ⟨d, number, found⟩ := Option.bind_eq_some_iff.mp value
      obtain ⟨x, there, number⟩ := Option.bind_eq_some_iff.mp number
      cases x <;> cases number
      exact ⟨d, there, found⟩
    · cases h
  · rintro ⟨d, there, found⟩
    have number : ((v.get? name).bind Value.number?).bind unsigned? = some n := by
      rw [there, ← found]
      rfl
    rw [number]

theorem unsignedField_of_get? {name : String} (h : v.get? name = some (writeUnsigned n))
    (survives : Survives n) : unsignedField v name = .ok n :=
  unsignedField_eq_ok_iff.mpr ⟨_, h, survives⟩

theorem unsignedField_survives {name : String} (h : unsignedField v name = .ok n) : Survives n := by
  obtain ⟨d, _, found⟩ := unsignedField_eq_ok_iff.mp h
  exact survives_of_unsigned? found

/-- An unsigned number that comes back in its field is legible. -/
theorem legible_of_unsignedField {name : String} (read : unsignedField w name = .ok n)
    (field : w.get? name = Json.reread (writeUnsigned n)) : Json.Legible (writeUnsigned n) := by
  obtain ⟨d, found, value⟩ := unsignedField_eq_ok_iff.mp read
  have finite := (survives_of_unsigned? value).finite
  by_cases greatest : n = maxUnsigned
  · rw [greatest]
    exact .number (Or.inr (by decide +kernel))
  · rw [field, writeUnsigned, Json.reread, if_pos finite] at found
    obtain ⟨_, back, ⟨⟩⟩ := Option.map_eq_some_iff.mp found
    exact .number (Json.sound_of_sameNumber finite back (sameNumber_of_unsigned? value greatest))

theorem readFrame_toJson (shallow : v.depth ≤ Json.maxDepth) :
    readFrame v.toJson = .ok w ↔ Json.reread v = some w := by
  rw [readFrame, Json.read?_toJson_eq shallow]
  cases Json.reread v with
  | none => exact iff_of_false nofun nofun
  | some x => simp

theorem readFrame_regular {text : String} (h : readFrame text = .ok v) :
    v.Regular ∧ v.depth ≤ Json.maxDepth := by
  unfold readFrame at h
  split at h
  · rename_i w found
    cases h
    exact Json.regular_of_read? found
  · cases h

end LiveTree.Frame
