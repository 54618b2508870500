import LiveTree.Proofs.Double.Patterns
import LiveTree.Value.Basic

/-!
# Values in normal form

What the text of a value can say: finite numbers, a zero without sign, and each key of an object once.
`normal` brings a value into this form. A regular value is left as it is, but for the signs of zeros.
-/

namespace LiveTree

namespace Fields

variable {α β : Type} {key : String} {value : α} {pairs : List (String × α)}

/-- Pairs with their values changed. -/
def mapValues (f : α → β) (pairs : List (String × α)) : List (String × β) :=
  pairs.map fun p => (p.1, f p.2)

theorem keys_mapValues (f : α → β) (pairs : List (String × α)) :
    (mapValues f pairs).map Prod.fst = pairs.map Prod.fst := by
  rw [mapValues, List.map_map]
  rfl

theorem put_mapValues (f : α → β) (key : String) (value : α) (pairs : List (String × α)) :
    put key (f value) (mapValues f pairs) = mapValues f (put key value pairs) := by
  induction pairs with
  | nil => rfl
  | cons p pairs ih =>
    obtain ⟨k, v⟩ := p
    change put key (f value) ((k, f v) :: mapValues f pairs) = _
    rw [put, put]
    split
    · rfl
    · rw [ih]
      rfl

theorem mem_put {p : String × α} (h : p ∈ put key value pairs) :
    p = (key, value) ∨ p ∈ pairs := by
  induction pairs with
  | nil => exact Or.inl (List.mem_singleton.mp h)
  | cons q pairs ih =>
    obtain ⟨k, v⟩ := q
    rw [put] at h
    split at h
    · rename_i same
      rcases List.mem_cons.mp h with rfl | h
      · exact Or.inl (same ▸ rfl)
      · exact Or.inr (.tail _ h)
    · rcases List.mem_cons.mp h with rfl | h
      · exact Or.inr (.head _)
      · exact (ih h).imp_right (.tail _)

theorem put_of_new (new : key ∉ pairs.map Prod.fst) :
    put key value pairs = pairs ++ [(key, value)] := by
  induction pairs with
  | nil => rfl
  | cons q pairs ih =>
    obtain ⟨k, v⟩ := q
    rw [List.map_cons, List.mem_cons, not_or] at new
    obtain ⟨other, rest⟩ := new
    rw [put, if_neg (Ne.symm other), ih rest]
    rfl

theorem keys_put_of_old (old : key ∈ pairs.map Prod.fst) :
    (put key value pairs).map Prod.fst = pairs.map Prod.fst := by
  induction pairs with
  | nil => cases old
  | cons q pairs ih =>
    obtain ⟨k, v⟩ := q
    rw [put]
    split
    · rfl
    · rename_i other
      have rest := (List.mem_cons.mp old).resolve_left (Ne.symm other)
      rw [List.map_cons, ih rest]
      rfl

theorem nodup_put (h : (pairs.map Prod.fst).Nodup) : ((put key value pairs).map Prod.fst).Nodup := by
  by_cases old : key ∈ pairs.map Prod.fst
  · rw [keys_put_of_old old]
    exact h
  · rw [put_of_new old, List.map_append]
    refine List.nodup_append.mpr ⟨h, List.nodup_cons.mpr ⟨List.not_mem_nil, List.nodup_nil⟩, ?_⟩
    rintro a ha _ hb rfl
    obtain rfl := List.mem_singleton.mp hb
    exact old ha

/-- A loop that puts one pair after the other. -/
def putAll (fields pairs : List (String × α)) : List (String × α) :=
  pairs.foldl (fun fields p => put p.1 p.2 fields) fields

theorem putAll_mapValues (f : α → β) (fields pairs : List (String × α)) :
    putAll (mapValues f fields) (mapValues f pairs) = mapValues f (putAll fields pairs) := by
  induction pairs generalizing fields with
  | nil => rfl
  | cons p pairs ih =>
    change putAll (put p.1 (f p.2) (mapValues f fields)) (mapValues f pairs) = _
    rw [put_mapValues]
    exact ih _

theorem settle_mapValues (f : α → β) (pairs : List (String × α)) :
    settle (mapValues f pairs) = mapValues f (settle pairs) :=
  putAll_mapValues f [] pairs

theorem nodup_putAll {fields : List (String × α)} (h : (fields.map Prod.fst).Nodup) :
    ((putAll fields pairs).map Prod.fst).Nodup := by
  induction pairs generalizing fields with
  | nil => exact h
  | cons p pairs ih => exact ih (nodup_put h)

theorem nodup_settle (pairs : List (String × α)) : ((settle pairs).map Prod.fst).Nodup :=
  nodup_putAll List.nodup_nil

theorem mem_putAll {fields : List (String × α)} {p : String × α} (h : p ∈ putAll fields pairs) :
    p ∈ fields ∨ p ∈ pairs := by
  induction pairs generalizing fields with
  | nil => exact Or.inl h
  | cons q pairs ih =>
    rcases ih h with h | h
    · exact (mem_put h).elim (fun same => Or.inr (same ▸ .head _)) Or.inl
    · exact Or.inr (.tail _ h)

theorem mem_of_mem_settle {p : String × α} (h : p ∈ settle pairs) : p ∈ pairs :=
  (mem_putAll h).resolve_left List.not_mem_nil

theorem putAll_of_nodup {fields : List (String × α)}
    (h : ((fields ++ pairs).map Prod.fst).Nodup) : putAll fields pairs = fields ++ pairs := by
  induction pairs generalizing fields with
  | nil => exact (List.append_nil _).symm
  | cons p pairs ih =>
    rw [List.append_cons] at h
    have new : p.1 ∉ fields.map Prod.fst := by
      rw [List.append_assoc, List.map_append] at h
      exact fun old => (List.nodup_append.mp h).2.2 _ old _ (.head _) rfl
    change putAll (put p.1 p.2 fields) pairs = _
    rw [put_of_new new, ih h, ← List.append_cons]

theorem settle_of_nodup (h : (pairs.map Prod.fst).Nodup) : settle pairs = pairs :=
  putAll_of_nodup h

end Fields

namespace Double

variable {d : Double}

/-- The number, with the sign of a zero left out. -/
def unsignedZero (d : Double) : Double := ofParts (d.negative && !d.isZero) d.magnitude

theorem unsignedZero_magnitude (d : Double) : d.unsignedZero.magnitude = d.magnitude :=
  ofParts_magnitude _ (Nat.mod_lt _ (by decide))

theorem unsignedZero_finite (d : Double) : d.unsignedZero.isFinite = d.isFinite := by
  rw [isFinite, unsignedZero_magnitude]
  rfl

theorem unsignedZero_of_positive (h : d.isZero = false) : d.unsignedZero = d := by
  rw [unsignedZero, h, Bool.not_false, Bool.and_true]
  exact ofParts_self d

theorem unsignedZero_of_zero (h : d.isZero = true) : d.unsignedZero = zero := by
  rw [unsignedZero, h, isZero_iff.mp h, Bool.not_true, Bool.and_false]
  rfl

def negativeZero : Double := ofParts true 0

/-- Only the negative zero is changed. -/
theorem unsignedZero_eq_iff : d.unsignedZero = d ↔ d ≠ negativeZero := by
  constructor
  · rintro same rfl
    cases same
  · intro other
    by_cases h : d.isZero = true
    · rw [unsignedZero_of_zero h]
      refine (eq_of_parts ?_ (isZero_iff.mp h)).symm
      refine Bool.eq_false_iff.mpr fun negative => other ?_
      exact eq_of_parts negative (isZero_iff.mp h)
    · exact unsignedZero_of_positive (Bool.eq_false_iff.mpr h)

theorem sameNumber_unsignedZero (finite : d.isFinite = true) :
    d.unsignedZero.sameNumber d = true := by
  rw [sameNumber_iff ((unsignedZero_finite d).trans finite) finite, unsignedZero_magnitude]
  by_cases h : d.isZero = true
  · have none := isZero_iff.mp h
    exact Or.inr ⟨none, none⟩
  · exact Or.inl (unsignedZero_of_positive (Bool.eq_false_iff.mpr h))

end Double

namespace Value

/-- Induction over the members of a value, by membership. -/
theorem induction {motive : Value → Prop} (null : motive null) (bool : ∀ b, motive (bool b))
    (number : ∀ n, motive (number n)) (text : ∀ s, motive (text s))
    (array : ∀ items, (∀ v ∈ items, motive v) → motive (array items))
    (object : ∀ pairs : List (String × Value), (∀ p ∈ pairs, motive p.2) → motive (object pairs)) :
    ∀ v, motive v := fun v =>
  v.rec null bool number text array object (fun _ h => nomatch h)
    (fun _ _ hv hvs => List.forall_mem_cons.mpr ⟨hv, hvs⟩) (fun _ h => nomatch h)
    (fun _ _ hp hps => List.forall_mem_cons.mpr ⟨hp, hps⟩) (fun _ _ hv => hv)

mutual

/-- How many containers stand inside one another. -/
def depth : Value → Nat
  | array items => depthOfItems items + 1
  | object pairs => depthOfPairs pairs + 1
  | _ => 0

def depthOfItems : List Value → Nat
  | [] => 0
  | v :: rest => max v.depth (depthOfItems rest)

def depthOfPairs : List (String × Value) → Nat
  | [] => 0
  | (_, v) :: rest => max v.depth (depthOfPairs rest)

end

mutual

/-- The value that is left of a value in its text: null for what is not finite, zeros without sign,
and each key at its first place with its last value. -/
def normal : Value → Value
  | null => null
  | bool b => bool b
  | number n => if n.isFinite then number n.unsignedZero else null
  | text s => text s
  | array items => array (normalItems items)
  | object pairs => object (Fields.settle (normalPairs pairs))

def normalItems : List Value → List Value
  | [] => []
  | v :: rest => v.normal :: normalItems rest

def normalPairs : List (String × Value) → List (String × Value)
  | [] => []
  | (k, v) :: rest => (k, v.normal) :: normalPairs rest

end

/-- Finite numbers, and distinct keys in each object. -/
inductive Regular : Value → Prop where
  | null : Regular null
  | bool (b : Bool) : Regular (bool b)
  | number {n : Double} (finite : n.isFinite = true) : Regular (number n)
  | text (s : String) : Regular (text s)
  | array {items : List Value} (members : ∀ v ∈ items, Regular v) : Regular (array items)
  | object {pairs : List (String × Value)} (distinct : (pairs.map Prod.fst).Nodup)
      (members : ∀ p ∈ pairs, Regular p.2) : Regular (object pairs)

variable {v : Value} {items : List Value} {pairs : List (String × Value)} {limit : Nat}

theorem depthOfItems_le_iff : depthOfItems items ≤ limit ↔ ∀ v ∈ items, v.depth ≤ limit := by
  induction items with
  | nil => simp [depthOfItems]
  | cons v items ih => rw [depthOfItems, Nat.max_le, ih, List.forall_mem_cons]

theorem depthOfPairs_le_iff : depthOfPairs pairs ≤ limit ↔ ∀ p ∈ pairs, p.2.depth ≤ limit := by
  induction pairs with
  | nil => simp [depthOfPairs]
  | cons p pairs ih => rw [depthOfPairs, Nat.max_le, ih, List.forall_mem_cons]

theorem depth_array_le_iff :
    (array items).depth ≤ limit + 1 ↔ ∀ v ∈ items, v.depth ≤ limit := by
  rw [depth, Nat.add_le_add_iff_right, depthOfItems_le_iff]

theorem depth_object_le_iff :
    (object pairs).depth ≤ limit + 1 ↔ ∀ p ∈ pairs, p.2.depth ≤ limit := by
  rw [depth, Nat.add_le_add_iff_right, depthOfPairs_le_iff]

theorem normalItems_eq (items : List Value) : normalItems items = items.map normal := by
  induction items with
  | nil => rfl
  | cons v items ih => rw [normalItems, ih, List.map_cons]

theorem normalPairs_eq (pairs : List (String × Value)) :
    normalPairs pairs = Fields.mapValues normal pairs := by
  induction pairs with
  | nil => rfl
  | cons p pairs ih =>
    rw [normalPairs, ih]
    rfl

theorem normal_array (items : List Value) : (array items).normal = array (items.map normal) := by
  rw [normal, normalItems_eq]

theorem normal_object (pairs : List (String × Value)) :
    (object pairs).normal = object (Fields.mapValues normal (Fields.settle pairs)) := by
  rw [normal, normalPairs_eq, Fields.settle_mapValues]

theorem equalItems_map {same : Double → Double → Bool} {f : Value → Value}
    (h : ∀ v ∈ items, equalBy same (f v) v = true) : equalItems same (items.map f) items = true := by
  induction items with
  | nil => rfl
  | cons v items ih =>
    obtain ⟨hv, hvs⟩ := List.forall_mem_cons.mp h
    rw [List.map_cons, equalItems, hv, ih hvs]
    rfl

theorem equalPairs_map {same : Double → Double → Bool} {f : Value → Value}
    (h : ∀ p ∈ pairs, equalBy same (f p.2) p.2 = true) :
    equalPairs same (Fields.mapValues f pairs) pairs = true := by
  induction pairs with
  | nil => rfl
  | cons p pairs ih =>
    obtain ⟨hp, hps⟩ := List.forall_mem_cons.mp h
    change equalPairs same ((p.1, f p.2) :: Fields.mapValues f pairs) (p :: pairs) = true
    rw [equalPairs, hp, ih hps, beq_self_eq_true]
    rfl

theorem Regular.isNull_normal (h : v.Regular) : v.normal.isNull = v.isNull := by
  cases h with
  | number finite =>
    rw [normal, if_pos finite]
    rfl
  | _ => rfl

/-- A regular value equals its normal form, with numbers compared as numbers. -/
theorem Regular.sameAs_normal (h : Regular v) : v.normal.sameAs v = true := by
  unfold sameAs
  induction h with
  | null => rfl
  | bool b => exact beq_self_eq_true b
  | text s => exact beq_self_eq_true s
  | number finite =>
    rw [normal, if_pos finite]
    exact Double.sameNumber_unsignedZero finite
  | array _ ih =>
    rw [normal_array]
    exact equalItems_map ih
  | object distinct _ ih =>
    rw [normal_object, Fields.settle_of_nodup distinct]
    exact equalPairs_map ih

end Value

end LiveTree
