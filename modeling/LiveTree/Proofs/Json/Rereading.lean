import LiveTree.Proofs.Json.Documents
import Mathlib.Data.List.Forall2

/-!
# Values read back

`reread` is what the text of a value is read as, as long as its containers are not nested too deep. Only
numbers can be lost: one with a numeral that is not accurate comes back as another number, or makes the
whole text unreadable. The rest is the normal form of the value, and so the text is read as that exactly
when all its numbers come back.
-/

namespace LiveTree.Json

variable {depth : Nat} {v : Value}

theorem writeItems_eq (items : List Value) : writeItems items = items.map write := by
  induction items with
  | nil => rfl
  | cons v items ih => rw [writeItems, ih, List.map_cons]

theorem writePairs_eq (pairs : List (String × Value)) :
    writePairs pairs = Fields.mapValues write pairs := by
  induction pairs with
  | nil => rfl
  | cons p pairs ih =>
    rw [writePairs, ih]
    rfl

theorem write_object (pairs : List (String × Value)) : write (.object pairs)
    = '\x7b' :: separated ((Fields.settle pairs).map fun p => writeField (p.1, write p.2))
      ++ ['\x7d'] := by
  rw [write, writePairs_eq, Fields.settle_mapValues, Fields.mapValues, List.map_map]
  rfl

mutual

/-- What the text of a value is read as. -/
def reread : Value → Option Value
  | .null => some .null
  | .bool b => some (.bool b)
  | .number n => if n.isFinite then (rereadNumber n).map .number else some .null
  | .text s => some (.text s)
  | .array items => ((rereadItems items).mapM id).map .array
  | .object pairs => ((Fields.settle (rereadPairs pairs)).mapM keyed).map .object

def rereadItems : List Value → List (Option Value)
  | [] => []
  | v :: rest => reread v :: rereadItems rest

def rereadPairs : List (String × Value) → List (String × Option Value)
  | [] => []
  | (k, v) :: rest => (k, reread v) :: rereadPairs rest

end

theorem rereadItems_eq (items : List Value) : rereadItems items = items.map reread := by
  induction items with
  | nil => rfl
  | cons v items ih => rw [rereadItems, ih, List.map_cons]

theorem rereadPairs_eq (pairs : List (String × Value)) :
    rereadPairs pairs = Fields.mapValues reread pairs := by
  induction pairs with
  | nil => rfl
  | cons p pairs ih =>
    rw [rereadPairs, ih]
    rfl

theorem reread_array (items : List Value) :
    reread (.array items) = (items.mapM reread).map .array := by
  rw [reread, rereadItems_eq, List.mapM_map, Function.id_comp]

theorem reread_object (pairs : List (String × Value)) : reread (.object pairs)
    = ((Fields.mapValues reread (Fields.settle pairs)).mapM keyed).map .object := by
  rw [reread, rereadPairs_eq, Fields.settle_mapValues]

theorem mapM_eq_some_iff {α β : Type} {f : α → Option β} {xs : List α} {ys : List β} :
    xs.mapM f = some ys ↔ List.Forall₂ (fun x y => f x = some y) xs ys := by
  induction xs generalizing ys with
  | nil =>
    rw [List.mapM_nil, List.forall₂_nil_left_iff]
    exact Option.some_inj.trans eq_comm
  | cons x xs ih =>
    rw [List.mapM_cons, List.forall₂_cons_left_iff, Option.bind_eq_bind, Option.bind_eq_some_iff]
    refine exists_congr fun y => ?_
    rw [Option.bind_eq_bind, Option.bind_eq_some_iff]
    constructor
    · rintro ⟨first, ys, others, ⟨⟩⟩
      exact ⟨ys, first, ih.mp others, rfl⟩
    · rintro ⟨ys, first, others, rfl⟩
      exact ⟨first, ys, ih.mpr others, rfl⟩

theorem mapM_eq_some_map_iff {α β : Type} {f : α → Option β} {g : α → β} {xs : List α} :
    xs.mapM f = some (xs.map g) ↔ ∀ x ∈ xs, f x = some (g x) := by
  rw [mapM_eq_some_iff, List.forall₂_map_right_iff, List.forall₂_same]

/-- The same keys, with what their values are read as. -/
def RereadsEach (pairs fields : List (String × Value)) : Prop :=
  List.Forall₂ (fun p q => p.1 = q.1 ∧ reread p.2 = some q.2) pairs fields

theorem keyed_eq_some_iff {p q : String × Value} :
    keyed (p.1, reread p.2) = some q ↔ p.1 = q.1 ∧ reread p.2 = some q.2 := by
  rw [keyed, Option.map_eq_some_iff]
  constructor
  · rintro ⟨v, found, rfl⟩
    exact ⟨rfl, found⟩
  · rintro ⟨key, found⟩
    exact ⟨q.2, found, Prod.ext key rfl⟩

theorem rereadsEach_iff {pairs fields : List (String × Value)} :
    (Fields.mapValues reread pairs).mapM keyed = some fields ↔ RereadsEach pairs fields := by
  rw [Fields.mapValues, List.mapM_map, mapM_eq_some_iff]
  simp only [Function.comp_apply, keyed_eq_some_iff]
  rfl

theorem reread_array_eq_some_iff {items : List Value} {w : Value} :
    reread (.array items) = some w ↔ ∃ others, w = .array others
      ∧ List.Forall₂ (fun v w => reread v = some w) items others := by
  rw [reread_array, Option.map_eq_some_iff]
  exact exists_congr fun _ => and_comm.trans (and_congr eq_comm mapM_eq_some_iff)

theorem reread_object_eq_some_iff {pairs : List (String × Value)} {w : Value} :
    reread (.object pairs) = some w ↔ ∃ fields, w = .object fields
      ∧ RereadsEach (Fields.settle pairs) fields := by
  rw [reread_object, Option.map_eq_some_iff]
  exact exists_congr fun _ => and_comm.trans (and_congr eq_comm rereadsEach_iff)

section Each

variable {pairs fields : List (String × Value)}

theorem RereadsEach.keys (h : RereadsEach pairs fields) :
    fields.map Prod.fst = pairs.map Prod.fst := by
  induction h with
  | nil => rfl
  | cons first _ ih => rw [List.map_cons, List.map_cons, ih, first.1]

theorem RereadsEach.lookup (h : RereadsEach pairs fields) (key : String) :
    fields.lookup key = (pairs.lookup key).bind reread := by
  induction h with
  | nil => rfl
  | cons first _ ih =>
    rw [List.lookup_cons, List.lookup_cons, ih, first.1]
    split
    · exact first.2.symm
    · rfl

end Each

theorem readValue_null (rest : List Char) :
    readValue depth ('n' :: 'u' :: 'l' :: 'l' :: rest) = some (.null, rest) :=
  readValue_scalar rfl (by decide) (by decide) depth _

theorem readValue_writeNumber {n : Double} (finite : n.isFinite = true) :
    ReadsAs (readValue depth) (writeNumber n) ((rereadNumber n).map .number) := by
  intro rest ends
  obtain ⟨c, cs, start, head⟩ := head_writeNumber finite
  have number := readsAs_writeNumber finite rest ends
  rw [start, List.cons_append] at number ⊢
  rw [readValue_number head, number, Option.map_map, Option.map_map]
  rfl

theorem readValue_text (s : String) : ReadsAs (readValue depth) (writeText s) (some (.text s)) := by
  intro rest ends
  obtain ⟨cs, quoted, read⟩ := readText_of_writeText s rest
  rw [quoted, readValue_scalar rfl (by decide) (by decide)]
  change (readText _ _).map _ = _
  rw [read, Option.map_some]
  dsimp only
  rw [String.ofList_toList]
  rfl

theorem readValue_write (shallow : v.depth ≤ depth) :
    ReadsAs (readValue depth) (write v) (reread v) := by
  induction v using Value.induction generalizing depth with
  | null => exact fun rest _ => readValue_null rest
  | bool b =>
    cases b
    all_goals exact fun rest _ => readValue_scalar rfl (by decide) (by decide) depth _
  | text s => exact readValue_text s
  | number n =>
    rw [reread]
    split
    · exact readValue_writeNumber ‹_›
    · rw [write, writeNumber_of_not_finite (Bool.eq_false_iff.mpr ‹_›)]
      exact fun rest _ => readValue_null rest
  | array items ih =>
    obtain ⟨depth, rfl⟩ := Nat.exists_eq_add_of_le' (Nat.le_trans (Nat.le_add_left 1 _) shallow)
    intro rest ends
    rw [write, List.append_assoc, List.cons_append, readValue_array, writeItems_eq, reread_array,
      Option.map_map]
    refine readArray_separated (fun v _ => opens_write v) (fun v hv => ?_) rest
    exact ih v hv (Value.depth_array_le_iff.mp shallow v hv)
  | object pairs ih =>
    obtain ⟨depth, rfl⟩ := Nat.exists_eq_add_of_le' (Nat.le_trans (Nat.le_add_left 1 _) shallow)
    have reads : ∀ p ∈ Fields.settle pairs, ReadsAs (readValue depth) (write p.2) (reread p.2) :=
      fun p hp => by
        have old := Fields.mem_of_mem_settle hp
        exact ih p old (Value.depth_object_le_iff.mp shallow p old)
    intro rest ends
    rw [write_object, List.append_assoc, List.cons_append, readValue_object, reread_object,
      List.singleton_append, readObject_separated reads rest, Option.map_map]
    refine Option.map_congr fun fields found => ?_
    have distinct : (fields.map Prod.fst).Nodup := by
      rw [(rereadsEach_iff.mp found).keys]
      exact Fields.nodup_settle pairs
    rw [Function.comp_apply, Fields.settle_of_nodup distinct]

/-- The whole text is read, or none of it. -/
theorem read?_toJson_eq (shallow : v.depth ≤ maxDepth) : read? v.toJson = reread v := by
  have read := readValue_write shallow [] ends_nil
  rw [List.append_nil] at read
  rw [read?, Value.toJson, String.toList_ofList, read]
  cases reread v <;> rfl

/-- Every number of the value comes back: it is small, or it has an accurate numeral. -/
inductive Legible : Value → Prop where
  | null : Legible .null
  | bool (b : Bool) : Legible (.bool b)
  | text (s : String) : Legible (.text s)
  | number {n : Double} (sound : Small n ∨ Accurate n) : Legible (.number n)
  | infinite {n : Double} (infinite : n.isFinite = false) : Legible (.number n)
  | array {items : List Value} (members : ∀ v ∈ items, Legible v) : Legible (.array items)
  | object {pairs : List (String × Value)} (members : ∀ p ∈ Fields.settle pairs, Legible p.2) :
    Legible (.object pairs)

theorem Legible.of_pairs {pairs : List (String × Value)} (members : ∀ p ∈ pairs, Legible p.2) :
    Legible (.object pairs) :=
  .object fun p hp => members p (Fields.mem_of_mem_settle hp)

theorem legible_number_iff {n : Double} (finite : n.isFinite = true) :
    Legible (.number n) ↔ Small n ∨ Accurate n := by
  refine ⟨fun h => ?_, .number⟩
  cases h with
  | number sound => exact sound
  | infinite infinite => cases finite.symm.trans infinite

theorem legible_array_iff {items : List Value} :
    Legible (.array items) ↔ ∀ v ∈ items, Legible v := by
  refine ⟨fun h => ?_, .array⟩
  cases h
  assumption

theorem legible_object_iff {pairs : List (String × Value)} :
    Legible (.object pairs) ↔ ∀ p ∈ Fields.settle pairs, Legible p.2 := by
  refine ⟨fun h => ?_, .object⟩
  cases h
  assumption

theorem reread_eq_normal_iff : reread v = some v.normal ↔ Legible v := by
  induction v using Value.induction with
  | null => exact iff_of_true rfl .null
  | bool b => exact iff_of_true rfl (.bool b)
  | text s => exact iff_of_true rfl (.text s)
  | number n =>
    rw [reread, Value.normal]
    split
    · rename_i finite
      rw [legible_number_iff finite, ← rereadNumber_eq_iff finite]
      exact (Option.map_injective fun _ _ => Value.number.inj).eq_iff' rfl
    · exact iff_of_true rfl (.infinite (Bool.eq_false_iff.mpr ‹_›))
  | array items ih =>
    rw [reread_array, Value.normal_array, legible_array_iff, ← forall₂_congr ih,
      ← mapM_eq_some_map_iff]
    exact (Option.map_injective fun _ _ => Value.array.inj).eq_iff' rfl
  | object pairs ih =>
    have kept : ∀ p ∈ Fields.settle pairs, keyed (p.1, reread p.2) = some (p.1, p.2.normal)
        ↔ Legible p.2 := fun p hp => by
      rw [← ih p (Fields.mem_of_mem_settle hp)]
      exact (Option.map_injective (Prod.mk_right_injective p.1)).eq_iff' rfl
    rw [reread_object, Value.normal_object, legible_object_iff, ← forall₂_congr kept,
      ← mapM_eq_some_map_iff, Fields.mapValues, List.mapM_map]
    exact (Option.map_injective fun _ _ => Value.object.inj).eq_iff' rfl

/-- The text of a value is read as its normal form exactly when its numbers come back. -/
theorem read?_toJson_iff (shallow : v.depth ≤ maxDepth) :
    read? v.toJson = some v.normal ↔ Legible v := by
  rw [read?_toJson_eq shallow]
  exact reread_eq_normal_iff

variable {w : Value}

theorem legible_of_equalItems {items others : List Value}
    (back : List.Forall₂ (fun v w => reread v = some w) items others)
    (same : Value.equalItems Double.sameNumber others items = true)
    (members : ∀ v ∈ items, ∀ w, reread v = some w → w.sameAs v = true → Legible v) :
    ∀ v ∈ items, Legible v := by
  induction back with
  | nil => exact nofun
  | cons first _ ih =>
    obtain ⟨hv, hvs⟩ := List.forall_mem_cons.mp members
    obtain ⟨same, alike⟩ := Bool.and_eq_true_iff.mp same
    exact List.forall_mem_cons.mpr ⟨hv _ first same, ih alike hvs⟩

theorem legible_of_equalPairs {pairs fields : List (String × Value)}
    (back : RereadsEach pairs fields)
    (same : Value.equalPairs Double.sameNumber fields pairs = true)
    (members : ∀ p ∈ pairs, ∀ w, reread p.2 = some w → w.sameAs p.2 = true → Legible p.2) :
    ∀ p ∈ pairs, Legible p.2 := by
  induction back with
  | nil => exact nofun
  | cons first _ ih =>
    obtain ⟨hp, hps⟩ := List.forall_mem_cons.mp members
    obtain ⟨both, alike⟩ := Bool.and_eq_true_iff.mp same
    exact List.forall_mem_cons.mpr
      ⟨hp _ first.2 (Bool.and_eq_true_iff.mp both).2, ih alike hps⟩

/-- What comes back as a value that equals it as numbers go comes back in its normal form. -/
theorem legible_of_sameAs (regular : v.Regular) (back : reread v = some w)
    (same : w.sameAs v = true) : Legible v := by
  induction regular generalizing w with
  | null => exact .null
  | bool b => exact .bool b
  | text s => exact .text s
  | number finite =>
    rw [reread, if_pos finite] at back
    obtain ⟨d, number, rfl⟩ := Option.map_eq_some_iff.mp back
    exact .number (sound_of_sameNumber finite number same)
  | array _ ih =>
    obtain ⟨others, rfl, members⟩ := reread_array_eq_some_iff.mp back
    exact .array (legible_of_equalItems members same fun v hv w => ih v hv)
  | object distinct _ ih =>
    obtain ⟨fields, rfl, members⟩ := reread_object_eq_some_iff.mp back
    rw [Fields.settle_of_nodup distinct] at members
    exact .of_pairs (legible_of_equalPairs members same fun p hp w => ih p hp)

end LiveTree.Json
