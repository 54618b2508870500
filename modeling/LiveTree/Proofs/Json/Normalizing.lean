import LiveTree.Proofs.Json.Rereading
import Mathlib.Data.List.Forall2
import Mathlib.Data.List.Induction
import Mathlib.Data.List.Nodup

/-!
# What a text makes of a value

`Normalizes` says, without the writer and the reader, what a text can say in the place of a value:
null for a number that is not finite, a zero without sign, and of the pairs of an object with one key
a single one, at the place of the first and with the value of the last. A value has exactly one such
value, the value's text is read as it, and its own text is the same.
-/

namespace LiveTree

namespace Fields

variable {α : Type} {key : String} {value : α} {pairs fields others : List (String × α)}

/-- Each key of the pairs once, at its first place among them and with its last value. -/
structure Settled (pairs fields : List (String × α)) : Prop where
  keys : fields.map Prod.fst = (pairs.map Prod.fst).eraseDups
  last : ∀ p ∈ fields, pairs.reverse.lookup p.1 = some p.2

theorem settle_concat (pairs : List (String × α)) (p : String × α) :
    settle (pairs ++ [p]) = put p.1 p.2 (settle pairs) :=
  List.foldl_append

theorem mem_put_self (key : String) (value : α) (pairs : List (String × α)) :
    (key, value) ∈ put key value pairs := by
  induction pairs with
  | nil => exact .head _
  | cons p pairs ih =>
    rw [put]
    split
    · rename_i same
      exact same ▸ .head _
    · exact .tail _ ih

theorem eraseDups_concat (keys : List String) (key : String) : (keys ++ [key]).eraseDups
    = if key ∈ keys then keys.eraseDups else keys.eraseDups ++ [key] := by
  rw [List.eraseDups_append]
  split <;> simp [List.removeAll, List.eraseDups_cons, *]

theorem settled_settle (pairs : List (String × α)) : Settled pairs (settle pairs) := by
  -- the last pair is put last, so pairs are taken off at the end
  induction pairs using List.reverseRecOn with
  | nil => exact ⟨rfl, nofun⟩
  | append_singleton pairs p ih =>
    have old : p.1 ∈ (settle pairs).map Prod.fst ↔ p.1 ∈ pairs.map Prod.fst := by
      rw [ih.keys, List.mem_eraseDups]
    rw [settle_concat]
    refine ⟨?_, fun q hq => ?_⟩
    · rw [List.map_append, List.map_singleton, eraseDups_concat, ← ih.keys]
      split
      · exact keys_put_of_old (old.mpr ‹_›)
      · rw [put_of_new (mt old.mp ‹_›), List.map_append]
        rfl
    · rw [List.reverse_concat, List.lookup_cons]
      split
      · rename_i same
        have unique := List.inj_on_of_nodup_map (nodup_put (nodup_settle pairs)) hq
          (mem_put_self p.1 p.2 (settle pairs)) (beq_iff_eq.mp same)
        rw [unique]
      · rename_i other
        rcases mem_put hq with rfl | hq
        · simp at other
        · exact ih.last q hq

theorem eq_of_keys (keys : fields.map Prod.fst = others.map Prod.fst)
    (same : ∀ p ∈ fields, ∀ q ∈ others, p.1 = q.1 → p = q) : fields = others := by
  induction fields generalizing others with
  | nil => exact (List.map_eq_nil_iff.mp keys.symm).symm
  | cons p fields ih =>
    cases others with
    | nil => cases keys
    | cons q others =>
      obtain ⟨first, rest⟩ := List.cons.inj keys
      obtain rfl := same p (.head _) q (.head _) first
      exact congrArg _ (ih rest fun p hp q hq => same p (.tail _ hp) q (.tail _ hq))

/-- The pairs decide what is left of them. -/
theorem settled_iff : Settled pairs fields ↔ fields = settle pairs := by
  refine ⟨fun h => ?_, fun same => same ▸ settled_settle pairs⟩
  have settled := settled_settle pairs
  refine eq_of_keys (h.keys.trans settled.keys.symm) fun p hp q hq key => Prod.ext key ?_
  have value := h.last p hp
  rw [key, settled.last q hq] at value
  exact (Option.some.inj value).symm

end Fields

/-- The whole number that a number stands for, if it stands for one. -/
def Double.integer (d : Double) : Int := if d.negative then -d.wholePart else d.wholePart

namespace Value

/-- The second value is what a text can say in the place of the first. -/
inductive Normalizes : Value → Value → Prop where
  | null : Normalizes null null
  | bool (b : Bool) : Normalizes (bool b) (bool b)
  | text (s : String) : Normalizes (text s) (text s)
  | number {n : Double} (finite : n.isFinite = true) (unsigned : n ≠ Double.negativeZero) :
    Normalizes (number n) (number n)
  | zero : Normalizes (number Double.negativeZero) (number Double.zero)
  | infinite {n : Double} (infinite : n.isFinite = false) : Normalizes (number n) null
  | array {items others : List Value} (members : List.Forall₂ Normalizes items others) :
    Normalizes (array items) (array others)
  | object {pairs fields others : List (String × Value)} (settled : Fields.Settled pairs fields)
    (keys : others.map Prod.fst = fields.map Prod.fst)
    (members : List.Forall₂ Normalizes (fields.map Prod.snd) (others.map Prod.snd)) :
    Normalizes (object pairs) (object others)

variable {v w : Value} {items others : List Value}

theorem forall₂_iff_eq_map {R : Value → Value → Prop} {f : Value → Value}
    (h : ∀ v ∈ items, ∀ w, R v w ↔ w = f v) :
    List.Forall₂ R items others ↔ others = items.map f := by
  induction items generalizing others with
  | nil => exact List.forall₂_nil_left_iff
  | cons v items ih =>
    obtain ⟨hv, hvs⟩ := List.forall_mem_cons.mp h
    rw [List.forall₂_cons_left_iff, List.map_cons]
    constructor
    · rintro ⟨w, ws, first, rest, rfl⟩
      rw [(hv w).mp first, (ih hvs).mp rest]
    · rintro rfl
      exact ⟨_, _, (hv _).mpr rfl, (ih hvs).mpr rfl, rfl⟩

theorem normalizes_number_iff {n : Double} :
    Normalizes (number n) w ↔ w = (number n).normal := by
  rw [normal]
  constructor
  · intro h
    cases h with
    | number finite unsigned => rw [if_pos finite, Double.unsignedZero_eq_iff.mpr unsigned]
    | zero => rfl
    | infinite infinite => rw [infinite]; rfl
  · rintro rfl
    split
    · rename_i finite
      by_cases zero : n = Double.negativeZero
      · rw [zero]
        exact .zero
      · rw [Double.unsignedZero_eq_iff.mpr zero]
        exact .number finite zero
    · rename_i infinite
      exact .infinite (Bool.eq_false_iff.mpr infinite)

theorem normalizes_iff : Normalizes v w ↔ w = v.normal := by
  induction v using induction generalizing w with
  | null => exact ⟨fun h => by cases h; rfl, fun h => h ▸ .null⟩
  | bool b => exact ⟨fun h => by cases h; rfl, fun h => h ▸ .bool b⟩
  | text s => exact ⟨fun h => by cases h; rfl, fun h => h ▸ .text s⟩
  | number n => exact normalizes_number_iff
  | array items ih =>
    have members : ∀ {others : List Value},
        List.Forall₂ Normalizes items others ↔ others = items.map normal :=
      forall₂_iff_eq_map fun v hv _ => ih v hv
    rw [normal_array]
    constructor
    · intro h
      cases h with
      | array h => rw [members.mp h]
    · rintro rfl
      exact .array (members.mpr rfl)
  | object pairs ih =>
    have kept : ∀ v ∈ (Fields.settle pairs).map Prod.snd, ∀ w, Normalizes v w ↔ w = v.normal := by
      intro v hv w
      obtain ⟨p, hp, rfl⟩ := List.mem_map.mp hv
      exact ih p (Fields.mem_of_mem_settle hp)
    have values : (Fields.mapValues normal (Fields.settle pairs)).map Prod.snd
        = ((Fields.settle pairs).map Prod.snd).map normal := by
      simp only [Fields.mapValues, List.map_map, Function.comp_def]
    have members : ∀ {others : List Value},
        List.Forall₂ Normalizes ((Fields.settle pairs).map Prod.snd) others
          ↔ others = ((Fields.settle pairs).map Prod.snd).map normal := forall₂_iff_eq_map kept
    rw [normal_object]
    constructor
    · intro h
      cases h with
      | object settled keys h =>
        obtain rfl := Fields.settled_iff.mp settled
        have whole := List.zip_of_prod keys (members.mp h)
        rw [whole, ← List.zip_of_prod (Fields.keys_mapValues normal _) values]
    · rintro rfl
      exact .object (Fields.settled_settle pairs) (Fields.keys_mapValues normal _)
        (members.mpr values)

end Value

namespace Json

open Value (Normalizes normalizes_iff)

variable {v : Value} {d : Double}

theorem writeNumber_of_zero (h : d.isZero = true) : writeNumber d = ['0'] := by
  obtain ⟨whole, none⟩ := Double.isWhole_of_isZero h
  rw [writeNumber, whole, none, h, Bool.not_true, Bool.and_false]
  rfl

theorem writeNumber_unsignedZero (d : Double) : writeNumber d.unsignedZero = writeNumber d := by
  by_cases zero : d.isZero = true
  · rw [Double.unsignedZero_of_zero zero, writeNumber_of_zero zero]
    exact writeNumber_of_zero rfl
  · rw [Double.unsignedZero_of_positive (Bool.eq_false_iff.mpr zero)]

theorem write_normal (v : Value) : write v.normal = write v := by
  induction v using Value.induction with
  | null | bool b | text s => rfl
  | number n =>
    rw [Value.normal]
    split
    · exact writeNumber_unsignedZero n
    · rename_i infinite
      exact (writeNumber_of_not_finite (Bool.eq_false_iff.mpr infinite)).symm
  | array items ih =>
    have members : (items.map Value.normal).map write = items.map write := by
      rw [List.map_map]
      exact List.map_congr_left ih
    rw [Value.normal_array, write, write, writeItems_eq, writeItems_eq, members]
  | object pairs ih =>
    have settled : Fields.settle (Fields.mapValues Value.normal (Fields.settle pairs))
        = Fields.mapValues Value.normal (Fields.settle pairs) := by
      apply Fields.settle_of_nodup
      rw [Fields.keys_mapValues]
      exact Fields.nodup_settle pairs
    have members : (Fields.mapValues Value.normal (Fields.settle pairs)).map
          (fun p => writeField (p.1, write p.2))
        = (Fields.settle pairs).map fun p => writeField (p.1, write p.2) := by
      rw [Fields.mapValues, List.map_map]
      refine List.map_congr_left fun p hp => ?_
      exact congrArg (fun text => writeField (p.1, text)) (ih p (Fields.mem_of_mem_settle hp))
    rw [Value.normal_object, write_object, write_object, settled, members]

theorem toJson_normal (v : Value) : v.normal.toJson = v.toJson :=
  congrArg String.ofList (write_normal v)

theorem isZero_iff_of_isWhole (whole : d.isWhole = true) : d.isZero = true ↔ d.wholePart = 0 := by
  rw [Double.isZero_iff, ← Double.unitsOf_eq_zero_iff, ← Double.units, Double.units_of_isWhole whole,
    Nat.mul_eq_zero, or_iff_left (Nat.ne_of_gt Double.unitsInOne_pos)]

/-- A whole number up to `2 ^ 53 - 1` is written by its digits. -/
theorem toJson_of_isWhole (whole : d.isWhole = true) (small : d.wholePart ≤ 2 ^ 53 - 1) :
    (Value.number d).toJson = toString d.integer := by
  have sign : (if d.negative && !d.isZero then ['-'] else []) ++ Decimal.text d.wholePart
      = (toString d.integer).toList := by
    have zero := isZero_iff_of_isWhole whole
    rw [Int.toString_eq_repr, Int.repr_eq_if, Double.integer]
    cases negative : d.negative with
    | false => simp [Nat.repr, Decimal.text]
    | true =>
      by_cases none : d.wholePart = 0
      · simp [Nat.repr, Decimal.text, none, zero.mpr none]
      · simp [Nat.repr, Decimal.text, mt zero.mp none, none]
  have exact_ : (d.isWhole && decide (d.wholePart ≤ maxExact)) = true := by
    rw [whole, Bool.true_and]
    exact decide_eq_true small
  change String.ofList (writeNumber d) = _
  rw [writeNumber, if_pos exact_, sign, String.ofList_toList]

/-- A value normalizes to one other value, with the same text, and this is what the text is read as
exactly when the value is legible. Whole numbers are written as integers as long as binary64 counts one
by one, and these come back; another finite number comes back exactly when its numeral is accurate. -/
theorem normalized_by_text (v : Value) (d : Double) :
    (∃! w, Normalizes v w)
    ∧ (∀ w, Normalizes v w → w.toJson = v.toJson
      ∧ (v.depth ≤ maxDepth → (read? v.toJson = some w ↔ Legible v)))
    ∧ (d.isWhole = true → d.wholePart ≤ 2 ^ 53 - 1 → (Value.number d).toJson = toString d.integer)
    ∧ (d.isFinite = true → d ≠ Double.negativeZero →
      (read? (Value.number d).toJson = some (.number d) ↔
        (d.isWhole = true ∧ d.wholePart ≤ 2 ^ 53 - 1) ∨ Accurate d)) := by
  refine ⟨⟨v.normal, normalizes_iff.mpr rfl, fun w => normalizes_iff.mp⟩, fun w h => ?_,
    toJson_of_isWhole, fun finite unsigned => ?_⟩
  · rw [normalizes_iff.mp h, toJson_normal]
    exact ⟨rfl, read?_toJson_iff⟩
  · have back := (read?_toJson_iff (v := .number d) (Nat.zero_le _)).trans
      (legible_number_iff finite)
    rwa [Value.normal, if_pos finite, Double.unsignedZero_eq_iff.mpr unsigned] at back

/-- A key that stands twice, numbers that no text can say, and the last whole number that is counted
before one that is not. -/
def ledger : Value :=
  .object [("b\n", .number (Double.infinity true)), ("a", .array [.number Double.negativeZero,
    .number ⟨0xc33fffffffffffff⟩, .number ⟨0x4340000000000000⟩, .number ⟨1⟩]),
    ("b\n", .number Double.nan)]

theorem legible_ledger : Legible ledger := by
  refine .of_pairs ?_
  simp only [List.forall_mem_cons]
  refine ⟨.infinite rfl, .array ?_, .infinite rfl, nofun⟩
  simp only [List.forall_mem_cons]
  exact ⟨.number (by decide +kernel), .number (by decide +kernel), .number (by decide +kernel),
    .number (by decide +kernel), nofun⟩

theorem ledger_normalized : ledger.depth ≤ maxDepth
    ∧ Legible ledger
    ∧ Normalizes ledger (.object [("b\n", .null), ("a", .array [.number Double.zero,
      .number ⟨0xc33fffffffffffff⟩, .number ⟨0x4340000000000000⟩, .number ⟨1⟩])])
    ∧ ledger.toJson
      = "\x7b\"b\\n\":null,\"a\":[0,-9007199254740991,9007199254740992.0,5e-324]\x7d"
    ∧ read? ledger.toJson = some (.object [("b\n", .null), ("a", .array [.number Double.zero,
      .number ⟨0xc33fffffffffffff⟩, .number ⟨0x4340000000000000⟩, .number ⟨1⟩])]) := by
  have normal : Normalizes ledger (.object [("b\n", .null), ("a", .array [.number Double.zero,
      .number ⟨0xc33fffffffffffff⟩, .number ⟨0x4340000000000000⟩, .number ⟨1⟩])]) :=
    normalizes_iff.mpr rfl
  have shallow : ledger.depth ≤ maxDepth := by decide
  obtain ⟨_, reads, _, _⟩ := normalized_by_text ledger Double.zero
  exact ⟨shallow, legible_ledger, normal, by decide +kernel,
    ((reads _ normal).2 shallow).mpr legible_ledger⟩

/-- The text of `2 ^ 70` is read as the number before it. -/
theorem power_of_two_lost :
    Normalizes (.number ⟨0x4450000000000000⟩) (.number ⟨0x4450000000000000⟩)
    ∧ (Value.number ⟨0x4450000000000000⟩).depth ≤ maxDepth
    ∧ (Value.number ⟨0x4450000000000000⟩).toJson = "1.1805916207174113e+21"
    ∧ read? (Value.number ⟨0x4450000000000000⟩).toJson = some (.number ⟨0x444fffffffffffff⟩) := by
  have text : (Value.number ⟨0x4450000000000000⟩).toJson = "1.1805916207174113e+21" := by
    decide +kernel
  refine ⟨.number rfl (by decide), by decide, text, ?_⟩
  have number : readNumber "1.1805916207174113e+21".toList = some (⟨0x444fffffffffffff⟩, []) := by
    decide +kernel
  rw [text, read?_eq_some_iff]
  refine ⟨[], ?_, rfl⟩
  have head : '1' = '-' ∨ '1'.isDigit = true := Or.inr rfl
  exact (readValue_number head maxDepth _).trans (congrArg (Option.map _) number)

end Json

end LiveTree
