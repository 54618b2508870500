import LiveTree.Proofs.Json.Rereading
import LiveTree.Proofs.Node.Equality
import LiveTree.Proofs.Node.Upkeep
import Mathlib.Data.List.Forall2

/-!
# Nodes sent as text

A peer builds its node from the text of a value. Its leaves are those of the node that is built from
the value itself, each as a text can say it. So the two are equal, and have one digest, unless a leaf
is a zero with a sign: the text of a zero has none, and nodes tell numbers apart by their patterns.
-/

namespace LiveTree.Node

variable {m n : Node} {children others : Children} {g : Value → Value} {v : Value}

/-- The second node has the leaves of the first, each one changed. -/
structure Shows (g : Value → Value) (m n : Node) : Prop where
  left : Tidy m
  right : Tidy n
  leaves : ∀ names, n.leaf? names = (m.leaf? names).map g

theorem shows_null : Shows g null null := by
  refine ⟨.null, .null, fun names => ?_⟩
  rw [leaf?_null]
  rfl

theorem shows_atom {x : Value} (left : Tidy m) (right : Tidy n) (hm : m.atom? = some x)
    (hn : n.atom? = some (g x)) : Shows g m n := by
  refine ⟨left, right, fun names => ?_⟩
  cases names with
  | nil => exact hn.trans (congrArg (Option.map g) hm).symm
  | cons s rest =>
    have top : m.leaf? [] = some x := hm
    have top' : n.leaf? [] = some (g x) := hn
    have below := leaf?_beyond top (List.cons_ne_nil s rest)
    have below' := leaf?_beyond top' (List.cons_ne_nil s rest)
    rw [List.nil_append] at below below'
    rw [below, below']
    rfl

theorem Shows.isNull_eq (h : Shows g m n) : n.isNull = m.isNull := by
  have none : n = .null ↔ m = .null := by
    constructor
    · rintro rfl
      refine h.left.eq_null fun names => ?_
      have absent := h.leaves names
      rw [leaf?_null] at absent
      exact Option.map_eq_none_iff.mp absent.symm
    · rintro rfl
      refine h.right.eq_null fun names => ?_
      rw [h.leaves, leaf?_null]
      rfl
  rw [Bool.eq_iff_iff, h.left.isNull_iff, h.right.isNull_iff]
  exact none

theorem shows_addChild (sound : children.Sound) (sound' : others.Sound)
    (h : ∀ key, Shows g (childOf children key) (childOf others key)) (added : Shows g m n)
    (key j : String) :
    Shows g (childOf (addChild children (key, m)) j) (childOf (addChild others (key, n)) j) := by
  simp only [childOf, get?_addChild sound, get?_addChild sound', added.isNull_eq]
  split
  · exact added
  · exact h j

variable {entries listed : List (String × Value)}

/-- The same names, with values whose nodes show those of the first. -/
def ShowsEach (g : Value → Value) (entries others : List (String × Value)) : Prop :=
  List.Forall₂ (fun e e' => e.1 = e'.1 ∧ Shows g (ofValue e.2) (ofValue e'.2)) entries others

theorem shows_addAll (sound : children.Sound) (sound' : others.Sound)
    (h : ∀ key, Shows g (childOf children key) (childOf others key))
    (added : ShowsEach g entries listed) (key : String) :
    Shows g (childOf ((Fields.mapValues ofValue entries).foldl addChild children) key)
      (childOf ((Fields.mapValues ofValue listed).foldl addChild others) key) := by
  induction added generalizing children others with
  | nil => exact h key
  | @cons e e' _ _ he _ ih =>
    obtain ⟨name, v⟩ := e
    obtain ⟨_, v'⟩ := e'
    obtain ⟨rfl, shown⟩ := he
    exact ih (sound_addChild sound _) (sound_addChild sound' _)
      (shows_addChild sound sound' h shown name)

theorem tidy_of_mem_mapValues {e : String × Node} (he : e ∈ Fields.mapValues ofValue entries) :
    Tidy e.2 := by
  obtain ⟨x, _, rfl⟩ := List.mem_map.mp he
  exact tidy_ofValue x.2

theorem shows_ofEntries (added : ShowsEach g entries listed) :
    Shows g (ofEntries (Fields.mapValues ofValue entries))
      (ofEntries (Fields.mapValues ofValue listed)) := by
  refine ⟨(family_empty.addAll fun _ => tidy_of_mem_mapValues).tidy,
    (family_empty.addAll fun _ => tidy_of_mem_mapValues).tidy, fun names => ?_⟩
  cases names with
  | nil => rw [ofEntries, ofEntries, leaf?_ofChildren_nil, leaf?_ofChildren_nil]; rfl
  | cons s rest =>
    rw [leaf?_ofEntries_cons fun _ => tidy_of_mem_mapValues,
      leaf?_ofEntries_cons fun _ => tidy_of_mem_mapValues]
    exact (shows_addAll OrderedMap.sound_empty OrderedMap.sound_empty (fun _ => shows_null) added
      s).leaves rest

theorem showsEach_mapValues {f : Value → Value}
    (added : ∀ e ∈ entries, Shows g (ofValue e.2) (ofValue (f e.2))) :
    ShowsEach g entries (Fields.mapValues f entries) :=
  List.forall₂_map_right_iff.mpr (List.forall₂_same.mpr fun e he => ⟨rfl, added e he⟩)

theorem ofItems_eq (items : List Value) : ofItems items = items.map ofValue := by
  induction items with
  | nil => rfl
  | cons v items ih => rw [ofItems, ih, List.map_cons]

theorem indexed_map {α β : Type} (f : α → β) (start : Nat) (xs : List α) :
    Value.indexed start (xs.map f) = Fields.mapValues f (Value.indexed start xs) := by
  induction xs generalizing start with
  | nil => rfl
  | cons x xs ih =>
    rw [List.map_cons, Value.indexed, ih]
    rfl

theorem ofValue_array (items : List Value) :
    ofValue (.array items) = ofEntries (Fields.mapValues ofValue (Value.indexed 0 items)) := by
  rw [ofValue, ofItems_eq, indexed_map]

theorem ofValue_object (pairs : List (String × Value)) :
    ofValue (.object pairs) = ofEntries (Fields.mapValues ofValue pairs) := by
  rw [ofValue, ofPairs_eq]
  rfl

theorem shows_normal (h : v.Regular) : Shows Value.normal (ofValue v) (ofValue v.normal) := by
  induction h with
  | null => exact shows_null
  | bool b | text s => exact shows_atom (tidy_ofValue _) (tidy_ofValue _) rfl rfl
  | number finite =>
    refine shows_atom (tidy_ofValue _) (tidy_ofValue _) rfl ?_
    rw [Value.normal, if_pos finite]
    rfl
  | array members ih =>
    rw [Value.normal_array, ofValue_array, ofValue_array, indexed_map]
    exact shows_ofEntries (showsEach_mapValues fun e he => ih e.2 (mem_of_mem_indexed he))
  | object distinct members ih =>
    rw [Value.normal_object, Fields.settle_of_nodup distinct, ofValue_object, ofValue_object]
    exact shows_ofEntries (showsEach_mapValues ih)

/-- No leaf is a zero with a sign. -/
def NoSignedZero (n : Node) : Prop := ∀ names, n.leaf? names ≠ some (.number Double.negativeZero)

theorem normal_of_atom {x : Value} (h : n.atom? = some x) (h' : m.atom? = some x.normal)
    (other : x ≠ .number Double.negativeZero) : x.normal = x := by
  cases x with
  | null | bool b | text s => rfl
  | array items | object pairs => cases n <;> cases h
  | number d =>
    rw [Value.normal] at h' ⊢
    split at h'
    · have plain : d ≠ Double.negativeZero := fun same => other (same ▸ rfl)
      rw [if_pos ‹_›, Double.unsignedZero_eq_iff.mpr plain]
    -- what is not finite is no leaf of a node from a text
    · cases m <;> cases h'

theorem alike_normal_iff (h : v.Regular) :
    Alike (ofValue v.normal) (ofValue v) ↔ NoSignedZero (ofValue v) := by
  have shown := (shows_normal h).leaves
  constructor
  · intro alike names zero
    have same := shown names
    have finite : Double.negativeZero.isFinite = true := rfl
    rw [alike, zero, Option.map_some, Value.normal, if_pos finite, Option.some.injEq,
      Value.number.injEq] at same
    exact Double.unsignedZero_eq_iff.mp same.symm rfl
  · intro none names
    have seen := shown names
    cases leaf : (ofValue v).leaf? names with
    | none => rw [seen, leaf, Option.map_none]
    | some x =>
      rw [leaf, Option.map_some] at seen
      have other : x ≠ .number Double.negativeZero := fun same => none names (same ▸ leaf)
      rw [seen, normal_of_atom leaf seen other]

/-- When the numbers of a value come back from its text, the node of a peer has the leaves of the node
here, but for the signs of zeros. It equals that node exactly when no leaf is a zero with a sign, and then
has its digest. -/
theorem sent_unless_signed_zero (regular : v.Regular) (legible : Json.Legible v)
    (shallow : v.depth ≤ Json.maxDepth) :
    ∃ w, Json.read? v.toJson = some w
      ∧ (∀ names, (ofValue w).leaf? names = ((ofValue v).leaf? names).map Value.normal)
      ∧ ((ofValue w).sameAs (ofValue v) = true ↔ NoSignedZero (ofValue v))
      ∧ (NoSignedZero (ofValue v) → (ofValue w).hash = (ofValue v).hash) := by
  have there := tidy_ofValue v.normal
  have here := tidy_ofValue v
  refine ⟨v.normal, (Json.read?_toJson_iff shallow).mpr legible, (shows_normal regular).leaves, ?_,
    fun none => ?_⟩
  · exact (there.sameAs_iff here).trans (alike_normal_iff regular)
  · rw [(honest_ofValue v.normal).hash_eq there, (honest_ofValue v).hash_eq here]
    exact there.contentHash_eq here ((alike_normal_iff regular).mpr none)

/-- A number that is not whole, the least positive one, and a zero with a sign beside them. -/
def readings : Value :=
  .object [("rates", .array [.number ⟨0x3fb999999999999a⟩, .number ⟨1⟩]),
    ("drift", .number Double.negativeZero), ("unit", .text "m/s")]

theorem regular_readings : readings.Regular := by
  refine .object (by decide) ?_
  simp only [List.forall_mem_cons]
  refine ⟨.array ?_, .number rfl, .text _, nofun⟩
  simp only [List.forall_mem_cons]
  exact ⟨.number rfl, .number rfl, nofun⟩

theorem legible_readings : Json.Legible readings := by
  refine .of_pairs ?_
  simp only [List.forall_mem_cons]
  refine ⟨.array ?_, .number (by decide +kernel), .text _, nofun⟩
  simp only [List.forall_mem_cons]
  exact ⟨.number (by decide +kernel), .number (by decide +kernel), nofun⟩

theorem readings_sent : readings.Regular ∧ Json.Legible readings ∧ readings.depth ≤ Json.maxDepth
    ∧ ∃ w, Json.read? readings.toJson = some w
      ∧ (∀ names, (ofValue w).leaf? names = ((ofValue readings).leaf? names).map Value.normal)
      ∧ ((ofValue w).sameAs (ofValue readings) = true ↔ NoSignedZero (ofValue readings))
      ∧ (NoSignedZero (ofValue readings) → (ofValue w).hash = (ofValue readings).hash) :=
  ⟨regular_readings, legible_readings, by decide,
    sent_unless_signed_zero regular_readings legible_readings (by decide)⟩

/-- A zero with a sign arrives as another number, with another digest. -/
theorem signed_zero_lost : (Value.number Double.negativeZero).Regular
    ∧ Json.Legible (.number Double.negativeZero)
    ∧ (Value.number Double.negativeZero).depth ≤ Json.maxDepth
    ∧ ∃ w, Json.read? (Value.number Double.negativeZero).toJson = some w
      ∧ (ofValue w).sameAs (ofValue (.number Double.negativeZero)) = false
      ∧ (ofValue w).hash ≠ (ofValue (.number Double.negativeZero)).hash := by
  have legible : Json.Legible (.number Double.negativeZero) := .number (by decide +kernel)
  refine ⟨.number rfl, legible, by decide, .number Double.zero,
    (Json.read?_toJson_iff (by decide)).mpr legible, rfl, ?_⟩
  decide +kernel

end LiveTree.Node
