import LiveTree.Proofs.Cache.Digests
import LiveTree.Proofs.Cbor.RoundTrip

/-!
# Snapshots

A snapshot is the value of the whole tree, and the tree is built anew from it. It says no less than
the tree did: a container that is written as an array has the positions for names, and every number
comes back with all its bits.
-/

namespace LiveTree

namespace Node

variable {n : Node} {names : List String}

theorem isSequence_iff {α : Type} {pairs : List (String × α)} {start : Nat} :
    isSequence start pairs = true ↔
      pairs.map Prod.fst = (List.range' start pairs.length).map toString := by
  induction pairs generalizing start with
  | nil => exact iff_of_true rfl rfl
  | cons p pairs ih =>
    obtain ⟨k, v⟩ := p
    rw [isSequence, Bool.and_eq_true, beq_iff_eq, ih, List.length_cons, List.range'_succ,
      List.map_cons, List.map_cons, List.cons.injEq]
    rfl

/-- Containers whose names are the positions are arrays of what they hold, and all others are
objects. -/
theorem toValue_eq_of_keys (children : Children) (memo : Memo) :
    (internal children memo).toValue
      = if children.keys = (List.range children.keys.length).map toString
        then .array (children.toList.map fun e => e.2.toValue)
        else .object (children.toList.map fun e => (e.1, e.2.toValue)) := by
  have sequence := @isSequence_iff _ (children.toList.map fun e => (e.1, e.2.toValue)) 0
  rw [List.map_map, List.length_map] at sequence
  rw [toValue_internal, arrange, List.map_map, List.range_eq_range', OrderedMap.keys,
    List.length_map]
  exact if_congr sequence rfl rfl

theorem Alike.reach {m : Node} (h : Alike m n) (names : List String) :
    Alike (m.reach names) (n.reach names) := by
  intro rest
  rw [← leaf?_append, ← leaf?_append]
  exact h _

end Node

namespace Cache

variable {c : Cache}

theorem Current.restored (h : c.Current) (shallow : c.root.toValue.depth ≤ Cbor.maxDepth)
    (short : c.snapshot.length < 2 ^ 64) :
    ∃ d, Cache.ofSnapshot c.snapshot = .ok d ∧ d.sameAs c = true
      ∧ ∀ p, d.valueAt p = c.valueAt p ∧ d.hashAt p = c.hashAt p := by
  have read := Cbor.read_toCbor shallow short
  have current := current_ofValue c.root.toValue
  have alike := h.tidy.alike_ofValue
  refine ⟨⟨Node.ofValue c.root.toValue⟩, ?_, ?_, fun p => ⟨?_, ?_⟩⟩
  · rw [Cache.ofSnapshot, snapshot, read]
    rfl
  · exact (Node.Tidy.sameAs_iff current.tidy h.tidy).mpr alike
  · rw [valueAt_eq, valueAt_eq]
    exact (Node.Tidy.reach current.tidy _).toValue_eq (Node.Tidy.reach h.tidy _) (alike.reach _)
  · rw [current.hashAt_eq_contentHash, h.hashAt_eq_contentHash]
    exact (Node.Tidy.reach current.tidy _).contentHash_eq (Node.Tidy.reach h.tidy _)
      (alike.reach _)

/-- However a cache came about, its snapshot restores it. The length of a snapshot is a number of
64 bits. -/
theorem snapshot_restores {edits : List Edit} (admissible : ∀ e ∈ edits, e.Admissible)
    (shallow : (editAll edits).root.toValue.depth ≤ Cbor.maxDepth)
    (short : (editAll edits).snapshot.length < 2 ^ 64) :
    (∃ d, ofSnapshot (editAll edits).snapshot = .ok d ∧ d.sameAs (editAll edits) = true
      ∧ ∀ p, d.valueAt p = (editAll edits).valueAt p ∧ d.hashAt p = (editAll edits).hashAt p)
    ∧ (∀ n : Node, n.Tidy → (Node.ofValue n.toValue).sameAs n = true)
    ∧ ∀ (children : Children) memo, (Node.internal children memo).toValue
      = if children.keys = (List.range children.keys.length).map toString
        then .array (children.toList.map fun e => e.2.toValue)
        else .object (children.toList.map fun e => (e.1, e.2.toValue)) := by
  refine ⟨(current_editAll admissible).restored shallow short, fun n tidy => ?_,
    Node.toValue_eq_of_keys⟩
  exact (Node.Tidy.sameAs_iff (Node.tidy_ofValue _) tidy).mpr tidy.alike_ofValue

/-- A loaded list loses an item in the middle and becomes an object, beside numbers of every
width. -/
def patched (p : Path) : List Edit :=
  [.clear, .load [0x81, 0xf5], .put p (.array [.number ⟨0x8000000000000000⟩, .null,
      .number ⟨0x3ff0000020000000⟩, .array [.number Double.nan, .number ⟨0x3fb999999999999a⟩]]),
    .merge p (.object [("00", .text "é"), ("4", .object [("", .bool true)])])]

theorem patched_restores : ∃ p : Path, (editAll (patched p)).snapshot =
      [0xa2, 0x61, 0x30, 0xf5, 0x61, 0x61, 0xa4, 0x61, 0x30, 0xf9, 0x80, 0x00, 0x62, 0x30, 0x30,
        0x62, 0xc3, 0xa9, 0x61, 0x32, 0xfa, 0x3f, 0x80, 0x00, 0x01, 0x61, 0x33, 0x82, 0xf9, 0x7e,
        0x00, 0xfb, 0x3f, 0xb9, 0x99, 0x99, 0x99, 0x99, 0x99, 0x9a]
    ∧ (∀ e ∈ patched p, e.Admissible) ∧ (editAll (patched p)).root.toValue.depth ≤ Cbor.maxDepth
    ∧ (editAll (patched p)).snapshot.length < 2 ^ 64
    ∧ ∃ d, ofSnapshot (editAll (patched p)).snapshot = .ok d ∧ d.sameAs (editAll (patched p)) = true
      ∧ ∀ q, d.valueAt q = (editAll (patched p)).valueAt q
        ∧ d.hashAt q = (editAll (patched p)).hashAt q := by
  refine ⟨⟨["a"], by decide, by decide⟩, ?_⟩
  have admissible (p : Path) : ∀ e ∈ patched p, e.Admissible := by
    simp [patched, Edit.Admissible]
  have shallow : (editAll (patched ⟨["a"], by decide, by decide⟩)).root.toValue.depth
      ≤ Cbor.maxDepth := by decide +kernel
  have short : (editAll (patched ⟨["a"], by decide, by decide⟩)).snapshot.length < 2 ^ 64 := by
    decide +kernel
  refine ⟨?_, admissible _, shallow, short, (snapshot_restores (admissible _) shallow short).1⟩
  decide +kernel

end Cache

end LiveTree
