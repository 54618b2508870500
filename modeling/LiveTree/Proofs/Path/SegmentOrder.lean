import LiveTree.Path.Segment

/-!
# The order of segments is a strict total order

A comparison of segments is a lexicographic comparison of four keys: whether the segment is text,
its value, its length and itself. The laws follow from those of the keys. Nothing is said here
about which texts are whole numbers.
-/

namespace LiveTree.Segment

/-- Text stands behind whole numbers. -/
def isText (s : String) : Bool := (integer? s).isNone

/-- The value by which whole numbers are compared. All other names share one value. -/
def value (s : String) : Int := (integer? s).getD 0

/-- The length by which whole numbers of one value are told apart. -/
def width (s : String) : Nat := if isText s then 0 else s.utf8ByteSize

def compareKeys : String → String → Ordering :=
  compareLex (compareOn isText)
    (compareLex (compareOn value) (compareLex (compareOn width) Ord.compare))

theorem compare_eq_compareKeys : compare = compareKeys := by
  funext a b
  have htext : Ord.compare true false = .gt := rfl
  have hnumber : Ord.compare false true = .lt := rfl
  cases ha : integer? a <;> cases hb : integer? b <;>
    simp [compare, compareKeys, compareLex, compareOn, isText, value, width, ha, hb, htext, hnumber]

instance : Std.TransCmp compare := by
  rw [compare_eq_compareKeys]
  unfold compareKeys
  infer_instance

theorem eq_of_compare {a b : String} (h : compare a b = .eq) : a = b := by
  rw [compare_eq_compareKeys] at h
  simp only [compareKeys, compareLex_eq_eq] at h
  exact Std.LawfulEqCmp.eq_of_compare h.2.2.2

instance : Std.LawfulEqCmp compare where
  eq_of_compare := eq_of_compare

end LiveTree.Segment
