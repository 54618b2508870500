import LiveTree.Cbor.Reader
import LiveTree.Cbor.Writer
import LiveTree.Proofs.Digest.Text
import LiveTree.Proofs.Double.Widths
import LiveTree.Proofs.Value.Normal

/-!
# Written items are read again

Each part of an item is read in front of any bytes, so items can follow one another. A value comes
back from its item with every bit of its numbers, unless it is too deep for the reader.
-/

namespace LiveTree

namespace Bytes

theorem foldl_ofNat (count n start : Nat) :
    (ofNat count n).foldl (fun n b => n * 256 + b.toNat) start
      = start * 256 ^ count + n % 256 ^ count := by
  induction count generalizing start with
  | zero => simp [ofNat, Nat.mod_one]
  | succ count ih =>
    have byte : (UInt8.ofNat (n / 256 ^ count)).toNat = n / 256 ^ count % 256 :=
      UInt8.toNat_ofNat'
    rw [ofNat_succ, List.foldl_cons, ih, Nat.pow_eq, byte, Nat.mod_pow_succ]
    ring

theorem toNat_ofNat {count n : Nat} (h : n < 256 ^ count) : toNat (ofNat count n) = n := by
  rw [toNat, foldl_ofNat, Nat.zero_mul, Nat.zero_add, Nat.mod_eq_of_lt h]

theorem toText?_ofText (s : String) : toText? (ofText s) = some s := by
  unfold toText? ofText
  rw [Array.toArray_toList]
  exact dif_pos s.isValidUTF8

end Bytes

namespace Value

/-- Every length that is written with the value is below the limit. -/
inductive Fits (limit : Nat) : Value → Prop where
  | null : Fits limit null
  | bool (b : Bool) : Fits limit (bool b)
  | number (n : Double) : Fits limit (number n)
  | text {s : String} (short : (Bytes.ofText s).length < limit) : Fits limit (text s)
  | array {items : List Value} (few : items.length < limit)
    (members : ∀ v ∈ items, Fits limit v) : Fits limit (array items)
  | object {pairs : List (String × Value)} (few : pairs.length < limit)
    (keys : ∀ p ∈ pairs, (Bytes.ofText p.1).length < limit)
    (members : ∀ p ∈ pairs, Fits limit p.2) : Fits limit (object pairs)

variable {limit : Nat}

theorem fits_text_iff {s : String} : (text s).Fits limit ↔ (Bytes.ofText s).length < limit := by
  refine ⟨fun h => ?_, .text⟩
  cases h with
  | text short => exact short

theorem fits_array_iff {items : List Value} :
    (array items).Fits limit ↔ items.length < limit ∧ ∀ v ∈ items, v.Fits limit := by
  refine ⟨fun h => ?_, fun h => .array h.1 h.2⟩
  cases h with
  | array few members => exact ⟨few, members⟩

theorem fits_object_iff {pairs : List (String × Value)} : (object pairs).Fits limit ↔
    pairs.length < limit ∧ ∀ p ∈ pairs, (Bytes.ofText p.1).length < limit ∧ p.2.Fits limit := by
  refine ⟨fun h => ?_, fun h => .object h.1 (fun p hp => (h.2 p hp).1) fun p hp => (h.2 p hp).2⟩
  cases h with
  | object few keys members => exact ⟨few, fun p hp => ⟨keys p hp, members p hp⟩⟩

end Value

namespace Cbor

variable {bs rest : Bytes} {count n major limit : Nat} {v : Value}

theorem readBytes_append (h : bs.length = count) (rest : Bytes) :
    readBytes count (bs ++ rest) = some (bs, rest) := by
  subst h
  simp [readBytes]

theorem readNat_append (h : n < 256 ^ count) (rest : Bytes) :
    readNat count (Bytes.ofNat count n ++ rest) = some (n, rest) := by
  have number := Bytes.toNat_ofNat h
  simp only [readNat, readBytes_append (Bytes.length_ofNat count n), Option.map_some, number]

/-- A head is a byte with the kind of the item, and the length that it announces is read. -/
theorem exists_writeHead (kind : major < 8) (h : n < 256 ^ 8) : ∃ first after,
    writeHead major n = first :: after ∧ first.toNat / 32 = major ∧
    ∀ rest, readLength (first.toNat % 32) (after ++ rest) = some (some n, rest) := by
  suffices ∃ info after, info < 28 ∧ writeHead major n = UInt8.ofNat (32 * major + info) :: after ∧
      ∀ rest, readArgument info (after ++ rest) = some (n, rest) by
    obtain ⟨info, after, low, written, reads⟩ := this
    have byte : (UInt8.ofNat (32 * major + info)).toNat = 32 * major + info :=
      UInt8.toNat_ofNat_of_lt' (by change _ < 256; omega)
    have argument : (32 * major + info) % 32 = info := by omega
    refine ⟨_, after, written, ?_, fun rest => ?_⟩
    · rw [byte]
      omega
    · rw [byte, argument, readLength, if_neg (by omega), reads]
      rfl
  unfold writeHead
  dsimp only
  split
  · exact ⟨n, [], by omega, rfl, fun rest => if_pos ‹_›⟩
  split
  · have short : n < 256 ^ 1 := ‹_›
    exact ⟨24, _, by decide, rfl, readNat_append short⟩
  split
  · have short : n < 256 ^ 2 := ‹_›
    exact ⟨25, _, by decide, rfl, readNat_append short⟩
  split
  · have short : n < 256 ^ 4 := ‹_›
    exact ⟨26, _, by decide, rfl, readNat_append short⟩
  · exact ⟨27, _, by decide, rfl, readNat_append h⟩

theorem readHead_text (h : n < 256 ^ 8) (rest : Bytes) :
    readHead (writeHead 3 n ++ rest) = some (.text (some n), rest) := by
  obtain ⟨first, after, written, kind, reads⟩ := exists_writeHead (by decide : 3 < 8) h
  simp only [written, List.cons_append, readHead, kind, reads, Option.map_some]

theorem readHead_array (h : n < 256 ^ 8) (rest : Bytes) :
    readHead (writeHead 4 n ++ rest) = some (.array (some n), rest) := by
  obtain ⟨first, after, written, kind, reads⟩ := exists_writeHead (by decide : 4 < 8) h
  simp only [written, List.cons_append, readHead, kind, reads, Option.map_some]

theorem readHead_map (h : n < 256 ^ 8) (rest : Bytes) :
    readHead (writeHead 5 n ++ rest) = some (.map (some n), rest) := by
  obtain ⟨first, after, written, kind, reads⟩ := exists_writeHead (by decide : 5 < 8) h
  simp only [written, List.cons_append, readHead, kind, reads, Option.map_some]

theorem readHead_writeNumber (d : Double) (rest : Bytes) :
    readHead (writeNumber d ++ rest) = some (.float d, rest) := by
  have half : Double.half.fractionBits ≤ 52 := by decide
  have single : Double.single.fractionBits ≤ 52 := by decide
  unfold writeNumber
  split
  · rename_i pattern narrow
    obtain ⟨widen, bound⟩ := Double.Width.widen_narrow half narrow
    have short : pattern < 256 ^ 2 := bound
    change readSpecial 25 (Bytes.ofNat 2 pattern ++ rest) = _
    simp [readSpecial, readNat_append short, widen]
  split
  · rename_i pattern narrow
    obtain ⟨widen, bound⟩ := Double.Width.widen_narrow single narrow
    have short : pattern < 256 ^ 4 := bound
    change readSpecial 26 (Bytes.ofNat 4 pattern ++ rest) = _
    simp [readSpecial, readNat_append short, widen]
  · have short : d.bits.toNat < 256 ^ 8 := d.bits.toNat_lt
    change readSpecial 27 (Bytes.ofNat 8 d.bits.toNat ++ rest) = _
    simp [readSpecial, readNat_append short]

mutual

/-- The item that a value is written as. -/
def Item.ofValue : Value → Item
  | .null => .null
  | .bool b => .bool b
  | .number n => .number n
  | .text s => .text s
  | .array items => .array (itemsOf items)
  | .object pairs => .map (pairsOf pairs)

def itemsOf : List Value → List Item
  | [] => []
  | v :: rest => Item.ofValue v :: itemsOf rest

def pairsOf : List (String × Value) → List (Item × Item)
  | [] => []
  | (k, v) :: rest => (.text k, Item.ofValue v) :: pairsOf rest

end

theorem toValue_ofValue (v : Value) : (Item.ofValue v).toValue = .ok v := by
  induction v using Value.induction with
  | null | bool b | number n | text s => rfl
  | array items ih =>
    have items : itemsToValues (itemsOf items) = .ok items := by
      induction items with
      | nil => rfl
      | cons v items ihs =>
        obtain ⟨hv, hvs⟩ := List.forall_mem_cons.mp ih
        rw [itemsOf, itemsToValues, hv, ihs hvs]
        rfl
    rw [Item.ofValue, Item.toValue, items]
    rfl
  | object pairs ih =>
    have fields : pairsToFields (pairsOf pairs) = .ok pairs := by
      induction pairs with
      | nil => rfl
      | cons p pairs ihs =>
        obtain ⟨hp, hps⟩ := List.forall_mem_cons.mp ih
        rw [pairsOf, pairsToFields, hp, ihs hps]
        rfl
    rw [Item.ofValue, Item.toValue, fields]
    rfl

theorem itemsOf_eq (items : List Value) : itemsOf items = items.map Item.ofValue := by
  induction items with
  | nil => rfl
  | cons v items ih => rw [itemsOf, ih, List.map_cons]

theorem pairsOf_eq (pairs : List (String × Value)) :
    pairsOf pairs = pairs.map fun p => (.text p.1, Item.ofValue p.2) := by
  induction pairs with
  | nil => rfl
  | cons p pairs ih => rw [pairsOf, ih, List.map_cons]

theorem writeItems_eq (items : List Value) : writeItems items = items.flatMap write := by
  induction items with
  | nil => rfl
  | cons v items ih => rw [writeItems, ih, List.flatMap_cons]

def writePair (p : String × Value) : Bytes := writeText p.1 ++ write p.2

theorem writePairs_eq (pairs : List (String × Value)) :
    writePairs pairs = pairs.flatMap writePair := by
  induction pairs with
  | nil => rfl
  | cons p pairs ih => rw [writePairs, ih, List.flatMap_cons, writePair, List.append_assoc]

theorem length_le_flatMap {β : Type} {written : β → Bytes} {members : List β} {b : β}
    (h : b ∈ members) : (written b).length ≤ (members.flatMap written).length :=
  (List.sublist_flatten_of_mem (List.mem_map_of_mem h)).length_le

theorem count_le_flatMap {β : Type} (written : β → Bytes) {members : List β}
    (some : ∀ b ∈ members, written b ≠ []) : members.length ≤ (members.flatMap written).length := by
  induction members with
  | nil => exact Nat.zero_le _
  | cons b members ih =>
    obtain ⟨hb, hbs⟩ := List.forall_mem_cons.mp some
    have first := List.length_pos_iff.mpr hb
    have others := ih hbs
    rw [List.flatMap_cons, List.length_append, List.length_cons]
    omega

theorem writeHead_ne_nil (major n : Nat) : writeHead major n ≠ [] := by
  unfold writeHead
  dsimp only
  repeat' split
  all_goals exact List.cons_ne_nil _ _

theorem write_ne_nil (v : Value) : write v ≠ [] := by
  cases v with
  | null => exact List.cons_ne_nil _ _
  | bool b => cases b <;> exact List.cons_ne_nil _ _
  | number n =>
    change writeNumber n ≠ []
    unfold writeNumber
    repeat' split
    all_goals exact List.cons_ne_nil _ _
  | text s => exact List.append_ne_nil_of_left_ne_nil (writeHead_ne_nil _ _) _
  | array items => exact List.append_ne_nil_of_left_ne_nil (writeHead_ne_nil _ _) _
  | object pairs => exact List.append_ne_nil_of_left_ne_nil (writeHead_ne_nil _ _) _

theorem length_ofText_le (s : String) : (Bytes.ofText s).length ≤ (writeText s).length := by
  simp [writeText]

theorem fits_of_short (short : (write v).length < limit) : v.Fits limit := by
  induction v using Value.induction with
  | null => exact .null
  | bool b => exact .bool b
  | number n => exact .number n
  | text s => exact .text (Nat.lt_of_le_of_lt (length_ofText_le s) short)
  | array items ih =>
    rw [write, writeItems_eq, List.length_append] at short
    have count := count_le_flatMap write fun v (_ : v ∈ items) => write_ne_nil v
    exact .array (by omega) fun v hv =>
      ih v hv (Nat.lt_of_le_of_lt (length_le_flatMap hv) (by omega))
  | object pairs ih =>
    rw [write, writePairs_eq, List.length_append] at short
    have count := count_le_flatMap writePair fun p (_ : p ∈ pairs) =>
      List.append_ne_nil_of_right_ne_nil _ (write_ne_nil p.2)
    refine Value.fits_object_iff.mpr ⟨by omega, fun p hp => ?_⟩
    have member : (writePair p).length ≤ _ := length_le_flatMap hp
    have key := length_ofText_le p.1
    rw [writePair, List.length_append] at member
    exact ⟨by omega, ih p hp (by omega)⟩

theorem readItem_writeText {s : String} (short : (Bytes.ofText s).length < 256 ^ 8) (depth : Nat)
    (rest : Bytes) : readItem depth (writeText s ++ rest) = some (.text s, rest) := by
  have head := readHead_text short (Bytes.ofText s ++ rest)
  have part := readBytes_append (Eq.refl (Bytes.ofText s).length) rest
  unfold readItem
  rw [writeText, List.append_assoc, head]
  simp [readText, readParts, part, Bytes.toText?_ofText, String.join]

theorem readMany_append {α β : Type} {read : Bytes → Option (α × Bytes)} {written : β → Bytes}
    {item : β → α} {members : List β}
    (h : ∀ b ∈ members, ∀ rest, read (written b ++ rest) = some (item b, rest)) (rest : Bytes) :
    readMany read members.length (members.flatMap written ++ rest)
      = some (members.map item, rest) := by
  induction members with
  | nil => rfl
  | cons b members ih =>
    obtain ⟨hb, hbs⟩ := List.forall_mem_cons.mp h
    rw [List.flatMap_cons, List.append_assoc, List.length_cons, readMany, hb]
    simp only [Option.bind_eq_bind, Option.bind_some, ih hbs]
    rfl

/-- A value that is not too deep is read as its item, and what follows is left alone. -/
theorem readItem_write {depth : Nat} (shallow : v.depth ≤ depth) (fits : v.Fits (256 ^ 8))
    (rest : Bytes) : readItem depth (write v ++ rest) = some (.ofValue v, rest) := by
  induction v using Value.induction generalizing depth rest with
  | null => unfold readItem; rfl
  | bool b => cases b <;> unfold readItem <;> rfl
  | number n =>
    unfold readItem
    rw [write, readHead_writeNumber]
    rfl
  | text s =>
    exact readItem_writeText (Value.fits_text_iff.mp fits) depth rest
  | array items ih =>
    obtain ⟨few, fits⟩ := Value.fits_array_iff.mp fits
    obtain _ | depth := depth
    · cases Nat.not_succ_le_zero _ shallow
    have members : ∀ v ∈ items, ∀ rest,
        readItem depth (write v ++ rest) = some (.ofValue v, rest) :=
      fun v hv => ih v hv (Value.depth_array_le_iff.mp shallow v hv) (fits v hv)
    have head := readHead_array few (items.flatMap write ++ rest)
    unfold readItem
    rw [write, writeItems_eq, List.append_assoc, head]
    simp only [readMembers, readMany_append members, Option.map_some, Item.ofValue, itemsOf_eq]
  | object pairs ih =>
    obtain ⟨few, fits⟩ := Value.fits_object_iff.mp fits
    obtain _ | depth := depth
    · cases Nat.not_succ_le_zero _ shallow
    have members : ∀ p ∈ pairs, ∀ rest, readPair (readItem depth) (writePair p ++ rest)
        = some ((.text p.1, .ofValue p.2), rest) := by
      intro p hp rest
      obtain ⟨short, fits⟩ := fits p hp
      have key := readItem_writeText short depth (write p.2 ++ rest)
      have member := ih p hp (Value.depth_object_le_iff.mp shallow p hp) fits rest
      simp only [readPair, writePair, List.append_assoc, key, member, Option.bind_eq_bind,
        Option.bind_some]
      rfl
    have head := readHead_map few (pairs.flatMap writePair ++ rest)
    unfold readItem
    rw [write, writePairs_eq, List.append_assoc, head]
    simp only [readMembers, readMany_append members, Option.map_some, Item.ofValue, pairsOf_eq]

theorem read_toCbor_append (rest : Bytes) (shallow : v.depth ≤ maxDepth)
    (fits : v.Fits (256 ^ 8)) : read (v.toCbor ++ rest) = .ok v := by
  have item := readItem_write shallow fits rest
  unfold read Value.toCbor
  rw [item]
  exact toValue_ofValue v

theorem read_toCbor (shallow : v.depth ≤ maxDepth) (short : v.toCbor.length < 256 ^ 8) :
    read v.toCbor = .ok v := by
  have whole := read_toCbor_append [] shallow (fits_of_short short)
  rwa [List.append_nil] at whole

end Cbor

end LiveTree
