import LiveTree.Proofs.Cbor.RoundTrip
import LiveTree.Proofs.Frame.Fields

/-!
# What bytes are read as

Each part that is read takes the bytes that it says, and an item takes one byte at least. So lengths
and counts stay below the number of the bytes, and a value that is read can be written and read
again.
-/

namespace LiveTree

namespace Bytes

theorem ofText_of_toText? {bs : Bytes} {s : String} (h : toText? bs = some s) :
    ofText s = bs := by
  unfold toText? String.fromUTF8? at h
  split at h
  · cases h
    rfl
  · cases h

theorem ofText_join {parts : List Bytes} {texts : List String}
    (h : parts.mapM toText? = some texts) : ofText (String.join texts) = parts.flatten := by
  induction parts generalizing texts with
  | nil =>
    cases h
    rfl
  | cons part parts ih =>
    rw [List.mapM_cons] at h
    obtain ⟨s, first, h⟩ := Option.bind_eq_some_iff.mp h
    obtain ⟨others, rest, h⟩ := Option.bind_eq_some_iff.mp h
    cases h
    rw [String.join_cons, ofText_append, ofText_of_toText? first, ih rest, List.flatten_cons]

end Bytes

namespace Cbor

variable {α β : Type} {bs rest part : Bytes} {parts : List Bytes} {head : Head} {item : Item}
variable {length : Option Nat} {length? : Head → Option (Option Nat)}
variable {info n count fuel level limit depth : Nat}

theorem length_of_readBytes (h : readBytes count bs = some (part, rest)) :
    part.length + rest.length = bs.length := by
  unfold readBytes at h
  split at h
  · cases h
    rw [List.length_take, List.length_drop]
    omega
  · cases h

theorem length_of_readNat (h : readNat count bs = some (n, rest)) :
    rest.length ≤ bs.length := by
  obtain ⟨⟨part, after⟩, taken, same⟩ := Option.map_eq_some_iff.mp h
  cases same
  exact length_of_readBytes taken ▸ Nat.le_add_left _ _

theorem length_of_readArgument (h : readArgument info bs = some (n, rest)) :
    rest.length ≤ bs.length := by
  unfold readArgument at h
  split at h
  · cases h
    exact Nat.le_refl _
  repeat' split at h
  any_goals exact length_of_readNat h
  cases h

theorem length_of_map {f : α × Bytes → β × Bytes} {read : Option (α × Bytes)} {b : β}
    (h : read.map f = some (b, rest)) (behind : ∀ a, (f a).2 = a.2)
    (part : ∀ a, read = some (a, rest) → rest.length ≤ bs.length) : rest.length ≤ bs.length := by
  obtain ⟨⟨a, after⟩, taken, same⟩ := Option.map_eq_some_iff.mp h
  obtain rfl : rest = after := (congrArg Prod.snd same).symm.trans (behind _)
  exact part a taken

theorem length_of_readLength (h : readLength info bs = some (length, rest)) :
    rest.length ≤ bs.length := by
  unfold readLength at h
  split at h
  · cases h
    exact Nat.le_refl _
  · exact length_of_map h (fun _ => rfl) fun _ => length_of_readArgument

theorem length_of_readSpecial (h : readSpecial info bs = some (head, rest)) :
    rest.length ≤ bs.length := by
  unfold readSpecial at h
  split at h
  · exact length_of_map h (fun _ => rfl) fun _ => length_of_readNat
  split at h
  · exact length_of_map h (fun _ => rfl) fun _ => length_of_readNat
  split at h
  · exact length_of_map h (fun _ => rfl) fun _ => length_of_readNat
  split at h
  · cases h
    exact Nat.le_refl _
  · exact length_of_map h (fun _ => rfl) fun _ => length_of_readArgument

theorem length_of_readHead (h : readHead bs = some (head, rest)) : rest.length < bs.length := by
  obtain _ | ⟨first, after⟩ := bs
  · cases h
  refine Nat.lt_succ_of_le ?_
  rw [readHead] at h
  dsimp only at h
  split at h
  · exact length_of_map h (fun _ => rfl) fun _ => length_of_readArgument
  · exact length_of_map h (fun _ => rfl) fun _ => length_of_readArgument
  · exact length_of_map h (fun _ => rfl) fun _ => length_of_readLength
  · exact length_of_map h (fun _ => rfl) fun _ => length_of_readLength
  · exact length_of_map h (fun _ => rfl) fun _ => length_of_readLength
  · exact length_of_map h (fun _ => rfl) fun _ => length_of_readLength
  · exact length_of_map h (fun _ => rfl) fun _ => length_of_readArgument
  · exact length_of_readSpecial h

theorem length_of_readChunks (h : readChunks length? fuel level bs = some (parts, rest)) :
    parts.flatten.length + rest.length ≤ bs.length := by
  induction fuel generalizing level bs parts rest with
  | zero => cases h
  | succ fuel ih =>
    obtain ⟨⟨head, after⟩, first, h⟩ := Option.bind_eq_some_iff.mp h
    have less := length_of_readHead first
    dsimp only at h
    split at h
    · split at h
      · cases h
        exact (Nat.zero_add _).trans_le (Nat.le_of_lt less)
      · exact (ih h).trans (Nat.le_of_lt less)
    obtain ⟨length, _, h⟩ := Option.bind_eq_some_iff.mp h
    split at h
    · exact (ih h).trans (Nat.le_of_lt less)
    obtain ⟨⟨chunk, behind⟩, taken, h⟩ := Option.bind_eq_some_iff.mp h
    obtain ⟨⟨chunks, left⟩, others, h⟩ := Option.bind_eq_some_iff.mp h
    cases h
    have one : chunk.length + behind.length = after.length := length_of_readBytes taken
    have more : chunks.flatten.length + left.length ≤ behind.length := ih others
    dsimp only
    rw [List.flatten_cons, List.length_append]
    omega

theorem length_of_readParts (h : readParts length? length bs = some (parts, rest)) :
    parts.flatten.length + rest.length ≤ bs.length := by
  unfold readParts at h
  split at h
  · obtain ⟨⟨part, after⟩, taken, same⟩ := Option.map_eq_some_iff.mp h
    cases same
    rw [List.flatten_singleton]
    exact Nat.le_of_eq (length_of_readBytes taken)
  · exact length_of_readChunks h

theorem exists_readText (h : readText length bs = some (item, rest)) :
    ∃ s, item = .text s ∧ (Bytes.ofText s).length + rest.length ≤ bs.length := by
  obtain ⟨⟨parts, after⟩, taken, h⟩ := Option.bind_eq_some_iff.mp h
  obtain ⟨texts, read, h⟩ := Option.bind_eq_some_iff.mp h
  cases h
  exact ⟨_, rfl, Bytes.ofText_join read ▸ length_of_readParts taken⟩

theorem length_of_readLargeLength (h : readLargeLength n bs = some (count, rest)) :
    rest.length < bs.length := by
  unfold readLargeLength at h
  repeat' split at h
  any_goals
    cases h
    exact length_of_readHead ‹_›
  all_goals cases h

/-- Bytes up to the limit are read as something with the property, which takes one of them at
least. -/
def Reads (limit : Nat) (P : α → Prop) (read : Bytes → Option (α × Bytes)) : Prop :=
  ∀ ⦃bs a rest⦄, bs.length ≤ limit → read bs = some (a, rest) → rest.length < bs.length ∧ P a

section Members

variable {P : α → Prop} {read : Bytes → Option (α × Bytes)} {as : List α}

theorem Reads.cons {after : Bytes} {a : α} (reads : Reads limit P read) (short : bs.length ≤ limit)
    (first : read bs = some (a, after)) (others : after.length ≤ limit →
      as.length + rest.length ≤ after.length ∧ ∀ b ∈ as, P b) :
    (a :: as).length + rest.length ≤ bs.length ∧ ∀ b ∈ a :: as, P b := by
  obtain ⟨less, ha⟩ := reads short first
  obtain ⟨counted, has⟩ := others (by omega)
  refine ⟨?_, List.forall_mem_cons.mpr ⟨ha, has⟩⟩
  rw [List.length_cons]
  omega

theorem reads_many (reads : Reads limit P read) (short : bs.length ≤ limit)
    (h : readMany read count bs = some (as, rest)) :
    as.length + rest.length ≤ bs.length ∧ ∀ a ∈ as, P a := by
  induction count generalizing bs as with
  | zero =>
    cases h
    exact ⟨Nat.le_of_eq (Nat.zero_add _), nofun⟩
  | succ count ih =>
    obtain ⟨⟨a, after⟩, first, h⟩ := Option.bind_eq_some_iff.mp h
    obtain ⟨⟨others, left⟩, tail, h⟩ := Option.bind_eq_some_iff.mp h
    cases h
    exact reads.cons short first fun short => ih short tail

theorem reads_open (reads : Reads limit P read) (short : bs.length ≤ limit)
    (h : readOpen read fuel bs = some (as, rest)) :
    as.length + rest.length ≤ bs.length ∧ ∀ a ∈ as, P a := by
  induction fuel generalizing bs as with
  | zero => cases h
  | succ fuel ih =>
    unfold readOpen at h
    split at h
    · cases h
      exact ⟨(Nat.zero_add _).trans_le (Nat.le_of_lt (length_of_readHead ‹_›)), nofun⟩
    · obtain ⟨⟨a, after⟩, first, h⟩ := Option.bind_eq_some_iff.mp h
      obtain ⟨⟨others, left⟩, tail, h⟩ := Option.bind_eq_some_iff.mp h
      cases h
      exact reads.cons short first fun short => ih short tail

theorem reads_members (reads : Reads limit P read) (short : bs.length ≤ limit)
    (h : readMembers read length bs = some (as, rest)) :
    as.length + rest.length ≤ bs.length ∧ ∀ a ∈ as, P a := by
  unfold readMembers at h
  split at h
  · exact reads_many reads short h
  · exact reads_open reads short h

theorem reads_pair {Q : Item → Prop} {read : Bytes → Option (Item × Bytes)}
    (reads : Reads limit Q read) : Reads limit (fun p => Q p.1 ∧ Q p.2) (readPair read) := by
  intro bs p rest short h
  obtain ⟨⟨key, after⟩, first, h⟩ := Option.bind_eq_some_iff.mp h
  obtain ⟨⟨value, left⟩, second, h⟩ := Option.bind_eq_some_iff.mp h
  cases h
  obtain ⟨less, hkey⟩ := reads short first
  obtain ⟨fewer, hvalue⟩ := reads (by omega) second
  exact ⟨by omega, hkey, hvalue⟩

end Members

/-- What the item stands for is not nested deeper, and no length in it reaches the limit. -/
def Item.Makes (depth limit : Nat) (item : Item) : Prop :=
  ∀ v, item.toValue = .ok v → v.depth ≤ depth ∧ v.Fits limit

theorem makes_of_toValue {v : Value} (same : item.toValue = .ok v) (shallow : v.depth ≤ depth)
    (fits : v.Fits limit) : item.Makes depth limit := by
  intro w h
  cases same.symm.trans h
  exact ⟨shallow, fits⟩

theorem exists_of_map_eq_ok {f : α → β} {x : Except CodecError α} {b : β}
    (h : x.map f = .ok b) : ∃ a, x = .ok a ∧ f a = b := by
  cases x with
  | error e => cases h
  | ok a => exact ⟨a, rfl, Except.ok.inj h⟩

theorem values_of_items {items : List Item} {values : List Value}
    (members : ∀ item ∈ items, item.Makes depth limit) (h : itemsToValues items = .ok values) :
    values.length = items.length ∧ ∀ v ∈ values, v.depth ≤ depth ∧ v.Fits limit := by
  induction items generalizing values with
  | nil =>
    cases h
    exact ⟨rfl, nofun⟩
  | cons item items ih =>
    rw [itemsToValues] at h
    obtain ⟨v, first, h⟩ := Frame.bind_eq_ok.mp h
    obtain ⟨vs, others, h⟩ := Frame.bind_eq_ok.mp h
    cases h
    obtain ⟨hitem, hitems⟩ := List.forall_mem_cons.mp members
    obtain ⟨length, hvs⟩ := ih hitems others
    exact ⟨congrArg (· + 1) length, List.forall_mem_cons.mpr ⟨hitem v first, hvs⟩⟩

theorem fields_of_pairs {pairs : List (Item × Item)} {fields : List (String × Value)}
    (members : ∀ p ∈ pairs, p.1.Makes depth limit ∧ p.2.Makes depth limit)
    (h : pairsToFields pairs = .ok fields) : fields.length = pairs.length
      ∧ ∀ q ∈ fields, q.2.depth ≤ depth ∧ (Bytes.ofText q.1).length < limit ∧ q.2.Fits limit := by
  induction pairs generalizing fields with
  | nil =>
    cases h
    exact ⟨rfl, nofun⟩
  | cons p pairs ih =>
    obtain ⟨key, item⟩ := p
    cases key with
    | text k =>
      rw [pairsToFields] at h
      obtain ⟨v, first, h⟩ := Frame.bind_eq_ok.mp h
      obtain ⟨vs, others, h⟩ := Frame.bind_eq_ok.mp h
      cases h
      obtain ⟨⟨hkey, hitem⟩, hpairs⟩ := List.forall_mem_cons.mp members
      obtain ⟨length, hvs⟩ := ih hpairs others
      have short := Value.fits_text_iff.mp (hkey (.text k) rfl).2
      obtain ⟨shallow, fits⟩ := hitem v first
      exact ⟨congrArg (· + 1) length, List.forall_mem_cons.mpr ⟨⟨shallow, short, fits⟩, hvs⟩⟩
    | _ => cases h

theorem makes_array {items : List Item} (few : items.length < limit)
    (members : ∀ item ∈ items, item.Makes depth limit) :
    (Item.array items).Makes (depth + 1) limit := by
  intro v h
  rw [Item.toValue] at h
  obtain ⟨values, read, rfl⟩ := exists_of_map_eq_ok h
  obtain ⟨length, made⟩ := values_of_items members read
  exact ⟨Value.depth_array_le_iff.mpr fun v hv => (made v hv).1,
    .array (length ▸ few) fun v hv => (made v hv).2⟩

theorem makes_map {pairs : List (Item × Item)} (few : pairs.length < limit)
    (members : ∀ p ∈ pairs, p.1.Makes depth limit ∧ p.2.Makes depth limit) :
    (Item.map pairs).Makes (depth + 1) limit := by
  intro v h
  rw [Item.toValue] at h
  obtain ⟨fields, read, rfl⟩ := exists_of_map_eq_ok h
  obtain ⟨length, made⟩ := fields_of_pairs members read
  exact ⟨Value.depth_object_le_iff.mpr fun q hq => (made q hq).1,
    Value.fits_object_iff.mpr ⟨length ▸ few, fun q hq => (made q hq).2⟩⟩

theorem reads_simple (h : readSimple n bs = some (item, rest)) :
    rest = bs ∧ item.Makes depth limit := by
  unfold readSimple at h
  split at h
  · cases h
    exact ⟨rfl, makes_of_toValue rfl (Nat.zero_le _) (.bool _)⟩
  split at h
  · cases h
    exact ⟨rfl, makes_of_toValue rfl (Nat.zero_le _) (.bool _)⟩
  split at h
  · cases h
    exact ⟨rfl, makes_of_toValue rfl (Nat.zero_le _) .null⟩
  · cases h

theorem makes_largeNumber (h : largeNumber? n bs = some item) : item.Makes depth limit := by
  unfold largeNumber? at h
  dsimp only at h
  split at h
  · cases h
  split at h
  · cases h
    exact nofun
  split at h
  all_goals
    cases h
    exact makes_of_toValue rfl (Nat.zero_le _) (.number _)

/-- Nothing is nested deeper in an item than the reader goes, and no length in it reaches the number
of the bytes. -/
theorem reads_item (depth limit : Nat) :
    Reads limit (Item.Makes depth limit) (readItem depth) := by
  -- only containers and tags look at the depth, so the heads come first and the depth is split there
  induction depth using Nat.strongRecOn with
  | _ depth ih =>
  intro bs item rest short h
  unfold readItem at h
  split at h
  · cases h
  rename_i head after first
  have less := length_of_readHead first
  cases head with
  | unsigned n | negative n | float n =>
    cases h
    exact ⟨less, makes_of_toValue rfl (Nat.zero_le _) (.number _)⟩
  | bytes length =>
    obtain ⟨⟨parts, left⟩, taken, same⟩ := Option.map_eq_some_iff.mp h
    cases same
    have parts := length_of_readParts taken
    exact ⟨by omega, nofun⟩
  | text length =>
    obtain ⟨s, rfl, parts⟩ := exists_readText h
    exact ⟨by omega, makes_of_toValue rfl (Nat.zero_le _) (.text (by omega))⟩
  | simple n =>
    obtain ⟨rfl, made⟩ := reads_simple h
    exact ⟨less, made⟩
  | stop => cases h
  | array length =>
    obtain _ | depth := depth
    · cases h
    obtain ⟨⟨items, left⟩, taken, same⟩ := Option.map_eq_some_iff.mp h
    cases same
    obtain ⟨count, members⟩ := reads_members (ih depth (Nat.lt_succ_self _)) (by omega) taken
    exact ⟨by omega, makes_array (by omega) members⟩
  | map length =>
    obtain _ | depth := depth
    · cases h
    obtain ⟨⟨pairs, left⟩, taken, same⟩ := Option.map_eq_some_iff.mp h
    cases same
    obtain ⟨count, members⟩ :=
      reads_members (reads_pair (ih depth (Nat.lt_succ_self _))) (by omega) taken
    exact ⟨by omega, makes_map (by omega) members⟩
  | tag n =>
    dsimp only at h
    split at h
    · rename_i length behind large
      have fewer := length_of_readLargeLength large
      obtain ⟨⟨content, left⟩, taken, h⟩ := Option.bind_eq_some_iff.mp h
      obtain ⟨number, same, h⟩ := Option.bind_eq_some_iff.mp h
      cases h
      have part : content.length + left.length = behind.length := length_of_readBytes taken
      refine ⟨?_, makes_largeNumber same⟩
      change left.length < bs.length
      omega
    obtain _ | depth := depth
    · cases h
    obtain ⟨⟨inner, left⟩, taken, same⟩ := Option.map_eq_some_iff.mp h
    cases same
    obtain ⟨fewer, made⟩ := ih depth (Nat.lt_succ_self _) (by omega) taken
    refine ⟨fewer.trans less, fun v h => ?_⟩
    rw [Item.toValue] at h
    obtain ⟨shallow, fits⟩ := made v h
    exact ⟨Nat.le_succ_of_le shallow, fits⟩

/-- What is read is not too deep to be read again, and has no length that the bytes do not have. -/
theorem read_bounded {v : Value} (short : bs.length ≤ limit) (h : read bs = .ok v) :
    v.depth ≤ maxDepth ∧ v.Fits limit := by
  unfold read at h
  split at h
  · cases h
  · rename_i item rest taken
    exact (reads_item maxDepth limit short taken).2 v h

/-- A value that the reader goes down to, with lengths of 64 bits, comes back from its bytes with
every bit of its numbers, whatever follows. What is read from any bytes is such a value, so it comes
back from bytes of its own. -/
theorem undone_by_reading :
    (∀ (v : Value) (rest : Bytes), v.depth ≤ maxDepth → v.Fits (2 ^ 64) →
      read (v.toCbor ++ rest) = .ok v)
    ∧ ∀ (bs : Bytes) (v : Value) (rest : Bytes), bs.length < 2 ^ 64 → read bs = .ok v →
      read (v.toCbor ++ rest) = .ok v := by
  have written : ∀ (v : Value) (rest : Bytes), v.depth ≤ maxDepth → v.Fits (2 ^ 64) →
      read (v.toCbor ++ rest) = .ok v := fun _ => read_toCbor_append
  refine ⟨written, fun bs v rest short h => ?_⟩
  obtain ⟨shallow, fits⟩ := read_bounded (Nat.le_of_lt short) h
  exact written v rest shallow fits

/-- A key that stands twice, and numbers of each width: a zero with a sign, the least positive number
of each width, an infinity and a NaN with a payload. -/
def parcel : Value :=
  .object [("é", .number Double.negativeZero), ("", .array [.number ⟨0x3e70000000000000⟩,
    .number ⟨0x36a0000000000000⟩, .number ⟨1⟩, .object []]),
    ("é", .array [.number (Double.infinity true), .number ⟨0xfff8000000000001⟩])]

/-- A list of open length with an integer in a wide head, a tag, and a text in chunks. -/
def foreign : Bytes :=
  [0x9f, 0x19, 0x00, 0x05, 0xc1, 0xf7, 0x7f, 0x61, 0x61, 0x60, 0xff, 0xff, 0x00]

theorem parcel_undone : parcel.depth ≤ maxDepth ∧ parcel.Fits (2 ^ 64)
    ∧ parcel.toCbor = [0xa3, 0x62, 0xc3, 0xa9, 0xf9, 0x80, 0x00, 0x60, 0x84, 0xf9, 0x00, 0x01,
      0xfa, 0x00, 0x00, 0x00, 0x01, 0xfb, 0x00, 0x00, 0x00, 0x00, 0x00, 0x00, 0x00, 0x01, 0xa0,
      0x62, 0xc3, 0xa9, 0x82, 0xf9, 0xfc, 0x00, 0xfb, 0xff, 0xf8, 0x00, 0x00, 0x00, 0x00, 0x00,
      0x01]
    ∧ read (parcel.toCbor ++ [0xff, 0x00]) = .ok parcel
    ∧ ∃ v, v = .array [.number (Double.ofNat 5), .null, .text "a"] ∧ foreign.length < 2 ^ 64
      ∧ read foreign = .ok v ∧ read (v.toCbor ++ [0xa0]) = .ok v := by
  have shallow : parcel.depth ≤ maxDepth := by decide
  have fits : parcel.Fits (2 ^ 64) := fits_of_short (by decide +kernel)
  have short : foreign.length < 2 ^ 64 := by decide
  exact ⟨shallow, fits, by decide +kernel, undone_by_reading.1 parcel _ shallow fits,
    _, rfl, short, rfl, undone_by_reading.2 foreign _ _ short rfl⟩

/-- A NaN with a payload is not replaced. -/
theorem payload_kept : Double.isNaN ⟨0x7ff8000000000001⟩ = true
    ∧ read (Value.number ⟨0x7ff8000000000001⟩).toCbor = .ok (.number ⟨0x7ff8000000000001⟩)
    ∧ read (Value.number ⟨0x7ff8000000000001⟩).toCbor ≠ .ok (.number Double.nan) := by
  have kept : read (Value.number ⟨0x7ff8000000000001⟩).toCbor
      = .ok (.number ⟨0x7ff8000000000001⟩) := rfl
  refine ⟨by decide, kept, fun h => ?_⟩
  cases kept.symm.trans h

end Cbor

end LiveTree
