import LiveTree.Json.Reader
import LiveTree.Proofs.Json.Numbers

/-!
# Documents

What each reader makes of a text, in front of any rest that may follow a value: what its members are
read as, with the separators and brackets between them. Whatever is read from a document is regular,
and nested no deeper than the limit.
-/

namespace LiveTree.Json

variable {fuel depth : Nat} {rest cs : List Char} {v : Value}

theorem hexDigit?_digitChar {k : Nat} (h : k < 16) : Text.hexDigit? (Nat.digitChar k) = some k := by
  have all : ∀ k : Fin 16, Text.hexDigit? (Nat.digitChar k) = some k.val := by decide
  exact all ⟨k, h⟩

theorem readUnicode_control {c : Char} (h : c.toNat < 32) (rest : List Char) :
    readUnicode ('0' :: '0' :: Nat.digitChar (c.toNat / 16) :: Nat.digitChar (c.toNat % 16) :: rest)
      = some (c, rest) := by
  have high := hexDigit?_digitChar (k := c.toNat / 16) (by omega)
  have low := hexDigit?_digitChar (k := c.toNat % 16) (by omega)
  have zero : Text.hexDigit? '0' = some 0 := by decide
  have unit : readUnit ('0' :: '0' :: Nat.digitChar (c.toNat / 16)
      :: Nat.digitChar (c.toNat % 16) :: rest) = some (c.toNat, rest) := by
    simp only [readUnit, zero, high, low, Option.bind_eq_bind, Option.bind_some, Option.pure_def]
    congr 2
    omega
  have plain : ¬ 0xd800 ≤ c.toNat := by omega
  have plain' : ¬ 0xdc00 ≤ c.toNat := by omega
  simp [readUnicode, unit, plain, plain', Char.ofNat_toNat]

/-- A character stands for itself, or an escape stands for it. -/
theorem escape_cases (c : Char) :
    (escape c = [c] ∧ c ≠ '"' ∧ c ≠ '\\' ∧ ¬ c.toNat < 32)
      ∨ ∃ e, escape c = '\\' :: e ∧ ∀ rest, readEscape (e ++ rest) = some (c, rest) := by
  unfold escape
  -- the characters with an escape of their own
  iterate 7
    split
    · rename_i same
      subst same
      exact Or.inr ⟨_, rfl, fun _ => rfl⟩
  split
  · rename_i control
    exact Or.inr ⟨_, rfl, readUnicode_control control⟩
  · exact Or.inl ⟨rfl, ‹_›, ‹_›, ‹_›⟩

theorem escape_ne_nil (c : Char) : escape c ≠ [] := by
  rcases escape_cases c with ⟨h, _⟩ | ⟨e, h, _⟩
  · exact h ▸ List.cons_ne_nil c []
  · exact h ▸ List.cons_ne_nil '\\' e

theorem readText_escape {s : List Char} (c : Char) (h : readText fuel cs = some (s, rest)) :
    readText (fuel + 1) (escape c ++ cs) = some (c :: s, rest) := by
  rcases escape_cases c with ⟨same, quote, slash, visible⟩ | ⟨e, same, read⟩
  · rw [same, List.singleton_append, readText.eq_5 _ _ _ quote slash, if_neg visible, h]
    rfl
  · rw [same, List.cons_append, readText, read, Option.bind_eq_bind, Option.bind_some]
    dsimp only
    rw [h]
    rfl

theorem readText_write {s : List Char} (enough : s.length < fuel) (rest : List Char) :
    readText fuel (s.flatMap escape ++ '"' :: rest) = some (s, rest) := by
  induction s generalizing fuel with
  | nil =>
    obtain ⟨fuel, rfl⟩ := Nat.exists_eq_succ_of_ne_zero (Nat.ne_of_gt enough)
    rfl
  | cons c s ih =>
    obtain ⟨fuel, rfl⟩ := Nat.exists_eq_succ_of_ne_zero (Nat.ne_of_gt (Nat.zero_lt_of_lt enough))
    rw [List.flatMap_cons, List.append_assoc]
    exact readText_escape c (ih (Nat.lt_of_succ_lt_succ enough))

theorem length_le_flatMap_escape (s : List Char) : s.length ≤ (s.flatMap escape).length := by
  induction s with
  | nil => exact Nat.le_refl 0
  | cons c s ih =>
    have some_ := List.length_pos_iff.mpr (escape_ne_nil c)
    rw [List.flatMap_cons, List.length_append, List.length_cons]
    omega

/-- A text is read after its opening quote, with the fuel that its characters give. -/
theorem readText_of_writeText (s : String) (rest : List Char) :
    ∃ cs, writeText s ++ rest = '"' :: cs
      ∧ readText (cs.length + 1) cs = some (s.toList, rest) := by
  refine ⟨s.toList.flatMap escape ++ '"' :: rest, by simp [writeText], readText_write ?_ rest⟩
  have long := length_le_flatMap_escape s.toList
  rw [List.length_append]
  omega

theorem skipBlank_cons {c : Char} (h : isBlank c = false) (cs : List Char) :
    skipBlank (c :: cs) = c :: cs :=
  List.dropWhile_cons_of_neg (Bool.eq_false_iff.mp h)

section Sequence

variable {α β : Type} {read : List Char → Option (α × List Char)} {close : Char}

/-- Members between commas, up to the closing bracket. Items and pairs are both read so. -/
def readSequence (close : Char) (read : List Char → Option (α × List Char)) :
    Nat → List Char → Option (List α × List Char)
  | 0, _ => none
  | fuel + 1, cs =>
    (read cs).bind fun (a, rest) =>
      match skipBlank rest with
      | [] => none
      | c :: rest =>
        if c = close then some ([a], rest)
        else if c = ',' then
          (readSequence close read fuel rest).map fun (as, rest) => (a :: as, rest)
        else none

section Step

variable {a : α} {r r' : List Char}

theorem readSequence_refused (first : read cs = none) :
    readSequence close read (fuel + 1) cs = none := by
  rw [readSequence, first]
  rfl

theorem readSequence_last (first : read cs = some (a, r)) (next : skipBlank r = close :: r') :
    readSequence close read (fuel + 1) cs = some ([a], r') := by
  rw [readSequence, first, Option.bind_some]
  dsimp only
  rw [next]
  exact if_pos rfl

theorem readSequence_more (comma : ',' ≠ close) (first : read cs = some (a, r))
    (next : skipBlank r = ',' :: r') : readSequence close read (fuel + 1) cs
      = (readSequence close read fuel r').map fun (as, rest) => (a :: as, rest) := by
  rw [readSequence, first, Option.bind_some]
  dsimp only
  rw [next]
  exact (if_neg comma).trans (if_pos rfl)

theorem readSequence_broken (first : read cs = some (a, r))
    (no_end : ∀ r', skipBlank r = close :: r' → False)
    (no_comma : ∀ r', skipBlank r = ',' :: r' → False) :
    readSequence close read (fuel + 1) cs = none := by
  rw [readSequence, first, Option.bind_some]
  dsimp only
  split
  · rfl
  · rename_i c r' next
    have end_ : c ≠ close := fun same => no_end r' (same ▸ next)
    have comma : c ≠ ',' := fun same => no_comma r' (same ▸ next)
    rw [if_neg end_, if_neg comma]

end Step

theorem length_le_separated (parts : List (List Char)) :
    parts.length ≤ (separated parts).length + 1 := by
  induction parts with
  | nil => exact Nat.zero_le _
  | cons part parts ih =>
    cases parts with
    | nil => exact Nat.le_add_left 1 _
    | cons next parts =>
      rw [separated, List.length_append, List.length_cons, List.length_cons]
      · rw [List.length_cons] at ih ⊢
        omega
      · exact List.cons_ne_nil next parts

theorem separated_cons {parts : List (List Char)} (more : parts ≠ []) (part : List Char) :
    separated (part :: parts) = part ++ ',' :: separated parts := by
  obtain ⟨next, parts, rfl⟩ := List.exists_cons_of_ne_nil more
  rfl

theorem exists_separated_append (part : List Char) (parts : List (List Char)) :
    ∃ tail, separated (part :: parts) = part ++ tail := by
  cases parts with
  | nil => exact ⟨[], (List.append_nil part).symm⟩
  | cons next parts => exact ⟨_, separated_cons (List.cons_ne_nil next parts) part⟩

theorem readSequence_separated {members : List β} {text : β → List Char} {value : β → Option α}
    (hc : close = ']' ∨ close = '\x7d') (some_ : members ≠ [])
    (reads : ∀ x ∈ members, ReadsAs read (text x) (value x)) (enough : members.length ≤ fuel)
    (rest : List Char) :
    readSequence close read fuel (separated (members.map text) ++ close :: rest)
      = (members.mapM value).map fun as => (as, rest) := by
  have solid : isBlank close = false := by rcases hc with rfl | rfl <;> rfl
  induction members generalizing fuel with
  | nil => exact absurd rfl some_
  | cons x members ih =>
    obtain ⟨hx, hxs⟩ := List.forall_mem_cons.mp reads
    obtain ⟨fuel, rfl⟩ := Nat.exists_eq_succ_of_ne_zero (Nat.ne_of_gt (Nat.zero_lt_of_lt enough))
    rw [List.mapM_cons]
    cases members with
    | nil =>
      have last := hx (close :: rest) (Ends.of_head (Or.inr hc) rest)
      rw [List.map_singleton, separated]
      cases found : value x with
      | none => exact readSequence_refused (last.trans (congrArg _ found))
      | some a =>
        exact readSequence_last (last.trans (congrArg _ found)) (skipBlank_cons solid rest)
    | cons y members =>
      have first := hx (',' :: (separated ((y :: members).map text) ++ close :: rest))
        (Ends.of_head (Or.inl rfl) _)
      have others := ih (List.cons_ne_nil y members) hxs (Nat.le_of_succ_le_succ enough)
      have comma : ',' ≠ close := by rcases hc with rfl | rfl <;> decide
      rw [List.map_cons, separated_cons (by simp), List.append_assoc, List.cons_append]
      cases found : value x with
      | none => exact readSequence_refused (first.trans (congrArg _ found))
      | some a =>
        rw [readSequence_more comma (first.trans (congrArg _ found)) (skipBlank_cons rfl _), others]
        cases (y :: members).mapM value <;> rfl

/-- The characters of the text are fuel enough. -/
theorem readSequence_whole {members : List β} {text : β → List Char} {value : β → Option α}
    (hc : close = ']' ∨ close = '\x7d') (some_ : members ≠ [])
    (reads : ∀ x ∈ members, ReadsAs read (text x) (value x))
    (whole : cs = separated (members.map text) ++ close :: rest) :
    readSequence close read (cs.length + 1) cs = (members.mapM value).map fun as => (as, rest) := by
  have enough := length_le_separated (members.map text)
  rw [List.length_map] at enough
  subst whole
  refine readSequence_separated hc some_ reads ?_ rest
  rw [List.length_append]
  omega

theorem readSequence_forall {P : α → Prop} (h : ∀ {cs a rest}, read cs = some (a, rest) → P a)
    {as : List α} (read_ : readSequence close read fuel cs = some (as, rest)) : ∀ a ∈ as, P a := by
  induction fuel generalizing cs as with
  | zero => cases read_
  | succ fuel ih =>
    rw [readSequence, Option.bind_eq_some_iff] at read_
    obtain ⟨⟨a, r⟩, first, next⟩ := read_
    dsimp only at next
    split at next
    · cases next
    · split at next
      · cases next
        exact List.forall_mem_singleton.mpr (h first)
      · split at next
        · obtain ⟨⟨as, _⟩, others, ⟨⟩⟩ := Option.map_eq_some_iff.mp next
          exact List.forall_mem_cons.mpr ⟨h first, ih others⟩
        · cases next

end Sequence

section Containers

variable {β : Type} {read : List Char → Option (Value × List Char)}

theorem readItems_eq (fuel : Nat) (cs : List Char) :
    readItems read fuel cs = readSequence ']' read fuel cs := by
  induction fuel generalizing cs with
  | zero => rfl
  | succ fuel ih =>
    rw [readItems]
    cases first : read cs with
    | none => rw [readSequence, first]; rfl
    | some p =>
      rw [Option.bind_eq_bind, Option.bind_some]
      dsimp only
      split
      · exact (readSequence_last first ‹_›).symm
      · rw [readSequence_more (by decide) first ‹_›, ih]
        exact Option.map_eq_bind.symm
      · exact (readSequence_broken first ‹_› ‹_›).symm

theorem readPairs_eq (fuel : Nat) (cs : List Char) :
    readPairs read fuel cs = readSequence '\x7d' (readPair read) fuel cs := by
  induction fuel generalizing cs with
  | zero => rfl
  | succ fuel ih =>
    rw [readPairs]
    cases first : readPair read cs with
    | none => rw [readSequence, first]; rfl
    | some p =>
      rw [Option.bind_eq_bind, Option.bind_some]
      dsimp only
      split
      · exact (readSequence_last first ‹_›).symm
      · rw [readSequence_more (by decide) first ‹_›, ih]
        exact Option.map_eq_bind.symm
      · exact (readSequence_broken first ‹_› ‹_›).symm

/-- A text that starts with no blank, and does not close an array. -/
def Opens (cs : List Char) : Prop := ∃ c cs', cs = c :: cs' ∧ isBlank c = false ∧ c ≠ ']'

theorem readArray_separated {items : List β} {text : β → List Char} {value : β → Option Value}
    (opens : ∀ x ∈ items, Opens (text x)) (reads : ∀ x ∈ items, ReadsAs read (text x) (value x))
    (rest : List Char) :
    readArray read (separated (items.map text) ++ ']' :: rest)
      = (items.mapM value).map fun vs => (.array vs, rest) := by
  cases items with
  | nil => rfl
  | cons x items =>
    obtain ⟨c, cs, first, solid, more⟩ := opens x (.head _)
    obtain ⟨tail, whole⟩ := exists_separated_append (text x) (items.map text)
    have start : c :: (cs ++ tail ++ ']' :: rest)
        = separated ((x :: items).map text) ++ ']' :: rest := by
      rw [List.map_cons, whole, first]
      rfl
    have members := readSequence_whole (Or.inl rfl) (List.cons_ne_nil x items) reads start
    rw [← start, readArray, skipBlank_cons solid]
    split
    · rename_i closed
      cases closed
      exact absurd rfl more
    · rw [readItems_eq, members, Option.map_map]
      rfl

/-- The pair of a key and what is read after it. -/
def keyed (p : String × Option Value) : Option (String × Value) := p.2.map fun v => (p.1, v)

theorem readPair_field {text : List Char} {o : Option Value} (key : String)
    (h : ReadsAs read text o) : ReadsAs (readPair read) (writeField (key, text)) (keyed (key, o)) := by
  intro rest ends
  obtain ⟨cs, quoted, key_⟩ := readText_of_writeText key (':' :: (text ++ rest))
  rw [writeField, List.append_assoc, List.cons_append, quoted, readPair, skipBlank_cons rfl]
  change (readText (cs.length + 1) cs).bind _ = _
  rw [key_, Option.bind_some]
  dsimp only
  rw [skipBlank_cons rfl]
  change (read (text ++ rest)).bind _ = _
  rw [h rest ends, String.ofList_toList]
  cases o <;> rfl

theorem readObject_separated {pairs : List (String × β)} {text : β → List Char}
    {value : β → Option Value} (reads : ∀ p ∈ pairs, ReadsAs read (text p.2) (value p.2))
    (rest : List Char) :
    readObject read (separated (pairs.map fun p => writeField (p.1, text p.2)) ++ '\x7d' :: rest)
      = ((Fields.mapValues value pairs).mapM keyed).map fun ps =>
        (.object (Fields.settle ps), rest) := by
  cases pairs with
  | nil => rfl
  | cons p pairs =>
    have fields : ∀ q ∈ p :: pairs,
        ReadsAs (readPair read) (writeField (q.1, text q.2)) (keyed (q.1, value q.2)) :=
      fun q hq => readPair_field q.1 (reads q hq)
    obtain ⟨tail, whole⟩ := exists_separated_append (writeField (p.1, text p.2))
      (pairs.map fun p => writeField (p.1, text p.2))
    obtain ⟨cs, start⟩ : ∃ cs, '"' :: cs = separated
        ((p :: pairs).map fun p => writeField (p.1, text p.2)) ++ '\x7d' :: rest := by
      rw [List.map_cons, whole]
      exact ⟨_, rfl⟩
    have members := readSequence_whole (Or.inr rfl) (List.cons_ne_nil p pairs) fields start
    rw [← start, readObject, skipBlank_cons rfl]
    change (readPairs read _ _).map _ = _
    rw [readPairs_eq, members, Option.map_map, Fields.mapValues, List.mapM_map]
    rfl

theorem readArray_cases {P : Value → Prop} (h : ∀ {cs v rest}, read cs = some (v, rest) → P v)
    (read_ : readArray read cs = some (v, rest)) : ∃ items, v = .array items ∧ ∀ w ∈ items, P w := by
  unfold readArray at read_
  split at read_
  · cases read_
    exact ⟨[], rfl, nofun⟩
  · obtain ⟨⟨items, _⟩, members, ⟨⟩⟩ := Option.map_eq_some_iff.mp read_
    rw [readItems_eq] at members
    exact ⟨items, rfl, readSequence_forall h members⟩

theorem readPair_cases {P : Value → Prop} (h : ∀ {cs v rest}, read cs = some (v, rest) → P v)
    {p : String × Value} (read_ : readPair read cs = some (p, rest)) : P p.2 := by
  unfold readPair at read_
  split at read_
  · obtain ⟨⟨key, r⟩, _, next⟩ := Option.bind_eq_some_iff.mp read_
    dsimp only at next
    split at next
    · obtain ⟨⟨v, r⟩, value, ⟨⟩⟩ := Option.bind_eq_some_iff.mp next
      exact h value
    · cases next
  · cases read_

theorem readObject_cases {P : Value → Prop} (h : ∀ {cs v rest}, read cs = some (v, rest) → P v)
    (read_ : readObject read cs = some (v, rest)) :
    ∃ pairs, v = .object (Fields.settle pairs) ∧ ∀ p ∈ pairs, P p.2 := by
  unfold readObject at read_
  split at read_
  · cases read_
    exact ⟨[], rfl, nofun⟩
  · obtain ⟨⟨pairs, _⟩, members, ⟨⟩⟩ := Option.map_eq_some_iff.mp read_
    rw [readPairs_eq] at members
    exact ⟨pairs, rfl, readSequence_forall (P := fun p => P p.2) (readPair_cases h) members⟩

end Containers

theorem readValue_array (depth : Nat) (cs : List Char) :
    readValue (depth + 1) ('[' :: cs) = readArray (readValue depth) cs := by
  rw [readValue, skipBlank_cons rfl]
  rfl

theorem readValue_object (depth : Nat) (cs : List Char) :
    readValue (depth + 1) ('\x7b' :: cs) = readObject (readValue depth) cs := by
  rw [readValue, skipBlank_cons rfl]
  rfl

theorem readValue_scalar {c : Char} (solid : isBlank c = false) (array : c ≠ '[')
    (object : c ≠ '\x7b') (depth : Nat) (cs : List Char) :
    readValue depth (c :: cs) = readScalar (c :: cs) := by
  rw [readValue.eq_def]
  dsimp only
  rw [skipBlank_cons solid]
  split
  · rename_i start
    cases start
    exact absurd rfl array
  · rename_i start
    cases start
    exact absurd rfl object
  · rfl

/-- A number starts with its sign or a digit, and so like nothing else. -/
theorem number_head {c : Char} (h : c = '-' ∨ c.isDigit = true) :
    isBlank c = false ∧ ∀ x ∈ ['n', 't', 'f', '"', '[', ']', '\x7b'], c ≠ x := by
  have digit : ∀ x, x ≠ '-' → x.isDigit = false → c ≠ x := by
    rintro x other none rfl
    rw [h.resolve_left other] at none
    cases none
  refine ⟨?_, by simp [digit]⟩
  have solid : ∀ x ∈ [' ', '\t', '\n', '\r'], c ≠ x := by simp [digit]
  simpa [isBlank, and_assoc] using solid

theorem readScalar_number {c : Char} (head : c = '-' ∨ c.isDigit = true) (cs : List Char) :
    readScalar (c :: cs) = (readNumber (c :: cs)).map fun p => (.number p.1, p.2) := by
  have other := (number_head head).2
  unfold readScalar
  split
  iterate 4
    rename_i start
    cases start
    exact absurd rfl (other _ (by decide))
  rfl

theorem readValue_number {c : Char} (head : c = '-' ∨ c.isDigit = true) (depth : Nat)
    (cs : List Char) :
    readValue depth (c :: cs) = (readNumber (c :: cs)).map fun p => (.number p.1, p.2) := by
  obtain ⟨solid, other⟩ := number_head head
  rw [readValue_scalar solid (other '[' (by decide)) (other '\x7b' (by decide))]
  exact readScalar_number head cs

theorem opens_number (n : Double) : Opens (writeNumber n) := by
  by_cases finite : n.isFinite = true
  · obtain ⟨c, cs, start, head⟩ := head_writeNumber finite
    obtain ⟨solid, other⟩ := number_head head
    exact ⟨c, cs, start, solid, other ']' (by decide)⟩
  · rw [writeNumber_of_not_finite (Bool.eq_false_iff.mpr finite)]
    exact ⟨'n', _, rfl, rfl, by decide⟩

theorem opens_write (v : Value) : Opens (write v) := by
  cases v with
  | null => exact ⟨'n', _, rfl, rfl, by decide⟩
  | bool b => cases b <;> exact ⟨_, _, rfl, rfl, by decide⟩
  | number n => exact opens_number n
  | text s => exact ⟨'"', _, rfl, rfl, by decide⟩
  | array items => exact ⟨'[', _, rfl, rfl, by decide⟩
  | object pairs => exact ⟨'\x7b', _, rfl, rfl, by decide⟩

theorem readScalar_cases (h : readScalar cs = some (v, rest)) : v.Regular ∧ v.depth = 0 := by
  unfold readScalar at h
  split at h
  · cases h
    exact ⟨.null, rfl⟩
  · cases h
    exact ⟨.bool true, rfl⟩
  · cases h
    exact ⟨.bool false, rfl⟩
  · obtain ⟨⟨s, _⟩, _, ⟨⟩⟩ := Option.map_eq_some_iff.mp h
    exact ⟨.text _, rfl⟩
  · obtain ⟨⟨n, _⟩, number, ⟨⟩⟩ := Option.map_eq_some_iff.mp h
    exact ⟨.number (readNumber_finite number), rfl⟩

theorem readValue_cases (h : readValue depth cs = some (v, rest)) :
    readScalar (skipBlank cs) = some (v, rest) ∨ ∃ limit r, depth = limit + 1
      ∧ (readArray (readValue limit) r = some (v, rest)
        ∨ readObject (readValue limit) r = some (v, rest)) := by
  rw [readValue.eq_def] at h
  dsimp only at h
  split at h
  · rename_i r _
    cases depth with
    | zero => cases h
    | succ limit => exact Or.inr ⟨limit, r, rfl, Or.inl h⟩
  · rename_i r _
    cases depth with
    | zero => cases h
    | succ limit => exact Or.inr ⟨limit, r, rfl, Or.inr h⟩
  · exact Or.inl h

theorem readValue_regular (h : readValue depth cs = some (v, rest)) :
    v.Regular ∧ v.depth ≤ depth := by
  induction depth generalizing cs v rest with
  | zero =>
    rcases readValue_cases h with scalar | ⟨_, _, none, _⟩
    · exact (readScalar_cases scalar).imp_right Nat.le_of_eq
    · cases none
  | succ depth ih =>
    rcases readValue_cases h with scalar | ⟨limit, r, same, container⟩
    · obtain ⟨regular, flat⟩ := readScalar_cases scalar
      exact ⟨regular, flat ▸ Nat.zero_le _⟩
    · cases same
      rcases container with array | object
      · obtain ⟨items, rfl, members⟩ := readArray_cases ih array
        exact ⟨.array fun w hw => (members w hw).1,
          Value.depth_array_le_iff.mpr fun w hw => (members w hw).2⟩
      · obtain ⟨pairs, rfl, members⟩ := readObject_cases ih object
        have settled := fun p hp => members p (Fields.mem_of_mem_settle hp)
        exact ⟨.object (Fields.nodup_settle pairs) fun p hp => (settled p hp).1,
          Value.depth_object_le_iff.mpr fun p hp => (settled p hp).2⟩

theorem read?_eq_some_iff {text : String} : read? text = some v ↔
    ∃ rest, readValue maxDepth text.toList = some (v, rest) ∧ (skipBlank rest).isEmpty = true := by
  rw [read?, Option.bind_eq_bind, Option.bind_eq_some_iff]
  constructor
  · rintro ⟨⟨w, rest⟩, read, last⟩
    dsimp only at last
    split at last
    · cases last
      exact ⟨rest, read, ‹_›⟩
    · cases last
  · rintro ⟨rest, read, last⟩
    exact ⟨_, read, if_pos last⟩

theorem regular_of_read? {text : String} (h : read? text = some v) :
    v.Regular ∧ v.depth ≤ maxDepth := by
  obtain ⟨r, read, _⟩ := read?_eq_some_iff.mp h
  exact readValue_regular read

end LiveTree.Json
