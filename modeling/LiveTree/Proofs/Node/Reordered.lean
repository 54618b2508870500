import LiveTree.Proofs.Node.Wire
import LiveTree.Proofs.OrderedMap.Reference

/-!
# The way a node came about does not show

Two nodes with the same content have the same digest, however their maps are shaped, and whichever
digests they remember. The digest can be read off the outline, and in the outline no shape is left.
And values that are told apart only by the order in which their objects list their pairs have nodes
with the same leaves, as long as no object has a key twice.
-/

namespace LiveTree

namespace Value

/-- No object has a key twice, at any depth. -/
inductive Distinct : Value → Prop where
  | null : Distinct null
  | bool (b : Bool) : Distinct (bool b)
  | number (x : Double) : Distinct (number x)
  | text (s : String) : Distinct (text s)
  | array {items : List Value} (members : ∀ v ∈ items, Distinct v) : Distinct (array items)
  | object {pairs : List (String × Value)} (names : (pairs.map Prod.fst).Nodup)
      (members : ∀ e ∈ pairs, Distinct e.2) : Distinct (object pairs)

/-- The second value is the first one with the pairs of some objects in another order, at any
depth. -/
inductive Reordered : Value → Value → Prop where
  | refl (v : Value) : Reordered v v
  | trans {v w x : Value} : Reordered v w → Reordered w x → Reordered v x
  | pairs {before after : List (String × Value)} :
      before.Perm after → Reordered (object before) (object after)
  | item (before after : List Value) {v w : Value} :
      Reordered v w → Reordered (array (before ++ v :: after)) (array (before ++ w :: after))
  | member (before after : List (String × Value)) (key : String) {v w : Value} : Reordered v w →
      Reordered (object (before ++ (key, v) :: after)) (object (before ++ (key, w) :: after))

variable {v w : Value}

theorem forall_mem_replaced {α : Type} {P : α → Prop} {before after : List α} {x y : α}
    (h : ∀ z ∈ before ++ x :: after, P z) (keep : P x → P y) :
    ∀ z ∈ before ++ y :: after, P z := by
  obtain ⟨front, h⟩ := List.forall_mem_append.mp h
  obtain ⟨here, back⟩ := List.forall_mem_cons.mp h
  exact List.forall_mem_append.mpr ⟨front, List.forall_mem_cons.mpr ⟨keep here, back⟩⟩

theorem Reordered.distinct (h : Reordered v w) (distinct : Distinct v) : Distinct w := by
  induction h with
  | refl v => exact distinct
  | trans _ _ ih ih' => exact ih' (ih distinct)
  | pairs perm =>
    cases distinct with
    | object names members =>
      exact .object ((perm.map Prod.fst).nodup_iff.mp names) fun e he =>
        members e (perm.mem_iff.mpr he)
  | item before after _ ih =>
    cases distinct with
    | array members => exact .array (forall_mem_replaced members ih)
  | member before after key _ ih =>
    cases distinct with
    | object names members =>
      refine .object ?_ (forall_mem_replaced members ih)
      rw [List.map_append, List.map_cons] at names ⊢
      exact names

end Value

namespace Node

open OrderedMap (Call ofCalls)

variable {m n : Node} {v w : Value}

mutual

/-- The digest of what has the given outline. -/
def digestOfOutline : Value → Option Digest
  | .bool b => some (Digest.ofBool b)
  | .number x => some (numberDigest x)
  | .text s => some (textDigest s)
  | .object pairs => digestOfParts (outlineParts pairs)
  | _ => none

def outlineParts : List (String × Value) → Bytes
  | [] => []
  | (k, v) :: rest => digestPart k (digestOfOutline v) ++ outlineParts rest

end

theorem outlineParts_eq (pairs : List (String × Value)) :
    outlineParts pairs = pairs.flatMap fun e => digestPart e.1 (digestOfOutline e.2) := by
  induction pairs with
  | nil => rfl
  | cons e pairs ih => rw [outlineParts, ih, List.flatMap_cons]

theorem outline_of_empty {children : Children} {kept : Memo} (none : children.size = 0) :
    (internal children kept).outline = .null := by
  rw [outline, if_pos none]

theorem Ordered.contentHash_eq (h : Ordered n) : n.contentHash = digestOfOutline n.outline := by
  induction h with
  | @leaf n leaf =>
    cases n with
    | internal => cases leaf
    | _ => rfl
  | @internal children kept sound below ih =>
    rw [contentHash_internal, gatherDigests, List.flatMap_map]
    by_cases none : children.size = 0
    · have empty := sound.isEmpty_iff.mp (beq_iff_eq.mpr none)
      rw [outline_of_empty none, empty]
      rfl
    · rw [outline_of_size none, digestOfOutline, outlineParts_eq, List.flatMap_map]
      congr 1
      refine List.flatMap_congr fun e he => ?_
      rw [ih e.1 e.2 ((OrderedMap.get?_eq_some_iff sound).mpr he)]

theorem Ordered.hash_eq_of_sameAs (hm : Ordered m) (hn : Ordered n) (honest : Honest m)
    (honest' : Honest n) (same : m.sameAs n = true) : m.hash = n.hash := by
  have outlines := (Value.identicalTo_iff m.outline n.outline).mp same
  rw [hm.hash_eq honest, hn.hash_eq honest', hm.contentHash_eq, hn.contentHash_eq, outlines]

theorem ordered_ofCalls (calls : List (Call String Node)) (kept : Memo)
    (below : ∀ k n, (ofCalls Segment.compare calls).1.get? k = some n → Ordered n) :
    Ordered (internal (ofCalls Segment.compare calls).1 kept) :=
  .internal kept (OrderedMap.represents_ofCalls calls).1.sound below

theorem Shows.alike (h : Shows id m n) : Alike m n := by
  intro names
  rw [h.leaves, Option.map_id, id]

theorem shows_of_alike (alike : Alike (ofValue v) (ofValue w)) :
    Shows id (ofValue v) (ofValue w) := by
  refine ⟨tidy_ofValue v, tidy_ofValue w, fun names => ?_⟩
  rw [← alike, Option.map_id, id]

/-- The same nodes under names of their own, added in another order, are the same children. -/
theorem childOf_addAll_perm {entries others : List (String × Node)} (perm : entries.Perm others)
    (names : (entries.map Prod.fst).Nodup) (tidy : ∀ e ∈ entries, Tidy e.2) (key : String) :
    childOf (entries.foldl addChild OrderedMap.empty) key
      = childOf (others.foldl addChild OrderedMap.empty) key := by
  have perm' := perm.map Prod.fst
  obtain ⟨there, elsewhere⟩ := childOf_addAll OrderedMap.sound_empty names tidy fun _ _ => rfl
  obtain ⟨there', elsewhere'⟩ := childOf_addAll OrderedMap.sound_empty (perm'.nodup_iff.mp names)
    (fun e he => tidy e (perm.mem_iff.mpr he)) fun _ _ => rfl
  by_cases named : key = "" ∨ key ∉ entries.map Prod.fst
  · rw [elsewhere key named, elsewhere' key (named.imp_right fun h => perm'.mem_iff.not.mp h)]
  · obtain ⟨name, mem⟩ := not_or.mp named
    obtain ⟨e, he, rfl⟩ := List.mem_map.mp (not_not.mp mem)
    rw [there e he name, there' e (perm.mem_iff.mp he) name]

theorem alike_of_perm {pairs pairs' : List (String × Value)} (perm : pairs.Perm pairs')
    (names : (pairs.map Prod.fst).Nodup) :
    Alike (ofValue (.object pairs)) (ofValue (.object pairs')) := by
  have perm' : (Fields.mapValues ofValue pairs).Perm (Fields.mapValues ofValue pairs') := perm.map _
  rw [← Fields.keys_mapValues ofValue] at names
  rw [ofValue_object, ofValue_object]
  intro place
  cases place with
  | nil => rw [ofEntries, ofEntries, leaf?_ofChildren_nil, leaf?_ofChildren_nil]
  | cons s rest =>
    rw [leaf?_ofEntries_cons fun _ => tidy_of_mem_mapValues,
      leaf?_ofEntries_cons fun _ => tidy_of_mem_mapValues,
      childOf_addAll_perm perm' names fun _ => tidy_of_mem_mapValues]

theorem showsEach_indexed {g : Value → Value} {items others : List Value}
    (h : List.Forall₂ (fun v w => Shows g (ofValue v) (ofValue w)) items others) (start : Nat) :
    ShowsEach g (Value.indexed start items) (Value.indexed start others) := by
  induction h generalizing start with
  | nil => exact .nil
  | cons h _ ih => exact .cons ⟨rfl, h⟩ (ih (start + 1))

theorem forall₂_replaced {α : Type} (R : α → α → Prop) (refl : ∀ x, R x x) {x y : α}
    (h : R x y) (before after : List α) :
    List.Forall₂ R (before ++ x :: after) (before ++ y :: after) :=
  List.rel_append (List.forall₂_same.mpr fun x _ => refl x)
    (.cons h (List.forall₂_same.mpr fun x _ => refl x))

theorem shows_of_reordered (h : v.Reordered w) (distinct : v.Distinct) :
    Shows id (ofValue v) (ofValue w) := by
  have refl : ∀ v, Shows id (ofValue v) (ofValue v) := fun _ => shows_of_alike fun _ => rfl
  induction h with
  | refl v => exact refl v
  | trans first _ ih ih' =>
    have alike := (ih distinct).alike
    have alike' := (ih' (first.distinct distinct)).alike
    exact shows_of_alike fun names => (alike names).trans (alike' names)
  | pairs perm =>
    cases distinct with
    | object names => exact shows_of_alike (alike_of_perm perm names)
  | item before after _ ih =>
    cases distinct with
    | array members =>
      have shown := ih (members _ (by simp))
      have each := forall₂_replaced (fun v w => Shows id (ofValue v) (ofValue w)) refl shown
      rw [ofValue_array, ofValue_array]
      exact shows_ofEntries (showsEach_indexed (each before after) 0)
  | member before after key _ ih =>
    cases distinct with
    | object names members =>
      have shown := ih (members (key, _) (by simp))
      rw [ofValue_object, ofValue_object]
      exact shows_ofEntries
        (forall₂_replaced _ (fun e => ⟨rfl, refl e.2⟩) ⟨rfl, shown⟩ before after)

/-- What a map went through does not show in the digest: nodes over any maps, with any right digests
remembered, have one digest if they are equal. And values without double keys, told apart by the
order of pairs alone, have equal nodes, with one digest, and become one value again. -/
theorem built_in_any_order :
    (∀ calls kept, (∀ k n, (ofCalls Segment.compare calls).1.get? k = some n → Ordered n) →
      Ordered (internal (ofCalls Segment.compare calls).1 kept))
    ∧ (∀ m n, Ordered m → Ordered n → Honest m → Honest n → m.sameAs n = true → m.hash = n.hash)
    ∧ ∀ v w : Value, v.Distinct → v.Reordered w → (ofValue v).sameAs (ofValue w) = true
      ∧ (ofValue v).hash = (ofValue w).hash ∧ (ofValue v).toValue = (ofValue w).toValue := by
  refine ⟨ordered_ofCalls, fun _ _ => Ordered.hash_eq_of_sameAs, fun v w distinct reordered => ?_⟩
  have alike := (shows_of_reordered reordered distinct).alike
  have hv := tidy_ofValue v
  have hw := tidy_ofValue w
  have same := (hv.sameAs_iff hw).mpr alike
  exact ⟨same, hv.ordered.hash_eq_of_sameAs hw.ordered (honest_ofValue v) (honest_ofValue w) same,
    hv.toValue_eq hw alike⟩

/-- None of the children has children, and none remembers a wrong digest. -/
def Flat (children : Children) : Prop :=
  ∀ e ∈ children.toList, e.2.children?.isNone ∧ ∀ d ∈ e.2.memo, d = e.2.contentHash

instance (children : Children) : Decidable (Flat children) :=
  inferInstanceAs (Decidable (∀ e ∈ children.toList, _))

theorem Flat.get {children : Children} (flat : Flat children) (sound : children.Sound) {k : String}
    (h : children.get? k = some n) :
    n.children? = none ∧ ∀ d, n.memo = some d → d = n.contentHash := by
  obtain ⟨leaf, right⟩ := flat (k, n) ((OrderedMap.get?_eq_some_iff sound).mp h)
  exact ⟨Option.isNone_iff_eq_none.mp leaf, right⟩

theorem Flat.honest {children : Children} (flat : Flat children) (sound : children.Sound) :
    Honest (internal children none) := by
  refine honest_internal_iff.mpr ⟨nofun, fun k n h => ?_⟩
  obtain ⟨leaf, right⟩ := flat.get sound h
  exact honest_leaf leaf right

def rising : List (Call String Node) :=
  [.insert "1" (.bool true), .insert "2" .null, .insert "9" (.text "z" none),
    .insert "10" (.number ⟨5⟩ none)]

/-- The same children, the last one first and with another one meanwhile. Their digests are
remembered already. -/
def falling : List (Call String Node) :=
  [.insert "10" (.number ⟨5⟩ (some (some (numberDigest ⟨5⟩)))), .insert "x" .null,
    .insert "9" (.text "z" (some (some (textDigest "z")))), .remove "x", .insert "2" .null,
    .insert "1" (.bool true)]

def rooms : Value :=
  .object [("rooms", .array [.object [("size", .number ⟨1⟩), ("name", .text "x"),
    ("", .bool true)]]), ("gone", .null), ("none", .object [])]

/-- The rooms, with the pairs of both objects the other way round. -/
def roomsBackwards : Value :=
  .object [("none", .object []), ("gone", .null), ("rooms", .array [.object [("", .bool true),
    ("name", .text "x"), ("size", .number ⟨1⟩)]])]

theorem distinct_rooms : rooms.Distinct := by
  refine .object (by decide) ?_
  simp only [List.forall_mem_cons]
  refine ⟨.array ?_, .null, .object List.nodup_nil nofun, nofun⟩
  simp only [List.forall_mem_cons]
  refine ⟨.object (by decide) ?_, nofun⟩
  simp only [List.forall_mem_cons]
  exact ⟨.number _, .text _, .bool _, nofun⟩

theorem reordered_rooms : rooms.Reordered roomsBackwards :=
  .trans (.member [] _ "rooms" (.item [] [] (.pairs (List.reverse_perm _).symm)))
    (.pairs (List.reverse_perm _).symm)

theorem rooms_built_backwards :
    (internal (ofCalls Segment.compare rising).1 none).hash
      = (internal (ofCalls Segment.compare falling).1 none).hash
    ∧ rooms.Distinct ∧ rooms.Reordered roomsBackwards
    ∧ (ofValue rooms).sameAs (ofValue roomsBackwards) = true
    ∧ (ofValue rooms).hash = (ofValue roomsBackwards).hash
    ∧ (ofValue rooms).toValue = (ofValue roomsBackwards).toValue := by
  obtain ⟨histories, equal, values⟩ := built_in_any_order
  have sound : ∀ calls : List (Call String Node), (ofCalls Segment.compare calls).1.Sound :=
    fun calls => (OrderedMap.represents_ofCalls calls).1.sound
  have flat : Flat (ofCalls Segment.compare rising).1 := by decide +kernel
  have flat' : Flat (ofCalls Segment.compare falling).1 := by decide +kernel
  refine ⟨?_, distinct_rooms, reordered_rooms, values _ _ distinct_rooms reordered_rooms⟩
  refine equal _ _ (histories rising none ?_) (histories falling none ?_)
    (flat.honest (sound rising)) (flat'.honest (sound falling)) (by decide +kernel)
  · exact fun k n h => .leaf (flat.get (sound rising) h).1
  · exact fun k n h => .leaf (flat'.get (sound falling) h).1

end Node

end LiveTree
