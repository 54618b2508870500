import LiveTree.Cache.Check
import LiveTree.Proofs.Cache.Digests
import LiveTree.Proofs.Node.Identity
import LiveTree.Proofs.Node.Shape
import LiveTree.Proofs.OrderedMap.Reference

/-!
# Caches pass their check

Whatever values are put into a cache and merged into it, its tree has no node without children, no
absent child, no empty name and no map that is out of order, and it is the tree that its own value
builds. With names that may stand in a path, no deeper than paths go, the cache passes its check.
-/

namespace LiveTree

namespace Value

mutual

/-- All names in a value. The positions of items are not among them. -/
def keys : Value → List String
  | array items => keysOfItems items
  | object pairs => keysOfPairs pairs
  | _ => []

def keysOfItems : List Value → List String
  | [] => []
  | v :: rest => v.keys ++ keysOfItems rest

def keysOfPairs : List (String × Value) → List String
  | [] => []
  | (k, v) :: rest => k :: (v.keys ++ keysOfPairs rest)

end

mutual

/-- How many names and positions lead down to the deepest member. -/
def height : Value → Nat
  | array items => heightOfItems items
  | object pairs => heightOfPairs pairs
  | _ => 0

def heightOfItems : List Value → Nat
  | [] => 0
  | v :: rest => max (v.height + 1) (heightOfItems rest)

def heightOfPairs : List (String × Value) → Nat
  | [] => 0
  | (_, v) :: rest => max (v.height + 1) (heightOfPairs rest)

end

variable {v : Value} {items : List Value} {pairs : List (String × Value)} {e : String × Value}

theorem keysOfItems_eq (items : List Value) : keysOfItems items = items.flatMap keys := by
  induction items with
  | nil => rfl
  | cons v items ih => rw [keysOfItems, ih, List.flatMap_cons]

theorem keysOfPairs_eq (pairs : List (String × Value)) :
    keysOfPairs pairs = pairs.flatMap fun e => e.1 :: e.2.keys := by
  induction pairs with
  | nil => rfl
  | cons e pairs ih => rw [keysOfPairs, ih, List.flatMap_cons, List.cons_append]

theorem height_lt_of_item (h : v ∈ items) : v.height < heightOfItems items := by
  induction items with
  | nil => cases h
  | cons w items ih =>
    rw [heightOfItems]
    rcases List.mem_cons.mp h with rfl | h
    · exact Nat.le_max_left _ _
    · exact Nat.lt_of_lt_of_le (ih h) (Nat.le_max_right _ _)

theorem height_lt_of_pair (h : e ∈ pairs) : e.2.height < heightOfPairs pairs := by
  induction pairs with
  | nil => cases h
  | cons f pairs ih =>
    rw [heightOfPairs]
    rcases List.mem_cons.mp h with rfl | h
    · exact Nat.le_max_left _ _
    · exact Nat.lt_of_lt_of_le (ih h) (Nat.le_max_right _ _)

end Value

/-- A name that may stand in a path may stand below a depth that paths still go beyond. -/
def Path.Allows (d : Nat) (s : String) : Prop := Segment.isLegal s = true ∧ d < maxDepth

theorem Segment.isForbidden_digit {c : Char} (digit : c.isDigit = true) :
    isForbidden c = false := by
  have other : reserved.all (fun x => !x.isDigit) = true := by decide
  have range : 48 ≤ c.toNat ∧ c.toNat ≤ 57 := Char.isDigit_iff_toNat.mp digit
  rw [isForbidden, Bool.or_eq_false_iff]
  refine ⟨?_, ?_⟩
  · apply Bool.eq_false_iff.mpr
    intro among
    have no := List.all_eq_true.mp other c (List.contains_iff_mem.mp among)
    rw [digit] at no
    exact Bool.false_ne_true no
  · simp only [Text.isControl, Bool.or_eq_false_iff, Bool.and_eq_false_iff, decide_eq_false_iff_not]
    omega

theorem Segment.isLegal_position (i : Nat) :
    isLegal (String.ofList (Nat.toDigits 10 i)) = true := by
  have name : (String.ofList (Nat.toDigits 10 i)).isEmpty = false := by
    simp [Node.position_ne_empty i]
  have digit : ∀ c ∈ (String.ofList (Nat.toDigits 10 i)).toList, c.isDigit = true := fun c hc =>
    Nat.isDigit_of_mem_toDigits (by decide) (by decide) (String.toList_ofList ▸ hc)
  rw [isLegal, isSingle, isClean, name, Bool.not_false, Bool.true_and, Bool.and_eq_true,
    List.all_eq_true, List.all_eq_true]
  refine ⟨fun c hc => ?_, fun c hc => ?_⟩
  · apply decide_eq_true
    rintro rfl
    exact absurd (digit _ hc) (by decide)
  · rw [isForbidden_digit (digit c hc)]
    rfl

theorem Value.exists_position {items : List Value} {start : Nat} {e : String × Value}
    (h : e ∈ indexed start items) : ∃ i, e.1 = String.ofList (Nat.toDigits 10 i) := by
  induction items generalizing start with
  | nil => cases h
  | cons v items ih =>
    rcases List.mem_cons.mp h with rfl | h
    · exact ⟨start, rfl⟩
    · exact ih h

theorem Value.suits_path {v : Value} {d : Nat}
    (legal : ∀ k ∈ v.keys, k = "" ∨ Segment.isLegal k = true)
    (deep : d + v.height ≤ Path.maxDepth) : v.Suits Path.Allows d := by
  induction v using Value.induction generalizing d with
  | null | bool b | number x | text s => exact .mk nofun nofun
  | array items ih =>
    rw [keys, keysOfItems_eq] at legal
    rw [height] at deep
    refine .mk (fun e he _ => ?_) (fun e he => ?_)
    all_goals
      have there := Node.mem_of_mem_indexed he
      have lower := height_lt_of_item there
    · obtain ⟨i, position⟩ := exists_position he
      rw [position]
      exact ⟨Segment.isLegal_position i, by omega⟩
    · exact ih e.2 there (fun k hk => legal k (List.mem_flatMap.mpr ⟨e.2, there, hk⟩)) (by omega)
  | object pairs ih =>
    rw [keys, keysOfPairs_eq] at legal
    rw [height] at deep
    refine .mk (fun e he name => ?_) (fun e he => ?_)
    all_goals have lower : e.2.height < heightOfPairs pairs := height_lt_of_pair he
    · have known := legal e.1 (List.mem_flatMap.mpr ⟨e, he, List.mem_cons_self⟩)
      exact ⟨known.resolve_left name, by omega⟩
    · have below : ∀ k ∈ e.2.keys, k = "" ∨ Segment.isLegal k = true := fun k hk =>
        legal k (List.mem_flatMap.mpr ⟨e, he, List.mem_cons_of_mem _ hk⟩)
      exact ih e he below (by omega)

theorem Value.suits_anywhere (v : Value) {d : Nat} : v.Suits (fun _ _ => True) d := by
  induction v using Value.induction generalizing d with
  | null | bool b | number x | text s => exact .mk nofun nofun
  | array items ih =>
    exact .mk (fun _ _ _ => trivial) fun e he => ih e.2 (Node.mem_of_mem_indexed he)
  | object pairs ih => exact .mk (fun _ _ _ => trivial) fun e he => ih e he

theorem Node.way_anywhere (names : List String) {d : Nat} : Way (fun _ _ => True) d names := by
  induction names generalizing d with
  | nil => trivial
  | cons s rest ih => exact ⟨trivial, ih⟩

theorem Path.way (p : Path) : Node.Way Allows 0 p.segments := by
  have way : ∀ (names : List String) (d : Nat), names.all Segment.isLegal = true →
      d + names.length ≤ maxDepth → Node.Way Allows d names := by
    intro names
    induction names with
    | nil => exact fun _ _ _ => trivial
    | cons s rest ih =>
      intro d legal deep
      rw [List.all_cons, Bool.and_eq_true] at legal
      rw [List.length_cons] at deep
      exact ⟨⟨legal.1, by omega⟩, ih (d + 1) legal.2 (by omega)⟩
  exact way p.segments 0 p.legal (by rw [Nat.zero_add]; exact p.shallow)

/-- Children as they may stand in a cache. -/
structure Node.Proper (children : Children) : Prop where
  filled : children.isEmpty = false
  named : ∀ e ∈ children.toList, e.1 ≠ ""
  present : ∀ e ∈ children.toList, e.2.isNull = false
  valid : children.check = .ok ()

namespace Node
variable {n m : Node} {may : Nat → String → Prop} {d : Nat} {children : Children} {memo : Memo}

theorem Tidy.proper (h : Tidy (.internal children memo)) (balanced : children.root.Balanced) :
    Proper children := by
  cases h with
  | internal _ sound filled named present below =>
    have get : ∀ e ∈ children.toList, children.get? e.1 = some e.2 := fun _ he =>
      (OrderedMap.get?_eq_some_iff sound).mpr he
    refine ⟨filled, fun e he => named e.1 e.2 (get e he), fun e he => ?_,
      OrderedMap.check_of_sound sound balanced⟩
    apply Bool.eq_false_iff.mpr
    intro absent
    exact present e.1 e.2 (get e he) ((below e.1 e.2 (get e he)).isNull_iff.mp absent)

theorem Tidy.tidy_of_mem_nodes (tidy : Tidy n) (h : Shaped may d n) (hm : m ∈ n.nodes) :
    Tidy m ∧ ∃ d', Shaped may d' m := by
  induction tidy generalizing d with
  | null | bool b | number x kept | text s kept =>
    rw [List.mem_singleton.mp hm]
    exact ⟨by constructor, d, h⟩
  | @internal children kept sound filled named present below ih =>
    rw [nodes_internal] at hm
    rcases List.mem_cons.mp hm with rfl | hm
    · exact ⟨.internal kept sound filled named present below, d, h⟩
    · obtain ⟨e, he, hm⟩ := List.mem_flatMap.mp hm
      have get := (OrderedMap.get?_eq_some_iff sound).mpr he
      exact ih e.1 e.2 get (h.all.below e.1 e.2 get) hm

end Node

theorem Path.child_of_legal {p : Path} {s : String} (h : Allows p.depth s) :
    ∃ q, p.child s = .ok q ∧ q.depth = p.depth + 1 := by
  obtain ⟨legal, deep⟩ := h
  have deep : p.segments.length + 1 ≤ 32 := deep
  rw [Segment.isLegal, Bool.and_eq_true] at legal
  unfold child
  rw [dif_pos legal.1, dif_pos legal.2, dif_pos deep]
  exact ⟨_, rfl, List.length_append⟩

namespace Cache
variable {p : Path} {n : Node}

theorem checkChildren_ok {t : AvlTree String Node} (h : ∀ e ∈ t.toList, ∃ q,
    p.child e.1 = .ok q ∧ e.2.isNull = false ∧ checkNode q e.2 = .ok ()) :
    checkChildren p t = .ok () := by
  induction t with
  | nil => rfl
  | node height l k n r ihl ihr =>
    rw [AvlTree.toList, List.forall_mem_append, List.forall_mem_cons] at h
    obtain ⟨left, ⟨q, child, present, below⟩, right⟩ := h
    rw [checkChildren, ihl left]
    simp only [child, present, below]
    exact ihr right

theorem checkNode_ok (tidy : n.Tidy) (shaped : n.Shaped Path.Allows p.depth) :
    checkNode p n = .ok () := by
  induction tidy generalizing p with
  | null | bool b | number x kept | text s kept => rfl
  | @internal children kept sound filled named present below ih =>
    have proper := (Node.Tidy.internal kept sound filled named present below).proper
      shaped.all.balanced
    have size : children.size ≠ 0 := fun none => by
      rw [OrderedMap.isEmpty, none] at filled
      cases filled
    have children_ok : checkChildren p children.root = .ok () := by
      refine checkChildren_ok fun e he => ?_
      rw [← OrderedMap.toList_eq] at he
      have get := (OrderedMap.get?_eq_some_iff sound).mpr he
      obtain ⟨q, child, depth⟩ := Path.child_of_legal (shaped.all.named e.1 e.2 get)
      refine ⟨q, child, proper.present e he, ih e.1 e.2 get ?_⟩
      rw [depth]
      exact shaped.all.below e.1 e.2 get
    rw [checkNode, if_neg size]
    simp only [proper.valid, children_ok]

/-- Values come, and no nodes that were made elsewhere. -/
def Edit.OfValues : Edit → Prop
  | .putNode _ _ => False
  | _ => True

/-- The values that an edit brings, each with the depth at which it is put or merged. -/
def Edit.values : Edit → List (Nat × Value)
  | .put p v => [(p.depth, v)]
  | .merge p v => [(p.depth, v)]
  | .load snapshot => ((Cbor.read snapshot).toOption.map fun v => (0, v)).toList
  | _ => []

/-- A current cache in which every name may stand where it does. -/
structure Kept (may : Nat → String → Prop) (c : Cache) : Prop where
  current : c.Current
  shaped : c.root.Shaped may 0

section Kept
variable {may : Nat → String → Prop} {c : Cache} {v : Value} {e : Edit} {edits : List Edit}

theorem kept_empty : Kept may empty := ⟨current_empty, .leaf rfl⟩

theorem kept_ofValue (suits : v.Suits may 0) : Kept may ⟨Node.ofValue v⟩ :=
  ⟨current_ofValue v, Node.shaped_ofValue suits⟩

theorem Kept.take (h : Kept may c) (way : Node.Way may 0 p.segments) (suits : v.Suits may p.depth)
    (kind : UpdateKind) : Kept may (c.take kind p v) := by
  refine ⟨h.current.take kind p v, ?_⟩
  rw [take_root]
  refine Node.Shaped.updateAt way (fun tidy shaped => ?_) h.current.tidy h.shaped
  rw [Nat.zero_add] at shaped ⊢
  cases kind with
  | put => exact Node.shaped_ofValue suits
  | merge => exact shaped.merge suits tidy

theorem Kept.edit (h : Kept may c) (ways : ∀ p : Path, Node.Way may 0 p.segments)
    (ofValues : e.OfValues) (suits : ∀ a ∈ e.values, a.2.Suits may a.1) :
    Kept may (c.edit e) := by
  cases e with
  | put p v => exact h.take (ways p) (suits _ List.mem_cons_self) .put
  | merge p v => exact h.take (ways p) (suits _ List.mem_cons_self) .merge
  | clear => exact kept_empty
  | load snapshot =>
    rw [Cache.edit, ofSnapshot]
    cases read : Cbor.read snapshot with
    | error e => exact h
    | ok v =>
      refine kept_ofValue (suits (0, v) ?_)
      rw [Edit.values, read]
      exact List.mem_cons_self
  | putNode p n => exact ofValues.elim
  | ask names => exact ⟨h.current.ask names, h.shaped.rememberAt names⟩

theorem kept_editAll (ways : ∀ p : Path, Node.Way may 0 p.segments)
    (ofValues : ∀ e ∈ edits, e.OfValues)
    (suits : ∀ e ∈ edits, ∀ a ∈ e.values, a.2.Suits may a.1) : Kept may (editAll edits) := by
  suffices run : ∀ {c : Cache}, Kept may c → Kept may (edits.foldl Cache.edit c) from
    run kept_empty
  induction edits with
  | nil => exact id
  | cons e edits ih =>
    obtain ⟨he, ofValues⟩ := List.forall_mem_cons.mp ofValues
    obtain ⟨suit, suits⟩ := List.forall_mem_cons.mp suits
    exact fun h => ih ofValues suits (h.edit ways he suit)

end Kept

section Check
variable {c : Cache} {edits : List Edit}

theorem Current.rebuilt (h : c.Current) : (Node.ofValue c.root.toValue).sameAs c.root = true
    ∧ (Node.ofValue c.root.toValue).hash = c.root.hash := by
  have anew := Node.tidy_ofValue c.root.toValue
  have tidy : c.root.Tidy := h.tidy
  have alike := tidy.alike_ofValue
  refine ⟨(anew.sameAs_iff tidy).mpr alike, ?_⟩
  rw [(Node.honest_ofValue _).hash_eq anew, anew.contentHash_eq tidy alike, h.honest.hash_eq tidy]

theorem Kept.check_ok (h : Kept Path.Allows c) : c.check = .ok () := by
  have node : checkNode Path.root c.root = .ok () := checkNode_ok h.current.tidy h.shaped
  rw [check, node]
  exact if_neg (not_not_intro h.current.rebuilt.2)

/-- However values are put and merged, and however the cache is cleared and loaded again: no node has
no children, no child is absent, no name is empty, every map passes its check, and the tree is the one
that its value builds, with the same digest. If besides every name in the values is empty or may stand
in a path, and no value comes to stand deeper than paths go, the cache passes its check at every
step. -/
theorem edited_proper (ofValues : ∀ e ∈ edits, e.OfValues) :
    (∀ children memo, .internal children memo ∈ (editAll edits).root.nodes →
      Node.Proper children)
    ∧ (Node.ofValue (editAll edits).root.toValue).sameAs (editAll edits).root = true
    ∧ (Node.ofValue (editAll edits).root.toValue).hash = (editAll edits).root.hash
    ∧ ((∀ e ∈ edits, ∀ a ∈ e.values, (∀ k ∈ a.2.keys, k = "" ∨ Segment.isLegal k = true)
        ∧ a.1 + a.2.height ≤ Path.maxDepth) →
      ∀ n, (editAll (edits.take n)).check = .ok ()) := by
  have kept := kept_editAll (fun p => Node.way_anywhere p.segments) ofValues
    fun e _ a _ => a.2.suits_anywhere
  refine ⟨fun children memo there => ?_, kept.current.rebuilt.1, kept.current.rebuilt.2,
    fun suits n => ?_⟩
  · obtain ⟨tidy, d, shaped⟩ := Node.Tidy.tidy_of_mem_nodes kept.current.tidy kept.shaped there
    exact tidy.proper shaped.all.balanced
  · refine Kept.check_ok (kept_editAll Path.way (fun e he => ?_) fun e he a ha => ?_)
    · exact ofValues e (List.mem_of_mem_take he)
    · obtain ⟨legal, deep⟩ := suits e (List.mem_of_mem_take he) a ha
      exact Value.suits_path legal deep

/-- A name that stands twice, an empty one, absence and empty containers, and what is merged beside
them. -/
def tangled (p : Path) : List Edit :=
  [.put Path.root (.object [("a", .object [("", .bool true), ("b", .null), ("c", .object [])]),
      ("a", .array [.null, .bool true]), ("d", .text "e")]),
    .merge p (.object [("1", .object []), ("f", .array [.object [("", .text "g")]])]),
    .load (Value.object [("h", .array [.text "i"])]).toCbor, .put p .null]

theorem tangled_proper : ∃ p, (∀ children memo,
      .internal children memo ∈ (editAll (tangled p)).root.nodes → Node.Proper children)
    ∧ (∀ n, (editAll ((tangled p).take n)).check = .ok ())
    ∧ (editAll ((tangled p).take 2)).root.nodes.length = 4
    ∧ (editAll (tangled p)).root.nodes.length = 3 := by
  refine ⟨⟨["a"], by decide, by decide⟩, ?_⟩
  obtain ⟨proper, _, _, check⟩ := @edited_proper (tangled ⟨["a"], by decide, by decide⟩)
    (by simp [tangled, Edit.OfValues])
  refine ⟨proper, check ?_, ?_, ?_⟩
  all_goals decide +kernel

end Check

end Cache

end LiveTree
