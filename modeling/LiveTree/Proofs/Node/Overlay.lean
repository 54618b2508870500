import LiveTree.Proofs.Node.Leaves

/-!
# Changes as overlays

A put and a merge lay the same leaves over a node, whatever it was: at each list of names they either
settle what stands there, or let the old leaf show. So a change of this kind does nothing more when it
is made again. A merge is a row of such changes, one for each entry, and a change further up that is
made of several can be made one after the other.
-/

namespace LiveTree.Node

variable {f g : Node → Node} {m n : Node} {names : List String} {children : Children}

/-- Says of each list of names what is laid there, if anything. What is laid may be no leaf. -/
abbrev Overlay := List String → Option (Option Value)

/-- A change that lays the same leaves over every tidy node. -/
structure Lays (f : Node → Node) (laid : Overlay) : Prop where
  keep : ∀ {n}, Tidy n → Tidy (f n)
  leaf? : ∀ {n}, Tidy n → ∀ names, (f n).leaf? names = (laid names).getD (n.leaf? names)

def IsOverlay (f : Node → Node) : Prop := ∃ laid, Lays f laid

theorem IsOverlay.keep (h : IsOverlay f) {n : Node} (tidy : Tidy n) : Tidy (f n) :=
  h.choose_spec.keep tidy

theorem IsOverlay.twice (h : IsOverlay f) (tidy : Tidy n) : Alike (f (f n)) (f n) := by
  obtain ⟨laid, lays⟩ := h
  intro names
  rw [lays.leaf? (lays.keep tidy), lays.leaf? tidy]
  cases laid names <;> rfl

theorem IsOverlay.alike (h : IsOverlay f) (hm : Tidy m) (hn : Tidy n) (alike : Alike m n) :
    Alike (f m) (f n) := by
  obtain ⟨laid, lays⟩ := h
  intro names
  rw [lays.leaf? hm, lays.leaf? hn, alike names]

theorem IsOverlay.congr (h : IsOverlay f) (same : ∀ {n}, Tidy n → g n = f n) : IsOverlay g := by
  obtain ⟨laid, lays⟩ := h
  refine ⟨laid, fun tidy => ?_, fun tidy => ?_⟩
  · rw [same tidy]
    exact lays.keep tidy
  · rw [same tidy]
    exact lays.leaf? tidy

theorem isOverlay_const (h : Tidy m) : IsOverlay fun _ => m :=
  ⟨fun names => some (m.leaf? names), fun _ => h, fun _ _ => rfl⟩

theorem isOverlay_same : IsOverlay fun n => n :=
  ⟨fun _ => none, fun h => h, fun _ _ => rfl⟩

theorem IsOverlay.comp (hf : IsOverlay f) (hg : IsOverlay g) : IsOverlay fun n => g (f n) := by
  obtain ⟨first, hf⟩ := hf
  obtain ⟨second, hg⟩ := hg
  refine ⟨fun names => (second names).or (first names), fun h => hg.keep (hf.keep h), ?_⟩
  intro n h names
  rw [hg.leaf? (hf.keep h), hf.leaf? h]
  cases second names <;> rfl

theorem leaf?_updateAt_eq (keep : ∀ {m}, Tidy m → Tidy (f m)) (h : Tidy n)
    (named : ∀ s ∈ names, s ≠ "") (place : List String) : (updateAt f names n).leaf? place
      = if names <+: place then (f (n.reach names)).leaf? (place.drop names.length)
        else if place <+: names then none else n.leaf? place := by
  split
  · rename_i below
    obtain ⟨rest, rfl⟩ := below
    rw [leaf?_updateAt keep h named, List.drop_left]
  · rename_i below
    split
    · rename_i above
      exact leaf?_updateAt_above keep h named above fun he => below (he ▸ List.prefix_rfl)
    · rename_i above
      exact leaf?_updateAt_apart keep h named below above

theorem leaf?_of_isPrefix {place : List String} (hp : names <+: place) :
    n.leaf? place = (n.reach names).leaf? (place.drop names.length) := by
  obtain ⟨rest, rfl⟩ := hp
  rw [leaf?_append, List.drop_left]

theorem IsOverlay.updateAt (h : IsOverlay f) (named : ∀ s ∈ names, s ≠ "") :
    IsOverlay (updateAt f names) := by
  obtain ⟨laid, lays⟩ := h
  refine ⟨fun place => if names <+: place then laid (place.drop names.length)
    else if place <+: names then some none else none, ?_, ?_⟩
  · exact fun h => Tidy.updateAt lays.keep named h
  · intro n h place
    rw [leaf?_updateAt_eq lays.keep h named]
    split
    · rename_i below
      rw [lays.leaf? (Tidy.reach h names), leaf?_of_isPrefix below]
    · split <;> rfl

/-- Changes that leave the same leaves at their place do so in every node with the same leaves. -/
theorem Alike.updateAt (keep : ∀ {m}, Tidy m → Tidy (f m)) (keep' : ∀ {m}, Tidy m → Tidy (g m))
    (hm : Tidy m) (hn : Tidy n) (named : ∀ s ∈ names, s ≠ "") (alike : Alike m n)
    (new : Alike (f (m.reach names)) (g (n.reach names))) :
    Alike (updateAt f names m) (updateAt g names n) := by
  intro place
  rw [leaf?_updateAt_eq keep hm named, leaf?_updateAt_eq keep' hn named, new, alike]

theorem reach_updateAt (keep : ∀ {m}, Tidy m → Tidy (f m)) (h : Tidy n)
    (named : ∀ s ∈ names, s ≠ "") : (updateAt f names n).reach names = f (n.reach names) := by
  induction names generalizing n with
  | nil => rfl
  | cons s names ih =>
    obtain ⟨_, hnames⟩ := List.forall_mem_cons.mp named
    rw [Node.reach, childOf_updateAt keep h hnames, if_pos rfl]
    exact ih (h.family.childOf s) hnames

theorem updateAt_append (f : Node → Node) (names rest : List String) (n : Node) :
    updateAt f (names ++ rest) n = updateAt (updateAt f rest) names n := by
  induction names generalizing n with
  | nil => rfl
  | cons s names ih => simp only [List.cons_append, updateAt, ih]

theorem alike_updateAt_comp (keep : ∀ {m}, Tidy m → Tidy (f m))
    (keep' : ∀ {m}, Tidy m → Tidy (g m)) (h : Tidy n) (named : ∀ s ∈ names, s ≠ "") :
    Alike (updateAt (fun m => g (f m)) names n) (updateAt g names (updateAt f names n)) := by
  intro place
  rw [leaf?_updateAt_eq (fun hm => keep' (keep hm)) h named,
    leaf?_updateAt_eq keep' (Tidy.updateAt keep named h) named, reach_updateAt keep h named]
  split
  · rfl
  · rename_i below
    split
    · rfl
    · rename_i above
      exact (leaf?_updateAt_apart keep h named below above).symm

section Row
variable {ε : Type} {step : Node → ε → Node} {row : List ε}

theorem tidy_foldl (lays : ∀ e ∈ row, IsOverlay fun n => step n e) (h : Tidy n) :
    Tidy (row.foldl step n) := by
  induction row generalizing n with
  | nil => exact h
  | cons e row ih =>
    obtain ⟨he, hrow⟩ := List.forall_mem_cons.mp lays
    exact ih hrow (he.keep h)

theorem alike_foldl (lays : ∀ e ∈ row, IsOverlay fun n => step n e) (hm : Tidy m) (hn : Tidy n)
    (alike : Alike m n) : Alike (row.foldl step m) (row.foldl step n) := by
  induction row generalizing m n with
  | nil => exact alike
  | cons e row ih =>
    obtain ⟨he, hrow⟩ := List.forall_mem_cons.mp lays
    exact ih hrow (he.keep hm) (he.keep hn) (he.alike hm hn alike)

theorem alike_updateAt_foldl (lays : ∀ e ∈ row, IsOverlay fun n => step n e)
    (keep : ∀ {m}, Tidy m → Tidy (f m)) (h : Tidy n) (named : ∀ s ∈ names, s ≠ "") :
    Alike (updateAt (fun m => row.foldl step (f m)) names n)
      (row.foldl (fun m e => updateAt (fun k => step k e) names m) (updateAt f names n)) := by
  induction row generalizing f with
  | nil => exact fun _ => rfl
  | cons e row ih =>
    obtain ⟨he, hrow⟩ := List.forall_mem_cons.mp lays
    have keep' : ∀ {m}, Tidy m → Tidy (step (f m) e) := fun hm => he.keep (keep hm)
    have start := alike_updateAt_comp keep he.keep h named
    have tidy := Tidy.updateAt he.keep named (Tidy.updateAt keep named h)
    have rest := alike_foldl (fun e he => (hrow e he).updateAt named)
      (Tidy.updateAt keep' named h) tidy start
    exact fun place => (ih hrow keep' place).trans (rest place)

end Row

theorem childrenOf_ofChildren (sound : children.Sound) :
    (ofChildren children).childrenOf = children := by
  unfold ofChildren
  split
  · rename_i empty
    obtain ⟨root, size⟩ := children
    have none : size = 0 := by simpa [OrderedMap.isEmpty] using empty
    have same := sound.size_eq
    cases root with
    | nil => rw [none]; rfl
    | node h l k v r => simp only [none, AvlTree.size] at same; omega
  · rfl

/-- A node as a container. A leaf has no children and becomes absent. -/
def opened (n : Node) : Node := ofChildren n.childrenOf

theorem isOverlay_opened : IsOverlay opened := by
  refine ⟨fun names => if names = [] then some none else none, fun h => h.family.tidy, ?_⟩
  intro n h names
  cases names with
  | nil => exact leaf?_ofChildren_nil _
  | cons s rest => exact leaf?_ofChildren_cons h.family.sound s rest

/-- One entry that is merged. -/
def mergeEntry (n : Node) (e : String × Value) : Node := updateAt (fun m => m.merge e.2) [e.1] n

theorem childrenOf_mergeEntry (sound : n.childrenOf.Sound) (k : String) (v : Value) :
    (mergeEntry n (k, v)).childrenOf
      = settleChild n.childrenOf k ((childOf n.childrenOf k).merge v) :=
  childrenOf_ofChildren (sound_settleChild sound k _)

mutual

theorem isOverlay_merge : ∀ v : Value, IsOverlay fun n => n.merge v
  | .null => by simpa only [Node.merge] using isOverlay_const .null
  | .bool b => by simpa only [Node.merge] using isOverlay_const (.bool b)
  | .number x => by simpa only [Node.merge] using isOverlay_const (.number x none)
  | .text s => by simpa only [Node.merge] using isOverlay_const (.text s none)
  | .array items => by
    simp only [Node.merge]
    split
    · exact isOverlay_same
    · exact isOverlay_mergeItems items 0
  | .object pairs => by
    simp only [Node.merge]
    split
    · exact isOverlay_same
    · exact isOverlay_mergePairs pairs

theorem isOverlay_mergeItems : ∀ (items : List Value) (start : Nat),
    IsOverlay fun n => ofChildren (mergeItems n.childrenOf start items)
  | [], start => by
    simp only [Node.mergeItems]
    exact isOverlay_opened
  | v :: items, start => by
    have name := position_ne_empty start
    have first := (isOverlay_merge v).updateAt (List.forall_mem_singleton.mpr name)
    refine (first.comp (isOverlay_mergeItems items (start + 1))).congr fun h => ?_
    rw [Node.mergeItems]
    exact congrArg (fun c => ofChildren (mergeItems c (start + 1) items))
      (childrenOf_mergeEntry h.family.sound _ v).symm

theorem isOverlay_mergePairs : ∀ pairs : List (String × Value),
    IsOverlay fun n => ofChildren (mergePairs n.childrenOf pairs)
  | [] => by
    simp only [Node.mergePairs]
    exact isOverlay_opened
  | (k, v) :: pairs => by
    by_cases hk : k.isEmpty = true
    · simp only [Node.mergePairs, if_pos hk]
      exact isOverlay_mergePairs pairs
    · have name : k ≠ "" := fun he => hk (he ▸ rfl)
      have first := (isOverlay_merge v).updateAt (List.forall_mem_singleton.mpr name)
      refine (first.comp (isOverlay_mergePairs pairs)).congr fun h => ?_
      rw [Node.mergePairs, if_neg hk]
      exact congrArg (fun c => ofChildren (mergePairs c pairs))
        (childrenOf_mergeEntry h.family.sound k v).symm

end

theorem mergeItems_eq (children : Children) (start : Nat) (items : List Value) :
    mergeItems children start items = mergePairs children (Value.indexed start items) := by
  induction items generalizing children start with
  | nil => rw [mergeItems, Value.indexed, mergePairs]
  | cons v items ih =>
    have name : (String.ofList (Nat.toDigits 10 start)).isEmpty = false := by
      simp [position_ne_empty start]
    rw [mergeItems, Value.indexed, mergePairs, name, ih]
    rfl

theorem ofChildren_mergePairs (sound : children.Sound) (pairs : List (String × Value)) :
    ofChildren (mergePairs children pairs)
      = (pairs.filter fun e => !e.1.isEmpty).foldl mergeEntry (ofChildren children) := by
  induction pairs generalizing children with
  | nil => rw [mergePairs, List.filter_nil, List.foldl_nil]
  | cons e pairs ih =>
    obtain ⟨k, v⟩ := e
    rw [mergePairs]
    cases hk : k.isEmpty with
    | true =>
      rw [if_pos rfl, ih sound, List.filter_cons_of_neg (by simp [hk])]
    | false =>
      have opened := childrenOf_ofChildren sound
      rw [if_neg (by simp), ih (sound_settleChild sound _ _), List.filter_cons_of_pos (by simp [hk]),
        List.foldl_cons, mergeEntry, updateAt, updateAt, opened]

theorem merge_of_scalar {v : Value} (scalar : v.isContainer = false) (n : Node) :
    n.merge v = ofValue v := by
  cases v with
  | array items => cases scalar
  | object pairs => cases scalar
  | _ => rw [merge, ofValue]

theorem merge_of_entries_nil {v : Value} (container : v.isContainer = true)
    (none : v.entries = []) (n : Node) : n.merge v = n := by
  cases v with
  | array items =>
    cases items with
    | nil => rw [merge]; rfl
    | cons v items => cases none
  | object pairs =>
    have empty : pairs = [] := none
    rw [empty, merge]
    rfl
  | _ => cases container

theorem merge_eq_foldl {v : Value} (h : Tidy n) (some : v.entries ≠ []) : n.merge v
    = (v.entries.filter fun e => !e.1.isEmpty).foldl mergeEntry n.opened := by
  cases v with
  | array items =>
    have filled : items.isEmpty = false := by
      cases items with
      | nil => exact absurd rfl some
      | cons v items => rfl
    rw [merge, filled, mergeItems_eq]
    exact ofChildren_mergePairs h.family.sound _
  | object pairs =>
    have filled : pairs.isEmpty = false := List.isEmpty_eq_false_iff.mpr some
    rw [merge, filled]
    exact ofChildren_mergePairs h.family.sound _
  | _ => exact absurd rfl some

theorem isOverlay_mergeEntry {e : String × Value} (name : e.1 ≠ "") :
    IsOverlay fun n => mergeEntry n e :=
  (isOverlay_merge e.2).updateAt (List.forall_mem_singleton.mpr name)

theorem named_of_mem_filter {pairs : List (String × Value)} :
    ∀ e ∈ pairs.filter fun e => !e.1.isEmpty, e.1 ≠ "" := by
  intro e he name
  have kept := (List.mem_filter.mp he).2
  simp [name] at kept

theorem childOf_mergeEntries {pairs : List (String × Value)} {key : String} (h : Tidy n)
    (named : ∀ e ∈ pairs, e.1 ≠ "") (new : key ∉ pairs.map Prod.fst) :
    childOf (pairs.foldl mergeEntry n).childrenOf key = childOf n.childrenOf key := by
  induction pairs generalizing n with
  | nil => rfl
  | cons e pairs ih =>
    obtain ⟨he, hpairs⟩ := List.forall_mem_cons.mp named
    rw [List.map_cons, List.mem_cons, not_or] at new
    rw [List.foldl_cons, ih ((isOverlay_mergeEntry he).keep h) hpairs new.2, mergeEntry,
      childOf_updateAt (fun hm => hm.merge e.2) h (List.forall_mem_nil _), if_neg new.1]

theorem childOf_merge {v : Value} {key : String} (h : Tidy n) (container : v.isContainer = true)
    (new : key ∉ v.entries.map Prod.fst) :
    childOf (n.merge v).childrenOf key = childOf n.childrenOf key := by
  by_cases some : v.entries = []
  · rw [merge_of_entries_nil container some]
  · have kept : key ∉ (v.entries.filter fun e => !e.1.isEmpty).map Prod.fst := fun hk =>
      new ((List.filter_sublist.map _).subset hk)
    rw [merge_eq_foldl h some]
    exact (childOf_mergeEntries h.family.tidy named_of_mem_filter kept).trans
      (childOf_ofChildren h.family.sound key)

end LiveTree.Node
