import LiveTree.Proofs.Node.Tidy

/-!
# The leaves of a node

A tidy node is known by its leaves: by what stands at the end of each list of names. Values and
changes are read through them here. Numbers are told apart by their patterns, and digests are not
read at all.
-/

namespace LiveTree.Node

/-- The node that names lead to: absence where they lead nowhere. -/
def reach : Node → List String → Node
  | n, [] => n
  | n, s :: rest => reach (childOf n.childrenOf s) rest

/-- What a node without children holds. -/
def atom? : Node → Option Value
  | bool b => some (.bool b)
  | number x _ => some (.number x)
  | text s _ => some (.text s)
  | _ => none

def leaf? (n : Node) (names : List String) : Option Value := (n.reach names).atom?

/-- Two nodes with the same leaves. -/
def Alike (m n : Node) : Prop := ∀ names, m.leaf? names = n.leaf? names

variable {m n : Node} {children : Children}

theorem reach_null (names : List String) : null.reach names = null := by
  induction names with
  | nil => rfl
  | cons s rest ih => exact ih

theorem leaf?_null (names : List String) : null.leaf? names = none := by
  simp [leaf?, reach_null, atom?]

theorem leaf?_cons (n : Node) (s : String) (rest : List String) :
    n.leaf? (s :: rest) = (childOf n.childrenOf s).leaf? rest := rfl

theorem reach_append (n : Node) (names rest : List String) :
    n.reach (names ++ rest) = (n.reach names).reach rest := by
  induction names generalizing n with
  | nil => rfl
  | cons s names ih => exact ih _

theorem leaf?_append (n : Node) (names rest : List String) :
    n.leaf? (names ++ rest) = (n.reach names).leaf? rest := by
  rw [leaf?, reach_append, leaf?]

theorem leaf?_beyond {names rest : List String} {v : Value} (h : n.leaf? names = some v)
    (more : rest ≠ []) : n.leaf? (names ++ rest) = none := by
  rw [leaf?_append]
  unfold leaf? at h
  cases rest with
  | nil => exact absurd rfl more
  | cons s rest =>
    rw [leaf?_cons]
    -- what holds a value has no children
    cases hn : n.reach names with
    | null => exact leaf?_null rest
    | bool b | number x memo | text t memo => exact leaf?_null rest
    | internal children memo =>
      rw [hn] at h
      cases h

theorem leaf?_of_comparable {names place : List String} {v : Value} (h : n.leaf? names = some v)
    (comparable : names <+: place ∨ place <+: names) (ne : place ≠ names) :
    n.leaf? place = none := by
  rcases comparable with ⟨rest, rfl⟩ | ⟨rest, rfl⟩
  · refine leaf?_beyond h ?_
    rintro rfl
    exact ne (List.append_nil _)
  · cases other : n.leaf? place with
    | none => rfl
    | some w =>
      have more : rest ≠ [] := by
        rintro rfl
        exact ne (List.append_nil _).symm
      rw [leaf?_beyond other more] at h
      cases h

theorem descend?_getD (n : Node) (names : List String) :
    (n.descend? names).getD null = n.reach names := by
  induction names generalizing n with
  | nil => rfl
  | cons s rest ih =>
    have child : (n.child? s).getD null = childOf n.childrenOf s := by
      cases n <;> rfl
    rw [descend?, reach, ← child]
    cases n.child? s with
    | none => exact (reach_null rest).symm
    | some c => exact ih c

theorem Tidy.reach (h : Tidy n) (names : List String) : Tidy (n.reach names) := by
  induction names generalizing n with
  | nil => exact h
  | cons s rest ih => exact ih (h.family.childOf s)

theorem childOf_ofChildren (sound : children.Sound) (key : String) :
    childOf (ofChildren children).childrenOf key = childOf children key := by
  unfold ofChildren
  split
  · rename_i empty
    have none : children.get? key = none := by
      apply Option.eq_none_iff_forall_not_mem.mpr
      intro n hn
      have hm := (OrderedMap.get?_eq_some_iff sound).mp hn
      rw [sound.isEmpty_iff.mp empty] at hm
      cases hm
    rw [childOf, childOf, none]
    rfl
  · rfl

theorem leaf?_ofChildren_nil (children : Children) : (ofChildren children).leaf? [] = none := by
  unfold ofChildren
  split <;> rfl

theorem leaf?_ofChildren_cons (sound : children.Sound) (s : String) (rest : List String) :
    (ofChildren children).leaf? (s :: rest) = (childOf children s).leaf? rest := by
  rw [leaf?_cons, childOf_ofChildren sound]

section Change
variable {f : Node → Node} {names : List String}

theorem childOf_updateAt (keep : ∀ {m}, Tidy m → Tidy (f m)) (h : Tidy n)
    (named : ∀ t ∈ names, t ≠ "") (s j : String) :
    childOf (updateAt f (s :: names) n).childrenOf j
      = if j = s then updateAt f names (childOf n.childrenOf s) else childOf n.childrenOf j := by
  have tidy := Tidy.updateAt keep named (h.family.childOf s)
  rw [updateAt, childOf_ofChildren (sound_settleChild h.family.sound _ _),
    childOf_settleChild h.family.sound tidy]

theorem leaf?_updateAt_cons (keep : ∀ {m}, Tidy m → Tidy (f m)) (h : Tidy n) {s : String}
    (named : ∀ t ∈ names, t ≠ "") (j : String) (rest : List String) :
    (updateAt f (s :: names) n).leaf? (j :: rest)
      = (if j = s then updateAt f names (childOf n.childrenOf s)
        else childOf n.childrenOf j).leaf? rest := by
  rw [leaf?_cons, childOf_updateAt keep h named]

theorem leaf?_updateAt (keep : ∀ {m}, Tidy m → Tidy (f m)) (h : Tidy n)
    (named : ∀ s ∈ names, s ≠ "") (rest : List String) :
    (updateAt f names n).leaf? (names ++ rest) = (f (n.reach names)).leaf? rest := by
  induction names generalizing n with
  | nil => rfl
  | cons s names ih =>
    obtain ⟨_, hnames⟩ := List.forall_mem_cons.mp named
    rw [List.cons_append, leaf?_updateAt_cons keep h hnames, if_pos rfl]
    exact ih (h.family.childOf s) hnames

theorem leaf?_updateAt_above (keep : ∀ {m}, Tidy m → Tidy (f m)) (h : Tidy n)
    (named : ∀ s ∈ names, s ≠ "") {above : List String} (hp : above <+: names)
    (ne : above ≠ names) : (updateAt f names n).leaf? above = none := by
  induction names generalizing n above with
  | nil => exact absurd (List.prefix_nil.mp hp) ne
  | cons s names ih =>
    cases above with
    | nil => exact leaf?_ofChildren_nil _
    | cons j above =>
      obtain ⟨_, hnames⟩ := List.forall_mem_cons.mp named
      obtain ⟨rfl, hrest⟩ := List.cons_prefix_cons.mp hp
      rw [leaf?_updateAt_cons keep h hnames, if_pos rfl]
      exact ih (h.family.childOf j) hnames hrest fun he => ne (by rw [he])

theorem leaf?_updateAt_apart (keep : ∀ {m}, Tidy m → Tidy (f m)) (h : Tidy n)
    (named : ∀ s ∈ names, s ≠ "") {other : List String} (below : ¬ names <+: other)
    (above : ¬ other <+: names) : (updateAt f names n).leaf? other = n.leaf? other := by
  induction names generalizing n other with
  | nil => exact absurd List.nil_prefix below
  | cons s names ih =>
    cases other with
    | nil => exact absurd List.nil_prefix above
    | cons j other =>
      obtain ⟨_, hnames⟩ := List.forall_mem_cons.mp named
      rw [leaf?_updateAt_cons keep h hnames]
      split
      · rename_i hj
        subst hj
        apply ih (h.family.childOf j) hnames
        · intro hp
          exact below (List.cons_prefix_cons.mpr ⟨rfl, hp⟩)
        · intro hp
          exact above (List.cons_prefix_cons.mpr ⟨rfl, hp⟩)
      · rfl

end Change

end LiveTree.Node
