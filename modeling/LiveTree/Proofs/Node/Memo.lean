import LiveTree.Node.Hash
import LiveTree.Proofs.Node.Content

/-!
# Remembered digests

A node is honest when every digest that is remembered in it or below it is the one that the content
there has. An honest node answers with the digest of its content, and asking it, anywhere below,
keeps both its content and its honesty.
-/

namespace LiveTree.Node

/-- What is remembered in a node itself. -/
def memo : Node → Memo
  | number _ kept => kept
  | text _ kept => kept
  | internal _ kept => kept
  | _ => none

variable {m n : Node} {children others : Children} {kept : Memo}

/-- Whatever is remembered is the digest of the content. -/
def Honest (n : Node) : Prop :=
  ∀ names m d, n.descend? names = some m → m.memo = some d → d = m.contentHash

/-- The digest over names with digests. -/
def gatherDigests (entries : List (String × Option Digest)) : Option Digest :=
  digestOfParts (entries.flatMap fun e => digestPart e.1 e.2)

theorem hashParts_eq (t : AvlTree String Node) :
    hashParts t = t.toList.flatMap fun e => digestPart e.1 e.2.hash := by
  induction t with
  | nil => rfl
  | node h l k n r ihl ihr => simp [hashParts, AvlTree.toList, ihl, ihr]

theorem contentParts_eq (t : AvlTree String Node) :
    contentParts t = t.toList.flatMap fun e => digestPart e.1 e.2.contentHash := by
  induction t with
  | nil => rfl
  | node h l k n r ihl ihr => simp [contentParts, AvlTree.toList, ihl, ihr]

theorem contentHash_internal (children : Children) (kept : Memo) :
    (internal children kept).contentHash
      = gatherDigests (children.toList.map fun e => (e.1, e.2.contentHash)) := by
  rw [contentHash, contentParts_eq, gatherDigests, OrderedMap.toList_eq, List.flatMap_map]

theorem hash_internal (children : Children) :
    (internal children none).hash
      = gatherDigests (children.toList.map fun e => (e.1, e.2.hash)) := by
  rw [hash, Option.getD_none, hashParts_eq, gatherDigests, OrderedMap.toList_eq,
    List.flatMap_map]

theorem contentHash_of_atom {v : Value} (hm : m.atom? = some v) (hn : n.atom? = some v) :
    m.contentHash = n.contentHash := by
  cases m <;> cases hm <;> cases n <;> cases hn <;> rfl

/-- Nodes with the same leaves have the same digest. -/
theorem Tidy.contentHash_eq (hm : Tidy m) (hn : Tidy n) (h : Alike m n) :
    m.contentHash = n.contentHash :=
  eq_of_alike contentHash gatherDigests contentHash_of_atom (fun _ => contentHash_internal _ _)
    hm hn h

theorem Honest.memo_eq (h : Honest n) {d : Option Digest} (hd : n.memo = some d) :
    d = n.contentHash :=
  h [] n d rfl hd

theorem Honest.descend (h : Honest n) {names : List String} (hm : n.descend? names = some m) :
    Honest m := by
  intro rest k d hk
  apply h (names ++ rest) k d
  clear h
  induction names generalizing n with
  | nil =>
    cases hm
    exact hk
  | cons s names ih =>
    obtain ⟨c, hc, hm⟩ := Option.bind_eq_some_iff.mp hm
    exact Option.bind_eq_some_iff.mpr ⟨c, hc, ih hm⟩

theorem honest_internal_iff : Honest (internal children kept) ↔
    (∀ d, kept = some d → d = (internal children kept).contentHash)
      ∧ ∀ k n, children.get? k = some n → Honest n := by
  constructor
  · intro h
    refine ⟨fun d hd => h.memo_eq hd, fun k n hn => ?_⟩
    have way : (internal children kept).descend? [k] = some n :=
      Option.bind_eq_some_iff.mpr ⟨n, hn, rfl⟩
    exact h.descend way
  · rintro ⟨here, below⟩ names m d hm hd
    cases names with
    | nil =>
      cases hm
      exact here d hd
    | cons s rest =>
      obtain ⟨c, hc, hm⟩ := Option.bind_eq_some_iff.mp hm
      exact below s c hc rest m d hm hd

theorem honest_leaf (leaf : n.children? = none)
    (h : ∀ d, n.memo = some d → d = n.contentHash) : Honest n := by
  intro names m d hm hd
  cases names with
  | nil =>
    cases hm
    exact h d hd
  | cons s rest => simp [descend?, child?, leaf] at hm

theorem honest_null : Honest null := honest_leaf rfl nofun

/-- Children are found by their names, all the way down, however the trees that hold them are
shaped. Unlike in a tidy node they may be absent or empty. -/
inductive Ordered : Node → Prop where
  | leaf {n : Node} (leaf : n.children? = none) : Ordered n
  | internal {children : Children} (memo : Memo) (sound : children.Sound)
      (below : ∀ k n, children.get? k = some n → Ordered n) : Ordered (internal children memo)

theorem Tidy.ordered (h : Tidy n) : Ordered n := by
  induction h with
  | internal kept sound filled named present below ih => exact .internal kept sound ih
  | _ => exact .leaf rfl

theorem Ordered.hash_eq (ordered : Ordered n) (h : Honest n) : n.hash = n.contentHash := by
  induction ordered with
  | @leaf n leaf =>
    cases n with
    | null | bool b => rfl
    | number x kept | text s kept =>
      cases kept with
      | none => rfl
      | some d => exact h.memo_eq rfl
    | internal => cases leaf
  | @internal children kept sound below ih =>
    cases kept with
    | some d => exact h.memo_eq rfl
    | none =>
      have same : ∀ e ∈ children.toList, (e.1, e.2.hash) = (e.1, e.2.contentHash) := by
        intro e he
        have get := (OrderedMap.get?_eq_some_iff sound).mpr he
        rw [ih e.1 e.2 get ((honest_internal_iff.mp h).2 e.1 e.2 get)]
      rw [hash_internal, contentHash_internal, List.map_congr_left same]

theorem Honest.hash_eq (tidy : Tidy n) (h : Honest n) : n.hash = n.contentHash :=
  tidy.ordered.hash_eq h

theorem rememberAll_eq (t : AvlTree String Node) :
    rememberAll t = t.mapValues fun _ n => n.remember := by
  induction t with
  | nil => rfl
  | node h l k n r ihl ihr => rw [rememberAll, AvlTree.mapValues, ihl, ihr]

theorem remember_internal (children : Children) : (internal children none).remember
    = internal (children.mapValues fun _ n => n.remember) (some (internal children none).hash) := by
  rw [remember, rememberAll_eq]
  rfl

theorem childOf_mapValues (f : Node → Node) (absent : f null = null) (children : Children)
    (key : String) : childOf (children.mapValues fun _ n => f n) key = f (childOf children key) := by
  rw [childOf, childOf, OrderedMap.get?_mapValues]
  cases children.get? key with
  | none => exact absent.symm
  | some n => rfl

theorem childOf_modify (f : Node → Node) (absent : f null = null) (children : Children)
    (s key : String) : childOf (children.modify s f) key
      = if key = s then f (childOf children s) else childOf children key := by
  rw [childOf, OrderedMap.get?_modify]
  split
  · rw [childOf]
    cases children.get? s with
    | none => exact absent.symm
    | some n => rfl
  · rfl

theorem alike_remember (n : Node) : Alike n.remember n := by
  intro names
  induction names generalizing n with
  | nil =>
    cases n with
    | internal children kept => cases kept <;> rfl
    | _ => rfl
  | cons s rest ih =>
    cases n with
    | internal children kept =>
      cases kept with
      | some d => rfl
      | none =>
        rw [remember_internal, leaf?_cons, leaf?_cons]
        change (childOf (children.mapValues fun _ n => n.remember) s).leaf? rest
          = (childOf children s).leaf? rest
        rw [childOf_mapValues remember rfl, ih]
    | _ => rfl

theorem rememberAt_null (names : List String) : null.rememberAt names = null := by
  cases names <;> rfl

theorem alike_rememberAt (n : Node) (names : List String) : Alike (n.rememberAt names) n := by
  induction names generalizing n with
  | nil => exact alike_remember n
  | cons s names ih =>
    cases n with
    | internal children kept =>
      intro rest
      cases rest with
      | nil => rfl
      | cons j rest =>
        change (childOf (children.modify s fun c => c.rememberAt names) j).leaf? rest
          = (childOf children j).leaf? rest
        rw [childOf_modify _ (rememberAt_null names)]
        split
        · rename_i hj
          rw [ih, hj]
        · rfl
    | _ => exact fun _ => rfl

/-- Children that change under the names that are there, and stay tidy, leave their node tidy. -/
theorem Tidy.revalue (h : Tidy (.internal children kept)) (sound : others.Sound)
    (size : others.isEmpty = children.isEmpty)
    (get : ∀ k n, others.get? k = some n →
      ∃ m, children.get? k = some m ∧ (m ≠ .null → n ≠ .null) ∧ Tidy n) (kept' : Memo) :
    Tidy (.internal others kept') := by
  cases h with
  | internal _ sound' filled named present below =>
    refine .internal kept' sound (size.trans filled) ?_ ?_ ?_
    · intro k n hn
      obtain ⟨m, hm, _⟩ := get k n hn
      exact named k m hm
    · intro k n hn
      obtain ⟨m, hm, there, _⟩ := get k n hn
      exact there (present k m hm)
    · intro k n hn
      obtain ⟨m, hm, _, tidy⟩ := get k n hn
      exact tidy

theorem remember_ne_null (h : n ≠ null) : n.remember ≠ null := by
  cases n with
  | null => exact absurd rfl h
  | internal children kept => cases kept <;> exact nofun
  | _ => exact nofun

theorem rememberAt_ne_null (h : n ≠ null) (names : List String) : n.rememberAt names ≠ null := by
  cases names with
  | nil => exact remember_ne_null h
  | cons s rest =>
    cases n with
    | internal children kept => exact nofun
    | _ => exact h

theorem Tidy.remember (h : Tidy n) : Tidy n.remember := by
  induction h with
  | null => exact .null
  | bool b => exact .bool b
  | number x kept => exact .number x _
  | text s kept => exact .text s _
  | @internal children kept sound filled named present below ih =>
    have here : Tidy (.internal children kept) := .internal kept sound filled named present below
    cases kept with
    | some d => exact here
    | none =>
      rw [remember_internal]
      refine here.revalue (sound.mapValues _) rfl ?_ _
      intro k n hn
      rw [OrderedMap.get?_mapValues] at hn
      obtain ⟨m, hm, rfl⟩ := Option.map_eq_some_iff.mp hn
      exact ⟨m, hm, remember_ne_null, ih k m hm⟩

theorem Tidy.rememberAt (h : Tidy n) (names : List String) : Tidy (n.rememberAt names) := by
  induction names generalizing n with
  | nil => exact h.remember
  | cons s names ih =>
    cases h with
    | @internal children kept sound filled named present below =>
      have here : Tidy (.internal children kept) := .internal kept sound filled named present below
      refine here.revalue (sound.modify s _) rfl ?_ _
      intro k n hn
      rw [OrderedMap.get?_modify] at hn
      split at hn
      · obtain ⟨m, hm, rfl⟩ := Option.map_eq_some_iff.mp hn
        rename_i hk
        exact ⟨m, hk ▸ hm, fun h => rememberAt_ne_null h names, ih (below s m hm)⟩
      · exact ⟨n, hn, id, below k n hn⟩
    | null => exact .null
    | bool b => exact .bool b
    | number x kept => exact .number x kept
    | text s kept => exact .text s kept

theorem Tidy.contentHash_remember (h : Tidy n) : n.remember.contentHash = n.contentHash :=
  h.remember.contentHash_eq h (alike_remember n)

theorem Tidy.contentHash_rememberAt (h : Tidy n) (names : List String) :
    (n.rememberAt names).contentHash = n.contentHash :=
  (h.rememberAt names).contentHash_eq h (alike_rememberAt n names)

theorem Honest.remember (tidy : Tidy n) (h : Honest n) : Honest n.remember := by
  induction tidy with
  | null | bool b => exact h
  | number x kept | text s kept =>
    refine honest_leaf rfl fun d hd => ?_
    cases hd
    cases kept with
    | none => rfl
    | some d => exact h.memo_eq rfl
  | @internal children kept sound filled named present below ih =>
    have here : Tidy (.internal children kept) := .internal kept sound filled named present below
    cases kept with
    | some d => exact h
    | none =>
      -- the children have changed too, but not in content, so the digest is still the right one
      have same := here.contentHash_remember
      rw [remember_internal] at same ⊢
      refine honest_internal_iff.mpr ⟨?_, ?_⟩
      · intro d hd
        cases hd
        rw [same]
        exact h.hash_eq here
      · intro k n hn
        rw [OrderedMap.get?_mapValues] at hn
        obtain ⟨m, hm, rfl⟩ := Option.map_eq_some_iff.mp hn
        exact ih k m hm ((honest_internal_iff.mp h).2 k m hm)

theorem Honest.rememberAt (tidy : Tidy n) (h : Honest n) (names : List String) :
    Honest (n.rememberAt names) := by
  induction names generalizing n with
  | nil => exact h.remember tidy
  | cons s names ih =>
    have same := tidy.contentHash_rememberAt (s :: names)
    cases tidy with
    | @internal children kept sound filled named present below =>
      obtain ⟨memo_eq, honest⟩ := honest_internal_iff.mp h
      refine honest_internal_iff.mpr ⟨fun d hd => (memo_eq d hd).trans same.symm, ?_⟩
      intro k n hn
      rw [OrderedMap.get?_modify] at hn
      split at hn
      · obtain ⟨m, hm, rfl⟩ := Option.map_eq_some_iff.mp hn
        exact ih (below s m hm) (honest s m hm)
      · exact honest k n hn
    | _ => exact h

end LiveTree.Node
