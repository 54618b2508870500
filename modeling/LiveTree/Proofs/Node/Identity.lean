import LiveTree.Proofs.Digest.Text
import LiveTree.Proofs.Node.Equality
import LiveTree.Proofs.Node.Upkeep
import Mathlib.Data.Set.Function

/-!
# What a digest tells

The text that is digested for a container joins the names and the digests of its children with
colons, and a name may hold colons too. It can be taken apart again where no name of either node
holds a colon with the text of a digest of the other one. There the digest tells the content, as
far as digests of different messages are different. Where a name does hold such a text, two nodes
with different content may have the same message.
-/

namespace LiveTree.Node

variable {m n : Node} {children others : Children} {kept kept' : Memo}

/-- What a child adds to the text of its parent. -/
def partText (key : String) : Option Digest → String
  | none => ""
  | some d => ":" ++ key ++ ":" ++ d.text

def joined (entries : List (String × Option Digest)) : String :=
  String.join (entries.map fun e => partText e.1 e.2)

/-- The text that is digested for a node. -/
def written? : Node → Option String
  | null => none
  | bool b => some (if b then "boolean:true" else "boolean:false")
  | number x _ => some ("number:" ++ String.ofList (Bytes.toHex (Bytes.ofNat 8 x.bits.toNat)))
  | text s _ => some ("string:" ++ s)
  | internal children _ =>
    let text := joined (children.toList.map fun e => (e.1, e.2.contentHash))
    if text.isEmpty then none else some text

theorem digestPart_eq (key : String) (d : Option Digest) :
    digestPart key d = Bytes.ofText (partText key d) := by
  cases d <;> rfl

theorem flatMap_digestPart (entries : List (String × Option Digest)) :
    (entries.flatMap fun e => digestPart e.1 e.2) = Bytes.ofText (joined entries) := by
  induction entries with
  | nil => rfl
  | cons e entries ih =>
    rw [List.flatMap_cons, joined, List.map_cons, String.join_cons, Bytes.ofText_append, ih,
      digestPart_eq, joined]

theorem gatherDigests_eq (entries : List (String × Option Digest)) :
    gatherDigests entries = if (joined entries).isEmpty then none
      else some (Digest.ofMessage (Bytes.ofText (joined entries))) := by
  rw [gatherDigests, flatMap_digestPart, digestOfParts]
  congr 1
  rw [eq_iff_iff, List.isEmpty_iff, String.isEmpty_iff]
  exact Bytes.ofText_injective.eq_iff' rfl

theorem contentHash_eq (n : Node) :
    n.contentHash = n.written?.map fun text => Digest.ofMessage (Bytes.ofText text) := by
  cases n with
  | null => rfl
  | bool b => exact congrArg some (Digest.ofBool_eq b)
  | number x memo | text s memo => rw [written?, Option.map_some, Bytes.ofText_append]; rfl
  | internal children memo =>
    rw [contentHash_internal, gatherDigests_eq, written?]
    split <;> rfl

mutual

/-- The node and all those below it. -/
def nodes : Node → List Node
  | internal ⟨root, size⟩ memo => internal ⟨root, size⟩ memo :: nodesBelow root
  | n => [n]

def nodesBelow : AvlTree String Node → List Node
  | .nil => []
  | .node _ l _ n r => nodesBelow l ++ (n.nodes ++ nodesBelow r)

end

def names (n : Node) : List String := n.nodes.flatMap fun m => m.childrenOf.keys

/-- What is digested for a node and those below it. -/
def messages (n : Node) : List Bytes := (n.nodes.filterMap written?).map Bytes.ofText

def digests (n : Node) : List Digest := n.nodes.filterMap contentHash

theorem nodesBelow_eq (t : AvlTree String Node) :
    nodesBelow t = t.toList.flatMap fun e => e.2.nodes := by
  induction t with
  | nil => rfl
  | node h l k n r ihl ihr => simp [nodesBelow, AvlTree.toList, ihl, ihr]

theorem nodes_internal (children : Children) (kept : Memo) : (internal children kept).nodes
    = internal children kept :: children.toList.flatMap fun e => e.2.nodes := by
  rw [nodes, nodesBelow_eq, OrderedMap.toList_eq]

theorem mem_nodes (n : Node) : n ∈ n.nodes := by
  cases n <;> simp [nodes]

theorem nodes_child (h : children.Sound) {key : String} (hn : children.get? key = some n) :
    n.nodes ⊆ (internal children kept).nodes := by
  intro m hm
  rw [nodes_internal]
  apply List.mem_cons_of_mem
  have there := (OrderedMap.get?_eq_some_iff h).mp hn
  exact List.mem_flatMap.mpr ⟨_, there, hm⟩

/-- The name holds a colon with the text of the digest. -/
def Holds (name : String) (d : Digest) : Prop := (':' :: d.text.toList) <:+: name.toList

instance (name : String) (d : Digest) : Decidable (Holds name d) :=
  inferInstanceAs (Decidable (_ <:+: _))

/-- No colon is in the text of a digest, so what ends before a colon and begins with the colon of a
digest has all of its text. -/
theorem holds_of_append {d : Digest} {start rest rest' : List Char} (some : start ≠ [])
    (h : ':' :: (d.text.toList ++ rest) = start ++ ':' :: rest') :
    (':' :: d.text.toList) <+: start := by
  cases start with
  | nil => exact absurd rfl some
  | cons c start =>
    rw [List.cons_append, List.cons.injEq] at h
    obtain ⟨rfl, h⟩ := h
    apply List.cons_prefix_cons.mpr ⟨rfl, ?_⟩
    obtain ⟨more, hs, -⟩ | ⟨more, hd, hm⟩ := List.append_eq_append_iff.mp h
    · exact ⟨more, hs.symm⟩
    · cases more with
      | nil =>
        rw [List.append_nil] at hd
        exact hd ▸ List.prefix_rfl
      | cons c more =>
        obtain ⟨rfl, -⟩ := List.cons.inj hm
        exact absurd (hd ▸ List.mem_append_right start List.mem_cons_self) d.colon_notMem_text

theorem holds_of_longer {name : String} {d : Digest} {start more rest rest' : List Char}
    (hn : name.toList = start ++ more) (some : more ≠ [])
    (h : ':' :: (d.text.toList ++ rest) = more ++ ':' :: rest') : Holds name d := by
  rw [Holds, hn]
  exact (holds_of_append some h).isInfix.trans (List.suffix_append start more).isInfix

theorem part_inj {name name' : String} {d d' : Digest} {rest rest' : List Char}
    (free : ¬ Holds name d') (free' : ¬ Holds name' d)
    (h : name.toList ++ ':' :: (d.text.toList ++ rest)
      = name'.toList ++ ':' :: (d'.text.toList ++ rest')) :
    name = name' ∧ d = d' ∧ rest = rest' := by
  -- a longer name would go on with the colon and the digest that follow the shorter one
  have names : name.toList = name'.toList := by
    obtain ⟨more, hn, hm⟩ | ⟨more, hn, hm⟩ := List.append_eq_append_iff.mp h
    · by_cases none : more = []
      · rw [hn, none, List.append_nil]
      · exact absurd (holds_of_longer hn none hm) free'
    · by_cases none : more = []
      · rw [hn, none, List.append_nil]
      · exact absurd (holds_of_longer hn none hm) free
  rw [names, List.append_cancel_left_eq, List.cons.injEq] at h
  obtain ⟨digests, rest⟩ := List.append_inj h.2 (by rw [Digest.length_text, Digest.length_text])
  refine ⟨String.toList_injective names, ?_, rest⟩
  exact Digest.text_injective (String.toList_injective digests)

theorem joined_cons (name : String) (d : Digest) (entries : List (String × Option Digest)) :
    (joined ((name, some d) :: entries)).toList
      = ':' :: (name.toList ++ ':' :: (d.text.toList ++ (joined entries).toList)) := by
  simp [joined, partText]

theorem joined_ne_empty (name : String) (d : Digest) (entries : List (String × Option Digest)) :
    joined ((name, some d) :: entries) ≠ "" := by
  intro empty
  have letters := congrArg String.toList empty
  rw [joined_cons] at letters
  cases letters

/-- A text over names that hold no digests of the other one tells its names and digests. -/
theorem joined_inj {entries entries' : List (String × Option Digest)}
    (some : ∀ e ∈ entries, e.2.isSome) (some' : ∀ e ∈ entries', e.2.isSome)
    (free : ∀ e ∈ entries, ∀ e' ∈ entries', ∀ d, e'.2 = .some d → ¬ Holds e.1 d)
    (free' : ∀ e ∈ entries, ∀ e' ∈ entries', ∀ d, e.2 = .some d → ¬ Holds e'.1 d)
    (h : joined entries = joined entries') : entries = entries' := by
  induction entries generalizing entries' with
  | nil =>
    cases entries' with
    | nil => rfl
    | cons e' entries' =>
      obtain ⟨name', d'⟩ := e'
      obtain ⟨d', rfl⟩ := Option.isSome_iff_exists.mp (List.forall_mem_cons.mp some').1
      exact absurd h.symm (joined_ne_empty name' d' entries')
  | cons e entries ih =>
    obtain ⟨name, d⟩ := e
    obtain ⟨some, more⟩ := List.forall_mem_cons.mp some
    obtain ⟨d, rfl⟩ := Option.isSome_iff_exists.mp some
    cases entries' with
    | nil => exact absurd h (joined_ne_empty name d entries)
    | cons e' entries' =>
      obtain ⟨name', d'⟩ := e'
      obtain ⟨some', more'⟩ := List.forall_mem_cons.mp some'
      obtain ⟨d', rfl⟩ := Option.isSome_iff_exists.mp some'
      have first := free _ List.mem_cons_self _ List.mem_cons_self d' rfl
      have first' := free' _ List.mem_cons_self _ List.mem_cons_self d rfl
      have h := congrArg String.toList h
      rw [joined_cons, joined_cons, List.cons.injEq] at h
      obtain ⟨rfl, rfl, rest⟩ := part_inj first first' h.2
      rw [ih more more'
        (fun e he e' he' => free e (List.mem_cons_of_mem _ he) e' (List.mem_cons_of_mem _ he'))
        (fun e he e' he' => free' e (List.mem_cons_of_mem _ he) e' (List.mem_cons_of_mem _ he'))
        (String.toList_injective rest)]

/-- The first letter of the text, by which the kinds of nodes are told apart. -/
def mark? : Node → Option Char
  | null => none
  | bool _ => some 'b'
  | number _ _ => some 'n'
  | text _ _ => some 's'
  | internal _ _ => some ':'

theorem head?_joined {entries : List (String × Option Digest)} (some : joined entries ≠ "") :
    (joined entries).toList.head? = .some ':' := by
  induction entries with
  | nil => exact absurd rfl some
  | cons e entries ih =>
    obtain ⟨name, d⟩ := e
    cases d with
    | none =>
      have skip : joined ((name, none) :: entries) = joined entries := by simp [joined, partText]
      rw [skip] at some ⊢
      exact ih some
    | some d =>
      rw [joined_cons]
      rfl

theorem head?_written? {t : String} (h : n.written? = some t) : t.toList.head? = n.mark? := by
  cases n with
  | null => cases h
  | bool b =>
    cases h
    cases b <;> rfl
  | number x memo | text s memo =>
    cases h
    rw [String.toList_append, List.head?_append]
    rfl
  | internal children memo =>
    rw [written?] at h
    split at h
    · cases h
    · rename_i filled
      cases h
      exact head?_joined fun empty => filled (String.isEmpty_iff.mpr empty)

/-- A text that is digested tells whether it is that of a leaf, and what the leaf holds. -/
theorem atom?_eq_of_written? (same : m.written? = n.written?) : m.atom? = n.atom? := by
  cases h : m.written? with
  | none =>
    have none : ∀ {k : Node}, k.written? = none → k.atom? = none := by
      intro k hk
      cases k with
      | null | internal => rfl
      | _ => cases hk
    rw [none h, none (same.symm.trans h)]
  | some t =>
    -- nodes of two kinds have texts with different first letters
    have marks := (head?_written? h).symm.trans (head?_written? (same.symm.trans h))
    cases m with
    | null => cases h
    | internal children memo =>
      cases n with
      | internal others memo' => rfl
      | _ => cases marks
    | bool a =>
      cases n with
      | bool b => cases a <;> cases b <;> simp [written?, atom?] at same ⊢
      | _ => cases marks
    | number x memo =>
      cases n with
      | number y memo' =>
        rw [written?, written?, Option.some.injEq, String.append_right_inj] at same
        have bits := Bytes.mod_eq_of_ofNat (Bytes.toHex_injective (String.ofList_injective same))
        have whole (z : Double) : z.bits.toNat % Nat.pow 256 8 = z.bits.toNat :=
          Nat.mod_eq_of_lt z.bits.toNat_lt
        rw [whole, whole] at bits
        have equal : x = y := congrArg Double.mk (UInt64.toNat_inj.mp bits)
        rw [atom?, atom?, equal]
      | _ => cases marks
    | text s memo =>
      cases n with
      | text s' memo' =>
        rw [written?, written?, Option.some.injEq, String.append_right_inj] at same
        rw [atom?, atom?, same]
      | _ => cases marks

/-- Two nodes whose digests can be told apart: messages are told by their digests, and no name of
one holds a digest of the other. -/
structure Legible (m n : Node) : Prop where
  apart : Set.InjOn Digest.ofMessage {w | w ∈ m.messages ++ n.messages}
  free : ∀ s ∈ m.names, ∀ d ∈ n.digests, ¬ Holds s d
  free' : ∀ s ∈ n.names, ∀ d ∈ m.digests, ¬ Holds s d

theorem Legible.mono {m' n' : Node} (h : Legible m n) (hm : m'.nodes ⊆ m.nodes)
    (hn : n'.nodes ⊆ n.nodes) : Legible m' n' := by
  have messages : ∀ {k k' : Node}, k'.nodes ⊆ k.nodes → k'.messages ⊆ k.messages :=
    fun hk => List.map_subset _ (List.filterMap_subset _ hk)
  have names : ∀ {k k' : Node}, k'.nodes ⊆ k.nodes → k'.names ⊆ k.names :=
    fun hk _ hs => by
      obtain ⟨j, hj, hs⟩ := List.mem_flatMap.mp hs
      exact List.mem_flatMap.mpr ⟨j, hk hj, hs⟩
  have digests : ∀ {k k' : Node}, k'.nodes ⊆ k.nodes → k'.digests ⊆ k.digests :=
    fun hk => List.filterMap_subset _ hk
  refine ⟨h.apart.mono ?_, ?_, ?_⟩
  · exact fun w hw => List.mem_append.mpr
      ((List.mem_append.mp hw).imp (fun hw => messages hm hw) fun hw => messages hn hw)
  · exact fun s hs d hd => h.free s (names hm hs) d (digests hn hd)
  · exact fun s hs d hd => h.free' s (names hn hs) d (digests hm hd)

theorem mem_messages {t : String} (h : n.written? = some t) : Bytes.ofText t ∈ n.messages :=
  List.mem_map_of_mem (List.mem_filterMap.mpr ⟨n, mem_nodes n, h⟩)

theorem Legible.written?_eq (h : Legible m n) (same : m.contentHash = n.contentHash) :
    m.written? = n.written? := by
  rw [contentHash_eq, contentHash_eq] at same
  cases hm : m.written? with
  | none =>
    rw [hm] at same
    exact (Option.map_eq_none_iff.mp same.symm).symm
  | some t =>
    rw [hm] at same
    obtain ⟨t', hn, equal⟩ := Option.map_eq_some_iff.mp same.symm
    have bytes := h.apart (List.mem_append_right _ (mem_messages hn))
      (List.mem_append_left _ (mem_messages hm)) equal
    rw [hn, Bytes.ofText_injective bytes]

theorem Tidy.contentHash_isSome (h : Tidy n) (present : n ≠ .null) : n.contentHash.isSome := by
  induction h with
  | null => exact absurd rfl present
  | bool b | number x kept | text s kept => rfl
  | @internal children kept sound filled named some_child below ih =>
    cases hl : children.toList with
    | nil =>
      rw [sound.isEmpty_iff.mpr hl] at filled
      cases filled
    | cons e rest =>
      have there := (OrderedMap.get?_eq_some_iff sound).mpr (hl ▸ List.mem_cons_self)
      obtain ⟨d, hd⟩ := Option.isSome_iff_exists.mp (ih e.1 e.2 there (some_child e.1 e.2 there))
      rw [contentHash_internal, hl, List.map_cons, hd, gatherDigests_eq, if_neg]
      · rfl
      · exact fun empty => joined_ne_empty _ _ _ (String.isEmpty_iff.mp empty)

theorem written?_internal (h : Tidy (internal children kept)) :
    (internal children kept).written?
      = some (joined (children.toList.map fun e => (e.1, e.2.contentHash))) := by
  have some := h.contentHash_isSome nofun
  rw [contentHash_eq, Option.isSome_map, written?] at some
  rw [written?]
  split at some
  · cases some
  · exact if_neg ‹_›

theorem child_isSome (h : Tidy (internal children kept)) :
    ∀ e ∈ children.toList.map fun e => (e.1, e.2.contentHash), e.2.isSome := by
  rw [List.forall_mem_map]
  intro e he
  cases h with
  | internal _ sound _ _ present below =>
    have there := (OrderedMap.get?_eq_some_iff sound).mpr he
    exact (below e.1 e.2 there).contentHash_isSome (present e.1 e.2 there)

theorem mem_names {e : String × Node} (he : e ∈ children.toList) :
    e.1 ∈ (internal children kept).names :=
  List.mem_flatMap.mpr ⟨_, mem_nodes _, List.mem_map_of_mem he⟩

theorem mem_digests {e : String × Node} {d : Digest} (he : e ∈ children.toList)
    (hd : e.2.contentHash = some d) : d ∈ (internal children kept).digests := by
  refine List.mem_filterMap.mpr ⟨e.2, ?_, hd⟩
  rw [nodes_internal]
  exact List.mem_cons_of_mem _ (List.mem_flatMap.mpr ⟨e, he, mem_nodes e.2⟩)

theorem Legible.entries_eq (h : Legible (.internal children kept) (.internal others kept'))
    (here : Tidy (.internal children kept)) (there : Tidy (.internal others kept'))
    (same : (Node.internal children kept).contentHash = (Node.internal others kept').contentHash) :
    (children.toList.map fun e => (e.1, e.2.contentHash))
      = others.toList.map fun e => (e.1, e.2.contentHash) := by
  have texts := h.written?_eq same
  rw [written?_internal here, written?_internal there, Option.some.injEq] at texts
  refine joined_inj (child_isSome here) (child_isSome there) ?_ ?_ texts
  · rw [List.forall_mem_map]
    intro e he
    rw [List.forall_mem_map]
    exact fun e' he' d hd => h.free e.1 (mem_names he) d (mem_digests he' hd)
  · rw [List.forall_mem_map]
    intro e he
    rw [List.forall_mem_map]
    exact fun e' he' d hd => h.free' e'.1 (mem_names he') d (mem_digests he hd)

theorem Tidy.alike_of_contentHash (hm : Tidy m) (hn : Tidy n) (legible : Legible m n)
    (h : m.contentHash = n.contentHash) : Alike m n := by
  -- down the first node: each child has its partner under the same name, with the same digest
  induction hm generalizing n with
  | null =>
    by_cases none : n = .null
    · rw [none]
      exact fun _ => rfl
    · have some := hn.contentHash_isSome none
      rw [← h] at some
      cases some
  | bool b | number x kept | text s kept =>
    exact alike_of_atom rfl (atom?_eq_of_written? (legible.written?_eq h)).symm
  | @internal children kept sound filled named present below ih =>
    have here : Tidy (.internal children kept) := .internal kept sound filled named present below
    cases hn with
    | null =>
      have some := here.contentHash_isSome nofun
      rw [h] at some
      cases some
    | bool b | number x kept | text s kept =>
      cases atom?_eq_of_written? (legible.written?_eq h)
    | @internal others kept' sound' filled' named' present' below' =>
      have there : Tidy (.internal others kept') :=
        .internal kept' sound' filled' named' present' below'
      have entries := legible.entries_eq here there h
      refine alike_internal (OrderedMap.get?_map_ext sound sound' contentHash entries) ?_
      intro k m n hm hn same
      exact ih k m hm (below' k n hn) (legible.mono (nodes_child sound hm) (nodes_child sound' hn))
        same

instance (messages : List Bytes) : Decidable (Set.InjOn Digest.ofMessage {w | w ∈ messages}) :=
  inferInstanceAs (Decidable (∀ w ∈ messages, ∀ w' ∈ messages,
    Digest.ofMessage w = Digest.ofMessage w' → w = w'))

/-- The same content has the same digest. Different content has different digests, where different
messages have different digests and no name of one node holds a digest of the other. -/
theorem hash_identifies (hm : Tidy m) (hn : Tidy n) (honest : Honest m) (honest' : Honest n) :
    (m.sameAs n = true → m.hash = n.hash)
    ∧ (Set.InjOn Digest.ofMessage {w | w ∈ m.messages ++ n.messages} →
      (∀ s ∈ m.names, ∀ d ∈ n.digests, ¬ Holds s d) →
      (∀ s ∈ n.names, ∀ d ∈ m.digests, ¬ Holds s d) →
      (m.hash = n.hash ↔ m.sameAs n = true)) := by
  rw [honest.hash_eq hm, honest'.hash_eq hn, hm.sameAs_iff hn]
  refine ⟨hm.contentHash_eq hn, fun apart free free' => ⟨?_, hm.contentHash_eq hn⟩⟩
  exact hm.alike_of_contentHash hn ⟨apart, free, free'⟩

def pair (s : String) : Node := ofValue (.object [("a", .text s), ("b", .number (Double.ofNat 1))])

/-- The second child of a pair, under a name that holds the digest of the text `x`. -/
def single : Node :=
  ofValue (.object [("a:OJSeRnP1mf0vTrhq7izmWGPiNx4=:b", .number (Double.ofNat 1))])

theorem tidy_pair (s : String) : Tidy (pair s) := tidy_ofValue _

theorem tidy_single : Tidy single := tidy_ofValue _

theorem honest_pair (s : String) : Honest (pair s) := honest_ofValue _

theorem honest_single : Honest single := honest_ofValue _

theorem pair_told : (pair "y").hash = single.hash ↔ (pair "y").sameAs single = true :=
  (hash_identifies (tidy_pair "y") tidy_single (honest_pair "y") honest_single).2
    (by decide +kernel) (by decide +kernel) (by decide +kernel)

theorem joined_append (entries entries' : List (String × Option Digest)) :
    joined (entries ++ entries') = joined entries ++ joined entries' := by
  rw [joined, List.map_append, String.join_append, joined, joined]

/-- A name that holds a digest is read as a child with that digest and the name of the next one. -/
theorem joined_absorb (s t : String) (d d' : Digest) (rest : List (String × Option Digest)) :
    joined ((s, some d) :: (t, some d') :: rest)
      = joined ((s ++ ":" ++ d.text ++ ":" ++ t, some d') :: rest) := by
  apply String.toList_injective
  rw [joined_cons, joined_cons, joined_cons]
  simp

/-- Containers with the same digest and different content: two children that follow each other, and
the second of them alone under a name that holds the digest of the first. -/
theorem hash_eq_of_absorb {before after : List (String × Node)} {s t : String} {x y : Node}
    {d d' : Digest} (hm : Tidy (.internal children kept)) (hn : Tidy (.internal others kept'))
    (honest : Honest (.internal children kept)) (honest' : Honest (.internal others kept'))
    (hx : x.contentHash = some d) (hy : y.contentHash = some d')
    (hc : children.toList = before ++ (s, x) :: (t, y) :: after)
    (ho : others.toList = before ++ (s ++ ":" ++ d.text ++ ":" ++ t, y) :: after) :
    (Node.internal children kept).hash = (Node.internal others kept').hash
      ∧ (Node.internal children kept).sameAs (.internal others kept') = false := by
  constructor
  · rw [honest.hash_eq hm, honest'.hash_eq hn, contentHash_internal, contentHash_internal,
      gatherDigests_eq, gatherDigests_eq, hc, ho]
    simp only [List.map_append, List.map_cons, hx, hy, joined_append, joined_absorb]
  · rw [sameAs, ← Bool.not_eq_true, Value.identicalTo_iff, outline_internal hm, outline_internal hn,
      Value.object.injEq, hc, ho]
    intro same
    simpa using congrArg List.length same

/-- The pair and the single child have one digest, since the name of the child holds that of `x`. -/
theorem hash_pair_eq_single :
    (pair "x").hash = single.hash ∧ (pair "x").sameAs single = false := by
  obtain ⟨children, kept, hp, hc⟩ : ∃ children kept, pair "x" = .internal children kept
      ∧ children.toList = [] ++ [("a", .text "x" none), ("b", .number (Double.ofNat 1) none)] :=
    ⟨_, _, rfl, rfl⟩
  obtain ⟨others, kept', hs, ho⟩ : ∃ others kept', single = .internal others kept'
      ∧ others.toList
        = [] ++ [("a:OJSeRnP1mf0vTrhq7izmWGPiNx4=:b", .number (Double.ofNat 1) none)] :=
    ⟨_, _, rfl, rfl⟩
  have name : "a:OJSeRnP1mf0vTrhq7izmWGPiNx4=:b"
      = "a" ++ ":" ++ (textDigest "x").text ++ ":" ++ "b" := by
    decide +kernel
  rw [name] at ho
  have tidy := tidy_pair "x"
  have honest := honest_pair "x"
  have tidy' := tidy_single
  have honest' := honest_single
  rw [hp] at tidy honest
  rw [hs] at tidy' honest'
  rw [hp, hs]
  exact hash_eq_of_absorb tidy tidy' honest honest' rfl rfl hc ho

theorem pair_eq_single : Tidy (pair "x") ∧ Tidy single ∧ Honest (pair "x") ∧ Honest single
    ∧ Set.InjOn Digest.ofMessage {w | w ∈ (pair "x").messages ++ single.messages}
    ∧ ¬ ((pair "x").hash = single.hash ↔ (pair "x").sameAs single = true) := by
  obtain ⟨same, other⟩ := hash_pair_eq_single
  refine ⟨tidy_pair "x", tidy_single, honest_pair "x", honest_single, by decide +kernel, ?_⟩
  rw [iff_true_left same, other]
  exact Bool.false_ne_true

end LiveTree.Node
