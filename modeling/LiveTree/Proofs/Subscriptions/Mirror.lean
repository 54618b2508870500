import LiveTree.Proofs.Session.Notifications
import LiveTree.Proofs.Subscriptions.Children

/-!
# Events of children replay to the children

Three subscriptions to a path are told what happens to its children: one for each kind of event.
Whoever starts with the children and follows these events has the children after every change.
-/

namespace LiveTree

inductive Change where
  | update (kind : UpdateKind) (p : Path) (v : Value)
  | load (snapshot : Bytes)

/-- Where a change counts. -/
def Change.path : Change → Path
  | update _ p _ => p
  | load _ => Path.root

/-- A snapshot that cannot be read leaves the cache as it is. -/
def Cache.change (c : Cache) : Change → Cache
  | .update kind p v => c.take kind p v
  | .load snapshot => c.edit (.load snapshot)

theorem Cache.Current.change {c : Cache} (h : c.Current) (change : Change) :
    (c.change change).Current := by
  cases change with
  | update kind p v => exact h.take kind p v
  | load snapshot => exact h.edit (e := .load snapshot) trivial

namespace Subscriptions

theorem beside_change {c : Cache} (h : c.Tidy) (change : Change) :
    Beside c (c.change change) change.path := by
  cases change with
  | update kind p v => exact beside_take h kind p v
  | load snapshot => exact beside_root _ _

/-- Subscriptions that have followed a cache from the start. -/
inductive Following : Subscriptions → Cache → Prop where
  | new : Following empty Cache.empty
  | subscribe {s : Subscriptions} {c : Cache} (h : Following s c) (p : Path) (kind : EventKind) :
    Following (s.subscribe p kind c) c
  | unsubscribe {s : Subscriptions} {c : Cache} (h : Following s c) {handle : Nat} {p : Path}
    (known : s.path? handle = some p) : Following (s.remove handle p) c
  | clear {s : Subscriptions} {c : Cache} (h : Following s c) : Following s.clear c
  /-- The digest at the end of names is asked for. -/
  | ask {s : Subscriptions} {c : Cache} (h : Following s c) (names : List String) :
    Following s ⟨c.root.rememberAt names⟩
  | change {s : Subscriptions} {c : Cache} (h : Following s c) (change : Change) :
    Following (s.cacheChanged (c.change change) change.path).1 (c.change change)

theorem Following.current {s : Subscriptions} {c : Cache} (h : Following s c) :
    c.Current ∧ s.Faithful c := by
  induction h with
  | new => exact ⟨Cache.current_empty, faithful_empty _ _⟩
  | subscribe _ p kind ih => exact ⟨ih.1, ih.2.subscribe p kind⟩
  | unsubscribe _ known ih => exact ⟨ih.1, ih.2.remove (mem_of_path? known)⟩
  | clear _ ih => exact ⟨ih.1, faithful_empty _ _⟩
  | ask _ names ih => exact ⟨ih.1.ask names, ih.2.congr (Baseline.capture_ask ih.1 names)⟩
  | change _ change ih =>
    exact ⟨ih.1.change change, ih.2.cacheChanged (beside_change ih.1.tidy change)⟩

end Subscriptions

/-- The kinds of events of children. -/
def EventKind.ofChildren : List EventKind := [childAdded, childChanged, childRemoved]

theorem Baseline.mem_ofChildren {d e : Option Digest} {kind : EventKind}
    (h : fate d e = some kind) : kind ∈ EventKind.ofChildren := by
  unfold fate at h
  split at h
  · cases h
  · cases h
    decide
  · cases h
    decide
  · split at h
    · cases h
    · cases h
      decide

theorem Baseline.capture_child {kind : EventKind} (child : kind ∈ EventKind.ofChildren) (c : Cache)
    (p : Path) : capture kind c p = children (childDigests c p) := by
  cases kind with
  | value => exact absurd child (by decide)
  | _ => rfl

/-- The events that go to subscriptions with some handles. -/
def delivered (handles : EventKind → Nat) (events : List Event) : List Event :=
  events.filter fun e => EventKind.ofChildren.any fun kind => e.handle == handles kind

/-- What the subscription to a kind of event is told of a child. -/
def announce (handles : EventKind → Nat) (c : Cache) (p : Path) (change : EventKind × String) :
    Event :=
  Subscription.childEvent ⟨handles change.1, change.1, .value none⟩ c p change.2

theorem filter_delivered {handles : EventKind → Nat} {kind : EventKind}
    (child : kind ∈ EventKind.ofChildren) (events : List Event) :
    (delivered handles events).filter (fun e => e.handle == handles kind)
      = events.filter fun e => e.handle == handles kind := by
  rw [delivered, List.filter_filter]
  apply List.filter_congr
  intro e _
  rw [Bool.and_eq_left_iff_imp]
  exact fun here => List.any_eq_true.mpr ⟨kind, child, here⟩

theorem Subscription.refresh_child {x : Subscription} {d : Cache} {p : Path}
    (child : x.kind ∈ EventKind.ofChildren) {old : List (String × Digest)}
    (known : x.baseline = .children old) : (x.refresh d p).2
      = ((Baseline.changes old (Baseline.childDigests d p)).filter fun e => e.1 = x.kind).map
        fun e => x.childEvent d p e.2 := by
  unfold refresh
  dsimp only
  rw [Baseline.capture_child child, known]
  split
  · rename_i same
    rw [Baseline.children.injEq] at same
    rw [same, Baseline.changes_self]
    rfl
  · rfl

/-- Entries are different if those of each group are, and those of different groups are. -/
theorem nodup_map_of_groups {α β γ : Type} [BEq γ] [LawfulBEq γ] {l : List α} {f : α → γ}
    {g : α → β} (inside : ∀ a ∈ l, ((l.filter fun x => f x == f a).map g).Nodup)
    (across : ∀ a ∈ l, ∀ b ∈ l, g a = g b → f a = f b) : (l.map g).Nodup := by
  refine List.pairwise_map.mpr (List.pairwise_iff_forall_sublist.mpr fun {a b} sub same => ?_)
  have ha : a ∈ l := sub.subset List.mem_cons_self
  have hb : b ∈ l := sub.subset (List.mem_cons_of_mem _ List.mem_cons_self)
  have group := across a ha b hb same
  have both : [a, b].filter (fun x => f x == f a) = [a, b] := by simp [group]
  have nodup := (inside a ha).sublist ((both ▸ sub.filter fun x => f x == f a).map g)
  simp [same] at nodup

namespace Subscriptions

/-- The handles are those of subscriptions to a path, one for each kind of event of children. -/
def Serves (s : Subscriptions) (p : Path) (handles : EventKind → Nat) : Prop :=
  ∀ kind ∈ EventKind.ofChildren, ∃ x ∈ s.subscribers p, x.handle = handles kind ∧ x.kind = kind

/-- The handles of three subscriptions that are made in turn. -/
def nextHandles (last : Nat) : EventKind → Nat
  | .childAdded => last + 1
  | .childChanged => last + 2
  | _ => last + 3

theorem serves_subscribe {s : Subscriptions} {c : Cache} (h : s.Faithful c) (p : Path) :
    (((s.subscribe p .childAdded c).subscribe p .childChanged c).subscribe p .childRemoved
      c).Serves p (nextHandles s.lastHandle) := by
  have first := h.subscribe p .childAdded
  have second := first.subscribe p .childChanged
  intro kind child
  refine ⟨⟨nextHandles s.lastHandle kind, kind, Baseline.capture kind c p⟩, ?_, rfl, rfl⟩
  rw [subscribers_subscribe second.sound, subscribers_subscribe first.sound,
    subscribers_subscribe h.sound, if_pos rfl, if_pos rfl, if_pos rfl]
  cases kind with
  | value => exact absurd child (by decide)
  | childAdded => simp [nextHandles]
  | childChanged | childRemoved => simp [nextHandles, Subscriptions.subscribe]

section Delivery
variable {s : Subscriptions} {c d : Cache} {p q : Path} {handles : EventKind → Nat}

theorem Serves.cacheChanged (h : s.Serves p handles) (sound : s.byPath.Sound) (c : Cache)
    (q : Path) : (s.cacheChanged c q).1.Serves p handles := by
  intro kind child
  obtain ⟨x, hx, handle, same⟩ := h kind child
  rw [subscribers_cacheChanged sound]
  split
  · exact ⟨_, List.mem_map_of_mem hx, (x.refresh_handle c p).trans handle,
      (x.refresh_kind c p).trans same⟩
  · exact ⟨x, hx, handle, same⟩

/-- Each of the subscriptions is told what the comparison of the children says of its kind. -/
theorem Serves.filter_events (serves : s.Serves p handles) (h : s.Faithful c)
    (beside : Beside c d q) {kind : EventKind} (child : kind ∈ EventKind.ofChildren) :
    (delivered handles (s.cacheChanged d q).2).filter (fun e => e.handle == handles kind)
      = ((Baseline.changes (Baseline.childDigests c p) (Baseline.childDigests d p)).filter
        fun e => e.1 = kind).map (announce handles d p) := by
  obtain ⟨x, hx, handle, rfl⟩ := serves kind child
  have known : x.baseline = .children (Baseline.childDigests c p) :=
    (h.captured p x hx).trans (Baseline.capture_child child c p)
  rw [filter_delivered child, ← handle, h.filter_events beside hx,
    Subscription.refresh_child child known]
  apply List.map_congr_left
  rintro ⟨kind, key⟩ mem
  cases of_decide_eq_true (List.mem_filter.mp mem).2
  rw [announce, Subscription.childEvent, Subscription.childEvent, handle]

theorem Serves.mem_delivered_iff (serves : s.Serves p handles) (h : s.Faithful c)
    (current : c.Current) (current' : d.Current) (beside : Beside c d q) {e : Event} :
    e ∈ delivered handles (s.cacheChanged d q).2 ↔
      ∃ kind key, Baseline.fate (c.childHash p key) (d.childHash p key) = some kind
        ∧ announce handles d p (kind, key) = e := by
  constructor
  · intro mem
    obtain ⟨kind, child, handle⟩ := List.any_eq_true.mp (List.mem_filter.mp mem).2
    have here : e ∈ (delivered handles (s.cacheChanged d q).2).filter fun e =>
        e.handle == handles kind := List.mem_filter.mpr ⟨mem, handle⟩
    rw [serves.filter_events h beside child] at here
    obtain ⟨⟨kind', key⟩, change, rfl⟩ := List.mem_map.mp here
    exact ⟨kind', key, (current.mem_changes_iff current').mp (List.mem_filter.mp change).1, rfl⟩
  · rintro ⟨kind, key, happened, rfl⟩
    have child := Baseline.mem_ofChildren happened
    refine List.mem_of_mem_filter (p := fun e => e.handle == handles kind) ?_
    rw [serves.filter_events h beside child]
    refine List.mem_map_of_mem (List.mem_filter.mpr ⟨?_, decide_eq_true rfl⟩)
    exact (current.mem_changes_iff current').mpr happened

theorem Serves.ascending (serves : s.Serves p handles) (h : s.Faithful c) (tidy : c.Tidy)
    (tidy' : d.Tidy) (beside : Beside c d q) {kind : EventKind}
    (child : kind ∈ EventKind.ofChildren) :
    ((delivered handles (s.cacheChanged d q).2).filter fun e => e.handle == handles kind).Pairwise
      fun a b => ∃ k l, a.key = some k ∧ b.key = some l ∧ Segment.compare k l = .lt := by
  rw [serves.filter_events h beside child]
  have ascend := Baseline.changes_ascend (tidy.ascending_childDigests p)
    (tidy'.ascending_childDigests p)
  refine List.pairwise_map.mpr ((ascend.filter _).imp fun {a b} less => ?_)
  exact ⟨a.2, b.2, rfl, rfl, less⟩

theorem Serves.nodup_keys (serves : s.Serves p handles) (h : s.Faithful c) (current : c.Current)
    (current' : d.Current) (beside : Beside c d q) :
    ((delivered handles (s.cacheChanged d q).2).map (·.key)).Nodup := by
  have told := @serves.mem_delivered_iff _ _ _ _ _ _ h current current' beside
  apply nodup_map_of_groups (f := Event.handle)
  · intro a ha
    obtain ⟨kind, key, happened, rfl⟩ := told.mp ha
    have ascend := serves.ascending h current.tidy current'.tidy beside
      (Baseline.mem_ofChildren happened)
    refine List.pairwise_map.mpr (ascend.imp fun {a b} less same => ?_)
    obtain ⟨k, l, hk, hl, less⟩ := less
    rw [hk, hl, Option.some.injEq] at same
    have self : Segment.compare l l = .eq := Std.ReflCmp.compare_self
    rw [same, self] at less
    cases less
  · intro a ha b hb same
    obtain ⟨kind, key, happened, rfl⟩ := told.mp ha
    obtain ⟨kind', key', happened', rfl⟩ := told.mp hb
    cases Option.some.inj same
    cases happened.symm.trans happened'
    rfl

end Delivery

end Subscriptions

/-- Children by name, with what they hold. -/
abbrev Mirror := String → Option Value

/-- Follows an event: a child that was removed is not there, any other holds what is shown. -/
def Mirror.take (m : Mirror) (e : Event) : Mirror := fun key =>
  if e.key = some key then if e.kind = .childRemoved then none else some e.value else m key

/-- The children at a path. There are none below a leaf, or where there is nothing. -/
def Cache.mirror (c : Cache) (p : Path) : Mirror := fun key =>
  ((c.children p).lookup key).map Node.toValue

/-- Children that are compared are the same if their digests are. -/
def Told (c d : Cache) (p : Path) : Prop :=
  ∀ e ∈ c.children p, ∀ e' ∈ d.children p, e.1 = e'.1 → e.2.hash = e'.2.hash →
    e.2.sameAs e'.2 = true

instance (c d : Cache) (p : Path) : Decidable (Told c d p) :=
  inferInstanceAs (Decidable (∀ e ∈ c.children p, ∀ e' ∈ d.children p, e.1 = e'.1 →
    e.2.hash = e'.2.hash → e.2.sameAs e'.2 = true))

section Mirror
variable {m : Mirror} {events : List Event} {c d : Cache} {p : Path} {key : String}
  {kind : EventKind}

theorem foldl_take_of_none (silent : ∀ e ∈ events, e.key ≠ some key) :
    events.foldl Mirror.take m key = m key := by
  induction events generalizing m with
  | nil => rfl
  | cons e events ih =>
    obtain ⟨first, silent⟩ := List.forall_mem_cons.mp silent
    rw [List.foldl_cons, ih silent, Mirror.take, if_neg first]

theorem foldl_take_of_mem (nodup : (events.map (·.key)).Nodup) {e : Event} (mem : e ∈ events)
    (here : e.key = some key) : events.foldl Mirror.take m key
      = if e.kind = .childRemoved then none else some e.value := by
  induction events generalizing m with
  | nil => cases mem
  | cons x events ih =>
    obtain ⟨only, nodup⟩ := List.nodup_cons.mp nodup
    rw [List.foldl_cons]
    rcases List.mem_cons.mp mem with rfl | mem
    · have silent : ∀ x ∈ events, x.key ≠ some key := fun x hx same =>
        only (List.mem_map.mpr ⟨x, hx, same.trans here.symm⟩)
      rw [foldl_take_of_none silent, Mirror.take, if_pos here]
    · exact ih nodup mem

theorem mirror_of_quiet (current : c.Current) (current' : d.Current) (told : Told c d p)
    (quiet : Baseline.fate (c.childHash p key) (d.childHash p key) = none) :
    c.mirror p key = d.mirror p key := by
  unfold Cache.mirror
  cases before : (c.children p).lookup key with
  | none =>
    cases after : (d.children p).lookup key with
    | none => rfl
    | some n =>
      obtain ⟨y, _, hash⟩ := current'.childHash_of_some after
      rw [Cache.childHash_of_none before, hash] at quiet
      cases quiet
  | some m =>
    obtain ⟨x, hm, hash⟩ := current.childHash_of_some before
    cases after : (d.children p).lookup key with
    | none =>
      rw [hash, Cache.childHash_of_none after] at quiet
      cases quiet
    | some n =>
      obtain ⟨y, hn, hash'⟩ := current'.childHash_of_some after
      have mem := (current.tidy.ascending_children p).lookup_eq_some_iff.mp before
      have mem' := (current'.tidy.ascending_children p).lookup_eq_some_iff.mp after
      rw [hash, hash', Baseline.fate] at quiet
      split at quiet
      · rename_i same
        have equal := told _ mem _ mem' rfl (by rw [hm, hn, same])
        have tidy := current.tidy.tidy_child mem
        have tidy' := current'.tidy.tidy_child mem'
        exact congrArg some (tidy.toValue_eq tidy' ((tidy.sameAs_iff tidy').mp equal))
      · cases quiet

theorem mirror_of_fate (current' : d.Current)
    (happened : Baseline.fate (c.childHash p key) (d.childHash p key) = some kind) :
    d.mirror p key = if kind = .childRemoved then none
      else some (Subscription.childValue d p key) := by
  rw [current'.tidy.childValue_eq, Cache.mirror]
  cases after : (d.children p).lookup key with
  | none =>
    rw [Cache.childHash_of_none after] at happened
    rw [if_pos (Baseline.removed_of_fate happened)]
    rfl
  | some n =>
    obtain ⟨y, _, hash⟩ := current'.childHash_of_some after
    have there : kind ≠ .childRemoved := by
      rintro rfl
      rw [hash] at happened
      exact Baseline.fate_ne_removed _ y happened
    rw [if_neg there]
    rfl

/-- Whoever has the children before a change has them after it. -/
theorem Subscriptions.Serves.mirrored {s : Subscriptions} {q : Path} {handles : EventKind → Nat}
    (serves : s.Serves p handles) (h : s.Faithful c) (current : c.Current) (current' : d.Current)
    (beside : Beside c d q) (told : Told c d p) :
    (delivered handles (s.cacheChanged d q).2).foldl Mirror.take (c.mirror p) = d.mirror p := by
  have announced := @serves.mem_delivered_iff _ _ _ _ _ _ h current current' beside
  funext key
  cases happened : Baseline.fate (c.childHash p key) (d.childHash p key) with
  | none =>
    have silent : ∀ e ∈ delivered handles (s.cacheChanged d q).2, e.key ≠ some key := by
      intro e mem same
      obtain ⟨kind, key', fate, rfl⟩ := announced.mp mem
      cases Option.some.inj same
      rw [happened] at fate
      cases fate
    rw [foldl_take_of_none silent]
    exact mirror_of_quiet current current' told happened
  | some kind =>
    have mem := announced.mpr ⟨kind, key, happened, rfl⟩
    have nodup := serves.nodup_keys h current current' beside
    rw [foldl_take_of_mem nodup mem rfl, mirror_of_fate current' happened]
    change (if kind = .childRemoved then none
      else some (if kind = .childRemoved then .null else Subscription.childValue d p key)) = _
    split <;> rfl

end Mirror

/-- What the subscriptions with some handles are told of a change. -/
def Subscriptions.eventsOf (s : Subscriptions) (c : Cache) (handles : EventKind → Nat)
    (change : Change) : List Event :=
  delivered handles (s.cacheChanged (c.change change) change.path).2

/-- A mirror of the children at a path. It was taken while there were subscriptions to all that
happens to them, and has followed their events through the changes since then. -/
inductive Replayed (p : Path) (handles : EventKind → Nat) :
    Subscriptions → Cache → Mirror → Prop where
  | start {s : Subscriptions} {c : Cache} (h : s.Following c) (serves : s.Serves p handles) :
    Replayed p handles s c (c.mirror p)
  | change {s : Subscriptions} {c : Cache} {m : Mirror} (h : Replayed p handles s c m)
    (change : Change) (told : Told c (c.change change) p) :
    Replayed p handles (s.cacheChanged (c.change change) change.path).1 (c.change change)
      ((s.eventsOf c handles change).foldl Mirror.take m)

section Replayed
variable {p : Path} {handles : EventKind → Nat} {s : Subscriptions} {c : Cache} {m : Mirror}

theorem Replayed.following (h : Replayed p handles s c m) :
    s.Following c ∧ s.Serves p handles := by
  induction h with
  | start h serves => exact ⟨h, serves⟩
  | change _ change _ ih =>
    obtain ⟨following, serves⟩ := ih
    exact ⟨following.change change, serves.cacheChanged following.current.2.sound _ _⟩

theorem Replayed.mirror_eq (h : Replayed p handles s c m) : m = c.mirror p := by
  induction h with
  | start => rfl
  | change h change told ih =>
    obtain ⟨following, serves⟩ := h.following
    obtain ⟨current, faithful⟩ := following.current
    rw [ih]
    exact serves.mirrored faithful current (current.change change)
      (Subscriptions.beside_change current.tidy change) told

/-- After any changes, whoever follows the events of the children has the children: none if there is
a leaf or nothing. The next change is told in the order of the names to each subscription, once for
a child at most, and only if its digest is another. -/
theorem children_replayed (h : Replayed p handles s c m) :
    m = c.mirror p
    ∧ ((∀ n, c.get? p = some n → n.children? = none) → ∀ key, m key = none)
    ∧ ∀ change,
      (∀ kind ∈ EventKind.ofChildren,
        ((s.eventsOf c handles change).filter fun e => e.handle == handles kind).Pairwise
          fun a b => ∃ k l, a.key = some k ∧ b.key = some l ∧ Segment.compare k l = .lt)
      ∧ ((s.eventsOf c handles change).map (·.key)).Nodup
      ∧ ∀ e ∈ s.eventsOf c handles change, ∃ key, e.key = some key ∧ e.path = p
        ∧ c.childHash p key ≠ (c.change change).childHash p key := by
  obtain ⟨following, serves⟩ := h.following
  obtain ⟨current, faithful⟩ := following.current
  refine ⟨h.mirror_eq, fun leaf key => ?_, fun change => ?_⟩
  · have none : c.children p = [] := by
      unfold Cache.children
      cases there : c.get? p with
      | none => rfl
      | some n =>
        rw [Option.bind_some, leaf n there]
        rfl
    rw [h.mirror_eq, Cache.mirror, none]
    rfl
  · have current' := current.change change
    have beside := Subscriptions.beside_change current.tidy change
    refine ⟨fun kind child => serves.ascending faithful current.tidy current'.tidy beside child,
      serves.nodup_keys faithful current current' beside, fun e mem => ?_⟩
    obtain ⟨kind, key, happened, rfl⟩ :=
      (serves.mem_delivered_iff faithful current current' beside).mp mem
    refine ⟨key, rfl, rfl, fun same => ?_⟩
    rw [same, Baseline.fate_self] at happened
    cases happened

end Replayed

/-- One child changes, one is removed and one is added; a leaf takes the place of them all, and then
other children take its place. -/
theorem children_replayed_anew : ∃ handles s c m, Replayed Path.root handles s c m
    ∧ m = c.mirror Path.root
    ∧ (m "x").isNone ∧ (m "2").isSome
    ∧ (s.eventsOf c handles (.update .put Path.root .null)).map (·.key)
      = [some "2", some "10"] := by
  have before := Subscriptions.Following.new.change
    (.update .put Path.root (.object [("x", .bool true), ("y", .bool true)]))
  have start := Replayed.start
    (((before.subscribe Path.root .childAdded).subscribe Path.root .childChanged).subscribe
      Path.root .childRemoved) (Subscriptions.serves_subscribe before.current.2 Path.root)
  have turned := start.change (.update .merge Path.root
    (.object [("x", .bool false), ("y", .null), ("z", .bool true)])) (by decide +kernel)
  have flat := turned.change (.update .put Path.root (.bool true)) (by decide +kernel)
  have same := flat.change (.load []) (by decide +kernel)
  have anew := same.change (.update .put Path.root
    (.object [("10", .bool true), ("2", .bool true)])) (by decide +kernel)
  refine ⟨_, _, _, _, anew, (children_replayed anew).1, ?_, ?_, ?_⟩
  all_goals decide +kernel

end LiveTree
