import LiveTree.Proofs.Session.Notifications
import LiveTree.Proofs.Session.Numbers
import LiveTree.Proofs.Session.Turns

/-!
# References to listens

A path has an item among the listens if and only if somebody subscribes to it, and the item counts
the subscriptions. Both sides are changed by separate steps of a call, and agree after every call.
So no reference is given back that was not taken, and a handle that is gone stays gone.
-/

namespace LiveTree

open Listens Relation

namespace Listens

/-- No item is kept that nobody refers to. -/
def Held (l : Listens) : Prop := ∀ p i, l.get? p = some i → 0 < i.refCount

section Held
variable {σ : Type} {sink : Sink σ} {acc acc' : Sending σ} {l : Listens} {p : Path}

theorem refs_of_get? {i : Listen} (h : l.get? p = some i) : l.refs p = i.refCount := by
  rw [refs, h]
  rfl

theorem held_clear (l : Listens) : l.clear.Held := nofun

theorem Held.modify (h : l.Held) {f : Listen → Listen}
    (kept : ∀ i, l.get? p = some i → 0 < (f i).refCount) : (l.modify p f).Held := by
  intro q i hq
  rw [get?_modify] at hq
  split at hq
  · obtain ⟨j, hj, rfl⟩ := Option.map_eq_some_iff.mp hq
    exact kept j hj
  · exact h q i hq

theorem Held.setStatus (h : l.Held) (p : Path) (s : ListenStatus) : (l.setStatus p s).Held :=
  h.modify fun i hi => h p i hi

theorem Held.setRequest (h : l.Held) (p : Path) (r : Option RequestId) : (l.setRequest p r).Held :=
  h.modify fun i hi => h p i hi

theorem Move.held {again : Prop} (m : Move sink again acc acc') (h : acc.1.Held) :
    acc'.1.Held := by
  cases m with
  | send => exact (h.setStatus _ _).setRequest _ _
  | need | mask | yield => exact h.setStatus _ _

theorem Opening.held {a : Action} {rest : Rest} (o : Opening sink a acc acc' rest)
    (sound : acc.1.items.Sound) (h : acc.1.Held) : acc'.1.Held := by
  cases o with
  | hold => exact h.modify fun i _ => Nat.succ_pos _
  | @add l w p new =>
    intro q i hq
    rw [get?_withNew sound new] at hq
    split at hq
    · cases hq
      exact Nat.one_pos
    · exact h q i hq
  | stray | unknown | stale | resume => exact h
  | @drop l w p i item more =>
    refine h.modify fun j hj => ?_
    cases item.symm.trans hj
    exact Nat.sub_pos_of_lt more
  | @close l w p i =>
    intro q j hq
    rw [get?_remove sound] at hq
    split at hq
    · cases hq
    · exact h q j hq
  | @accept l w id p | @refuse l w id p =>
    exact Held.setStatus (Held.setRequest (l := l.forget id) h p none) p _
  | @late l w id p | @lapse l w id ok p => exact Held.setRequest (l := l.forget id) h p none
  | suspend =>
    intro q i hq
    obtain ⟨j, hj, rfl⟩ := Option.map_eq_some_iff.mp ((get?_suspend _ q).symm.trans hq)
    exact h q j hj
  | clear => exact nofun

theorem Action.held (sink : Sink σ) (a : Action) (sound : acc.1.items.Sound) (h : acc.1.Held) :
    (a.run sink acc).1.Held := by
  obtain ⟨mid, rest, o, same⟩ := run_opens sink a acc
  have moves := Rest.moves sink True rest (o.sound sound) (o.ready sound)
    fun _ hn => absurd trivial hn
  rw [same]
  exact moves.head_induction_on (motive := fun acc _ => acc.1.Held → _) id
    (fun m _ ih h => ih (m.held h)) (o.held sound h)

/-- Listens with the same references. -/
structure Even (l l' : Listens) : Prop where
  sound : l'.items.Sound
  refs : ∀ p, l'.refs p = l.refs p
  held : l.Held → l'.Held

theorem Even.trans {l l' l'' : Listens} (h : Even l l') (h' : Even l' l'') : Even l l'' :=
  ⟨h'.sound, fun p => (h'.refs p).trans (h.refs p), fun held => h'.held (h.held held)⟩

theorem Action.even (a : Action) (sound : l.items.Sound) (w : Wire)
    (counts : ∀ p, a.counts l p = l.refs p) : Even l (a.run Wire.sink (l, w)).1 where
  sound := (@Action.grown (l, w) a sound).2
  refs p := (@Action.refs _ (l, w) Wire.sink a sound p).trans (counts p)
  held := @Action.held _ (l, w) Wire.sink a sound

end Held

end Listens

namespace Subscriptions

variable {s : Subscriptions} {c : Cache} {p q : Path} {handle : Nat}

/-- No list of subscriptions is kept that is empty. -/
def Filled (s : Subscriptions) : Prop := ∀ p l, s.byPath.get? p = some l → l ≠ []

theorem filled_clear (s : Subscriptions) : s.clear.Filled := nofun

theorem Filled.subscribe (h : s.Filled) (sound : s.byPath.Sound) (p : Path) (kind : EventKind)
    (c : Cache) : (s.subscribe p kind c).Filled := by
  intro q l hq
  unfold Subscriptions.subscribe at hq
  dsimp only at hq
  split at hq
  · rw [OrderedMap.get?_modify] at hq
    split at hq
    · obtain ⟨old, _, rfl⟩ := Option.map_eq_some_iff.mp hq
      exact List.append_ne_nil_of_right_ne_nil _ (List.cons_ne_nil _ _)
    · exact h q l hq
  · rename_i absent
    have none := OrderedMap.contains_eq_false_iff.mp (Bool.eq_false_iff.mpr absent)
    rw [OrderedMap.get?_insert sound, none] at hq
    split at hq
    · cases hq
      exact List.cons_ne_nil _ _
    · exact h q l hq

theorem Filled.remove (h : s.Filled) (sound : s.byPath.Sound) (handle : Nat) (p : Path) :
    (s.remove handle p).Filled := by
  intro q l hq
  unfold Subscriptions.remove at hq
  dsimp only at hq
  split at hq
  · rw [OrderedMap.get?_erase sound] at hq
    split at hq
    · cases hq
    · exact h q l hq
  · rename_i some
    rw [OrderedMap.get?_modify] at hq
    split at hq
    · obtain ⟨_, _, rfl⟩ := Option.map_eq_some_iff.mp hq
      simpa using some
    · exact h q l hq

theorem Filled.refreshAt (c : Cache) {acc : Subscriptions × List Event} (h : acc.1.Filled)
    (p : Path) : (refreshAt c acc p).1.Filled := by
  intro q l hq
  rw [Subscriptions.refreshAt, OrderedMap.get?_modify] at hq
  split at hq
  · obtain ⟨old, there, rfl⟩ := Option.map_eq_some_iff.mp hq
    have some := h p old there
    simpa [subscribers, there] using some
  · exact h q l hq

theorem Filled.cacheChanged (h : s.Filled) (c : Cache) (p : Path) :
    (s.cacheChanged c p).1.Filled := by
  unfold Subscriptions.cacheChanged
  generalize s.affected p = paths
  suffices run : ∀ {acc : Subscriptions × List Event}, acc.1.Filled →
      (paths.foldl (Subscriptions.refreshAt c) acc).1.Filled from run h
  induction paths with
  | nil => exact id
  | cons q paths ih => exact fun h => ih (h.refreshAt c q)

theorem path?_eq_none_iff : s.path? handle = none ↔ ∀ p, (handle, p) ∉ s.handles := by
  rw [path?, List.lookup_eq_none_iff]
  constructor
  · intro h p mem
    simpa using h _ mem
  · rintro h ⟨j, p⟩ mem
    rw [bne_iff_ne]
    rintro rfl
    exact h p mem

theorem Faithful.path?_eq_some_iff (h : s.Faithful c) :
    s.path? handle = some p ↔ (handle, p) ∈ s.handles := by
  refine ⟨mem_of_path?, fun mem => ?_⟩
  cases path : s.path? handle with
  | none => exact absurd mem (path?_eq_none_iff.mp path p)
  | some q =>
    have same := List.inj_on_of_nodup_map h.distinct (mem_of_path? path) mem rfl
    rw [(Prod.mk.inj same).2]

theorem Faithful.length_subscribers (h : s.Faithful c) (p : Path) :
    (s.subscribers p).length = s.handles.countP fun e => e.2 == p := by
  have length := congrArg List.length (h.listed p)
  rwa [List.length_map, List.length_map, ← List.countP_eq_length_filter] at length

theorem Faithful.count_handle (h : s.Faithful c) (mem : (handle, p) ∈ s.handles) (q : Path) :
    ((s.subscribers q).map (·.handle)).count handle = if q = p then 1 else 0 := by
  split
  · rename_i here
    obtain ⟨x, hx, rfl⟩ := h.exists_of_mem mem
    exact List.count_eq_one_of_mem (h.handles_nodup q) (List.mem_map_of_mem (here ▸ hx))
  · rename_i elsewhere
    apply List.count_eq_zero.mpr
    intro there
    obtain ⟨x, hx, rfl⟩ := List.mem_map.mp there
    have same := List.inj_on_of_nodup_map h.distinct (h.mem_handles hx) mem rfl
    exact elsewhere (Prod.mk.inj same).2

/-- A handle that has been given out and is not there any more. -/
structure Gone (s : Subscriptions) (handle : Nat) : Prop where
  issued : handle ≤ s.lastHandle
  absent : s.path? handle = none

theorem path?_remove_self (s : Subscriptions) (handle : Nat) (p : Path) :
    (s.remove handle p).path? handle = none := by
  apply path?_eq_none_iff.mpr
  intro q mem
  simpa using (List.mem_filter.mp mem).2

theorem Gone.subscribe (h : s.Gone handle) (p : Path) (kind : EventKind) (c : Cache) :
    (s.subscribe p kind c).Gone handle where
  issued := Nat.le_succ_of_le h.issued
  absent := by
    apply path?_eq_none_iff.mpr
    intro q mem
    rcases List.mem_append.mp mem with old | new
    · exact path?_eq_none_iff.mp h.absent q old
    · have next := (Prod.mk.inj (List.mem_singleton.mp new)).1
      exact Nat.not_succ_le_self _ (next ▸ h.issued)

theorem Gone.remove (h : s.Gone handle) (other : Nat) (p : Path) :
    (s.remove other p).Gone handle where
  issued := h.issued
  absent := path?_eq_none_iff.mpr fun q mem =>
    path?_eq_none_iff.mp h.absent q (List.mem_filter.mp mem).1

theorem Gone.cacheChanged (h : s.Gone handle) (c : Cache) (p : Path) :
    (s.cacheChanged c p).1.Gone handle := by
  obtain ⟨handles, lastHandle⟩ := s.handles_cacheChanged c p
  refine ⟨lastHandle ▸ h.issued, ?_⟩
  rw [path?, handles]
  exact h.absent

end Subscriptions

namespace Session

variable {s t : Session} {c : Call} {ids : List RequestId}

theorem Turn.even (turn : Turn s t) (sound : s.listens.items.Sound) :
    Even s.listens t.listens := by
  have same (e : t.listens = s.listens) : Even s.listens t.listens := by
    rw [e]
    exact ⟨sound, fun _ => rfl, id⟩
  cases turn with
  | calm _ listens | opened _ _ listens | closing _ _ listens => exact same listens
  | answered id ok _ run =>
    have listens : t.listens = _ := congrArg Prod.fst run
    rw [listens]
    exact Action.even (.answer id ok) sound s.wire fun _ => rfl
  | lost _ listens => exact listens ▸ Action.even .suspend sound s.wire fun _ => rfl
  | greeted _ w run => exact run ▸ Action.even .resume sound w fun _ => rfl

theorem Turns.even (turns : Turns s t) (sound : s.listens.items.Sound) :
    Even s.listens t.listens := by
  induction turns with
  | refl => exact ⟨sound, fun _ => rfl, id⟩
  | tail _ turn ih => exact ih.trans (turn.even ih.sound)

/-- Calls that are made of turns leave the subscriptions as they are, or look at them again. -/
theorem subscriptions_call (s : Session) (plain : c.refers = false) :
    (s.call c).subscriptions = s.subscriptions
      ∨ ∃ d p, (s.call c).subscriptions = (s.subscriptions.cacheChanged d p).1 := by
  have same : ∀ {t : Session}, t.shown = s.shown → t.subscriptions = s.subscriptions
      ∨ ∃ d p, t.subscriptions = (s.subscriptions.cacheChanged d p).1 :=
    fun h => Or.inl (congrArg Shown.subscriptions h)
  have receive : ∀ m, (s.receive m).subscriptions = s.subscriptions
      ∨ ∃ d p, (s.receive m).subscriptions = (s.subscriptions.cacheChanged d p).1 := by
    intro m
    cases m with
    | handshake time => exact same (s.shown_handshake time)
    | update kind p v => exact Or.inr ⟨_, p, rfl⟩
    | response id status data => exact same (s.shown_response id status data)
    | closed recoverable retryAfter => exact same (s.shown_lose recoverable retryAfter)
  cases c with
  | watch p kind | unwatch handle | teardown => cases plain
  | connect => exact same s.shown_connect
  | close => exact same s.shown_close
  | write p v observed => exact same (s.shown_submit _ observed)
  | merge p v observed => exact same (s.shown_submit _ observed)
  | push p v observed => exact same (s.shown_push p v observed)
  | restore snapshot =>
    rw [call, restore]
    split
    · exact Or.inl rfl
    · exact Or.inr ⟨_, _, rfl⟩
  | receive m => exact receive m
  | frame text =>
    rw [call, receiveFrame]
    split
    · exact receive _
    · exact Or.inl rfl
  | tick => exact same s.shown_tick
  | authenticate credential observed | pass t | ask names | faults opening closing | drain =>
    exact Or.inl rfl

/-- The items and the subscriptions agree. -/
structure Referenced (s : Session) : Prop where
  sound : s.listens.items.Sound
  counted : ∀ p, s.listens.refs p = s.subscriptions.handles.countP fun e => e.2 == p
  held : s.listens.Held
  filled : s.subscriptions.Filled

theorem Referenced.act {a : Listens.Action} (h : Referenced s)
    (listens : t.listens = (a.run Wire.sink (s.listens, s.wire)).1)
    (counts : ∀ p, a.counts s.listens p = t.subscriptions.handles.countP fun e => e.2 == p)
    (filled : t.subscriptions.Filled) : Referenced t where
  sound := listens ▸ (@Action.grown (s.listens, s.wire) a h.sound).2
  counted p := by
    rw [listens, ← counts]
    exact @Action.refs _ (s.listens, s.wire) Wire.sink a h.sound p
  held := listens ▸ @Action.held _ (s.listens, s.wire) Wire.sink a h.sound h.held
  filled := filled

theorem Referenced.plain (h : Referenced s) (plain : c.refers = false) : Referenced (s.call c) := by
  have even := (s.turns_call plain).even h.sound
  rcases s.subscriptions_call plain with same | ⟨d, p, looked⟩
  · exact ⟨even.sound, fun p => same ▸ (even.refs p).trans (h.counted p), even.held h.held,
      same ▸ h.filled⟩
  · have handles := (s.subscriptions.handles_cacheChanged d p).1
    refine ⟨even.sound, fun q => ?_, even.held h.held, looked ▸ h.filled.cacheChanged d p⟩
    rw [looked, handles]
    exact (even.refs q).trans (h.counted q)

theorem Referenced.call (h : Referenced s) (upToDate : s.shown.UpToDate) (c : Call) :
    Referenced (s.call c) := by
  have faithful : s.subscriptions.Faithful s.cache := upToDate.faithful
  cases plain : c.refers with
  | false => exact h.plain plain
  | true =>
    cases c with
    | watch p kind =>
      refine h.act (a := .acquire p) rfl (fun q => ?_) (h.filled.subscribe faithful.sound p kind _)
      rw [Action.counts, h.counted q]
      exact (s.subscriptions.countP_subscribe p kind s.cache q).symm
    | unwatch handle =>
      rw [Session.call, unwatch]
      split
      · exact h
      · rename_i p path
        have mem := Subscriptions.mem_of_path? path
        refine h.act (a := .release p) rfl (fun q => ?_) (h.filled.remove faithful.sound handle p)
        rw [Action.counts, h.counted q]
        exact (Subscriptions.countP_remove faithful.distinct mem q).symm
    | teardown =>
      exact ⟨OrderedMap.sound_empty, fun _ => rfl, held_clear _, Subscriptions.filled_clear _⟩
    | _ => cases plain

theorem Reached.referenced (h : Reached ids s) : Referenced s := by
  induction h with
  | new config clock digits => exact ⟨OrderedMap.sound_empty, fun _ => rfl, nofun, nofun⟩
  | call h c ih => exact ih.call h.upToDate c

theorem Referenced.item_iff (h : Referenced s) (faithful : s.subscriptions.Faithful s.cache)
    (p : Path) : (∃ i, s.listens.get? p = some i)
      ↔ ∃ handle, s.subscriptions.path? handle = some p := by
  constructor
  · rintro ⟨i, item⟩
    have counted := (refs_of_get? item).symm.trans (h.counted p)
    obtain ⟨⟨handle, q⟩, mem, same⟩ := List.countP_pos_iff.mp (counted ▸ h.held p i item)
    cases beq_iff_eq.mp same
    exact ⟨handle, faithful.path?_eq_some_iff.mpr mem⟩
  · rintro ⟨handle, path⟩
    apply get?_of_refs
    rw [h.counted]
    exact List.countP_pos_iff.mpr ⟨_, Subscriptions.mem_of_path? path, beq_self_eq_true p⟩

theorem gone_call {handle : Nat} (h : s.subscriptions.Gone handle) (c : Call) :
    (s.call c).subscriptions.Gone handle := by
  by_cases hc : c = .teardown
  · have cleared := congrArg Shown.subscriptions s.shown_teardown
    rw [hc]
    exact (congrArg (Subscriptions.Gone · handle) cleared).mpr ⟨h.issued, rfl⟩
  · suffices shown : ∀ {t : Shown}, s.Effect t → t.subscriptions.Gone handle from
      shown (s.effect_call hc)
    intro t effect
    cases effect with
    | none | ask names => exact h
    | watch p kind => exact h.subscribe p kind _
    | unwatch known => exact h.remove _ _
    | update kind p v => exact h.cacheChanged _ p
    | restore read => exact h.cacheChanged _ _

theorem gone_calls {handle : Nat} (h : s.subscriptions.Gone handle) (calls : List Call) :
    (calls.foldl call s).subscriptions.Gone handle := by
  induction calls generalizing s with
  | nil => exact h
  | cons c calls ih => exact ih (gone_call h c)

theorem unwatch_unknown {handle : Nat} (h : s.subscriptions.path? handle = none) :
    s.unwatch handle = (s, .error (.unknownHandle handle)) := by
  rw [unwatch, h]

theorem path?_unwatch (s : Session) (handle : Nat) :
    (s.unwatch handle).1.subscriptions.path? handle = none := by
  rw [unwatch]
  split
  · assumption
  · exact s.subscriptions.path?_remove_self handle _

/-- After any calls, there is an item for a path if and only if a handle stands for it, and it
counts the subscriptions to that path. Every handle that is there stands for one subscription, under
its path, and no empty list of subscriptions is kept. So a reference that is given back is there,
and a handle that is not there, or has ever been taken away, is refused without any effect. -/
theorem references_agree (h : Reached ids s) :
    (∀ p, (∃ i, s.listens.get? p = some i) ↔ ∃ handle, s.subscriptions.path? handle = some p)
    ∧ (∀ p i, s.listens.get? p = some i → i.refCount = (s.subscriptions.subscribers p).length)
    ∧ (∀ handle p, s.subscriptions.path? handle = some p →
      ∀ q, ((s.subscriptions.subscribers q).map (·.handle)).count handle = if q = p then 1 else 0)
    ∧ (∀ p, ∀ x ∈ s.subscriptions.subscribers p, s.subscriptions.path? x.handle = some p)
    ∧ (∀ p, s.subscriptions.byPath.get? p ≠ some [])
    ∧ (∀ handle p, s.subscriptions.path? handle = some p →
      (∃ i, s.listens.get? p = some i ∧ 0 < i.refCount)
        ∧ (s.unwatch handle).2 = .ok ()
        ∧ (s.unwatch handle).1.subscriptions.path? handle = none)
    ∧ (∀ handle, s.subscriptions.path? handle = none →
      s.unwatch handle = (s, .error (.unknownHandle handle)))
    ∧ ∀ handle ≤ s.subscriptions.lastHandle, s.subscriptions.path? handle = none →
      ∀ calls : List Call, (calls.foldl call s).unwatch handle
        = (calls.foldl call s, .error (.unknownHandle handle)) := by
  have referenced := h.referenced
  have faithful : s.subscriptions.Faithful s.cache := h.upToDate.faithful
  have item := referenced.item_iff faithful
  refine ⟨item, ?_, ?_, ?_, fun p none => referenced.filled p [] none rfl, ?_,
    fun handle none => unwatch_unknown none, ?_⟩
  · intro p i there
    rw [faithful.length_subscribers]
    exact (refs_of_get? there).symm.trans (referenced.counted p)
  · intro handle p path q
    exact faithful.count_handle (faithful.path?_eq_some_iff.mp path) q
  · intro p x hx
    exact faithful.path?_eq_some_iff.mpr (faithful.mem_handles hx)
  · intro handle p path
    obtain ⟨i, there⟩ := (item p).mpr ⟨handle, path⟩
    refine ⟨⟨i, there, referenced.held p i there⟩, ?_, s.path?_unwatch handle⟩
    rw [unwatch, path]
  · intro handle issued none calls
    exact unwatch_unknown (gone_calls ⟨issued, none⟩ calls).absent

/-- Three subscriptions to one path and one below it. The first is taken away, and then the
connection is lost. -/
def shared (above below : Path) : Session :=
  [Call.watch above .value, .connect, .receive (.handshake 0), .watch above .childAdded,
    .watch below .value, .watch above .value, .unwatch 1,
    .receive (.closed true none)].foldl call blank

theorem references_shared : ∃ above below, (∃ ids, Reached ids (shared above below))
    ∧ (∃ i, (shared above below).listens.get? above = some i ∧ i.refCount = 2)
    ∧ ∀ calls : List Call, (calls.foldl call (shared above below)).unwatch 1
      = (calls.foldl call (shared above below), .error (.unknownHandle 1)) := by
  have reached (above below) : ∃ ids, Reached ids (shared above below) := by
    obtain ⟨ids, h⟩ : ∃ ids, Reached ([] ++ ids) (shared above below) :=
      (Reached.new _ _ _).calls _
    exact ⟨_, h⟩
  let above : Path := ⟨["a"], by decide, by decide⟩
  let below : Path := ⟨["a", "b"], by decide, by decide⟩
  refine ⟨above, below, reached _ _, ?_⟩
  obtain ⟨ids, h⟩ := reached above below
  obtain ⟨item, counts, _, _, _, _, _, gone⟩ := references_agree h
  constructor
  · obtain ⟨i, there⟩ := (item above).mpr ⟨2, by decide +kernel⟩
    refine ⟨i, there, (counts _ i there).trans ?_⟩
    decide +kernel
  · exact gone 1 (by decide +kernel) (by decide +kernel)

end Session

end LiveTree
