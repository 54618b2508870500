import Mathlib.Data.List.Nodup
import LiveTree.Proofs.Listens.Moves

/-!
# Which answers are awaited

`Awaiting` is the invariant of the requests: every one is awaited for one path only, which has an
item, and a path remembers the last request that was sent for it until the answer comes. It needs
that the sink never hands out a request twice.
-/

namespace LiveTree

/-- A sink that never hands out a request twice. It knows which were handed out. -/
structure Sink.Fresh {σ : Type} (sink : Sink σ) (issued : σ → RequestId → Prop) : Prop where
  new : ∀ p w, ¬ issued w (sink.listen p w).1
  recorded : ∀ p w, issued (sink.listen p w).2 (sink.listen p w).1
  listen : ∀ p w id, issued w id → issued (sink.listen p w).2 id
  unlisten : ∀ p w id, issued w id → issued (sink.unlisten p w) id

namespace Listens

open Relation

variable {σ : Type} {issued : σ → RequestId → Prop} {sink : Sink σ}

structure Awaiting (issued : σ → RequestId → Prop) (acc : Sending σ) : Prop where
  nodup : (acc.1.awaited.map Prod.fst).Nodup
  issued : ∀ id p, (id, p) ∈ acc.1.awaited → issued acc.2 id
  listed : ∀ p id, acc.1.request? p = some id → (id, p) ∈ acc.1.awaited
  pending : ∀ p, acc.1.status? p = some .pending → ∃ id, acc.1.request? p = some id
  waiting : ∀ p id, acc.1.request? p = some id →
    acc.1.status? p = some .pending ∨ acc.1.status? p = some .masked
  item : ∀ id p, (id, p) ∈ acc.1.awaited → ∃ s, acc.1.status? p = some s
  offline : acc.1.online = false → acc.1.awaited = []

theorem mem_of_lookup {as : List (RequestId × Path)} {id : RequestId} {p : Path}
    (h : as.lookup id = some p) : (id, p) ∈ as := by
  obtain ⟨l, r, rfl, _⟩ := List.lookup_eq_some_iff.mp h
  simp

theorem eq_of_awaited {as : List (RequestId × Path)} (h : (as.map Prod.fst).Nodup)
    {id : RequestId} {p q : Path} (hp : (id, p) ∈ as) (hq : (id, q) ∈ as) : p = q :=
  (Prod.mk.inj (List.inj_on_of_nodup_map h hp hq rfl)).2

theorem lookup_of_awaited {as : List (RequestId × Path)} (h : (as.map Prod.fst).Nodup)
    {id : RequestId} {p : Path} (hp : (id, p) ∈ as) : as.lookup id = some p := by
  cases hl : as.lookup id with
  | none =>
    have := List.lookup_eq_none_iff.mp hl (id, p) hp
    simp at this
  | some q => rw [eq_of_awaited h (mem_of_lookup hl) hp]

theorem awaiting_of_none {acc : Sending σ} (ha : acc.1.awaited = [])
    (hr : ∀ p, acc.1.request? p = none) (hs : ∀ p, acc.1.status? p ≠ some .pending) :
    Awaiting issued acc where
  nodup := by simp [ha]
  issued id p h := by simp [ha] at h
  listed p id h := by simp [hr] at h
  pending p h := absurd h (hs p)
  waiting p id h := by simp [hr] at h
  item id p h := by simp [ha] at h
  offline _ := ha

section Change
variable {acc acc' : Sending σ} {id : RequestId} {p : Path}

/-- Only the answer that a path awaits last is the one that its item remembers. -/
theorem Awaiting.request_of_lookup (h : Awaiting issued acc)
    (ha : acc.1.awaited.lookup id = some p) {q : Path} (hq : acc.1.request? q = some id) :
    q = p :=
  eq_of_awaited h.nodup (h.listed q id hq) (mem_of_lookup ha)

theorem Awaiting.setStatus (h : Awaiting issued acc) {s : ListenStatus} (hs : s ≠ .pending)
    (hr : s = .masked ∨ acc.1.request? p = none) {w : σ}
    (hw : ∀ id, issued acc.2 id → issued w id) :
    Awaiting issued (acc.1.setStatus p s, w) where
  nodup := h.nodup
  issued id q hq := hw id (h.issued id q hq)
  listed q id hq := h.listed q id (by simpa using hq)
  pending q hq := by
    rw [status?_setStatus] at hq
    split at hq
    · rw [Option.map_eq_some_iff] at hq
      obtain ⟨_, _, he⟩ := hq
      exact absurd he hs
    · simpa using h.pending q hq
  waiting q id hq := by
    rw [request?_setStatus] at hq
    by_cases hqp : q = p
    · subst hqp
      rcases hr with rfl | hr
      · obtain ⟨i, hi, _⟩ := request?_eq_some.mp hq
        exact Or.inr (status?_setStatus_self (status?_of_get? hi))
      · rw [hr] at hq
        cases hq
    · rw [status?_setStatus_ne hqp]
      exact h.waiting q id hq
  item id q hq := by
    obtain ⟨t, ht⟩ := h.item id q hq
    by_cases hqp : q = p
    · subst hqp
      exact ⟨s, status?_setStatus_self ht⟩
    · exact ⟨t, (status?_setStatus_ne hqp).trans ht⟩
  offline := h.offline

theorem Awaiting.congr (h : Awaiting issued acc) (ha : acc'.1.awaited = acc.1.awaited)
    (hw : acc'.2 = acc.2) (ho : acc'.1.online = false → acc.1.online = false)
    (hr : ∀ q, acc'.1.request? q = acc.1.request? q)
    (hs : ∀ q, acc'.1.status? q = acc.1.status? q) : Awaiting issued acc' where
  nodup := ha ▸ h.nodup
  issued id q hq := by
    rw [hw]
    exact h.issued id q (ha ▸ hq)
  listed q id hq := ha ▸ h.listed q id (hr q ▸ hq)
  pending q hq := by
    rw [hr]
    exact h.pending q (hs q ▸ hq)
  waiting q id hq := by
    rw [hs]
    exact h.waiting q id (hr q ▸ hq)
  item id q hq := by
    rw [hs]
    exact h.item id q (ha ▸ hq)
  offline hn := ha ▸ h.offline (ho hn)

theorem Awaiting.forget (h : Awaiting issued acc) (ha : acc.1.awaited.lookup id = some p)
    (old : acc.1.request? p ≠ some id) : Awaiting issued (acc.1.forget id, acc.2) where
  nodup := h.nodup.sublist (List.filter_sublist.map _)
  issued i q hq := h.issued i q (List.mem_filter.mp hq).1
  listed q i hq := by
    refine List.mem_filter.mpr ⟨h.listed q i hq, ?_⟩
    rw [bne_iff_ne]
    rintro rfl
    obtain rfl := h.request_of_lookup ha hq
    exact old hq
  pending := h.pending
  waiting := h.waiting
  item i q hq := h.item i q (List.mem_filter.mp hq).1
  offline ho := by
    have : acc.1.awaited = [] := h.offline ho
    simp [Listens.forget, this]

theorem Awaiting.settle (h : Awaiting issued acc) (ha : acc.1.awaited.lookup id = some p)
    {s : ListenStatus} (hs : s ≠ .pending) {l : Listens} {w : σ}
    (hw : ∀ id, issued acc.2 id → issued w id)
    (awaited : l.awaited = (acc.1.forget id).awaited) (online : l.online = acc.1.online)
    (request : ∀ q, l.request? q = if q = p then none else acc.1.request? q)
    (status : ∀ q, l.status? q = if q = p then some s else acc.1.status? q) :
    Awaiting issued (l, w) where
  nodup := by
    rw [awaited]
    exact h.nodup.sublist (List.filter_sublist.map _)
  issued i q hq := by
    rw [awaited] at hq
    exact hw i (h.issued i q (List.mem_filter.mp hq).1)
  listed q i hq := by
    rw [request] at hq
    split at hq
    · cases hq
    · rename_i hqp
      rw [awaited]
      refine List.mem_filter.mpr ⟨h.listed q i hq, ?_⟩
      rw [bne_iff_ne]
      rintro rfl
      exact hqp (h.request_of_lookup ha hq)
  pending q hq := by
    rw [status] at hq
    rw [request]
    split at hq
    · exact absurd (Option.some.inj hq) hs
    · rename_i hqp
      rw [if_neg hqp]
      exact h.pending q hq
  waiting q i hq := by
    rw [request] at hq
    rw [status]
    split at hq
    · cases hq
    · rename_i hqp
      rw [if_neg hqp]
      exact h.waiting q i hq
  item i q hq := by
    rw [awaited] at hq
    rw [status]
    split
    · exact ⟨s, rfl⟩
    · exact h.item i q (List.mem_filter.mp hq).1
  offline ho := by
    have : acc.1.awaited = [] := h.offline (online ▸ ho)
    simp [awaited, Listens.forget, this]

theorem Awaiting.send (fresh : sink.Fresh issued) (h : Awaiting issued acc) {s : ListenStatus}
    (status : acc.1.status? p = some s) (online : acc.1.online = true) :
    Awaiting issued (send sink acc p) where
  nodup := by
    rw [send_awaited, List.map_append, List.nodup_append]
    refine ⟨h.nodup, by simp, ?_⟩
    rintro i hi _ hj rfl
    obtain ⟨⟨i, q⟩, hq, rfl⟩ := List.mem_map.mp hi
    rw [List.map_singleton, List.mem_singleton] at hj
    exact fresh.new p acc.2 (hj ▸ h.issued i q hq)
  issued i q hq := by
    rcases List.mem_append.mp hq with hq | hq
    · exact fresh.listen p acc.2 i (h.issued i q hq)
    · obtain ⟨rfl, rfl⟩ := Prod.mk.inj (List.mem_singleton.mp hq)
      exact fresh.recorded _ _
  listed q i hq := by
    rw [send_awaited]
    by_cases hqp : q = p
    · subst hqp
      rw [request?_send_self sink acc q status] at hq
      cases hq
      simp
    · rw [request?_send_ne sink acc p hqp] at hq
      exact List.mem_append_left _ (h.listed q i hq)
  pending q hq := by
    by_cases hqp : q = p
    · subst hqp
      exact ⟨_, request?_send_self sink acc q status⟩
    · rw [status?_send_ne sink acc p hqp] at hq
      rw [request?_send_ne sink acc p hqp]
      exact h.pending q hq
  waiting q i hq := by
    by_cases hqp : q = p
    · subst hqp
      exact Or.inl (status?_send_self sink acc q status)
    · rw [request?_send_ne sink acc p hqp] at hq
      rw [status?_send_ne sink acc p hqp]
      exact h.waiting q i hq
  item i q hq := by
    by_cases hqp : q = p
    · subst hqp
      exact ⟨_, status?_send_self sink acc q status⟩
    · rw [status?_send_ne sink acc p hqp]
      rcases List.mem_append.mp hq with hq | hq
      · exact h.item i q hq
      · exact absurd (Prod.mk.inj (List.mem_singleton.mp hq)).2 hqp
  offline ho := by
    rw [send_online, online] at ho
    cases ho

theorem Move.awaiting {again : Prop} (fresh : sink.Fresh issued) (m : Move sink again acc acc')
    (h : Awaiting issued acc) : Awaiting issued acc' := by
  cases m with
  | send status want free online => exact h.send fresh status online
  | @need l w p status free offline =>
    refine h.setStatus (by decide) (Or.inr ?_) fun _ hi => hi
    cases hr : l.request? p with
    | none => rfl
    | some id =>
      have hm := h.listed p id hr
      rw [h.offline offline] at hm
      cases hm
  | mask =>
    apply h.setStatus (by decide) (Or.inl rfl)
    intro id hi
    split
    · exact fresh.unlisten _ _ id hi
    · exact hi
  | yield => exact h.setStatus (by decide) (Or.inl rfl) fun _ hi => hi

theorem moves_awaiting {again : Prop} (fresh : sink.Fresh issued)
    (m : ReflTransGen (Move sink again) acc acc') (h : Awaiting issued acc) :
    Awaiting issued acc' := by
  induction m with
  | refl => exact h
  | tail _ m ih => exact m.awaiting fresh ih

theorem Awaiting.withNew {l : Listens} {w : σ} (h : Awaiting issued (l, w)) (hs : l.items.Sound)
    (hp : l.get? p = none) {s : ListenStatus} (first : s ≠ .pending) :
    Awaiting issued (l.withNew p s, w) := by
  have status := status?_withNew hs hp s
  have request := request?_withNew hs hp s
  refine ⟨h.nodup, h.issued, fun q id hq => h.listed q id (request q ▸ hq), ?_, ?_, ?_, h.offline⟩
  · intro q hq
    rw [status] at hq
    rw [request]
    split at hq
    · exact absurd (Option.some.inj hq) first
    · exact h.pending q hq
  · intro q id hq
    rw [request] at hq
    rw [status]
    split
    · rename_i hqp
      simp [hqp, request?, hp] at hq
    · exact h.waiting q id hq
  · intro id q hq
    rw [status]
    split
    · exact ⟨_, rfl⟩
    · exact h.item id q hq

theorem Awaiting.remove {l : Listens} {w w' : σ} (h : Awaiting issued (l, w)) (hs : l.items.Sound)
    (p : Path) (hw : ∀ id, issued w id → issued w' id) : Awaiting issued (l.remove p, w') := by
  have status := status?_remove hs p
  have request := request?_remove hs p
  refine ⟨h.nodup.sublist (List.filter_sublist.map _), ?_, ?_, ?_, ?_, ?_, ?_⟩
  · intro id q hq
    exact hw id (h.issued id q (List.mem_filter.mp hq).1)
  · intro q id hq
    rw [request] at hq
    split at hq
    · cases hq
    · exact List.mem_filter.mpr ⟨h.listed q id hq, bne_iff_ne.mpr ‹_›⟩
  · intro q hq
    rw [status] at hq
    rw [request]
    split at hq
    · cases hq
    · rename_i hqp
      rw [if_neg hqp]
      exact h.pending q hq
  · intro q id hq
    rw [request] at hq
    rw [status]
    split at hq
    · cases hq
    · rename_i hqp
      rw [if_neg hqp]
      exact h.waiting q id hq
  · intro id q hq
    obtain ⟨hq, hne⟩ := List.mem_filter.mp hq
    rw [status, if_neg (bne_iff_ne.mp hne)]
    exact h.item id q hq
  · intro ho
    have : l.awaited = [] := h.offline ho
    simp [Listens.remove, this]

theorem Awaiting.decided {l : Listens} {w : σ} (h : Awaiting issued (l, w))
    (ha : l.awaited.lookup id = some p) (pending : l.status? p = some .pending) {s : ListenStatus}
    (other : s ≠ .pending) :
    Awaiting issued (((l.forget id).setRequest p none).setStatus p s, w) := by
  refine h.settle ha other (fun _ hi => hi) rfl rfl ?_ ?_
  · intro q
    simp [request?_setRequest_none]
  · intro q
    simp [status?_setStatus, pending]

/-- An answer that comes too late to change the status of its path. -/
theorem Awaiting.ignored {l : Listens} {w w' : σ} (h : Awaiting issued (l, w))
    (ha : l.awaited.lookup id = some p) {s : ListenStatus} (status : l.status? p = some s)
    (other : s ≠ .pending) (hw : ∀ id, issued w id → issued w' id) :
    Awaiting issued ((l.forget id).setRequest p none, w') := by
  refine h.settle ha other hw rfl rfl ?_ ?_
  · intro q
    simp [request?_setRequest_none]
  · intro q
    split
    · rename_i hqp
      simpa [hqp] using status
    · simp

theorem Opening.awaiting {a : Action} {rest : Rest} (fresh : sink.Fresh issued)
    (o : Opening sink a acc acc' rest) (hs : acc.1.items.Sound) (h : Awaiting issued acc) :
    Awaiting issued acc' := by
  cases o with
  | @hold l w p =>
    exact h.congr rfl rfl id (fun q => request?_count l p q (· + 1))
      fun q => status?_count l p q (· + 1)
  | @add l w p hp => exact h.withNew hs hp (l.firstStatus_ne p rfl)
  | stray | unknown => exact h
  | @drop l w p =>
    exact h.congr rfl rfl id (fun q => request?_count l p q (· - 1))
      fun q => status?_count l p q (· - 1)
  | @close l w p =>
    apply h.remove hs p
    intro id hi
    split
    · exact fresh.unlisten p w id hi
    · exact hi
  | stale ha old => exact h.forget ha old
  | accept ha _ pending | refuse ha _ pending => exact h.decided ha pending (by decide)
  | @late l w id p ha _ masked => exact h.ignored ha masked (by decide) (fresh.unlisten p w)
  | lapse ha _ status other => exact h.ignored ha status other fun _ hi => hi
  | @suspend l w =>
    refine awaiting_of_none rfl (request?_suspend l) fun q hq => ?_
    rw [status?_suspend, Option.map_eq_some_iff] at hq
    obtain ⟨s, _, he⟩ := hq
    cases s <;> cases he
  | resume => exact h.congr rfl rfl (fun ho => by cases ho) (fun _ => rfl) fun _ => rfl
  | clear => exact awaiting_of_none rfl (fun _ => rfl) fun q hq => by cases hq

end Change

end Listens

end LiveTree
