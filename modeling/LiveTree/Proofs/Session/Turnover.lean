import LiveTree.Proofs.Session.Calls
import LiveTree.Proofs.Session.Numbers

/-!
# What becomes of the requests in a call

A call adds at most one request to the tables, under a new number, takes out what ends, and moves
the rest about. Whatever does no more than that leaves every number in one place.
-/

namespace LiveTree.Session

open Listens List

/-- The numbers of all requests that have ended or wait. -/
def places (s : Session) : List RequestId :=
  s.completions.map (·.id) ++ s.wire.requests.all.map (·.id)

/-- What a connection needs: sound listens, an open link as soon as it is asked for, and nothing
that is still to be sent once it stands. -/
structure Ready (s : Session) : Prop where
  sound : s.listens.items.Sound
  isOpen : s.phase = .connecting ∨ s.phase = .connected → s.wire.link.isOpen = true
  sent : s.phase = .connected → s.wire.requests.queued = []

/-- Every number is in one place, was handed out, and is not foreign; and there are no more writes
than there may be. -/
structure Booked (s : Session) : Prop where
  once : s.places.Nodup
  numbered : ∀ id ∈ s.places, id ≤ s.wire.requests.lastId
  foreign : ∀ id ∈ foreign (s.listens, s.wire), id ≤ s.wire.requests.lastId
    ∧ ∀ r ∈ s.wire.requests.all, r.id ≠ id
  room : s.wire.requests.all.countP (·.request.action.isWrite) ≤ s.config.maxPending

/-- What becomes of the requests: one may have come under a new number, and some have ended. -/
structure Turnover (s t : Session) (added : Option Waiting) (ended : List Waiting)
    (completed : List Completion) : Prop where
  tables : (t.wire.requests.all ++ ended).Perm (added.toList ++ s.wire.requests.all)
  completions : t.completions = s.completions ++ completed
  completed : (completed.map (·.id)).Perm (ended.map (·.id))
  lastId : s.wire.requests.lastId ≤ t.wire.requests.lastId
  fresh : ∀ r ∈ added, s.wire.requests.lastId < r.id ∧ r.id ≤ t.wire.requests.lastId
  foreign : ∀ id ∈ foreign (t.listens, t.wire), id ∈ foreign (s.listens, s.wire)
    ∨ (s.wire.requests.lastId < id ∧ id ≤ t.wire.requests.lastId ∧ ∀ r ∈ added, r.id ≠ id)
  config : t.config = s.config
  room : ∀ r ∈ added, r.request.action.isWrite = true →
    s.wire.requests.outstanding < s.config.maxPending

section Turnover
variable {s t u : Session} {added : Option Waiting} {ended : List Waiting}
  {completed : List Completion}

theorem Turnover.places (h : Turnover s t added ended completed) :
    t.places.Perm (added.toList.map (·.id) ++ s.places) := by
  have tables := h.tables.map (·.id)
  rw [List.map_append, List.map_append] at tables
  have ends : (completed.map (·.id) ++ t.wire.requests.all.map (·.id)).Perm
      (added.toList.map (·.id) ++ s.wire.requests.all.map (·.id)) :=
    ((h.completed.append_right _).trans List.perm_append_comm).trans tables
  rw [Session.places, Session.places, h.completions, List.map_append, List.append_assoc]
  exact ((ends.append_left _).trans (.of_eq (List.append_assoc _ _ _).symm)).trans
    ((List.perm_append_comm.append_right _).trans (.of_eq (List.append_assoc _ _ _)))

theorem Turnover.booked (h : Turnover s t added ended completed) (b : Booked s) : Booked t where
  once := by
    rw [h.places.nodup_iff]
    cases added with
    | none => exact b.once
    | some r =>
      refine List.nodup_cons.mpr ⟨fun old => ?_, b.once⟩
      exact Nat.not_le_of_lt (h.fresh r rfl).1 (b.numbered _ old)
  numbered id hid := by
    rcases List.mem_append.mp (h.places.mem_iff.mp hid) with hid | hid
    · obtain ⟨r, hr, rfl⟩ := List.mem_map.mp hid
      exact (h.fresh r (Option.mem_toList.mp hr)).2
    · exact Nat.le_trans (b.numbered id hid) h.lastId
  foreign id hid := by
    have waits : ∀ r ∈ t.wire.requests.all, r ∈ added ∨ r ∈ s.wire.requests.all := fun r hr =>
      (List.mem_append.mp (h.tables.mem_iff.mp (List.mem_append_left _ hr))).imp_left
        Option.mem_toList.mp
    have old : ∀ r ∈ s.wire.requests.all, r.id ≤ s.wire.requests.lastId := fun r hr =>
      b.numbered _ (List.mem_append_right _ (List.mem_map_of_mem hr))
    rcases h.foreign id hid with hid | ⟨above, below, other⟩
    · obtain ⟨hle, other⟩ := b.foreign id hid
      refine ⟨Nat.le_trans hle h.lastId, fun r hr => ?_⟩
      rcases waits r hr with hr | hr
      · exact Nat.ne_of_gt (Nat.lt_of_le_of_lt hle (h.fresh r hr).1)
      · exact other r hr
    · refine ⟨below, fun r hr => ?_⟩
      rcases waits r hr with hr | hr
      · exact other r hr
      · exact Nat.ne_of_lt (Nat.lt_of_le_of_lt (old r hr) above)
  room := by
    have count := h.tables.countP_eq (·.request.action.isWrite)
    have bound := b.room
    rw [List.countP_append, List.countP_append] at count
    rw [h.config]
    -- only a new write can pass the bound, and that one was let in below it
    by_cases write : ∃ r ∈ added, r.request.action.isWrite = true
    · obtain ⟨r, rfl, write⟩ := write
      have free := h.room r rfl write
      have all := List.countP_le_length (l := s.wire.requests.all)
        (p := (·.request.action.isWrite))
      rw [Requests.outstanding, ← List.length_append, ← Requests.all] at free
      have one : (some r).toList.countP (·.request.action.isWrite) = 1 :=
        List.countP_singleton ▸ if_pos write
      omega
    · have none : added.toList.countP (·.request.action.isWrite) = 0 :=
        List.countP_eq_zero.mpr fun r hr hw => write ⟨r, Option.mem_toList.mp hr, hw⟩
      omega

theorem Turnover.after (h : Turnover s t none [] []) (h' : Turnover t u added ended completed) :
    Turnover s u added ended completed where
  tables := by
    have same := h.tables
    rw [List.append_nil] at same
    exact h'.tables.trans (same.append_left _)
  completions := by rw [h'.completions, h.completions, List.append_nil]
  completed := h'.completed
  lastId := Nat.le_trans h.lastId h'.lastId
  fresh r hr := ⟨Nat.lt_of_le_of_lt h.lastId (h'.fresh r hr).1, (h'.fresh r hr).2⟩
  foreign id hid := by
    rcases h'.foreign id hid with hid | ⟨above, below, other⟩
    · rcases h.foreign id hid with hid | ⟨above, below, _⟩
      · exact Or.inl hid
      · refine Or.inr ⟨above, Nat.le_trans below h'.lastId, fun r hr => ?_⟩
        exact Nat.ne_of_gt (Nat.lt_of_le_of_lt below (h'.fresh r hr).1)
    · exact Or.inr ⟨Nat.lt_of_le_of_lt h.lastId above, below, other⟩
  config := h'.config.trans h.config
  room r hr hw := by
    have free := h'.room r hr hw
    have length := h.tables.length_eq
    rw [List.append_nil] at length
    rw [Requests.outstanding, ← List.length_append, ← Requests.all] at free ⊢
    rw [← h.config]
    exact Nat.lt_of_le_of_lt (Nat.le_of_eq length.symm) free

theorem Turnover.ends (tables : (t.wire.requests.all ++ ended).Perm s.wire.requests.all)
    (completions : t.completions = s.completions ++ completed)
    (answers : (completed.map (·.id)).Perm (ended.map (·.id)))
    (lastId : s.wire.requests.lastId ≤ t.wire.requests.lastId)
    (foreign : ∀ id ∈ LiveTree.foreign (t.listens, t.wire),
      id ∈ LiveTree.foreign (s.listens, s.wire)
        ∨ (s.wire.requests.lastId < id ∧ id ≤ t.wire.requests.lastId))
    (config : t.config = s.config) : Turnover s t none ended completed where
  tables := tables
  completions := completions
  completed := answers
  lastId := lastId
  fresh := nofun
  foreign id hid := (foreign id hid).imp_right fun h => ⟨h.1, h.2, nofun⟩
  config := config
  room := nofun

theorem Turnover.still (tables : t.wire.requests.all.Perm s.wire.requests.all)
    (completions : t.completions = s.completions)
    (lastId : s.wire.requests.lastId ≤ t.wire.requests.lastId)
    (foreign : ∀ id ∈ LiveTree.foreign (t.listens, t.wire),
      id ∈ LiveTree.foreign (s.listens, s.wire)
        ∨ (s.wire.requests.lastId < id ∧ id ≤ t.wire.requests.lastId))
    (config : t.config = s.config) : Turnover s t none [] [] :=
  .ends (.trans (.of_eq (List.append_nil _)) tables) (completions.trans (List.append_nil _).symm)
    (.refl _) lastId foreign config

theorem Turnover.same (requests : t.wire.requests = s.wire.requests)
    (listens : t.listens = s.listens) (completions : t.completions = s.completions)
    (config : t.config = s.config) : Turnover s t none [] [] := by
  refine .still (.of_eq (congrArg Requests.all requests)) completions
    (Nat.le_of_eq (congrArg Requests.lastId requests.symm)) (fun id hid => Or.inl ?_) config
  rw [LiveTree.foreign, requests, listens] at hid
  exact hid

theorem Turnover.grown (h : Grown (s.listens, s.wire) (t.listens, t.wire))
    (completions : t.completions = s.completions) (config : t.config = s.config) :
    Turnover s t none [] [] :=
  .still (.of_eq h.kept.all) completions h.kept.lastId h.foreign config

end Turnover

end LiveTree.Session
