import Mathlib.Data.List.Induction
import LiveTree.Proofs.Listens.Awaiting

/-!
# What was sent about listens, and what it leaves at the server

The messages are replayed against the answers: a listen that was accepted adds its path, an unlisten
takes it out. A path is there in the end exactly if a listen was accepted that no unlisten follows.
-/

namespace LiveTree.Listens

/-- What is sent about listens. -/
inductive Sent where
  | listen (id : RequestId) (p : Path)
  | unlisten (p : Path)
deriving DecidableEq

/-- The sink that keeps what is sent, and numbers the listens as it likes. -/
def recorder (number : List Sent → Path → RequestId) : Sink (List Sent) where
  listen p log := (number log p, log ++ [.listen (number log p) p])
  unlisten p log := log ++ [.unlisten p]

def requests (log : List Sent) : List RequestId :=
  log.filterMap fun m => match m with
    | .listen id _ => some id
    | .unlisten _ => none

/-- The paths that are listened to when the messages are taken in order. -/
def replay (answers : List (RequestId × Bool)) (log : List Sent) : List Path :=
  log.foldl (fun paths m => match m with
    | .listen id p => if (id, true) ∈ answers then paths ++ [p] else paths
    | .unlisten p => paths.filter (· ≠ p)) []

/-- The listens of a path that no unlisten follows. -/
def openIds (p : Path) (log : List Sent) : List RequestId :=
  log.foldl (fun ids m => match m with
    | .listen id q => if q = p then ids ++ [id] else ids
    | .unlisten q => if q = p then [] else ids) []

section Log
variable {answers : List (RequestId × Bool)} {log : List Sent} {p q : Path} {id : RequestId}

theorem mem_requests : id ∈ requests log ↔ ∃ p, .listen id p ∈ log := by
  unfold requests
  rw [List.mem_filterMap]
  constructor
  · rintro ⟨m, hm, he⟩
    cases m with
    | listen i p =>
      cases he
      exact ⟨p, hm⟩
    | unlisten p => cases he
  · rintro ⟨p, hp⟩
    exact ⟨_, hp, rfl⟩

theorem mem_requests_append {m : Sent} (h : id ∈ requests log) : id ∈ requests (log ++ [m]) := by
  obtain ⟨p, hp⟩ := mem_requests.mp h
  exact mem_requests.mpr ⟨p, List.mem_append_left _ hp⟩

theorem openIds_listen :
    openIds p (log ++ [.listen id q]) = if q = p then openIds p log ++ [id] else openIds p log := by
  simp [openIds, List.foldl_append]

theorem openIds_unlisten :
    openIds p (log ++ [.unlisten q]) = if q = p then [] else openIds p log := by
  simp [openIds, List.foldl_append]

theorem mem_of_openIds (h : id ∈ openIds p log) : .listen id p ∈ log := by
  induction log using List.reverseRecOn with
  | nil => cases h
  | append_singleton log m ih =>
    cases m with
    | listen i q =>
      rw [openIds_listen] at h
      split at h
      · rename_i hq
        subst hq
        rcases List.mem_append.mp h with h | h
        · exact List.mem_append_left _ (ih h)
        · obtain rfl := List.mem_singleton.mp h
          simp
      · exact List.mem_append_left _ (ih h)
    | unlisten q =>
      rw [openIds_unlisten] at h
      split at h
      · cases h
      · exact List.mem_append_left _ (ih h)

theorem mem_replay_iff : p ∈ replay answers log ↔ ∃ id ∈ openIds p log, (id, true) ∈ answers := by
  induction log using List.reverseRecOn with
  | nil => simp [replay, openIds]
  | append_singleton log m ih =>
    cases m with
    | listen i q =>
      have hr : replay answers (log ++ [.listen i q])
          = if (i, true) ∈ answers then replay answers log ++ [q] else replay answers log := by
        simp [replay, List.foldl_append]
      rw [hr, openIds_listen]
      by_cases hi : (i, true) ∈ answers <;> by_cases hq : q = p
      · subst hq
        simp [hi]
      · simp [hi, hq, Ne.symm hq, ih]
      · subst hq
        simp only [if_neg hi, if_true, ih, List.mem_append, List.mem_singleton]
        constructor
        · rintro ⟨id, hid, ha⟩
          exact ⟨id, Or.inl hid, ha⟩
        · rintro ⟨id, hid | rfl, ha⟩
          · exact ⟨id, hid, ha⟩
          · exact absurd ha hi
      · simp [hi, hq, ih]
    | unlisten q =>
      have hr : replay answers (log ++ [.unlisten q]) = (replay answers log).filter (· ≠ q) := by
        simp [replay, List.foldl_append]
      rw [hr, openIds_unlisten]
      by_cases hq : q = p
      · subst hq
        simp
      · simp [hq, Ne.symm hq, ih]

theorem recorder_fresh {number : List Sent → Path → RequestId}
    (hn : ∀ log p, number log p ∉ requests log) :
    (recorder number).Fresh fun log id => id ∈ requests log where
  new p log := hn log p
  recorded p log := mem_requests.mpr ⟨p, by simp [recorder]⟩
  listen _ _ _ h := mem_requests_append h
  unlisten _ _ _ h := mem_requests_append h

end Log

end LiveTree.Listens
