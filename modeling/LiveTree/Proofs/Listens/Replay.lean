import LiveTree.Proofs.Listens.Coverage
import LiveTree.Proofs.Listens.Tracking

/-!
# What the server keeps of the listens

The messages sent since the last connection are replayed against the answers. Answers may come in any
order, also for listens that were sent again or whose path was released. Once all have come, every
active path is there. The others are gone, unless a listen that was accepted is followed by one that
was refused, or was given up in silence.
-/

namespace LiveTree.Listens

open Relation

/-- A run of operations: the listens, what was sent, how much of it before the last connection, and
what became of it. -/
structure Drive where
  listens : Listens
  log : List Sent
  since : Nat
  verdicts : Verdicts

namespace Drive

def start : Drive := ⟨Listens.empty, [], 0, ⟨[], []⟩⟩

/-- What was sent since the last connection. -/
def window (d : Drive) : List Sent := d.log.drop d.since

def replayed (d : Drive) : List Path := replay d.verdicts.answers d.window

def sinceAfter (d : Drive) : Action → Nat
  | .resume => d.log.length
  | _ => d.since

def perform (number : List Sent → Path → RequestId) (d : Drive) (a : Action) : Drive where
  listens := (a.run (recorder number) (d.listens, d.log)).1
  log := (a.run (recorder number) (d.listens, d.log)).2
  since := d.sinceAfter a
  verdicts := d.verdicts.after d.listens a

/-- A connection is taken only while there is none, and a listen sent since the last one is answered
once. -/
def Admits (d : Drive) : Action → Prop
  | .answer id _ => id ∈ requests d.window ∧ id ∉ d.verdicts.answers.map Prod.fst
  | .resume => d.listens.online = false
  | .clear => False
  | _ => True

inductive Reached (number : List Sent → Path → RequestId) : Drive → Prop where
  | start : Reached number start
  | perform {d : Drive} (a : Action) (h : d.Admits a) :
      Reached number d → Reached number (d.perform number a)

/-- Every path that the server has was listened to last by a request that was accepted and not given
up. -/
def Clean (d : Drive) : Prop :=
  ∀ p ∈ d.replayed, ∃ id ∈ (openIds p d.window).getLast?,
    (id, true) ∈ d.verdicts.answers ∧ id ∉ d.verdicts.abandoned

end Drive

section Runs
variable {number : List Sent → Path → RequestId} {d : Drive}

theorem Opening.tracking {a : Action} {l' : Listens} {log' : List Sent} {rest : Rest}
    (o : Opening (recorder number) a (d.listens, d.log) (l', log') rest) (admits : d.Admits a)
    (hc : Covering [] [] [] d.listens)
    (ha : Awaiting (fun log id => id ∈ requests log) (d.listens, d.log))
    (h : Tracking d.since d.verdicts (d.listens, d.log)) :
    Tracking (d.sinceAfter a) (d.verdicts.after d.listens a) (l', log') := by
  cases a with
  | acquire p =>
    cases o with
    | hold =>
      refine { h with tracked := ?_ }
      intro ho q
      exact (h.tracked ho q).congr (request?_count _ p q (· + 1)) (status?_count _ p q (· + 1)) rfl
    | add hp =>
      have hp' : d.listens.get? p = none := hp
      refine h.change (fun ho => ho) (fun q hqp => frame_withNew hc.sound hp _ hqp)
        fun ht => ht.inactive (request?_withNew hc.sound hp _ p) ?_ ?_
      · simp [status?_eq_none.mpr hp']
      · rw [status?_withNew_self hc.sound hp]
        intro he
        exact d.listens.firstStatus_ne p rfl (Option.some.inj he)
  | release p => exact o.tracking_release hc.sound ha h
  | answer id ok =>
    obtain ⟨p, hp⟩ := mem_requests.mp admits.1
    exact o.tracking_answer ha (mem_requests.mpr ⟨p, List.mem_of_mem_drop hp⟩) admits.2 h
  | suspend =>
    cases o
    exact { h with tracked := fun ho => by cases ho }
  | resume =>
    cases o
    -- nothing was sent since, and while offline no path was active or awaited an answer
    have offline := (coverage_of_invariants hc ha).offline admits
    refine ⟨Nat.le_refl _, h.one_path, h.answered_once, h.answered_sent, h.abandoned_sent, ?_⟩
    intro _ q
    exact .of_openIds_eq_nil (offline.2.1 q) (offline.1 q).2 (by simp [Drive.sinceAfter, openIds])
  | clear => exact admits.elim

theorem Drive.Reached.invariants (hn : ∀ log p, number log p ∉ requests log)
    (h : Drive.Reached number d) :
    Covering [] [] [] d.listens ∧ Awaiting (fun log id => id ∈ requests log) (d.listens, d.log)
      ∧ Tracking d.since d.verdicts (d.listens, d.log) := by
  induction h with
  | start =>
    refine ⟨covering_of_none OrderedMap.sound_empty fun _ => rfl, ?_, ?_⟩
    · exact awaiting_of_none rfl (fun _ => rfl) fun p hp => nomatch hp
    · exact ⟨Nat.le_refl 0, nofun, .nil, nofun, nofun, nofun⟩
  | @perform d a admits _ ih =>
    obtain ⟨hc, ha, ht⟩ := ih
    have fresh := recorder_fresh hn
    refine ⟨@Action.covering _ (d.listens, d.log) (recorder number) a hc, a.awaiting fresh hc ha, ?_⟩
    obtain ⟨mid, rest, ho, he⟩ := run_opens (recorder number) a (d.listens, d.log)
    have moves := Rest.moves (recorder number) True rest (ho.sound hc.sound) (ho.ready hc.sound)
      fun _ hn => absurd trivial hn
    have hmid := Opening.tracking ho admits hc ha ht
    have hend := moves_tracking hn moves (ho.awaiting fresh hc.sound ha) hmid
    rw [← he] at hend
    exact hend

/-- While online the server has every active path, whatever the order of the answers. It has no other
exactly if the run is clean. -/
theorem replayed_iff_active (hn : ∀ log p, number log p ∉ requests log)
    (h : Drive.Reached number d) (online : d.listens.online = true) :
    (∀ p, d.listens.status? p = some .active → p ∈ d.replayed)
      ∧ ((∀ p, p ∈ d.replayed ↔ d.listens.status? p = some .active) ↔ d.Clean) := by
  obtain ⟨_, ha, ht⟩ := h.invariants hn
  have last : ∀ p, d.listens.status? p = some .active →
      ∃ id ∈ (openIds p d.window).getLast?, (id, true) ∈ d.verdicts.answers
        ∧ id ∉ d.verdicts.abandoned := by
    intro p hp
    cases ht.tracked online p with
    | waiting hr =>
      have hnone := ha.request_of_active hp
      rw [hr] at hnone
      cases hnone
    | active _ _ hl hacc hk => exact ⟨_, hl, hacc, hk⟩
    | past _ hs => exact absurd hp hs
  have there : ∀ p, d.listens.status? p = some .active → p ∈ d.replayed := by
    intro p hp
    obtain ⟨id, hl, hacc, _⟩ := last p hp
    exact mem_replay_iff.mpr ⟨id, List.mem_of_getLast? hl, hacc⟩
  refine ⟨there, fun heq p hp => last p ((heq p).mp hp), fun hclean p => ⟨?_, there p⟩⟩
  intro hp
  obtain ⟨id, hl, hacc, hk⟩ := hclean p hp
  cases ht.tracked online p with
  | waiting _ hl' hu _ =>
    obtain rfl := Option.some.inj (hl.symm.trans hl')
    exact absurd (List.mem_map_of_mem hacc) hu
  | active _ hs => exact hs
  | past _ _ hover =>
    rcases hover id hl with href | hab
    · have := List.inj_on_of_nodup_map ht.answered_once hacc href rfl
      cases this
    · exact absurd hab hk

end Runs

def numberNext (log : List Sent) (_ : Path) : RequestId := (requests log).foldr max 0 + 1

theorem numberNext_new (log : List Sent) (p : Path) : numberNext log p ∉ requests log := by
  have bound : ∀ ids : List RequestId, ∀ id ∈ ids, id ≤ ids.foldr max 0 := by
    intro ids
    induction ids with
    | nil => exact nofun
    | cons i ids ih =>
      intro id hid
      rcases List.mem_cons.mp hid with rfl | hid
      · exact Nat.le_max_left _ _
      · exact Nat.le_trans (ih id hid) (Nat.le_max_right _ _)
  intro h
  exact absurd (bound _ _ h) (Nat.not_le.mpr (Nat.lt_succ_self _))

instance (d : Drive) (a : Action) : Decidable (d.Admits a) :=
  match a with
  | .answer _ _ => inferInstanceAs (Decidable (_ ∧ _))
  | .resume => inferInstanceAs (Decidable (_ = _))
  | .clear => inferInstanceAs (Decidable False)
  | .acquire _ | .release _ | .suspend => inferInstanceAs (Decidable True)

instance (d : Drive) : Decidable d.Clean :=
  inferInstanceAs (Decidable (∀ p ∈ d.replayed, ∃ id ∈ (openIds p d.window).getLast?,
    (id, true) ∈ d.verdicts.answers ∧ id ∉ d.verdicts.abandoned))

/-- The run of operations, up to the first that is not admitted. -/
def Drive.runs (number : List Sent → Path → RequestId) (d : Drive) : List Action → Drive
  | [] => d
  | a :: as => if d.Admits a then (d.perform number a).runs number as else d

theorem Drive.Reached.runs {number : List Sent → Path → RequestId} {d : Drive}
    (h : Drive.Reached number d) (as : List Action) : Drive.Reached number (d.runs number as) := by
  induction as generalizing d with
  | nil => exact h
  | cons a as ih =>
    rw [Drive.runs]
    split
    · exact ih (.perform a ‹_› h)
    · exact h

/-- The inner path is masked and released before its listen is accepted. -/
def lateRun : Drive := Drive.start.runs numberNext
  [.resume, .acquire inner, .acquire outer, .answer 2 true, .release inner, .answer 1 true]

theorem lateRun_leaks : Drive.Reached numberNext lateRun ∧ lateRun.listens.online = true
    ∧ (∀ id ∈ requests lateRun.window, id ∈ lateRun.verdicts.answers.map Prod.fst)
    ∧ inner ∈ lateRun.replayed ∧ lateRun.listens.status? inner = none :=
  ⟨Drive.Reached.start.runs _, by decide⟩

/-- The inner path is sent again, and both its listens are accepted at last. -/
def resentRun : Drive := Drive.start.runs numberNext
  [.resume, .acquire inner, .acquire outer, .answer 2 true, .release outer, .answer 3 true,
    .answer 1 true]

theorem resentRun_clean : resentRun.Clean ∧ resentRun.replayed = [inner, inner]
    ∧ (inner ∈ resentRun.replayed ↔ resentRun.listens.status? inner = some .active) :=
  have clean : resentRun.Clean := by decide
  have online : resentRun.listens.online = true := by decide
  have same := replayed_iff_active numberNext_new (Drive.Reached.start.runs _) online
  ⟨clean, by decide, same.2.mpr clean inner⟩

end LiveTree.Listens
