import LiveTree.Proofs.Session.Answers
import LiveTree.Proofs.Session.Turns

/-!
# Phase and tables

While connected, listens can be sent; while there is no connection, nothing is in flight, no answer
is awaited and no listen counts as sent. The numbers in the tables are all different. So an answer
is taken by one of those who wait for answers at most, and by nobody once the connection is lost.
-/

namespace LiveTree

open Listens Relation

theorem Grown.awaited_nil {acc acc' : Sending Wire} (h : Grown acc acc') (same : acc'.2 = acc.2)
    (awaited : acc.1.awaited = []) (untracked : acc.2.requests.untracked = []) :
    acc'.1.awaited = [] := by
  have none : LiveTree.foreign acc = [] := by rw [LiveTree.foreign, awaited, untracked]; rfl
  refine List.eq_nil_iff_forall_not_mem.mpr fun e mem => ?_
  rcases h.foreign e.1 (List.mem_append_left _ (List.mem_map_of_mem mem)) with old | ⟨above, below⟩
  · exact List.not_mem_nil (none ▸ old)
  · rw [same] at below
    exact Nat.not_le_of_lt above below

namespace Session

/-- The listens and the requests are as the phase says. -/
structure Aligned (s : Session) : Prop where
  covering : Covering [] [] [] s.listens
  connected : s.phase = .connected → s.listens.online = true
  online : s.listens.online = true → s.phase = .connected ∨ s.phase = .disconnecting
  offline : s.listens.online = false → s.listens.awaited = []
    ∧ s.wire.requests.inFlight = [] ∧ s.wire.requests.untracked = []

section Phase
variable {s t : Session} {ids : List RequestId}

theorem Aligned.act {a : Listens.Action} (h : Aligned s) (ne : a ≠ .suspend ∧ a ≠ .resume)
    (run : (t.listens, t.wire) = a.run Wire.sink (s.listens, s.wire)) (phase : t.phase = s.phase)
    (idle : s.listens.online = false → t.wire = s.wire) : Aligned t := by
  have sound := h.covering.sound
  have covering := @Action.covering _ (s.listens, s.wire) Wire.sink a h.covering
  have online := @Listens.Action.online _ (s.listens, s.wire) Wire.sink a sound ne.1 ne.2
  have grown := (@Action.grown (s.listens, s.wire) a sound).1
  rw [← run] at covering online grown
  change t.listens.online = s.listens.online at online
  refine ⟨covering, ?_, ?_, fun off => ?_⟩
  · rw [phase, online]
    exact h.connected
  · rw [phase, online]
    exact h.online
  · have off' : s.listens.online = false := online ▸ off
    obtain ⟨awaited, inFlight, untracked⟩ := h.offline off'
    have same := idle off'
    exact ⟨grown.awaited_nil same awaited untracked, same ▸ inFlight, same ▸ untracked⟩

theorem Aligned.refer {a : Listens.Action} (h : Aligned s)
    (ha : (∃ p, a = .acquire p) ∨ ∃ p, a = .release p)
    (run : (t.listens, t.wire) = a.run Wire.sink (s.listens, s.wire)) (phase : t.phase = s.phase) :
    Aligned t := by
  refine h.act (Action.keeps_online ha) run phase fun off => ?_
  exact (congrArg Prod.snd run).trans
    (@offline_run Wire.sink (s.listens, s.wire) _ h.covering off ha)

theorem Aligned.turn (h : Aligned s) (turn : Turn s t) : Aligned t := by
  cases turn with
  | calm phase listens quiet =>
    refine ⟨listens ▸ h.covering, ?_, ?_, fun off => ?_⟩
    · rw [phase, listens]
      exact h.connected
    · rw [phase, listens]
      exact h.online
    · rw [listens] at off ⊢
      obtain ⟨awaited, inFlight, untracked⟩ := h.offline off
      have down : s.phase ≠ .connected := fun up => by
        rw [h.connected up] at off
        cases off
      obtain ⟨flying, dropping⟩ := quiet down
      exact ⟨awaited, List.subset_nil.mp (inFlight ▸ flying),
        List.subset_nil.mp (untracked ▸ dropping)⟩
  | answered id ok phase run =>
    refine h.act (a := .answer id ok) ⟨nofun, nofun⟩ run phase fun off => ?_
    have unknown : s.listens.awaited.lookup id = none := by
      rw [(h.offline off).1]
      rfl
    have same : (Action.answer id ok).run Wire.sink (s.listens, s.wire) = (s.listens, s.wire) := by
      rw [Action.run, answer, unknown]
    exact congrArg Prod.snd (run.trans same)
  | lost phase listens requests =>
    have covering : Covering [] [] [] s.listens.suspend :=
      @Action.covering _ (s.listens, s.wire) Wire.sink .suspend h.covering
    rw [← listens] at covering
    refine ⟨covering, fun up => ?_, fun on => ?_, fun _ => ?_⟩
    · rw [phase] at up
      cases up
    · rw [listens] at on
      cases on
    · rw [listens, requests]
      exact ⟨rfl, rfl, rfl⟩
  | opened before after listens requests =>
    refine ⟨listens ▸ h.covering, fun up => ?_, fun on => ?_, ?_⟩
    · rw [after] at up
      cases up
    · have up := h.online (listens ▸ on)
      rw [before] at up
      rcases up with up | up <;> cases up
    · rw [listens, requests]
      exact h.offline
  | closing before after listens requests =>
    refine ⟨listens ▸ h.covering, fun up => ?_, fun _ => Or.inr after, ?_⟩
    · rw [after] at up
      cases up
    · rw [listens, requests]
      exact h.offline
  | greeted after w run =>
    have covering := @Action.covering _ (s.listens, w) Wire.sink .resume h.covering
    rw [← run] at covering
    have online : t.listens.online = true := run ▸ Network.online_resume h.covering.sound
    refine ⟨covering, fun _ => online, fun _ => Or.inl after, fun off => ?_⟩
    rw [online] at off
    cases off

theorem Aligned.turns (h : Aligned s) (turns : Turns s t) : Aligned t := by
  induction turns with
  | refl => exact h
  | tail _ turn ih => exact ih.turn turn

theorem Aligned.call (h : Aligned s) (c : Call) : Aligned (s.call c) := by
  cases plain : c.refers with
  | false => exact h.turns (s.turns_call plain)
  | true =>
    cases c with
    | watch p kind =>
      exact h.refer (a := .acquire p) (Or.inl ⟨p, rfl⟩) rfl rfl
    | unwatch handle =>
      rw [Session.call, unwatch]
      split
      · exact h
      · rename_i p _
        exact h.refer (a := .release p) (Or.inr ⟨p, rfl⟩) rfl rfl
    | teardown =>
      have closed := h.turns s.turns_close
      refine ⟨?_, closed.connected, closed.online, fun _ => ⟨rfl, rfl, rfl⟩⟩
      exact @Action.covering _ (s.close.1.listens, s.wire) Wire.sink .clear closed.covering
    | _ => cases plain

theorem Reached.aligned (h : Reached ids s) : Aligned s := by
  induction h with
  | new config clock digits =>
    exact ⟨covering_of_none OrderedMap.sound_empty fun _ => rfl, nofun, nofun,
      fun _ => ⟨rfl, rfl, rfl⟩⟩
  | call _ c ih => exact ih.call c

theorem Aligned.quiet (h : Aligned s) (down : s.phase = .disconnected ∨ s.phase = .connecting) :
    s.listens.online = false := by
  cases on : s.listens.online with
  | false => rfl
  | true =>
    rcases down with down | down <;> rcases h.online on with up | up <;> cases down.symm.trans up

end Phase

/-- The numbers of the listens and requests that may still have an answer. -/
def numbers (s : Session) : List RequestId :=
  s.listens.awaited.map Prod.fst ++ s.wire.requests.untracked
    ++ (s.wire.requests.inFlight.map (·.id) ++ s.wire.requests.queued.map (·.id))

section Numbers
variable {s : Session} {ids : List RequestId}

theorem distinct_call (h : Ready s) (only : OnlyWrites s) (d : Distinct (s.listens, s.wire))
    (c : Call) : Distinct ((s.call c).listens, (s.call c).wire) := by
  by_cases hc : c = .teardown
  · rw [hc]
    exact ⟨List.nodup_nil, nofun⟩
  by_cases known : ∀ id ∈ c.answered?, id ∈ foreign (s.listens, s.wire)
      ∨ ∃ w ∈ s.wire.requests.inFlight, w.id = id
  · exact (passage_call h only hc known).distinct d
  · -- an answer that nobody waits for changes no table
    push Not at known
    obtain ⟨id, answered, unknown, landed⟩ := known
    obtain ⟨status, data, message⟩ : ∃ status data,
        c.message? = some (.response id status data) := by
      unfold Call.answered? at answered
      split at answered
      · cases answered
        exact ⟨_, _, ‹_›⟩
      · cases answered
    rw [call_of_message message, receive, response_of_unknown unknown landed]
    exact d.congr rfl rfl

theorem Reached.run (h : Reached ids s) : ∃ log, Run log s := by
  induction h with
  | new config clock digits => exact ⟨_, .new config clock digits⟩
  | call _ c ih =>
    obtain ⟨log, run⟩ := ih
    exact ⟨_, run.call c⟩

theorem Reached.distinct (h : Reached ids s) : Distinct (s.listens, s.wire) := by
  induction h with
  | new config clock digits => exact ⟨List.nodup_nil, nofun⟩
  | call h c ih =>
    obtain ⟨log, run⟩ := h.run
    exact distinct_call h.conserved.ready run.recorded.only ih c

theorem numbers_eq (s : Session) :
    s.numbers = foreign (s.listens, s.wire) ++ s.wire.requests.all.map (·.id) := by
  rw [numbers, foreign, Requests.all, List.map_append]

theorem numbers_nodup (d : Distinct (s.listens, s.wire)) (b : Booked s) : s.numbers.Nodup := by
  rw [numbers_eq]
  refine List.nodup_append.mpr ⟨d.nodup, (List.nodup_append.mp b.once).2.1, ?_⟩
  rintro id outside _ inside rfl
  obtain ⟨r, hr, number⟩ := List.mem_map.mp inside
  exact (b.foreign id outside).2 r hr number

theorem numbers_le (d : Distinct (s.listens, s.wire)) (b : Booked s) :
    ∀ id ∈ s.numbers, id ≤ s.wire.requests.lastId := by
  intro id mem
  rw [numbers_eq] at mem
  rcases List.mem_append.mp mem with outside | inside
  · exact d.numbered id outside
  · exact b.numbered id (List.mem_append_right _ inside)

/-- What an answer may change, by where its number stands. -/
structure Routed (s : Session) (id : RequestId) (status : Status) (data : Option Value)
    (t : Session) : Prop where
  awaited : (∃ p, (id, p) ∈ s.listens.awaited) →
    t.wire.requests.all = s.wire.requests.all ∧ t.completions = s.completions
  untracked : id ∈ s.wire.requests.untracked → t.listens = s.listens
    ∧ t.wire.requests.all = s.wire.requests.all ∧ t.completions = s.completions
  landed : ∀ w ∈ s.wire.requests.inFlight, w.id = id → t.listens = s.listens
    ∧ t.wire.requests.untracked = s.wire.requests.untracked
    ∧ t.completions = s.completions ++ [w.finish (outcome status data)]
  stray : (∀ p, (id, p) ∉ s.listens.awaited) → id ∉ s.wire.requests.untracked →
    (∀ w ∈ s.wire.requests.inFlight, w.id ≠ id) →
    t = { s with wire.stats.droppedResponses := s.wire.stats.droppedResponses + 1 }

theorem routed_response (sound : s.listens.items.Sound) (nodup : s.numbers.Nodup) (id : RequestId)
    (status : Status) (data : Option Value) :
    s.Routed id status data (s.response id status data) := by
  rw [numbers_eq] at nodup
  obtain ⟨outside, inside, apart⟩ := List.nodup_append.mp nodup
  obtain ⟨_, _, apart'⟩ := List.nodup_append.mp outside
  have unawaited (other : ∀ p, (id, p) ∉ s.listens.awaited) : ¬ s.listens.awaits id = true :=
    fun awaits => (awaits_iff.mp awaits).elim other
  refine ⟨?_, fun mem => ?_, ?_, fun other untracked landed => ?_⟩
  · rintro ⟨p, mem⟩
    have grown := (@Action.grown (s.listens, s.wire) (.answer id status.isOk) sound).1
    rw [response, if_pos (awaits_iff.mpr ⟨p, mem⟩)]
    exact ⟨grown.kept.all, rfl⟩
  · have other : ∀ p, (id, p) ∉ s.listens.awaited := fun p awaited =>
      apart' id (List.mem_map_of_mem awaited) id mem rfl
    have tracked : s.wire.requests.isUntracked id = true := List.contains_iff_mem.mpr mem
    rw [response, if_neg (unawaited other), settle, if_pos tracked]
    exact ⟨rfl, rfl, rfl⟩
  · rintro w hw rfl
    have number : w.id ∈ s.wire.requests.all.map (·.id) :=
      List.mem_map_of_mem (List.mem_append_left _ hw)
    have foreign : w.id ∉ foreign (s.listens, s.wire) := fun mem => apart _ mem _ number rfl
    have other : ∀ p, (w.id, p) ∉ s.listens.awaited := fun p awaited =>
      foreign (List.mem_append_left _ (List.mem_map_of_mem awaited))
    have tracked : ¬ s.wire.requests.isUntracked w.id = true := fun mem =>
      foreign (List.mem_append_right _ (List.contains_iff_mem.mp mem))
    have found : (s.wire.requests.inFlight.find? fun v => v.id == w.id) = some w := by
      have once : (s.wire.requests.inFlight.map (·.id)).Nodup :=
        inside.sublist ((List.sublist_append_left _ _).map _)
      rw [← List.head?_filter, filter_id_eq once hw]
      rfl
    rw [response, if_neg (unawaited other), settle, if_neg tracked, found]
    exact ⟨rfl, rfl, rfl⟩
  · refine response_of_unknown (fun mem => ?_) landed status data
    rcases mem_foreign.mp mem with awaits | mem
    · exact unawaited other awaits
    · exact untracked mem

/-- After any calls: while connected, listens can be sent, and they can be only until a connection
that is closing is lost; without a connection nothing is in flight, no answer is awaited or dropped,
and no item counts as sent. The numbers in the tables are different and were handed out, so what an
answer changes belongs to one of them at most. -/
theorem tables_agree (h : Reached ids s) :
    (s.phase = .connected → s.listens.online = true)
    ∧ (s.listens.online = true → s.phase = .connected ∨ s.phase = .disconnecting)
    ∧ (s.phase = .disconnected ∨ s.phase = .connecting →
      s.wire.requests.inFlight = [] ∧ s.wire.requests.untracked = [] ∧ s.listens.awaited = []
        ∧ ∀ p i, s.listens.get? p = some i → i.status ≠ .pending ∧ i.status ≠ .active)
    ∧ s.numbers.Nodup
    ∧ (∀ id ∈ s.numbers, id ≤ s.wire.requests.lastId)
    ∧ ∀ id status data, s.Routed id status data (s.response id status data) := by
  have aligned := h.aligned
  have booked := h.conserved.booked
  have nodup := numbers_nodup h.distinct booked
  refine ⟨aligned.connected, aligned.online, fun down => ?_, nodup, numbers_le h.distinct booked,
    routed_response aligned.covering.sound nodup⟩
  have off := aligned.quiet down
  obtain ⟨awaited, inFlight, untracked⟩ := aligned.offline off
  refine ⟨inFlight, untracked, awaited, fun p i item => ?_⟩
  have unsent := aligned.covering.offline off p i.status (status?_of_get? item)
  constructor <;> (intro status; rw [status] at unsent; cases unsent)

/-- A listen and a write are sent, and then another write, which the server may answer first. -/
def crowded (p : Path) : Session :=
  [Call.connect, .receive (.handshake 0), .watch p .value, .write p .null true,
    .write p .null true, .receive (.response 3 .ok none)].foldl call blank

theorem tables_agree_crowded : ∃ p, (∃ ids, Reached ids (crowded p))
    ∧ (crowded p).listens.online = true
    ∧ (crowded p).Routed 2 .ok none ((crowded p).response 2 .ok none)
    ∧ (crowded p).numbers = [1, 2] := by
  let p : Path := ⟨["a"], by decide, by decide⟩
  obtain ⟨ids, h⟩ : ∃ ids, Reached ([] ++ ids) (crowded p) := (Reached.new _ _ _).calls _
  obtain ⟨online, _, _, _, _, routed⟩ := tables_agree h
  exact ⟨p, ⟨_, h⟩, online (by decide +kernel), routed 2 .ok none, by decide +kernel⟩

end Numbers

end Session

end LiveTree
