import LiveTree.Proofs.Listens.Coverage
import Mathlib.Data.List.Induction

/-!
# A new connection listens to the outermost paths

When a connection comes, listens go out for the paths that were not refused and have nothing above
them that was not refused, and for no others. Which paths were masked before, and by what, does not
matter: the loop goes through the paths in order, so everything above a path has its new status by
then, and a path is covered then exactly if an outermost path lies above it.
-/

namespace LiveTree.Listens

variable {σ : Type}

/-- Sends the listens of paths, one after the other. They are kept with their requests. -/
def listenAll (sink : Sink σ) (w : σ) (paths : List Path) : List (RequestId × Path) × σ :=
  paths.foldl (fun s p => (s.1 ++ [((sink.listen p s.2).1, p)], (sink.listen p s.2).2)) ([], w)

/-- True for a path that was not refused, with nothing above it that was not refused. -/
def isOutermost (l : Listens) (p : Path) : Bool :=
  l.status? p != some .failed && p.ancestors.all fun q => (l.status? q).all (· == .failed)

/-- The outermost paths, in order. -/
def outermost (l : Listens) : List Path := l.items.keys.filter l.isOutermost

section Outermost
variable {l : Listens} {p q : Path} {s : ListenStatus}

theorem isOutermost_iff : l.isOutermost p = true
    ↔ l.status? p ≠ some .failed ∧ ∀ q s, q.Above p → l.status? q = some s → s = .failed := by
  simp only [isOutermost, Bool.and_eq_true, bne_iff_ne, List.all_eq_true, Path.mem_ancestors,
    Option.all_eq_true, beq_iff_eq]
  constructor
  · exact fun ⟨here, above⟩ => ⟨here, fun q s hq => above q hq s⟩
  · exact fun ⟨here, above⟩ => ⟨here, fun q hq s => above q s hq⟩

theorem mem_outermost (sound : l.items.Sound) : p ∈ l.outermost
    ↔ (∃ s, l.status? p = some s ∧ s ≠ .failed)
      ∧ ∀ q s, q.Above p → l.status? q = some s → s = .failed := by
  rw [outermost, List.mem_filter, mem_keys_iff sound, isOutermost_iff]
  constructor
  · rintro ⟨⟨i, hi⟩, here, above⟩
    have status := status?_of_get? hi
    exact ⟨⟨i.status, status, fun he => here (he ▸ status)⟩, above⟩
  · rintro ⟨⟨s, hs, here⟩, above⟩
    obtain ⟨i, hi, _⟩ := status?_eq_some.mp hs
    exact ⟨⟨i, hi⟩, fun he => here (Option.some.inj (hs.symm.trans he)), above⟩

theorem exists_outermost (sound : l.items.Sound) (hs : l.status? p = some s) (here : s ≠ .failed) :
    ∃ q ∈ l.outermost, q.segments <+: p.segments := by
  -- the shortest of the paths above it that were not refused
  induction hn : p.segments.length using Nat.strongRecOn generalizing p s with
  | ind n ih =>
    by_cases alone : ∀ q t, q.Above p → l.status? q = some t → t = .failed
    · exact ⟨p, (mem_outermost sound).mpr ⟨⟨s, hs, here⟩, alone⟩, List.prefix_refl _⟩
    · simp only [not_forall] at alone
      obtain ⟨q, t, hq, ht, other⟩ := alone
      have shorter := (Path.above_iff_length.mp hq).2
      obtain ⟨r, hr, hrq⟩ := ih _ (hn ▸ shorter) ht other rfl
      exact ⟨r, hr, hrq.trans hq.isPrefix⟩

end Outermost

section Resume
variable {sink : Sink σ} {l : Listens} {w : σ} {visited todo : List Path} {acc acc' : Sending σ}
  {p : Path}

theorem listenAll_append (sink : Sink σ) (w : σ) (paths : List Path) (p : Path) :
    listenAll sink w (paths ++ [p])
      = ((listenAll sink w paths).1 ++ [((sink.listen p (listenAll sink w paths).2).1, p)],
        (sink.listen p (listenAll sink w paths).2).2) := by
  rw [listenAll, List.foldl_append]
  rfl

theorem paths_listenAll (sink : Sink σ) (w : σ) (paths : List Path) :
    (listenAll sink w paths).1.map Prod.snd = paths := by
  induction paths using List.reverseRecOn with
  | nil => rfl
  | append_singleton paths p ih => rw [listenAll_append, List.map_append, ih]; rfl

/-- What the visited ones of the outermost paths have sent. -/
def sentFor (sink : Sink σ) (l : Listens) (w : σ) (visited : List Path) :
    List (RequestId × Path) × σ :=
  listenAll sink w (visited.filter l.isOutermost)

/-- The listens `l` while a new connection is taken, after some paths and before others. -/
structure Resuming (sink : Sink σ) (l : Listens) (w : σ) (visited todo : List Path)
    (acc : Sending σ) : Prop where
  keys : l.items.keys = visited ++ todo
  wire : acc.2 = (sentFor sink l w visited).2
  awaited : acc.1.awaited = l.awaited ++ (sentFor sink l w visited).1
  request : ∀ e ∈ (sentFor sink l w visited).1, acc.1.request? e.2 = some e.1
  sent : ∀ p ∈ visited, l.isOutermost p = true → acc.1.status? p = some .pending
  masked : ∀ p ∈ visited, l.isOutermost p = false → l.status? p ≠ some .failed →
    acc.1.status? p = some .masked
  same : ∀ p, p ∉ visited ∨ l.status? p = some .failed → acc.1.get? p = l.get? p

theorem Resuming.fresh (h : Resuming sink l w visited (p :: todo) acc) (sound : l.items.Sound) :
    p ∉ visited := by
  have nodup := OrderedMap.keys_nodup sound
  rw [h.keys] at nodup
  exact fun hp => (List.nodup_append.mp nodup).2.2 p hp p List.mem_cons_self rfl

theorem Resuming.visited_above (h : Resuming sink l w visited (p :: todo) acc)
    (sound : l.items.Sound) {q : Path} (hq : q.Above p) {i : Listen} (hi : l.get? q = some i) :
    q ∈ visited := by
  have mem := (mem_keys_iff sound).mpr ⟨i, hi⟩
  have sorted := OrderedMap.keys_ascend sound
  rw [h.keys] at mem sorted
  rcases List.mem_append.mp mem with mem | mem
  · exact mem
  · rcases List.mem_cons.mp mem with rfl | mem
    · exact absurd hq (Path.not_above_self q)
    · have later := (List.pairwise_cons.mp (List.pairwise_append.mp sorted).2.1).1 q mem
      exact absurd later (Std.OrientedCmp.not_lt_of_lt hq.compare_lt)

theorem Resuming.same_of_refused (h : Resuming sink l w visited todo acc) (sound : l.items.Sound)
    {q : Path} (refused : ∀ s, l.status? q = some s → s = .failed) :
    acc.1.get? q = l.get? q := by
  apply h.same
  by_cases mem : q ∈ visited
  · obtain ⟨i, hi⟩ := (mem_keys_iff sound).mp (h.keys ▸ List.mem_append_left _ mem)
    have status := status?_of_get? hi
    exact Or.inr (refused _ status ▸ status)
  · exact Or.inl mem

/-- The next path is covered exactly if it is not outermost: what was masked above it does not
cover it, but then something outermost does. -/
theorem Resuming.isCovered_iff (h : Resuming sink l w visited (p :: todo) acc)
    (sound : l.items.Sound) (here : l.status? p ≠ some .failed) :
    acc.1.isCovered p = true ↔ l.isOutermost p = false := by
  rw [Listens.isCovered_iff]
  constructor
  · rintro ⟨q, s, hq, hs, covers⟩
    refine Bool.eq_false_iff.mpr fun outer => ?_
    have refused := fun t => (isOutermost_iff.mp outer).2 q t hq
    rw [status?, h.same_of_refused sound refused] at hs
    rw [refused s hs] at covers
    cases covers
  · intro inner
    have alone : ¬ ∀ q s, q.Above p → l.status? q = some s → s = .failed := fun alone =>
      Bool.eq_false_iff.mp inner (isOutermost_iff.mpr ⟨here, alone⟩)
    simp only [not_forall] at alone
    obtain ⟨q, s, hq, hs, other⟩ := alone
    obtain ⟨r, hr, hrq⟩ := exists_outermost sound hs other
    obtain ⟨mem, outer⟩ := List.mem_filter.mp hr
    obtain ⟨i, hi⟩ := (mem_keys_iff sound).mp mem
    have above : r.Above p := by
      rcases Path.isPrefix_iff_eq_or_above.mp hrq with rfl | hrq
      · exact hq
      · exact hrq.trans hq
    exact ⟨r, .pending, above, h.sent r (h.visited_above sound above hi) outer, rfl⟩

theorem sentFor_inner (inner : l.isOutermost p = false) :
    sentFor sink l w (visited ++ [p]) = sentFor sink l w visited := by
  rw [sentFor, List.filter_append, List.filter_cons_of_neg (by simp [inner]), List.filter_nil,
    List.append_nil, sentFor]

theorem sentFor_outer (outer : l.isOutermost p = true) :
    sentFor sink l w (visited ++ [p])
      = ((sentFor sink l w visited).1 ++ [((sink.listen p (sentFor sink l w visited).2).1, p)],
        (sink.listen p (sentFor sink l w visited).2).2) := by
  rw [sentFor, List.filter_append, List.filter_cons_of_pos outer, List.filter_nil, listenAll_append]
  rfl

theorem visited_of_sentFor {e : RequestId × Path} (he : e ∈ (sentFor sink l w visited).1) :
    e.2 ∈ visited := by
  have mem := List.mem_map_of_mem he (f := Prod.snd)
  rw [sentFor, paths_listenAll] at mem
  exact (List.mem_filter.mp mem).1

theorem mem_sentFor_of_ne {e : RequestId × Path}
    (he : e ∈ (sentFor sink l w (visited ++ [p])).1) (ne : e.2 ≠ p) :
    e ∈ (sentFor sink l w visited).1 := by
  cases outer : l.isOutermost p with
  | false => exact sentFor_inner outer ▸ he
  | true =>
    rw [sentFor_outer outer] at he
    rcases List.mem_append.mp he with he | he
    · exact he
    · exact absurd (congrArg Prod.snd (List.mem_singleton.mp he)) ne

/-- A visit changes its path only: an outermost one becomes pending, any other is masked or was
refused. -/
theorem Resuming.advance (h : Resuming sink l w visited (p :: todo) acc) (sound : l.items.Sound)
    (wire : acc'.2 = (sentFor sink l w (visited ++ [p])).2)
    (awaited : acc'.1.awaited = l.awaited ++ (sentFor sink l w (visited ++ [p])).1)
    (frame : ∀ q, q ≠ p → acc'.1.get? q = acc.1.get? q)
    (request : ∀ e ∈ (sentFor sink l w (visited ++ [p])).1, e.2 = p →
      acc'.1.request? p = some e.1)
    (sent : l.isOutermost p = true → acc'.1.status? p = some .pending)
    (masked : l.isOutermost p = false → l.status? p ≠ some .failed →
      acc'.1.status? p = some .masked)
    (same : l.status? p = some .failed → acc'.1.get? p = acc.1.get? p) :
    Resuming sink l w (visited ++ [p]) todo acc' := by
  have fresh := h.fresh sound
  have status : ∀ q ∈ visited, acc'.1.status? q = acc.1.status? q := fun q hq => by
    rw [status?, frame q fun he => fresh (he ▸ hq), status?]
  refine ⟨by rw [h.keys, List.append_assoc]; rfl, wire, awaited, ?_, ?_, ?_, ?_⟩
  · intro e he
    by_cases hep : e.2 = p
    · exact hep ▸ request e he hep
    · rw [request?, frame e.2 hep]
      exact h.request e (mem_sentFor_of_ne he hep)
  · intro q hq outer
    rcases List.mem_append.mp hq with hq | hq
    · exact (status q hq).trans (h.sent q hq outer)
    · obtain rfl := List.mem_singleton.mp hq
      exact sent outer
  · intro q hq inner here
    rcases List.mem_append.mp hq with hq | hq
    · exact (status q hq).trans (h.masked q hq inner here)
    · obtain rfl := List.mem_singleton.mp hq
      exact masked inner here
  · intro q hq
    by_cases hqp : q = p
    · subst hqp
      exact (same (hq.resolve_left (by simp))).trans (h.same q (Or.inl fresh))
    · rw [frame q hqp]
      exact h.same q (hq.imp_left fun hq mem => hq (List.mem_append_left _ mem))

theorem Resuming.pass (h : Resuming sink l w visited (p :: todo) acc) (sound : l.items.Sound)
    (inner : l.isOutermost p = false) (wire : acc'.2 = acc.2)
    (awaited : acc'.1.awaited = acc.1.awaited)
    (frame : ∀ q, q ≠ p → acc'.1.get? q = acc.1.get? q)
    (masked : l.status? p ≠ some .failed → acc'.1.status? p = some .masked)
    (same : l.status? p = some .failed → acc'.1.get? p = acc.1.get? p) :
    Resuming sink l w (visited ++ [p]) todo acc' := by
  refine h.advance sound ?_ ?_ frame ?_ (fun outer => ?_) (fun _ => masked) same
  · rw [sentFor_inner inner, wire, h.wire]
  · rw [sentFor_inner inner, awaited, h.awaited]
  · intro e he hep
    rw [sentFor_inner inner] at he
    exact absurd (hep ▸ visited_of_sentFor he) (h.fresh sound)
  · rw [inner] at outer
    cases outer

theorem Resuming.send (h : Resuming sink l w visited (p :: todo) acc) (sound : l.items.Sound)
    (outer : l.isOutermost p = true) {s : ListenStatus} (there : acc.1.status? p = some s) :
    Resuming sink l w (visited ++ [p]) todo (send sink acc p) := by
  refine h.advance sound ?_ ?_ (fun q hq => ?_) ?_ (fun _ => status?_send_self sink acc p there)
    (fun inner => ?_) (fun refused => absurd refused (isOutermost_iff.mp outer).1)
  · rw [send_wire, sentFor_outer outer, h.wire]
  · rw [send_awaited, sentFor_outer outer, h.awaited, h.wire, List.append_assoc]
  · change ((acc.1.setStatus p .pending).setRequest p _).get? q = acc.1.get? q
    rw [setRequest, get?_modify, if_neg hq, setStatus, get?_modify, if_neg hq]
  · intro e he hep
    rw [sentFor_outer outer] at he
    rcases List.mem_append.mp he with he | he
    · exact absurd (hep ▸ visited_of_sentFor he) (h.fresh sound)
    · rw [List.mem_singleton.mp he, request?_send_self sink acc p there, h.wire]
  · rw [outer] at inner
    cases inner

theorem resumeOne_of_required (h : acc.1.status? p = some .required) :
    resumeOne sink acc p
      = if acc.1.isCovered p then (acc.1.setStatus p .masked, acc.2)
        else Listens.send sink acc p := by
  simp [resumeOne, h]

theorem resumeOne_of_settled (h : acc.1.status? p = some .masked ∨ acc.1.status? p = some .failed) :
    resumeOne sink acc p = acc := by
  rcases h with h | h <;> simp [resumeOne, h]

theorem Resuming.step (h : Resuming sink l w visited (p :: todo) acc)
    (covering : Covering [] [] [] l) (offline : l.online = false) :
    Resuming sink l w (visited ++ [p]) todo (resumeOne sink acc p) := by
  have sound := covering.sound
  obtain ⟨i, hi⟩ := (mem_keys_iff sound).mp (h.keys ▸ List.mem_append_right _ List.mem_cons_self)
  have status := status?_of_get? hi
  have now : acc.1.status? p = some i.status := by
    rw [status?, h.same p (Or.inl (h.fresh sound)), ← status, status?]
  have quiet := covering.offline offline p _ status
  cases hs : i.status with
  | pending | active =>
    rw [hs] at quiet
    cases quiet
  | failed =>
    rw [hs] at status now
    rw [resumeOne_of_settled (Or.inr now)]
    have inner : l.isOutermost p = false :=
      Bool.eq_false_iff.mpr fun outer => (isOutermost_iff.mp outer).1 status
    exact h.pass sound inner rfl rfl (fun _ _ => rfl) (absurd status) (fun _ => rfl)
  | masked =>
    rw [hs] at status now
    rw [resumeOne_of_settled (Or.inl now)]
    obtain ⟨q, t, hq, ht, covers⟩ :=
      Listens.isCovered_iff.mp ((covering.masked p status).resolve_left List.not_mem_nil)
    have inner : l.isOutermost p = false := by
      refine Bool.eq_false_iff.mpr fun outer => ?_
      rw [(isOutermost_iff.mp outer).2 q t hq ht] at covers
      cases covers
    exact h.pass sound inner rfl rfl (fun _ _ => rfl) (fun _ => now) (fun _ => rfl)
  | required =>
    rw [hs] at status now
    have here : l.status? p ≠ some .failed := by rw [status]; decide
    rw [resumeOne_of_required now]
    cases outer : l.isOutermost p with
    | false =>
      rw [if_pos ((h.isCovered_iff sound here).mpr outer)]
      refine h.pass sound outer rfl rfl (fun q hq => ?_) (fun _ => status?_setStatus_self now)
        (fun refused => absurd refused here)
      rw [setStatus, get?_modify, if_neg hq]
    | true =>
      have free : ¬ acc.1.isCovered p = true := fun covered => by
        rw [(h.isCovered_iff sound here).mp covered] at outer
        cases outer
      rw [if_neg free]
      exact h.send sound outer now

theorem resuming_resume (covering : Covering [] [] [] l) (offline : l.online = false) (w : σ) :
    Resuming sink l w l.items.keys [] (l.resume sink w) := by
  suffices run : ∀ todo visited acc, Resuming sink l w visited todo acc →
      Resuming sink l w (visited ++ todo) [] (todo.foldl (resumeOne sink) acc) from
    run l.items.keys [] _ ⟨rfl, rfl, (List.append_nil _).symm, nofun, nofun, nofun, fun _ _ => rfl⟩
  intro todo
  induction todo with
  | nil => exact fun visited acc h => (List.append_nil visited).symm ▸ h
  | cons p todo ih =>
    intro visited acc h
    have next := ih (visited ++ [p]) _ (h.step covering offline)
    rwa [List.append_assoc] at next

end Resume

section Reached
variable {sink : Sink σ} {acc : Sending σ}

/-- Offline, whatever led there, a new connection sends one listen for each outermost path, in
order, and nothing else. These paths are pending then, under the requests that were sent; all others
are masked, apart from those that were refused, which stay as they are. -/
theorem resume_listens_outermost (h : Reachable sink acc) (offline : acc.1.online = false) :
    (∀ p, p ∈ acc.1.outermost ↔ (∃ s, acc.1.status? p = some s ∧ s ≠ .failed)
      ∧ ∀ q s, q.Above p → acc.1.status? q = some s → s = .failed)
    ∧ (acc.1.outermost.Pairwise fun p q => Path.compare p q = .lt)
    ∧ (acc.1.resume sink acc.2).2 = (listenAll sink acc.2 acc.1.outermost).2
    ∧ (acc.1.resume sink acc.2).1.awaited
      = acc.1.awaited ++ (listenAll sink acc.2 acc.1.outermost).1
    ∧ (listenAll sink acc.2 acc.1.outermost).1.map Prod.snd = acc.1.outermost
    ∧ (∀ e ∈ (listenAll sink acc.2 acc.1.outermost).1,
      (acc.1.resume sink acc.2).1.status? e.2 = some .pending
      ∧ (acc.1.resume sink acc.2).1.request? e.2 = some e.1)
    ∧ (∀ p s, acc.1.status? p = some s → s ≠ .failed → p ∉ acc.1.outermost →
      (acc.1.resume sink acc.2).1.status? p = some .masked)
    ∧ ∀ p, acc.1.get? p = none ∨ acc.1.status? p = some .failed →
      (acc.1.resume sink acc.2).1.get? p = acc.1.get? p := by
  have covering := h.covering
  have sound := covering.sound
  have resumed : Resuming sink acc.1 acc.2 acc.1.items.keys [] (acc.1.resume sink acc.2) :=
    resuming_resume covering offline acc.2
  have outer : ∀ {p}, p ∈ acc.1.outermost → p ∈ acc.1.items.keys ∧ acc.1.isOutermost p = true :=
    List.mem_filter.mp
  refine ⟨fun _ => mem_outermost sound, (OrderedMap.keys_ascend sound).filter _, resumed.wire,
    resumed.awaited, paths_listenAll sink acc.2 _, ?sent, ?masked, ?same⟩
  case sent =>
    intro e he
    have mem : e.2 ∈ acc.1.outermost :=
      paths_listenAll sink acc.2 acc.1.outermost ▸ List.mem_map_of_mem he
    exact ⟨resumed.sent e.2 (outer mem).1 (outer mem).2, resumed.request e he⟩
  case masked =>
    intro p s hs here inner
    obtain ⟨i, hi, _⟩ := status?_eq_some.mp hs
    have known := (mem_keys_iff sound).mpr ⟨i, hi⟩
    refine resumed.masked p known (Bool.eq_false_iff.mpr fun outer => ?_) fun refused => ?_
    · exact inner (List.mem_filter.mpr ⟨known, outer⟩)
    · exact here (Option.some.inj (hs.symm.trans refused))
  case same =>
    rintro p (unknown | refused)
    · refine resumed.same p (Or.inl fun known => ?_)
      obtain ⟨i, hi⟩ := (mem_keys_iff sound).mp known
      cases unknown.symm.trans hi
    · exact resumed.same p (Or.inr refused)

end Reached

def beside : Path := ⟨["a", "d"], by decide, by decide⟩

def deepest : Path := ⟨["a", "b", "c"], by decide, by decide⟩

/-- A path is refused, so that one below it gets a listen, which masks a third. After the connection
is lost, more paths are wanted, a lower one before the one above it. -/
def interrupted : List Action :=
  [.resume, .acquire outer, .acquire inner, .answer 0 false, .acquire deepest, .suspend,
    .acquire ⟨["e", "f"], by decide, by decide⟩, .acquire beside,
    .acquire ⟨["e"], by decide, by decide⟩]

/-- What the interruption leaves. -/
def broken : Sending Nat := interrupted.foldl (Action.run counting) (Listens.empty, 0)

theorem resume_interrupted : broken.1.online = false
    ∧ broken.1.outermost = [inner, beside, ⟨["e"], by decide, by decide⟩]
    ∧ (broken.1.resume counting broken.2).2 = 5
    ∧ (broken.1.resume counting broken.2).1.status? deepest = some .masked
    ∧ (broken.1.resume counting broken.2).1.status? outer = some .failed := by
  have offline : broken.1.online = false := by decide +kernel
  obtain ⟨_, _, wire, _, _, _, masked, same⟩ :=
    resume_listens_outermost ((Reachable.empty 0).foldl interrupted) offline
  have refused : broken.1.status? outer = some .failed := by decide +kernel
  have listed : broken.1.outermost = [inner, beside, ⟨["e"], by decide, by decide⟩] := by
    decide +kernel
  refine ⟨offline, listed, ?_, ?_, ?_⟩
  · refine wire.trans ?_
    decide +kernel
  · exact masked deepest .masked (by decide +kernel) nofun (by decide +kernel)
  · exact (congrArg (Option.map Listen.status) (same outer (Or.inr refused))).trans refused

end LiveTree.Listens
