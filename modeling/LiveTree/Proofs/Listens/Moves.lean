import Mathlib.Logic.Relation
import LiveTree.Proofs.Listens.State

/-!
# The changes that an operation on the listens is made of

Every operation opens with one change, which sends no listen, and goes on with moves of single
paths, which its loops make. The only move that sends a listen sends it for a path that nothing
covers at that moment. So what the opening and each move keep is kept by every operation.

Which moves an operation makes, and in which order, is not said here; what the loops achieve is said
path by path.
-/

namespace LiveTree.Listens

open Relation

variable {σ : Type}

inductive Action where
  | acquire (p : Path)
  | release (p : Path)
  | answer (id : RequestId) (ok : Bool)
  | suspend
  | resume
  | clear

def Action.run (sink : Sink σ) (acc : Sending σ) : Action → Sending σ
  | .acquire p => acc.1.acquire sink acc.2 p
  | .release p => acc.1.release sink acc.2 p
  | .answer id ok => acc.1.answer sink acc.2 id ok
  | .suspend => (acc.1.suspend, acc.2)
  | .resume => acc.1.resume sink acc.2
  | .clear => (acc.1.clear, acc.2)

def firstStatus (l : Listens) (p : Path) : ListenStatus :=
  if l.isCovered p then .masked else .required

theorem firstStatus_onWire (l : Listens) (p : Path) : (l.firstStatus p).onWire = false := by
  unfold firstStatus
  split <;> rfl

theorem firstStatus_ne (l : Listens) (p : Path) {s : ListenStatus} (hs : s.onWire = true) :
    l.firstStatus p ≠ s := by
  rintro rfl
  rw [firstStatus_onWire] at hs
  cases hs

/-- What is left to do after the first change of an operation. -/
inductive Rest where
  | nothing
  | send (p : Path)
  | unmask (p : Path)
  | mask (p : Path)
  | resume

def Rest.run (sink : Sink σ) (acc : Sending σ) : Rest → Sending σ
  | .nothing => acc
  | .send p => Listens.send sink acc p
  | .unmask p => unmaskBelow sink acc p
  | .mask p => maskBelow sink acc p
  | .resume => acc.1.items.keys.foldl (resumeOne sink) acc

/-- The first change of an operation, and what it leaves to do. No such change sends a listen. -/
inductive Opening (sink : Sink σ) : Action → Sending σ → Sending σ → Rest → Prop where
  | hold {l : Listens} {w : σ} {p : Path} (h : ∃ i, l.get? p = some i) :
      Opening sink (.acquire p) (l, w)
        (l.modify p fun i => { i with refCount := i.refCount + 1 }, w) .nothing
  | add {l : Listens} {w : σ} {p : Path} (h : l.get? p = none) :
      Opening sink (.acquire p) (l, w) (l.withNew p (l.firstStatus p), w)
        (if l.firstStatus p = .required && l.online then .send p else .nothing)
  | stray {l : Listens} {w : σ} {p : Path} (h : l.get? p = none) :
      Opening sink (.release p) (l, w) (l, w) .nothing
  | drop {l : Listens} {w : σ} {p : Path} {i : Listen} (h : l.get? p = some i)
      (more : 1 < i.refCount) :
      Opening sink (.release p) (l, w)
        (l.modify p fun i => { i with refCount := i.refCount - 1 }, w) .nothing
  | close {l : Listens} {w : σ} {p : Path} {i : Listen} (h : l.get? p = some i)
      (last : i.refCount ≤ 1) :
      Opening sink (.release p) (l, w)
        (l.remove p, if l.online && i.status.onWire then sink.unlisten p w else w)
        (if i.status.covers then .unmask p else .nothing)
  | unknown {l : Listens} {w : σ} {id : RequestId} {ok : Bool} (h : l.awaited.lookup id = none) :
      Opening sink (.answer id ok) (l, w) (l, w) .nothing
  | stale {l : Listens} {w : σ} {id : RequestId} {ok : Bool} {p : Path}
      (h : l.awaited.lookup id = some p) (old : l.request? p ≠ some id) :
      Opening sink (.answer id ok) (l, w) (l.forget id, w) .nothing
  | accept {l : Listens} {w : σ} {id : RequestId} {p : Path}
      (h : l.awaited.lookup id = some p) (request : l.request? p = some id)
      (pending : l.status? p = some .pending) :
      Opening sink (.answer id true) (l, w)
        (((l.forget id).setRequest p none).setStatus p .active, w) (.mask p)
  | refuse {l : Listens} {w : σ} {id : RequestId} {p : Path}
      (h : l.awaited.lookup id = some p) (request : l.request? p = some id)
      (pending : l.status? p = some .pending) :
      Opening sink (.answer id false) (l, w)
        (((l.forget id).setRequest p none).setStatus p .failed, w) (.unmask p)
  | late {l : Listens} {w : σ} {id : RequestId} {p : Path}
      (h : l.awaited.lookup id = some p) (request : l.request? p = some id)
      (masked : l.status? p = some .masked) :
      Opening sink (.answer id true) (l, w)
        ((l.forget id).setRequest p none, sink.unlisten p w) .nothing
  | lapse {l : Listens} {w : σ} {id : RequestId} {ok : Bool} {p : Path} {s : ListenStatus}
      (h : l.awaited.lookup id = some p) (request : l.request? p = some id)
      (status : l.status? p = some s) (other : s ≠ .pending) (quiet : ok = true → s ≠ .masked) :
      Opening sink (.answer id ok) (l, w) ((l.forget id).setRequest p none, w) .nothing
  | suspend {l : Listens} {w : σ} : Opening sink .suspend (l, w) (l.suspend, w) .nothing
  | resume {l : Listens} {w : σ} : Opening sink .resume (l, w) ({ l with online := true }, w) .resume
  | clear {l : Listens} {w : σ} : Opening sink .clear (l, w) (l.clear, w) .nothing

/-- A change of one path by a loop. Listens that are unanswered are sent again only if `again`
holds. -/
inductive Move (sink : Sink σ) (again : Prop) : Sending σ → Sending σ → Prop where
  | send {l : Listens} {w : σ} {p : Path} {s : ListenStatus} (status : l.status? p = some s)
      (want : s = .required ∨ s = .masked ∨ (again ∧ s = .pending))
      (free : l.isCovered p = false) (online : l.online = true) :
      Move sink again (l, w) (send sink (l, w) p)
  | need {l : Listens} {w : σ} {p : Path} (status : l.status? p = some .masked)
      (free : l.isCovered p = false) (offline : l.online = false) :
      Move sink again (l, w) (l.setStatus p .required, w)
  | mask {l : Listens} {w : σ} {q p : Path} {s : ListenStatus} (above : q.Above p)
      (active : l.status? q = some .active) (status : l.status? p = some s)
      (covers : s.covers = true) :
      Move sink again (l, w) (l.setStatus p .masked, if s = .active then sink.unlisten p w else w)
  | yield {l : Listens} {w : σ} {p : Path} {s : ListenStatus} (status : l.status? p = some s)
      (want : s = .required ∨ (again ∧ s = .pending)) (covered : l.isCovered p = true) :
      Move sink again (l, w) (l.setStatus p .masked, w)

section Send
variable (sink : Sink σ) (acc : Sending σ) (p : Path)

@[simp] theorem send_wire : (send sink acc p).2 = (sink.listen p acc.2).2 := rfl

@[simp] theorem send_online : (send sink acc p).1.online = acc.1.online := rfl

@[simp] theorem send_awaited :
    (send sink acc p).1.awaited = acc.1.awaited ++ [((sink.listen p acc.2).1, p)] := rfl

theorem sound_send (h : acc.1.items.Sound) : (send sink acc p).1.items.Sound :=
  sound_setRequest (sound_setStatus h p _) p _

theorem status?_send (q : Path) :
    (send sink acc p).1.status? q
      = if q = p then (acc.1.status? p).map fun _ => .pending else acc.1.status? q := by
  have h : (send sink acc p).1.status? q = ((acc.1.setStatus p .pending).setRequest p
      (some (sink.listen p acc.2).1)).status? q := rfl
  rw [h, status?_setRequest, status?_setStatus]

theorem request?_send (q : Path) :
    (send sink acc p).1.request? q = if q = p
      then (acc.1.get? p).bind fun _ => some (sink.listen p acc.2).1 else acc.1.request? q := by
  have h : (send sink acc p).1.request? q = ((acc.1.setStatus p .pending).setRequest p
      (some (sink.listen p acc.2).1)).request? q := rfl
  rw [h, request?_setRequest, request?_setStatus]
  split
  · simp only [setStatus, get?_modify]
    cases acc.1.get? p <;> rfl
  · rfl

theorem status?_send_self {s : ListenStatus} (h : acc.1.status? p = some s) :
    (send sink acc p).1.status? p = some .pending := by
  simp [status?_send, h]

theorem request?_send_self {s : ListenStatus} (h : acc.1.status? p = some s) :
    (send sink acc p).1.request? p = some (sink.listen p acc.2).1 := by
  obtain ⟨i, hi, _⟩ := status?_eq_some.mp h
  simp [request?_send, hi]

theorem status?_send_ne {q : Path} (h : q ≠ p) :
    (send sink acc p).1.status? q = acc.1.status? q := by
  rw [status?_send, if_neg h]

theorem request?_send_ne {q : Path} (h : q ≠ p) :
    (send sink acc p).1.request? q = acc.1.request? q := by
  rw [request?_send, if_neg h]

end Send

section Loops
variable (sink : Sink σ)

/-- What holds of the paths that a loop has still to visit becomes what holds at its end. -/
theorem foldl_visits {α β : Type} {f : α → β → α} (Q : List β → α → Prop)
    (step : ∀ b bs a, Q (b :: bs) a → Q bs (f a b)) (bs : List β) (a : α) (h : Q bs a) :
    Q [] (bs.foldl f a) := by
  induction bs generalizing a with
  | nil => exact h
  | cons b bs ih => exact ih (f a b) (step b bs a h)

theorem unmaskOne_moves (again : Prop) (acc : Sending σ) (p : Path) :
    ReflGen (Move sink again) acc (unmaskOne sink acc p) := by
  unfold unmaskOne
  by_cases hc : acc.1.status? p != some .masked || acc.1.isCovered p
  · rw [if_pos hc]
  · rw [if_neg hc]
    simp only [Bool.or_eq_true, bne_iff_ne, not_or, Decidable.not_not, Bool.not_eq_true] at hc
    obtain ⟨hs, hfree⟩ := hc
    by_cases ho : acc.1.online = true
    · rw [if_pos ho]
      exact .single (.send hs (Or.inr (Or.inl rfl)) hfree ho)
    · rw [if_neg ho]
      exact .single (.need hs hfree (Bool.eq_false_iff.mpr ho))

theorem unmaskOne_done {acc : Sending σ} {p : Path}
    (h : (unmaskOne sink acc p).1.status? p = some .masked) :
    (unmaskOne sink acc p).1.isCovered p = true := by
  unfold unmaskOne at h ⊢
  by_cases hc : acc.1.status? p != some .masked || acc.1.isCovered p
  · rw [if_pos hc] at h ⊢
    simpa [h] using hc
  · rw [if_neg hc] at h
    simp only [Bool.or_eq_true, bne_iff_ne, not_or, Decidable.not_not] at hc
    by_cases ho : acc.1.online = true
    · rw [if_pos ho, status?_send_self sink acc p hc.1] at h
      cases h
    · rw [if_neg ho, status?_setStatus_self hc.1] at h
      cases h

theorem maskOne_moves (again : Prop) {acc : Sending σ} {q p : Path} (above : q.Above p)
    (active : acc.1.status? q = some .active) :
    ReflGen (Move sink again) acc (maskOne sink acc p) := by
  unfold maskOne
  cases hs : acc.1.status? p with
  | none => exact .refl
  | some s =>
    cases s with
    | active => exact .single (.mask above active hs rfl)
    | pending => exact .single (.mask above active hs rfl)
    | required => exact .single (.mask above active hs rfl)
    | failed => exact .refl
    | masked => exact .refl

theorem maskOne_done {acc : Sending σ} {p : Path} {s : ListenStatus}
    (h : (maskOne sink acc p).1.status? p = some s) : s.covers = false := by
  unfold maskOne at h
  cases hs : acc.1.status? p with
  | none => simp [hs] at h
  | some t =>
    cases t <;> simp [hs, status?_setStatus] at h <;> subst h <;> rfl

theorem status?_maskOne_ne {acc : Sending σ} {p q : Path} (h : q ≠ p) :
    (maskOne sink acc p).1.status? q = acc.1.status? q := by
  unfold maskOne
  split <;> simp [status?_setStatus_ne h]

theorem resumeOne_moves (again : Prop) {acc : Sending σ} {p : Path} (online : acc.1.online = true)
    (old : ¬ again → acc.1.status? p ≠ some .pending) :
    ReflGen (Move sink again) acc (resumeOne sink acc p) := by
  unfold resumeOne
  cases hs : acc.1.status? p with
  | none => exact .refl
  | some s =>
    by_cases hw : (decide (s = .required) || decide (s = .pending)) = true
    · have hp : s = .pending → again := by
        rintro rfl
        exact Classical.byContradiction fun hn => old hn hs
      have hw' : s = .required ∨ s = .pending := by simpa using hw
      have hc : acc.1.isCovered p = true ∨ acc.1.isCovered p = false := by
        cases acc.1.isCovered p <;> simp
      rcases hc with hc | hc
      · simp only [if_pos hw, if_pos hc]
        exact .single (.yield hs (hw'.imp_right fun he => ⟨hp he, he⟩) hc)
      · simp only [if_pos hw, hc, if_neg Bool.false_ne_true]
        exact .single (.send hs (hw'.imp_right fun he => Or.inr ⟨hp he, he⟩) hc online)
    · simp only [if_neg hw]
      exact .refl

theorem resumeOne_done {acc : Sending σ} {p : Path} :
    (resumeOne sink acc p).1.status? p ≠ some .required := by
  unfold resumeOne
  cases hs : acc.1.status? p with
  | none => simp [hs]
  | some s =>
    by_cases hw : (decide (s = .required) || decide (s = .pending)) = true
    · by_cases hc : acc.1.isCovered p = true
      · simp [hw, hc, status?_setStatus_self hs]
      · simp [hw, hc, status?_send_self sink acc p hs]
    · simp only [if_neg hw, hs]
      intro he
      cases he
      exact hw rfl

theorem status?_resumeOne_ne {acc : Sending σ} {p q : Path} (h : q ≠ p) :
    (resumeOne sink acc p).1.status? q = acc.1.status? q := by
  unfold resumeOne
  split
  · split
    · split
      · exact status?_setStatus_ne h
      · exact status?_send_ne sink acc p h
    · rfl
  · rfl

theorem resumeOne_online {acc : Sending σ} {p : Path} :
    (resumeOne sink acc p).1.online = acc.1.online := by
  unfold resumeOne
  split
  · split
    · split <;> rfl
    · rfl
  · rfl

end Loops

section Operations
variable (sink : Sink σ)

theorem acquire_opens (l : Listens) (w : σ) (p : Path) :
    ∃ mid rest, Opening sink (.acquire p) (l, w) mid rest
      ∧ l.acquire sink w p = rest.run sink mid := by
  unfold acquire
  cases hg : l.get? p with
  | some i =>
    have hc : l.items.contains p = true := OrderedMap.contains_iff.mpr ⟨i, hg⟩
    rw [if_pos hc]
    exact ⟨_, _, .hold ⟨i, hg⟩, rfl⟩
  | none =>
    have hc : l.items.contains p = false := OrderedMap.contains_eq_false_iff.mpr hg
    rw [hc, if_neg (by decide)]
    refine ⟨_, _, .add hg, ?_⟩
    have he : l.openFirst sink w p = if l.firstStatus p = .required && l.online
        then send sink (l.withNew p (l.firstStatus p), w) p
        else (l.withNew p (l.firstStatus p), w) := rfl
    rw [he]
    split <;> rfl

theorem release_opens (l : Listens) (w : σ) (p : Path) :
    ∃ mid rest, Opening sink (.release p) (l, w) mid rest
      ∧ l.release sink w p = rest.run sink mid := by
  unfold release
  cases hg : l.get? p with
  | none => exact ⟨_, _, .stray hg, rfl⟩
  | some i =>
    by_cases hmore : 1 < i.refCount
    · simp only [if_pos hmore]
      exact ⟨_, _, .drop hg hmore, rfl⟩
    · simp only [if_neg hmore, close]
      refine ⟨_, _, .close hg (Nat.le_of_not_lt hmore), ?_⟩
      cases i.status.covers <;> rfl

theorem answer_opens (l : Listens) (w : σ) (id : RequestId) (ok : Bool) :
    ∃ mid rest, Opening sink (.answer id ok) (l, w) mid rest
      ∧ l.answer sink w id ok = rest.run sink mid := by
  unfold answer
  cases ha : l.awaited.lookup id with
  | none => exact ⟨_, _, .unknown ha, rfl⟩
  | some p =>
    cases hg : l.get? p with
    | none =>
      refine ⟨_, _, .stale ha ?_, ?_⟩
      · simp [request?, hg]
      · simp only [get?_forget, hg]
        rfl
    | some i =>
      simp only [get?_forget, hg]
      by_cases hr : i.request = some id
      · have hstatus : l.status? p = some i.status := status?_of_get? hg
        have hrequest : l.request? p = some id := (request?_of_get? hg).trans hr
        rw [if_pos hr]
        cases hst : i.status with
        | pending =>
          rw [hst] at hstatus
          cases ok with
          | true => exact ⟨_, _, .accept ha hrequest hstatus, rfl⟩
          | false => exact ⟨_, _, .refuse ha hrequest hstatus, rfl⟩
        | masked =>
          rw [hst] at hstatus
          cases ok with
          | true => exact ⟨_, _, .late ha hrequest hstatus, rfl⟩
          | false => exact ⟨_, _, .lapse ha hrequest hstatus (by decide) (by simp), rfl⟩
        | required => exact ⟨_, _, .lapse ha hrequest (hst ▸ hstatus) (by decide) (by simp), rfl⟩
        | active => exact ⟨_, _, .lapse ha hrequest (hst ▸ hstatus) (by decide) (by simp), rfl⟩
        | failed => exact ⟨_, _, .lapse ha hrequest (hst ▸ hstatus) (by decide) (by simp), rfl⟩
      · rw [if_neg hr]
        refine ⟨_, _, .stale ha ?_, rfl⟩
        rw [request?_of_get? hg]
        exact hr

/-- Every operation is one opening and what that leaves to do. -/
theorem run_opens (a : Action) (acc : Sending σ) :
    ∃ mid rest, Opening sink a acc mid rest ∧ a.run sink acc = rest.run sink mid := by
  obtain ⟨l, w⟩ := acc
  cases a with
  | acquire p => exact acquire_opens sink l w p
  | release p => exact release_opens sink l w p
  | answer id ok => exact answer_opens sink l w id ok
  | suspend => exact ⟨_, _, .suspend, rfl⟩
  | resume => exact ⟨_, _, .resume, rfl⟩
  | clear => exact ⟨_, _, .clear, rfl⟩

end Operations

def Rest.Ready (l : Listens) : Rest → Prop
  | .send p => l.status? p = some .required ∧ l.isCovered p = false ∧ l.online = true
  | .mask p => l.status? p = some .active
  | .resume => l.online = true
  | _ => True

theorem Opening.sound {sink : Sink σ} {a : Action} {acc mid : Sending σ} {rest : Rest}
    (h : Opening sink a acc mid rest) (hs : acc.1.items.Sound) : mid.1.items.Sound := by
  cases h with
  | hold | drop => exact OrderedMap.Sound.modify hs _ _
  | add => exact OrderedMap.Sound.insert hs _ _
  | close => exact OrderedMap.Sound.erase hs _
  | stray | unknown | stale | resume => exact hs
  | accept | refuse => exact sound_setStatus (sound_setRequest hs _ _) _ _
  | late | lapse => exact sound_setRequest hs _ _
  | suspend => exact OrderedMap.Sound.mapValues hs _
  | clear => exact OrderedMap.sound_empty

theorem isCovered_withNew {l : Listens} (hs : l.items.Sound) {p : Path} (h : l.get? p = none)
    (s : ListenStatus) : (l.withNew p s).isCovered p = l.isCovered p := by
  apply Bool.eq_iff_iff.mpr
  rw [isCovered_iff, isCovered_iff]
  constructor <;> rintro ⟨q, t, hq, ht⟩ <;> refine ⟨q, t, hq, ?_⟩ <;>
    simpa [status?_withNew hs h, hq.ne] using ht

theorem Opening.ready {sink : Sink σ} {a : Action} {acc mid : Sending σ} {rest : Rest}
    (h : Opening sink a acc mid rest) (hs : acc.1.items.Sound) : rest.Ready mid.1 := by
  cases h with
  | @add l w p hnone =>
    split
    · rename_i hsend
      simp only [Bool.and_eq_true, decide_eq_true_eq] at hsend
      refine ⟨?_, ?_, hsend.2⟩
      · rw [status?_withNew hs hnone, if_pos rfl, hsend.1]
      · rw [isCovered_withNew hs hnone]
        cases hc : l.isCovered p with
        | false => rfl
        | true => simp [firstStatus, hc] at hsend
    · trivial
  | @close l w p i => cases i.status.covers <;> trivial
  | accept _ _ hp => exact status?_setStatus_self (by simpa using hp)
  | resume => exact rfl
  | _ => trivial

theorem Opening.rest_ne_resume {sink : Sink σ} {a : Action} {acc mid : Sending σ} {rest : Rest}
    (h : Opening sink a acc mid rest) (ha : a ≠ .resume) : rest ≠ .resume := by
  cases h with
  | add | close => split <;> exact nofun
  | resume => exact absurd rfl ha
  | _ => exact nofun

theorem Opening.online {sink : Sink σ} {a : Action} {acc mid : Sending σ} {rest : Rest}
    (h : Opening sink a acc mid rest) (hs : a ≠ .suspend) (hr : a ≠ .resume) :
    mid.1.online = acc.1.online := by
  cases h with
  | suspend => exact absurd rfl hs
  | resume => exact absurd rfl hr
  | _ => rfl

section Moves
variable (sink : Sink σ) (again : Prop)

theorem unmaskBelow_moves (acc : Sending σ) (p : Path) :
    ReflTransGen (Move sink again) acc (unmaskBelow sink acc p) :=
  foldl_visits (fun _ acc' => ReflTransGen (Move sink again) acc acc')
    (fun q _ acc' h => h.trans (unmaskOne_moves sink again acc' q).to_reflTransGen) _ acc .refl

theorem maskBelow_moves {acc : Sending σ} {p : Path} (hs : acc.1.items.Sound)
    (active : acc.1.status? p = some .active) :
    ReflTransGen (Move sink again) acc (maskBelow sink acc p) := by
  refine (foldl_visits (fun qs acc' => ReflTransGen (Move sink again) acc acc'
    ∧ (∀ q ∈ qs, p.Above q) ∧ acc'.1.status? p = some .active) ?_ _ acc
    ⟨.refl, fun q hq => ((mem_below hs).mp hq).1, active⟩).1
  rintro q qs acc' ⟨hm, hqs, ha⟩
  obtain ⟨hq, hqs⟩ := List.forall_mem_cons.mp hqs
  refine ⟨hm.trans (maskOne_moves sink again hq ha).to_reflTransGen, hqs, ?_⟩
  rw [status?_maskOne_ne sink hq.ne]
  exact ha

/-- Without repetition this needs that nothing is pending, as it is while offline. -/
theorem resume_moves {acc : Sending σ} (hs : acc.1.items.Sound) (online : acc.1.online = true)
    (old : ¬ again → ∀ p, acc.1.status? p ≠ some .pending) :
    ReflTransGen (Move sink again) acc (Rest.resume.run sink acc) := by
  refine (foldl_visits (fun ps acc' => ReflTransGen (Move sink again) acc acc' ∧ ps.Nodup
    ∧ acc'.1.online = true ∧ (¬ again → ∀ p ∈ ps, acc'.1.status? p ≠ some .pending)) ?_ _ acc
    ⟨.refl, OrderedMap.keys_nodup hs, online, fun hn p _ => old hn p⟩).1
  rintro p ps acc' ⟨hm, hnodup, honline, hold⟩
  obtain ⟨hp, hnodup⟩ := List.nodup_cons.mp hnodup
  have hone := resumeOne_moves sink again honline fun hn => hold hn p List.mem_cons_self
  refine ⟨hm.trans hone.to_reflTransGen, hnodup, (resumeOne_online sink).trans honline, ?_⟩
  intro hn q hq
  have hne : q ≠ p := ne_of_mem_of_not_mem hq hp
  rw [status?_resumeOne_ne sink hne]
  exact hold hn q (List.mem_cons_of_mem p hq)

theorem Rest.moves (rest : Rest) {acc : Sending σ} (hs : acc.1.items.Sound)
    (ready : rest.Ready acc.1)
    (old : rest = .resume → ¬ again → ∀ p, acc.1.status? p ≠ some .pending) :
    ReflTransGen (Move sink again) acc (rest.run sink acc) := by
  cases rest with
  | nothing => exact .refl
  | send p =>
    obtain ⟨hstatus, hfree, honline⟩ := ready
    exact .single (.send hstatus (Or.inl rfl) hfree honline)
  | unmask p => exact unmaskBelow_moves sink again acc p
  | mask p => exact maskBelow_moves sink again hs ready
  | resume => exact resume_moves sink again hs ready (old rfl)

end Moves

theorem Move.sound {sink : Sink σ} {again : Prop} {acc acc' : Sending σ}
    (h : Move sink again acc acc') (hs : acc.1.items.Sound) :
    acc'.1.items.Sound ∧ acc'.1.online = acc.1.online := by
  cases h with
  | send => exact ⟨sound_send sink _ _ hs, rfl⟩
  | need | mask | yield => exact ⟨sound_setStatus hs _ _, rfl⟩

theorem moves_sound {sink : Sink σ} {again : Prop} {acc acc' : Sending σ}
    (h : ReflTransGen (Move sink again) acc acc') (hs : acc.1.items.Sound) :
    acc'.1.items.Sound ∧ acc'.1.online = acc.1.online := by
  induction h with
  | refl => exact ⟨hs, rfl⟩
  | tail _ m ih =>
    obtain ⟨hs', ho⟩ := m.sound ih.1
    exact ⟨hs', ho.trans ih.2⟩

end LiveTree.Listens
