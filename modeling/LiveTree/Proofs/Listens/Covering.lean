import LiveTree.Proofs.Listens.Moves

/-!
# What covers what

`Covering` is the invariant of the statuses. It takes three lists of paths for which a loop has
still to do its work: masked paths that nothing covers any more, paths below an active one that are
not masked yet, and paths whose listen is not sent yet. Every move keeps it, and every visit of a
loop takes one path off a list, so between operations all three lists are empty.

The requests are left out here, so nothing is asked of the sink.
-/

namespace LiveTree

namespace Listens

open Relation

variable {σ : Type}

/-- What is masked is covered, what is active covers only what is masked or refused, and what has no
listen on the wire is offline; up to the paths that a loop has still to visit. -/
structure Covering (orphans rivals unsent : List Path) (l : Listens) : Prop where
  sound : l.items.Sound
  masked : ∀ p, l.status? p = some .masked → p ∈ orphans ∨ l.isCovered p = true
  active : ∀ p q s, p.Above q → l.status? p = some .active → l.status? q = some s →
    s.covers = true → q ∈ rivals
  online : l.online = true → ∀ p, l.status? p = some .required → p ∈ unsent
  offline : l.online = false → ∀ p s, l.status? p = some s → s.onWire = false

theorem covering_of_none {l : Listens} (sound : l.items.Sound) (h : ∀ p, l.status? p = none) :
    Covering [] [] [] l where
  sound := sound
  masked p hp := by simp [h] at hp
  active p q s _ hp := by simp [h] at hp
  online _ p hp := by simp [h] at hp
  offline _ p s hp := by simp [h] at hp

section Change
variable {orphans rivals unsent : List Path} {l l' : Listens} {p : Path}

/-- A change of one path uncovers nothing if the path still covers, or is covered itself. -/
theorem isCovered_of_change (frame : ∀ q, q ≠ p → l'.status? q = l.status? q)
    (kept : l.coversBelow p = true → l'.coversBelow p = true ∨ l.isCovered p = true) {q : Path}
    (h : l.isCovered q = true) : l'.isCovered q = true := by
  obtain ⟨a, s, haq, hs, hc⟩ := isCovered_iff.mp h
  by_cases hap : a = p
  · subst hap
    rcases kept (coversBelow_iff.mpr ⟨s, hs, hc⟩) with hk | hk
    · obtain ⟨t, ht, htc⟩ := coversBelow_iff.mp hk
      exact isCovered_iff.mpr ⟨a, t, haq, ht, htc⟩
    · obtain ⟨b, t, hba, ht, htc⟩ := isCovered_iff.mp hk
      exact isCovered_iff.mpr ⟨b, t, hba.trans haq, (frame b hba.ne).trans ht, htc⟩
  · exact isCovered_iff.mpr ⟨a, s, haq, (frame a hap).trans hs, hc⟩

theorem isCovered_frame (frame : ∀ q, q ≠ p → l'.status? q = l.status? q) :
    l'.isCovered p = l.isCovered p := by
  apply Bool.eq_iff_iff.mpr
  rw [isCovered_iff, isCovered_iff]
  constructor <;> rintro ⟨q, s, hq, hs, hc⟩ <;> refine ⟨q, s, hq, ?_, hc⟩ <;>
    simpa [frame q hq.ne] using hs

/-- A path may take a new status that covers exactly if nothing covers the path. -/
theorem Covering.change (h : Covering orphans rivals unsent l) (sound : l'.items.Sound)
    (same : l'.online = l.online) (frame : ∀ q, q ≠ p → l'.status? q = l.status? q)
    {s : ListenStatus} (new : l'.status? p = some s) (fits : s.covers = !l.isCovered p)
    (inactive : s ≠ .active) (sent : l.online = true → s = .required → p ∈ unsent)
    (unsent' : l.online = false → s.onWire = false) : Covering orphans rivals unsent l' where
  sound := sound
  masked q hq := by
    have kept : l.coversBelow p = true → l'.coversBelow p = true ∨ l.isCovered p = true := by
      intro _
      cases hc : l.isCovered p with
      | true => exact Or.inr rfl
      | false => exact Or.inl (coversBelow_iff.mpr ⟨s, new, by simp [fits, hc]⟩)
    by_cases hqp : q = p
    · subst hqp
      rw [new] at hq
      cases hq
      have hc : l.isCovered q = true := by
        cases hc : l.isCovered q with
        | true => rfl
        | false => simp [hc, ListenStatus.covers] at fits
      exact Or.inr ((isCovered_frame frame).trans hc)
    · rw [frame q hqp] at hq
      exact (h.masked q hq).imp_right (isCovered_of_change frame kept)
  active a q t haq ha hq ht := by
    have hap : a ≠ p := by
      rintro rfl
      rw [new] at ha
      exact inactive (Option.some.inj ha)
    rw [frame a hap] at ha
    by_cases hqp : q = p
    · subst hqp
      rw [new] at hq
      cases hq
      have hc : l.isCovered q = true := isCovered_iff.mpr ⟨a, .active, haq, ha, rfl⟩
      simp [hc, ht] at fits
    · rw [frame q hqp] at hq
      exact h.active a q t haq ha hq ht
  online ho q hq := by
    rw [same] at ho
    by_cases hqp : q = p
    · subst hqp
      rw [new] at hq
      exact sent ho (Option.some.inj hq)
    · rw [frame q hqp] at hq
      exact h.online ho q hq
  offline ho q t hq := by
    rw [same] at ho
    by_cases hqp : q = p
    · subst hqp
      rw [new] at hq
      cases hq
      exact unsent' ho
    · rw [frame q hqp] at hq
      exact h.offline ho q t hq

theorem Covering.congr (h : Covering orphans rivals unsent l) (sound : l'.items.Sound)
    (same : l'.online = l.online) (hs : ∀ q, l'.status? q = l.status? q) :
    Covering orphans rivals unsent l' where
  sound := sound
  masked p hp := by
    rw [hs] at hp
    apply (h.masked p hp).imp_right
    intro hc
    exact isCovered_of_change (fun q (_ : q ≠ p) => hs q)
      (fun hk => Or.inl (by simpa [coversBelow, hs] using hk)) hc
  active p q s hpq hp hq := by
    rw [hs] at hp hq
    exact h.active p q s hpq hp hq
  online ho p hp := by
    rw [hs] at hp
    exact h.online (same ▸ ho) p hp
  offline ho p s hp := by
    rw [hs] at hp
    exact h.offline (same ▸ ho) p s hp

theorem Covering.visit_orphan (h : Covering (p :: orphans) rivals unsent l)
    (done : l.status? p = some .masked → l.isCovered p = true) :
    Covering orphans rivals unsent l := by
  refine { h with masked := ?_ }
  intro q hq
  rcases h.masked q hq with hm | hc
  · rcases List.mem_cons.mp hm with rfl | hm
    · exact Or.inr (done hq)
    · exact Or.inl hm
  · exact Or.inr hc

theorem Covering.visit_rival (h : Covering orphans (p :: rivals) unsent l)
    (done : ∀ s, l.status? p = some s → s.covers = false) :
    Covering orphans rivals unsent l := by
  refine { h with active := ?_ }
  intro a q s haq ha hq hs
  rcases List.mem_cons.mp (h.active a q s haq ha hq hs) with rfl | hm
  · simp [done s hq] at hs
  · exact hm

theorem Covering.visit_unsent (h : Covering orphans rivals (p :: unsent) l)
    (done : l.status? p ≠ some .required) : Covering orphans rivals unsent l := by
  refine { h with online := ?_ }
  intro ho q hq
  rcases List.mem_cons.mp (h.online ho q hq) with rfl | hm
  · exact absurd hq done
  · exact hm

end Change

section Moves
variable {sink : Sink σ} {again : Prop} {acc acc' : Sending σ}
  {orphans rivals unsent : List Path}

theorem Move.covering (m : Move sink again acc acc')
    (h : Covering orphans rivals unsent acc.1) : Covering orphans rivals unsent acc'.1 := by
  obtain ⟨sound, same⟩ := m.sound h.sound
  cases m with
  | send status want free online =>
    exact h.change sound same (fun q => status?_send_ne sink _ _)
      (status?_send_self sink _ _ status) (by simp [free, ListenStatus.covers]) (by decide)
      (fun _ he => by cases he) (fun ho => by simp [online] at ho)
  | need status free offline =>
    exact h.change sound same (fun q => status?_setStatus_ne)
      (status?_setStatus_self status) (by simp [free, ListenStatus.covers]) (by decide)
      (fun ho => by simp [offline] at ho) (fun _ => rfl)
  | @mask l w q p s above active status covers =>
    have hc : l.isCovered p = true := isCovered_iff.mpr ⟨q, .active, above, active, rfl⟩
    exact h.change sound same (fun q => status?_setStatus_ne)
      (status?_setStatus_self status) (by simp [hc, ListenStatus.covers]) (by decide)
      (fun _ he => by cases he) (fun _ => rfl)
  | yield status want covered =>
    exact h.change sound same (fun q => status?_setStatus_ne)
      (status?_setStatus_self status) (by simp [covered, ListenStatus.covers]) (by decide)
      (fun _ he => by cases he) (fun _ => rfl)

theorem covering_of_reflGen (m : ReflGen (Move sink again) acc acc')
    (h : Covering orphans rivals unsent acc.1) : Covering orphans rivals unsent acc'.1 := by
  cases m with
  | refl => exact h
  | single m => exact m.covering h

end Moves

/-- What the rest of an operation has still to visit. -/
def Rest.Covering (l : Listens) : Rest → Prop
  | .nothing => Listens.Covering [] [] [] l
  | .send p => Listens.Covering [] [] [p] l
  | .unmask p => Listens.Covering (l.below p) [] [] l
  | .mask p => Listens.Covering [] (l.below p) [] l
  | .resume => Listens.Covering [] [] l.items.keys l

section Operations
variable {sink : Sink σ} {acc mid : Sending σ} {rest : Rest} {l l' : Listens} {p : Path}

theorem Covering.weaken (h : Listens.Covering [] [] [] l) (orphans rivals unsent : List Path) :
    Listens.Covering orphans rivals unsent l where
  sound := h.sound
  masked q hq := (h.masked q hq).imp_left fun hm => nomatch hm
  active a q s haq ha hq hs := nomatch h.active a q s haq ha hq hs
  online ho q hq := nomatch h.online ho q hq
  offline := h.offline

theorem Covering.withNew (h : Listens.Covering [] [] [] l) (hp : l.get? p = none) :
    (if l.firstStatus p = .required && l.online then Rest.send p else .nothing).Covering
      (l.withNew p (l.firstStatus p)) := by
  have sound : (l.withNew p (l.firstStatus p)).items.Sound := h.sound.insert p _
  have frame : ∀ q, q ≠ p → (l.withNew p (l.firstStatus p)).status? q = l.status? q :=
    fun q hq => (frame_withNew h.sound hp _ hq).2
  have new := status?_withNew_self h.sound hp (l.firstStatus p)
  have fits : (l.firstStatus p).covers = !l.isCovered p := by
    cases hc : l.isCovered p <;> simp [firstStatus, hc, ListenStatus.covers]
  have inactive : l.firstStatus p ≠ .active := l.firstStatus_ne p rfl
  have off : l.online = false → (l.firstStatus p).onWire = false :=
    fun _ => l.firstStatus_onWire p
  split
  · exact (h.weaken [] [] [p]).change sound rfl frame new fits inactive
      (fun _ _ => List.mem_singleton_self p) off
  · rename_i hn
    refine h.change sound rfl frame new fits inactive (fun ho hs => absurd ?_ hn) off
    simp [hs, ho]

theorem Covering.remove (h : Listens.Covering [] [] [] l) {i : Listen} (hi : l.get? p = some i) :
    (if i.status.covers then Rest.unmask p else .nothing).Covering (l.remove p) := by
  have hstatus : l.status? p = some i.status := status?_of_get? hi
  have sound : (l.remove p).items.Sound := h.sound.erase p
  have old : ∀ q s, (l.remove p).status? q = some s → q ≠ p ∧ l.status? q = some s := by
    intro q s hq
    rw [status?_remove h.sound] at hq
    split at hq
    · cases hq
    · exact ⟨‹_›, hq⟩
  have main : Listens.Covering (if i.status.covers then (l.remove p).below p else []) [] []
      (l.remove p) := by
    refine ⟨sound, ?_, ?_, ?_, ?_⟩
    · intro q hq
      obtain ⟨hne, hq'⟩ := old q _ hq
      obtain ⟨a, s, haq, ha, hs⟩ :=
        isCovered_iff.mp ((h.masked q hq').resolve_left List.not_mem_nil)
      by_cases hap : a = p
      · subst hap
        rw [hstatus] at ha
        cases ha
        rw [if_pos hs]
        obtain ⟨j, hj, _⟩ := status?_eq_some.mp hq
        exact Or.inl ((mem_below sound).mpr ⟨haq, j, hj⟩)
      · refine Or.inr (isCovered_iff.mpr ⟨a, s, haq, ?_, hs⟩)
        rw [status?_remove h.sound, if_neg hap]
        exact ha
    · intro a q s haq ha hq hs
      exact h.active a q s haq (old a _ ha).2 (old q s hq).2 hs
    · intro ho q hq
      exact h.online ho q (old q _ hq).2
    · intro ho q s hq
      exact h.offline ho q s (old q s hq).2
  cases hc : i.status.covers <;> simpa [hc, Rest.Covering] using main

theorem Covering.accept (h : Listens.Covering [] [] [] l) (pending : l.status? p = some .pending) :
    Listens.Covering [] ((l.setStatus p .active).below p) [] (l.setStatus p .active) := by
  have sound := sound_setStatus h.sound p .active
  have new : (l.setStatus p .active).status? p = some .active := status?_setStatus_self pending
  have frame : ∀ q, q ≠ p → (l.setStatus p .active).status? q = l.status? q :=
    fun q => status?_setStatus_ne
  refine ⟨sound, ?_, ?_, ?_, ?_⟩
  · intro q hq
    by_cases hqp : q = p
    · subst hqp
      rw [new] at hq
      cases hq
    · rw [frame q hqp] at hq
      exact (h.masked q hq).imp_right
        (isCovered_of_change frame fun _ => Or.inl (coversBelow_iff.mpr ⟨_, new, rfl⟩))
  · intro a q s haq ha hq hs
    by_cases hap : a = p
    · subst hap
      obtain ⟨j, hj, _⟩ := status?_eq_some.mp hq
      exact (mem_below sound).mpr ⟨haq, j, hj⟩
    · rw [frame a hap] at ha
      by_cases hqp : q = p
      · subst hqp
        exact absurd (h.active a q _ haq ha pending rfl) List.not_mem_nil
      · rw [frame q hqp] at hq
        exact absurd (h.active a q s haq ha hq hs) List.not_mem_nil
  · intro ho q hq
    by_cases hqp : q = p
    · subst hqp
      rw [new] at hq
      cases hq
    · rw [frame q hqp] at hq
      exact h.online ho q hq
  · intro ho q s hq
    have := h.offline ho p _ pending
    cases this

theorem Covering.refuse (h : Listens.Covering [] [] [] l) (pending : l.status? p = some .pending) :
    Listens.Covering ((l.setStatus p .failed).below p) [] [] (l.setStatus p .failed) := by
  have sound := sound_setStatus h.sound p .failed
  have new : (l.setStatus p .failed).status? p = some .failed := status?_setStatus_self pending
  have old : ∀ q s, (l.setStatus p .failed).status? q = some s → s ≠ .failed →
      q ≠ p ∧ l.status? q = some s := by
    intro q s hq hs
    by_cases hqp : q = p
    · subst hqp
      rw [new] at hq
      exact absurd (Option.some.inj hq).symm hs
    · rw [status?_setStatus_ne hqp] at hq
      exact ⟨hqp, hq⟩
  refine ⟨sound, ?_, ?_, ?_, ?_⟩
  · intro q hq
    obtain ⟨hqp, hq'⟩ := old q _ hq (by decide)
    obtain ⟨a, s, haq, ha, hs⟩ :=
      isCovered_iff.mp ((h.masked q hq').resolve_left List.not_mem_nil)
    by_cases hap : a = p
    · subst hap
      obtain ⟨j, hj, _⟩ := status?_eq_some.mp hq
      exact Or.inl ((mem_below sound).mpr ⟨haq, j, hj⟩)
    · refine Or.inr (isCovered_iff.mpr ⟨a, s, haq, ?_, hs⟩)
      rw [status?_setStatus_ne hap]
      exact ha
  · intro a q s haq ha hq hs
    have hsf : s ≠ .failed := by
      rintro rfl
      cases hs
    exact h.active a q s haq (old a _ ha (by decide)).2 (old q s hq hsf).2 hs
  · intro ho q hq
    exact h.online ho q (old q _ hq (by decide)).2
  · intro ho q s hq
    have := h.offline ho p _ pending
    cases this

theorem covers_lost (s : ListenStatus) :
    (if s.onWire then ListenStatus.required else s).covers = s.covers := by
  cases s <;> rfl

theorem Covering.suspend (h : Listens.Covering [] [] [] l) :
    Listens.Covering [] [] [] l.suspend := by
  have old : ∀ q s, l.suspend.status? q = some s → ∃ t, l.status? q = some t
      ∧ s = if t.onWire then .required else t := by
    intro q s hq
    rw [status?_suspend, Option.map_eq_some_iff] at hq
    obtain ⟨t, ht, rfl⟩ := hq
    exact ⟨t, ht, rfl⟩
  have off : ∀ q s, l.suspend.status? q = some s → s.onWire = false := by
    intro q s hq
    obtain ⟨t, _, rfl⟩ := old q s hq
    cases t <;> rfl
  refine ⟨h.sound.mapValues _, ?_, ?_, nofun, fun _ => off⟩
  · intro q hq
    obtain ⟨t, ht, he⟩ := old q _ hq
    have hm : t = .masked := by
      cases t <;> first | rfl | cases he
    subst hm
    obtain ⟨a, s, haq, ha, hs⟩ :=
      isCovered_iff.mp ((h.masked q ht).resolve_left List.not_mem_nil)
    refine Or.inr (isCovered_iff.mpr ⟨a, _, haq, ?_, (covers_lost s).trans hs⟩)
    rw [status?_suspend, ha]
    rfl
  · intro a q s _ ha
    have := off a _ ha
    cases this

theorem Covering.goOnline (h : Listens.Covering [] [] [] l) :
    Listens.Covering [] [] l.items.keys { l with online := true } where
  sound := h.sound
  masked := h.masked
  active := h.active
  online _ q hq := by
    obtain ⟨i, hi, _⟩ := status?_eq_some.mp hq
    exact (mem_keys_iff h.sound).mpr ⟨i, hi⟩
  offline := nofun

theorem Opening.covering {a : Action} (o : Opening sink a acc mid rest)
    (h : Listens.Covering [] [] [] acc.1) : rest.Covering mid.1 := by
  have sound := o.sound h.sound
  cases o with
  | @hold _ _ p => exact h.congr sound rfl fun q => status?_count _ p q (· + 1)
  | add hp => exact h.withNew hp
  | stray | unknown => exact h
  | @drop _ _ p => exact h.congr sound rfl fun q => status?_count _ p q (· - 1)
  | close hi => exact h.remove hi
  | stale => exact h.congr sound rfl fun q => rfl
  | @accept l _ id p _ _ hp =>
    have hq : Listens.Covering [] [] [] ((l.forget id).setRequest p none) :=
      h.congr (sound_setRequest h.sound p none) rfl fun q => by simp
    exact hq.accept (by simpa using hp)
  | @refuse l _ id p _ _ hp =>
    have hq : Listens.Covering [] [] [] ((l.forget id).setRequest p none) :=
      h.congr (sound_setRequest h.sound p none) rfl fun q => by simp
    exact hq.refuse (by simpa using hp)
  | late | lapse => exact h.congr sound rfl fun q => by simp
  | suspend => exact h.suspend
  | resume => exact h.goOnline
  | clear => exact covering_of_none sound fun q => rfl

theorem Rest.covering (h : rest.Covering acc.1) (ready : rest.Ready acc.1) :
    Listens.Covering [] [] [] (rest.run sink acc).1 := by
  cases rest with
  | nothing => exact h
  | send p =>
    obtain ⟨hstatus, hfree, honline⟩ := ready
    have hm : Move sink True acc (Listens.send sink acc p) :=
      .send hstatus (Or.inl rfl) hfree honline
    apply (hm.covering h).visit_unsent
    rw [status?_send_self sink acc p hstatus]
    decide
  | unmask p =>
    refine foldl_visits (fun qs (acc' : Sending σ) => Listens.Covering qs [] [] acc'.1) ?_ _ acc h
    intro q qs acc' hq
    exact (covering_of_reflGen (unmaskOne_moves sink True acc' q) hq).visit_orphan
      (unmaskOne_done sink)
  | mask p =>
    refine (foldl_visits (fun qs (acc' : Sending σ) => Listens.Covering [] qs [] acc'.1
      ∧ (∀ q ∈ qs, p.Above q) ∧ acc'.1.status? p = some .active) ?_ _ acc
      ⟨h, fun q hq => ((mem_below h.sound).mp hq).1, ready⟩).1
    rintro q qs acc' ⟨hq, hqs, ha⟩
    obtain ⟨hpq, hqs⟩ := List.forall_mem_cons.mp hqs
    refine ⟨(covering_of_reflGen (maskOne_moves sink True hpq ha) hq).visit_rival
      (fun s => maskOne_done sink), hqs, ?_⟩
    rw [status?_maskOne_ne sink hpq.ne]
    exact ha
  | resume =>
    refine (foldl_visits (fun qs (acc' : Sending σ) => Listens.Covering [] [] qs acc'.1
      ∧ acc'.1.online = true) ?_ _ acc ⟨h, ready⟩).1
    rintro q qs acc' ⟨hq, ho⟩
    have hm := @resumeOne_moves _ sink True acc' q ho fun hn => absurd trivial hn
    exact ⟨(covering_of_reflGen hm hq).visit_unsent (resumeOne_done sink),
      (resumeOne_online sink).trans ho⟩

theorem Action.covering (sink : Sink σ) (a : Action) (h : Listens.Covering [] [] [] acc.1) :
    Listens.Covering [] [] [] (a.run sink acc).1 := by
  obtain ⟨mid, rest, ho, he⟩ := run_opens sink a acc
  rw [he]
  exact Rest.covering (ho.covering h) (ho.ready h.sound)

end Operations

end Listens

end LiveTree
