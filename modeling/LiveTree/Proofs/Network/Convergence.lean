import LiveTree.Proofs.Network.Mirror
import LiveTree.Proofs.Session.Calls

/-!
# The session shows what the server holds

After any turns whose changes are clear, a quiet state shows at every subscription that was not
refused what the server holds there. A change that is not clear takes the session out of step, and a
run with one is given that ends in a quiet state with different data.
-/

namespace LiveTree

open Listens

namespace Session

theorem cache_receive (s : Session) (m : Message) : (s.receive m).cache = s.cache.hear m := by
  cases m with
  | handshake time => exact cache_of_shown (s.shown_handshake time)
  | update kind p v => cases kind <;> rfl
  | response id status data => exact cache_of_shown (s.shown_response id status data)
  | closed recoverable retryAfter => exact cache_of_shown (s.shown_lose recoverable retryAfter)

theorem cache_unwatch (s : Session) (handle : Nat) : (s.unwatch handle).1.cache = s.cache := by
  unfold unwatch
  split <;> rfl

theorem tidy_restore {s : Session} (h : s.cache.Tidy) (snapshot : Bytes) :
    (s.restore snapshot).1.cache.Tidy := by
  unfold restore
  split
  · exact h
  · rename_i hc
    exact Cache.tidy_ofSnapshot hc

end Session

namespace Network

variable {x y : Network}

theorem InStep.keep (h : InStep x) (cache : y.session.cache = x.session.cache)
    (inbox : y.inbox = x.inbox) (data : y.server.data = x.server.data)
    (listens : y.server.listens = x.server.listens) : InStep y := by
  intro q hq
  have ahead : y.ahead = x.ahead := by rw [Network.ahead, Network.ahead, cache, inbox]
  rw [ahead, data]
  rw [Server.isListening, listens] at hq
  exact h q hq

theorem inStep_of_empty (h : x.server.listens = OrderedMap.empty) : InStep x := by
  intro q hq
  rw [Server.isListening, h] at hq
  cases hq

theorem ahead_deliver (x : Network) : x.deliver.ahead = x.ahead := by
  unfold deliver ahead
  split
  · rfl
  · rename_i m rest hi
    rw [hi, List.foldl_cons, Session.cache_receive]

theorem ahead_append (s : Session) (server : Server) (inbox replies : List Message) :
    (Network.mk s server (inbox ++ replies)).ahead
      = replies.foldl Cache.hear (Network.mk s server inbox).ahead := by
  simp only [ahead, List.foldl_append]

theorem clear_of_unchanged {t : Turn} (h : x.changes? t = none) : Clear x t := by
  intro p hp
  rw [h] at hp
  cases hp

theorem clear_iff {t : Turn} {p : Path} (h : x.changes? t = some p) :
    Clear x t ↔ (x.run t).server.Clear p := by
  constructor
  · intro hc
    exact hc p h
  · intro hc q hq
    obtain rfl := Option.some.inj (h.symm.trans hq)
    exact hc

/-- A listen that is taken finds nothing above it, so its put wipes out no leaf. -/
theorem inStep_listen {s : Server} {c : Cache} {p : Path} (sound : s.listens.Sound)
    (hc : c.Tidy) (hd : s.data.Tidy)
    (before : ∀ q, s.isListening q = true → c.valueAt q = s.data.valueAt q)
    (free : ∀ q, q.Above p → s.isListening q = false) (q : Path)
    (hq : (s.listens.insert p ()).contains q = true) :
    (c.take .put p (s.data.valueAt p)).valueAt q = s.data.valueAt q := by
  have there : q = p ∨ s.isListening q = true := by
    rw [Server.contains_insert sound, Bool.or_eq_true, beq_iff_eq] at hq
    exact hq
  have start : q ∈ [p] ∨ c.valueAt q = s.data.valueAt q :=
    there.imp (fun he => List.mem_singleton.mpr he) (before q)
  apply (Cache.valueAt_copy_iff hc hd (List.pairwise_singleton _ p) start).mpr
  intro l hl m hqm hml
  obtain rfl := List.mem_singleton.mp hl
  exfalso
  have above : q.Above l := by
    rcases Path.isPrefix_iff_eq_or_above.mp hqm with rfl | h
    · exact hml
    · exact h.trans hml
  rcases there with rfl | on
  · exact Path.not_above_self _ above
  · rw [free q above] at on
    cases on

/-- A copy that is in step before a request is so after the replies, unless a write is not clear. -/
theorem inStep_served_iff {s : Server} {r : Request} {after : Server × List Message} {c : Cache}
    (served : s.Served r after) (sound : s.listens.Sound) (hc : c.Tidy) (hd : s.data.Tidy)
    (before : ∀ q, s.isListening q = true → c.valueAt q = s.data.valueAt q)
    (free : r.action = .listen → ∀ q, q.Above r.place → s.isListening q = false) :
    (∀ q, after.1.isListening q = true →
        (after.2.foldl Cache.hear c).valueAt q = after.1.data.valueAt q)
      ↔ (r.action.isWrite = true → s.refuses r.place = false → after.1.Clear r.place) := by
  cases served with
  | denied status answered cause =>
    apply iff_of_true before
    intro write open'
    rcases cause with action | refused
    · rw [action] at write
      cases write
    · rw [open'] at refused
      cases refused
  | listened action =>
    apply iff_of_true (inStep_listen sound hc hd before (free action))
    intro write
    rw [action] at write
    cases write
  | unlistened action =>
    refine iff_of_true (fun q hq => before q ?_) ?_
    · change (s.listens.erase r.place).contains q = true at hq
      rw [Server.contains_erase sound, Bool.and_eq_true] at hq
      exact hq.2
    · intro write
      rw [action] at write
      cases write
  | changed kind v action open' =>
    have write : r.action.isWrite = true := by
      rw [action]
      cases kind <;> rfl
    have main := @inStep_fanOut_iff { s.counted with data := s.data.take kind r.place v } c s.data
      kind r.place v sound hc hd rfl before
    constructor
    · intro same _ _
      apply main.mp
      intro q hq
      have := same q hq
      rw [List.foldl_append] at this
      exact this
    · intro clear q hq
      rw [List.foldl_append]
      exact main.mpr (clear write open') q hq
  | welcomed action | kept action =>
    apply iff_of_true before
    intro write
    rw [action] at write
    cases write

theorem clear_serve_iff {r : Request} {rest : List Request}
    (hs : x.session.link.sent = r :: rest) : Clear x .serve ↔ (r.action.isWrite = true →
      x.server.refuses r.place = false → (x.server.process r).1.Clear r.place) := by
  have server : x.serve.server = (x.server.process r).1 := by
    unfold serve
    rw [hs]
  have place : x.changes? .serve
      = if r.action.isWrite && !x.server.refuses r.place then some r.place else none := by
    rw [changes?, hs]
    rfl
  unfold Clear
  change (∀ p, x.changes? .serve = some p → x.serve.server.Clear p) ↔ _
  rw [place, server]
  cases r.action.isWrite <;> cases x.server.refuses r.place <;> simp

theorem inStep_serve_iff (joint : Joint x) (tidy : Tidy x) (h : InStep x) :
    InStep x.serve ↔ Clear x .serve := by
  cases hs : x.session.link.sent with
  | nil =>
    have same : x.serve = x := by
      unfold serve
      rw [hs]
    rw [same]
    refine iff_of_true h (clear_of_unchanged ?_)
    simp [changes?, hs]
  | cons r rest =>
    have step : x.serve = ⟨unsent x.session rest, (x.server.process r).1,
        x.inbox ++ (x.server.process r).2⟩ := by
      unfold serve
      rw [hs]
    have free : r.action = .listen → ∀ q, q.Above r.place → x.server.isListening q = false :=
      fun action q hq => (joint.up (joint.phase_of_sent hs)).free [] r rest hs action q hq
    rw [clear_serve_iff hs, step, InStep, ahead_append]
    exact inStep_served_iff (x.server.process_served r) joint.sound tidy.ahead tidy.data h free

theorem inStep_setValue_iff (joint : Joint x) (tidy : Tidy x) (h : InStep x) (p : Path)
    (v : Value) : InStep (x.run (.setValue p v)) ↔ Clear x (.setValue p v) := by
  have main := @inStep_fanOut_iff { x.server with data := x.server.data.take .put p v } x.ahead
    x.server.data .put p v joint.sound tidy.ahead tidy.data rfl h
  rw [clear_iff rfl, InStep, run, ahead_append]
  exact main

/-- A turn that is allowed leaves a session in step that is so, unless it is not clear. -/
theorem inStep_run_iff (joint : Joint x) (tidy : Tidy x) (h : InStep x) {t : Turn}
    (allowed : Admits x t) : InStep (x.run t) ↔ Clear x t := by
  have unchanged : ∀ {t : Turn}, x.changes? t = none → InStep (x.run t) →
      (InStep (x.run t) ↔ Clear x t) :=
    fun hc hs => iff_of_true hs (clear_of_unchanged hc)
  have offline : x.session.isConnected = false → x.server.listens = OrderedMap.empty := by
    intro hp
    refine (joint.down ?_).listens
    intro hc
    rw [Session.isConnected, hc] at hp
    cases hp
  cases t with
  | watch p kind => exact unchanged rfl (h.keep rfl rfl rfl rfl)
  | unwatch handle => exact unchanged rfl (h.keep (x.session.cache_unwatch _) rfl rfl rfl)
  | write p v observed | merge p v observed =>
    refine unchanged rfl (h.keep ?_ rfl rfl rfl)
    exact Session.cache_of_shown (x.session.shown_submit _ observed)
  | push p v observed =>
    refine unchanged rfl (h.keep ?_ rfl rfl rfl)
    exact Session.cache_of_shown (x.session.shown_push p v observed)
  | restore snapshot => exact unchanged rfl (inStep_of_empty (offline allowed))
  | teardown => exact unchanged rfl (inStep_of_empty (offline allowed))
  | connect =>
    exact unchanged rfl (h.keep (Session.cache_of_shown x.session.shown_connect) rfl rfl rfl)
  | tick => exact unchanged rfl (h.keep (Session.cache_of_shown x.session.shown_tick) rfl rfl rfl)
  | pass t => exact unchanged rfl (h.keep rfl rfl rfl rfl)
  | greet =>
    apply unchanged rfl
    intro q hq
    have ahead : (x.run .greet).ahead = x.ahead := ahead_append _ _ _ _
    rw [ahead]
    exact h q hq
  | serve => exact inStep_serve_iff joint tidy h
  | deliver =>
    apply unchanged rfl
    intro q hq
    have server : x.deliver.server = x.server := by
      unfold Network.deliver
      split <;> rfl
    change x.deliver.ahead.valueAt q = x.deliver.server.data.valueAt q
    change x.deliver.server.isListening q = true at hq
    rw [server] at hq ⊢
    rw [ahead_deliver]
    exact h q hq
  | setValue p v => exact inStep_setValue_iff joint tidy h p v
  | refuse p => exact unchanged rfl (h.keep rfl rfl rfl rfl)
  | drop recoverable => exact unchanged rfl (inStep_of_empty rfl)

theorem Tidy.serve (h : Tidy x) : Tidy x.serve := by
  unfold Network.serve
  split
  · exact h
  · rename_i r rest hs
    exact ⟨h.cache, (x.server.process_served r).tidy h.data⟩

theorem Tidy.run (h : Tidy x) (t : Turn) : Tidy (x.run t) := by
  have kept : ∀ {s : Session}, s.cache = x.session.cache → Tidy { x with session := s } :=
    fun hs => ⟨by rw [hs]; exact h.cache, h.data⟩
  cases t with
  | watch p kind => exact kept rfl
  | unwatch handle => exact kept (x.session.cache_unwatch _)
  | write p v observed | merge p v observed =>
    exact kept (Session.cache_of_shown (x.session.shown_submit _ _))
  | push p v observed => exact kept (Session.cache_of_shown (x.session.shown_push _ _ _))
  | restore snapshot => exact ⟨Session.tidy_restore h.cache snapshot, h.data⟩
  | teardown => exact ⟨Cache.tidy_empty, h.data⟩
  | connect => exact kept (Session.cache_of_shown x.session.shown_connect)
  | tick => exact kept (Session.cache_of_shown x.session.shown_tick)
  | pass t => exact kept rfl
  | greet => exact ⟨h.cache, h.data⟩
  | serve => exact h.serve
  | deliver =>
    change Tidy x.deliver
    unfold Network.deliver
    split
    · exact h
    · rename_i m rest hi
      refine ⟨?_, h.data⟩
      rw [Session.cache_receive]
      exact h.cache.hear m
  | setValue p v => exact ⟨h.cache, h.data.take .put p v⟩
  | refuse p => exact ⟨h.cache, h.data⟩
  | drop recoverable =>
    refine ⟨?_, h.data⟩
    have same := Session.cache_of_shown ((unsent x.session []).shown_lose recoverable none)
    exact same.symm ▸ h.cache

def AdmitsClear (x : Network) (t : Turn) : Prop := Admits x t ∧ Clear x t

theorem ReachableBy.tidy {allowed : Network → Turn → Prop} (h : ReachableBy allowed x) :
    Tidy x := by
  induction h with
  | start => exact ⟨Cache.tidy_empty, Cache.tidy_empty⟩
  | run t _ _ ih => exact ih.run t

theorem ReachableBy.inStep (h : ReachableBy AdmitsClear x) : InStep x := by
  induction h with
  | start => exact inStep_of_empty rfl
  | @run x t ht hx ih =>
    exact (inStep_run_iff (hx.joint fun _ _ ha => ha.1) hx.tidy ih ht.1).mpr ht.2

theorem InStep.converged (h : InStep x) (joint : Joint x) (tidy : Tidy x) (q : Quiet x)
    {handle : Nat} {p : Path} (mem : (handle, p) ∈ x.session.subscriptions.handles)
    (accepted : x.session.listens.status? p ≠ some .failed) :
    x.session.cache.valueAt p = x.server.data.valueAt p := by
  have ahead : x.ahead = x.session.cache := by rw [Network.ahead, q.inbox]; rfl
  have shown : ∀ a, x.session.listens.status? a = some .active →
      x.session.cache.valueAt a = x.server.data.valueAt a := by
    intro a ha
    rw [← ahead]
    exact h a ((joint.listening q a).mpr ha)
  rcases joint.served q mem with active | ⟨_, a, above, active⟩ | failed
  · exact shown p active
  · exact Cache.valueAt_eq_of_isPrefix tidy.cache tidy.data above.isPrefix (shown a active)
  · exact absurd failed accepted

/-- As long as all changes are clear, a quiet session shows at every subscription that was not
refused what the server holds; and a turn takes it out of step exactly if it is not clear. -/
theorem converged_of_clear (h : ReachableBy AdmitsClear x) :
    (Quiet x → ∀ handle p, (handle, p) ∈ x.session.subscriptions.handles →
      x.session.listens.status? p ≠ some .failed →
      x.session.cache.valueAt p = x.server.data.valueAt p)
    ∧ ∀ t, Admits x t → (InStep (x.run t) ↔ Clear x t) := by
  have joint : Joint x := h.joint fun _ _ ha => ha.1
  refine ⟨?_, ?_⟩
  · intro q handle p mem accepted
    exact h.inStep.converged joint h.tidy q mem accepted
  · intro t allowed
    exact inStep_run_iff joint h.tidy h.inStep allowed

theorem clear_of_flat {s : Server} (sound : s.listens.Sound) (flat : s.isFlat = true)
    (p : Path) : s.Clear p := by
  intro q m l hq hl hqm hml _
  have above : q.Above l := by
    rcases Path.isPrefix_iff_eq_or_above.mp (Path.isPrefixOf_iff.mp hqm) with rfl | h
    · exact hml
    · exact h.trans hml
  have hq' := List.all_eq_true.mp flat q ((Server.mem_keys sound).mpr hq)
  have hl' := List.all_eq_true.mp hq' l ((Server.mem_keys sound).mpr hl)
  rw [Path.isStrictPrefixOf_iff.mpr above] at hl'
  cases hl'

/-- True when turns never lead to a server that listens to a path and to one above it. -/
def staysFlat (x : Network) : List Turn → Bool
  | [] => true
  | t :: ts => (x.run t).server.isFlat && staysFlat (x.run t) ts

theorem reachable_of_staysFlat (h : ReachableBy AdmitsClear x) {ts : List Turn}
    (always : ∀ t ∈ ts, ∀ y, Admits y t) (flat : x.staysFlat ts = true) :
    ReachableBy AdmitsClear (ts.foldl Network.run x) := by
  induction ts generalizing x with
  | nil => exact h
  | cons t ts ih =>
    obtain ⟨ht, hts⟩ := List.forall_mem_cons.mp always
    rw [staysFlat, Bool.and_eq_true] at flat
    have joint := (h.joint fun _ _ ha => ha.1).run t (ht x)
    have clear : Clear x t := fun p _ => clear_of_flat joint.sound flat.1 p
    exact ih (.run t ⟨ht x, clear⟩ h) hts flat.2

def greeting : List Turn :=
  [.connect, .greet, .deliver, .watch outer .value, .serve, .deliver, .deliver,
    .write outer (.text "hello") true, .serve, .deliver, .deliver]

theorem converged_of_greeting : Quiet (greeting.foldl run origin)
    ∧ ((greeting.foldl run origin).server.data.valueAt outer).text? = some "hello"
    ∧ (greeting.foldl run origin).session.cache.valueAt outer
      = (greeting.foldl run origin).server.data.valueAt outer := by
  have reached : ReachableBy AdmitsClear (greeting.foldl run origin) := by
    apply reachable_of_staysFlat (.start _ _ _ _ _)
    · simp [greeting, Admits]
    · decide +kernel
  have quiet : Quiet (greeting.foldl run origin) := by
    refine ⟨?_, ?_, ?_⟩
    all_goals decide +kernel
  refine ⟨quiet, by decide +kernel, ?_⟩
  exact (converged_of_clear reached).1 quiet 1 outer (by decide +kernel) (by decide +kernel)

/-- The inner path is still listened to when a leaf is written at the outer one, so a null follows
the leaf. -/
def wipeout : List Turn :=
  [.connect, .greet, .deliver, .watch inner .value, .serve, .deliver, .deliver,
    .watch outer .value, .write outer (.text "leaf") true, .serve, .serve,
    .deliver, .deliver, .deliver, .deliver, .deliver, .serve]

theorem wipeout_diverges : Reachable (wipeout.foldl run origin) ∧ Quiet (wipeout.foldl run origin)
    ∧ (2, outer) ∈ (wipeout.foldl run origin).session.subscriptions.handles
    ∧ (wipeout.foldl run origin).session.listens.status? outer = some .active
    ∧ (wipeout.foldl run origin).session.cache.valueAt outer
      ≠ (wipeout.foldl run origin).server.data.valueAt outer := by
  have shown : ((wipeout.foldl run origin).session.cache.valueAt outer).text? = none := by
    decide +kernel
  have held : ((wipeout.foldl run origin).server.data.valueAt outer).text? = some "leaf" := by
    decide +kernel
  refine ⟨?_, ⟨?_, ?_, ?_⟩, ?_, ?_, ?_⟩
  · apply reachable_foldl (.start _ _ _ _ _)
    simp [wipeout, Admits]
  · decide +kernel
  · decide +kernel
  · decide +kernel
  · decide +kernel
  · decide +kernel
  · intro same
    rw [same, held] at shown
    cases shown

end Network

end LiveTree
