import LiveTree.Proofs.Session.Calls
import LiveTree.Proofs.Subscriptions.Baselines

/-!
# No event is missed and none is made up

After every call, each subscription knows what would be captured now. From that follows what a call
reports: to a subscription to a value, one event if the digest at its path has changed, and else
none, wherever the change was made.
-/

namespace LiveTree

namespace Subscriptions

variable {c d : Cache} {p : Path}

theorem beside_take (h : c.Tidy) (kind : UpdateKind) (p : Path) (v : Value) :
    Beside c (c.take kind p v) p :=
  fun _ _ below above => Baseline.capture_congr _ (h.get?_take_apart kind v below above)

theorem beside_root (c d : Cache) : Beside c d Path.root :=
  fun _ _ below _ => absurd List.nil_prefix below

theorem mem_of_path? {s : Subscriptions} {handle : Nat} (h : s.path? handle = some p) :
    (handle, p) ∈ s.handles := by
  obtain ⟨before, after, split, _⟩ := List.lookup_eq_some_iff.mp h
  rw [split]
  exact List.mem_append_right _ List.mem_cons_self

end Subscriptions

namespace Session

/-- What is shown is up to date: no digest is remembered that is wrong, and every subscription knows
what would be captured now. -/
structure Shown.UpToDate (s : Shown) : Prop where
  current : s.cache.Current
  faithful : s.subscriptions.Faithful s.cache

variable {s : Session} {t : Shown} {q : Path} {x : Subscription}

theorem Effect.upToDate (e : s.Effect t) (h : s.shown.UpToDate) : t.UpToDate := by
  obtain ⟨current, faithful⟩ := h
  cases e with
  | none => exact ⟨current, faithful⟩
  | watch p kind => exact ⟨current, faithful.subscribe p kind⟩
  | unwatch known => exact ⟨current, faithful.remove (Subscriptions.mem_of_path? known)⟩
  | ask names => exact ⟨current.ask names, faithful.congr (Baseline.capture_ask current names)⟩
  | update kind p v =>
    have beside := Subscriptions.beside_take current.tidy kind p v
    exact ⟨current.take kind p v, faithful.cacheChanged beside⟩
  | restore read =>
    exact ⟨.ofSnapshot read, faithful.cacheChanged (Subscriptions.beside_root _ _)⟩

/-- What a subscription to a value is told is decided by the digest at its path. -/
theorem Effect.reports (e : s.Effect t) (h : s.shown.UpToDate)
    (hx : x ∈ s.subscriptions.subscribers q) (value : x.kind = .value) :
    ∃ events, t.events = s.events ++ events
      ∧ events.filter (fun e => e.handle == x.handle)
        = if t.cache.hashAt q = s.cache.hashAt q then []
          else [⟨x.handle, .value, q, Option.none, t.cache.valueAt q⟩] := by
  obtain ⟨current, faithful⟩ := h
  have silent : ∀ {c : Cache}, c.hashAt q = s.cache.hashAt q →
      ∃ events, s.events = s.events ++ events
        ∧ events.filter (fun e => e.handle == x.handle)
          = if c.hashAt q = s.cache.hashAt q then []
            else [⟨x.handle, .value, q, Option.none, c.valueAt q⟩] :=
    fun same => ⟨[], (List.append_nil _).symm, (if_pos same).symm⟩
  cases e with
  | none | watch p kind | unwatch known => exact silent rfl
  | ask names =>
    have same := Baseline.capture_ask current names .value q
    simp only [Baseline.capture, Baseline.value.injEq] at same
    exact silent same
  | update kind p v =>
    have beside := Subscriptions.beside_take current.tidy kind p v
    exact ⟨_, rfl, faithful.value_reports beside hx value⟩
  | restore read =>
    exact ⟨_, rfl, faithful.value_reports (Subscriptions.beside_root _ _) hx value⟩

theorem upToDate_call (h : s.shown.UpToDate) (c : Call) : (s.call c).shown.UpToDate := by
  by_cases hc : c = .teardown
  · rw [hc, call, shown_teardown]
    exact ⟨Cache.current_empty, Subscriptions.faithful_empty _ _⟩
  · exact (s.effect_call hc).upToDate h

theorem Reached.upToDate {ids : List RequestId} (h : Reached ids s) : s.shown.UpToDate := by
  induction h with
  | new config clock digits => exact ⟨Cache.current_empty, Subscriptions.faithful_empty _ _⟩
  | call _ c ih => exact upToDate_call ih c

/-- After any calls, every handle stands for a subscription and every baseline is right, and
whatever is called next tells each subscription to a value what has become of the digest at its
path: one event if it has changed, and else none. -/
theorem notified_exactly {ids : List RequestId} (h : Reached ids s) :
    (∀ handle p, s.subscriptions.path? handle = some p →
      ∃ x ∈ s.subscriptions.subscribers p, x.handle = handle)
    ∧ (∀ p, ∀ x ∈ s.subscriptions.subscribers p,
      x.baseline = Baseline.capture x.kind s.cache p)
    ∧ ∀ c, c ≠ .teardown → ∀ q, ∀ x ∈ s.subscriptions.subscribers q, x.kind = .value →
      ∃ events, (s.call c).events = s.events ++ events
        ∧ events.filter (fun e => e.handle == x.handle)
          = if (s.call c).cache.hashAt q = s.cache.hashAt q then []
            else [⟨x.handle, .value, q, none, (s.call c).cache.valueAt q⟩] := by
  have upToDate := h.upToDate
  refine ⟨?_, upToDate.faithful.captured, ?_⟩
  · intro handle p known
    exact upToDate.faithful.exists_of_mem (Subscriptions.mem_of_path? known)
  · intro c hc q x hx value
    exact (s.effect_call hc).reports upToDate hx value

/-- A subscription, and the server puts something below it. -/
def watching (above below : Path) : Session :=
  [Call.watch above .value, .ask [], .receive (.update .put below (.bool true))].foldl call blank

theorem notified_watching : ∃ above below, (∃ ids, Reached ids (watching above below))
    ∧ (∀ p, ∀ x ∈ (watching above below).subscriptions.subscribers p,
      x.baseline = Baseline.capture x.kind (watching above below).cache p)
    ∧ (watching above below).subscriptions.subscribers above ≠ []
    ∧ (watching above below).events.map (·.handle) = [1] := by
  have reached (above below) : ∃ ids, Reached ids (watching above below) := by
    obtain ⟨ids, h⟩ : ∃ ids, Reached ([] ++ ids) (watching above below) :=
      (Reached.new _ _ _).calls _
    exact ⟨_, h⟩
  refine ⟨⟨["a"], by decide, by decide⟩, ⟨["a", "b"], by decide, by decide⟩, reached _ _,
    ?_, ?_, ?_⟩
  · obtain ⟨ids, h⟩ := reached _ _
    exact (notified_exactly h).2.1
  · exact List.ne_nil_of_length_pos (by decide +kernel)
  · decide +kernel

end Session

end LiveTree
