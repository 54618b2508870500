import LiveTree.Proofs.Network.Convergence
import LiveTree.Proofs.Node.Equality
import LiveTree.Proofs.Node.Memo

/-!
# What listeners show after a change

A client that showed, at every path that the server listens to, what the server held there, is told
of a change by the change itself and by a put for each listened path further down. After that it
shows again what the server holds, but for leaves above a listened path below the change: the put for
that path comes after them and takes their place. So a client stays current exactly at the paths at
and below which the change leaves no such leaf.
-/

namespace LiveTree

namespace Session

variable {ids : List RequestId} {s : Session}

theorem Effect.tidy {t : Shown} (h : s.Effect t) (tidy : s.cache.Tidy) : t.cache.Tidy := by
  cases h with
  | none | watch | unwatch => exact tidy
  | ask names => exact Node.Tidy.rememberAt tidy names
  | update kind p v => exact tidy.take kind p v
  | restore read => exact Cache.tidy_ofSnapshot read

theorem Reached.tidy (h : Reached ids s) : s.cache.Tidy := by
  induction h with
  | new => exact Cache.tidy_empty
  | @call ids s _ c ih =>
    by_cases down : c = .teardown
    · have dropped : s.teardown.cache = Cache.empty := congrArg Shown.cache s.shown_teardown
      subst down
      exact dropped.symm ▸ Cache.tidy_empty
    · exact (s.effect_call down).tidy ih

theorem cache_receiveAll (s : Session) (ms : List Message) :
    (ms.foldl receive s).cache = ms.foldl Cache.hear s.cache := by
  induction ms generalizing s with
  | nil => rfl
  | cons m ms ih => rw [List.foldl_cons, List.foldl_cons, ih, cache_receive]

end Session

namespace Server

variable {s : Server} {after : Server × List Message} {p q : Path}

/-- A server after anything that can be done with it. -/
inductive Reached : Server → Prop where
  | start (tokens : List String) (refused : List Path) (time : Nat) :
    Reached { tokens := tokens, refused := refused, time := time }
  | process {s : Server} (r : Request) (h : Reached s) : Reached (s.process r).1
  | setValue {s : Server} (p : Path) (v : Value) (h : Reached s) : Reached (s.setValue p v).1
  | disconnect {s : Server} (recoverable : Bool) (h : Reached s) :
    Reached (s.disconnect recoverable).1
  | accept {s : Server} (token : String) (h : Reached s) :
    Reached { s with tokens := s.tokens ++ [token] }
  | refuse {s : Server} (p : Path) (h : Reached s) : Reached { s with refused := s.refused ++ [p] }

theorem Reached.sound (h : Reached s) : s.listens.Sound := by
  induction h with
  | start => exact OrderedMap.sound_empty
  | process r _ ih => exact (process_served _ r).sound ih
  | setValue | accept | refuse => assumption
  | disconnect => exact OrderedMap.sound_empty

theorem Reached.tidy (h : Reached s) : s.data.Tidy := by
  induction h with
  | start => exact Cache.tidy_empty
  | process r _ ih => exact (process_served _ r).tidy ih
  | setValue p v _ ih => exact ih.take .put p v
  | accept | refuse | disconnect => assumption

/-- What changes the data at a path: the server after it, and the messages that it sends. -/
inductive Changed (s : Server) (p : Path) : Server × List Message → Prop where
  | set (v : Value) : Changed s p (s.setValue p v)
  | accepted (r : Request) (write : r.action.isWrite = true) (place : r.place = p)
    (free : s.refuses p = false) : Changed s p (s.process r)

theorem Changed.exists_update (h : s.Changed p after) : ∃ kind v,
    after.1.listens = s.listens ∧ after.1.data = s.data.take kind p v ∧ ∀ c,
      after.2.foldl Cache.hear c = (after.1.fanOut p (.update kind p v)).foldl Cache.hear c := by
  cases h with
  | set v => exact ⟨.put, v, rfl, rfl, fun _ => rfl⟩
  | accepted r write place free =>
    subst place
    have served := s.process_served r
    generalize s.process r = after at served
    cases served with
    | denied status answered cause =>
      rcases cause with action | refused
      · rw [action] at write
        cases write
      · rw [free] at refused
        cases refused
    | changed kind v => exact ⟨kind, v, rfl, rfl, fun _ => List.foldl_append⟩
    | listened action | unlistened action | welcomed action | kept action =>
      rw [action] at write
      cases write

theorem Changed.tidy (h : s.Changed p after) (hd : s.data.Tidy) : after.1.data.Tidy := by
  obtain ⟨kind, v, _, data, _⟩ := h.exists_update
  exact data ▸ hd.take kind p v

/-- True for names above a listened path that lies below a change. The put for that path leaves no
leaf there. -/
def clears (s : Server) (changed : Path) (names : List String) : Bool :=
  decide (∃ l ∈ s.below changed, names <+: l.segments ∧ names ≠ l.segments)

theorem clears_iff {names : List String} : s.clears p names = true ↔
    ∃ l ∈ s.below p, ∃ n < l.segments.length, names = l.segments.take n := by
  rw [clears, decide_eq_true_eq]
  refine exists_congr fun l => and_congr_right fun _ => ?_
  constructor
  · rintro ⟨above, ne⟩
    have whole := List.prefix_iff_eq_take.mp above
    refine ⟨names.length, Nat.lt_of_le_of_ne above.length_le fun same => ne ?_, whole⟩
    rw [whole, same, List.take_length]
  · rintro ⟨n, short, rfl⟩
    refine ⟨List.take_prefix n l.segments, fun same => ?_⟩
    have length := congrArg List.length same
    rw [List.length_take] at length
    omega

/-- A client that showed what the server holds at the listened paths shows the leaves of the server
there after a change, but for those that the puts below it have cleared. -/
theorem leaf?_changed {c : Cache} (sound : s.listens.Sound) (hd : s.data.Tidy) (hc : c.Tidy)
    (changed : s.Changed p after)
    (before : ∀ q, s.isListening q = true → c.valueAt q = s.data.valueAt q)
    (hq : after.1.isListening q = true) (rest : List String) :
    (after.2.foldl Cache.hear c).leaf? (q.segments ++ rest)
      = if after.1.clears p (q.segments ++ rest) then none
        else after.1.data.leaf? (q.segments ++ rest) := by
  obtain ⟨kind, v, listens, data, heard⟩ := changed.exists_update
  -- a listened path is right after the change itself or has a put of its own to come
  have on : s.isListening q = true := by rwa [isListening, ← listens]
  have sound : after.1.listens.Sound := listens ▸ sound
  have start := relay_agrees sound hc hd data (before q on) hq
  have leaves := Cache.leaf?_copy_at (hc.relay after.1 kind p v) (changed.tidy hd)
    (below_ascend sound p) start rest
  rw [heard, hear_fanOut, leaves]
  simp only [clears, decide_eq_true_eq]

variable {ids : List RequestId} {client : Session}

/-- A client that showed what a server holds, at every path that the server listens to, shows it
after a change and the messages that come of it exactly where no leaf stands above a listened path
below the change. Elsewhere it misses those leaves and nothing else. -/
theorem shown_at_listens (reached : s.Reached) (known : Session.Reached ids client)
    (before : ∀ q, s.isListening q = true → client.cache.valueAt q = s.data.valueAt q)
    (changed : s.Changed p after) (hq : after.1.isListening q = true) :
    ((after.2.foldl Session.receive client).cache.valueAt q = after.1.data.valueAt q ↔
      ∀ rest, after.1.clears p (q.segments ++ rest) = true →
        after.1.data.leaf? (q.segments ++ rest) = none)
    ∧ ∀ rest, (after.2.foldl Session.receive client).cache.leaf? (q.segments ++ rest)
      = if after.1.clears p (q.segments ++ rest) then none
        else after.1.data.leaf? (q.segments ++ rest) := by
  rw [Session.cache_receiveAll]
  have leaves := leaf?_changed reached.sound reached.tidy known.tidy changed before hq
  refine ⟨?_, leaves⟩
  rw [Cache.valueAt_eq_iff (known.tidy.hearAll after.2) (changed.tidy reached.tidy)]
  constructor
  · intro same rest cleared
    rw [← same rest, leaves, if_pos cleared]
  · intro none rest
    rw [leaves]
    split
    · exact (none rest ‹_›).symm
    · rfl

open Listens

def innermost : Path := ⟨["a", "b", "x"], by decide, by decide⟩

/-- A server that listens to a path, and to one two levels below it that has data. -/
def nested : Server :=
  (((Server.setValue {} innermost (.bool true)).1.process (.listen 1 innermost)).1.process
    (.listen 2 outer)).1

theorem reached_nested : nested.Reached :=
  .process _ (.process _ (.setValue _ _ (.start [] [] 0)))

/-- A client that shows what the server holds, and has old data beside. -/
def neighbour : Session :=
  (Session.blank.call (.receive (.put Path.root (.object [("z", .text "old")])))).call
    (.receive (.merge innermost (.bool true)))

theorem reached_neighbour : ∃ ids, Session.Reached ids neighbour :=
  ⟨_, .call (.call (.new _ _ _) _) _⟩

theorem agrees_nested (q : Path) (hq : nested.isListening q = true) :
    neighbour.cache.valueAt q = nested.data.valueAt q := by
  have keys : nested.listens.keys = [outer, innermost] := by decide +kernel
  have same : ∀ q ∈ [outer, innermost],
      (neighbour.cache.valueAt q).identicalTo (nested.data.valueAt q) = true := by decide +kernel
  rw [← mem_keys reached_nested.sound, keys] at hq
  exact (Value.identicalTo_iff _ _).mp (same q hq)

/-- The leaf at the inner path is taken away, and another one comes beside it. -/
def replaced : Server × List Message :=
  nested.process (.merge 3 outer (.object [("b", .object [("x", .null), ("d", .text "new")])]))

theorem replaced_shown : nested.Reached ∧ (∃ ids, Session.Reached ids neighbour)
    ∧ (∀ q, nested.isListening q = true → neighbour.cache.valueAt q = nested.data.valueAt q)
    ∧ nested.Changed outer replaced ∧ replaced.1.isListening outer = true
    ∧ (replaced.2.foldl Session.receive neighbour).cache.valueAt outer
      = replaced.1.data.valueAt outer
    ∧ replaced.1.data.valueAt outer = .object [("b", .object [("d", .text "new")])] := by
  obtain ⟨ids, known⟩ := reached_neighbour
  have changed : nested.Changed outer replaced := .accepted _ rfl rfl (by decide +kernel)
  have hq : replaced.1.isListening outer = true := by decide +kernel
  have free : ∀ l ∈ replaced.1.below outer, ∀ n < l.segments.length,
      (replaced.1.data.leaf? (l.segments.take n)).isNone = true := by decide +kernel
  have main := shown_at_listens reached_nested known agrees_nested changed hq
  refine ⟨reached_nested, ⟨ids, known⟩, agrees_nested, changed, hq, main.1.mpr ?_,
    (Value.identicalTo_iff _ _).mp (by decide +kernel)⟩
  intro rest cleared
  obtain ⟨l, hl, n, short, names⟩ := clears_iff.mp cleared
  rw [names]
  exact Option.isNone_iff_eq_none.mp (free l hl n short)

/-- A leaf comes to stand between the two listened paths. -/
def severed : Server × List Message :=
  nested.process (.merge 3 outer (.object [("b", .text "leaf"), ("d", .bool true)]))

theorem severed_lost : nested.Reached ∧ (∃ ids, Session.Reached ids neighbour)
    ∧ (∀ q, nested.isListening q = true → neighbour.cache.valueAt q = nested.data.valueAt q)
    ∧ nested.Changed outer severed ∧ severed.1.isListening outer = true
    ∧ (severed.2.foldl Session.receive neighbour).cache.valueAt outer
      = .object [("d", .bool true)]
    ∧ severed.1.data.valueAt outer = .object [("b", .text "leaf"), ("d", .bool true)]
    ∧ (severed.2.foldl Session.receive neighbour).cache.valueAt outer
      ≠ severed.1.data.valueAt outer := by
  have shown : (severed.2.foldl Session.receive neighbour).cache.valueAt outer
      = .object [("d", .bool true)] := (Value.identicalTo_iff _ _).mp (by decide +kernel)
  have held : severed.1.data.valueAt outer = .object [("b", .text "leaf"), ("d", .bool true)] :=
    (Value.identicalTo_iff _ _).mp (by decide +kernel)
  refine ⟨reached_nested, reached_neighbour, agrees_nested,
    .accepted _ rfl rfl (by decide +kernel), by decide +kernel, shown, held, ?_⟩
  rw [shown, held]
  simp

end Server

end LiveTree
