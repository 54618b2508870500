import LiveTree.Proofs.Network.Agreement

/-!
# The mirror of the data

What matters of the session's cache is what it will be when all updates on their way have been
taken. `InStep` says that by then it shows, at every path that the server listens to, what the server
holds. Of all turns only a change of the server's data can end that, and it does so exactly when a
leaf comes to stand between two listened paths: the put for the lower one wipes it out.
-/

namespace LiveTree

def Cache.hear (c : Cache) : Message → Cache
  | .update kind p v => c.take kind p v
  | _ => c

theorem Cache.Tidy.hear {c : Cache} (h : c.Tidy) (m : Message) : (c.hear m).Tidy := by
  cases m with
  | update kind p v => exact h.take kind p v
  | _ => exact h

theorem Cache.Tidy.hearAll {c : Cache} (h : c.Tidy) (ms : List Message) :
    (ms.foldl Cache.hear c).Tidy := by
  induction ms generalizing c with
  | nil => exact h
  | cons m ms ih => exact ih (h.hear m)

/-- No leaf stands at or below a listened path and above another one that lies below a change. -/
def Server.Clear (s : Server) (changed : Path) : Prop :=
  ∀ q m l : Path, s.isListening q = true → s.isListening l = true → q.isPrefixOf m = true →
    m.Above l → changed.Above l → s.data.leaf? m.segments = none

def Server.isFlat (s : Server) : Bool :=
  s.listens.keys.all fun q => s.listens.keys.all fun l => !q.isStrictPrefixOf l

section FanOut
variable {s : Server} {c d : Cache} {kind : UpdateKind} {p q : Path} {v : Value}

/-- The listened paths below a change, in order. -/
def Server.below (s : Server) (changed : Path) : List Path :=
  s.listens.keys.filter changed.isStrictPrefixOf

/-- What a client has when it has taken a change that it is told of, before the puts that follow. -/
def Server.relay (s : Server) (kind : UpdateKind) (p : Path) (v : Value) (c : Cache) : Cache :=
  if s.listens.keys.any fun q => q.isPrefixOf p then c.take kind p v else c

theorem hear_fanOut (s : Server) (c : Cache) (kind : UpdateKind) (p : Path) (v : Value) :
    (s.fanOut p (.update kind p v)).foldl Cache.hear c
      = s.data.copy (s.below p) (s.relay kind p v c) := by
  have first : (if s.listens.keys.any fun q => q.isPrefixOf p then [Message.update kind p v]
      else []).foldl Cache.hear c = s.relay kind p v c := by
    rw [Server.relay]
    split <;> rfl
  rw [Server.fanOut, List.foldl_append, List.foldl_map, first]
  rfl

theorem Server.mem_keys (sound : s.listens.Sound) : q ∈ s.listens.keys ↔ s.isListening q = true :=
  OrderedMap.mem_keys_iff sound

theorem Server.mem_below (sound : s.listens.Sound) :
    q ∈ s.below p ↔ s.isListening q = true ∧ p.Above q := by
  rw [below, List.mem_filter, mem_keys sound, Path.isStrictPrefixOf_iff]

theorem Server.below_ascend (sound : s.listens.Sound) (p : Path) :
    (s.below p).Pairwise fun a b => a.compare b = .lt :=
  (OrderedMap.keys_ascend sound).filter _

theorem Cache.Tidy.relay (hc : c.Tidy) (s : Server) (kind : UpdateKind) (p : Path) (v : Value) :
    (s.relay kind p v c).Tidy := by
  rw [Server.relay]
  split
  · exact hc.take kind p v
  · exact hc

/-- A listened path is up to date after the change, or gets a put of its own. -/
theorem Server.relay_agrees (sound : s.listens.Sound) (hc : c.Tidy) (hd : d.Tidy)
    (data : s.data = d.take kind p v) (before : c.valueAt q = d.valueAt q)
    (hq : s.isListening q = true) :
    q ∈ s.below p ∨ (s.relay kind p v c).valueAt q = s.data.valueAt q := by
  rw [data, relay]
  by_cases above : q.segments <+: p.segments
  · have any : (s.listens.keys.any fun q => q.isPrefixOf p) = true :=
      List.any_eq_true.mpr ⟨q, (mem_keys sound).mpr hq, Path.isPrefixOf_iff.mpr above⟩
    rw [if_pos any]
    exact Or.inr (Cache.take_agrees hc hd kind v above before)
  by_cases below : p.segments <+: q.segments
  · exact Or.inl ((mem_below sound).mpr ⟨hq, below, fun he => above (he ▸ List.prefix_rfl)⟩)
  · right
    rw [Cache.valueAt_take_apart hd kind v below above, ← before]
    split
    · exact Cache.valueAt_take_apart hc kind v below above
    · rfl

/-- A copy that is in step before a change is so afterwards exactly if the change is clear. -/
theorem inStep_fanOut_iff (sound : s.listens.Sound) (hc : c.Tidy) (hd : d.Tidy)
    (data : s.data = d.take kind p v)
    (before : ∀ q, s.isListening q = true → c.valueAt q = d.valueAt q) :
    (∀ q, s.isListening q = true →
      ((s.fanOut p (.update kind p v)).foldl Cache.hear c).valueAt q = s.data.valueAt q)
        ↔ s.Clear p := by
  have tidy : s.data.Tidy := data ▸ hd.take kind p v
  have ascend := Server.below_ascend sound p
  have relayed := hc.relay s kind p v
  have start : ∀ q, s.isListening q = true →
      q ∈ s.below p ∨ (s.relay kind p v c).valueAt q = s.data.valueAt q :=
    fun q hq => Server.relay_agrees sound hc hd data (before q hq) hq
  rw [hear_fanOut]
  constructor
  · intro same q m l hq hl hqm hml hpl
    exact (Cache.valueAt_copy_iff relayed tidy ascend (start q hq)).mp (same q hq) l
      ((Server.mem_below sound).mpr ⟨hl, hpl⟩) m (Path.isPrefixOf_iff.mp hqm) hml
  · intro clear q hq
    apply (Cache.valueAt_copy_iff relayed tidy ascend (start q hq)).mpr
    intro l hl m hqm hml
    obtain ⟨hl, hpl⟩ := (Server.mem_below sound).mp hl
    exact clear q m l hq hl (Path.isPrefixOf_iff.mpr hqm) hml hpl

end FanOut

namespace Network

/-- The session's cache when all updates that are on their way have been taken. -/
def ahead (x : Network) : Cache := x.inbox.foldl Cache.hear x.session.cache

/-- At every path that the server listens to, the session is going to show what the server holds. -/
def InStep (x : Network) : Prop :=
  ∀ q, x.server.isListening q = true → x.ahead.valueAt q = x.server.data.valueAt q

def changes? (x : Network) : Turn → Option Path
  | .setValue p _ => some p
  | .serve => x.session.link.sent.head?.bind fun r =>
    if r.action.isWrite && !x.server.refuses r.place then some r.place else none
  | _ => none

/-- A turn after which no leaf stands between two listened paths below a change. -/
def Clear (x : Network) (t : Turn) : Prop :=
  ∀ p, x.changes? t = some p → (x.run t).server.Clear p

structure Tidy (x : Network) : Prop where
  cache : x.session.cache.Tidy
  data : x.server.data.Tidy

theorem Tidy.ahead {x : Network} (h : Tidy x) : x.ahead.Tidy := h.cache.hearAll x.inbox

end Network

end LiveTree
