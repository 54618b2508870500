import LiveTree.Listens.Wire
import LiveTree.Proofs.OrderedMap.Subtree

/-!
# What is kept for a path, change by change

The listens are read through `get?`, path by path, and each change of them is described by what it
leaves there. A path is covered by what lies above it; what lies below it is visited in order.
Nothing here says which changes an operation makes.
-/

namespace LiveTree.Listens

/-- The request that a path awaits the answer of. -/
def request? (l : Listens) (p : Path) : Option RequestId := (l.get? p).bind (·.request)

theorem status?_eq_some {l : Listens} {p : Path} {s : ListenStatus} :
    l.status? p = some s ↔ ∃ i, l.get? p = some i ∧ i.status = s := by
  simp [status?]

theorem request?_eq_some {l : Listens} {p : Path} {id : RequestId} :
    l.request? p = some id ↔ ∃ i, l.get? p = some i ∧ i.request = some id := by
  simp [request?, Option.bind_eq_some_iff]

theorem status?_of_get? {l : Listens} {p : Path} {i : Listen} (h : l.get? p = some i) :
    l.status? p = some i.status := by
  simp [status?, h]

theorem request?_of_get? {l : Listens} {p : Path} {i : Listen} (h : l.get? p = some i) :
    l.request? p = i.request := by
  simp [request?, h]

theorem status?_eq_none {l : Listens} {p : Path} : l.status? p = none ↔ l.get? p = none := by
  simp [status?]

theorem mem_keys_iff {l : Listens} (hl : l.items.Sound) {p : Path} :
    p ∈ l.items.keys ↔ ∃ i, l.get? p = some i := by
  rw [OrderedMap.mem_keys_iff hl, OrderedMap.contains_iff]
  rfl

theorem get?_modify (l : Listens) (p q : Path) (f : Listen → Listen) :
    (l.modify p f).get? q = if q = p then (l.get? p).map f else l.get? q :=
  OrderedMap.get?_modify l.items p q f

@[simp] theorem get?_forget (l : Listens) (id : RequestId) (q : Path) :
    (l.forget id).get? q = l.get? q := rfl

@[simp] theorem status?_forget (l : Listens) (id : RequestId) (q : Path) :
    (l.forget id).status? q = l.status? q := rfl

@[simp] theorem request?_forget (l : Listens) (id : RequestId) (q : Path) :
    (l.forget id).request? q = l.request? q := rfl

theorem get?_suspend (l : Listens) (q : Path) : l.suspend.get? q = (l.get? q).map lost :=
  OrderedMap.get?_mapValues l.items q fun _ i => lost i

theorem get?_remove {l : Listens} (hl : l.items.Sound) (p q : Path) :
    (l.remove p).get? q = if q = p then none else l.get? q :=
  OrderedMap.get?_erase hl p q

@[simp] theorem get?_empty (q : Path) : empty.get? q = none := rfl

@[simp] theorem get?_clear (l : Listens) (q : Path) : l.clear.get? q = none := rfl

theorem status?_setStatus (l : Listens) (p q : Path) (s : ListenStatus) :
    (l.setStatus p s).status? q
      = if q = p then (l.status? p).map fun _ => s else l.status? q := by
  simp only [status?, setStatus, get?_modify]
  split <;> simp [Function.comp_def]

theorem status?_setStatus_ne {l : Listens} {p q : Path} {s : ListenStatus} (h : q ≠ p) :
    (l.setStatus p s).status? q = l.status? q := by
  rw [status?_setStatus, if_neg h]

theorem status?_setStatus_self {l : Listens} {p : Path} {s t : ListenStatus}
    (h : l.status? p = some t) : (l.setStatus p s).status? p = some s := by
  simp [status?_setStatus, h]

@[simp] theorem request?_setStatus (l : Listens) (p q : Path) (s : ListenStatus) :
    (l.setStatus p s).request? q = l.request? q := by
  simp only [request?, setStatus, get?_modify]
  split
  · rename_i h
    subst h
    cases l.get? q <;> rfl
  · rfl

@[simp] theorem status?_setRequest (l : Listens) (p q : Path) (r : Option RequestId) :
    (l.setRequest p r).status? q = l.status? q := by
  simp only [status?, setRequest, get?_modify]
  split
  · rename_i h
    subst h
    cases l.get? q <;> rfl
  · rfl

theorem request?_setRequest (l : Listens) (p q : Path) (r : Option RequestId) :
    (l.setRequest p r).request? q
      = if q = p then (l.get? p).bind fun _ => r else l.request? q := by
  simp only [request?, setRequest, get?_modify]
  split
  · cases l.get? p <;> rfl
  · rfl

theorem request?_setRequest_none (l : Listens) (p q : Path) :
    (l.setRequest p none).request? q = if q = p then none else l.request? q := by
  rw [request?_setRequest]
  split
  · cases l.get? p <;> rfl
  · rfl

theorem status?_count (l : Listens) (p q : Path) (f : Nat → Nat) :
    (l.modify p fun i => { i with refCount := f i.refCount }).status? q = l.status? q := by
  simp only [status?, get?_modify]
  split
  · rename_i h
    subst h
    cases l.get? q <;> rfl
  · rfl

theorem request?_count (l : Listens) (p q : Path) (f : Nat → Nat) :
    (l.modify p fun i => { i with refCount := f i.refCount }).request? q = l.request? q := by
  simp only [request?, get?_modify]
  split
  · rename_i h
    subst h
    cases l.get? q <;> rfl
  · rfl

theorem status?_suspend (l : Listens) (q : Path) :
    l.suspend.status? q
      = (l.status? q).map fun s => if s.onWire then .required else s := by
  simp only [status?, get?_suspend, Option.map_map]
  rfl

theorem request?_suspend (l : Listens) (q : Path) : l.suspend.request? q = none := by
  simp only [request?, get?_suspend]
  cases l.get? q <;> rfl

theorem status?_remove {l : Listens} (hl : l.items.Sound) (p q : Path) :
    (l.remove p).status? q = if q = p then none else l.status? q := by
  simp only [status?, get?_remove hl]
  split <;> rfl

theorem request?_remove {l : Listens} (hl : l.items.Sound) (p q : Path) :
    (l.remove p).request? q = if q = p then none else l.request? q := by
  simp only [request?, get?_remove hl]
  split <;> rfl

theorem status?_remove_self {l : Listens} (hl : l.items.Sound) (p : Path) :
    (l.remove p).status? p = none := by
  rw [status?_remove hl, if_pos rfl]

theorem request?_remove_self {l : Listens} (hl : l.items.Sound) (p : Path) :
    (l.remove p).request? p = none := by
  rw [request?_remove hl, if_pos rfl]

theorem frame_removed {l : Listens} (hl : l.items.Sound) {p q : Path} (hqp : q ≠ p) :
    (l.remove p).request? q = l.request? q ∧ (l.remove p).status? q = l.status? q := by
  rw [request?_remove hl, status?_remove hl, if_neg hqp, if_neg hqp]
  exact ⟨rfl, rfl⟩

def withNew (l : Listens) (p : Path) (s : ListenStatus) : Listens :=
  { l with items := l.items.insert p ⟨s, 1, none⟩ }

theorem get?_withNew {l : Listens} (hl : l.items.Sound) {p : Path} (h : l.get? p = none)
    (s : ListenStatus) (q : Path) :
    (l.withNew p s).get? q = if q = p then some ⟨s, 1, none⟩ else l.get? q := by
  have hp : l.items.get? p = none := h
  rw [withNew, get?, OrderedMap.get?_insert hl, hp]
  rfl

theorem status?_withNew {l : Listens} (hl : l.items.Sound) {p : Path} (h : l.get? p = none)
    (s : ListenStatus) (q : Path) :
    (l.withNew p s).status? q = if q = p then some s else l.status? q := by
  simp only [status?, get?_withNew hl h]
  split <;> rfl

theorem request?_withNew {l : Listens} (hl : l.items.Sound) {p : Path} (h : l.get? p = none)
    (s : ListenStatus) (q : Path) : (l.withNew p s).request? q = l.request? q := by
  simp only [request?, get?_withNew hl h]
  split
  · rename_i he
    simp [he, h]
  · rfl

theorem status?_withNew_self {l : Listens} (hl : l.items.Sound) {p : Path} (h : l.get? p = none)
    (s : ListenStatus) : (l.withNew p s).status? p = some s := by
  rw [status?_withNew hl h, if_pos rfl]

theorem frame_withNew {l : Listens} (hl : l.items.Sound) {p q : Path} (h : l.get? p = none)
    (s : ListenStatus) (hqp : q ≠ p) :
    (l.withNew p s).request? q = l.request? q ∧ (l.withNew p s).status? q = l.status? q := by
  rw [request?_withNew hl h, status?_withNew hl h, if_neg hqp]
  exact ⟨rfl, rfl⟩

theorem frame_forgotten (l : Listens) (id : RequestId) (p : Path) {q : Path} (hqp : q ≠ p) :
    ((l.forget id).setRequest p none).request? q = l.request? q
      ∧ ((l.forget id).setRequest p none).status? q = l.status? q := by
  rw [request?_setRequest_none, if_neg hqp, status?_setRequest]
  exact ⟨rfl, rfl⟩

theorem frame_settled (l : Listens) (id : RequestId) (p : Path) (s : ListenStatus) {q : Path}
    (hqp : q ≠ p) : (((l.forget id).setRequest p none).setStatus p s).request? q = l.request? q
      ∧ (((l.forget id).setRequest p none).setStatus p s).status? q = l.status? q := by
  rw [request?_setStatus, status?_setStatus_ne hqp]
  exact frame_forgotten l id p hqp

theorem request_settled (l : Listens) (id : RequestId) (p : Path) :
    ((l.forget id).setRequest p none).request? p = none := by
  rw [request?_setRequest_none, if_pos rfl]

theorem settled_self (l : Listens) (id : RequestId) {p : Path} {t : ListenStatus}
    (h : l.status? p = some t) (s : ListenStatus) :
    (((l.forget id).setRequest p none).setStatus p s).request? p = none
      ∧ (((l.forget id).setRequest p none).setStatus p s).status? p = some s := by
  rw [request?_setStatus]
  exact ⟨request_settled l id p, status?_setStatus_self (by simpa using h)⟩

theorem coversBelow_iff {l : Listens} {p : Path} :
    l.coversBelow p = true ↔ ∃ s, l.status? p = some s ∧ s.covers = true := by
  simp [coversBelow, Option.any_eq_true]

theorem isCovered_iff {l : Listens} {p : Path} :
    l.isCovered p = true ↔ ∃ q s, q.Above p ∧ l.status? q = some s ∧ s.covers = true := by
  simp only [isCovered, List.any_eq_true, Path.mem_ancestors, coversBelow_iff]
  constructor
  · rintro ⟨q, hq, s, hs⟩
    exact ⟨q, s, hq, hs⟩
  · rintro ⟨q, s, hq, hs⟩
    exact ⟨q, hq, s, hs⟩

theorem isCovered_eq_false_iff {l : Listens} {p : Path} :
    l.isCovered p = false ↔ ∀ q s, q.Above p → l.status? q = some s → s.covers = false := by
  rw [← Bool.not_eq_true, isCovered_iff]
  constructor
  · intro h q s hq hs
    exact Bool.eq_false_iff.mpr fun hc => h ⟨q, s, hq, hs, hc⟩
  · rintro h ⟨q, s, hq, hs, hc⟩
    simp [h q s hq hs] at hc

theorem below_eq {l : Listens} (hl : l.items.Sound) (p : Path) :
    l.below p = l.items.keys.filter fun q => p.isPrefixOf q && q != p := by
  rw [below, OrderedMap.takeWhile_listFrom hl, List.filter_filter]
  apply List.filter_congr
  intro q _
  exact Bool.and_comm _ _

theorem mem_below {l : Listens} (hl : l.items.Sound) {p q : Path} :
    q ∈ l.below p ↔ p.Above q ∧ ∃ i, l.get? q = some i := by
  rw [below_eq hl, List.mem_filter, mem_keys_iff hl, Bool.and_eq_true, Path.isPrefixOf_iff,
    bne_iff_ne]
  constructor
  · rintro ⟨hi, hp, hne⟩
    exact ⟨⟨hp, fun he => hne he.symm⟩, hi⟩
  · rintro ⟨⟨hp, hne⟩, hi⟩
    exact ⟨hi, hp, fun he => hne he.symm⟩

theorem sound_setStatus {l : Listens} (hl : l.items.Sound) (p : Path) (s : ListenStatus) :
    (l.setStatus p s).items.Sound := hl.modify p _

theorem sound_setRequest {l : Listens} (hl : l.items.Sound) (p : Path) (r : Option RequestId) :
    (l.setRequest p r).items.Sound := hl.modify p _

end LiveTree.Listens
