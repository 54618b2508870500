import LiveTree.Proofs.Listens.Coverage
import LiveTree.Proofs.Network.Channel

/-!
# What is on its way while connected

`Flight` says that the answers which are awaited come in the order of their listens, and that of two
awaited listens the one further down was sent first. So when a listen is accepted, no listen below
it is still unanswered, and none is masked in vain.

`Tune` says for each path how its item, the server and the requests on their way go together.
Requests that are taken, answers that are taken and listens that are sent keep both.
-/

namespace LiveTree

/-- A wire after one more request has left. -/
structure Wire.Sent (w : Wire) (r : Request) (w' : Wire) : Prop where
  link : w'.link = { w.link with sent := w.link.sent ++ [r] }
  lastId : w.requests.lastId ≤ w'.requests.lastId
  numbered : r.id ≤ w'.requests.lastId

theorem Wire.sent_listen {w : Wire} (h : w.link.isOpen = true) (p : Path) :
    w.Sent (.listen (w.requests.lastId + 1) p) (Wire.sink.listen p w).2 := by
  refine ⟨?_, ?_, ?_⟩ <;>
    simp [sink, Wire.listen, Requests.allocate, send?, Link.send?, h, countListen, Request.listen,
      Request.bare]

theorem Wire.sent_unlisten {w : Wire} (h : w.link.isOpen = true) (p : Path) :
    w.Sent (.unlisten (w.requests.lastId + 1) p) (Wire.sink.unlisten p w) := by
  refine ⟨?_, ?_, ?_⟩ <;>
    simp [sink, Wire.unlisten, Requests.allocateUntracked, send?, Link.send?, h, countUnlisten,
      Request.unlisten, Request.bare]

theorem Wire.listen_id (w : Wire) (p : Path) :
    (Wire.sink.listen p w).1 = w.requests.lastId + 1 := rfl

theorem Listens.awaits_iff {l : Listens} {id : RequestId} :
    l.awaits id = true ↔ ∃ p, (id, p) ∈ l.awaited := by
  simp [awaits, List.any_eq_true]

namespace Network

open Listens Relation

def flight (as : List (RequestId × Bool)) (up : List Request) : List RequestId :=
  as.map Prod.fst ++ up.map (·.id)

/-- The awaited answers come in the order of their listens, the innermost paths first. -/
structure Flight (as : List (RequestId × Bool)) (acc : Sending Wire) : Prop where
  flying : ∀ id p, (id, p) ∈ acc.1.awaited → id ∈ flight as acc.2.link.sent
  issued : ∀ id ∈ flight as acc.2.link.sent, id ≤ acc.2.requests.lastId
  ordered : ((flight as acc.2.link.sent).filter acc.1.awaits).Pairwise (· < ·)
  known : ∀ r ∈ acc.2.link.sent, ∀ p, (r.id, p) ∈ acc.1.awaited → r = Request.listen r.id p
  nested : ∀ i d j p, (i, d) ∈ acc.1.awaited → (j, p) ∈ acc.1.awaited → p.Above d → i < j

/-- How the item of a path goes with the server and with the requests on their way. -/
inductive Tune (listening : Path → Bool) (as : List (RequestId × Bool)) (up : List Request)
    (l : Listens) (p : Path) : Prop where
  /-- The listen is on its way. -/
  | sent {id : RequestId} {pre post : List Request} (request : l.request? p = some id)
      (split : up = pre ++ Request.listen id p :: post)
      (before : held (listening p) p pre = false) (after : ∀ r ∈ post, r.tells p = false)
  /-- The answer is on its way. -/
  | answered {id : RequestId} (request : l.request? p = some id)
      (answer : ∀ ok, (id, ok) ∈ as → ok = listening p) (silent : ∀ r ∈ up, r.tells p = false)
  | active (request : l.request? p = none) (status : l.status? p = some .active)
      (on : listening p = true) (silent : ∀ r ∈ up, r.tells p = false)
  | idle (request : l.request? p = none) (status : l.status? p ≠ some .active)
      (off : held (listening p) p up = false)

/-- When the server comes to a listen, it listens to nothing above its path. -/
def Free (listening : Path → Bool) (up : List Request) : Prop :=
  ∀ pre r post, up = pre ++ r :: post → r.action = .listen →
    ∀ q, q.Above r.place → held (listening q) q pre = false

structure Tuned (listening : Path → Bool) (as : List (RequestId × Bool)) (acc : Sending Wire) :
    Prop where
  flight : Flight as acc
  request_pending : ∀ p id, acc.1.request? p = some id → acc.1.status? p = some .pending
  awaited_request : ∀ id p, (id, p) ∈ acc.1.awaited → acc.1.request? p = some id
  /-- No listen is unanswered below an active path. -/
  calm : ∀ p q, p.Above q → acc.1.status? p = some .active → acc.1.status? q ≠ some .pending
  tune : ∀ p, Tune listening as acc.2.link.sent acc.1 p
  free : Free listening acc.2.link.sent

section Flight
variable {as : List (RequestId × Bool)} {l l' : Listens} {w w' : Wire} {r : Request}

theorem Flight.awaited_le (h : Flight as (l, w)) {id : RequestId} {p : Path}
    (ha : (id, p) ∈ l.awaited) : id ≤ w.requests.lastId :=
  h.issued id (h.flying id p ha)

theorem Flight.forget (h : Flight as (l, w)) (sub : ∀ a ∈ l'.awaited, a ∈ l.awaited) :
    Flight as (l', w) where
  flying id p ha := h.flying id p (sub _ ha)
  issued := h.issued
  ordered := by
    refine h.ordered.sublist (List.monotone_filter_right _ ?_)
    intro id hid
    obtain ⟨p, hp⟩ := awaits_iff.mp hid
    exact awaits_iff.mpr ⟨p, sub _ hp⟩
  known r hr p ha := h.known r hr p (sub _ ha)
  nested i d j p hi hj := h.nested i d j p (sub _ hi) (sub _ hj)

theorem Flight.post (h : Flight as (l, w)) (hw : w.Sent r w') (other : l.awaits r.id = false) :
    Flight as (l, w') where
  flying id p ha := by
    rw [hw.link, flight, List.map_append, ← List.append_assoc]
    exact List.mem_append_left _ (h.flying id p ha)
  issued id hid := by
    rw [hw.link, flight, List.map_append, ← List.append_assoc, List.mem_append] at hid
    rcases hid with hid | hid
    · exact Nat.le_trans (h.issued id hid) hw.lastId
    · rw [List.map_singleton, List.mem_singleton] at hid
      exact hid ▸ hw.numbered
  ordered := by
    have hf : (flight as w'.link.sent).filter l.awaits
        = (flight as w.link.sent).filter l.awaits := by
      rw [hw.link, flight, List.map_append, ← List.append_assoc, List.filter_append]
      simp [other, flight]
    rw [hf]
    exact h.ordered
  known x hx p ha := by
    rw [hw.link, List.mem_append, List.mem_singleton] at hx
    rcases hx with hx | rfl
    · exact h.known x hx p ha
    · have hx : l.awaits x.id = true := awaits_iff.mpr ⟨p, ha⟩
      rw [other] at hx
      cases hx
  nested := h.nested

theorem Flight.send (h : Flight as (l, w)) {p : Path}
    (hw : w.Sent (.listen (w.requests.lastId + 1) p) w')
    (above : ∀ i d, (i, d) ∈ l.awaited → ¬ d.Above p)
    (awaited : l'.awaited = l.awaited ++ [(w.requests.lastId + 1, p)]) : Flight as (l', w') := by
  have sent : flight as w'.link.sent = flight as w.link.sent ++ [w.requests.lastId + 1] := by
    rw [hw.link, flight, List.map_append, ← List.append_assoc]
    rfl
  have split : ∀ id q, (id, q) ∈ l'.awaited →
      (id, q) ∈ l.awaited ∨ (id = w.requests.lastId + 1 ∧ q = p) := by
    intro id q hq
    rw [awaited, List.mem_append, List.mem_singleton] at hq
    exact hq.imp_right fun he => Prod.mk.inj he
  refine ⟨?_, ?_, ?_, ?_, ?_⟩
  · intro id q hq
    rw [sent]
    rcases split id q hq with hq | ⟨rfl, rfl⟩
    · exact List.mem_append_left _ (h.flying id q hq)
    · exact List.mem_append_right _ (List.mem_singleton_self _)
  · intro id hid
    rw [sent, List.mem_append, List.mem_singleton] at hid
    rcases hid with hid | rfl
    · exact Nat.le_trans (h.issued id hid) hw.lastId
    · exact hw.numbered
  · have hold : (flight as w.link.sent).filter l'.awaits
        = (flight as w.link.sent).filter l.awaits := by
      apply List.filter_congr
      intro id hid
      have hle := h.issued id hid
      simp only [awaits, awaited, List.any_append, List.any_cons, List.any_nil, Bool.or_false]
      have hne : (w.requests.lastId + 1 == id) = false :=
        beq_eq_false_iff_ne.mpr (Nat.ne_of_lt (Nat.lt_succ_of_le hle)).symm
      rw [hne, Bool.or_false]
    rw [sent, List.filter_append, hold, List.pairwise_append]
    refine ⟨h.ordered, ?_, ?_⟩
    · exact (List.pairwise_singleton _ _).filter _
    · intro a ha b hb
      have hle := h.issued a (List.mem_filter.mp ha).1
      rw [List.mem_singleton.mp (List.mem_filter.mp hb).1]
      exact Nat.lt_succ_of_le hle
  · intro x hx q hq
    rw [hw.link, List.mem_append, List.mem_singleton] at hx
    rcases hx with hx | rfl
    · rcases split x.id q hq with hq | ⟨he, _⟩
      · exact h.known x hx q hq
      · have hmem : x.id ∈ flight as w.link.sent :=
          List.mem_append_right _ (List.mem_map_of_mem hx)
        have hle := h.issued x.id hmem
        rw [he] at hle
        exact absurd hle (Nat.not_succ_le_self _)
    · rcases split _ q hq with hq | ⟨_, rfl⟩
      · have hle := h.awaited_le hq
        exact absurd hle (Nat.not_succ_le_self _)
      · rfl
  · intro i d j q hi hj hqd
    rcases split i d hi with hi | ⟨rfl, rfl⟩ <;> rcases split j q hj with hj | ⟨rfl, rfl⟩
    · exact h.nested i d j q hi hj hqd
    · exact Nat.lt_succ_of_le (h.awaited_le hi)
    · exact absurd hqd (above j q hj)
    · exact absurd hqd (Path.not_above_self _)

/-- The answer at the front is the answer to the first listen that is awaited. -/
theorem Flight.front {id : RequestId} {ok : Bool} (h : Flight ((id, ok) :: as) (l, w))
    {p : Path} (ha : (id, p) ∈ l.awaited) {i : RequestId} {q : Path} (hi : (i, q) ∈ l.awaited) :
    i = id ∨ id < i := by
  have hmem := h.flying i q hi
  have hord := h.ordered
  have hf : flight ((id, ok) :: as) w.link.sent = id :: flight as w.link.sent := rfl
  rw [hf] at hmem hord
  rw [List.filter_cons_of_pos (awaits_iff.mpr ⟨p, ha⟩), List.pairwise_cons] at hord
  rcases List.mem_cons.mp hmem with rfl | hmem
  · exact Or.inl rfl
  · exact Or.inr (hord.1 i (List.mem_filter.mpr ⟨hmem, awaits_iff.mpr ⟨q, hi⟩⟩))

/-- No second answer and no request on its way has the number of an awaited answer at the front. -/
theorem Flight.once {id : RequestId} {ok : Bool} (h : Flight ((id, ok) :: as) (l, w))
    {p : Path} (ha : (id, p) ∈ l.awaited) : id ∉ flight as w.link.sent := by
  intro hmem
  have hord := h.ordered
  have hf : flight ((id, ok) :: as) w.link.sent = id :: flight as w.link.sent := rfl
  have hid : l.awaits id = true := awaits_iff.mpr ⟨p, ha⟩
  rw [hf, List.filter_cons_of_pos hid, List.pairwise_cons] at hord
  exact Nat.lt_irrefl id (hord.1 id (List.mem_filter.mpr ⟨hmem, hid⟩))

theorem Flight.take {id : RequestId} {ok : Bool} (h : Flight ((id, ok) :: as) (l, w))
    (sub : ∀ a ∈ l'.awaited, a ∈ l.awaited) (other : l'.awaits id = false) :
    Flight as (l', w) where
  flying i p hi := by
    rcases List.mem_cons.mp (h.flying i p (sub _ hi)) with rfl | hmem
    · have : l'.awaits i = true := awaits_iff.mpr ⟨p, hi⟩
      rw [other] at this
      cases this
    · exact hmem
  issued i hi := h.issued i (List.mem_cons_of_mem _ hi)
  ordered := by
    refine h.ordered.sublist (List.Sublist.trans ?_ ((List.sublist_cons_self _ _).filter _))
    apply List.monotone_filter_right _
    intro i hi
    obtain ⟨p, hp⟩ := awaits_iff.mp hi
    exact awaits_iff.mpr ⟨p, sub _ hp⟩
  known r hr p ha := h.known r hr p (sub _ ha)
  nested i d j p hi hj := h.nested i d j p (sub _ hi) (sub _ hj)

end Flight

section Tune
variable {S S' : Path → Bool} {as as' : List (RequestId × Bool)} {up : List Request}
  {l l' : Listens} {p : Path} {r : Request}

theorem Tune.congr (h : Tune S as up l p) (request : l'.request? p = l.request? p)
    (status : l'.status? p = l.status? p) : Tune S as up l' p := by
  cases h with
  | sent hr hs hb ha => exact .sent (request.trans hr) hs hb ha
  | answered hr ha hq => exact .answered (request.trans hr) ha hq
  | active hr hs ho hq => exact .active (request.trans hr) (status.trans hs) ho hq
  | idle hr hs ho => exact .idle (request.trans hr) (status ▸ hs) ho

theorem Tune.append (h : Tune S as up l p) (silent : r.tells p = false) :
    Tune S as (up ++ [r]) l p := by
  have all : ∀ {rs : List Request}, (∀ x ∈ rs, x.tells p = false) →
      ∀ x ∈ rs ++ [r], x.tells p = false := by
    intro rs hrs x hx
    rcases List.mem_append.mp hx with hx | hx
    · exact hrs x hx
    · rw [List.mem_singleton.mp hx]
      exact silent
  cases h with
  | sent hr hs hb ha =>
    refine .sent hr ?_ hb (all ha)
    rw [hs, List.append_assoc]
    rfl
  | answered hr ha hq => exact .answered hr ha (all hq)
  | active hr hs ho hq => exact .active hr hs ho (all hq)
  | idle hr hs ho =>
    refine .idle hr hs ?_
    rw [held_append_one, holds_of_silent silent]
    exact ho

theorem Tune.take (h : Tune S as up l p) (sub : ∀ a ∈ as', a ∈ as) : Tune S as' up l p := by
  cases h with
  | sent hr hs hb ha => exact .sent hr hs hb ha
  | answered hr ha hq => exact .answered hr (fun ok hok => ha ok (sub _ hok)) hq
  | active hr hs ho hq => exact .active hr hs ho hq
  | idle hr hs ho => exact .idle hr hs ho

theorem Tune.off (h : Tune S as up l p) (request : l.request? p = none)
    (status : l.status? p ≠ some .active) : held (S p) p up = false := by
  cases h with
  | sent hr => simp [request] at hr
  | answered hr => simp [request] at hr
  | active _ hs => exact absurd hs status
  | idle _ _ ho => exact ho

end Tune

theorem Tuned.request_none {S : Path → Bool} {as : List (RequestId × Bool)} {acc : Sending Wire}
    (h : Tuned S as acc) {p : Path} (hs : acc.1.status? p ≠ some .pending) :
    acc.1.request? p = none := by
  cases hr : acc.1.request? p with
  | none => rfl
  | some id => exact absurd (h.request_pending p id hr) hs

theorem Tuned.off {S : Path → Bool} {as : List (RequestId × Bool)} {acc : Sending Wire}
    (h : Tuned S as acc) {p : Path} (hs : ∀ s, acc.1.status? p = some s → s.covers = false) :
    held (S p) p acc.2.link.sent = false := by
  refine (h.tune p).off (h.request_none ?_) ?_
  · intro he
    cases hs _ he
  · intro he
    cases hs _ he

section Free
variable {S : Path → Bool} {up : List Request}

theorem append_one_eq {α : Type} {as pre post : List α} {a x : α} (h : as ++ [a] = pre ++ x :: post) :
    (∃ post', as = pre ++ x :: post') ∨ (as = pre ∧ x = a) := by
  rcases List.eq_nil_or_concat post with rfl | ⟨post', y, rfl⟩
  · obtain ⟨rfl, he⟩ := List.append_inj' h rfl
    exact Or.inr ⟨rfl, (List.cons.inj he).1.symm⟩
  · have h' : as ++ [a] = (pre ++ x :: post') ++ [y] := by simpa using h
    exact Or.inl ⟨post', (List.append_inj' h' rfl).1⟩

theorem Free.append (h : Free S up) {r : Request} (action : r.action ≠ .listen) :
    Free S (up ++ [r]) := by
  intro pre x post he hx q hq
  rcases append_one_eq he with ⟨post', he⟩ | ⟨_, he⟩
  · exact h pre x post' he hx q hq
  · exact absurd (he ▸ hx) action

theorem Free.append_listen (h : Free S up) {id : RequestId} {p : Path}
    (above : ∀ q, q.Above p → held (S q) q up = false) : Free S (up ++ [.listen id p]) := by
  intro pre x post he hx q hq
  rcases append_one_eq he with ⟨post', he⟩ | ⟨hup, he⟩
  · exact h pre x post' he hx q hq
  · rw [he] at hq
    rw [← hup]
    exact above q hq

end Free

section Changes
variable {S : Path → Bool} {as : List (RequestId × Bool)} {l l' : Listens} {w w' : Wire}
  {p : Path}

theorem Tuned.rest (h : Tuned S as (l, w)) (awaited : ∀ a ∈ l'.awaited, a ∈ l.awaited)
    (frame : ∀ q, q ≠ p → l'.request? q = l.request? q ∧ l'.status? q = l.status? q)
    (request : l'.request? p = none) (gone : ∀ id, (id, p) ∉ l'.awaited)
    (still : ∀ s, l'.status? p = some s → s.onWire = false)
    (off : w' = w ∧ held (S p) p w.link.sent = false
      ∨ w.Sent (.unlisten (w.requests.lastId + 1) p) w') : Tuned S as (l', w') where
  flight := by
    have hf : Flight as (l', w) := h.flight.forget awaited
    rcases off with ⟨rfl, _⟩ | hw
    · exact hf
    · apply hf.post hw
      cases ha : l'.awaits (Request.unlisten (w.requests.lastId + 1) p).id with
      | false => rfl
      | true =>
        obtain ⟨q, hq⟩ := awaits_iff.mp ha
        exact absurd (hf.awaited_le hq) (Nat.not_succ_le_self _)
  request_pending q id hq := by
    by_cases hqp : q = p
    · subst hqp
      rw [request] at hq
      cases hq
    · rw [(frame q hqp).1] at hq
      rw [(frame q hqp).2]
      exact h.request_pending q id hq
  awaited_request id q hq := by
    by_cases hqp : q = p
    · subst hqp
      exact absurd hq (gone id)
    · rw [(frame q hqp).1]
      exact h.awaited_request id q (awaited _ hq)
  calm a q haq ha hq := by
    have hap : a ≠ p := by
      rintro rfl
      cases still _ ha
    have hqp : q ≠ p := by
      rintro rfl
      cases still _ hq
    rw [(frame a hap).2] at ha
    rw [(frame q hqp).2] at hq
    exact h.calm a q haq ha hq
  tune q := by
    by_cases hqp : q = p
    · subst hqp
      refine .idle request (fun ha => by cases still _ ha) ?_
      rcases off with ⟨rfl, hoff⟩ | hw
      · exact hoff
      · rw [hw.link, held_append_one, Request.holds, Request.tells_unlisten]
        simp [Request.unlisten, Request.bare]
    · have hq := (h.tune q).congr (frame q hqp).1 (frame q hqp).2
      rcases off with ⟨rfl, _⟩ | hw
      · exact hq
      · rw [hw.link]
        apply hq.append
        simp [Request.tells_unlisten, Ne.symm hqp]
  free := by
    rcases off with ⟨rfl, _⟩ | hw
    · exact h.free
    · rw [hw.link]
      exact h.free.append (by simp [Request.unlisten, Request.bare])

theorem Tuned.congr (h : Tuned S as (l, w)) (awaited : l'.awaited = l.awaited)
    (same : ∀ q, l'.request? q = l.request? q ∧ l'.status? q = l.status? q) :
    Tuned S as (l', w) where
  flight := h.flight.forget fun a ha => awaited ▸ ha
  request_pending q id hq := by
    rw [(same q).2]
    exact h.request_pending q id ((same q).1 ▸ hq)
  awaited_request id q hq := by
    rw [(same q).1]
    exact h.awaited_request id q (awaited ▸ hq)
  calm a q haq ha hq := h.calm a q haq ((same a).2 ▸ ha) ((same q).2 ▸ hq)
  tune q := (h.tune q).congr (same q).1 (same q).2
  free := h.free

theorem Tuned.send (h : Tuned S as (l, w)) (isOpen : w.link.isOpen = true) {s : ListenStatus}
    (status : l.status? p = some s) (fresh : s ≠ .pending) (inactive : s ≠ .active)
    (uncovered : l.isCovered p = false) : Tuned S as (Listens.send Wire.sink (l, w) p) := by
  have hw := Wire.sent_listen isOpen p
  have above : ∀ q, q.Above p → held (S q) q w.link.sent = false :=
    fun q hq => h.off fun t ht => isCovered_eq_false_iff.mp uncovered q t hq ht
  have request : l.request? p = none := h.request_none fun he =>
    fresh (Option.some.inj (status.symm.trans he))
  have off : held (S p) p w.link.sent = false :=
    (h.tune p).off request fun he => inactive (Option.some.inj (status.symm.trans he))
  refine ⟨?_, ?_, ?_, ?_, ?_, ?_⟩
  · refine h.flight.send hw (?_) rfl
    intro i d hi hd
    have hpend := h.request_pending d i (h.awaited_request i d hi)
    cases isCovered_eq_false_iff.mp uncovered d _ hd hpend
  · intro q id hq
    by_cases hqp : q = p
    · subst hqp
      exact status?_send_self Wire.sink (l, w) q status
    · rw [request?_send_ne Wire.sink (l, w) p hqp] at hq
      rw [status?_send_ne Wire.sink (l, w) p hqp]
      exact h.request_pending q id hq
  · intro id q hq
    rcases List.mem_append.mp hq with hq | hq
    · have hqp : q ≠ p := by
        rintro rfl
        have := h.awaited_request id q hq
        rw [request] at this
        cases this
      rw [request?_send_ne Wire.sink (l, w) p hqp]
      exact h.awaited_request id q hq
    · obtain ⟨rfl, rfl⟩ := Prod.mk.inj (List.mem_singleton.mp hq)
      exact request?_send_self Wire.sink (l, w) q status
  · intro a q haq ha hq
    have hap : a ≠ p := by
      rintro rfl
      rw [status?_send_self Wire.sink (l, w) a status] at ha
      cases ha
    rw [status?_send_ne Wire.sink (l, w) p hap] at ha
    by_cases hqp : q = p
    · subst hqp
      cases isCovered_eq_false_iff.mp uncovered a _ haq ha
    · rw [status?_send_ne Wire.sink (l, w) p hqp] at hq
      exact h.calm a q haq ha hq
  · intro q
    rw [send_wire, hw.link]
    by_cases hqp : q = p
    · subst hqp
      exact .sent (request?_send_self Wire.sink (l, w) q status) rfl off nofun
    · refine ((h.tune q).congr (request?_send_ne Wire.sink (l, w) p hqp)
        (status?_send_ne Wire.sink (l, w) p hqp)).append ?_
      simp [Request.tells_listen, Ne.symm hqp]
  · rw [send_wire, hw.link]
    exact h.free.append_listen above

theorem Tuned.mask (h : Tuned S as (l, w)) (isOpen : w.link.isOpen = true) {s : ListenStatus}
    (status : l.status? p = some s) (fresh : s ≠ .pending) :
    Tuned S as (l.setStatus p .masked, if s = .active then Wire.sink.unlisten p w else w)
      ∧ (if s = .active then Wire.sink.unlisten p w else w).link.isOpen = true := by
  have request : l.request? p = none := h.request_none fun he =>
    fresh (Option.some.inj (status.symm.trans he))
  have gone : ∀ id, (id, p) ∉ l.awaited := by
    intro id hid
    have := h.awaited_request id p hid
    rw [request] at this
    cases this
  have still : ∀ t, (l.setStatus p .masked).status? p = some t → t.onWire = false := by
    intro t ht
    rw [status?_setStatus_self status] at ht
    cases ht
    rfl
  have frame : ∀ q, q ≠ p → (l.setStatus p .masked).request? q = l.request? q
      ∧ (l.setStatus p .masked).status? q = l.status? q :=
    fun q hqp => ⟨request?_setStatus l p q _, status?_setStatus_ne hqp⟩
  have request' := (request?_setStatus l p p .masked).trans request
  split
  · have hw := Wire.sent_unlisten isOpen p
    refine ⟨h.rest (fun _ ha => ha) frame request' gone still (Or.inr hw), ?_⟩
    rw [hw.link]
    exact isOpen
  · rename_i hs
    have off := (h.tune p).off request fun he => hs (Option.some.inj (status.symm.trans he))
    exact ⟨h.rest (fun _ ha => ha) frame request' gone still (Or.inl ⟨rfl, off⟩), isOpen⟩

end Changes

section Moves
variable {S : Path → Bool} {as : List (RequestId × Bool)} {acc acc' : Sending Wire}

theorem Move.tuned (m : Move Wire.sink False acc acc') (online : acc.1.online = true)
    (isOpen : acc.2.link.isOpen = true) (h : Tuned S as acc) :
    Tuned S as acc' ∧ acc'.2.link.isOpen = true := by
  cases m with
  | @send l w p s status want free =>
    have fresh : s ≠ .pending ∧ s ≠ .active := by
      rcases want with rfl | rfl | ⟨he, _⟩
      · decide
      · decide
      · exact he.elim
    refine ⟨h.send isOpen status fresh.1 fresh.2 free, ?_⟩
    rw [send_wire, (Wire.sent_listen isOpen p).link]
    exact isOpen
  | need _ _ offline => exact absurd (online.symm.trans offline) (by decide)
  | mask above active status covers =>
    apply h.mask isOpen status
    rintro rfl
    exact h.calm _ _ above active status
  | yield status want covered =>
    rcases want with rfl | ⟨he, _⟩
    · exact h.mask isOpen status (by decide)
    · exact he.elim

theorem moves_tuned (m : ReflTransGen (Move Wire.sink False) acc acc')
    (sound : acc.1.items.Sound) (online : acc.1.online = true)
    (isOpen : acc.2.link.isOpen = true) (h : Tuned S as acc) :
    Tuned S as acc' ∧ acc'.2.link.isOpen = true := by
  induction m with
  | refl => exact ⟨h, isOpen⟩
  | tail ms m ih => exact Move.tuned m ((moves_sound ms sound).2.trans online) ih.2 ih.1

end Moves

end Network

end LiveTree
