import LiveTree.Proofs.Network.Tuned

/-!
# Steps while connected

Each step at one end of the channels keeps every path in tune: a reference that is added or dropped,
an answer that the session takes, a request that leaves, and a request that the server takes.
-/

namespace LiveTree.Network

open Listens Relation

section Session
variable {S : Path → Bool} {as : List (RequestId × Bool)} {l l' : Listens} {w w' : Wire}
  {mid : Sending Wire} {p : Path} {rest : Rest}

theorem Opening.tuned_acquire (o : Opening Wire.sink (.acquire p) (l, w) mid rest)
    (sound : l.items.Sound) (h : Tuned S as (l, w)) : Tuned S as mid ∧ mid.2 = w := by
  cases o with
  | hold =>
    refine ⟨h.congr rfl fun q => ⟨?_, ?_⟩, rfl⟩
    · exact request?_count l p q (· + 1)
    · exact status?_count l p q (· + 1)
  | add hp =>
    have hnone : l.request? p = none := by
      change l.get? p = none at hp
      simp [request?, hp]
    refine ⟨h.rest (fun _ ha => ha) (fun q hqp => frame_withNew sound hp _ hqp)
      ((request?_withNew sound hp _ p).trans hnone) ?_ ?_ ?_, rfl⟩
    · intro id hid
      have := h.awaited_request id p hid
      rw [hnone] at this
      cases this
    · intro s hs
      rw [status?_withNew_self sound hp, Option.some_inj] at hs
      rw [← hs]
      exact l.firstStatus_onWire p
    · refine Or.inl ⟨rfl, (h.tune p).off hnone ?_⟩
      rw [status?_eq_none.mpr hp]
      intro he
      cases he

theorem Opening.tuned_release (o : Opening Wire.sink (.release p) (l, w) mid rest)
    (sound : l.items.Sound) (online : l.online = true) (isOpen : w.link.isOpen = true)
    (h : Tuned S as (l, w)) : Tuned S as mid ∧ mid.2.link.isOpen = true := by
  cases o with
  | stray => exact ⟨h, isOpen⟩
  | drop =>
    refine ⟨h.congr rfl fun q => ⟨?_, ?_⟩, isOpen⟩
    · exact request?_count l p q (· - 1)
    · exact status?_count l p q (· - 1)
  | @close _ _ _ i hi =>
    have status : l.status? p = some i.status := status?_of_get? hi
    have frame := fun q (hqp : q ≠ p) => frame_removed sound hqp
    have request' := request?_remove_self sound p
    have awaited : ∀ a ∈ (l.remove p).awaited, a ∈ l.awaited := fun _ ha => (List.mem_filter.mp ha).1
    have gone : ∀ id, (id, p) ∉ (l.remove p).awaited := by
      intro id hid
      exact absurd rfl (bne_iff_ne.mp (List.mem_filter.mp hid).2)
    have still : ∀ s, (l.remove p).status? p = some s → s.onWire = false := by
      intro s hs
      rw [status?_remove_self sound] at hs
      cases hs
    cases hw : i.status.onWire with
    | true =>
      have hsent := Wire.sent_unlisten isOpen p
      rw [online]
      refine ⟨h.rest awaited frame request' gone still (Or.inr hsent), ?_⟩
      change (Wire.sink.unlisten p w).link.isOpen = true
      rw [hsent.link]
      exact isOpen
    | false =>
      rw [Bool.and_false]
      have off : held (S p) p w.link.sent = false := by
        refine (h.tune p).off (h.request_none ?_) ?_
        · intro he
          rw [Option.some.inj (status.symm.trans he)] at hw
          cases hw
        · intro he
          rw [Option.some.inj (status.symm.trans he)] at hw
          cases hw
      exact ⟨h.rest awaited frame request' gone still (Or.inl ⟨rfl, off⟩), isOpen⟩

theorem Tuned.take {id : RequestId} {ok : Bool} (h : Tuned S ((id, ok) :: as) (l, w))
    (other : l.awaits id = false) : Tuned S as (l, w) where
  flight := h.flight.take (fun _ ha => ha) other
  request_pending := h.request_pending
  awaited_request := h.awaited_request
  calm := h.calm
  tune q := (h.tune q).take fun _ ha => List.mem_cons_of_mem _ ha
  free := h.free

theorem awaits_forget (l : Listens) (id : RequestId) : (l.forget id).awaits id = false := by
  simp [awaits, forget]

theorem Tuned.answer_front {id : RequestId} {ok : Bool} (h : Tuned S ((id, ok) :: as) (l, w))
    (awaited : (id, p) ∈ l.awaited) :
    S p = ok ∧ ∀ r ∈ w.link.sent, r.tells p = false := by
  have request := h.awaited_request id p awaited
  cases h.tune p with
  | sent hr hs =>
    obtain rfl := Option.some.inj (request.symm.trans hr)
    refine absurd ?_ (h.flight.once awaited)
    have hs' : w.link.sent = _ := hs
    simp [Network.flight, hs', Request.listen, Request.bare]
  | answered hr ha hq =>
    obtain rfl := Option.some.inj (request.symm.trans hr)
    exact ⟨(ha ok List.mem_cons_self).symm, hq⟩
  | active hr => simp [request] at hr
  | idle hr => simp [request] at hr

theorem Tuned.not_awaited {id i : RequestId} (h : Tuned S as (l, w))
    (request : l.request? p = some id) : (i, p) ∉ (l.forget id).awaited := by
  intro hi
  obtain ⟨hi, hne⟩ := List.mem_filter.mp hi
  obtain rfl := Option.some.inj ((h.awaited_request i p hi).symm.trans request)
  exact absurd rfl (bne_iff_ne.mp hne)

theorem Tuned.accept {id : RequestId} {issued : Wire → RequestId → Prop}
    (h : Tuned S ((id, true) :: as) (l, w)) (ha : Awaiting issued (l, w))
    (hl : l.awaited.lookup id = some p) (request : l.request? p = some id)
    (pending : l.status? p = some .pending) :
    Tuned S as (((l.forget id).setRequest p none).setStatus p .active, w) := by
  have listed : (id, p) ∈ l.awaited := mem_of_lookup hl
  obtain ⟨on, silent⟩ := h.answer_front listed
  obtain ⟨hreq, hstat⟩ := settled_self l id pending .active
  have frame := fun q (hqp : q ≠ p) => frame_settled l id p .active hqp
  have sub : ∀ a ∈ (l.forget id).awaited, a ∈ l.awaited := fun _ ha => (List.mem_filter.mp ha).1
  refine ⟨h.flight.take sub (awaits_forget l id), ?_, ?_, ?_, ?_, h.free⟩
  · intro q i hq
    by_cases hqp : q = p
    · subst hqp
      rw [hreq] at hq
      cases hq
    · rw [(frame q hqp).1] at hq
      rw [(frame q hqp).2]
      exact h.request_pending q i hq
  · intro i q hq
    have hqi := h.awaited_request i q (sub _ hq)
    have hqp : q ≠ p := by
      rintro rfl
      exact h.not_awaited request hq
    rw [(frame q hqp).1]
    exact hqi
  · -- a listen below the accepted one was sent before it, so it was answered before it
    intro a q haq hact hpend
    have hqp : q ≠ p := by
      rintro rfl
      rw [hstat] at hpend
      cases hpend
    rw [(frame q hqp).2] at hpend
    by_cases hap : a = p
    · subst hap
      obtain ⟨i, hi⟩ := ha.pending q hpend
      have hiq := ha.listed q i hi
      have hlt := h.flight.nested i q id a hiq listed haq
      rcases h.flight.front listed hiq with rfl | hgt
      · exact Nat.lt_irrefl _ hlt
      · exact Nat.lt_asymm hlt hgt
    · rw [(frame a hap).2] at hact
      exact h.calm a q haq hact hpend
  · intro q
    by_cases hqp : q = p
    · subst hqp
      exact .active hreq hstat on silent
    · exact ((h.tune q).congr (frame q hqp).1 (frame q hqp).2).take
        fun _ ha => List.mem_cons_of_mem _ ha

theorem Tuned.refuse {id : RequestId} (h : Tuned S ((id, false) :: as) (l, w))
    (hl : l.awaited.lookup id = some p) (request : l.request? p = some id)
    (pending : l.status? p = some .pending) :
    Tuned S as (((l.forget id).setRequest p none).setStatus p .failed, w) := by
  obtain ⟨off, silent⟩ := h.answer_front (mem_of_lookup hl)
  obtain ⟨hreq, hstat⟩ := settled_self l id pending .failed
  have sub : ∀ a ∈ (l.forget id).awaited, a ∈ l.awaited := fun _ ha => (List.mem_filter.mp ha).1
  have still : ∀ s, (((l.forget id).setRequest p none).setStatus p .failed).status? p = some s →
      s.onWire = false := by
    intro s hs
    rw [hstat] at hs
    cases hs
    rfl
  have hrest : Tuned S ((id, false) :: as)
      (((l.forget id).setRequest p none).setStatus p .failed, w) := by
    refine h.rest sub (fun q hqp => frame_settled l id p .failed hqp) hreq ?_ still ?_
    · intro i hi
      exact h.not_awaited request hi
    · exact Or.inl ⟨rfl, (held_of_silent silent).trans off⟩
  exact hrest.take (awaits_forget l id)

theorem Opening.tuned_answer {id : RequestId} {ok : Bool} {issued : Wire → RequestId → Prop}
    (o : Opening Wire.sink (.answer id ok) (l, w) mid rest) (ha : Awaiting issued (l, w))
    (h : Tuned S ((id, ok) :: as) (l, w)) : Tuned S as mid ∧ mid.2 = w := by
  cases o with
  | unknown hn =>
    refine ⟨h.take ?_, rfl⟩
    cases hid : l.awaits id with
    | false => rfl
    | true =>
      obtain ⟨q, hq⟩ := awaits_iff.mp hid
      have := lookup_of_awaited ha.nodup hq
      rw [hn] at this
      cases this
  | stale hl old => exact absurd (h.awaited_request id _ (mem_of_lookup hl)) old
  | late hl request masked =>
    have := h.request_pending _ id request
    rw [masked] at this
    cases this
  | lapse hl request status other =>
    exact absurd (Option.some.inj (status.symm.trans (h.request_pending _ id request))) other
  | accept hl request pending => exact ⟨h.accept ha hl request pending, rfl⟩
  | refuse hl request pending => exact ⟨h.refuse hl request pending, rfl⟩

theorem Tuned.post {r : Request} (h : Tuned S as (l, w)) (hw : w.Sent r w')
    (silent : r.action ≠ .listen ∧ r.action ≠ .unlisten) (other : l.awaits r.id = false) :
    Tuned S as (l, w') where
  flight := h.flight.post hw other
  request_pending := h.request_pending
  awaited_request := h.awaited_request
  calm := h.calm
  tune q := by
    rw [hw.link]
    exact (h.tune q).append (Request.tells_eq_false_of_action silent.1 silent.2 q)
  free := by
    rw [hw.link]
    exact h.free.append silent.1

end Session

section Server
variable {server : Server} {as : List (RequestId × Bool)} {l : Listens} {w : Wire} {r : Request}
  {rest : List Request} {after : Server × List Message}

theorem Flight.not_answered (h : Flight as (l, w)) (sent : r ∈ w.link.sent) {p : Path}
    (awaited : (r.id, p) ∈ l.awaited) (ok : Bool) : (r.id, ok) ∉ as := by
  intro hmem
  have hid : l.awaits r.id = true := awaits_iff.mpr ⟨p, awaited⟩
  have hord := h.ordered
  rw [flight, List.filter_append, List.pairwise_append] at hord
  exact Nat.lt_irrefl _ (hord.2.2 r.id (List.mem_filter.mpr ⟨List.mem_map_of_mem hmem, hid⟩) r.id
    (List.mem_filter.mpr ⟨List.mem_map_of_mem sent, hid⟩))

/-- What the server takes is on its way no more, or its answer is. -/
theorem Flight.serve (h : Flight as (l, w)) (hs : w.link.sent = r :: rest)
    (served : server.Served r after) :
    Flight (as ++ answers after.2) (l, { w with link.sent := rest }) := by
  have hf : flight as w.link.sent = as.map Prod.fst ++ r.id :: rest.map (·.id) := by
    rw [hs, flight, List.map_cons]
  -- an unlisten or a keepalive has no answer, but nobody awaits one either
  have main : (∀ id, l.awaits id = true → id ∈ flight as w.link.sent →
      id ∈ flight (as ++ answers after.2) rest)
      ∧ (∀ id ∈ flight (as ++ answers after.2) rest, id ∈ flight as w.link.sent)
      ∧ (flight (as ++ answers after.2) rest).filter l.awaits
        = (flight as w.link.sent).filter l.awaits := by
    rcases served.answers with ⟨hnone, action⟩ | ⟨ok, hone, _⟩
    · have other : l.awaits r.id = false := by
        cases ha : l.awaits r.id with
        | false => rfl
        | true =>
          obtain ⟨p, hp⟩ := awaits_iff.mp ha
          have hr := h.known r (hs ▸ List.mem_cons_self) p hp
          rw [hr] at action
          rcases action with action | action <;> cases action
      have hf' : flight (as ++ answers after.2) rest = as.map Prod.fst ++ rest.map (·.id) := by
        rw [hnone, List.append_nil, flight]
      rw [hf, hf']
      refine ⟨?_, ?_, ?_⟩
      · intro id hid hmem
        simp only [List.mem_append, List.mem_cons] at hmem ⊢
        rcases hmem with hmem | rfl | hmem
        · exact Or.inl hmem
        · rw [other] at hid
          cases hid
        · exact Or.inr hmem
      · intro id hmem
        simp only [List.mem_append, List.mem_cons] at hmem ⊢
        exact hmem.imp_right Or.inr
      · simp [List.filter_append, other]
    · have hf' : flight (as ++ answers after.2) rest = flight as w.link.sent := by
        rw [hf, hone, flight, List.map_append, List.append_assoc]
        rfl
      rw [hf']
      exact ⟨fun _ _ hmem => hmem, fun _ hmem => hmem, rfl⟩
  refine ⟨?_, ?_, ?_, ?_, h.nested⟩
  · intro id p hp
    exact main.1 id (awaits_iff.mpr ⟨p, hp⟩) (h.flying id p hp)
  · intro id hid
    exact h.issued id (main.2.1 id hid)
  · change ((flight (as ++ answers after.2) rest).filter l.awaits).Pairwise (· < ·)
    rw [main.2.2]
    exact h.ordered
  · intro x hx p hp
    exact h.known x (hs ▸ List.mem_cons_of_mem r hx) p hp

theorem Tune.serve (hflight : Flight as (l, w)) (hs : w.link.sent = r :: rest)
    (sound : server.listens.Sound) (served : server.Served r after) {p : Path}
    (listed : ∀ id, l.request? p = some id → (id, p) ∈ l.awaited)
    (h : Tune server.isListening as (r :: rest) l p) :
    Tune after.1.isListening (as ++ answers after.2) rest l p := by
  have first : r ∈ w.link.sent := hs ▸ List.mem_cons_self
  have less : ∀ {requests : List Request},
      held (server.isListening p) p (r :: requests) = false →
      held (after.1.isListening p) p requests = false := by
    intro requests hheld
    rw [held_cons] at hheld
    exact held_eq_false_of_le hheld (served.isListening_le sound p)
  cases h with
  | @sent id pre post request split before after' =>
    cases pre with
    | nil =>
      obtain ⟨rfl, rfl⟩ := List.cons.inj split
      obtain ⟨ok, hone, hall⟩ := served.of_listen sound rfl
      have on : after.1.isListening p = ok := by
        rw [hall p, Request.holds, Request.tells_listen]
        cases ok with
        | true => simp [Request.listen, Request.bare]
        | false => exact before
      refine .answered request (?_) after'
      intro ok' hok
      rw [hone, List.mem_append, List.mem_singleton] at hok
      rcases hok with hok | hok
      · exact absurd hok (hflight.not_answered first (listed id request) ok')
      · rw [on]
        exact (Prod.mk.inj hok).2
    | cons x pre =>
      obtain ⟨rfl, rfl⟩ := List.cons.inj split
      exact .sent request rfl (less before) after'
  | @answered id request answer silent =>
    obtain ⟨hr, hrest⟩ := List.forall_mem_cons.mp silent
    refine .answered request (?_) hrest
    intro ok hok
    rw [served.isListening_of_silent sound hr]
    rcases List.mem_append.mp hok with hok | hok
    · exact answer ok hok
    · rcases served.answers with ⟨hnone, _⟩ | ⟨ok', hone, _⟩
      · rw [hnone] at hok
        cases hok
      · rw [hone, List.mem_singleton] at hok
        have hid : r.id = id := (Prod.mk.inj hok).1.symm
        have hlisten := hflight.known r first p (hid ▸ listed id request)
        rw [hlisten, Request.tells_listen] at hr
        simp at hr
  | active request status on silent =>
    obtain ⟨hr, hrest⟩ := List.forall_mem_cons.mp silent
    refine .active request status ?_ hrest
    rw [served.isListening_of_silent sound hr]
    exact on
  | idle request status off => exact .idle request status (less off)

theorem Tuned.serve (h : Tuned server.isListening as (l, w)) (hs : w.link.sent = r :: rest)
    (sound : server.listens.Sound) (served : server.Served r after)
    (listed : ∀ p id, l.request? p = some id → (id, p) ∈ l.awaited) :
    Tuned after.1.isListening (as ++ answers after.2) (l, { w with link.sent := rest }) where
  flight := h.flight.serve hs served
  request_pending := h.request_pending
  awaited_request := h.awaited_request
  calm := h.calm
  tune p := Tune.serve h.flight hs sound served (listed p) (hs ▸ h.tune p)
  free pre x post he hx q hq := by
    have he' : w.link.sent = (r :: pre) ++ x :: post := by
      rw [hs]
      exact congrArg (r :: ·) he
    have hheld := h.free _ x post he' hx q hq
    rw [held_cons] at hheld
    exact held_eq_false_of_le hheld (served.isListening_le sound q)

end Server

end LiveTree.Network
