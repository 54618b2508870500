import LiveTree.Proofs.Cache.Changes
import LiveTree.Proofs.Network.Basic
import LiveTree.Proofs.Path.Order

/-!
# What a channel says about one path

The requests on their way decide, one after the other, whether the server listens to a path. The
server goes along with that, except that it may refuse a listen; so what the requests leave
unlistened stays so whatever the server makes of the first of them.
-/

namespace LiveTree

namespace Request

/-- The path that the server takes a request to be about. -/
def place (r : Request) : Path := r.path.getD Path.root

/-- True when a request changes whether the server listens to a path. -/
def tells (r : Request) (p : Path) : Bool :=
  (r.action == .listen || r.action == .unlisten) && r.place == p

/-- Whether a path is listened to after a request, if the server does not refuse it. -/
def holds (p : Path) (held : Bool) (r : Request) : Bool :=
  if r.tells p then r.action == .listen else held

theorem tells_listen (id : RequestId) (p q : Path) : (listen id p).tells q = (p == q) := rfl

theorem tells_unlisten (id : RequestId) (p q : Path) : (unlisten id p).tells q = (p == q) := rfl

theorem tells_eq_false_of_action {r : Request} (h : r.action ≠ .listen) (h' : r.action ≠ .unlisten)
    (p : Path) : r.tells p = false := by
  cases ha : r.action <;> simp_all [tells]

end Request

namespace Network

/-- Whether a path is listened to after requests that the server does not refuse. -/
def held (before : Bool) (p : Path) (requests : List Request) : Bool :=
  requests.foldl (Request.holds p) before

section Held
variable {b b' : Bool} {p : Path} {r : Request} {rs : List Request}

@[simp] theorem held_nil : held b p [] = b := rfl

theorem held_cons : held b p (r :: rs) = held (r.holds p b) p rs := rfl

theorem held_append_one : held b p (rs ++ [r]) = r.holds p (held b p rs) := by
  simp [held]

theorem held_of_silent (h : ∀ r ∈ rs, r.tells p = false) : held b p rs = b := by
  induction rs with
  | nil => rfl
  | cons r rs ih =>
    obtain ⟨hr, hrs⟩ := List.forall_mem_cons.mp h
    rw [held_cons, Request.holds, if_neg (by simp [hr])]
    exact ih hrs

theorem holds_of_silent (h : r.tells p = false) : r.holds p b = b := by
  simp [Request.holds, h]

theorem held_eq_false_of_le (h : held b p rs = false) (le : b' = true → b = true) :
    held b' p rs = false := by
  induction rs generalizing b b' with
  | nil =>
    cases b' with
    | false => rfl
    | true =>
      rw [held_nil, le rfl] at h
      cases h
  | cons r rs ih =>
    rw [held_cons] at h ⊢
    apply ih h
    unfold Request.holds
    split
    · exact id
    · exact le

end Held

/-- The number that an answer is to, and whether it says yes. -/
def answer? : Message → Option (RequestId × Bool)
  | .response id status _ => some (id, status.isOk)
  | _ => none

def answers (inbox : List Message) : List (RequestId × Bool) := inbox.filterMap answer?

@[simp] theorem answers_nil : answers [] = [] := rfl

@[simp] theorem answers_append (a b : List Message) : answers (a ++ b) = answers a ++ answers b :=
  List.filterMap_append

/-- True for the messages that a standing connection brings. -/
def isOrdinary : Message → Bool
  | .update _ _ _ => true
  | .response _ _ _ => true
  | .handshake _ => true
  | .closed _ _ => false

end Network

namespace Server

variable {s : Server} {r : Request} {p : Path}

theorem contains_insert (hs : s.listens.Sound) (q : Path) :
    (s.listens.insert p ()).contains q = (q == p || s.listens.contains q) := by
  simp only [OrderedMap.contains, OrderedMap.get?_insert hs]
  by_cases h : q = p <;> simp [h]

theorem contains_erase (hs : s.listens.Sound) (q : Path) :
    (s.listens.erase p).contains q = (q != p && s.listens.contains q) := by
  simp only [OrderedMap.contains, OrderedMap.get?_erase hs]
  by_cases h : q = p <;> simp [h]

end Server

def UpdateKind.action : UpdateKind → Action
  | put => .put
  | merge => .merge

namespace Server

open Network

def counted (s : Server) : Server := { s with received := s.received + 1 }

/-- All that a request can do: the server after it, and the replies. -/
inductive Served (s : Server) (r : Request) : Server × List Message → Prop where
  | denied (status : String) (answered : r.action ≠ .unlisten ∧ r.action ≠ .keepalive)
      (cause : r.action = .auth ∨ s.refuses r.place = true) :
      Served s r (s.counted, [.rejected r.id status])
  | listened (action : r.action = .listen) (free : s.refuses r.place = false) :
      Served s r ({ s.counted with listens := s.listens.insert r.place () },
        [.put r.place (s.data.valueAt r.place), .ok r.id])
  | unlistened (action : r.action = .unlisten) :
      Served s r ({ s.counted with listens := s.listens.erase r.place }, [])
  | changed (kind : UpdateKind) (v : Value) (action : r.action = kind.action)
      (free : s.refuses r.place = false) (data : v = r.data.getD .null) :
      Served s r ({ s.counted with data := s.data.take kind r.place v },
        fanOut { s.counted with data := s.data.take kind r.place v } r.place
          (.update kind r.place v) ++ [.ok r.id])
  | welcomed (action : r.action = .auth) :
      Served s r ({ s.counted with authenticated := true }, [.ok r.id])
  | kept (action : r.action = .keepalive) : Served s r (s.counted, [])

theorem served_change {s : Server} {r : Request} (kind : UpdateKind) (action : r.action = kind.action) :
    Served s r (if s.refuses r.place then (s.counted, [.rejected r.id permissionDenied])
      else s.counted.change r.id kind r.place (r.data.getD .null)) := by
  cases href : s.refuses r.place with
  | true =>
    refine .denied _ ?_ (Or.inr href)
    rw [action]
    cases kind <;> decide
  | false =>
    have h : Served s r _ := .changed kind (r.data.getD .null) action href rfl
    cases kind <;> exact h

theorem process_served (s : Server) (r : Request) : Served s r (s.process r) := by
  cases ha : r.action with
  | listen =>
    have he : s.process r = if s.refuses r.place
        then (s.counted, [.rejected r.id permissionDenied])
        else s.counted.listen r.id r.place := by
      simp only [process, ha]
      rfl
    rw [he]
    cases href : s.refuses r.place with
    | true =>
      refine .denied _ ?_ (Or.inr href)
      rw [ha]
      decide
    | false => exact .listened ha href
  | unlisten =>
    have he : s.process r = ({ s.counted with listens := s.listens.erase r.place }, []) := by
      simp only [process, ha]
      rfl
    rw [he]
    exact .unlistened ha
  | put =>
    have he : s.process r = if s.refuses r.place
        then (s.counted, [.rejected r.id permissionDenied])
        else s.counted.change r.id .put r.place (r.data.getD .null) := by
      simp only [process, ha]
      rfl
    rw [he]
    exact served_change .put ha
  | merge =>
    have he : s.process r = if s.refuses r.place
        then (s.counted, [.rejected r.id permissionDenied])
        else s.counted.change r.id .merge r.place (r.data.getD .null) := by
      simp only [process, ha]
      rfl
    rw [he]
    exact served_change .merge ha
  | auth =>
    have he : s.process r = s.counted.authenticate r.id (r.credential.getD "") := by
      simp only [process, ha]
      rfl
    rw [he, authenticate]
    split
    · exact .welcomed ha
    · refine .denied _ ?_ (Or.inl ha)
      rw [ha]
      decide
  | keepalive =>
    have he : s.process r = (s.counted, []) := by
      simp only [process, ha]
      rfl
    rw [he]
    exact .kept ha

section Served
variable {s : Server} {r : Request} {p : Path} {after : Server × List Message}

theorem Served.sound (h : Served s r after) (hs : s.listens.Sound) : after.1.listens.Sound := by
  cases h with
  | listened => exact hs.insert _ _
  | unlistened => exact hs.erase _
  | _ => exact hs

theorem Served.tidy (h : Served s r after) (hd : s.data.Tidy) : after.1.data.Tidy := by
  cases h with
  | changed kind v => exact hd.take kind r.place v
  | _ => exact hd

theorem Served.of_listen (h : Served s r after) (hs : s.listens.Sound)
    (action : r.action = .listen) : ∃ ok, answers after.2 = [(r.id, ok)] ∧ ∀ p,
      after.1.isListening p = if ok then r.holds p (s.isListening p) else s.isListening p := by
  cases h with
  | denied status => exact ⟨false, rfl, fun p => rfl⟩
  | listened =>
    refine ⟨true, rfl, ?_⟩
    intro p
    simp only [Server.isListening, contains_insert hs, Request.holds, Request.tells, action]
    by_cases hp : r.place = p
    · simp [hp]
    · simp [hp, Ne.symm hp]
  | changed kind _ other =>
    rw [action] at other
    cases kind <;> cases other
  | unlistened other | welcomed other | kept other =>
    rw [action] at other
    cases other

theorem Served.of_other (h : Served s r after) (hs : s.listens.Sound)
    (action : r.action ≠ .listen) (p : Path) :
    after.1.isListening p = r.holds p (s.isListening p) := by
  cases h with
  | denied status answered =>
    exact (holds_of_silent (Request.tells_eq_false_of_action action answered.1 p)).symm
  | listened other => exact absurd other action
  | unlistened other =>
    simp only [Server.isListening, contains_erase hs, Request.holds, Request.tells, other]
    by_cases hp : r.place = p
    · simp [hp]
    · simp [hp, Ne.symm hp]
  | changed kind _ other =>
    refine (holds_of_silent (Request.tells_eq_false_of_action action ?_ p)).symm
    rw [other]
    cases kind <;> decide
  | welcomed other | kept other =>
    refine (holds_of_silent (Request.tells_eq_false_of_action action ?_ p)).symm
    rw [other]
    decide

theorem Served.isListening_le (h : Served s r after) (hs : s.listens.Sound) (p : Path)
    (on : after.1.isListening p = true) : r.holds p (s.isListening p) = true := by
  by_cases action : r.action = .listen
  · obtain ⟨ok, _, hall⟩ := h.of_listen hs action
    rw [hall p] at on
    cases ok with
    | true => exact on
    | false =>
      unfold Request.holds
      split
      · simp [action]
      · exact on
  · rw [← h.of_other hs action p]
    exact on

theorem Served.isListening_of_silent (h : Served s r after) (hs : s.listens.Sound)
    (silent : r.tells p = false) : after.1.isListening p = s.isListening p := by
  by_cases action : r.action = .listen
  · obtain ⟨ok, _, hall⟩ := h.of_listen hs action
    rw [hall p, holds_of_silent silent, ite_self]
  · rw [h.of_other hs action p, holds_of_silent silent]

theorem answers_fanOut (changed : Path) (kind : UpdateKind) (q : Path) (v : Value) :
    answers (s.fanOut changed (.update kind q v)) = [] := by
  unfold fanOut answers
  rw [List.filterMap_append, List.append_eq_nil_iff]
  constructor
  · split <;> rfl
  · rw [List.filterMap_map]
    exact List.filterMap_eq_nil_iff.mpr fun _ _ => rfl

/-- Every request but an unlisten and a keepalive has one answer, which says of a listen whether it
was taken. -/
theorem Served.answers (h : Served s r after) :
    Network.answers after.2 = []
        ∧ (r.action = .unlisten ∨ r.action = .keepalive)
      ∨ ∃ ok, Network.answers after.2 = [(r.id, ok)] ∧ r.action ≠ .unlisten
        ∧ r.action ≠ .keepalive := by
  cases h with
  | denied status answered => exact Or.inr ⟨false, rfl, answered⟩
  | listened action => exact Or.inr ⟨true, rfl, by rw [action]; decide, by rw [action]; decide⟩
  | unlistened action => exact Or.inl ⟨rfl, Or.inl action⟩
  | changed kind v action =>
    refine Or.inr ⟨true, ?_, ?_, ?_⟩
    · rw [answers_append, answers_fanOut]
      rfl
    · rw [action]
      cases kind <;> decide
    · rw [action]
      cases kind <;> decide
  | welcomed action => exact Or.inr ⟨true, rfl, by rw [action]; decide, by rw [action]; decide⟩
  | kept action => exact Or.inl ⟨rfl, Or.inr action⟩

end Served

end Server

end LiveTree
