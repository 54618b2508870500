import LiveTree.Proofs.Cache.Changes
import LiveTree.Session.Inbound

/-!
# Calls on a session

What can be done with a session, in any order. A session shows its cache, its subscriptions and the
events it has reported; most calls leave all of that as it is, and the others have one of a few
effects on it.
-/

namespace LiveTree

namespace Session

/-- What an application, the server, the clock and the link do. -/
inductive Call where
  | connect
  | close
  | watch (p : Path) (kind : EventKind)
  | unwatch (handle : Nat)
  | write (p : Path) (v : Value) (observed : Bool)
  | merge (p : Path) (v : Value) (observed : Bool)
  | push (p : Path) (v : Value) (observed : Bool)
  | authenticate (credential : String) (observed : Bool)
  | restore (snapshot : Bytes)
  | teardown
  | receive (m : Message)
  /-- A message as it comes, which may be none. -/
  | frame (text : String)
  | tick
  | pass (t : Nanos)
  /-- The digest at the end of names is asked for. -/
  | ask (names : List String)
  /-- From now on the link fails like this, or does not. -/
  | faults (opening closing : Option LinkFault)
  /-- What the link has sent is taken away. -/
  | drain

def call (s : Session) : Call → Session
  | .connect => s.connect.1
  | .close => s.close.1
  | .watch p kind => (s.watch p kind).1
  | .unwatch handle => (s.unwatch handle).1
  | .write p v observed => (s.write p v observed).1
  | .merge p v observed => (s.merge p v observed).1
  | .push p v observed => (s.push p v observed).1
  | .authenticate credential observed => (s.authenticate credential observed).1
  | .restore snapshot => (s.restore snapshot).1
  | .teardown => s.teardown
  | .receive m => s.receive m
  | .frame text => (s.receiveFrame text).1
  | .tick => s.tick
  | .pass t => s.advance t
  | .ask names => { s with cache := ⟨s.cache.root.rememberAt names⟩ }
  | .faults opening closing =>
    { s with wire.link.openFault := opening, wire.link.closeFault := closing }
  | .drain => { s with wire.link.sent := [] }

/-- The message that a call brings, if it brings one. -/
def Call.message? : Call → Option Message
  | .receive m => some m
  | .frame text => (Message.decode text).toOption
  | _ => none

theorem call_of_message {s : Session} {c : Call} {m : Message} (h : c.message? = some m) :
    s.call c = s.receive m := by
  cases c with
  | receive m => exact congrArg s.receive (Option.some.inj h)
  | frame text =>
    rw [call, receiveFrame]
    cases read : Message.decode text with
    | ok m' =>
      rw [Call.message?, read] at h
      exact congrArg s.receive (Option.some.inj h)
    | error e =>
      rw [Call.message?, read] at h
      cases h
  | _ => cases h

/-- The number under which a call has submitted a request, if it came back. -/
def issued (s : Session) : Call → Option RequestId
  | .write p v observed => (s.write p v observed).2.toOption
  | .merge p v observed => (s.merge p v observed).2.toOption
  | .push p v observed => (s.push p v observed).2.toOption.map Prod.snd
  | .authenticate credential observed => some (s.authenticate credential observed).2
  | _ => none

/-- The write that a call has submitted, if it was taken. -/
def submitted (s : Session) : Call → Option Request
  | .write p v observed => (s.write p v observed).2.toOption.map fun id => Request.put id p v
  | .merge p v observed => (s.merge p v observed).2.toOption.map fun id => Request.merge id p v
  | .push p v observed =>
    (s.push p v observed).2.toOption.bind fun e =>
      (p.child e.1).toOption.map fun q => Request.put e.2 q v
  | _ => none

/-- A session after calls, with the numbers that came back on the way. -/
inductive Reached : List RequestId → Session → Prop where
  | new (config : Config) (clock : Clock) (digits : PushKey.Source) :
    Reached [] (new config clock digits)
  | call {ids : List RequestId} {s : Session} (h : Reached ids s) (c : Call) :
    Reached (ids ++ (s.issued c).toList) (s.call c)

theorem Reached.calls {ids : List RequestId} {s : Session} (h : Reached ids s)
    (calls : List Call) : ∃ more, Reached (ids ++ more) (calls.foldl Session.call s) := by
  induction calls generalizing ids s with
  | nil => exact ⟨[], (List.append_nil ids).symm ▸ h⟩
  | cons c calls ih =>
    obtain ⟨more, h⟩ := ih (h.call c)
    exact ⟨_, List.append_assoc ids _ _ ▸ h⟩

/-- A session with the usual settings, to which nothing has happened. -/
def blank : Session := new {} (.startingAt 0) ⟨fun _ => Fin.last 63, 0⟩

structure Shown where
  cache : Cache
  subscriptions : Subscriptions
  events : List Event

def shown (s : Session) : Shown := ⟨s.cache, s.subscriptions, s.events⟩

theorem cache_of_shown {s t : Session} (h : t.shown = s.shown) : t.cache = s.cache :=
  congrArg Shown.cache h

/-- What a call does to what is shown, unless it drops all state. -/
inductive Effect (s : Session) : Shown → Prop where
  | none : Effect s s.shown
  | watch (p : Path) (kind : EventKind) :
    Effect s ⟨s.cache, s.subscriptions.subscribe p kind s.cache, s.events⟩
  | unwatch {handle : Nat} {p : Path} (known : s.subscriptions.path? handle = some p) :
    Effect s ⟨s.cache, s.subscriptions.remove handle p, s.events⟩
  | ask (names : List String) :
    Effect s ⟨⟨s.cache.root.rememberAt names⟩, s.subscriptions, s.events⟩
  | update (kind : UpdateKind) (p : Path) (v : Value) :
    Effect s ⟨s.cache.take kind p v, (s.subscriptions.cacheChanged (s.cache.take kind p v) p).1,
      s.events ++ (s.subscriptions.cacheChanged (s.cache.take kind p v) p).2⟩
  | restore {snapshot : Bytes} {c : Cache} (read : Cache.ofSnapshot snapshot = .ok c) :
    Effect s ⟨c, (s.subscriptions.cacheChanged c Path.root).1,
      s.events ++ (s.subscriptions.cacheChanged c Path.root).2⟩

theorem shown_lose (s : Session) (recoverable : Bool) (retryAfter : Option Nanos) :
    (s.lose recoverable retryAfter).shown = s.shown := by
  unfold lose
  split <;> rfl

theorem shown_connect (s : Session) : s.connect.1.shown = s.shown := by
  unfold connect
  split
  · rfl
  · dsimp only
    split
    · rfl
    · exact shown_lose _ _ _

theorem shown_close (s : Session) : s.close.1.shown = s.shown := by
  unfold close
  dsimp only
  split
  · split
    · rfl
    · exact shown_lose _ _ _
  · rfl

theorem shown_submit (s : Session) (make : RequestId → Request) (observed : Bool) :
    (s.submit make observed).1.shown = s.shown := by
  unfold submit
  split <;> rfl

theorem shown_push (s : Session) (p : Path) (v : Value) (observed : Bool) :
    (s.push p v observed).1.shown = s.shown := by
  unfold push
  dsimp only
  split
  · rfl
  · exact shown_submit _ _ observed

theorem shown_handshake (s : Session) (time : Nat) : (s.handshake time).shown = s.shown := by
  unfold handshake
  split <;> rfl

theorem shown_response (s : Session) (id : RequestId) (status : Status) (data : Option Value) :
    (s.response id status data).shown = s.shown := by
  unfold response settle
  split
  · rfl
  · split
    · rfl
    · split <;> rfl

theorem shown_tick (s : Session) : s.tick.shown = s.shown := by
  have kept : s.tickKeepalive.shown = s.shown := by
    unfold tickKeepalive
    split <;> rfl
  unfold tick tickReconnect
  split
  · exact (shown_connect _).trans kept
  · exact kept

theorem effect_of_shown {s t : Session} (h : t.shown = s.shown) : s.Effect t.shown :=
  h ▸ .none

theorem effect_receive (s : Session) (m : Message) : s.Effect (s.receive m).shown := by
  cases m with
  | handshake time => exact effect_of_shown (s.shown_handshake time)
  | update kind p v =>
    cases kind with
    | put => exact .update .put p v
    | merge => exact .update .merge p v
  | response id status data => exact effect_of_shown (s.shown_response id status data)
  | closed recoverable retryAfter => exact effect_of_shown (s.shown_lose recoverable retryAfter)

theorem shown_teardown (s : Session) :
    s.teardown.shown = ⟨Cache.empty, s.subscriptions.clear, s.events⟩ := by
  have closed : s.close.1.shown = s.shown := s.shown_close
  rw [shown, shown, Shown.mk.injEq] at closed
  rw [Session.teardown]
  dsimp only [shown]
  rw [closed.2.1, closed.2.2]

/-- No call but a teardown has another effect on what is shown. -/
theorem effect_call (s : Session) {c : Call} (other : c ≠ .teardown) :
    s.Effect (s.call c).shown := by
  cases c with
  | connect => exact effect_of_shown s.shown_connect
  | close => exact effect_of_shown s.shown_close
  | watch p kind => exact .watch p kind
  | unwatch handle =>
    rw [call, Session.unwatch]
    split
    · exact .none
    · rename_i p known
      exact .unwatch known
  | write p v observed => exact effect_of_shown (s.shown_submit _ observed)
  | merge p v observed => exact effect_of_shown (s.shown_submit _ observed)
  | push p v observed => exact effect_of_shown (s.shown_push p v observed)
  | authenticate credential observed => exact .none
  | restore snapshot =>
    rw [call, Session.restore]
    split
    · exact .none
    · rename_i read
      exact .restore read
  | teardown => exact absurd rfl other
  | receive m => exact s.effect_receive m
  | frame text =>
    rw [call, receiveFrame]
    split
    · exact s.effect_receive _
    · exact .none
  | tick => exact effect_of_shown s.shown_tick
  | pass t | faults opening closing | drain => exact .none
  | ask names => exact .ask names

end Session

end LiveTree
