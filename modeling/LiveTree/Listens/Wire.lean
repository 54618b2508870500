import LiveTree.Listens.Basic

/-!
The changes of the listens that send something. They take the sink through which they send, and
thread its state. A listen that is acknowledged masks what is below it; when it goes or fails, what
it masked is sent by itself, the outermost paths first.
-/

namespace LiveTree

/-- Where listens are sent to. A listen comes back with the request under which it was sent. -/
structure Sink (σ : Type) where
  listen : Path → σ → RequestId × σ
  unlisten : Path → σ → σ

namespace Listens

variable {σ : Type}

abbrev Sending (σ : Type) := Listens × σ

/-- Sends the listen of a path. Its answer takes the place of any earlier one. -/
def send (sink : Sink σ) (acc : Sending σ) (p : Path) : Sending σ :=
  let (id, wire) := sink.listen p acc.2
  let l := (acc.1.setStatus p .pending).setRequest p (some id)
  ({ l with awaited := l.awaited ++ [(id, p)] }, wire)

def maskOne (sink : Sink σ) (acc : Sending σ) (p : Path) : Sending σ :=
  match acc.1.status? p with
  | some .active => (acc.1.setStatus p .masked, sink.unlisten p acc.2)
  | some .pending => (acc.1.setStatus p .masked, acc.2)
  | some .required => (acc.1.setStatus p .masked, acc.2)
  | _ => acc

def maskBelow (sink : Sink σ) (acc : Sending σ) (p : Path) : Sending σ :=
  (acc.1.below p).foldl (maskOne sink) acc

/-- Gives a masked path a listen of its own if nothing above it covers it any more. -/
def unmaskOne (sink : Sink σ) (acc : Sending σ) (p : Path) : Sending σ :=
  if acc.1.status? p != some .masked || acc.1.isCovered p then acc
  else if acc.1.online then send sink acc p
  else (acc.1.setStatus p .required, acc.2)

def unmaskBelow (sink : Sink σ) (acc : Sending σ) (p : Path) : Sending σ :=
  (acc.1.below p).foldl (unmaskOne sink) acc

def openFirst (sink : Sink σ) (l : Listens) (wire : σ) (p : Path) : Sending σ :=
  let status := if l.isCovered p then ListenStatus.masked else .required
  let l := { l with items := l.items.insert p ⟨status, 1, none⟩ }
  if status = .required && l.online then send sink (l, wire) p else (l, wire)

def acquire (sink : Sink σ) (l : Listens) (wire : σ) (p : Path) : Sending σ :=
  if l.items.contains p then (l.modify p fun i => { i with refCount := i.refCount + 1 }, wire)
  else l.openFirst sink wire p

/-- Takes out the path of an item. Answers that it awaits are not awaited any more. -/
def remove (l : Listens) (p : Path) : Listens :=
  { l with items := l.items.erase p, awaited := l.awaited.filter fun a => a.2 != p }

def close (sink : Sink σ) (l : Listens) (wire : σ) (p : Path) (item : Listen) : Sending σ :=
  let wire := if l.online && item.status.onWire then sink.unlisten p wire else wire
  if item.status.covers then unmaskBelow sink (l.remove p, wire) p else (l.remove p, wire)

def release (sink : Sink σ) (l : Listens) (wire : σ) (p : Path) : Sending σ :=
  match l.get? p with
  | none => (l, wire)
  | some item =>
    if 1 < item.refCount then (l.modify p fun i => { i with refCount := i.refCount - 1 }, wire)
    else l.close sink wire p item

/-- What an answer that counts does to the path that was listened to. A path that was masked
meanwhile gives up the listen which it did not need. -/
def settle (sink : Sink σ) (acc : Sending σ) (p : Path) (status : ListenStatus) (ok : Bool) :
    Sending σ :=
  match status, ok with
  | .pending, true => maskBelow sink (acc.1.setStatus p .active, acc.2) p
  | .pending, false => unmaskBelow sink (acc.1.setStatus p .failed, acc.2) p
  | .masked, true => (acc.1, sink.unlisten p acc.2)
  | _, _ => acc

/-- Takes the answer to an awaited request. Only the answer to the last request for a path
counts. -/
def answer (sink : Sink σ) (l : Listens) (wire : σ) (id : RequestId) (ok : Bool) : Sending σ :=
  match l.awaited.lookup id with
  | none => (l, wire)
  | some p =>
    let l := l.forget id
    match l.get? p with
    | none => (l, wire)
    | some item =>
      if item.request = some id then settle sink (l.setRequest p none, wire) p item.status ok
      else (l, wire)

/-- What a new connection does to one path: it is masked or sent, unless the server has refused it
or it is masked already. -/
def resumeOne (sink : Sink σ) (acc : Sending σ) (p : Path) : Sending σ :=
  match acc.1.status? p with
  | some status =>
    if status = .required || status = .pending then
      if acc.1.isCovered p then (acc.1.setStatus p .masked, acc.2) else send sink acc p
    else acc
  | none => acc

def resume (sink : Sink σ) (l : Listens) (wire : σ) : Sending σ :=
  l.items.keys.foldl (resumeOne sink) ({ l with online := true }, wire)

end Listens

end LiveTree
