import LiveTree.Cache.Basic
import LiveTree.Frame.Message

/-!
A server with one client. It keeps the tree, answers requests, and tells the client about every
change that its listens cover.
-/

namespace LiveTree

structure Server where
  data : Cache := Cache.empty
  listens : OrderedMap Path Unit Path.compare := OrderedMap.empty
  tokens : List String := []
  /-- The paths at and below which requests are refused. -/
  refused : List Path := []
  authenticated : Bool := false
  time : Nat := 0
  received : Nat := 0

namespace Server

def permissionDenied : String := "permission_denied"

def invalidToken : String := "invalid_token"

def refuses (s : Server) (p : Path) : Bool := s.refused.any fun q => q.isPrefixOf p

def isListening (s : Server) (p : Path) : Bool := s.listens.contains p

def greeting (s : Server) : Message := .handshake s.time

def disconnect (s : Server) (recoverable : Bool) : Server × Message :=
  ({ s with listens := OrderedMap.empty, authenticated := false }, .closed recoverable none)

/-- What the client hears about a change at a path. A listen at or above it gets the change as it
is, a listen below it the whole of what is there now. -/
def fanOut (s : Server) (changed : Path) (update : Message) : List Message :=
  let paths := s.listens.keys
  (if paths.any fun p => p.isPrefixOf changed then [update] else [])
    ++ (paths.filter changed.isStrictPrefixOf).map fun p => Message.put p (s.data.valueAt p)

def setValue (s : Server) (p : Path) (v : Value) : Server × List Message :=
  let s := { s with data := s.data.put p v }
  (s, s.fanOut p (.put p v))

def change (s : Server) (id : RequestId) (kind : UpdateKind) (p : Path) (v : Value) :
    Server × List Message :=
  let data := match kind with
    | .put => s.data.put p v
    | .merge => s.data.merge p v
  let s := { s with data := data }
  (s, s.fanOut p (.update kind p v) ++ [.ok id])

def listen (s : Server) (id : RequestId) (p : Path) : Server × List Message :=
  ({ s with listens := s.listens.insert p () }, [.put p (s.data.valueAt p), .ok id])

def authenticate (s : Server) (id : RequestId) (credential : String) : Server × List Message :=
  if s.tokens.contains credential then ({ s with authenticated := true }, [.ok id])
  else (s, [.rejected id invalidToken])

/-- Takes a request: the replies come in the order in which they are sent. A path that is left out
is the root, data that are left out are null, and a credential that is left out is empty. -/
def process (s : Server) (r : Request) : Server × List Message :=
  let s := { s with received := s.received + 1 }
  let p := r.path.getD Path.root
  let denied := [Message.rejected r.id permissionDenied]
  match r.action with
  | .listen => if s.refuses p then (s, denied) else s.listen r.id p
  | .unlisten => ({ s with listens := s.listens.erase p }, [])
  | .put => if s.refuses p then (s, denied) else s.change r.id .put p (r.data.getD .null)
  | .merge => if s.refuses p then (s, denied) else s.change r.id .merge p (r.data.getD .null)
  | .auth => s.authenticate r.id (r.credential.getD "")
  | .keepalive => (s, [])

def processAll (s : Server) (requests : List Request) : Server × List Message :=
  requests.foldl (fun acc r =>
    let (s, replies) := acc.1.process r
    (s, acc.2 ++ replies)) (s, [])

end Server

end LiveTree
