import LiveTree.Frame.Field

/-!
Requests of the client, and their frames: a number, the code of an action, and a body with a path,
data or a credential.
-/

namespace LiveTree

/-- Requests are numbered from one on; the numbers are unique in a session. -/
abbrev RequestId := Nat

def RequestId.text (id : RequestId) : String := "#" ++ toString id

inductive Action where
  | listen
  | unlisten
  | put
  | merge
  | auth
  | keepalive
deriving DecidableEq, Repr

namespace Action

def code : Action → String
  | listen => "l"
  | unlisten => "u"
  | put => "p"
  | merge => "m"
  | auth => "auth"
  | keepalive => "ka"

def name : Action → String
  | listen => "Listen"
  | unlisten => "Unlisten"
  | put => "Put"
  | merge => "Merge"
  | auth => "Auth"
  | keepalive => "Keepalive"

def all : List Action := [listen, unlisten, put, merge, auth, keepalive]

def ofCode? (code : String) : Option Action := all.find? (·.code == code)

def isWrite : Action → Bool
  | put => true
  | merge => true
  | _ => false

theorem ofCode?_code (a : Action) : ofCode? a.code = some a := by
  cases a <;> decide

end Action

structure Request where
  id : RequestId
  action : Action
  path : Option Path
  data : Option Value
  credential : Option String

namespace Request

def bare (id : RequestId) (action : Action) : Request := ⟨id, action, none, none, none⟩

def listen (id : RequestId) (p : Path) : Request := { bare id .listen with path := some p }

def unlisten (id : RequestId) (p : Path) : Request := { bare id .unlisten with path := some p }

def put (id : RequestId) (p : Path) (v : Value) : Request :=
  { bare id .put with path := some p, data := some v }

def merge (id : RequestId) (p : Path) (v : Value) : Request :=
  { bare id .merge with path := some p, data := some v }

def auth (id : RequestId) (credential : String) : Request :=
  { bare id .auth with credential := some credential }

def keepalive (id : RequestId) : Request := bare id .keepalive

def body (r : Request) : List (String × Value) :=
  (r.path.map fun p => ("p", Value.text p.text)).toList
    ++ (r.data.map fun v => ("d", v)).toList
    ++ (r.credential.map fun c => ("cred", Value.text c)).toList

def toValue (r : Request) : Value :=
  .object ([("r", Frame.writeUnsigned r.id), ("a", Value.text r.action.code)]
    ++ if r.body.isEmpty then [] else [("b", .object r.body)])

def encode (r : Request) : String := r.toValue.toJson

/-- The path of a body. It may be left out, but then no other value may stand there. -/
def bodyPath (body : Option Value) : Except FrameError (Option Path) :=
  match body.bind (·.get? "p") with
  | none => .ok none
  | some (.text s) => (Frame.parsePath s).map some
  | some _ => .error (.missing "p")

def ofValue (v : Value) : Except FrameError Request := do
  let id ← Frame.unsignedField v "r"
  let code ← Frame.textField v "a"
  let action ← match Action.ofCode? code with
    | some action => .ok action
    | none => .error (.unknownCode "a" code)
  let body := v.get? "b"
  let path ← bodyPath body
  let data := body.bind (·.get? "d")
  let credential := (body.bind (·.get? "cred")).bind Value.text?
  return ⟨id, action, path, data, credential⟩

def decode (text : String) : Except FrameError Request := (Frame.readFrame text).bind ofValue

def sameAs (a b : Request) : Bool :=
  a.id == b.id && a.action == b.action && a.path == b.path && a.credential == b.credential
    && match a.data, b.data with
      | some x, some y => x.sameAs y
      | none, none => true
      | _, _ => false

end Request

end LiveTree
