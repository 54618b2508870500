import LiveTree.Clock
import LiveTree.Frame.Request

/-!
Messages of the server, and their frames: a handshake, a change of data, the answer to a request, or
the end of the connection.
-/

namespace LiveTree

inductive UpdateKind where
  | put
  | merge
deriving DecidableEq, Repr

def UpdateKind.name : UpdateKind → String
  | put => "Put"
  | merge => "Merge"

def UpdateKind.code : UpdateKind → String
  | put => "p"
  | merge => "m"

inductive Status where
  | ok
  | rejected (status : String)
deriving DecidableEq, Repr

def Status.isOk : Status → Bool
  | ok => true
  | rejected _ => false

def Status.code : Status → String
  | ok => "ok"
  | rejected status => status

inductive Message where
  | handshake (serverTime : Nat)
  | update (kind : UpdateKind) (path : Path) (data : Value)
  | response (id : RequestId) (status : Status) (data : Option Value)
  | closed (recoverable : Bool) (retryAfter : Option Nanos)

namespace Message

def put (p : Path) (v : Value) : Message := update .put p v

def merge (p : Path) (v : Value) : Message := update .merge p v

def ok (id : RequestId) : Message := response id .ok none

def rejected (id : RequestId) (status : String) : Message := response id (.rejected status) none

def toValue : Message → Value
  | handshake time => .object [("t", .text "h"), ("ts", Frame.writeUnsigned time)]
  | update kind path data =>
    .object [("t", .text "d"), ("a", .text kind.code),
      ("b", .object [("p", .text path.text), ("d", data)])]
  | response id status data =>
    .object ([("t", .text "r"), ("r", Frame.writeUnsigned id), ("s", .text status.code)]
      ++ (data.map fun v => ("d", v)).toList)
  | closed recoverable retryAfter =>
    .object ([("t", .text "c"), ("recoverable", .bool recoverable)]
      ++ (retryAfter.map fun t => ("retry_after", Frame.writeUnsigned (Nanos.toMillis t))).toList)

def encode (m : Message) : String := m.toValue.toJson

def readUpdate (v : Value) : Except FrameError Message := do
  let code ← Frame.textField v "a"
  let kind ←
    if code = "p" then .ok UpdateKind.put
    else if code = "m" then .ok UpdateKind.merge
    else .error (FrameError.unknownCode "a" code)
  let body ← match v.get? "b" with
    | some body => .ok body
    | none => .error (FrameError.missing "b")
  let text ← Frame.textField body "p"
  let path ← Frame.parsePath text
  return update kind path ((body.get? "d").getD .null)

/-- Null as the data of an answer is the same as none. -/
def readResponse (v : Value) : Except FrameError Message := do
  let id ← Frame.unsignedField v "r"
  let code ← Frame.textField v "s"
  let status := if code = "ok" then Status.ok else Status.rejected code
  return response id status ((v.get? "d").filter fun d => !d.isNull)

def readClosed (v : Value) : Except FrameError Message := do
  let recoverable := ((v.get? "recoverable").bind Value.bool?).getD true
  let retryAfter ← match v.get? "retry_after" with
    | none => .ok none
    | some .null => .ok none
    | some _ => (Frame.unsignedField v "retry_after").map fun ms => some (Nanos.ofMillis ms)
  return closed recoverable retryAfter

def ofValue (v : Value) : Except FrameError Message := do
  let tag ← Frame.textField v "t"
  if tag = "h" then
    let time ← Frame.unsignedField v "ts"
    return handshake time
  else if tag = "d" then readUpdate v
  else if tag = "r" then readResponse v
  else if tag = "c" then readClosed v
  else throw (.unknownCode "t" tag)

def decode (text : String) : Except FrameError Message := (Frame.readFrame text).bind ofValue

def sameAs : Message → Message → Bool
  | handshake s, handshake t => s == t
  | update j p v, update k q w => j == k && p == q && v.sameAs w
  | response i s v, response j t w =>
    i == j && s == t
      && match v, w with
        | some x, some y => x.sameAs y
        | none, none => true
        | _, _ => false
  | closed r s, closed q t => r == q && s == t
  | _, _ => false

end Message

end LiveTree
