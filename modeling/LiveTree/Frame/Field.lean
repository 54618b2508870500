import LiveTree.Json.Reader
import LiveTree.Json.Writer
import LiveTree.Path.Basic

/-!
The fields of frames: how numbers, texts and paths stand in them, and why a text is no frame.
-/

namespace LiveTree

inductive FrameError where
  | malformed (error : CodecError)
  | missing (field : String)
  | unknownCode (field code : String)
  | badPath (error : PathError)
deriving DecidableEq, Repr

namespace FrameError

def message : FrameError → String
  | malformed error => "malformed frame: " ++ error.message
  | missing field => "missing or invalid field " ++ Text.quoted field
  | unknownCode field code => "unknown " ++ field ++ " code " ++ Text.quoted code
  | badPath error => "invalid path in frame: " ++ error.message

end FrameError

namespace Frame

def maxUnsigned : Nat := Nat.pow 2 64 - 1

/-- The unsigned number that a binary64 number stands for. One that is too large gives the greatest;
a fraction, a negative number and what is not finite give none. -/
def unsigned? (d : Double) : Option Nat :=
  if d.isWhole && (!d.negative || d.isZero) then some (min d.wholePart maxUnsigned) else none

def writeUnsigned (n : Nat) : Value := .number (Double.ofNat n)

def textField (v : Value) (name : String) : Except FrameError String :=
  match (v.get? name).bind Value.text? with
  | some s => .ok s
  | none => .error (.missing name)

def unsignedField (v : Value) (name : String) : Except FrameError Nat :=
  match ((v.get? name).bind Value.number?).bind unsigned? with
  | some n => .ok n
  | none => .error (.missing name)

def parsePath (text : String) : Except FrameError Path := (Path.parse text).mapError .badPath

def readFrame (text : String) : Except FrameError Value :=
  match Json.read? text with
  | some v => .ok v
  | none => .error (.malformed .malformed)

end Frame

end LiveTree
