import LiveTree.Cache.Check
import LiveTree.Frame.Message

/-!
Checks that take arbitrary bytes. Bytes that mean something have to survive being written and read
again, and a cache has to stay sound whatever is done to it.
-/

namespace LiveTree.Probe

/-- A frame of the server that can be read is read the same again. -/
def inbound (bytes : Bytes) : Bool :=
  match (Bytes.toText? bytes).map Message.decode with
  | some (.ok m) => match Message.decode m.encode with
    | .ok again => again.sameAs m
    | .error _ => false
  | _ => true

def outbound (bytes : Bytes) : Bool :=
  match (Bytes.toText? bytes).map Request.decode with
  | some (.ok r) => match Request.decode r.encode with
    | .ok again => again.sameAs r
    | .error _ => false
  | _ => true

def path (bytes : Bytes) : Bool :=
  match (Bytes.toText? bytes).map Path.parse with
  | some (.ok p) => match Path.parse p.text with
    | .ok again => again == p
    | .error _ => false
  | _ => true

def names : List String := ["a", "b", "1", "10"]

def name (code : Nat) : String := names.getD (code % 4) ""

def selectedPath (code : Nat) : Except PathError Path :=
  Path.root.descend ((List.range (code % 4)).map fun i => name (code / Nat.pow 4 (i + 1)))

def selectedValue (code : Nat) : Value :=
  match code % 5 with
  | 0 => .null
  | 1 => .bool (decide (128 ≤ code))
  | 2 => .number (Double.ofNat code)
  | 3 => .object [(name (code / 64), .number (Double.ofNat code))]
  | _ => .object [(name (code / 64), .null)]

def mutate (c : Cache) (operation place content : UInt8) : Cache :=
  match selectedPath place.toNat with
  | .error _ => c
  | .ok p =>
    let v := selectedValue content.toNat
    if operation.toNat % 2 = 0 then c.put p v else c.merge p v

/-- The cache is sound after every mutation; three bytes make one. -/
def staysSound (c : Cache) : Bytes → Bool
  | operation :: place :: content :: rest =>
    let c := mutate c operation place content
    c.check.isOk && staysSound c rest
  | _ => true

def cache (bytes : Bytes) : Bool := staysSound Cache.empty bytes

/-- How many cases a random check tries, and how many steps it takes to make a failing one small. -/
structure Effort where
  cases : Nat
  shrinkSteps : Nat
deriving DecidableEq, Repr

namespace Effort

def normal : Effort := ⟨256, 1000⟩

def quick : Effort := ⟨32, 100⟩

def thorough : Effort := ⟨1024, 10000⟩

end Effort

end LiveTree.Probe
