import LiveTree.Frame.Request

/-!
The link on which requests leave. It records what it was asked to do, and can be told to refuse.
-/

namespace LiveTree

structure LinkFault where
  message : String
  retryable : Bool
  /-- True when the attempt came as far as the link. -/
  reached : Bool
deriving DecidableEq, Repr

namespace LinkFault

def refused : LinkFault := ⟨"connection refused", true, true⟩

def badCertificate : LinkFault := ⟨"bad certificate", false, false⟩

def closeFailed : LinkFault := ⟨"close failed", true, false⟩

end LinkFault

structure Link where
  isOpen : Bool := false
  url : Option String := none
  opens : Nat := 0
  closes : Nat := 0
  /-- What later attempts to open will meet. -/
  openFault : Option LinkFault := none
  closeFault : Option LinkFault := none
  sent : List Request := []

namespace Link

def openTo (l : Link) (url : String) : Link × Option LinkFault :=
  let tried := { l with url := some url, opens := l.opens + 1 }
  match l.openFault with
  | none => ({ tried with isOpen := true }, none)
  | some fault => (if fault.reached then tried else l, some fault)

def shut (l : Link) : Link := { l with isOpen := false, closes := l.closes + 1 }

def close (l : Link) : Link × Option LinkFault :=
  match l.closeFault with
  | none => (l.shut, none)
  | some fault => (l, some fault)

def send? (l : Link) (r : Request) : Option Link :=
  if l.isOpen then some { l with sent := l.sent ++ [r] } else none

end Link

end LiveTree
