import LiveTree.Node.Basic

/-!
Digests of nodes. A leaf is digested with a mark of its type; an internal node is digested by the
names and digests of its children. A digest is remembered in the node, and a remembered one is
believed.
-/

namespace LiveTree.Node

def numberDigest (n : Double) : Digest :=
  Digest.ofMessage (Bytes.ofText "number:"
    ++ Bytes.ofText (String.ofList (Bytes.toHex (Bytes.ofNat 8 n.bits.toNat))))

def textDigest (s : String) : Digest :=
  Digest.ofMessage (Bytes.ofText "string:" ++ Bytes.ofText s)

def digestPart (key : String) : Option Digest → Bytes
  | none => []
  | some d => Bytes.ofText (":" ++ key ++ ":" ++ d.text)

/-- The digest of the message that the children add up to. No message, no digest. -/
def digestOfParts (message : Bytes) : Option Digest :=
  if message.isEmpty then none else some (Digest.ofMessage message)

mutual

def hash : Node → Option Digest
  | null => none
  | bool b => some (Digest.ofBool b)
  | number n memo => memo.getD (some (numberDigest n))
  | text s memo => memo.getD (some (textDigest s))
  | internal ⟨root, _⟩ memo => memo.getD (digestOfParts (hashParts root))

def hashParts : AvlTree String Node → Bytes
  | .nil => []
  | .node _ l k n r => hashParts l ++ (digestPart k n.hash ++ hashParts r)

end

mutual

def contentHash : Node → Option Digest
  | null => none
  | bool b => some (Digest.ofBool b)
  | number n _ => some (numberDigest n)
  | text s _ => some (textDigest s)
  | internal ⟨root, _⟩ _ => digestOfParts (contentParts root)

def contentParts : AvlTree String Node → Bytes
  | .nil => []
  | .node _ l k n r => contentParts l ++ (digestPart k n.contentHash ++ contentParts r)

end

mutual

/-- The node after its digest has been asked for: what had to be computed is remembered. Below a
node that remembers its digest nothing is computed. -/
def remember : Node → Node
  | null => null
  | bool b => bool b
  | number n memo => number n (some (memo.getD (some (numberDigest n))))
  | text s memo => text s (some (memo.getD (some (textDigest s))))
  | internal ⟨root, size⟩ none =>
    internal ⟨rememberAll root, size⟩ (some (digestOfParts (hashParts root)))
  | internal children (some h) => internal children (some h)

def rememberAll : AvlTree String Node → AvlTree String Node
  | .nil => .nil
  | .node h l k n r => .node h (rememberAll l) k n.remember (rememberAll r)

end

def isRemembered : Node → Bool
  | null => true
  | bool _ => true
  | number _ memo => memo.isSome
  | text _ memo => memo.isSome
  | internal _ memo => memo.isSome

def rememberAt (n : Node) : List String → Node
  | [] => n.remember
  | s :: rest =>
    match n with
    | internal children memo => internal (children.modify s fun c => c.rememberAt rest) memo
    | n => n

end LiveTree.Node
