import LiveTree.Digest.Base64
import LiveTree.Digest.Sha1

/-!
Digests: twenty bytes that stand for the content of a tree, with their base64 text.
-/

namespace LiveTree

structure Digest where
  bytes : Bytes
  length_eq : bytes.length = 20
deriving DecidableEq

namespace Digest

def size : Nat := 20

def ofBytes? (bytes : Bytes) : Option Digest :=
  if h : bytes.length = 20 then some ⟨bytes, h⟩ else none

def ofMessage (message : Bytes) : Digest := ⟨(Sha1.final message).bytes, Sha1.State.length_bytes _⟩

def text (d : Digest) : String := String.ofList (Base64.encode d.bytes)

def ofText? (s : String) : Option Digest := (Base64.decode s.toList).bind ofBytes?

def diagnostic (d : Digest) : String := "NodeHash(" ++ d.text ++ ")"

def ofBool : Bool → Digest
  | true =>
    ⟨[0x13, 0x9c, 0xfa, 0xd5, 0x03, 0x34, 0x94, 0xdf, 0xd4, 0xd9, 0x6b, 0x0e, 0x9e, 0xeb, 0x2c,
      0xcc, 0x24, 0xe4, 0x47, 0xc3], rfl⟩
  | false =>
    ⟨[0x69, 0x24, 0x8d, 0xa2, 0xa7, 0x12, 0xe2, 0x84, 0x30, 0x27, 0x6c, 0x71, 0x1f, 0x6d, 0x2b,
      0xbe, 0x9a, 0x77, 0xcc, 0xfd], rfl⟩

end Digest

end LiveTree
