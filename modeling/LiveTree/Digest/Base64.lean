import LiveTree.Text

/-!
Bytes in letters of six bits each, with padding. Reading accepts exactly what writing produces: the
last group must be padded and its unused bits must be zero.
-/

namespace LiveTree.Base64

def alphabet : List Char :=
  "ABCDEFGHIJKLMNOPQRSTUVWXYZabcdefghijklmnopqrstuvwxyz0123456789+/".toList

def letter (value : Nat) : Char := alphabet.getD (value % 64) 'A'

def value? (c : Char) : Option Nat := alphabet.idxOf? c

def encode : Bytes → List Char
  | [] => []
  | [a] => [letter (a.toNat / 4), letter (a.toNat % 4 * 16), '=', '=']
  | [a, b] =>
    [letter (a.toNat / 4), letter (a.toNat % 4 * 16 + b.toNat / 16), letter (b.toNat % 16 * 4), '=']
  | a :: b :: c :: rest =>
    letter (a.toNat / 4) :: letter (a.toNat % 4 * 16 + b.toNat / 16)
      :: letter (b.toNat % 16 * 4 + c.toNat / 64) :: letter (c.toNat % 64) :: encode rest

/-- The bytes of a group that is not the last padded one. -/
def decodeGroup (p q r s : Char) : Option Bytes := do
  let n := (← value? p) * 262144 + (← value? q) * 4096 + (← value? r) * 64 + (← value? s)
  return Bytes.ofNat 3 n

def decode : List Char → Option Bytes
  | [] => some []
  | [p, q, '=', '='] => do
    let n := (← value? p) * 64 + (← value? q)
    if n % 16 = 0 then some (Bytes.ofNat 1 (n / 16)) else none
  | [p, q, r, '='] => do
    let n := (← value? p) * 4096 + (← value? q) * 64 + (← value? r)
    if n % 4 = 0 then some (Bytes.ofNat 2 (n / 4)) else none
  | p :: q :: r :: s :: rest => do
    let group ← decodeGroup p q r s
    return group ++ (← decode rest)
  | _ => none

end LiveTree.Base64
