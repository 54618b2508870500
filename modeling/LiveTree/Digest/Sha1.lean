import LiveTree.Text

/-!
The SHA-1 digest of a byte string: padding to whole blocks of 64 bytes, eighty words from each
block, eighty rounds on five words, and the sums of the words before and after.
-/

namespace LiveTree.Sha1

structure State where
  a : UInt32
  b : UInt32
  c : UInt32
  d : UInt32
  e : UInt32

def start : State := ⟨0x67452301, 0xefcdab89, 0x98badcfe, 0x10325476, 0xc3d2e1f0⟩

def rotate (x : UInt32) (n : UInt32) : UInt32 := (x <<< n) ||| (x >>> (32 - n))

/-- One bit, zeros up to eight bytes before the end of a block, and the length in bits. -/
def padding (size : Nat) : Bytes :=
  0x80 :: List.replicate ((119 - size % 64) % 64) 0 ++ Bytes.ofNat 8 (8 * size)

def word (bs : Bytes) : UInt32 := UInt32.ofNat (Bytes.toNat bs)

def groups (size : Nat) : Nat → Bytes → List Bytes
  | 0, _ => []
  | fuel + 1, bs => if bs.isEmpty then [] else bs.take size :: groups size fuel (bs.drop size)

/-- Words are kept newest first; each new one mixes four earlier ones. -/
def extend (words : List UInt32) : List UInt32 :=
  rotate (words.getD 2 0 ^^^ words.getD 7 0 ^^^ words.getD 13 0 ^^^ words.getD 15 0) 1 :: words

def schedule (block : Bytes) : List UInt32 :=
  let first := ((groups 4 16 block).map word).reverse
  (Nat.repeat extend 64 first).reverse

def mix (round : Nat) (s : State) : UInt32 :=
  if round < 20 then ((s.b &&& s.c) ||| ((~~~s.b) &&& s.d)) + 0x5a827999
  else if round < 40 then (s.b ^^^ s.c ^^^ s.d) + 0x6ed9eba1
  else if round < 60 then ((s.b &&& s.c) ||| (s.b &&& s.d) ||| (s.c &&& s.d)) + 0x8f1bbcdc
  else (s.b ^^^ s.c ^^^ s.d) + 0xca62c1d6

def step (s : State) (round : Nat × UInt32) : State :=
  ⟨rotate s.a 5 + mix round.1 s + s.e + round.2, s.a, rotate s.b 30, s.c, s.d⟩

def compress (s : State) (block : Bytes) : State :=
  let t := ((List.range 80).zip (schedule block)).foldl step s
  ⟨s.a + t.a, s.b + t.b, s.c + t.c, s.d + t.d, s.e + t.e⟩

def State.bytes (s : State) : Bytes :=
  [s.a, s.b, s.c, s.d, s.e].flatMap fun w => Bytes.ofNat 4 w.toNat

theorem State.length_bytes (s : State) : s.bytes.length = 20 := by
  simp [State.bytes, Bytes.length_ofNat]

def final (message : Bytes) : State :=
  let padded := message ++ padding message.length
  (groups 64 (padded.length / 64) padded).foldl compress start

end LiveTree.Sha1
