import LiveTree.Clock

/-!
Keys that sort in the order of their making. Eight letters give the time in milliseconds and twelve
a counter, which starts at random digits whenever the time moves on and counts up while it stands.
-/

namespace LiveTree.PushKey

def alphabet : List Char :=
  "-0123456789ABCDEFGHIJKLMNOPQRSTUVWXYZ_abcdefghijklmnopqrstuvwxyz".toList

def timeLetters : Nat := 8

def counterLetters : Nat := 12

def length : Nat := timeLetters + counterLetters

def letter (digit : Fin 64) : Char := alphabet.getD digit.val '-'

/-- An endless supply of digits, of which some are drawn already. -/
structure Source where
  digit : Nat → Fin 64
  drawn : Nat

def Source.draw (count : Nat) (s : Source) : List (Fin 64) × Source :=
  ((List.range count).map fun i => s.digit (s.drawn + i), { s with drawn := s.drawn + count })

structure Generator where
  source : Source
  lastTime : Option Nat
  /-- The digits of the counter, the heaviest first. -/
  counter : List (Fin 64)

def Generator.ofSource (source : Source) : Generator :=
  ⟨source, none, List.replicate counterLetters 0⟩

/-- Adds one to digits, the lightest first. The flag says that all digits have wrapped around. -/
def increment : List (Fin 64) → List (Fin 64) × Bool
  | [] => ([], true)
  | d :: rest =>
    if d.val < 63 then ((d + 1) :: rest, false)
    else
      let (rest, wrapped) := increment rest
      (0 :: rest, wrapped)

def timeDigits (time : Nat) : List (Fin 64) :=
  (List.range timeLetters).reverse.map fun i => Fin.ofNat 64 (time / Nat.pow 64 i)

namespace Generator

def restart (g : Generator) (time : Nat) : Generator :=
  let (digits, source) := g.source.draw counterLetters
  ⟨source, some time, digits⟩

/-- The generator after a key for the given time. A clock that goes back counts as standing still; a
counter that has run out moves the time on by one. -/
def advance (g : Generator) (now : Nat) : Generator :=
  match g.lastTime with
  | none => g.restart now
  | some last =>
    if now ≤ last then
      let (digits, wrapped) := increment g.counter.reverse
      if wrapped then { g with counter := digits.reverse }.restart (last + 1)
      else { g with counter := digits.reverse }
    else g.restart now

def key (g : Generator) : String :=
  String.ofList ((timeDigits (g.lastTime.getD 0) ++ g.counter).map letter)

/-- True when the counter has run out in the last millisecond of all, so that the time was moved on
past it. The time does not come back from there. -/
def isSpent (g : Generator) : Bool := g.lastTime.any fun t => decide (Clock.lastMilli < t)

def generate (g : Generator) (now : Nat) : String × Generator :=
  let g := g.advance now
  (g.key, g)

end Generator

def time? (key : String) : Option Nat :=
  let front := key.toList.take timeLetters
  if key.utf8ByteSize < timeLetters then none
  else (front.mapM fun c => alphabet.idxOf? c).map fun digits =>
    digits.foldl (fun n d => 64 * n + d) 0

end LiveTree.PushKey
