import LiveTree.Double.Basic

/-!
The narrower binary formats of 16 and 32 bits, and the two ways between them and binary64: every
narrow number widens without loss, and a binary64 number narrows when nothing is lost. The same is
true of what is not a number, as long as it is quiet.
-/

namespace LiveTree.Double

/-- A binary format by the widths of its fields and the scale of its unit, `2 ^ -unitScale`. -/
structure Width where
  fractionBits : Nat
  exponentBits : Nat
  unitScale : Nat

def half : Width := ⟨10, 5, 24⟩

def single : Width := ⟨23, 8, 149⟩

namespace Width

def infiniteMagnitude (w : Width) : Nat := (Nat.pow 2 w.exponentBits - 1) * Nat.pow 2 w.fractionBits

def signWeight (w : Width) : Nat := Nat.pow 2 (w.fractionBits + w.exponentBits)

def unitsOf (w : Width) (magnitude : Nat) : Nat :=
  if magnitude < Nat.pow 2 w.fractionBits then magnitude
  else (Nat.pow 2 w.fractionBits + magnitude % Nat.pow 2 w.fractionBits)
    * Nat.pow 2 (magnitude / Nat.pow 2 w.fractionBits - 1)

def magnitudeOf? (w : Width) (units : Nat) : Option Nat :=
  let shift := units.log2 - w.fractionBits
  let magnitude := shift * Nat.pow 2 w.fractionBits + units / Nat.pow 2 shift
  if units % Nat.pow 2 shift = 0 ∧ magnitude < w.infiniteMagnitude then some magnitude else none

/-- The number that a pattern of the format stands for. A payload keeps its place below the point,
and its top bit is set. -/
def widen (w : Width) (pattern : Nat) : Double :=
  let negative := decide (w.signWeight ≤ pattern)
  let magnitude := pattern % w.signWeight
  if magnitude < w.infiniteMagnitude then
    ofParts negative (nearestMagnitude (w.unitsOf magnitude * Nat.pow 2 (1074 - w.unitScale)) 1)
  else if magnitude = w.infiniteMagnitude then infinity negative
  else
    let payload := (magnitude - w.infiniteMagnitude) * Nat.pow 2 (52 - w.fractionBits)
    let quiet := if payload < Nat.pow 2 51 then payload + Nat.pow 2 51 else payload
    ofParts negative (Double.infiniteMagnitude + quiet)

def narrow? (w : Width) (d : Double) : Option Nat :=
  let sign := if d.negative then w.signWeight else 0
  if d.isFinite then
    let ratio := Nat.pow 2 (1074 - w.unitScale)
    if d.units % ratio = 0 then (w.magnitudeOf? (d.units / ratio)).map (sign + ·) else none
  else
    let payload := d.magnitude - Double.infiniteMagnitude
    let ratio := Nat.pow 2 (52 - w.fractionBits)
    if payload % ratio = 0 ∧ (payload = 0 ∨ Nat.pow 2 51 ≤ payload) then
      some (sign + w.infiniteMagnitude + payload / ratio)
    else none

end Width

end LiveTree.Double
