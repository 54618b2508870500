import LiveTree.Path.Segment

/-!
Places in a tree of documents: the names on the way down from the root. Slashes at the ends and
repeated ones do not count. Paths are ordered by their segments, so that everything below a path
follows it directly.
-/

namespace LiveTree

inductive PathError where
  /-- A segment of the input has a forbidden character. -/
  | forbidden (input segment : String)
  /-- A name for a child is empty or has a slash. -/
  | notSingle (segment : String)
  | tooDeep (depth limit : Nat)
deriving DecidableEq, Repr

namespace PathError

def message : PathError → String
  | forbidden input segment =>
    "invalid path " ++ Text.quoted input ++ ": segment " ++ Text.quoted segment
      ++ " contains a forbidden character"
  | notSingle segment =>
    "invalid path " ++ Text.quoted segment ++ ": segment must be non-empty and contain no '/'"
  | tooDeep depth limit =>
    "path depth " ++ toString depth ++ " exceeds maximum of " ++ toString limit

end PathError

structure Path where
  segments : List String
  legal : segments.all Segment.isLegal = true
  shallow : segments.length ≤ 32
deriving DecidableEq

namespace Path

def maxDepth : Nat := 32

def root : Path := ⟨[], rfl, by decide⟩

instance : Inhabited Path := ⟨root⟩

def isRoot (p : Path) : Bool := p.segments.isEmpty

def depth (p : Path) : Nat := p.segments.length

def cut : List Char → List (List Char)
  | [] => [[]]
  | c :: cs =>
    if c = '/' then [] :: cut cs
    else match cut cs with
      | [] => [[c]]
      | piece :: rest => (c :: piece) :: rest

def pieces (s : String) : List String :=
  ((cut s.toList).filter fun piece => !piece.isEmpty).map String.ofList

/-- The path with these segments, which came from the given input. Depth is the first complaint. -/
def ofSegments (input : String) (segments : List String) : Except PathError Path :=
  if depth : segments.length ≤ 32 then
    if legal : segments.all Segment.isLegal = true then .ok ⟨segments, legal, depth⟩
    else .error (.forbidden input ((segments.find? fun s => !Segment.isClean s).getD ""))
  else .error (.tooDeep segments.length maxDepth)

def parse (text : String) : Except PathError Path := ofSegments text (pieces text)

def child (p : Path) (segment : String) : Except PathError Path :=
  if single : Segment.isSingle segment = true then
    if clean : Segment.isClean segment = true then
      if depth : p.segments.length + 1 ≤ 32 then
        .ok ⟨p.segments ++ [segment],
          by simp [List.all_append, p.legal, Segment.isLegal, single, clean],
          by simpa using depth⟩
      else .error (.tooDeep (p.segments.length + 1) maxDepth)
    else .error (.forbidden segment segment)
  else .error (.notSingle segment)

def descend (p : Path) : List String → Except PathError Path
  | [] => .ok p
  | s :: rest => (p.child s).bind fun q => q.descend rest

theorem all_take {s : List String} (h : s.all Segment.isLegal = true) (n : Nat) :
    (s.take n).all Segment.isLegal = true := by
  simp only [List.all_eq_true] at h ⊢
  exact fun x hx => h x (List.mem_of_mem_take hx)

def take (p : Path) (n : Nat) : Path :=
  ⟨p.segments.take n, all_take p.legal n, by
    have := p.shallow
    simp only [List.length_take]
    omega⟩

def parent? (p : Path) : Option Path := if p.isRoot then none else some (p.take (p.depth - 1))

def last? (p : Path) : Option String := p.segments.getLast?

def segment? (p : Path) (n : Nat) : Option String := p.segments[n]?

def ancestors (p : Path) : List Path := (List.range p.depth).map p.take

def isPrefixOf (p q : Path) : Bool := p.segments.isPrefixOf q.segments

def isStrictPrefixOf (p q : Path) : Bool := decide (p.depth < q.depth) && p.isPrefixOf q

def compareSegments : List String → List String → Ordering
  | [], [] => .eq
  | [], _ :: _ => .lt
  | _ :: _, [] => .gt
  | a :: as, b :: bs => (Segment.compare a b).then (compareSegments as bs)

/-- The order of paths: segment by segment, and a path before those below it. -/
def compare (p q : Path) : Ordering := compareSegments p.segments q.segments

def text (p : Path) : String :=
  if p.isRoot then "/" else String.join (p.segments.map ("/" ++ ·))

def diagnostic (p : Path) : String := "Path(" ++ p.text ++ ")"

end Path

end LiveTree
