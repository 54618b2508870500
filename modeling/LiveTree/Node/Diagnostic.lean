import LiveTree.Decimal.Layout
import LiveTree.Node.Basic
import LiveTree.Text

/-!
Nodes as diagnostics show them: leaves with the name of their type, internal nodes as braces
around their children.
-/

namespace LiveTree.Node

/-- Numbers are never written with an exponent, and whole ones have no point. -/
def numberLayout : Decimal.Layout := ⟨fun _ => true, [], .up⟩

def numberText (n : Double) : String :=
  if n.isNaN then "NaN"
  else if n.isFinite then String.ofList (n.write numberLayout)
  else if n.negative then "-inf" else "inf"

def braced (entries : List String) : String := "\x7b" ++ String.intercalate ", " entries ++ "\x7d"

mutual

def diagnostic : Node → String
  | null => "Null"
  | bool b => "Bool(" ++ toString b ++ ")"
  | number n _ => "Number(" ++ numberText n ++ ")"
  | text s _ => "String(" ++ Text.quoted s ++ ")"
  | internal ⟨root, _⟩ _ => braced (diagnosticEntries root)

def diagnosticEntries : AvlTree String Node → List String
  | .nil => []
  | .node _ l k n r =>
    diagnosticEntries l ++ (Text.quoted k ++ ": " ++ n.diagnostic) :: diagnosticEntries r

end

end LiveTree.Node
