import TimeLint.Syntax.Node

/-!
Strict reading: a tree that holds a fault is refused, with the line of the first fault on the first
broken path from the root.
-/

namespace TimeLint

/-- A source refused by a strict reading. -/
structure SyntaxFault where
  line : Option Int
deriving Repr, DecidableEq, Inhabited

def SyntaxFault.message (f : SyntaxFault) : String :=
  match f.line with
  | none => "Failed to parse Ruby source"
  | some n => s!"Failed to parse Ruby source (line {n})"

namespace Node

mutual

def faultLine : Node → Option Int
  | ⟨kind, extent, _, missing, _, _, cs⟩ =>
    if kind == "ERROR" || missing then some (extent.first.row + 1) else faultLines cs

/-- Only the first broken child is looked into. -/
def faultLines : List Node → Option Int
  | [] => none
  | n :: ns => if n.broken then faultLine n else faultLines ns

end

/-- The tree itself, unless it is broken. -/
def strict (tree : Node) : Except SyntaxFault Node :=
  if tree.broken then .error ⟨tree.faultLine⟩ else .ok tree

end Node

end TimeLint
