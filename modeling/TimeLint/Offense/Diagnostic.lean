import TimeLint.Edit.Batch
import TimeLint.Offense.Reference

/-!
What is said about a reference: its kind, the range it is reported at, and the edit that corrects it.
Edits cover receiver and selector only, so arguments and blocks stay as they are. `checkTree` visits
the nodes in pre-order.
-/

namespace TimeLint

structure SourceRange where
  start : Int
  stop : Int
  startLine : Int
  startColumn : Int
  endLine : Int
  endColumn : Int
deriving Repr, DecidableEq, Inhabited

structure Diagnostic where
  range : SourceRange
  message : String
  kind : Offense.Kind
  rule : String
  correctable : Bool
deriving Repr, DecidableEq, Inhabited

namespace Offense

/-- What a verdict depends on. -/
structure Shape where
  method : Option String
  argumentCount : Int
  hasBlock : Bool
  multiline : Bool
deriving Repr, DecidableEq, Inhabited

def argumentCount : Option Node → Nat
  | none => 0
  | some list => (list.namedChildren.filter fun n => n.kind != "comment").length

def Reference.shape (r : Reference) : Shape :=
  match r.call with
  | none => ⟨none, 0, false, false⟩
  | some call =>
    { method := some call.method
      argumentCount := argumentCount call.arguments
      hasBlock := call.block.isSome
      multiline := r.node.extent.last.row != call.selector.extent.first.row }

/-- A frozen clock takes no argument, and travelling back takes no block. -/
def classify (s : Shape) : Kind × Correction :=
  match s.method with
  | some "freeze" =>
    if s.argumentCount == 0 then (.noArgBareCall, .freezeTime) else (.callWithArguments, .none)
  | some "return" => (.returnCall, if s.hasBlock then .none else .travelBack)
  | some "travel" => (.travelCall, .none)
  | _ => (.genericUsage, .none)

/-- From the start of `a` to the end of `b`, with lines and columns from one. -/
def rangeOf (a b : Node) : SourceRange :=
  { start := a.start
    stop := b.stop
    startLine := a.extent.first.row + 1
    startColumn := a.extent.first.column + 1
    endLine := b.extent.last.row + 1
    endColumn := b.extent.last.column + 1 }

/-- A call is reported from receiver to arguments, without its block. -/
def Reference.range (r : Reference) : SourceRange :=
  match r.call with
  | none => rangeOf r.node r.node
  | some call => rangeOf r.node (call.arguments.getD call.selector)

def Reference.diagnostic (r : Reference) : Diagnostic :=
  let (kind, correction) := classify r.shape
  { range := r.range, message := kind.message, kind, rule, correctable := correction != .none }

def Reference.editFor (r : Reference) (correction : Correction) : Option Edit :=
  match correction.replacement?, r.call with
  | some token, some call => some ⟨r.node.start, call.selector.stop, token⟩
  | _, _ => none

def Reference.edit (r : Reference) : Option Edit := r.editFor (classify r.shape).2

end Offense

structure CheckResult where
  diagnostics : List Diagnostic
  edits : List Edit
deriving Repr, DecidableEq, Inhabited

/-- The references in a tree, in the order in which they are reported. -/
def references (source : Bytes) (tree : Node) : List Offense.Reference :=
  (Cursor.walk #[.root tree]).filterMap (Offense.reference? source)

def checkTree (source : Bytes) (tree : Node) : CheckResult :=
  let found := references source tree
  ⟨found.map (·.diagnostic), found.filterMap (·.edit)⟩

end TimeLint
