import TimeLint.Offense.Kind
import TimeLint.Syntax.Cursor

/-!
References to the target constant, and the call made on one. `Timecop` alone and `::Timecop` refer to
the target; `Foo::Timecop`, a method of that name and the left side of an assignment do not. A call is
taken up only if it is a plain send, through `.` or `::`.
-/

namespace TimeLint.Offense

structure Call where
  method : String
  selector : Node
  arguments : Option Node
  block : Option Node
deriving Repr, Inhabited

structure Reference where
  node : Node
  call : Option Call
deriving Repr, Inhabited

def isAssignment (n : Node) : Bool := n.kind == "assignment" || n.kind == "operator_assignment"

/-- Where the constant stands does not make it something else than a reference. -/
def standsFree (c : Cursor) : Bool :=
  match c.parent? with
  | none => true
  | some p =>
    if p.node.kind == "call" && c.fills "method" then false
    else if isAssignment p.node && c.fills "left" then false
    else if p.node.kind == "scope_resolution" && c.fills "name" then (p.node.child? "scope").isNone
    else true

def isTarget (source : Bytes) (c : Cursor) : Bool :=
  c.node.kind == "constant" && c.node.text source == target && standsFree c

/-- The whole of `::Timecop` if the constant is its name, else the constant. -/
def referenceAt (c : Cursor) : Cursor :=
  match c.parent? with
  | some p => if p.node.kind == "scope_resolution" && c.fills "name" then p else c
  | none => c

/-- Something is assigned to the call, so that it sends the writer method. -/
def isAssigned (call : Cursor) : Bool :=
  match call.parent? with
  | none => false
  | some p => p.node.kind == "left_assignment_list" || (isAssignment p.node && call.fills "left")

/-- The last bare token before the selector. -/
def operator? (call selector : Node) : Option String :=
  ((call.children.filter fun n => !n.named && n.stop ≤ selector.start).map (·.kind)).getLast?

def isSend (operator : Option String) : Bool := operator == some "." || operator == some "::"

/-- The call on `reference`, where `call` is its parent and `selector` the parent's method. -/
def callWith (source : Bytes) (call : Cursor) (selector : Node) : Call :=
  let implicit := selector.kind == "argument_list"
  let name := if implicit then "call" else selector.text source
  { method := if isAssigned call then name ++ "=" else name
    selector
    arguments := if implicit then some selector else call.node.child? "arguments"
    block := call.node.child? "block" }

def callOn (source : Bytes) (reference : Cursor) : Option Call :=
  match reference.parent? with
  | none => none
  | some p =>
    if p.node.kind == "call" && reference.fills "receiver" then
      match p.node.child? "method" with
      | none => none
      | some selector =>
        if isSend (operator? p.node selector) then some (callWith source p selector) else none
    else none

/-- The reference that the node at `c` makes, if it makes one. -/
def reference? (source : Bytes) (c : Cursor) : Option Reference :=
  if isTarget source c then
    let r := referenceAt c
    some ⟨r.node, callOn source r⟩
  else none

end TimeLint.Offense
